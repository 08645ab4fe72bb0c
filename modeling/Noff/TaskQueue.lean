import Noff.Dispatcher
import Mathlib.Algebra.BigOperators.Group.Finset.Basic
import Mathlib.Algebra.BigOperators.Ring.Finset
import Mathlib.Data.Fintype.BigOperators

/-!
# `TaskQueue.cc`: packets between the threads

The capture thread and the workers take steps in any order: the capture thread
copies a packet, compares the size of a queue with its limit, pushes the task and
counts it; a worker takes a task, runs it, and frees the copy at its end. Tasks and
copies are conserved as long as no queue is found full, as `onIpFragment` does not
free the copy of a packet that is refused, and as no counter overflows
(`conserves_iff`).
-/

namespace Noff

/-- Where the capture thread is in `onIpFragment`. -/
inductive Capture (nWorkers : Nat) where
  | idle
  /-- The packet is copied, and `nonBlockingRun` is called. -/
  | copied (index : Fin nWorkers) (t : Task)
  /-- The queue was not full. -/
  | admitted (index : Fin nWorkers) (t : Task)
  /-- The task is in the queue. -/
  | pushed (index : Fin nWorkers)

structure Dispatching (nWorkers : Nat) where
  dispatcher : Dispatcher nWorkers
  capture : Capture nWorkers
  /-- The tasks that the workers run. -/
  running : Fin nWorkers → Option Task
  /-- The copies of packets that have been allocated, and those of them that have been freed. -/
  allocated : Nat
  freed : Nat

/-- A step of the capture thread or of a worker. -/
inductive Action (nWorkers : Nat) where
  | call (t : Task)
  | check
  | push
  | count
  | take (index : Fin nWorkers)
  | finish (index : Fin nWorkers)

/-- A task that goes into a queue, or that is run. -/
inductive Dispatched (nWorkers : Nat) where
  | accepted (index : Fin nWorkers) (t : Task)
  | run (index : Fin nWorkers) (t : Task)

variable {nWorkers : Nat} [NeZero nWorkers]

namespace Dispatching

/-- A step, if the thread can take it. -/
def step (s : Dispatching nWorkers) :
    Action nWorkers → Option (Dispatching nWorkers × List (Dispatched nWorkers))
  | .call t =>
    match s.capture with
    | .idle =>
      match indexOf nWorkers s.dispatcher.shard t.ip with
      | none => some (s, [])
      | some index =>
        some ({ s with capture := .copied index t, allocated := s.allocated + 1 }, [])
    | _ => none
  | .check =>
    match s.capture with
    | .copied index t =>
      if (s.dispatcher.workers index).length < s.dispatcher.maxQueueSize then
        some ({ s with capture := .admitted index t }, [])
      -- The task is dropped here, and not the copy of the packet.
      else some ({ s with capture := .idle }, [])
    | _ => none
  | .push =>
    match s.capture with
    | .admitted index t =>
      some ({ s with
        capture := .pushed index
        dispatcher.workers :=
          Function.update s.dispatcher.workers index (s.dispatcher.workers index ++ [t]) },
        [.accepted index t])
    | _ => none
  | .count =>
    match s.capture with
    | .pushed index =>
      some ({ s with
        capture := .idle
        dispatcher.taskCounter := Function.update s.dispatcher.taskCounter index
          (s.dispatcher.taskCounter index + 1) }, [])
    | _ => none
  | .take index =>
    match s.running index, s.dispatcher.workers index with
    | none, t :: ts =>
      some ({ s with
        dispatcher.workers := Function.update s.dispatcher.workers index ts
        running := Function.update s.running index (some t) }, [.run index t])
    | _, _ => none
  | .finish index =>
    match s.running index with
    | some _ =>
      some ({ s with running := Function.update s.running index none, freed := s.freed + 1 }, [])
    | none => none

/-- The dispatcher as it is started. -/
def start (shard : Sharding) (maxQueueSize : Nat) : Dispatching nWorkers :=
  ⟨⟨shard, maxQueueSize, fun _ => [], fun _ => 0⟩, .idle, fun _ => none, 0, 0⟩

/-- A call that no worker interferes with is `onIpFragment`. -/
theorem run_call (s : Dispatching nWorkers) (h : s.capture = .idle) (t : Task) :
    ∃ as s' os, run step s (.call t :: as) = some (s', os) ∧ s'.capture = .idle ∧
      s'.dispatcher = s.dispatcher.onIpFragment t.ip t.timeStamp := by
  rw [Dispatcher.onIpFragment]
  cases hi : indexOf nWorkers s.dispatcher.shard t.ip with
  | none =>
    refine ⟨[], s, [], ?_, h, rfl⟩
    rw [run_singleton, step, h]
    dsimp only
    rw [hi]
  | some index =>
    by_cases hroom : (s.dispatcher.workers index).length < s.dispatcher.maxQueueSize
    · refine ⟨[.check, .push, .count], { s with
        capture := .idle
        allocated := s.allocated + 1
        dispatcher.workers :=
          Function.update s.dispatcher.workers index (s.dispatcher.workers index ++ [t])
        dispatcher.taskCounter := Function.update s.dispatcher.taskCounter index
          (s.dispatcher.taskCounter index + 1) }, [.accepted index t], ?_, rfl, (if_pos hroom).symm⟩
      simp [run, step, h, hi, hroom]
    · refine ⟨[.check], { s with allocated := s.allocated + 1, capture := .idle }, [], ?_, rfl, ?_⟩
      · simp [run, step, h, hi, hroom]
      · exact (if_neg hroom).symm

/-! ## What is conserved -/

/-- The packets with an index that are captured. -/
def captured (shard : Sharding) (index : Fin nWorkers) (as : List (Action nWorkers)) : List Task :=
  as.filterMap fun a =>
    match a with
    | .call t => if indexOf nWorkers shard t.ip = some index then some t else none
    | _ => none

/-- The tasks that a queue has accepted. -/
def acceptedBy (index : Fin nWorkers) (os : List (Dispatched nWorkers)) : List Task :=
  os.filterMap fun o =>
    match o with
    | .accepted i t => if i = index then some t else none
    | .run .. => none

/-- The tasks that a worker has run, or runs. -/
def ranBy (index : Fin nWorkers) (os : List (Dispatched nWorkers)) : List Task :=
  os.filterMap fun o =>
    match o with
    | .accepted .. => none
    | .run i t => if i = index then some t else none

/-- The tasks queued or running. -/
def tasks (s : Dispatching nWorkers) : Nat :=
  ∑ i, ((s.dispatcher.workers i).length + (s.running i).toList.length)

/-- A worker runs the tasks accepted for it, in the order of their packets, and no queue is
longer than its limit. Between calls, the counters are right and there are as many copies as tasks. -/
structure Conserved (as : List (Action nWorkers)) (s : Dispatching nWorkers)
    (os : List (Dispatched nWorkers)) : Prop where
  order : ∀ i, (acceptedBy i os).Sublist (captured s.dispatcher.shard i as)
  fifo : ∀ i, acceptedBy i os = ranBy i os ++ s.dispatcher.workers i
  bounded : ∀ i, (s.dispatcher.workers i).length ≤ s.dispatcher.maxQueueSize
  counter : s.capture = .idle →
    ∀ i, (s.dispatcher.taskCounter i).toInt = (acceptedBy i os).length
  copies : s.capture = .idle → s.allocated = s.freed + s.tasks

/-- The queue is not found full, and the counter does not overflow. -/
def Proceeds (s : Dispatching nWorkers) : Action nWorkers → Prop
  | .check => ∀ i t, s.capture = .copied i t →
    (s.dispatcher.workers i).length < s.dispatcher.maxQueueSize
  | .count => ∀ i, s.capture = .pushed i → (s.dispatcher.taskCounter i).toInt ≠ 2 ^ 31 - 1
  | _ => True

instance Proceeds.decidable (s : Dispatching nWorkers) : ∀ a, Decidable (Proceeds s a)
  | .check =>
    match h : s.capture with
    | .copied i t =>
      decidable_of_iff ((s.dispatcher.workers i).length < s.dispatcher.maxQueueSize)
        ⟨fun hl j u hj => by cases h.symm.trans hj; exact hl, fun hp => hp i t h⟩
    | .idle | .admitted .. | .pushed .. => .isTrue fun j u hj => by cases h.symm.trans hj
  | .count =>
    match h : s.capture with
    | .pushed i =>
      decidable_of_iff ((s.dispatcher.taskCounter i).toInt ≠ 2 ^ 31 - 1)
        ⟨fun hn j hj => by cases h.symm.trans hj; exact hn, fun hp => hp i h⟩
    | .idle | .copied .. | .admitted .. => .isTrue fun j hj => by cases h.symm.trans hj
  | .call _ | .push | .take _ | .finish _ => .isTrue trivial

/-! ## Within a call -/

end Dispatching

namespace Capture

/-- The task for a queue that is not yet in it. -/
def pending (c : Capture nWorkers) (i : Fin nWorkers) : List Task :=
  match c with
  | copied index t | admitted index t => if index = i then [t] else []
  | _ => []

/-- The room in a queue that the capture thread relies on. -/
def claimed (c : Capture nWorkers) (i : Fin nWorkers) : Nat :=
  match c with
  | admitted index _ => if index = i then 1 else 0
  | _ => 0

/-- The task in a queue that is not yet counted. -/
def uncounted (c : Capture nWorkers) (i : Fin nWorkers) : Nat :=
  match c with
  | pushed index => if index = i then 1 else 0
  | _ => 0

/-- The copy that is in no task yet. -/
def held (c : Capture nWorkers) : Nat :=
  match c with
  | copied .. | admitted .. => 1
  | _ => 0

end Capture

namespace Dispatching

/-- What holds at every step, also within a call. -/
structure Inv (as : List (Action nWorkers)) (s : Dispatching nWorkers)
    (os : List (Dispatched nWorkers)) : Prop where
  order : ∀ i, (acceptedBy i os ++ s.capture.pending i).Sublist (captured s.dispatcher.shard i as)
  fifo : ∀ i, acceptedBy i os = ranBy i os ++ s.dispatcher.workers i
  bounded : ∀ i, (s.dispatcher.workers i).length + s.capture.claimed i ≤ s.dispatcher.maxQueueSize
  counter : ∀ i, (s.dispatcher.taskCounter i).toInt + s.capture.uncounted i = (acceptedBy i os).length
  copies : s.allocated = s.freed + s.tasks + s.capture.held

variable {s s' : Dispatching nWorkers} {as : List (Action nWorkers)} {a : Action nWorkers}
  {os os' : List (Dispatched nWorkers)}

theorem Inv.conserved (h : Inv as s os) : Conserved as s os where
  order i := (List.sublist_append_left ..).trans (h.order i)
  fifo := h.fifo
  bounded i := (Nat.le_add_right ..).trans (h.bounded i)
  counter hidle i := by
    have hc := h.counter i
    rw [hidle] at hc
    simpa [Capture.uncounted] using hc
  copies hidle := by
    have hc := h.copies
    rw [hidle] at hc
    exact hc

theorem inv_start (shard : Sharding) (maxQueueSize : Nat) :
    Inv [] (start shard maxQueueSize : Dispatching nWorkers) [] where
  order _ := .refl _
  fifo _ := rfl
  bounded _ := Nat.zero_le _
  counter _ := rfl
  copies := by simp [start, tasks, Capture.held]

omit [NeZero nWorkers] in
/-- A change at one worker changes the number of tasks as it changes those of the worker. -/
theorem tasks_off (s s' : Dispatching nWorkers) (i : Fin nWorkers) (h : ∀ j, j ≠ i →
      s'.dispatcher.workers j = s.dispatcher.workers j ∧ s'.running j = s.running j) :
    s'.tasks + ((s.dispatcher.workers i).length + (s.running i).toList.length) =
      s.tasks + ((s'.dispatcher.workers i).length + (s'.running i).toList.length) := by
  have hs := Finset.add_sum_erase Finset.univ
    (fun j => (s.dispatcher.workers j).length + (s.running j).toList.length) (Finset.mem_univ i)
  have hs' := Finset.add_sum_erase Finset.univ
    (fun j => (s'.dispatcher.workers j).length + (s'.running j).toList.length) (Finset.mem_univ i)
  have hrest : ∑ j ∈ Finset.univ.erase i,
      ((s'.dispatcher.workers j).length + (s'.running j).toList.length) =
      ∑ j ∈ Finset.univ.erase i, ((s.dispatcher.workers j).length + (s.running j).toList.length) := by
    refine Finset.sum_congr rfl fun j hj => ?_
    obtain ⟨hq, hr⟩ := h j (Finset.ne_of_mem_erase hj)
    rw [hq, hr]
  rw [tasks, tasks]
  omega

theorem captured_concat (shard : Sharding) (i : Fin nWorkers) (as : List (Action nWorkers))
    (a : Action nWorkers) : captured shard i (as ++ [a]) = captured shard i as ++ captured shard i [a] :=
  List.filterMap_append

omit [NeZero nWorkers] in
theorem acceptedBy_append (i : Fin nWorkers) (os os' : List (Dispatched nWorkers)) :
    acceptedBy i (os ++ os') = acceptedBy i os ++ acceptedBy i os' := List.filterMap_append

omit [NeZero nWorkers] in
theorem ranBy_append (i : Fin nWorkers) (os os' : List (Dispatched nWorkers)) :
    ranBy i (os ++ os') = ranBy i os ++ ranBy i os' := List.filterMap_append

theorem Inv.call {t : Task} (h : Inv as s os) (hs : s.step (.call t) = some (s', os')) :
    Inv (as ++ [.call t]) s' (os ++ os') := by
  rw [step] at hs
  split at hs
  case h_2 => cases hs
  rename_i hidle
  split at hs
  · rename_i hi
    cases hs
    rw [List.append_nil]
    refine ⟨fun i => ?_, h.fifo, h.bounded, h.counter, h.copies⟩
    rw [captured_concat]
    exact (h.order i).trans (List.sublist_append_left ..)
  · rename_i index hi
    cases hs
    have horder := h.order
    have hbounded := h.bounded
    have hcounter := h.counter
    have hcopies := h.copies
    simp only [hidle, Capture.pending, List.append_nil, Capture.claimed, Capture.uncounted,
      Capture.held] at horder hbounded hcounter hcopies
    rw [List.append_nil]
    refine ⟨fun i => ?_, h.fifo, hbounded, hcounter, ?_⟩
    · rw [captured_concat]
      refine (horder i).append ?_
      simp only [Capture.pending, captured, List.filterMap_cons, hi, Option.some.injEq,
        List.filterMap_nil]
      split <;> simp
    · show s.allocated + 1 = s.freed + s.tasks + 1
      omega

/-- The check of the size keeps the account if the queue is not full. -/
theorem Inv.check (h : Inv as s os) (hp : s.Proceeds .check) (hs : s.step .check = some (s', os')) :
    Inv (as ++ [.check]) s' (os ++ os') := by
  rw [step] at hs
  split at hs
  case h_2 => cases hs
  rename_i index t hcopied
  rw [if_pos (hp index t hcopied)] at hs
  cases hs
  have horder := h.order
  have hcounter := h.counter
  have hcopies := h.copies
  simp only [hcopied, Capture.pending, Capture.uncounted, Capture.held] at horder hcounter hcopies
  rw [List.append_nil]
  refine ⟨fun i => ?_, h.fifo, fun i => ?_, hcounter, hcopies⟩
  · rw [captured_concat]
    exact (horder i).trans (List.sublist_append_left ..)
  · simp only [Capture.claimed]
    split
    case isTrue heq => exact heq ▸ hp index t hcopied
    case isFalse => exact (Nat.le_add_right ..).trans (h.bounded i)

theorem Inv.push (h : Inv as s os) (hs : s.step .push = some (s', os')) :
    Inv (as ++ [.push]) s' (os ++ os') := by
  rw [step] at hs
  split at hs
  case h_2 => cases hs
  rename_i index t hadmitted
  cases hs
  have horder := h.order
  have hbounded := h.bounded
  have hcounter := h.counter
  have hcopies := h.copies
  simp only [hadmitted, Capture.pending, Capture.claimed, Capture.uncounted, Capture.held]
    at horder hbounded hcounter hcopies
  have hacc (i : Fin nWorkers) : acceptedBy i (os ++ [.accepted index t]) =
      acceptedBy i os ++ if index = i then [t] else [] := by
    rw [acceptedBy_append]
    by_cases heq : index = i <;> simp [acceptedBy, heq]
  refine ⟨fun i => ?_, fun i => ?_, fun i => ?_, fun i => ?_, ?_⟩
  · rw [captured_concat, hacc]
    simp only [Capture.pending, List.append_nil]
    exact (horder i).trans (List.sublist_append_left ..)
  · rw [hacc, h.fifo, ranBy_append]
    by_cases heq : index = i
    · subst heq
      simp [ranBy]
    · simp [ranBy, heq, Function.update_of_ne (Ne.symm heq)]
  · have hb := hbounded i
    by_cases heq : index = i
    · subst heq
      simpa [Capture.claimed] using hb
    · simpa [Capture.claimed, heq, Function.update_of_ne (Ne.symm heq)] using hb
  · have hc := hcounter i
    rw [hacc]
    by_cases heq : index = i
    · simp [Capture.uncounted, heq] at hc ⊢
      omega
    · simpa [Capture.uncounted, heq] using hc
  · have ht := tasks_off s { s with
      capture := .pushed index
      dispatcher.workers :=
        Function.update s.dispatcher.workers index (s.dispatcher.workers index ++ [t]) } index
      fun j hj => ⟨Function.update_of_ne hj .., rfl⟩
    simp only [Function.update_self, List.length_append, List.length_singleton] at ht
    simp only [Capture.held]
    omega

omit [NeZero nWorkers] in
theorem toInt_succ {x : BitVec 32} (h : x.toInt ≠ 2 ^ 31 - 1) : (x + 1).toInt = x.toInt + 1 := by
  have hlt := BitVec.toInt_lt (x := x)
  have hle := BitVec.le_toInt (x := x)
  have hone : (1 : BitVec 32).toInt = 1 := by decide
  rw [BitVec.toInt_add, hone, Int.bmod_eq_of_le] <;> norm_num at * <;> omega

/-- The counter is right if it does not overflow. -/
theorem Inv.count (h : Inv as s os) (hp : s.Proceeds .count) (hs : s.step .count = some (s', os')) :
    Inv (as ++ [.count]) s' (os ++ os') := by
  rw [step] at hs
  split at hs
  case h_2 => cases hs
  rename_i index hpushed
  cases hs
  have horder := h.order
  have hbounded := h.bounded
  have hcounter := h.counter
  have hcopies := h.copies
  simp only [hpushed, Capture.pending, Capture.claimed, Capture.uncounted, Capture.held]
    at horder hbounded hcounter hcopies
  rw [List.append_nil]
  refine ⟨fun i => ?_, h.fifo, hbounded, fun i => ?_, hcopies⟩
  · rw [captured_concat]
    exact (horder i).trans (List.sublist_append_left ..)
  · have hc := hcounter i
    by_cases heq : index = i
    · subst heq
      simp only [Function.update_self, Capture.uncounted, if_true] at hc ⊢
      rw [toInt_succ (hp index hpushed)]
      omega
    · simpa [Capture.uncounted, heq, Function.update_of_ne (Ne.symm heq)] using hc

theorem Inv.take {index : Fin nWorkers} (h : Inv as s os) (hs : s.step (.take index) = some (s', os')) :
    Inv (as ++ [.take index]) s' (os ++ os') := by
  rw [step] at hs
  split at hs
  case h_2 => cases hs
  rename_i t ts hrun hqueue
  cases hs
  have hran (i : Fin nWorkers) : ranBy i (os ++ [.run index t]) =
      ranBy i os ++ if index = i then [t] else [] := by
    rw [ranBy_append]
    by_cases heq : index = i <;> simp [ranBy, heq]
  have hacc (i : Fin nWorkers) : acceptedBy i (os ++ [.run index t]) = acceptedBy i os := by
    rw [acceptedBy_append]
    exact List.append_nil _
  refine ⟨fun i => ?_, fun i => ?_, fun i => ?_, fun i => ?_, ?_⟩
  · rw [captured_concat, hacc]
    exact (h.order i).trans (List.sublist_append_left ..)
  · rw [hacc, hran, h.fifo]
    by_cases heq : index = i
    · subst heq
      simp [hqueue]
    · simp [heq, Function.update_of_ne (Ne.symm heq)]
  · have hb := h.bounded i
    by_cases heq : index = i
    · subst heq
      simp only [hqueue, List.length_cons] at hb
      simp only [Function.update_self]
      omega
    · simpa [Function.update_of_ne (Ne.symm heq)] using hb
  · rw [hacc]
    exact h.counter i
  · have hc := h.copies
    have ht := tasks_off s { s with
      dispatcher.workers := Function.update s.dispatcher.workers index ts
      running := Function.update s.running index (some t) } index
      fun j hj => ⟨Function.update_of_ne hj .., Function.update_of_ne hj ..⟩
    simp only [Function.update_self, hqueue, hrun, List.length_cons, Option.toList_none,
      Option.toList_some, List.length_nil] at ht
    dsimp only
    omega

theorem Inv.finish {index : Fin nWorkers} (h : Inv as s os)
    (hs : s.step (.finish index) = some (s', os')) : Inv (as ++ [.finish index]) s' (os ++ os') := by
  rw [step] at hs
  split at hs
  case h_2 => cases hs
  rename_i t hrun
  cases hs
  rw [List.append_nil]
  refine ⟨fun i => ?_, h.fifo, h.bounded, h.counter, ?_⟩
  · rw [captured_concat]
    exact (h.order i).trans (List.sublist_append_left ..)
  · have hc := h.copies
    have ht := tasks_off s { s with
      running := Function.update s.running index none, freed := s.freed + 1 } index
      fun j hj => ⟨rfl, Function.update_of_ne hj ..⟩
    simp only [Function.update_self, hrun, Option.toList_none, Option.toList_some, List.length_nil,
      List.length_singleton] at ht
    dsimp only
    omega

/-- A step that does not find a queue full, nor lets a counter overflow, keeps the account. -/
theorem Inv.step (h : Inv as s os) (hp : s.Proceeds a) (hs : s.step a = some (s', os')) :
    Inv (as ++ [a]) s' (os ++ os') := by
  cases a with
  | call t => exact h.call hs
  | check => exact h.check hp hs
  | push => exact h.push hs
  | count => exact h.count hp hs
  | take index => exact h.take hs
  | finish index => exact h.finish hs

/-- A step that does ends a call, and the copies or the counter are wrong. -/
theorem Inv.not_conserved (h : Inv as s os) (hp : ¬ s.Proceeds a) :
    ∃ s' os', s.step a = some (s', os') ∧ ¬ Conserved (as ++ [a]) s' (os ++ os') := by
  cases a with
  | check =>
    simp only [Proceeds, not_forall] at hp
    obtain ⟨index, t, hcopied, hfull⟩ := hp
    refine ⟨{ s with capture := .idle }, [], by rw [Dispatching.step, hcopied]; exact if_neg hfull, fun hc => ?_⟩
    have hcopies := h.copies
    rw [hcopied] at hcopies
    have hcopies' : s.allocated = s.freed + s.tasks := hc.copies rfl
    simp only [Capture.held] at hcopies
    omega
  | count =>
    simp only [Proceeds, not_forall, not_not] at hp
    obtain ⟨index, hpushed, hmax⟩ := hp
    refine ⟨_, [], by rw [Dispatching.step, hpushed], fun hc => ?_⟩
    have hcounter := hc.counter rfl index
    have hx : s.dispatcher.taskCounter index = BitVec.intMax 32 :=
      BitVec.eq_of_toInt_eq (hmax.trans (by decide))
    simp only [Function.update_self, hx] at hcounter
    have hneg : (BitVec.intMax 32 + 1).toInt = -2 ^ 31 := by decide
    omega
  | call | push | take | finish => exact absurd trivial hp

/-- Tasks and copies are conserved at every step of a run if and only if no packet finds its
queue full, and no counter overflows. -/
theorem conserves_iff (shard : Sharding) (maxQueueSize : Nat) (as : List (Action nWorkers)) :
    (∀ as₁ as₂ s os, as = as₁ ++ as₂ → run step (start shard maxQueueSize) as₁ = some (s, os) →
      Conserved as₁ s os) ↔ Along step Proceeds (start shard maxQueueSize) as := by
  constructor
  · intro h
    induction as using List.reverseRecOn with
    | nil => exact .nil
    | append_singleton as a ih =>
      have ha := ih fun as₁ as₂ s os he => h as₁ (as₂ ++ [a]) s os (by rw [he, List.append_assoc])
      refine ha.concat fun s os hr => ?_
      have hi : Inv as s os := run_induction_along (inv_start shard maxQueueSize)
        (fun _ hi hp hs => hi.step hp hs) hr ha
      by_contra hp
      obtain ⟨s', os', hs, hnot⟩ := hi.not_conserved hp
      exact hnot (h _ [] s' _ (List.append_nil _).symm (run_concat.mpr ⟨s, os, s', os', hr, hs, rfl⟩))
  · rintro ha as₁ as₂ s os rfl hr
    have hi : Inv as₁ s os := run_induction_along (inv_start shard maxQueueSize)
      (fun _ hi hp hs => hi.step hp hs) hr ha.left
    exact hi.conserved

/-- An ICMP packet, of which two are captured for the one worker. -/
def icmpPacket : Task :=
  ⟨[0x45, 0, 0, 20, 0, 1, 0, 0, 64, 1, 0, 0, 10, 0, 0, 1, 10, 0, 0, 2], 0⟩

/-- The worker has taken the first before the second is queued. -/
def inTurn : List (Action 1) :=
  [.call icmpPacket, .check, .push, .count, .take 0, .call icmpPacket, .check, .push, .count]

theorem conserves_inTurn : ∃ (s : Dispatching 1) (os : List (Dispatched 1)),
    run step (start ⟨⟨#[0, 0, 0, 0, 0, 0], rfl⟩, ⟨#[0, 1, 2, 3, 4, 5], rfl⟩⟩ 1) inTurn = some (s, os) ∧
      Conserved inTurn s os := by
  have hproceeds : Along step Proceeds
      (start ⟨⟨#[0, 0, 0, 0, 0, 0], rfl⟩, ⟨#[0, 1, 2, 3, 4, 5], rfl⟩⟩ 1) inTurn := by decide +kernel
  refine ⟨_, _, rfl, ?_⟩
  exact (conserves_iff _ 1 inTurn).mpr hproceeds inTurn [] _ _ (List.append_nil _).symm rfl

/-- The second finds the queue full: there are two copies, and one task. -/
theorem copy_left_behind : ∃ (s : Dispatching 1) (os : List (Dispatched 1)),
    run step (start ⟨⟨#[0, 0, 0, 0, 0, 0], rfl⟩, ⟨#[0, 1, 2, 3, 4, 5], rfl⟩⟩ 1)
        [.call icmpPacket, .check, .push, .count, .call icmpPacket, .check] = some (s, os) ∧
      s.allocated = 2 ∧ s.freed = 0 ∧ s.tasks = 1 ∧
      ¬ Conserved [.call icmpPacket, .check, .push, .count, .call icmpPacket, .check] s os := by
  refine ⟨_, _, rfl, rfl, rfl, rfl, fun h => ?_⟩
  exact absurd (h.copies rfl) (by decide)

end Dispatching

end Noff
