import Mathlib.Algebra.BigOperators.Group.Finset.Basic
import Mathlib.Algebra.BigOperators.Fin
import Noff.App.Timer
import Noff.Lib.Run
import Noff.Util

/-!
# `ProtocolPacketCounter.cc`

Threads that call `onTcpData` and `onUdpData` on one instance. A step of a thread
is one atomic operation: an increment, the test of the timer, one `getAndSet`,
or the call of `counterCallback_`. What is in the counters, what a reporting
thread holds, what has been reported and what the calls in progress have yet to
count are together the packets of a protocol (`Counts`), unless one went to
port 80 (`counters_conserved`).
-/

namespace Noff

/-- `N_PROTOCOLS` counters: DNS, SMTP, POP3, HTTP, HTTPS, TELNET and FTP. -/
abbrev Protocol := Fin 7

/-- A call of one of the two functions, with the second of its time stamp. -/
inductive Handler where
  | onTcpData (dest : BitVec 16) (sec : Int)
  | onUdpData (t4 : Tuple4) (sec : Int)

def Handler.sec : Handler → Int
  | .onTcpData _ sec => sec
  | .onUdpData _ sec => sec

/-- The counters that a call increments: the cases of the `switch`, of which that of port 80
goes on into the next. There are none where the function returns at once. -/
def Handler.increments : Handler → List Protocol
  | .onTcpData dest _ =>
    if dest = 25 then [1]
    else if dest = 110 then [2]
    else if dest = 80 then [3, 4]
    else if dest = 443 then [4]
    else if dest = 23 then [5]
    else if dest = 21 then [6]
    else []
  | .onUdpData t4 _ => if t4.dest = 53 ∨ t4.source = 53 then [0] else []

/-- Where a thread is: it handles no packet; it has the counters `is` left to increment; it is
in front of `checkTime`; it has drained the first counters into `values`. -/
inductive Thread where
  | idle
  | counting (h : Handler) (is : List Protocol)
  | checking (h : Handler)
  | reporting (values : List (BitVec 32))

structure CounterState (T : Type) where
  counter : Protocol → BitVec 32
  timer : Timer
  threads : T → Thread

/-- An atomic step of a thread. A `check` may fail although it is time, if the lock is taken. -/
inductive CounterStep (T : Type) where
  | call (t : T) (h : Handler)
  | increment (t : T)
  | check (t : T) (locked : Bool)
  | getAndSet (t : T)
  | callback (t : T)

/-- What is seen from outside: a packet that is handled, and an invocation of the callback. -/
inductive CounterEvent where
  | handled (h : Handler)
  | reported (values : List (BitVec 32))

variable {T : Type} [DecidableEq T]

namespace CounterState

/-- The start: the counters are 0, and no thread is in a call. -/
def init : CounterState T := ⟨fun _ => 0, ⟨0⟩, fun _ => .idle⟩

/-- The state with thread `t` elsewhere. -/
def move (s : CounterState T) (t : T) (th : Thread) : CounterState T :=
  { s with threads := Function.update s.threads t th }

@[simp] theorem threads_move_self (s : CounterState T) (t : T) (th : Thread) :
    (s.move t th).threads t = th := Function.update_self ..

theorem threads_move_of_ne (s : CounterState T) {t u : T} (th : Thread) (h : u ≠ t) :
    (s.move t th).threads u = s.threads u := Function.update_of_ne h ..

/-- One step; `none` if the thread is not where it could take it. `callback` is whether
`counterCallback_` is set. -/
def step (callback : Bool) (s : CounterState T) :
    CounterStep T → Option (CounterState T × List CounterEvent)
  | .call t h =>
    match s.threads t with
    | .idle =>
      some (if h.increments = [] then s else s.move t (.counting h h.increments), [.handled h])
    | _ => none
  | .increment t =>
    match s.threads t with
    | .counting h (i :: is) =>
      some ({ s.move t (if is = [] then .checking h else .counting h is) with
        counter := Function.update s.counter i (s.counter i + 1) }, [])
    | _ => none
  | .check t locked =>
    match s.threads t with
    | .checking h =>
      if locked then some (s.move t .idle, [])
      else
        let (timer, timeout) := s.timer.checkTime h.sec
        some ({ s.move t (if timeout && callback then .reporting [] else .idle) with timer := timer },
          [])
    | _ => none
  | .getAndSet t =>
    match s.threads t with
    | .reporting values =>
      if h : values.length < 7 then
        some ({ s.move t (.reporting (values ++ [s.counter ⟨values.length, h⟩])) with
          counter := Function.update s.counter ⟨values.length, h⟩ 0 }, [])
      else none
    | _ => none
  | .callback t =>
    match s.threads t with
    | .reporting values =>
      if values.length < 7 then none else some (s.move t .idle, [.reported values])
    | _ => none

end CounterState

/-! ## What is counted -/

/-- The protocol of a packet, by its ports. -/
def Handler.protocol : Handler → Option Protocol
  | .onTcpData dest _ =>
    List.lookup dest [(25, 1), (110, 2), (80, 3), (443, 4), (23, 5), (21, 6)]
  | .onUdpData t4 _ => if t4.dest = 53 ∨ t4.source = 53 then some 0 else none

/-- The packets of a protocol that have been handled: a call has been made for each. -/
def handledOf (i : Protocol) (es : List CounterEvent) : Int :=
  (es.map fun e =>
    match e with
    | .handled h => if h.protocol = some i then 1 else 0
    | .reported _ => 0).sum

/-- The sum of the values that have been reported for a protocol. -/
def reportedOf (i : Protocol) (es : List CounterEvent) : Int :=
  (es.map fun e =>
    match e with
    | .handled _ => 0
    | .reported values => (values.getD i 0).toInt).sum

/-- What a thread has taken out of a counter and not yet reported. -/
def Thread.held (i : Protocol) : Thread → Int
  | .reporting values => (values.getD i 0).toInt
  | _ => 0

/-- Whether a thread is in the call for a packet of a protocol and has counted nothing yet. -/
def Thread.pending (i : Protocol) : Thread → Int
  | .counting h is => if is = h.increments ∧ h.protocol = some i then 1 else 0
  | _ => 0

/-- The packet of a call does not go to port 80, and the counter that is incremented is no
`INT_MAX`. -/
def Conserving (s : CounterState T) : CounterStep T → Prop
  | .call _ (.onTcpData dest _) => dest ≠ 80
  | .increment t => ∀ h i is, s.threads t = .counting h (i :: is) → (s.counter i).toInt ≠ 2 ^ 31 - 1
  | _ => True

/-- A thread that counts has the counter of its packet's protocol in front of it. -/
def Counting (s : CounterState T) : Prop :=
  ∀ t h is, s.threads t = .counting h is → ∃ i, is = [i] ∧ h.increments = [i] ∧ h.protocol = some i

/-- The packets that have been handled are in the counters, with the threads that report,
reported, or yet to be counted by the call that is in progress. -/
structure Counts [Fintype T] (s : CounterState T) (es : List CounterEvent) : Prop where
  counting : Counting s
  sum : ∀ i, reportedOf i es + ∑ t, (s.threads t).held i + (s.counter i).toInt +
    ∑ t, (s.threads t).pending i = handledOf i es

theorem Handler.increments_eq {h : Handler} (h80 : ∀ sec, h ≠ .onTcpData 80 sec) :
    h.increments = [] ∧ h.protocol = none ∨ ∃ i, h.increments = [i] ∧ h.protocol = some i := by
  cases h with
  | onTcpData dest sec =>
    have hne : dest ≠ 80 := fun h => h80 sec (by rw [h])
    rw [increments, protocol]
    split_ifs with h₁ h₂ h₄ h₅ h₆
    · exact .inr ⟨1, rfl, by rw [h₁]; rfl⟩
    · exact .inr ⟨2, rfl, by rw [h₂]; rfl⟩
    · exact .inr ⟨4, rfl, by rw [h₄]; rfl⟩
    · exact .inr ⟨5, rfl, by rw [h₅]; rfl⟩
    · exact .inr ⟨6, rfl, by rw [h₆]; rfl⟩
    · refine .inl ⟨rfl, ?_⟩
      rw [List.lookup_eq_none_iff]
      simpa using ⟨h₁, h₂, hne, h₄, h₅, h₆⟩
  | onUdpData t4 sec =>
    rw [increments, protocol]
    split
    · exact .inr ⟨0, rfl, rfl⟩
    · exact .inl ⟨rfl, rfl⟩

@[simp] theorem reportedOf_nil (i : Protocol) : reportedOf i [] = 0 := rfl

@[simp] theorem handledOf_nil (i : Protocol) : handledOf i [] = 0 := rfl

theorem reportedOf_append (i : Protocol) (es es' : List CounterEvent) :
    reportedOf i (es ++ es') = reportedOf i es + reportedOf i es' := by
  rw [reportedOf, List.map_append, List.sum_append]
  rfl

theorem handledOf_append (i : Protocol) (es es' : List CounterEvent) :
    handledOf i (es ++ es') = handledOf i es + handledOf i es' := by
  rw [handledOf, List.map_append, List.sum_append]
  rfl

/-- A sum over the threads, when one of them goes elsewhere. -/
theorem sum_move [Fintype T] (f : Thread → Int) (s : CounterState T) (t : T) (th : Thread) :
    ∑ u, f ((s.move t th).threads u) = ∑ u, f (s.threads u) - f (s.threads t) + f th := by
  have hmove : (fun u => f ((s.move t th).threads u)) =
      Function.update (fun u => f (s.threads u)) t (f th) := by
    funext u
    by_cases hu : u = t
    · subst hu
      rw [CounterState.threads_move_self, Function.update_self]
    · rw [CounterState.threads_move_of_ne s th hu, Function.update_of_ne hu]
  rw [hmove, Finset.sum_update_of_mem (Finset.mem_univ t), ← Finset.add_sum_erase _ _ (Finset.mem_univ t),
    Finset.sdiff_singleton_eq_erase]
  omega

theorem Counting.move {s : CounterState T} (hs : Counting s) (t : T) {th : Thread}
    (h : ∀ h is, th = .counting h is →
      ∃ i, is = [i] ∧ h.increments = [i] ∧ h.protocol = some i) : Counting (s.move t th) := by
  intro u h' is hu
  by_cases hut : u = t
  · subst hut
    exact h h' is (by rw [← hu, CounterState.threads_move_self])
  · exact hs u h' is (by rw [← hu, CounterState.threads_move_of_ne s th hut])

variable {callback : Bool} {s s' : CounterState T} {es es' : List CounterEvent}

/-- A step of thread `t` to `th`: the equation holds if what changes of the counters, the events and
the thread balances. -/
theorem Counts.move [Fintype T] (hs : Counts s es) {t : T} {th : Thread}
    (hc : ∀ h is, th = .counting h is →
      ∃ i, is = [i] ∧ h.increments = [i] ∧ h.protocol = some i)
    (counter : Protocol → BitVec 32) (timer : Timer) (hsum : ∀ i,
      reportedOf i es' + th.held i + (counter i).toInt + th.pending i =
        handledOf i es' + (s.threads t).held i + (s.counter i).toInt + (s.threads t).pending i) :
    Counts { s.move t th with counter := counter, timer := timer } (es ++ es') := by
  refine ⟨hs.counting.move t hc, fun i => ?_⟩
  have hold := hs.sum i
  have hheld := sum_move (Thread.held i) s t th
  have hpending := sum_move (Thread.pending i) s t th
  have hbalance := hsum i
  rw [reportedOf_append, handledOf_append]
  show _ + ∑ u, ((s.move t th).threads u).held i + (counter i).toInt +
    ∑ u, ((s.move t th).threads u).pending i = _
  rw [hheld, hpending]
  omega

theorem toInt_add_one {x : BitVec 32} (h : x.toInt ≠ 2 ^ 31 - 1) : (x + 1).toInt = x.toInt + 1 := by
  have h₁ := BitVec.le_toInt x
  have h₂ := BitVec.toInt_lt (x := x)
  have hone : (1 : BitVec 32).toInt = 1 := by decide
  rw [BitVec.toInt_add, hone]
  exact Int.bmod_eq_of_le (by norm_num at h₁ ⊢; omega) (by norm_num at h₂ h ⊢; omega)

/-- The values of a thread that drains one more counter. -/
theorem getD_concat (values : List (BitVec 32)) (x : BitVec 32) (i : Nat) :
    (values ++ [x]).getD i 0 = if i = values.length then x else values.getD i 0 := by
  rw [List.getD_eq_getElem?_getD, List.getD_eq_getElem?_getD]
  split
  case isTrue h => rw [h, List.getElem?_concat_length, Option.getD_some]
  case isFalse h =>
    rcases Nat.lt_or_gt_of_ne h with hlt | hgt
    · rw [List.getElem?_append_left hlt]
    · rw [List.getElem?_eq_none (by rw [List.length_append, List.length_singleton]; omega),
        List.getElem?_eq_none (by omega)]

/-- A call: the packet is yet to be counted, if it is of a protocol. -/
theorem Counts.call [Fintype T] (hs : Counts s es) {t : T} {h : Handler} (ht : s.threads t = .idle)
    (h80 : ∀ sec, h ≠ .onTcpData 80 sec) :
    Counts (if h.increments = [] then s else s.move t (.counting h h.increments))
      (es ++ [.handled h]) := by
  have hhandled (i : Protocol) : handledOf i [.handled h] = if h.protocol = some i then 1 else 0 :=
    List.sum_singleton
  have hreported (i : Protocol) : reportedOf i [.handled h] = 0 := rfl
  rcases Handler.increments_eq h80 with ⟨hnil, hp⟩ | ⟨i, hi, hp⟩
  · -- The function returns at once, and the packet is of no protocol.
    rw [if_pos hnil]
    refine ⟨hs.counting, fun k => ?_⟩
    rw [reportedOf_append, handledOf_append, hhandled, hreported, hp, ← hs.sum k]
    simp
  · rw [if_neg (by rw [hi]; exact List.cons_ne_nil _ _)]
    refine hs.move (fun h' is he => ?_) s.counter s.timer fun k => ?_
    · cases he
      exact ⟨i, hi, hi, hp⟩
    · have hold : Thread.idle.held k = 0 ∧ Thread.idle.pending k = 0 := ⟨rfl, rfl⟩
      have hnew : (Thread.counting h h.increments).held k = 0 ∧
          (Thread.counting h h.increments).pending k = if h.protocol = some k then 1 else 0 :=
        ⟨rfl, by simp [Thread.pending]⟩
      rw [ht, hold.1, hold.2, hnew.1, hnew.2, hhandled, hreported]
      omega

/-- An increment: the packet of the call is counted. -/
theorem Counts.increment [Fintype T] (hs : Counts s es) {t : T} {h : Handler} {i : Protocol}
    {is : List Protocol} (ht : s.threads t = .counting h (i :: is))
    (hfull : (s.counter i).toInt ≠ 2 ^ 31 - 1) :
    Counts { s.move t (if is = [] then .checking h else .counting h is) with
      counter := Function.update s.counter i (s.counter i + 1) } (es ++ []) := by
  obtain ⟨j, hj, hinc, hp⟩ := hs.counting t h _ ht
  cases hj
  rw [if_pos rfl]
  refine hs.move (fun _ _ he => by cases he) _ s.timer fun k => ?_
  have hnew : (Thread.checking h).held k = 0 ∧ (Thread.checking h).pending k = 0 := ⟨rfl, rfl⟩
  have hold : (Thread.counting h [i]).held k = 0 ∧
      (Thread.counting h [i]).pending k = if some i = some k then 1 else 0 :=
    ⟨rfl, by simp [Thread.pending, hinc, hp]⟩
  rw [ht, hnew.1, hnew.2, hold.1, hold.2, reportedOf_nil, handledOf_nil]
  by_cases hk : k = i
  · subst hk
    rw [Function.update_self, toInt_add_one hfull, if_pos rfl]
    omega
  · rw [Function.update_of_ne hk, if_neg fun he => hk (Option.some.inj he).symm]

/-- A `getAndSet`: the thread holds what was in the counter. -/
theorem Counts.getAndSet [Fintype T] (hs : Counts s es) {t : T} {values : List (BitVec 32)}
    (ht : s.threads t = .reporting values) (hlt : values.length < 7) :
    Counts { s.move t (.reporting (values ++ [s.counter ⟨values.length, hlt⟩])) with
      counter := Function.update s.counter ⟨values.length, hlt⟩ 0 } (es ++ []) := by
  refine hs.move (fun _ _ he => by cases he) _ s.timer fun k => ?_
  have hnew : (Thread.reporting (values ++ [s.counter ⟨values.length, hlt⟩])).held k =
      (if (k : Nat) = values.length then (s.counter ⟨values.length, hlt⟩).toInt
      else (values.getD k 0).toInt) ∧
      (Thread.reporting (values ++ [s.counter ⟨values.length, hlt⟩])).pending k = 0 := by
    refine ⟨?_, rfl⟩
    rw [Thread.held, getD_concat]
    split <;> rfl
  have hold : (Thread.reporting values).held k = (values.getD k 0).toInt ∧
      (Thread.reporting values).pending k = 0 := ⟨rfl, rfl⟩
  rw [ht, hnew.1, hnew.2, hold.1, hold.2, reportedOf_nil, handledOf_nil]
  by_cases hk : k = ⟨values.length, hlt⟩
  · -- The counter that is drained: the thread had nothing of it.
    subst hk
    have hzero : (values.getD values.length 0).toInt = 0 := by
      rw [List.getD_eq_getElem?_getD, List.getElem?_eq_none le_rfl]
      rfl
    rw [if_pos rfl, Function.update_self, hzero]
    show _ + _ + (0 : Int) + _ = _
    omega
  · rw [if_neg fun he => hk (Fin.ext he), Function.update_of_ne hk]

/-- The callback: what the thread holds is reported. -/
theorem Counts.reported [Fintype T] (hs : Counts s es) {t : T} {values : List (BitVec 32)}
    (ht : s.threads t = .reporting values) : Counts (s.move t .idle) (es ++ [.reported values]) := by
  refine hs.move (fun _ _ he => by cases he) s.counter s.timer fun k => ?_
  have hold : (Thread.reporting values).held k = (values.getD k 0).toInt ∧
      (Thread.reporting values).pending k = 0 := ⟨rfl, rfl⟩
  have hidle : Thread.idle.held k = 0 ∧ Thread.idle.pending k = 0 := ⟨rfl, rfl⟩
  have hreported : reportedOf k [.reported values] = (values.getD k 0).toInt := List.sum_singleton
  have hhandled : handledOf k [.reported values] = 0 := rfl
  rw [ht, hold.1, hold.2, hidle.1, hidle.2, hreported, hhandled]
  omega

/-- Every step keeps the count. -/
theorem Counts.step [Fintype T] (hs : Counts s es) {x : CounterStep T} (hx : Conserving s x)
    (h : s.step callback x = some (s', es')) : Counts s' (es ++ es') := by
  cases x with
  | call t h' =>
    rw [CounterState.step] at h
    split at h
    case h_2 => cases h
    case h_1 ht =>
      cases h
      exact hs.call ht fun sec he => by
        subst he
        exact hx rfl
  | increment t =>
    rw [CounterState.step] at h
    split at h
    case h_2 => cases h
    case h_1 h' i is ht =>
      cases h
      exact hs.increment ht (hx h' i is ht)
  | check t locked =>
    rw [CounterState.step] at h
    split at h
    case h_2 => cases h
    case h_1 h' ht =>
      have hold (i : Protocol) : (Thread.checking h').held i = 0 ∧ (Thread.checking h').pending i = 0 :=
        ⟨rfl, rfl⟩
      split at h
      · cases h
        refine hs.move (fun _ _ he => by cases he) s.counter s.timer fun i => ?_
        rw [ht, (hold i).1, (hold i).2]
        rfl
      · cases h
        refine hs.move (fun _ _ he => ?_) s.counter _ fun i => ?_
        · split at he <;> cases he
        · rw [ht, (hold i).1, (hold i).2]
          split <;> rfl
  | getAndSet t =>
    rw [CounterState.step] at h
    split at h
    case h_2 => cases h
    case h_1 values ht =>
      split at h
      case isFalse => cases h
      case isTrue hlt =>
        cases h
        exact hs.getAndSet ht hlt
  | callback t =>
    rw [CounterState.step] at h
    split at h
    case h_2 => cases h
    case h_1 values ht =>
      split at h
      case isTrue => cases h
      case isFalse =>
        cases h
        exact hs.reported ht

/-- As long as no packet goes to port 80 and no counter is full, what has been reported and what
is in the counters are together the packets that have been handled, whenever no thread
reports; but for those whose calls are in progress and have counted nothing yet. -/
theorem counters_conserved [Fintype T] (callback : Bool) {xs : List (CounterStep T)}
    (h : Along (CounterState.step callback) Conserving .init xs)
    (hr : run (CounterState.step callback) .init xs = some (s, es))
    (hq : ∀ t values, s.threads t ≠ .reporting values) (i : Protocol) :
    reportedOf i es + (s.counter i).toInt + ∑ t, (s.threads t).pending i = handledOf i es := by
  have hcounts : Counts s es :=
    run_induction_along (I := fun _ s es => Counts s es)
      ⟨fun t h is he => (by cases he), fun i => by simp [CounterState.init, Thread.held, Thread.pending]⟩
      (fun _ hs hx hstep => hs.step hx hstep) hr h
  have hzero : ∑ t, (s.threads t).held i = 0 := by
    refine Finset.sum_eq_zero fun t _ => ?_
    cases ht : s.threads t with
    | reporting values => exact absurd ht (hq t values)
    | _ => rfl
  rw [← hcounts.sum i, hzero]
  omega

/-- The calls of two threads for packets to the ports `port` and 443: the first is over and has
not come to report, and the second has counted nothing yet. -/
def twoPackets (port : BitVec 16) (increments : Nat) : List (CounterStep Bool) :=
  [.call true (.onTcpData port 0), .call false (.onTcpData 443 0)] ++
    List.replicate increments (.increment true) ++ [.check true true]

/-- Two packets to port 443. -/
theorem counters_conserved_https : ∃ s es,
    run (CounterState.step true) .init (twoPackets 443 1) = some (s, es) ∧
      reportedOf 4 es + (s.counter 4).toInt + ∑ t, (s.threads t).pending 4 = handledOf 4 es := by
  have hport : (443 : BitVec 16) ≠ 80 := by decide
  have h : Along (CounterState.step true) Conserving .init (twoPackets 443 1) := by
    refine .cons hport fun _ _ h₁ => .cons hport fun _ _ h₂ =>
      .cons ?_ fun _ _ _ => .cons trivial fun _ _ _ => .nil
    cases h₁
    cases h₂
    intro h i is he
    cases he
    decide
  exact ⟨_, _, rfl, counters_conserved true h rfl (fun t values h => by cases t <;> cases h) 4⟩

/-- One packet to port 80, and its call is over. -/
def httpPacket : List (CounterStep Unit) :=
  [.call () (.onTcpData 80 0), .increment (), .increment (), .check () true]

/-- The packet to port 80 is counted for HTTPS as well. -/
theorem counters_http_twice : ∃ s es,
    run (CounterState.step true) .init httpPacket = some (s, es) ∧
      s.threads () = .idle ∧ reportedOf 4 es + (s.counter 4).toInt = 1 ∧ handledOf 4 es = 0 :=
  ⟨_, _, rfl, rfl, by decide, by decide⟩

end Noff
