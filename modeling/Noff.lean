import Noff.Lib.Reassembly
import Noff.Tcp.Queue
import Noff.Tcp.Reassembly
import Noff.Hash
import Noff.Tcp.Table
import Noff.Tcp.Process
import Noff.Lib.Run
import Noff.Tcp.Frame
import Noff.Tcp.Pieces
import Noff.Tcp.Invariant
import Noff.Tcp.LifeCycle
import Noff.Tcp.Timers
import Noff.Http.Http
import Noff.Tcp.Buffer
import Noff.Tcp.Handed
import Noff.Tcp.Unassigned
import Noff.Tcp.Dependence
import Noff.Http.Table
import Noff.Http.Calls
import Noff.Http.Cut
import Noff.Http.Split
import Noff.Http.Messages
import Noff.Ip.Datagram
import Noff.Sharding
import Noff.Dispatcher
import Noff.Dns.Dnsparser
import Noff.Dns.Within
import Noff.Lib.Reading
import Noff.App.ProtocolPacketCounter
import Noff.Dns.Wire
import Noff.Dns.Names
import Noff.Dns.Pointers
import Noff.Dns.Decode
import Noff.Dns.Queries
import Noff.Dns.Memory
import Noff.App.Timer
import Noff.Lib.Wheel
import Noff.App.TcpSession
import Noff.App.Sessions
import Noff.App.Reports
import Noff.App.Idle
import Noff.Lib.DoublyLinked
import Noff.Ip.Fragment
import Noff.Ip.IpFragment
import Noff.Ip.Calls
import Noff.Ip.Accounts
import Noff.Ip.Received
import Noff.Ip.Glue
import Noff.Ip.Pointers
import Noff.Ip.Stored
import Noff.Ip.Copies
import Noff.Ip.Expiry
import Noff.TaskQueue
import Noff.Tcp.Urgent
import Noff.Ip.Passed
import Noff.Consumers
import Noff.Tcp.Origins
import Noff.App.Sizes
import Noff.Capture
import Noff.FrontEnd
import Noff.App.Directions
import Noff.Lib.Slots
import Noff.Seeds
import Noff.Tcp.Slices
import Noff.Http.Output
import Noff.Tcp.Wscale
import Noff.Ip.Roundtrip
import Noff.Tcp.Close
import Noff.HttpParser.Chars
import Noff.HttpParser.Switch
import Noff.HttpParser.Execute
import Noff.HttpParser.Invariant
import Noff.HttpParser.Machine
import Noff.HttpParser.Refines
import Noff.Http.Joined
import Noff.HttpParser.Runs
import Noff.HttpParser.Records
import Noff.HttpParser.Messages
import Noff.HttpParser.Accepts
import Noff.HttpParser.Roundtrip
