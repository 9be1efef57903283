import Adibi.Account
import Adibi.Basic
import Adibi.Budget
import Adibi.Buffers
import Adibi.Capacity
import Adibi.Channels
import Adibi.Cleanup
import Adibi.Client
import Adibi.Connection
import Adibi.Conversation
import Adibi.Core
import Adibi.Crash
import Adibi.Daemon
import Adibi.Demand
import Adibi.Device
import Adibi.Dispatch
import Adibi.Drain
import Adibi.Effect
import Adibi.FlowControl
import Adibi.Framing
import Adibi.Gadget
import Adibi.Handshake
import Adibi.Ids
import Adibi.Inversion
import Adibi.Isolation
import Adibi.LateReads
import Adibi.Lib.Bytes
import Adibi.Lib.Links
import Adibi.Lib.Mealy
import Adibi.Lib.Ownership
import Adibi.Lib.Parser
import Adibi.Lib.Refinement
import Adibi.Lib.Restart
import Adibi.Lib.System
import Adibi.Lib.Tenancy
import Adibi.Lib.Text
import Adibi.Lib.Utf8
import Adibi.Lifecycle
import Adibi.Limit
import Adibi.Locality
import Adibi.Loopback
import Adibi.Message
import Adibi.Moves
import Adibi.Os
import Adibi.OwnReads
import Adibi.Pairing
import Adibi.Pull
import Adibi.Queue
import Adibi.ReadBuffers
import Adibi.Reads
import Adibi.Relay
import Adibi.Routing
import Adibi.Run
import Adibi.Simulation
import Adibi.Slots
import Adibi.Stream
import Adibi.Sync.Answer
import Adibi.Sync.Codec
import Adibi.Sync.Decoder
import Adibi.Sync.Failure
import Adibi.Sync.Outcome
import Adibi.Sync.Packet
import Adibi.Sync.Panics
import Adibi.Sync.Push
import Adibi.Sync.Receive
import Adibi.Sync.Returns
import Adibi.Sync.Service
import Adibi.Sync.Session
import Adibi.Sync.Store
import Adibi.Sync.Total
import Adibi.Sync.Transfer
import Adibi.UserData
import Adibi.Utterance
import Adibi.View
import Adibi.Wire
