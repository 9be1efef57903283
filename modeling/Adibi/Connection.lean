import Adibi.Buffers
import Adibi.Message
import Adibi.Stream
import Adibi.UserData

/-!
# The connection

`AdbConnection` and its command handlers (`main.rs`). A handler changes the
stream table, calls the services and pushes submissions on the queue; it
panics where the source does. `trace` is a history the source does not keep:
every transfer read, every message dispatched and every message sent, in order.
-/

namespace Adibi

open Lib

/-- A submission: its tag and, for a write, the bytes its buffer held when it
was pushed. `link` is `IO_LINK`. -/
structure Sqe where
  userData : UInt64
  bytes : Bytes
  link : Bool
  deriving DecidableEq, Repr

/-- An entry of the history. -/
inductive Traffic where
  /-- A transfer was parsed as a header. -/
  | headerRead (data : Bytes)
  /-- A transfer was taken as a payload. -/
  | payloadRead (data : Bytes)
  /-- A message was dispatched. -/
  | heard (header : AdbHeader) (payload : Option Bytes)
  /-- A message was submitted. -/
  | sent (header : AdbHeader) (payload : Bytes)
  deriving DecidableEq, Repr

/-- State for a single ADB session, with the submission queue it pushes to and
the system it calls. -/
structure Dev where
  info : DeviceInfo
  buffers : BufferManager
  streams : StreamManager
  version : ProtocolVersion
  os : Os
  sq : List Sqe
  trace : List Traffic

/-- The entries of the submission queue. -/
def sqEntries : Nat := 32

/-- `NonZeroU32::new(..).expect(..)`. -/
def nonZero (p : Panic) (w : UInt32) : Except Panic NonZeroU32 :=
  match NonZeroU32.new w with
  | some n => .ok n
  | none => .error p

namespace Dev

def new (info : DeviceInfo) (os : Os) : Dev :=
  ⟨info, .new, .new, .v0, os, [], []⟩

def log (d : Dev) (t : Traffic) : Dev := { d with trace := d.trace ++ [t] }

/-! ## Submissions -/

def push (d : Dev) (e : Sqe) : Except Panic Dev :=
  if d.sq.length < sqEntries then .ok { d with sq := d.sq ++ [e] } else .error .sqFull

def submitOp (d : Dev) (u : UserData) : Except Panic Dev := d.push ⟨u.toU64, [], false⟩

def submitBulkOutRead (d : Dev) (op : UserDataOpType) : Except Panic Dev := d.submitOp ⟨op, none⟩

def submitEp0Poll (d : Dev) : Except Panic Dev := d.submitOp ⟨.ep0Poll, none⟩

/-- Copies bytes into a fresh slot and pushes its write. -/
def submitWrite (d : Dev) (bytes : Bytes) (link : Bool) : Except Panic Dev := do
  let (slot, buffers) ← d.buffers.alloc
  let buffers := buffers.extend slot bytes
  let _ ← lenU32 bytes.length
  let slot ← nonZero .slotZero slot
  push { d with buffers } ⟨(UserData.mk .bulkInWrite (some slot)).toU64, bytes, link⟩

/-- The write of a payload, if there is one. -/
def submitPayload (d : Dev) : Option Bytes → Except Panic Dev
  | none => .ok d
  | some payload => d.submitWrite payload false

/-- Submits a message: its header and, linked to it, a non-empty payload. -/
def submitMessage (d : Dev) (header : AdbHeader) (payload : Option Bytes) : Except Panic Dev := do
  let payload := payload.filter (· ≠ [])
  let d ← d.submitWrite header.asLeBytes payload.isSome
  let d ← d.submitPayload payload
  pure (d.log (.sent header (payload.getD [])))

def submitClse (d : Dev) (localId remoteId : UInt32) : Except Panic Dev := do
  let clse ← clseHeader d.version localId remoteId
  d.submitMessage clse none

def submitOkay (d : Dev) (localId remoteId : UInt32) : Except Panic Dev := do
  let okay ← okayHeader d.version localId remoteId
  d.submitMessage okay none

def submitWrte (d : Dev) (localId remoteId : UInt32) (data : Bytes) : Except Panic Dev := do
  let wrte ← wrteHeader d.version localId remoteId data
  d.submitMessage wrte (some data)

/-- The device with the table entry of a stream replaced. -/
def setStream (d : Dev) (localId : UInt32) (s : Option Stream) : Dev :=
  { d with streams := d.streams.put localId s }

def closeStream (d : Dev) (localId : UInt32) : Dev := { d with streams := d.streams.close localId }

/-- Submits a PTY master read if the stream is ready for more output. -/
def maybeSubmitPtyRead (d : Dev) (localId : UInt32) : Except Panic Dev :=
  match d.streams.get localId with
  | none => .ok d
  | some stream =>
    if stream.waitingForOkay then .ok d
    else
      match stream.service with
      | .shell _ => do
        let i ← nonZero .serviceIdZero localId
        d.submitOp ⟨.ptyRead, some i⟩
      | _ => .ok d

/-- Submits a socket read if the stream is ready for more data. -/
def maybeSubmitSocketRead (d : Dev) (localId : UInt32) : Except Panic Dev :=
  match d.streams.get localId with
  | none => .ok d
  | some stream =>
    if stream.waitingForOkay then .ok d
    else
      match stream.service with
      | .forward _ => do
        let i ← nonZero .serviceIdZero localId
        d.submitOp ⟨.socketRead, some i⟩
      | _ => .ok d

/-- Submits a WRTE containing a sync response frame. -/
def submitWrteSync (d : Dev) (localId remoteId : UInt32) (hdr : SyncFrameResponseHeader)
    (payload : Bytes) : Except Panic Dev :=
  d.submitWrte localId remoteId (hdr.asLeBytes ++ payload)

/-- Sends the next sync frame if the stream is ready and has data. -/
def maybeSubmitWrteSync (env : Env) (d : Dev) (localId : UInt32) : Except Panic Dev :=
  match d.streams.get localId with
  | none => .ok d
  | some stream =>
    if stream.waitingForOkay then .ok d
    else
      match stream.service with
      | .sync svc =>
        match svc.state with
        | .sending sender => do
          let (frame, sender) ← sender.nextFrame env d.os.fs
          match frame with
          | some (hdr, data) =>
            let d := d.setStream localId
              (some { stream with service := .sync ⟨.sending sender⟩, waitingForOkay := true })
            d.submitWrteSync localId stream.remoteId hdr data
          | none => pure (d.setStream localId (some { stream with service := .sync ⟨.idle⟩ }))
        | _ => .ok d
      | _ => .ok d

/-- Drives any pending work on the given stream. -/
def maybeContinueStream (env : Env) (d : Dev) (localId : UInt32) : Except Panic Dev :=
  match d.streams.get localId with
  | none => .ok d
  | some stream =>
    match stream.service with
    | .sync _ => d.maybeSubmitWrteSync env localId
    | .shell _ => d.maybeSubmitPtyRead localId
    | .forward _ => d.maybeSubmitSocketRead localId
    | .reboot => .error .rebootContinue

/-! ## Commands -/

/-- Handles CLSE: acknowledges and tears down the stream; a forward stream is
only half closed, so that its socket drains. -/
def handleCommandClse (env : Env) (d : Dev) (header : AdbHeader) : Except Panic Dev :=
  let localId := header.arg1
  match d.streams.get localId with
  | none => .ok d
  | some stream =>
    if stream.remoteId ≠ header.arg0 then .error .clseRemoteId
    else
      match stream.service with
      | .forward fwd =>
        let os := match fwd.shutdownWrite env d.os with
          | .ok os => os
          | .error _ => d.os
        .ok ({ d with os }.setStream localId (some { stream with remoteClosed := true }))
      | _ => do
        let d ← d.submitClse localId stream.remoteId
        pure (d.closeStream localId)

/-- Handles CNXN: negotiates the protocol version and sends the response. -/
def handleCommandCnxn (d : Dev) (header : AdbHeader) : Except Panic Dev := do
  let recvVersion := (ProtocolVersion.tryFrom header.arg0).getD .v0
  let d := { d with version := recvVersion }
  let (responseHeader, responsePayload) ← cnxnResponse recvVersion d.info
  d.submitMessage responseHeader (some responsePayload)

/-- Handles OKAY: marks the stream as ready and continues any transfer. -/
def handleCommandOkay (env : Env) (d : Dev) (header : AdbHeader) : Except Panic Dev :=
  let localId := header.arg1
  let d := match d.streams.get localId with
    | some stream => d.setStream localId (some { stream with waitingForOkay := false })
    | none => d
  d.maybeContinueStream env localId

/-- `CStr::from_bytes_until_nul`, then `to_str`. -/
def serviceName (payload : Bytes) : Option Bytes :=
  match payload.idxOf? 0 with
  | none => none
  | some n => if Utf8.valid (payload.take n) then some (payload.take n) else none

/-- Handles OPEN: creates a stream for the requested service. -/
def handleCommandOpen (env : Env) (d : Dev) (header : AdbHeader) (payload : Bytes) :
    Except Panic Dev :=
  let remoteId := header.arg0
  match serviceName payload with
  | none => d.submitClse 0 remoteId
  | some service => do
    let (opened, streams, os) ← d.streams.open_ env d.os remoteId service
    let d := { d with streams, os }
    match opened with
    | none => d.submitClse 0 remoteId
    | some localId =>
      let d ← d.submitOkay localId remoteId
      match d.streams.get localId with
      | none => .error .justOpened
      | some stream =>
        match stream.service with
        | .shell _ => d.maybeSubmitPtyRead localId
        | .forward _ => d.maybeSubmitSocketRead localId
        | .sync _ => pure d
        | .reboot => pure d

/-- Handles WRTE: acknowledges it and passes the payload to the service. -/
def handleCommandWrte (env : Env) (d : Dev) (header : AdbHeader) (payload : Bytes) :
    Except Panic Dev := do
  let localId := header.arg1
  let d ← d.submitOkay localId header.arg0
  match d.streams.get localId with
  | none => pure d
  | some stream =>
    let remoteId := stream.remoteId
    match stream.service with
    | .sync svc =>
      let (result, svc, fs) ← svc.handle env d.os.fs payload
      let d := { d with os := { d.os with fs } }.setStream localId
        (some { stream with service := .sync svc })
      match result with
      | .stat stat => d.submitWrte localId remoteId stat.asLeBytes
      | .data hdr data => d.submitWrteSync localId remoteId hdr data
      | .continue => d.maybeSubmitWrteSync env localId
      | .quit =>
        let d ← d.submitClse localId remoteId
        pure (d.closeStream localId)
    | .shell shell =>
      let (result, os) := shell.writeInput env d.os payload
      let d := { d with os }
      match result with
      | .ok () => pure d
      | .error _ =>
        let d ← d.submitClse localId remoteId
        pure (d.closeStream localId)
    | .forward fwd =>
      let (result, os) := fwd.writeInput env d.os payload
      let d := { d with os }
      match result with
      | .ok () => pure d
      | .error _ =>
        let d ← d.submitClse localId remoteId
        pure (d.closeStream localId)
    | .reboot => .error .rebootWrte

/-- Dispatches a fully parsed command. -/
def handleCommand (env : Env) (d : Dev) (header : AdbHeader) (payload : Option Bytes) :
    Except Panic Dev :=
  let d := d.log (.heard header payload)
  match header.command with
  | .cnxn =>
    match payload with
    | some _ => d.handleCommandCnxn header
    | none => .error .cnxnPayload
  | .open =>
    match payload with
    | some payload => d.handleCommandOpen env header payload
    | none => .error .openPayload
  | .wrte =>
    match payload with
    | some payload => d.handleCommandWrte env header payload
    | none => .error .wrtePayload
  | .okay =>
    match payload with
    | none => d.handleCommandOkay env header
    | some _ => .error .okayPayload
  | .clse => d.handleCommandClse env header
  | _ => .ok d

end Dev

end Adibi
