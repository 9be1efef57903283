import Mathlib.Algebra.Group.Int.Defs
import Adibi.Sync.Transfer

/-!
# The sync service

`SyncService::handle` and its request handlers (`sync.rs`): a payload goes to
the receiver of a push in progress, else it is parsed as a request.
-/

namespace Adibi

open Lib

/-- Current state of a sync service session. -/
inductive SyncState where
  | idle
  | sending (sender : FileSender)
  | receiving (receiver : FileReceiver)
  deriving DecidableEq

/-- Handles sync protocol requests within an ADB stream. -/
structure SyncService where
  state : SyncState
  deriving DecidableEq

namespace SyncService

def new : SyncService := ⟨.idle⟩

def failResult (msg : Bytes) : Except Panic SyncResult := do
  let (hdr, data) ← failResponse msg
  pure (.data hdr data)

/-- `u64` or `i64` to `u32`, or the panic of its `expect`. -/
def narrow (p : Panic) (n : Int) : Except Panic UInt32 :=
  if 0 ≤ n ∧ n < 2 ^ 32 then .ok (UInt32.ofNat n.toNat) else .error p

def handleLstatV1 (env : Env) (fs : Fs) (path : Path) : Except Panic SyncResult :=
  match fs.symlinkMetadata env path with
  | .ok md => do
    let size ← narrow .fileTooLarge md.size
    let mtime ← narrow .mtimeRange md.mtime
    pure (.stat ⟨idLstatV1, md.mode, size, mtime⟩)
  | .error _ => .ok (.stat ⟨idLstatV1, 0, 0, 0⟩)

def handleRecvV1 (env : Env) (fs : Fs) (s : SyncService) (path : Path) :
    Except Panic (SyncResult × SyncService) :=
  match fs.open_ env path with
  | .ok file => .ok (.continue, ⟨.sending ⟨file, false⟩⟩)
  | .error e => do
    let result ← failResult (ascii "cannot open " ++ path.display ++ ascii ": " ++ e)
    pure (result, s)

/-- Starts a push. The host packs DATA frames right after the SEND header in
the same WRTE payload, so `leftover` carries those first frames. -/
def handleSendV1 (env : Env) (fs : Fs) (s : SyncService) (path : Path) (mode : UInt32)
    (leftover : Bytes) : Except Panic (SyncResult × SyncService × Fs) :=
  match fs.create env path with
  | .error e => do
    let result ← failResult (ascii "cannot create " ++ path.display ++ ascii ": " ++ e)
    pure (result, s, fs)
  | .ok (file, fs) => do
    let receiver : FileReceiver := ⟨file, path, mode, .header⟩
    if leftover ≠ [] then
      let (result, receiver, fs) ← receiver.receive env leftover fs
      match result with
      | .continue => pure (.continue, ⟨.receiving receiver⟩, fs)
      | .done response => pure (.data response.1 response.2, s, fs)
    else
      pure (.continue, ⟨.receiving receiver⟩, fs)

/-- A request parsed from a payload, outside a push. -/
def handleRequest (env : Env) (fs : Fs) (s : SyncService) (data : Bytes) :
    Except Panic (SyncResult × SyncService × Fs) :=
  match parseSyncPacket data with
  | none => do
    let result ← failResult (ascii "invalid sync request")
    pure (result, s, fs)
  | some (.lstatV1 p, _) => do
    let result ← handleLstatV1 env fs p
    pure (result, s, fs)
  | some (.recvV1 p, _) => do
    let (result, s) ← s.handleRecvV1 env fs p
    pure (result, s, fs)
  | some (.sendV1 p m, leftover) => s.handleSendV1 env fs p m leftover
  | some (.quit, _) => .ok (.quit, s, fs)

/-- Parses a sync request from a WRTE payload and dispatches it. -/
def handle (env : Env) (fs : Fs) (s : SyncService) (data : Bytes) :
    Except Panic (SyncResult × SyncService × Fs) :=
  match s.state with
  | .receiving receiver => do
    let (result, receiver, fs) ← receiver.receive env data fs
    match result with
    | .continue => pure (.continue, ⟨.receiving receiver⟩, fs)
    | .done response => pure (.data response.1 response.2, ⟨.idle⟩, fs)
  | _ => s.handleRequest env fs data

end SyncService

end Adibi
