import Adibi.Sync.Service

/-!
# Streams

The shell and forward services (`shell.rs`, `forward.rs`), the streams over
them and the manager that owns the streams (`stream.rs`). A read buffer holds
what the kernel last wrote into it. Dropping a service closes its PTY or
socket; the far end keeps what it received.
-/

namespace Adibi

open Lib

def stripPre (pre s : Bytes) : Option Bytes :=
  if pre.isPrefixOf s then some (s.drop pre.length) else none

/-! ## Shells -/

def ptyReadBufSize : Nat := 4096

/-- A PTY-backed shell subprocess for a single stream. -/
structure ShellService where
  master : Nat
  readBuf : Bytes
  deriving DecidableEq, Repr

namespace ShellService

/-- Spawns a shell on a new PTY, optionally running `command`. -/
def spawn (env : Env) (os : Os) (command : Option Bytes) : Except IoError (ShellService × Os) :=
  match env.fail .spawn with
  | some e => .error e
  | none =>
    let (master, os) := os.openChannel (command.getD [])
    .ok (⟨master, []⟩, os)

theorem spawn_ok {env : Env} {os os' : Os} {command : Option Bytes} {s : ShellService}
    (h : spawn env os command = .ok (s, os')) :
    ∃ target, s = ⟨os.nextChannel, []⟩ ∧ os' = (os.openChannel target).2 := by
  unfold spawn at h
  split at h
  · cases h
  · cases h
    exact ⟨_, rfl, rfl⟩

/-- The first `len` bytes of the read buffer. -/
def readBufData (s : ShellService) (len : Nat) : Bytes := s.readBuf.take len

/-- `write_all` on the PTY master; a failure may come after part of the data. -/
def writeInput (env : Env) (os : Os) (s : ShellService) (data : Bytes) : Except IoError Unit × Os :=
  if data = [] then (.ok (), os)
  else
    match env.fail .ptyWrite with
    | none => (.ok (), os.send s.master data)
    | some e => (.error e, os.send s.master (data.take (env.amount .ptyWrite)))

end ShellService

/-! ## Forwarded sockets -/

def socketReadBufSize : Nat := 4096

/-- A socket connection for a single forwarding stream. -/
structure ForwardService where
  socket : Nat
  readBuf : Bytes
  deriving DecidableEq, Repr

/-- `str::parse::<u16>`: an optional plus sign and decimal digits. -/
def parseU16 (s : Bytes) : Option Nat :=
  let ds := match s with
    | 0x2b :: rest => rest
    | _ => s
  if ds ≠ [] ∧ ds.all Parser.isDigit = true ∧ decimal ds < 2 ^ 16 then some (decimal ds) else none

namespace ForwardService

/-- Connects to `tcp:PORT`, `localabstract:NAME` or `localfilesystem:PATH`. -/
def connect (env : Env) (os : Os) (destination : Bytes) : Except IoError (ForwardService × Os) :=
  let opened : Except IoError (ForwardService × Os) :=
    match env.fail .connect with
    | some e => .error e
    | none =>
      let (socket, os) := os.openChannel destination
      .ok (⟨socket, []⟩, os)
  match stripPre (ascii "tcp:") destination with
  | some port =>
    match parseU16 port with
    | none => .error (ascii "invalid port")
    | some _ => opened
  | none =>
    if (stripPre (ascii "localabstract:") destination).isSome then opened
    else if (stripPre (ascii "localfilesystem:") destination).isSome then opened
    else .error (ascii "unsupported forward destination: " ++ destination)

theorem connect_ok {env : Env} {os os' : Os} {destination : Bytes} {s : ForwardService}
    (h : connect env os destination = .ok (s, os')) :
    ∃ target, s = ⟨os.nextChannel, []⟩ ∧ os' = (os.openChannel target).2 := by
  unfold connect at h
  cases hf : env.fail .connect with
  | some e =>
    simp only [hf] at h
    repeat' split at h
    all_goals cases h
  | none =>
    simp only [hf] at h
    repeat' split at h
    all_goals cases h
    all_goals exact ⟨_, rfl, rfl⟩

def readBufData (s : ForwardService) (len : Nat) : Bytes := s.readBuf.take len

def shutdownWrite (env : Env) (os : Os) (s : ForwardService) : Except IoError Os :=
  os.shutdownWrite env s.socket

/-- The write loop of `write_input`: the `k`-th `write` takes at least one byte
of what is left, or fails. -/
def writeLoop (env : Env) (socket : Nat) (k : Nat) (os : Os) (data : Bytes) :
    Except IoError Unit × Os :=
  if _h : data = [] then (.ok (), os)
  else
    match env.fail (.socketWrite k) with
    | some e => (.error e, os)
    | none =>
      let n := max 1 (min (env.amount (.socketWrite k)) data.length)
      writeLoop env socket (k + 1) (os.send socket (data.take n)) (data.drop n)
termination_by data.length
decreasing_by
  have := List.length_pos_iff.mpr _h
  simp only [List.length_drop]
  omega

def writeInput (env : Env) (os : Os) (s : ForwardService) (data : Bytes) : Except IoError Unit × Os :=
  writeLoop env s.socket 0 os data

end ForwardService

/-! ## The stream table -/

/-- Back-end handler for an open stream. -/
inductive Service where
  | sync (svc : SyncService)
  | shell (svc : ShellService)
  | reboot
  | forward (svc : ForwardService)
  deriving DecidableEq

/-- An open stream between host and device. -/
structure Stream where
  remoteId : UInt32
  service : Service
  /-- Whether an OKAY must come before the next WRTE is sent. -/
  waitingForOkay : Bool
  /-- Whether the host has sent CLSE for this stream. -/
  remoteClosed : Bool
  deriving DecidableEq

/-- Active streams, keyed by device-local id. -/
structure StreamManager where
  streams : UInt32 → Option Stream
  nextId : UInt32

namespace StreamManager

def new : StreamManager := ⟨fun _ => none, 1⟩

def get (m : StreamManager) (localId : UInt32) : Option Stream := m.streams localId

/-- The table with the entry of `localId` replaced. -/
def put (m : StreamManager) (localId : UInt32) (s : Option Stream) : StreamManager :=
  { m with streams := Function.update m.streams localId s }

def close (m : StreamManager) (localId : UInt32) : StreamManager := m.put localId none

/-- The handler for a service name, `none` if it is unknown or cannot start. -/
def openService (env : Env) (os : Os) (service : Bytes) : Option (Service × Os) :=
  if service = ascii "sync:" then some (.sync .new, os)
  else
    match stripPre (ascii "shell:") service with
    | some cmd =>
      match ShellService.spawn env os (if cmd = [] then none else some cmd) with
      | .ok (s, os) => some (.shell s, os)
      | .error _ => none
    | none =>
      if (ascii "reboot:").isPrefixOf service then some (.reboot, os)
      else if (ascii "tcp:").isPrefixOf service || (ascii "localabstract:").isPrefixOf service ||
          (ascii "localfilesystem:").isPrefixOf service then
        match ForwardService.connect env os service with
        | .ok (f, os) => some (.forward f, os)
        | .error _ => none
      else none

/-- Opens a stream for the given service name and returns its `local_id`. -/
def open_ (env : Env) (os : Os) (m : StreamManager) (remoteId : UInt32) (service : Bytes) :
    Except Panic (Option UInt32 × StreamManager × Os) :=
  match openService env os service with
  | none => .ok (none, m, os)
  | some (svc, os) =>
    if m.nextId.toNat + 1 < 2 ^ 32 then
      let m' : StreamManager := ⟨m.streams, m.nextId + 1⟩
      .ok (some m.nextId, m'.put m.nextId (some ⟨remoteId, svc, false, false⟩), os)
    else .error .nextIdOverflow

/-- A service that starts is new: a sync service, a reboot, or a PTY or socket
on a channel of its own with an empty read buffer. -/
theorem openService_ok {env : Env} {os os' : Os} {name : Bytes} {svc : Service}
    (h : openService env os name = some (svc, os')) :
    ((svc = .sync .new ∨ svc = .reboot) ∧ os' = os) ∨
      ∃ target, os' = (os.openChannel target).2 ∧
        (svc = .shell ⟨os.nextChannel, []⟩ ∨ svc = .forward ⟨os.nextChannel, []⟩) := by
  unfold openService at h
  split at h
  · cases h
    exact .inl ⟨.inl rfl, rfl⟩
  · split at h
    · split at h
      · rename_i sh os1 hsp
        cases h
        obtain ⟨target, rfl, rfl⟩ := ShellService.spawn_ok hsp
        exact .inr ⟨target, rfl, .inl rfl⟩
      · cases h
    · split at h
      · cases h
        exact .inl ⟨.inr rfl, rfl⟩
      · split at h
        · split at h
          · rename_i fwd os1 hcon
            cases h
            obtain ⟨target, rfl, rfl⟩ := ForwardService.connect_ok hcon
            exact .inr ⟨target, rfl, .inr rfl⟩
          · cases h
        · cases h

@[simp] theorem get_put_self (m : StreamManager) (i : UInt32) (s : Option Stream) :
    (m.put i s).get i = s := Function.update_self ..

theorem get_put_ne {i j : UInt32} (h : j ≠ i) (m : StreamManager) (s : Option Stream) :
    (m.put i s).get j = m.get j := Function.update_of_ne h ..

@[simp] theorem put_nextId (m : StreamManager) (i : UInt32) (s : Option Stream) :
    (m.put i s).nextId = m.nextId := rfl

theorem put_put (m : StreamManager) (i : UInt32) (s t : Option Stream) :
    (m.put i s).put i t = m.put i t := by
  simp only [put, Function.update_idem]

theorem put_get (m : StreamManager) (i : UInt32) : m.put i (m.get i) = m := by
  simp only [put, get, Function.update_eq_self]

end StreamManager

end Adibi
