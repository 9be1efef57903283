import Adibi.Connection

/-!
# The event loop

`AdbConnection::run` over an `io_uring`: the loop hands its queue to the kernel
(`submit`), the kernel completes operations in any order (`complete`), the loop
takes the completions posted so far as a batch (`reap`) and handles them one by
one (`handle`). `step` is one such event; an event that cannot happen now is
`disabled`, so a run is a sequence of steps that return `ok`.
-/

namespace Adibi

open Lib

/-- A completion: the tag of its operation and the result. -/
structure Cqe where
  userData : UInt64
  res : Int
  deriving DecidableEq, Repr

def bulkOutSize : Nat := protocolVersion.maxPayload.toNat

/-- The buffer every bulk-out read fills. -/
structure BulkBuf where
  bytes : Bytes
  length_eq : bytes.length = bulkOutSize

namespace BulkBuf

def zero : BulkBuf := ⟨List.replicate bulkOutSize 0, List.length_replicate⟩

/-- What a transfer of at most the buffer's size leaves in it. -/
def fill (b : BulkBuf) (data : Bytes) : BulkBuf :=
  if h : data.length ≤ bulkOutSize then
    ⟨copyAt b.bytes 0 data, by rw [copyAt_length (by rw [b.length_eq]; omega), b.length_eq]⟩
  else b

/-- `&bulk_out_buf[..len]`. -/
def slice (b : BulkBuf) (len : Nat) : Except Panic Bytes :=
  if len ≤ bulkOutSize then .ok (b.bytes.take len) else .error .sliceRange

theorem slice_fill {b : BulkBuf} {data : Bytes} (h : data.length ≤ bulkOutSize) :
    (b.fill data).slice data.length = .ok data := by
  simp [fill, slice, h, copyAt]

end BulkBuf

/-- The loop's state, with what the kernel holds: operations in flight,
completions posted, and the rest of the batch being handled. -/
structure Sys where
  dev : Dev
  pendingHeader : Option AdbHeader
  bulkOutBuf : BulkBuf
  inflight : List Sqe
  cq : List Cqe
  batch : List Cqe

/-- Why a step does not lead on. -/
inductive Halt where
  | panic (p : Panic)
  /-- `run` returned. -/
  | returned
  /-- The event cannot happen in this state. -/
  | disabled
  deriving DecidableEq, Repr

/-- A buffer of the daemon that is in use: a stream's read buffer, or a write slot. -/
inductive Place where
  | readBuf (localId : UInt32)
  | slot (slot : UInt32)
  deriving DecidableEq, Repr

/-- How the kernel completes an operation. -/
inductive Outcome where
  /-- A read, with what it put into the buffer. If the buffer was freed under it,
  `place` is the buffer that got the memory since, if one did. -/
  | data (bytes : Bytes) (place : Option Place := none)
  /-- A write or a poll. -/
  | count (n : Nat)
  /-- A failure or a cancellation. -/
  | error (errno : Nat)
  deriving DecidableEq, Repr

def Outcome.res : Outcome → Int
  | .data bytes _ => bytes.length
  | .count n => n
  | .error errno => -(errno + 1 : Int)

/-- The outcomes an operation can have. -/
def Outcome.fits (op : UserDataOpType) : Outcome → Bool
  | .data bytes _ =>
    match op with
    | .bulkOutReadHeader | .bulkOutReadPayload => bytes.length ≤ bulkOutSize
    | .ptyRead => bytes.length ≤ ptyReadBufSize
    | .socketRead => bytes.length ≤ socketReadBufSize
    | _ => false
  | .count _ =>
    match op with
    | .bulkInWrite | .ep0Poll => true
    | _ => false
  | .error _ => true

inductive Event where
  | submit
  | complete (k : Nat) (outcome : Outcome)
  | reap
  | handle (env : Env)

def fillRead (buf data : Bytes) : Bytes := data ++ buf.drop data.length

/-- A service after the kernel filled its read buffer. -/
def Service.filled (op : UserDataOpType) (data : Bytes) : Service → Service
  | .shell s => if op = .ptyRead then .shell { s with readBuf := fillRead s.readBuf data } else .shell s
  | .forward s =>
    if op = .socketRead then .forward { s with readBuf := fillRead s.readBuf data } else .forward s
  | s => s

/-- The operation a service's output is read by. -/
def Service.reader : Service → Option UserDataOpType
  | .shell _ => some .ptyRead
  | .forward _ => some .socketRead
  | _ => none

/-- The stream whose buffer a read of stream `j` fills, and the kind of its reads:
`j` itself, or, when `j` is gone and its buffer freed, the stream that has the
memory now. -/
def Dev.filledBy (d : Dev) (op : UserDataOpType) (j : UInt32) (place : Option Place) :
    Option (UserDataOpType × UInt32) :=
  if (d.streams.get j).isSome then some (op, j)
  else
    match place with
    | some (.readBuf i) => ((d.streams.get i).bind fun st => st.service.reader).map fun op => (op, i)
    | _ => none

def Dev.fillStream (d : Dev) (op : UserDataOpType) (i : UInt32) (bytes : Bytes) : Dev :=
  match d.streams.get i with
  | some st => d.setStream i (some { st with service := st.service.filled op bytes })
  | none => d

/-- What a PTY or socket read of stream `j` does to memory. -/
def Dev.fill (d : Dev) (op : UserDataOpType) (j : UInt32) (bytes : Bytes) (place : Option Place) :
    Dev :=
  match d.filledBy op j place, place with
  | some (op, i), _ => d.fillStream op i bytes
  | none, some (.slot n) => { d with buffers := d.buffers.overwrite n bytes }
  | none, _ => d

/-- What completing an operation does to memory. -/
def Sys.fill (s : Sys) (u : UserData) (outcome : Outcome) : Sys :=
  match outcome with
  | .data bytes place =>
    match u.opType, u.data with
    | .bulkOutReadHeader, _ | .bulkOutReadPayload, _ =>
      { s with bulkOutBuf := s.bulkOutBuf.fill bytes }
    | op, some j => { s with dev := s.dev.fill op j.1 bytes place }
    | _, none => s
  | _ => s

namespace Sys

/-- The ring set up, with a poll of ep0 and a header read queued. -/
def start (info : DeviceInfo) (os : Os) : Sys where
  dev := { Dev.new info os with
    sq := [⟨(UserData.mk .ep0Poll none).toU64, [], false⟩,
      ⟨(UserData.mk .bulkOutReadHeader none).toU64, [], false⟩] }
  pendingHeader := none
  bulkOutBuf := .zero
  inflight := []
  cq := []
  batch := []

theorem start_dev (info : DeviceInfo) (os : Os) :
    ((Dev.new info os).submitEp0Poll >>= fun d => d.submitBulkOutRead .bulkOutReadHeader) =
      .ok (start info os).dev := rfl

/-- The loop's state after a handler. -/
def lift (s : Sys) (x : Except Panic Dev) : Except Halt Sys :=
  match x with
  | .ok dev => .ok { s with dev }
  | .error p => .error (.panic p)

/-- A PTY or socket read that returned nothing or failed closes its stream. -/
def readEnd (d : Dev) (localId : UInt32) : Except Panic Dev := do
  let d ← match d.streams.get localId with
    | some stream => d.submitClse localId stream.remoteId
    | none => pure d
  pure (d.closeStream localId)

/-- What a stream's read buffer holds, if its service is read by `op`. -/
def readData (op : UserDataOpType) (service : Service) (len : Nat) : Option Bytes :=
  match op, service with
  | .ptyRead, .shell s => some (s.readBufData len)
  | .socketRead, .forward s => some (s.readBufData len)
  | _, _ => none

/-- A PTY or socket read of `len` bytes is relayed as a WRTE. -/
def readRelay (d : Dev) (op : UserDataOpType) (localId : UInt32) (len : Nat) : Except Panic Dev :=
  match d.streams.get localId with
  | none => .ok d
  | some stream =>
    match readData op stream.service len with
    | none => .ok d
    | some data =>
      (d.setStream localId (some { stream with waitingForOkay := true })).submitWrte localId
        stream.remoteId data

/-- `handle_ep0_event`: whether to stop. -/
def ep0Stops (env : Env) : Bool :=
  match env.ep0 with
  | .ok .disable | .ok .unbind => true
  | .ok _ => false
  | .error _ => true

/-- A transfer read as a header. -/
def onHeader (env : Env) (s : Sys) (data : Bytes) : Except Halt Sys :=
  let d := s.dev.log (.headerRead data)
  match parseHeader data with
  | some (header, _) =>
    if header.dataLength > 0 then
      { s with pendingHeader := some header }.lift (d.submitBulkOutRead .bulkOutReadPayload)
    else
      s.lift (d.handleCommand env header none >>= fun d => d.submitBulkOutRead .bulkOutReadHeader)
  | none => s.lift (d.submitBulkOutRead .bulkOutReadHeader)

/-- Whether a payload fails the checksum test of the connection's version. -/
def badChecksum (version : ProtocolVersion) (header : AdbHeader) (data : Bytes) : Except Panic Bool :=
  if version.requiresChecksum then (checksum data).map (· != header.dataCheck) else .ok false

/-- A transfer read as a payload. -/
def onPayload (env : Env) (s : Sys) (data : Bytes) : Except Halt Sys :=
  let d := s.dev.log (.payloadRead data)
  match s.pendingHeader with
  | some header =>
    { s with pendingHeader := none }.lift (do
      let bad ← badChecksum d.version header data
      let d ← (if bad then pure d else d.handleCommand env header (some data))
      d.submitBulkOutRead .bulkOutReadHeader)
  | none => s.lift (d.submitBulkOutRead .bulkOutReadHeader)

/-- The transfer a completed bulk-out read left in the buffer. -/
def transfer (s : Sys) (res : Int) : Except Halt Bytes :=
  if res < 0 then .error .returned
  else
    match s.bulkOutBuf.slice res.toNat with
    | .ok data => .ok data
    | .error p => .error (.panic p)

/-- One completion. -/
def handleCqe (env : Env) (s : Sys) (c : Cqe) : Except Halt Sys :=
  match UserData.tryFrom c.userData with
  | none => .ok s
  | some u =>
    match u.opType with
    | .ptyRead | .socketRead =>
      match u.data with
      | none => .error (.panic .readWithoutId)
      | some i =>
        if c.res ≤ 0 then s.lift (readEnd s.dev i.1)
        else s.lift (readRelay s.dev u.opType i.1 c.res.toNat)
    | .bulkInWrite =>
      match u.data with
      | some slot => s.lift ((s.dev.buffers.free slot.1).map fun buffers => { s.dev with buffers })
      | none => if c.res < 0 then .error .returned else .error (.panic .writeWithoutSlot)
    | .ep0Poll =>
      if c.res < 0 then .error .returned
      else if ep0Stops env then .error .returned
      else s.lift s.dev.submitEp0Poll
    | .bulkOutReadHeader => s.transfer c.res >>= s.onHeader env
    | .bulkOutReadPayload => s.transfer c.res >>= s.onPayload env

def step (s : Sys) : Event → Except Halt Sys
  | .submit =>
    if s.batch = [] then
      .ok { s with inflight := s.inflight ++ s.dev.sq, dev := { s.dev with sq := [] } }
    else .error .disabled
  | .complete k outcome =>
    match s.inflight[k]? with
    | none => .error .disabled
    | some e =>
      match UserData.tryFrom e.userData with
      | none => .error .disabled
      | some u =>
        if outcome.fits u.opType then
          let s := s.fill u outcome
          .ok { s with inflight := s.inflight.eraseIdx k, cq := s.cq ++ [⟨e.userData, outcome.res⟩] }
        else .error .disabled
  | .reap =>
    if s.batch = [] ∧ s.dev.sq = [] ∧ s.cq ≠ [] then .ok { s with batch := s.cq, cq := [] }
    else .error .disabled
  | .handle env =>
    match s.batch with
    | [] => .error .disabled
    | c :: rest => { s with batch := rest }.handleCqe env c

/-! ## What a completion does -/

/-- The ways a completion is handled without ending the run. -/
inductive Handles (env : Env) (s : Sys) (c : Cqe) : Sys → Prop where
  | unknown (ht : UserData.tryFrom c.userData = none) : Handles env s c s
  | read {op : UserDataOpType} {j : NonZeroU32} {d : Dev} (hop : op = .ptyRead ∨ op = .socketRead)
      (ht : UserData.tryFrom c.userData = some ⟨op, some j⟩)
      (hd : (if c.res ≤ 0 then readEnd s.dev j.1 else readRelay s.dev op j.1 c.res.toNat) = .ok d) :
      Handles env s c { s with dev := d }
  | write {slot : NonZeroU32} {buffers : BufferManager}
      (ht : UserData.tryFrom c.userData = some ⟨.bulkInWrite, some slot⟩)
      (hd : s.dev.buffers.free slot.1 = .ok buffers) :
      Handles env s c { s with dev := { s.dev with buffers } }
  | poll {x : Option NonZeroU32} {d : Dev} (ht : UserData.tryFrom c.userData = some ⟨.ep0Poll, x⟩)
      (hd : s.dev.submitEp0Poll = .ok d) : Handles env s c { s with dev := d }
  | rejected {x : Option NonZeroU32} {data : Bytes} {d : Dev}
      (ht : UserData.tryFrom c.userData = some ⟨.bulkOutReadHeader, x⟩)
      (hx : s.transfer c.res = .ok data) (hp : parseHeader data = none)
      (hd : (s.dev.log (.headerRead data)).submitBulkOutRead .bulkOutReadHeader = .ok d) :
      Handles env s c { s with dev := d }
  | pending {x : Option NonZeroU32} {data t : Bytes} {h : AdbHeader} {d : Dev}
      (ht : UserData.tryFrom c.userData = some ⟨.bulkOutReadHeader, x⟩)
      (hx : s.transfer c.res = .ok data) (hp : parseHeader data = some (h, t))
      (hl : h.dataLength > 0)
      (hd : (s.dev.log (.headerRead data)).submitBulkOutRead .bulkOutReadPayload = .ok d) :
      Handles env s c { s with dev := d, pendingHeader := some h }
  | bare {x : Option NonZeroU32} {data t : Bytes} {h : AdbHeader} {d d' : Dev}
      (ht : UserData.tryFrom c.userData = some ⟨.bulkOutReadHeader, x⟩)
      (hx : s.transfer c.res = .ok data) (hp : parseHeader data = some (h, t))
      (hl : ¬ h.dataLength > 0)
      (hc : (s.dev.log (.headerRead data)).handleCommand env h none = .ok d)
      (hd : d.submitBulkOutRead .bulkOutReadHeader = .ok d') : Handles env s c { s with dev := d' }
  | orphan {x : Option NonZeroU32} {data : Bytes} {d : Dev}
      (ht : UserData.tryFrom c.userData = some ⟨.bulkOutReadPayload, x⟩)
      (hx : s.transfer c.res = .ok data) (hp : s.pendingHeader = none)
      (hd : (s.dev.log (.payloadRead data)).submitBulkOutRead .bulkOutReadHeader = .ok d) :
      Handles env s c { s with dev := d }
  | dropped {x : Option NonZeroU32} {data : Bytes} {h : AdbHeader} {d : Dev}
      (ht : UserData.tryFrom c.userData = some ⟨.bulkOutReadPayload, x⟩)
      (hx : s.transfer c.res = .ok data) (hp : s.pendingHeader = some h)
      (hb : badChecksum s.dev.version h data = .ok true)
      (hd : (s.dev.log (.payloadRead data)).submitBulkOutRead .bulkOutReadHeader = .ok d) :
      Handles env s c { s with dev := d, pendingHeader := none }
  | loaded {x : Option NonZeroU32} {data : Bytes} {h : AdbHeader} {d d' : Dev}
      (ht : UserData.tryFrom c.userData = some ⟨.bulkOutReadPayload, x⟩)
      (hx : s.transfer c.res = .ok data) (hp : s.pendingHeader = some h)
      (hb : badChecksum s.dev.version h data = .ok false)
      (hc : (s.dev.log (.payloadRead data)).handleCommand env h (some data) = .ok d)
      (hd : d.submitBulkOutRead .bulkOutReadHeader = .ok d') :
      Handles env s c { s with dev := d', pendingHeader := none }

theorem lift_ok {s s' : Sys} {x : Except Panic Dev} (h : s.lift x = .ok s') :
    ∃ d, x = .ok d ∧ s' = { s with dev := d } := by
  cases x with
  | error p => cases h
  | ok d => exact ⟨d, rfl, (Except.ok.inj h).symm⟩

theorem handles_of_onHeader {env : Env} {s s' : Sys} {c : Cqe} {x : Option NonZeroU32} {data : Bytes}
    (ht : UserData.tryFrom c.userData = some ⟨.bulkOutReadHeader, x⟩)
    (hx : s.transfer c.res = .ok data) (h : s.onHeader env data = .ok s') : Handles env s c s' := by
  unfold onHeader at h
  simp only at h
  split at h
  · rename_i hd t hp
    split at h
    · rename_i hl
      obtain ⟨d, h1, rfl⟩ := lift_ok h
      exact .pending ht hx hp hl h1
    · rename_i hl
      obtain ⟨d, h1, rfl⟩ := lift_ok h
      obtain ⟨d1, h2, h3⟩ := bind_eq_ok.mp h1
      exact .bare ht hx hp hl h2 h3
  · rename_i hp
    obtain ⟨d, h1, rfl⟩ := lift_ok h
    exact .rejected ht hx hp h1

theorem handles_of_onPayload {env : Env} {s s' : Sys} {c : Cqe} {x : Option NonZeroU32}
    {data : Bytes} (ht : UserData.tryFrom c.userData = some ⟨.bulkOutReadPayload, x⟩)
    (hx : s.transfer c.res = .ok data) (h : s.onPayload env data = .ok s') : Handles env s c s' := by
  unfold onPayload at h
  simp only at h
  split at h
  · rename_i hd hp
    obtain ⟨d, h1, rfl⟩ := lift_ok h
    obtain ⟨bad, h2, h3⟩ := bind_eq_ok.mp h1
    cases bad with
    | true => exact .dropped ht hx hp h2 h3
    | false =>
      obtain ⟨d1, h4, h5⟩ := bind_eq_ok.mp h3
      exact .loaded ht hx hp h2 h4 h5
  · rename_i hp
    obtain ⟨d, h1, rfl⟩ := lift_ok h
    exact .orphan ht hx hp h1

/-- **Inversion.** A completion that does not end the run is one of these. -/
theorem handles_of_ok {env : Env} {s s' : Sys} {c : Cqe} (h : s.handleCqe env c = .ok s') :
    Handles env s c s' := by
  unfold handleCqe at h
  cases ht : UserData.tryFrom c.userData with
  | none =>
    rw [ht] at h
    cases h
    exact .unknown ht
  | some u =>
    obtain ⟨op, x⟩ := u
    rw [ht] at h
    cases op with
    | ptyRead =>
      cases x with
      | none => cases h
      | some j =>
        simp only [← apply_ite s.lift] at h
        obtain ⟨d, h1, rfl⟩ := lift_ok h
        exact .read (.inl rfl) ht h1
    | socketRead =>
      cases x with
      | none => cases h
      | some j =>
        simp only [← apply_ite s.lift] at h
        obtain ⟨d, h1, rfl⟩ := lift_ok h
        exact .read (.inr rfl) ht h1
    | bulkInWrite =>
      cases x with
      | none =>
        simp only at h
        split at h <;> cases h
      | some slot =>
        obtain ⟨d, h1, rfl⟩ := lift_ok h
        cases hf : s.dev.buffers.free slot.1 with
        | error p =>
          rw [hf] at h1
          cases h1
        | ok buffers =>
          rw [hf] at h1
          cases h1
          exact .write ht hf
    | ep0Poll =>
      simp only at h
      split at h
      · cases h
      · split at h
        · cases h
        · obtain ⟨d, h1, rfl⟩ := lift_ok h
          exact .poll ht h1
    | bulkOutReadHeader =>
      obtain ⟨data, h1, h2⟩ := bind_eq_ok.mp h
      exact handles_of_onHeader ht h1 h2
    | bulkOutReadPayload =>
      obtain ⟨data, h1, h2⟩ := bind_eq_ok.mp h
      exact handles_of_onPayload ht h1 h2

/-- A write that has completed frees its slot, and nothing else. -/
theorem Handles.of_write {env : Env} {s s' : Sys} {c : Cqe} {x : Option NonZeroU32}
    (h : Handles env s c s') (ht : UserData.tryFrom c.userData = some ⟨.bulkInWrite, x⟩) :
    ∃ slot buffers, x = some slot ∧ s.dev.buffers.free slot.1 = .ok buffers ∧
      s' = { s with dev := { s.dev with buffers } } := by
  cases h with
  | write ht' hd =>
    cases ht.symm.trans ht'
    exact ⟨_, _, rfl, hd, rfl⟩
  | read hop ht' hd => rcases hop with rfl | rfl <;> cases ht.symm.trans ht'
  | unknown ht' => cases ht.symm.trans ht'
  | poll ht' hd => cases ht.symm.trans ht'
  | rejected ht' hx hp hd => cases ht.symm.trans ht'
  | pending ht' hx hp hl hd => cases ht.symm.trans ht'
  | bare ht' hx hp hl hc hd => cases ht.symm.trans ht'
  | orphan ht' hx hp hd => cases ht.symm.trans ht'
  | dropped ht' hx hp hbad hd => cases ht.symm.trans ht'
  | loaded ht' hx hp hbad hc hd => cases ht.symm.trans ht'

theorem submit_ok {s s' : Sys} (h : s.step .submit = .ok s') : s.batch = [] ∧
    s' = { s with inflight := s.inflight ++ s.dev.sq, dev := { s.dev with sq := [] } } := by
  simp only [step] at h
  split at h
  · rename_i hb
    cases h
    exact ⟨hb, rfl⟩
  · cases h

theorem reap_ok {s s' : Sys} (h : s.step .reap = .ok s') :
    s.batch = [] ∧ s.dev.sq = [] ∧ s.cq ≠ [] ∧ s' = { s with batch := s.cq, cq := [] } := by
  simp only [step] at h
  split at h
  · rename_i hc
    cases h
    exact ⟨hc.1, hc.2.1, hc.2.2, rfl⟩
  · cases h

theorem handle_ok {env : Env} {s s' : Sys} (h : s.step (.handle env) = .ok s') :
    ∃ c tail, s.batch = c :: tail ∧ Handles env { s with batch := tail } c s' := by
  cases hb : s.batch with
  | nil =>
    simp only [step, hb] at h
    cases h
  | cons c tail =>
    simp only [step, hb] at h
    exact ⟨c, tail, rfl, handles_of_ok h⟩

/-- Handling takes the first completion of the batch, and touches no other queue of the
ring. -/
theorem handle_queues {env : Env} {s s' : Sys} (h : s.step (.handle env) = .ok s') :
    ∃ c, s.batch = c :: s'.batch ∧ s'.cq = s.cq ∧ s'.inflight = s.inflight := by
  obtain ⟨c, tail, hb, hs⟩ := handle_ok h
  refine ⟨c, ?_⟩
  cases hs <;> exact ⟨hb, rfl, rfl⟩

/-! ## Playing a run -/

/-- A completion, by the tag of its operation. -/
structure Turn where
  tag : UInt64
  outcome : Outcome
  env : Env := {}

/-- Everything queued is submitted, the operation completes and is handled. -/
def turn (s : Sys) (t : Turn) : List Event :=
  [.submit, .complete ((s.inflight ++ s.dev.sq).findIdx (·.userData == t.tag)) t.outcome, .reap,
    .handle t.env]

/-- One turn after the other, each event admitted by `ok`. -/
def play (ok : Sys → Event → Bool) : Sys → List Turn → Option Sys
  | s, [] => some s
  | s, t :: ts => (runGuarded step ok s (s.turn t)).bind fun s => play ok s ts

theorem reach_of_play {ok : Sys → Event → Bool} {Ok : Sys → Event → Prop}
    (hok : ∀ s e, ok s e = true → Ok s e) {s s' : Sys} {ts : List Turn}
    (h : s.play ok ts = some s') : Reach step Ok s s' := by
  induction ts generalizing s with
  | nil =>
    cases h
    exact .refl
  | cons t ts ih =>
    obtain ⟨u, h1, h2⟩ := Option.bind_eq_some_iff.mp h
    exact (Reach.of_runGuarded hok h1).trans (ih h2)

/-- One turn after the other, with a history of what the events show. -/
def playShown {β : Type} (obs : Sys → Event → List β) (ok : Sys → Event → Bool) :
    Sys × List β → List Turn → Option (Sys × List β)
  | p, [] => some p
  | p, t :: ts => (runGuarded (observed step obs) (fun p e => ok p.1 e) p (p.1.turn t)).bind
      fun p => playShown obs ok p ts

theorem reach_of_playShown {β : Type} {obs : Sys → Event → List β} {ok : Sys → Event → Bool}
    {Ok : Sys → Event → Prop} (hok : ∀ s e, ok s e = true → Ok s e) {p q : Sys × List β}
    {ts : List Turn} (h : playShown obs ok p ts = some q) :
    Reach (observed step obs) (fun p e => Ok p.1 e) p q := by
  induction ts generalizing p with
  | nil =>
    cases h
    exact .refl
  | cons t ts ih =>
    obtain ⟨u, h1, h2⟩ := Option.bind_eq_some_iff.mp h
    exact (Reach.of_runGuarded (fun (q : Sys × List β) e => hok q.1 e) h1).trans (ih h2)

/-- The turns played, and one more up to the completion that is to be handled. -/
def poised (ok : Sys → Event → Bool) (s : Sys) (ts : List Turn) (t : Turn) : Option Sys :=
  (s.play ok ts).bind fun s => runGuarded step ok s (s.turn t).dropLast

theorem reach_of_poised {ok : Sys → Event → Bool} {Ok : Sys → Event → Prop}
    (hok : ∀ s e, ok s e = true → Ok s e) {s s' : Sys} {ts : List Turn} {t : Turn}
    (h : s.poised ok ts t = some s') : Reach step Ok s s' := by
  obtain ⟨u, h1, h2⟩ := Option.bind_eq_some_iff.mp h
  exact (reach_of_play hok h1).trans (Reach.of_runGuarded hok h2)

def Turn.header (data : Bytes) (env : Env := {}) : Turn :=
  ⟨(UserData.mk .bulkOutReadHeader none).toU64, .data data, env⟩

def Turn.payload (data : Bytes) (env : Env := {}) : Turn :=
  ⟨(UserData.mk .bulkOutReadPayload none).toU64, .data data, env⟩

/-- The transfers of a host message. -/
def Turn.message (c : Command) (arg0 arg1 : UInt32) (payload : Bytes) (env : Env := {}) : List Turn :=
  let h : AdbHeader := ⟨c, arg0, arg1, UInt32.ofNat payload.length, UInt32.ofNat (byteSum payload),
    c.toU32 ^^^ 0xffffffff⟩
  if payload = [] then [.header h.asLeBytes env] else [.header h.asLeBytes, .payload payload env]

def fresh : Sys := start ⟨[], [], [], []⟩ (.boot .empty)

def openShell : List Turn := Turn.message .open 7 0 (ascii "shell:" ++ [0])

def openSync : List Turn := Turn.message .open 7 0 (ascii "sync:" ++ [0])

end Sys

end Adibi
