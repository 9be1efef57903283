import Adibi.Capacity
import Adibi.Lib.Refinement
import Adibi.Slots
import Adibi.Utterance

/-!
# The daemon without its ring

`Core` is what the daemon's logic works on: the streams, the version, the system,
the header waiting for its payload and the history. It has no write buffers, no
submission queue and no operations in flight; it is driven by the bytes that get into
buffers and by the completions that are not a write's (`Input`). Every run of the event
loop is a run of the core on its inputs (`Sys.step_core`); where no stream is dropped
under a read the inputs are the completions themselves (`core_simulates`), so how they
are batched, and when or whether writes complete, shows nowhere but in a panic for lack
of slots or queue entries.
-/

namespace Adibi

open Lib

structure Core where
  info : DeviceInfo
  streams : StreamManager
  version : ProtocolVersion
  os : Os
  trace : List Traffic
  pendingHeader : Option AdbHeader
  bulkOutBuf : BulkBuf

/-- What reaches the logic. -/
inductive Input where
  /-- A transfer got into the bulk-out buffer. -/
  | bulk (bytes : Bytes)
  /-- The read buffer of a stream was filled. -/
  | fill (op : UserDataOpType) (localId : UInt32) (bytes : Bytes)
  /-- A completion to handle. -/
  | done (env : Env) (c : Cqe)

/-- A panic ends the run. -/
def panics {α : Type} (x : Except Panic α) : Except Halt α := x.mapError .panic

namespace Core

def start (info : DeviceInfo) (os : Os) : Core := ⟨info, .new, .v0, os, [], none, .zero⟩

def log (c : Core) (t : Traffic) : Core := { c with trace := c.trace ++ [t] }

def say (c : Core) : Out → Core
  | .message header payload => c.log (.sent header payload)
  | .op _ => c

def sayAll (c : Core) (outs : List Out) : Core := outs.foldl say c

/-- The effect of an event on stream `localId`. -/
def apply (c : Core) (localId : UInt32) (e : Effect) : Core :=
  { c with streams := c.streams.put localId e.stream, os := e.os }.sayAll e.outs

/-- An event strikes stream `localId`, if it is open. -/
def strike (c : Core) (localId : UInt32) (f : Stream → Except Panic Effect) : Except Panic Core :=
  match c.streams.get localId with
  | none => .ok c
  | some st => (f st).map (c.apply localId)

def added (c : Core) (svc : Service) (os : Os) (remoteId : UInt32) : Core :=
  let m : StreamManager := ⟨c.streams.streams, c.streams.nextId + 1⟩
  { c with streams := m.put c.streams.nextId (some ⟨remoteId, svc, false, false⟩), os }

def onCnxn (c : Core) (header : AdbHeader) : Except Panic Core := do
  let version := (ProtocolVersion.tryFrom header.arg0).getD .v0
  let (responseHeader, responsePayload) ← cnxnResponse version c.info
  pure ({ c with version }.say (.message responseHeader responsePayload))

def onOpen (env : Env) (c : Core) (header : AdbHeader) (payload : Bytes) : Except Panic Core :=
  match (Dev.serviceName payload).bind (StreamManager.openService env c.os) with
  | none => .ok (c.say (clseOut 0 header.arg0))
  | some (svc, os) =>
    if c.streams.nextId.toNat + 1 < 2 ^ 32 then do
      let outs ← firstRead c.streams.nextId ⟨header.arg0, svc, false, false⟩
      pure (((c.added svc os header.arg0).say (okayOut c.streams.nextId header.arg0)).sayAll outs)
    else .error .nextIdOverflow

def handleCommand (env : Env) (c : Core) (header : AdbHeader) (payload : Option Bytes) :
    Except Panic Core :=
  let c := c.log (.heard header payload)
  match header.command, payload with
  | .cnxn, some _ => c.onCnxn header
  | .cnxn, none => .error .cnxnPayload
  | .open, some payload => c.onOpen env header payload
  | .open, none => .error .openPayload
  | .wrte, some payload =>
    (c.say (okayOut header.arg1 header.arg0)).strike header.arg1 fun st =>
      onWrte env c.version header.arg1 c.os st payload
  | .wrte, none => .error .wrtePayload
  | .okay, none => c.strike header.arg1 (onOkay env c.version header.arg1 c.os)
  | .okay, some _ => .error .okayPayload
  | .clse, _ => c.strike header.arg1 fun st => onClse env header.arg1 c.os st header.arg0
  | _, _ => .ok c

def fill (c : Core) (op : UserDataOpType) (localId : UInt32) (bytes : Bytes) : Core :=
  match c.streams.get localId with
  | some st =>
    { c with streams := c.streams.put localId (some { st with service := st.service.filled op bytes }) }
  | none => c

def transfer (c : Core) (res : Int) : Except Halt Bytes :=
  if res < 0 then .error .returned else panics (c.bulkOutBuf.slice res.toNat)

def onHeader (env : Env) (c : Core) (data : Bytes) : Except Halt Core :=
  let c := c.log (.headerRead data)
  match parseHeader data with
  | some (header, _) =>
    if header.dataLength > 0 then .ok { c with pendingHeader := some header }
    else panics (c.handleCommand env header none)
  | none => .ok c

def onPayload (env : Env) (c : Core) (data : Bytes) : Except Halt Core :=
  let c := c.log (.payloadRead data)
  match c.pendingHeader with
  | some header => panics do
    let bad ← Sys.badChecksum c.version header data
    let c := { c with pendingHeader := none }
    if bad then pure c else c.handleCommand env header (some data)
  | none => .ok c

/-- A completion. Nothing depends on a write's. -/
def handle (env : Env) (c : Core) (q : Cqe) : Except Halt Core :=
  match UserData.tryFrom q.userData with
  | none => .ok c
  | some u =>
    match u.opType with
    | .ptyRead | .socketRead =>
      match u.data with
      | none => .error (.panic .readWithoutId)
      | some i => panics (c.strike i.1 fun st => onRead c.version i.1 c.os st u.opType q.res)
    | .bulkInWrite => .ok c
    | .ep0Poll => if q.res < 0 then .error .returned else if Sys.ep0Stops env then .error .returned else .ok c
    | .bulkOutReadHeader => c.transfer q.res >>= c.onHeader env
    | .bulkOutReadPayload => c.transfer q.res >>= c.onPayload env

def step (c : Core) : Input → Except Halt Core
  | .bulk bytes => .ok { c with bulkOutBuf := c.bulkOutBuf.fill bytes }
  | .fill op i bytes => .ok (c.fill op i bytes)
  | .done env q => c.handle env q

end Core

/-! ## The projection -/

/-- The device, with the rest of the loop's state. -/
def Dev.core (pending : Option AdbHeader) (buf : BulkBuf) (d : Dev) : Core :=
  ⟨d.info, d.streams, d.version, d.os, d.trace, pending, buf⟩

namespace Sys

def core (s : Sys) : Core := s.dev.core s.pendingHeader s.bulkOutBuf

/-- What an event brings to the logic. -/
def input (s : Sys) : Event → List Input
  | .complete k (.data bytes place) =>
    match (s.inflight[k]?).bind fun e => UserData.tryFrom e.userData with
    | some ⟨.bulkOutReadHeader, _⟩ | some ⟨.bulkOutReadPayload, _⟩ => [.bulk bytes]
    | some ⟨op, some j⟩ =>
      match s.dev.filledBy op j.1 place with
      | some (op', i) => [.fill op' i bytes]
      | none => []
    | _ => []
  | .handle env =>
    match s.batch with
    | [] => []
    | c :: _ => if (writeSlot c.userData).isSome then [] else [.done env c]
  | _ => []

end Sys

/-- A lack of write slots or queue entries. -/
def Panic.Scarce (p : Panic) : Prop := p = .slotsInUse ∨ p = .sqFull

def Halt.Scarce (h : Halt) : Prop := h = .panic .slotsInUse ∨ h = .panic .sqFull

/-! ## Submissions -/

namespace Dev

variable {d d' : Dev} {pending : Option AdbHeader} {buf : BulkBuf}

theorem push_scarce (d : Dev) (e : Sqe) : Raises (d.push e) Panic.Scarce := by
  unfold push
  split
  · exact .ok _
  · exact .error (.inr rfl)

theorem submitWrite_scarce {bytes : Bytes} (hlen : bytes.length < 2 ^ 32) (link : Bool) :
    Raises (d.submitWrite bytes link) Panic.Scarce := by
  unfold submitWrite
  refine Raises.bind ?_ fun x hx => ?_
  · unfold BufferManager.alloc
    split
    · exact .error (.inl rfl)
    · exact .ok _
  · obtain ⟨h0, -⟩ := BufferManager.alloc_ok hx
    have hslot : nonZero .slotZero x.1 = .ok ⟨x.1, h0⟩ := by
      simp only [nonZero, NonZeroU32.new, h0, ne_eq, not_false_eq_true, dif_pos]
    simp only [lenU32_of_lt hlen, hslot, ok_bind]
    exact push_scarce _ _

theorem emit_scarce {o : Out} (ho : o.Short) : Raises (d.emit o) Panic.Scarce := by
  cases o with
  | op u => exact push_scarce _ _
  | message h p =>
    have hhdr : h.asLeBytes.length < 2 ^ 32 := by
      rw [AdbHeader.asLeBytes_length]
      decide
    refine (submitWrite_scarce hhdr _).bind fun d1 _ => Raises.bind ?_ fun _ _ => .ok _
    cases hp : (some p).filter (· ≠ []) with
    | none => exact .ok _
    | some q =>
      have hq : q = p := by
        simp only [Option.filter] at hp
        split at hp
        · exact (Option.some.inj hp).symm
        · cases hp
      rw [hq]
      exact submitWrite_scarce ho _

theorem emit_core {o : Out} (h : d.emit o = .ok d') :
    d'.core pending buf = (d.core pending buf).say o := by
  obtain ⟨hst, hv, hos⟩ := emitAll_frame (by rw [emitAll_singleton]; exact h)
  have hin := emit_info h
  have htrace : d'.trace = ((d.core pending buf).say o).trace := by
    cases emitted_of_ok h with
    | op u _ => rfl
    | bare h1 =>
      show _ ++ _ = _ ++ _
      rw [submitWrite_trace h1]
      rfl
    | full _ h1 h2 =>
      show _ ++ _ = _ ++ _
      rw [submitWrite_trace h2, submitWrite_trace h1]
      rfl
  unfold core
  rw [hst, hv, hos, hin, htrace]
  cases o <;> rfl

theorem mirrors_emit {o : Out} (ho : o.Short) :
    Mirrors (core pending buf) Panic.Scarce (d.emit o) (.ok ((d.core pending buf).say o)) :=
  .of_raises (fun _ h => emit_core h) (emit_scarce ho)

theorem mirrors_emitAll {outs : List Out} (ho : ∀ o ∈ outs, o.Short) :
    Mirrors (core pending buf) Panic.Scarce (d.emitAll outs)
      (.ok ((d.core pending buf).sayAll outs)) := by
  induction outs generalizing d with
  | nil => exact .pure d
  | cons o outs ih =>
    refine Mirrors.bind (y := .ok ((d.core pending buf).say o))
      (k := fun c => .ok (c.sayAll outs)) (mirrors_emit (ho o (.head _))) fun d1 _ => ?_
    exact ih fun o ho' => ho o (.tail _ ho')

theorem mirrors_strike {j : UInt32} {f : Stream → Except Panic Effect}
    (hf : ∀ st e, f st = .ok e → ∀ o ∈ e.outs, o.Short) :
    Mirrors (core pending buf) Panic.Scarce
      (match d.streams.get j with
        | none => .ok d
        | some st => f st >>= d.apply j) ((d.core pending buf).strike j f) := by
  unfold Core.strike
  show Mirrors _ _ _ (match d.streams.get j with | none => _ | some st => _)
  cases d.streams.get j with
  | none => exact .pure d
  | some st =>
    simp only
    cases he : f st with
    | error p => exact .fail p
    | ok e => exact mirrors_emitAll (hf st e he)

end Dev

/-! ## Effects say nothing too long -/

theorem short_of_header {v : ProtocolVersion} {c : Command} {a b : UInt32} {h : AdbHeader} {p : Bytes}
    (hb : headerFromPayload v c a b p = .ok h) : (Out.message h p).Short := by
  have hlen := (headerFromPayload_ok hb).2.2.2.1
  show p.length < 2 ^ 32
  rw [← hlen]
  exact h.dataLength.toNat_lt

theorem bareOut_short (c : Command) (a b : UInt32) : (Out.message (bareHeader c a b) []).Short :=
  Nat.two_pow_pos 32

theorem Effect.Voices.short {env : Env} {v : ProtocolVersion} {i : UInt32} {os : Os} {st : Stream}
    {a : Act} {e : Effect} (h : e.Voices env v i os st a) : ∀ o ∈ e.outs, o.Short := by
  intro o ho
  cases o with
  | op u => trivial
  | message hd p =>
    have hm : (hd, p) ∈ e.outs.filterMap Out.message? := List.mem_filterMap.mpr ⟨_, ho, rfl⟩
    rcases h _ hm with ⟨c, x, y, he⟩ | ⟨⟨r, hr⟩, -⟩
    · cases he
      exact bareOut_short c x y
    · exact short_of_header hr

theorem firstRead_short {i : UInt32} {st : Stream} {outs : List Out} (h : firstRead i st = .ok outs) :
    ∀ o ∈ outs, o.Short := by
  intro o ho
  have hm := Dev.firstRead_message h o ho
  cases o with
  | op u => trivial
  | message hd p => cases hm

/-! ## Commands -/

namespace Dev

variable {env : Env} {d : Dev} {h : AdbHeader} {pending : Option AdbHeader} {buf : BulkBuf}

theorem mirrors_cnxn : Mirrors (core pending buf) Panic.Scarce (d.handleCommandCnxn h)
    ((d.core pending buf).onCnxn h) := by
  refine Mirrors.bind_same fun x hx => ?_
  rw [cnxnResponse_eq] at hx
  obtain ⟨hr, hh, rfl⟩ := map_eq_ok.mp hx
  exact mirrors_emit (d := { d with version := _ }) (short_of_header hh)

theorem mirrors_open {payload : Bytes} :
    Mirrors (core pending buf) Panic.Scarce (d.handleCommandOpen env h payload)
      ((d.core pending buf).onOpen env h payload) := by
  rw [handleCommandOpen_eq]
  unfold Core.onOpen
  show Mirrors _ _ _ (match (serviceName payload).bind (StreamManager.openService env d.os) with
    | none => _
    | some (svc, os) => _)
  cases (serviceName payload).bind (StreamManager.openService env d.os) with
  | none => exact mirrors_emit (bareOut_short ..)
  | some x =>
    obtain ⟨svc, os⟩ := x
    simp only
    show Mirrors _ _ _ (if d.streams.nextId.toNat + 1 < 2 ^ 32 then _ else _)
    split
    · -- the OKAY is said before the read is known to have an id
      have hokay : Mirrors (core pending buf) Panic.Scarce
          ((d.added svc os h.arg0).emit (okayOut d.streams.nextId h.arg0)) _ :=
        mirrors_emit (bareOut_short .okay d.streams.nextId h.arg0)
      cases hf : firstRead d.streams.nextId ⟨h.arg0, svc, false, false⟩ with
      | error p =>
        show Mirrors _ _ _ ((firstRead d.streams.nextId _) >>= _)
        rw [hf]
        exact hokay.bind (k := fun _ => .error p) fun d1 _ => .fail p
      | ok outs =>
        show Mirrors _ _ _ ((firstRead d.streams.nextId _) >>= _)
        rw [hf]
        exact hokay.bind (k := fun c => .ok (c.sayAll outs)) fun d1 _ =>
          mirrors_emitAll (firstRead_short hf)
    · exact .fail _

theorem mirrors_wrte {payload : Bytes} :
    Mirrors (core pending buf) Panic.Scarce (d.handleCommandWrte env h payload)
      (((d.core pending buf).say (okayOut h.arg1 h.arg0)).strike h.arg1 fun st =>
        onWrte env d.version h.arg1 d.os st payload) := by
  rw [handleCommandWrte_eq]
  have hokay : Mirrors (core pending buf) Panic.Scarce (d.emit (okayOut h.arg1 h.arg0)) _ :=
    mirrors_emit (bareOut_short .okay h.arg1 h.arg0)
  refine hokay.bind (k := fun c => c.strike h.arg1 fun st => onWrte env d.version h.arg1 d.os st payload)
    fun d1 h1 => ?_
  obtain ⟨-, hv, hos⟩ := emitAll_frame (by rw [emitAll_singleton]; exact h1)
  rw [← hv, ← hos]
  exact mirrors_strike fun st e he => (onWrte_voices he).short

/-- **A dispatched message.** -/
theorem mirrors_command {p : Option Bytes} :
    Mirrors (core pending buf) Panic.Scarce (d.handleCommand env h p)
      ((d.core pending buf).handleCommand env h p) := by
  unfold handleCommand Core.handleCommand
  simp only
  cases h.command with
  | cnxn =>
    cases p with
    | none => exact .fail _
    | some payload => exact mirrors_cnxn (d := d.log _)
  | «open» =>
    cases p with
    | none => exact .fail _
    | some payload => exact mirrors_open (d := d.log _)
  | wrte =>
    cases p with
    | none => exact .fail _
    | some payload => exact mirrors_wrte (d := d.log _)
  | okay =>
    cases p with
    | some payload => exact .fail _
    | none =>
      simp only [handleCommandOkay_eq]
      exact mirrors_strike (d := d.log _) fun st e he => (onOkay_voices he).short
  | clse =>
    simp only [handleCommandClse_eq]
    exact mirrors_strike (d := d.log _) fun st e he => (onClse_voices (v := d.version) he).short
  | auth => exact .pure (d.log _)
  | stls => exact .pure (d.log _)

theorem mirrors_op (u : UserData) :
    Mirrors (core pending buf) Panic.Scarce (d.submitOp u) (.ok (d.core pending buf)) :=
  mirrors_emit (o := .op u) trivial

end Dev

/-! ## Completions -/

namespace Sys

variable {env : Env} {s s' : Sys} {c : Cqe} {e : Event}

theorem mirrors_lift {x : Except Panic Dev} {y : Except Panic Core}
    (h : Mirrors (Dev.core s.pendingHeader s.bulkOutBuf) Panic.Scarce x y) :
    Mirrors core Halt.Scarce (s.lift x) (panics y) := by
  cases x with
  | ok d =>
    rw [h.ok d rfl]
    exact .pure { s with dev := d }
  | error p =>
    refine ⟨fun t ht => ?_, fun halt he => ?_⟩
    · cases ht
    · cases he
      rcases h.error p rfl with (rfl | rfl) | hy
      · exact .inl (.inl rfl)
      · exact .inl (.inr rfl)
      · rw [hy]
        exact .inr rfl

theorem transfer_core (s : Sys) (res : Int) : s.core.transfer res = s.transfer res := by
  unfold transfer Core.transfer
  show (if res < 0 then _ else panics (s.bulkOutBuf.slice res.toNat)) = _
  cases s.bulkOutBuf.slice res.toNat <;> rfl

theorem mirrors_onHeader {data : Bytes} :
    Mirrors core Halt.Scarce (s.onHeader env data) (s.core.onHeader env data) := by
  unfold onHeader Core.onHeader
  simp only
  cases parseHeader data with
  | none => exact mirrors_lift (Dev.mirrors_op (d := s.dev.log _) _)
  | some x =>
    simp only
    split
    · exact mirrors_lift (s := { s with pendingHeader := some x.1 })
        (Dev.mirrors_op (d := s.dev.log _) _)
    · exact mirrors_lift ((Dev.mirrors_command (d := s.dev.log _)).then fun d _ => Dev.mirrors_op _)

theorem mirrors_onPayload {data : Bytes} :
    Mirrors core Halt.Scarce (s.onPayload env data) (s.core.onPayload env data) := by
  unfold onPayload Core.onPayload
  simp only
  show Mirrors _ _ _ (match s.pendingHeader with | some header => _ | none => _)
  cases s.pendingHeader with
  | none => exact mirrors_lift (Dev.mirrors_op (d := s.dev.log _) _)
  | some header =>
    refine mirrors_lift (s := { s with pendingHeader := none }) (.bind_same fun bad _ => ?_)
    cases bad with
    | true => exact Dev.mirrors_op (d := s.dev.log _) _
    | false =>
      simp only [Bool.false_eq_true, if_false]
      exact (Dev.mirrors_command (d := s.dev.log _)).then fun d _ => Dev.mirrors_op _

/-- **A completion that is no write's.** -/
theorem mirrors_handleCqe (hw : ∀ x, UserData.tryFrom c.userData ≠ some ⟨.bulkInWrite, x⟩) :
    Mirrors core Halt.Scarce (s.handleCqe env c) (s.core.handle env c) := by
  have hread : ∀ op (j : NonZeroU32), Mirrors core Halt.Scarce
      (if c.res ≤ 0 then s.lift (readEnd s.dev j.1) else s.lift (readRelay s.dev op j.1 c.res.toNat))
      (panics (s.core.strike j.1 fun st => onRead s.core.version j.1 s.core.os st op c.res)) := by
    intro op j
    rw [← apply_ite s.lift, Dev.readDone_eq]
    refine mirrors_lift (Dev.mirrors_strike fun st e he => ?_)
    have hv : e.Voices env s.core.version j.1 s.core.os st (.read op c.res) := onRead_voices he
    exact hv.short
  unfold handleCqe Core.handle
  cases ht : UserData.tryFrom c.userData with
  | none => exact .pure s
  | some u =>
    obtain ⟨op, x⟩ := u
    cases op with
    | bulkInWrite => exact absurd ht (hw x)
    | ptyRead =>
      cases x with
      | none => exact .fail _
      | some j => exact hread .ptyRead j
    | socketRead =>
      cases x with
      | none => exact .fail _
      | some j => exact hread .socketRead j
    | ep0Poll =>
      simp only
      split
      · exact .fail _
      · split
        · exact .fail _
        · exact mirrors_lift (Dev.mirrors_op _)
    | bulkOutReadHeader =>
      simp only [transfer_core]
      exact .bind_same fun data _ => mirrors_onHeader
    | bulkOutReadPayload =>
      simp only [transfer_core]
      exact .bind_same fun data _ => mirrors_onPayload

/-! ## Steps -/

/-- What a read of a stream does to memory is the core's, but for a slot. -/
theorem fill_core (s : Sys) (op : UserDataOpType) (j : UInt32) (bytes : Bytes) (place : Option Place) :
    runEvents Core.step s.core (match s.dev.filledBy op j place with
      | some (op', i) => [.fill op' i bytes]
      | none => []) = .ok { s with dev := s.dev.fill op j bytes place }.core := by
  generalize hd : s.dev.fill op j bytes place = d'
  cases fills hd with
  | slot hf hp hj =>
    rw [hf]
    rfl
  | nothing hf =>
    rw [hf]
    rfl
  | @stream op' i st hf hst =>
    rw [hf]
    have hcore : s.core.fill op' i bytes =
        { s.core with
          streams := s.core.streams.put i (some { st with service := st.service.filled op' bytes }) } := by
      unfold Core.fill
      rw [show s.core.streams.get i = some st from hst]
    exact congrArg Except.ok hcore

theorem complete_core {k : Nat} {e : Sqe} {u : UserData} {bytes : Bytes} {place : Option Place}
    (he : s.inflight[k]? = some e) (hu : UserData.tryFrom e.userData = some u)
    (hf : (Outcome.data bytes place).fits u.opType = true) :
    runEvents Core.step s.core (s.input (.complete k (.data bytes place))) =
      .ok (s.fill u (.data bytes place)).core := by
  obtain ⟨op, x⟩ := u
  simp only [input, he, Option.bind_some, hu]
  cases op with
  | ep0Poll => cases hf
  | bulkInWrite => cases hf
  | bulkOutReadHeader => rfl
  | bulkOutReadPayload => rfl
  | ptyRead =>
    cases x with
    | none => rfl
    | some j => exact fill_core s .ptyRead j.1 bytes place
  | socketRead =>
    cases x with
    | none => rfl
    | some j => exact fill_core s .socketRead j.1 bytes place

theorem input_handle_write {rest : List Cqe} (hb : s.batch = c :: rest) {slot : NonZeroU32}
    (ht : UserData.tryFrom c.userData = some ⟨.bulkInWrite, some slot⟩) : s.input (.handle env) = [] := by
  simp only [input, hb, writeSlot, ht]
  rfl

theorem input_handle {rest : List Cqe} (hb : s.batch = c :: rest)
    (hw : ∀ x, UserData.tryFrom c.userData ≠ some ⟨.bulkInWrite, x⟩) :
    s.input (.handle env) = [.done env c] := by
  simp only [input, hb, writeSlot_none hw]
  rfl

theorem write_cases (c : Cqe) : (∃ x, UserData.tryFrom c.userData = some ⟨.bulkInWrite, x⟩) ∨
    ∀ x, UserData.tryFrom c.userData ≠ some ⟨.bulkInWrite, x⟩ := by
  by_cases h : ∃ x, UserData.tryFrom c.userData = some ⟨.bulkInWrite, x⟩
  · exact .inl h
  · exact .inr fun x hx => h ⟨x, hx⟩

theorem run_done (c : Core) (env : Env) (q : Cqe) :
    runEvents Core.step c [.done env q] = c.handle env q := by
  show (c.handle env q >>= fun c => .ok c) = _
  cases c.handle env q <;> rfl

theorem handle_core (h : s.step (.handle env) = .ok s') :
    runEvents Core.step s.core (s.input (.handle env)) = .ok s'.core := by
  cases hb : s.batch with
  | nil =>
    simp only [step, hb] at h
    cases h
  | cons c rest =>
    simp only [step, hb] at h
    rcases write_cases c with ⟨x, ht⟩ | hw
    · obtain ⟨slot, buffers, rfl, -, rfl⟩ := (handles_of_ok h).of_write ht
      rw [input_handle_write hb ht]
      rfl
    · rw [input_handle hb hw, run_done]
      exact (mirrors_handleCqe (s := { s with batch := rest }) hw).ok s' h

/-- A read whose stream is open brings what it returned to that stream. -/
theorem Kept.input_read (h : s.Kept) {i : UInt32} {op : UserDataOpType} {bytes : Bytes}
    (hc : s.completes e i = some (op, bytes)) : s.input e = [.fill op i bytes] := by
  obtain ⟨k, sqe, place, j, rfl, hk, hu, rfl, hop⟩ := completes_eq_some hc
  have hr : s.Reading j.1 := .of_inflight hop hk hu
  obtain ⟨st, hst⟩ := Option.isSome_iff_exists.mp (h j.1 hr)
  rcases hop with rfl | rfl
  · simp only [input, hk, Option.bind_some, hu, filledBy_open hst]
  · simp only [input, hk, Option.bind_some, hu, filledBy_open hst]

theorem step_core (s : Sys) (e : Event) (s' : Sys) (h : s.step e = .ok s') :
    runEvents Core.step s.core (s.input e) = .ok s'.core := by
  cases e with
  | submit =>
    obtain ⟨-, rfl⟩ := submit_ok h
    rfl
  | reap =>
    obtain ⟨-, -, -, rfl⟩ := reap_ok h
    rfl
  | complete k outcome =>
    obtain ⟨e, u, he, hu, hf, rfl⟩ := complete_ok h
    cases outcome with
    | data bytes place => exact complete_core he hu hf
    | count n => rfl
    | error n => rfl
  | handle env => exact handle_core h

theorem Owned.write_returns {rest : List Cqe} (ho : s.Owned) (hb : s.batch = c :: rest)
    {x : Option NonZeroU32} (ht : UserData.tryFrom c.userData = some ⟨.bulkInWrite, x⟩) (halt : Halt) :
    s.step (.handle env) ≠ .error halt := by
  have hc : c ∈ s.batch := by
    rw [hb]
    exact .head _
  obtain ⟨slot, rfl, h8, -⟩ := ho.slot_of_batch hc ht
  have hfree : s.dev.buffers.free slot.1 =
      .ok (s.dev.buffers.setSlot (slot.1.toNat - 1) none) := by
    refine if_neg fun hbad => ?_
    have hpos : slot.1.toNat ≠ 0 := fun e => slot.2 (UInt32.toNat_inj.mp e)
    rcases hbad with hbad | hbad
    · exact slot.2 hbad
    · omega
  simp only [Sys.step, hb, handleCqe, ht, hfree]
  exact fun he => by cases he

/-- What ends a run of the loop ends that of its core, unless it is a lack of room. -/
theorem Owned.step_error (ho : s.Owned) {halt : Halt} (h : s.step e = .error halt) :
    halt = .disabled ∨ halt.Scarce ∨ runEvents Core.step s.core (s.input e) = .error halt := by
  cases e with
  | submit =>
    simp only [Sys.step] at h
    split at h
    · cases h
    · cases h
      exact .inl rfl
  | reap =>
    simp only [Sys.step] at h
    split at h
    · cases h
    · cases h
      exact .inl rfl
  | complete k outcome =>
    simp only [Sys.step] at h
    repeat' split at h
    all_goals cases h
    all_goals exact .inl rfl
  | handle env =>
    cases hb : s.batch with
    | nil =>
      simp only [Sys.step, hb] at h
      cases h
      exact .inl rfl
    | cons c rest =>
      rcases write_cases c with ⟨x, ht⟩ | hw
      · exact absurd h (ho.write_returns hb ht halt)
      · rw [input_handle hb hw, run_done]
        simp only [Sys.step, hb] at h
        exact .inr ((mirrors_handleCqe (s := { s with batch := rest }) hw).error halt h)

end Sys

/-- **The ring adds nothing but its limits.** Every run of the event loop that drops no
stream under a read is a run of the core on the inputs it got: the completions that are
not a write's, and what each read put into the buffer of its own stream. So two such runs
with the same inputs agree on the streams, the version, the system, the pending header
and the history, whenever their writes complete and however completions are batched. An
event that ends the run ends the core's with the same panic or return, except for a lack
of write slots or of queue entries. -/
theorem core_simulates {info : DeviceInfo} {os : Os} {s : Sys} {inputs : List Input}
    (h : Reach (observed Sys.step Sys.input) (fun p e => KeepsReads p.1 e) (Sys.start info os, [])
      (s, inputs)) :
    runEvents Core.step (.start info os) inputs = .ok s.core ∧
      (∀ e i op bytes, s.completes e i = some (op, bytes) → s.input e = [.fill op i bytes]) ∧
      (∀ t, Reach (observed Sys.step Sys.input) (fun p e => KeepsReads p.1 e)
        (Sys.start info os, []) (t, inputs) → t.core = s.core) ∧
      ∀ e halt, s.step e = .error halt → halt = .disabled ∨ halt.Scarce ∨
        runEvents Core.step s.core (s.input e) = .error halt := by
  have hrun : ∀ t, Reach (observed Sys.step Sys.input) (fun p e => KeepsReads p.1 e)
      (Sys.start info os, []) (t, inputs) →
        runEvents Core.step (.start info os) inputs = .ok t.core := fun t ht =>
    Reach.simulates Sys.step_core ht
  have hreach : Reach Sys.step KeepsReads (Sys.start info os) s :=
    Reach.forget (p := (_, [])) (q := (s, inputs)) h
  refine ⟨hrun s h, fun e i op bytes hc => ?_, fun t ht => ?_, fun e halt he => ?_⟩
  · exact (Sys.kept_of_reach hreach fun _ _ => id).input_read hc
  · exact Except.ok.inj ((hrun t ht).symm.trans (hrun s h))
  · exact (Sys.owned_of_reach hreach).step_error he

/-- The OKAY of a new stream completes, or does not. -/
theorem core_simulates_late_write : ∃ s t inputs,
    Reach (observed Sys.step Sys.input) (fun p e => KeepsReads p.1 e) (Sys.fresh, []) (s, inputs) ∧
      Reach (observed Sys.step Sys.input) (fun p e => KeepsReads p.1 e) (Sys.fresh, []) (t, inputs) ∧
      s.dev.buffers.used = 1 ∧ t.dev.buffers.used = 0 ∧ t.core = s.core := by
  let written : Sys.Turn := ⟨(UserData.mk .bulkInWrite (NonZeroU32.new 1)).toU64, .count 24, {}⟩
  have hrun : ((Sys.fresh.play keepsReads Sys.openShell).bind fun s =>
      (s.play (fun s e => keepsReads s e && (s.input e).isEmpty) [written]).map fun t =>
        (s.dev.buffers.used, t.dev.buffers.used)) = some (1, 0) := by
    decide +kernel
  obtain ⟨s, hs, h1⟩ := Option.bind_eq_some_iff.mp hrun
  obtain ⟨t, ht, hused⟩ := Option.map_eq_some_iff.mp h1
  have hreach : Reach Sys.step KeepsReads Sys.fresh s :=
    Sys.reach_of_play (fun _ _ => KeepsReads.of_keepsReads) hs
  obtain ⟨inputs, hb⟩ : ∃ inputs, Reach (observed Sys.step Sys.input) (fun p e => KeepsReads p.1 e)
      (Sys.fresh, []) (s, inputs) := hreach.observe
  have hlate : Reach Sys.step (fun s e => KeepsReads s e ∧ s.input e = []) s t :=
    Sys.reach_of_play (fun _ _ he => by
      rw [Bool.and_eq_true] at he
      exact ⟨.of_keepsReads he.1, List.isEmpty_iff.mp he.2⟩) ht
  have hb' := hb.trans (hlate.silent inputs)
  simp only [Prod.mk.injEq] at hused
  exact ⟨s, t, inputs, hb, hb', hused.1, hused.2, (core_simulates hb).2.2.1 t hb'⟩

end Adibi
