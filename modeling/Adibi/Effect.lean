import Adibi.Run

/-!
# What a handler does to one stream

Every handler touches one entry of the stream table, calls that entry's
service, and submits. `Effect` says so as data: the entry's new value, the
system after the calls, and the submissions in order. The theorems named
`…_eq` state that each handler is the effect of its stream, applied to the
device; what a handler can do is read off the effect from there on.
-/

namespace Adibi

open Lib

/-- A submission, before a slot is chosen for it. -/
inductive Out where
  | message (header : AdbHeader) (payload : Bytes)
  | op (u : UserData)
  deriving DecidableEq

namespace Dev

def emit (d : Dev) : Out → Except Panic Dev
  | .message header payload => d.submitMessage header (some payload)
  | .op u => d.submitOp u

def emitAll (d : Dev) (outs : List Out) : Except Panic Dev := runEvents emit d outs

@[simp] theorem emitAll_nil (d : Dev) : d.emitAll [] = .ok d := rfl

theorem emitAll_cons (d : Dev) (o : Out) (outs : List Out) :
    d.emitAll (o :: outs) = d.emit o >>= fun d => d.emitAll outs := rfl

@[simp] theorem emitAll_singleton (d : Dev) (o : Out) : d.emitAll [o] = d.emit o := by
  rw [emitAll_cons]
  cases d.emit o <;> rfl

/-! ## Submitting reads only the pool, the queue and the history -/

/-- The device with everything a submission does not read replaced. -/
def reset (d : Dev) (streams : StreamManager) (version : ProtocolVersion) (os : Os) : Dev :=
  { d with streams, version, os }

theorem push_reset (d : Dev) (e : Sqe) (m : StreamManager) (v : ProtocolVersion) (os : Os) :
    (d.reset m v os).push e = (d.push e).map (·.reset m v os) := by
  unfold push
  show (if d.sq.length < sqEntries then _ else _) = _
  split <;> rfl

theorem submitWrite_reset (d : Dev) (bytes : Bytes) (link : Bool) (m : StreamManager)
    (v : ProtocolVersion) (os : Os) :
    (d.reset m v os).submitWrite bytes link = (d.submitWrite bytes link).map (·.reset m v os) := by
  unfold submitWrite
  show (d.buffers.alloc >>= _) = _
  cases d.buffers.alloc with
  | error e => rfl
  | ok x =>
    simp only [ok_bind]
    cases lenU32 bytes.length with
    | error e => rfl
    | ok n =>
      simp only [ok_bind]
      cases nonZero .slotZero x.1 with
      | error e => rfl
      | ok slot => exact push_reset { d with buffers := x.2.extend x.1 bytes } _ m v os

theorem emit_reset (d : Dev) (o : Out) (m : StreamManager) (v : ProtocolVersion) (os : Os) :
    (d.reset m v os).emit o = (d.emit o).map (·.reset m v os) := by
  cases o with
  | op u => exact push_reset d _ m v os
  | message header payload =>
    simp only [emit, submitMessage, submitWrite_reset]
    cases d.submitWrite header.asLeBytes ((some payload).filter (· ≠ [])).isSome with
    | error e => rfl
    | ok d1 =>
      simp only [Except.map, ok_bind]
      cases (some payload).filter (· ≠ []) with
      | none => rfl
      | some p =>
        simp only [submitPayload, submitWrite_reset]
        cases d1.submitWrite p false <;> rfl

theorem emitAll_reset (d : Dev) (outs : List Out) (m : StreamManager) (v : ProtocolVersion)
    (os : Os) : (d.reset m v os).emitAll outs = (d.emitAll outs).map (·.reset m v os) := by
  induction outs generalizing d with
  | nil => rfl
  | cons o outs ih =>
    rw [emitAll_cons, emitAll_cons, emit_reset]
    cases d.emit o with
    | error e => rfl
    | ok d1 => exact ih d1

theorem emitAll_frame {d d' : Dev} {outs : List Out} (h : d.emitAll outs = .ok d') :
    d'.streams = d.streams ∧ d'.version = d.version ∧ d'.os = d.os := by
  have hr : d.reset d.streams d.version d.os = d := rfl
  have := emitAll_reset d outs d.streams d.version d.os
  rw [hr, h] at this
  have he : d' = d'.reset d.streams d.version d.os := Except.ok.inj this
  rw [he]
  exact ⟨rfl, rfl, rfl⟩

end Dev

/-! ## Effects -/

/-- The outcome of an event for the stream it strikes. -/
structure Effect where
  stream : Option Stream
  os : Os
  outs : List Out

/-- The device after the effect on stream `localId`. -/
def Dev.apply (d : Dev) (localId : UInt32) (e : Effect) : Except Panic Dev :=
  { d.setStream localId e.stream with os := e.os }.emitAll e.outs

/-- The header of a message without a payload. -/
def bareHeader (c : Command) (arg0 arg1 : UInt32) : AdbHeader :=
  ⟨c, arg0, arg1, 0, 0, c.toU32 ^^^ 0xffffffff⟩

def okayOut (localId remoteId : UInt32) : Out := .message (bareHeader .okay localId remoteId) []

def clseOut (localId remoteId : UInt32) : Out := .message (bareHeader .clse localId remoteId) []

def wrteOut (v : ProtocolVersion) (localId remoteId : UInt32) (data : Bytes) : Except Panic Out := do
  let header ← wrteHeader v localId remoteId data
  pure (.message header data)

def readOut (op : UserDataOpType) (localId : UInt32) : Except Panic Out := do
  let i ← nonZero .serviceIdZero localId
  pure (.op ⟨op, some i⟩)

section

variable (env : Env) (v : ProtocolVersion) (localId : UInt32) (os : Os) (s : Stream)

/-- The next frame of a pull, if the stream is ready for one. -/
def continueSync : Except Panic Effect :=
  if s.waitingForOkay then .ok ⟨some s, os, []⟩
  else
    match s.service with
    | .sync ⟨.sending sender⟩ => do
      let (frame, sender) ← sender.nextFrame env os.fs
      match frame with
      | some (hdr, data) =>
        let o ← wrteOut v localId s.remoteId (hdr.asLeBytes ++ data)
        pure ⟨some { s with service := .sync ⟨.sending sender⟩, waitingForOkay := true }, os, [o]⟩
      | none => pure ⟨some { s with service := .sync ⟨.idle⟩ }, os, []⟩
    | _ => .ok ⟨some s, os, []⟩

def onOkay : Except Panic Effect :=
  let s := { s with waitingForOkay := false }
  match s.service with
  | .sync _ => continueSync env v localId os s
  | .shell _ => do
    let o ← readOut .ptyRead localId
    pure ⟨some s, os, [o]⟩
  | .forward _ => do
    let o ← readOut .socketRead localId
    pure ⟨some s, os, [o]⟩
  | .reboot => .error .rebootContinue

/-- The stream is closed, with a CLSE to the host. -/
def closing : Effect := ⟨none, os, [clseOut localId s.remoteId]⟩

/-- A payload written to a PTY or a socket; a failure closes the stream. -/
def written (r : Except IoError Unit × Os) : Effect :=
  match r with
  | (.ok (), os) => ⟨some s, os, []⟩
  | (.error _, os) => closing localId os s

def onSync (svc : SyncService) (payload : Bytes) : Except Panic Effect := do
  let (result, svc, fs) ← svc.handle env os.fs payload
  let s := { s with service := .sync svc }
  let os := { os with fs }
  match result with
  | .stat stat =>
    let o ← wrteOut v localId s.remoteId stat.asLeBytes
    pure ⟨some s, os, [o]⟩
  | .data hdr data =>
    let o ← wrteOut v localId s.remoteId (hdr.asLeBytes ++ data)
    pure ⟨some s, os, [o]⟩
  | .continue => continueSync env v localId os s
  | .quit => pure (closing localId os s)

def onWrte (payload : Bytes) : Except Panic Effect :=
  match s.service with
  | .sync svc => onSync env v localId os s svc payload
  | .shell shell => .ok (written localId s (shell.writeInput env os payload))
  | .forward fwd => .ok (written localId s (fwd.writeInput env os payload))
  | .reboot => .error .rebootWrte

def onClse (remoteId : UInt32) : Except Panic Effect :=
  if s.remoteId ≠ remoteId then .error .clseRemoteId
  else
    match s.service with
    | .forward fwd =>
      let os := match fwd.shutdownWrite env os with
        | .ok os => os
        | .error _ => os
      .ok ⟨some { s with remoteClosed := true }, os, []⟩
    | _ => .ok (closing localId os s)

def onRead (op : UserDataOpType) (res : Int) : Except Panic Effect :=
  if res ≤ 0 then .ok (closing localId os s)
  else
    match Sys.readData op s.service res.toNat with
    | none => .ok ⟨some s, os, []⟩
    | some data => do
      let o ← wrteOut v localId s.remoteId data
      pure ⟨some { s with waitingForOkay := true }, os, [o]⟩

/-- The read a new stream starts with. -/
def firstRead : Except Panic (List Out) :=
  match s.service with
  | .shell _ => (readOut .ptyRead localId).map fun o => [o]
  | .forward _ => (readOut .socketRead localId).map fun o => [o]
  | _ => .ok []

end

/-! ## Handlers and effects -/

namespace Dev

theorem submitClse_eq (d : Dev) (localId remoteId : UInt32) :
    d.submitClse localId remoteId = d.emit (clseOut localId remoteId) := by
  simp only [submitClse, clseHeader, headerFromPayload_nil, ok_bind]
  rfl

theorem submitOkay_eq (d : Dev) (localId remoteId : UInt32) :
    d.submitOkay localId remoteId = d.emit (okayOut localId remoteId) := by
  simp only [submitOkay, okayHeader, headerFromPayload_nil, ok_bind]
  rfl

theorem submitWrte_eq (d : Dev) (localId remoteId : UInt32) (data : Bytes) :
    d.submitWrte localId remoteId data = wrteOut d.version localId remoteId data >>= d.emit := by
  simp only [submitWrte, wrteOut]
  cases wrteHeader d.version localId remoteId data <;> rfl

/-- Closing a stream after its CLSE is submitted, or before, is the same. -/
theorem closing_eq (d : Dev) (localId : UInt32) (os : Os) (s : Stream) :
    ({ d with os }.submitClse localId s.remoteId >>= fun d => pure (d.closeStream localId)) =
      d.apply localId (closing localId os s) := by
  rw [submitClse_eq]
  have hframe := fun d' (h : { d with os }.emit (clseOut localId s.remoteId) = .ok d') =>
    emitAll_frame (by rw [emitAll_singleton]; exact h)
  have hr := emit_reset { d with os } (clseOut localId s.remoteId) (d.streams.put localId none)
    d.version os
  show _ = (reset { d with os } (d.streams.put localId none) d.version os).emitAll _
  rw [closing, emitAll_singleton, hr]
  cases he : { d with os }.emit (clseOut localId s.remoteId) with
  | error p => rfl
  | ok d' =>
    obtain ⟨h1, h2, h3⟩ := hframe d' he
    show Except.ok (d'.closeStream localId) = .ok (d'.reset (d.streams.put localId none) d.version os)
    simp only [closeStream, StreamManager.close, reset, h1]
    rw [← show d'.version = d.version from h2, ← show d'.os = os from h3]

theorem apply_same (d : Dev) {localId : UInt32} {s : Stream} (h : d.streams.get localId = some s) :
    d.apply localId ⟨some s, d.os, []⟩ = .ok d := by
  have hp := d.streams.put_get localId
  rw [h] at hp
  simp only [apply, emitAll_nil, setStream, hp]

theorem maybeSubmitWrteSync_eq (env : Env) (d : Dev) {localId : UInt32} {s : Stream}
    (h : d.streams.get localId = some s) : d.maybeSubmitWrteSync env localId =
      continueSync env d.version localId d.os s >>= d.apply localId := by
  simp only [maybeSubmitWrteSync, continueSync, h]
  cases hw : s.waitingForOkay with
  | true => simp only [if_true, ok_bind, apply_same d h]
  | false =>
    simp only [Bool.false_eq_true, if_false]
    rcases hs : s.service with ⟨⟨_ | sender | _⟩⟩ | _ | _ | _
    case sync.sending =>
      simp only
      cases sender.nextFrame env d.os.fs with
      | error p => rfl
      | ok x =>
        obtain ⟨frame, sender'⟩ := x
        cases frame with
        | none => rfl
        | some r =>
          simp only [ok_bind, submitWrteSync, submitWrte_eq]
          show (wrteOut d.version localId s.remoteId _ >>= _) = _
          cases wrteOut d.version localId s.remoteId (r.1.asLeBytes ++ r.2) with
          | error p => rfl
          | ok o => simp only [ok_bind, pure_eq_ok, apply, emitAll_singleton]; rfl
    all_goals simp only [ok_bind, apply_same d h]

theorem maybeSubmitPtyRead_eq (d : Dev) {localId : UInt32} {s : Stream} {sh : ShellService}
    (h : d.streams.get localId = some s) (hw : s.waitingForOkay = false)
    (hs : s.service = .shell sh) :
    d.maybeSubmitPtyRead localId = readOut .ptyRead localId >>= d.emit := by
  simp only [maybeSubmitPtyRead, h, hw, hs, readOut]
  cases nonZero .serviceIdZero localId <;> rfl

theorem maybeSubmitSocketRead_eq (d : Dev) {localId : UInt32} {s : Stream} {fwd : ForwardService}
    (h : d.streams.get localId = some s) (hw : s.waitingForOkay = false)
    (hs : s.service = .forward fwd) :
    d.maybeSubmitSocketRead localId = readOut .socketRead localId >>= d.emit := by
  simp only [maybeSubmitSocketRead, h, hw, hs, readOut]
  cases nonZero .serviceIdZero localId <;> rfl

theorem apply_set (d : Dev) (localId : UInt32) (s : Option Stream) (os : Os) (e : Effect) :
    ({ d with os }.setStream localId s).apply localId e = d.apply localId e := by
  simp only [apply, setStream, StreamManager.put_put]

theorem handleCommandOkay_eq (env : Env) (d : Dev) (header : AdbHeader) :
    d.handleCommandOkay env header =
      match d.streams.get header.arg1 with
      | none => .ok d
      | some s => onOkay env d.version header.arg1 d.os s >>= d.apply header.arg1 := by
  cases hs : d.streams.get header.arg1 with
  | none => simp only [handleCommandOkay, maybeContinueStream, hs]
  | some s =>
    have hget : (d.setStream header.arg1 (some { s with waitingForOkay := false })).streams.get
        header.arg1 = some { s with waitingForOkay := false } := StreamManager.get_put_self ..
    simp only [handleCommandOkay, maybeContinueStream, onOkay, hs, hget]
    rcases hsv : s.service with svc | sh | _ | fwd
    · rw [maybeSubmitWrteSync_eq env _ (by rw [hsv] at hget; exact hget)]
      show (continueSync env d.version header.arg1 d.os _ >>= _) = _
      congr 1
      funext e
      exact apply_set d header.arg1 _ d.os e
    · rw [maybeSubmitPtyRead_eq _ (by rw [hsv] at hget; exact hget) rfl rfl]
      cases readOut .ptyRead header.arg1 with
      | error p => rfl
      | ok o => simp only [ok_bind, pure_eq_ok, apply, emitAll_singleton]; rfl
    · rfl
    · rw [maybeSubmitSocketRead_eq _ (by rw [hsv] at hget; exact hget) rfl rfl]
      cases readOut .socketRead header.arg1 with
      | error p => rfl
      | ok o => simp only [ok_bind, pure_eq_ok, apply, emitAll_singleton]; rfl

theorem handleCommandClse_eq (env : Env) (d : Dev) (header : AdbHeader) :
    d.handleCommandClse env header =
      match d.streams.get header.arg1 with
      | none => .ok d
      | some s => onClse env header.arg1 d.os s header.arg0 >>= d.apply header.arg1 := by
  cases hs : d.streams.get header.arg1 with
  | none => simp only [handleCommandClse, hs]
  | some s =>
    simp only [handleCommandClse, onClse, hs]
    split
    · rfl
    · cases hsv : s.service with
      | forward fwd => rfl
      | sync svc => exact closing_eq d header.arg1 d.os s
      | shell sh => exact closing_eq d header.arg1 d.os s
      | reboot => exact closing_eq d header.arg1 d.os s

theorem written_eq (d : Dev) {localId : UInt32} {s : Stream} (h : d.streams.get localId = some s)
    (r : Except IoError Unit × Os) :
    (match r.1 with
      | .ok () => pure { d with os := r.2 }
      | .error _ => { d with os := r.2 }.submitClse localId s.remoteId >>= fun d =>
          pure (d.closeStream localId)) = d.apply localId (written localId s r) := by
  obtain ⟨r, os⟩ := r
  cases r with
  | ok u =>
    have hp := d.streams.put_get localId
    rw [h] at hp
    simp only [written, apply, emitAll_nil, setStream, hp]
    rfl
  | error e => exact closing_eq d localId os s

theorem onSync_eq (env : Env) (d : Dev) {localId : UInt32} {s : Stream} (svc : SyncService)
    (payload : Bytes) :
    (svc.handle env d.os.fs payload >>= fun x =>
      let d' := { d with os := { d.os with fs := x.2.2 } }.setStream localId
        (some { s with service := .sync x.2.1 })
      match x.1 with
      | .stat stat => d'.submitWrte localId s.remoteId stat.asLeBytes
      | .data hdr data => d'.submitWrteSync localId s.remoteId hdr data
      | .continue => d'.maybeSubmitWrteSync env localId
      | .quit => d'.submitClse localId s.remoteId >>= fun d => pure (d.closeStream localId)) =
      onSync env d.version localId d.os s svc payload >>= d.apply localId := by
  simp only [onSync]
  cases svc.handle env d.os.fs payload with
  | error p => rfl
  | ok x =>
    obtain ⟨result, svc', fs⟩ := x
    simp only [ok_bind]
    cases result with
    | stat stat =>
      simp only [submitWrte_eq]
      show (wrteOut d.version localId s.remoteId _ >>= _) = _
      cases wrteOut d.version localId s.remoteId stat.asLeBytes with
      | error p => rfl
      | ok o => simp only [ok_bind, pure_eq_ok, apply, emitAll_singleton]; rfl
    | data hdr data =>
      simp only [submitWrteSync, submitWrte_eq]
      show (wrteOut d.version localId s.remoteId _ >>= _) = _
      cases wrteOut d.version localId s.remoteId (hdr.asLeBytes ++ data) with
      | error p => rfl
      | ok o => simp only [ok_bind, pure_eq_ok, apply, emitAll_singleton]; rfl
    | «continue» =>
      simp only
      rw [maybeSubmitWrteSync_eq env _ (StreamManager.get_put_self ..)]
      show (continueSync env d.version localId _ _ >>= _) = _
      congr 1
      funext e
      exact apply_set d localId _ _ e
    | quit =>
      have hc := closing_eq (({ d with os := { d.os with fs } } : Dev).setStream localId
        (some { s with service := .sync svc' })) localId { d.os with fs } { s with service := .sync svc' }
      rw [apply_set] at hc
      exact hc

theorem handleCommandWrte_eq (env : Env) (d : Dev) (header : AdbHeader) (payload : Bytes) :
    d.handleCommandWrte env header payload =
      d.emit (okayOut header.arg1 header.arg0) >>= fun d =>
        match d.streams.get header.arg1 with
        | none => .ok d
        | some s => onWrte env d.version header.arg1 d.os s payload >>= d.apply header.arg1 := by
  simp only [handleCommandWrte, submitOkay_eq]
  congr 1
  funext d
  cases hs : d.streams.get header.arg1 with
  | none => rfl
  | some s =>
    simp only [onWrte]
    cases hsv : s.service with
    | reboot => rfl
    | sync svc => exact onSync_eq env d svc payload
    | shell sh => exact written_eq d hs (sh.writeInput env d.os payload)
    | forward fwd => exact written_eq d hs (fwd.writeInput env d.os payload)

theorem readDone_eq (d : Dev) (op : UserDataOpType) (localId : UInt32) (res : Int) :
    (if res ≤ 0 then Sys.readEnd d localId else Sys.readRelay d op localId res.toNat) =
      match d.streams.get localId with
      | none => .ok d
      | some s => onRead d.version localId d.os s op res >>= d.apply localId := by
  have hp := d.streams.put_get localId
  cases hs : d.streams.get localId with
  | none =>
    rw [hs] at hp
    simp only [Sys.readEnd, Sys.readRelay, hs, pure_eq_ok, ok_bind, closeStream, StreamManager.close,
      hp, ite_self]
  | some s =>
    simp only [onRead]
    split
    · simp only [Sys.readEnd, hs]
      exact closing_eq d localId d.os s
    · simp only [Sys.readRelay, hs]
      cases Sys.readData op s.service res.toNat with
      | none => simp only [ok_bind, apply_same d hs]
      | some data =>
        simp only [submitWrte_eq]
        show (wrteOut d.version localId s.remoteId _ >>= _) = _
        cases wrteOut d.version localId s.remoteId data with
        | error p => rfl
        | ok o => simp only [ok_bind, pure_eq_ok, apply, emitAll_singleton]; rfl

/-- The device with a stream added to the table. -/
def added (d : Dev) (svc : Service) (os : Os) (remoteId : UInt32) : Dev :=
  let m : StreamManager := ⟨d.streams.streams, d.streams.nextId + 1⟩
  { d with streams := m.put d.streams.nextId (some ⟨remoteId, svc, false, false⟩), os }

theorem handleCommandOpen_eq (env : Env) (d : Dev) (header : AdbHeader) (payload : Bytes) :
    d.handleCommandOpen env header payload =
      match (serviceName payload).bind (StreamManager.openService env d.os) with
      | none => d.emit (clseOut 0 header.arg0)
      | some (svc, os) =>
        if d.streams.nextId.toNat + 1 < 2 ^ 32 then
          (d.added svc os header.arg0).emit (okayOut d.streams.nextId header.arg0) >>= fun d' =>
            firstRead d.streams.nextId ⟨header.arg0, svc, false, false⟩ >>= d'.emitAll
        else .error .nextIdOverflow := by
  simp only [handleCommandOpen, StreamManager.open_]
  cases serviceName payload with
  | none => exact submitClse_eq d 0 header.arg0
  | some name =>
    simp only [Option.bind_some]
    cases StreamManager.openService env d.os name with
    | none => exact submitClse_eq d 0 header.arg0
    | some x =>
      obtain ⟨svc, os⟩ := x
      simp only
      split
      · simp only [ok_bind, submitOkay_eq]
        show ((d.added svc os header.arg0).emit _ >>= _) = _
        cases he : (d.added svc os header.arg0).emit (okayOut d.streams.nextId header.arg0) with
        | error p => rfl
        | ok d' =>
          obtain ⟨hst, -, -⟩ := emitAll_frame (by rw [emitAll_singleton]; exact he)
          have hget : d'.streams.get d.streams.nextId = some ⟨header.arg0, svc, false, false⟩ := by
            rw [hst]
            exact StreamManager.get_put_self ..
          simp only [ok_bind, hget, firstRead]
          cases svc with
          | sync s => rfl
          | reboot => rfl
          | shell sh =>
            simp only [maybeSubmitPtyRead_eq d' hget rfl rfl]
            cases readOut .ptyRead d.streams.nextId with
            | error p => rfl
            | ok o => simp only [ok_bind, Except.map, emitAll_singleton]
          | forward fwd =>
            simp only [maybeSubmitSocketRead_eq d' hget rfl rfl]
            cases readOut .socketRead d.streams.nextId with
            | error p => rfl
            | ok o => simp only [ok_bind, Except.map, emitAll_singleton]
      · rfl

end Dev

end Adibi
