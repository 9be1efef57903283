import Adibi.Effect

/-!
# One stream of a run

What a run means for the stream `i` alone: its table entry, its reads in
flight, the WRTEs the device sent on it and the OKAYs the host sent on it
(`View`). Each event acts on a stream in one of a few ways (`Act`), and the
view after a step is computed from the view before it (`step_view`), whatever
the other streams do. Invariants of streams are proved over views.
-/

namespace Adibi

open Lib

/-- The tag of a PTY or socket read for stream `i`. -/
def readTag (op : UserDataOpType) (i : UInt32) : UInt64 := (UserData.mk op (NonZeroU32.new i)).toU64

def Traffic.wrteOn (i : UInt32) : Traffic → Option Bytes
  | .sent h p => if h.command = .wrte ∧ h.arg0 = i then some p else none
  | _ => none

def Traffic.isOkayOn (i : UInt32) : Traffic → Bool
  | .heard h _ => h.command = .okay ∧ h.arg1 = i
  | _ => false

structure View where
  stream : Option Stream
  ptyReads : Nat
  socketReads : Nat
  wrtes : List Bytes
  okays : Nat

namespace Dev

def tags (d : Dev) : List UInt64 := d.sq.map Sqe.userData

/-- The view of stream `i`; `rest` are the tags the kernel holds. -/
def view (d : Dev) (rest : List UInt64) (i : UInt32) : View where
  stream := d.streams.get i
  ptyReads := (d.tags ++ rest).count (readTag .ptyRead i)
  socketReads := (d.tags ++ rest).count (readTag .socketRead i)
  wrtes := d.trace.filterMap (Traffic.wrteOn i)
  okays := d.trace.countP (Traffic.isOkayOn i)

end Dev

namespace Sys

/-- The tags the kernel holds or has given back. -/
def rest (s : Sys) : List UInt64 :=
  s.inflight.map Sqe.userData ++ s.cq.map Cqe.userData ++ s.batch.map Cqe.userData

/-- The tags of all operations submitted and not yet handled. -/
def outstanding (s : Sys) : List UInt64 := s.dev.tags ++ s.rest

def view (s : Sys) (i : UInt32) : View := s.dev.view s.rest i

end Sys

/-! ## Submissions and views -/

namespace Out

def wrteOn (i : UInt32) : Out → Option Bytes
  | .message h p => if h.command = .wrte ∧ h.arg0 = i then some p else none
  | .op _ => none

def isRead (op : UserDataOpType) (i : UInt32) : Out → Bool
  | .op u => u.toU64 = readTag op i
  | .message _ _ => false

/-- A message on stream `i`, or a read for it. -/
def On (i : UInt32) : Out → Prop
  | .message h _ => h.arg0 = i
  | .op u => (u.opType = .ptyRead ∨ u.opType = .socketRead) ∧ u.toU64 = readTag u.opType i

end Out

/-- The view of stream `i` after submissions. -/
def View.plus (w : View) (i : UInt32) (outs : List Out) : View :=
  { w with
    ptyReads := w.ptyReads + outs.countP (Out.isRead .ptyRead i)
    socketReads := w.socketReads + outs.countP (Out.isRead .socketRead i)
    wrtes := w.wrtes ++ outs.filterMap (Out.wrteOn i) }

@[simp] theorem View.plus_nil (w : View) (i : UInt32) : w.plus i [] = w := by
  simp [View.plus]

theorem View.plus_append (w : View) (i : UInt32) (os ps : List Out) :
    w.plus i (os ++ ps) = (w.plus i os).plus i ps := by
  simp [View.plus, Nat.add_assoc]

theorem readTag_inj {op op' : UserDataOpType} {i j : UInt32} (h : readTag op i = readTag op' j) :
    op = op' ∧ i = j := by
  have hu := UserData.toU64_injective h
  simp only [UserData.mk.injEq] at hu
  refine ⟨hu.1, ?_⟩
  have hn := hu.2
  unfold NonZeroU32.new at hn
  split at hn <;> split at hn <;> simp_all

theorem View.plus_of_on {w : View} {i j : UInt32} {outs : List Out} (hij : i ≠ j)
    (h : ∀ o ∈ outs, o.On j) : w.plus i outs = w := by
  induction outs generalizing w with
  | nil => exact w.plus_nil i
  | cons o outs ih =>
    have ho := h o List.mem_cons_self
    have hw : o.wrteOn i = none := by
      cases o with
      | op u => rfl
      | message hd p =>
        have : hd.arg0 ≠ i := fun e => hij (by rw [← e]; exact ho)
        simp [Out.wrteOn, this]
    have hr : ∀ op, o.isRead op i = false := by
      intro op
      cases o with
      | message hd p => rfl
      | op u =>
        simp only [Out.isRead, ho.2, decide_eq_false_iff_not]
        exact fun e => hij (readTag_inj e).2.symm
    have := ih (w := w) fun o' ho' => h o' (List.mem_cons_of_mem _ ho')
    simpa [View.plus, hw, hr] using this

namespace Dev

theorem push_ok {d d' : Dev} {e : Sqe} (h : d.push e = .ok d') :
    d.sq.length < sqEntries ∧ d' = { d with sq := d.sq ++ [e] } := by
  unfold push at h
  split at h
  · rename_i hq
    exact ⟨hq, (Except.ok.inj h).symm⟩
  · cases h

theorem submitWrite_ok {d d' : Dev} {bytes : Bytes} {link : Bool}
    (h : d.submitWrite bytes link = .ok d') : ∃ slot buffers,
      d.buffers.alloc = .ok (slot.1, buffers) ∧
      d' = { d with buffers := buffers.extend slot.1 bytes,
                    sq := d.sq ++ [⟨(UserData.mk .bulkInWrite (some slot)).toU64, bytes, link⟩] } := by
  obtain ⟨⟨slot, buffers⟩, ha, h1⟩ := bind_eq_ok.mp h
  obtain ⟨n, -, h2⟩ := bind_eq_ok.mp h1
  obtain ⟨i, hi, h3⟩ := bind_eq_ok.mp h2
  have hslot : slot = i.1 := by
    simp only [nonZero, NonZeroU32.new] at hi
    by_cases hs : slot = 0
    · subst hs
      simp at hi
    · simp only [ne_eq, hs, not_false_eq_true, dif_pos, Except.ok.injEq] at hi
      rw [← hi]
  subst hslot
  exact ⟨i, buffers, ha, (push_ok h3).2⟩

/-- What a submission comes to: an operation on the queue, or the write of a header
and, if there is a payload, the payload's. -/
inductive Emitted (d : Dev) : Out → Dev → Prop where
  | op (u : UserData) (hq : d.sq.length < sqEntries) :
      Emitted d (.op u) { d with sq := d.sq ++ [⟨u.toU64, [], false⟩] }
  | bare {h : AdbHeader} {d1 : Dev} (h1 : d.submitWrite h.asLeBytes false = .ok d1) :
      Emitted d (.message h []) (d1.log (.sent h []))
  | full {h : AdbHeader} {p : Bytes} {d1 d2 : Dev} (hp : p ≠ [])
      (h1 : d.submitWrite h.asLeBytes true = .ok d1) (h2 : d1.submitWrite p false = .ok d2) :
      Emitted d (.message h p) (d2.log (.sent h p))

/-- **Inversion.** A submission that does not panic is one of these. -/
theorem emitted_of_ok {d d' : Dev} {o : Out} (h : d.emit o = .ok d') : Emitted d o d' := by
  cases o with
  | op u =>
    obtain ⟨hq, rfl⟩ := push_ok h
    exact .op u hq
  | message header payload =>
    obtain ⟨d1, h1, h2⟩ := bind_eq_ok.mp h
    obtain ⟨d2, h3, h4⟩ := bind_eq_ok.mp h2
    by_cases hp : payload = []
    · subst hp
      cases h3
      cases h4
      exact .bare h1
    · have hf : (some payload).filter (· ≠ []) = some payload := by simp [Option.filter, hp]
      rw [hf] at h1 h3 h4
      cases h4
      exact .full hp h1 h3

theorem writeTag_ne (slot : NonZeroU32) (i : UInt32) {op : UserDataOpType} (hop : op ≠ .bulkInWrite) :
    (UserData.mk .bulkInWrite (some slot)).toU64 ≠ readTag op i := by
  intro h
  have hu := UserData.toU64_injective h
  simp only [UserData.mk.injEq] at hu
  exact hop hu.1.symm

theorem submitWrite_view {d d' : Dev} {bytes : Bytes} {link : Bool}
    (h : d.submitWrite bytes link = .ok d') (rest : List UInt64) (i : UInt32) :
    d'.view rest i = d.view rest i := by
  obtain ⟨slot, buffers, -, rfl⟩ := submitWrite_ok h
  have h1 : _ ≠ readTag .ptyRead i := writeTag_ne slot i (by decide)
  have h2 : _ ≠ readTag .socketRead i := writeTag_ne slot i (by decide)
  simp [view, tags, List.count_append, h1, h2]

theorem log_view (d : Dev) (t : Traffic) (rest : List UInt64) (i : UInt32) :
    (d.log t).view rest i =
      { d.view rest i with
        wrtes := (d.view rest i).wrtes ++ (t.wrteOn i).toList
        okays := (d.view rest i).okays + if t.isOkayOn i then 1 else 0 } := by
  simp only [view, log, tags, List.filterMap_append, List.countP_append, List.countP_singleton,
    List.filterMap_cons, List.filterMap_nil]
  cases t.wrteOn i <;> rfl

theorem emit_view {d d' : Dev} {o : Out} (h : d.emit o = .ok d') (rest : List UInt64) (i : UInt32) :
    d'.view rest i = (d.view rest i).plus i [o] := by
  cases emitted_of_ok h with
  | op u hq =>
    simp only [view, tags, View.plus, Out.isRead, Out.wrteOn, List.map_append, List.count_append,
      List.map_cons, List.map_nil, List.count_singleton, beq_iff_eq, List.countP_singleton,
      decide_eq_true_eq, List.filterMap_cons, List.filterMap_nil, List.append_nil, View.mk.injEq,
      true_and, and_true]
    constructor
    · omega
    · omega
  | bare h1 =>
    rw [log_view, submitWrite_view h1]
    simp only [View.plus, Traffic.isOkayOn, Traffic.wrteOn, Out.wrteOn, List.filterMap_cons,
      List.filterMap_nil]
    split <;> simp [Out.isRead]
  | full _ h1 h2 =>
    rw [log_view, submitWrite_view h2, submitWrite_view h1]
    simp only [View.plus, Traffic.isOkayOn, Traffic.wrteOn, Out.wrteOn, List.filterMap_cons,
      List.filterMap_nil]
    split <;> simp [Out.isRead]

theorem emitAll_view {d d' : Dev} {outs : List Out} (h : d.emitAll outs = .ok d')
    (rest : List UInt64) (i : UInt32) : d'.view rest i = (d.view rest i).plus i outs := by
  induction outs generalizing d with
  | nil =>
    cases h
    simp
  | cons o outs ih =>
    obtain ⟨d1, h1, h2⟩ := bind_eq_ok.mp h
    rw [ih h2, emit_view h1, ← View.plus_append]
    rfl

theorem apply_view_self {d d' : Dev} {i : UInt32} {e : Effect} (h : d.apply i e = .ok d')
    (rest : List UInt64) :
    d'.view rest i = { d.view rest i with stream := e.stream }.plus i e.outs := by
  rw [emitAll_view h]
  congr 1
  simp [view, setStream, tags]

theorem apply_view_ne {d d' : Dev} {i j : UInt32} {e : Effect} (hij : i ≠ j)
    (hon : ∀ o ∈ e.outs, o.On j) (h : d.apply j e = .ok d') (rest : List UInt64) :
    d'.view rest i = d.view rest i := by
  rw [emitAll_view h, View.plus_of_on hij hon]
  simp [view, setStream, tags, StreamManager.get_put_ne hij]

end Dev

/-! ## An effect submits for its own stream -/

theorem clseOut_on (i r : UInt32) : (clseOut i r).On i := rfl

theorem wrteOut_ok {v : ProtocolVersion} {i r : UInt32} {data : Bytes} {o : Out}
    (h : wrteOut v i r data = .ok o) :
    ∃ hd, o = .message hd data ∧ hd.command = .wrte ∧ hd.arg0 = i ∧ hd.arg1 = r := by
  obtain ⟨hd, hh, he⟩ := bind_eq_ok.mp h
  cases he
  obtain ⟨h1, h2, h3, -⟩ := headerFromPayload_ok hh
  exact ⟨hd, rfl, h1, h2, h3⟩

theorem wrteOut_on {v : ProtocolVersion} {i r : UInt32} {data : Bytes} {o : Out}
    (h : wrteOut v i r data = .ok o) : o.On i := by
  obtain ⟨hd, rfl, -, h0, -⟩ := wrteOut_ok h
  exact h0

theorem nonZero_ok {p : Panic} {w : UInt32} {n : NonZeroU32} (h : nonZero p w = .ok n) :
    NonZeroU32.new w = some n := by
  unfold nonZero at h
  split at h
  · rename_i n' hn
    cases h
    exact hn
  · cases h

theorem readOut_ok {op : UserDataOpType} {i : UInt32} {o : Out} (h : readOut op i = .ok o) :
    ∃ u : UserData, o = .op u ∧ u.opType = op ∧ u.toU64 = readTag op i := by
  obtain ⟨n, hn, he⟩ := bind_eq_ok.mp h
  cases he
  exact ⟨_, rfl, rfl, by rw [readTag, nonZero_ok hn]⟩

theorem readOut_on {op : UserDataOpType} {i : UInt32} {o : Out} (hop : op = .ptyRead ∨ op = .socketRead)
    (h : readOut op i = .ok o) : o.On i := by
  obtain ⟨u, rfl, rfl, hu⟩ := readOut_ok h
  exact ⟨hop, hu⟩

section

variable {env : Env} {v : ProtocolVersion} {i : UInt32} {os : Os} {st : Stream} {e : Effect}

theorem closing_on (i : UInt32) (os : Os) (st : Stream) : ∀ o ∈ (closing i os st).outs, o.On i := by
  intro o ho
  rw [List.mem_singleton.mp ho]
  exact clseOut_on i st.remoteId

theorem continueSync_on (h : continueSync env v i os st = .ok e) : ∀ o ∈ e.outs, o.On i := by
  unfold continueSync at h
  split at h
  · cases h
    simp
  · split at h
    · obtain ⟨⟨frame, sender⟩, -, h1⟩ := bind_eq_ok.mp h
      cases frame with
      | none =>
        cases h1
        simp
      | some r =>
        obtain ⟨o, ho, h2⟩ := bind_eq_ok.mp h1
        cases h2
        intro o' ho'
        rw [List.mem_singleton.mp ho']
        exact wrteOut_on ho
    · cases h
      simp

theorem onOkay_on (h : onOkay env v i os st = .ok e) : ∀ o ∈ e.outs, o.On i := by
  unfold onOkay at h
  simp only at h
  split at h
  · exact continueSync_on h
  · obtain ⟨o, ho, h1⟩ := bind_eq_ok.mp h
    cases h1
    intro o' ho'
    rw [List.mem_singleton.mp ho']
    exact readOut_on (by simp) ho
  · obtain ⟨o, ho, h1⟩ := bind_eq_ok.mp h
    cases h1
    intro o' ho'
    rw [List.mem_singleton.mp ho']
    exact readOut_on (by simp) ho
  · cases h

theorem firstRead_on {outs : List Out} (h : firstRead i st = .ok outs) : ∀ o ∈ outs, o.On i := by
  unfold firstRead at h
  intro o ho
  split at h
  · obtain ⟨o', hr, rfl⟩ := map_eq_ok.mp h
    rw [List.mem_singleton.mp ho]
    exact readOut_on (by simp) hr
  · obtain ⟨o', hr, rfl⟩ := map_eq_ok.mp h
    rw [List.mem_singleton.mp ho]
    exact readOut_on (by simp) hr
  · cases h
    cases ho

theorem written_on (i : UInt32) (st : Stream) (r : Except IoError Unit × Os) :
    ∀ o ∈ (written i st r).outs, o.On i := by
  unfold written
  split
  · simp
  · exact closing_on i _ st

theorem onWrte_on {payload : Bytes} (h : onWrte env v i os st payload = .ok e) :
    ∀ o ∈ e.outs, o.On i := by
  unfold onWrte at h
  split at h
  · obtain ⟨⟨result, svc, fs⟩, -, h1⟩ := bind_eq_ok.mp h
    cases result with
    | stat stat =>
      obtain ⟨o, ho, h2⟩ := bind_eq_ok.mp h1
      cases h2
      intro o' ho'
      rw [List.mem_singleton.mp ho']
      exact wrteOut_on ho
    | data hdr data =>
      obtain ⟨o, ho, h2⟩ := bind_eq_ok.mp h1
      cases h2
      intro o' ho'
      rw [List.mem_singleton.mp ho']
      exact wrteOut_on ho
    | «continue» => exact continueSync_on h1
    | quit =>
      cases h1
      exact closing_on i _ _
  · cases h
    exact written_on i st _
  · cases h
    exact written_on i st _
  · cases h

theorem onClse_on {r : UInt32} (h : onClse env i os st r = .ok e) : ∀ o ∈ e.outs, o.On i := by
  unfold onClse at h
  split at h
  · cases h
  · split at h
    · cases h
      simp
    · cases h
      exact closing_on i os st

theorem onRead_on {op : UserDataOpType} {res : Int} (h : onRead v i os st op res = .ok e) :
    ∀ o ∈ e.outs, o.On i := by
  unfold onRead at h
  split at h
  · cases h
    exact closing_on i os st
  · split at h
    · cases h
      simp
    · obtain ⟨o, ho, h1⟩ := bind_eq_ok.mp h
      cases h1
      intro o' ho'
      rw [List.mem_singleton.mp ho']
      exact wrteOut_on ho

end

/-! ## Acts -/

/-- What an event is to one stream. -/
inductive Act where
  | none
  /-- The kernel filled its read buffer. -/
  | fill (op : UserDataOpType) (bytes : Bytes)
  | opened (remoteId : UInt32) (svc : Service)
  | okay
  | wrte (payload : Bytes)
  | clse (remoteId : UInt32)
  /-- Its read completed. -/
  | read (op : UserDataOpType) (res : Int)

/-- What a dispatched message is to stream `i`. -/
def Dev.actOf (env : Env) (d : Dev) (h : AdbHeader) (p : Option Bytes) (i : UInt32) : Act :=
  match h.command with
  | .okay => if h.arg1 = i then .okay else .none
  | .clse => if h.arg1 = i then .clse h.arg0 else .none
  | .wrte =>
    match p with
    | some payload => if h.arg1 = i then .wrte payload else .none
    | none => .none
  | .open =>
    match (p.bind serviceName).bind (StreamManager.openService env d.os) with
    | some (svc, _) => if d.streams.nextId = i then .opened h.arg0 svc else .none
    | none => .none
  | _ => .none

/-- What a completing read of stream `j` is to stream `i`. -/
def Dev.fillAct (d : Dev) (op : UserDataOpType) (j : UInt32) (bytes : Bytes) (place : Option Place)
    (i : UInt32) : Act :=
  match d.filledBy op j place with
  | some (op', i') => if i' = i then .fill op' bytes else .none
  | none => .none

def Act.fromHost : Act → Bool
  | .opened _ _ | .okay | .wrte _ | .clse _ => true
  | _ => false

section

variable {env : Env} {d : Dev} {h : AdbHeader} {p : Option Bytes} {i : UInt32}

theorem Dev.actOf_opened {r : UInt32} {svc : Service} (ha : d.actOf env h p i = .opened r svc) :
    h.command = .open ∧ i = d.streams.nextId := by
  unfold Dev.actOf at ha
  repeat' split at ha
  all_goals cases ha
  exact ⟨‹h.command = .open›, ‹d.streams.nextId = i›.symm⟩

theorem Dev.actOf_okay (ha : d.actOf env h p i = .okay) : h.command = .okay ∧ h.arg1 = i := by
  unfold Dev.actOf at ha
  repeat' split at ha
  all_goals cases ha
  rename_i hc hi
  exact ⟨hc, hi⟩

theorem Dev.actOf_wrte {payload : Bytes} (ha : d.actOf env h p i = .wrte payload) :
    h.command = .wrte ∧ h.arg1 = i ∧ p = some payload := by
  unfold Dev.actOf at ha
  repeat' split at ha
  all_goals cases ha
  rename_i hc _ hi
  exact ⟨hc, hi, rfl⟩

theorem Dev.actOf_clse {r : UInt32} (ha : d.actOf env h p i = .clse r) :
    h.command = .clse ∧ h.arg1 = i ∧ h.arg0 = r := by
  unfold Dev.actOf at ha
  repeat' split at ha
  all_goals cases ha
  rename_i hc hi
  exact ⟨hc, hi, rfl⟩

end

namespace Sys

/-- The transfer that the next completion of the batch brings, and whether it
is taken as a payload. -/
def arriving (s : Sys) : Option (Bool × Bytes) :=
  match s.batch with
  | [] => none
  | c :: _ =>
    match UserData.tryFrom c.userData, s.transfer c.res with
    | some ⟨.bulkOutReadHeader, _⟩, .ok data => some (false, data)
    | some ⟨.bulkOutReadPayload, _⟩, .ok data => some (true, data)
    | _, _ => none

/-- The message that handling the next completion of the batch dispatches. -/
def incoming (s : Sys) : Option (AdbHeader × Option Bytes) :=
  match s.arriving with
  | some (false, data) =>
    match parseHeader data with
    | some (h, _) => if h.dataLength > 0 then none else some (h, none)
    | none => none
  | some (true, data) =>
    match s.pendingHeader with
    | some h =>
      match badChecksum s.dev.version h data with
      | .ok false => some (h, some data)
      | _ => none
    | none => none
  | none => none

/-- The read that the next completion of the batch ends. -/
def ending (s : Sys) : Option (UserDataOpType × UInt32 × Int) :=
  match s.batch with
  | [] => none
  | c :: _ =>
    match UserData.tryFrom c.userData with
    | some ⟨.ptyRead, some j⟩ => some (.ptyRead, j.1, c.res)
    | some ⟨.socketRead, some j⟩ => some (.socketRead, j.1, c.res)
    | _ => none

def act (s : Sys) (e : Event) (i : UInt32) : Act :=
  match e with
  | .complete k (.data bytes place) =>
    match (s.inflight[k]?).bind fun e => UserData.tryFrom e.userData with
    | some ⟨op, some j⟩ =>
      if op = .ptyRead ∨ op = .socketRead then s.dev.fillAct op j.1 bytes place i else .none
    | _ => .none
  | .handle env =>
    match s.ending with
    | some (op, j, res) => if j = i then .read op res else .none
    | none =>
      match s.incoming with
      | some (h, p) => s.dev.actOf env h p i
      | none => .none
  | _ => .none

end Sys

namespace View

/-- The effect of an event on the stream, if it is open. -/
def through (w : View) (i : UInt32) (f : Stream → Except Panic Effect) : Except Panic View :=
  match w.stream with
  | none => .ok w
  | some st => (f st).map fun e => { w with stream := e.stream }.plus i e.outs

/-- One read less in flight. -/
def ended (w : View) (op : UserDataOpType) : View :=
  { w with
    ptyReads := if op = .ptyRead then w.ptyReads - 1 else w.ptyReads
    socketReads := if op = .socketRead then w.socketReads - 1 else w.socketReads }

def step (w : View) (env : Env) (v : ProtocolVersion) (os : Os) (i : UInt32) :
    Act → Except Panic View
  | .none => .ok w
  | .fill op bytes =>
    .ok { w with stream := w.stream.map fun st => { st with service := st.service.filled op bytes } }
  | .opened remoteId svc =>
    let st : Stream := ⟨remoteId, svc, false, false⟩
    (firstRead i st).map fun outs => { w with stream := some st }.plus i outs
  | .okay => { w with okays := w.okays + 1 }.through i (onOkay env v i os)
  | .wrte payload => w.through i fun st => onWrte env v i os st payload
  | .clse remoteId => w.through i fun st => onClse env i os st remoteId
  | .read op res => (w.ended op).through i fun st => onRead v i os st op res

theorem plus_message {w : View} {i : UInt32} {h : AdbHeader} {p : Bytes} (hc : h.command ≠ .wrte) :
    w.plus i [.message h p] = w := by
  simp [plus, Out.isRead, Out.wrteOn, hc]

theorem plus_clseOut (w : View) (i a b : UInt32) : w.plus i [clseOut a b] = w :=
  plus_message fun h => nomatch h

theorem plus_okayOut (w : View) (i a b : UInt32) : w.plus i [okayOut a b] = w :=
  plus_message fun h => nomatch h

theorem plus_op {w : View} {i : UInt32} {u : UserData} (hp : u.opType ≠ .ptyRead)
    (hs : u.opType ≠ .socketRead) : w.plus i [.op u] = w := by
  have h1 : u.toU64 ≠ readTag .ptyRead i := fun e => hp (by rw [UserData.toU64_injective e])
  have h2 : u.toU64 ≠ readTag .socketRead i := fun e => hs (by rw [UserData.toU64_injective e])
  have hw : (Out.op u).wrteOn i = none := rfl
  simp [plus, Out.isRead, hw, h1, h2]

end View

namespace Dev

/-- An effect on stream `j` of the table, as seen from stream `i`. -/
theorem effect_view {d d' : Dev} {j : UInt32} {f : Stream → Except Panic Effect}
    (hon : ∀ st e, f st = .ok e → ∀ o ∈ e.outs, o.On j)
    (h : (match d.streams.get j with
      | none => Except.ok d
      | some st => f st >>= d.apply j) = .ok d') (rest : List UInt64) (i : UInt32) :
    (if j = i then (d.view rest i).through i f else .ok (d.view rest i)) = .ok (d'.view rest i) := by
  by_cases hij : j = i
  · subst hij
    rw [if_pos rfl]
    show (match d.streams.get j with | none => _ | some st => _) = _
    cases hs : d.streams.get j with
    | none =>
      rw [hs] at h
      cases h
      rfl
    | some st =>
      rw [hs] at h
      obtain ⟨e, he, ha⟩ := bind_eq_ok.mp h
      simp only [he, Except.map]
      rw [apply_view_self ha]
  · rw [if_neg hij]
    cases hs : d.streams.get j with
    | none =>
      rw [hs] at h
      cases h
      rfl
    | some st =>
      rw [hs] at h
      obtain ⟨e, he, ha⟩ := bind_eq_ok.mp h
      rw [apply_view_ne (Ne.symm hij) (hon st e he) ha]

theorem bulkRead_view {d d' : Dev} {op : UserDataOpType} (hp : op ≠ .ptyRead)
    (hs : op ≠ .socketRead) (h : d.submitBulkOutRead op = .ok d') (rest : List UInt64) (i : UInt32) :
    d'.view rest i = d.view rest i := by
  rw [emit_view (o := .op ⟨op, none⟩) h, View.plus_op hp hs]

theorem heard_view {d : Dev} {h : AdbHeader} {p : Option Bytes} (hc : h.command ≠ .okay)
    (rest : List UInt64) (i : UInt32) : (d.log (.heard h p)).view rest i = d.view rest i := by
  simp [log_view, Traffic.wrteOn, Traffic.isOkayOn, hc]

theorem open_view {env : Env} {d d' : Dev} {h : AdbHeader} {payload : Bytes}
    (hd : d.handleCommandOpen env h payload = .ok d') (rest : List UInt64) (i : UInt32) :
    (d.view rest i).step env d.version d.os i
      (match (serviceName payload).bind (StreamManager.openService env d.os) with
        | some (svc, _) => if d.streams.nextId = i then .opened h.arg0 svc else .none
        | none => .none) = .ok (d'.view rest i) := by
  rw [handleCommandOpen_eq] at hd
  cases ho : (serviceName payload).bind (StreamManager.openService env d.os) with
  | none =>
    rw [ho] at hd
    simp only [View.step]
    rw [emit_view hd, View.plus_clseOut]
  | some x =>
    obtain ⟨svc, os⟩ := x
    rw [ho] at hd
    simp only at hd ⊢
    split at hd
    swap
    · cases hd
    obtain ⟨d1, h1, h2⟩ := bind_eq_ok.mp hd
    obtain ⟨outs, h3, h4⟩ := bind_eq_ok.mp h2
    have hv1 : d1.view rest i = (d.added svc os h.arg0).view rest i := by
      rw [emit_view h1, View.plus_okayOut]
    by_cases hi : d.streams.nextId = i
    · subst hi
      have hv0 : (d.added svc os h.arg0).view rest d.streams.nextId =
          { d.view rest d.streams.nextId with stream := some ⟨h.arg0, svc, false, false⟩ } := by
        simp [view, added, tags]
      simp only [if_true, View.step, h3, Except.map]
      rw [emitAll_view h4, hv1, hv0]
    · have hv0 : (d.added svc os h.arg0).view rest i = d.view rest i := by
        have hg : (d.added svc os h.arg0).streams.get i = d.streams.get i :=
          StreamManager.get_put_ne (Ne.symm hi) ⟨d.streams.streams, d.streams.nextId + 1⟩ _
        simp only [view, hg]
        rfl
      have hon := firstRead_on h3
      simp only [if_neg hi, View.step]
      rw [emitAll_view h4, View.plus_of_on (Ne.symm hi) hon, hv1, hv0]

/-- **A dispatched message, as seen from stream `i`.** -/
theorem handleCommand_view {env : Env} {d d' : Dev} {h : AdbHeader} {p : Option Bytes}
    (hd : d.handleCommand env h p = .ok d') (rest : List UInt64) (i : UInt32) :
    (d.view rest i).step env d.version d.os i (d.actOf env h p i) = .ok (d'.view rest i) := by
  unfold handleCommand at hd
  unfold actOf
  simp only at hd
  cases hc : h.command with
  | cnxn =>
    rw [hc] at hd
    cases p with
    | none => cases hd
    | some payload =>
      obtain ⟨⟨hr, pr⟩, h1, h2⟩ := bind_eq_ok.mp hd
      obtain ⟨hr', h3, h4⟩ := bind_eq_ok.mp h1
      cases h4
      have hcmd : hr.command ≠ .wrte := by
        rw [(headerFromPayload_ok h3).1]
        decide
      simp only [View.step]
      rw [emit_view (o := .message hr _) h2, View.plus_message hcmd]
      exact congrArg _ (heard_view (by rw [hc]; decide) rest i).symm
  | «open» =>
    rw [hc] at hd
    cases p with
    | none => cases hd
    | some payload =>
      have := open_view hd rest i
      rw [heard_view (by rw [hc]; decide)] at this
      exact this
  | wrte =>
    rw [hc] at hd
    cases p with
    | none => cases hd
    | some payload =>
      simp only at hd ⊢
      rw [handleCommandWrte_eq] at hd
      obtain ⟨d1, h1, h2⟩ := bind_eq_ok.mp hd
      have hv1 : d1.view rest i = d.view rest i := by
        rw [emit_view h1, View.plus_okayOut, heard_view (by rw [hc]; decide)]
      obtain ⟨-, hver, hos⟩ := emitAll_frame (by rw [emitAll_singleton]; exact h1)
      have := effect_view (f := fun st => onWrte env d1.version h.arg1 d1.os st payload)
        (fun st e he => onWrte_on he) h2 rest i
      rw [hv1, hver, hos] at this
      rw [← this]
      split <;> rename_i he
      · subst he
        rfl
      · rfl
  | okay =>
    rw [hc] at hd
    cases p with
    | some payload => cases hd
    | none =>
      simp only at hd ⊢
      rw [handleCommandOkay_eq] at hd
      have := effect_view (f := onOkay env d.version h.arg1 d.os) (fun st e he => onOkay_on he) hd
        rest i
      rw [← this, log_view]
      split <;> rename_i he
      · subst he
        simp [View.step, Traffic.wrteOn, Traffic.isOkayOn, hc]
      · simp [View.step, Traffic.wrteOn, Traffic.isOkayOn, he]
  | clse =>
    rw [hc] at hd
    simp only at hd ⊢
    rw [handleCommandClse_eq] at hd
    have := effect_view (f := fun st => onClse env h.arg1 d.os st h.arg0)
      (fun st e he => onClse_on he) hd rest i
    rw [heard_view (by rw [hc]; decide)] at this
    rw [← this]
    split <;> rename_i he
    · subst he
      rfl
    · rfl
  | auth =>
    rw [hc] at hd
    cases hd
    exact congrArg _ (heard_view (by rw [hc]; decide) rest i).symm
  | stls =>
    rw [hc] at hd
    cases hd
    exact congrArg _ (heard_view (by rw [hc]; decide) rest i).symm

/-! ## What a message submits -/

/-- The submissions hold no operation but PTY and socket reads. -/
def ReadsOnly (outs : List Out) : Prop :=
  ∀ u, Out.op u ∈ outs → u.opType = .ptyRead ∨ u.opType = .socketRead

theorem readsOnly_of_on {outs : List Out} {i : UInt32} (h : ∀ o ∈ outs, o.On i) : ReadsOnly outs :=
  fun _ hu => (h _ hu).1

theorem readsOnly_message {outs : List Out} (hd : AdbHeader) (p : Bytes) (h : ReadsOnly outs) :
    ReadsOnly (.message hd p :: outs) := by
  intro u hu
  rcases List.mem_cons.mp hu with he | he
  · cases he
  · exact h u he

theorem readsOnly_nil : ReadsOnly [] := fun _ hu => nomatch hu

/-- The device is another with its table, version and system replaced, after
submissions of messages and reads. -/
def Submits (d d' : Dev) : Prop :=
  ∃ m v os outs, ReadsOnly outs ∧ (d.reset m v os).emitAll outs = .ok d'

/-- The device submitted exactly `outs`; its table, version and system may have
changed before. -/
def Emits (d : Dev) (outs : List Out) (d' : Dev) : Prop :=
  ∃ m v os, (d.reset m v os).emitAll outs = .ok d'

theorem Emits.refl (d : Dev) : d.Emits [] d := ⟨d.streams, d.version, d.os, rfl⟩

theorem Emits.of_emit {d d' : Dev} {o : Out} (h : d.emit o = .ok d') : d.Emits [o] d' :=
  ⟨d.streams, d.version, d.os, by rw [emitAll_singleton]; exact h⟩

theorem Emits.of_reset {d d' : Dev} {outs : List Out} {m : StreamManager} {v : ProtocolVersion}
    {os : Os} (h : (d.reset m v os).Emits outs d') : d.Emits outs d' := h

theorem Emits.cons {d d1 d' : Dev} {o : Out} {outs : List Out} (h1 : d.emit o = .ok d1)
    (h : d1.Emits outs d') : d.Emits (o :: outs) d' := by
  obtain ⟨m, v, os, he⟩ := h
  refine ⟨m, v, os, ?_⟩
  rw [emitAll_cons, emit_reset, h1]
  exact he

theorem Emits.submits {d d' : Dev} {outs : List Out} (h : d.Emits outs d') (hr : ReadsOnly outs) :
    Submits d d' := by
  obtain ⟨m, v, os, he⟩ := h
  exact ⟨m, v, os, outs, hr, he⟩

/-- What the effect on stream `j` submits, if the stream is open. -/
def outsAt (d : Dev) (j : UInt32) (f : Stream → Except Panic Effect) : Except Panic (List Out) :=
  match d.streams.get j with
  | none => .ok []
  | some st => (f st).map Effect.outs

/-- What a dispatched message submits. -/
def outsOf (env : Env) (d : Dev) (h : AdbHeader) (p : Option Bytes) : Except Panic (List Out) :=
  match h.command with
  | .cnxn => (cnxnResponse ((ProtocolVersion.tryFrom h.arg0).getD .v0) d.info).map fun x =>
      [.message x.1 x.2]
  | .open =>
    match (p.bind serviceName).bind (StreamManager.openService env d.os) with
    | none => .ok [clseOut 0 h.arg0]
    | some (svc, _) =>
      (firstRead d.streams.nextId ⟨h.arg0, svc, false, false⟩).map fun outs =>
        okayOut d.streams.nextId h.arg0 :: outs
  | .wrte =>
    (d.outsAt h.arg1 fun st => onWrte env d.version h.arg1 d.os st (p.getD [])).map fun outs =>
      okayOut h.arg1 h.arg0 :: outs
  | .okay => d.outsAt h.arg1 (onOkay env d.version h.arg1 d.os)
  | .clse => d.outsAt h.arg1 fun st => onClse env h.arg1 d.os st h.arg0
  | _ => .ok []

theorem Emits.of_effect {d d' : Dev} {j : UInt32} {f : Stream → Except Panic Effect}
    (h : (match d.streams.get j with
      | none => Except.ok d
      | some st => f st >>= d.apply j) = .ok d') :
    ∃ outs, d.outsAt j f = .ok outs ∧ d.Emits outs d' := by
  unfold outsAt
  cases hs : d.streams.get j with
  | none =>
    rw [hs] at h
    cases h
    exact ⟨[], rfl, .refl d⟩
  | some st =>
    rw [hs] at h
    obtain ⟨e, he, ha⟩ := bind_eq_ok.mp h
    exact ⟨e.outs, by simp only [he]; rfl, _, d.version, e.os, ha⟩

/-- **A dispatched message submits what `outsOf` says, in order.** -/
theorem handleCommand_emits {env : Env} {d d' : Dev} {h : AdbHeader} {p : Option Bytes}
    (hd : d.handleCommand env h p = .ok d') :
    ∃ outs, d.outsOf env h p = .ok outs ∧ (d.log (.heard h p)).Emits outs d' := by
  unfold handleCommand at hd
  unfold outsOf
  simp only at hd
  cases hc : h.command with
  | cnxn =>
    rw [hc] at hd
    cases p with
    | none => cases hd
    | some payload =>
      obtain ⟨⟨hr, pr⟩, h1, h2⟩ := bind_eq_ok.mp hd
      refine ⟨[.message hr pr], ?_, .of_reset (.of_emit h2)⟩
      have h1' : cnxnResponse ((ProtocolVersion.tryFrom h.arg0).getD .v0) d.info = .ok (hr, pr) := h1
      simp only [h1']
      rfl
  | «open» =>
    rw [hc] at hd
    cases p with
    | none => cases hd
    | some payload =>
      simp only [handleCommandOpen_eq] at hd
      simp only [Option.bind_some]
      have hos : (d.log (.heard h (some payload))).os = d.os := rfl
      rw [hos] at hd
      cases ho : (serviceName payload).bind (StreamManager.openService env d.os) with
      | none =>
        rw [ho] at hd
        exact ⟨_, rfl, .of_emit hd⟩
      | some x =>
        obtain ⟨svc, os⟩ := x
        simp only [ho] at hd
        split at hd
        · obtain ⟨d1, h1, h2⟩ := bind_eq_ok.mp hd
          obtain ⟨outs, h3, h4⟩ := bind_eq_ok.mp h2
          have h3' : firstRead d.streams.nextId ⟨h.arg0, svc, false, false⟩ = .ok outs := h3
          refine ⟨okayOut d.streams.nextId h.arg0 :: outs, by simp only [h3']; rfl, ?_⟩
          exact .of_reset (.cons h1 ⟨d1.streams, d1.version, d1.os, h4⟩)
        · cases hd
  | wrte =>
    rw [hc] at hd
    cases p with
    | none => cases hd
    | some payload =>
      simp only [handleCommandWrte_eq] at hd
      obtain ⟨d1, h1, h2⟩ := bind_eq_ok.mp hd
      obtain ⟨hst, hver, hos⟩ := emitAll_frame (by rw [emitAll_singleton]; exact h1)
      obtain ⟨outs, ho, he⟩ := Emits.of_effect h2
      unfold outsAt at ho ⊢
      rw [hst, hver, hos] at ho
      refine ⟨okayOut h.arg1 h.arg0 :: outs, ?_, .cons h1 he⟩
      rw [Option.getD_some]
      exact congrArg (Except.map _) ho
  | okay =>
    rw [hc] at hd
    cases p with
    | some payload => cases hd
    | none =>
      simp only [handleCommandOkay_eq] at hd
      exact Emits.of_effect hd
  | clse =>
    rw [hc] at hd
    simp only [handleCommandClse_eq] at hd
    exact Emits.of_effect hd
  | auth =>
    rw [hc] at hd
    cases hd
    exact ⟨[], rfl, .refl _⟩
  | stls =>
    rw [hc] at hd
    cases hd
    exact ⟨[], rfl, .refl _⟩

theorem outsAt_on {d : Dev} {j : UInt32} {f : Stream → Except Panic Effect} {outs : List Out}
    (hon : ∀ st e, f st = .ok e → ∀ o ∈ e.outs, o.On j) (h : d.outsAt j f = .ok outs) :
    ∀ o ∈ outs, o.On j := by
  unfold outsAt at h
  split at h
  · cases h
    exact fun o ho => nomatch ho
  · rename_i st _
    obtain ⟨e, he, rfl⟩ := map_eq_ok.mp h
    exact hon st e he

theorem readsOnly_outsOf {env : Env} {d : Dev} {h : AdbHeader} {p : Option Bytes} {outs : List Out}
    (ho : d.outsOf env h p = .ok outs) : ReadsOnly outs := by
  unfold outsOf at ho
  split at ho
  · obtain ⟨x, -, rfl⟩ := map_eq_ok.mp ho
    exact readsOnly_message _ _ readsOnly_nil
  · split at ho
    · cases ho
      exact readsOnly_message _ _ readsOnly_nil
    · obtain ⟨x, hr, rfl⟩ := map_eq_ok.mp ho
      exact readsOnly_message _ _ (readsOnly_of_on (firstRead_on hr))
  · obtain ⟨x, hr, rfl⟩ := map_eq_ok.mp ho
    exact readsOnly_message _ _ (readsOnly_of_on (outsAt_on (fun _ _ he => onWrte_on he) hr))
  · exact readsOnly_of_on (outsAt_on (fun _ _ he => onOkay_on he) ho)
  · exact readsOnly_of_on (outsAt_on (fun _ _ he => onClse_on he) ho)
  · cases ho
    exact readsOnly_nil

theorem Submits.of_effect {d d' : Dev} {j : UInt32} {f : Stream → Except Panic Effect}
    (hon : ∀ st e, f st = .ok e → ∀ o ∈ e.outs, o.On j)
    (h : (match d.streams.get j with
      | none => Except.ok d
      | some st => f st >>= d.apply j) = .ok d') : Submits d d' := by
  obtain ⟨outs, ho, he⟩ := Emits.of_effect h
  exact he.submits (readsOnly_of_on (outsAt_on hon ho))

theorem Submits.handleCommand {env : Env} {d d' : Dev} {h : AdbHeader} {p : Option Bytes}
    (hd : d.handleCommand env h p = .ok d') : Submits (d.log (.heard h p)) d' := by
  obtain ⟨outs, ho, he⟩ := handleCommand_emits hd
  exact he.submits (readsOnly_outsOf ho)

end Dev

end Adibi
