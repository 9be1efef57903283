import Adibi.Budget
import Adibi.Slots

/-!
# The demand for write slots

What each completion costs in write slots: one for a bare message, two for a
message with a payload. Nothing holds a handler back when the pool runs low, so
a completion is safe if it finds the slots it needs beside those of the writes in
flight (`Sys.step_finds`).
-/

namespace Adibi

open Lib

/-! ## Submissions -/

def Out.cost : Out → Nat
  | .message _ payload => if payload = [] then 1 else 2
  | .op _ => 0

def Effect.cost (e : Effect) : Nat := (e.outs.map Out.cost).sum

/-- A panic other than "all write slots in use". -/
def Panic.NotSlots (p : Panic) : Prop := p ≠ .slotsInUse

namespace Dev

variable {d : Dev}

theorem push_raises (d : Dev) (e : Sqe) : Raises (d.push e) Panic.NotSlots := by
  unfold push
  split
  · exact .ok _
  · exact .error fun e => nomatch e

theorem submitWrite_raises (h : d.buffers.used + 1 ≤ maxBufferSlots) (bytes : Bytes) (link : Bool) :
    Raises (d.submitWrite bytes link) Panic.NotSlots := by
  refine Raises.bind ⟨fun p hp => ?_⟩ fun x _ => ?_
  · have := BufferManager.alloc_error hp
    omega
  · have hzero : Panic.Plain .slotZero := Panic.plain_of (by decide)
    exact ((lenU32_raises _).mono fun _ hq => hq.plain.slots).bind fun _ _ =>
      ((nonZero_raises hzero _).mono fun _ hq => hq.slots).bind fun _ _ => push_raises _ _

theorem submitWrite_used {d' : Dev} {bytes : Bytes} {link : Bool}
    (h : d.submitWrite bytes link = .ok d') : d'.buffers.used = d.buffers.used + 1 := by
  obtain ⟨slot, buffers, ha, rfl⟩ := submitWrite_ok h
  exact BufferManager.alloc_used ha

theorem emit_room {o : Out} (h : d.buffers.used + o.cost ≤ maxBufferSlots) :
    Raises (d.emit o) Panic.NotSlots ∧
      ∀ d', d.emit o = .ok d' → d'.buffers.used = d.buffers.used + o.cost := by
  cases o with
  | op u =>
    refine ⟨push_raises _ _, fun d' hd => ?_⟩
    rw [(push_ok hd).2]
    rfl
  | message header payload =>
    simp only [Out.cost] at h ⊢
    simp only [emit, submitMessage]
    by_cases hp : payload = []
    · subst hp
      simp only [if_true] at h ⊢
      have hn : (some ([] : Bytes)).filter (· ≠ []) = none := rfl
      rw [hn]
      refine ⟨(submitWrite_raises h _ _).bind fun d1 _ => .ok _, fun d' hd => ?_⟩
      obtain ⟨d1, h1, h2⟩ := bind_eq_ok.mp hd
      cases h2
      show d1.buffers.used = _
      exact submitWrite_used h1
    · have hs : (some payload).filter (· ≠ []) = some payload := by simp [Option.filter, hp]
      simp only [hp, if_false] at h ⊢
      rw [hs]
      refine ⟨(submitWrite_raises (by omega) _ _).bind fun d1 h1 => ?_, fun d' hd => ?_⟩
      · have hu := submitWrite_used h1
        exact (submitWrite_raises (by omega) payload false).bind fun _ _ => .ok _
      · obtain ⟨d1, h1, h2⟩ := bind_eq_ok.mp hd
        obtain ⟨d2, h3, h4⟩ := bind_eq_ok.mp h2
        cases h4
        have hu1 := submitWrite_used h1
        have hu2 : d2.buffers.used = d1.buffers.used + 1 := submitWrite_used h3
        show d2.buffers.used = _
        omega

theorem slotBudget : Budget Panic.NotSlots Out.cost fun d n => d.buffers.used + n ≤ maxBufferSlots where
  plain _ h := h.slots
  emit := by
    intro d o n h
    obtain ⟨h1, h2⟩ := emit_room (d := d) (o := o) (by omega)
    refine ⟨h1, fun d' hd => ?_⟩
    rw [h2 d' hd]
    omega
  frame := by
    intro d d' n h hb _
    rw [hb]
    exact h
  le := by
    intro d m n hle h
    omega

end Dev

/-! ## Effects -/

/-- Whether the device answers a payload with a WRTE: a STAT, FAIL or OKAY, or
the first frame of a pull, which a stream that waits for an OKAY holds back. -/
def SyncService.answers (env : Env) (fs : Fs) (waiting : Bool) (svc : SyncService)
    (payload : Bytes) : Bool :=
  match svc.handle env fs payload with
  | .ok (.stat _, _) | .ok (.data _ _, _) => true
  | .ok (.continue, ⟨.sending _⟩, _) => !waiting
  | _ => false

/-- Whether a payload is the request QUIT. -/
def SyncService.quits (svc : SyncService) (payload : Bytes) : Bool :=
  match svc.state with
  | .receiving _ => false
  | _ =>
    match parseSyncPacket payload with
    | some (.quit, _) => true
    | _ => false

/-- The slots a WRTE needs besides that of its OKAY: two for a sync reply, one
for the CLSE after QUIT or a failed write. -/
def Stream.wrteDemand (env : Env) (os : Os) (st : Stream) (payload : Bytes) : Nat :=
  match st.service with
  | .sync svc =>
    if svc.answers env os.fs st.waitingForOkay payload then 2
    else if svc.quits payload then 1
    else 0
  | .shell sh => if (sh.writeInput env os payload).1.isOk then 0 else 1
  | .forward fwd => if (fwd.writeInput env os payload).1.isOk then 0 else 1
  | .reboot => 0

/-- The slots an OKAY needs: two for the next frame of a pull. -/
def Stream.okayDemand (st : Stream) : Nat :=
  match st.service with
  | .sync ⟨.sending sender⟩ => if sender.done then 0 else 2
  | _ => 0

/-- The slots a CLSE needs: one for the answering CLSE, none while a forward
stream drains. -/
def Stream.clseDemand (st : Stream) (remoteId : UInt32) : Nat :=
  if st.remoteId ≠ remoteId then 0
  else
    match st.service with
    | .forward _ => 0
    | _ => 1

/-- The slots a completed read needs: one for the CLSE at its end, two for the
WRTE that relays it. -/
def Stream.readDemand (st : Stream) (op : UserDataOpType) (res : Int) : Nat :=
  if res ≤ 0 then 1 else if st.service.reader = some op then 2 else 0

section

variable {env : Env} {v : ProtocolVersion} {i : UInt32} {os : Os} {st : Stream} {e : Effect}
  {svc : SyncService} {payload : Bytes}

theorem wrteOut_cost {r : UInt32} {data : Bytes} {o : Out} (h : wrteOut v i r data = .ok o) :
    o.cost ≤ 2 := by
  obtain ⟨hd, rfl, -⟩ := wrteOut_ok h
  simp only [Out.cost]
  split <;> omega

theorem readOut_cost {op : UserDataOpType} {o : Out} (h : readOut op i = .ok o) : o.cost = 0 := by
  obtain ⟨u, rfl, -⟩ := readOut_ok h
  rfl

theorem firstRead_cost {outs : List Out} (h : firstRead i st = .ok outs) :
    (outs.map Out.cost).sum = 0 := by
  have hmap : ∀ op, (readOut op i).map (fun o => [o]) = .ok outs → (outs.map Out.cost).sum = 0 := by
    intro op hm
    cases ho : readOut op i with
    | error q =>
      rw [ho] at hm
      cases hm
    | ok o =>
      rw [ho] at hm
      cases hm
      simp [readOut_cost ho]
  unfold firstRead at h
  split at h
  · exact hmap _ h
  · exact hmap _ h
  · cases h
    rfl

theorem cost_wrte {s : Option Stream} {r : UInt32} {data : Bytes} {o : Out}
    (h : wrteOut v i r data = .ok o) : (⟨s, os, [o]⟩ : Effect).cost ≤ 2 := by
  simpa [Effect.cost] using wrteOut_cost h

theorem closing_cost (i : UInt32) (os : Os) (st : Stream) : (closing i os st).cost = 1 := rfl

theorem continueSync_cost (h : continueSync env v i os st = .ok e) :
    e.cost = 0 ∨ (e.cost ≤ 2 ∧ st.waitingForOkay = false ∧
      ∃ sender : FileSender, st.service = .sync ⟨.sending sender⟩ ∧ sender.done = false) := by
  rcases continueSync_cases h with ⟨rfl, -⟩ | ⟨hw, sender, sender', hdr, data, o, hs, hn, ho, rfl⟩ |
    ⟨-, _, _, -, -, rfl⟩
  · exact .inl rfl
  · refine .inr ⟨cost_wrte ho, hw, sender, hs, ?_⟩
    unfold FileSender.nextFrame at hn
    split at hn
    · cases hn
    · rename_i hd
      simpa using hd
  · exact .inl rfl

theorem onOkay_cost (h : onOkay env v i os st = .ok e) : e.cost ≤ st.okayDemand := by
  unfold onOkay at h
  unfold Stream.okayDemand
  cases hs : st.service with
  | reboot =>
    simp only [hs] at h
    cases h
  | shell sh =>
    simp only [hs] at h
    obtain ⟨o, ho, h1⟩ := bind_eq_ok.mp h
    cases h1
    simp [Effect.cost, readOut_cost ho]
  | forward fwd =>
    simp only [hs] at h
    obtain ⟨o, ho, h1⟩ := bind_eq_ok.mp h
    cases h1
    simp [Effect.cost, readOut_cost ho]
  | sync svc =>
    simp only [hs] at h
    rcases continueSync_cost h with h0 | ⟨h2, -, sender, hsv, hd⟩
    · rw [h0]
      exact Nat.zero_le _
    · cases hsv
      simpa [hd] using h2

theorem SyncService.handleRequest_quit {fs fs' : Fs} {svc' : SyncService}
    (h : svc.handleRequest env fs payload = .ok (.quit, svc', fs')) :
    ∃ leftover, parseSyncPacket payload = some (.quit, leftover) := by
  unfold SyncService.handleRequest at h
  cases hp : parseSyncPacket payload with
  | none =>
    rw [hp] at h
    obtain ⟨x, hx, h1⟩ := bind_eq_ok.mp h
    obtain ⟨y, -, hy⟩ := bind_eq_ok.mp hx
    cases hy
    cases h1
  | some q =>
    obtain ⟨packet, leftover⟩ := q
    rw [hp] at h
    cases packet with
    | lstatV1 path =>
      obtain ⟨x, hx, h1⟩ := bind_eq_ok.mp h
      unfold handleLstatV1 at hx
      split at hx
      · obtain ⟨a, -, ha⟩ := bind_eq_ok.mp hx
        obtain ⟨b, -, hb⟩ := bind_eq_ok.mp ha
        cases hb
        cases h1
      · cases hx
        cases h1
    | recvV1 path =>
      obtain ⟨x, hx, h1⟩ := bind_eq_ok.mp h
      unfold handleRecvV1 at hx
      split at hx
      · cases hx
        cases h1
      · obtain ⟨a, ha, hb⟩ := bind_eq_ok.mp hx
        obtain ⟨y, -, hy⟩ := bind_eq_ok.mp ha
        cases hy
        cases hb
        cases h1
    | sendV1 path mode =>
      simp only [handleSendV1] at h
      split at h
      · obtain ⟨a, ha, hb⟩ := bind_eq_ok.mp h
        obtain ⟨y, -, hy⟩ := bind_eq_ok.mp ha
        cases hy
        cases hb
      · split at h
        · obtain ⟨⟨result, r, fs1⟩, -, h1⟩ := bind_eq_ok.mp h
          cases result <;> cases h1
        · cases h
    | quit => exact ⟨leftover, rfl⟩

theorem SyncService.handle_quit {fs fs' : Fs} {svc' : SyncService}
    (h : svc.handle env fs payload = .ok (.quit, svc', fs')) : svc.quits payload = true := by
  obtain ⟨state⟩ := svc
  cases state with
  | receiving r =>
    obtain ⟨⟨result, r', fs1⟩, -, h1⟩ := bind_eq_ok.mp h
    cases result <;> cases h1
  | idle =>
    obtain ⟨leftover, hp⟩ := SyncService.handleRequest_quit h
    simp only [SyncService.quits, hp]
  | sending sender =>
    obtain ⟨leftover, hp⟩ := SyncService.handleRequest_quit h
    simp only [SyncService.quits, hp]

theorem onSync_cost (h : onSync env v i os st svc payload = .ok e) :
    e.cost ≤ if svc.answers env os.fs st.waitingForOkay payload then 2
      else if svc.quits payload then 1 else 0 := by
  obtain ⟨⟨result, svc', fs⟩, hh, h1⟩ := bind_eq_ok.mp h
  unfold SyncService.answers
  rw [hh]
  cases result with
  | stat stat =>
    obtain ⟨o, ho, h2⟩ := bind_eq_ok.mp h1
    cases h2
    exact cost_wrte ho
  | data hdr data =>
    obtain ⟨o, ho, h2⟩ := bind_eq_ok.mp h1
    cases h2
    exact cost_wrte ho
  | «continue» =>
    rcases continueSync_cost h1 with h0 | ⟨h2, hw, sender, hsv, -⟩
    · rw [h0]
      exact Nat.zero_le _
    · cases hsv
      have hw' : st.waitingForOkay = false := hw
      simpa [hw'] using h2
  | quit =>
    cases h1
    simp [SyncService.handle_quit hh, closing_cost]

theorem written_cost (r : Except IoError Unit × Os) :
    (written i st r).cost ≤ if r.1.isOk then 0 else 1 := by
  obtain ⟨x, os'⟩ := r
  cases x with
  | ok u => exact Nat.le_refl _
  | error err => exact Nat.le_refl _

theorem onWrte_cost (h : onWrte env v i os st payload = .ok e) :
    e.cost ≤ st.wrteDemand env os payload := by
  unfold onWrte at h
  unfold Stream.wrteDemand
  cases hs : st.service with
  | reboot =>
    rw [hs] at h
    cases h
  | sync svc =>
    rw [hs] at h
    exact onSync_cost h
  | shell sh =>
    rw [hs] at h
    cases h
    exact written_cost _
  | forward fwd =>
    rw [hs] at h
    cases h
    exact written_cost _

theorem onClse_cost {r : UInt32} (h : onClse env i os st r = .ok e) : e.cost ≤ st.clseDemand r := by
  unfold onClse at h
  unfold Stream.clseDemand
  split at h
  · cases h
  · rename_i hr
    rw [if_neg hr]
    cases hs : st.service with
    | forward fwd =>
      rw [hs] at h
      cases h
      exact Nat.le_refl _
    | sync svc =>
      rw [hs] at h
      cases h
      exact Nat.le_refl _
    | shell sh =>
      rw [hs] at h
      cases h
      exact Nat.le_refl _
    | reboot =>
      rw [hs] at h
      cases h
      exact Nat.le_refl _

theorem onRead_cost {op : UserDataOpType} {res : Int} (h : onRead v i os st op res = .ok e) :
    e.cost ≤ st.readDemand op res := by
  unfold onRead at h
  unfold Stream.readDemand
  split at h
  · rename_i hres
    cases h
    rw [if_pos hres]
    exact Nat.le_refl _
  · rename_i hres
    rw [if_neg hres]
    cases hd : Sys.readData op st.service res.toNat with
    | none =>
      rw [hd] at h
      cases h
      exact Nat.zero_le _
    | some data =>
      rw [hd] at h
      obtain ⟨o, ho, h1⟩ := bind_eq_ok.mp h
      cases h1
      have hr : st.service.reader = some op := by
        unfold Sys.readData at hd
        split at hd
        · rename_i hs
          rw [hs]
          rfl
        · rename_i hs
          rw [hs]
          rfl
        · cases hd
      rw [if_pos hr]
      exact cost_wrte ho

end

/-! ## Completions -/

def Dev.demand (env : Env) (d : Dev) (h : AdbHeader) (p : Option Bytes) : Nat :=
  match h.command, p with
  | .cnxn, some _ => 2
  | .open, some _ => 1
  | .wrte, some payload =>
    1 + ((d.streams.get h.arg1).map fun st => st.wrteDemand env d.os payload).getD 0
  | .okay, none => ((d.streams.get h.arg1).map Stream.okayDemand).getD 0
  | .clse, _ => ((d.streams.get h.arg1).map fun st => st.clseDemand h.arg0).getD 0
  | _, _ => 0

def Sys.demand (s : Sys) : Event → Nat
  | .handle env =>
    match s.ending with
    | some (op, i, res) => ((s.dev.streams.get i).map fun st => st.readDemand op res).getD 0
    | none =>
      match s.incoming with
      | some (h, p) => s.dev.demand env h p
      | none => 0
  | _ => 0

/-- The event finds the slots it needs beside those of the writes in flight. -/
def HasRoom (s : Sys) (e : Event) : Prop := s.writes.length + s.demand e ≤ maxBufferSlots

namespace Dev

/-- What the handler of a message may submit takes the slots it demands. -/
theorem costs_demand (env : Env) (d : Dev) (h : AdbHeader) (p : Option Bytes) :
    d.Costs Out.cost env h p (d.demand env h p) := by
  unfold Costs demand
  cases hc : h.command with
  | auth => cases p <;> trivial
  | stls => cases p <;> trivial
  | cnxn =>
    cases p with
    | none => trivial
    | some payload =>
      intro header data
      simp only [Out.cost]
      split <;> omega
  | «open» =>
    cases p with
    | none => trivial
    | some payload =>
      refine ⟨Nat.le_refl _, Nat.le_refl _, fun svc outs houts => ?_⟩
      rw [firstRead_cost houts]
      exact Nat.le_refl _
  | wrte =>
    cases p with
    | none => trivial
    | some payload =>
      refine ⟨Nat.le_add_right 1 _, fun st e hst he => Nat.add_le_add_left ?_ 1⟩
      rw [hst]
      exact onWrte_cost he
  | okay =>
    cases p with
    | some payload => trivial
    | none =>
      intro st e hst he
      rw [hst]
      exact onOkay_cost he
  | clse =>
    have hclse : ∀ st e, d.streams.get h.arg1 = some st → onClse env h.arg1 d.os st h.arg0 = .ok e →
        (e.outs.map Out.cost).sum ≤
          ((d.streams.get h.arg1).map fun st => st.clseDemand h.arg0).getD 0 := by
      intro st e hst he
      rw [hst]
      exact onClse_cost he
    cases p <;> exact hclse

theorem handleCommand_raises {env : Env} {d : Dev} {h : AdbHeader} {p : Option Bytes}
    (hr : d.buffers.used + d.demand env h p ≤ maxBufferSlots) :
    Raises (d.handleCommand env h p) Panic.NotSlots := by
  refine (slotBudget.handleCommand (m := 0) hr (costs_demand env d h p) fun q hq e => ?_).1
  rw [e] at hq
  exact hq

end Dev

theorem Sys.step_finds {s : Sys} (e : Event)
    (h : s.dev.buffers.used + s.demand e ≤ maxBufferSlots) :
    Raises (s.step e) (Halt.Of Panic.NotSlots) := by
  refine Sys.step_raises ?_
  rintro env rfl
  have hpush : ∀ (d : Dev) (u : UserData), Raises (d.submitOp u) Panic.NotSlots :=
    fun d u => Dev.push_raises _ _
  refine Sys.handle_raises (fun p hp => hp.slots) ?_ (fun _ _ _ _ _ => hpush _ _)
    (fun _ _ _ _ _ => hpush _ _) ?_
  · intro op i res he
    simp only [Sys.demand, he] at h
    rw [Dev.readDone_eq]
    refine (Dev.slotBudget.effect (m := 0) h (fun st _ => (onRead_raises ..).mono fun _ hq => hq.slots)
      fun st e hst he => ?_).1
    rw [hst]
    exact onRead_cost he
  · intro t hd p hin
    have hend : s.ending = none := Sys.ending_of_incoming hin
    simp only [Sys.demand, hend, hin] at h
    have hroom : (s.dev.log t).buffers.used + (s.dev.log t).demand env hd p ≤ maxBufferSlots := h
    exact (Dev.handleCommand_raises hroom).bind fun _ _ => hpush _ _

instance (s : Sys) (e : Event) : Decidable (HasRoom s e) := inferInstanceAs (Decidable (_ ≤ _))

end Adibi
