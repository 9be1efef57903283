import Adibi.Limit
import Adibi.Reads

/-!
# Flow control

A stream has at most one WRTE of the device unanswered. Shell and forward
streams keep to it by their alternation (`Reads`). A sync stream does as long
as the host asks for nothing before it has answered: the replies STAT, FAIL and
OKAY go out whether or not `waiting_for_okay` is set, and do not set it.
-/

namespace Adibi

open Lib

/-- On a sync stream with an unanswered WRTE the host sends nothing that is answered at
once. -/
def AsksInTurn (s : Sys) (e : Event) : Prop :=
  ∀ i st svc payload, s.act e i = .wrte payload → s.dev.streams.get i = some st →
    st.service = .sync svc → (s.view i).okays < (s.view i).wrtes.length →
    svc.replies e.env s.dev.os.fs st.waitingForOkay payload = false

/-! ## The WRTEs of an effect -/

section

variable {w w' : View} {env : Env} {v : ProtocolVersion} {i : UInt32} {os : Os} {st : Stream}
  {e : Effect} {svc : SyncService} {payload : Bytes}

theorem continueSync_wrtes (h : continueSync env v i os st = .ok e) :
    (w.plus i e.outs).wrtes = w.wrtes ∨
      ((∃ sender, st.service = .sync ⟨.sending sender⟩) ∧ st.waitingForOkay = false ∧
        (w.plus i e.outs).wrtes.length = w.wrtes.length + 1) := by
  rcases continueSync_cases h with ⟨rfl, -⟩ | ⟨hw, sender, _, _, _, o, hs, -, ho, rfl⟩ |
    ⟨-, _, _, -, -, rfl⟩
  · exact .inl (by rw [View.plus_nil])
  · refine .inr ⟨⟨sender, hs⟩, hw, ?_⟩
    rw [View.plus_wrteOut ho, List.length_append, List.length_singleton]
  · exact .inl (by rw [View.plus_nil])

/-- A sync payload costs a WRTE only if it is of the kind that is answered. -/
theorem onSync_wrtes (hwf : ∀ r, svc.receiver = some r → r.state.Wf)
    (h : onSync env v i os st svc payload = .ok e) :
    (w.plus i e.outs).wrtes.length ≤
      w.wrtes.length + (svc.replies env os.fs st.waitingForOkay payload).toNat := by
  obtain ⟨⟨result, svc', fs⟩, hh, h1⟩ := bind_eq_ok.mp h
  have hreplies : svc'.Spoken st.waitingForOkay result → _ := SyncService.handle_replies hwf hh
  cases result with
  | stat stat =>
    obtain ⟨o, ho, h2⟩ := bind_eq_ok.mp h1
    cases h2
    rw [View.plus_wrteOut ho, List.length_append, List.length_singleton, hreplies trivial]
    exact Nat.le_refl _
  | data hdr data =>
    obtain ⟨o, ho, h2⟩ := bind_eq_ok.mp h1
    cases h2
    rw [View.plus_wrteOut ho, List.length_append, List.length_singleton, hreplies trivial]
    exact Nat.le_refl _
  | «continue» =>
    rcases continueSync_wrtes (w := w) h1 with hw | ⟨⟨sender, hs⟩, hwait, hw⟩
    · rw [hw]
      exact Nat.le_add_right _ _
    · cases hs
      have hwait' : st.waitingForOkay = false := hwait
      rw [hw, hreplies ⟨hwait', sender, rfl⟩]
      exact Nat.le_refl _
  | quit =>
    cases h1
    rw [closing, View.plus_clseOut]
    exact Nat.le_add_right _ _

theorem onOkay_wrtes (hr : st.service.reader = none) (h : onOkay env v i os st = .ok e) :
    (w.plus i e.outs).wrtes.length ≤ w.wrtes.length + 1 := by
  unfold onOkay at h
  cases hs : st.service with
  | shell sh =>
    rw [hs] at hr
    cases hr
  | forward fwd =>
    rw [hs] at hr
    cases hr
  | reboot =>
    simp only [hs] at h
    cases h
  | sync svc =>
    simp only [hs] at h
    rcases continueSync_wrtes (w := w) h with hw | ⟨-, -, hw⟩
    · rw [hw]
      exact Nat.le_succ _
    · exact Nat.le_of_eq hw

end

/-! ## At most one -/

/-- At most one WRTE of the stream is unanswered. -/
def View.Answered (w : View) : Prop := w.wrtes.length ≤ w.okays + 1

namespace View

variable {w w' : View} {env : Env} {v : ProtocolVersion} {os : Os} {i : UInt32} {a : Act} {st : Stream}

theorem Answered.rests (h : w.Answered) (ha : ∀ r svc, a ≠ .opened r svc) (hp : w.Paced st)
    (hprop : w.Proper) (hst : w.stream = some st) (hr : st.service.reader = none)
    (hread : ∀ op res, a = .read op res → 0 < w.reads op)
    (hask : ∀ svc payload, a = .wrte payload → st.service = .sync svc →
      w.okays < w.wrtes.length → svc.replies env os.fs st.waitingForOkay payload = false)
    (hs : w.step env v os i a = .ok w') : w'.Answered := by
  unfold Answered at h ⊢
  cases a with
  | opened r svc => exact absurd rfl (ha r svc)
  | none =>
    cases hs
    exact h
  | fill op bytes =>
    cases hs
    exact h
  | okay =>
    obtain ⟨e, he, rfl⟩ := through_some hs hst
    have := onOkay_wrtes (w := { w with okays := w.okays + 1, stream := e.stream }) hr he
    exact Nat.le_trans this (Nat.succ_le_succ h)
  | wrte payload =>
    obtain ⟨e, he, rfl⟩ := through_some hs hst
    cases hsv : st.service with
    | reboot =>
      simp only [onWrte, hsv] at he
      cases he
    | shell sh =>
      rw [hsv] at hr
      cases hr
    | forward fwd =>
      rw [hsv] at hr
      cases hr
    | sync svc =>
      simp only [onWrte, hsv] at he
      have hwf : ∀ r, svc.receiver = some r → r.state.Wf := by
        intro r hrec
        refine hprop r ?_
        rw [hst]
        show st.service.receiver = some r
        rw [hsv]
        exact hrec
      have hle := onSync_wrtes (w := { w with stream := e.stream }) hwf he
      refine Nat.le_trans hle ?_
      show w.wrtes.length + _ ≤ w.okays + 1
      by_cases hlt : w.okays < w.wrtes.length
      · rw [hask svc payload rfl hsv hlt]
        exact h
      · have := (svc.replies env os.fs st.waitingForOkay payload).toNat_le
        omega
  | clse r =>
    obtain ⟨e, he, rfl⟩ := through_some hs hst
    rcases onClse_cases he with ⟨-, -, h2⟩ | ⟨-, -, h2⟩
    · rw [h2, plus_nil]
      exact h
    · rw [h2, plus_clseOut]
      exact h
  | read op res =>
    have hpos := hread op res rfl
    rw [hp.no_reads hr op] at hpos
    exact absurd hpos (Nat.lt_irrefl 0)

theorem Answered.relays {op : UserDataOpType} (h : w.Answered) (hp : w.Paced st)
    (hr : st.service.reader = some op) (hread : ∀ op res, a = .read op res → 0 < w.reads op)
    (hrel : Relays env w st op a w') : w'.Answered := by
  unfold Answered at h ⊢
  cases hrel with
  | none => exact h
  | fill op' bytes => exact h
  | okay => exact Nat.le_succ_of_le h
  | wrte payload => exact h
  | failed _ => exact h
  | half r _ => exact h
  | closed r _ => exact h
  | ended op' _ => exact h
  | stray _ _ => exact h
  | @relayed res data _ _ =>
    -- the read was in flight, so the stream did not wait: all its WRTEs are answered
    have hone := hp.one op hr
    have hack := hp.acked (by rw [hr]; rfl)
    have hpos := hread op res rfl
    show (w.wrtes ++ [data]).length ≤ w.okays + 1
    rw [List.length_append, List.length_singleton]
    omega

/-- **Every act keeps it**, with a host that answers only what it was sent and
asks in turn. -/
theorem Answered.step (h : w.Answered) (hp : ∀ st, w.stream = some st → w.Paced st)
    (hprop : w.Proper) (hread : ∀ op res, a = .read op res → 0 < w.reads op)
    (hask : ∀ st svc payload, a = .wrte payload → w.stream = some st → st.service = .sync svc →
      w.okays < w.wrtes.length → svc.replies env os.fs st.waitingForOkay payload = false)
    (hs : w.step env v os i a = .ok w') : w'.Answered := by
  cases moves_of_step hs with
  | opened r svc =>
    unfold Answered
    rw [begun_wrtes, begun_okays]
    exact h
  | absent _ _ =>
    unfold Answered
    rw [noted_wrtes]
    exact Nat.le_trans h (Nat.succ_le_succ (w.noted_okays a))
  | rests ha hst hr _ =>
    exact h.rests ha (hp _ hst) hprop hst hr hread
      (fun svc payload he => hask _ svc payload he hst) hs
  | relays hst hr hrel => exact h.relays (hp _ hst) hr hread hrel

end View

/-- **At most one WRTE of a stream is unanswered** in every run of a host that
asks in turn. -/
theorem one_unanswered_wrte {info : DeviceInfo} {os : Os} {s : Sys}
    (h : Reach Sys.step (fun s e => HostOk s e ∧ AsksInTurn s e) (Sys.start info os) s)
    (i : UInt32) : (s.view i).wrtes.length ≤ (s.view i).okays + 1 := by
  have hinv : s.Sound ∧ (∀ i, (s.view i).Proper) ∧ ∀ i, (s.view i).Answered :=
    h.invariant (I := fun s => s.Sound ∧ (∀ i, (s.view i).Proper) ∧ ∀ i, (s.view i).Answered)
      ⟨Sys.Sound.start info os, fun _ _ hr => (nomatch hr), fun i => Nat.zero_le _⟩
      fun t e u hi hok hs => ⟨hi.1.step hok.1 hs, fun i => Sys.proper_step hi.2.1 hs i,
        fun i => (hi.2.2 i).step (hi.1.paced i) (hi.2.1 i) (fun op res ha => Sys.act_reads ha)
          (fun st svc payload => hok.2 i st svc payload) (Sys.step_view hs i)⟩
  exact hinv.2.2 i

def asksInTurn (s : Sys) (e : Event) : Bool :=
  match s.incoming with
  | some (h, some payload) =>
    match s.dev.streams.get h.arg1 with
    | some ⟨_, .sync svc, waiting, _⟩ =>
      decide ((s.view h.arg1).wrtes.length ≤ (s.view h.arg1).okays) ||
        !svc.replies e.env s.dev.os.fs waiting payload
    | _ => true
  | _ => true

theorem AsksInTurn.of_asksInTurn {s : Sys} {e : Event} (h : asksInTurn s e = true) :
    AsksInTurn s e := by
  intro i st svc payload ha hst hsv hlt
  obtain ⟨env, hd, p, rfl, hi, hact⟩ := Sys.act_fromHost (by rw [ha]; rfl)
  obtain ⟨-, rfl, rfl⟩ := Dev.actOf_wrte (hact.symm.trans ha)
  obtain ⟨r, service, waiting, closed⟩ := st
  cases hsv
  have hle : ¬ (s.view hd.arg1).wrtes.length ≤ (s.view hd.arg1).okays := by omega
  simpa [asksInTurn, hi, hst, hle] using h

def Sys.askStat : List Sys.Turn :=
  Sys.Turn.message .wrte 7 1 (ascii "STAT" ++ le32 2 ++ ascii "/f")

/-- Two requests, the first answered in between. -/
theorem one_unanswered_wrte_stats : ∃ s,
    Reach Sys.step (fun s e => HostOk s e ∧ AsksInTurn s e) Sys.fresh s ∧
      (s.view 1).wrtes.length = 2 ∧ (s.view 1).wrtes.length ≤ (s.view 1).okays + 1 := by
  have hplay : (Sys.fresh.play (fun s e => hostOk s e && asksInTurn s e) (Sys.openSync ++
      Sys.askStat ++ Sys.Turn.message .okay 7 1 [] ++ Sys.askStat)).map
        (fun s => (s.view 1).wrtes.length) = some 2 := by
    decide +kernel
  obtain ⟨s, hs, hlen⟩ := Option.map_eq_some_iff.mp hplay
  have hreach : Reach Sys.step (fun s e => HostOk s e ∧ AsksInTurn s e) Sys.fresh s :=
    Sys.reach_of_play (fun _ _ h => by
      rw [Bool.and_eq_true] at h
      exact ⟨.of_hostOk h.1, .of_asksInTurn h.2⟩) hs
  exact ⟨s, hreach, hlen, one_unanswered_wrte hreach 1⟩

/-- Two requests in a row: two replies, none answered. -/
theorem stats_unanswered : ∃ s,
    Sys.fresh.play hostOk (Sys.openSync ++ Sys.askStat ++ Sys.askStat) = some s ∧
      Reach Sys.step HostOk Sys.fresh s ∧ (s.view 1).wrtes.length = 2 ∧ (s.view 1).okays = 0 := by
  have hplay : (Sys.fresh.play hostOk (Sys.openSync ++ Sys.askStat ++ Sys.askStat)).map (fun s =>
      decide ((s.view 1).wrtes.length = 2 ∧ (s.view 1).okays = 0)) = some true := by
    decide +kernel
  obtain ⟨s, hs, hin⟩ := Option.map_eq_some_iff.mp hplay
  exact ⟨s, hs, Sys.reach_of_play (fun _ _ => HostOk.of_hostOk) hs, of_decide_eq_true hin⟩

end Adibi
