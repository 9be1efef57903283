import Adibi.OwnReads

/-!
# Late reads

Dropping a stream frees its read buffer, whether or not the kernel still has a read
of the stream; that read may then complete into memory that is a buffer of something
else by now. `KeepsReads` asks of an event that it drops no stream under a read. Where
all events do, the stream of a read the kernel has is open (`kept_of_reach`), and a
read completes into its own buffer.
-/

namespace Adibi

open Lib

namespace Sys

variable {s s' : Sys} {e : Event} {i : UInt32}

/-- The tags of the operations submitted and not completed. -/
def submitted (s : Sys) : List UInt64 := s.dev.tags ++ s.inflight.map Sqe.userData

/-- A read of stream `i` is submitted and not completed. -/
def Reading (s : Sys) (i : UInt32) : Prop :=
  ∃ op, (op = .ptyRead ∨ op = .socketRead) ∧ readTag op i ∈ s.submitted

end Sys

/-- The event drops no stream that has a read submitted and not completed: it brings
no CLSE for a shell, no WRTE whose write to the PTY or socket fails, and it is not the
end of another read that brought nothing or failed. -/
def KeepsReads (s : Sys) (e : Event) : Prop :=
  ∀ i st, s.dev.streams.get i = some st → s.Reading i →
    (∀ r sh, s.act e i = .clse r → st.service ≠ .shell sh) ∧
      (∀ p, s.act e i = .wrte p → ¬ inputFails e.env st.service p) ∧
      ∀ op res, s.act e i = .read op res → 0 < res

/-- An act that drops no stream with this service. -/
def Act.spares (env : Env) (svc : Service) : Act → Bool
  | .clse _ => match svc with
    | .shell _ => false
    | _ => true
  | .wrte payload => !decide (inputFails env svc payload)
  | .read _ res => decide (0 < res)
  | _ => true

def keepsReads (s : Sys) (e : Event) : Bool :=
  ((s.ending.map (·.2.1)).toList ++ (s.incoming.map (·.1.arg1)).toList).all fun i =>
    ((s.dev.streams.get i).map fun st => (s.act e i).spares e.env st.service).getD true

theorem KeepsReads.of_keepsReads {s : Sys} {e : Event} (h : keepsReads s e = true) :
    KeepsReads s e := by
  intro i st hst _
  have hspares : i ∈ (s.ending.map (·.2.1)).toList ++ (s.incoming.map (·.1.arg1)).toList →
      (s.act e i).spares e.env st.service = true := by
    intro hi
    have := List.all_eq_true.mp h i hi
    rwa [hst, Option.map_some, Option.getD_some] at this
  have hhost : ∀ {hd : AdbHeader} {p : Option Bytes}, s.incoming = some (hd, p) → hd.arg1 = i →
      (s.act e i).spares e.env st.service = true := by
    rintro hd p hin rfl
    exact hspares (List.mem_append_right _ (by rw [hin]; exact List.mem_singleton_self _))
  refine ⟨fun r sh ha hsv => ?_, fun p ha => ?_, fun op res ha => ?_⟩
  · obtain ⟨env, hd, p, rfl, hin, hact⟩ := Sys.act_fromHost (by rw [ha]; rfl)
    obtain ⟨-, harg, -⟩ := Dev.actOf_clse (hact.symm.trans ha)
    have := hhost hin harg
    rw [ha, hsv] at this
    cases this
  · obtain ⟨env, hd, q, rfl, hin, hact⟩ := Sys.act_fromHost (by rw [ha]; rfl)
    obtain ⟨-, harg, -⟩ := Dev.actOf_wrte (hact.symm.trans ha)
    have := hhost hin harg
    rw [ha] at this
    simpa [Act.spares] using this
  · obtain ⟨env, rfl, hend⟩ := Sys.act_ending ha
    have := hspares (List.mem_append_left _ (by rw [hend]; exact List.mem_singleton_self _))
    rw [ha] at this
    exact of_decide_eq_true this

/-! ## Reads the kernel has -/

namespace View

variable {w w' : View} {env : Env} {v : ProtocolVersion} {os : Os} {i : UInt32} {a : Act} {st : Stream}

theorem step_started {op : UserDataOpType} (hs : w.step env v os i a = .ok w')
    (h : (∃ r svc, a = .opened r svc) ∨ a = .okay ∧ w.reader = some op) : w'.stream.isSome := by
  cases moves_of_step hs with
  | opened r svc =>
    rw [begun_stream]
    rfl
  | absent ha hst =>
    rcases h with ⟨r, svc, he⟩ | ⟨-, hr⟩
    · exact absurd he (ha r svc)
    · rw [reader, hst] at hr
      cases hr
  | rests ha hst hr' _ =>
    rcases h with ⟨r, svc, he⟩ | ⟨-, hr⟩
    · exact absurd he (ha r svc)
    · rw [reader, hst, Option.bind_some, hr'] at hr
      cases hr
  | relays hst hr' hrel =>
    cases hrel with
    | okay =>
      rw [began_stream]
      rfl
    | none => exact Option.isSome_iff_exists.mpr ⟨_, hst⟩
    | wrte payload => exact Option.isSome_iff_exists.mpr ⟨_, hst⟩
    | stray _ _ => exact Option.isSome_iff_exists.mpr ⟨_, hst⟩
    | fill op' bytes => rfl
    | half r _ => rfl
    | relayed _ _ => rfl
    | failed _ => rcases h with ⟨_, _, he⟩ | ⟨he, -⟩ <;> cases he
    | closed r _ => rcases h with ⟨_, _, he⟩ | ⟨he, -⟩ <;> cases he
    | ended op' _ => rcases h with ⟨_, _, he⟩ | ⟨he, -⟩ <;> cases he

/-- **What drops a stream that is read.** -/
theorem step_dropped (hs : w.step env v os i a = .ok w') (hst : w.stream = some st)
    (hr : st.service.reader.isSome) (hgone : w'.stream = none) :
    (∃ r sh, a = .clse r ∧ st.service = .shell sh) ∨
      (∃ p, a = .wrte p ∧ inputFails env st.service p) ∨ ∃ op res, a = .read op res ∧ res ≤ 0 := by
  cases moves_of_step hs with
  | opened r svc =>
    rw [begun_stream] at hgone
    cases hgone
  | absent _ hst' => cases hst'.symm.trans hst
  | rests _ hst' hr' _ =>
    cases hst'.symm.trans hst
    rw [hr'] at hr
    cases hr
  | relays hst' hr' hrel =>
    cases hst'.symm.trans hst
    cases hrel with
    | none => cases hst.symm.trans hgone
    | wrte payload => cases hst.symm.trans hgone
    | stray _ _ => cases hst.symm.trans hgone
    | fill op' bytes => cases hgone
    | half r _ => cases hgone
    | relayed _ _ => cases hgone
    | okay =>
      rw [began_stream] at hgone
      cases hgone
    | failed h => exact .inr (.inl ⟨_, rfl, h⟩)
    | ended op' h => exact .inr (.inr ⟨_, _, rfl, h⟩)
    | closed r h =>
      refine .inl ⟨r, ?_⟩
      cases hsv : st.service with
      | shell sh => exact ⟨sh, rfl, rfl⟩
      | forward fwd => exact absurd hsv (h fwd)
      | sync svc =>
        rw [hsv] at hr'
        cases hr'
      | reboot =>
        rw [hsv] at hr'
        cases hr'

end View

namespace Sys

variable {s s' : Sys} {e : Event} {i : UInt32} {op : UserDataOpType}

theorem count_outstanding (s : Sys) (t : UInt64) : s.outstanding.count t =
    s.submitted.count t + (s.cq.map Cqe.userData).count t + (s.batch.map Cqe.userData).count t := by
  simp only [outstanding, submitted, rest, List.count_append]
  omega

theorem view_reads (s : Sys) (i : UInt32) (hop : op = .ptyRead ∨ op = .socketRead) :
    (s.view i).reads op = s.outstanding.count (readTag op i) := by
  rcases hop with rfl | rfl <;> rfl

theorem Reading.pos (h : s.Reading i) : ∃ op, (op = .ptyRead ∨ op = .socketRead) ∧
    0 < (s.view i).reads op := by
  obtain ⟨op, hop, hmem⟩ := h
  have hcount := s.count_outstanding (readTag op i)
  have hpos := List.count_pos_iff.mpr hmem
  refine ⟨op, hop, ?_⟩
  rw [s.view_reads i hop]
  omega

theorem Reading.reader (h : s.Reading i) (hown : s.OwnReads) {st : Stream}
    (hst : s.dev.streams.get i = some st) : st.service.reader.isSome := by
  obtain ⟨op, -, hpos⟩ := h.pos
  by_contra hne
  rw [hown.own i st hst op fun hr => hne (by rw [hr]; rfl)] at hpos
  exact absurd hpos (Nat.lt_irrefl 0)

/-- A read the kernel gets is of a stream that is open then. -/
theorem reading_handle {env : Env} (hown : s.OwnReads) (hs : s.step (.handle env) = .ok s')
    (h : s'.Reading i) : s.Reading i ∨ (s'.dev.streams.get i).isSome := by
  obtain ⟨op, hop, hmem⟩ := h
  have hview := step_view hs i
  by_cases hstart : (∃ r svc, s.act (.handle env) i = .opened r svc) ∨
      s.act (.handle env) i = .okay ∧ (s.view i).reader = some op
  · exact .inr (View.step_started hview hstart)
  refine .inl ⟨op, hop, ?_⟩
  have hreads := View.step_reads hview op
  have hi : i ≠ 0 := by
    rintro rfl
    have hz := (hown.step hs).zero.2 op
    have hcount := s'.count_outstanding (readTag op 0)
    have hpos := List.count_pos_iff.mpr hmem
    have hout := s'.view_reads 0 hop
    omega
  have hn : NonZeroU32.new i = some ⟨i, hi⟩ := dif_pos hi
  obtain ⟨c, hb, hcq, -⟩ := handle_queues hs
  have hbefore := s.count_outstanding (readTag op i)
  have hafter := s'.count_outstanding (readTag op i)
  rw [hb, List.map_cons, List.count_cons] at hbefore
  rw [hcq] at hafter
  have h1 := s.view_reads i hop
  have h2 := s'.view_reads i hop
  have hpos := List.count_pos_iff.mpr hmem
  refine List.count_pos_iff.mp ?_
  by_cases hc : c.userData = readTag op i
  · have hact : s.act (.handle env) i = .read op c.res := by
      have hu : UserData.tryFrom c.userData = some ⟨op, some ⟨i, hi⟩⟩ := by
        rw [hc, readTag, hn, UserData.tryFrom_toU64]
      simp only [act, ending_eq hb hop hu, if_true]
    rw [hact] at hreads
    simp only [View.readsAfter, if_true] at hreads
    simp only [hc, beq_self_eq_true, if_true] at hbefore
    omega
  · have hkept : (s'.view i).reads op ≤ (s.view i).reads op := by
      rw [hreads]
      cases ha : s.act (.handle env) i with
      | opened r svc => exact absurd (.inl ⟨r, svc, ha⟩) hstart
      | okay =>
        show _ + (if (s.view i).reader = some op then 1 else 0) ≤ _
        rw [if_neg fun hr => hstart (.inr ⟨ha, hr⟩)]
        exact Nat.le_refl _
      | read op' res =>
        show (if op = op' then (s.view i).reads op - 1 else (s.view i).reads op) ≤ _
        split
        · exact Nat.sub_le ..
        · exact Nat.le_refl _
      | none => exact Nat.le_refl _
      | fill op' bytes => exact Nat.le_refl _
      | wrte payload => exact Nat.le_refl _
      | clse r => exact Nat.le_refl _
    have hne : (c.userData == readTag op i) = false := beq_false_of_ne hc
    simp only [hne] at hbefore
    simp only [Bool.false_eq_true, if_false] at hbefore
    omega

theorem reading_step (hown : s.OwnReads) (hs : s.step e = .ok s') (h : s'.Reading i) :
    s.Reading i ∨ (s'.dev.streams.get i).isSome := by
  cases e with
  | handle env => exact reading_handle hown hs h
  | submit =>
    obtain ⟨op, hop, hmem⟩ := h
    obtain ⟨-, rfl⟩ := submit_ok hs
    refine .inl ⟨op, hop, ?_⟩
    simp only [submitted, Dev.tags, List.map_nil, List.nil_append, List.map_append,
      List.mem_append] at hmem ⊢
    exact hmem.symm
  | reap =>
    obtain ⟨-, -, -, rfl⟩ := reap_ok hs
    exact .inl h
  | complete k outcome =>
    obtain ⟨op, hop, hmem⟩ := h
    obtain ⟨sqe, u, hk, -, -, rfl⟩ := complete_ok hs
    refine .inl ⟨op, hop, ?_⟩
    simp only [submitted, Dev.tags, (s.fill_pool u outcome).1, List.mem_append] at hmem ⊢
    refine hmem.imp_right fun h => ?_
    obtain ⟨x, hx, htag⟩ := List.mem_map.mp h
    exact List.mem_map.mpr ⟨x, List.mem_of_mem_eraseIdx hx, htag⟩

/-! ## No read outlives its stream -/

/-- The streams of the reads the kernel has are open. -/
def Kept (s : Sys) : Prop := ∀ i, s.Reading i → (s.dev.streams.get i).isSome

theorem Kept.start (info : DeviceInfo) (os : Os) : (Sys.start info os).Kept := by
  intro i h
  obtain ⟨op, -, hpos⟩ := h.pos
  rw [(start_unborn info os i).2 op] at hpos
  exact absurd hpos (Nat.lt_irrefl 0)

theorem Kept.step (h : s.Kept) (hown : s.OwnReads) (hok : KeepsReads s e) (hs : s.step e = .ok s') :
    s'.Kept := by
  intro i hr
  rcases reading_step hown hs hr with hbefore | hopen
  swap
  · exact hopen
  by_contra hgone
  obtain ⟨st, hst⟩ := Option.isSome_iff_exists.mp (h i hbefore)
  obtain ⟨hclse, hwrte, hread⟩ := hok i st hst hbefore
  have hnone : (s'.view i).stream = none := Option.not_isSome_iff_eq_none.mp hgone
  rcases View.step_dropped (step_view hs i) hst (hbefore.reader hown hst) hnone with
    ⟨r, sh, ha, hsv⟩ | ⟨p, ha, hf⟩ | ⟨op, res, ha, hres⟩
  · exact hclse r sh ha hsv
  · exact hwrte p ha hf
  · have := hread op res ha
    omega

/-- **No read outlives its stream** in a run that drops no stream under a read. -/
theorem kept_of_reach {info : DeviceInfo} {os : Os} {Ok : Sys → Event → Prop}
    (h : Reach Sys.step Ok (Sys.start info os) s) (hok : ∀ s e, Ok s e → KeepsReads s e) : s.Kept := by
  have hinv : s.OwnReads ∧ s.Kept :=
    h.invariant (I := fun s => s.OwnReads ∧ s.Kept) ⟨.start info os, .start info os⟩
      fun t e u hi ht hs => ⟨hi.1.step hs, hi.2.step hi.1 (hok t e ht) hs⟩
  exact hinv.2

/-! ## Completing a read -/

/-- The read of stream `i` that an event completes, with what it brought. -/
def completes (s : Sys) (e : Event) (i : UInt32) : Option (UserDataOpType × Bytes) :=
  match e with
  | .complete k (.data bytes _) =>
    match (s.inflight[k]?).bind fun e => UserData.tryFrom e.userData with
    | some ⟨op, some j⟩ =>
      if (op = .ptyRead ∨ op = .socketRead) ∧ j.1 = i then some (op, bytes) else none
    | _ => none
  | _ => none

theorem readTag_of_tryFrom {t : UInt64} {j : NonZeroU32} (h : UserData.tryFrom t = some ⟨op, some j⟩) :
    t = readTag op j.1 := by
  rw [readTag, NonZeroU32.new_val, UserData.toU64_of_tryFrom h]

theorem Reading.of_inflight {k : Nat} {sqe : Sqe} {j : NonZeroU32}
    (hop : op = .ptyRead ∨ op = .socketRead) (hk : s.inflight[k]? = some sqe)
    (hu : UserData.tryFrom sqe.userData = some ⟨op, some j⟩) : s.Reading j.1 := by
  refine ⟨op, hop, List.mem_append_right _ ?_⟩
  rw [← readTag_of_tryFrom hu]
  exact List.mem_map_of_mem (List.mem_of_getElem? hk)

theorem completes_eq_some {bytes : Bytes} (h : s.completes e i = some (op, bytes)) :
    ∃ k sqe place j, e = .complete k (.data bytes place) ∧ s.inflight[k]? = some sqe ∧
      UserData.tryFrom sqe.userData = some ⟨op, some j⟩ ∧ j.1 = i ∧
      (op = .ptyRead ∨ op = .socketRead) := by
  unfold completes at h
  split at h
  · rename_i k bytes' place
    split at h
    · rename_i op' j hu
      split at h
      · rename_i hc
        cases h
        obtain ⟨sqe, hk, hu⟩ := Option.bind_eq_some_iff.mp hu
        exact ⟨k, sqe, place, j, rfl, hk, hu, hc.2, hc.1⟩
      · cases h
    · cases h
  · cases h

theorem act_fill {bytes : Bytes} (h : s.act e i = .fill op bytes) :
    ∃ k sqe op' j place, e = .complete k (.data bytes place) ∧ s.inflight[k]? = some sqe ∧
      UserData.tryFrom sqe.userData = some ⟨op', some j⟩ ∧ (op' = .ptyRead ∨ op' = .socketRead) ∧
      s.dev.filledBy op' j.1 place = some (op, i) := by
  cases e with
  | submit => cases h
  | reap => cases h
  | handle env =>
    unfold act at h
    cases he : s.ending with
    | some x =>
      obtain ⟨o, j, res⟩ := x
      simp only [he] at h
      split at h <;> cases h
    | none =>
      cases hi : s.incoming with
      | none =>
        simp only [he, hi] at h
        cases h
      | some x =>
        obtain ⟨hd, p⟩ := x
        simp only [he, hi, Dev.actOf] at h
        repeat' split at h
        all_goals cases h
  | complete k outcome =>
    cases outcome with
    | count n => cases h
    | error n => cases h
    | data b place =>
      unfold act at h
      simp only at h
      split at h
      · rename_i op' j hu
        obtain ⟨sqe, hk, hu⟩ := Option.bind_eq_some_iff.mp hu
        split at h
        · rename_i hop
          unfold Dev.fillAct at h
          split at h
          · rename_i op2 i2 hf
            split at h
            · rename_i hi
              cases h
              exact ⟨k, sqe, op', j, place, rfl, hk, hu, hop, hi ▸ hf⟩
            · cases h
          · cases h
        · cases h
      · cases h

/-- **A read fills the buffer of its stream**, and nothing else does. -/
theorem Kept.act_fill_iff (h : s.Kept) {bytes : Bytes} :
    s.act e i = .fill op bytes ↔ s.completes e i = some (op, bytes) := by
  have hopen : ∀ {k : Nat} {sqe : Sqe} {op : UserDataOpType} {j : NonZeroU32} {place : Option Place},
      s.inflight[k]? = some sqe → UserData.tryFrom sqe.userData = some ⟨op, some j⟩ →
      op = .ptyRead ∨ op = .socketRead → s.dev.filledBy op j.1 place = some (op, j.1) := by
    intro k sqe op j place hk hu hop
    have hr : s.Reading j.1 := .of_inflight hop hk hu
    obtain ⟨st, hst⟩ := Option.isSome_iff_exists.mp (h j.1 hr)
    exact filledBy_open hst
  constructor
  · intro ha
    obtain ⟨k, sqe, op', j, place, rfl, hk, hu, hop, hf⟩ := act_fill ha
    cases (hopen hk hu hop).symm.trans hf
    simp only [completes, hk, Option.bind_some, hu, hop, true_and, if_true]
  · intro hc
    obtain ⟨k, sqe, place, j, rfl, hk, hu, rfl, hop⟩ := completes_eq_some hc
    rw [act_filling hk hu hop, Dev.fillAct, hopen hk hu hop]
    exact if_pos rfl

end Sys

end Adibi
