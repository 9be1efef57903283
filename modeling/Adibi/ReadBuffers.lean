import Adibi.LateReads

/-!
# Read buffers

A PTY or socket read fills the read buffer of its stream when it completes, and
the buffer is read when the completion is handled. As long as an OKAY comes only
while the stream waits for one, at most one read of a stream is in flight
(`Sys.OneRead`), so the buffer still holds what the completed read brought
(`Sys.Buffered`).
-/

namespace Adibi

open Lib

/-- An OKAY for a shell or forward stream finds it waiting for one. -/
def OkaysAwaited (s : Sys) (e : Event) : Prop :=
  ∀ i st, s.dev.streams.get i = some st → st.service.reader.isSome → s.act e i = .okay →
    st.waitingForOkay = true

/-! ## One read -/

namespace View

variable {w w' : View} {env : Env} {v : ProtocolVersion} {os : Os} {i : UInt32} {st st' : Stream}

/-- Reads of both kinds. -/
def allReads (w : View) : Nat := w.ptyReads + w.socketReads

/-- Whether a stream that is read waits for an OKAY. -/
def awaits (w : View) : Bool :=
  match w.stream with
  | some st => st.service.reader.isSome && st.waitingForOkay
  | none => false

/-- At most one read, and none while an OKAY is due. -/
def Solo (w : View) : Prop := w.allReads + w.awaits.toNat ≤ 1

theorem allReads_eq (w : View) : w.allReads = w.reads .ptyRead + w.reads .socketRead := rfl

/-- An OKAY is due after an act that completes no read only if it was before, and
did not come. -/
theorem step_awaits {a : Act} (hs : w.step env v os i a = .ok w')
    (hread : ∀ op res, a ≠ .read op res) (haw : w'.awaits = true) :
    w.awaits = true ∧ a ≠ .okay ∧ ∀ r svc, a ≠ .opened r svc := by
  unfold awaits at haw ⊢
  cases moves_of_step hs with
  | opened r svc =>
    simp only [begun_stream, Bool.and_false] at haw
    cases haw
  | absent _ hst =>
    simp only [noted_stream, hst] at haw
    cases haw
  | rests _ hst hr hq =>
    split at haw
    · rename_i st' hst'
      rw [hq.reader st' hst'] at haw
      cases haw
    · cases haw
  | relays hst hr hrel =>
    rw [hst]
    cases hrel with
    | none =>
      rw [hst] at haw
      exact ⟨haw, Act.noConfusion, fun _ _ => Act.noConfusion⟩
    | fill op' bytes =>
      simp only [Service.reader_filled] at haw
      exact ⟨haw, Act.noConfusion, fun _ _ => Act.noConfusion⟩
    | okay =>
      simp only [began_stream, Bool.and_false] at haw
      cases haw
    | wrte payload =>
      rw [hst] at haw
      exact ⟨haw, Act.noConfusion, fun _ _ => Act.noConfusion⟩
    | failed _ => cases haw
    | half r _ => exact ⟨haw, Act.noConfusion, fun _ _ => Act.noConfusion⟩
    | closed r _ => cases haw
    | ended op' _ => exact absurd rfl (hread op' _)
    | stray _ _ => exact absurd rfl (hread _ _)
    | relayed _ _ => exact absurd rfl (hread _ _)

theorem step_awaits_le {a : Act} (hs : w.step env v os i a = .ok w')
    (hread : ∀ op res, a ≠ .read op res) : w'.awaits.toNat ≤ w.awaits.toNat := by
  cases haw : w'.awaits with
  | false => exact Nat.zero_le _
  | true => rw [(step_awaits hs hread haw).1]

/-- **At most one read, whatever the act**, if an OKAY was due. -/
theorem Solo.step {a : Act} (h : w.Solo) (hopen : ∀ r svc, a = .opened r svc → w.Unborn)
    (hokay : a = .okay → w.reader.isSome → w.awaits = true)
    (hread : ∀ op res, a = .read op res → 0 < w.reads op) (hs : w.step env v os i a = .ok w') :
    w'.Solo := by
  have h1 := step_reads hs .ptyRead
  have h2 := step_reads hs .socketRead
  unfold Solo at h ⊢
  rw [allReads_eq] at h ⊢
  cases a with
  | opened r svc =>
    have hr1 := (hopen r svc rfl).2 .ptyRead
    have hr2 := (hopen r svc rfl).2 .socketRead
    have haw : w'.awaits = false := by
      rw [step_opened hs]
      simp only [awaits, begun_stream, Bool.and_false]
    have hkind : svc.reader ≠ some .ptyRead ∨ svc.reader ≠ some .socketRead := by
      by_cases hp : svc.reader = some .ptyRead
      · exact .inr (by rw [hp]; decide)
      · exact .inl hp
    rw [h1, h2, haw]
    simp only [readsAfter, hr1, hr2, Bool.toNat_false]
    rcases hkind with hk | hk
    · rw [if_neg hk]
      split <;> omega
    · rw [if_neg hk]
      split <;> omega
  | okay =>
    have haw : w'.awaits = false := by
      by_contra hne
      have := step_awaits hs (fun _ _ he => Act.noConfusion he) (by simpa using hne)
      exact this.2.1 rfl
    rw [h1, h2, haw]
    simp only [readsAfter, Bool.toNat_false]
    cases hr : w.reader with
    | none =>
      simp only [reduceCtorEq, if_false]
      omega
    | some op =>
      have hdue := hokay rfl (by rw [hr]; rfl)
      rw [hdue, Bool.toNat_true] at h
      by_cases hp : op = .ptyRead
      · rw [hp]
        simp only [Option.some.injEq, reduceCtorEq, if_true, if_false]
        omega
      · have hne : some op ≠ some UserDataOpType.ptyRead := fun he => hp (Option.some.inj he)
        rw [if_neg hne]
        split <;> omega
  | read op res =>
    have hpos := hread op res rfl
    have haw := w'.awaits.toNat_le
    rw [h1, h2]
    simp only [readsAfter]
    cases op with
    | ptyRead =>
      simp only [if_true, reduceCtorEq, if_false]
      omega
    | socketRead =>
      simp only [if_true, reduceCtorEq, if_false]
      omega
    | ep0Poll => exact absurd hpos (Nat.lt_irrefl 0)
    | bulkInWrite => exact absurd hpos (Nat.lt_irrefl 0)
    | bulkOutReadHeader => exact absurd hpos (Nat.lt_irrefl 0)
    | bulkOutReadPayload => exact absurd hpos (Nat.lt_irrefl 0)
  | none =>
    cases hs
    exact h
  | fill op bytes =>
    have haw := step_awaits_le hs fun _ _ => Act.noConfusion
    rw [h1, h2]
    simp only [readsAfter]
    omega
  | wrte payload =>
    have haw := step_awaits_le hs fun _ _ => Act.noConfusion
    rw [h1, h2]
    simp only [readsAfter]
    omega
  | clse r =>
    have haw := step_awaits_le hs fun _ _ => Act.noConfusion
    rw [h1, h2]
    simp only [readsAfter]
    omega

end View

namespace Sys

variable {s s' : Sys} {e : Event} {i : UInt32} {fills : List Bytes}

/-- At most one read of a stream is submitted and not yet handled. -/
def OneRead (s : Sys) : Prop := ∀ i, (s.view i).Solo

theorem OneRead.start (info : DeviceInfo) (os : Os) : (Sys.start info os).OneRead := by
  intro i
  have h := start_view info os i
  unfold View.Fresh at h
  rw [h]
  exact Nat.zero_le 1

theorem OneRead.step (h : s.OneRead) (hown : s.OwnReads) (hok : OkaysAwaited s e)
    (hs : s.step e = .ok s') : s'.OneRead := by
  intro i
  refine (h i).step (fun r svc ha => ?_) (fun ha hr => ?_) (fun op res ha => act_reads ha)
    (step_view hs i)
  · rw [act_opened ha]
    exact hown.unborn s.nextId (Nat.le_refl _)
  · unfold View.reader at hr
    cases hst : s.dev.streams.get i with
    | none =>
      rw [show (s.view i).stream = none from hst] at hr
      cases hr
    | some st =>
      have hst' : (s.view i).stream = some st := hst
      rw [hst'] at hr
      have hw := hok i st hst hr ha
      unfold View.awaits
      rw [hst']
      show (st.service.reader.isSome && st.waitingForOkay) = true
      rw [show st.service.reader.isSome = true from hr, hw]
      rfl

/-! ## What the buffer holds -/

/-- The chunk that a completing read of stream `i` brings. -/
def filling (i : UInt32) (s : Sys) (e : Event) : List Bytes :=
  match s.completes e i with
  | some (_, bytes) => if bytes = [] then [] else [bytes]
  | none => []

/-- Completions that are still to be handled. -/
def posted (s : Sys) : List Cqe := s.cq ++ s.batch

/-- The chunk of a read of stream `i` that has completed is in the stream's buffer
until it is handled. -/
def Buffered (i : UInt32) (s : Sys) (fills : List Bytes) : Prop :=
  ∀ st op c, s.dev.streams.get i = some st → st.service.reader = some op → c ∈ s.posted →
    c.userData = readTag op i → 0 < c.res →
    ∃ bytes, fills.getLast? = some bytes ∧ c.res = bytes.length ∧
      readData op st.service c.res.toNat = some bytes

theorem two_reads {k : Nat} {sqe : Sqe} {c : Cqe} {op op' : UserDataOpType}
    (hop : op = .ptyRead ∨ op = .socketRead) (hop' : op' = .ptyRead ∨ op' = .socketRead)
    (hk : s.inflight[k]? = some sqe) (hsqe : sqe.userData = readTag op' i) (hc : c ∈ s.posted)
    (htag : c.userData = readTag op i) : 2 ≤ (s.view i).allReads := by
  have hin : readTag op' i ∈ s.inflight.map Sqe.userData := by
    rw [← hsqe]
    exact List.mem_map_of_mem (List.mem_of_getElem? hk)
  have hpost : readTag op i ∈ s.posted.map Cqe.userData := by
    rw [← htag]
    exact List.mem_map_of_mem hc
  have hcount : ∀ o : UserDataOpType, s.outstanding.count (readTag o i) =
      s.dev.tags.count (readTag o i) + (s.inflight.map Sqe.userData).count (readTag o i) +
        (s.posted.map Cqe.userData).count (readTag o i) := by
    intro o
    simp only [outstanding, rest, posted, List.count_append, List.map_append]
    omega
  have h1 := List.count_pos_iff.mpr hin
  have h2 := List.count_pos_iff.mpr hpost
  have hp := hcount .ptyRead
  have hq := hcount .socketRead
  show 2 ≤ s.outstanding.count (readTag .ptyRead i) + s.outstanding.count (readTag .socketRead i)
  rcases hop with rfl | rfl <;> rcases hop' with rfl | rfl <;> omega

theorem readData_filled {svc : Service} {op : UserDataOpType} (h : svc.reader = some op)
    (bytes : Bytes) : readData op (svc.filled op bytes) bytes.length = some bytes := by
  cases svc with
  | shell sh =>
    cases h
    simp [Service.filled, readData, ShellService.readBufData, fillRead]
  | forward fwd =>
    cases h
    simp [Service.filled, readData, ForwardService.readBufData, fillRead]
  | sync svc => cases h
  | reboot => cases h

theorem completed_fills {k : Nat} {sqe : Sqe} {u : UserData} {outcome : Outcome} {op : UserDataOpType}
    (hk : s.inflight[k]? = some sqe) (hu : UserData.tryFrom sqe.userData = some u)
    (hf : outcome.fits u.opType = true) (hop : op = .ptyRead ∨ op = .socketRead)
    (htag : sqe.userData = readTag op i) (hi : i ≠ 0) (hres : 0 < outcome.res) :
    ∃ op' bytes, s.completes (.complete k outcome) i = some (op', bytes) := by
  have hn : NonZeroU32.new i = some ⟨i, hi⟩ := dif_pos hi
  have hue : u = ⟨op, some ⟨i, hi⟩⟩ := by
    have hw : u.toU64 = readTag op i := (UserData.toU64_of_tryFrom hu).trans htag
    rw [UserData.toU64_injective hw, hn]
  subst hue
  cases outcome with
  | error n => exact absurd hres (by simp only [Outcome.res]; omega)
  | count n => rcases hop with rfl | rfl <;> cases hf
  | data bytes place =>
    refine ⟨op, bytes, ?_⟩
    simp only [completes, hk, Option.bind_some, hu, hop, true_and, if_true]

theorem filling_nil (h : s.completes e i = none) : s.filling i e = [] := by
  simp only [filling, h]

theorem Buffered.kept (h : s.Buffered i fills) (hown : s.OwnReads) (hs : s.step e = .ok s')
    (hno : ∀ op bytes, s.act e i ≠ .fill op bytes) {st : Stream} {op : UserDataOpType} {c : Cqe}
    (hst : s'.dev.streams.get i = some st) (hr : st.service.reader = some op) (hc : c ∈ s.posted)
    (htag : c.userData = readTag op i) (hres : 0 < c.res) :
    ∃ bytes, fills.getLast? = some bytes ∧ c.res = bytes.length ∧
      readData op st.service c.res.toNat = some bytes := by
  have hop := Service.reader_cases hr
  have hpos : 0 < (s.view i).reads op := by
    have hmem : readTag op i ∈ s.outstanding := by
      rw [← htag]
      refine List.mem_append_right _ ?_
      simp only [rest, List.append_assoc, ← List.map_append]
      exact List.mem_append_right _ (List.mem_map_of_mem hc)
    rw [s.view_reads i hop]
    exact List.count_pos_iff.mpr hmem
  have hopen : ∀ r svc, s.act e i ≠ .opened r svc := by
    intro r svc ha
    have hz := (hown.unborn s.nextId (Nat.le_refl _)).2 op
    rw [← act_opened ha] at hz
    omega
  obtain ⟨st0, hst0⟩ := View.step_open hopen (step_view hs i) hst
  have hkind := View.step_reader hopen (step_view hs i) hst0 hst
  have hr0 : st0.service.reader = some op := by rw [← hkind]; exact hr
  rw [View.step_service hopen hno (step_view hs i) hst0 hr0 hst]
  exact h st0 op c hst0 hr0 hc htag hres

/-- A completion that is to be handled after a step, and is no end of a read of stream `i`
that the step brought, was to be handled before it. -/
theorem posted_before {c : Cqe} {op : UserDataOpType} (hs : s.step e = .ok s') (hc : c ∈ s'.posted)
    (hop : op = .ptyRead ∨ op = .socketRead) (htag : c.userData = readTag op i) (hi : i ≠ 0)
    (hres : 0 < c.res) (hnone : s.completes e i = none) : c ∈ s.posted := by
  cases e with
  | submit =>
    obtain ⟨-, rfl⟩ := Sys.submit_ok hs
    exact hc
  | reap =>
    obtain ⟨-, -, -, rfl⟩ := Sys.reap_ok hs
    simp only [posted, List.nil_append] at hc
    exact List.mem_append_left _ hc
  | handle env =>
    obtain ⟨c0, hb, hq, -⟩ := handle_queues hs
    simp only [posted, hb, hq, List.mem_append, List.mem_cons] at hc ⊢
    tauto
  | complete k outcome =>
    obtain ⟨sqe, u, hk, hu, hf, hs'⟩ := complete_ok hs
    have hq := fill_queues s u outcome
    simp only [hs', posted, hq.2.2, List.mem_append, List.mem_singleton] at hc ⊢
    rcases hc with (h1 | h1) | h1
    · exact .inl h1
    · subst h1
      obtain ⟨op', bytes, hcomp⟩ := completed_fills hk hu hf hop htag hi hres
      cases hnone.symm.trans hcomp
    · exact .inr h1

/-- The read of stream `i` that completes is in its buffer. -/
theorem chunk_brought {op op' : UserDataOpType} {bytes : Bytes} {c : Cqe} {st : Stream}
    (hkept : s.Kept) (hone : (s.view i).Solo) (hs : s.step e = .ok s')
    (hcomp : s.completes e i = some (op', bytes)) (hst : s'.dev.streams.get i = some st)
    (hr : st.service.reader = some op) (hc : c ∈ s'.posted) (htag : c.userData = readTag op i)
    (hres : 0 < c.res) : ∃ bytes, (fills ++ s.filling i e).getLast? = some bytes ∧
      c.res = bytes.length ∧ readData op st.service c.res.toNat = some bytes := by
  have ha := hkept.act_fill_iff.mpr hcomp
  obtain ⟨k, sqe, place, j, rfl, hk, hdec, hj, hop'⟩ := completes_eq_some hcomp
  have hsqe : sqe.userData = readTag op' i := hj ▸ readTag_of_tryFrom hdec
  have hview := step_view hs i
  obtain ⟨sqe', u, hk', hu, -, rfl⟩ := complete_ok hs
  cases hk.symm.trans hk'
  -- no other read of stream `i` is in flight
  have hnew : c = ⟨sqe.userData, (bytes.length : Int)⟩ := by
    by_contra hne
    have hold : c ∈ s.posted := by
      have hq := fill_queues s u (.data bytes place)
      simp only [posted, hq.2.2, List.mem_append, List.mem_singleton] at hc ⊢
      rcases hc with (h1 | h1) | h1
      · exact .inl h1
      · exact absurd h1 hne
      · exact .inr h1
    have htwo := two_reads (Service.reader_cases hr) hop' hk hsqe hold htag
    unfold View.Solo at hone
    omega
  subst hnew
  have heq : op' = op := (readTag_inj (hsqe.symm.trans htag)).1
  subst heq
  rw [ha] at hview
  have hst' : ((s.view i).stream.map fun st0 =>
      { st0 with service := st0.service.filled op' bytes }) = some st := by
    have := congrArg View.stream (Except.ok.inj hview)
    exact this.trans hst
  obtain ⟨st0, hst0, rfl⟩ := Option.map_eq_some_iff.mp hst'
  have hr0 : st0.service.reader = some op' := by
    rw [← Service.reader_filled st0.service op' bytes]
    exact hr
  have hne : bytes ≠ [] := by
    rintro rfl
    exact absurd hres (Int.lt_irrefl 0)
  refine ⟨bytes, ?_, rfl, readData_filled hr0 bytes⟩
  simp [filling, hcomp, hne]

/-- **A step keeps the chunk in the buffer.** -/
theorem Buffered.step (h : s.Buffered i fills) (hown : s.OwnReads) (hkept : s.Kept)
    (hone : (s.view i).Solo) (hs : s.step e = .ok s') : s'.Buffered i (fills ++ s.filling i e) := by
  intro st op c hst hr hc htag hres
  cases hcomp : s.completes e i with
  | some x => exact chunk_brought hkept hone hs hcomp hst hr hc htag hres
  | none =>
    have hno : ∀ op bytes, s.act e i ≠ .fill op bytes := fun op bytes ha => by
      cases hcomp.symm.trans (hkept.act_fill_iff.mp ha)
    have hi : i ≠ 0 := by
      rintro rfl
      cases (hown.step hs).zero.1.symm.trans hst
    have hold := posted_before hs hc (Service.reader_cases hr) htag hi hres hcomp
    rw [filling_nil hcomp, List.append_nil]
    exact h.kept hown hs hno hst hr hold htag hres

theorem ending_posted {op : UserDataOpType} {res : Int} (h : s.ending = some (op, i, res)) :
    ∃ c ∈ s.posted, c.userData = readTag op i ∧ c.res = res := by
  unfold ending at h
  cases hb : s.batch with
  | nil =>
    rw [hb] at h
    cases h
  | cons c tail =>
    rw [hb] at h
    have hmem : c ∈ s.posted := List.mem_append_right _ (by rw [hb]; exact List.mem_cons_self)
    simp only at h
    split at h
    · rename_i n hu
      cases h
      exact ⟨c, hmem, by rw [readTag, NonZeroU32.new_val, UserData.toU64_of_tryFrom hu], rfl⟩
    · rename_i n hu
      cases h
      exact ⟨c, hmem, by rw [readTag, NonZeroU32.new_val, UserData.toU64_of_tryFrom hu], rfl⟩
    · cases h

/-- A read that is handled brings what the last read of its stream filled in. -/
theorem Buffered.ending (h : s.Buffered i fills) (hown : s.OwnReads) {st : Stream}
    {op : UserDataOpType} {res : Int} (he : s.ending = some (op, i, res)) (hres : 0 < res)
    (hst : s.dev.streams.get i = some st) :
    ∃ bytes, fills.getLast? = some bytes ∧ res = bytes.length ∧
      readData op st.service res.toNat = some bytes := by
  have hact : s.act (.handle {}) i = .read op res := by simp only [act, he, if_true]
  obtain ⟨c, hc, htag, rfl⟩ := ending_posted he
  exact h st op c hst (hown.reader_of_act hact hst) hc htag hres

theorem Buffered.start (info : DeviceInfo) (os : Os) (i : UInt32) : (Sys.start info os).Buffered i [] :=
  fun _ _ _ hst => nomatch hst

end Sys

/-- **One read per buffer.** In every run in which an OKAY for a shell or forward
stream finds it waiting for one and no stream is dropped under a read, at most one read
of a stream is submitted and not yet handled, and a read that is handled with the
stream open finds in the buffer the bytes it brought. -/
theorem one_read_per_buffer {info : DeviceInfo} {os : Os} {s : Sys} {i : UInt32} {fills : List Bytes}
    (h : Reach (observed Sys.step (Sys.filling i))
      (fun p e => OkaysAwaited p.1 e ∧ KeepsReads p.1 e) (Sys.start info os, []) (s, fills)) :
    s.outstanding.count (readTag .ptyRead i) + s.outstanding.count (readTag .socketRead i) ≤ 1 ∧
      ∀ st op res, s.ending = some (op, i, res) → 0 < res → s.dev.streams.get i = some st →
        ∃ bytes, fills.getLast? = some bytes ∧ res = bytes.length ∧
          Sys.readData op st.service res.toNat = some bytes := by
  have hinv : s.OwnReads ∧ s.Kept ∧ s.OneRead ∧ s.Buffered i fills := by
    refine h.invariant (I := fun p => p.1.OwnReads ∧ p.1.Kept ∧ p.1.OneRead ∧ p.1.Buffered i p.2)
      ⟨.start info os, .start info os, .start info os, .start info os i⟩ fun p e q hi hok hs => ?_
    obtain ⟨hown, hkept, hone, hbuf⟩ := hi
    obtain ⟨hstep, hhist⟩ := observed_ok hs
    rw [hhist]
    exact ⟨hown.step hstep, hkept.step hown hok.2 hstep, hone.step hown hok.1 hstep,
      hbuf.step hown hkept (hone i) hstep⟩
  obtain ⟨hown, -, hone, hbuf⟩ := hinv
  refine ⟨?_, fun st op res he hres hst => hbuf.ending hown he hres hst⟩
  exact Nat.le_trans (Nat.le_add_right _ _) (hone i)

/-! ## Runs with reads -/

def okaysAwaited (s : Sys) (e : Event) : Bool :=
  match e, s.incoming with
  | .handle _, some (h, _) => h.command != .okay ||
      ((s.dev.streams.get h.arg1).map fun st => st.service.reader.isNone || st.waitingForOkay).getD true
  | _, _ => true

theorem OkaysAwaited.of_okaysAwaited {s : Sys} {e : Event} (h : okaysAwaited s e = true) :
    OkaysAwaited s e := by
  intro i st hst hr ha
  obtain ⟨env, hd, p, rfl, hi, hact⟩ := Sys.act_fromHost (by rw [ha]; rfl)
  obtain ⟨hcmd, rfl⟩ := Dev.actOf_okay (hact.symm.trans ha)
  obtain ⟨op, hop⟩ := Option.isSome_iff_exists.mp hr
  simpa [okaysAwaited, hi, hcmd, hst, hop] using h

/-- A shell answers two bytes. -/
theorem one_read_per_buffer_shell : ∃ s fills st,
    Reach (observed Sys.step (Sys.filling 1)) (fun p e => OkaysAwaited p.1 e ∧ KeepsReads p.1 e)
        (Sys.fresh, []) (s, fills) ∧
      s.ending = some (.ptyRead, 1, 2) ∧ s.dev.streams.get 1 = some st ∧
      s.outstanding.count (readTag .ptyRead 1) + s.outstanding.count (readTag .socketRead 1) ≤ 1 ∧
      ∃ bytes, fills.getLast? = some bytes ∧ (2 : Int) = bytes.length ∧
        Sys.readData .ptyRead st.service 2 = some bytes := by
  have hrun : (Sys.fresh.poised (fun s e => okaysAwaited s e && keepsReads s e) Sys.openShell
      ⟨readTag .ptyRead 1, .data (ascii "hi"), {}⟩).map (fun s => (s.ending, s.dev.streams.get 1)) =
        some (some (.ptyRead, 1, 2), some ⟨7, .shell ⟨0, ascii "hi"⟩, false, false⟩) := by
    decide +kernel
  obtain ⟨s, hs, he⟩ := Option.map_eq_some_iff.mp hrun
  simp only [Prod.mk.injEq] at he
  have hreach : Reach Sys.step (fun s e => OkaysAwaited s e ∧ KeepsReads s e) Sys.fresh s :=
    Sys.reach_of_poised (fun _ _ h => by
      rw [Bool.and_eq_true] at h
      exact ⟨.of_okaysAwaited h.1, .of_keepsReads h.2⟩) hs
  have hhist : ∃ fills, Reach (observed Sys.step (Sys.filling 1))
      (fun p e => OkaysAwaited p.1 e ∧ KeepsReads p.1 e) (Sys.fresh, []) (s, fills) := hreach.observe
  obtain ⟨fills, hobs⟩ := hhist
  obtain ⟨h1, h2⟩ := one_read_per_buffer hobs
  exact ⟨s, fills, _, hobs, he.1, he.2, h1, h2 _ _ _ he.1 (by decide) he.2⟩

def Sys.strayOkay : List Sys.Turn := Sys.openShell ++ Sys.Turn.message .okay 7 1 []

/-- Both reads complete, the first with two bytes, before the first is handled. -/
def Sys.doubleRead (s : Sys) : List Event :=
  let k := (s.inflight ++ s.dev.sq).findIdx (·.userData == readTag .ptyRead 1)
  let k' := ((s.inflight ++ s.dev.sq).eraseIdx k).findIdx (·.userData == readTag .ptyRead 1)
  [.submit, .complete k (.data (ascii "aa")), .complete k' (.data (ascii "b")), .reap, .handle {}]

/-- An OKAY that answers no WRTE starts a second read into the same buffer; the
chunk of the first is relayed with a byte of the second. -/
theorem two_reads_one_buffer : ∃ s s', Reach Sys.step (fun _ _ => True) Sys.fresh s ∧
    s.outstanding.count (readTag .ptyRead 1) = 2 ∧ runEvents Sys.step s s.doubleRead = .ok s' ∧
    (s'.view 1).wrtes = [ascii "ba"] := by
  have hrun : (Sys.fresh.play (fun _ _ => true) Sys.strayOkay).bind (fun s =>
      (runEvents Sys.step s s.doubleRead).toOption.map fun s' =>
        (s.outstanding.count (readTag .ptyRead 1), (s'.view 1).wrtes)) = some (2, [ascii "ba"]) := by
    decide +kernel
  obtain ⟨s, hs, h1⟩ := Option.bind_eq_some_iff.mp hrun
  obtain ⟨s', hs', h2⟩ := Option.map_eq_some_iff.mp h1
  simp only [Prod.mk.injEq] at h2
  exact ⟨s, s', Sys.reach_of_play (fun _ _ _ => trivial) hs, h2.1, ok_of_toOption hs', h2.2⟩

end Adibi
