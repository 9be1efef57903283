import Mathlib.Data.List.Perm.Basic
import Adibi.View

/-!
# A run is a run of each stream

`step_view`: the view of a stream after a step of the system is the view before
it, stepped by what the event is to that stream. So a property of one stream's
views that every act keeps holds along every run (`Reach.view`).
-/

namespace Adibi

open Lib

namespace Dev

theorem view_perm (d : Dev) {rest rest' : List UInt64} (h : rest.Perm rest') (i : UInt32) :
    d.view rest i = d.view rest' i := by
  simp only [view, List.count_append, h.count_eq]

theorem read_view (d : Dev) {t : Traffic} (hw : ∀ i, t.wrteOn i = none)
    (ho : ∀ i, t.isOkayOn i = false) (rest : List UInt64) (i : UInt32) :
    (d.log t).view rest i = d.view rest i := by
  simp [log_view, hw, ho]

end Dev

def Event.env : Event → Env
  | .handle env => env
  | _ => {}

namespace Sys

variable {s s' : Sys} {c : Cqe} {tail : List Cqe}

theorem rest_handle (hb : s.batch = c :: tail) :
    s.rest.Perm (c.userData :: { s with batch := tail }.rest) := by
  simp only [rest, hb, List.map_cons]
  exact List.perm_middle

theorem outstanding_handle (hb : s.batch = c :: tail) :
    s.outstanding.Perm (c.userData :: { s with batch := tail }.outstanding) :=
  ((rest_handle hb).append_left _).trans List.perm_middle

theorem mem_outstanding (hc : c ∈ s.batch) : c.userData ∈ s.outstanding :=
  List.mem_append_right _ (List.mem_append_right _ (List.mem_map_of_mem hc))

theorem view_handle_ne (hb : s.batch = c :: tail) {i : UInt32}
    (hp : c.userData ≠ readTag .ptyRead i) (hs : c.userData ≠ readTag .socketRead i) :
    { s with batch := tail }.view i = s.view i := by
  rw [view, view, s.dev.view_perm (rest_handle hb) i]
  simp only [Dev.view, List.count_append, List.count_cons_of_ne hp, List.count_cons_of_ne hs]

theorem view_handle_read (hb : s.batch = c :: tail) {op : UserDataOpType} {i : UInt32}
    (hop : op = .ptyRead ∨ op = .socketRead) (hc : c.userData = readTag op i) :
    { s with batch := tail }.view i = (s.view i).ended op := by
  rw [view, view, s.dev.view_perm (rest_handle hb) i, hc]
  rcases hop with rfl | rfl
  · have hne : readTag .ptyRead i ≠ readTag .socketRead i := fun e => by
      have := (readTag_inj e).1
      cases this
    simp [Dev.view, View.ended, List.count_append, hne]
  · have hne : readTag .socketRead i ≠ readTag .ptyRead i := fun e => by
      have := (readTag_inj e).1
      cases this
    simp [Dev.view, View.ended, List.count_append, hne]

/-- The tag of a completion that decodes to something else is not a read's. -/
theorem tag_ne {u : UserData} (ht : UserData.tryFrom c.userData = some u) {op : UserDataOpType}
    (hop : u.opType ≠ op) (i : UInt32) : c.userData ≠ readTag op i := by
  intro e
  rw [e, readTag, UserData.tryFrom_toU64] at ht
  cases ht
  exact hop rfl

theorem view_handle_other (hb : s.batch = c :: tail) {u : UserData}
    (ht : UserData.tryFrom c.userData = some u) (hp : u.opType ≠ .ptyRead)
    (hs : u.opType ≠ .socketRead) (i : UInt32) : { s with batch := tail }.view i = s.view i :=
  view_handle_ne hb (tag_ne ht hp i) (tag_ne ht hs i)

/-! ## Single events -/

theorem submit_view (h : s.step .submit = .ok s') (i : UInt32) : s'.view i = s.view i := by
  simp only [step] at h
  split at h
  · cases h
    simp only [view, Dev.view, Dev.tags, rest, List.map_nil, List.nil_append, List.map_append,
      List.count_append, View.mk.injEq, and_true, true_and]
    constructor <;> omega
  · cases h

theorem reap_view (h : s.step .reap = .ok s') (i : UInt32) : s'.view i = s.view i := by
  simp only [step] at h
  split at h
  · rename_i hc
    cases h
    simp only [view, Dev.view, rest, hc.1, List.map_nil, List.append_nil]
  · cases h

/-- What a completing read does to memory: it fills the buffer of an open stream,
or overwrites a slot, or leaves all that is in use alone. -/
inductive Fills (d : Dev) (op : UserDataOpType) (j : UInt32) (bytes : Bytes) (place : Option Place) :
    Dev → Prop where
  | stream {op' : UserDataOpType} {i : UInt32} {st : Stream} (hf : d.filledBy op j place = some (op', i))
      (hs : d.streams.get i = some st) :
      Fills d op j bytes place
        (d.setStream i (some { st with service := st.service.filled op' bytes }))
  | slot {n : UInt32} (hf : d.filledBy op j place = none) (hp : place = some (.slot n))
      (hj : d.streams.get j = none) :
      Fills d op j bytes place { d with buffers := d.buffers.overwrite n bytes }
  | nothing (hf : d.filledBy op j place = none) : Fills d op j bytes place d

theorem filledBy_some {d : Dev} {op op' : UserDataOpType} {j i : UInt32} {place : Option Place}
    (h : d.filledBy op j place = some (op', i)) : ∃ st, d.streams.get i = some st ∧
      (op' = op ∧ i = j ∨ d.streams.get j = none ∧ st.service.reader = some op') := by
  unfold Dev.filledBy at h
  split at h
  · rename_i hj
    cases h
    obtain ⟨st, hst⟩ := Option.isSome_iff_exists.mp hj
    exact ⟨st, hst, .inl ⟨rfl, rfl⟩⟩
  · rename_i hj
    split at h
    · obtain ⟨op1, hop, he⟩ := Option.map_eq_some_iff.mp h
      cases he
      obtain ⟨st, hst, hr⟩ := Option.bind_eq_some_iff.mp hop
      exact ⟨st, hst, .inr ⟨by simpa using hj, hr⟩⟩
    · cases h

theorem filledBy_open {d : Dev} {op : UserDataOpType} {j : UInt32} {place : Option Place} {st : Stream}
    (h : d.streams.get j = some st) : d.filledBy op j place = some (op, j) :=
  if_pos (by rw [h]; rfl)

theorem filledBy_none {d : Dev} {op : UserDataOpType} {j : UInt32} {place : Option Place}
    (h : d.filledBy op j place = none) : d.streams.get j = none := by
  cases hst : d.streams.get j with
  | none => rfl
  | some st =>
    rw [filledBy_open hst] at h
    cases h

theorem fills {d d' : Dev} {op : UserDataOpType} {j : UInt32} {bytes : Bytes} {place : Option Place}
    (h : d.fill op j bytes place = d') : Fills d op j bytes place d' := by
  subst h
  unfold Dev.fill
  cases hf : d.filledBy op j place with
  | some x =>
    obtain ⟨op', i⟩ := x
    obtain ⟨st, hst, -⟩ := filledBy_some hf
    simp only [Dev.fillStream, hst]
    exact .stream hf hst
  | none =>
    cases place with
    | none => exact .nothing hf
    | some p =>
      cases p with
      | readBuf i => exact .nothing hf
      | slot n => exact .slot hf rfl (filledBy_none hf)

theorem fill_read {op : UserDataOpType} (hop : op = .ptyRead ∨ op = .socketRead) (j : NonZeroU32)
    (bytes : Bytes) (place : Option Place) :
    s.fill ⟨op, some j⟩ (.data bytes place) = { s with dev := s.dev.fill op j.1 bytes place } := by
  rcases hop with rfl | rfl <;> rfl

theorem act_filling {k : Nat} {e : Sqe} {op : UserDataOpType} {j : NonZeroU32} {bytes : Bytes}
    {place : Option Place} (he : s.inflight[k]? = some e)
    (hu : UserData.tryFrom e.userData = some ⟨op, some j⟩) (hop : op = .ptyRead ∨ op = .socketRead)
    (i : UInt32) :
    s.act (.complete k (.data bytes place)) i = s.dev.fillAct op j.1 bytes place i := by
  simp only [act, he, Option.bind_some, hu, if_pos hop]

theorem fill_read_view (d : Dev) (op : UserDataOpType) (j : UInt32) (bytes : Bytes)
    (place : Option Place) (rest : List UInt64) (i : UInt32) :
    (d.view rest i).step {} d.version d.os i (d.fillAct op j bytes place i) =
      .ok ((d.fill op j bytes place).view rest i) := by
  unfold Dev.fillAct
  generalize hd : d.fill op j bytes place = d'
  cases fills hd with
  | nothing hf =>
    simp only [hf]
    rfl
  | slot hf hp hj =>
    simp only [hf]
    rfl
  | @stream op' i' st hf hs =>
    simp only [hf]
    by_cases hi : i' = i
    · subst hi
      simp only [if_true, View.step, Dev.view, hs]
      simp [Dev.setStream, Dev.tags]
    · simp only [hi, if_false, View.step]
      simp [Dev.view, Dev.setStream, Dev.tags, StreamManager.get_put_ne (fun e => hi e.symm)]

theorem fill_view {u : UserData} {k : Nat} {e : Sqe} {outcome : Outcome} (he : s.inflight[k]? = some e)
    (hu : UserData.tryFrom e.userData = some u) (hf : outcome.fits u.opType = true) (i : UInt32) :
    (s.view i).step {} s.dev.version s.dev.os i (s.act (.complete k outcome) i) =
      .ok ((s.fill u outcome).view i) := by
  obtain ⟨op, x⟩ := u
  cases outcome with
  | count n => rfl
  | error n => rfl
  | data bytes place =>
    cases op with
    | ep0Poll => cases hf
    | bulkInWrite => cases hf
    | bulkOutReadHeader =>
      simp only [act, he, Option.bind_some, hu]
      cases x <;> simp [View.step, fill, view, rest]
    | bulkOutReadPayload =>
      simp only [act, he, Option.bind_some, hu]
      cases x <;> simp [View.step, fill, view, rest]
    | ptyRead =>
      cases x with
      | none =>
        simp only [act, he, Option.bind_some, hu]
        rfl
      | some j =>
        rw [act_filling he hu (.inl rfl), fill_read (.inl rfl)]
        exact fill_read_view s.dev _ j.1 bytes place s.rest i
    | socketRead =>
      cases x with
      | none =>
        simp only [act, he, Option.bind_some, hu]
        rfl
      | some j =>
        rw [act_filling he hu (.inr rfl), fill_read (.inr rfl)]
        exact fill_read_view s.dev _ j.1 bytes place s.rest i

theorem fill_queues (s : Sys) (u : UserData) (outcome : Outcome) :
    (s.fill u outcome).inflight = s.inflight ∧ (s.fill u outcome).cq = s.cq ∧
      (s.fill u outcome).batch = s.batch := by
  unfold fill
  repeat' split
  all_goals exact ⟨rfl, rfl, rfl⟩

theorem fill_frame (s : Sys) (u : UserData) (outcome : Outcome) :
    (s.fill u outcome).dev.version = s.dev.version ∧ (s.fill u outcome).dev.trace = s.dev.trace ∧
      (s.fill u outcome).pendingHeader = s.pendingHeader := by
  have hfill : ∀ op j bytes place, (s.dev.fill op j bytes place).version = s.dev.version ∧
      (s.dev.fill op j bytes place).trace = s.dev.trace := by
    intro op j bytes place
    generalize hd : s.dev.fill op j bytes place = d'
    cases fills hd <;> exact ⟨rfl, rfl⟩
  unfold fill
  split
  · split
    · exact ⟨rfl, rfl, rfl⟩
    · exact ⟨rfl, rfl, rfl⟩
    · exact ⟨(hfill ..).1, (hfill ..).2, rfl⟩
    · exact ⟨rfl, rfl, rfl⟩
  · exact ⟨rfl, rfl, rfl⟩

theorem fill_pool (s : Sys) (u : UserData) (outcome : Outcome) :
    (s.fill u outcome).dev.sq = s.dev.sq ∧ ∀ slot,
      ((s.fill u outcome).dev.buffers.get slot).isSome = (s.dev.buffers.get slot).isSome := by
  have hfill : ∀ op j bytes place, (s.dev.fill op j bytes place).sq = s.dev.sq ∧ ∀ slot,
      ((s.dev.fill op j bytes place).buffers.get slot).isSome = (s.dev.buffers.get slot).isSome := by
    intro op j bytes place
    generalize hd : s.dev.fill op j bytes place = d'
    cases fills hd with
    | stream hf hs => exact ⟨rfl, fun _ => rfl⟩
    | slot hf hp hj => exact ⟨rfl, fun _ => BufferManager.overwrite_isSome ..⟩
    | nothing hf => exact ⟨rfl, fun _ => rfl⟩
  unfold fill
  split
  · split
    · exact ⟨rfl, fun _ => rfl⟩
    · exact ⟨rfl, fun _ => rfl⟩
    · exact hfill ..
    · exact ⟨rfl, fun _ => rfl⟩
  · exact ⟨rfl, fun _ => rfl⟩

theorem rest_complete {k : Nat} {e : Sqe} (he : s.inflight[k]? = some e) (res : Int) :
    { s with inflight := s.inflight.eraseIdx k,
             cq := s.cq ++ [(⟨e.userData, res⟩ : Cqe)] }.rest.Perm s.rest := by
  obtain ⟨hk, rfl⟩ := List.getElem?_eq_some_iff.mp he
  have hperm := (List.getElem_cons_eraseIdx_perm hk).map Sqe.userData
  simp only [rest, List.map_append, List.map_cons, List.map_nil]
  refine List.Perm.append_right _ ?_
  rw [← List.append_assoc]
  exact (List.perm_append_singleton _ _).trans (hperm.append_right _)

theorem complete_ok {k : Nat} {outcome : Outcome} (h : s.step (.complete k outcome) = .ok s') :
    ∃ e u, s.inflight[k]? = some e ∧ UserData.tryFrom e.userData = some u ∧
      outcome.fits u.opType = true ∧
      s' = { s.fill u outcome with
        inflight := s.inflight.eraseIdx k
        cq := s.cq ++ [(⟨e.userData, outcome.res⟩ : Cqe)] } := by
  simp only [step] at h
  split at h
  · cases h
  · rename_i e he
    split at h
    · cases h
    · rename_i u hu
      split at h
      · rename_i hf
        obtain ⟨h1, h2, -⟩ := s.fill_queues u outcome
        simp only [Except.ok.injEq, h1, h2] at h
        exact ⟨e, u, he, hu, hf, h.symm⟩
      · cases h

/-- Only handling a completion takes a tag away or adds one. -/
theorem outstanding_perm {e : Event} (h : s.step e = .ok s') (he : ∀ env, e ≠ .handle env) :
    s'.outstanding.Perm s.outstanding := by
  cases e with
  | handle env => exact absurd rfl (he env)
  | submit =>
    obtain ⟨-, rfl⟩ := submit_ok h
    simp only [outstanding, Dev.tags, rest, List.map_append, List.map_nil, List.nil_append,
      List.append_assoc]
    exact List.perm_append_comm_assoc _ _ _
  | reap =>
    obtain ⟨hc, -, -, rfl⟩ := reap_ok h
    simp only [outstanding, rest, hc, List.map_nil, List.append_nil]
    exact List.Perm.refl _
  | complete k outcome =>
    obtain ⟨e, u, he, -, -, rfl⟩ := complete_ok h
    obtain ⟨hq, -⟩ := s.fill_pool u outcome
    obtain ⟨-, -, h3⟩ := s.fill_queues u outcome
    have hp : (s.inflight.eraseIdx k |>.map Sqe.userData) ++
        (s.cq ++ [(⟨e.userData, outcome.res⟩ : Cqe)]).map Cqe.userData ++ s.batch.map Cqe.userData
          |>.Perm s.rest := rest_complete (s := s) he _
    simp only [outstanding, Dev.tags, rest, hq, h3]
    exact hp.append_left _

theorem complete_view {k : Nat} {outcome : Outcome} (h : s.step (.complete k outcome) = .ok s')
    (i : UInt32) : (s.view i).step {} s.dev.version s.dev.os i (s.act (.complete k outcome) i) =
      .ok (s'.view i) := by
  obtain ⟨e, u, he, hu, hf, rfl⟩ := complete_ok h
  obtain ⟨h1, h2, h3⟩ := s.fill_queues u outcome
  rw [fill_view he hu hf i]
  have hperm := rest_complete (s := s.fill u outcome) (by rw [h1]; exact he) outcome.res
  rw [h1, h2] at hperm
  exact congrArg Except.ok ((s.fill u outcome).dev.view_perm hperm.symm i)

theorem ending_eq (hb : s.batch = c :: tail) {op : UserDataOpType} {j : NonZeroU32}
    (hop : op = .ptyRead ∨ op = .socketRead)
    (ht : UserData.tryFrom c.userData = some ⟨op, some j⟩) : s.ending = some (op, j.1, c.res) := by
  simp only [ending, hb, ht]
  rcases hop with rfl | rfl <;> rfl

theorem ending_none (hb : s.batch = c :: tail) {u : UserData}
    (ht : UserData.tryFrom c.userData = some u) (hp : u.opType ≠ .ptyRead)
    (hs : u.opType ≠ .socketRead) : s.ending = none := by
  obtain ⟨op, x⟩ := u
  simp only [ending, hb, ht]
  cases op <;> simp_all

theorem arriving_header (hb : s.batch = c :: tail) {x : Option NonZeroU32} {data : Bytes}
    (ht : UserData.tryFrom c.userData = some ⟨.bulkOutReadHeader, x⟩)
    (hx : s.transfer c.res = .ok data) : s.arriving = some (false, data) := by
  simp only [arriving, hb, ht, hx]

theorem arriving_payload (hb : s.batch = c :: tail) {x : Option NonZeroU32} {data : Bytes}
    (ht : UserData.tryFrom c.userData = some ⟨.bulkOutReadPayload, x⟩)
    (hx : s.transfer c.res = .ok data) : s.arriving = some (true, data) := by
  simp only [arriving, hb, ht, hx]

theorem arriving_none (hb : s.batch = c :: tail)
    (hh : ∀ x, UserData.tryFrom c.userData ≠ some ⟨.bulkOutReadHeader, x⟩)
    (hp : ∀ x, UserData.tryFrom c.userData ≠ some ⟨.bulkOutReadPayload, x⟩) : s.arriving = none := by
  simp only [arriving, hb]
  split
  · rename_i x _ h _
    exact absurd h (hh x)
  · rename_i x _ h _
    exact absurd h (hp x)
  · rfl

theorem dispatch_view {env : Env} {d1 d2 : Dev} {t : Traffic} {h : AdbHeader} {p : Option Bytes}
    (hw : ∀ i, t.wrteOn i = none) (ho : ∀ i, t.isOkayOn i = false)
    (hc : (s.dev.log t).handleCommand env h p = .ok d1)
    (hd : d1.submitBulkOutRead .bulkOutReadHeader = .ok d2) (rest : List UInt64) (i : UInt32) :
    (s.dev.view rest i).step env s.dev.version s.dev.os i (s.dev.actOf env h p i) =
      .ok (d2.view rest i) := by
  have := Dev.handleCommand_view hc rest i
  rw [s.dev.read_view hw ho] at this
  rw [Dev.bulkRead_view (by decide) (by decide) hd]
  exact this

theorem handle_view {env : Env} (h : s.step (.handle env) = .ok s') (i : UInt32) :
    (s.view i).step env s.dev.version s.dev.os i (s.act (.handle env) i) = .ok (s'.view i) := by
  obtain ⟨c, tail, hb, hh⟩ := handle_ok h
  simp only [act]
  cases hh with
  | unknown ht =>
    have hne : ∀ op, c.userData ≠ readTag op i := fun op e => by
      rw [e, readTag, UserData.tryFrom_toU64] at ht
      cases ht
    have he : s.ending = none := by simp only [ending, hb, ht]
    have ha : s.arriving = none := arriving_none hb (by simp [ht]) (by simp [ht])
    simp only [he, incoming, ha, View.step]
    rw [← view_handle_ne hb (hne _) (hne _)]
  | read hop ht hd =>
    rename_i op j d
    simp only [ending_eq hb hop ht]
    rw [Dev.readDone_eq] at hd
    have heff := Dev.effect_view (fun st e he => onRead_on he) hd
      { s with batch := tail }.rest i
    by_cases hj : j.1 = i
    · subst hj
      simp only [if_true] at heff ⊢
      have htag : c.userData = readTag op j.1 := by
        rw [readTag, NonZeroU32.new_val, UserData.toU64_of_tryFrom ht]
      rw [View.step, ← view_handle_read hb hop htag]
      exact heff
    · simp only [if_neg hj] at heff ⊢
      have hne : ∀ op', c.userData ≠ readTag op' i := fun op' e => by
        rw [e, readTag, UserData.tryFrom_toU64] at ht
        simp only [Option.some.injEq, UserData.mk.injEq] at ht
        unfold NonZeroU32.new at ht
        split at ht
        · simp only [Option.some.injEq] at ht
          exact hj (by rw [← ht.2])
        · cases ht.2
      rw [View.step, ← view_handle_ne hb (hne _) (hne _)]
      exact heff
  | write ht hd =>
    simp only [ending_none hb ht (by simp) (by simp)]
    have ha : s.arriving = none := arriving_none hb (by simp [ht]) (by simp [ht])
    simp only [incoming, ha, View.step]
    rw [← view_handle_other hb ht (by simp) (by simp)]
    rfl
  | poll ht hd =>
    simp only [ending_none hb ht (by simp) (by simp)]
    have ha : s.arriving = none := arriving_none hb (by simp [ht]) (by simp [ht])
    simp only [incoming, ha, View.step]
    rw [← view_handle_other hb ht (by simp) (by simp)]
    exact congrArg _ (Dev.bulkRead_view (by decide) (by decide) hd _ i).symm
  | rejected ht hx hp hd =>
    simp only [ending_none hb ht (by simp) (by simp), incoming, arriving_header hb ht hx, hp, View.step]
    rw [← view_handle_other hb ht (by simp) (by simp)]
    refine congrArg _ (.symm ?_)
    exact (Dev.bulkRead_view (by decide) (by decide) hd _ i).trans
      (s.dev.read_view (fun _ => rfl) (fun _ => rfl) _ i)
  | pending ht hx hp hl hd =>
    simp only [ending_none hb ht (by simp) (by simp), incoming, arriving_header hb ht hx, hp, hl,
      if_true, View.step]
    rw [← view_handle_other hb ht (by simp) (by simp)]
    refine congrArg _ (.symm ?_)
    exact (Dev.bulkRead_view (by decide) (by decide) hd _ i).trans
      (s.dev.read_view (fun _ => rfl) (fun _ => rfl) _ i)
  | bare ht hx hp hl hc hd =>
    simp only [ending_none hb ht (by simp) (by simp), incoming, arriving_header hb ht hx, hp, hl, if_false]
    rw [← view_handle_other hb ht (by simp) (by simp)]
    exact dispatch_view (fun _ => rfl) (fun _ => rfl) hc hd _ i
  | orphan ht hx hp hd =>
    simp only [ending_none hb ht (by simp) (by simp), incoming, arriving_payload hb ht hx,
      show s.pendingHeader = none from hp, View.step]
    rw [← view_handle_other hb ht (by simp) (by simp)]
    refine congrArg _ (.symm ?_)
    exact (Dev.bulkRead_view (by decide) (by decide) hd _ i).trans
      (s.dev.read_view (fun _ => rfl) (fun _ => rfl) _ i)
  | dropped ht hx hp hbad hd =>
    rename_i x data hdr d
    simp only [ending_none hb ht (by simp) (by simp), incoming, arriving_payload hb ht hx,
      show s.pendingHeader = some hdr from hp,
      show badChecksum s.dev.version hdr data = .ok true from hbad, View.step]
    rw [← view_handle_other hb ht (by simp) (by simp)]
    refine congrArg _ (.symm ?_)
    exact (Dev.bulkRead_view (by decide) (by decide) hd _ i).trans
      (s.dev.read_view (fun _ => rfl) (fun _ => rfl) _ i)
  | loaded ht hx hp hbad hc hd =>
    rename_i x data hdr d d'
    simp only [ending_none hb ht (by simp) (by simp), incoming, arriving_payload hb ht hx,
      show s.pendingHeader = some hdr from hp,
      show badChecksum s.dev.version hdr data = .ok false from hbad]
    rw [← view_handle_other hb ht (by simp) (by simp)]
    exact dispatch_view (fun _ => rfl) (fun _ => rfl) hc hd _ i

/-- **The view of a stream steps by its act.** -/
theorem step_view {e : Event} (h : s.step e = .ok s') (i : UInt32) :
    (s.view i).step e.env s.dev.version s.dev.os i (s.act e i) = .ok (s'.view i) := by
  cases e with
  | submit => exact congrArg Except.ok (submit_view h i).symm
  | reap => exact congrArg Except.ok (reap_view h i).symm
  | complete k outcome => exact complete_view h i
  | handle env => exact handle_view h i

/-! ## Stream ids -/

def nextId (s : Sys) : UInt32 := s.dev.streams.nextId

theorem act_complete (s : Sys) (k : Nat) (outcome : Outcome) (i : UInt32) :
    s.act (.complete k outcome) i = .none ∨
      ∃ op bytes, s.act (.complete k outcome) i = .fill op bytes := by
  have hfill : ∀ op j bytes place, s.dev.fillAct op j bytes place i = .none ∨
      ∃ op' bytes', s.dev.fillAct op j bytes place i = .fill op' bytes' := by
    intro op j bytes place
    unfold Dev.fillAct
    repeat' split
    · exact .inr ⟨_, _, rfl⟩
    · exact .inl rfl
    · exact .inl rfl
  unfold act
  split
  · split
    · split
      · exact hfill ..
      · exact .inl rfl
    · exact .inl rfl
  · rename_i he
    cases he
  · exact .inl rfl

theorem act_fromHost {e : Event} {i : UInt32} (h : (s.act e i).fromHost = true) :
    ∃ env hd p, e = .handle env ∧ s.incoming = some (hd, p) ∧
      s.act e i = s.dev.actOf env hd p i := by
  cases e with
  | submit => cases h
  | reap => cases h
  | complete k outcome =>
    rcases s.act_complete k outcome i with hn | ⟨op, bytes, hf⟩
    · rw [hn] at h
      cases h
    · rw [hf] at h
      cases h
  | handle env =>
    simp only [act] at h ⊢
    split at h
    · split at h <;> cases h
    · cases hi : s.incoming with
      | none =>
        rw [hi] at h
        cases h
      | some x => exact ⟨env, x.1, x.2, rfl, rfl, rfl⟩

theorem act_opened {e : Event} {i : UInt32} {r : UInt32} {svc : Service}
    (h : s.act e i = .opened r svc) : i = s.nextId := by
  obtain ⟨env, hd, p, -, -, ha⟩ := act_fromHost (by rw [h]; rfl)
  exact (Dev.actOf_opened (ha.symm.trans h)).2

theorem act_ending {e : Event} {i : UInt32} {op : UserDataOpType} {res : Int}
    (h : s.act e i = .read op res) : ∃ env, e = .handle env ∧ s.ending = some (op, i, res) := by
  cases e with
  | submit => cases h
  | reap => cases h
  | complete k outcome =>
    rcases s.act_complete k outcome i with hn | ⟨op', bytes, hf⟩
    · cases hn.symm.trans h
    · cases hf.symm.trans h
  | handle env =>
    simp only [act] at h
    cases he : s.ending with
    | none =>
      rw [he] at h
      simp only at h
      split at h
      · unfold Dev.actOf at h
        repeat' split at h
        all_goals cases h
      · cases h
    | some x =>
      obtain ⟨o, j, r⟩ := x
      rw [he] at h
      simp only at h
      split at h
      · rename_i hj
        cases h
        subst hj
        exact ⟨env, rfl, rfl⟩
      · cases h

/-- The head of the batch is a read's completion or brings a message, not both. -/
theorem ending_of_incoming {x : AdbHeader × Option Bytes} (h : s.incoming = some x) :
    s.ending = none := by
  cases hb : s.batch with
  | nil => simp only [ending, hb]
  | cons c tail =>
    cases ht : UserData.tryFrom c.userData with
    | none => simp only [ending, hb, ht]
    | some u =>
      obtain ⟨op, j⟩ := u
      have hno : op = .ptyRead ∨ op = .socketRead → s.incoming = none := fun hop => by
        have ha : s.arriving = none := by
          refine arriving_none hb (fun x => ?_) (fun x => ?_)
          · rw [ht]
            rcases hop with rfl | rfl <;> simp
          · rw [ht]
            rcases hop with rfl | rfl <;> simp
        simp only [incoming, ha]
      refine ending_none hb ht (fun e => ?_) (fun e => ?_)
      · rw [hno (.inl e)] at h
        cases h
      · rw [hno (.inr e)] at h
        cases h

theorem act_read {e : Event} {i : UInt32} {op : UserDataOpType} {res : Int}
    (h : s.act e i = .read op res) :
    (op = .ptyRead ∧ 0 < (s.view i).ptyReads) ∨ (op = .socketRead ∧ 0 < (s.view i).socketReads) := by
  have hmem : ∀ {c : Cqe} {tail : List Cqe} {j : NonZeroU32} {o : UserDataOpType},
      s.batch = c :: tail → UserData.tryFrom c.userData = some ⟨o, some j⟩ →
      readTag o j.1 ∈ s.dev.tags ++ s.rest := by
    intro c tail j o hb ht
    have : readTag o j.1 = c.userData := by
      rw [readTag, NonZeroU32.new_val, UserData.toU64_of_tryFrom ht]
    rw [this]
    exact List.mem_append_right _ ((rest_handle hb).mem_iff.mpr List.mem_cons_self)
  obtain ⟨env, rfl, he⟩ := act_ending h
  unfold ending at he
  split at he
  · cases he
  · rename_i c tail hb
    split at he
    · rename_i j' ht
      simp only [Option.some.injEq, Prod.mk.injEq] at he
      obtain ⟨rfl, rfl, -⟩ := he
      exact .inl ⟨rfl, List.count_pos_iff.mpr (hmem hb ht)⟩
    · rename_i j' ht
      simp only [Option.some.injEq, Prod.mk.injEq] at he
      obtain ⟨rfl, rfl, -⟩ := he
      exact .inr ⟨rfl, List.count_pos_iff.mpr (hmem hb ht)⟩
    · cases he

end Sys

end Adibi
