import Adibi.Lib.Ownership
import Adibi.LateReads

/-!
# Write slots

Each write in flight owns the slot its tag names: the occupied slots are those
of the writes submitted and not yet handled, and no slot is named twice, whatever
the host does. A slot keeps its bytes until its completion is handled as long as no
stream is dropped under a read, whose memory a slot may be given next.
-/

namespace Adibi

open Lib

def writeSlot (tag : UInt64) : Option UInt32 :=
  match UserData.tryFrom tag with
  | some ⟨.bulkInWrite, some slot⟩ => some slot.1
  | _ => none

@[simp] theorem writeSlot_write (slot : NonZeroU32) :
    writeSlot (UserData.mk .bulkInWrite (some slot)).toU64 = some slot.1 := by
  simp [writeSlot]

theorem writeSlot_none {tag : UInt64} (h : ∀ slot, UserData.tryFrom tag ≠ some ⟨.bulkInWrite, slot⟩) :
    writeSlot tag = none := by
  unfold writeSlot
  split
  · rename_i slot hs
    exact absurd hs (h _)
  · rfl

theorem writeSlot_op {u : UserData} (h : u.opType ≠ .bulkInWrite) : writeSlot u.toU64 = none := by
  refine writeSlot_none fun slot hs => h ?_
  rw [UserData.tryFrom_toU64] at hs
  cases hs
  rfl

/-- The slots of the writes submitted and not yet handled. -/
def Sys.writes (s : Sys) : List UInt32 := s.outstanding.filterMap writeSlot

/-! ## Submissions -/

/-- The writes among the tags own the pool. -/
structure Dev.Owned (d : Dev) (rest : List UInt64) : Prop where
  owns : Owns d.buffers.get ((d.tags ++ rest).filterMap writeSlot)
  slotted : ∀ t ∈ d.tags ++ rest, ∀ x, UserData.tryFrom t = some ⟨.bulkInWrite, x⟩ → x.isSome

/-- Every occupied slot keeps its bytes, and a write pushed finds its own in its slot. -/
structure Dev.Extends (d d' : Dev) : Prop where
  keeps : ∀ slot, (d.buffers.get slot).isSome → d'.buffers.get slot = d.buffers.get slot
  pushed : ∀ e ∈ d'.sq, e ∉ d.sq → ∀ slot, writeSlot e.userData = some slot →
    d'.buffers.get slot = some e.bytes

namespace Dev

variable {d d' : Dev} {rest : List UInt64}

theorem Extends.of_same (hb : d'.buffers = d.buffers) (hq : d'.sq = d.sq) : d.Extends d' :=
  ⟨fun _ _ => by rw [hb], fun e he hno => absurd (hq ▸ he) hno⟩

theorem Extends.refl (d : Dev) : d.Extends d := .of_same rfl rfl

theorem Extends.trans {d'' : Dev} (h : d.Extends d') (h' : d'.Extends d'') : d.Extends d'' := by
  refine ⟨fun slot hs => ?_, fun e he hno slot hslot => ?_⟩
  · rw [h'.keeps slot (by rw [h.keeps slot hs]; exact hs), h.keeps slot hs]
  · by_cases hmid : e ∈ d'.sq
    · have hget := h.pushed e hmid hno slot hslot
      exact (h'.keeps slot (by rw [hget]; rfl)).trans hget
    · exact h'.pushed e he hmid slot hslot

theorem Owned.congr (h : d.Owned rest) (hb : d'.buffers = d.buffers) (hq : d'.sq = d.sq) :
    d'.Owned rest := by
  obtain ⟨h1, h2⟩ := h
  unfold tags at h1 h2
  exact ⟨by unfold tags; rw [hb, hq]; exact h1, by unfold tags; rw [hq]; exact h2⟩

theorem Owned.perm {rest' : List UInt64} (h : d.Owned rest) (hp : rest.Perm rest') : d.Owned rest' :=
  ⟨h.owns.perm ((hp.append_left _).filterMap _),
    fun t ht => h.slotted t ((hp.append_left _).mem_iff.mpr ht)⟩

theorem Owned.op {u : UserData} (h : d.Owned rest) (hu : u.opType ≠ .bulkInWrite)
    (hs : d.submitOp u = .ok d') : d'.Owned rest ∧ d.Extends d' := by
  obtain ⟨-, rfl⟩ := push_ok hs
  refine ⟨⟨?_, fun t ht x hx => ?_⟩, ⟨fun _ _ => rfl, fun e he hno slot hslot => ?_⟩⟩
  · have := h.owns
    simpa [tags, List.filterMap_append, writeSlot_op hu] using this
  rotate_left
  · rcases List.mem_append.mp he with he | he
    · exact absurd he hno
    · rw [List.mem_singleton.mp he, writeSlot_op hu] at hslot
      cases hslot
  · simp only [tags, List.map_append, List.map_cons, List.map_nil, List.append_assoc,
      List.mem_append, List.mem_cons, List.not_mem_nil, or_false] at ht
    rcases ht with ht | rfl | ht
    · exact h.slotted t (List.mem_append_left _ ht) x hx
    · rw [UserData.tryFrom_toU64] at hx
      cases hx
      exact absurd rfl hu
    · exact h.slotted t (List.mem_append_right _ ht) x hx

theorem Owned.write {bytes : Bytes} {link : Bool} (h : d.Owned rest)
    (hs : d.submitWrite bytes link = .ok d') : d'.Owned rest ∧ d.Extends d' := by
  obtain ⟨slot, buffers, ha, rfl⟩ := submitWrite_ok hs
  obtain ⟨-, -, hfree, -⟩ := BufferManager.alloc_ok ha
  obtain ⟨hself, hframe⟩ := BufferManager.alloc_extend ha bytes
  have hne : ∀ s, (d.buffers.get s).isSome → s ≠ slot.1 := fun s hs e => by
    rw [e, hfree] at hs
    cases hs
  refine ⟨⟨?_, fun t ht x hx => ?_⟩, ⟨fun s hs => hframe s (hne s hs), fun e he hno s hslot => ?_⟩⟩
  · refine (h.owns.fill hfree hself hframe).perm ?_
    simp only [tags, List.map_append, List.map_cons, List.map_nil, List.filterMap_append,
      List.filterMap_cons, writeSlot_write, List.append_assoc, List.singleton_append]
    exact List.perm_middle.symm
  rotate_left
  · rcases List.mem_append.mp he with he | he
    · exact absurd he hno
    · rw [List.mem_singleton.mp he, writeSlot_write] at hslot
      cases hslot
      rw [List.mem_singleton.mp he]
      exact hself
  · simp only [tags, List.map_append, List.map_cons, List.map_nil, List.append_assoc,
      List.mem_append, List.mem_cons, List.not_mem_nil, or_false] at ht
    rcases ht with ht | rfl | ht
    · exact h.slotted t (List.mem_append_left _ ht) x hx
    · rw [UserData.tryFrom_toU64] at hx
      cases hx
      rfl
    · exact h.slotted t (List.mem_append_right _ ht) x hx

theorem Owned.emit {o : Out} (h : d.Owned rest) (ho : ∀ u, o = .op u → u.opType ≠ .bulkInWrite)
    (hs : d.emit o = .ok d') : d'.Owned rest ∧ d.Extends d' := by
  cases emitted_of_ok hs with
  | op u _ => exact h.op (ho u rfl) hs
  | bare h1 =>
    obtain ⟨ho1, hk1⟩ := h.write h1
    exact ⟨ho1.congr rfl rfl, hk1.trans (.of_same rfl rfl)⟩
  | full _ h1 h2 =>
    obtain ⟨ho1, hk1⟩ := h.write h1
    obtain ⟨ho2, hk2⟩ := ho1.write h2
    exact ⟨ho2.congr rfl rfl, (hk1.trans hk2).trans (.of_same rfl rfl)⟩

theorem Owned.submits (h : d.Owned rest) (hs : Submits d d') : d'.Owned rest ∧ d.Extends d' := by
  obtain ⟨m, v, os, outs, hr, he⟩ := hs
  have h0 : (d.reset m v os).Owned rest := h.congr rfl rfl
  have hk0 : d.Extends (d.reset m v os) := .of_same rfl rfl
  generalize d.reset m v os = d0 at h0 hk0 he
  induction outs generalizing d0 with
  | nil =>
    cases he
    exact ⟨h0, hk0⟩
  | cons o outs ih =>
    obtain ⟨d1, h1, h2⟩ := bind_eq_ok.mp he
    have ho : ∀ u, o = .op u → u.opType ≠ .bulkInWrite := by
      rintro u rfl
      rcases hr u List.mem_cons_self with e | e
      · rw [e]
        decide
      · rw [e]
        decide
    obtain ⟨ho1, hk1⟩ := h0.emit ho h1
    exact ih (fun u hu => hr u (List.mem_cons_of_mem _ hu)) d1 ho1 (hk0.trans hk1) h2

theorem Owned.drop {t : UInt64} (h : d.Owned (t :: rest)) (ht : writeSlot t = none) :
    d.Owned rest := by
  refine ⟨?_, fun t' ht' => h.slotted t' ?_⟩
  · have := h.owns
    simpa [List.filterMap_append, ht] using this
  · rw [List.mem_append, List.mem_cons] at *
    exact ht'.imp_right .inr

theorem Owned.release {t : UInt64} {slot : UInt32} {buffers : BufferManager}
    (h : d.Owned (t :: rest)) (ht : writeSlot t = some slot) (hf : d.buffers.free slot = .ok buffers) :
    { d with buffers }.Owned rest := by
  obtain ⟨-, hnone, hframe⟩ := BufferManager.free_ok hf
  have howns : Owns d.buffers.get (slot :: (d.tags ++ rest).filterMap writeSlot) := by
    refine h.owns.perm ?_
    simp only [List.filterMap_append, List.filterMap_cons, ht]
    exact List.perm_middle
  refine ⟨howns.empty hnone hframe, fun t' ht' => h.slotted t' ?_⟩
  rw [List.mem_append, List.mem_cons]
  exact (List.mem_append.mp ht').imp_right .inr

end Dev

/-! ## Steps -/

namespace Sys

variable {s s' : Sys}

def Owned (s : Sys) : Prop := s.dev.Owned s.rest

theorem Owned.start (info : DeviceInfo) (os : Os) : (Sys.start info os).Owned := by
  have htags : (Sys.start info os).dev.tags ++ (Sys.start info os).rest =
      [(UserData.mk .ep0Poll none).toU64, (UserData.mk .bulkOutReadHeader none).toU64] := rfl
  have hnone : ∀ t ∈ (Sys.start info os).dev.tags ++ (Sys.start info os).rest,
      ∀ x, UserData.tryFrom t ≠ some ⟨.bulkInWrite, x⟩ := by
    rw [htags]
    simp
  have hempty : ∀ slot, (Sys.start info os).dev.buffers.get slot = none := by
    intro slot
    show BufferManager.new.get slot = none
    unfold BufferManager.get BufferManager.new
    split
    · rfl
    · simp only [List.getElem?_replicate]
      split <;> rfl
  refine ⟨⟨fun slot => ?_, ?_⟩, fun t ht x hx => absurd hx (hnone t ht x)⟩
  · rw [hempty, List.filterMap_eq_nil_iff.mpr fun t ht => writeSlot_none (hnone t ht)]
    simp
  · rw [List.filterMap_eq_nil_iff.mpr fun t ht => writeSlot_none (hnone t ht)]
    exact List.nodup_nil

theorem Owned.submit (h : s.Owned) (hs : s.step .submit = .ok s') :
    s'.Owned ∧ s.dev.Extends s'.dev := by
  simp only [step] at hs
  split at hs
  swap
  · cases hs
  cases hs
  refine ⟨⟨h.owns.perm (List.Perm.filterMap _ ?_), fun t ht => h.slotted t ?_⟩,
    ⟨fun _ _ => rfl, List.forall_mem_nil _⟩⟩
  · simp only [Dev.tags, rest, List.map_append, List.map_nil, List.nil_append, List.append_assoc]
    exact List.perm_append_comm_assoc _ _ _
  · simp only [Dev.tags, rest, List.map_append, List.map_nil, List.nil_append, List.mem_append] at *
    tauto

theorem Owned.reap (h : s.Owned) (hs : s.step .reap = .ok s') : s'.Owned ∧ s.dev.Extends s'.dev := by
  simp only [step] at hs
  split at hs
  · rename_i hc
    cases hs
    refine ⟨?_, .of_same rfl rfl⟩
    unfold Owned at h ⊢
    simpa only [rest, hc.1, List.map_nil, List.append_nil] using h
  · cases hs

theorem Owned.complete {k : Nat} {outcome : Outcome} (h : s.Owned)
    (hs : s.step (.complete k outcome) = .ok s') : s'.Owned := by
  obtain ⟨e, u, he, -, -, rfl⟩ := complete_ok hs
  obtain ⟨hq, hb⟩ := s.fill_pool u outcome
  obtain ⟨-, -, h3⟩ := s.fill_queues u outcome
  have h' := Dev.Owned.perm h (rest_complete he outcome.res).symm
  unfold Owned
  simp only [rest, h3] at h' ⊢
  refine ⟨⟨fun slot => ?_, ?_⟩, ?_⟩
  · rw [hb slot]
    simpa only [Dev.tags, hq] using h'.owns.filled slot
  · simpa only [Dev.tags, hq] using h'.owns.nodup
  · simpa only [Dev.tags, hq] using h'.slotted

/-- A completion overwrites no slot if the streams of the reads are open. -/
theorem Kept.complete_buffers {k : Nat} {outcome : Outcome} (h : s.Kept)
    (hs : s.step (.complete k outcome) = .ok s') :
    s'.dev.buffers = s.dev.buffers ∧ s'.dev.sq = s.dev.sq := by
  obtain ⟨e, u, he, hu, hfit, rfl⟩ := complete_ok hs
  refine ⟨?_, (s.fill_pool u outcome).1⟩
  show (s.fill u outcome).dev.buffers = s.dev.buffers
  cases outcome with
  | count n => rfl
  | error n => rfl
  | data bytes place =>
    obtain ⟨op, x⟩ := u
    by_cases hop : op = .ptyRead ∨ op = .socketRead
    swap
    · cases op with
      | ptyRead => exact absurd (.inl rfl) hop
      | socketRead => exact absurd (.inr rfl) hop
      | bulkOutReadHeader => rfl
      | bulkOutReadPayload => rfl
      | bulkInWrite => cases hfit
      | ep0Poll => cases hfit
    cases x with
    | none => rcases hop with rfl | rfl <;> rfl
    | some j =>
      have hr : s.Reading j.1 := .of_inflight hop he hu
      obtain ⟨st, hst⟩ := Option.isSome_iff_exists.mp (h j.1 hr)
      rw [fill_read hop]
      generalize hd : s.dev.fill op j.1 bytes place = d'
      cases fills hd with
      | stream hf hst' => rfl
      | slot hf hp hj => cases hj.symm.trans hst
      | nothing hf => rfl

theorem Owned.tail {c : Cqe} {tail : List Cqe} (h : s.Owned) (hb : s.batch = c :: tail) :
    s.dev.Owned (c.userData :: { s with batch := tail }.rest) :=
  Dev.Owned.perm h (rest_handle hb)

theorem Owned.pushed {d d' : Dev} {rest : List UInt64} {op : UserDataOpType}
    (h : d.Owned rest ∧ s.dev.Extends d) (hop : op ≠ .bulkInWrite)
    (hs : d.submitOp ⟨op, none⟩ = .ok d') : d'.Owned rest ∧ s.dev.Extends d' := by
  obtain ⟨h1, h2⟩ := h.1.op hop hs
  exact ⟨h1, h.2.trans h2⟩

theorem Owned.handle_other {env : Env} {c : Cqe} {tail : List Cqe} (h : s.Owned)
    (hb : s.batch = c :: tail) (ht : ∀ x, UserData.tryFrom c.userData ≠ some ⟨.bulkInWrite, x⟩)
    (hs : Handles env { s with batch := tail } c s') : s'.Owned ∧ s.dev.Extends s'.dev := by
  have h0 := (h.tail hb).drop (writeSlot_none ht)
  have hlog : ∀ t, (s.dev.log t).Owned { s with batch := tail }.rest ∧
      s.dev.Extends (s.dev.log t) := fun t => ⟨h0.congr rfl rfl, .of_same rfl rfl⟩
  have hheard : ∀ t t', ((s.dev.log t).log t').Owned { s with batch := tail }.rest ∧
      s.dev.Extends ((s.dev.log t).log t') := fun t t' => ⟨h0.congr rfl rfl, .of_same rfl rfl⟩
  have hsub : ∀ {d d' : Dev}, d.Owned { s with batch := tail }.rest ∧ s.dev.Extends d →
      Dev.Submits d d' → d'.Owned { s with batch := tail }.rest ∧ s.dev.Extends d' := by
    intro d d' hd hs
    obtain ⟨h1, h2⟩ := hd.1.submits hs
    exact ⟨h1, hd.2.trans h2⟩
  cases hs with
  | unknown _ => exact ⟨h0, .refl _⟩
  | read hop ht hd =>
    rw [Dev.readDone_eq] at hd
    exact h0.submits (.of_effect (fun st e he => onRead_on he) hd)
  | write ht' hd => exact absurd ht' (ht _)
  | poll ht hd => exact Owned.pushed ⟨h0, .refl _⟩ (by decide) hd
  | rejected ht hx hp hd => exact Owned.pushed (hlog _) (by decide) hd
  | pending ht hx hp hl hd => exact Owned.pushed (hlog _) (by decide) hd
  | bare ht hx hp hl hc hd =>
    exact Owned.pushed (hsub (hheard _ _) (.handleCommand hc)) (by decide) hd
  | orphan ht hx hp hd => exact Owned.pushed (hlog _) (by decide) hd
  | dropped ht hx hp hbad hd => exact Owned.pushed (hlog _) (by decide) hd
  | loaded ht hx hp hbad hc hd =>
    exact Owned.pushed (hsub (hheard _ _) (.handleCommand hc)) (by decide) hd

/-- What a step does to the bytes: a slot that is still held after it keeps its own, and
a write pushed finds its own in its slot. -/
structure Holding (s s' : Sys) : Prop where
  keeps : ∀ slot ∈ s.writes, slot ∈ s'.writes → s'.dev.buffers.get slot = s.dev.buffers.get slot
  pushed : ∀ e ∈ s'.dev.sq, e ∉ s.dev.sq → ∀ slot, writeSlot e.userData = some slot →
    s'.dev.buffers.get slot = some e.bytes

theorem Owned.holding (h : s.Owned) (hx : s.dev.Extends s'.dev) : s.Holding s' :=
  ⟨fun slot hm _ => hx.keeps slot ((h.owns.filled slot).mpr hm), hx.pushed⟩

/-- **A step keeps the ownership**, and the bytes unless a late read strikes. -/
theorem Owned.step {e : Event} (h : s.Owned) (hs : s.step e = .ok s') :
    s'.Owned ∧ (s.Kept → s.Holding s') := by
  have hkeep : s'.Owned ∧ s.dev.Extends s'.dev → s'.Owned ∧ (s.Kept → s.Holding s') :=
    fun hk => ⟨hk.1, fun _ => h.holding hk.2⟩
  cases e with
  | submit => exact hkeep (h.submit hs)
  | reap => exact hkeep (h.reap hs)
  | complete k outcome =>
    refine ⟨h.complete hs, fun hkept => ?_⟩
    obtain ⟨hb, hq⟩ := hkept.complete_buffers hs
    exact h.holding (.of_same hb hq)
  | handle env =>
    obtain ⟨c, tail, hb, hh⟩ := Sys.handle_ok hs
    by_cases ht : ∃ x, UserData.tryFrom c.userData = some ⟨.bulkInWrite, x⟩
    swap
    · exact hkeep (h.handle_other hb (not_exists.mp ht) hh)
    obtain ⟨x, ht⟩ := ht
    obtain ⟨slot, buffers, rfl, hd, rfl⟩ := hh.of_write ht
    have hslot : writeSlot c.userData = some slot.1 := by simp [writeSlot, ht]
    have ho := (h.tail hb).release hslot hd
    refine ⟨ho, fun _ => ⟨fun s1 _ hm => ?_, fun e he hno => absurd he hno⟩⟩
    obtain ⟨-, hnone, hframe⟩ := BufferManager.free_ok hd
    refine hframe s1 fun heq => ?_
    have := (ho.owns.filled s1).mpr hm
    rw [heq] at this
    exact absurd this (by rw [hnone]; simp)

theorem owned_of_reach {info : DeviceInfo} {os : Os} {Ok : Sys → Event → Prop}
    (h : Reach Sys.step Ok (Sys.start info os) s) : s.Owned :=
  h.invariant (Owned.start info os) fun _ _ _ hi _ hs => (hi.step hs).1

/-- A write the kernel has not completed holds the bytes it was pushed with. -/
def Held (s : Sys) : Prop :=
  ∀ e ∈ s.dev.sq ++ s.inflight, ∀ slot, writeSlot e.userData = some slot →
    s.dev.buffers.get slot = some e.bytes

/-- What is queued or in flight after a step was so before, or is pushed by it. -/
theorem step_entries {e : Event} (hs : s.step e = .ok s') :
    ∀ x ∈ s'.dev.sq ++ s'.inflight, x ∈ s.dev.sq ++ s.inflight ∨ x ∈ s'.dev.sq ∧ x ∉ s.dev.sq := by
  intro x hx
  by_cases hold : x ∈ s.dev.sq ++ s.inflight
  · exact .inl hold
  have hq : x ∉ s.dev.sq := fun h => hold (List.mem_append_left _ h)
  refine .inr ⟨?_, hq⟩
  have hfly : x ∉ s.inflight := fun h => hold (List.mem_append_right _ h)
  rcases List.mem_append.mp hx with hx | hx
  · exact hx
  exfalso
  cases e with
  | submit =>
    obtain ⟨-, rfl⟩ := Sys.submit_ok hs
    rcases List.mem_append.mp hx with h | h
    · exact hfly h
    · exact hq h
  | reap =>
    obtain ⟨-, -, -, rfl⟩ := Sys.reap_ok hs
    exact hfly hx
  | complete k outcome =>
    obtain ⟨e, u, -, -, -, rfl⟩ := complete_ok hs
    exact hfly (List.mem_of_mem_eraseIdx hx)
  | handle env =>
    obtain ⟨-, -, -, hsame⟩ := handle_queues hs
    exact hfly (hsame ▸ hx)

theorem Held.start (info : DeviceInfo) (os : Os) : (Sys.start info os).Held := by
  intro e he slot hs
  rcases List.mem_cons.mp he with rfl | he
  · cases hs
  · rw [List.mem_singleton.mp he] at hs
    cases hs

theorem Held.step {e : Event} (h : s.Held) (ho : s.Owned) (hkept : s.Kept) (hs : s.step e = .ok s') :
    s'.Held := by
  obtain ⟨-, hbytes⟩ := ho.step hs
  have hslots : ∀ (t : Sys), ∀ x ∈ t.dev.sq ++ t.inflight, ∀ slot, writeSlot x.userData = some slot →
      slot ∈ t.writes := by
    intro t x hx slot hslot
    refine List.mem_filterMap.mpr ⟨x.userData, ?_, hslot⟩
    rcases List.mem_append.mp hx with hx | hx
    · exact List.mem_append_left _ (List.mem_map_of_mem hx)
    · exact List.mem_append_right _
        (List.mem_append_left _ (List.mem_append_left _ (List.mem_map_of_mem hx)))
  intro x hx slot hslot
  rcases step_entries hs x hx with hold | ⟨hq, hno⟩
  · rw [(hbytes hkept).keeps slot (hslots s x hold slot hslot) (hslots s' x hx slot hslot)]
    exact h x hold slot hslot
  · exact (hbytes hkept).pushed x hq hno slot hslot

/-- What holds along a run that drops no stream under a read. -/
structure Intact (s : Sys) : Prop where
  own : s.OwnReads
  kept : s.Kept
  owned : s.Owned
  held : s.Held

theorem Intact.start (info : DeviceInfo) (os : Os) : (Sys.start info os).Intact :=
  ⟨.start info os, .start info os, .start info os, .start info os⟩

theorem Intact.step {e : Event} (h : s.Intact) (hok : KeepsReads s e) (hs : s.step e = .ok s') :
    s'.Intact :=
  ⟨h.own.step hs, h.kept.step h.own hok hs, (h.owned.step hs).1, h.held.step h.owned h.kept hs⟩

theorem Owned.slot_of_batch (ho : s.Owned) {c : Cqe} (hc : c ∈ s.batch) {x : Option NonZeroU32}
    (hx : UserData.tryFrom c.userData = some ⟨.bulkInWrite, x⟩) :
    ∃ slot : NonZeroU32, x = some slot ∧ slot.1.toNat ≤ maxBufferSlots ∧
      (s.dev.buffers.get slot.1).isSome := by
  have hmem : c.userData ∈ s.outstanding := mem_outstanding hc
  obtain ⟨slot, rfl⟩ := Option.isSome_iff_exists.mp (ho.slotted _ hmem x hx)
  have hget : (s.dev.buffers.get slot.1).isSome :=
    (ho.owns.filled _).mpr (List.mem_filterMap.mpr ⟨_, hmem, by simp [writeSlot, hx]⟩)
  obtain ⟨bytes, hb⟩ := Option.isSome_iff_exists.mp hget
  exact ⟨slot, rfl, (BufferManager.range_of_get hb).2, hget⟩

end Sys

/-! ## Ownership -/

/-- **Write slots are owned by the writes in flight.** In every reachable state
the occupied slots are those of the outstanding writes, each named once; only occupied
slots of the pool are freed; and when no write is outstanding the pool is as new. In
every run that drops no stream under a read, a slot keeps its bytes as long as its
write is outstanding, and they are the bytes the write was pushed with. -/
theorem slots_owned {info : DeviceInfo} {os : Os} {s : Sys} {Ok : Sys → Event → Prop}
    (h : Reach Sys.step Ok (Sys.start info os) s) :
    (∀ slot, (s.dev.buffers.get slot).isSome ↔ slot ∈ s.writes) ∧ s.writes.Nodup ∧
    (∀ c ∈ s.batch, ∀ x, UserData.tryFrom c.userData = some ⟨.bulkInWrite, x⟩ →
      ∃ slot : NonZeroU32, x = some slot ∧ slot.1.toNat ≤ maxBufferSlots ∧
        (s.dev.buffers.get slot.1).isSome) ∧
    (s.writes = [] → s.dev.buffers = .new) ∧
    ((∀ s e, Ok s e → KeepsReads s e) →
      (∀ e s', s.step e = .ok s' → ∀ slot ∈ s.writes, slot ∈ s'.writes →
        s'.dev.buffers.get slot = s.dev.buffers.get slot) ∧
      ∀ e ∈ s.dev.sq ++ s.inflight, ∀ slot, writeSlot e.userData = some slot →
        s.dev.buffers.get slot = some e.bytes) := by
  have ho := Sys.owned_of_reach h
  refine ⟨ho.owns.filled, ho.owns.nodup, fun c hc x hx => ho.slot_of_batch hc hx, fun hw => ?_,
    fun hok => ?_⟩
  swap
  · have hrun : s.Intact := h.invariant (I := Sys.Intact) (.start info os)
      fun t e u hi ht hs => hi.step (hok t e ht) hs
    exact ⟨fun e s' hs => ((ho.step hs).2 hrun.kept).keeps, hrun.held⟩
  refine BufferManager.eq_new fun slot => ?_
  have hiff : (s.dev.buffers.get slot).isSome ↔ slot ∈ s.writes := ho.owns.filled slot
  rw [hw] at hiff
  simpa using hiff

/-- The OKAY for a new stream is in flight. -/
theorem slots_owned_open : ∃ s, Reach Sys.step KeepsReads Sys.fresh s ∧ s.writes = [1] ∧
    (s.dev.buffers.get 1).isSome ∧ s.writes.Nodup ∧
    ∀ e ∈ s.dev.sq ++ s.inflight, ∀ slot, writeSlot e.userData = some slot →
      s.dev.buffers.get slot = some e.bytes := by
  have hplay : (Sys.fresh.play keepsReads Sys.openShell).map Sys.writes = some [1] := by
    decide +kernel
  obtain ⟨s, hs, hw⟩ := Option.map_eq_some_iff.mp hplay
  have hreach : Reach Sys.step KeepsReads Sys.fresh s :=
    Sys.reach_of_play (fun _ _ => KeepsReads.of_keepsReads) hs
  obtain ⟨hfilled, hnodup, -, -, hbytes⟩ := slots_owned hreach
  exact ⟨s, hreach, hw, (hfilled 1).mpr (by rw [hw]; exact List.mem_singleton_self 1), hnodup,
    (hbytes fun _ _ => id).2⟩

/-- A shell is closed under its read; another one's read brings 4096 bytes, which go to
the host. -/
def Sys.closedAndRelayed : List Sys.Turn :=
  Sys.openShell ++ Sys.Turn.message .clse 7 1 [] ++
    Sys.Turn.message .open 8 0 (ascii "shell:" ++ [0]) ++
    [⟨readTag .ptyRead 2, .data (List.replicate 4096 97), {}⟩]

/-- The read of the closed shell completes, into the memory of slot 5. -/
def Sys.lateIntoSlot (s : Sys) : Event :=
  .complete (s.inflight.findIdx (·.userData == readTag .ptyRead 1))
    (.data (ascii "XYZ") (some (.slot 5)))

/-- The payload of a WRTE in flight changes under the write. -/
theorem late_read_in_slot : ∃ s s', Reach Sys.step (fun _ _ => True) Sys.fresh s ∧
    s.step s.lateIntoSlot = .ok s' ∧ 5 ∈ s.writes ∧ 5 ∈ s'.writes ∧
    s'.dev.buffers.get 5 ≠ s.dev.buffers.get 5 := by
  have hrun : (Sys.fresh.play (fun _ _ => true) Sys.closedAndRelayed).bind (fun s =>
      (s.step s.lateIntoSlot).toOption.map fun s' => (decide (5 ∈ s.writes), decide (5 ∈ s'.writes),
        (s.dev.buffers.get 5).map (·.take 3), (s'.dev.buffers.get 5).map (·.take 3))) =
      some (true, true, some (ascii "aaa"), some (ascii "XYZ")) := by
    decide +kernel
  obtain ⟨s, hs, hmap⟩ := Option.bind_eq_some_iff.mp hrun
  obtain ⟨s', hs', hres⟩ := Option.map_eq_some_iff.mp hmap
  simp only [Prod.mk.injEq, decide_eq_true_eq] at hres
  obtain ⟨hin, hin', hbefore, hafter⟩ := hres
  refine ⟨s, s', Sys.reach_of_play (fun _ _ _ => trivial) hs, ok_of_toOption hs', hin, hin', ?_⟩
  intro heq
  rw [heq, hbefore] at hafter
  exact absurd hafter (by decide)

end Adibi
