import Adibi.Framing

/-!
# Headers and their payloads

What a dispatched message was made of: the transfer its header was parsed from
and, right after it, the transfer of its payload. One bulk-out read and one poll
of ep0 are outstanding at any time, so a handler reads the buffer while the
kernel does not have it. The lengths of the transfers are not looked at.
-/

namespace Adibi

open Lib

/-! ## Dispatched messages -/

def Traffic.transfer : Traffic → Option Bytes
  | .headerRead data => some data
  | .payloadRead data => some data
  | _ => none

def transfersRead (data : Bytes) : Option Bytes → List Traffic
  | none => [.headerRead data]
  | some payload => [.headerRead data, .payloadRead payload]

/-- Every message was dispatched right after its transfers were read: the one its
header was parsed from, then its payload. The transfers meet `Q`. -/
def Paired (Q : Bytes → AdbHeader → Option Bytes → Prop) (tr : List Traffic) : Prop :=
  ∀ pre h p post, tr = pre ++ .heard h p :: post → ∃ before data t,
    pre = before ++ transfersRead data p ∧ parseHeader data = some (h, t) ∧ Q data h p

section

variable {Q : Bytes → AdbHeader → Option Bytes → Prop} {tr : List Traffic}

theorem Paired.nil : Paired Q [] := by
  intro pre h p post he
  simp at he

theorem snoc_eq {x y : Traffic} {pre post : List Traffic} (h : tr ++ [x] = pre ++ y :: post) :
    (tr = pre ∧ x = y) ∨ ∃ post', tr = pre ++ y :: post' := by
  rcases List.eq_nil_or_concat post with rfl | ⟨post', z, rfl⟩
  · obtain ⟨h1, h2⟩ := List.append_inj' h rfl
    exact .inl ⟨h1, List.singleton_inj.mp h2⟩
  · rw [List.concat_eq_append, ← List.cons_append, ← List.append_assoc] at h
    exact .inr ⟨post', (List.append_inj' h rfl).1⟩

theorem Paired.init {x : Traffic} (h : Paired Q (tr ++ [x])) : Paired Q tr := by
  rintro pre hd p post rfl
  exact h pre hd p (post ++ [x]) (by simp)

theorem paired_read_iff {x : Traffic} (hx : ∀ h p, x ≠ .heard h p) :
    Paired Q (tr ++ [x]) ↔ Paired Q tr := by
  refine ⟨Paired.init, fun h pre hd p post he => ?_⟩
  rcases snoc_eq he with ⟨-, heq⟩ | ⟨post', htr⟩
  · exact absurd heq (hx hd p)
  · exact h pre hd p post' htr

theorem transfersRead_inj {before before' : List Traffic} {data data' : Bytes} {p : Option Bytes}
    (h : before ++ transfersRead data p = before' ++ transfersRead data' p) : data = data' := by
  cases p with
  | none =>
    have he := (List.append_inj' h rfl).2
    simpa [transfersRead] using he
  | some payload =>
    have he := (List.append_inj' h rfl).2
    simpa [transfersRead] using he

theorem paired_heard_iff {before : List Traffic} {data t : Bytes} {h : AdbHeader}
    {p : Option Bytes} (htr : tr = before ++ transfersRead data p)
    (hp : parseHeader data = some (h, t)) :
    Paired Q (tr ++ [.heard h p]) ↔ Paired Q tr ∧ Q data h p := by
  refine ⟨fun hd => ⟨hd.init, ?_⟩, fun ⟨hd, hq⟩ pre h' p' post he => ?_⟩
  · obtain ⟨before', data', t', hpre, -, hq⟩ := hd tr h p [] rfl
    rw [htr] at hpre
    rw [transfersRead_inj hpre]
    exact hq
  · rcases snoc_eq he with ⟨rfl, heq⟩ | ⟨post', htr'⟩
    · cases heq
      exact ⟨before, data, t, htr, hp, hq⟩
    · exact hd pre h' p' post' htr'

end

/-! ## The receiver -/

/-- Every message the receiver dispatches on these transfers meets `Q`; `last` is
the transfer before them. -/
def Meets (Q : Bytes → AdbHeader → Option Bytes → Prop) : Rx → Bytes → List Bytes → Prop
  | _, _, [] => True
  | r, last, data :: later =>
    (match r.pending with
      | none => ∀ h t, parseHeader data = some (h, t) → h.dataLength = 0 → Q data h none
      | some h => checksumOk r.version h data → Q last h (some data)) ∧
    Meets Q (rx.step r data).1 data later

theorem meets_cons {Q : Bytes → AdbHeader → Option Bytes → Prop} {r : Rx} {last data : Bytes}
    {later : List Bytes} : Meets Q r last (data :: later) ↔
    (match r.pending with
      | none => ∀ h t, parseHeader data = some (h, t) → h.dataLength = 0 → Q data h none
      | some h => checksumOk r.version h data → Q last h (some data)) ∧
    Meets Q (rx.step r data).1 data later := Iff.rfl

/-- The transfer before the next one is that of the pending header. -/
def Awaits (r : Rx) (last : Bytes) (tr : List Traffic) : Prop :=
  ∀ h, r.pending = some h → ∃ before t,
    tr = before ++ [.headerRead last] ∧ parseHeader last = some (h, t)

section

variable {Q : Bytes → AdbHeader → Option Bytes → Prop} {r : Rx} {last : Bytes} {tr : List Traffic}

theorem Awaits.between (v : ProtocolVersion) : Awaits ⟨none, v⟩ last tr := fun _ hh => nomatch hh

theorem header_paired (v : ProtocolVersion) (data : Bytes) :
    Awaits (rx.step ⟨none, v⟩ data).1 data (tr ++ (rx.step ⟨none, v⟩ data).2) ∧
      (Paired Q (tr ++ (rx.step ⟨none, v⟩ data).2) ↔ Paired Q tr ∧
        ∀ h t, parseHeader data = some (h, t) → h.dataLength = 0 → Q data h none) := by
  have hread : Paired Q (tr ++ [.headerRead data]) ↔ Paired Q tr :=
    paired_read_iff fun h p he => nomatch he
  cases hp : parseHeader data with
  | none =>
    have hs : rx.step ⟨none, v⟩ data = (⟨none, v⟩, [.headerRead data]) := by simp [rx, hp]
    rw [hs, hread]
    exact ⟨.between v, by simp⟩
  | some x =>
    obtain ⟨h, t⟩ := x
    by_cases hl : h.dataLength > 0
    · have hs : rx.step ⟨none, v⟩ data = (⟨some h, v⟩, [.headerRead data]) := by simp [rx, hp, hl]
      rw [hs, hread]
      refine ⟨fun h' hh => ?_, fun hd => ⟨hd, fun h' t' he hz => ?_⟩, And.left⟩
      · cases hh
        exact ⟨tr, t, rfl, hp⟩
      · cases he
        rw [hz] at hl
        exact absurd hl (by decide)
    · have hz : h.dataLength = 0 := by
        by_contra hne
        have hpos : 0 < h.dataLength.toNat :=
          Nat.pos_of_ne_zero fun e => hne (UInt32.toNat_inj.mp e)
        exact hl (UInt32.lt_iff_toNat_lt.mpr hpos)
      have hs : rx.step ⟨none, v⟩ data =
          (⟨none, versionAfter v h none⟩, [.headerRead data] ++ [.heard h none]) := by
        simp [rx, hp, hl]
      have hd : Paired Q (tr ++ [.headerRead data] ++ [.heard h none]) ↔
          Paired Q (tr ++ [.headerRead data]) ∧ Q data h none := paired_heard_iff rfl hp
      rw [hs, ← List.append_assoc, hd, hread]
      refine ⟨.between _, and_congr_right fun _ => ⟨fun hq h' t' he _ => ?_, fun hq => hq h t rfl hz⟩⟩
      cases he
      exact hq

theorem payload_paired {h : AdbHeader} {t : Bytes} (hp : parseHeader last = some (h, t))
    (before : List Traffic) (v : ProtocolVersion) (data : Bytes) :
    (rx.step ⟨some h, v⟩ data).1.pending = none ∧
      (Paired Q (before ++ [.headerRead last] ++ (rx.step ⟨some h, v⟩ data).2) ↔
        Paired Q (before ++ [.headerRead last]) ∧
          (checksumOk v h data → Q last h (some data))) := by
  have hread : Paired Q (before ++ [.headerRead last] ++ [.payloadRead data]) ↔
      Paired Q (before ++ [.headerRead last]) := paired_read_iff fun h p he => nomatch he
  cases hc : checksumOk v h data with
  | false =>
    have hs : rx.step ⟨some h, v⟩ data = (⟨none, v⟩, [.payloadRead data]) := by simp [rx, hc]
    rw [hs, hread]
    simp
  | true =>
    have hs : rx.step ⟨some h, v⟩ data = (⟨none, versionAfter v h (some data)⟩,
        [.payloadRead data] ++ [.heard h (some data)]) := by
      simp [rx, hc]
    have hend : before ++ [.headerRead last] ++ [.payloadRead data] =
        before ++ transfersRead last (some data) := List.append_assoc ..
    rw [hs, ← List.append_assoc, paired_heard_iff hend hp, hread]
    simp

theorem step_paired (ha : Awaits r last tr) (data : Bytes) :
    Awaits (rx.step r data).1 data (tr ++ (rx.step r data).2) ∧
      (Paired Q (tr ++ (rx.step r data).2) ↔ Paired Q tr ∧
        match r.pending with
        | none => ∀ h t, parseHeader data = some (h, t) → h.dataLength = 0 → Q data h none
        | some h => checksumOk r.version h data → Q last h (some data)) := by
  obtain ⟨pending, v⟩ := r
  cases pending with
  | none => exact header_paired v data
  | some h =>
    obtain ⟨before, t, rfl, hp⟩ := ha h rfl
    have hd := payload_paired (Q := Q) hp before v data
    refine ⟨fun h' hh => ?_, hd.2⟩
    rw [hd.1] at hh
    cases hh

/-- **What is dispatched meets `Q` exactly when the transfers do.** -/
theorem run_paired_iff (ha : Awaits r last tr) (later : List Bytes) :
    Paired Q (tr ++ (rx.run r later).2) ↔ Paired Q tr ∧ Meets Q r last later := by
  induction later generalizing r last tr with
  | nil => simp [Meets]
  | cons data later ih =>
    obtain ⟨ha', hd⟩ := step_paired (Q := Q) ha data
    rw [Mealy.run_cons, ← List.append_assoc, ih ha', hd, and_assoc]
    rfl

theorem Meets.of_append {later more : List Bytes} (h : Meets Q r last (later ++ more)) :
    Meets Q r last later := by
  induction later generalizing r last with
  | nil => trivial
  | cons data later ih => exact ⟨h.1, ih h.2⟩

theorem meets_true (r : Rx) (last : Bytes) (later : List Bytes) :
    Meets (fun _ _ _ => True) r last later := by
  induction later generalizing r last with
  | nil => trivial
  | cons data later ih =>
    refine ⟨?_, ih _ _⟩
    split
    · exact fun _ _ _ _ => trivial
    · exact fun _ => trivial

theorem step_transfer (r : Rx) (data : Bytes) :
    (rx.step r data).2.filterMap Traffic.transfer = [data] := by
  unfold rx
  simp only
  split
  · split
    · rfl
    · split <;> rfl
  · split <;> rfl

theorem run_transfer (r : Rx) (later : List Bytes) :
    (rx.run r later).2.filterMap Traffic.transfer = later := by
  induction later generalizing r with
  | nil => rfl
  | cons data later ih => rw [Mealy.run_cons, List.filterMap_append, step_transfer, ih]; rfl

end

/-! ## Bulk-out reads and polls of ep0 -/

/-- Whether a tag is a poll of ep0. -/
def isPoll (tag : UInt64) : Bool :=
  match UserData.tryFrom tag with
  | some ⟨.ep0Poll, _⟩ => true
  | _ => false

theorem isPoll_op {u : UserData} (h : u.opType ≠ .ep0Poll) : isPoll u.toU64 = false := by
  unfold isPoll
  rw [UserData.tryFrom_toU64]
  split
  · rename_i he
    cases he
    exact absurd rfl h
  · rfl

theorem isPoll_poll : isPoll (UserData.mk .ep0Poll none).toU64 = true := by
  simp [isPoll]

theorem Dev.Grows.polls {d d' : Dev} (h : d.Grows d') :
    d'.tags.countP isPoll = d.tags.countP isPoll := by
  obtain ⟨us, hu, hus⟩ := h
  have hnone : (us.map UserData.toU64).countP isPoll = 0 := by
    refine List.countP_eq_zero.mpr fun t ht => ?_
    obtain ⟨u, hm, rfl⟩ := List.mem_map.mp ht
    rw [isPoll_op (by rcases hus u hm with e | e | e <;> rw [e] <;> decide)]
    exact Bool.false_ne_true
  rw [hu, List.countP_append, hnone, Nat.add_zero]

/-- What the loop queues for a completion: a poll for a poll, and for a bulk-out
read, after what its handler submits, a bulk-out read. -/
inductive Resubmits (c : Cqe) (d d' : Dev) : Prop where
  | other (hb : bulkKind c.userData = none) (hp : isPoll c.userData = false) (hg : d.Grows d')
  | poll (hb : bulkKind c.userData = none) (hp : isPoll c.userData = true)
      (ht : d'.tags = d.tags ++ [(UserData.mk .ep0Poll none).toU64])
  | bulk {op : UserDataOpType} {d1 : Dev} (hb : (bulkKind c.userData).isSome)
      (hp : isPoll c.userData = false) (hop : op = .bulkOutReadHeader ∨ op = .bulkOutReadPayload)
      (hg : d.Grows d1) (ht : d'.tags = d1.tags ++ [(UserData.mk op none).toU64])

namespace Sys

variable {s s' : Sys} {c : Cqe} {tail : List Cqe}

theorem Handles.resubmits {env : Env} (h : Handles env s c s') :
    Resubmits c s.dev s'.dev ∧ s'.rest = s.rest := by
  have hkind : ∀ {op : UserDataOpType} {x : Option NonZeroU32},
      UserData.tryFrom c.userData = some ⟨op, x⟩ → op ≠ .bulkOutReadHeader →
      op ≠ .bulkOutReadPayload → bulkKind c.userData = none := by
    intro op x ht h1 h2
    rw [← UserData.toU64_of_tryFrom ht]
    exact bulkKind_op h1 h2
  have hpoll : ∀ {op : UserDataOpType} {x : Option NonZeroU32},
      UserData.tryFrom c.userData = some ⟨op, x⟩ → op ≠ .ep0Poll → isPoll c.userData = false := by
    intro op x ht h1
    rw [← UserData.toU64_of_tryFrom ht]
    exact isPoll_op h1
  have hheader : ∀ {x : Option NonZeroU32} {d1 d' : Dev} {op : UserDataOpType},
      UserData.tryFrom c.userData = some ⟨.bulkOutReadHeader, x⟩ → s.dev.Grows d1 →
      op = .bulkOutReadHeader ∨ op = .bulkOutReadPayload → d1.submitBulkOutRead op = .ok d' →
      Resubmits c s.dev d' := fun ht hg hop hd =>
    .bulk (by simp [bulkKind, ht]) (hpoll ht (by decide)) hop hg (Dev.bulkRead_tags hd)
  have hpayload : ∀ {x : Option NonZeroU32} {d1 d' : Dev},
      UserData.tryFrom c.userData = some ⟨.bulkOutReadPayload, x⟩ → s.dev.Grows d1 →
      d1.submitBulkOutRead .bulkOutReadHeader = .ok d' → Resubmits c s.dev d' := fun ht hg hd =>
    .bulk (by simp [bulkKind, ht]) (hpoll ht (by decide)) (.inl rfl) hg (Dev.bulkRead_tags hd)
  have hlog : ∀ t, s.dev.Grows (s.dev.log t) := fun t => Dev.Grows.refl s.dev
  have hcmd : ∀ {t : Traffic} {e : Env} {h : AdbHeader} {p : Option Bytes} {d : Dev},
      (s.dev.log t).handleCommand e h p = .ok d → s.dev.Grows d := fun {t e h p d} hc =>
    have h1 : (s.dev.log t).Grows ((s.dev.log t).log (.heard h p)) := Dev.Grows.refl _
    (hlog t).trans (h1.trans (Dev.Submits.handleCommand hc).grows)
  cases h with
  | unknown ht => exact ⟨.other (by simp [bulkKind, ht]) (by simp [isPoll, ht]) (.refl _), rfl⟩
  | read hop ht hd =>
    rw [Dev.readDone_eq] at hd
    have hg := (Dev.Submits.of_effect (fun st e he => onRead_on he) hd).grows
    refine ⟨.other (hkind ht ?_ ?_) (hpoll ht ?_) hg, rfl⟩
    · rcases hop with rfl | rfl <;> decide
    · rcases hop with rfl | rfl <;> decide
    · rcases hop with rfl | rfl <;> decide
  | write ht hd =>
    exact ⟨.other (hkind ht (by decide) (by decide)) (hpoll ht (by decide)) (.refl _), rfl⟩
  | poll ht hd =>
    exact ⟨.poll (hkind ht (by decide) (by decide)) (by simp [isPoll, ht]) (Dev.bulkRead_tags hd), rfl⟩
  | rejected ht hx hp hd => exact ⟨hheader ht (hlog _) (.inl rfl) hd, rfl⟩
  | pending ht hx hp hl hd => exact ⟨hheader ht (hlog _) (.inr rfl) hd, rfl⟩
  | bare ht hx hp hl hc hd => exact ⟨hheader ht (hcmd hc) (.inl rfl) hd, rfl⟩
  | orphan ht hx hp hd => exact ⟨hpayload ht (hlog _) hd, rfl⟩
  | dropped ht hx hp hb hd => exact ⟨hpayload ht (hlog _) hd, rfl⟩
  | loaded ht hx hp hb hc hd => exact ⟨hpayload ht (hcmd hc) hd, rfl⟩

/-- One poll of ep0 is outstanding. -/
def Polled (s : Sys) : Prop := s.outstanding.countP isPoll = 1

theorem Polled.handle {env : Env} (h : s.Polled) (hb : s.batch = c :: tail)
    (hs : Handles env { s with batch := tail } c s') : s'.Polled := by
  obtain ⟨hq, hrest⟩ := hs.resubmits
  have hp := (outstanding_handle hb).countP_eq isPoll
  unfold Polled at h ⊢
  rw [h, List.countP_cons] at hp
  unfold outstanding at hp ⊢
  rw [hrest, List.countP_append]
  rw [List.countP_append] at hp
  cases hq with
  | other _ hpoll hg =>
    rw [hpoll] at hp
    rw [hg.polls]
    simpa using hp.symm
  | poll _ hpoll ht =>
    rw [hpoll] at hp
    rw [ht, List.countP_append, List.countP_singleton, isPoll_poll]
    simp only [if_true] at hp ⊢
    omega
  | @bulk op d1 _ hpoll hop hg ht =>
    have hk : isPoll (UserData.mk op none).toU64 = false :=
      isPoll_op (by rcases hop with rfl | rfl <;> decide)
    rw [hpoll] at hp
    rw [ht, List.countP_append, List.countP_singleton, hk, hg.polls]
    simpa using hp.symm

theorem Polled.step {e : Event} (h : s.Polled) (hs : s.step e = .ok s') : s'.Polled := by
  by_cases he : ∀ env, e ≠ .handle env
  · exact ((outstanding_perm hs he).countP_eq isPoll).trans h
  · obtain ⟨env, rfl⟩ := not_forall_not.mp he
    obtain ⟨c, tail, hb, hh⟩ := Sys.handle_ok hs
    exact h.handle hb hh

theorem polled_of_reach {info : DeviceInfo} {os : Os} {Ok : Sys → Event → Prop}
    (h : Reach Sys.step Ok (Sys.start info os) s) : s.Polled := by
  refine h.invariant ?_ fun _ _ _ hi _ hs => hi.step hs
  have htags : (Sys.start info os).outstanding =
      [(UserData.mk .ep0Poll none).toU64, (UserData.mk .bulkOutReadHeader none).toU64] := rfl
  have hhdr : isPoll (UserData.mk .bulkOutReadHeader none).toU64 = false := isPoll_op (by decide)
  unfold Polled
  rw [htags, List.countP_cons, List.countP_singleton, isPoll_poll, hhdr]
  rfl

/-- While a handler runs for a completed bulk-out read, none is outstanding. -/
theorem handler_holds_buffer {env : Env} {t : Traffic} {h : AdbHeader} {p : Option Bytes} {d : Dev}
    (hbulk : s.outstanding.filterMap bulkKind = [s.pendingHeader.isSome]) (hb : s.batch = c :: tail)
    (hk : (bulkKind c.userData).isSome) (hc : (s.dev.log t).handleCommand env h p = .ok d) :
    ∀ tag ∈ d.tags ++ { s with batch := tail }.rest, bulkKind tag = none := by
  obtain ⟨b, hk⟩ := Option.isSome_iff_exists.mp hk
  obtain ⟨-, hnone⟩ := bulk_handle hbulk hb hk
  have htags : d.tags.filterMap bulkKind = s.dev.tags.filterMap bulkKind :=
    (Dev.Submits.handleCommand hc).grows.bulk
  have hnil : s.dev.tags.filterMap bulkKind = [] :=
    List.filterMap_eq_nil_iff.mpr fun tag ht => hnone tag (List.mem_append_left _ ht)
  intro tag ht
  rcases List.mem_append.mp ht with ht | ht
  · exact List.filterMap_eq_nil_iff.mp (htags.trans hnil) tag ht
  · exact hnone tag (List.mem_append_right _ ht)

end Sys

theorem Sys.paired_iff (Q : Bytes → AdbHeader → Option Bytes → Prop) {info : DeviceInfo} {os : Os}
    {s : Sys} {arrived : List Bytes} (h : Reach (observed Sys.step Sys.arrival) (fun _ _ => True)
      (Sys.start info os, []) (s, arrived)) :
    arrived = s.dev.inbound.filterMap Traffic.transfer ++ s.waiting ∧
      (Paired Q s.dev.inbound ↔
        Meets Q ⟨none, .v0⟩ [] (s.dev.inbound.filterMap Traffic.transfer)) := by
  obtain ⟨handled, harr, -, hin⟩ := (Sys.tracks_of_reach h).run
  have ha : Awaits ⟨none, .v0⟩ [] [] := .between .v0
  rw [List.nil_append] at hin
  refine ⟨by rw [hin, run_transfer, harr], ?_⟩
  have hrun := run_paired_iff (Q := Q) ha handled
  rw [List.nil_append] at hrun
  rw [hin, run_transfer, hrun]
  exact and_iff_right .nil

/-- **The bulk-out buffer changes hands.** In every state of every run one bulk-out
read is outstanding, of a payload exactly when a header is pending, and one poll
of ep0; a completed payload read finds its header. The transfers that arrived are
those read so far and the one that waits, and each dispatched message was parsed
from the transfer before its payload's, with no other between them. No bulk-out
read is queued before the handler returns. -/
theorem bulk_reads_alternate {info : DeviceInfo} {os : Os} {s : Sys} {arrived : List Bytes}
    (h : Reach (observed Sys.step Sys.arrival) (fun _ _ => True) (Sys.start info os, [])
      (s, arrived)) :
    s.outstanding.filterMap bulkKind = [s.pendingHeader.isSome] ∧
    s.outstanding.countP isPoll = 1 ∧
    (∀ c tail, s.batch = c :: tail → bulkKind c.userData = some true → s.pendingHeader ≠ none) ∧
    arrived = s.dev.inbound.filterMap Traffic.transfer ++ s.waiting ∧
    Paired (fun _ _ _ => True) s.dev.inbound ∧
    (∀ c tail, s.batch = c :: tail → (bulkKind c.userData).isSome → ∀ env t hd p d,
      (s.dev.log t).handleCommand env hd p = .ok d →
        ∀ tag ∈ d.tags ++ { s with batch := tail }.rest, bulkKind tag = none) := by
  have hbulk := (Sys.tracks_of_reach h).bulk
  have hreach : Reach Sys.step (fun _ _ => True) (Sys.start info os, ([] : List Bytes)).1
      (s, arrived).1 := Reach.forget h
  obtain ⟨harr, hd⟩ := Sys.paired_iff (fun _ _ _ => True) h
  refine ⟨hbulk, Sys.polled_of_reach hreach, fun c tail hb hk hp => ?_, harr,
    hd.mpr (meets_true _ _ _), fun c tail hb hk env t hd p d hc => ?_⟩
  · have hpend := (Sys.bulk_handle hbulk hb hk).1
    rw [hp] at hpend
    cases hpend
  · exact Sys.handler_holds_buffer hbulk hb hk hc

def wrteOfTwo (n : UInt32) : AdbHeader := ⟨.wrte, 7, 1, 2, n, Command.toU32 .wrte ^^^ 0xffffffff⟩

/-- A header is pending. -/
theorem bulk_reads_alternate_wrte : ∃ s, Reach (observed Sys.step Sys.arrival) (fun _ _ => True)
      (Sys.fresh, []) (s, [(wrteOfTwo 0xc3).asLeBytes]) ∧
    s.outstanding.filterMap bulkKind = [true] ∧ s.outstanding.countP isPoll = 1 ∧
    Paired (fun _ _ _ => True) s.dev.inbound := by
  have hrun : (runGuarded (observed Sys.step Sys.arrival) (fun _ _ => true) (Sys.fresh, [])
      ((twoTransfers (wrteOfTwo 0xc3).asLeBytes []).take 4)).map
        (fun p => (p.1.pendingHeader.isSome, p.2)) = some (true, [(wrteOfTwo 0xc3).asLeBytes]) := by
    decide +kernel
  obtain ⟨⟨s, arrived⟩, hs, he⟩ := Option.map_eq_some_iff.mp hrun
  simp only [Prod.mk.injEq] at he
  obtain ⟨hpend, rfl⟩ := he
  have hreach : Reach (observed Sys.step Sys.arrival) (fun _ _ => True) (Sys.fresh, [])
      (s, [(wrteOfTwo 0xc3).asLeBytes]) := Reach.of_runGuarded (fun _ _ _ => trivial) hs
  obtain ⟨hbulk, hpoll, -, -, hd, -⟩ := bulk_reads_alternate hreach
  exact ⟨s, hreach, by rw [hbulk, hpend], hpoll, hd⟩

/-! ## Lengths -/

/-- The lengths of a message: 24 bytes of header, and the payload it announces. -/
def Fit (data : Bytes) (h : AdbHeader) (p : Option Bytes) : Prop :=
  data.length = 24 ∧ ∀ payload, p = some payload → payload.length = h.dataLength.toNat

/-- The lengths of a host that keeps to the protocol: every header has 24 bytes, and
the transfer after it, where it announces a payload, the bytes it announces. What is
no header is passed over. -/
def Framed : List Bytes → Prop
  | [] => True
  | data :: later =>
    match parseHeader data with
    | none => Framed later
    | some (h, _) =>
      if h.dataLength > 0 then
        match later with
        | [] => True
        | payload :: later =>
          data.length = 24 ∧ payload.length = h.dataLength.toNat ∧ Framed later
      else data.length = 24 ∧ Framed later

/-- The transfer after a header that announces a payload has the sum the header gives. -/
def Summed : List Bytes → Prop
  | [] => True
  | data :: later =>
    match parseHeader data with
    | none => Summed later
    | some (h, _) =>
      if h.dataLength > 0 then
        match later with
        | [] => True
        | payload :: later => UInt32.ofNat (byteSum payload) = h.dataCheck ∧ Summed later
      else Summed later

theorem checksumOk_of_sum {h : AdbHeader} {payload : Bytes}
    (hs : UInt32.ofNat (byteSum payload) = h.dataCheck) (v : ProtocolVersion) :
    checksumOk v h payload = true := by
  simp [checksumOk, hs]

theorem meets_header {v : ProtocolVersion} {last data : Bytes} {later : List Bytes} :
    Meets Fit ⟨none, v⟩ last (data :: later) ↔
      match parseHeader data with
      | none => Meets Fit ⟨none, v⟩ data later
      | some (h, _) =>
        if h.dataLength > 0 then Meets Fit ⟨some h, v⟩ data later
        else data.length = 24 ∧ Meets Fit ⟨none, versionAfter v h none⟩ data later := by
  rw [meets_cons]
  cases hp : parseHeader data with
  | none =>
    have hs : rx.step ⟨none, v⟩ data = (⟨none, v⟩, [.headerRead data]) := by simp [rx, hp]
    simp [hs]
  | some x =>
    obtain ⟨h, t⟩ := x
    by_cases hl : h.dataLength > 0
    · have hs : rx.step ⟨none, v⟩ data = (⟨some h, v⟩, [.headerRead data]) := by simp [rx, hp, hl]
      have hz : h.dataLength ≠ 0 := fun he => absurd (he ▸ hl) (by decide)
      simp [hs, hl, hz]
    · have hs : (rx.step ⟨none, v⟩ data).1 = ⟨none, versionAfter v h none⟩ := by
        simp [rx, hp, hl]
      have hz : h.dataLength = 0 := UInt32.toNat_inj.mp
        (Nat.eq_zero_of_not_pos fun hpos => hl (UInt32.lt_iff_toNat_lt.mpr hpos))
      simp [hs, hz, Fit]

theorem meets_payload {v : ProtocolVersion} {h : AdbHeader} {last payload : Bytes}
    {later : List Bytes} :
    Meets Fit ⟨some h, v⟩ last (payload :: later) ↔
      if checksumOk v h payload then
        (last.length = 24 ∧ payload.length = h.dataLength.toNat) ∧
          Meets Fit ⟨none, versionAfter v h (some payload)⟩ payload later
      else Meets Fit ⟨none, v⟩ payload later := by
  rw [meets_cons]
  cases hc : checksumOk v h payload <;> simp [rx, hc, Fit]

/-- The lengths the host keeps are those of what is dispatched, whatever the version. -/
theorem Framed.meets {later : List Bytes} (hf : Framed later) (v : ProtocolVersion) (last : Bytes) :
    Meets Fit ⟨none, v⟩ last later := by
  fun_induction Framed later generalizing v last with
  | case1 => trivial
  | case2 data later hp ih => simpa only [meets_header, hp] using ih hf v data
  | case3 data h t hp hl =>
    simp only [meets_header, hp, if_pos hl]
    trivial
  | case4 data h t hp hl payload later ih =>
    obtain ⟨h24, hlen, hf⟩ := hf
    simp only [meets_header, hp, hl, if_true, meets_payload]
    split
    · exact ⟨⟨h24, hlen⟩, ih hf _ _⟩
    · exact ih hf _ _
  | case5 data later h t hp hl ih =>
    simp only [meets_header, hp, if_neg hl]
    exact ⟨hf.1, ih hf.2 _ _⟩

/-- Under right sums nothing is passed over for its checksum, so lengths that are not
kept show. -/
theorem Summed.framed {later : List Bytes} (hs : Summed later) {v : ProtocolVersion} {last : Bytes}
    (hm : Meets Fit ⟨none, v⟩ last later) : Framed later := by
  fun_induction Framed later generalizing v last with
  | case1 => trivial
  | case2 data later hp ih =>
    simp only [meets_header, hp] at hm
    simp only [Summed, hp] at hs
    exact ih hs hm
  | case3 data h t hp hl => trivial
  | case4 data h t hp hl payload later ih =>
    simp only [Summed, hp, hl, if_true] at hs
    simp only [meets_header, hp, hl, if_true, meets_payload, checksumOk_of_sum hs.1] at hm
    exact ⟨hm.1.1, hm.1.2, ih hs.2 hm.2⟩
  | case5 data later h t hp hl ih =>
    simp only [meets_header, hp, if_neg hl] at hm
    simp only [Summed, hp, if_neg hl] at hs
    exact ⟨hm.1, ih hs hm.2⟩

/-- **Lengths are kept by the host alone.** What a run dispatches has the lengths of
the protocol if the host's transfers do, in every state of every run. Once every
transfer is handled it does only then, where the payloads have the sums of their
headers: lengths are nowhere compared, and a misfit is dropped for its sum or not at
all. -/
theorem dispatched_fit_iff {info : DeviceInfo} {os : Os} {s : Sys} {arrived : List Bytes}
    (h : Reach (observed Sys.step Sys.arrival) (fun _ _ => True) (Sys.start info os, [])
      (s, arrived)) :
    (Framed arrived → Paired Fit s.dev.inbound) ∧
      (s.waiting = [] → Summed arrived → (Paired Fit s.dev.inbound ↔ Framed arrived)) := by
  obtain ⟨harr, hd⟩ := Sys.paired_iff Fit h
  have hsuff : Framed arrived → Paired Fit s.dev.inbound := fun hf => by
    have hm : Meets Fit ⟨none, .v0⟩ [] arrived := hf.meets .v0 []
    rw [harr] at hm
    exact hd.mpr hm.of_append
  refine ⟨hsuff, fun hw hsum => ⟨fun hp => ?_, hsuff⟩⟩
  rw [hw, List.append_nil] at harr
  exact hsum.framed (harr ▸ hd.mp hp)

/-- A WRTE of two bytes, and its two bytes. -/
theorem dispatched_fit_iff_wrte : ∃ s, Reach (observed Sys.step Sys.arrival) (fun _ _ => True)
      (Sys.fresh, []) (s, [(wrteOfTwo 0xc3).asLeBytes, ascii "ab"]) ∧
    .heard (wrteOfTwo 0xc3) (some (ascii "ab")) ∈ s.dev.inbound ∧
    Paired Fit s.dev.inbound ∧ s.waiting = [] ∧
    Summed [(wrteOfTwo 0xc3).asLeBytes, ascii "ab"] := by
  have hrun : (runGuarded (observed Sys.step Sys.arrival) (fun _ _ => true) (Sys.fresh, [])
      (twoTransfers (wrteOfTwo 0xc3).asLeBytes (ascii "ab"))).map
        (fun p => (decide (.heard (wrteOfTwo 0xc3) (some (ascii "ab")) ∈ p.1.dev.inbound),
          p.1.waiting, p.2)) = some (true, [], [(wrteOfTwo 0xc3).asLeBytes, ascii "ab"]) := by
    decide +kernel
  obtain ⟨⟨s, arrived⟩, hs, he⟩ := Option.map_eq_some_iff.mp hrun
  simp only [Prod.mk.injEq, decide_eq_true_eq] at he
  obtain ⟨hheard, hwait, rfl⟩ := he
  have hreach : Reach (observed Sys.step Sys.arrival) (fun _ _ => True) (Sys.fresh, [])
      (s, [(wrteOfTwo 0xc3).asLeBytes, ascii "ab"]) := Reach.of_runGuarded (fun _ _ _ => trivial) hs
  have hparse : parseHeader (wrteOfTwo 0xc3).asLeBytes = some (wrteOfTwo 0xc3, []) := by
    decide +kernel
  have hlen : (wrteOfTwo 0xc3).dataLength > 0 := by decide
  have hframed : Framed [(wrteOfTwo 0xc3).asLeBytes, ascii "ab"] := by
    simp only [Framed, hparse, if_pos hlen]
    decide +kernel
  have hsum : Summed [(wrteOfTwo 0xc3).asLeBytes, ascii "ab"] := by
    simp only [Summed, hparse, if_pos hlen]
    decide +kernel
  exact ⟨s, hreach, hheard, ((dispatched_fit_iff hreach).2 hwait hsum).mpr hframed, hwait, hsum⟩

/-- Half a payload is dispatched; so is a header with a byte too many. -/
theorem misfits_dispatched :
    (∃ s arrived, Reach (observed Sys.step Sys.arrival) (fun _ _ => True) (Sys.fresh, []) (s, arrived) ∧
      arrived = [(wrteOfTwo 0x61).asLeBytes, ascii "a"] ∧ ¬ Paired Fit s.dev.inbound) ∧
    (∃ s arrived, Reach (observed Sys.step Sys.arrival) (fun _ _ => True) (Sys.fresh, []) (s, arrived) ∧
      arrived = [strayClse, strayClse ++ [0]] ∧ ¬ Paired Fit s.dev.inbound) := by
  have hshort : (runGuarded (observed Sys.step Sys.arrival) (fun _ _ => true) (Sys.fresh, [])
      (twoTransfers (wrteOfTwo 0x61).asLeBytes (ascii "a"))).map (fun p => (p.1.dev.inbound, p.2)) =
        some ([.headerRead (wrteOfTwo 0x61).asLeBytes, .payloadRead (ascii "a"),
          .heard (wrteOfTwo 0x61) (some (ascii "a"))], [(wrteOfTwo 0x61).asLeBytes, ascii "a"]) := by
    decide +kernel
  have hlong : (runGuarded (observed Sys.step Sys.arrival) (fun _ _ => true) (Sys.fresh, [])
      (twoTransfers strayClse (strayClse ++ [0]))).map (fun p => (p.1.dev.inbound, p.2)) =
        some ([.headerRead strayClse, .heard (bareHeader .clse 7 1) none,
          .headerRead (strayClse ++ [0]), .heard (bareHeader .clse 7 1) none],
          [strayClse, strayClse ++ [0]]) := by
    decide +kernel
  obtain ⟨⟨s, arrived⟩, hs, he⟩ := Option.map_eq_some_iff.mp hshort
  obtain ⟨⟨t, arrived'⟩, ht, he'⟩ := Option.map_eq_some_iff.mp hlong
  simp only [Prod.mk.injEq] at he he'
  obtain ⟨hin, rfl⟩ := he
  obtain ⟨hin', rfl⟩ := he'
  refine ⟨⟨s, _, Reach.of_runGuarded (fun _ _ _ => trivial) hs, rfl, fun hd => ?_⟩,
    ⟨t, _, Reach.of_runGuarded (fun _ _ _ => trivial) ht, rfl, fun hd => ?_⟩⟩
  · rw [hin] at hd
    obtain ⟨before, data, t, -, -, -, hlen⟩ := hd [_, _] _ _ [] rfl
    exact absurd (hlen _ rfl) (by decide)
  · rw [hin'] at hd
    obtain ⟨before, data, t, hpre, -, hlen, -⟩ := hd [_, _, _] _ _ [] rfl
    have hpre' : [.headerRead strayClse, .heard (bareHeader .clse 7 1) none] ++
        transfersRead (strayClse ++ [0]) none = before ++ transfersRead data none := hpre
    rw [← transfersRead_inj hpre'] at hlen
    exact absurd hlen (by decide +kernel)

end Adibi
