import Adibi.Lib.Mealy
import Adibi.Simulation

/-!
# Inbound framing

The receive path of `AdbConnection::run`: a transfer is a header, or the
payload of the header before it. `rx` is that path as a machine over transfers,
and what a run dispatches is what the machine emits on the transfers that
arrived (`Sys.Tracks`). The host's side is `HostMessage`.
-/

namespace Adibi

open Lib

/-! ## The receiver -/

/-- What the receive path remembers between transfers. -/
structure Rx where
  pending : Option AdbHeader
  version : ProtocolVersion
  deriving DecidableEq, Repr

/-- The connection's version after a message is dispatched. -/
def versionAfter (v : ProtocolVersion) (h : AdbHeader) (p : Option Bytes) : ProtocolVersion :=
  match h.command, p with
  | .cnxn, some _ => (ProtocolVersion.tryFrom h.arg0).getD .v0
  | _, _ => v

def checksumOk (v : ProtocolVersion) (h : AdbHeader) (data : Bytes) : Bool :=
  !v.requiresChecksum || UInt32.ofNat (byteSum data) == h.dataCheck

/-- The receive path, one transfer at a time. -/
def rx : Mealy Rx Bytes Traffic where
  step r data :=
    match r.pending with
    | none =>
      match parseHeader data with
      | none => (r, [.headerRead data])
      | some (h, _) =>
        if h.dataLength > 0 then (⟨some h, r.version⟩, [.headerRead data])
        else (⟨none, versionAfter r.version h none⟩, [.headerRead data, .heard h none])
    | some h =>
      if checksumOk r.version h data then
        (⟨none, versionAfter r.version h (some data)⟩, [.payloadRead data, .heard h (some data)])
      else (⟨none, r.version⟩, [.payloadRead data])

/-- Whether an entry of the history is the host's. -/
def Traffic.inbound : Traffic → Bool
  | .sent _ _ => false
  | _ => true

def Dev.inbound (d : Dev) : List Traffic := d.trace.filter Traffic.inbound

/-! ## Handlers -/

namespace Dev

variable {d d' : Dev}

theorem emit_inbound {o : Out} (h : d.emit o = .ok d') : d'.inbound = d.inbound := by
  have hwrite : ∀ {d d' : Dev} {bytes : Bytes} {link : Bool},
      d.submitWrite bytes link = .ok d' → d'.inbound = d.inbound := by
    intro d d' bytes link h
    obtain ⟨slot, buffers, -, rfl⟩ := submitWrite_ok h
    rfl
  have hsent : ∀ (d : Dev) (hd : AdbHeader) (p : Bytes), (d.log (.sent hd p)).inbound = d.inbound := by
    intro d hd p
    simp [inbound, log, Traffic.inbound]
  cases emitted_of_ok h with
  | op u _ => rfl
  | bare h1 => exact (hsent ..).trans (hwrite h1)
  | full _ h1 h2 => exact (hsent ..).trans ((hwrite h2).trans (hwrite h1))

theorem log_inbound (d : Dev) {t : Traffic} (h : t.inbound = true) :
    (d.log t).inbound = d.inbound ++ [t] := by
  simp [inbound, log, h]

theorem Submits.inbound (h : Submits d d') : d'.inbound = d.inbound := by
  obtain ⟨m, v, os, outs, -, he⟩ := h
  have h0 : (d.reset m v os).inbound = d.inbound := rfl
  generalize d.reset m v os = d0 at h0 he
  induction outs generalizing d0 with
  | nil =>
    cases he
    exact h0
  | cons o outs ih =>
    obtain ⟨d1, h1, h2⟩ := bind_eq_ok.mp he
    exact ih d1 ((emit_inbound h1).trans h0) h2

theorem effect_version {j : UInt32} {f : Stream → Except Panic Effect}
    (h : (match d.streams.get j with
      | none => Except.ok d
      | some st => f st >>= d.apply j) = .ok d') : d'.version = d.version := by
  split at h
  · cases h
    rfl
  · obtain ⟨e, -, ha⟩ := bind_eq_ok.mp h
    exact (emitAll_frame ha).2.1

theorem emit_version {o : Out} (h : d.emit o = .ok d') : d'.version = d.version :=
  (emitAll_frame (by rw [emitAll_singleton]; exact h)).2.1

theorem handleCommand_version {env : Env} {h : AdbHeader} {p : Option Bytes}
    (hd : d.handleCommand env h p = .ok d') : d'.version = versionAfter d.version h p := by
  unfold handleCommand at hd
  unfold versionAfter
  simp only at hd
  cases hc : h.command with
  | cnxn =>
    rw [hc] at hd
    cases p with
    | none => cases hd
    | some payload =>
      obtain ⟨⟨hr, pr⟩, -, h2⟩ := bind_eq_ok.mp hd
      exact emit_version (o := .message hr pr) h2
  | «open» =>
    rw [hc] at hd
    cases p with
    | none => cases hd
    | some payload =>
      simp only [handleCommandOpen_eq] at hd
      split at hd
      · exact (emit_version hd).trans rfl
      · split at hd
        · obtain ⟨d1, h1, h2⟩ := bind_eq_ok.mp hd
          obtain ⟨outs, -, h4⟩ := bind_eq_ok.mp h2
          exact (emitAll_frame h4).2.1.trans ((emit_version h1).trans rfl)
        · cases hd
  | wrte =>
    rw [hc] at hd
    cases p with
    | none => cases hd
    | some payload =>
      simp only [handleCommandWrte_eq] at hd
      obtain ⟨d1, h1, h2⟩ := bind_eq_ok.mp hd
      exact (effect_version h2).trans ((emit_version h1).trans rfl)
  | okay =>
    rw [hc] at hd
    cases p with
    | some payload => cases hd
    | none =>
      simp only [handleCommandOkay_eq] at hd
      exact (effect_version hd).trans rfl
  | clse =>
    rw [hc] at hd
    simp only [handleCommandClse_eq] at hd
    exact (effect_version hd).trans rfl
  | auth =>
    rw [hc] at hd
    cases hd
    rfl
  | stls =>
    rw [hc] at hd
    cases hd
    rfl

theorem handleCommand_inbound {env : Env} {h : AdbHeader} {p : Option Bytes}
    (hd : d.handleCommand env h p = .ok d') : d'.inbound = d.inbound ++ [.heard h p] := by
  rw [(Submits.handleCommand hd).inbound]
  simp [inbound, log, Traffic.inbound]

end Dev

/-! ## Bulk-out reads -/

/-- Whether a tag is a bulk-out read, and of a payload. -/
def bulkKind (tag : UInt64) : Option Bool :=
  match UserData.tryFrom tag with
  | some ⟨.bulkOutReadHeader, _⟩ => some false
  | some ⟨.bulkOutReadPayload, _⟩ => some true
  | _ => none

theorem bulkKind_op {u : UserData} (hh : u.opType ≠ .bulkOutReadHeader)
    (hp : u.opType ≠ .bulkOutReadPayload) : bulkKind u.toU64 = none := by
  unfold bulkKind
  rw [UserData.tryFrom_toU64]
  split
  · rename_i he
    cases he
    exact absurd rfl hh
  · rename_i he
    cases he
    exact absurd rfl hp
  · rfl

namespace Dev

variable {d d' : Dev}

/-- The queue grew by writes and reads of streams. -/
def Grows (d d' : Dev) : Prop :=
  ∃ us : List UserData, d'.tags = d.tags ++ us.map UserData.toU64 ∧
    ∀ u ∈ us, u.opType = .bulkInWrite ∨ u.opType = .ptyRead ∨ u.opType = .socketRead

theorem Grows.refl (d : Dev) : d.Grows d := ⟨[], by simp, fun _ hu => nomatch hu⟩

theorem Grows.trans {d'' : Dev} (h : d.Grows d') (h' : d'.Grows d'') : d.Grows d'' := by
  obtain ⟨us, hu, hus⟩ := h
  obtain ⟨vs, hv, hvs⟩ := h'
  refine ⟨us ++ vs, by rw [hv, hu, List.map_append, List.append_assoc], fun u hm => ?_⟩
  exact (List.mem_append.mp hm).elim (hus u) (hvs u)

theorem Grows.write {bytes : Bytes} {link : Bool} (h : d.submitWrite bytes link = .ok d') :
    d.Grows d' := by
  obtain ⟨slot, buffers, -, rfl⟩ := submitWrite_ok h
  exact ⟨[⟨.bulkInWrite, some slot⟩], by simp [tags], by simp⟩

theorem Grows.emit {o : Out} (ho : ∀ u, o = .op u → u.opType = .ptyRead ∨ u.opType = .socketRead)
    (h : d.emit o = .ok d') : d.Grows d' := by
  cases emitted_of_ok h with
  | op u _ => exact ⟨[u], by simp [tags], by simpa using .inr (ho u rfl)⟩
  | bare h1 =>
    have hw := Grows.write h1
    exact hw
  | full _ h1 h2 =>
    have hw := (Grows.write h1).trans (.write h2)
    exact hw

theorem Submits.grows (h : Submits d d') : d.Grows d' := by
  obtain ⟨m, v, os, outs, hr, he⟩ := h
  have h0 : d.Grows (d.reset m v os) := Grows.refl d
  generalize d.reset m v os = d0 at h0 he
  induction outs generalizing d0 with
  | nil =>
    cases he
    exact h0
  | cons o outs ih =>
    obtain ⟨d1, h1, h2⟩ := bind_eq_ok.mp he
    have ho : ∀ u, o = .op u → u.opType = .ptyRead ∨ u.opType = .socketRead := by
      rintro u rfl
      exact hr u List.mem_cons_self
    exact ih (fun u hu => hr u (List.mem_cons_of_mem _ hu)) d1 (h0.trans (.emit ho h1)) h2

theorem Grows.bulk (h : d.Grows d') : d'.tags.filterMap bulkKind = d.tags.filterMap bulkKind := by
  obtain ⟨us, hu, hus⟩ := h
  have hnil : (us.map UserData.toU64).filterMap bulkKind = [] := by
    refine List.filterMap_eq_nil_iff.mpr fun t ht => ?_
    obtain ⟨u, hm, rfl⟩ := List.mem_map.mp ht
    refine bulkKind_op ?_ ?_
    · rcases hus u hm with e | e | e <;> rw [e] <;> decide
    · rcases hus u hm with e | e | e <;> rw [e] <;> decide
  rw [hu, List.filterMap_append, hnil, List.append_nil]

theorem bulkRead_tags {op : UserDataOpType} (h : d.submitBulkOutRead op = .ok d') :
    d'.tags = d.tags ++ [(UserData.mk op none).toU64] := by
  unfold submitBulkOutRead submitOp push at h
  split at h
  · cases h
    simp [tags]
  · cases h

theorem bulkRead_inbound {op : UserDataOpType} (h : d.submitBulkOutRead op = .ok d') :
    d'.inbound = d.inbound := emit_inbound (o := .op ⟨op, none⟩) h

theorem bulkRead_version {op : UserDataOpType} (h : d.submitBulkOutRead op = .ok d') :
    d'.version = d.version := emit_version (o := .op ⟨op, none⟩) h

end Dev

namespace Sys

/-- The data of a completed bulk-out read that the loop has not handled. -/
def waitingIn (s : Sys) (cs : List Cqe) : List Bytes :=
  cs.filterMap fun c => (bulkKind c.userData).bind fun _ => (s.transfer c.res).toOption

def waiting (s : Sys) : List Bytes := s.waitingIn (s.cq ++ s.batch)

/-- The transfer an event brings in. -/
def arrival (s : Sys) : Event → List Bytes
  | .complete k (.data bytes _) =>
    match s.inflight[k]? with
    | some e => if (bulkKind e.userData).isSome then [bytes] else []
    | none => []
  | _ => []

/-- What the run has to do with the receiver: one bulk-out read is outstanding,
of the kind the pending header calls for, and the host's part of the history
since `base` is what the receiver emits on the transfers that were handled. -/
structure Tracks (r : Rx) (base : List Traffic) (s : Sys) (arrived : List Bytes) : Prop where
  bulk : s.outstanding.filterMap bulkKind = [s.pendingHeader.isSome]
  run : ∃ handled, arrived = handled ++ s.waiting ∧
    (rx.run r handled).1 = ⟨s.pendingHeader, s.dev.version⟩ ∧
    s.dev.inbound = base ++ (rx.run r handled).2

variable {s s' : Sys} {c : Cqe} {tail : List Cqe}

theorem waitingIn_nil {cs : List Cqe} (h : ∀ c ∈ cs, bulkKind c.userData = none) :
    s.waitingIn cs = [] := by
  refine List.filterMap_eq_nil_iff.mpr fun c hc => ?_
  rw [h c hc]
  rfl

/-- The outstanding bulk-out read is the completion at hand. -/
theorem bulk_handle {b : Bool} (h : s.outstanding.filterMap bulkKind = [s.pendingHeader.isSome])
    (hb : s.batch = c :: tail) (hk : bulkKind c.userData = some b) :
    s.pendingHeader.isSome = b ∧
      ∀ t ∈ { s with batch := tail }.outstanding, bulkKind t = none := by
  have hp := (outstanding_handle hb).filterMap bulkKind
  rw [h, List.filterMap_cons, hk] at hp
  have he := List.perm_singleton.mp hp.symm
  simp only [List.cons.injEq] at he
  exact ⟨he.1.symm, fun t ht => List.filterMap_eq_nil_iff.mp he.2 t ht⟩

theorem waiting_handle {b : Bool} {data : Bytes}
    (h : s.outstanding.filterMap bulkKind = [s.pendingHeader.isSome])
    (hb : s.batch = c :: tail) (hk : bulkKind c.userData = some b)
    (hx : s.transfer c.res = .ok data) :
    s.waiting = [data] ∧ s.waitingIn (s.cq ++ tail) = [] := by
  obtain ⟨-, hnone⟩ := bulk_handle h hb hk
  have hcq : ∀ c' ∈ s.cq, bulkKind c'.userData = none := fun c' hc' =>
    hnone _ (List.mem_append_right _ (List.mem_append_left _
      (List.mem_append_right _ (List.mem_map_of_mem hc'))))
  have htail : ∀ c' ∈ tail, bulkKind c'.userData = none := fun c' hc' =>
    hnone _ (mem_outstanding hc')
  refine ⟨?_, waitingIn_nil fun c' hc' => ?_⟩
  · have h1 := waitingIn_nil (s := s) hcq
    have h2 := waitingIn_nil (s := s) htail
    unfold waitingIn at h1 h2
    unfold waiting waitingIn
    rw [hb, List.filterMap_append, List.filterMap_cons, h1, h2, hk, hx]
    rfl
  · rcases List.mem_append.mp hc' with h | h
    · exact hcq c' h
    · exact htail c' h

theorem transfer_length {res : Int} {data : Bytes} (h : s.transfer res = .ok data) :
    data.length ≤ 2 ^ 20 := by
  unfold transfer at h
  split at h
  · cases h
  · unfold BulkBuf.slice at h
    split at h
    · rename_i hs
      split at hs
      · cases hs
        cases h
        rw [List.length_take]
        exact Nat.le_trans (Nat.min_le_right _ _) (by rw [s.bulkOutBuf.length_eq]; decide)
      · cases hs
    · cases h

/-- On a transfer the code's test is the receiver's. -/
theorem badChecksum_eq (v : ProtocolVersion) (h : AdbHeader) {data : Bytes}
    (hl : data.length ≤ 2 ^ 20) : badChecksum v h data = .ok (!checksumOk v h data) := by
  unfold badChecksum checksumOk
  cases v with
  | v0 =>
    rw [checksum_of_le hl]
    simp [ProtocolVersion.requiresChecksum, Except.map, bne]
  | v1 => rfl

theorem bulk_pushed {d1 d2 : Dev} {op : UserDataOpType} {b : Bool}
    (hd : d1.submitBulkOutRead op = .ok d2)
    (hnone : ∀ t ∈ s.dev.tags ++ s.rest, bulkKind t = none)
    (htags : d1.tags.filterMap bulkKind = s.dev.tags.filterMap bulkKind)
    (hk : bulkKind (UserData.mk op none).toU64 = some b) :
    (d2.tags ++ s.rest).filterMap bulkKind = [b] := by
  have h1 : s.dev.tags.filterMap bulkKind = [] :=
    List.filterMap_eq_nil_iff.mpr fun t ht => hnone t (List.mem_append_left _ ht)
  have h2 : s.rest.filterMap bulkKind = [] :=
    List.filterMap_eq_nil_iff.mpr fun t ht => hnone t (List.mem_append_right _ ht)
  rw [Dev.bulkRead_tags hd, List.append_assoc, List.filterMap_append, htags, h1,
    List.filterMap_append, h2, List.filterMap_cons, hk]
  rfl

/-- A handled transfer is one step of the receiver. -/
theorem Tracks.handled {r : Rx} {base : List Traffic} {arrived : List Bytes} {b : Bool}
    {data : Bytes} (h : Tracks r base s arrived) (hb : s.batch = c :: tail)
    (hk : bulkKind c.userData = some b) (hx : s.transfer c.res = .ok data) {d : Dev}
    {pending : Option AdbHeader} {out : List Traffic}
    (hstep : rx.step ⟨s.pendingHeader, s.dev.version⟩ data = (⟨pending, d.version⟩, out))
    (hbulk : (d.tags ++ { s with batch := tail }.rest).filterMap bulkKind = [pending.isSome])
    (hin : d.inbound = s.dev.inbound ++ out) :
    Tracks r base { s with dev := d, pendingHeader := pending, batch := tail } arrived := by
  obtain ⟨handled, harr, hrun, hinb⟩ := h.run
  obtain ⟨hw, hw'⟩ := waiting_handle h.bulk hb hk hx
  refine ⟨hbulk, handled ++ [data], ?_, ?_, ?_⟩
  · have hnil : { s with dev := d, pendingHeader := pending, batch := tail }.waiting = [] := hw'
    rw [harr, hw, hnil, List.append_nil]
  · rw [Mealy.run_append, hrun, Mealy.run_cons, hstep]
    rfl
  · show d.inbound = _
    rw [Mealy.run_append, hrun, Mealy.run_cons, hstep, hin, hinb]
    simp [Mealy.run_nil]

theorem Tracks.other {r : Rx} {base : List Traffic} {arrived : List Bytes}
    (h : Tracks r base s arrived) (hb : s.batch = c :: tail) (hk : bulkKind c.userData = none)
    {d : Dev} (htags : d.tags.filterMap bulkKind = s.dev.tags.filterMap bulkKind)
    (hv : d.version = s.dev.version) (hin : d.inbound = s.dev.inbound) :
    Tracks r base { s with dev := d, batch := tail } arrived := by
  obtain ⟨handled, harr, hrun, hinb⟩ := h.run
  refine ⟨?_, handled, ?_, by rw [hrun, ← hv], by rw [← hinb, ← hin]⟩
  · have hp := (outstanding_handle hb).filterMap bulkKind
    rw [h.bulk, List.filterMap_cons, hk] at hp
    rw [← List.perm_singleton.mp hp.symm]
    show (d.tags ++ { s with batch := tail }.rest).filterMap bulkKind =
      (s.dev.tags ++ { s with batch := tail }.rest).filterMap bulkKind
    rw [List.filterMap_append, List.filterMap_append, htags]
  · rw [harr]
    congr 1
    show s.waitingIn (s.cq ++ s.batch) = s.waitingIn (s.cq ++ tail)
    unfold waitingIn
    rw [hb, List.filterMap_append, List.filterMap_cons, hk, List.filterMap_append]
    rfl

theorem bulkKind_header : bulkKind (UserData.mk .bulkOutReadHeader none).toU64 = some false := by
  simp [bulkKind]

theorem bulkKind_payload : bulkKind (UserData.mk .bulkOutReadPayload none).toU64 = some true := by
  simp [bulkKind]

theorem Tracks.handle {r : Rx} {base : List Traffic} {arrived : List Bytes} {env : Env}
    (h : Tracks r base s arrived) (hb : s.batch = c :: tail)
    (hs : Handles env { s with batch := tail } c s') : Tracks r base s' arrived := by
  have hkind : ∀ {op : UserDataOpType} {x : Option NonZeroU32},
      UserData.tryFrom c.userData = some ⟨op, x⟩ → op ≠ .bulkOutReadHeader →
      op ≠ .bulkOutReadPayload → bulkKind c.userData = none := by
    intro op x ht h1 h2
    rw [← UserData.toU64_of_tryFrom ht]
    exact bulkKind_op h1 h2
  cases hs with
  | unknown ht => exact h.other hb (by simp [bulkKind, ht]) rfl rfl rfl
  | read hop ht hd =>
    rw [Dev.readDone_eq] at hd
    have hsub := Dev.Submits.of_effect (fun st e he => onRead_on he) hd
    refine h.other hb (hkind ht ?_ ?_) hsub.grows.bulk (Dev.effect_version hd) hsub.inbound
    · rcases hop with rfl | rfl <;> decide
    · rcases hop with rfl | rfl <;> decide
  | write ht hd => exact h.other hb (hkind ht (by decide) (by decide)) rfl rfl rfl
  | poll ht hd =>
    refine h.other hb (hkind ht (by decide) (by decide)) ?_ (Dev.bulkRead_version hd)
      (Dev.bulkRead_inbound hd)
    have hk : bulkKind (UserData.mk .ep0Poll none).toU64 = none := bulkKind_op (by decide) (by decide)
    rw [Dev.bulkRead_tags hd, List.filterMap_append, List.filterMap_cons, hk]
    simp
  | @rejected x data d ht hx hp hd =>
    have hk : bulkKind c.userData = some false := by simp [bulkKind, ht]
    obtain ⟨hpend, hnone⟩ := bulk_handle h.bulk hb hk
    have hpn : s.pendingHeader = none := by simpa using hpend
    have hstep : rx.step ⟨s.pendingHeader, s.dev.version⟩ data =
        (⟨s.pendingHeader, d.version⟩, [.headerRead data]) := by
      rw [Dev.bulkRead_version hd]
      simp [rx, hpn, hp, Dev.log]
    refine h.handled hb hk hx hstep ?_ ?_
    · rw [hpend]
      exact bulk_pushed (s := { s with batch := tail }) hd hnone rfl bulkKind_header
    · rw [Dev.bulkRead_inbound hd, Dev.log_inbound _ rfl]
  | @pending x data t hdr d ht hx hp hl hd =>
    have hk : bulkKind c.userData = some false := by simp [bulkKind, ht]
    obtain ⟨hpend, hnone⟩ := bulk_handle h.bulk hb hk
    have hpn : s.pendingHeader = none := by simpa using hpend
    have hstep : rx.step ⟨s.pendingHeader, s.dev.version⟩ data =
        (⟨some hdr, d.version⟩, [.headerRead data]) := by
      rw [Dev.bulkRead_version hd]
      simp [rx, hpn, hp, hl, Dev.log]
    refine h.handled hb hk hx hstep ?_ ?_
    · exact bulk_pushed (s := { s with batch := tail }) hd hnone rfl bulkKind_payload
    · rw [Dev.bulkRead_inbound hd, Dev.log_inbound _ rfl]
  | @bare x data t hdr d1 d2 ht hx hp hl hc hd =>
    have hk : bulkKind c.userData = some false := by simp [bulkKind, ht]
    obtain ⟨hpend, hnone⟩ := bulk_handle h.bulk hb hk
    have hpn : s.pendingHeader = none := by simpa using hpend
    have hstep : rx.step ⟨s.pendingHeader, s.dev.version⟩ data =
        (⟨s.pendingHeader, d2.version⟩, [.headerRead data, .heard hdr none]) := by
      rw [Dev.bulkRead_version hd, Dev.handleCommand_version hc]
      simp [rx, hpn, hp, hl, Dev.log]
    refine h.handled hb hk hx hstep ?_ ?_
    · rw [hpend]
      exact bulk_pushed (s := { s with batch := tail }) hd hnone (Dev.Submits.handleCommand hc).grows.bulk
        bulkKind_header
    · rw [Dev.bulkRead_inbound hd, Dev.handleCommand_inbound hc, Dev.log_inbound _ rfl,
        List.append_assoc]
      rfl
  | orphan ht hx hp hd =>
    have hk : bulkKind c.userData = some true := by simp [bulkKind, ht]
    have hpend := (bulk_handle h.bulk hb hk).1
    have hpn : s.pendingHeader = none := hp
    rw [hpn] at hpend
    cases hpend
  | @dropped x data hdr d ht hx hp hbad hd =>
    have hk : bulkKind c.userData = some true := by simp [bulkKind, ht]
    obtain ⟨-, hnone⟩ := bulk_handle h.bulk hb hk
    have hps : s.pendingHeader = some hdr := hp
    have hchk : checksumOk s.dev.version hdr data = false := by
      have := (badChecksum_eq s.dev.version hdr (transfer_length hx)).symm.trans hbad
      simpa using this
    have hstep : rx.step ⟨s.pendingHeader, s.dev.version⟩ data =
        (⟨none, d.version⟩, [.payloadRead data]) := by
      rw [Dev.bulkRead_version hd]
      simp [rx, hps, hchk, Dev.log]
    refine h.handled hb hk hx hstep ?_ ?_
    · exact bulk_pushed (s := { s with batch := tail }) hd hnone rfl bulkKind_header
    · rw [Dev.bulkRead_inbound hd, Dev.log_inbound _ rfl]
  | @loaded x data hdr d1 d2 ht hx hp hbad hc hd =>
    have hk : bulkKind c.userData = some true := by simp [bulkKind, ht]
    obtain ⟨-, hnone⟩ := bulk_handle h.bulk hb hk
    have hps : s.pendingHeader = some hdr := hp
    have hchk : checksumOk s.dev.version hdr data = true := by
      have := (badChecksum_eq s.dev.version hdr (transfer_length hx)).symm.trans hbad
      simpa using this
    have hstep : rx.step ⟨s.pendingHeader, s.dev.version⟩ data =
        (⟨none, d2.version⟩, [.payloadRead data, .heard hdr (some data)]) := by
      rw [Dev.bulkRead_version hd, Dev.handleCommand_version hc]
      simp [rx, hps, hchk, Dev.log]
    refine h.handled hb hk hx hstep ?_ ?_
    · exact bulk_pushed (s := { s with batch := tail }) hd hnone (Dev.Submits.handleCommand hc).grows.bulk
        bulkKind_header
    · rw [Dev.bulkRead_inbound hd, Dev.handleCommand_inbound hc, Dev.log_inbound _ rfl,
        List.append_assoc]
      rfl

theorem waitingIn_congr {t : Sys} (h : t.bulkOutBuf = s.bulkOutBuf) (cs : List Cqe) :
    t.waitingIn cs = s.waitingIn cs := by
  unfold waitingIn transfer
  rw [h]

theorem fill_bulkOutBuf (s : Sys) {u : UserData} (outcome : Outcome) (h : bulkKind u.toU64 = none) :
    (s.fill u outcome).bulkOutBuf = s.bulkOutBuf := by
  obtain ⟨op, x⟩ := u
  simp only [bulkKind, UserData.tryFrom_toU64] at h
  unfold fill
  split
  · split
    · simp_all
    · simp_all
    · rfl
    · rfl
  · rfl

theorem waitingIn_filled (s : Sys) {u : UserData} {outcome : Outcome} {b : Bool}
    (hk : bulkKind u.toU64 = some b) (hf : outcome.fits u.opType = true) :
    (s.fill u outcome).waitingIn [⟨u.toU64, outcome.res⟩] =
      match outcome with
      | .data bytes _ => [bytes]
      | _ => [] := by
  obtain ⟨op, x⟩ := u
  have hop : op = .bulkOutReadHeader ∨ op = .bulkOutReadPayload := by
    simp only [bulkKind, UserData.tryFrom_toU64] at hk
    cases op <;> simp_all
  cases outcome with
  | data bytes place =>
    have hlen : bytes.length ≤ bulkOutSize := by
      rcases hop with rfl | rfl
      · simpa [Outcome.fits] using hf
      · simpa [Outcome.fits] using hf
    have hbuf : (s.fill ⟨op, x⟩ (.data bytes place)).bulkOutBuf = s.bulkOutBuf.fill bytes := by
      rcases hop with rfl | rfl <;> rfl
    have htr : (s.fill ⟨op, x⟩ (.data bytes place)).transfer bytes.length = .ok bytes := by
      unfold transfer
      rw [hbuf, if_neg (by omega), Int.toNat_natCast, BulkBuf.slice_fill hlen]
    simp [waitingIn, hk, Outcome.res, htr, Except.toOption]
  | count n => rcases hop with rfl | rfl <;> cases hf
  | error n =>
    have htr : (s.fill ⟨op, x⟩ (.error n)).transfer (Outcome.error n).res = .error .returned := by
      unfold transfer
      rw [if_pos (by simp only [Outcome.res]; omega)]
    simp only [waitingIn, List.filterMap_cons, hk, htr]
    rfl

theorem waiting_inflight {e : Sqe} {b : Bool} {k : Nat}
    (h : s.outstanding.filterMap bulkKind = [s.pendingHeader.isSome]) (he : s.inflight[k]? = some e)
    (hk : bulkKind e.userData = some b) : ∀ c ∈ s.cq ++ s.batch, bulkKind c.userData = none := by
  obtain ⟨hlt, rfl⟩ := List.getElem?_eq_some_iff.mp he
  have hperm := ((List.getElem_cons_eraseIdx_perm hlt).map Sqe.userData).filterMap bulkKind
  rw [List.map_cons, List.filterMap_cons, hk] at hperm
  have hlen := congrArg List.length h
  simp only [outstanding, rest, List.filterMap_append, List.length_append, ← hperm.length_eq,
    List.length_cons, List.length_nil] at hlen
  have hnil : ((s.cq.map Cqe.userData).filterMap bulkKind).length = 0 ∧
      ((s.batch.map Cqe.userData).filterMap bulkKind).length = 0 := by omega
  intro c hc
  rcases List.mem_append.mp hc with hc | hc
  · exact List.filterMap_eq_nil_iff.mp (List.length_eq_zero_iff.mp hnil.1) _ (List.mem_map_of_mem hc)
  · exact List.filterMap_eq_nil_iff.mp (List.length_eq_zero_iff.mp hnil.2) _ (List.mem_map_of_mem hc)

theorem Tracks.complete {r : Rx} {base : List Traffic} {arrived : List Bytes} {k : Nat}
    {outcome : Outcome} (h : Tracks r base s arrived) (hs : s.step (.complete k outcome) = .ok s') :
    Tracks r base s' (arrived ++ s.arrival (.complete k outcome)) := by
  obtain ⟨handled, harr, hrun, hinb⟩ := h.run
  have hperm := (outstanding_perm hs (by simp)).filterMap bulkKind
  obtain ⟨e, u, he, hu, hf, rfl⟩ := complete_ok hs
  obtain ⟨hfv, hfi, hfp⟩ := s.fill_frame u outcome
  obtain ⟨-, -, hfb⟩ := s.fill_queues u outcome
  have htag : u.toU64 = e.userData := UserData.toU64_of_tryFrom hu
  refine ⟨?_, handled, ?_, by rw [hrun]; simp only [hfp, hfv], ?_⟩
  · rw [h.bulk] at hperm
    simp only [hfp]
    exact List.perm_singleton.mp hperm
  · rw [harr, List.append_assoc]
    congr 1
    show s.waitingIn (s.cq ++ s.batch) ++ _ = (s.fill u outcome).waitingIn
      (s.cq ++ [⟨e.userData, outcome.res⟩] ++ (s.fill u outcome).batch)
    rw [hfb]
    cases hk : bulkKind e.userData with
    | none =>
      have hbuf := s.fill_bulkOutBuf (u := u) outcome (by rw [htag]; exact hk)
      have harv : s.arrival (.complete k outcome) = [] := by
        unfold arrival
        split
        · simp_all
        · rfl
      rw [waitingIn_congr hbuf, harv, List.append_nil]
      simp [waitingIn, List.filterMap_append, hk]
    | some b =>
      have hnone := waiting_inflight h.bulk he hk
      have hfill := s.waitingIn_filled (by rw [htag]; exact hk) hf
      have hcq := waitingIn_nil (s := s.fill u outcome)
        fun c hc => hnone c (List.mem_append_left _ hc)
      have hbatch := waitingIn_nil (s := s.fill u outcome)
        fun c hc => hnone c (List.mem_append_right _ hc)
      rw [waitingIn_nil hnone, List.nil_append]
      rw [htag] at hfill
      unfold waitingIn at hfill hcq hbatch ⊢
      rw [List.filterMap_append, List.filterMap_append, hcq, hbatch, hfill, List.nil_append,
        List.append_nil]
      cases outcome <;> simp [arrival, he, hk]
  · show Dev.inbound _ = _
    rw [← hinb]
    simp only [Dev.inbound, hfi]

/-- **A step of the run is a step of the receiver.** -/
theorem Tracks.step {r : Rx} {base : List Traffic} {arrived : List Bytes} {e : Event}
    (h : Tracks r base s arrived) (hs : s.step e = .ok s') :
    Tracks r base s' (arrived ++ s.arrival e) := by
  cases e with
  | complete k outcome => exact h.complete hs
  | handle env =>
    obtain ⟨c, tail, hb, hh⟩ := Sys.handle_ok hs
    show Tracks r base s' (arrived ++ [])
    rw [List.append_nil]
    exact h.handle hb hh
  | submit =>
    obtain ⟨handled, harr, hrun, hinb⟩ := h.run
    have hperm := (outstanding_perm hs (by simp)).filterMap bulkKind
    rw [h.bulk] at hperm
    show Tracks r base s' (arrived ++ [])
    rw [List.append_nil]
    obtain ⟨-, rfl⟩ := Sys.submit_ok hs
    exact ⟨List.perm_singleton.mp hperm, handled, harr, hrun, hinb⟩
  | reap =>
    obtain ⟨handled, harr, hrun, hinb⟩ := h.run
    have hperm := (outstanding_perm hs (by simp)).filterMap bulkKind
    rw [h.bulk] at hperm
    show Tracks r base s' (arrived ++ [])
    rw [List.append_nil]
    obtain ⟨hc, -, -, rfl⟩ := Sys.reap_ok hs
    refine ⟨List.perm_singleton.mp hperm, handled, ?_, hrun, hinb⟩
    rw [harr]
    congr 1
    show s.waitingIn (s.cq ++ s.batch) = s.waitingIn ([] ++ s.cq)
    rw [hc, List.append_nil, List.nil_append]

end Sys

/-- A run is tracked by the receiver from any state between messages on. -/
theorem Sys.Tracks.along {r : Rx} {base : List Traffic} {s s' : Sys} {arrived : List Bytes}
    (h : s.Tracks r base [])
    (hr : Reach (observed Sys.step Sys.arrival) (fun _ _ => True) (s, []) (s', arrived)) :
    s'.Tracks r base arrived := by
  refine hr.invariant (I := fun p => p.1.Tracks r base p.2) h ?_
  intro p e q hp _ hs
  obtain ⟨h1, h2⟩ := observed_ok hs
  rw [h2]
  exact hp.step h1

theorem Sys.tracks_of_reach {info : DeviceInfo} {os : Os} {s : Sys} {arrived : List Bytes}
    (h : Reach (observed Sys.step Sys.arrival) (fun _ _ => True) (Sys.start info os, []) (s, arrived)) :
    Sys.Tracks ⟨none, .v0⟩ [] s arrived := by
  refine Sys.Tracks.along ⟨?_, [], rfl, rfl, rfl⟩ h
  have htags : (Sys.start info os).outstanding =
      [(UserData.mk .ep0Poll none).toU64, (UserData.mk .bulkOutReadHeader none).toU64] := rfl
  rw [htags]
  simp [bulkKind, Sys.start]

/-! ## Messages of a host -/

/-- A message as a host sends it: 24 bytes of header, well formed or not, and as
many bytes of payload as its length word says. -/
structure HostMessage where
  header : Bytes
  payload : Bytes
  header_length : header.length = 24
  payload_length : (wordAt header 3).map UInt32.toNat = some payload.length
  payload_le : payload.length ≤ 2 ^ 20

namespace HostMessage

/-- One transfer for the header, one for the payload unless it is empty. -/
def transfers (m : HostMessage) : List Bytes :=
  if m.payload = [] then [m.header] else [m.header, m.payload]

/-- The receiver does not accept its header. -/
def Rejected (m : HostMessage) : Prop := parseHeader m.header = none

/-- What a receiver in step with the host reads and dispatches, and its version
after: a rejected message is skipped together with its payload. -/
def inStep (v : ProtocolVersion) (m : HostMessage) : List Traffic × ProtocolVersion :=
  match parseHeader m.header, m.payload with
  | none, [] => ([.headerRead m.header], v)
  | none, p => ([.headerRead m.header, .payloadRead p], v)
  | some (h, _), [] => ([.headerRead m.header, .heard h none], versionAfter v h none)
  | some (h, _), p =>
    if checksumOk v h p then
      ([.headerRead m.header, .payloadRead p, .heard h (some p)], versionAfter v h (some p))
    else ([.headerRead m.header, .payloadRead p], v)

def allInStep : ProtocolVersion → List HostMessage → List Traffic
  | _, [] => []
  | v, m :: ms => (m.inStep v).1 ++ allInStep (m.inStep v).2 ms

/-- An accepted header announces the payload that follows it. -/
theorem dataLength_eq {m : HostMessage} {h : AdbHeader} {t : Bytes}
    (hp : parseHeader m.header = some (h, t)) : h.dataLength.toNat = m.payload.length := by
  obtain ⟨he, -⟩ := parseHeader_eq_some.mp hp
  have hw : wordAt m.header 3 = some h.dataLength := by
    rw [he]
    simp only [AdbHeader.asLeBytes, List.append_assoc]
    rw [← List.append_assoc, ← List.append_assoc]
    exact wordAt_append _ (by simp) _ _
  have := m.payload_length
  rw [hw] at this
  exact Option.some.inj this

/-- A receiver between messages keeps in step over a message that is accepted,
or rejected and without payload. -/
theorem run_transfers {m : HostMessage} (h : m.Rejected → m.payload = []) (v : ProtocolVersion) :
    rx.run ⟨none, v⟩ m.transfers = (⟨none, (m.inStep v).2⟩, (m.inStep v).1) := by
  unfold transfers inStep
  cases hp : parseHeader m.header with
  | none =>
    rw [h hp]
    simp [Mealy.run_cons, rx, hp]
  | some x =>
    obtain ⟨hd, t⟩ := x
    have hl := dataLength_eq hp
    cases hpay : m.payload with
    | nil =>
      have hz : ¬ hd.dataLength > 0 := by
        rw [hpay] at hl
        intro hgt
        have := UInt32.lt_iff_toNat_lt.mp hgt
        rw [hl] at this
        exact absurd this (Nat.lt_irrefl _)
      simp [Mealy.run_cons, rx, hp, hz]
    | cons b bs =>
      have hz : hd.dataLength > 0 := by
        rw [hpay] at hl
        refine UInt32.lt_iff_toNat_lt.mpr ?_
        rw [hl]
        exact Nat.succ_pos _
      cases hc : checksumOk v hd (b :: bs) with
      | true => simp [Mealy.run_cons, rx, hp, hz, hc]
      | false => simp [Mealy.run_cons, rx, hp, hz, hc]

theorem step_between (v : ProtocolVersion) (data : Bytes) :
    ∃ out, (rx.step ⟨none, v⟩ data).2 = .headerRead data :: out := by
  unfold rx
  simp only
  split
  · exact ⟨[], rfl⟩
  · split
    · exact ⟨[], rfl⟩
    · exact ⟨_, rfl⟩

/-- A rejected message with a payload puts the receiver out of step. -/
theorem run_rejected {m : HostMessage} (hr : m.Rejected) (hp : m.payload ≠ []) (v : ProtocolVersion)
    (later : List Bytes) (out : List Traffic) :
    (rx.run ⟨none, v⟩ (m.transfers ++ later)).2 ≠ (m.inStep v).1 ++ out := by
  obtain ⟨out', ho⟩ := step_between v m.payload
  have hstep : rx.step ⟨none, v⟩ m.header = (⟨none, v⟩, [.headerRead m.header]) := by
    unfold rx
    simp only
    rw [hr]
  have hin : (m.inStep v).1 = [.headerRead m.header, .payloadRead m.payload] := by
    unfold inStep
    rw [hr]
    split <;> simp_all
  rw [transfers, if_neg hp, hin]
  simp only [List.cons_append, Mealy.run_cons, hstep, ho]
  intro he
  simp at he

theorem inStep_of_run {ms : List HostMessage} {v : ProtocolVersion}
    (h : (rx.run ⟨none, v⟩ (ms.flatMap transfers)).2 = allInStep v ms) :
    ∀ m ∈ ms, m.Rejected → m.payload = [] := by
  induction ms generalizing v with
  | nil => exact fun m hm => nomatch hm
  | cons m ms ih =>
    have hm : m.Rejected → m.payload = [] := fun hr => by
      by_contra hp
      exact run_rejected hr hp v _ _ h
    rw [List.flatMap_cons, Mealy.run_append, run_transfers hm] at h
    have hrest := ih (List.append_cancel_left h)
    intro m' hm'
    rcases List.mem_cons.mp hm' with rfl | hm'
    · exact hm
    · exact hrest m' hm'

theorem run_allTransfers {ms : List HostMessage} (h : ∀ m ∈ ms, m.Rejected → m.payload = [])
    (v : ProtocolVersion) : (rx.run ⟨none, v⟩ (ms.flatMap transfers)).2 = allInStep v ms := by
  induction ms generalizing v with
  | nil => rfl
  | cons m ms ih =>
    rw [List.flatMap_cons, Mealy.run_append, run_transfers (h m List.mem_cons_self)]
    show (m.inStep v).1 ++ _ = (m.inStep v).1 ++ _
    rw [ih fun m' hm' => h m' (List.mem_cons_of_mem _ hm')]

end HostMessage

/-- **The receive path keeps in step with the host exactly as long as no rejected
message carries a payload**: what is read and dispatched is then at every moment
a part of what the messages call for; and once every transfer is handled, it is
all of it if and only if no rejected message carried a payload. -/
theorem inbound_in_step_iff {info : DeviceInfo} {os : Os} {s : Sys} {arrived : List Bytes}
    {ms : List HostMessage}
    (h : Reach (observed Sys.step Sys.arrival) (fun _ _ => True) (Sys.start info os, []) (s, arrived))
    (harr : arrived <+: ms.flatMap HostMessage.transfers) :
    ((∀ m ∈ ms, m.Rejected → m.payload = []) → s.dev.inbound <+: HostMessage.allInStep .v0 ms) ∧
      (arrived = ms.flatMap HostMessage.transfers → s.waiting = [] →
        (s.dev.inbound = HostMessage.allInStep .v0 ms ↔
          ∀ m ∈ ms, m.Rejected → m.payload = [])) := by
  obtain ⟨handled, he, -, hin⟩ := (Sys.tracks_of_reach h).run
  rw [List.nil_append] at hin
  refine ⟨fun hskip => ?_, fun hall hw => ?_⟩
  · obtain ⟨later, hl⟩ := harr
    rw [← HostMessage.run_allTransfers hskip .v0, hin, ← hl, he, List.append_assoc, Mealy.run_append]
    exact List.prefix_append _ _
  · rw [hw, List.append_nil] at he
    rw [hin, ← he, hall]
    exact ⟨HostMessage.inStep_of_run, fun hskip => HostMessage.run_allTransfers hskip .v0⟩

/-- A header with an unknown command, for a payload of `n` bytes. -/
def unknownHeader (n : UInt32) : Bytes := le32 0 ++ le32 0 ++ le32 0 ++ le32 n ++ le32 0 ++ le32 0

def strayClse : Bytes := (bareHeader .clse 7 1).asLeBytes

def bareMessages : List HostMessage :=
  [⟨unknownHeader 0, [], by decide +kernel, by decide +kernel, by decide⟩,
    ⟨strayClse, [], by decide +kernel, by decide +kernel, by decide⟩]

def disguised : List HostMessage :=
  [⟨unknownHeader 24, strayClse, by decide +kernel, by decide +kernel, by decide +kernel⟩]

/-- The events of two transfers that arrive one after the other. -/
def twoTransfers (a b : Bytes) : List Event :=
  [.submit, .complete 1 (.data a), .reap, .handle {}, .submit, .complete 1 (.data b), .reap,
    .handle {}]

theorem inbound_in_step_iff_bare : ∃ s arrived,
    Reach (observed Sys.step Sys.arrival) (fun _ _ => True) (Sys.fresh, []) (s, arrived) ∧
      arrived = bareMessages.flatMap HostMessage.transfers ∧
      s.dev.inbound <+: HostMessage.allInStep .v0 bareMessages := by
  have hrun : (runGuarded (observed Sys.step Sys.arrival) (fun _ _ => true) (Sys.fresh, [])
      (twoTransfers (unknownHeader 0) strayClse)).map Prod.snd =
        some (bareMessages.flatMap HostMessage.transfers) := by
    decide +kernel
  obtain ⟨⟨s, arrived⟩, hs, rfl⟩ := Option.map_eq_some_iff.mp hrun
  have hreach : Reach (observed Sys.step Sys.arrival) (fun _ _ => True) (Sys.fresh, [])
      (s, bareMessages.flatMap HostMessage.transfers) :=
    Reach.of_runGuarded (fun _ _ _ => trivial) hs
  have hskip : ∀ m ∈ bareMessages, m.Rejected → m.payload = [] := by
    intro m hm _
    simp only [bareMessages, List.mem_cons, List.not_mem_nil, or_false] at hm
    rcases hm with rfl | rfl <;> rfl
  exact ⟨s, _, hreach, rfl, (inbound_in_step_iff hreach (List.prefix_refl _)).1 hskip⟩

/-- The payload of a rejected message is parsed as a header and dispatched. -/
theorem payload_taken_for_header : ∃ s arrived,
    Reach (observed Sys.step Sys.arrival) (fun _ _ => True) (Sys.fresh, []) (s, arrived) ∧
      arrived = disguised.flatMap HostMessage.transfers ∧
      s.dev.inbound = [.headerRead (unknownHeader 24), .headerRead strayClse,
        .heard (bareHeader .clse 7 1) none] ∧
      ¬ s.dev.inbound <+: HostMessage.allInStep .v0 disguised := by
  have hrun : (runGuarded (observed Sys.step Sys.arrival) (fun _ _ => true) (Sys.fresh, [])
      (twoTransfers (unknownHeader 24) strayClse)).map (fun p => (p.1.dev.inbound, p.2)) =
        some ([.headerRead (unknownHeader 24), .headerRead strayClse,
          .heard (bareHeader .clse 7 1) none], disguised.flatMap HostMessage.transfers) := by
    decide +kernel
  obtain ⟨⟨s, arrived⟩, hs, he⟩ := Option.map_eq_some_iff.mp hrun
  simp only [Prod.mk.injEq] at he
  obtain ⟨hin, rfl⟩ := he
  refine ⟨s, _, Reach.of_runGuarded (fun _ _ _ => trivial) hs, rfl, hin, ?_⟩
  rw [hin]
  decide +kernel

end Adibi
