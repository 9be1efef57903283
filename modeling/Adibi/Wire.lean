import Adibi.Lib.Links
import Adibi.Loopback
import Adibi.Slots
import Adibi.Utterance

/-!
# The wire of a run

What a whole run puts on the bulk-in endpoint. The kernel starts the writes of a batch
in order, but a payload's only when the write of its header, which links it, has
completed; a later header does not wait for it. The wire is what the slots hold when
their writes start. Where every payload is the last write handed over before it starts,
the wire is the messages sent (`wire_carries_sent`); where it is not, a header gets
between a header and its payload (`header_overtakes`).
-/

namespace Adibi

open Lib

def Sqe.written (e : Sqe) : Option Bytes := (writeSlot e.userData).map fun _ => e.bytes

theorem written_op {u : UserData} (h : u.opType ≠ .bulkInWrite) (bytes : Bytes) (link : Bool) :
    Sqe.written ⟨u.toU64, bytes, link⟩ = none := by
  simp [Sqe.written, writeSlot_op h]

@[simp] theorem written_write (slot : NonZeroU32) (bytes : Bytes) (link : Bool) :
    Sqe.written ⟨(UserData.mk .bulkInWrite (some slot)).toU64, bytes, link⟩ = some bytes := by
  simp [Sqe.written]

/-! ## Handlers -/

namespace Dev

variable {d d' : Dev}

/-- Between the two devices, the queue grew by the writes of the messages sent, and
by operations that are no writes. -/
def Carries (d d' : Dev) : Prop :=
  ∃ es ms, d'.sq = d.sq ++ es ∧ d'.sent = d.sent ++ ms ∧
    es.filterMap Sqe.written = (ms.flatMap writesOf).map Prod.fst ∧ Chained Sqe.link es

theorem Carries.of_same (hq : d'.sq = d.sq) (hs : d'.sent = d.sent) : d.Carries d' :=
  ⟨[], [], by rw [hq, List.append_nil], by rw [hs, List.append_nil], rfl, trivial⟩

theorem Carries.trans {d'' : Dev} (h : d.Carries d') (h' : d'.Carries d'') : d.Carries d'' := by
  obtain ⟨es, ms, hq, hs, hw, hl⟩ := h
  obtain ⟨es', ms', hq', hs', hw', hl'⟩ := h'
  refine ⟨es ++ es', ms ++ ms', ?_, ?_, ?_, hl.append hl'⟩
  · rw [hq', hq, List.append_assoc]
  · rw [hs', hs, List.append_assoc]
  · rw [List.filterMap_append, hw, hw', List.flatMap_append, List.map_append]

theorem Carries.op {u : UserData} (hu : u.opType ≠ .bulkInWrite) (h : d.submitOp u = .ok d') :
    d.Carries d' := by
  obtain ⟨-, rfl⟩ := push_ok h
  refine ⟨_, [], rfl, (List.append_nil _).symm, ?_, chained_singleton rfl⟩
  rw [List.filterMap_cons, written_op hu]
  rfl

theorem Carries.emit {o : Out} (ho : ∀ u, o = .op u → u.opType ≠ .bulkInWrite)
    (h : d.emit o = .ok d') : d.Carries d' := by
  have hsent := emit_sent h
  cases emitted_of_ok h with
  | op u _ => exact .op (ho u rfl) h
  | bare h1 =>
    obtain ⟨slot, buffers, -, rfl⟩ := submitWrite_ok h1
    refine ⟨_, _, rfl, hsent, ?_, chained_singleton rfl⟩
    rw [List.filterMap_cons, written_write]
    rfl
  | full hp h1 h2 =>
    obtain ⟨slot, buffers, -, rfl⟩ := submitWrite_ok h1
    obtain ⟨slot', buffers', -, rfl⟩ := submitWrite_ok h2
    refine ⟨_, _, List.append_assoc .., hsent, ?_, fun _ => ⟨_, [], rfl, rfl⟩, chained_singleton rfl⟩
    simp [Out.message?, writesOf, hp]

theorem Carries.emitAll {outs : List Out} (hr : ReadsOnly outs) (h : d.emitAll outs = .ok d') :
    d.Carries d' := by
  induction outs generalizing d with
  | nil =>
    cases h
    exact .of_same rfl rfl
  | cons o outs ih =>
    obtain ⟨d1, h1, h2⟩ := bind_eq_ok.mp h
    refine (Carries.emit (fun u hu => ?_) h1).trans (ih (fun u hu => hr u (.tail _ hu)) h2)
    rcases hr u (by rw [hu]; exact .head _) with h3 | h3 <;> rw [h3] <;> decide

theorem Submits.carries (h : Submits d d') : d.Carries d' := by
  obtain ⟨m, v, os, outs, hr, he⟩ := h
  have h0 : d.Carries (d.reset m v os) := .of_same rfl rfl
  exact h0.trans (.emitAll hr he)

theorem Carries.log (d : Dev) {t : Traffic} (h : t.message? = none) : d.Carries (d.log t) :=
  .of_same rfl (d.log_sent h)

theorem Carries.logs (d : Dev) {t u : Traffic} (ht : t.message? = none) (hu : u.message? = none) :
    d.Carries ((d.log t).log u) := (Carries.log d ht).trans (.log _ hu)

theorem Carries.bulkRead {op : UserDataOpType} (hop : op ≠ .bulkInWrite)
    (h : d.submitBulkOutRead op = .ok d') : d.Carries d' := .op hop h

end Dev

/-! ## Steps -/

namespace Sys

variable {s s' : Sys} {c : Cqe} {e : Event}

theorem Handles.carries {env : Env} (h : Handles env s c s') : s.dev.Carries s'.dev := by
  cases h with
  | unknown ht => exact .of_same rfl rfl
  | read hop ht hd =>
    rw [Dev.readDone_eq] at hd
    exact (Dev.Submits.of_effect (fun st e he => onRead_on he) hd).carries
  | write ht hd => exact .of_same rfl rfl
  | poll ht hd => exact .op (by decide) hd
  | rejected ht hx hp hd => exact (Dev.Carries.log s.dev rfl).trans (.bulkRead (by decide) hd)
  | pending ht hx hp hl hd => exact (Dev.Carries.log s.dev rfl).trans (.bulkRead (by decide) hd)
  | bare ht hx hp hl hc hd =>
    have hsub := (Dev.Submits.handleCommand hc).carries
    exact (Dev.Carries.trans (.logs s.dev rfl rfl) hsub).trans (.bulkRead (by decide) hd)
  | orphan ht hx hp hd => exact (Dev.Carries.log s.dev rfl).trans (.bulkRead (by decide) hd)
  | dropped ht hx hp hb hd => exact (Dev.Carries.log s.dev rfl).trans (.bulkRead (by decide) hd)
  | loaded ht hx hp hb hc hd =>
    have hsub := (Dev.Submits.handleCommand hc).carries
    exact (Dev.Carries.trans (.logs s.dev rfl rfl) hsub).trans (.bulkRead (by decide) hd)

def slotBytes (s : Sys) (e : Sqe) : Option Bytes := (writeSlot e.userData).bind s.dev.buffers.get

/-- The bytes of the writes that start at an event: those of a batch that are linked to
none, and the payload whose header's write has completed whole. -/
def starts (s : Sys) : Event → List Bytes
  | .submit => (started Sqe.link false s.dev.sq).filterMap s.slotBytes
  | .complete k outcome =>
    match s.inflight[k]? with
    | some e =>
      if e.link = true ∧ outcome = .count e.bytes.length then
        ((s.inflight[k + 1]?).bind s.slotBytes).toList
      else []
    | none => []
  | _ => []

end Sys

/-- The kernel keeps to the links and writes what it is given, and a batch with writes is
handed over when no payload waits for its header, with a payload only at its end. -/
def InTurn (s : Sys) : Event → Prop
  | .submit => s.dev.sq.filterMap Sqe.written = [] ∨
      blocked Sqe.link false s.inflight = [] ∧ LinkedLast Sqe.link Sqe.written s.dev.sq
  | .complete k outcome => linkAfter Sqe.link false (s.inflight.take k) = false ∧
      ∀ e ∈ s.inflight[k]?, e.link = true ∨ e.written.isSome → outcome = .count e.bytes.length
  | _ => True

instance (s : Sys) (e : Event) : Decidable (InTurn s e) :=
  match e with
  | .submit => inferInstanceAs (Decidable (_ ∨ _ ∧ _))
  | .complete _ _ => inferInstanceAs (Decidable (_ ∧ _))
  | .reap => .isTrue trivial
  | .handle _ => .isTrue trivial

namespace Sys

variable {s s' : Sys} {e : Event}

/-- What is queued is in chains of header and payload. -/
theorem chained_step (h : Chained Sqe.link s.dev.sq) (hs : s.step e = .ok s') :
    Chained Sqe.link s'.dev.sq := by
  cases e with
  | submit =>
    obtain ⟨-, rfl⟩ := Sys.submit_ok hs
    trivial
  | reap =>
    obtain ⟨-, -, -, rfl⟩ := Sys.reap_ok hs
    exact h
  | complete k outcome =>
    obtain ⟨e, u, -, -, -, rfl⟩ := complete_ok hs
    show Chained Sqe.link (s.fill u outcome).dev.sq
    rw [(s.fill_pool u outcome).1]
    exact h
  | handle env =>
    obtain ⟨c, tail, hb, hh⟩ := Sys.handle_ok hs
    obtain ⟨es, ms, hq, -, -, hc⟩ := hh.carries
    rw [hq]
    exact h.append hc

theorem chained_start (info : DeviceInfo) (os : Os) : Chained Sqe.link (start info os).dev.sq :=
  Chained.append (chained_singleton rfl) (chained_singleton rfl)

/-- The wire, the payload that waits and what is queued are the messages sent. -/
structure Carried (s : Sys) (wire : List Bytes) : Prop where
  order : wire ++ (blocked Sqe.link false s.inflight).filterMap Sqe.written ++
    s.dev.sq.filterMap Sqe.written = (s.dev.sent.flatMap writesOf).map Prod.fst
  chained : Chained Sqe.link s.inflight
  one : ((blocked Sqe.link false s.inflight).filterMap Sqe.written).length ≤ 1

theorem Carried.start (info : DeviceInfo) (os : Os) : (start info os).Carried [] where
  order := by
    have h1 : Sqe.written ⟨(UserData.mk .ep0Poll none).toU64, [], false⟩ = none :=
      written_op (by decide) ..
    have h2 : Sqe.written ⟨(UserData.mk .bulkOutReadHeader none).toU64, [], false⟩ = none :=
      written_op (by decide) ..
    show [] ++ [] ++ ([_, _] : List Sqe).filterMap Sqe.written = []
    rw [List.filterMap_cons, h1, List.filterMap_cons, h2]
    rfl
  chained := trivial
  one := Nat.zero_le 1

theorem Held.slotBytes_eq (h : s.Held) {e : Sqe} (he : e ∈ s.dev.sq ++ s.inflight) :
    s.slotBytes e = e.written := by
  unfold slotBytes Sqe.written
  cases hw : writeSlot e.userData with
  | none => rfl
  | some slot => exact h e he slot hw

theorem Held.filterMap_eq (h : s.Held) {es : List Sqe} (he : ∀ e ∈ es, e ∈ s.dev.sq ++ s.inflight) :
    es.filterMap s.slotBytes = es.filterMap Sqe.written :=
  List.filterMap_congr fun e hm => h.slotBytes_eq (he e hm)

theorem Carried.submit {wire : List Bytes} (h : s.Carried wire) (hheld : s.Held)
    (hq : Chained Sqe.link s.dev.sq) (hok : InTurn s .submit) (hs : s.step .submit = .ok s') :
    s'.Carried (wire ++ s.starts .submit) := by
  simp only [Sys.step] at hs
  split at hs
  swap
  · cases hs
  cases hs
  have hstart : s.starts .submit = (started Sqe.link false s.dev.sq).filterMap Sqe.written :=
    hheld.filterMap_eq fun e he => List.mem_append_left _ ((started_sublist ..).subset he)
  have hwait : blocked Sqe.link false (s.inflight ++ s.dev.sq) =
      blocked Sqe.link false s.inflight ++ blocked Sqe.link false s.dev.sq := by
    rw [blocked_append, h.chained.linkAfter_eq]
  have horder := h.order
  rcases hok with hnone | ⟨hfree, hlast⟩
  · have h1 := filterMap_nil_of_sublist (started_sublist Sqe.link false s.dev.sq) hnone
    have h2 := filterMap_nil_of_sublist (blocked_sublist Sqe.link false s.dev.sq) hnone
    have hsame : (blocked Sqe.link false (s.inflight ++ s.dev.sq)).filterMap Sqe.written =
        (blocked Sqe.link false s.inflight).filterMap Sqe.written := by
      rw [hwait, List.filterMap_append, h2, List.append_nil]
    refine ⟨?_, h.chained.append hq, by rw [hsame]; exact h.one⟩
    rw [hstart, h1, hsame, List.append_nil]
    rwa [hnone] at horder
  · have hsplit := started_blocked hq hlast
    refine ⟨?_, h.chained.append hq, ?_⟩
    · rw [hfree, List.filterMap_nil, List.append_nil] at horder
      rw [hstart, hwait, hfree, List.nil_append, List.filterMap_nil, List.append_nil,
        List.append_assoc, hsplit]
      exact horder
    · rw [hwait, hfree, List.nil_append]
      exact blocked_le_one hq hlast

/-- A completed header's write starts its payload. -/
theorem Carried.complete {wire : List Bytes} {k : Nat} {outcome : Outcome} (h : s.Carried wire)
    (hheld : s.Held) (hok : InTurn s (.complete k outcome))
    (hs : s.step (.complete k outcome) = .ok s') :
    s'.Carried (wire ++ s.starts (.complete k outcome)) := by
  obtain ⟨e, u, he, -, -, rfl⟩ := complete_ok hs
  obtain ⟨hfirst, hwhole⟩ := hok
  have hsq : (s.fill u outcome).dev.sq = s.dev.sq := (s.fill_pool u outcome).1
  have hsent : (s.fill u outcome).dev.sent = s.dev.sent := by
    simp only [Dev.sent, (s.fill_frame u outcome).2.1]
  obtain ⟨hk, rfl⟩ := List.getElem?_eq_some_iff.mp he
  have hcut : s.inflight = s.inflight.take k ++ s.inflight[k] :: s.inflight.drop (k + 1) := by
    rw [← List.drop_eq_getElem_cons hk, List.take_append_drop]
  have herase : s.inflight.eraseIdx k = s.inflight.take k ++ s.inflight.drop (k + 1) :=
    List.eraseIdx_eq_take_drop_succ ..
  have hchained : Chained Sqe.link (s.inflight.take k ++ s.inflight[k] :: s.inflight.drop (k + 1)) :=
    hcut ▸ h.chained
  have horder := h.order
  have hone := h.one
  -- the rest of the state is as it was: what waits and what starts decide
  suffices hw : s.starts (.complete k outcome) ++
      (blocked Sqe.link false (s.inflight.eraseIdx k)).filterMap Sqe.written =
        (blocked Sqe.link false s.inflight).filterMap Sqe.written by
    refine ⟨?_, ?_, ?_⟩
    · show _ ++ _ ++ (s.fill u outcome).dev.sq.filterMap Sqe.written =
        ((s.fill u outcome).dev.sent.flatMap writesOf).map Prod.fst
      rw [hsq, hsent, List.append_assoc wire, hw]
      exact horder
    · show Chained Sqe.link (s.inflight.eraseIdx k)
      rw [herase]
      exact Chained.remove hfirst hchained
    · have hlen := congrArg List.length hw
      rw [List.length_append] at hlen
      show ((blocked Sqe.link false (s.inflight.eraseIdx k)).filterMap Sqe.written).length ≤ 1
      omega
  cases hlink : (s.inflight[k]).link with
  | false =>
    have hstart : s.starts (.complete k outcome) = [] := by simp [starts, he, hlink]
    rw [hstart, herase, List.nil_append, ← blocked_remove hfirst hlink, ← hcut]
  | true =>
    have hcount := hwhole _ he (.inl hlink)
    obtain ⟨p, rest, hdrop, hp⟩ := ((chained_append_iff hfirst).mp hchained).2.1 hlink
    have hnext : s.inflight[k + 1]? = some p := by
      have := congrArg List.head? hdrop
      rwa [List.head?_drop, List.head?_cons] at this
    have hstart : s.starts (.complete k outcome) = p.written.toList := by
      have hbytes := hheld.slotBytes_eq (List.mem_append_right _ (List.mem_of_getElem? hnext))
      simp [starts, he, hlink, hcount, hnext, hbytes]
    obtain ⟨hbefore, hafter⟩ := blocked_remove_link hfirst hlink p rest
    have hwas : blocked Sqe.link false s.inflight =
        blocked Sqe.link false (s.inflight.take k) ++ p :: blocked Sqe.link p.link rest := by
      rw [← hbefore, ← hdrop, ← hcut]
    rw [hwas] at hone ⊢
    rw [hstart, herase, hdrop, hafter]
    cases hpw : p.written with
    | none => simp [hpw]
    | some bytes =>
      -- only one payload waits, so it is the first
      simp only [List.filterMap_append, List.filterMap_cons, hpw, List.length_append,
        List.length_cons] at hone ⊢
      have h1 := List.length_eq_zero_iff.mp (show
        ((blocked Sqe.link false (s.inflight.take k)).filterMap Sqe.written).length = 0 by omega)
      rw [h1]
      rfl

theorem Carried.step {wire : List Bytes} (h : s.Carried wire) (hheld : s.Held)
    (hq : Chained Sqe.link s.dev.sq) (hok : InTurn s e) (hs : s.step e = .ok s') :
    s'.Carried (wire ++ s.starts e) := by
  cases e with
  | submit => exact h.submit hheld hq hok hs
  | complete k outcome => exact h.complete hheld hok hs
  | reap =>
    obtain ⟨-, -, -, rfl⟩ := Sys.reap_ok hs
    rw [show s.starts .reap = [] from rfl, List.append_nil]
    exact ⟨h.order, h.chained, h.one⟩
  | handle env =>
    rw [show s.starts (.handle env) = [] from rfl, List.append_nil]
    obtain ⟨c, tail, hb, hh⟩ := Sys.handle_ok hs
    have hfly : s'.inflight = s.inflight := by cases hh <;> rfl
    obtain ⟨es, ms, hsq, hsent, hw, -⟩ := hh.carries
    refine ⟨?_, hfly ▸ h.chained, hfly ▸ h.one⟩
    have horder := h.order
    rw [hfly, hsq, hsent, List.filterMap_append, List.flatMap_append, List.map_append,
      ← List.append_assoc, hw]
    exact congrArg (· ++ _) horder

end Sys

/-! ## The host's end -/

/-- What makes a message readable: the header announces the payload and its own
command, and a CNXN with a payload the newer version. -/
structure Readable (m : AdbHeader × Bytes) : Prop where
  magic : m.1.magic = m.1.command.toU32 ^^^ 0xffffffff
  length : m.1.dataLength.toNat = m.2.length
  cnxn : m.1.command = .cnxn → m.2 ≠ [] → ProtocolVersion.tryFrom m.1.arg0 = some .v1

theorem readable_of_header {v : ProtocolVersion} {c : Command} {a b : UInt32} {m : AdbHeader × Bytes}
    (h : headerFromPayload v c a b m.2 = .ok m.1)
    (hc : c = .cnxn → ProtocolVersion.tryFrom a = some .v1) : Readable m := by
  obtain ⟨hcmd, harg, -, hlen, -, hmagic⟩ := headerFromPayload_ok h
  exact ⟨by rw [hmagic, hcmd], hlen, fun h1 _ => by rw [harg]; exact hc (hcmd.symm.trans h1)⟩

theorem Sys.Utters.readable {s : Sys} {e : Event} {m : AdbHeader × Bytes} (h : s.Utters e m) :
    Readable m := by
  cases h with
  | bare c a b => exact ⟨rfl, rfl, fun _ hne => absurd rfl hne⟩
  | wrte hst hb ha => exact readable_of_header hb fun h => Command.noConfusion h
  | cnxn he hi hc hr => exact readable_of_header hr fun _ => rfl

/-- A readable message comes back whole from a receiver of the newer version. -/
theorem run_readable {m : AdbHeader × Bytes} (h : Readable m) :
    rx.run ⟨none, .v1⟩ ((writesOf m).map Prod.fst) = (⟨none, .v1⟩, received m) := by
  obtain ⟨hd, p⟩ := m
  have hparse : parseHeader hd.asLeBytes = some (hd, []) := by
    have := parseHeader_asLeBytes h.magic []
    rwa [List.append_nil] at this
  by_cases hp : p = []
  · have hz : ¬ hd.dataLength > 0 := by
      intro hgt
      have := UInt32.lt_iff_toNat_lt.mp hgt
      rw [h.length, hp] at this
      exact absurd this (Nat.lt_irrefl _)
    have hv : versionAfter .v1 hd none = .v1 := by
      unfold versionAfter
      split <;> simp_all
    simp [writesOf, received, hp, Mealy.run_cons, rx, hparse, hz, hv]
  · have hz : hd.dataLength > 0 := by
      refine UInt32.lt_iff_toNat_lt.mpr ?_
      rw [h.length]
      exact List.length_pos_iff.mpr hp
    have hv : versionAfter .v1 hd (some p) = .v1 := by
      unfold versionAfter
      split
      · rename_i hc _
        rw [h.cnxn hc hp]
        rfl
      · rfl
    have hchk : checksumOk .v1 hd p = true := rfl
    simp [writesOf, received, hp, Mealy.run_cons, rx, hparse, hz, hchk, hv]

theorem run_readables {ms : List (AdbHeader × Bytes)} (h : ∀ m ∈ ms, Readable m) :
    rx.run ⟨none, .v1⟩ ((ms.flatMap writesOf).map Prod.fst) = (⟨none, .v1⟩, ms.flatMap received) := by
  induction ms with
  | nil => rfl
  | cons m ms ih =>
    rw [List.flatMap_cons, List.map_append, Mealy.run_append, run_readable (h m (.head _)),
      ih fun n hn => h n (.tail _ hn), List.flatMap_cons]

namespace Sys

theorem readable_of_reach {Ok : Sys → Event → Prop} {info : DeviceInfo} {os : Os} {s : Sys}
    (h : Reach step Ok (start info os) s) : ∀ m ∈ s.dev.sent, Readable m := by
  refine h.invariant (I := fun s => ∀ m ∈ s.dev.sent, Readable m) (List.forall_mem_nil _) ?_
  intro t e u ht _ hs m hm
  obtain ⟨new, hsent, hnew⟩ := utters_of_ok hs
  rw [hsent] at hm
  rcases List.mem_append.mp hm with h1 | h1
  · exact ht m h1
  · exact (hnew m h1).readable

end Sys

/-- **The wire of a run.** What is queued is in chains of a header and its payload. In a
run that drops no stream under a read and hands over every payload as the last write
before it starts, what has gone out, the payload that waits for its header and the
writes that are queued are the messages sent, in order; and what has gone out is read
back as the first of them. -/
theorem wire_carries_sent {info : DeviceInfo} {os : Os} {s : Sys} {wire : List Bytes}
    {Ok : Sys → Event → Prop}
    (h : Reach (observed Sys.step Sys.starts) (fun p e => Ok p.1 e) (Sys.start info os, [])
      (s, wire)) :
    Chained Sqe.link s.dev.sq ∧
    ((∀ s e, Ok s e → KeepsReads s e ∧ InTurn s e) →
      wire ++ (blocked Sqe.link false s.inflight).filterMap Sqe.written ++
          s.dev.sq.filterMap Sqe.written = (s.dev.sent.flatMap writesOf).map Prod.fst ∧
      (rx.run ⟨none, .v1⟩ wire).2 <+: s.dev.sent.flatMap received) := by
  have hreach : Reach Sys.step Ok (Sys.start info os) s :=
    Reach.forget (p := (_, [])) (q := (s, wire)) h
  refine ⟨hreach.invariant (I := fun s => Chained Sqe.link s.dev.sq) (Sys.chained_start info os)
    fun _ _ _ hi _ hs => Sys.chained_step hi hs, fun hok => ?_⟩
  have hinv : s.Intact ∧ Chained Sqe.link s.dev.sq ∧ s.Carried wire := by
    refine h.invariant (I := fun p => p.1.Intact ∧ Chained Sqe.link p.1.dev.sq ∧ p.1.Carried p.2)
      ⟨.start info os, Sys.chained_start info os, .start info os⟩ ?_
    rintro ⟨t, w⟩ e ⟨u, w'⟩ ⟨hrun, hq, hc⟩ hokp hs
    obtain ⟨hstep, rfl⟩ : t.step e = .ok u ∧ w' = w ++ t.starts e := observed_ok hs
    obtain ⟨hkeeps, hturn⟩ := hok _ _ hokp
    exact ⟨hrun.step hkeeps hstep, Sys.chained_step hq hstep, hc.step hrun.held hq hturn hstep⟩
  have horder := hinv.2.2.order
  refine ⟨horder, ?_⟩
  have hread := run_readables (Sys.readable_of_reach hreach)
  rw [← horder, List.append_assoc, Mealy.run_append] at hread
  exact ⟨_, congrArg Prod.snd hread⟩

def Sys.Turn.written (slot : UInt32) (n : Nat) : Sys.Turn :=
  ⟨(UserData.mk .bulkInWrite (NonZeroU32.new slot)).toU64, .count n, {}⟩

def Sys.askedStat : List Sys.Turn :=
  Sys.openSync ++ [.written 1 24] ++
    Sys.Turn.message .wrte 7 1 (ascii "STAT" ++ le32 1 ++ ascii "a") ++ [.written 1 24]

/-- Each write completes before the next message is handled. -/
theorem wire_carries_stat : ∃ s wire,
    Reach (observed Sys.step Sys.starts) (fun p e => KeepsReads p.1 e ∧ InTurn p.1 e) (Sys.fresh, [])
      (s, wire) ∧
    s.dev.sent.map (fun m => (m.1.command, m.2.length)) = [(.okay, 0), (.okay, 0), (.wrte, 16)] ∧
    wire = (s.dev.sent.flatMap writesOf).map Prod.fst ∧
    (rx.run ⟨none, .v1⟩ wire).2 <+: s.dev.sent.flatMap received := by
  have hrun : (Sys.fresh.play (fun s e => keepsReads s e && decide (InTurn s e))
      (Sys.askedStat ++ [.written 2 24, .written 3 16])).map (fun s =>
        (s.dev.sent.map (fun m => (m.1.command, m.2.length)),
          (blocked Sqe.link false s.inflight).isEmpty, s.dev.sq.filterMap Sqe.written)) =
        some ([(.okay, 0), (.okay, 0), (.wrte, 16)], true, []) := by
    decide +kernel
  obtain ⟨s, hs, he⟩ := Option.map_eq_some_iff.mp hrun
  simp only [Prod.mk.injEq] at he
  obtain ⟨hsent, hnone, hq⟩ := he
  have hreach : Reach Sys.step (fun s e => KeepsReads s e ∧ InTurn s e) Sys.fresh s :=
    Sys.reach_of_play (fun t e ht => by
      obtain ⟨h1, h2⟩ := Bool.and_eq_true_iff.mp ht
      exact ⟨.of_keepsReads h1, of_decide_eq_true h2⟩) hs
  obtain ⟨wire, hw⟩ : ∃ wire, Reach (observed Sys.step Sys.starts)
      (fun p e => KeepsReads p.1 e ∧ InTurn p.1 e) (Sys.fresh, []) (s, wire) := hreach.observe
  obtain ⟨horder, hread⟩ := (wire_carries_sent hw).2 fun _ _ => id
  rw [List.isEmpty_iff.mp hnone, hq, List.filterMap_nil, List.append_nil, List.append_nil] at horder
  exact ⟨s, wire, hw, hsent, horder, hread⟩

/-- A CLSE is answered while the payload of a WRTE waits for its header. -/
def Sys.closedBetween : List Sys.Turn :=
  Sys.askedStat ++ Sys.Turn.message .clse 7 1 [] ++ [.written 2 24]

/-- The header of the CLSE gets between the WRTE's header and its payload, and is read as
the payload. -/
theorem header_overtakes : ∃ s wire,
    Reach (observed Sys.step Sys.starts) (fun p e => KeepsReads p.1 e) (Sys.fresh, []) (s, wire) ∧
    wire.map List.length = [24, 24, 24, 24, 16] ∧
    ∃ wrte clse, s.dev.sent.drop 2 = [wrte, clse] ∧ wrte.1.command = .wrte ∧ clse.1.command = .clse ∧
      .heard wrte.1 (some clse.1.asLeBytes) ∈ (rx.run ⟨none, .v1⟩ wire).2 := by
  have hrun : (Sys.playShown Sys.starts keepsReads (Sys.fresh, []) Sys.closedBetween).map (fun p =>
      (p.2.map List.length, decide (∃ wrte ∈ p.1.dev.sent, ∃ clse ∈ p.1.dev.sent,
        p.1.dev.sent.drop 2 = [wrte, clse] ∧ wrte.1.command = .wrte ∧ clse.1.command = .clse ∧
          .heard wrte.1 (some clse.1.asLeBytes) ∈ (rx.run ⟨none, .v1⟩ p.2).2))) =
      some ([24, 24, 24, 24, 16], true) := by
    decide +kernel
  obtain ⟨⟨s, wire⟩, hs, he⟩ := Option.map_eq_some_iff.mp hrun
  simp only [Prod.mk.injEq] at he
  obtain ⟨hlen, hread⟩ := he
  obtain ⟨wrte, -, clse, -, hover⟩ := of_decide_eq_true hread
  exact ⟨s, wire, Sys.reach_of_playShown (fun _ _ => KeepsReads.of_keepsReads) hs, hlen,
    wrte, clse, hover⟩

end Adibi
