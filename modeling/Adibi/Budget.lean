import Adibi.Simulation
import Adibi.Sync.Panics

/-!
# What a handler can panic on

A handler panics in a service, at one of the dispatcher's own checks (`Trips`),
or while it submits. What a submission needs is a resource that submissions use
up; `Budget` says that it is enough for what is to be submitted, and then the
handler does not run out of it (`Budget.handleCommand`). A completion panics
where its handler does, or where the next operation is queued (`Sys.handle_raises`).
-/

namespace Adibi

open Lib

/-- The `expect`, `assert` and `unreachable!` sites of the dispatcher. -/
def Panic.OfDispatch (p : Panic) : Prop :=
  p = .cnxnPayload ∨ p = .openPayload ∨ p = .wrtePayload ∨ p = .okayPayload ∨ p = .clseRemoteId ∨
    p = .rebootWrte ∨ p = .rebootContinue

/-- A panic that is neither the dispatcher's nor for want of a slot or a queue entry. -/
structure Panic.Plain (p : Panic) : Prop where
  slots : p ≠ .slotsInUse
  queue : p ≠ .sqFull
  dispatch : ¬ p.OfDispatch

instance (p : Panic) : Decidable p.OfDispatch := inferInstanceAs (Decidable (_ ∨ _))

theorem Panic.plain_of {p : Panic} (h : (p ≠ .slotsInUse ∧ p ≠ .sqFull) ∧ ¬ p.OfDispatch) :
    p.Plain := ⟨h.1.1, h.1.2, h.2⟩

theorem Panic.OfSync.plain {p : Panic} (h : p.OfSync) : p.Plain := by
  rcases h with rfl | rfl | rfl | rfl <;> exact Panic.plain_of (by decide)

theorem Dev.nonZero_raises {p : Panic} (hp : p.Plain) (w : UInt32) :
    Raises (nonZero p w) Panic.Plain := by
  unfold nonZero
  split
  · exact .ok _
  · exact .error hp

/-! ## Effects -/

section

variable {env : Env} {v : ProtocolVersion} {i : UInt32} {os : Os} {st : Stream} {e : Effect}
  {svc : SyncService} {payload : Bytes}

theorem headerFromPayload_raises (v : ProtocolVersion) (c : Command) (a b : UInt32) (p : Bytes) :
    Raises (headerFromPayload v c a b p) Panic.Plain := by
  refine Raises.bind ?_ fun _ _ => ((lenU32_raises _).mono fun _ => Panic.OfSync.plain).bind
    fun _ _ => .ok _
  split
  · unfold checksum
    split
    · exact .ok _
    · exact .error (Panic.plain_of (by decide))
  · exact .ok _

theorem wrteOut_raises (v : ProtocolVersion) (i r : UInt32) (data : Bytes) :
    Raises (wrteOut v i r data) Panic.Plain :=
  (headerFromPayload_raises v .wrte i r data).bind fun _ _ => .ok _

theorem readOut_raises (op : UserDataOpType) (i : UInt32) : Raises (readOut op i) Panic.Plain :=
  (Dev.nonZero_raises (p := .serviceIdZero) (Panic.plain_of (by decide)) i).bind fun _ _ => .ok _

theorem firstRead_raises (i : UInt32) (st : Stream) : Raises (firstRead i st) Panic.Plain := by
  have hmap : ∀ op, Raises ((readOut op i).map fun o => [o]) Panic.Plain := by
    intro op
    refine ⟨fun p hp => ?_⟩
    cases ho : readOut op i with
    | ok o =>
      rw [ho] at hp
      cases hp
    | error q =>
      rw [ho] at hp
      cases hp
      exact (readOut_raises op i).of_error _ ho
  unfold firstRead
  split
  · exact hmap _
  · exact hmap _
  · exact .ok _

theorem continueSync_raises (env : Env) (v : ProtocolVersion) (i : UInt32) (os : Os) (st : Stream) :
    Raises (continueSync env v i os st) Panic.Plain := by
  unfold continueSync
  split
  · exact .ok _
  · split
    · refine ((FileSender.nextFrame_raises ..).mono fun _ => Panic.OfSync.plain).bind fun x _ => ?_
      obtain ⟨frame, sender⟩ := x
      cases frame with
      | none => exact .ok _
      | some r => exact (wrteOut_raises ..).bind fun _ _ => .ok _
    · exact .ok _

theorem onOkay_raises (env : Env) (v : ProtocolVersion) (i : UInt32) (os : Os) (st : Stream) :
    Raises (onOkay env v i os st) fun p =>
      p.Plain ∨ (p = .rebootContinue ∧ st.service = .reboot) := by
  unfold onOkay
  simp only
  cases hs : st.service with
  | sync svc => exact (continueSync_raises ..).mono fun _ => .inl
  | shell sh => exact ((readOut_raises ..).bind fun _ _ => .ok _).mono fun _ => .inl
  | forward fwd => exact ((readOut_raises ..).bind fun _ _ => .ok _).mono fun _ => .inl
  | reboot => exact .error (.inr ⟨rfl, rfl⟩)

theorem onSync_raises (env : Env) (v : ProtocolVersion) (i : UInt32) (os : Os) (st : Stream)
    (svc : SyncService) (payload : Bytes) :
    Raises (onSync env v i os st svc payload) Panic.Plain := by
  refine ((SyncService.handle_raises ..).mono fun _ => Panic.OfSync.plain).bind fun x _ => ?_
  obtain ⟨result, svc', fs⟩ := x
  cases result with
  | stat stat => exact (wrteOut_raises ..).bind fun _ _ => .ok _
  | data hdr data => exact (wrteOut_raises ..).bind fun _ _ => .ok _
  | «continue» => exact continueSync_raises ..
  | quit => exact .ok _

theorem onWrte_raises (env : Env) (v : ProtocolVersion) (i : UInt32) (os : Os) (st : Stream)
    (payload : Bytes) :
    Raises (onWrte env v i os st payload) fun p =>
      p.Plain ∨ (p = .rebootWrte ∧ st.service = .reboot) := by
  unfold onWrte
  cases hs : st.service with
  | sync svc => exact (onSync_raises ..).mono fun _ => .inl
  | shell sh => exact .ok _
  | forward fwd => exact .ok _
  | reboot => exact .error (.inr ⟨rfl, rfl⟩)

theorem onClse_raises (env : Env) (i : UInt32) (os : Os) (st : Stream) (r : UInt32) :
    Raises (onClse env i os st r) fun p => p.Plain ∨ (p = .clseRemoteId ∧ st.remoteId ≠ r) := by
  unfold onClse
  by_cases hr : st.remoteId ≠ r
  · rw [if_pos hr]
    exact .error (.inr ⟨rfl, hr⟩)
  · rw [if_neg hr]
    split <;> exact .ok _

theorem onRead_raises (v : ProtocolVersion) (i : UInt32) (os : Os) (st : Stream)
    (op : UserDataOpType) (res : Int) : Raises (onRead v i os st op res) Panic.Plain := by
  unfold onRead
  split
  · exact .ok _
  · split
    · exact .ok _
    · exact (wrteOut_raises ..).bind fun _ _ => .ok _

end

/-! ## Messages -/

/-- The dispatcher's site a message reaches. -/
def Dev.Trips (d : Dev) (h : AdbHeader) (p : Option Bytes) : Panic → Prop
  | .cnxnPayload => h.command = .cnxn ∧ p = none
  | .openPayload => h.command = .open ∧ p = none
  | .wrtePayload => h.command = .wrte ∧ p = none
  | .okayPayload => h.command = .okay ∧ p ≠ none
  | .clseRemoteId => h.command = .clse ∧
      ∃ st, d.streams.get h.arg1 = some st ∧ st.remoteId ≠ h.arg0
  | .rebootWrte => h.command = .wrte ∧ p ≠ none ∧
      ∃ st, d.streams.get h.arg1 = some st ∧ st.service = .reboot
  | .rebootContinue => h.command = .okay ∧ p = none ∧
      ∃ st, d.streams.get h.arg1 = some st ∧ st.service = .reboot
  | _ => False

/-- All that the handler of a message may submit costs at most `n`. -/
def Dev.Costs (cost : Out → Nat) (env : Env) (d : Dev) (h : AdbHeader) (p : Option Bytes)
    (n : Nat) : Prop :=
  match h.command, p with
  | .cnxn, some _ => ∀ header data, cost (.message header data) ≤ n
  | .open, some _ => cost (clseOut 0 h.arg0) ≤ n ∧ cost (okayOut d.streams.nextId h.arg0) ≤ n ∧
      ∀ svc outs, firstRead d.streams.nextId ⟨h.arg0, svc, false, false⟩ = .ok outs →
        cost (okayOut d.streams.nextId h.arg0) + (outs.map cost).sum ≤ n
  | .wrte, some payload => cost (okayOut h.arg1 h.arg0) ≤ n ∧
      ∀ st e, d.streams.get h.arg1 = some st →
        onWrte env d.version h.arg1 d.os st payload = .ok e →
        cost (okayOut h.arg1 h.arg0) + (e.outs.map cost).sum ≤ n
  | .okay, none => ∀ st e, d.streams.get h.arg1 = some st →
      onOkay env d.version h.arg1 d.os st = .ok e → (e.outs.map cost).sum ≤ n
  | .clse, _ => ∀ st e, d.streams.get h.arg1 = some st →
      onClse env h.arg1 d.os st h.arg0 = .ok e → (e.outs.map cost).sum ≤ n
  | _, _ => True

/-- A resource that submissions use up: `R d n` says that `n` units are left, and
then a submission of that cost raises only `P`. -/
structure Budget (P : Panic → Prop) (cost : Out → Nat) (R : Dev → Nat → Prop) : Prop where
  plain : ∀ p, p.Plain → P p
  emit : ∀ {d : Dev} {o : Out} {n : Nat}, R d (cost o + n) →
    Raises (d.emit o) P ∧ ∀ d', d.emit o = .ok d' → R d' n
  frame : ∀ {d d' : Dev} {n : Nat}, R d n → d'.buffers = d.buffers → d'.sq = d.sq → R d' n
  le : ∀ {d : Dev} {m n : Nat}, m ≤ n → R d n → R d m

namespace Budget

variable {P : Panic → Prop} {cost : Out → Nat} {R : Dev → Nat → Prop} {d : Dev} {n m : Nat}

/-- The computation raises only `P`, and leaves `m` units. -/
def Leaves (P : Panic → Prop) (R : Dev → Nat → Prop) (x : Except Panic Dev) (m : Nat) : Prop :=
  Raises x P ∧ ∀ d', x = .ok d' → R d' m

theorem Leaves.ok {d : Dev} (h : R d m) : Leaves P R (.ok d) m := by
  refine ⟨.ok d, fun d' hd => ?_⟩
  cases hd
  exact h

theorem Leaves.error {p : Panic} (h : P p) : Leaves P R (.error p) m :=
  ⟨.error h, fun _ hd => nomatch hd⟩

theorem Leaves.bind {α : Type} {x : Except Panic α} {f : α → Except Panic Dev} (hx : Raises x P)
    (hf : ∀ a, x = .ok a → Leaves P R (f a) m) : Leaves P R (x >>= f) m := by
  refine ⟨hx.bind fun a ha => (hf a ha).1, fun d' hd => ?_⟩
  obtain ⟨a, ha, hfa⟩ := bind_eq_ok.mp hd
  exact (hf a ha).2 d' hfa

theorem emitAll (b : Budget P cost R) {outs : List Out} (h : R d ((outs.map cost).sum + m)) :
    Leaves P R (d.emitAll outs) m := by
  induction outs generalizing d with
  | nil => exact .ok (b.le (by simp) h)
  | cons o outs ih =>
    rw [List.map_cons, List.sum_cons, Nat.add_assoc] at h
    obtain ⟨h1, h2⟩ := b.emit h
    rw [Dev.emitAll_cons]
    exact .bind h1 fun d1 hd1 => ih (h2 d1 hd1)

theorem effect (b : Budget P cost R) {j : UInt32} {f : Stream → Except Panic Effect}
    (h : R d (n + m)) (hf : ∀ st, d.streams.get j = some st → Raises (f st) P)
    (hc : ∀ st e, d.streams.get j = some st → f st = .ok e → (e.outs.map cost).sum ≤ n) :
    Leaves P R (match d.streams.get j with
      | none => Except.ok d
      | some st => f st >>= d.apply j) m := by
  cases hst : d.streams.get j with
  | none => exact .ok (b.le (Nat.le_add_left m n) h)
  | some st =>
    refine .bind (hf st hst) fun e he => b.emitAll ?_
    exact b.frame (b.le (Nat.add_le_add_right (hc st e hst he) m) h) rfl rfl

theorem emit_then (b : Budget P cost R) {o : Out} {f : Dev → Except Panic Dev} (h : R d (n + m))
    (ho : cost o ≤ n) (hf : ∀ d', d.emit o = .ok d' → R d' (n - cost o + m) → Leaves P R (f d') m) :
    Leaves P R (d.emit o >>= f) m := by
  have hsplit : cost o + (n - cost o + m) = n + m := by omega
  rw [← hsplit] at h
  obtain ⟨h1, h2⟩ := b.emit h
  exact .bind h1 fun d' hd => hf d' hd (h2 d' hd)

theorem emit_last (b : Budget P cost R) {o : Out} (h : R d (n + m)) (ho : cost o ≤ n) :
    Leaves P R (d.emit o) m := b.emit (b.le (Nat.add_le_add_right ho m) h)

theorem handleCommandOpen (b : Budget P cost R) {env : Env} {h : AdbHeader} {payload : Bytes}
    (hr : R d (n + m)) (hcmd : h.command = .open) (hc : d.Costs cost env h (some payload) n) :
    Leaves P R (d.handleCommandOpen env h payload) m := by
  simp only [Dev.Costs, hcmd] at hc
  obtain ⟨hclse, hokay, hread⟩ := hc
  rw [Dev.handleCommandOpen_eq]
  split
  · exact b.emit_last hr hclse
  · rename_i svc os _
    split
    · have hadd : R (d.added svc os h.arg0) (n + m) := b.frame hr rfl rfl
      refine b.emit_then hadd hokay fun d1 hd1 h1 =>
        .bind ((firstRead_raises ..).mono b.plain) fun outs houts => b.emitAll ?_
      refine b.le ?_ h1
      have := hread svc outs houts
      omega
    · exact .error (b.plain _ (Panic.plain_of (by decide)))

theorem handleCommandWrte (b : Budget P cost R) {env : Env} {h : AdbHeader} {payload : Bytes}
    (hr : R d (n + m)) (hcmd : h.command = .wrte) (hc : d.Costs cost env h (some payload) n)
    (hsite : ∀ q, d.Trips h (some payload) q → P q) :
    Leaves P R (d.handleCommandWrte env h payload) m := by
  simp only [Dev.Costs, hcmd] at hc
  obtain ⟨hokay, heff⟩ := hc
  rw [Dev.handleCommandWrte_eq]
  refine b.emit_then hr hokay fun d1 hd1 h1 => ?_
  obtain ⟨hst, hv, hos⟩ := Dev.emitAll_frame (by rw [Dev.emitAll_singleton]; exact hd1)
  refine b.effect h1 (fun st hget => (onWrte_raises ..).mono fun q hq => ?_) fun st e hget he => ?_
  · rcases hq with hq | ⟨rfl, hsv⟩
    · exact b.plain q hq
    · rw [hst] at hget
      exact hsite .rebootWrte ⟨hcmd, by simp, st, hget, hsv⟩
  · rw [hst] at hget
    rw [hv, hos] at he
    have := heff st e hget he
    omega

/-- **A handler that has enough does not run out**: it raises only `P`, provided
the sites it trips are in `P`, and leaves what it did not need. -/
theorem handleCommand (b : Budget P cost R) {env : Env} {h : AdbHeader} {p : Option Bytes}
    (hr : R d (n + m)) (hc : d.Costs cost env h p n) (hsite : ∀ q, d.Trips h p q → P q) :
    Leaves P R (d.handleCommand env h p) m := by
  have hlog : R (d.log (.heard h p)) (n + m) := b.frame hr rfl rfl
  unfold Dev.handleCommand
  simp only
  cases hcmd : h.command with
  | auth => exact .ok (b.le (Nat.le_add_left m n) hlog)
  | stls => exact .ok (b.le (Nat.le_add_left m n) hlog)
  | cnxn =>
    cases p with
    | none => exact .error (hsite .cnxnPayload ⟨hcmd, rfl⟩)
    | some payload =>
      simp only [Dev.Costs, hcmd] at hc
      refine .bind (Raises.mono ?_ b.plain) fun x _ => ?_
      · exact (headerFromPayload_raises ..).bind fun _ _ => .ok _
      · exact b.emit_last (o := .message x.1 x.2) (b.frame hlog rfl rfl) (hc x.1 x.2)
  | «open» =>
    cases p with
    | none => exact .error (hsite .openPayload ⟨hcmd, rfl⟩)
    | some payload => exact b.handleCommandOpen hlog hcmd hc
  | wrte =>
    cases p with
    | none => exact .error (hsite .wrtePayload ⟨hcmd, rfl⟩)
    | some payload => exact b.handleCommandWrte hlog hcmd hc hsite
  | okay =>
    cases p with
    | some payload => exact .error (hsite .okayPayload ⟨hcmd, by simp⟩)
    | none =>
      simp only [Dev.Costs, hcmd] at hc
      simp only [Dev.handleCommandOkay_eq]
      refine b.effect hlog (fun st hst => (onOkay_raises ..).mono fun q hq => ?_) hc
      rcases hq with hq | ⟨rfl, hsv⟩
      · exact b.plain q hq
      · exact hsite .rebootContinue ⟨hcmd, rfl, st, hst, hsv⟩
  | clse =>
    have hc' : ∀ st e, d.streams.get h.arg1 = some st →
        onClse env h.arg1 d.os st h.arg0 = .ok e → (e.outs.map cost).sum ≤ n := by
      cases p <;> simpa only [Dev.Costs, hcmd] using hc
    simp only [Dev.handleCommandClse_eq]
    refine b.effect hlog (fun st hst => (onClse_raises ..).mono fun q hq => ?_) hc'
    rcases hq with hq | ⟨rfl, hne⟩
    · exact b.plain q hq
    · exact hsite .clseRemoteId ⟨hcmd, st, hst, hne⟩

end Budget

/-! ## Completions -/

/-- The end of a run, by a panic of `P` if it panics. -/
def Halt.Of (P : Panic → Prop) : Halt → Prop
  | .panic p => P p
  | _ => True

namespace Sys

variable {P : Panic → Prop} {s : Sys} {env : Env}

theorem lift_raises {x : Except Panic Dev} (h : Raises x P) (s : Sys) :
    Raises (s.lift x) (Halt.Of P) := by
  cases x with
  | ok d => exact .ok _
  | error p => exact .error (h.of_error p rfl)

theorem transfer_raises (hplain : ∀ p, p.Plain → P p) (s : Sys) (res : Int) :
    Raises (s.transfer res) (Halt.Of P) := by
  unfold transfer
  split
  · exact .error trivial
  · unfold BulkBuf.slice
    split
    · exact .ok _
    · rename_i hs
      split at hs
      · cases hs
      · cases hs
        exact .error (hplain _ (Panic.plain_of (by decide)))

theorem badChecksum_raises (v : ProtocolVersion) (h : AdbHeader) (data : Bytes) :
    Raises (badChecksum v h data) Panic.Plain := by
  unfold badChecksum checksum
  split
  · split
    · exact .ok _
    · exact .error (Panic.plain_of (by decide))
  · exact .ok _

theorem onHeader_raises {data : Bytes} (ha : s.arriving = some (false, data))
    (hnext : ∀ t op, Raises ((s.dev.log t).submitBulkOutRead op) P)
    (hcmd : ∀ t h p, s.incoming = some (h, p) → Raises ((s.dev.log t).handleCommand env h p >>=
      fun d => d.submitBulkOutRead .bulkOutReadHeader) P) (batch : List Cqe) :
    Raises (Sys.onHeader env { s with batch } data) (Halt.Of P) := by
  unfold onHeader
  simp only
  cases hp : parseHeader data with
  | none => exact lift_raises (hnext _ _) _
  | some x =>
    obtain ⟨h, t⟩ := x
    by_cases hl : h.dataLength > 0
    · simp only [if_pos hl]
      exact lift_raises (hnext _ _) _
    · have hin : s.incoming = some (h, none) := by simp only [incoming, ha, hp, hl, if_false]
      simp only [if_neg hl]
      exact lift_raises (hcmd _ _ _ hin) _

theorem onPayload_raises (hplain : ∀ p, p.Plain → P p) {data : Bytes}
    (ha : s.arriving = some (true, data))
    (hnext : ∀ t op, Raises ((s.dev.log t).submitBulkOutRead op) P)
    (hcmd : ∀ t h p, s.incoming = some (h, p) → Raises ((s.dev.log t).handleCommand env h p >>=
      fun d => d.submitBulkOutRead .bulkOutReadHeader) P) (batch : List Cqe) :
    Raises (Sys.onPayload env { s with batch } data) (Halt.Of P) := by
  unfold onPayload
  simp only
  cases hp : s.pendingHeader with
  | none => exact lift_raises (hnext _ _) _
  | some h =>
    refine lift_raises (((badChecksum_raises ..).mono hplain).bind fun bad hbad => ?_) _
    cases bad with
    | true => exact hnext _ _
    | false =>
      have hbad' : badChecksum s.dev.version h data = .ok false := hbad
      have hin : s.incoming = some (h, some data) := by simp only [incoming, ha, hp, hbad']
      exact hcmd _ _ _ hin

/-- **What a completion can panic on**: what its handler can, or the push of the
operation that follows it. -/
theorem handle_raises (hplain : ∀ p, p.Plain → P p)
    (hread : ∀ op i res, s.ending = some (op, i, res) →
      Raises (if res ≤ 0 then readEnd s.dev i else readRelay s.dev op i res.toNat) P)
    (hpoll : ∀ c tail x, s.batch = c :: tail → UserData.tryFrom c.userData = some ⟨.ep0Poll, x⟩ →
      Raises s.dev.submitEp0Poll P)
    (hnext : ∀ b data, s.arriving = some (b, data) → ∀ t op,
      Raises ((s.dev.log t).submitBulkOutRead op) P)
    (hcmd : ∀ t h p, s.incoming = some (h, p) → Raises ((s.dev.log t).handleCommand env h p >>=
      fun d => d.submitBulkOutRead .bulkOutReadHeader) P) :
    Raises (s.step (.handle env)) (Halt.Of P) := by
  cases hb : s.batch with
  | nil =>
    simp only [step, hb]
    exact .error trivial
  | cons c tail =>
    simp only [step, hb, handleCqe]
    cases ht : UserData.tryFrom c.userData with
    | none => exact .ok _
    | some u =>
      obtain ⟨op, x⟩ := u
      cases op with
      | ptyRead =>
        cases x with
        | none => exact .error (hplain _ (Panic.plain_of (by decide)))
        | some j =>
          simp only [← apply_ite ({ s with batch := tail }.lift)]
          exact lift_raises (hread _ _ _ (ending_eq hb (.inl rfl) ht)) _
      | socketRead =>
        cases x with
        | none => exact .error (hplain _ (Panic.plain_of (by decide)))
        | some j =>
          simp only [← apply_ite ({ s with batch := tail }.lift)]
          exact lift_raises (hread _ _ _ (ending_eq hb (.inr rfl) ht)) _
      | bulkInWrite =>
        cases x with
        | none =>
          simp only
          split
          · exact .error trivial
          · exact .error (hplain _ (Panic.plain_of (by decide)))
        | some slot =>
          refine lift_raises ?_ _
          unfold BufferManager.free
          split
          · exact .error (hplain _ (Panic.plain_of (by decide)))
          · exact .ok _
      | ep0Poll =>
        simp only
        split
        · exact .error trivial
        · split
          · exact .error trivial
          · exact lift_raises (hpoll c tail x hb ht) _
      | bulkOutReadHeader =>
        refine (transfer_raises hplain _ _).bind fun data hx => ?_
        have ha : s.arriving = some (false, data) := arriving_header hb ht hx
        exact onHeader_raises ha (hnext _ _ ha) hcmd tail
      | bulkOutReadPayload =>
        refine (transfer_raises hplain _ _).bind fun data hx => ?_
        have ha : s.arriving = some (true, data) := arriving_payload hb ht hx
        exact onPayload_raises hplain ha (hnext _ _ ha) hcmd tail

theorem step_raises {e : Event} (hs : ∀ env, e = .handle env → Raises (s.step e) (Halt.Of P)) :
    Raises (s.step e) (Halt.Of P) := by
  cases e with
  | submit =>
    simp only [step]
    split
    · exact .ok _
    · exact .error trivial
  | reap =>
    simp only [step]
    split
    · exact .ok _
    · exact .error trivial
  | complete k outcome =>
    simp only [step]
    split
    · exact .error trivial
    · split
      · exact .error trivial
      · split
        · exact .ok _
        · exact .error trivial
  | handle env => exact hs env rfl

end Sys

end Adibi
