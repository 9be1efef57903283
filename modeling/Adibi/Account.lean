import Adibi.Demand
import Adibi.FlowControl

/-!
# The account of write slots

What a message of the host or a completed read calls for in writes is known from the
message, the read and the stream they are for (`Sys.calls`). Kept as an account over the
run, with each write that completes and is handled paid back, it bounds the writes in
flight (`Accounted`): a run in which the account is never overdrawn by more than the
slots there are does not run out of them (`write_slots_suffice`).
-/

namespace Adibi

open Lib

/-! ## What is called for -/

/-- The writes a WRTE calls for besides its OKAY: two for a sync payload of the kind that
is answered, one for the CLSE after QUIT or a write that the system fails. -/
def Stream.wrteCalls (env : Env) (os : Os) (st : Stream) (payload : Bytes) : Nat :=
  match st.service with
  | .sync svc =>
    if svc.replies env os.fs st.waitingForOkay payload then 2
    else if svc.quits payload then 1
    else 0
  | .shell _ | .forward _ => if inputFails env st.service payload then 1 else 0
  | .reboot => 0

/-- The writes a message of the host calls for. -/
def Dev.calls (env : Env) (d : Dev) (h : AdbHeader) (p : Option Bytes) : Nat :=
  match h.command, p with
  | .cnxn, some _ => 2
  | .open, some _ => 1
  | .wrte, some payload =>
    1 + ((d.streams.get h.arg1).map fun st => st.wrteCalls env d.os payload).getD 0
  | .okay, none => ((d.streams.get h.arg1).map Stream.okayDemand).getD 0
  | .clse, _ => ((d.streams.get h.arg1).map fun st => st.clseDemand h.arg0).getD 0
  | _, _ => 0

/-- The writes an event calls for: the end of a read, or a message. -/
def Sys.calls (s : Sys) : Event → Nat
  | .handle env =>
    match s.ending with
    | some (op, i, res) => ((s.dev.streams.get i).map fun st => st.readDemand op res).getD 0
    | none =>
      match s.incoming with
      | some (h, p) => s.dev.calls env h p
      | none => 0
  | _ => 0

theorem SyncService.answers_le {env : Env} {fs : Fs} {waiting : Bool} {svc : SyncService}
    {payload : Bytes} (hwf : ∀ r, svc.receiver = some r → r.state.Wf)
    (h : svc.answers env fs waiting payload = true) : svc.replies env fs waiting payload = true := by
  unfold answers at h
  split at h
  · rename_i hh
    exact handle_replies hwf hh trivial
  · rename_i hh
    exact handle_replies hwf hh trivial
  · rename_i sender fs' hh
    exact handle_replies hwf hh ⟨by simpa using h, sender, rfl⟩
  · cases h

theorem Stream.wrteDemand_le {env : Env} {os : Os} {st : Stream} {payload : Bytes}
    (hwf : ∀ r, st.service.receiver = some r → r.state.Wf) :
    st.wrteDemand env os payload ≤ st.wrteCalls env os payload := by
  unfold wrteDemand wrteCalls
  cases hs : st.service with
  | reboot => exact Nat.le_refl 0
  | sync svc =>
    simp only
    rw [hs] at hwf
    by_cases ha : svc.answers env os.fs st.waitingForOkay payload = true
    · rw [if_pos ha, if_pos (SyncService.answers_le hwf ha)]
    · rw [if_neg ha]
      split
      · split <;> omega
      · exact Nat.zero_le _
  | shell sh =>
    have hf := shell_writeInput_fails env os sh payload
    simp only
    cases hr : (sh.writeInput env os payload).1 with
    | ok u => exact Nat.zero_le _
    | error err =>
      rw [if_pos (hf.mp ⟨err, hr⟩)]
      exact Nat.le_refl 1
  | forward fwd =>
    have hf := forward_writeInput_fails env os fwd payload
    simp only
    cases hr : (fwd.writeInput env os payload).1 with
    | ok u => exact Nat.zero_le _
    | error err =>
      rw [if_pos (hf.mp ⟨err, hr⟩)]
      exact Nat.le_refl 1

namespace Sys

variable {s s' : Sys} {e : Event}

/-- **A completion takes no more slots than were called for.** -/
theorem demand_le_calls (hwf : ∀ i, (s.view i).Proper) (e : Event) : s.demand e ≤ s.calls e := by
  cases e with
  | submit => exact Nat.le_refl 0
  | reap => exact Nat.le_refl 0
  | complete k outcome => exact Nat.le_refl 0
  | handle env =>
    unfold demand calls
    cases s.ending with
    | some x => exact Nat.le_refl _
    | none =>
      cases s.incoming with
      | none => exact Nat.le_refl 0
      | some x =>
        obtain ⟨h, p⟩ := x
        simp only [Dev.demand, Dev.calls]
        cases h.command with
        | wrte =>
          cases p with
          | none => exact Nat.le_refl 0
          | some payload =>
            refine Nat.add_le_add_left ?_ 1
            cases hst : s.dev.streams.get h.arg1 with
            | none => exact Nat.le_refl 0
            | some st =>
              refine Stream.wrteDemand_le fun r hr => hwf h.arg1 r ?_
              show receiverOf (s.dev.streams.get h.arg1) = some r
              rw [hst]
              exact hr
        | _ => cases p <;> exact Nat.le_refl _

/-! ## The account -/

/-- An entry of the account. -/
inductive Entry where
  /-- Something handled calls for writes. -/
  | called (n : Nat)
  /-- A write that has completed is handled. -/
  | completed

def finishes (s : Sys) : Event → Bool
  | .handle _ => (s.batch.head?.bind fun c => writeSlot c.userData).isSome
  | _ => false

def entries (s : Sys) (e : Event) : List Entry :=
  .called (s.calls e) :: if s.finishes e then [.completed] else []

end Sys

def Sys.Entry.amount : Sys.Entry → Nat
  | .called n => n
  | .completed => 0

def Sys.Entry.paid : Sys.Entry → Bool
  | .called _ => false
  | .completed => true

/-- The writes called for so far. -/
def calledFor (account : List Sys.Entry) : Nat := (account.map Sys.Entry.amount).sum

/-- The writes completed and handled so far. -/
def completed (account : List Sys.Entry) : Nat := account.countP Sys.Entry.paid

/-- With what the event calls for, the writes called for so far outnumber those completed
by at most the slots there are. -/
def Covered (p : Sys × List Sys.Entry) (e : Event) : Prop :=
  calledFor p.2 + p.1.calls e ≤ completed p.2 + maxBufferSlots

namespace Sys

variable {s s' : Sys} {e : Event}

theorem calledFor_entries (account : List Entry) (s : Sys) (e : Event) :
    calledFor (account ++ s.entries e) = calledFor account + s.calls e := by
  unfold calledFor entries
  split <;> simp [Entry.amount]

theorem completed_entries (account : List Entry) (s : Sys) (e : Event) :
    completed (account ++ s.entries e) = completed account + (s.finishes e).toNat := by
  unfold completed entries
  cases s.finishes e <;> simp [Entry.paid]

/-- The writes in flight are on the account. -/
def Accounted (p : Sys × List Entry) : Prop :=
  p.1.writes.length + completed p.2 ≤ calledFor p.2

theorem writes_finished {c : Cqe} {tail : List Cqe} {buffers : BufferManager} (hb : s.batch = c :: tail)
    (hc : (writeSlot c.userData).isSome) :
    (Sys.writes { s with batch := tail, dev := { s.dev with buffers } }).length + 1 =
      s.writes.length := by
  obtain ⟨slot, hslot⟩ := Option.isSome_iff_exists.mp hc
  have hperm := ((outstanding_handle hb).filterMap writeSlot).length_eq
  simp only [List.filterMap_cons, hslot, List.length_cons] at hperm
  exact hperm.symm

theorem used_handled {env : Env} {c : Cqe} {tail : List Cqe} (hb : s.batch = c :: tail)
    (hroom : s.dev.buffers.used + s.demand (.handle env) ≤ maxBufferSlots)
    (hw : ∀ x, UserData.tryFrom c.userData ≠ some ⟨.bulkInWrite, x⟩)
    (hs : Handles env { s with batch := tail } c s') :
    s'.dev.buffers.used ≤ s.dev.buffers.used + s.demand (.handle env) := by
  -- the budget is all that is free beyond the demand, and it is left
  obtain ⟨m, hm⟩ : ∃ m, s.dev.buffers.used + (s.demand (.handle env) + m) = maxBufferSlots :=
    ⟨_, by rw [← Nat.add_assoc]; exact Nat.add_sub_cancel' hroom⟩
  have hpush : ∀ {d d' : Dev} {u : UserData}, d.submitOp u = .ok d' →
      d'.buffers.used = d.buffers.used := by
    intro d d' u h
    rw [(Dev.push_ok h).2]
  have hcmd : ∀ {t : Traffic} {h : AdbHeader} {p : Option Bytes} {d : Dev},
      s.incoming = some (h, p) → (s.dev.log t).handleCommand env h p = .ok d →
      d.buffers.used + m ≤ maxBufferSlots := by
    intro t h p d hin hd
    have hend : s.ending = none := Sys.ending_of_incoming hin
    simp only [Sys.demand, hend, hin] at hm
    exact (Dev.slotBudget.handleCommand (d := s.dev.log t) (n := s.dev.demand env h p)
      (Nat.le_of_eq hm) (Dev.costs_demand env (s.dev.log t) h p)
      fun q hq e => by rw [e] at hq; exact hq).2 d hd
  cases hs with
  | unknown ht => exact Nat.le_add_right _ _
  | write ht hd => exact absurd ht (hw _)
  | poll ht hd => exact Nat.le_trans (Nat.le_of_eq (hpush hd)) (Nat.le_add_right _ _)
  | rejected ht hx hp hd => exact Nat.le_trans (Nat.le_of_eq (hpush hd)) (Nat.le_add_right _ _)
  | pending ht hx hp hl hd => exact Nat.le_trans (Nat.le_of_eq (hpush hd)) (Nat.le_add_right _ _)
  | orphan ht hx hp hd => exact Nat.le_trans (Nat.le_of_eq (hpush hd)) (Nat.le_add_right _ _)
  | dropped ht hx hp hbad hd => exact Nat.le_trans (Nat.le_of_eq (hpush hd)) (Nat.le_add_right _ _)
  | @read op j d hop ht hd =>
    have hend : s.ending = some (op, j.1, c.res) := ending_eq hb hop ht
    simp only [Sys.demand, hend] at hm ⊢
    rw [Dev.readDone_eq] at hd
    have hle := (Dev.slotBudget.effect (m := m) (Nat.le_of_eq hm)
      (fun st _ => (onRead_raises ..).mono fun _ hq => hq.slots) fun st e hst he => by
        rw [hst]
        exact onRead_cost he).2 d hd
    show d.buffers.used ≤ _
    omega
  | bare ht hx hp hl hc hd =>
    have ha := arriving_header hb ht hx
    have hle := hcmd (by simp only [incoming, ha, hp, hl, if_false]) hc
    have hsame := hpush hd
    exact Nat.le_of_add_le_add_right (hsame ▸ Nat.le_trans hle (by omega))
  | loaded ht hx hp hbad hc hd =>
    have ha := arriving_payload hb ht hx
    have hp' : s.pendingHeader = some _ := hp
    have hbad' : badChecksum s.dev.version _ _ = .ok false := hbad
    have hle := hcmd (by simp only [incoming, ha, hp', hbad']) hc
    have hsame := hpush hd
    exact Nat.le_of_add_le_add_right (hsame ▸ Nat.le_trans hle (by omega))

/-- **A step puts no more writes in flight than it calls for**, and takes out the one that
is handled. -/
theorem Owned.step_writes (ho : s.Owned) (hroom : s.writes.length + s.demand e ≤ maxBufferSlots)
    (hs : s.step e = .ok s') :
    s'.writes.length + (s.finishes e).toNat ≤ s.writes.length + s.demand e := by
  have hsame : (∀ env, e ≠ .handle env) → s'.writes.length = s.writes.length := fun hno =>
    ((outstanding_perm hs hno).filterMap writeSlot).length_eq
  cases e with
  | submit => exact Nat.le_of_eq (hsame fun _ h => nomatch h)
  | reap => exact Nat.le_of_eq (hsame fun _ h => nomatch h)
  | complete k outcome => exact Nat.le_of_eq (hsame fun _ h => nomatch h)
  | handle env =>
    have ho' := (ho.step hs).1
    have hused : s.dev.buffers.used = s.writes.length := BufferManager.used_eq ho.owns
    have hused' : s'.dev.buffers.used = s'.writes.length := BufferManager.used_eq ho'.owns
    obtain ⟨c, tail, hb, hh⟩ := Sys.handle_ok hs
    by_cases hw : ∃ x, UserData.tryFrom c.userData = some ⟨.bulkInWrite, x⟩
    · obtain ⟨x, ht⟩ := hw
      obtain ⟨slot, buffers, rfl, -, rfl⟩ := hh.of_write ht
      have hc : (writeSlot c.userData).isSome := by simp [writeSlot, ht]
      have hfin : s.finishes (.handle env) = true := by simp [finishes, hb, hc]
      rw [hfin, Bool.toNat_true, writes_finished hb hc]
      exact Nat.le_add_right _ _
    · have hw := not_exists.mp hw
      have hfin : s.finishes (.handle env) = false := by
        simp [finishes, hb, writeSlot_none hw]
      have := used_handled hb (by rw [hused]; exact hroom) hw hh
      rw [hfin, Bool.toNat_false]
      omega

end Sys

/-- **The pool is never found full** in a run in which, at every message and completed
read that is handled, the writes called for so far outnumber those completed so far by at
most eight. -/
theorem write_slots_suffice (info : DeviceInfo) (os : Os) {es : List Event}
    (h : Along (observed Sys.step Sys.entries) Covered (Sys.start info os, []) es) :
    runEvents Sys.step (Sys.start info os) es ≠ .error (.panic .slotsInUse) := by
  have hroom : ∀ p e, p.1.Owned ∧ (∀ i, (p.1.view i).Proper) ∧ Sys.Accounted p → Covered p e →
      p.1.writes.length + p.1.calls e ≤ maxBufferSlots := by
    rintro p e ⟨-, -, hacc⟩ hcov
    unfold Sys.Accounted at hacc
    unfold Covered at hcov
    omega
  intro hrun
  refine h.run_ne_error (I := fun p => p.1.Owned ∧ (∀ i, (p.1.view i).Proper) ∧ Sys.Accounted p)
    ⟨.start info os, fun _ _ hr => (nomatch hr), Nat.le_refl 0⟩ (fun p e q hi hok hs => ?_)
    (fun p e hi hok he => ?_) (runEvents_observed hrun [])
  · have hslots := hroom p e hi hok
    obtain ⟨hown, hproper, hacc⟩ := hi
    obtain ⟨hstep, hhist⟩ := observed_ok hs
    have hle := Sys.demand_le_calls hproper e
    have hgrow := hown.step_writes (by omega) hstep
    refine ⟨(hown.step hstep).1, fun i => Sys.proper_step hproper hstep i, ?_⟩
    unfold Sys.Accounted at hacc ⊢
    rw [hhist, Sys.calledFor_entries, Sys.completed_entries]
    omega
  · have hslots := hroom p e hi hok
    have hle := Sys.demand_le_calls hi.2.1 e
    refine (Sys.step_finds e ?_).of_error _ (observed_error he) rfl
    rw [BufferManager.used_eq hi.1.owns]
    exact Nat.le_trans (Nat.add_le_add_left hle _) hslots

instance (p : Sys × List Sys.Entry) (e : Event) : Decidable (Covered p e) :=
  inferInstanceAs (Decidable (_ ≤ _))

def Sys.openEvents : List Event :=
  Sys.openShell.flatMap (fun t => [.submit, .complete 1 t.outcome, .reap, .handle t.env]) ++
    [.submit, .complete 1 (.count 24), .reap, .handle {}]

theorem write_slots_suffice_open :
    Along (observed Sys.step Sys.entries) Covered (Sys.fresh, []) Sys.openEvents ∧
      runEvents Sys.step Sys.fresh Sys.openEvents ≠ .error (.panic .slotsInUse) := by
  have hrun : (runGuarded (observed Sys.step Sys.entries) (fun p e => decide (Covered p e))
      (Sys.fresh, []) Sys.openEvents).isSome := by
    decide +kernel
  obtain ⟨s, hs⟩ := Option.isSome_iff_exists.mp hrun
  have ha : Along (observed Sys.step Sys.entries) Covered (Sys.fresh, []) Sys.openEvents :=
    .of_runGuarded (fun _ _ => of_decide_eq_true) hs
  exact ⟨ha, write_slots_suffice _ _ ha⟩

def Sys.nineOpens : List Turn :=
  (List.range 9).flatMap fun k => Turn.message .open (UInt32.ofNat (k + 1)) 0 (ascii "sync:" ++ [0])

/-- No write completes before the ninth OPEN is dispatched, which finds the
slots taken by the eight OKAYs before it. -/
theorem ninth_open_panics : ∃ s,
    (Sys.fresh.play hostOk Sys.nineOpens.dropLast).bind (fun s => runGuarded Sys.step hostOk s
      (s.turn (.payload (ascii "sync:" ++ [0]))).dropLast) = some s ∧
    Reach Sys.step HostOk Sys.fresh s ∧ s.step (.handle {}) = .error (.panic .slotsInUse) := by
  have hplay : ((Sys.fresh.play hostOk Sys.nineOpens.dropLast).bind (fun s =>
      runGuarded Sys.step hostOk s (s.turn (.payload (ascii "sync:" ++ [0]))).dropLast)).map
        (fun s => match s.step (.handle {}) with
          | .error h => some h
          | .ok _ => none) = some (some (.panic .slotsInUse)) := by
    decide +kernel
  obtain ⟨s, hs, hh⟩ := Option.map_eq_some_iff.mp hplay
  obtain ⟨t, ht, hts⟩ := Option.bind_eq_some_iff.mp hs
  refine ⟨s, hs, (Sys.reach_of_play (fun _ _ => HostOk.of_hostOk) ht).trans
    (Reach.of_runGuarded (fun _ _ => HostOk.of_hostOk) hts), ?_⟩
  split at hh
  · rename_i h he
    cases hh
    exact he
  · cases hh

end Adibi
