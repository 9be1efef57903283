import Adibi.Routing

/-!
# Messages that end the daemon

The dispatcher asserts what the host is to keep to: which commands carry a
payload, the remote id of a CLSE, and that a reboot stream is left alone. A
message that breaks one of these reaches the assertion, and no other does
(`dispatcher_holds_iff`).
-/

namespace Adibi

open Lib

namespace Dev

theorem submitWrite_notDispatch (d : Dev) (bytes : Bytes) (link : Bool) :
    Raises (d.submitWrite bytes link) fun p => ¬ p.OfDispatch := by
  have hzero : Panic.Plain .slotZero := Panic.plain_of (by decide)
  refine Raises.bind ?_ fun x _ => ((lenU32_raises _).mono fun _ hq => hq.plain.dispatch).bind
    fun _ _ => ((nonZero_raises hzero _).mono fun _ hq => hq.dispatch).bind fun _ _ => ?_
  · unfold BufferManager.alloc
    split
    · exact .error (by decide)
    · exact .ok _
  · unfold push
    split
    · exact .ok _
    · exact .error (by decide)

theorem emit_notDispatch (d : Dev) (o : Out) : Raises (d.emit o) fun p => ¬ p.OfDispatch := by
  cases o with
  | op u =>
    unfold emit submitOp push
    simp only
    split
    · exact .ok _
    · exact .error (by decide)
  | message header payload =>
    refine (submitWrite_notDispatch ..).bind fun d1 _ => Raises.bind ?_ fun _ _ => .ok _
    unfold submitPayload
    split
    · exact .ok _
    · exact submitWrite_notDispatch ..

theorem dispatchBudget : Budget (fun p => ¬ p.OfDispatch) (fun _ => 0) fun _ _ => True where
  plain _ h := h.dispatch
  emit := fun {d o _} _ => ⟨d.emit_notDispatch o, fun _ _ => trivial⟩
  frame := fun _ _ _ => trivial
  le := fun _ _ => trivial

theorem costs_zero (env : Env) (d : Dev) (h : AdbHeader) (p : Option Bytes) :
    d.Costs (fun _ => 0) env h p 0 := by
  unfold Costs
  cases h.command <;> cases p <;> simp

theorem handleCommand_of_trips {env : Env} {d : Dev} {h : AdbHeader} {p : Option Bytes} {q : Panic}
    (hslot : d.HasSlot) (ht : d.Trips h p q) :
    q.OfDispatch ∧ d.handleCommand env h p = .error q := by
  cases q with
  | cnxnPayload =>
    obtain ⟨hc, rfl⟩ := ht
    exact ⟨by decide, by simp only [handleCommand, hc]⟩
  | openPayload =>
    obtain ⟨hc, rfl⟩ := ht
    exact ⟨by decide, by simp only [handleCommand, hc]⟩
  | wrtePayload =>
    obtain ⟨hc, rfl⟩ := ht
    exact ⟨by decide, by simp only [handleCommand, hc]⟩
  | okayPayload =>
    obtain ⟨hc, hp⟩ := ht
    obtain ⟨payload, rfl⟩ := Option.ne_none_iff_exists'.mp hp
    exact ⟨by decide, by simp only [handleCommand, hc]⟩
  | clseRemoteId =>
    obtain ⟨hc, st, hst, hne⟩ := ht
    have hst' : (d.log (.heard h p)).streams.get h.arg1 = some st := hst
    refine ⟨by decide, ?_⟩
    simp only [handleCommand, hc, handleCommandClse_eq, hst', onClse, if_pos hne]
    rfl
  | rebootContinue =>
    obtain ⟨hc, rfl, st, hst, hsv⟩ := ht
    have hst' : (d.log (.heard h none)).streams.get h.arg1 = some st := hst
    refine ⟨by decide, ?_⟩
    simp only [handleCommand, hc, handleCommandOkay_eq, hst', onOkay, hsv]
    rfl
  | rebootWrte =>
    obtain ⟨hc, hp, st, hst, hsv⟩ := ht
    obtain ⟨payload, rfl⟩ := Option.ne_none_iff_exists'.mp hp
    refine ⟨by decide, ?_⟩
    -- the OKAY goes out before the stream is looked at
    have hslot' : (d.log (.heard h (some payload))).HasSlot := hslot
    obtain ⟨d1, h1⟩ := emit_bare_ok_iff (h := bareHeader .okay h.arg1 h.arg0) |>.mpr hslot'
    have h1' : (d.log (.heard h (some payload))).emit (okayOut h.arg1 h.arg0) = .ok d1 := h1
    have hget : d1.streams.get h.arg1 = some st := by
      rw [(Sends.of_emit h1).streams]
      exact hst
    simp only [handleCommand, hc, handleCommandWrte_eq, h1', ok_bind, hget, onWrte, hsv]
    rfl
  | _ => exact ht.elim

end Dev

/-- **Which messages the dispatcher survives.** With a write slot free, in every
state and for every message, with or without payload: no `expect`, `assert` or
`unreachable!` of the dispatcher is reached if and only if CNXN, OPEN and WRTE
have a payload and OKAY has none, a CLSE for a live stream carries its remote
id, and no WRTE or OKAY is for a reboot stream. -/
theorem dispatcher_holds_iff (env : Env) {d : Dev} (h : AdbHeader) (p : Option Bytes)
    (hslot : d.HasSlot) :
    (∀ q, d.handleCommand env h p = .error q → ¬ q.OfDispatch) ↔ ∀ q, ¬ d.Trips h p q := by
  constructor
  · intro hok q ht
    have hpanic : q.OfDispatch ∧ d.handleCommand env h p = .error q :=
      Dev.handleCommand_of_trips hslot ht
    obtain ⟨hq, he⟩ := hpanic
    exact hok q he hq
  · intro hno
    exact (Dev.dispatchBudget.handleCommand (n := 0) (m := 0) trivial (Dev.costs_zero env d h p)
      fun q hq => absurd hq (hno q)).1.of_error

/-- With a shell and a reboot stream open, the host closes the latter. -/
theorem dispatcher_holds_iff_reboot : ∃ s, Reach Sys.step (fun _ _ => True) Sys.fresh s ∧
    s.dev.Live 1 7 ∧ s.dev.Live 2 9 ∧
    ∀ q, s.dev.handleCommand {} (bareHeader .clse 9 2) none = .error q → ¬ q.OfDispatch := by
  have hplay : (Sys.fresh.play (fun _ _ => true)
      (Sys.openShell ++ Sys.Turn.message .open 9 0 (ascii "reboot:" ++ [0]))).map (fun s =>
        (s.dev.streams.get 1, s.dev.streams.get 2, decide s.dev.HasSlot)) =
      some (some ⟨7, .shell ⟨0, []⟩, false, false⟩, some ⟨9, .reboot, false, false⟩, true) := by
    decide +kernel
  obtain ⟨s, hs, he⟩ := Option.map_eq_some_iff.mp hplay
  simp only [Prod.mk.injEq, decide_eq_true_eq] at he
  obtain ⟨h1, h2, hslot⟩ := he
  refine ⟨s, Sys.reach_of_play (fun _ _ _ => trivial) hs, ⟨_, h1, rfl⟩, ⟨_, h2, rfl⟩,
    (dispatcher_holds_iff {} (bareHeader .clse 9 2) none hslot).mpr fun q hq => ?_⟩
  cases q with
  | clseRemoteId =>
    obtain ⟨-, st, hst, hne⟩ := hq
    cases h2.symm.trans hst
    exact hne rfl
  | okayPayload => cases hq.1
  | rebootContinue => cases hq.1
  | cnxnPayload => cases hq.1
  | openPayload => cases hq.1
  | wrtePayload => cases hq.1
  | rebootWrte => cases hq.1
  | _ => exact hq

def bareCnxn : Bytes := (bareHeader .cnxn 0x01000000 0x00100000).asLeBytes

def Sys.openReboot : List Turn := Turn.message .open 7 0 (ascii "reboot:" ++ [0])

def Sys.panicOf (s : Sys) : Option Panic :=
  match s.step (.handle {}) with
  | .error (.panic p) => some p
  | _ => none

theorem Sys.step_of_panicOf {s : Sys} {p : Panic} (h : s.panicOf = some p) :
    s.step (.handle {}) = .error (.panic p) := by
  unfold panicOf at h
  split at h
  · rename_i he
    cases h
    exact he
  · cases h

/-- A CNXN without a payload ends the daemon; so does an OKAY for a reboot stream. -/
theorem host_message_panics :
    (∃ s, Reach Sys.step (fun _ _ => True) Sys.fresh s ∧ s.dev.HasSlot ∧
      (parseHeader bareCnxn).isSome ∧ s.step (.handle {}) = .error (.panic .cnxnPayload)) ∧
    (∃ s, Reach Sys.step (fun _ _ => True) Sys.fresh s ∧ s.dev.HasSlot ∧
      s.step (.handle {}) = .error (.panic .rebootContinue)) := by
  have hcnxn : (Sys.fresh.poised (fun _ _ => true) [] (.header bareCnxn)).map
      (fun s => (decide s.dev.HasSlot, s.panicOf)) = some (true, some .cnxnPayload) := by
    decide +kernel
  have hokay : (Sys.fresh.poised (fun _ _ => true) Sys.openReboot
      (.header (bareHeader .okay 7 1).asLeBytes)).map
        (fun s => (decide s.dev.HasSlot, s.panicOf)) = some (true, some .rebootContinue) := by
    decide +kernel
  obtain ⟨s, hs, he⟩ := Option.map_eq_some_iff.mp hcnxn
  obtain ⟨t, ht, he'⟩ := Option.map_eq_some_iff.mp hokay
  simp only [Prod.mk.injEq, decide_eq_true_eq] at he he'
  have hparse : (parseHeader bareCnxn).isSome := by decide +kernel
  exact ⟨⟨s, Sys.reach_of_poised (fun _ _ _ => trivial) hs, he.1, hparse, Sys.step_of_panicOf he.2⟩,
    ⟨t, Sys.reach_of_poised (fun _ _ _ => trivial) ht, he'.1, Sys.step_of_panicOf he'.2⟩⟩

end Adibi
