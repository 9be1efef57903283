import Adibi.Lib.System

/-!
# Rooms and tenants

Rooms that a system makes as it runs, each given to the tenant it is made for. A
`Tenancy` says what one step may do: a room gets its tenant when it is made, and a
room without one is left alone. It follows that tenants never share a room, that a
room never changes hands, and that a room its tenant has left stays as it is.
-/

namespace Adibi.Lib

variable {σ ε α ι κ β : Type}

/-- `holds s i c`: tenant `i` has room `c`; `made` are the rooms there are, and `room`
is what is in them. -/
structure Tenancy (step : σ → α → Except ε σ) (holds : σ → ι → κ → Prop) (made : σ → κ → Prop)
    (room : σ → κ → β) : Prop where
  stays : ∀ s e s' c, step s e = .ok s' → made s c → made s' c
  taken : ∀ s e s' i c, step s e = .ok s' → holds s' i c → holds s i c ∨
    ¬ made s c ∧ made s' c ∧ ∀ j, holds s' j c → holds s j c ∨ j = i
  frozen : ∀ s e s' c, step s e = .ok s' → made s c → (∀ i, ¬ holds s i c) → room s' c = room s c

namespace Tenancy

variable {step : σ → α → Except ε σ} {holds : σ → ι → κ → Prop} {made : σ → κ → Prop}
  {room : σ → κ → β} {Ok : σ → α → Prop} {s s' : σ} {i : ι} {c : κ}

/-- Every room that is held is made, and has one tenant. -/
structure Sound (holds : σ → ι → κ → Prop) (made : σ → κ → Prop) (s : σ) : Prop where
  made : ∀ i c, holds s i c → made s c
  single : ∀ i j c, holds s i c → holds s j c → i = j

theorem sound_step (h : Tenancy step holds made room) {e : α} (hs : Sound holds made s)
    (hstep : step s e = .ok s') : Sound holds made s' := by
  refine ⟨fun i c hi => ?_, fun i j c hi hj => ?_⟩
  · rcases h.taken s e s' i c hstep hi with hold | ⟨-, hnew, -⟩
    · exact h.stays s e s' c hstep (hs.made i c hold)
    · exact hnew
  · rcases h.taken s e s' i c hstep hi with hold | ⟨hno, -, honly⟩
    · rcases h.taken s e s' j c hstep hj with hold' | ⟨hno, -⟩
      · exact hs.single i j c hold hold'
      · exact absurd (hs.made i c hold) hno
    · rcases honly j hj with hold | heq
      · exact absurd (hs.made j c hold) hno
      · exact heq.symm

theorem sound_of_reach (h : Tenancy step holds made room) (hs : Sound holds made s)
    (hreach : Reach step Ok s s') : Sound holds made s' :=
  hreach.invariant hs fun _ _ _ hi _ hstep => h.sound_step hi hstep

/-- **A room never changes hands.** -/
theorem tenant_of_reach (h : Tenancy step holds made room) (hs : Sound holds made s)
    (hi : holds s i c) (hreach : Reach step Ok s s') {j : ι} (hj : holds s' j c) : j = i := by
  have hinv : made s' c ∧ ∀ j, holds s' j c → j = i := by
    refine hreach.invariant (I := fun t => made t c ∧ ∀ j, holds t j c → j = i)
      ⟨hs.made i c hi, fun j hj => hs.single j i c hj hi⟩ ?_
    intro t e u ⟨hmade, hown⟩ _ hstep
    refine ⟨h.stays t e u c hstep hmade, fun j hj => ?_⟩
    rcases h.taken t e u j c hstep hj with hold | ⟨hno, -⟩
    · exact hown j hold
    · exact absurd hmade hno
  exact hinv.2 j hj

/-- **A room that is left is left for good**, as it is. -/
theorem vacant_of_reach (h : Tenancy step holds made room) (hc : made s c)
    (hno : ∀ i, ¬ holds s i c) (hreach : Reach step Ok s s') :
    (∀ i, ¬ holds s' i c) ∧ room s' c = room s c := by
  have hinv : made s' c ∧ (∀ i, ¬ holds s' i c) ∧ room s' c = room s c := by
    refine hreach.invariant (I := fun t => made t c ∧ (∀ i, ¬ holds t i c) ∧ room t c = room s c)
      ⟨hc, hno, rfl⟩ ?_
    intro t e u ⟨hmade, hvac, hroom⟩ _ hstep
    refine ⟨h.stays t e u c hstep hmade, fun i hi => ?_, ?_⟩
    · rcases h.taken t e u i c hstep hi with hold | ⟨hnew, -⟩
      · exact hvac i hold
      · exact hnew hmade
    · rw [h.frozen t e u c hstep hmade hvac]
      exact hroom
  exact hinv.2

end Tenancy

end Adibi.Lib
