import Mathlib.Data.List.Perm.Basic

/-!
# Owned places

A store of places, each empty or filled, and a list of holders: `Owns get ks`
says the filled places are exactly those held, each by one holder. Filling an
empty place adds a holder, emptying a held one removes it.
-/

namespace Adibi.Lib

variable {κ β : Type}

structure Owns (get : κ → Option β) (holders : List κ) : Prop where
  filled : ∀ k, (get k).isSome ↔ k ∈ holders
  nodup : holders.Nodup

namespace Owns

variable {get get' : κ → Option β} {ks ks' : List κ} {k : κ}

theorem perm (h : Owns get ks) (hp : ks.Perm ks') : Owns get ks' :=
  ⟨fun j => (h.filled j).trans hp.mem_iff, hp.nodup_iff.mp h.nodup⟩

theorem fill (h : Owns get ks) {b : β} (hk : get k = none) (hk' : get' k = some b)
    (hframe : ∀ j, j ≠ k → get' j = get j) : Owns get' (k :: ks) := by
  have hnot : k ∉ ks := fun hm => by
    have := (h.filled k).mpr hm
    rw [hk] at this
    cases this
  refine ⟨fun j => ?_, List.nodup_cons.mpr ⟨hnot, h.nodup⟩⟩
  by_cases hj : j = k
  · subst hj
    simp [hk']
  · rw [hframe j hj, h.filled j, List.mem_cons]
    exact ⟨.inr, fun hm => hm.resolve_left hj⟩

theorem empty (h : Owns get (k :: ks)) (hk' : get' k = none)
    (hframe : ∀ j, j ≠ k → get' j = get j) : Owns get' ks := by
  obtain ⟨hnot, hnd⟩ := List.nodup_cons.mp h.nodup
  refine ⟨fun j => ?_, hnd⟩
  by_cases hj : j = k
  · subst hj
    simp [hk', hnot]
  · rw [hframe j hj, h.filled j, List.mem_cons]
    exact ⟨fun hm => hm.resolve_left hj, .inr⟩

end Owns

end Adibi.Lib
