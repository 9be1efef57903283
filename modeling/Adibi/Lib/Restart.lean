import Adibi.Lib.Refinement
import Mathlib.Logic.Relation

/-!
# Scripts that can be run again

A script is a list of steps. An attempt at it carries out the first few and may leave
the next one torn. If a step that was carried out has nothing more to do, and stays so
through what follows it, then no attempt changes what a run of the script comes to; nor
do attempts at its variants, if what they differ in is made good (`Restartable.run_variants`).
-/

namespace Adibi.Lib

variable {σ ε α : Type}

/-- An interrupted run of a script. -/
inductive Attempt (exec : σ → α → Except ε σ) (torn : α → σ → σ → Prop) : List α → σ → σ → Prop where
  | stop (script : List α) (s : σ) : Attempt exec torn script s s
  | torn {a : α} {rest : List α} {s t : σ} : torn a s t → Attempt exec torn (a :: rest) s t
  | step {a : α} {rest : List α} {s t u : σ} : exec s a = .ok t → Attempt exec torn rest t u →
      Attempt exec torn (a :: rest) s u

/-- `Settled a s`: the step `a` has nothing more to do in `s`. -/
structure Restartable (exec : σ → α → Except ε σ) (torn : α → σ → σ → Prop) (Settled : α → σ → Prop)
    (script : List α) : Prop where
  skip : ∀ {a s}, Settled a s → exec s a = .ok s
  redo : ∀ {a s t}, torn a s t → exec t a = exec s a
  step : ∀ {done a rest s t}, script = done ++ a :: rest → (∀ b ∈ done, Settled b s) →
    exec s a = .ok t → Settled a t ∧ ∀ b ∈ done, Settled b t
  tear : ∀ {done a rest s t}, script = done ++ a :: rest → (∀ b ∈ done, Settled b s) →
    torn a s t → ∀ b ∈ done, Settled b t

namespace Restartable

variable {exec : σ → α → Except ε σ} {torn : α → σ → σ → Prop} {Settled : α → σ → Prop}
  {script done rest : List α} {s t u : σ}

theorem run_settled (h : Restartable exec torn Settled script) (hs : ∀ a ∈ done, Settled a s) :
    runEvents exec s done = .ok s := by
  induction done with
  | nil => rfl
  | cons a done ih =>
    show exec s a >>= _ = _
    rw [h.skip (hs a (.head _))]
    exact ih fun b hb => hs b (.tail _ hb)

theorem advance (h : Restartable exec torn Settled script) {a : α} (hscript : script = done ++ a :: rest)
    (hs : ∀ b ∈ done, Settled b s) (ht : exec s a = .ok t) :
    script = (done ++ [a]) ++ rest ∧ ∀ b ∈ done ++ [a], Settled b t := by
  obtain ⟨hnew, hold⟩ := h.step hscript hs ht
  refine ⟨by rw [hscript, List.append_assoc, List.singleton_append], fun b hb => ?_⟩
  rcases List.mem_append.mp hb with hb | hb
  · exact hold b hb
  · cases List.mem_singleton.mp hb
    exact hnew

/-- What was done before the attempt, and what it did, is passed over. -/
theorem run_resumed (h : Restartable exec torn Settled script) (ha : Attempt exec torn rest s t)
    (hscript : script = done ++ rest) (hs : ∀ a ∈ done, Settled a s) :
    runEvents exec t script = runEvents exec s rest := by
  induction ha generalizing done with
  | stop rest s => rw [hscript, runEvents_append, h.run_settled hs, ok_bind]
  | @torn a rest s t ht =>
    rw [hscript, runEvents_append, h.run_settled (h.tear hscript hs ht), ok_bind]
    show exec t a >>= _ = exec s a >>= _
    rw [h.redo ht]
  | @step a rest s t u ht _ ih =>
    obtain ⟨hscript, hs⟩ := h.advance hscript hs ht
    rw [ih hscript hs]
    show _ = exec s a >>= _
    rw [ht, ok_bind]

theorem settled_of_run (h : Restartable exec torn Settled script) (hr : runEvents exec s rest = .ok t)
    (hscript : script = done ++ rest) (hs : ∀ a ∈ done, Settled a s) : ∀ a ∈ script, Settled a t := by
  induction rest generalizing done s with
  | nil =>
    cases hr
    rw [hscript, List.append_nil]
    exact hs
  | cons a rest ih =>
    obtain ⟨u, hu, hr⟩ := bind_eq_ok.mp hr
    obtain ⟨hscript, hs⟩ := h.advance hscript hs hu
    exact ih hr hscript hs

end Restartable

/-! ## Variants of a script -/

/-- `Same a b`: the steps do the same but for what states that are `Alike` may differ in. -/
structure Variants (exec : σ → α → Except ε σ) (torn : α → σ → σ → Prop) (Same : α → α → Prop)
    (Alike : σ → σ → Prop) : Prop where
  refl : ∀ s, Alike s s
  exec : ∀ {a b s s' u}, Same a b → Alike s u → exec s a = .ok s' →
    ∃ u', exec u b = .ok u' ∧ Alike s' u'
  torn : ∀ {a b s s' u}, Same a b → Alike s u → torn a s s' → ∃ u', torn b u u' ∧ Alike s' u'

variable {exec : σ → α → Except ε σ} {torn : α → σ → σ → Prop} {Settled : α → σ → Prop}
  {Same : α → α → Prop} {Alike : σ → σ → Prop} {script variant : List α} {s t u : σ}

theorem Variants.attempt (h : Variants exec torn Same Alike) (ha : Attempt exec torn variant s t)
    (hs : List.Forall₂ Same variant script) (hu : Alike s u) :
    ∃ v, Attempt exec torn script u v ∧ Alike t v := by
  induction ha generalizing script u with
  | stop _ s => exact ⟨u, .stop _ u, hu⟩
  | torn ht =>
    cases hs with
    | cons hab _ =>
      obtain ⟨v, hv, halike⟩ := h.torn hab hu ht
      exact ⟨v, .torn hv, halike⟩
  | step he _ ih =>
    cases hs with
    | cons hab hrest =>
      obtain ⟨v, hv, halike⟩ := h.exec hab hu he
      obtain ⟨w, hw, hlast⟩ := ih hrest halike
      exact ⟨w, .step hv hw, hlast⟩

/-- **Attempts at variants do not show**, if the script ends alike states the same. -/
theorem Restartable.run_variants (h : Restartable exec torn Settled script)
    (hv : Variants exec torn Same Alike)
    (hrun : ∀ s u, Alike s u → runEvents exec s script = runEvents exec u script)
    (ha : Relation.ReflTransGen (fun s t => ∃ variant, List.Forall₂ Same variant script ∧
      Attempt exec torn variant s t) s t) :
    runEvents exec t script = runEvents exec s script := by
  induction ha with
  | refl => rfl
  | @tail s t _ ht ih =>
    obtain ⟨variant, hsame, ht⟩ := ht
    obtain ⟨u, hu, halike⟩ := hv.attempt ht hsame (hv.refl s)
    rw [hrun t u halike, h.run_resumed hu (List.nil_append _).symm nofun, ih]

end Adibi.Lib
