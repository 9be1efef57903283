import Mathlib.Data.List.Basic

/-!
# Machines that read symbols and emit words

A `Mealy` machine reads one symbol at a time and emits a word at each. Its run
over a concatenation is the run over the parts in order, so what it computes
does not depend on how its input is cut (`run_append`).
-/

namespace Adibi.Lib

structure Mealy (σ α β : Type) where
  step : σ → α → σ × List β

namespace Mealy

variable {σ α β : Type} (M : Mealy σ α β)

/-- The state after a word, and everything emitted on the way. -/
def run : σ → List α → σ × List β
  | s, [] => (s, [])
  | s, a :: as =>
    let t := run (M.step s a).1 as
    (t.1, (M.step s a).2 ++ t.2)

@[simp] theorem run_nil (s : σ) : M.run s [] = (s, []) := rfl

theorem run_cons (s : σ) (a : α) (as : List α) :
    M.run s (a :: as) =
      ((M.run (M.step s a).1 as).1, (M.step s a).2 ++ (M.run (M.step s a).1 as).2) := rfl

theorem run_append (s : σ) (as bs : List α) :
    M.run s (as ++ bs) =
      ((M.run (M.run s as).1 bs).1, (M.run s as).2 ++ (M.run (M.run s as).1 bs).2) := by
  induction as generalizing s with
  | nil => simp
  | cons a as ih => simp only [List.cons_append, run_cons, ih, List.append_assoc]

/-- A state that every symbol leaves alone, silently. -/
def Absorbing (s : σ) : Prop := ∀ a, M.step s a = (s, [])

variable {M} in
theorem Absorbing.run {s : σ} (h : M.Absorbing s) (as : List α) : M.run s as = (s, []) := by
  induction as with
  | nil => rfl
  | cons a as ih => simp only [run_cons, h a, ih, List.nil_append]

end Mealy

end Adibi.Lib
