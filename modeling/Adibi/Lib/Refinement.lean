import Adibi.Lib.System

/-!
# Refinement of fallible computations

`Mirrors f L x y`: `y` computes the image under `f` of what `x` computes and fails
as `x` fails, except for the failures in `L`, which only `x` has. It is kept by
sequencing, so a program mirrors its abstraction if its parts do. At the level of
runs, a system whose every step is a run of another one on the inputs it shows
projects its runs onto runs of the other (`Reach.simulates`).
-/

namespace Adibi.Lib

universe u

section Mirrors

variable {ε α β γ δ : Type u}

structure Mirrors (f : α → β) (L : ε → Prop) (x : Except ε α) (y : Except ε β) : Prop where
  ok : ∀ a, x = .ok a → y = .ok (f a)
  error : ∀ e, x = .error e → L e ∨ y = .error e

variable {f : α → β} {L : ε → Prop} {x : Except ε α} {y : Except ε β}

theorem Mirrors.pure (a : α) : Mirrors f L (.ok a) (.ok (f a)) := by
  refine ⟨fun b hb => ?_, fun e he => ?_⟩
  · cases hb
    rfl
  · cases he

theorem Mirrors.fail (e : ε) : Mirrors f L (.error e) (.error e) := by
  refine ⟨fun b hb => ?_, fun e' he => ?_⟩
  · cases hb
  · cases he
    exact .inr rfl

/-- A computation that only lacks what the abstraction has in plenty. -/
theorem Mirrors.of_raises {b : β} (hok : ∀ a, x = .ok a → f a = b) (h : Raises x L) :
    Mirrors f L x (.ok b) :=
  ⟨fun a ha => by rw [hok a ha], fun e he => .inl (h.of_error e he)⟩

theorem Raises.ne_error {x : Except ε α} (h : Raises x fun _ => False) (e : ε) : x ≠ .error e :=
  h.of_error e

theorem Mirrors.bind_same {x : Except ε γ} {g : γ → Except ε α} {k : γ → Except ε β}
    (h : ∀ c, x = .ok c → Mirrors f L (g c) (k c)) : Mirrors f L (x >>= g) (x >>= k) := by
  cases x with
  | error e => exact .fail e
  | ok c => exact h c rfl

theorem Mirrors.bind {g : α → Except ε γ} {k : β → Except ε δ} {f' : γ → δ}
    (h : Mirrors f L x y) (hg : ∀ a, x = .ok a → Mirrors f' L (g a) (k (f a))) :
    Mirrors f' L (x >>= g) (y >>= k) := by
  cases x with
  | ok a =>
    rw [h.ok a rfl]
    exact hg a rfl
  | error e =>
    refine ⟨fun b hb => ?_, fun e' he => ?_⟩
    · cases hb
    · cases he
      rcases h.error e rfl with hl | hy
      · exact .inl hl
      · rw [hy]
        exact .inr rfl

/-- A last part that the abstraction does not see. -/
theorem Mirrors.then {g : α → Except ε α} (h : Mirrors f L x y)
    (hg : ∀ a, x = .ok a → Mirrors f L (g a) (.ok (f a))) : Mirrors f L (x >>= g) y := by
  cases x with
  | ok a =>
    rw [h.ok a rfl]
    exact hg a rfl
  | error e =>
    refine ⟨fun b hb => ?_, fun e' he => h.error e' he⟩
    cases hb

end Mirrors

/-! ## Runs -/

section

variable {σ τ ε ε' α β : Type} {step : σ → α → Except ε σ} {Ok : σ → α → Prop}
  {astep : τ → β → Except ε' τ} {abs : σ → τ} {input : σ → α → List β}

theorem runEvents_append (s : σ) (es fs : List α) :
    runEvents step s (es ++ fs) = runEvents step s es >>= fun t => runEvents step t fs := by
  induction es generalizing s with
  | nil => rfl
  | cons e es ih =>
    rw [List.cons_append, runEvents, runEvents]
    cases step s e with
    | error err => rfl
    | ok t => exact ih t

/-- Steps that show nothing leave a history as it is. -/
theorem Reach.silent {s t : σ} (h : Reach step (fun s e => Ok s e ∧ input s e = []) s t)
    (ins : List β) : Reach (observed step input) (fun p e => Ok p.1 e) (s, ins) (t, ins) := by
  induction h with
  | refl => exact .refl
  | @tail t u e _ hok hs ih =>
    refine .tail (e := e) ih hok.1 ?_
    simp only [observed, hs, hok.2, List.append_nil]
    rfl

/-- **A run is a run of the abstraction**, on the inputs its steps show. -/
theorem Reach.simulates {P : σ × List β → α → Prop} {s t : σ} {ins : List β}
    (hstep : ∀ s e t, step s e = .ok t → runEvents astep (abs s) (input s e) = .ok (abs t))
    (h : Reach (observed step input) P (s, []) (t, ins)) :
    runEvents astep (abs s) ins = .ok (abs t) := by
  refine h.invariant (I := fun p => runEvents astep (abs s) p.2 = .ok (abs p.1)) rfl ?_
  intro p e q hp _ hs
  obtain ⟨hs, hq⟩ := observed_ok hs
  rw [hq, runEvents_append, hp]
  exact hstep p.1 e q.1 hs

theorem Reach.of_runEvents {s t : σ} {es : List α} (h : runEvents step s es = .ok t) :
    Reach step (fun _ _ => True) s t := by
  induction es generalizing s with
  | nil =>
    cases h
    exact .refl
  | cons e es ih =>
    obtain ⟨s1, h1, h2⟩ := bind_eq_ok.mp h
    exact (Reach.tail .refl trivial h1).trans (ih h2)

theorem runEvents_invariant {I : τ → Prop} {c d : τ} {bs : List β} (h : runEvents astep c bs = .ok d)
    (h0 : I c) (hstep : ∀ c b d, I c → astep c b = .ok d → I d) : I d := by
  induction bs generalizing c with
  | nil =>
    cases h
    exact h0
  | cons b bs ih =>
    obtain ⟨c1, h1, h2⟩ := bind_eq_ok.mp h
    exact ih h2 (hstep c b c1 h0 h1)

/-- **An invariant of the abstraction holds along every run.** -/
theorem Reach.of_abstract {I : τ → Prop} {s t : σ}
    (hsim : ∀ s e t, step s e = .ok t → runEvents astep (abs s) (input s e) = .ok (abs t))
    (h : Reach step Ok s t) (h0 : I (abs s)) (hI : ∀ c b d, I c → astep c b = .ok d → I d) :
    I (abs t) :=
  h.invariant (I := fun s => I (abs s)) h0 fun s e t hs _ hst =>
    runEvents_invariant (hsim s e t hst) hs hI

end

end Adibi.Lib
