import Mathlib.Data.List.Basic

/-!
# Fallible steps and their runs

A system is a step function `σ → α → Except ε σ`: an event either takes a
state to the next one or ends the run. `Reach step Ok s t` says `t` is reached
from `s` by events that `Ok` admits in the state they strike. An invariant
kept by every admitted step holds along every run (`Reach.invariant`).
-/

namespace Adibi.Lib

universe u

/-! ## Sequencing -/

section Sequencing

variable {ε α β : Type u}

@[simp] theorem ok_bind (a : α) (f : α → Except ε β) : (Except.ok a >>= f) = f a := rfl

@[simp] theorem error_bind (e : ε) (f : α → Except ε β) :
    ((Except.error e : Except ε α) >>= f) = .error e := rfl

@[simp] theorem pure_eq_ok (a : α) : (pure a : Except ε α) = .ok a := rfl

theorem bind_eq_ok {x : Except ε α} {f : α → Except ε β} {b : β} :
    (x >>= f) = .ok b ↔ ∃ a, x = .ok a ∧ f a = .ok b := by
  cases x with
  | error e => simp
  | ok a => simp

theorem bind_eq_error {x : Except ε α} {f : α → Except ε β} {e : ε} :
    (x >>= f) = .error e ↔ x = .error e ∨ ∃ a, x = .ok a ∧ f a = .error e := by
  cases x with
  | error e' => simp
  | ok a => simp

theorem map_eq_ok {x : Except ε α} {f : α → β} {b : β} :
    x.map f = .ok b ↔ ∃ a, x = .ok a ∧ f a = b := by
  cases x with
  | error e => simp [Except.map]
  | ok a => simp [Except.map]

theorem ok_of_toOption {x : Except ε α} {a : α} (h : x.toOption = some a) : x = .ok a := by
  cases x with
  | error e => cases h
  | ok b =>
    cases h
    rfl

/-- Every failure of the computation satisfies `P`. -/
structure Raises (x : Except ε α) (P : ε → Prop) : Prop where
  of_error : ∀ e, x = .error e → P e

theorem Raises.ok {P : ε → Prop} (a : α) : Raises (.ok a : Except ε α) P := ⟨fun _ h => nomatch h⟩

theorem Raises.error {P : ε → Prop} {e : ε} (h : P e) : Raises (.error e : Except ε α) P :=
  ⟨fun _ he => by cases he; exact h⟩

theorem Raises.mono {x : Except ε α} {P Q : ε → Prop} (h : Raises x P) (hPQ : ∀ e, P e → Q e) :
    Raises x Q := ⟨fun e he => hPQ e (h.of_error e he)⟩

theorem Raises.bind {x : Except ε α} {f : α → Except ε β} {P : ε → Prop} (h : Raises x P)
    (hf : ∀ a, x = .ok a → Raises (f a) P) : Raises (x >>= f) P := by
  refine ⟨fun e he => ?_⟩
  rcases bind_eq_error.mp he with hx | ⟨a, ha, hfa⟩
  · exact h.of_error e hx
  · exact (hf a ha).of_error e hfa

end Sequencing

/-! ## Runs -/

variable {σ ε α : Type}

/-- The states reached from `s` by admitted events. -/
inductive Reach (step : σ → α → Except ε σ) (Ok : σ → α → Prop) (s : σ) : σ → Prop where
  | refl : Reach step Ok s s
  | tail {t u : σ} {e : α} : Reach step Ok s t → Ok t e → step t e = .ok u → Reach step Ok s u

variable {step : σ → α → Except ε σ} {Ok : σ → α → Prop} {s t : σ}

theorem Reach.invariant {I : σ → Prop} (h : Reach step Ok s t) (h0 : I s)
    (hstep : ∀ t e u, I t → Ok t e → step t e = .ok u → I u) : I t := by
  induction h with
  | refl => exact h0
  | tail _ hok hs ih => exact hstep _ _ _ ih hok hs

theorem Reach.trans {u : σ} (h : Reach step Ok s t) (h' : Reach step Ok t u) : Reach step Ok s u := by
  induction h' with
  | refl => exact h
  | tail _ hok hs ih => exact .tail ih hok hs

def runEvents (step : σ → α → Except ε σ) : σ → List α → Except ε σ
  | s, [] => .ok s
  | s, e :: es => step s e >>= fun t => runEvents step t es

def Along (step : σ → α → Except ε σ) (Ok : σ → α → Prop) : σ → List α → Prop
  | _, [] => True
  | s, e :: es => Ok s e ∧ ∀ t, step s e = .ok t → Along step Ok t es

/-- A failure that no admitted step meets is not met by a run. -/
theorem Along.run_ne_error {I : σ → Prop} {bad : ε} {es : List α} (h : Along step Ok s es) (h0 : I s)
    (hstep : ∀ t e u, I t → Ok t e → step t e = .ok u → I u)
    (hbad : ∀ t e, I t → Ok t e → step t e ≠ .error bad) : runEvents step s es ≠ .error bad := by
  induction es generalizing s with
  | nil => exact fun he => nomatch he
  | cons e es ih =>
    obtain ⟨hok, hrest⟩ := h
    intro he
    rcases bind_eq_error.mp he with hx | ⟨t, ht, hr⟩
    · exact hbad s e h0 hok hx
    · exact ih (hrest t ht) (hstep s e t h0 hok ht) hr

/-- The run of a list of events, as long as `ok` admits each and no step fails. -/
def runGuarded (step : σ → α → Except ε σ) (ok : σ → α → Bool) : σ → List α → Option σ
  | s, [] => some s
  | s, e :: es => if ok s e then (step s e).toOption.bind fun t => runGuarded step ok t es else none

theorem Reach.of_runGuarded {ok : σ → α → Bool} (hok : ∀ s e, ok s e = true → Ok s e) {es : List α}
    (h : runGuarded step ok s es = some t) : Reach step Ok s t := by
  induction es generalizing s with
  | nil =>
    cases h
    exact .refl
  | cons e es ih =>
    unfold runGuarded at h
    split at h
    · rename_i he
      obtain ⟨u, h1, h2⟩ := Option.bind_eq_some_iff.mp h
      exact (Reach.tail .refl (hok s e he) (ok_of_toOption h1)).trans (ih h2)
    · cases h

theorem Along.of_runGuarded {ok : σ → α → Bool} (hok : ∀ s e, ok s e = true → Ok s e) {es : List α}
    (h : runGuarded step ok s es = some t) : Along step Ok s es := by
  induction es generalizing s with
  | nil => trivial
  | cons e es ih =>
    unfold runGuarded at h
    split at h
    · rename_i he
      obtain ⟨u, h1, h2⟩ := Option.bind_eq_some_iff.mp h
      refine ⟨hok s e he, fun u' hu' => ?_⟩
      rw [hu'] at h1
      cases h1
      exact ih h2
    · cases h

/-! ## Runs with a history -/

section

variable {β : Type} {obs : σ → α → List β}

/-- The system with a history, to which each step appends what it shows. -/
def observed (step : σ → α → Except ε σ) (obs : σ → α → List β) (p : σ × List β) (e : α) :
    Except ε (σ × List β) :=
  (step p.1 e).map fun t => (t, p.2 ++ obs p.1 e)

theorem observed_ok {p q : σ × List β} {e : α} (h : observed step obs p e = .ok q) :
    step p.1 e = .ok q.1 ∧ q.2 = p.2 ++ obs p.1 e := by
  unfold observed at h
  cases hs : step p.1 e with
  | error err =>
    rw [hs] at h
    cases h
  | ok t =>
    rw [hs] at h
    cases h
    exact ⟨rfl, rfl⟩

theorem observed_error {p : σ × List β} {e : α} {err : ε} (h : observed step obs p e = .error err) :
    step p.1 e = .error err := by
  unfold observed at h
  cases hs : step p.1 e with
  | error err' =>
    rw [hs] at h
    cases h
    rfl
  | ok t =>
    rw [hs] at h
    cases h

theorem runEvents_observed {es : List α} {err : ε} (h : runEvents step s es = .error err)
    (hist : List β) : runEvents (observed step obs) (s, hist) es = .error err := by
  induction es generalizing s hist with
  | nil => cases h
  | cons e es ih =>
    rcases bind_eq_error.mp h with hx | ⟨t, ht, hr⟩
    · exact bind_eq_error.mpr (.inl (by simp only [observed, hx]; rfl))
    · refine bind_eq_error.mpr (.inr ⟨(t, hist ++ obs s e), ?_, ih hr _⟩)
      simp only [observed, ht]
      rfl

theorem Reach.observe (h : Reach step Ok s t) :
    ∃ hist, Reach (observed step obs) (fun p e => Ok p.1 e) (s, []) (t, hist) := by
  induction h with
  | refl => exact ⟨[], .refl⟩
  | @tail t u e _ hok hs ih =>
    obtain ⟨hist, hr⟩ := ih
    refine ⟨hist ++ obs t e, .tail hr hok ?_⟩
    simp only [observed, hs]
    rfl

theorem Reach.forget {p q : σ × List β}
    (h : Reach (observed step obs) (fun p e => Ok p.1 e) p q) : Reach step Ok p.1 q.1 := by
  induction h with
  | refl => exact .refl
  | tail _ hok hs ih => exact .tail ih hok (observed_ok hs).1

end

end Adibi.Lib
