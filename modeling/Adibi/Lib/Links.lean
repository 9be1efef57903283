import Mathlib.Data.List.Basic

/-!
# Linked requests

A queue of requests some of which are linked to the one before them. Whoever serves
the queue starts a request at once unless it is linked to another, and a linked one
when the request before it has completed. `started` and `blocked` split a queue that
way. Served in chains of two, the requests start in the order of the queue if a linked
one has none behind it (`started_blocked`).
-/

namespace Adibi.Lib

section

variable {α : Type} (link : α → Bool)

/-- What is started at once; `linked` says whether the request before the queue links
its first one. -/
def started : Bool → List α → List α
  | _, [] => []
  | linked, e :: es => if linked then started (link e) es else e :: started (link e) es

/-- What waits for the request before it. -/
def blocked : Bool → List α → List α
  | _, [] => []
  | linked, e :: es => if linked then e :: blocked (link e) es else blocked (link e) es

/-- Whether the last request links the one behind the queue. -/
def linkAfter : Bool → List α → Bool
  | linked, [] => linked
  | _, e :: es => linkAfter (link e) es

/-- Chains are of two: a request that links has one behind it, which does not link. -/
def Chained : List α → Prop
  | [] => True
  | e :: es => (link e = true → ∃ f rest, es = f :: rest ∧ link f = false) ∧ Chained es

variable {link} {e : α} {es fs : List α}

theorem blocked_append (linked : Bool) (es fs : List α) : blocked link linked (es ++ fs) =
    blocked link linked es ++ blocked link (linkAfter link linked es) fs := by
  induction es generalizing linked with
  | nil => rfl
  | cons e es ih => cases linked <;> simp [blocked, linkAfter, ih]

theorem started_sublist (link : α → Bool) (linked : Bool) (es : List α) :
    (started link linked es).Sublist es := by
  induction es generalizing linked with
  | nil => exact .slnil
  | cons e es ih =>
    cases linked with
    | true => exact (ih (link e)).cons e
    | false => exact (ih (link e)).cons_cons e

theorem blocked_sublist (link : α → Bool) (linked : Bool) (es : List α) :
    (blocked link linked es).Sublist es := by
  induction es generalizing linked with
  | nil => exact .slnil
  | cons e es ih =>
    cases linked with
    | true => exact (ih (link e)).cons_cons e
    | false => exact (ih (link e)).cons e

theorem chained_singleton (h : link e = false) : Chained link [e] := by
  refine ⟨fun hl => ?_, trivial⟩
  rw [h] at hl
  cases hl

theorem Chained.append (h : Chained link es) (h' : Chained link fs) : Chained link (es ++ fs) := by
  induction es with
  | nil => exact h'
  | cons e es ih =>
    refine ⟨fun hl => ?_, ih h.2⟩
    obtain ⟨f, rest, rfl, hf⟩ := h.1 hl
    exact ⟨f, rest ++ fs, rfl, hf⟩

theorem Chained.linkAfter_eq (h : Chained link es) : linkAfter link false es = false := by
  induction es with
  | nil => rfl
  | cons e es ih =>
    cases hl : link e with
    | false =>
      rw [linkAfter, hl]
      exact ih h.2
    | true =>
      obtain ⟨f, rest, rfl, -⟩ := h.1 hl
      exact ih h.2

/-- Cut where nothing is linked, both parts are in chains of two. -/
theorem chained_append_iff (h : linkAfter link false es = false) :
    Chained link (es ++ fs) ↔ Chained link es ∧ Chained link fs := by
  refine ⟨fun hc => ?_, fun hc => hc.1.append hc.2⟩
  induction es with
  | nil => exact ⟨trivial, hc⟩
  | cons e es ih =>
    cases hl : link e with
    | false =>
      rw [linkAfter, hl] at h
      obtain ⟨h1, h2⟩ := ih h hc.2
      exact ⟨⟨fun ht => absurd (hl.symm.trans ht) (by decide), h1⟩, h2⟩
    | true =>
      cases es with
      | nil =>
        rw [linkAfter, hl] at h
        cases h
      | cons f rest =>
        obtain ⟨g, rest', hg, hf⟩ := hc.1 hl
        cases hg
        obtain ⟨h1, h2⟩ := ih h hc.2
        exact ⟨⟨fun _ => ⟨f, rest, rfl, hf⟩, h1⟩, h2⟩

/-! ## Serving a queue -/

variable {β : Type} {f : α → Option β}

/-- No more than the linked request follows one that links, as far as `f` sees. -/
def LinkedLast (link : α → Bool) (f : α → Option β) : List α → Prop
  | [] => True
  | e :: es => (link e = true → es.tail.filterMap f = []) ∧ LinkedLast link f es

instance decidableLinkedLast [DecidableEq β] :
    (es : List α) → Decidable (LinkedLast link f es)
  | [] => .isTrue trivial
  | _ :: es => @instDecidableAnd _ _ _ (decidableLinkedLast es)

theorem filterMap_nil_of_sublist (h : fs.Sublist es) (hes : es.filterMap f = []) :
    fs.filterMap f = [] :=
  List.sublist_nil.mp (hes ▸ h.filterMap f)

/-- **A queue whose linked requests come last is served in its order.** -/
theorem started_blocked (hc : Chained link es) (hl : LinkedLast link f es) :
    (started link false es).filterMap f ++ (blocked link false es).filterMap f = es.filterMap f := by
  induction es with
  | nil => rfl
  | cons e es ih =>
    cases hlink : link e with
    | false =>
      have hrest := ih hc.2 hl.2
      simp only [started, blocked, hlink, Bool.false_eq_true, if_false, List.filterMap_cons]
      cases f e with
      | none => exact hrest
      | some b => exact congrArg (b :: ·) hrest
    | true =>
      obtain ⟨p, rest, rfl, hp⟩ := hc.1 hlink
      have hnil : rest.filterMap f = [] := hl.1 hlink
      have h1 := filterMap_nil_of_sublist (started_sublist link false rest) hnil
      have h2 := filterMap_nil_of_sublist (blocked_sublist link false rest) hnil
      simp only [started, blocked, hlink, hp, Bool.false_eq_true, if_false, if_true,
        List.filterMap_cons, h1, h2, hnil]
      cases f e <;> rfl

theorem blocked_le_one (hc : Chained link es) (hl : LinkedLast link f es) :
    ((blocked link false es).filterMap f).length ≤ 1 := by
  induction es with
  | nil => exact Nat.zero_le 1
  | cons e es ih =>
    cases hlink : link e with
    | false =>
      simp only [blocked, hlink, Bool.false_eq_true, if_false]
      exact ih hc.2 hl.2
    | true =>
      obtain ⟨p, rest, rfl, hp⟩ := hc.1 hlink
      have hnil : rest.filterMap f = [] := hl.1 hlink
      have h2 := filterMap_nil_of_sublist (blocked_sublist link false rest) hnil
      simp only [blocked, hlink, hp, Bool.false_eq_true, if_false, if_true, List.filterMap_cons, h2]
      cases f p with
      | none => exact Nat.zero_le 1
      | some b => exact Nat.le_refl 1

theorem blocked_remove (h : linkAfter link false es = false) (hlink : link e = false) :
    blocked link false (es ++ e :: fs) = blocked link false (es ++ fs) := by
  simp only [blocked_append, h, blocked, hlink, Bool.false_eq_true, if_false]

/-- **A request that links has completed**: the one behind it waits no longer. -/
theorem blocked_remove_link (h : linkAfter link false es = false) (hlink : link e = true) (p : α)
    (fs : List α) :
    blocked link false (es ++ e :: p :: fs) =
        blocked link false es ++ p :: blocked link (link p) fs ∧
      blocked link false (es ++ p :: fs) =
        blocked link false es ++ blocked link (link p) fs := by
  simp only [blocked_append, h, blocked, hlink, Bool.false_eq_true, if_false, if_true, and_self]

theorem Chained.remove (h : linkAfter link false es = false) (hc : Chained link (es ++ e :: fs)) :
    Chained link (es ++ fs) := by
  rw [chained_append_iff h] at hc ⊢
  exact ⟨hc.1, hc.2.2⟩

end

end Adibi.Lib
