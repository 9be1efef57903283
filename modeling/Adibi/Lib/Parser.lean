import Mathlib.Data.List.TakeWhile
import Adibi.Lib.Bytes

/-!
# Parsers over complete byte slices

A parser takes the unread bytes and returns a value with the bytes it leaves,
or nothing. The combinators have the meaning of their `winnow` namesakes on
complete input. `Local p` says a success reads a prefix and looks no further:
the same prefix parses alike whatever follows it.
-/

namespace Adibi.Lib

abbrev Parser (α : Type) := Bytes → Option (α × Bytes)

namespace Parser

variable {α β γ : Type}

/-- `p`, then the parser its value selects. -/
def andThen (p : Parser α) (k : α → Parser β) : Parser β := fun bs =>
  (p bs).bind fun r => k r.1 r.2

def map (p : Parser α) (f : α → β) : Parser β := fun bs => (p bs).map fun r => (f r.1, r.2)

/-- `p`, failing where `f` has no image of its value. -/
def verifyMap (p : Parser α) (f : α → Option β) : Parser β := fun bs =>
  (p bs).bind fun r => (f r.1).map fun b => (b, r.2)

def leU32 : Parser UInt32
  | a :: b :: c :: d :: rest => some (ofLe32 a b c d, rest)
  | _ => none

/-- The next `n` bytes. -/
def take (n : Nat) : Parser Bytes := fun bs =>
  if n ≤ bs.length then some (bs.take n, bs.drop n) else none

/-- A length, then that many bytes. -/
def lengthTake (len : Parser UInt32) : Parser Bytes := andThen len fun n => take n.toNat

/-- One or more bytes before the first `b`, which must occur. -/
def takeUntil1 (b : UInt8) : Parser Bytes := fun bs =>
  match bs.idxOf? b with
  | none | some 0 => none
  | some i => some (bs.take i, bs.drop i)

def literal (b : UInt8) : Parser Unit
  | c :: rest => if c = b then some ((), rest) else none
  | [] => none

def isDigit (b : UInt8) : Bool := 48 ≤ b.toNat && b.toNat ≤ 57

/-- One or more ASCII digits, as many as there are. -/
def digit1 : Parser Bytes := fun bs =>
  match bs.takeWhile isDigit with
  | [] => none
  | ds => some (ds, bs.dropWhile isDigit)

/-- `p`, `sep`, `q`; the separator's value is dropped. -/
def separatedPair (p : Parser α) (sep : Parser β) (q : Parser γ) : Parser (α × γ) :=
  andThen p fun a => andThen sep fun _ => map q fun c => (a, c)

/-! ## Reading what was written -/

@[simp] theorem leU32_le32 (w : UInt32) (t : Bytes) : leU32 (le32 w ++ t) = some (w, t) := by
  obtain ⟨a, b, c, d, he, hw⟩ := exists_le32 w
  rw [he, ← hw]
  rfl

theorem leU32_eq_some {bs : Bytes} {w : UInt32} {r : Bytes} (h : leU32 bs = some (w, r)) :
    bs = le32 w ++ r := by
  unfold leU32 at h
  split at h
  · simp only [Option.some.injEq, Prod.mk.injEq] at h
    obtain ⟨rfl, rfl⟩ := h
    rw [le32_ofLe32]; rfl
  · cases h

theorem leU32_eq_none {bs : Bytes} : leU32 bs = none ↔ bs.length < 4 := by
  unfold leU32
  split
  · simp
  · rename_i h
    simp only [true_iff]
    rcases bs with _ | ⟨a, _ | ⟨b, _ | ⟨c, _ | ⟨d, r⟩⟩⟩⟩
    · simp
    · simp
    · simp
    · simp
    · exact absurd rfl (h a b c d r)

@[simp] theorem take_append {n : Nat} {b t : Bytes} (h : b.length = n) :
    take n (b ++ t) = some (b, t) := by
  subst h; simp [take]

theorem lengthTake_append {b t : Bytes} (h : b.length < 2 ^ 32) :
    lengthTake leU32 (le32 (UInt32.ofNat b.length) ++ (b ++ t)) = some (b, t) := by
  have hn : (UInt32.ofNat b.length).toNat = b.length := UInt32.toNat_ofNat_of_lt' h
  simp only [lengthTake, andThen, leU32_le32, Option.bind_some, hn]
  exact take_append rfl

theorem idxOf_append_cons {p t : Bytes} {b : UInt8} (hb : b ∉ p) :
    (p ++ b :: t).idxOf? b = some p.length := by
  induction p with
  | nil => simp [List.idxOf?_cons]
  | cons c p ih =>
    have hc : c ≠ b := fun e => hb (by simp [e])
    have hp : b ∉ p := fun h => hb (List.mem_cons_of_mem _ h)
    simp [List.idxOf?_cons, hc, ih hp]

theorem takeUntil1_append {p t : Bytes} {b : UInt8} (hp : p ≠ []) (hb : b ∉ p) :
    takeUntil1 b (p ++ b :: t) = some (p, b :: t) := by
  have hl : p.length ≠ 0 := by simpa using hp
  unfold takeUntil1
  rw [idxOf_append_cons hb]
  split
  · rename_i h; cases h
  · rename_i h; exact absurd (Option.some.inj h) hl
  · rename_i i _ h
    cases h
    simp

theorem digit1_all {ds : Bytes} (hne : ds ≠ []) (hd : ∀ d ∈ ds, isDigit d = true) :
    digit1 ds = some (ds, []) := by
  have ht : ds.takeWhile isDigit = ds := List.takeWhile_eq_self_iff.mpr hd
  have hr : ds.dropWhile isDigit = [] := List.dropWhile_eq_nil_iff.mpr hd
  unfold digit1
  rw [ht, hr]
  cases ds with
  | nil => exact absurd rfl hne
  | cons d ds => rfl

/-! ## What a success took -/

theorem lengthTake_length {bs a r : Bytes} (h : lengthTake leU32 bs = some (a, r)) :
    a.length ≤ bs.length := by
  obtain ⟨⟨n, m⟩, h1, h2⟩ := Option.bind_eq_some_iff.mp h
  rw [leU32_eq_some h1]
  simp only [take] at h2
  split at h2
  · simp only [Option.some.injEq, Prod.mk.injEq] at h2
    rw [← h2.1]
    simp only [List.length_take, List.length_append]
    omega
  · cases h2

theorem takeUntil1_length {b : UInt8} {bs a r : Bytes} (h : takeUntil1 b bs = some (a, r)) :
    a.length ≤ bs.length := by
  unfold takeUntil1 at h
  split at h
  · cases h
  · cases h
  · simp only [Option.some.injEq, Prod.mk.injEq] at h
    rw [← h.1, List.length_take]
    omega

theorem takeUntil1_not_mem {b : UInt8} {bs a r : Bytes} (h : takeUntil1 b bs = some (a, r)) :
    b ∉ a := by
  unfold takeUntil1 at h
  split at h
  · cases h
  · cases h
  · rename_i i _ hi
    simp only [Option.some.injEq, Prod.mk.injEq] at h
    obtain ⟨rfl, -⟩ := h
    intro hmem
    obtain ⟨hlt, -, hbefore⟩ := List.idxOf?_eq_some_iff.mp hi
    obtain ⟨j, hj, he⟩ := List.mem_iff_getElem.mp hmem
    simp only [List.length_take] at hj
    rw [List.getElem_take] at he
    exact hbefore j (by omega) he

/-! ## Reading a prefix only -/

/-- A success reads a prefix, and parses that prefix alike before any suffix. -/
def Local (p : Parser α) : Prop :=
  ∀ bs a r, p bs = some (a, r) → ∃ c, bs = c ++ r ∧ ∀ t, p (c ++ t) = some (a, t)

theorem local_leU32 : Local leU32 := by
  intro bs w r h
  exact ⟨le32 w, leU32_eq_some h, leU32_le32 w⟩

theorem local_take (n : Nat) : Local (take n) := by
  intro bs b r h
  simp only [take] at h
  split at h
  · rename_i hn
    simp only [Option.some.injEq, Prod.mk.injEq] at h
    obtain ⟨rfl, rfl⟩ := h
    exact ⟨bs.take n, (List.take_append_drop n bs).symm, fun t => take_append (List.length_take_of_le hn)⟩
  · cases h

theorem Local.andThen {p : Parser α} {k : α → Parser β} (hp : Local p) (hk : ∀ a, Local (k a)) :
    Local (andThen p k) := by
  intro bs b r h
  obtain ⟨⟨a, m⟩, h1, h2⟩ := Option.bind_eq_some_iff.mp h
  obtain ⟨c, rfl, hc⟩ := hp bs a m h1
  obtain ⟨d, rfl, hd⟩ := hk a m b r h2
  refine ⟨c ++ d, by simp, fun t => ?_⟩
  rw [List.append_assoc]
  simp only [Parser.andThen, hc, Option.bind_some, hd]

theorem Local.verifyMap {p : Parser α} {f : α → Option β} (hp : Local p) :
    Local (verifyMap p f) := by
  intro bs b r h
  obtain ⟨⟨a, m⟩, h1, h2⟩ := Option.bind_eq_some_iff.mp h
  obtain ⟨b', hb, he⟩ := Option.map_eq_some_iff.mp h2
  simp only [Prod.mk.injEq] at he
  obtain ⟨rfl, rfl⟩ := he
  obtain ⟨c, rfl, hc⟩ := hp bs a m h1
  exact ⟨c, rfl, fun t => by simp [Parser.verifyMap, hc, hb]⟩

theorem Local.map {p : Parser α} {f : α → β} (hp : Local p) : Local (map p f) := by
  intro bs b r h
  obtain ⟨⟨a, m⟩, h1, h2⟩ := Option.map_eq_some_iff.mp h
  simp only [Prod.mk.injEq] at h2
  obtain ⟨rfl, rfl⟩ := h2
  obtain ⟨c, rfl, hc⟩ := hp bs a m h1
  exact ⟨c, rfl, fun t => by simp [Parser.map, hc]⟩

theorem local_lengthTake {len : Parser UInt32} (h : Local len) : Local (lengthTake len) :=
  h.andThen fun n => local_take n.toNat

end Parser

end Adibi.Lib
