import Mathlib.Data.List.DropRight
import Adibi.Lib.Bytes

/-!
# Text

A string as its characters, with the meaning of the `str` methods of the same
names: `lines`, `splitOnce`, `trim` and `trimMatches`.
-/

namespace Adibi.Lib

abbrev Text := List Char

namespace Text

def utf8 (s : Text) : Bytes := s.flatMap String.utf8EncodeChar

/-- The Unicode `White_Space` characters. -/
def isWhitespace (c : Char) : Bool :=
  let n := c.toNat
  (0x09 ≤ n && n ≤ 0x0d) || n == 0x20 || n == 0x85 || n == 0xa0 || n == 0x1680 ||
    (0x2000 ≤ n && n ≤ 0x200a) || n == 0x2028 || n == 0x2029 || n == 0x202f || n == 0x205f ||
    n == 0x3000

def trimEndMatches (s : Text) (p : Char → Bool) : Text := s.rdropWhile p

def trimMatches (s : Text) (p : Char → Bool) : Text := (s.dropWhile p).rdropWhile p

def trim (s : Text) : Text := s.trimMatches isWhitespace

/-- A carriage return before the line feed belongs to the line's end. -/
def stripCr (line : Text) : Text := if line.getLast? = some '\r' then line.dropLast else line

/-- The lines of `s`, the first of which began with `got`. -/
def linesFrom (got : Text) : Text → List Text
  | [] => if got = [] then [] else [got]
  | c :: s => if c = '\n' then stripCr got :: linesFrom [] s else linesFrom (got ++ [c]) s

/-- The lines; an end after a line feed makes no further line. -/
def lines (s : Text) : List Text := linesFrom [] s

def splitOnce (s : Text) (d : Char) : Option (Text × Text) :=
  if d ∈ s then some (s.takeWhile (· ≠ d), (s.dropWhile (· ≠ d)).tail) else none

example : lines "a\r\n\nb".toList = ["a".toList, [], "b".toList] := by decide

theorem splitOnce_eq_none {s : Text} {d : Char} : s.splitOnce d = none ↔ d ∉ s := by
  unfold splitOnce
  by_cases h : d ∈ s
  · simp [h]
  · simp [h]

theorem utf8_ne_nil {s : Text} (h : s ≠ []) : s.utf8 ≠ [] := by
  cases s with
  | nil => exact absurd rfl h
  | cons c s =>
    rw [utf8, List.flatMap_cons]
    intro he
    exact String.utf8EncodeChar_ne_nil (List.append_eq_nil_iff.mp he).1

end Text

end Adibi.Lib
