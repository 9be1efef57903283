import Mathlib.Algebra.Ring.Nat
import Mathlib.Data.List.Basic

/-!
# Byte strings and little-endian words

`Bytes` is a list of bytes. `le32` is the four-byte little-endian image of a
32-bit word and `ofLe32` its inverse; both go through `toNat`, so the round
trips are linear arithmetic. `copyAt` overwrites a range, and `ascii` is the
byte image of a literal.
-/

namespace Adibi.Lib

abbrev Bytes := List UInt8

def ascii (s : String) : Bytes := s.toList.map fun c => UInt8.ofNat c.toNat

/-! ## Little-endian words -/

def le32 (w : UInt32) : Bytes :=
  [UInt8.ofNat (w.toNat % 256), UInt8.ofNat (w.toNat / 256 % 256),
    UInt8.ofNat (w.toNat / 65536 % 256), UInt8.ofNat (w.toNat / 16777216 % 256)]

def ofLe32 (a b c d : UInt8) : UInt32 :=
  UInt32.ofNat (a.toNat + 256 * b.toNat + 65536 * c.toNat + 16777216 * d.toNat)

@[simp] theorem le32_length (w : UInt32) : (le32 w).length = 4 := rfl

theorem ofLe32_le32 (w : UInt32) :
    ofLe32 (UInt8.ofNat (w.toNat % 256)) (UInt8.ofNat (w.toNat / 256 % 256))
      (UInt8.ofNat (w.toNat / 65536 % 256)) (UInt8.ofNat (w.toNat / 16777216 % 256)) = w := by
  apply UInt32.toNat_inj.mp
  have hw := w.toNat_lt
  simp only [ofLe32, UInt32.toNat_ofNat', UInt8.toNat_ofNat']
  omega

theorem le32_ofLe32 (a b c d : UInt8) : le32 (ofLe32 a b c d) = [a, b, c, d] := by
  have ha := a.toNat_lt; have hb := b.toNat_lt; have hc := c.toNat_lt; have hd := d.toNat_lt
  have hv : (ofLe32 a b c d).toNat =
      a.toNat + 256 * b.toNat + 65536 * c.toNat + 16777216 * d.toNat := by
    simp only [ofLe32, UInt32.toNat_ofNat']; omega
  simp only [le32, hv, List.cons.injEq, and_true]
  refine ⟨?_, ?_, ?_, ?_⟩ <;> apply UInt8.toNat_inj.mp <;> rw [UInt8.toNat_ofNat'] <;> omega

theorem exists_le32 (w : UInt32) :
    ∃ a b c d, le32 w = [a, b, c, d] ∧ ofLe32 a b c d = w := ⟨_, _, _, _, rfl, ofLe32_le32 w⟩

/- Unfolding a word into its bytes is never wanted by unification, which would
compute with unary numerals. -/
attribute [irreducible] le32 ofLe32

/-! ## Overwriting a range -/

/-- `buf` with `src` written over it from offset `off`. -/
def copyAt (buf : Bytes) (off : Nat) (src : Bytes) : Bytes :=
  buf.take off ++ src ++ buf.drop (off + src.length)

theorem copyAt_length {buf src : Bytes} {off : Nat} (h : off + src.length ≤ buf.length) :
    (copyAt buf off src).length = buf.length := by
  simp only [copyAt, List.length_append, List.length_take, List.length_drop]; omega

end Adibi.Lib
