import Mathlib.Data.Nat.Bitwise
import Adibi.Basic

/-!
# `io_uring` user data

The 64-bit tag of a submission (`UserData` of `main.rs`): the operation in the
high word, a non-zero stream id or slot number (or zero) in the low word.
-/

namespace Adibi

open Lib

/-- Our `io_uring` operations. -/
inductive UserDataOpType where
  | ep0Poll
  | bulkOutReadHeader
  | bulkOutReadPayload
  | bulkInWrite
  | ptyRead
  | socketRead
  deriving DecidableEq, Repr

namespace UserDataOpType

def toU32 : UserDataOpType → UInt32
  | .ep0Poll => 1
  | .bulkOutReadHeader => 2
  | .bulkOutReadPayload => 3
  | .bulkInWrite => 4
  | .ptyRead => 5
  | .socketRead => 6

def tryFrom (w : UInt32) : Option UserDataOpType :=
  if w = 1 then some .ep0Poll
  else if w = 2 then some .bulkOutReadHeader
  else if w = 3 then some .bulkOutReadPayload
  else if w = 4 then some .bulkInWrite
  else if w = 5 then some .ptyRead
  else if w = 6 then some .socketRead
  else none

@[simp] theorem tryFrom_toU32 (o : UserDataOpType) : tryFrom o.toU32 = some o := by
  cases o <;> decide

theorem toU32_of_tryFrom {w : UInt32} {o : UserDataOpType} (h : tryFrom w = some o) :
    o.toU32 = w := by
  unfold tryFrom at h
  repeat' split at h
  all_goals
    cases h
    try (rename_i hw; exact hw.symm)

end UserDataOpType

/-- A `NonZeroU32`. -/
abbrev NonZeroU32 := { w : UInt32 // w ≠ 0 }

def NonZeroU32.new (w : UInt32) : Option NonZeroU32 := if h : w ≠ 0 then some ⟨w, h⟩ else none

theorem NonZeroU32.new_val (n : NonZeroU32) : NonZeroU32.new n.1 = some n := dif_pos n.2

structure UserData where
  opType : UserDataOpType
  data : Option NonZeroU32
  deriving DecidableEq

namespace UserData

/-- The low word: `0` stands for no data. -/
def word (u : UserData) : UInt32 := (u.data.map (·.1)).getD 0

def toU64 (u : UserData) : UInt64 := (u.opType.toU32.toUInt64 <<< 32) ||| u.word.toUInt64

def tryFrom (v : UInt64) : Option UserData := do
  let op ← UserDataOpType.tryFrom ((v &&& 0xffffffff00000000) >>> 32).toUInt32
  pure ⟨op, NonZeroU32.new (v &&& 0x00000000ffffffff).toUInt32⟩

/-! ## The packing is faithful -/

theorem new_word (u : UserData) : NonZeroU32.new u.word = u.data := by
  obtain ⟨o, d⟩ := u
  cases d with
  | none => rfl
  | some n => exact NonZeroU32.new_val n

theorem word_new (op : UserDataOpType) (w : UInt32) : (⟨op, NonZeroU32.new w⟩ : UserData).word = w := by
  unfold word NonZeroU32.new
  split
  · rfl
  · rename_i hw
    exact (not_not.mp hw).symm

theorem mask_low (x : Nat) : x &&& 0xffffffff = x % 2 ^ 32 := Nat.and_two_pow_sub_one_eq_mod x 32

theorem mask_high {x : Nat} (hx : x < 2 ^ 64) : (x &&& 0xffffffff00000000) >>> 32 = x >>> 32 := by
  have hm : (0xffffffff00000000 : Nat) >>> 32 = 0xffffffff := by decide
  rw [Nat.shiftRight_and_distrib, hm, mask_low, Nat.mod_eq_of_lt]
  rw [Nat.shiftRight_eq_div_pow]
  omega

theorem pack_toNat (a b : UInt32) :
    ((a.toUInt64 <<< 32) ||| b.toUInt64).toNat = a.toNat * 2 ^ 32 + b.toNat := by
  have ha := a.toNat_lt
  have hb := b.toNat_lt
  simp only [UInt64.toNat_or, UInt64.toNat_shiftLeft, UInt32.toNat_toUInt64]
  rw [show (32 : UInt64).toNat % 64 = 32 from rfl, Nat.shiftLeft_eq, Nat.mod_eq_of_lt (by omega),
    ← Nat.shiftLeft_eq, ← Nat.shiftLeft_add_eq_or_of_lt hb]

theorem high_pack (a b : UInt32) :
    ((((a.toUInt64 <<< 32) ||| b.toUInt64) &&& 0xffffffff00000000) >>> 32).toUInt32 = a := by
  apply UInt32.toNat_inj.mp
  have ha := a.toNat_lt
  have hb := b.toNat_lt
  rw [UInt64.toNat_toUInt32, UInt64.toNat_shiftRight, UInt64.toNat_and, pack_toNat,
    show (32 : UInt64).toNat % 64 = 32 from rfl,
    show (0xffffffff00000000 : UInt64).toNat = 0xffffffff00000000 from rfl,
    mask_high (by omega), Nat.shiftRight_eq_div_pow]
  omega

theorem low_pack (a b : UInt32) :
    (((a.toUInt64 <<< 32) ||| b.toUInt64) &&& 0x00000000ffffffff).toUInt32 = b := by
  apply UInt32.toNat_inj.mp
  have hb := b.toNat_lt
  rw [UInt64.toNat_toUInt32, UInt64.toNat_and, pack_toNat,
    show (0x00000000ffffffff : UInt64).toNat = 0xffffffff from rfl, mask_low]
  omega

@[simp] theorem tryFrom_toU64 (u : UserData) : tryFrom u.toU64 = some u := by
  have hd := new_word u
  unfold tryFrom toU64
  rw [high_pack, low_pack, UserDataOpType.tryFrom_toU32, hd]
  rfl

theorem toU64_of_tryFrom {v : UInt64} {u : UserData} (h : tryFrom v = some u) : u.toU64 = v := by
  obtain ⟨op, hop, he⟩ := Option.bind_eq_some_iff.mp h
  cases he
  have hv := v.toNat_lt
  apply UInt64.toNat_inj.mp
  unfold toU64
  rw [pack_toNat, UserDataOpType.toU32_of_tryFrom hop, word_new, UInt64.toNat_toUInt32,
    UInt64.toNat_toUInt32, UInt64.toNat_shiftRight, UInt64.toNat_and, UInt64.toNat_and,
    show (32 : UInt64).toNat % 64 = 32 from rfl,
    show (0xffffffff00000000 : UInt64).toNat = 0xffffffff00000000 from rfl,
    show (0x00000000ffffffff : UInt64).toNat = 0xffffffff from rfl, mask_high (by omega), mask_low,
    Nat.shiftRight_eq_div_pow]
  omega

theorem toU64_injective {u v : UserData} (h : u.toU64 = v.toU64) : u = v := by
  have hu := tryFrom_toU64 u
  rw [h, tryFrom_toU64] at hu
  exact (Option.some.inj hu).symm

end UserData

end Adibi
