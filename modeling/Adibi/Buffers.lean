import Mathlib.Data.List.Nodup
import Adibi.Basic
import Adibi.Lib.Ownership

/-!
# The write-buffer pool

`BufferManager` (`buffers.rs`): eight slots, each free or holding the bytes of
a write in flight, numbered from one. `alloc` takes the first free slot and
panics when there is none; `free` clears a slot by its number.
-/

namespace Adibi

open Lib

def maxBufferSlots : Nat := 8

/-- The pool; `slots[i]` is slot number `i + 1`. -/
structure BufferManager where
  slots : List (Option Bytes)
  length_eq : slots.length = maxBufferSlots

namespace BufferManager

def new : BufferManager := ⟨List.replicate maxBufferSlots none, rfl⟩

def setSlot (b : BufferManager) (i : Nat) (v : Option Bytes) : BufferManager :=
  ⟨b.slots.set i v, by rw [List.length_set, b.length_eq]⟩

def get (b : BufferManager) (slot : UInt32) : Option Bytes :=
  if slot = 0 then none else (b.slots[slot.toNat - 1]?).join

/-- Takes the first free slot; returns its number with an empty buffer in it. -/
def alloc (b : BufferManager) : Except Panic (UInt32 × BufferManager) :=
  match b.slots.findIdx? (·.isNone) with
  | none => .error .slotsInUse
  | some i => .ok (UInt32.ofNat (i + 1), b.setSlot i (some []))

/-- `extend_from_slice` on the buffer of an allocated slot. -/
def extend (b : BufferManager) (slot : UInt32) (bytes : Bytes) : BufferManager :=
  b.setSlot (slot.toNat - 1) ((b.get slot).map (· ++ bytes))

/-- Frees a previously allocated slot by its number. -/
def free (b : BufferManager) (slot : UInt32) : Except Panic BufferManager :=
  if slot = 0 ∨ maxBufferSlots ≤ slot.toNat - 1 then .error .slotIndex
  else .ok (b.setSlot (slot.toNat - 1) none)

/-- The first bytes of an occupied slot overwritten by something else. -/
def overwrite (b : BufferManager) (slot : UInt32) (data : Bytes) : BufferManager :=
  match b.get slot with
  | some old => b.setSlot (slot.toNat - 1) (some (data.take old.length ++ old.drop data.length))
  | none => b

def used (b : BufferManager) : Nat := b.slots.countP (·.isSome)

/-! ## What the operations do -/

theorem get_setSlot_self {b : BufferManager} {slot : UInt32} (h0 : slot ≠ 0)
    (h8 : slot.toNat ≤ maxBufferSlots) (v : Option Bytes) :
    (b.setSlot (slot.toNat - 1) v).get slot = v := by
  have hpos : slot.toNat ≠ 0 := fun e => h0 (UInt32.toNat_inj.mp e)
  have hlt : slot.toNat - 1 < b.slots.length := by rw [b.length_eq]; omega
  simp [get, setSlot, h0, List.getElem?_set_self hlt]

theorem get_setSlot_ne {b : BufferManager} {slot s : UInt32} (h0 : slot ≠ 0) (hne : s ≠ slot)
    (v : Option Bytes) : (b.setSlot (slot.toNat - 1) v).get s = b.get s := by
  unfold get
  split
  · rfl
  · rename_i hs
    have h1 : slot.toNat ≠ 0 := fun e => h0 (UInt32.toNat_inj.mp e)
    have h2 : s.toNat ≠ 0 := fun e => hs (UInt32.toNat_inj.mp e)
    have h3 : s.toNat ≠ slot.toNat := fun e => hne (UInt32.toNat_inj.mp e)
    have h4 : slot.toNat - 1 ≠ s.toNat - 1 := by omega
    simp only [setSlot, List.getElem?_set_ne h4]

theorem range_of_get {b : BufferManager} {slot : UInt32} {bytes : Bytes}
    (h : b.get slot = some bytes) : slot ≠ 0 ∧ slot.toNat ≤ maxBufferSlots := by
  unfold get at h
  split at h
  · cases h
  · rename_i h0
    refine ⟨h0, ?_⟩
    by_contra hgt
    have : b.slots.length ≤ slot.toNat - 1 := by rw [b.length_eq]; omega
    rw [List.getElem?_eq_none this] at h
    cases h

theorem slotNumber {i : Nat} (h : i < 8) :
    (UInt32.ofNat (i + 1)).toNat = i + 1 ∧ UInt32.ofNat (i + 1) ≠ 0 := by
  have hn : (UInt32.ofNat (i + 1)).toNat = i + 1 :=
    UInt32.toNat_ofNat_of_lt' (Nat.lt_of_le_of_lt (Nat.succ_le_of_lt h) (by decide))
  refine ⟨hn, fun e => ?_⟩
  have := congrArg UInt32.toNat e
  rw [hn] at this
  cases this

/-- `alloc` takes a free slot of the pool and touches no other. -/
theorem alloc_ok {b b' : BufferManager} {slot : UInt32} (h : b.alloc = .ok (slot, b')) :
    slot ≠ 0 ∧ slot.toNat ≤ maxBufferSlots ∧ b.get slot = none ∧
      b' = b.setSlot (slot.toNat - 1) (some []) := by
  unfold alloc at h
  split at h
  · cases h
  · rename_i i hi
    cases h
    obtain ⟨hlt, hnone, -⟩ := List.findIdx?_eq_some_iff_getElem.mp hi
    have hlt8 : i < 8 := by simpa [b.length_eq, maxBufferSlots] using hlt
    obtain ⟨hn, h0⟩ := slotNumber hlt8
    refine ⟨h0, by rw [hn, maxBufferSlots]; omega, ?_, by rw [hn, Nat.add_sub_cancel]⟩
    unfold get
    rw [if_neg h0, hn, Nat.add_sub_cancel, List.getElem?_eq_getElem hlt]
    simpa using hnone

theorem alloc_extend {b b' : BufferManager} {slot : UInt32} (h : b.alloc = .ok (slot, b'))
    (bytes : Bytes) : (b'.extend slot bytes).get slot = some bytes ∧
      ∀ s, s ≠ slot → (b'.extend slot bytes).get s = b.get s := by
  obtain ⟨h0, h8, -, rfl⟩ := alloc_ok h
  refine ⟨?_, fun s hs => ?_⟩
  · rw [extend, get_setSlot_self h0 h8, get_setSlot_self h0 h8]; rfl
  · rw [extend, get_setSlot_ne h0 hs, get_setSlot_ne h0 hs]

theorem free_ok {b b' : BufferManager} {slot : UInt32} (h : b.free slot = .ok b') :
    slot ≠ 0 ∧ b'.get slot = none ∧ ∀ s, s ≠ slot → b'.get s = b.get s := by
  unfold free at h
  split at h
  · cases h
  · rename_i hc
    cases h
    simp only [not_or, Nat.not_le] at hc
    exact ⟨hc.1, get_setSlot_self hc.1 (by omega) none, fun s hs => get_setSlot_ne hc.1 hs none⟩

theorem overwrite_get_ne {b : BufferManager} {slot s : UInt32} (hs : s ≠ slot) (data : Bytes) :
    (b.overwrite slot data).get s = b.get s := by
  unfold overwrite
  cases h : b.get slot with
  | none => rfl
  | some old => exact get_setSlot_ne (range_of_get h).1 hs _

theorem overwrite_isSome (b : BufferManager) (slot : UInt32) (data : Bytes) (s : UInt32) :
    ((b.overwrite slot data).get s).isSome = (b.get s).isSome := by
  by_cases hs : s = slot
  · subst hs
    unfold overwrite
    cases h : b.get s with
    | none => rw [h]
    | some old =>
      obtain ⟨h0, h8⟩ := range_of_get h
      rw [get_setSlot_self h0 h8]
      rfl
  · rw [overwrite_get_ne hs]

theorem eq_new {b : BufferManager} (h : ∀ slot, b.get slot = none) : b = .new := by
  obtain ⟨slots, hlen⟩ := b
  have hslots : slots = List.replicate maxBufferSlots none := by
    refine List.eq_replicate_iff.mpr ⟨hlen, fun v hv => ?_⟩
    obtain ⟨i, hi, rfl⟩ := List.mem_iff_getElem.mp hv
    have hi8 : i < 8 := by simpa [hlen, maxBufferSlots] using hi
    obtain ⟨hn, h0⟩ := slotNumber hi8
    have hg := h (UInt32.ofNat (i + 1))
    unfold get at hg
    rw [if_neg h0, hn, Nat.add_sub_cancel, List.getElem?_eq_getElem hi] at hg
    exact hg
  subst hslots
  rfl

/-! ## How many slots are occupied -/

theorem alloc_error {b : BufferManager} {p : Panic} (h : b.alloc = .error p) :
    b.used = maxBufferSlots := by
  unfold alloc at h
  split at h
  · rename_i hi
    rw [used, ← b.length_eq, List.countP_eq_length]
    intro v hv
    simpa using List.findIdx?_eq_none_iff.mp hi v hv
  · cases h

theorem alloc_used {b b' : BufferManager} {slot : UInt32} {bytes : Bytes}
    (h : b.alloc = .ok (slot, b')) : (b'.extend slot bytes).used = b.used + 1 := by
  obtain ⟨h0, h8, hnone, rfl⟩ := alloc_ok h
  have hpos : slot.toNat ≠ 0 := fun e => h0 (UInt32.toNat_inj.mp e)
  have hlt : slot.toNat - 1 < b.slots.length := by rw [b.length_eq]; omega
  have hfree : b.slots[slot.toNat - 1] = none := by
    unfold get at hnone
    rw [if_neg h0, List.getElem?_eq_getElem hlt] at hnone
    exact hnone
  rw [extend, get_setSlot_self h0 h8]
  simp only [setSlot, List.set_set, used]
  rw [List.countP_set hlt, hfree]
  simp

theorem used_le (b : BufferManager) : b.used ≤ maxBufferSlots := by
  rw [← b.length_eq]
  exact List.countP_le_length

theorem used_eq {b : BufferManager} {slots : List UInt32} (h : Owns b.get slots) :
    b.used = slots.length := by
  let occupied := ((List.range maxBufferSlots).filter fun i => ((b.slots[i]?).join).isSome)
  have hget : ∀ i < maxBufferSlots, b.get (UInt32.ofNat (i + 1)) = (b.slots[i]?).join := by
    intro i hi
    obtain ⟨hn, h0⟩ := slotNumber hi
    unfold get
    rw [if_neg h0, hn, Nat.add_sub_cancel]
  have hinj : ∀ i ∈ occupied, ∀ j ∈ occupied, UInt32.ofNat (i + 1) = UInt32.ofNat (j + 1) → i = j := by
    intro i hi j hj he
    have hi8 := List.mem_range.mp (List.mem_filter.mp hi).1
    have hj8 := List.mem_range.mp (List.mem_filter.mp hj).1
    have := congrArg UInt32.toNat he
    rw [(slotNumber hi8).1, (slotNumber hj8).1] at this
    omega
  have hperm : slots.Perm (occupied.map fun i => UInt32.ofNat (i + 1)) := by
    refine (List.perm_ext_iff_of_nodup h.nodup
      (List.Nodup.map_on hinj (List.nodup_range.filter _))).mpr fun slot => ?_
    rw [← h.filled slot, List.mem_map]
    refine ⟨fun hs => ?_, ?_⟩
    · obtain ⟨bytes, hb⟩ := Option.isSome_iff_exists.mp hs
      obtain ⟨h0, h8⟩ := range_of_get hb
      have hpos : slot.toNat ≠ 0 := fun e => h0 (UInt32.toNat_inj.mp e)
      have hslot : UInt32.ofNat (slot.toNat - 1 + 1) = slot := by
        rw [Nat.sub_add_cancel (by omega), UInt32.ofNat_toNat]
      refine ⟨slot.toNat - 1, List.mem_filter.mpr ⟨List.mem_range.mpr (by omega), ?_⟩, hslot⟩
      rw [← hget _ (by omega), hslot]
      exact hs
    · rintro ⟨i, hi, rfl⟩
      obtain ⟨hi8, hi⟩ := List.mem_filter.mp hi
      rw [hget i (List.mem_range.mp hi8)]
      exact hi
  rw [hperm.length_eq, List.length_map, ← List.countP_eq_length_filter]
  have hslots : b.slots = (List.range maxBufferSlots).map fun i => (b.slots[i]?).join := by
    refine List.ext_getElem (by simp [b.length_eq]) fun i h1 h2 => ?_
    simp [h1]
  rw [used]
  conv_lhs => rw [hslots]
  rw [List.countP_map]
  rfl

end BufferManager

end Adibi
