import Adibi.Lib.Parser
import Adibi.Lib.System
import Adibi.Lib.Utf8

/-!
# Panics and narrowing

`Panic` names every `expect`, `assert`, `unreachable!`, out-of-range slice and
checked arithmetic operation of the daemon; a function that can reach one
returns `Except Panic`. Integer overflow panics, as in a build with overflow
checks.
-/

namespace Adibi

open Lib

/-- The places where the daemon can panic. -/
inductive Panic where
  /-- `BufferManager::alloc`: "all write slots in use". -/
  | slotsInUse
  /-- `BufferManager::free`: the slot number is not an index of the pool. -/
  | slotIndex
  /-- A push on a full submission queue: "SQ full". -/
  | sqFull
  /-- A `NonZeroU32` built from zero: "Buffer slot 0 cannot exist". -/
  | slotZero
  /-- "Service ID 0 cannot exist". -/
  | serviceIdZero
  /-- `next_id += 1` past `u32::MAX`. -/
  | nextIdOverflow
  /-- "We just opened our stream successfully." -/
  | justOpened
  /-- "CLSE remote_id mismatch". -/
  | clseRemoteId
  /-- "CNXN requires a payload". -/
  | cnxnPayload
  /-- "OPEN requires a payload". -/
  | openPayload
  /-- "WRTE requires a payload". -/
  | wrtePayload
  /-- "OKAY must not carry a payload". -/
  | okayPayload
  /-- `unreachable!()`: a WRTE for a reboot stream. -/
  | rebootWrte
  /-- `unreachable!()`: an OKAY for a reboot stream. -/
  | rebootContinue
  /-- `unreachable!()`: a read completion without a stream id. -/
  | readWithoutId
  /-- `unreachable!()`: a write completion without a slot. -/
  | writeWithoutSlot
  /-- "File too large for 32-bits". -/
  | fileTooLarge
  /-- "File modified in 2038 or after". -/
  | mtimeRange
  /-- The `u32` sum of a payload's bytes overflows. -/
  | checksumOverflow
  /-- A length that does not fit a `u32` field. -/
  | lengthOverflow
  /-- A slice or copy out of range, or a length subtraction below zero. -/
  | sliceRange
  deriving DecidableEq, Repr

/-- `len.try_into::<u32>().expect(..)`. -/
def lenU32 (n : Nat) : Except Panic UInt32 :=
  if n < 2 ^ 32 then .ok (UInt32.ofNat n) else .error .lengthOverflow

theorem lenU32_of_lt {n : Nat} (h : n < 2 ^ 32) : lenU32 n = .ok (UInt32.ofNat n) := if_pos h

theorem lenU32_ok {n : Nat} {w : UInt32} (h : lenU32 n = .ok w) : w.toNat = n := by
  unfold lenU32 at h
  split at h
  · rename_i hn
    cases h
    exact UInt32.toNat_ofNat_of_lt' hn
  · cases h

end Adibi
