import Adibi.Sync.Packet

/-!
# Requests on the wire

A host writes LSTAT, RECV and SEND requests; `parseSyncPacket` reads them back
exactly when the length word holds the length of the body and the path of a
SEND has no comma (`parse_encode_iff`): the body is split at the first comma,
not at the last.
-/

namespace Adibi

open Lib

/-- A way to write `m` in decimal. -/
structure DecimalText (m : UInt32) where
  text : Bytes
  text_ne : text ≠ []
  digits : ∀ d ∈ text, Parser.isDigit d = true
  value : decimal text = m.toNat

namespace DecimalText

/-- The byte of a decimal digit. -/
def byteOf (c : Char) : UInt8 := UInt8.ofNat c.toNat

theorem byteOf_toNat {c : Char} (h : c.isDigit) : (byteOf c).toNat = c.toNat := by
  have hc : 48 ≤ c.toNat ∧ c.toNat ≤ 57 := Char.isDigit_iff_toNat.mp h
  rw [byteOf, UInt8.toNat_ofNat']
  omega

theorem decimal_map {cs : List Char} (h : ∀ c ∈ cs, c.isDigit) :
    decimal (cs.map byteOf) = Nat.ofDigitChars 10 cs 0 := by
  rw [decimal, Nat.ofDigitChars_eq_foldl, List.foldl_map]
  refine List.foldl_ext _ _ 0 fun n c hc => ?_
  rw [byteOf_toNat (h c hc)]
  rfl

/-- The digits of `m`, without leading zeros. -/
def canonical (m : UInt32) : DecimalText m where
  text := (Nat.toDigits 10 m.toNat).map byteOf
  text_ne := by simp [Nat.toDigits_ne_nil]
  digits := by
    intro d hd
    obtain ⟨c, hc, rfl⟩ := List.mem_map.mp hd
    have hdig : c.isDigit := Nat.isDigit_of_mem_toDigits (by decide) (by decide) hc
    have hval : 48 ≤ c.toNat ∧ c.toNat ≤ 57 := Char.isDigit_iff_toNat.mp hdig
    simp only [Parser.isDigit, byteOf_toNat hdig, Bool.and_eq_true, decide_eq_true_eq]
    exact hval
  value := by
    rw [decimal_map fun c hc => Nat.isDigit_of_mem_toDigits (by decide) (by decide) hc]
    exact Nat.ofDigitChars_ten_toDigits

end DecimalText

/-- A request about a file, as a host means it. -/
inductive FileRequest where
  | lstat (path : Path)
  | recv (path : Path)
  | send (path : Path) (mode : UInt32) (text : DecimalText mode) (path_ne : path ≠ [])

namespace FileRequest

def id : FileRequest → UInt32
  | .lstat _ => idLstatV1
  | .recv _ => idRecvV1
  | .send .. => idSendV1

def body : FileRequest → Bytes
  | .lstat path | .recv path => path
  | .send path _ text _ => path ++ 0x2c :: text.text

def encode (r : FileRequest) : Bytes := le32 r.id ++ lenPrefixed r.body

def packet : FileRequest → SyncPacket
  | .lstat path => .lstatV1 path
  | .recv path => .recvV1 path
  | .send path mode _ _ => .sendV1 path mode

/-- The path of a SEND has no comma. -/
def CommaFree : FileRequest → Prop
  | .send path _ _ _ => 0x2c ∉ path
  | _ => True

/-! ## Reading it back -/

theorem parse_encode (r : FileRequest) (t : Bytes) (hlen : r.body.length < 2 ^ 32)
    (hfree : r.CommaFree) : parseSyncPacket (r.encode ++ t) = some (r.packet, t) := by
  cases r with
  | lstat path => exact parseSyncPacket_lstat hlen t
  | recv path => exact parseSyncPacket_recv hlen t
  | send path mode text path_ne =>
    have hlt : path.length + text.text.length + 1 < 2 ^ 32 := by
      simp only [body, List.length_append, List.length_cons] at hlen
      omega
    have hmode : decimal text.text < 2 ^ 32 := by
      rw [text.value]
      exact mode.toNat_lt
    have h := parseSyncPacket_send
      ⟨path, text.text, path_ne, hfree, text.text_ne, text.digits, hmode, hlt⟩ t
    simp only [SendRequest.mode, text.value, UInt32.ofNat_toNat] at h
    exact h

/-- A length-prefixed body read back whole has a length that fits its word. -/
theorem lengthTake_lenPrefixed {b t a : Bytes}
    (h : Parser.lengthTake .leU32 (lenPrefixed b ++ t) = some (a, t)) :
    b.length < 2 ^ 32 ∧ a = b := by
  simp only [lenPrefixed, List.append_assoc, Parser.lengthTake, Parser.andThen, Parser.leU32_le32,
    Option.bind_some, Parser.take, UInt32.toNat_ofNat'] at h
  split at h
  · simp only [Option.some.injEq, Prod.mk.injEq] at h
    obtain ⟨hat, hrest⟩ := h
    have hl := congrArg List.length hrest
    simp only [List.length_drop, List.length_append] at hl
    have hmod : b.length % 2 ^ 32 = b.length := by omega
    refine ⟨by omega, ?_⟩
    rw [← hat, hmod, List.take_left]
  · cases h

theorem parsePathMode_comma {body p rest : Bytes} {m : UInt32}
    (h : parsePathMode body = some ((p, m), rest)) : 0x2c ∉ p := by
  obtain ⟨⟨a, r1⟩, h1, h2⟩ := Option.bind_eq_some_iff.mp h
  obtain ⟨⟨u, r2⟩, -, h3⟩ := Option.bind_eq_some_iff.mp h2
  obtain ⟨⟨c, r3⟩, -, h4⟩ := Option.map_eq_some_iff.mp h3
  simp only [Prod.mk.injEq] at h4
  obtain ⟨⟨rfl, -⟩, -⟩ := h4
  exact Parser.takeUntil1_not_mem h1

/-- **Which requests come back.** -/
theorem parse_encode_iff (r : FileRequest) (t : Bytes) :
    parseSyncPacket (r.encode ++ t) = some (r.packet, t) ↔
      r.body.length < 2 ^ 32 ∧ r.CommaFree := by
  refine ⟨fun h => ?_, fun ⟨hlen, hfree⟩ => r.parse_encode t hlen hfree⟩
  rw [encode, List.append_assoc] at h
  cases r with
  | lstat path =>
    have hid : SyncPacketId.tryFrom idLstatV1 = some .lstatV1 := by decide +kernel
    simp only [id, parseSyncPacket, Parser.andThen, parseSyncPacketId_le32 hid, Option.bind_some,
      Parser.map] at h
    obtain ⟨⟨a, u⟩, ha, he⟩ := Option.map_eq_some_iff.mp h
    cases he
    exact ⟨(lengthTake_lenPrefixed ha).1, trivial⟩
  | recv path =>
    have hid : SyncPacketId.tryFrom idRecvV1 = some .recvV1 := by decide +kernel
    simp only [id, parseSyncPacket, Parser.andThen, parseSyncPacketId_le32 hid, Option.bind_some,
      Parser.map] at h
    obtain ⟨⟨a, u⟩, ha, he⟩ := Option.map_eq_some_iff.mp h
    cases he
    exact ⟨(lengthTake_lenPrefixed ha).1, trivial⟩
  | send path mode text path_ne =>
    have hid : SyncPacketId.tryFrom idSendV1 = some .sendV1 := by decide +kernel
    simp only [id, parseSyncPacket, Parser.andThen, parseSyncPacketId_le32 hid, Option.bind_some,
      Parser.verifyMap] at h
    obtain ⟨⟨a, u⟩, ha, he⟩ := Option.bind_eq_some_iff.mp h
    obtain ⟨k, hk, he'⟩ := Option.map_eq_some_iff.mp he
    obtain ⟨⟨⟨p, m⟩, rest⟩, hp, rfl⟩ := Option.map_eq_some_iff.mp hk
    cases he'
    obtain ⟨hlen, rfl⟩ := lengthTake_lenPrefixed ha
    exact ⟨hlen, parsePathMode_comma hp⟩

/-- `SEND a,1,420`: the file `a,1` with mode 0644 is taken for `a` with mode 1. -/
theorem send_comma_path :
    (FileRequest.send (ascii "a,1") 420 (.canonical 420) (by decide)).packet =
        .sendV1 (ascii "a,1") 420 ∧
      parseSyncPacket ((FileRequest.send (ascii "a,1") 420 (.canonical 420) (by decide)).encode) =
        some (.sendV1 (ascii "a") 1, []) := by
  refine ⟨rfl, ?_⟩
  decide +kernel

end FileRequest

end Adibi
