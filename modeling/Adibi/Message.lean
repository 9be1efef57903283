import Adibi.Basic

/-!
# ADB messages

The 24-byte message header, its parser and its builders (`message.rs`). A
header is six little-endian words; the last is the complement of the first.
-/

namespace Adibi

open Lib

/-- ADB protocol command identifiers. -/
inductive Command where
  | cnxn
  | auth
  | open
  | okay
  | clse
  | wrte
  | stls
  deriving DecidableEq, Repr

namespace Command

def toU32 : Command → UInt32
  | .cnxn => 0x4e584e43
  | .auth => 0x48545541
  | .open => 0x4e45504f
  | .okay => 0x59414b4f
  | .clse => 0x45534c43
  | .wrte => 0x45545257
  | .stls => 0x534c5453

def tryFrom (w : UInt32) : Option Command :=
  if w = 0x4e584e43 then some .cnxn
  else if w = 0x48545541 then some .auth
  else if w = 0x4e45504f then some .open
  else if w = 0x59414b4f then some .okay
  else if w = 0x45534c43 then some .clse
  else if w = 0x45545257 then some .wrte
  else if w = 0x534c5453 then some .stls
  else none

@[simp] theorem tryFrom_toU32 (c : Command) : tryFrom c.toU32 = some c := by
  cases c <;> decide

end Command

/-- ADB protocol version negotiated during the CNXN handshake. -/
inductive ProtocolVersion where
  | v0
  | v1
  deriving DecidableEq, Repr

namespace ProtocolVersion

def toU32 : ProtocolVersion → UInt32
  | .v0 => 0x01000000
  | .v1 => 0x01000001

def tryFrom (w : UInt32) : Option ProtocolVersion :=
  if w = 0x01000000 then some .v0 else if w = 0x01000001 then some .v1 else none

/-- Maximum payload size in bytes for this protocol version. -/
def maxPayload : ProtocolVersion → UInt32
  | .v0 => 4096
  | .v1 => 1024 * 1024

def requiresChecksum (v : ProtocolVersion) : Bool := v == .v0

end ProtocolVersion

/-- The protocol version this daemon advertises during CNXN. -/
def protocolVersion : ProtocolVersion := .v1

/-- Parsed ADB message header. -/
structure AdbHeader where
  command : Command
  arg0 : UInt32
  arg1 : UInt32
  dataLength : UInt32
  dataCheck : UInt32
  magic : UInt32
  deriving DecidableEq, Repr

/-- The header on the wire. -/
def AdbHeader.asLeBytes (h : AdbHeader) : Bytes :=
  le32 h.command.toU32 ++ le32 h.arg0 ++ le32 h.arg1 ++ le32 h.dataLength ++ le32 h.dataCheck ++
    le32 h.magic

@[simp] theorem AdbHeader.asLeBytes_length (h : AdbHeader) : h.asLeBytes.length = 24 := by
  simp only [asLeBytes, List.length_append, le32_length]

def byteSum (data : Bytes) : Nat := (data.map UInt8.toNat).sum

/-- The ADB payload checksum: the `u32` sum of all bytes. -/
def checksum (data : Bytes) : Except Panic UInt32 :=
  if byteSum data < 2 ^ 32 then .ok (UInt32.ofNat (byteSum data)) else .error .checksumOverflow

theorem byteSum_le (data : Bytes) : byteSum data ≤ 255 * data.length := by
  induction data with
  | nil => simp [byteSum]
  | cons b bs ih =>
    have hb := b.toNat_lt
    simp only [byteSum, List.map_cons, List.sum_cons, List.length_cons] at ih ⊢
    omega

theorem checksum_of_le {data : Bytes} (h : data.length ≤ 2 ^ 20) :
    checksum data = .ok (UInt32.ofNat (byteSum data)) := by
  have := byteSum_le data
  exact if_pos (by omega)

/-! ## Parsing -/

def parseCommand : Parser Command := Parser.verifyMap .leU32 Command.tryFrom

/-- Parses a 24-byte header; fails on a short slice, an unknown command or a
magic that is not the command's complement. -/
def parseHeader : Parser AdbHeader :=
  Parser.verifyMap
    (.andThen parseCommand fun command => .andThen .leU32 fun arg0 => .andThen .leU32 fun arg1 =>
      .andThen .leU32 fun dataLength => .andThen .leU32 fun dataCheck =>
      .map .leU32 fun magic => ({ command, arg0, arg1, dataLength, dataCheck, magic } : AdbHeader))
    fun h => if h.magic ≠ h.command.toU32 ^^^ 0xffffffff then none else some h

/-! ## Building -/

/-- Builds a header for a given command and payload. -/
def headerFromPayload (hostVersion : ProtocolVersion) (command : Command) (arg0 arg1 : UInt32)
    (payload : Bytes) : Except Panic AdbHeader := do
  let check ← (if hostVersion.requiresChecksum then checksum payload else pure 0)
  let dataLength ← lenU32 payload.length
  pure { command, arg0, arg1, dataLength, dataCheck := check,
         magic := command.toU32 ^^^ 0xffffffff }

def cnxnHeader (hostVersion : ProtocolVersion) (payload : Bytes) : Except Panic AdbHeader :=
  headerFromPayload hostVersion .cnxn protocolVersion.toU32 protocolVersion.maxPayload payload

def okayHeader (peer : ProtocolVersion) (localId remoteId : UInt32) : Except Panic AdbHeader :=
  headerFromPayload peer .okay localId remoteId []

def wrteHeader (peer : ProtocolVersion) (localId remoteId : UInt32) (payload : Bytes) :
    Except Panic AdbHeader :=
  headerFromPayload peer .wrte localId remoteId payload

def clseHeader (peer : ProtocolVersion) (localId remoteId : UInt32) : Except Panic AdbHeader :=
  headerFromPayload peer .clse localId remoteId []

/-- Identity information advertised during the CNXN handshake. -/
structure DeviceInfo where
  serial : Bytes
  name : Bytes
  model : Bytes
  device : Bytes
  deriving DecidableEq, Repr

/-- The system identity that `cnxn_response` formats. -/
def systemIdentity (info : DeviceInfo) : Bytes :=
  ascii "device::ro.product.name=" ++ info.name ++ ascii ";ro.product.model=" ++ info.model ++
    ascii ";ro.product.device=" ++ info.device ++ ascii ";" ++ [0]

/-- A complete CNXN response: header and system identity. -/
def cnxnResponse (peer : ProtocolVersion) (info : DeviceInfo) : Except Panic (AdbHeader × Bytes) := do
  let payload := systemIdentity info
  let header ← cnxnHeader peer payload
  pure (header, payload)

/-! ## What the builders build -/

theorem cnxnResponse_eq (peer : ProtocolVersion) (info : DeviceInfo) :
    cnxnResponse peer info =
      (cnxnHeader peer (systemIdentity info)).map fun header => (header, systemIdentity info) := by
  show (cnxnHeader peer (systemIdentity info) >>= fun h => pure (h, systemIdentity info)) = _
  cases cnxnHeader peer (systemIdentity info) <;> rfl

/-- A header built for a payload: its fields, and the payload fits a `u32`. -/
theorem headerFromPayload_ok {v : ProtocolVersion} {c : Command} {a b : UInt32} {p : Bytes}
    {h : AdbHeader} (hb : headerFromPayload v c a b p = .ok h) :
    h.command = c ∧ h.arg0 = a ∧ h.arg1 = b ∧ h.dataLength.toNat = p.length ∧
      (if v.requiresChecksum then checksum p else pure 0) = .ok h.dataCheck ∧
      h.magic = c.toU32 ^^^ 0xffffffff := by
  obtain ⟨k, hk, h1⟩ := bind_eq_ok.mp hb
  obtain ⟨n, hn, h2⟩ := bind_eq_ok.mp h1
  cases h2
  exact ⟨rfl, rfl, rfl, lenU32_ok hn, hk, rfl⟩

theorem headerFromPayload_nil (v : ProtocolVersion) (c : Command) (a b : UInt32) :
    headerFromPayload v c a b [] = .ok ⟨c, a, b, 0, 0, c.toU32 ^^^ 0xffffffff⟩ := by
  cases v <;> rfl

/-- The 24 bytes of a header parse back to it, whatever follows. -/
theorem parseHeader_asLeBytes {h : AdbHeader} (hm : h.magic = h.command.toU32 ^^^ 0xffffffff)
    (t : Bytes) : parseHeader (h.asLeBytes ++ t) = some (h, t) := by
  obtain ⟨c, a0, a1, dl, dc, m⟩ := h
  simp only at hm
  subst hm
  simp only [parseHeader, AdbHeader.asLeBytes, parseCommand, Parser.verifyMap, Parser.andThen,
    Parser.map, List.append_assoc, Parser.leU32_le32, Option.bind_some, Option.map_some,
    Command.tryFrom_toU32, ne_eq, not_true_eq_false, if_false]

/-! ## What the parser accepts -/

theorem Command.tryFrom_eq_some {w : UInt32} {c : Command} (h : Command.tryFrom w = some c) :
    w = c.toU32 := by
  unfold Command.tryFrom at h
  repeat' split at h
  all_goals
    cases h
    try (rename_i hw; exact hw)

/-- **A header parses back from exactly its 24 bytes.** -/
theorem parseHeader_eq_some {data t : Bytes} {h : AdbHeader} :
    parseHeader data = some (h, t) ↔
      data = h.asLeBytes ++ t ∧ h.magic = h.command.toU32 ^^^ 0xffffffff := by
  refine ⟨fun hp => ?_, fun ⟨hd, hm⟩ => by rw [hd]; exact parseHeader_asLeBytes hm t⟩
  obtain ⟨⟨h', t'⟩, h1, h2⟩ := Option.bind_eq_some_iff.mp hp
  obtain ⟨⟨c, r0⟩, hc, h1⟩ := Option.bind_eq_some_iff.mp h1
  obtain ⟨⟨a0, r1⟩, ha0, h1⟩ := Option.bind_eq_some_iff.mp h1
  obtain ⟨⟨a1, r2⟩, ha1, h1⟩ := Option.bind_eq_some_iff.mp h1
  obtain ⟨⟨dl, r3⟩, hdl, h1⟩ := Option.bind_eq_some_iff.mp h1
  obtain ⟨⟨dc, r4⟩, hdc, h1⟩ := Option.bind_eq_some_iff.mp h1
  obtain ⟨⟨m, r5⟩, hm, h1⟩ := Option.map_eq_some_iff.mp h1
  obtain ⟨⟨w, r6⟩, hw, hc⟩ := Option.bind_eq_some_iff.mp hc
  obtain ⟨c', hc', hce⟩ := Option.map_eq_some_iff.mp hc
  cases hce
  cases h1
  obtain ⟨h'', hv, he⟩ := Option.map_eq_some_iff.mp h2
  cases he
  simp only at hv
  split at hv
  · cases hv
  · rename_i hmagic
    cases hv
    refine ⟨?_, not_not.mp hmagic⟩
    have e0 := Parser.leU32_eq_some hw
    have e1 := Parser.leU32_eq_some ha0
    have e2 := Parser.leU32_eq_some ha1
    have e3 := Parser.leU32_eq_some hdl
    have e4 := Parser.leU32_eq_some hdc
    have e5 := Parser.leU32_eq_some hm
    have ec : w = c.toU32 := Command.tryFrom_eq_some hc'
    simp only at e0 e1 e2 e3 e4 e5
    rw [e0, e1, e2, e3, e4, e5, ec]
    simp only [AdbHeader.asLeBytes, List.append_assoc]

/-- The `k`-th little-endian word of a byte string. -/
def wordAt (data : Bytes) (k : Nat) : Option UInt32 := (Parser.leU32 (data.drop (4 * k))).map Prod.fst

theorem exists_words (n : Nat) {data : Bytes} (h : 4 * n ≤ data.length) :
    ∃ (ws : List UInt32) (t : Bytes), ws.length = n ∧ data = ws.flatMap le32 ++ t := by
  induction n generalizing data with
  | zero => exact ⟨[], data, rfl, rfl⟩
  | succ n ih =>
    cases hw : Parser.leU32 data with
    | none =>
      have := Parser.leU32_eq_none.mp hw
      omega
    | some x =>
      obtain ⟨w, r⟩ := x
      have he := Parser.leU32_eq_some hw
      have hr : 4 * n ≤ r.length := by
        rw [he, List.length_append, le32_length] at h
        omega
      obtain ⟨ws, t, hl, rfl⟩ := ih hr
      exact ⟨w :: ws, t, by rw [List.length_cons, hl], by simp [he]⟩

theorem wordAt_append (u : Bytes) {k : Nat} (hu : u.length = 4 * k) (w : UInt32) (t : Bytes) :
    wordAt (u ++ (le32 w ++ t)) k = some w := by
  rw [wordAt, ← hu, List.drop_left, Parser.leU32_le32]
  rfl

/-- The parser accepts 24 bytes that start with a command and end with its complement. -/
theorem parseHeader_isSome_iff (data : Bytes) : (parseHeader data).isSome ↔
    24 ≤ data.length ∧ ∃ c : Command, wordAt data 0 = some c.toU32 ∧
      wordAt data 5 = some (c.toU32 ^^^ 0xffffffff) := by
  have hwords : ∀ (w0 w1 w2 w3 w4 w5 : UInt32) (t : Bytes),
      wordAt (le32 w0 ++ le32 w1 ++ le32 w2 ++ le32 w3 ++ le32 w4 ++ le32 w5 ++ t) 0 = some w0 ∧
      wordAt (le32 w0 ++ le32 w1 ++ le32 w2 ++ le32 w3 ++ le32 w4 ++ le32 w5 ++ t) 5 = some w5 := by
    intro w0 w1 w2 w3 w4 w5 t
    refine ⟨?_, ?_⟩
    · simp only [List.append_assoc]
      exact wordAt_append [] rfl w0 _
    · rw [List.append_assoc _ (le32 w5)]
      exact wordAt_append _ (by simp) w5 t
  refine ⟨fun hs => ?_, fun ⟨hl, c, h0, h5⟩ => ?_⟩
  · obtain ⟨⟨h, t⟩, hp⟩ := Option.isSome_iff_exists.mp hs
    obtain ⟨rfl, hm⟩ := parseHeader_eq_some.mp hp
    refine ⟨by simp, h.command, ?_, ?_⟩
    · exact (hwords ..).1
    · rw [← hm]
      exact (hwords ..).2
  · obtain ⟨ws, t, hlen, hd⟩ := exists_words 6 hl
    match ws, hlen with
    | [w0, w1, w2, w3, w4, w5], _ =>
      have he : data = le32 w0 ++ le32 w1 ++ le32 w2 ++ le32 w3 ++ le32 w4 ++ le32 w5 ++ t := by
        simpa using hd
      obtain ⟨e0, e5⟩ := hwords w0 w1 w2 w3 w4 w5 t
      rw [he, e0] at h0
      rw [he, e5] at h5
      cases h0
      cases h5
      have hp : parseHeader data = some (⟨c, w1, w2, w3, w4, c.toU32 ^^^ 0xffffffff⟩, t) :=
        parseHeader_eq_some.mpr ⟨he, rfl⟩
      rw [hp]
      rfl

end Adibi
