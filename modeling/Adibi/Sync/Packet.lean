import Adibi.Os

/-!
# Sync packets

The requests a host sends on a `sync:` stream, the DATA/DONE frames of a push
and the frames and stat records sent back (the parsing half of `sync.rs`). A
request is an id word, and for all but QUIT a length word and a body; the body
of SEND is `path,mode`.
-/

namespace Adibi

open Lib

def payloadSizeMaxBytes : Nat := 64 * 1024

def idLstatV1 : UInt32 := ofLe32 0x53 0x54 0x41 0x54
def idData : UInt32 := ofLe32 0x44 0x41 0x54 0x41
def idDone : UInt32 := ofLe32 0x44 0x4f 0x4e 0x45
def idFail : UInt32 := ofLe32 0x46 0x41 0x49 0x4c
def idOkay : UInt32 := ofLe32 0x4f 0x4b 0x41 0x59
def idRecvV1 : UInt32 := ofLe32 0x52 0x45 0x43 0x56
def idSendV1 : UInt32 := ofLe32 0x53 0x45 0x4e 0x44
def idQuit : UInt32 := ofLe32 0x51 0x55 0x49 0x54

/-! ## Requests -/

/-- Sync protocol command identifiers. -/
inductive SyncPacketId where
  | lstatV1
  | recvV1
  | sendV1
  | quit
  deriving DecidableEq, Repr

def SyncPacketId.tryFrom (w : UInt32) : Option SyncPacketId :=
  if w = idLstatV1 then some .lstatV1
  else if w = idRecvV1 then some .recvV1
  else if w = idSendV1 then some .sendV1
  else if w = idQuit then some .quit
  else none

def parseSyncPacketId : Parser SyncPacketId := Parser.verifyMap .leU32 SyncPacketId.tryFrom

/-- A parsed sync request from the host. -/
inductive SyncPacket where
  | lstatV1 (path : Path)
  | recvV1 (path : Path)
  | sendV1 (path : Path) (mode : UInt32)
  | quit
  deriving DecidableEq, Repr

/-- The value of a string of ASCII digits. -/
def decimal (ds : Bytes) : Nat := ds.foldl (fun n d => 10 * n + (d.toNat - 48)) 0

/-- `str::parse::<u32>` on a non-empty string of digits. -/
def parseU32 (ds : Bytes) : Option UInt32 :=
  if decimal ds < 2 ^ 32 then some (UInt32.ofNat (decimal ds)) else none

/-- The body of a SEND request, `path,mode`; bytes after the digits are ignored. -/
def parsePathMode : Parser (Path × UInt32) :=
  Parser.separatedPair (.takeUntil1 0x2c) (.literal 0x2c) (.verifyMap .digit1 parseU32)

def parseSyncPacket : Parser SyncPacket :=
  .andThen parseSyncPacketId fun
    | .lstatV1 => .map (.lengthTake .leU32) .lstatV1
    | .recvV1 => .map (.lengthTake .leU32) .recvV1
    | .sendV1 => .verifyMap (.lengthTake .leU32) fun body =>
        (parsePathMode body).map fun r => .sendV1 r.1.1 r.1.2
    | .quit => fun rest => some (.quit, rest)

/-! ## Push frames -/

/-- Frame ids in host-to-device DATA/DONE frames. -/
inductive SyncFrameRequestId where
  | data
  | done
  deriving DecidableEq, Repr

def SyncFrameRequestId.tryFrom (w : UInt32) : Option SyncFrameRequestId :=
  if w = idData then some .data else if w = idDone then some .done else none

def parseSyncFrameId : Parser SyncFrameRequestId := Parser.verifyMap .leU32 SyncFrameRequestId.tryFrom

/-- Parsed 8-byte header of a host-to-device frame. -/
structure SyncFrameRequestHeader where
  id : SyncFrameRequestId
  payloadLen : UInt32
  deriving DecidableEq, Repr

def parseSyncFrameHeader : Parser SyncFrameRequestHeader :=
  .andThen parseSyncFrameId fun id => .map .leU32 fun payloadLen => ⟨id, payloadLen⟩

/-! ## Responses -/

inductive SyncFrameResponseId where
  | data
  | done
  | okay
  | fail
  deriving DecidableEq, Repr

def SyncFrameResponseId.toU32 : SyncFrameResponseId → UInt32
  | .data => idData
  | .done => idDone
  | .okay => idOkay
  | .fail => idFail

/-- 8-byte header of DATA/DONE/OKAY/FAIL response frames. -/
structure SyncFrameResponseHeader where
  id : SyncFrameResponseId
  payloadLen : UInt32
  deriving DecidableEq, Repr

def SyncFrameResponseHeader.asLeBytes (h : SyncFrameResponseHeader) : Bytes :=
  le32 h.id.toU32 ++ le32 h.payloadLen

/-- `LSTAT_V1` response: a fixed 16-byte record. -/
structure SyncStat where
  id : UInt32
  mode : UInt32
  size : UInt32
  mtime : UInt32
  deriving DecidableEq, Repr

def SyncStat.asLeBytes (s : SyncStat) : Bytes :=
  le32 s.id ++ le32 s.mode ++ le32 s.size ++ le32 s.mtime

abbrev SyncResponse := SyncFrameResponseHeader × Bytes

/-- Result of processing a single sync request from the host. -/
inductive SyncResult where
  | stat (s : SyncStat)
  | data (hdr : SyncFrameResponseHeader) (payload : Bytes)
  | continue
  | quit
  deriving DecidableEq, Repr

def dataResponse (data : Bytes) : Except Panic SyncResponse := do
  let n ← lenU32 data.length
  pure (⟨.data, n⟩, data)

def doneResponse : SyncResponse := (⟨.done, 0⟩, [])

def okayResponse : SyncResponse := (⟨.okay, 0⟩, [])

def failResponse (msg : Bytes) : Except Panic SyncResponse := do
  let n ← lenU32 msg.length
  pure (⟨.fail, n⟩, msg)

theorem failResponse_ok {msg : Bytes} {r : SyncResponse} (h : failResponse msg = .ok r) :
    r.1.id = .fail ∧ r.1.payloadLen.toNat = msg.length ∧ r.2 = msg := by
  obtain ⟨n, hn, he⟩ := bind_eq_ok.mp h
  cases he
  exact ⟨rfl, lenU32_ok hn, rfl⟩

/-! ## Encoding -/

def lenPrefixed (body : Bytes) : Bytes := le32 (UInt32.ofNat body.length) ++ body

/-- A well-formed SEND request: a non-empty comma-free path and a decimal mode. -/
structure SendRequest where
  path : Path
  digits : Bytes
  path_ne : path ≠ []
  no_comma : 0x2c ∉ path
  digits_ne : digits ≠ []
  digits_ok : ∀ d ∈ digits, Parser.isDigit d = true
  mode_lt : decimal digits < 2 ^ 32
  body_lt : path.length + digits.length + 1 < 2 ^ 32

namespace SendRequest

def mode (r : SendRequest) : UInt32 := UInt32.ofNat (decimal r.digits)

def body (r : SendRequest) : Bytes := r.path ++ 0x2c :: r.digits

def encode (r : SendRequest) : Bytes := le32 idSendV1 ++ lenPrefixed r.body

theorem body_length (r : SendRequest) : r.body.length < 2 ^ 32 := by
  have := r.body_lt
  simp only [body, List.length_append, List.length_cons]; omega

theorem parsePathMode_body (r : SendRequest) : parsePathMode r.body = some ((r.path, r.mode), []) := by
  have h1 := Parser.takeUntil1_append (t := r.digits) r.path_ne r.no_comma
  have h2 := Parser.digit1_all r.digits_ne r.digits_ok
  simp only [parsePathMode, Parser.separatedPair, Parser.andThen, body, h1, Option.bind_some,
    Parser.literal, if_true, Parser.map, Parser.verifyMap, h2, parseU32, r.mode_lt, Option.map_some]
  rfl

/-- `SEND /f,420`. -/
def sample : SendRequest where
  path := ascii "/f"
  digits := ascii "420"
  path_ne := by decide
  no_comma := by decide
  digits_ne := by decide
  digits_ok := by decide +kernel
  mode_lt := by decide
  body_lt := by decide

end SendRequest

theorem parseSyncPacketId_le32 {w : UInt32} {i : SyncPacketId} (h : SyncPacketId.tryFrom w = some i)
    (t : Bytes) : parseSyncPacketId (le32 w ++ t) = some (i, t) := by
  simp only [parseSyncPacketId, Parser.verifyMap, Parser.leU32_le32, Option.bind_some, h,
    Option.map_some]

theorem parseSyncPacket_send (r : SendRequest) (t : Bytes) :
    parseSyncPacket (r.encode ++ t) = some (.sendV1 r.path r.mode, t) := by
  have hid : SyncPacketId.tryFrom idSendV1 = some .sendV1 := by decide +kernel
  have hlen := Parser.lengthTake_append (t := t) r.body_length
  simp only [SendRequest.encode, lenPrefixed, List.append_assoc, parseSyncPacket, Parser.andThen,
    parseSyncPacketId_le32 hid, Option.bind_some, Parser.verifyMap, hlen, r.parsePathMode_body,
    Option.map_some]

theorem parseSyncPacket_lstat {path : Path} (hp : path.length < 2 ^ 32) (t : Bytes) :
    parseSyncPacket (le32 idLstatV1 ++ lenPrefixed path ++ t) = some (.lstatV1 path, t) := by
  have hid : SyncPacketId.tryFrom idLstatV1 = some .lstatV1 := by decide +kernel
  have hlen := Parser.lengthTake_append (t := t) hp
  simp only [lenPrefixed, List.append_assoc, parseSyncPacket, Parser.andThen,
    parseSyncPacketId_le32 hid, Option.bind_some, Parser.map, hlen, Option.map_some]

theorem parseSyncPacket_recv {path : Path} (hp : path.length < 2 ^ 32) (t : Bytes) :
    parseSyncPacket (le32 idRecvV1 ++ lenPrefixed path ++ t) = some (.recvV1 path, t) := by
  have hid : SyncPacketId.tryFrom idRecvV1 = some .recvV1 := by decide +kernel
  have hlen := Parser.lengthTake_append (t := t) hp
  simp only [lenPrefixed, List.append_assoc, parseSyncPacket, Parser.andThen,
    parseSyncPacketId_le32 hid, Option.bind_some, Parser.map, hlen, Option.map_some]

theorem parseSyncPacket_quit (t : Bytes) :
    parseSyncPacket (le32 idQuit ++ t) = some (.quit, t) := by
  have hid : SyncPacketId.tryFrom idQuit = some .quit := by decide +kernel
  simp only [parseSyncPacket, Parser.andThen, parseSyncPacketId_le32 hid, Option.bind_some]

/-- A parsed request is a prefix of the input, parsed alike before any suffix. -/
theorem local_parseSyncPacket : Parser.Local parseSyncPacket := by
  have htake := Parser.local_lengthTake Parser.local_leU32
  refine Parser.Local.andThen (Parser.local_leU32.verifyMap) fun i => ?_
  cases i with
  | lstatV1 => exact htake.map
  | recvV1 => exact htake.map
  | sendV1 => exact htake.verifyMap
  | quit =>
    intro bs a r h
    cases h
    exact ⟨[], rfl, fun _ => rfl⟩

end Adibi
