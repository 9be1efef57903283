import Adibi.Core
import Adibi.Demand
import Adibi.Ids
import Adibi.Limit
import Adibi.Queue
import Adibi.Sync.Returns

/-!
# How the daemon can crash

Most `expect`, `assert` and `unreachable!` of the daemon are never reached. The
daemon's logic is its core, so what the core panics on is all there is, besides a
lack of room in the ring. The queue always has room; what is left is a completion that
finds too few write slots, and the messages of `Core.Fatal`.
-/

namespace Adibi

open Lib

/-- The text of a system error stays below a megabyte. -/
def Env.TextsSmall (env : Env) : Prop := ∀ c e, env.fail c = some e → e.length < 2 ^ 20

theorem Env.TextsSmall.short {env : Env} (h : env.TextsSmall) : env.TextsShort := by
  intro c e he
  have := h c e he
  omega

/-! ## What never fails -/

section

variable {P : Panic → Prop} {env : Env} {v : ProtocolVersion} {i r : UInt32} {os : Os} {fs : Fs}
  {st : Stream} {svc : SyncService} {data payload : Bytes}

theorem lenU32_safe {n : Nat} (h : n < 2 ^ 32) : Raises (lenU32 n) P := by
  rw [lenU32_of_lt h]
  exact .ok _

theorem headerFromPayload_safe (h : data.length ≤ 2 ^ 24) (v : ProtocolVersion) (c : Command)
    (a b : UInt32) : Raises (headerFromPayload v c a b data) P := by
  have hsum : byteSum data < 2 ^ 32 := by
    have := byteSum_le data
    omega
  refine Raises.bind ?_ fun _ _ => (lenU32_safe (by omega)).bind fun _ _ => .ok _
  split
  · rw [checksum, if_pos hsum]
    exact .ok _
  · exact .ok _

theorem wrteOut_safe (h : data.length ≤ 2 ^ 24) : Raises (wrteOut v i r data) P :=
  (headerFromPayload_safe h ..).bind fun _ _ => .ok _

theorem readOut_safe (hi : i ≠ 0) (op : UserDataOpType) : Raises (readOut op i) P := by
  unfold readOut nonZero NonZeroU32.new
  rw [dif_pos hi]
  exact .ok _

theorem firstRead_safe (hi : i ≠ 0) (st : Stream) : Raises (firstRead i st) P := by
  unfold firstRead readOut nonZero NonZeroU32.new
  rw [dif_pos hi]
  split <;> exact .ok _

theorem read_cases (env : Env) (fs : Fs) (f : File) (cap : Nat) :
    (∃ e, env.fail .read = some e ∧ fs.read env f cap = .error e) ∨
      ∃ chunk f', chunk.length ≤ cap ∧ fs.read env f cap = .ok (chunk, f') := by
  unfold Fs.read
  cases env.fail .read with
  | some e => exact .inl ⟨e, rfl, rfl⟩
  | none =>
    refine .inr ⟨_, _, ?_, rfl⟩
    exact (List.length_take_le ..).trans (Nat.min_le_left ..)

theorem frameLength_le (htext : env.TextsSmall) (fs : Fs) (s : FileSender) :
    s.frameLength env fs ≤ 2 ^ 21 := by
  have hread : (ascii "read error: ").length = 12 := by decide
  unfold FileSender.frameLength
  rcases read_cases env fs s.file payloadSizeMaxBytes with ⟨e, hf, hr⟩ | ⟨chunk, f, hlen, hr⟩
  · have := htext _ _ hf
    simp only [hr, List.length_append, hread]
    omega
  · simp only [hr]
    unfold payloadSizeMaxBytes at hlen
    omega

theorem nextFrame_safe (htext : env.TextsSmall) (fs : Fs) (s : FileSender) :
    Raises (s.nextFrame env fs) P := by
  have hread : (ascii "read error: ").length = 12 := by decide
  unfold FileSender.nextFrame
  split
  · exact .ok _
  · rcases read_cases env fs s.file payloadSizeMaxBytes with ⟨e, hf, hr⟩ | ⟨chunk, f, hlen, hr⟩
    · have := htext _ _ hf
      simp only [hr]
      refine Raises.bind ((lenU32_safe ?_).bind fun _ _ => .ok _) fun _ _ => .ok _
      simp only [List.length_append, hread]
      omega
    · simp only [hr]
      unfold payloadSizeMaxBytes at hlen
      split
      · exact .ok _
      · rename_i heq
        cases heq
        exact Raises.bind ((lenU32_safe (by omega)).bind fun _ _ => .ok _) fun _ _ => .ok _
      · rename_i heq
        cases heq

theorem continueSync_safe (htext : env.TextsSmall) : Raises (continueSync env v i os st) P := by
  unfold continueSync
  split
  · exact .ok _
  · split
    · rename_i sender _
      refine (nextFrame_safe htext os.fs sender).bind fun x hx => ?_
      obtain ⟨frame, sender'⟩ := x
      cases frame with
      | none => exact .ok _
      | some response =>
        obtain ⟨-, hlen⟩ := FileSender.nextFrame_length hx
        have hle := frameLength_le htext os.fs sender
        refine (wrteOut_safe ?_).bind fun _ _ => .ok _
        rw [response_length]
        omega
    · exact .ok _

/-! ## What a service fails on -/

theorem open_small {path : Path} {e : IoError} (htext : env.TextsSmall)
    (h : fs.open_ env path = .error e) : e.length < 2 ^ 20 := by
  unfold Fs.open_ at h
  split at h
  · rename_i e' hf
    cases h
    exact htext _ _ hf
  · split at h
    · cases h
    · cases h
      decide

theorem create_small {path : Path} {e : IoError} (htext : env.TextsSmall)
    (h : fs.create env path = .error e) : e.length < 2 ^ 20 := by
  unfold Fs.create at h
  split at h
  · rename_i e' hf
    cases h
    exact htext _ _ hf
  · split at h
    · cases h
    · cases h

theorem pathText_small {what : Bytes} {path : Path} {e : IoError} (hw : what.length ≤ 26)
    (hp : path.length ≤ payloadMax) (he : e.length < 2 ^ 20) :
    8 + (what ++ path.display ++ ascii ": " ++ e).length ≤ 2 ^ 23 := by
  have hd := display_length_le path
  have ha : (ascii ": ").length = 2 := by decide
  rw [payloadMax] at hp
  simp only [List.length_append, ha]
  omega

theorem answerFits_of_steady (htext : env.TextsSmall) (hs : svc.Steady)
    (hlen : payload.length ≤ payloadMax) (fs : Fs) (waiting : Bool) :
    svc.AnswerFits (2 ^ 23) env fs waiting payload := by
  unfold SyncService.AnswerFits
  cases hr : svc.reaches env fs payload with
  | some y =>
    obtain ⟨r, fs1, bytes⟩ := y
    obtain ⟨-, hpath⟩ := hs.reaches hlen hr
    refine ⟨fun _ _ => by decide, fun _ => by decide, fun what e hcall _ => ?_⟩
    rcases hcall with ⟨rfl, pos, hf⟩ | ⟨rfl, hf⟩
    · exact pathText_small (by decide) hpath (htext _ _ hf)
    · exact pathText_small (by decide) hpath (htext _ _ hf)
  | none =>
    cases hp : parseSyncPacket payload with
    | none => exact (by decide : 8 + (ascii "invalid sync request").length ≤ 2 ^ 23)
    | some y =>
      obtain ⟨packet, leftover⟩ := y
      have hpath := (parseSyncPacket_length hp).trans hlen
      cases packet with
      | lstatV1 path => exact (by decide : 16 ≤ 2 ^ 23)
      | quit => trivial
      | recvV1 path =>
        simp only
        split
        · intro _
          exact (frameLength_le htext fs _).trans (by decide)
        · rename_i e ho
          exact pathText_small (by decide) hpath (open_small htext ho)
      | sendV1 path mode =>
        simp only
        split
        · trivial
        · rename_i e hc
          exact pathText_small (by decide) hpath (create_small htext hc)

theorem narrow_error {p q : Panic} {n : Int} :
    SyncService.narrow p n = .error q ↔ q = p ∧ ¬ (0 ≤ n ∧ n < 2 ^ 32) := by
  unfold SyncService.narrow
  split
  · rename_i hn
    exact ⟨nofun, fun h => absurd hn h.2⟩
  · rename_i hn
    exact ⟨fun h => by cases h; exact ⟨rfl, hn⟩, fun h => by rw [h.1]⟩

/-- What an LSTAT answer panics on: the size is narrowed first. -/
def Metadata.Unfit (md : Metadata) : Panic → Prop
  | .fileTooLarge => 2 ^ 32 ≤ md.size
  | .mtimeRange => md.size < 2 ^ 32 ∧ ¬ (0 ≤ md.mtime ∧ md.mtime < 2 ^ 32)
  | _ => False

/-- The payload is an LSTAT request for a file with such metadata. -/
def SyncService.StatFails (env : Env) (fs : Fs) (svc : SyncService) (data : Bytes) (q : Panic) :
    Prop :=
  svc.receiver = none ∧ ∃ path rest md, parseSyncPacket data = some (.lstatV1 path, rest) ∧
    fs.symlinkMetadata env path = .ok md ∧ md.Unfit q

theorem handleLstatV1_error {path : Path} {q : Panic} :
    SyncService.handleLstatV1 env fs path = .error q ↔
      ∃ md, fs.symlinkMetadata env path = .ok md ∧ md.Unfit q := by
  unfold SyncService.handleLstatV1
  cases fs.symlinkMetadata env path with
  | error e => exact ⟨nofun, fun ⟨_, h, _⟩ => by cases h⟩
  | ok md =>
    have hsize : (0 ≤ (md.size : Int) ∧ (md.size : Int) < 2 ^ 32) ↔ md.size < 2 ^ 32 := by omega
    constructor
    · intro h
      refine ⟨md, rfl, ?_⟩
      rcases bind_eq_error.mp h with h1 | ⟨size, h1, h2⟩
      · obtain ⟨rfl, hn⟩ := narrow_error.mp h1
        exact Nat.le_of_not_lt fun hlt => hn (hsize.mpr hlt)
      · have hfit : md.size < 2 ^ 32 := hsize.mp (SyncService.narrow_returns.mp ⟨size, h1⟩)
        rcases bind_eq_error.mp h2 with h3 | ⟨_, -, h3⟩
        · obtain ⟨rfl, hn⟩ := narrow_error.mp h3
          exact ⟨hfit, hn⟩
        · cases h3
    · rintro ⟨md', hmd, hunfit⟩
      cases hmd
      unfold Metadata.Unfit at hunfit
      split at hunfit
      · have hn : SyncService.narrow .fileTooLarge md.size = .error .fileTooLarge :=
          narrow_error.mpr ⟨rfl, fun hs => absurd (hsize.mp hs) (Nat.not_lt.mpr hunfit)⟩
        exact bind_eq_error.mpr (.inl hn)
      · obtain ⟨size, hs⟩ := SyncService.narrow_returns (p := .fileTooLarge).mpr (hsize.mpr hunfit.1)
        refine bind_eq_error.mpr (.inr ⟨size, hs, bind_eq_error.mpr (.inl ?_)⟩)
        exact narrow_error.mpr ⟨rfl, hunfit.2⟩
      · exact hunfit.elim

/-- A request panics only as an LSTAT of a file that does not fit the answer. -/
theorem handleRequest_error_iff (htext : env.TextsSmall) (hlen : payload.length ≤ payloadMax)
    (hr : svc.reaches env fs payload = none) {q : Panic} :
    svc.handleRequest env fs payload = .error q ↔
      ∃ path rest md, parseSyncPacket payload = some (.lstatV1 path, rest) ∧
        fs.symlinkMetadata env path = .ok md ∧ md.Unfit q := by
  by_cases hstat : ∃ path rest, parseSyncPacket payload = some (.lstatV1 path, rest)
  · obtain ⟨path, rest, hp⟩ := hstat
    have hreq : svc.handleRequest env fs payload =
        SyncService.handleLstatV1 env fs path >>= fun result => .ok (result, svc, fs) := by
      unfold SyncService.handleRequest
      rw [hp]
      rfl
    rw [hreq]
    constructor
    · intro h
      rcases bind_eq_error.mp h with h | ⟨_, -, h⟩
      · obtain ⟨md, hmd, hunfit⟩ := handleLstatV1_error.mp h
        exact ⟨path, rest, md, hp, hmd, hunfit⟩
      · cases h
    · rintro ⟨path', rest', md, hp', hmd, hunfit⟩
      cases hp.symm.trans hp'
      exact bind_eq_error.mpr (.inl (handleLstatV1_error.mpr ⟨md, hmd, hunfit⟩))
  · obtain ⟨x, hx⟩ := SyncService.handleRequest_returns htext.short hlen hr
      fun path rest hp => hstat ⟨path, rest, hp⟩
    rw [hx]
    refine iff_of_false (by rintro ⟨⟩) ?_
    rintro ⟨path, rest, -, hp, -⟩
    exact hstat ⟨path, rest, hp⟩

theorem handle_error_iff (htext : env.TextsSmall) (hs : svc.Steady)
    (hlen : payload.length ≤ payloadMax) {q : Panic} :
    svc.handle env fs payload = .error q ↔ svc.StatFails env fs payload q := by
  cases hr : svc.reaches env fs payload with
  | some y =>
    obtain ⟨x, hx⟩ := hs.receive htext.short hlen hr
    obtain ⟨z, hz⟩ := SyncService.handle_of_receive hr hx
    rw [hz]
    refine iff_of_false (by rintro ⟨⟩) ?_
    rintro ⟨hnone, path, rest, md, hp, -⟩
    unfold SyncService.reaches at hr
    split at hr
    · rename_i r0 hs0
      exact absurd hs0 (SyncService.receiver_none_iff.mp hnone r0)
    · rw [hp] at hr
      cases hr
  | none =>
    have hno : ∀ r, svc.state ≠ .receiving r := fun r he => by
      simp only [SyncService.reaches, he] at hr
      cases hr
    have hrec := SyncService.receiver_none_iff.mpr hno
    rw [SyncService.handle_request hno, handleRequest_error_iff htext hlen hr]
    exact ⟨fun h => ⟨hrec, h⟩, fun h => h.2⟩

theorem onSync_error_iff (htext : env.TextsSmall) (hs : svc.Steady)
    (hlen : payload.length ≤ payloadMax) {q : Panic} :
    onSync env v i os st svc payload = .error q ↔ svc.StatFails env os.fs payload q := by
  rw [← handle_error_iff htext hs hlen]
  refine ⟨fun h => ?_, fun h => bind_eq_error.mpr (.inl h)⟩
  rcases bind_eq_error.mp h with h1 | ⟨⟨result, svc', fs'⟩, hx, h2⟩
  · exact h1
  have hfits := SyncService.handle_fits
    (answerFits_of_steady htext hs hlen os.fs st.waitingForOkay) (fun r hr => (hs r hr).1) hx
  refine absurd h2 (Raises.ne_error ?_ q)
  cases result with
  | stat stat =>
    have hstat : stat.asLeBytes.length = 16 := by
      simp only [SyncStat.asLeBytes, List.length_append, le32_length]
    exact (wrteOut_safe (by omega)).bind fun _ _ => .ok _
  | data hdr data =>
    have hdata : 8 + data.length ≤ 2 ^ 23 := hfits
    refine (wrteOut_safe ?_).bind fun _ _ => .ok _
    rw [response_length]
    omega
  | «continue» => exact continueSync_safe htext
  | quit => exact .ok _

/-! ## What an effect fails on -/

theorem onWrte_error_iff (htext : env.TextsSmall) (hs : ∀ svc, st.service = .sync svc → svc.Steady)
    (hlen : payload.length ≤ payloadMax) {q : Panic} :
    onWrte env v i os st payload = .error q ↔ (st.service = .reboot ∧ q = .rebootWrte) ∨
      ∃ svc, st.service = .sync svc ∧ svc.StatFails env os.fs payload q := by
  unfold onWrte
  cases hsv : st.service with
  | sync svc =>
    rw [onSync_error_iff htext (hs svc hsv) hlen]
    refine ⟨fun h => .inr ⟨svc, rfl, h⟩, ?_⟩
    rintro (⟨h, -⟩ | ⟨_, h, hf⟩)
    · cases h
    · cases h
      exact hf
  | shell sh => exact ⟨nofun, by rintro (⟨h, -⟩ | ⟨_, h, -⟩) <;> cases h⟩
  | forward fwd => exact ⟨nofun, by rintro (⟨h, -⟩ | ⟨_, h, -⟩) <;> cases h⟩
  | reboot =>
    refine ⟨fun h => .inl ⟨rfl, by cases h; rfl⟩, ?_⟩
    rintro (⟨-, rfl⟩ | ⟨_, h, -⟩)
    · rfl
    · cases h

theorem onOkay_error_iff (htext : env.TextsSmall) (hi : i ≠ 0) {q : Panic} :
    onOkay env v i os st = .error q ↔ st.service = .reboot ∧ q = .rebootContinue := by
  unfold onOkay
  simp only
  cases hsv : st.service with
  | sync svc =>
    refine ⟨fun h => ?_, fun h => by cases h.1⟩
    exact absurd h ((continueSync_safe htext).ne_error q)
  | shell sh =>
    refine ⟨fun h => ?_, fun h => by cases h.1⟩
    exact absurd h (((readOut_safe hi _).bind fun _ _ => .ok _).ne_error q)
  | forward fwd =>
    refine ⟨fun h => ?_, fun h => by cases h.1⟩
    exact absurd h (((readOut_safe hi _).bind fun _ _ => .ok _).ne_error q)
  | reboot => exact ⟨fun h => ⟨rfl, by cases h; rfl⟩, fun h => by rw [h.2]⟩

theorem onClse_error_iff {q : Panic} :
    onClse env i os st r = .error q ↔ st.remoteId ≠ r ∧ q = .clseRemoteId := by
  unfold onClse
  split
  · rename_i hne
    exact ⟨fun h => ⟨hne, by cases h; rfl⟩, fun h => by rw [h.2]⟩
  · rename_i heq
    refine ⟨fun h => ?_, fun h => absurd h.1 heq⟩
    split at h <;> cases h

theorem onRead_safe {op : UserDataOpType} {res : Int} (hres : res ≤ bulkOutSize) :
    Raises (onRead v i os st op res) P := by
  have hbuf : bulkOutSize = 2 ^ 20 := by decide
  unfold onRead
  split
  · exact .ok _
  · split
    · exact .ok _
    · rename_i data hd
      obtain ⟨-, hlen⟩ := readData_length hd
      exact (wrteOut_safe (by omega)).bind fun _ _ => .ok _

/-- What a header for a payload panics on: the sum comes before the length. -/
def Oversized (v : ProtocolVersion) (data : Bytes) : Panic → Prop
  | .checksumOverflow => v.requiresChecksum ∧ 2 ^ 32 ≤ byteSum data
  | .lengthOverflow => ¬ (v.requiresChecksum ∧ 2 ^ 32 ≤ byteSum data) ∧ 2 ^ 32 ≤ data.length
  | _ => False

theorem lenU32_error {n : Nat} {q : Panic} :
    lenU32 n = .error q ↔ q = .lengthOverflow ∧ 2 ^ 32 ≤ n := by
  unfold lenU32
  split
  · exact ⟨nofun, fun h => absurd h.2 (by omega)⟩
  · exact ⟨fun h => ⟨by cases h; rfl, by omega⟩, fun h => by rw [h.1]⟩

theorem headerFromPayload_error {c : Command} {a b : UInt32} {q : Panic} :
    headerFromPayload v c a b data = .error q ↔ Oversized v data q := by
  have hlength : ∀ w : UInt32, ((lenU32 data.length >>= fun n => pure (f := Except Panic)
      ({ command := c, arg0 := a, arg1 := b, dataLength := n, dataCheck := w,
         magic := c.toU32 ^^^ 0xffffffff } : AdbHeader)) = .error q) ↔
      q = .lengthOverflow ∧ 2 ^ 32 ≤ data.length := by
    intro w
    rw [← lenU32_error]
    cases lenU32 data.length with
    | ok n => exact ⟨nofun, nofun⟩
    | error p => exact ⟨fun h => by cases h; rfl, fun h => by cases h; rfl⟩
  unfold headerFromPayload
  by_cases hsum : v.requiresChecksum ∧ 2 ^ 32 ≤ byteSum data
  · rw [if_pos hsum.1, checksum, if_neg (Nat.not_lt.mpr hsum.2)]
    refine ⟨fun h => ?_, fun h => ?_⟩
    · cases h
      exact hsum
    · unfold Oversized at h
      split at h
      · rfl
      · exact absurd hsum h.1
      · exact h.elim
  · have hfree : ∃ w, (if v.requiresChecksum then checksum data else pure 0) = .ok w := by
      split
      · rename_i hr
        rw [checksum, if_pos (Nat.lt_of_not_le fun hle => hsum ⟨hr, hle⟩)]
        exact ⟨_, rfl⟩
      · exact ⟨_, rfl⟩
    obtain ⟨w, hw⟩ := hfree
    rw [hw, ok_bind, hlength w]
    refine ⟨?_, fun h => ?_⟩
    · rintro ⟨rfl, hn⟩
      exact ⟨hsum, hn⟩
    · unfold Oversized at h
      split at h
      · exact absurd h hsum
      · exact ⟨rfl, h.2⟩
      · exact h.elim

end

/-! ## Commands -/

namespace Core

variable {env : Env} {c : Core} {h : AdbHeader} {p : Option Bytes} {q : Panic}

/-- The messages that crash the daemon, and how. Missing and unwanted payloads come
first in each command; what is left needs a reboot stream, a CLSE by the wrong peer, an
id space used up, a file that an LSTAT cannot describe or a banner beyond a `u32`. -/
def Fatal (env : Env) (c : Core) (h : AdbHeader) (p : Option Bytes) (q : Panic) : Prop :=
  match h.command, p with
  | .cnxn, none => q = .cnxnPayload
  | .cnxn, some _ =>
    Oversized ((ProtocolVersion.tryFrom h.arg0).getD .v0) (systemIdentity c.info) q
  | .open, none => q = .openPayload
  | .open, some payload => q = .nextIdOverflow ∧ 2 ^ 32 ≤ c.streams.nextId.toNat + 1 ∧
      ((Dev.serviceName payload).bind (StreamManager.openService env c.os)).isSome
  | .wrte, none => q = .wrtePayload
  | .wrte, some payload => ∃ st, c.streams.get h.arg1 = some st ∧
      ((st.service = .reboot ∧ q = .rebootWrte) ∨
        ∃ svc, st.service = .sync svc ∧ svc.StatFails env c.os.fs payload q)
  | .okay, some _ => q = .okayPayload
  | .okay, none => ∃ st, c.streams.get h.arg1 = some st ∧ st.service = .reboot ∧ q = .rebootContinue
  | .clse, _ => ∃ st, c.streams.get h.arg1 = some st ∧ st.remoteId ≠ h.arg0 ∧ q = .clseRemoteId
  | _, _ => False

/-- What the streams of a run are like. -/
structure Proper (c : Core) : Prop where
  next : c.streams.nextId ≠ 0
  ids : ∀ {i st}, c.streams.get i = some st → i ≠ 0
  steady : ∀ {i st}, c.streams.get i = some st → ∀ svc, st.service = .sync svc → svc.Steady

theorem onCnxn_error : c.onCnxn h = .error q ↔
    Oversized ((ProtocolVersion.tryFrom h.arg0).getD .v0) (systemIdentity c.info) q := by
  rw [← headerFromPayload_error (c := .cnxn) (a := protocolVersion.toU32)
    (b := protocolVersion.maxPayload)]
  unfold onCnxn
  simp only [cnxnResponse_eq, cnxnHeader]
  cases headerFromPayload ((ProtocolVersion.tryFrom h.arg0).getD .v0) .cnxn protocolVersion.toU32
      protocolVersion.maxPayload (systemIdentity c.info) with
  | ok r => exact ⟨nofun, nofun⟩
  | error e => exact ⟨fun h => by cases h; rfl, fun h => by cases h; rfl⟩

theorem onOpen_error (hnext : c.streams.nextId ≠ 0) {payload : Bytes} :
    c.onOpen env h payload = .error q ↔ q = .nextIdOverflow ∧ 2 ^ 32 ≤ c.streams.nextId.toNat + 1 ∧
      ((Dev.serviceName payload).bind (StreamManager.openService env c.os)).isSome := by
  unfold onOpen
  cases (Dev.serviceName payload).bind (StreamManager.openService env c.os) with
  | none => exact ⟨nofun, fun h => by cases h.2.2⟩
  | some x =>
    obtain ⟨svc, os⟩ := x
    simp only
    split
    · rename_i hlt
      refine ⟨fun he => ?_, fun h => absurd h.2.1 (by omega)⟩
      exact absurd he (((firstRead_safe hnext _).bind fun _ _ => .ok _).ne_error q)
    · rename_i hge
      exact ⟨fun h => ⟨by cases h; rfl, by omega, rfl⟩, fun h => by rw [h.1]⟩

theorem strike_error {j : UInt32} {f : Stream → Except Panic Effect} :
    c.strike j f = .error q ↔ ∃ st, c.streams.get j = some st ∧ f st = .error q := by
  unfold strike
  cases c.streams.get j with
  | none => exact ⟨nofun, fun ⟨_, h, _⟩ => by cases h⟩
  | some st =>
    simp only [Option.some.injEq, exists_eq_left']
    cases f st with
    | ok e => exact ⟨nofun, nofun⟩
    | error e => exact ⟨fun h => by cases h; rfl, fun h => by cases h; rfl⟩

theorem handleCommand_error_iff (hc : c.Proper) (htext : env.TextsSmall)
    (hlen : ∀ payload, p = some payload → payload.length ≤ payloadMax) :
    c.handleCommand env h p = .error q ↔ c.Fatal env h p q := by
  have hpanic : ∀ p' : Panic, ((.error p' : Except Panic Core) = .error q) ↔ q = p' := fun p' =>
    ⟨fun h => by cases h; rfl, fun h => by rw [h]⟩
  unfold handleCommand Fatal
  cases h.command with
  | cnxn =>
    cases p with
    | none => exact hpanic _
    | some payload => exact onCnxn_error
  | «open» =>
    cases p with
    | none => exact hpanic _
    | some payload => exact onOpen_error (c := c.log _) hc.next
  | wrte =>
    cases p with
    | none => exact hpanic _
    | some payload =>
      refine strike_error.trans (exists_congr fun st => and_congr_right fun hst => ?_)
      exact onWrte_error_iff htext (hc.steady hst) (hlen payload rfl)
  | okay =>
    cases p with
    | none =>
      refine strike_error.trans (exists_congr fun st => and_congr_right fun hst => ?_)
      exact onOkay_error_iff htext (hc.ids hst)
    | some payload => exact hpanic _
  | clse => exact strike_error.trans (exists_congr fun st => and_congr_right fun _ => onClse_error_iff)
  | _ => exact ⟨nofun, False.elim⟩

end Core

/-! ## Sessions stay proper -/

/-- The sync session of the stream, if it has one, is proper. -/
def Stream.Steady (st : Stream) : Prop :=
  ∀ r, st.service.receiver = some r → r.state.Wf ∧ r.path.length ≤ payloadMax

/-- The same for a stream that may be gone. -/
def View.Steady (w : View) : Prop := ∀ st, w.stream = some st → st.Steady

section

variable {env : Env} {v : ProtocolVersion} {os : Os} {i : UInt32} {st : Stream} {e : Effect}

theorem Stream.Steady.wrte {payload : Bytes} (h : st.Steady) (hlen : payload.length ≤ payloadMax)
    (he : onWrte env v i os st payload = .ok e) : ∀ st', e.stream = some st' → st'.Steady := by
  intro st' hst' r hr
  have hr' : receiverOf e.stream = some r := by
    rw [hst']
    exact hr
  have hwritten : ∀ {x : Except IoError Unit × Os}, (written i st x).stream = some st' →
      r.state.Wf ∧ r.path.length ≤ payloadMax := by
    intro x hx
    unfold written at hx
    split at hx
    · cases hx
      exact h r hr
    · cases hx
  unfold onWrte at he
  cases hsv : st.service with
  | sync svc =>
    rw [hsv] at he
    obtain ⟨result, svc', fs', hh, -, hrec, hquit, -⟩ := onSync_receiver he
    have hne : result ≠ .quit := by
      rintro rfl
      rw [hquit rfl] at hst'
      cases hst'
    have hsteady : svc.Steady := fun r hr => h r (by rw [hsv]; exact hr)
    rw [hrec hne] at hr'
    exact hsteady.handle hlen hh r hr'
  | shell sh =>
    rw [hsv] at he
    cases he
    exact hwritten hst'
  | forward fwd =>
    rw [hsv] at he
    cases he
    exact hwritten hst'
  | reboot =>
    rw [hsv] at he
    cases he

theorem View.receiver_step {w w' : View} {a : Act} {r : FileReceiver}
    (ho : ∀ r svc, a ≠ .opened r svc) (hw : ∀ payload, a ≠ .wrte payload)
    (hs : w.step env v os i a = .ok w') (hr : receiverOf w'.stream = some r) :
    receiverOf w.stream = some r := by
  cases hst : w.stream with
  | none =>
    rw [step_absent ho hst hs, noted_stream, hst] at hr
    exact hr
  | some st =>
    cases a with
    | opened remote svc => exact absurd rfl (ho remote svc)
    | wrte payload => exact absurd rfl (hw payload)
    | none =>
      cases hs
      rw [← hst]
      exact hr
    | fill op bytes =>
      cases hs
      simpa only [receiverOf, hst, Option.map_some, Option.bind_some, receiver_filled] using hr
    | okay =>
      obtain ⟨e, he, rfl⟩ := through_some (w := { w with okays := w.okays + 1 }) hs hst
      have hr : receiverOf e.stream = some r := hr
      rwa [onOkay_receiver he] at hr
    | clse remote =>
      obtain ⟨e, he, rfl⟩ := through_some hs hst
      have hr : receiverOf e.stream = some r := hr
      rcases onClse_cases he with ⟨-, h1, -⟩ | ⟨-, h1, -⟩
      · rw [h1] at hr
        exact hr
      · rw [h1] at hr
        cases hr
    | read op res =>
      obtain ⟨e, he, rfl⟩ := through_some (w := w.ended op) hs hst
      rcases onRead_cases he with ⟨-, rfl⟩ | ⟨-, -, rfl⟩ | ⟨-, -, _, _, -, -, rfl⟩
      · cases hr
      · exact hr
      · exact hr

end

namespace Sys

variable {s s' : Sys} {e : Event} {env : Env}

theorem arriving_length {b : Bool} {data : Bytes} (h : s.arriving = some (b, data)) :
    data.length ≤ payloadMax := by
  unfold arriving at h
  split at h
  · cases h
  · split at h
    · rename_i ht
      cases h
      exact transfer_length ht
    · rename_i ht
      cases h
      exact transfer_length ht
    · cases h

theorem incoming_length {h : AdbHeader} {payload : Bytes} (hi : s.incoming = some (h, some payload)) :
    payload.length ≤ payloadMax := by
  unfold incoming at hi
  split at hi
  · split at hi
    · split at hi <;> cases hi
    · cases hi
  · rename_i data ha
    split at hi
    · split at hi
      · cases hi
        exact arriving_length ha
      · cases hi
    · cases hi
  · cases hi

theorem steady_step (h : ∀ i, (s.view i).Steady) (hs : s.step e = .ok s') (i : UInt32) :
    (s'.view i).Steady := by
  have hview := step_view hs i
  intro st' hst' r hr
  have hr' : receiverOf (s'.view i).stream = some r := by
    rw [hst']
    exact hr
  by_cases ho : ∃ remote svc, s.act e i = .opened remote svc
  · obtain ⟨remote, svc, ha⟩ := ho
    rw [ha] at hview
    rw [View.step_opened hview, View.begun_stream] at hr'
    cases (act_opened_receiver ha).symm.trans hr'
  have ho : ∀ remote svc, s.act e i ≠ .opened remote svc := fun remote svc ha => ho ⟨remote, svc, ha⟩
  by_cases hw : ∃ payload, s.act e i = .wrte payload
  · obtain ⟨payload, ha⟩ := hw
    obtain ⟨env, hd, p, rfl, hi, hact⟩ := act_fromHost (by rw [ha]; rfl)
    obtain ⟨-, -, rfl⟩ := Dev.actOf_wrte (hact.symm.trans ha)
    obtain ⟨st, hst⟩ := View.step_open ho hview hst'
    rw [ha] at hview
    obtain ⟨eff, he, heq⟩ := View.through_some hview hst
    rw [heq] at hst'
    exact (h i st hst).wrte (incoming_length hi) he st' hst' r hr
  · have hkept := View.receiver_step ho (fun payload ha => hw ⟨payload, ha⟩) hview hr'
    obtain ⟨st, hst, hrec⟩ := Option.bind_eq_some_iff.mp hkept
    exact h i st hst r hrec

theorem steady_of_reach {info : DeviceInfo} {os : Os} {Ok : Sys → Event → Prop}
    (h : Reach Sys.step Ok (Sys.start info os) s) : ∀ i, (s.view i).Steady :=
  h.invariant (I := fun s => ∀ i, (s.view i).Steady) (fun _ _ hst => nomatch hst)
    fun _ _ _ hi _ hs => steady_step hi hs

/-! ## Completions stay in range -/

/-- A completed read brought no more than a buffer holds. -/
def Ranged (s : Sys) : Prop :=
  ∀ c ∈ s.batch ++ s.cq, ∀ u, UserData.tryFrom c.userData = some u → u.opType ≠ .bulkInWrite →
    u.opType ≠ .ep0Poll → c.res ≤ bulkOutSize

theorem fits_range {op : UserDataOpType} {outcome : Outcome} (h : outcome.fits op = true)
    (hw : op ≠ .bulkInWrite) (hp : op ≠ .ep0Poll) : outcome.res ≤ bulkOutSize := by
  have hbuf : ptyReadBufSize ≤ bulkOutSize ∧ socketReadBufSize ≤ bulkOutSize := by decide
  cases outcome with
  | error errno =>
    simp only [Outcome.res]
    omega
  | count n =>
    cases op with
    | bulkInWrite => exact absurd rfl hw
    | ep0Poll => exact absurd rfl hp
    | _ => cases h
  | data bytes =>
    simp only [Outcome.fits] at h
    simp only [Outcome.res]
    cases op <;> simp at h hw hp <;> omega

theorem Ranged.step (h : s.Ranged) (hs : s.step e = .ok s') : s'.Ranged := by
  cases e with
  | submit =>
    obtain ⟨-, rfl⟩ := Sys.submit_ok hs
    exact h
  | reap =>
    obtain ⟨hb, -, -, rfl⟩ := Sys.reap_ok hs
    unfold Ranged at h ⊢
    simpa [hb] using h
  | complete k outcome =>
    obtain ⟨e, u, -, hu, hfit, rfl⟩ := complete_ok hs
    obtain ⟨-, -, hbatch⟩ := s.fill_queues u outcome
    intro c hc w hw
    have hc : c ∈ (s.fill u outcome).batch ++ (s.cq ++ [⟨e.userData, outcome.res⟩]) := hc
    rw [hbatch, ← List.append_assoc] at hc
    rcases List.mem_append.mp hc with hc | hc
    · exact h c hc w hw
    · cases List.mem_singleton.mp hc
      cases hu.symm.trans hw
      exact fits_range hfit
  | handle env =>
    obtain ⟨c, hb, hcq, -⟩ := Sys.handle_queues hs
    intro c' hc'
    rw [hcq] at hc'
    refine h c' ?_
    rw [hb]
    exact List.mem_cons_of_mem c hc'

theorem ranged_of_reach {info : DeviceInfo} {os : Os} {Ok : Sys → Event → Prop}
    (h : Reach Sys.step Ok (Sys.start info os) s) : s.Ranged :=
  h.invariant (fun _ hc => nomatch hc) fun _ _ _ hi _ hs => hi.step hs

/-! ## Completions -/

theorem core_proper {info : DeviceInfo} {os : Os} {Ok : Sys → Event → Prop}
    (h : Reach Sys.step Ok (Sys.start info os) s) : s.core.Proper := by
  have hown := ownReads_of_reach h
  refine ⟨fun hz => ?_, fun {i st} hst => (hown.given (Option.isSome_of_eq_some hst)).1,
    fun {i st} hst svc hsv r hr => ?_⟩
  · have hpos := hown.pos
    rw [show s.nextId = 0 from hz] at hpos
    cases hpos
  · refine steady_of_reach h i st hst r ?_
    rw [hsv]
    exact hr

/-- The event dispatches a message that crashes the daemon. -/
def Fatal (s : Sys) (e : Event) (q : Panic) : Prop :=
  ∃ env h p, e = .handle env ∧ s.incoming = some (h, p) ∧ s.core.Fatal env h p q

theorem panics_error {α : Type} {x : Except Panic α} {q : Panic} :
    panics x = .error (.panic q) ↔ x = .error q := by
  cases x with
  | ok a => exact ⟨nofun, nofun⟩
  | error e => exact ⟨fun h => by cases h; rfl, fun h => by cases h; rfl⟩

theorem fatal_iff {h : AdbHeader} {p : Option Bytes} {q : Panic} {c : Core} :
    (∃ h' p', some (h, p) = some (h', p') ∧ c.Fatal env h' p' q) ↔ c.Fatal env h p q := by
  refine ⟨?_, fun hf => ⟨h, p, rfl, hf⟩⟩
  rintro ⟨h', p', he, hf⟩
  cases he
  exact hf

theorem onHeader_error {data : Bytes} {q : Panic} (hc : s.core.Proper) (htext : env.TextsSmall)
    (ha : s.arriving = some (false, data)) : s.core.onHeader env data = .error (.panic q) ↔
      ∃ h p, s.incoming = some (h, p) ∧ s.core.Fatal env h p q := by
  unfold Core.onHeader incoming
  simp only [ha]
  cases parseHeader data with
  | none => exact iff_of_false (by rintro ⟨⟩) (by rintro ⟨_, _, ⟨⟩, -⟩)
  | some x =>
    obtain ⟨h, rest⟩ := x
    simp only
    split
    · exact iff_of_false (by rintro ⟨⟩) (by rintro ⟨_, _, ⟨⟩, -⟩)
    · rw [panics_error, fatal_iff]
      exact Core.handleCommand_error_iff (c := s.core.log _) ⟨hc.next, hc.ids, hc.steady⟩ htext
        fun _ hp => by cases hp

theorem onPayload_error {data : Bytes} {q : Panic} (hc : s.core.Proper) (htext : env.TextsSmall)
    (ha : s.arriving = some (true, data)) : s.core.onPayload env data = .error (.panic q) ↔
      ∃ h p, s.incoming = some (h, p) ∧ s.core.Fatal env h p q := by
  have hlen := arriving_length ha
  have hpending : (s.core.log (.payloadRead data)).pendingHeader = s.pendingHeader := rfl
  unfold Core.onPayload incoming
  simp only [ha, hpending]
  cases s.pendingHeader with
  | none => exact iff_of_false (by rintro ⟨⟩) (by rintro ⟨_, _, ⟨⟩, -⟩)
  | some h =>
    simp only
    rw [panics_error]
    show (badChecksum s.dev.version h data >>= _) = _ ↔ _
    rw [badChecksum_eq _ _ hlen]
    cases checksumOk s.dev.version h data with
    | false => exact iff_of_false (by rintro ⟨⟩) (by rintro ⟨_, _, ⟨⟩, -⟩)
    | true =>
      refine (Core.handleCommand_error_iff (c := { s.core.log (.payloadRead data) with
        pendingHeader := none }) ⟨hc.next, hc.ids, hc.steady⟩ htext ?_).trans fatal_iff.symm
      rintro payload ⟨⟩
      exact hlen

theorem quiet_error {env : Env} {q : Panic} {x : Except Halt Core} (hi : s.incoming = none)
    (hx : x ≠ .error (.panic q)) : x = .error (.panic q) ↔
      ∃ h p, s.incoming = some (h, p) ∧ s.core.Fatal env h p q := by
  rw [hi]
  exact iff_of_false hx (by rintro ⟨_, _, ⟨⟩, -⟩)

theorem incoming_of_not_bulk {c : Cqe} {rest : List Cqe} (hb : s.batch = c :: rest)
    (hu : ∀ u, UserData.tryFrom c.userData = some u →
      u.opType ≠ .bulkOutReadHeader ∧ u.opType ≠ .bulkOutReadPayload) : s.incoming = none := by
  have ha : s.arriving = none := by
    simp only [arriving, hb]
    split
    · rename_i ht _
      exact absurd rfl (hu _ ht).1
    · rename_i ht _
      exact absurd rfl (hu _ ht).2
    · rfl
  simp only [incoming, ha]

theorem bulk_error {c : Cqe} {rest : List Cqe} {x : Option NonZeroU32} {b : Bool} {q : Panic}
    {f : Bytes → Except Halt Core} (hb : s.batch = c :: rest) (hres : c.res ≤ bulkOutSize)
    (ht : UserData.tryFrom c.userData =
      some ⟨if b then .bulkOutReadPayload else .bulkOutReadHeader, x⟩)
    (hf : ∀ data, s.arriving = some (b, data) → (f data = .error (.panic q) ↔
      ∃ h p, s.incoming = some (h, p) ∧ s.core.Fatal env h p q)) :
    (s.core.transfer c.res >>= f) = .error (.panic q) ↔
      ∃ h p, s.incoming = some (h, p) ∧ s.core.Fatal env h p q := by
  rw [transfer_core]
  cases hx : s.transfer c.res with
  | ok data =>
    refine hf data ?_
    cases b <;> simp only [arriving, hb, ht, hx] <;> rfl
  | error halt =>
    have ha : s.arriving = none := by
      cases b <;> simp only [arriving, hb, ht, hx] <;> rfl
    refine quiet_error (by simp only [incoming, ha]) fun he => ?_
    cases he
    unfold transfer BulkBuf.slice at hx
    split at hx
    · cases hx
    · rw [if_pos (by omega)] at hx
      cases hx

theorem read_safe {info : DeviceInfo} {os : Os} {Ok : Sys → Event → Prop}
    (h : Reach Sys.step Ok (Sys.start info os) s) {c : Cqe} (hc : c ∈ s.batch)
    {op : UserDataOpType} {x : Option NonZeroU32} (ht : UserData.tryFrom c.userData = some ⟨op, x⟩)
    (hop : op = .ptyRead ∨ op = .socketRead) (q : Panic) :
    ∃ j : NonZeroU32, x = some j ∧ panics (s.core.strike j.1 fun st =>
      onRead s.core.version j.1 s.core.os st op c.res) ≠ .error (.panic q) := by
  obtain ⟨j, rfl, -⟩ := (ownReads_of_reach h).read_given (mem_outstanding hc) hop ht
  refine ⟨j, rfl, fun he => ?_⟩
  obtain ⟨st, -, hst⟩ := Core.strike_error.mp (panics_error.mp he)
  have hrange : op ≠ .bulkInWrite → op ≠ .ep0Poll → c.res ≤ bulkOutSize :=
    ranged_of_reach h c (List.mem_append_left _ hc) _ ht
  refine (onRead_safe (hrange ?_ ?_)).ne_error q hst
  · rcases hop with rfl | rfl <;> decide
  · rcases hop with rfl | rfl <;> decide

theorem core_handle_error {info : DeviceInfo} {os : Os} {Ok : Sys → Event → Prop}
    (h : Reach Sys.step Ok (Sys.start info os) s) (htext : env.TextsSmall) {c : Cqe}
    {rest : List Cqe} (hb : s.batch = c :: rest) {q : Panic} :
    s.core.handle env c = .error (.panic q) ↔
      ∃ h p, s.incoming = some (h, p) ∧ s.core.Fatal env h p q := by
  have hproper := core_proper h
  have hc : c ∈ s.batch := by
    rw [hb]
    exact .head _
  have hrange : ∀ {op x}, UserData.tryFrom c.userData = some ⟨op, x⟩ → op ≠ .bulkInWrite →
      op ≠ .ep0Poll → c.res ≤ bulkOutSize := fun ht hw hp =>
    ranged_of_reach h c (List.mem_append_left _ hc) _ ht hw hp
  have hquiet : ∀ {op x}, UserData.tryFrom c.userData = some ⟨op, x⟩ → op ≠ .bulkOutReadHeader →
      op ≠ .bulkOutReadPayload → s.incoming = none := by
    intro op x ht h1 h2
    refine incoming_of_not_bulk hb fun u hu => ?_
    cases ht.symm.trans hu
    exact ⟨h1, h2⟩
  unfold Core.handle
  cases ht : UserData.tryFrom c.userData with
  | none =>
    refine quiet_error (incoming_of_not_bulk hb fun u hu => ?_) (by rintro ⟨⟩)
    rw [ht] at hu
    cases hu
  | some u =>
    obtain ⟨op, x⟩ := u
    cases op with
    | ptyRead =>
      obtain ⟨j, rfl, hj⟩ := read_safe h hc ht (.inl rfl) q
      exact quiet_error (hquiet ht (by decide) (by decide)) hj
    | socketRead =>
      obtain ⟨j, rfl, hj⟩ := read_safe h hc ht (.inr rfl) q
      exact quiet_error (hquiet ht (by decide) (by decide)) hj
    | bulkInWrite => exact quiet_error (hquiet ht (by decide) (by decide)) (by rintro ⟨⟩)
    | ep0Poll =>
      refine quiet_error (hquiet ht (by decide) (by decide)) fun he => ?_
      simp only at he
      repeat' split at he
      all_goals cases he
    | bulkOutReadHeader =>
      exact bulk_error (b := false) hb (hrange ht (by decide) (by decide)) ht fun data ha =>
        onHeader_error hproper htext ha
    | bulkOutReadPayload =>
      exact bulk_error (b := true) hb (hrange ht (by decide) (by decide)) ht fun data ha =>
        onPayload_error hproper htext ha

/-- No event lacks an entry of the queue, or a slot if there is room. -/
theorem scarce_of_reach {info : DeviceInfo} {os : Os}
    (h : Reach Sys.step (fun _ _ => True) (Sys.start info os) s) {halt : Halt}
    (hs : s.step e = .error halt) (hscarce : halt.Scarce) :
    halt = .panic .slotsInUse ∧ ¬ HasRoom s e := by
  rcases hscarce with rfl | rfl
  · refine ⟨rfl, fun hroom => (step_finds e ?_).of_error _ hs rfl⟩
    rw [BufferManager.used_eq (owned_of_reach h).owns]
    exact hroom
  · have hraise : Raises (s.step e) (Halt.Of (· ≠ .sqFull)) := by
      refine step_raises ?_
      rintro env rfl
      cases hb : s.batch with
      | nil =>
        simp only [Sys.step, hb]
        exact .error trivial
      | cons c tail =>
        refine handle_spare (a := s.dev.allowance + c.adds) fun c' tail' hb' => ?_
        cases hb.symm.trans hb'
        exact (queued_of_reach h).spare h c
    exact absurd rfl (hraise.of_error _ hs)

theorem incoming_batch {m : AdbHeader × Option Bytes} (hi : s.incoming = some m) :
    ∃ c rest, s.batch = c :: rest ∧ ∀ x, UserData.tryFrom c.userData ≠ some ⟨.bulkInWrite, x⟩ := by
  cases hb : s.batch with
  | nil =>
    simp only [incoming, arriving, hb] at hi
    cases hi
  | cons c rest =>
    refine ⟨c, rest, rfl, fun x ht => ?_⟩
    have hnone : s.incoming = none := by
      refine incoming_of_not_bulk hb fun u hu => ?_
      cases ht.symm.trans hu
      exact ⟨by rintro ⟨⟩, by rintro ⟨⟩⟩
    cases hi.symm.trans hnone

theorem input_error {info : DeviceInfo} {os : Os} {Ok : Sys → Event → Prop} {q : Panic}
    (h : Reach Sys.step Ok (Sys.start info os) s) (htext : e.env.TextsSmall)
    (he : runEvents Core.step s.core (s.input e) = .error (.panic q)) : s.Fatal e q := by
  unfold input at he
  split at he
  · repeat' split at he
    all_goals cases he
  · rename_i env
    split at he
    · cases he
    · rename_i c rest hb
      split at he
      · cases he
      · rw [run_done] at he
        obtain ⟨hd, p, hi, hf⟩ := (core_handle_error h htext hb).mp he
        exact ⟨env, hd, p, rfl, hi, hf⟩
  · cases he

end Sys

/-- **Every way the daemon can crash.** In a reachable state an event panics only where it
dispatches one of the messages of `Core.Fatal`, with that message's panic, or where it
finds fewer write slots than it needs. Any other `expect`, `assert`, `unreachable!`,
slice or overflow is out of reach. If the slots are there, such a message does crash the
daemon. -/
theorem crashes_iff_fatal {info : DeviceInfo} {os : Os} {s : Sys} {e : Event} {q : Panic}
    (h : Reach Sys.step (fun _ _ => True) (Sys.start info os) s) (htext : e.env.TextsSmall) :
    (s.step e = .error (.panic q) → (q = .slotsInUse ∧ ¬ HasRoom s e) ∨ s.Fatal e q) ∧
      (HasRoom s e → s.Fatal e q → s.step e = .error (.panic q)) := by
  refine ⟨fun he => ?_, ?_⟩
  · rcases (Sys.owned_of_reach h).step_error he with hdis | hscarce | hcore
    · cases hdis
    · obtain ⟨hq, hroom⟩ := Sys.scarce_of_reach h he hscarce
      cases hq
      exact .inl ⟨rfl, hroom⟩
    · exact .inr (Sys.input_error h htext hcore)
  · rintro hroom ⟨env, hd, p, rfl, hi, hf⟩
    obtain ⟨c, rest, hb, hw⟩ := Sys.incoming_batch hi
    have hcore := (Sys.core_handle_error h htext hb).mpr ⟨hd, p, hi, hf⟩
    have hmirror : Mirrors Sys.core Halt.Scarce (Sys.handleCqe env { s with batch := rest } c)
        (s.core.handle env c) := Sys.mirrors_handleCqe (s := { s with batch := rest }) hw
    have hstep : s.step (.handle env) = Sys.handleCqe env { s with batch := rest } c := by
      simp only [Sys.step, hb]
    cases hx : Sys.handleCqe env { s with batch := rest } c with
    | ok s' => cases hcore.symm.trans (hmirror.ok s' hx)
    | error halt =>
      rcases hmirror.error halt hx with hscarce | hhalt
      · exact absurd hroom (Sys.scarce_of_reach h (hstep.trans hx) hscarce).2
      · cases hcore.symm.trans hhalt
        exact hstep.trans hx

/-- Another stream's id closes stream 1. -/
theorem crashes_iff_fatal_clse : ∃ s, Reach Sys.step (fun _ _ => True) Sys.fresh s ∧
    s.step (.handle {}) = .error (.panic .clseRemoteId) := by
  have hplay : ((Sys.fresh.play (fun _ _ => true) Sys.openSync).bind fun s =>
      runGuarded Sys.step (fun _ _ => true) s
        (s.turn (.header (bareHeader .clse 8 1).asLeBytes)).dropLast).map (fun s =>
          (s.incoming, decide (HasRoom s (.handle {})), (s.core.streams.get 1).map (·.remoteId))) =
      some (some (bareHeader .clse 8 1, none), true, some 7) := by
    decide +kernel
  obtain ⟨s, hs, hfacts⟩ := Option.map_eq_some_iff.mp hplay
  obtain ⟨t, ht, hts⟩ := Option.bind_eq_some_iff.mp hs
  have hreach : Reach Sys.step (fun _ _ => True) Sys.fresh s :=
    (Sys.reach_of_play (fun _ _ _ => trivial) ht).trans (Reach.of_runGuarded (fun _ _ _ => trivial) hts)
  simp only [Prod.mk.injEq, decide_eq_true_eq] at hfacts
  obtain ⟨hi, hroom, hst⟩ := hfacts
  obtain ⟨st, hget, hremote⟩ := Option.map_eq_some_iff.mp hst
  have htext : (Event.handle {}).env.TextsSmall := fun _ _ he => nomatch he
  refine ⟨s, hreach, (crashes_iff_fatal hreach htext).2 hroom ?_⟩
  refine ⟨{}, _, _, rfl, hi, st, hget, ?_, rfl⟩
  rw [hremote]
  decide

end Adibi
