import Adibi.Sync.Total

/-!
# A sync request returns

The states a sync service can be in, whatever the files do (`Reached`), and
which requests it answers there: all of them but an LSTAT of a file whose size
or modification time does not fit its 32-bit field (`handle_returns_iff`).
-/

namespace Adibi

open Lib

/-- The text of a system error stays below two gigabytes. -/
def Env.TextsShort (env : Env) : Prop := ∀ c e, env.fail c = some e → e.length < 2 ^ 31

/-- The largest payload the daemon reads. -/
def payloadMax : Nat := 2 ^ 20

/-! ## Paths -/

theorem parsePathMode_length {body p rest : Bytes} {m : UInt32}
    (h : parsePathMode body = some ((p, m), rest)) : p.length ≤ body.length := by
  obtain ⟨⟨a, r1⟩, h1, h2⟩ := Option.bind_eq_some_iff.mp h
  obtain ⟨⟨u, r2⟩, -, h3⟩ := Option.bind_eq_some_iff.mp h2
  obtain ⟨⟨c, r3⟩, -, h4⟩ := Option.map_eq_some_iff.mp h3
  simp only [Prod.mk.injEq] at h4
  obtain ⟨⟨rfl, -⟩, -⟩ := h4
  exact Parser.takeUntil1_length h1

/-- The path a request names. -/
def SyncPacket.path : SyncPacket → Path
  | .lstatV1 p | .recvV1 p | .sendV1 p _ => p
  | .quit => []

theorem parseSyncPacket_length {bs rest : Bytes} {k : SyncPacket}
    (h : parseSyncPacket bs = some (k, rest)) : k.path.length ≤ bs.length := by
  obtain ⟨⟨i, m⟩, hid, h2⟩ := Option.bind_eq_some_iff.mp h
  have hm : m.length ≤ bs.length := by
    obtain ⟨c, rfl, -⟩ := (Parser.local_leU32.verifyMap) bs i m hid
    simp only [List.length_append]
    omega
  cases i with
  | lstatV1 =>
    obtain ⟨⟨p, r⟩, hp, he⟩ := Option.map_eq_some_iff.mp h2
    cases he
    exact (Parser.lengthTake_length hp).trans hm
  | recvV1 =>
    obtain ⟨⟨p, r⟩, hp, he⟩ := Option.map_eq_some_iff.mp h2
    cases he
    exact (Parser.lengthTake_length hp).trans hm
  | quit =>
    cases h2
    exact Nat.zero_le _
  | sendV1 =>
    obtain ⟨⟨body, r⟩, hb, he⟩ := Option.bind_eq_some_iff.mp h2
    obtain ⟨k', hk, he'⟩ := Option.map_eq_some_iff.mp he
    obtain ⟨⟨⟨p, mode⟩, r'⟩, hp, rfl⟩ := Option.map_eq_some_iff.mp hk
    cases he'
    exact (parsePathMode_length hp).trans ((Parser.lengthTake_length hb).trans hm)

theorem display_length_le (p : Path) : p.display.length ≤ 3 * p.length := Utf8.lossy_length_le p

/-! ## The states of a service -/

namespace SyncService

/-- A service takes payloads and gives out the frames of a pull, over whatever
files there are at the time. -/
inductive Reached : SyncService → Prop where
  | new : Reached .new
  | handle {env : Env} {fs fs' : Fs} {s s' : SyncService} {data : Bytes} {result : SyncResult}
      (h : Reached s) (hlen : data.length ≤ payloadMax)
      (hh : s.handle env fs data = .ok (result, s', fs')) : Reached s'
  | frame {env : Env} {fs : Fs} {sender sender' : FileSender} {response : SyncResponse}
      (h : Reached ⟨.sending sender⟩)
      (hf : sender.nextFrame env fs = .ok (some response, sender')) : Reached ⟨.sending sender'⟩
  | finish {env : Env} {fs : Fs} {sender sender' : FileSender} (h : Reached ⟨.sending sender⟩)
      (hf : sender.nextFrame env fs = .ok (none, sender')) : Reached ⟨.idle⟩

/-- The receiver of a push can go on, and its path came in a payload. -/
def Steady (s : SyncService) : Prop :=
  ∀ r, s.receiver = some r → r.state.Wf ∧ r.path.length ≤ payloadMax

variable {env : Env} {fs fs' : Fs} {s s' : SyncService} {data : Bytes} {result : SyncResult}

theorem steady_of_none (h : s.receiver = none) : s.Steady := by
  intro r hr
  rw [h] at hr
  cases hr

theorem Steady.reaches {r : FileReceiver} {fs1 : Fs} {bytes : Bytes} (hs : s.Steady)
    (hlen : data.length ≤ payloadMax) (hr : s.reaches env fs data = some (r, fs1, bytes)) :
    r.state.Wf ∧ r.path.length ≤ payloadMax := by
  unfold SyncService.reaches at hr
  split at hr
  · rename_i r0 hst
    cases hr
    exact hs r (by rw [receiver, hst])
  · cases hp : parseSyncPacket data with
    | none =>
      rw [hp] at hr
      cases hr
    | some x =>
      obtain ⟨packet, leftover⟩ := x
      rw [hp] at hr
      cases packet with
      | lstatV1 path => cases hr
      | recvV1 path => cases hr
      | quit => cases hr
      | sendV1 path mode =>
        simp only at hr
        split at hr
        · cases hr
          exact ⟨trivial, (parseSyncPacket_length hp).trans hlen⟩
        · cases hr

theorem Steady.handle (hs : s.Steady) (hlen : data.length ≤ payloadMax)
    (h : s.handle env fs data = .ok (result, s', fs')) : s'.Steady := by
  cases hr : s.reaches env fs data with
  | none => exact steady_of_none (handle_apart hr h).2
  | some x =>
    obtain ⟨r, fs1, bytes⟩ := x
    obtain ⟨hwf, hpath⟩ := hs.reaches hlen hr
    obtain ⟨res, r', hrec, hafter⟩ := handle_reaches hr h
    cases res with
    | done response => exact steady_of_none hafter.2
    | «continue» =>
      obtain ⟨hwf', hpath', -⟩ := FileReceiver.receive_continue hwf hrec
      intro r1 hr1
      rw [hafter.2] at hr1
      cases hr1
      exact ⟨hwf', by rw [hpath']; exact hpath⟩

theorem steady_of_reached (h : Reached s) : s.Steady := by
  induction h with
  | new => exact steady_of_none rfl
  | handle _ hlen hh ih => exact ih.handle hlen hh
  | frame _ _ _ => exact steady_of_none rfl
  | finish _ _ _ => exact steady_of_none rfl

/-! ## Which requests return -/

/-- The payload is an LSTAT request for a file whose size or modification time
does not fit a `u32`. -/
def StatOutOfRange (env : Env) (fs : Fs) (s : SyncService) (data : Bytes) : Prop :=
  s.receiver = none ∧ ∃ path rest md, parseSyncPacket data = some (.lstatV1 path, rest) ∧
    fs.symlinkMetadata env path = .ok md ∧
    ¬ (md.size < 2 ^ 32 ∧ 0 ≤ md.mtime ∧ md.mtime < 2 ^ 32)

theorem failResult_returns {msg : Bytes} (h : msg.length < 2 ^ 32) :
    ∃ result, failResult msg = .ok result := by
  unfold failResult failResponse
  rw [lenU32_of_lt h]
  exact ⟨_, rfl⟩

theorem narrow_returns {p : Panic} {n : Int} : (∃ w, narrow p n = .ok w) ↔ 0 ≤ n ∧ n < 2 ^ 32 := by
  unfold narrow
  split
  · rename_i h
    exact ⟨fun _ => h, fun _ => ⟨_, rfl⟩⟩
  · rename_i h
    refine ⟨?_, fun hn => absurd hn h⟩
    rintro ⟨w, hw⟩
    cases hw

theorem pathText_lt {what : Bytes} {path : Path} {e : IoError} (hw : what.length ≤ 26)
    (hp : path.length ≤ payloadMax) (he : e.length < 2 ^ 31) :
    (what ++ path.display ++ ascii ": " ++ e).length < 2 ^ 32 := by
  have hd := display_length_le path
  have ha : (ascii ": ").length = 2 := by decide
  rw [payloadMax] at hp
  simp only [List.length_append, ha]
  omega

theorem open_text {path : Path} {e : IoError} (htext : env.TextsShort)
    (h : fs.open_ env path = .error e) : e.length < 2 ^ 31 := by
  unfold Fs.open_ at h
  split at h
  · rename_i e' hf
    cases h
    exact htext _ _ hf
  · split at h
    · cases h
    · cases h
      decide

theorem create_text {path : Path} {e : IoError} (htext : env.TextsShort)
    (h : fs.create env path = .error e) : e.length < 2 ^ 31 := by
  unfold Fs.create at h
  split at h
  · rename_i e' hf
    cases h
    exact htext _ _ hf
  · split at h
    · cases h
    · cases h

theorem handleLstatV1_returns (path : Path) :
    (∃ x, handleLstatV1 env fs path = .ok x) ↔
      ∀ md, fs.symlinkMetadata env path = .ok md →
        md.size < 2 ^ 32 ∧ 0 ≤ md.mtime ∧ md.mtime < 2 ^ 32 := by
  unfold handleLstatV1
  cases hmd : fs.symlinkMetadata env path with
  | error e => simp
  | ok md =>
    simp only [Except.ok.injEq, forall_eq']
    constructor
    · rintro ⟨x, hx⟩
      obtain ⟨size, hsize, h1⟩ := bind_eq_ok.mp hx
      obtain ⟨mtime, hmtime, -⟩ := bind_eq_ok.mp h1
      have hs := narrow_returns.mp ⟨size, hsize⟩
      exact ⟨by omega, narrow_returns.mp ⟨mtime, hmtime⟩⟩
    · rintro ⟨hsize, hmtime⟩
      obtain ⟨size, h1⟩ := narrow_returns (p := .fileTooLarge) |>.mpr
        (⟨by omega, by omega⟩ : 0 ≤ (md.size : Int) ∧ (md.size : Int) < 2 ^ 32)
      obtain ⟨mtime, h2⟩ := narrow_returns (p := .mtimeRange) |>.mpr hmtime
      rw [h1, ok_bind, h2]
      exact ⟨_, rfl⟩

theorem handle_of_receive {r : FileReceiver} {fs1 : Fs} {bytes : Bytes}
    {x : FileReceiverResult × FileReceiver × Fs}
    (hr : s.reaches env fs data = some (r, fs1, bytes)) (hx : r.receive env bytes fs1 = .ok x) :
    ∃ y, s.handle env fs data = .ok y := by
  obtain ⟨res, r', fs2⟩ := x
  by_cases hst : ∃ r0, s.state = .receiving r0
  · obtain ⟨r0, hst⟩ := hst
    simp only [reaches, hst, Option.some.injEq, Prod.mk.injEq] at hr
    obtain ⟨rfl, rfl, rfl⟩ := hr
    unfold handle
    simp only [hst, hx, ok_bind]
    cases res <;> exact ⟨_, rfl⟩
  · have hno : ∀ r0, s.state ≠ .receiving r0 := fun r0 he => hst ⟨r0, he⟩
    rw [handle_request hno]
    unfold reaches at hr
    split at hr
    · rename_i r0 hs
      exact absurd hs (hno r0)
    · unfold handleRequest
      cases hp : parseSyncPacket data with
      | none =>
        rw [hp] at hr
        cases hr
      | some y =>
        obtain ⟨packet, leftover⟩ := y
        rw [hp] at hr
        cases packet with
        | lstatV1 path => cases hr
        | recvV1 path => cases hr
        | quit => cases hr
        | sendV1 path mode =>
          simp only at hr ⊢
          unfold handleSendV1
          cases hc : fs.create env path with
          | error e =>
            rw [hc] at hr
            cases hr
          | ok y =>
            obtain ⟨file, fs3⟩ := y
            rw [hc] at hr
            cases hr
            simp only [hx, ok_bind]
            split
            · cases res <;> exact ⟨_, rfl⟩
            · exact ⟨_, rfl⟩

/-- A payload outside a push, but for an LSTAT, is answered. -/
theorem handleRequest_returns (htext : env.TextsShort) (hlen : data.length ≤ payloadMax)
    (hr : s.reaches env fs data = none)
    (hstat : ∀ path rest, parseSyncPacket data ≠ some (.lstatV1 path, rest)) :
    ∃ x, s.handleRequest env fs data = .ok x := by
  unfold reaches at hr
  split at hr
  · cases hr
  · unfold handleRequest
    cases hp : parseSyncPacket data with
    | none => exact ⟨_, rfl⟩
    | some y =>
      obtain ⟨packet, leftover⟩ := y
      have hpath := (parseSyncPacket_length hp).trans hlen
      cases packet with
      | lstatV1 path => exact absurd hp (hstat path leftover)
      | quit => exact ⟨_, rfl⟩
      | recvV1 path =>
        simp only
        unfold handleRecvV1
        cases ho : fs.open_ env path with
        | ok file => exact ⟨_, rfl⟩
        | error e =>
          have hw : (ascii "cannot open ").length ≤ 26 := by decide
          have hle : path.length ≤ payloadMax := hpath
          obtain ⟨result, hres⟩ := failResult_returns (pathText_lt hw hle (open_text htext ho))
          simp only [hres]
          exact ⟨_, rfl⟩
      | sendV1 path mode =>
        rw [hp] at hr
        simp only at hr ⊢
        unfold handleSendV1
        cases hc : fs.create env path with
        | ok y =>
          rw [hc] at hr
          cases hr
        | error e =>
          have hw : (ascii "cannot create ").length ≤ 26 := by decide
          have hle : path.length ≤ payloadMax := hpath
          obtain ⟨result, hres⟩ := failResult_returns (pathText_lt hw hle (create_text htext hc))
          simp only [hres]
          exact ⟨_, rfl⟩

/-- A push never panics on the text of its answer. -/
theorem Steady.receive {r : FileReceiver} {fs1 : Fs} {bytes : Bytes} (htext : env.TextsShort)
    (hs : s.Steady) (hlen : data.length ≤ payloadMax)
    (hr : s.reaches env fs data = some (r, fs1, bytes)) :
    ∃ x, r.receive env bytes fs1 = .ok x := by
  obtain ⟨hwf, hpath⟩ := hs.reaches hlen hr
  refine (FileReceiver.receive_returns hwf).resolve_right ?_
  rintro ⟨-, what, e, hcall, hlong⟩
  have hbound : what.length ≤ 26 ∧ e.length < 2 ^ 31 := by
    rcases hcall with ⟨rfl, pos, hf⟩ | ⟨rfl, hf⟩
    · exact ⟨by decide, htext _ _ hf⟩
    · exact ⟨by decide, htext _ _ hf⟩
  have := pathText_lt hbound.1 hpath hbound.2
  omega

/-- **Which sync payloads are answered.** In every state a service reaches, for
every payload, every file system and every outcome of the file calls, `handle`
returns exactly when the payload is not an LSTAT of a file whose size or
modification time does not fit 32 bits; and every pass of a receiver it starts
or continues keeps its slices and subtractions in range. -/
theorem handle_returns_iff (htext : env.TextsShort) (hs : Reached s)
    (hlen : data.length ≤ payloadMax) (fs : Fs) :
    ((∃ x, s.handle env fs data = .ok x) ↔ ¬ s.StatOutOfRange env fs data) ∧
      ∀ r fs1 bytes, s.reaches env fs data = some (r, fs1, bytes) →
        ∀ n pos r1 fs2, FileReceiver.Passes env bytes r fs1 n pos r1 fs2 →
          FileReceiver.InRange bytes pos r1.state := by
  have hst := steady_of_reached hs
  refine ⟨?_, fun r fs1 bytes hr n pos r1 fs2 hn => ?_⟩
  · cases hr : s.reaches env fs data with
    | some y =>
      obtain ⟨r, fs1, bytes⟩ := y
      obtain ⟨x, hx⟩ := hst.receive htext hlen hr
      refine ⟨fun _ => ?_, fun _ => handle_of_receive hr hx⟩
      rintro ⟨hnone, path, rest, md, hp, -⟩
      unfold reaches at hr
      split at hr
      · rename_i r0 hs0
        exact receiver_none_iff.mp hnone r0 hs0
      · rw [hp] at hr
        cases hr
    | none =>
      have hno : ∀ r, s.state ≠ .receiving r := fun r he => by
        simp only [reaches, he] at hr
        cases hr
      rw [handle_request hno]
      by_cases hstat : ∃ path rest, parseSyncPacket data = some (.lstatV1 path, rest)
      · obtain ⟨path, rest, hp⟩ := hstat
        have hreq : s.handleRequest env fs data =
            (handleLstatV1 env fs path).bind fun result => .ok (result, s, fs) := by
          unfold handleRequest
          rw [hp]
          rfl
        have hiff : (∃ x, s.handleRequest env fs data = .ok x) ↔
            ∃ x, handleLstatV1 env fs path = .ok x := by
          rw [hreq]
          cases handleLstatV1 env fs path with
          | error e => simp [Except.bind]
          | ok x => simp [Except.bind]
        rw [hiff, handleLstatV1_returns]
        constructor
        · rintro hall ⟨-, path', rest', md, hp', hmd, hbad⟩
          rw [hp] at hp'
          cases hp'
          exact hbad (hall md hmd)
        · intro hok md hmd
          by_contra hbad
          exact hok ⟨receiver_none_iff.mpr hno, path, rest, md, hp, hmd, hbad⟩
      · refine ⟨fun _ => ?_, fun _ => ?_⟩
        · rintro ⟨-, path, rest, md, hp, -⟩
          exact hstat ⟨path, rest, hp⟩
        · exact handleRequest_returns htext hlen hr fun path rest hp => hstat ⟨path, rest, hp⟩
  · obtain ⟨hwf, -⟩ := hst.reaches hlen hr
    obtain ⟨hle, hwf1, -⟩ := hn.spec hwf
    exact FileReceiver.inRange_of_wf hwf1 hle

def statRequest : Bytes := le32 idLstatV1 ++ lenPrefixed (ascii "/f")

def oneFileOf (n : Nat) (t : Int) : Fs where
  entry := id
  dir path := if path = ascii "/f" then some 0 else none
  inodes _ := ⟨List.replicate n 0, 0o100644, t⟩
  nextIno := 1

theorem parse_statRequest : parseSyncPacket statRequest = some (.lstatV1 (ascii "/f"), []) := by
  have hp : (ascii "/f").length < 2 ^ 32 := by decide
  have h := parseSyncPacket_lstat hp []
  rwa [List.append_nil] at h

theorem stat_oneFile (n : Nat) (t : Int) :
    (oneFileOf n t).symlinkMetadata {} (ascii "/f") = .ok ⟨0o100644, n, t⟩ := by
  have hlen : (List.replicate n (0 : UInt8)).length = n := List.length_replicate
  show Except.ok (⟨0o100644, (List.replicate n (0 : UInt8)).length, t⟩ : Metadata) = _
  rw [hlen]

theorem handle_returns_iff_small_file : Reached .new ∧ statRequest.length ≤ payloadMax ∧
    ∃ x, SyncService.new.handle {} (oneFileOf 5 7) statRequest = .ok x := by
  have hlen : statRequest.length ≤ payloadMax := by decide +kernel
  have htext : ({} : Env).TextsShort := by
    intro c e h
    cases h
  refine ⟨.new, hlen, (handle_returns_iff htext .new hlen (oneFileOf 5 7)).1.mpr ?_⟩
  rintro ⟨-, path, rest, md, hp, hmd, hbad⟩
  cases parse_statRequest.symm.trans hp
  cases (stat_oneFile 5 7).symm.trans hmd
  exact hbad (by decide)

/-- An LSTAT of a file of 4 GiB, and of one older than 1970, ends the daemon. -/
theorem stat_panics : Reached .new ∧ statRequest.length ≤ payloadMax ∧
    SyncService.new.handle {} (oneFileOf (2 ^ 32) 7) statRequest = .error .fileTooLarge ∧
    SyncService.new.handle {} (oneFileOf 5 (-1)) statRequest = .error .mtimeRange := by
  have hreq : ∀ fs, SyncService.new.handle {} fs statRequest =
      (handleLstatV1 {} fs (ascii "/f")).bind fun result => .ok (result, .new, fs) := by
    intro fs
    have hno : ∀ r, SyncService.new.state ≠ .receiving r := by
      intro r h
      cases h
    rw [handle_request hno]
    unfold handleRequest
    rw [parse_statRequest]
    rfl
  refine ⟨.new, by decide +kernel, ?_, ?_⟩
  · rw [hreq, handleLstatV1, stat_oneFile]
    rfl
  · rw [hreq, handleLstatV1, stat_oneFile]
    rfl

end SyncService

end Adibi
