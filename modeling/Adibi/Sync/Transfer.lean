import Adibi.Sync.Packet

/-!
# File transfers

`FileSender` streams a file back to the host, one frame a call. `FileReceiver`
is the resumable decoder of a push: `receiveIter` is one pass of its `while`
loop and `receive` the whole loop. A pass either returns or moves on, and when
it moves on it has consumed input or come closer to a frame header
(`receiveIter_decreases`).
-/

namespace Adibi

open Lib

/-! ## Sending -/

/-- Streams a file back to the host as framed sync DATA messages. -/
structure FileSender where
  file : File
  done : Bool
  deriving DecidableEq, Repr

/-- The next DATA chunk, a DONE message at end of file, or `none` once the
transfer is complete. -/
def FileSender.nextFrame (env : Env) (fs : Fs) (s : FileSender) :
    Except Panic (Option SyncResponse × FileSender) :=
  if s.done then .ok (none, s)
  else
    match fs.read env s.file payloadSizeMaxBytes with
    | .ok ([], file) => .ok (some doneResponse, ⟨file, true⟩)
    | .ok (chunk, file) => do
      let response ← dataResponse chunk
      pure (some response, { s with file })
    | .error e => do
      let response ← failResponse (ascii "read error: " ++ e)
      pure (some response, { s with done := true })

/-! ## Receiving -/

/-- The size of a frame header on the wire. -/
def frameHeaderSize : Nat := 8

/-- The `[u8; 8]` in which a split frame header is collected. -/
structure HeaderBuf where
  bytes : Bytes
  length_eq : bytes.length = frameHeaderSize
  deriving DecidableEq

namespace HeaderBuf

def zero : HeaderBuf := ⟨List.replicate frameHeaderSize 0, rfl⟩

/-- `buf[off..off + src.len()].copy_from_slice(src)`. -/
def copy (b : HeaderBuf) (off : Nat) (src : Bytes) : Except Panic HeaderBuf :=
  if h : off + src.length ≤ frameHeaderSize then
    .ok ⟨copyAt b.bytes off src, by rw [copyAt_length (by rw [b.length_eq]; exact h), b.length_eq]⟩
  else .error .sliceRange

theorem copy_of_le (b : HeaderBuf) {off : Nat} {src : Bytes} (h : off + src.length ≤ 8) :
    ∃ c, b.copy off src = .ok c ∧ c.bytes = copyAt b.bytes off src :=
  ⟨_, dif_pos h, rfl⟩

/-- The bytes that a header lacks fill it. -/
theorem copy_fills (b : HeaderBuf) {off : Nat} {src : Bytes} (h : off + src.length = 8) :
    ∃ c, b.copy off src = .ok c ∧ c.bytes = b.bytes.take off ++ src := by
  obtain ⟨c, hc, hbytes⟩ := b.copy_of_le (Nat.le_of_eq h)
  have hnil : b.bytes.drop (off + src.length) = [] :=
    List.drop_eq_nil_of_le (by rw [b.length_eq, h, frameHeaderSize])
  exact ⟨c, hc, by rw [hbytes, copyAt, hnil, List.append_nil]⟩

end HeaderBuf

/-- Parsing state for an in-progress file receive. -/
inductive RecvState where
  | header
  | partialHeader (leftovers : HeaderBuf) (len : Nat)
  | data (remaining : Nat)
  deriving DecidableEq

/-- Receives a file from the host during a push. -/
structure FileReceiver where
  file : File
  path : Path
  mode : UInt32
  state : RecvState
  deriving DecidableEq

/-- Outcome of feeding a WRTE payload into a `FileReceiver`. -/
inductive FileReceiverResult where
  | done (response : SyncResponse)
  | continue
  deriving DecidableEq, Repr

/-- `data.get(i..j)`. -/
def slice? (data : Bytes) (i j : Nat) : Option Bytes :=
  if i ≤ j ∧ j ≤ data.length then some ((data.drop i).take (j - i)) else none

/-- How one pass of the receive loop ends. -/
inductive Pass where
  | next (pos : Nat) (r : FileReceiver) (fs : Fs)
  | ret (result : FileReceiverResult) (r : FileReceiver) (fs : Fs)

namespace FileReceiver

/-- Removes the partial file; a failure is only logged. -/
def abort (env : Env) (fs : Fs) (r : FileReceiver) : Fs :=
  match fs.removeFile env r.path with
  | .ok fs => fs
  | .error _ => fs

/-- Sets the mode and the modification time, and answers OKAY. A failure to
set the time is only logged. -/
def finalize (env : Env) (fs : Fs) (r : FileReceiver) (mtime : UInt32) :
    Except Panic (FileReceiverResult × Fs) :=
  match fs.setPermissions env r.file r.mode with
  | .error e => do
    let response ← failResponse
      (ascii "cannot set permissions on " ++ r.path.display ++ ascii ": " ++ e)
    pure (.done response, r.abort env fs)
  | .ok fs =>
    match fs.setTimes env r.file mtime.toNat with
    | .ok fs => .ok (.done okayResponse, fs)
    | .error _ => .ok (.done okayResponse, fs)

/-- An invalid frame header ends the transfer. -/
def badFrame (env : Env) (fs : Fs) (r : FileReceiver) : Except Panic Pass := do
  let response ← failResponse (ascii "invalid sync frame during send")
  pure (.ret (.done response) r (r.abort env fs))

/-- What a complete frame header at `pos` starts. -/
def onHeader (env : Env) (fs : Fs) (r : FileReceiver) (pos : Nat) (h : SyncFrameRequestHeader) :
    Except Panic Pass :=
  match h.id with
  | .data => .ok (.next pos { r with state := .data h.payloadLen.toNat } fs)
  | .done => do
    let (result, fs) ← r.finalize env fs h.payloadLen
    pure (.ret result r fs)

/-- What the eight bytes `h` of a frame header, read up to `pos`, lead to. -/
def onFrame (env : Env) (fs : Fs) (r : FileReceiver) (pos : Nat) (h : Bytes) : Except Panic Pass :=
  match parseSyncFrameHeader h with
  | none => r.badFrame env fs
  | some (header, _) => r.onHeader env fs pos header

/-- One pass of the receive loop at `pos`. -/
def receiveIter (env : Env) (data : Bytes) (pos : Nat) (r : FileReceiver) (fs : Fs) :
    Except Panic Pass :=
  match r.state with
  | .header =>
    match slice? data pos (pos + frameHeaderSize) with
    | none => do
      -- fewer than eight bytes left: keep them for the next payload
      let rem := data.drop pos
      let buf ← HeaderBuf.zero.copy 0 rem
      pure (.ret .continue { r with state := .partialHeader buf rem.length } fs)
    | some headerSlice => r.onFrame env fs (pos + frameHeaderSize) headerSlice
  | .partialHeader leftovers len =>
    if len > frameHeaderSize then .error .sliceRange
    else
      let need := frameHeaderSize - len
      match slice? data pos (pos + need) with
      | none => do
        let next := min need (data.length - pos)
        let buf ← leftovers.copy len ((data.drop pos).take next)
        pure (.ret .continue { r with state := .partialHeader buf (len + next) } fs)
      | some rem => do
        let buf ← leftovers.copy len rem
        r.onFrame env fs (pos + rem.length) buf.bytes
  | .data remaining =>
    let toWrite := min remaining (data.length - pos)
    match fs.writeAll env r.file pos ((data.drop pos).take toWrite) with
    | (.error e, file, fs) => do
      let response ← failResponse (ascii "write error for " ++ r.path.display ++ ascii ": " ++ e)
      pure (.ret (.done response) { r with file } (r.abort env fs))
    | (.ok (), file, fs) =>
      let state := if remaining - toWrite > 0 then .data (remaining - toWrite) else .header
      .ok (.next (pos + toWrite) { r with file, state } fs)

/-! ## The loop ends -/

/-- How far a state is from reading the next frame header. -/
def rank : RecvState → Nat
  | .header => 0
  | .data _ => 1
  | .partialHeader _ _ => 2

theorem slice?_eq_some {data s : Bytes} {i j : Nat} (h : slice? data i j = some s) :
    i ≤ j ∧ j ≤ data.length ∧ s.length = j - i := by
  unfold slice? at h
  split at h
  · rename_i hc
    cases h
    refine ⟨hc.1, hc.2, ?_⟩
    simp only [List.length_take, List.length_drop]; omega
  · cases h

theorem onFrame_next {env : Env} {fs fs' : Fs} {r r' : FileReceiver} {pos pos' : Nat} {h : Bytes}
    (hn : r.onFrame env fs pos h = .ok (.next pos' r' fs')) : pos' = pos ∧ rank r'.state = 1 := by
  unfold onFrame at hn
  split at hn
  · obtain ⟨x, -, hx⟩ := bind_eq_ok.mp hn; cases hx
  · unfold onHeader at hn
    split at hn
    · cases hn; exact ⟨rfl, rfl⟩
    · obtain ⟨x, -, hx⟩ := bind_eq_ok.mp hn; cases hx

/-- A pass that moves on stays inside the data, and has consumed input or come
closer to a frame header. -/
theorem receiveIter_decreases {env : Env} {data : Bytes} {pos pos' : Nat} {r r' : FileReceiver}
    {fs fs' : Fs} (hpos : pos < data.length)
    (h : receiveIter env data pos r fs = .ok (.next pos' r' fs')) :
    pos' ≤ data.length ∧
      3 * (data.length - pos') + rank r'.state < 3 * (data.length - pos) + rank r.state := by
  unfold receiveIter at h
  split at h
  · rename_i hst
    split at h
    · obtain ⟨x, -, hx⟩ := bind_eq_ok.mp h; cases hx
    · rename_i s hs
      obtain ⟨-, h2, -⟩ := slice?_eq_some hs
      obtain ⟨rfl, hr⟩ := onFrame_next h
      simp only [frameHeaderSize] at h2 ⊢
      rw [hr, hst, rank]; omega
  · rename_i hst
    split at h
    · cases h
    · simp only at h
      split at h
      · obtain ⟨x, -, hx⟩ := bind_eq_ok.mp h; cases hx
      · rename_i s hs
        obtain ⟨-, h2, h3⟩ := slice?_eq_some hs
        obtain ⟨b, -, hb⟩ := bind_eq_ok.mp h
        obtain ⟨rfl, hr⟩ := onFrame_next hb
        rw [hr, hst, rank]; omega
  · rename_i remaining hst
    simp only at h
    split at h
    · obtain ⟨x, -, hx⟩ := bind_eq_ok.mp h; cases hx
    · simp only [Except.ok.injEq, Pass.next.injEq] at h
      obtain ⟨rfl, rfl, -⟩ := h
      rw [hst]
      simp only
      split <;> simp only [rank] <;> omega

/-- The receive loop from `pos` on. -/
def receiveFrom (env : Env) (data : Bytes) (pos : Nat) (r : FileReceiver) (fs : Fs) :
    Except Panic (FileReceiverResult × FileReceiver × Fs) :=
  if _hpos : pos < data.length then
    match _h : receiveIter env data pos r fs with
    | .error e => .error e
    | .ok (.ret result r fs) => .ok (result, r, fs)
    | .ok (.next pos r fs) => receiveFrom env data pos r fs
  else .ok (.continue, r, fs)
termination_by 3 * (data.length - pos) + rank r.state
decreasing_by exact (receiveIter_decreases _hpos _h).2

section

variable {env : Env} {data : Bytes} {pos : Nat} {r r' : FileReceiver} {fs fs' : Fs}
  {res : FileReceiverResult}

theorem receiveFrom_end (h : data.length ≤ pos) :
    receiveFrom env data pos r fs = .ok (.continue, r, fs) := by
  rw [receiveFrom]
  exact dif_neg (Nat.not_lt.mpr h)

theorem receiveFrom_ret (hpos : pos < data.length)
    (h : receiveIter env data pos r fs = .ok (.ret res r' fs')) :
    receiveFrom env data pos r fs = .ok (res, r', fs') := by
  rw [receiveFrom, dif_pos hpos]
  split <;> simp_all

theorem receiveFrom_next {pos1 : Nat} (hpos : pos < data.length)
    (h : receiveIter env data pos r fs = .ok (.next pos1 r' fs')) :
    receiveFrom env data pos r fs = receiveFrom env data pos1 r' fs' := by
  rw [receiveFrom, dif_pos hpos]
  split <;> simp_all

theorem receiveFrom_error {p : Panic} (hpos : pos < data.length)
    (h : receiveIter env data pos r fs = .error p) : receiveFrom env data pos r fs = .error p := by
  rw [receiveFrom, dif_pos hpos]
  split <;> simp_all

theorem receiveFrom_cases (hpos : pos < data.length)
    (h : receiveFrom env data pos r fs = .ok (res, r', fs')) :
    receiveIter env data pos r fs = .ok (.ret res r' fs') ∨
      ∃ pos1 r1 fs1, receiveIter env data pos r fs = .ok (.next pos1 r1 fs1) ∧
        receiveFrom env data pos1 r1 fs1 = .ok (res, r', fs') := by
  rw [receiveFrom, dif_pos hpos] at h
  split at h
  · cases h
  · rename_i result r1 fs1 hp
    cases h
    exact .inl hp
  · rename_i pos1 r1 fs1 hp
    exact .inr ⟨pos1, r1, fs1, hp, h⟩

end

/-- Feeds a WRTE payload containing sync DATA or DONE frames. -/
def receive (env : Env) (data : Bytes) (r : FileReceiver) (fs : Fs) :
    Except Panic (FileReceiverResult × FileReceiver × Fs) :=
  receiveFrom env data 0 r fs

theorem receive_nil (env : Env) (r : FileReceiver) (fs : Fs) :
    r.receive env [] fs = .ok (.continue, r, fs) := receiveFrom_end (Nat.le_refl 0)

end FileReceiver

end Adibi
