import Adibi.Sync.Service

/-!
# The panics of a sync session

What `SyncService::handle` and `FileSender::next_frame` can panic on: a field
that does not fit its word, or a slice out of range. They touch neither the
write slots nor the submission queue.
-/

namespace Adibi

open Lib

/-- The panics of the sync service. -/
def Panic.OfSync (p : Panic) : Prop :=
  p = .fileTooLarge ∨ p = .mtimeRange ∨ p = .lengthOverflow ∨ p = .sliceRange

theorem lenU32_raises (n : Nat) : Raises (lenU32 n) Panic.OfSync := by
  unfold lenU32
  split
  · exact .ok _
  · exact .error (.inr (.inr (.inl rfl)))

theorem failResponse_raises (msg : Bytes) : Raises (failResponse msg) Panic.OfSync :=
  (lenU32_raises _).bind fun _ _ => .ok _

theorem dataResponse_raises (data : Bytes) : Raises (dataResponse data) Panic.OfSync :=
  (lenU32_raises _).bind fun _ _ => .ok _

theorem FileSender.nextFrame_raises (env : Env) (fs : Fs) (s : FileSender) :
    Raises (s.nextFrame env fs) Panic.OfSync := by
  unfold FileSender.nextFrame
  split
  · exact .ok _
  · split
    · exact .ok _
    · exact (dataResponse_raises _).bind fun _ _ => .ok _
    · exact (failResponse_raises _).bind fun _ _ => .ok _

theorem HeaderBuf.copy_raises (b : HeaderBuf) (k : Nat) (bytes : Bytes) :
    Raises (b.copy k bytes) Panic.OfSync := by
  unfold HeaderBuf.copy
  split
  · exact .ok _
  · exact .error (.inr (.inr (.inr rfl)))

namespace FileReceiver

theorem finalize_raises (env : Env) (fs : Fs) (r : FileReceiver) (mtime : UInt32) :
    Raises (r.finalize env fs mtime) Panic.OfSync := by
  unfold finalize
  split
  · exact (failResponse_raises _).bind fun _ _ => .ok _
  · split <;> exact .ok _

theorem onFrame_raises (env : Env) (fs : Fs) (r : FileReceiver) (pos : Nat) (h : Bytes) :
    Raises (r.onFrame env fs pos h) Panic.OfSync := by
  unfold onFrame
  split
  · exact (failResponse_raises _).bind fun _ _ => .ok _
  · unfold onHeader
    split
    · exact .ok _
    · exact (finalize_raises ..).bind fun _ _ => .ok _

theorem receiveIter_raises (env : Env) (data : Bytes) (pos : Nat) (r : FileReceiver) (fs : Fs) :
    Raises (receiveIter env data pos r fs) Panic.OfSync := by
  unfold receiveIter
  split
  · split
    · exact (HeaderBuf.copy_raises ..).bind fun _ _ => .ok _
    · exact onFrame_raises ..
  · split
    · exact .error (.inr (.inr (.inr rfl)))
    · simp only
      split
      · exact (HeaderBuf.copy_raises ..).bind fun _ _ => .ok _
      · exact (HeaderBuf.copy_raises ..).bind fun _ _ => onFrame_raises ..
  · simp only
    split
    · exact (failResponse_raises _).bind fun _ _ => .ok _
    · exact .ok _

theorem receiveFrom_raises (env : Env) (data : Bytes) (pos : Nat) (r : FileReceiver) (fs : Fs) :
    Raises (receiveFrom env data pos r fs) Panic.OfSync := by
  induction pos, r, fs using receiveFrom.induct env data with
  | case1 pos r fs hpos e he =>
    rw [receiveFrom_error hpos he]
    exact .error ((receiveIter_raises env data pos r fs).of_error e he)
  | case2 pos r fs hpos result r' fs' he =>
    rw [receiveFrom_ret hpos he]
    exact .ok _
  | case3 pos r fs hpos pos' r' fs' he ih =>
    rw [receiveFrom_next hpos he]
    exact ih
  | case4 pos r fs hpos =>
    rw [receiveFrom_end (Nat.not_lt.mp hpos)]
    exact .ok _

theorem receive_raises (env : Env) (data : Bytes) (r : FileReceiver) (fs : Fs) :
    Raises (receive env data r fs) Panic.OfSync := receiveFrom_raises env data 0 r fs

end FileReceiver

namespace SyncService

theorem narrow_raises {p : Panic} (hp : p.OfSync) (n : Int) : Raises (narrow p n) Panic.OfSync := by
  unfold narrow
  split
  · exact .ok _
  · exact .error hp

theorem failResult_raises (msg : Bytes) : Raises (failResult msg) Panic.OfSync :=
  (failResponse_raises msg).bind fun _ _ => .ok _

theorem handleLstatV1_raises (env : Env) (fs : Fs) (path : Path) :
    Raises (handleLstatV1 env fs path) Panic.OfSync := by
  unfold handleLstatV1
  split
  · exact (narrow_raises (.inl rfl) _).bind fun _ _ =>
      (narrow_raises (.inr (.inl rfl)) _).bind fun _ _ => .ok _
  · exact .ok _

theorem handleRecvV1_raises (env : Env) (fs : Fs) (s : SyncService) (path : Path) :
    Raises (s.handleRecvV1 env fs path) Panic.OfSync := by
  unfold handleRecvV1
  split
  · exact .ok _
  · exact (failResult_raises _).bind fun _ _ => .ok _

theorem handleSendV1_raises (env : Env) (fs : Fs) (s : SyncService) (path : Path) (mode : UInt32)
    (leftover : Bytes) : Raises (s.handleSendV1 env fs path mode leftover) Panic.OfSync := by
  unfold handleSendV1
  split
  · exact (failResult_raises _).bind fun _ _ => .ok _
  · split
    · refine (FileReceiver.receive_raises ..).bind fun x _ => ?_
      obtain ⟨result, r, fs⟩ := x
      cases result <;> exact .ok _
    · exact .ok _

theorem handleRequest_raises (env : Env) (fs : Fs) (s : SyncService) (data : Bytes) :
    Raises (s.handleRequest env fs data) Panic.OfSync := by
  unfold handleRequest
  split
  · exact (failResult_raises _).bind fun _ _ => .ok _
  · exact (handleLstatV1_raises ..).bind fun _ _ => .ok _
  · exact (handleRecvV1_raises ..).bind fun _ _ => .ok _
  · exact handleSendV1_raises ..
  · exact .ok _

/-- **A sync payload panics only on a field or a slice out of range.** -/
theorem handle_raises (env : Env) (fs : Fs) (s : SyncService) (data : Bytes) :
    Raises (s.handle env fs data) Panic.OfSync := by
  unfold handle
  split
  · refine (FileReceiver.receive_raises ..).bind fun x _ => ?_
    obtain ⟨result, r, fs⟩ := x
    cases result <;> exact .ok _
  · exact handleRequest_raises ..

end SyncService

end Adibi
