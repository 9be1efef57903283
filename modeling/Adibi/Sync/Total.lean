import Adibi.Sync.Answer

/-!
# The receive loop ends

From a state with at most seven saved header bytes, every pass of `receive`
keeps its slices and subtractions in range and comes closer to the end of the
payload or to a frame header (`receive_total`). A pass that stays where it is
has closed an empty DATA frame. The one panic left is a FAIL text of 4 GiB.
-/

namespace Adibi

open Lib

namespace FileReceiver

variable {env : Env} {data : Bytes} {pos pos' : Nat} {r r' : FileReceiver} {fs fs' : Fs}
  {res : FileReceiverResult}

/-- The slices, copies and subtractions of a pass at `pos` are in range. -/
def InRange (data : Bytes) (pos : Nat) : RecvState → Prop
  | .header =>
    -- `&data[pos..]`, copied into `buf[..rem.len()]` when no header fits
    pos ≤ data.length ∧
      (slice? data pos (pos + frameHeaderSize) = none → data.length - pos ≤ frameHeaderSize)
  | .partialHeader _ len =>
    -- `8 - len`, `data.len() - pos`, and the copy behind the saved bytes
    len ≤ frameHeaderSize ∧ pos ≤ data.length ∧
      match slice? data pos (pos + (frameHeaderSize - len)) with
      | none => pos + min (frameHeaderSize - len) (data.length - pos) ≤ data.length ∧
          len + min (frameHeaderSize - len) (data.length - pos) ≤ frameHeaderSize
      | some rem => len + rem.length = frameHeaderSize
  | .data remaining =>
    -- `data.len() - pos`, `&data[pos..pos + to_write]`, `remaining -= to_write`
    pos ≤ data.length ∧ pos + min remaining (data.length - pos) ≤ data.length ∧
      min remaining (data.length - pos) ≤ remaining

/-- `n` passes of the loop that moved on. -/
inductive Passes (env : Env) (data : Bytes) (r : FileReceiver) (fs : Fs) :
    Nat → Nat → FileReceiver → Fs → Prop where
  | start : Passes env data r fs 0 0 r fs
  | pass {n pos pos' : Nat} {r1 r2 : FileReceiver} {fs1 fs2 : Fs}
      (h : Passes env data r fs n pos r1 fs1) (hpos : pos < data.length)
      (hp : receiveIter env data pos r1 fs1 = .ok (.next pos' r2 fs2)) :
      Passes env data r fs (n + 1) pos' r2 fs2

/-! ## One pass -/

theorem wf_of_rank {st : RecvState} (h : rank st ≤ 1) : st.Wf := by
  cases st with
  | header => trivial
  | data remaining => trivial
  | partialHeader leftovers len =>
    rw [rank] at h
    omega

theorem inRange_of_wf {st : RecvState} (hwf : st.Wf) (hpos : pos ≤ data.length) :
    InRange data pos st := by
  cases st with
  | header =>
    refine ⟨hpos, fun hnone => ?_⟩
    by_cases hle : pos + frameHeaderSize ≤ data.length
    · rw [slice?_of_le hle] at hnone
      cases hnone
    · omega
  | partialHeader leftovers len =>
    obtain ⟨h1, h7⟩ := hwf
    have h8 : len ≤ frameHeaderSize := by rw [frameHeaderSize]; omega
    refine ⟨h8, hpos, ?_⟩
    by_cases hle : pos + (frameHeaderSize - len) ≤ data.length
    · rw [slice?_of_le hle]
      simp only [List.length_take, List.length_drop]
      omega
    · rw [slice?_of_gt (by omega)]
      simp only
      omega
  | data remaining =>
    refine ⟨hpos, ?_, Nat.min_le_left ..⟩
    omega

/-- Where a pass that moves on leads: a header closed, or a body written. -/
theorem receiveIter_next (hwf : r.state.Wf) (hpos : pos < data.length)
    (h : receiveIter env data pos r fs = .ok (.next pos' r' fs')) :
    r'.state.Wf ∧ pos ≤ pos' ∧ (pos' = pos → r.state = .data 0 ∧ r'.state = .header) := by
  unfold receiveIter at h
  cases hst : r.state with
  | header =>
    simp only [hst] at h
    cases hs : slice? data pos (pos + frameHeaderSize) with
    | none =>
      rw [hs] at h
      obtain ⟨x, -, hx⟩ := bind_eq_ok.mp h
      cases hx
    | some s =>
      rw [hs] at h
      obtain ⟨rfl, hr⟩ := onFrame_next h
      refine ⟨wf_of_rank (by omega), by omega, fun e => ?_⟩
      rw [frameHeaderSize] at e
      omega
  | partialHeader leftovers len =>
    simp only [hst] at h
    rw [hst] at hwf
    obtain ⟨h1, h7⟩ := hwf
    rw [if_neg (by rw [frameHeaderSize]; omega)] at h
    cases hs : slice? data pos (pos + (frameHeaderSize - len)) with
    | none =>
      rw [hs] at h
      obtain ⟨x, -, hx⟩ := bind_eq_ok.mp h
      cases hx
    | some s =>
      rw [hs] at h
      obtain ⟨b, -, hb⟩ := bind_eq_ok.mp h
      obtain ⟨rfl, hr⟩ := onFrame_next hb
      obtain ⟨-, -, hlen⟩ := slice?_eq_some hs
      rw [frameHeaderSize] at hlen
      refine ⟨wf_of_rank (by omega), by omega, fun e => ?_⟩
      omega
  | data remaining =>
    simp only [hst] at h
    rcases hw : fs.writeAll env r.file pos ((data.drop pos).take (min remaining (data.length - pos)))
      with ⟨_ | _, file, fs1⟩
    · rw [hw] at h
      obtain ⟨x, -, hx⟩ := bind_eq_ok.mp h
      cases hx
    · rw [hw] at h
      simp only [Except.ok.injEq, Pass.next.injEq] at h
      obtain ⟨rfl, rfl, -⟩ := h
      refine ⟨?_, by omega, fun e => ?_⟩
      · simp only
        split
        · trivial
        · trivial
      · have h0 : remaining = 0 := by omega
        subst h0
        refine ⟨rfl, ?_⟩
        simp only [Nat.zero_min, Nat.sub_self, Nat.lt_irrefl, gt_iff_lt, if_false]

/-- A FAIL text of the push is too long for its length word. -/
def TextTooLong (env : Env) (r : FileReceiver) : Prop :=
  ∃ what e, Failed env what e ∧ 2 ^ 32 ≤ (what ++ r.path.display ++ ascii ": " ++ e).length

theorem failResponse_error {msg : Bytes} {p : Panic} (h : failResponse msg = .error p) :
    p = .lengthOverflow ∧ 2 ^ 32 ≤ msg.length := by
  unfold failResponse at h
  by_cases hlen : msg.length < 2 ^ 32
  · rw [lenU32_of_lt hlen] at h
    cases h
  · rw [lenU32, if_neg hlen] at h
    cases h
    exact ⟨rfl, Nat.not_lt.mp hlen⟩

theorem onFrame_error {h : Bytes} {p : Panic} (he : r.onFrame env fs pos h = .error p) :
    p = .lengthOverflow ∧ TextTooLong env r := by
  unfold onFrame at he
  cases hf : parseSyncFrameHeader h with
  | none =>
    rw [hf] at he
    obtain ⟨-, hlong⟩ := failResponse_error ((bind_eq_error.mp he).resolve_right (by simp))
    exact absurd hlong (by decide)
  | some x =>
    obtain ⟨⟨id, len⟩, t⟩ := x
    rw [hf] at he
    cases id with
    | data => cases he
    | done =>
      have hfin : r.finalize env fs len = .error p :=
        (bind_eq_error.mp he).resolve_right (by simp)
      unfold finalize at hfin
      cases hperm : env.fail .setPermissions with
      | some e =>
        have hset : fs.setPermissions env r.file r.mode = .error e := by
          unfold Fs.setPermissions
          rw [hperm]
        rw [hset] at hfin
        obtain ⟨rfl, hlong⟩ := failResponse_error ((bind_eq_error.mp hfin).resolve_right (by simp))
        exact ⟨rfl, _, e, .inr ⟨rfl, hperm⟩, hlong⟩
      | none =>
        obtain ⟨fs1, hset⟩ : ∃ fs1, fs.setPermissions env r.file r.mode = .ok fs1 := by
          unfold Fs.setPermissions
          rw [hperm]
          exact ⟨_, rfl⟩
        rw [hset] at hfin
        simp only at hfin
        split at hfin
        · cases hfin
        · cases hfin

theorem receiveIter_error {p : Panic} (hwf : r.state.Wf)
    (h : receiveIter env data pos r fs = .error p) : p = .lengthOverflow ∧ TextTooLong env r := by
  unfold receiveIter at h
  cases hst : r.state with
  | header =>
    simp only [hst] at h
    by_cases hle : pos + frameHeaderSize ≤ data.length
    · rw [slice?_of_le hle] at h
      exact onFrame_error h
    · rw [slice?_of_gt (by omega)] at h
      have h8 : 0 + (data.drop pos).length ≤ 8 := by
        rw [frameHeaderSize] at hle
        rw [List.length_drop]
        omega
      obtain ⟨buf, hb, -⟩ := HeaderBuf.copy_of_le .zero h8
      simp only [hb] at h
      cases h
  | partialHeader leftovers len =>
    simp only [hst] at h
    rw [hst] at hwf
    obtain ⟨h1, h7⟩ := hwf
    rw [if_neg (by rw [frameHeaderSize]; omega)] at h
    have hcopy : ∀ k, k ≤ 8 - len →
        ∃ c, leftovers.copy len ((data.drop pos).take k) = .ok c := by
      intro k hk
      have h8 : len + ((data.drop pos).take k).length ≤ 8 := by
        rw [List.length_take]
        omega
      obtain ⟨c, hc, -⟩ := HeaderBuf.copy_of_le leftovers h8
      exact ⟨c, hc⟩
    by_cases hle : pos + (frameHeaderSize - len) ≤ data.length
    · rw [slice?_of_le hle] at h
      obtain ⟨c, hc⟩ := hcopy (frameHeaderSize - len) (Nat.le_refl _)
      simp only [hc] at h
      exact onFrame_error h
    · rw [slice?_of_gt (by omega)] at h
      obtain ⟨c, hc⟩ := hcopy (min (frameHeaderSize - len) (data.length - pos)) (Nat.min_le_left ..)
      simp only [hc] at h
      cases h
  | data remaining =>
    simp only [hst] at h
    generalize (data.drop pos).take (min remaining (data.length - pos)) = chunk at h
    rcases hw : fs.writeAll env r.file pos chunk with ⟨e | _, file, fs1⟩
    · rw [hw] at h
      obtain ⟨rfl, hlong⟩ := failResponse_error ((bind_eq_error.mp h).resolve_right (by simp))
      exact ⟨rfl, _, e, .inl ⟨rfl, pos, (Fs.writeAll_fails hw).2⟩, hlong⟩
    · rw [hw] at h
      cases h

/-! ## The loop -/

/-- What holds at every head of the loop, and how many passes it took to get there. -/
theorem Passes.spec {n : Nat} (hwf : r.state.Wf) (h : Passes env data r fs n pos r' fs') :
    pos ≤ data.length ∧ r'.state.Wf ∧ r'.path = r.path ∧
      n + (3 * (data.length - pos) + rank r'.state) ≤ 3 * data.length + rank r.state := by
  induction h with
  | start => exact ⟨Nat.zero_le _, hwf, rfl, by omega⟩
  | @pass n pos pos' r1 r2 fs1 fs2 _ hpos hp ih =>
    obtain ⟨-, hwf1, hpath, hn⟩ := ih
    obtain ⟨hle, hdec⟩ := receiveIter_decreases hpos hp
    refine ⟨hle, (receiveIter_next hwf1 hpos hp).1, ?_, by omega⟩
    rcases receiveIter_split hp with ⟨-, hkeep, -⟩ | ⟨_, _, _, he, -⟩
    · exact hkeep.trans hpath
    · cases he

theorem Passes.error {n : Nat} {p : Panic} {r0 : FileReceiver} {fs0 : Fs}
    (hn : Passes env data r0 fs0 n pos r fs) (h : receiveFrom env data pos r fs = .error p) :
    ∃ n1 pos1 r1 fs1, Passes env data r0 fs0 n1 pos1 r1 fs1 ∧
      receiveIter env data pos1 r1 fs1 = .error p := by
  induction hm : 3 * (data.length - pos) + rank r.state using Nat.strong_induction_on
    generalizing n pos r fs with
  | _ m ih =>
    subst hm
    by_cases hlt : pos < data.length
    · cases hp : receiveIter env data pos r fs with
      | error e =>
        rw [receiveFrom_error hlt hp] at h
        cases h
        exact ⟨n, pos, r, fs, hn, hp⟩
      | ok x =>
        cases x with
        | ret res r1 fs1 =>
          rw [receiveFrom_ret hlt hp] at h
          cases h
        | next pos1 r1 fs1 =>
          rw [receiveFrom_next hlt hp] at h
          exact ih _ (receiveIter_decreases hlt hp).2 (hn.pass hlt hp) h rfl
    · rw [receiveFrom_end (by omega)] at h
      cases h

theorem receive_returns (hwf : r.state.Wf) :
    (∃ x, r.receive env data fs = .ok x) ∨
      (r.receive env data fs = .error .lengthOverflow ∧ TextTooLong env r) := by
  cases hres : r.receive env data fs with
  | ok x => exact .inl ⟨x, rfl⟩
  | error p =>
    obtain ⟨n, pos, r1, fs1, hn, he⟩ := Passes.error .start hres
    obtain ⟨-, hwf1, hpath, -⟩ := hn.spec hwf
    obtain ⟨rfl, what, e, hcall, hlong⟩ := receiveIter_error hwf1 he
    rw [hpath] at hlong
    exact .inr ⟨rfl, what, e, hcall, hlong⟩

theorem receive_continue (hwf : r.state.Wf) (h : r.receive env data fs = .ok (.continue, r', fs')) :
    r'.state.Wf ∧ r'.path = r.path ∧ r'.state.abs = (pushMachine.run r.state.abs data).1 := by
  rcases receiveFrom_split h with hp | hb
  · obtain ⟨fs0, fs1, hwf', habs, -, hr⟩ := receive_fed hwf hp
    refine ⟨hwf', ?_, habs⟩
    rw [hr]
    rfl
  · obtain ⟨-, -, hc, -, -⟩ := hb
    cases hc

/-- **The receive loop ends.** At every head of the loop the position is inside
the payload, the state is well-formed and the pass is in range; a pass lowers
three times the unread bytes plus the rank of the state, and one that does not
advance leaves an empty DATA frame. So there are at most `3 * data.len() + 2`
passes, and `receive` returns, unless a FAIL text does not fit its length word.
After `Continue` the state is the byte machine's after all of the payload. -/
theorem receive_total (env : Env) (data : Bytes) (r : FileReceiver) (fs : Fs) (hwf : r.state.Wf) :
    (∀ n pos r1 fs1, Passes env data r fs n pos r1 fs1 →
      n ≤ 3 * data.length + 2 ∧ pos ≤ data.length ∧ r1.state.Wf ∧ InRange data pos r1.state ∧
      receiveIter env data pos r1 fs1 ≠ .error .sliceRange ∧
      ∀ pos' r2 fs2, pos < data.length →
        receiveIter env data pos r1 fs1 = .ok (.next pos' r2 fs2) →
        pos ≤ pos' ∧ (pos' = pos → r1.state = .data 0 ∧ r2.state = .header) ∧
        3 * (data.length - pos') + rank r2.state < 3 * (data.length - pos) + rank r1.state) ∧
    ((∃ res r' fs', r.receive env data fs = .ok (res, r', fs') ∧
        (res = .continue → r'.state.Wf ∧ r'.state.abs = (pushMachine.run r.state.abs data).1)) ∨
      (r.receive env data fs = .error .lengthOverflow ∧ TextTooLong env r)) := by
  refine ⟨fun n pos r1 fs1 hn => ?_, ?_⟩
  · obtain ⟨hle, hwf1, -, hcount⟩ := hn.spec hwf
    have hrank : rank r.state ≤ 2 := by cases r.state <;> simp [rank]
    refine ⟨by omega, hle, hwf1, inRange_of_wf hwf1 hle, fun he => ?_, fun pos' r2 fs2 hlt hp => ?_⟩
    · cases (receiveIter_error hwf1 he).1
    · obtain ⟨-, hge, hstay⟩ := receiveIter_next hwf1 hlt hp
      exact ⟨hge, hstay, (receiveIter_decreases hlt hp).2⟩
  · rcases receive_returns hwf with ⟨⟨res, r', fs'⟩, hres⟩ | hlong
    · refine .inl ⟨res, r', fs', hres, ?_⟩
      rintro rfl
      obtain ⟨hwf', -, habs⟩ := receive_continue hwf hres
      exact ⟨hwf', habs⟩
    · exact .inr hlong

/-- A push that stands at the end of an empty DATA frame. -/
def emptyFrame : FileReceiver := ⟨⟨0, []⟩, ascii "/f", 0o644, .data 0⟩

theorem receive_total_empty_frame : emptyFrame.state.Wf ∧
    Passes {} [68, 65] emptyFrame .empty 1 0 { emptyFrame with state := .header } .empty ∧
    InRange [68, 65] 0 .header ∧
    ∃ res r' fs', emptyFrame.receive {} [68, 65] .empty = .ok (res, r', fs') ∧
      (res = .continue → r'.state.Wf ∧ r'.state.abs = .header [68, 65]) := by
  have hpass : Passes {} [68, 65] emptyFrame .empty 1 0 { emptyFrame with state := .header } .empty :=
    .pass .start (by decide) rfl
  obtain ⟨hall, hend⟩ := receive_total {} [68, 65] emptyFrame .empty trivial
  refine ⟨trivial, hpass, (hall _ _ _ _ hpass).2.2.2.1, hend.resolve_right ?_⟩
  rintro ⟨-, what, e, hcall, -⟩
  rcases hcall with ⟨-, pos, h⟩ | ⟨-, h⟩
  · cases h
  · cases h

end FileReceiver

end Adibi
