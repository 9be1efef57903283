import Adibi.Sync.Outcome

/-!
# What the sync service answers

The answer to a payload, as far as its length goes. What a push is answered does
not depend on the files (`receiveFrom_files`), so the decoder says it, or the error
text of the call that failed (`receive_answer`).
-/

namespace Adibi

open Lib

/-- Two ends of a pass that differ in the files at most. -/
def Pass.Alike : Pass → Pass → Prop
  | .next pos r _, .next pos0 r0 _ => pos0 = pos ∧ r0 = r
  | .ret res r _, .ret res0 r0 _ => res0 = res ∧ r0 = r
  | _, _ => False

namespace FileReceiver

variable {env : Env} {data : Bytes} {pos : Nat} {r r' : FileReceiver} {fs fs' : Fs}
  {res : FileReceiverResult}

theorem finalize_files {mtime : UInt32} (h : r.finalize env fs mtime = .ok (res, fs')) (fs0 : Fs) :
    ∃ fs0', r.finalize env fs0 mtime = .ok (res, fs0') := by
  unfold finalize Fs.setPermissions Fs.setTimes at h ⊢
  cases hperm : env.fail .setPermissions with
  | some e =>
    simp only [hperm] at h ⊢
    obtain ⟨response, hr, h1⟩ := bind_eq_ok.mp h
    cases h1
    rw [hr]
    exact ⟨_, rfl⟩
  | none =>
    simp only [hperm] at h ⊢
    cases htime : env.fail .setTimes with
    | some e =>
      simp only [htime] at h
      cases h
      exact ⟨_, rfl⟩
    | none =>
      simp only [htime] at h
      cases h
      exact ⟨_, rfl⟩

theorem onFrame_files {h : Bytes} {p : Pass} (hp : r.onFrame env fs pos h = .ok p) (fs0 : Fs) :
    ∃ p0, r.onFrame env fs0 pos h = .ok p0 ∧ p.Alike p0 := by
  unfold onFrame at hp ⊢
  cases hf : parseSyncFrameHeader h with
  | none =>
    rw [hf] at hp
    obtain ⟨response, hr, h1⟩ := bind_eq_ok.mp hp
    cases h1
    simp only [badFrame, hr]
    exact ⟨_, rfl, rfl, rfl⟩
  | some x =>
    obtain ⟨⟨id, len⟩, t⟩ := x
    rw [hf] at hp
    cases id with
    | data =>
      cases hp
      exact ⟨_, rfl, rfl, rfl⟩
    | done =>
      obtain ⟨⟨result, fs1⟩, hfin, h1⟩ := bind_eq_ok.mp hp
      cases h1
      obtain ⟨fs0', h0⟩ := finalize_files hfin fs0
      simp only [onHeader, h0]
      exact ⟨_, rfl, rfl, rfl⟩

theorem receiveIter_files {p : Pass} (hp : receiveIter env data pos r fs = .ok p) (fs0 : Fs) :
    ∃ p0, receiveIter env data pos r fs0 = .ok p0 ∧ p.Alike p0 := by
  unfold receiveIter at hp ⊢
  cases hst : r.state with
  | header =>
    simp only [hst] at hp ⊢
    split at hp
    · obtain ⟨buf, hb, h1⟩ := bind_eq_ok.mp hp
      cases h1
      rw [hb]
      exact ⟨_, rfl, rfl, rfl⟩
    · exact onFrame_files hp fs0
  | partialHeader leftovers len =>
    simp only [hst] at hp ⊢
    split at hp
    · cases hp
    · rename_i hlen
      rw [if_neg hlen]
      split at hp
      · obtain ⟨buf, hb, h1⟩ := bind_eq_ok.mp hp
        cases h1
        rw [hb]
        exact ⟨_, rfl, rfl, rfl⟩
      · obtain ⟨buf, hb, h1⟩ := bind_eq_ok.mp hp
        rw [hb]
        exact onFrame_files h1 fs0
  | data remaining =>
    simp only [hst] at hp ⊢
    generalize (data.drop pos).take (min remaining (data.length - pos)) = chunk at hp ⊢
    by_cases hc : chunk = []
    · subst hc
      rw [Fs.writeAll_nil] at hp ⊢
      cases hp
      exact ⟨_, rfl, rfl, rfl⟩
    · cases hf : env.fail (.writeAll pos) with
      | none =>
        rw [Fs.writeAll_ok hf hc] at hp ⊢
        cases hp
        exact ⟨_, rfl, rfl, rfl⟩
      | some e =>
        rw [Fs.writeAll_error hf hc] at hp ⊢
        obtain ⟨response, hr, h1⟩ := bind_eq_ok.mp hp
        cases h1
        simp only
        rw [hr]
        exact ⟨_, rfl, rfl, rfl⟩

/-- **What a push is answered does not depend on the files.** -/
theorem receiveFrom_files (h : receiveFrom env data pos r fs = .ok (res, r', fs')) (fs0 : Fs) :
    ∃ fs0', receiveFrom env data pos r fs0 = .ok (res, r', fs0') := by
  induction hm : 3 * (data.length - pos) + rank r.state using Nat.strong_induction_on
    generalizing pos r fs fs0 with
  | _ m ih =>
    subst hm
    by_cases hlt : pos < data.length
    · rcases receiveFrom_cases hlt h with hp | ⟨pos1, r1, fs1, hp, h1⟩
      · obtain ⟨p0, hp0, hal⟩ := receiveIter_files hp fs0
        cases p0 with
        | next pos0 r0 fs0' => exact hal.elim
        | ret res0 r0 fs0' =>
          obtain ⟨rfl, rfl⟩ := hal
          exact ⟨fs0', receiveFrom_ret hlt hp0⟩
      · obtain ⟨p0, hp0, hal⟩ := receiveIter_files hp fs0
        cases p0 with
        | ret res0 r0 fs0' => exact hal.elim
        | next pos0 r0 fs0' =>
          obtain ⟨rfl, rfl⟩ := hal
          obtain ⟨fs2, h2⟩ := ih _ (receiveIter_decreases hlt hp).2 h1 fs0' rfl
          exact ⟨fs2, (receiveFrom_next hlt hp0).trans h2⟩
    · have hge : data.length ≤ pos := Nat.not_lt.mp hlt
      cases (receiveFrom_end hge).symm.trans h
      exact ⟨fs0, receiveFrom_end hge⟩

/-- The verdict a payload brings. -/
def verdict (r : FileReceiver) (bytes : Bytes) : Verdict :=
  (pushMachine.run r.state.abs bytes).1.verdict

/-- What a payload of a push comes to, for the receiver's state and its answer. -/
def Answered (env : Env) (r : FileReceiver) (bytes : Bytes) (r' : FileReceiver) :
    FileReceiverResult → Prop
  | .continue => r'.state.Wf
  | .done response => (response = okayResponse ∧ ∃ mtime, r.verdict bytes = .okay mtime) ∨
      (failResponse (ascii "invalid sync frame during send") = .ok response ∧
        r.verdict bytes = .fail) ∨
      ∃ what e, Failed env what e ∧
        failResponse (what ++ r.path.display ++ ascii ": " ++ e) = .ok response

/-- A payload no call of which failed, run on files that hold what the handle has moved. -/
theorem receive_fed (hwf : r.state.Wf) (h : receiveFrom env.pushing data 0 r fs = .ok (res, r', fs')) :
    ∃ fs0 fs1, Fed env.pushing r fs0 (pushMachine.run r.state.abs data) res r' fs1 := by
  let fs0 := fs.setInode r.file.ino { fs.inodes r.file.ino with content := r.file.moved }
  have hend : r.AtEnd fs0 := by
    simp [AtEnd, fs0]
  obtain ⟨fs0', h0⟩ := receiveFrom_files h fs0
  obtain ⟨res1, r1, fs1, h1, hfed⟩ := receive_sim env.pushing_ok data hwf hend
  cases h1.symm.trans h0
  exact ⟨fs0, fs0', hfed⟩

/-- **What a push is answered**: what the decoder says, or the call that failed. -/
theorem receive_answer (hwf : r.state.Wf) (h : r.receive env data fs = .ok (res, r', fs')) :
    Answered env r data r' res := by
  rcases receiveFrom_split h with hp | hb
  · obtain ⟨fs0, fs1, hfed⟩ := receive_fed hwf hp
    cases res with
    | «continue» => exact hfed.1
    | done response =>
      obtain ⟨v, hstop, hset⟩ := hfed
      have hv : r.verdict data = v := by
        unfold verdict
        rw [hstop]
        rfl
      cases v with
      | pending => exact hset.elim
      | okay mtime => exact .inl ⟨hset.1, mtime, hv⟩
      | fail => exact .inr (.inl ⟨hset.1, hv⟩)
  · obtain ⟨hcall, hresp, rfl, -, -⟩ := hb
    exact .inr (.inr ⟨_, _, hcall, hresp⟩)

/-- Every answer this payload of a push can get has at most `n` bytes. -/
structure AnswerFits (n : Nat) (env : Env) (r : FileReceiver) (bytes : Bytes) : Prop where
  okay : ∀ mtime, r.verdict bytes = .okay mtime → 8 ≤ n
  bad : r.verdict bytes = .fail → 8 + (ascii "invalid sync frame during send").length ≤ n
  broke : ∀ what e, Failed env what e → bytes ≠ [] →
    8 + (what ++ r.path.display ++ ascii ": " ++ e).length ≤ n

theorem AnswerFits.done {n : Nat} {response : SyncResponse} (hf : r.AnswerFits n env data)
    (hwf : r.state.Wf) (h : r.receive env data fs = .ok (.done response, r', fs')) :
    8 + response.2.length ≤ n := by
  rcases receive_answer hwf h with ⟨rfl, mtime, hv⟩ | ⟨hresp, hv⟩ | ⟨what, e, hcall, hresp⟩
  · exact hf.okay mtime hv
  · rw [(failResponse_ok hresp).2.2]
    exact hf.bad hv
  · rw [(failResponse_ok hresp).2.2]
    refine hf.broke what e hcall ?_
    rintro rfl
    cases (receiveFrom_end (Nat.le_refl _)).symm.trans h

/-! ## What ends a push -/

end FileReceiver

/-- A DATA frame's bytes, or what a payload brings of them, start at byte `k`. -/
def PushState.DataAt (d : PushState) (bytes : Bytes) (k : Nat) : Prop :=
  k < bytes.length ∧ (pushMachine.run d (bytes.take k)).1.inBody = true ∧
    (k = 0 ∨ (pushMachine.run d (bytes.take (k - 1))).1.inBody = false)

instance (d : PushState) (bytes : Bytes) (k : Nat) : Decidable (d.DataAt bytes k) :=
  inferInstanceAs (Decidable (_ ∧ _))

theorem PushState.DataAt.shift {d d' : PushState} {bytes : Bytes} {n k : Nat}
    (h : d'.DataAt (bytes.drop n) k) (hrun : (pushMachine.run d (bytes.take n)).1 = d')
    (hstart : n = 0 ∨ (d'.inBody = true → (pushMachine.run d (bytes.take (n - 1))).1.inBody = false)) :
    d.DataAt bytes (n + k) := by
  obtain ⟨hlt, hbody, hbefore⟩ := h
  rw [List.length_drop] at hlt
  have htake : ∀ j, (pushMachine.run d (bytes.take (n + j))).1 =
      (pushMachine.run d' ((bytes.drop n).take j)).1 := by
    intro j
    rw [List.take_add, Mealy.run_append, hrun]
  refine ⟨by omega, by rw [htake]; exact hbody, ?_⟩
  rcases Nat.eq_zero_or_pos k with rfl | hk
  · rcases hstart with rfl | hstart
    · exact .inl rfl
    · exact .inr (hstart hbody)
  · rcases hbefore with rfl | hbefore
    · exact absurd hk (Nat.lt_irrefl 0)
    · rw [Nat.add_sub_assoc hk, htake]
      exact .inr hbefore

namespace FileReceiver

variable {env : Env} {data : Bytes} {pos : Nat} {r r' : FileReceiver} {fs fs' : Fs}

/-- The bytes end the push: they bring DONE or a frame of another kind in full, or file
data whose write fails. -/
def ends (env : Env) (r : FileReceiver) (bytes : Bytes) : Bool :=
  decide (r.verdict bytes ≠ .pending) ||
    decide (∃ k < bytes.length, r.state.abs.DataAt bytes k ∧ (env.fail (.writeAll k)).isSome)

/-- What `ends` says, for the rest of a payload from `pos` on. -/
def EndsFrom (env : Env) (r : FileReceiver) (data : Bytes) (pos : Nat) : Prop :=
  r.verdict (data.drop pos) ≠ .pending ∨
    ∃ k, r.state.abs.DataAt (data.drop pos) k ∧ (env.fail (.writeAll (pos + k))).isSome

/-- Where a header is complete, `n` bytes of it here. -/
theorem run_headerPass {got : Bytes} {n : Nat} (habs : r.state.abs = .header got) (hn : 0 < n)
    (hgot : got.length + n = 8) (hle : pos + n ≤ data.length) :
    (pushMachine.run r.state.abs ((data.drop pos).take n)).1 =
        .afterHeader (got ++ (data.drop pos).take n) ∧
      (pushMachine.run r.state.abs ((data.drop pos).take (n - 1))).1.inBody = false := by
  have hlen : ∀ m ≤ n, ((data.drop pos).take m).length = m := by
    intro m hm
    rw [List.length_take, List.length_drop]
    omega
  have hne : (data.drop pos).take n ≠ [] := by
    intro he
    have := hlen n (Nat.le_refl n)
    rw [he] at this
    exact absurd this (Nat.ne_of_lt hn)
  rw [habs]
  refine ⟨?_, ?_⟩
  · rw [run_header_eq hne (by rw [hlen n (Nat.le_refl n)]; exact hgot)]
  · rw [run_header_lt (by rw [hlen (n - 1) (Nat.sub_le ..)]; omega)]
    rfl

theorem onFrame_after {h : Bytes} {p : Pass} (hp : r.onFrame env fs pos h = .ok p) :
    match p with
    | .next _ r' _ => r'.state.Wf ∧ r'.state.abs = .afterHeader h
    | .ret _ _ _ => (PushState.afterHeader h).verdict ≠ .pending := by
  unfold onFrame at hp
  unfold PushState.afterHeader
  cases hf : parseSyncFrameHeader h with
  | none =>
    rw [hf] at hp
    obtain ⟨x, -, hx⟩ := bind_eq_ok.mp hp
    cases hx
    exact Verdict.noConfusion
  | some x =>
    obtain ⟨⟨id, len⟩, t⟩ := x
    rw [hf] at hp
    cases id with
    | data =>
      cases hp
      exact ⟨trivial, rfl⟩
    | done =>
      obtain ⟨x, -, hx⟩ := bind_eq_ok.mp hp
      cases hx
      exact Verdict.noConfusion

/-- Where a pass over `n` bytes leads: the machine is where the receiver is, and no DATA
frame is under way unless the payload is used up. -/
def Passed (data : Bytes) (pos : Nat) (r : FileReceiver) (pos' : Nat) (r' : FileReceiver) : Prop :=
  ∃ n, pos' = pos + n ∧ r'.state.Wf ∧
    (pushMachine.run r.state.abs ((data.drop pos).take n)).1 = r'.state.abs ∧
    (pos' < data.length → n = 0 ∨ (r'.state.abs.inBody = true →
      (pushMachine.run r.state.abs ((data.drop pos).take (n - 1))).1.inBody = false))

theorem headerPass_ends {got : Bytes} {n : Nat} {p : Pass} (habs : r.state.abs = .header got)
    (hn : 0 < n) (hgot : got.length + n = 8) (hle : pos + n ≤ data.length)
    (hp : r.onFrame env fs (pos + n) (got ++ (data.drop pos).take n) = .ok p) :
    match p with
    | .next pos' r' _ => Passed data pos r pos' r'
    | .ret _ _ _ => r.EndsFrom env data pos := by
  obtain ⟨hrun, hbefore⟩ := run_headerPass habs hn hgot hle
  have hafter := onFrame_after hp
  cases p with
  | next pos' r' fs' =>
    obtain ⟨rfl, -⟩ := onFrame_next hp
    exact ⟨n, rfl, hafter.1, hrun.trans hafter.2.symm, fun _ => .inr fun _ => hbefore⟩
  | ret res r' fs' =>
    refine .inl ?_
    unfold verdict
    rw [← List.take_append_drop n (data.drop pos), Mealy.run_append, hrun]
    generalize PushState.afterHeader (got ++ (data.drop pos).take n) = d at hafter
    cases d with
    | stop v =>
      rw [run_stop]
      exact hafter
    | header _ => exact absurd rfl hafter
    | body _ => exact absurd rfl hafter

/-- **A pass goes on, or what it read ends the push.** -/
theorem receiveIter_ends {p : Pass} (hwf : r.state.Wf) (hpos : pos < data.length)
    (hp : receiveIter env data pos r fs = .ok p) :
    match p with
    | .next pos' r' _ => Passed data pos r pos' r'
    | .ret .continue _ _ => True
    | .ret (.done _) _ _ => r.EndsFrom env data pos := by
  unfold receiveIter at hp
  cases hst : r.state with
  | header =>
    simp only [hst] at hp
    rcases Nat.lt_or_ge data.length (pos + frameHeaderSize) with hlt | hge
    · rw [slice?_of_gt hlt] at hp
      obtain ⟨x, -, hx⟩ := bind_eq_ok.mp hp
      cases hx
      trivial
    · rw [slice?_of_le hge] at hp
      have habs : r.state.abs = .header [] := by
        rw [hst]
        rfl
      have hpass := headerPass_ends habs (by decide) rfl hge hp
      cases p with
      | next pos' r' fs' => exact hpass
      | ret res r' fs' =>
        cases res with
        | «continue» => trivial
        | done response => exact hpass
  | partialHeader leftovers len =>
    simp only [hst] at hp
    rw [hst] at hwf
    obtain ⟨h1, h7⟩ := hwf
    rw [if_neg (by rw [frameHeaderSize]; omega)] at hp
    rcases Nat.lt_or_ge data.length (pos + (frameHeaderSize - len)) with hlt | hge
    · rw [slice?_of_gt hlt] at hp
      obtain ⟨x, -, hx⟩ := bind_eq_ok.mp hp
      cases hx
      trivial
    · rw [slice?_of_le hge] at hp
      obtain ⟨buf, hb, h2⟩ := bind_eq_ok.mp hp
      have htake : (leftovers.bytes.take len).length = len := by
        rw [List.length_take, leftovers.length_eq, frameHeaderSize]
        omega
      have hsl : ((data.drop pos).take (frameHeaderSize - len)).length = frameHeaderSize - len := by
        rw [List.length_take, List.length_drop]
        omega
      obtain ⟨buf', hb', hfull⟩ := leftovers.copy_fills
        (show len + ((data.drop pos).take (frameHeaderSize - len)).length = 8 by
          rw [hsl, frameHeaderSize]
          omega)
      cases hb.symm.trans hb'
      rw [hfull, hsl] at h2
      have habs : r.state.abs = .header (leftovers.bytes.take len) := by
        rw [hst]
        rfl
      have hpass := headerPass_ends habs
        (by rw [frameHeaderSize]; omega) (by rw [htake, frameHeaderSize]; omega) hge h2
      cases p with
      | next pos' r' fs' => exact hpass
      | ret res r' fs' =>
        cases res with
        | «continue» => trivial
        | done response => exact hpass
  | data remaining =>
    simp only [hst] at hp
    have hrest : (data.drop pos).length = data.length - pos := List.length_drop
    generalize hto : min remaining (data.length - pos) = toWrite at hp
    have hlen : ((data.drop pos).take toWrite).length = toWrite := by
      rw [List.length_take]
      omega
    have habs : r.state.abs = .enter remaining := by rw [hst]; rfl
    rcases hw : fs.writeAll env r.file pos ((data.drop pos).take toWrite) with ⟨_ | _, file, fs1⟩
    · rw [hw] at hp
      obtain ⟨response, -, h1⟩ := bind_eq_ok.mp hp
      cases h1
      obtain ⟨hne, hfail⟩ := Fs.writeAll_fails hw
      have hzero : remaining ≠ 0 := by
        rintro rfl
        rw [Nat.zero_min] at hto
        rw [← hto] at hne
        exact hne rfl
      refine .inr ⟨0, ⟨by omega, ?_, .inl rfl⟩, Option.isSome_of_eq_some hfail⟩
      rw [habs, PushState.enter, if_neg hzero]
      rfl
    · rw [hw] at hp
      cases hp
      refine ⟨toWrite, rfl, ?_, ?_, fun hmore => .inr fun hbody => ?_⟩
      · simp only
        split
        · trivial
        · trivial
      · rw [habs, run_enter (by omega), hlen]
        simp only
        split
        · rfl
        · rw [RecvState.abs, PushState.enter, if_pos (by omega)]
      · rw [if_neg (by omega)] at hbody
        cases hbody

/-- **A push is answered only where it ends.** -/
theorem receiveFrom_ends {response : SyncResponse} (hwf : r.state.Wf)
    (h : receiveFrom env data pos r fs = .ok (.done response, r', fs')) : r.EndsFrom env data pos := by
  induction hm : 3 * (data.length - pos) + rank r.state using Nat.strong_induction_on
    generalizing pos r fs with
  | _ m ih =>
    subst hm
    by_cases hlt : pos < data.length
    · rcases receiveFrom_cases hlt h with hp | ⟨pos1, r1, fs1, hp, h1⟩
      · exact receiveIter_ends hwf hlt hp
      · obtain ⟨n, rfl, hwf1, hrun, hstart⟩ := receiveIter_ends hwf hlt hp
        rcases ih _ (receiveIter_decreases hlt hp).2 hwf1 h1 rfl with hv | ⟨k, hk, hfail⟩
        · refine .inl ?_
          rw [verdict, ← List.take_append_drop n (data.drop pos), Mealy.run_append, hrun,
            List.drop_drop]
          exact hv
        · rw [← List.drop_drop] at hk
          have hmore : pos + n < data.length := by
            have := hk.1
            rw [List.length_drop, List.length_drop] at this
            omega
          refine .inr ⟨n + k, hk.shift hrun (hstart hmore), ?_⟩
          rw [← Nat.add_assoc]
          exact hfail
    · cases (receiveFrom_end (Nat.not_lt.mp hlt)).symm.trans h

theorem receive_ends {response : SyncResponse} (hwf : r.state.Wf)
    (h : r.receive env data fs = .ok (.done response, r', fs')) : r.ends env data = true := by
  rw [ends, Bool.or_eq_true, decide_eq_true_eq, decide_eq_true_eq]
  rcases receiveFrom_ends hwf h with hv | ⟨k, hk, hfail⟩
  · exact .inl hv
  · rw [Nat.zero_add] at hfail
    exact .inr ⟨k, hk.1, hk, hfail⟩

end FileReceiver

/-! ## Pulls -/

/-- The length of the frame that the next read of the file makes. -/
def FileSender.frameLength (env : Env) (fs : Fs) (s : FileSender) : Nat :=
  match fs.read env s.file payloadSizeMaxBytes with
  | .ok (chunk, _) => 8 + chunk.length
  | .error e => 8 + (ascii "read error: " ++ e).length

theorem FileSender.nextFrame_length {env : Env} {fs : Fs} {s s' : FileSender}
    {response : SyncResponse} (h : s.nextFrame env fs = .ok (some response, s')) :
    s.done = false ∧ 8 + response.2.length = s.frameLength env fs := by
  unfold nextFrame at h
  unfold frameLength
  split at h
  · cases h
  · rename_i hdone
    refine ⟨by simpa using hdone, ?_⟩
    split at h
    · rename_i file hr
      cases h
      rw [hr]
      rfl
    · rename_i chunk file _ hr
      obtain ⟨x, hx, h1⟩ := bind_eq_ok.mp h
      obtain ⟨k, -, h2⟩ := bind_eq_ok.mp hx
      cases h2
      cases h1
      rw [hr]
    · rename_i e hr
      obtain ⟨x, hx, h1⟩ := bind_eq_ok.mp h
      cases h1
      rw [hr, (failResponse_ok hx).2.2]

/-! ## Requests -/

namespace SyncService

variable {env : Env} {fs fs' : Fs} {s s' : SyncService} {payload : Bytes} {result : SyncResult}

/-- Every answer this payload can get at once has at most `n` bytes; a pull sends its
first frame at once unless the stream waits for an OKAY. -/
def AnswerFits (n : Nat) (env : Env) (fs : Fs) (waiting : Bool) (s : SyncService) (payload : Bytes) :
    Prop :=
  match s.reaches env fs payload with
  | some (r, _, bytes) => r.AnswerFits n env bytes
  | none =>
    match parseSyncPacket payload with
    | none => 8 + (ascii "invalid sync request").length ≤ n
    | some (.lstatV1 _, _) => 16 ≤ n
    | some (.recvV1 path, _) =>
      match fs.open_ env path with
      | .ok file => waiting = false → (FileSender.mk file false).frameLength env fs ≤ n
      | .error e => 8 + (ascii "cannot open " ++ path.display ++ ascii ": " ++ e).length ≤ n
    | some (.sendV1 path _, _) =>
      match fs.create env path with
      | .ok _ => True
      | .error e => 8 + (ascii "cannot create " ++ path.display ++ ascii ": " ++ e).length ≤ n
    | some (.quit, _) => True

/-- What is sent for a result has at most `n` bytes. -/
def ResultFits (n : Nat) (env : Env) (fs : Fs) (waiting : Bool) (s : SyncService) : SyncResult → Prop
  | .stat _ => 16 ≤ n
  | .data _ data => 8 + data.length ≤ n
  | .continue => waiting = false → ∀ sender, s.state = .sending sender →
      sender.frameLength env fs ≤ n
  | .quit => True

theorem failResult_fits {n : Nat} {msg : Bytes} {waiting : Bool} (hn : 8 + msg.length ≤ n)
    (h : failResult msg = .ok result) : s.ResultFits n env fs waiting result := by
  obtain ⟨⟨hdr, data⟩, hx, h1⟩ := bind_eq_ok.mp h
  cases h1
  show 8 + data.length ≤ n
  rw [show data = msg from (failResponse_ok hx).2.2]
  exact hn

/-- The receiver a payload reaches is the push's in progress, or a new one. -/
theorem reaches_receiver {r : FileReceiver} {fs1 : Fs} {bytes : Bytes}
    (hr : s.reaches env fs payload = some (r, fs1, bytes)) :
    s.receiver = some r ∨ r.state = .header := by
  unfold reaches at hr
  unfold receiver
  split at hr
  · cases hr
    exact .inl rfl
  · split at hr
    · split at hr
      · cases hr
        exact .inr rfl
      · cases hr
    · cases hr

/-- **A payload's answer fits** as announced. -/
theorem handle_fits {n : Nat} {waiting : Bool} (hfits : s.AnswerFits n env fs waiting payload)
    (hwf : ∀ r, s.receiver = some r → r.state.Wf)
    (h : s.handle env fs payload = .ok (result, s', fs')) :
    s'.ResultFits n env fs' waiting result := by
  unfold AnswerFits at hfits
  cases hr : s.reaches env fs payload with
  | some x =>
    obtain ⟨r, fs1, bytes⟩ := x
    rw [hr] at hfits
    obtain ⟨res, r', hrec, hafter⟩ := handle_reaches hr h
    have hwf' : r.state.Wf := by
      rcases reaches_receiver hr with h1 | h1
      · exact hwf r h1
      · rw [h1]
        trivial
    cases res with
    | «continue» =>
      obtain ⟨rfl, hrecv⟩ := hafter
      intro _ sender hst
      unfold receiver at hrecv
      rw [hst] at hrecv
      cases hrecv
    | done response =>
      obtain ⟨rfl, -⟩ := hafter
      exact hfits.done hwf' hrec
  | none =>
    rw [hr] at hfits
    obtain ⟨rfl, hreq⟩ := requested_of_ok hr h
    cases hreq with
    | invalid hp hf =>
      simp only [hp] at hfits
      exact failResult_fits hfits hf
    | lstat hp =>
      simp only [hp] at hfits
      exact hfits
    | opened hp ho =>
      simp only [hp, ho] at hfits
      intro hw sender hst
      cases hst
      exact hfits hw
    | unopened hp ho hf =>
      simp only [hp, ho] at hfits
      exact failResult_fits hfits hf
    | uncreated hp hc hf =>
      simp only [hp, hc] at hfits
      exact failResult_fits hfits hf
    | quit _ => trivial

/-- Whether a payload is of the kind that is answered with a WRTE at once: in a push,
what ends it; else a LSTAT, what is no request, a RECV (of a file that opens only if the
stream does not wait for an OKAY), and a SEND whose file cannot be created or that brings
its own end. -/
def replies (env : Env) (fs : Fs) (waiting : Bool) (s : SyncService) (payload : Bytes) : Bool :=
  match s.reaches env fs payload with
  | some (r, _, bytes) => r.ends env bytes
  | none =>
    match parseSyncPacket payload with
    | none | some (.lstatV1 _, _) | some (.sendV1 _ _, _) => true
    | some (.recvV1 path, _) =>
      match fs.open_ env path with
      | .ok _ => !waiting
      | .error _ => true
    | some (.quit, _) => false

/-- What is sent at once for a result. -/
def Spoken (waiting : Bool) (s : SyncService) : SyncResult → Prop
  | .stat _ | .data _ _ => True
  | .continue => waiting = false ∧ ∃ sender, s.state = .sending sender
  | .quit => False

/-- **Only what is of that kind is answered.** -/
theorem handle_replies {waiting : Bool} (hwf : ∀ r, s.receiver = some r → r.state.Wf)
    (h : s.handle env fs payload = .ok (result, s', fs')) (hs : s'.Spoken waiting result) :
    s.replies env fs waiting payload = true := by
  unfold replies
  cases hr : s.reaches env fs payload with
  | some x =>
    obtain ⟨r, fs1, bytes⟩ := x
    obtain ⟨res, r', hrec, hafter⟩ := handle_reaches hr h
    have hwf' : r.state.Wf := by
      rcases reaches_receiver hr with h1 | h1
      · exact hwf r h1
      · rw [h1]
        trivial
    cases res with
    | done response => exact FileReceiver.receive_ends hwf' hrec
    | «continue» =>
      obtain ⟨rfl, hrecv⟩ := hafter
      obtain ⟨-, sender, hst⟩ := hs
      unfold receiver at hrecv
      rw [hst] at hrecv
      cases hrecv
  | none =>
    obtain ⟨rfl, hreq⟩ := requested_of_ok hr h
    cases hreq with
    | invalid hp _ => simp only [hp]
    | lstat hp => simp only [hp]
    | opened hp ho => simp only [hp, ho, hs.1, Bool.not_false]
    | unopened hp ho _ => simp only [hp, ho]
    | uncreated hp _ _ => simp only [hp]
    | quit _ => exact hs.elim

end SyncService

end Adibi
