import Adibi.Sync.Decoder
import Adibi.Sync.Service

/-!
# The receiver follows the byte machine

Under file calls that succeed, one pass of the receive loop is a run of
`pushMachine` over the bytes it consumes (`receiveIter_sim`), and a whole
payload is a run over the payload (`receiveFrom_sim`). The machine's output is
what the pass writes to the file.
-/

namespace Adibi

open Lib

/-- The file calls a push relies on succeed. -/
structure Env.PushOk (env : Env) : Prop where
  create : env.fail .create = none
  write : ∀ pos, env.fail (.writeAll pos) = none
  permissions : env.fail .setPermissions = none

/-- A split header has between one and seven bytes saved. -/
def RecvState.Wf : RecvState → Prop
  | .partialHeader _ len => 1 ≤ len ∧ len ≤ 7
  | _ => True

/-- The machine state a receiver state stands for. -/
def RecvState.abs : RecvState → PushState
  | .header => .header []
  | .partialHeader leftovers len => .header (leftovers.bytes.take len)
  | .data remaining => .enter remaining

namespace FileReceiver

/-- The handle has written the whole file. -/
def AtEnd (r : FileReceiver) (fs : Fs) : Prop := r.file.moved = (fs.inodes r.file.ino).content

/-- The receiver and file system after `out` went to the file. -/
def wrote (r : FileReceiver) (fs : Fs) (out : Bytes) : FileReceiver :=
  { r with file := (fs.put r.file out).1 }

/-- The end of a transfer: the response and file system the verdict leads to. -/
def Settled (env : Env) (r : FileReceiver) (fs : Fs) (v : Verdict) (response : SyncResponse)
    (fs' : Fs) : Prop :=
  match v with
  | .pending => False
  | .okay mtime => response = okayResponse ∧ r.finalize env fs mtime = .ok (.done response, fs')
  | .fail => failResponse (ascii "invalid sync frame during send") = .ok response ∧
      fs' = r.abort env fs

/-- What feeding bytes did, given the machine's run `t` over them. -/
def Fed (env : Env) (r : FileReceiver) (fs : Fs) (t : PushState × Bytes)
    (res : FileReceiverResult) (r' : FileReceiver) (fs' : Fs) : Prop :=
  match res with
  | .continue => r'.state.Wf ∧ r'.state.abs = t.1 ∧ fs' = (fs.put r.file t.2).2 ∧
      r' = { r.wrote fs t.2 with state := r'.state }
  | .done response => ∃ v, t.1 = .stop v ∧
      (r.wrote fs t.2).Settled env (fs.put r.file t.2).2 v response fs'

/-- What one pass did: it ran the machine over `chunk` and either moved on, or
returned with the rest of the payload unread. -/
def PassSim (env : Env) (data : Bytes) (pos : Nat) (r : FileReceiver) (fs : Fs) : Pass → Prop
  | .next pos' r' fs' => pos ≤ pos' ∧ pos' ≤ data.length ∧
      Fed env r fs (pushMachine.run r.state.abs ((data.drop pos).take (pos' - pos))) .continue r' fs'
  | .ret .continue r' fs' =>
      Fed env r fs (pushMachine.run r.state.abs (data.drop pos)) .continue r' fs'
  | .ret (.done response) r' fs' => ∃ n,
      Fed env r fs (pushMachine.run r.state.abs ((data.drop pos).take n)) (.done response) r' fs'

theorem wrote_nil {r : FileReceiver} {fs : Fs} (h : r.AtEnd fs) : r.wrote fs [] = r := by
  rw [wrote, Fs.put_nil h]

theorem onFrame_sim {env : Env} (henv : env.PushOk) {fs : Fs} {r : FileReceiver}
    (hend : r.AtEnd fs) (h : Bytes) (pos : Nat) :
    ∃ p, r.onFrame env fs pos h = .ok p ∧
      match p with
      | .next pos' r' fs' => pos' = pos ∧ Fed env r fs (PushState.afterHeader h, []) .continue r' fs'
      | .ret res r' fs' => res ≠ .continue ∧ Fed env r fs (PushState.afterHeader h, []) res r' fs' := by
  unfold onFrame PushState.afterHeader
  cases hp : parseSyncFrameHeader h with
  | none =>
    refine ⟨_, rfl, by simp, .fail, rfl, ?_⟩
    rw [wrote_nil hend, Fs.put_nil hend]
    exact ⟨rfl, rfl⟩
  | some x =>
    obtain ⟨⟨id, len⟩, t⟩ := x
    cases id with
    | data =>
      refine ⟨_, rfl, rfl, trivial, rfl, ?_, ?_⟩
      · rw [Fs.put_nil hend]
      · rw [wrote_nil hend]
    | done =>
      have hperm : ∃ fs1, fs.setPermissions env r.file r.mode = .ok fs1 := by
        unfold Fs.setPermissions
        rw [henv.permissions]
        exact ⟨_, rfl⟩
      obtain ⟨fs1, hfs1⟩ := hperm
      have hfin : ∃ fs2, r.finalize env fs len = .ok (.done okayResponse, fs2) := by
        unfold finalize
        rw [hfs1]
        simp only
        split
        · exact ⟨_, rfl⟩
        · exact ⟨_, rfl⟩
      obtain ⟨fs2, hfs2⟩ := hfin
      refine ⟨.ret (.done okayResponse) r fs2, ?_, by simp, .okay len, rfl, ?_⟩
      · simp only [onHeader, hfs2]; rfl
      · rw [wrote_nil hend, Fs.put_nil hend]
        exact ⟨rfl, hfs2⟩

theorem writeAll_sim {env : Env} (henv : env.PushOk) {fs : Fs} {r : FileReceiver}
    (hend : r.AtEnd fs) (pos : Nat) (d : Bytes) :
    fs.writeAll env r.file pos d = (.ok (), fs.put r.file d) := by
  unfold Fs.writeAll
  split
  · rename_i hd
    rw [hd, Fs.put_nil hend]
  · rw [henv.write]

theorem slice?_of_le {data : Bytes} {i n : Nat} (h : i + n ≤ data.length) :
    slice? data i (i + n) = some ((data.drop i).take n) := by
  rw [slice?, if_pos ⟨by omega, h⟩, Nat.add_sub_cancel_left]

theorem slice?_of_gt {data : Bytes} {i n : Nat} (h : data.length < i + n) :
    slice? data i (i + n) = none := if_neg (by omega)

theorem headerPass_sim {env : Env} (henv : env.PushOk) {data : Bytes} {pos n : Nat}
    {r : FileReceiver} {fs : Fs} (hend : r.AtEnd fs) {got : Bytes} (habs : r.state.abs = .header got)
    (hn : 0 < n) (hgot : got.length + n = 8) (hle : pos + n ≤ data.length) :
    ∃ p, r.onFrame env fs (pos + n) (got ++ (data.drop pos).take n) = .ok p ∧
      PassSim env data pos r fs p := by
  have hlen : ((data.drop pos).take n).length = n := by
    rw [List.length_take, List.length_drop]; omega
  have hne : (data.drop pos).take n ≠ [] := fun e => by rw [e] at hlen; simp at hlen; omega
  have hrun : pushMachine.run (.header got) ((data.drop pos).take n) = _ :=
    run_header_eq hne (by rw [hlen]; exact hgot)
  obtain ⟨p, hp, hs⟩ := onFrame_sim henv hend (got ++ (data.drop pos).take n) (pos + n)
  refine ⟨p, hp, ?_⟩
  match p, hs with
  | .next pos' r' fs', ⟨e, hf⟩ =>
    subst e
    refine ⟨by omega, hle, ?_⟩
    rw [Nat.add_sub_cancel_left, habs, hrun]
    exact hf
  | .ret .continue r' fs', ⟨hc, _⟩ => exact absurd rfl hc
  | .ret (.done response) r' fs', ⟨_, hf⟩ =>
    refine ⟨n, ?_⟩
    rw [habs, hrun]
    exact hf

/-- **One pass of the receive loop** runs the machine over the bytes it consumes. -/
theorem receiveIter_sim {env : Env} (henv : env.PushOk) {data : Bytes} {pos : Nat}
    {r : FileReceiver} {fs : Fs} (hpos : pos < data.length) (hwf : r.state.Wf)
    (hend : r.AtEnd fs) :
    ∃ p, receiveIter env data pos r fs = .ok p ∧ PassSim env data pos r fs p := by
  have hrest : (data.drop pos).length = data.length - pos := List.length_drop
  unfold receiveIter
  cases hst : r.state with
  | header =>
    simp only
    rcases Nat.lt_or_ge data.length (pos + frameHeaderSize) with hlt | hge
    · rw [slice?_of_gt hlt]
      simp only [frameHeaderSize] at hlt
      have h8 : 0 + (data.drop pos).length ≤ 8 := by rw [hrest]; omega
      obtain ⟨buf, hb, hbytes⟩ := HeaderBuf.copy_of_le .zero h8
      refine ⟨.ret .continue { r with state := .partialHeader buf (data.drop pos).length } fs,
        by simp only [hb]; rfl, ?_⟩
      have hrun : pushMachine.run (.header []) (data.drop pos) = _ :=
        run_header_lt (by simp only [List.length_nil]; omega)
      refine ⟨⟨by omega, by omega⟩, ?_, ?_, ?_⟩
      · rw [hst, RecvState.abs, RecvState.abs, hrun, hbytes]
        simp [copyAt]
      · rw [hst, RecvState.abs, hrun, Fs.put_nil hend]
      · rw [hst, RecvState.abs, hrun, wrote_nil hend]
    · rw [slice?_of_le hge]
      have habs : r.state.abs = .header [] := by rw [hst]; rfl
      exact headerPass_sim henv hend habs (by decide) rfl hge
  | partialHeader leftovers len =>
    rw [hst] at hwf
    obtain ⟨h1, h7⟩ := hwf
    have hlen : ¬ len > frameHeaderSize := by simp only [frameHeaderSize]; omega
    have htake : (leftovers.bytes.take len).length = len := by
      rw [List.length_take, leftovers.length_eq, frameHeaderSize]; omega
    simp only [hlen, if_false]
    rcases Nat.lt_or_ge data.length (pos + (frameHeaderSize - len)) with hlt | hge
    · rw [slice?_of_gt hlt]
      simp only [frameHeaderSize] at hlt ⊢
      have hmin : min (8 - len) (data.length - pos) = data.length - pos := by omega
      have hall : (data.drop pos).take (data.length - pos) = data.drop pos :=
        List.take_of_length_le (by rw [hrest])
      rw [hmin, hall]
      have h8 : len + (data.drop pos).length ≤ 8 := by rw [hrest]; omega
      obtain ⟨buf, hb, hbytes⟩ := HeaderBuf.copy_of_le leftovers h8
      refine ⟨.ret .continue { r with state := .partialHeader buf (len + (data.length - pos)) } fs,
        by simp only [hb]; rfl, ?_⟩
      have hrun : pushMachine.run (.header (leftovers.bytes.take len)) (data.drop pos) = _ :=
        run_header_lt (by rw [htake]; omega)
      refine ⟨⟨by omega, by omega⟩, ?_, ?_, ?_⟩
      · rw [hst, RecvState.abs, RecvState.abs, hrun, hbytes, copyAt]
        have hl : (leftovers.bytes.take len ++ data.drop pos).length = len + (data.length - pos) := by
          rw [List.length_append, htake, hrest]
        rw [← hl, List.take_left]
      · rw [hst, RecvState.abs, hrun, Fs.put_nil hend]
      · rw [hst, RecvState.abs, hrun, wrote_nil hend]
    · rw [slice?_of_le hge]
      simp only [frameHeaderSize] at hge ⊢
      have hsl : ((data.drop pos).take (8 - len)).length = 8 - len := by
        rw [List.length_take]; omega
      obtain ⟨buf, hb, hfull⟩ := leftovers.copy_fills
        (show len + ((data.drop pos).take (8 - len)).length = 8 by rw [hsl]; omega)
      simp only [hb, ok_bind, hfull, hsl]
      exact headerPass_sim henv hend (by rw [hst]; rfl) (by omega) (by rw [htake]; omega) hge
  | data remaining =>
    simp only [writeAll_sim henv hend]
    have hm : min remaining (data.length - pos) ≤ remaining := Nat.min_le_left ..
    generalize hto : min remaining (data.length - pos) = toWrite at hm
    have hle : toWrite ≤ data.length - pos := by omega
    have hlen : ((data.drop pos).take toWrite).length = toWrite := by
      rw [List.length_take]; omega
    refine ⟨_, rfl, by omega, by omega, ?_, ?_, ?_, ?_⟩
    · simp only
      split
      · trivial
      · trivial
    · rw [Nat.add_sub_cancel_left, hst, RecvState.abs, run_enter (by omega), hlen]
      simp only
      split
      · rfl
      · rename_i h0
        rw [RecvState.abs, PushState.enter, if_pos (by omega)]
    · rw [Nat.add_sub_cancel_left, hst, RecvState.abs, run_enter (by omega)]
    · rw [Nat.add_sub_cancel_left, hst, RecvState.abs, run_enter (by omega)]
      rfl

/-! ## The whole payload -/

theorem Fed.atEnd {env : Env} {r r' : FileReceiver} {fs fs' : Fs} {t : PushState × Bytes}
    (h : Fed env r fs t .continue r' fs') (hend : r.AtEnd fs) : r'.AtEnd fs' := by
  obtain ⟨-, -, hfs, hr⟩ := h
  rw [AtEnd, hr, hfs]
  exact Fs.put_content hend t.2

theorem Fed.trans {env : Env} {r r1 r' : FileReceiver} {fs fs1 fs' : Fs} {t t' : PushState × Bytes}
    {res : FileReceiverResult} (hend : r.AtEnd fs) (h : Fed env r fs t .continue r1 fs1)
    (h' : Fed env r1 fs1 t' res r' fs') : Fed env r fs (t'.1, t.2 ++ t'.2) res r' fs' := by
  obtain ⟨-, -, rfl, hr⟩ := h
  have hfile : r1.file = (fs.put r.file t.2).1 := by rw [hr]; rfl
  have hput : (fs.put r.file t.2).2.put r1.file t'.2 = fs.put r.file (t.2 ++ t'.2) := by
    rw [hfile, Fs.put_put hend]
  have hw : r1.wrote (fs.put r.file t.2).2 t'.2 =
      { r.wrote fs (t.2 ++ t'.2) with state := r1.state } := by
    unfold wrote
    rw [hput, hr]
    rfl
  cases res with
  | «continue» =>
    obtain ⟨h1, h2, h3, h4⟩ := h'
    refine ⟨h1, h2, by rw [h3, hput], ?_⟩
    rw [hw] at h4
    exact h4
  | done response =>
    obtain ⟨v, hv, hs⟩ := h'
    refine ⟨v, hv, ?_⟩
    rw [hput, hw] at hs
    -- `finalize` and `abort` do not read the parser state
    cases v <;> exact hs

theorem Fed.done_take {env : Env} {r r' : FileReceiver} {fs fs' : Fs} {d : PushState} {bs : Bytes}
    {n : Nat} {response : SyncResponse}
    (h : Fed env r fs (pushMachine.run d (bs.take n)) (.done response) r' fs') :
    Fed env r fs (pushMachine.run d bs) (.done response) r' fs' := by
  obtain ⟨v, hv, hs⟩ := h
  have hrun : pushMachine.run d bs = (.stop v, (pushMachine.run d (bs.take n)).2) := by
    conv_lhs => rw [← List.take_append_drop n bs]
    rw [Mealy.run_append, hv, run_stop, List.append_nil]
  rw [hrun]
  exact ⟨v, rfl, hs⟩

/-- **A payload** runs the machine over its bytes. -/
theorem receiveFrom_sim {env : Env} (henv : env.PushOk) {data : Bytes} {pos : Nat}
    {r : FileReceiver} {fs : Fs} (hpos : pos ≤ data.length) (hwf : r.state.Wf) (hend : r.AtEnd fs) :
    ∃ res r' fs', receiveFrom env data pos r fs = .ok (res, r', fs') ∧
      Fed env r fs (pushMachine.run r.state.abs (data.drop pos)) res r' fs' := by
  induction hm : 3 * (data.length - pos) + rank r.state using Nat.strong_induction_on
    generalizing pos r fs with
  | _ m ih =>
    subst hm
    by_cases hlt : pos < data.length
    · obtain ⟨p, hp, hs⟩ := receiveIter_sim henv hlt hwf hend
      match p, hs with
      | .ret .continue r' fs', hf => exact ⟨.continue, r', fs', receiveFrom_ret hlt hp, hf⟩
      | .ret (.done response) r' fs', ⟨n, hf⟩ =>
        exact ⟨.done response, r', fs', receiveFrom_ret hlt hp, hf.done_take⟩
      | .next pos' r1 fs1, ⟨hge, hle, hf⟩ =>
        have hdec := (receiveIter_decreases hlt hp).2
        obtain ⟨res, r', fs', he, hf'⟩ := ih _ hdec hle hf.1 (hf.atEnd hend) rfl
        refine ⟨res, r', fs', (receiveFrom_next hlt hp).trans he, ?_⟩
        have hsplit : data.drop pos = (data.drop pos).take (pos' - pos) ++ data.drop pos' := by
          conv_lhs => rw [← List.take_append_drop (pos' - pos) (data.drop pos)]
          rw [List.drop_drop, Nat.add_sub_cancel' hge]
        rw [hsplit, Mealy.run_append, ← hf.2.1]
        exact hf.trans hend hf'
    · have hnil : data.drop pos = [] := List.drop_eq_nil_of_le (by omega)
      refine ⟨.continue, r, fs, receiveFrom_end (by omega), hwf, ?_, ?_, ?_⟩
      · rw [hnil]; rfl
      · rw [hnil, Mealy.run_nil, Fs.put_nil hend]
      · rw [hnil, Mealy.run_nil, wrote_nil hend]

theorem receive_sim {env : Env} (henv : env.PushOk) {r : FileReceiver} {fs : Fs} (data : Bytes)
    (hwf : r.state.Wf) (hend : r.AtEnd fs) :
    ∃ res r' fs', r.receive env data fs = .ok (res, r', fs') ∧
      Fed env r fs (pushMachine.run r.state.abs data) res r' fs' := by
  simpa [receive] using receiveFrom_sim henv (Nat.zero_le data.length) hwf hend

end FileReceiver

end Adibi
