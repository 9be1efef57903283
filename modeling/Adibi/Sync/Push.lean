import Adibi.Sync.Receive

/-!
# Pushes, whatever the cut

A push fed to `SyncService::handle` payload by payload: the first payload
holds the SEND request, everything after it is one byte stream. `feed` passes
payloads on until a response comes. Its outcome is that of the one-shot
`decode` of the stream, however the stream is cut.
-/

namespace Adibi

open Lib

namespace Fs

/-- The inode `File::create` opens for a path. -/
def target (fs : Fs) (path : Path) : Nat := (fs.names path).getD fs.nextIno

/-- That inode right after `File::create`. -/
def fresh (fs : Fs) (path : Path) : Inode :=
  match fs.names path with
  | some i => { fs.inodes i with content := [] }
  | none => ⟨[], 0o100644, 0⟩

theorem create_ok {env : Env} (h : env.fail .create = none) (fs : Fs) (path : Path) :
    ∃ fs1, fs.create env path = .ok (⟨fs.target path, []⟩, fs1) ∧
      fs1.names path = some (fs.target path) ∧ fs1.inodes (fs.target path) = fs.fresh path := by
  unfold create target fresh
  rw [h]
  cases hn : fs.names path with
  | some i => exact ⟨_, rfl, by simp [hn], by simp⟩
  | none =>
    refine ⟨_, rfl, ?_, ?_⟩
    · exact setName_self (fs.setInode fs.nextIno ⟨[], 0o100644, 0⟩) path (some fs.nextIno)
    · exact setInode_self ..

theorem put_inode (fs : Fs) (f : File) (d : Bytes) :
    (fs.put f d).2.inodes f.ino =
      { fs.inodes f.ino with content := writeAt (fs.inodes f.ino).content f.offset d } :=
  setInode_self ..

end Fs

namespace SyncService

/-- Passes payloads to `handle` as long as it asks for more, up to its answer in a frame. -/
def feed (s : SyncService) (fs : Fs) :
    List (Env × Bytes) → Except Panic (Option SyncResponse × SyncService × Fs)
  | [] => .ok (none, s, fs)
  | (env, payload) :: rest => do
    let (result, s, fs) ← s.handle env fs payload
    match result with
    | .continue => feed s fs rest
    | .data hdr data => pure (some (hdr, data), s, fs)
    | .stat _ | .quit => pure (none, s, fs)

end SyncService

def chmod (old mode : UInt32) : UInt32 := (old &&& ~~~0o7777) ||| (mode &&& 0o7777)

/-- What the one-shot decoder says of a push: `ino` holds exactly the decoded
bytes; the path still names it, unless the verdict is FAIL and the removal
succeeded; OKAY comes with the SEND's mode and, unless setting it failed, the
DONE's time; a response and only a response ends the push. `old` is the inode
as it was created. -/
def PushOutcome (req : SendRequest) (ino : Nat) (old : Inode) (envs : List Env)
    (ref : Bytes × Verdict) (out : Option SyncResponse) (s : SyncService) (fs : Fs) : Prop :=
  (fs.inodes ino).content = ref.1 ∧
  match ref.2 with
  | .pending => out = none ∧ (∃ r, s.state = .receiving r) ∧ fs.names req.path = some ino
  | .okay mtime => out = some okayResponse ∧ s.state = .idle ∧ fs.names req.path = some ino ∧
      (fs.inodes ino).mode = chmod old.mode req.mode ∧
      ∃ env ∈ envs, (fs.inodes ino).mtime =
        if env.fail .setTimes = none then (mtime.toNat : Int) else old.mtime
  | .fail => (∃ resp, out = some resp ∧ resp.1.id = .fail) ∧ s.state = .idle ∧
      ∃ env ∈ envs, fs.names req.path = if env.fail .removeFile = none then none else some ino

/-! ## Settling a push -/

namespace FileReceiver

/-- A receiver of `req` whose file is at its end: the path names its inode. -/
structure Serves (r : FileReceiver) (fs : Fs) (req : SendRequest) (ino : Nat) (old : Inode) :
    Prop where
  path : r.path = req.path
  mode : r.mode = req.mode
  ino_eq : r.file.ino = ino
  atEnd : r.AtEnd fs
  named : fs.names req.path = some ino
  attrs : (fs.inodes ino).mode = old.mode ∧ (fs.inodes ino).mtime = old.mtime

theorem Serves.wrote {r : FileReceiver} {fs : Fs} {req : SendRequest} {ino : Nat} {old : Inode}
    (h : r.Serves fs req ino old) (out : Bytes) :
    (r.wrote fs out).Serves (fs.put r.file out).2 req ino old := by
  have hino := h.ino_eq
  refine ⟨h.path, h.mode, hino, Fs.put_content h.atEnd out, h.named, ?_⟩
  rw [← hino, Fs.put_inode, hino]
  exact h.attrs

theorem Settled.outcome {r : FileReceiver} {fs fs' : Fs} {req : SendRequest} {ino : Nat}
    {old : Inode} {env : Env} {envs : List Env} {v : Verdict} {response : SyncResponse}
    (henv : env.PushOk) (hmem : env ∈ envs) (hr : r.Serves fs req ino old)
    (h : r.Settled env fs v response fs') :
    PushOutcome req ino old envs (r.file.moved, v) (some response) ⟨.idle⟩ fs' := by
  have hend : r.file.moved = (fs.inodes ino).content := by
    have := hr.atEnd; rwa [AtEnd, hr.ino_eq] at this
  cases v with
  | pending => exact h.elim
  | fail =>
    obtain ⟨hresp, rfl⟩ := h
    have hpath : r.path = req.path := hr.path
    refine ⟨?_, ⟨response, rfl, (failResponse_ok hresp).1⟩, rfl, env, hmem, ?_⟩
    · have : (r.abort env fs).inodes = fs.inodes := by
        unfold abort Fs.removeFile
        rw [hpath, hr.named]
        cases env.fail .removeFile <;> rfl
      rw [this, hend]
    · unfold abort Fs.removeFile
      rw [hpath, hr.named]
      cases hrm : env.fail .removeFile with
      | none => simp
      | some e => simpa using hr.named
  | okay mtime =>
    obtain ⟨rfl, hfin⟩ := h
    unfold finalize Fs.setPermissions Fs.setTimes at hfin
    rw [henv.permissions] at hfin
    simp only [hr.ino_eq, hr.mode] at hfin
    cases htm : env.fail .setTimes with
    | none =>
      rw [htm] at hfin
      simp only [Except.ok.injEq, Prod.mk.injEq, true_and] at hfin
      subst hfin
      refine ⟨by simp [hend], rfl, rfl, hr.named, ?_, env, hmem, by simp [htm]⟩
      simp [chmod, hr.attrs.1]
    | some e =>
      rw [htm] at hfin
      simp only [Except.ok.injEq, Prod.mk.injEq, true_and] at hfin
      subst hfin
      refine ⟨by simp [hend], rfl, rfl, hr.named, ?_, env, hmem, by simp [htm, hr.attrs.2]⟩
      simp [chmod, hr.attrs.1]

end FileReceiver

/-! ## Feeding payloads -/

theorem RecvState.verdict_abs (st : RecvState) : st.abs.verdict = .pending := by
  cases st with
  | data n => simp only [RecvState.abs, PushState.enter]; split <;> rfl
  | _ => rfl

namespace SyncService

def receiverOf (req : SendRequest) (ino : Nat) : FileReceiver :=
  ⟨⟨ino, []⟩, req.path, req.mode, .header⟩

/-- The first payload of a push is the rest of it, fed to the new receiver. -/
theorem handle_send {env : Env} {fs fs1 : Fs} {req : SendRequest} {f : File}
    (hc : fs.create env req.path = .ok (f, fs1)) (t : Bytes) :
    SyncService.new.handle env fs (req.encode ++ t) =
      (⟨.receiving ⟨f, req.path, req.mode, .header⟩⟩ : SyncService).handle env fs1 t := by
  simp only [handle, new, handleRequest, parseSyncPacket_send, handleSendV1, hc]
  by_cases ht : t = []
  · subst ht
    simp only [ne_eq, not_true_eq_false, if_false, FileReceiver.receive_nil]
    rfl
  · simp only [ne_eq, ht, not_false_eq_true, if_true]

/-- A push in progress, fed to its end or to the end of the payloads. -/
theorem feed_receiving {req : SendRequest} {ino : Nat} {old : Inode} {envs : List Env}
    {rest : List (Env × Bytes)} {r : FileReceiver} {fs : Fs}
    (henv : ∀ x ∈ rest, x.1.PushOk ∧ x.1 ∈ envs) (hr : r.Serves fs req ino old)
    (hwf : r.state.Wf) :
    ∃ out s' fs', (⟨.receiving r⟩ : SyncService).feed fs rest = .ok (out, s', fs') ∧
      PushOutcome req ino old envs
        (r.file.moved ++ (pushMachine.run r.state.abs (rest.map Prod.snd).flatten).2,
          (pushMachine.run r.state.abs (rest.map Prod.snd).flatten).1.verdict) out s' fs' := by
  induction rest generalizing r fs with
  | nil =>
    refine ⟨none, ⟨.receiving r⟩, fs, rfl, ?_, ?_⟩
    · have := hr.atEnd
      rw [FileReceiver.AtEnd, hr.ino_eq] at this
      simp [this]
    · simp only [List.map_nil, List.flatten_nil, Mealy.run_nil, RecvState.verdict_abs, true_and]
      exact ⟨⟨r, rfl⟩, hr.named⟩
  | cons x rest ih =>
    obtain ⟨env, payload⟩ := x
    obtain ⟨hok, hmem⟩ := henv (env, payload) List.mem_cons_self
    obtain ⟨res, r', fs', he, hf⟩ := FileReceiver.receive_sim hok payload hwf hr.atEnd
    simp only [List.map_cons, List.flatten_cons, Mealy.run_append, feed, handle, he, ok_bind]
    cases res with
    | «continue» =>
      obtain ⟨hwf', habs, rfl, hr'⟩ := hf
      have hserves : r'.Serves (fs.put r.file (pushMachine.run r.state.abs payload).2).2 req ino old := by
        rw [hr']
        obtain ⟨h1, h2, h3, h4, h5, h6⟩ := hr.wrote (pushMachine.run r.state.abs payload).2
        exact ⟨h1, h2, h3, h4, h5, h6⟩
      have hmoved : r'.file.moved = r.file.moved ++ (pushMachine.run r.state.abs payload).2 := by
        rw [hr']; rfl
      obtain ⟨out, s', fs', hrun, hout⟩ :=
        ih (fun x hx => henv x (List.mem_cons_of_mem _ hx)) hserves hwf'
      refine ⟨out, s', fs', hrun, ?_⟩
      rw [habs, hmoved, List.append_assoc] at hout
      exact hout
    | done response =>
      obtain ⟨v, hv, hs⟩ := hf
      refine ⟨some response, ⟨.idle⟩, fs', rfl, ?_⟩
      rw [hv, run_stop, List.append_nil]
      exact hs.outcome hok hmem (hr.wrote _)

end SyncService

/-- **A push does not depend on how its bytes are cut into payloads.** The
first payload is the SEND request and any bytes `t`; whatever payloads follow,
the outcome is that of the one-shot decoder on all bytes after the request. -/
theorem push_cut_independent (req : SendRequest) (fs : Fs) (env : Env) (t : Bytes)
    (rest : List (Env × Bytes)) (henv : ∀ e ∈ env :: rest.map Prod.fst, e.PushOk) :
    ∃ out s' fs', SyncService.new.feed fs ((env, req.encode ++ t) :: rest) = .ok (out, s', fs') ∧
      PushOutcome req (fs.target req.path) (fs.fresh req.path) (env :: rest.map Prod.fst)
        (decode (t ++ (rest.map Prod.snd).flatten)) out s' fs' := by
  obtain ⟨fs1, hc, hname, hinode⟩ :=
    Fs.create_ok (henv env List.mem_cons_self).create fs req.path
  have hfresh : (fs.fresh req.path).content = [] := by
    unfold Fs.fresh; split <;> rfl
  have hserves : (SyncService.receiverOf req (fs.target req.path)).Serves fs1 req
      (fs.target req.path) (fs.fresh req.path) :=
    ⟨rfl, rfl, rfl, by
      show [] = (fs1.inodes (fs.target req.path)).content
      rw [hinode, hfresh], hname, by rw [hinode]; exact ⟨rfl, rfl⟩⟩
  have hall : ∀ x ∈ (env, t) :: rest, x.1.PushOk ∧ x.1 ∈ env :: rest.map Prod.fst := by
    intro x hx
    have hx' : x.1 ∈ env :: rest.map Prod.fst := by
      rcases List.mem_cons.mp hx with rfl | hx
      · exact List.mem_cons_self
      · exact List.mem_cons_of_mem _ (List.mem_map_of_mem hx)
    exact ⟨henv _ hx', hx'⟩
  obtain ⟨out, s', fs', hrun, hout⟩ := SyncService.feed_receiving hall hserves trivial
  refine ⟨out, s', fs', ?_, ?_⟩
  · rw [SyncService.feed] at hrun ⊢
    rw [SyncService.handle_send hc]
    exact hrun
  · rw [decode_eq_run]
    exact hout

/-- `SEND /f,420` with the first byte of a DATA header, then the rest of the
header, an empty payload, and the data with its DONE. -/
theorem push_cut_independent_sample :
    ∃ out s' fs', SyncService.new.feed .empty
        [({}, SendRequest.sample.encode ++ [0x44]), ({}, [0x41, 0x54, 0x41, 2, 0, 0, 0]), ({}, []),
          ({}, [0x68, 0x69] ++ doneFrame 7)] = .ok (out, s', fs') ∧
      PushOutcome .sample (Fs.empty.target SendRequest.sample.path)
        (Fs.empty.fresh SendRequest.sample.path) [{}, {}, {}, {}]
        (decode ([0x44] ++ [[0x41, 0x54, 0x41, 2, 0, 0, 0], [], [0x68, 0x69] ++ doneFrame 7].flatten))
        out s' fs' :=
  push_cut_independent .sample .empty {} [0x44]
    [({}, [0x41, 0x54, 0x41, 2, 0, 0, 0]), ({}, []), ({}, [0x68, 0x69] ++ doneFrame 7)]
    (fun e he => by
      have : e = {} := by simpa using he
      subst this
      exact ⟨rfl, fun _ => rfl, rfl⟩)

end Adibi
