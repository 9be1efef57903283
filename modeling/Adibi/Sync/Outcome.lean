import Adibi.Sync.Receive

/-!
# A push whose calls may fail

A payload is taken as if every call of the push succeeded, or one of them failed:
then the receiver answers FAIL with the text for that call and has removed the
file (`receive_split`). With `receive_sim` this says what `receive` does under
every behaviour of the system.
-/

namespace Adibi

open Lib

/-- The same system, with the calls of a push succeeding. -/
def Env.pushing (env : Env) : Env :=
  { env with fail := fun
      | .create | .writeAll _ | .setPermissions => none
      | c => env.fail c }

theorem Env.pushing_ok (env : Env) : env.pushing.PushOk := ⟨rfl, fun _ => rfl, rfl⟩

/-- Nothing but the inode `ino` differs. -/
structure Fs.Touched (ino : Nat) (fs fs' : Fs) : Prop where
  entry : fs'.entry = fs.entry
  dir : fs'.dir = fs.dir
  nextIno : fs'.nextIno = fs.nextIno
  others : ∀ n, n ≠ ino → fs'.inodes n = fs.inodes n

namespace Fs

theorem Touched.names {ino : Nat} {fs fs' : Fs} (h : Touched ino fs fs') : fs'.names = fs.names := by
  funext path
  unfold Fs.names
  rw [h.entry, h.dir]

theorem Touched.refl (ino : Nat) (fs : Fs) : Touched ino fs fs := ⟨rfl, rfl, rfl, fun _ _ => rfl⟩

theorem Touched.trans {ino : Nat} {fs1 fs2 fs3 : Fs} (h : Touched ino fs1 fs2)
    (h' : Touched ino fs2 fs3) : Touched ino fs1 fs3 :=
  ⟨h'.entry.trans h.entry, h'.dir.trans h.dir, h'.nextIno.trans h.nextIno,
    fun n hn => (h'.others n hn).trans (h.others n hn)⟩

theorem touched_setInode (fs : Fs) (ino : Nat) (n : Inode) : Touched ino fs (fs.setInode ino n) :=
  ⟨rfl, rfl, rfl, fun _ hm => Function.update_of_ne hm ..⟩

theorem touched_put (fs : Fs) (f : File) (data : Bytes) : Touched f.ino fs (fs.put f data).2 :=
  touched_setInode ..

end Fs

namespace FileReceiver

variable {env : Env} {data : Bytes} {pos : Nat} {r r' : FileReceiver} {fs fs' : Fs}
  {res : FileReceiverResult}

/-- A call of the push failed: `e` is its error, `what` says which. -/
def Failed (env : Env) (what : Bytes) (e : IoError) : Prop :=
  (what = ascii "write error for " ∧ ∃ pos, env.fail (.writeAll pos) = some e) ∨
    (what = ascii "cannot set permissions on " ∧ env.fail .setPermissions = some e)

/-- The push ended because a call failed: FAIL, and the file removed. -/
inductive Broke (env : Env) (r : FileReceiver) (fs : Fs) (res : FileReceiverResult) (fs' : Fs) :
    Prop where
  | intro {what : Bytes} {e : IoError} {response : SyncResponse} {fs1 : Fs}
      (hcall : Failed env what e)
      (hresp : failResponse (what ++ r.path.display ++ ascii ": " ++ e) = .ok response)
      (hres : res = .done response) (htouch : Fs.Touched r.file.ino fs fs1)
      (hfs : fs' = r.abort env fs1)

theorem abort_congr {r1 : FileReceiver} (h : r1.path = r.path) : r1.abort env fs = r.abort env fs := by
  unfold abort
  rw [h]

theorem Broke.from {r1 : FileReceiver} {fs1 : Fs} (hp : r1.path = r.path)
    (hi : r1.file.ino = r.file.ino) (ht : Fs.Touched r.file.ino fs fs1) (h : Broke env r1 fs1 res fs') :
    Broke env r fs res fs' := by
  obtain ⟨hcall, hresp, hres, htouch, hfs⟩ := h
  rw [hp] at hresp
  rw [hi] at htouch
  exact ⟨hcall, hresp, hres, ht.trans htouch, by rw [hfs, abort_congr hp]⟩

/-- A pass that goes on keeps the path and the inode, and touches nothing else. -/
def Pass.Keeps (r : FileReceiver) (fs : Fs) : Pass → Prop
  | .next _ r' fs' => r'.path = r.path ∧ r'.file.ino = r.file.ino ∧ Fs.Touched r.file.ino fs fs'
  | .ret _ _ _ => True

theorem onFrame_split {h : Bytes} {p : Pass} (hp : r.onFrame env fs pos h = .ok p) :
    (r.onFrame env.pushing fs pos h = .ok p ∧ Pass.Keeps r fs p) ∨
      ∃ res r' fs', p = .ret res r' fs' ∧ Broke env r fs res fs' := by
  unfold onFrame at hp ⊢
  cases hf : parseSyncFrameHeader h with
  | none =>
    rw [hf] at hp
    refine .inl ⟨hp, ?_⟩
    obtain ⟨x, -, hx⟩ := bind_eq_ok.mp hp
    cases hx
    trivial
  | some x =>
    obtain ⟨⟨id, len⟩, t⟩ := x
    rw [hf] at hp
    cases id with
    | data =>
      cases hp
      exact .inl ⟨rfl, rfl, rfl, .refl ..⟩
    | done =>
      obtain ⟨⟨result, fs1⟩, hfin, h1⟩ := bind_eq_ok.mp hp
      cases h1
      unfold finalize at hfin
      cases hperm : env.fail .setPermissions with
      | some e =>
        have hset : fs.setPermissions env r.file r.mode = .error e := by
          unfold Fs.setPermissions
          rw [hperm]
        rw [hset] at hfin
        obtain ⟨response, hresp, h2⟩ := bind_eq_ok.mp hfin
        cases h2
        exact .inr ⟨_, _, _, rfl, .inr ⟨rfl, hperm⟩, hresp, rfl, .refl .., rfl⟩
      | none =>
        have hset : fs.setPermissions env.pushing r.file r.mode = fs.setPermissions env r.file r.mode := by
          unfold Fs.setPermissions
          rw [hperm]
          rfl
        refine .inl ⟨?_, trivial⟩
        have hfin' : r.finalize env.pushing fs len = .ok (result, fs1) := by
          unfold finalize
          rw [hset]
          exact hfin
        simp only [onHeader, hfin']
        rfl

theorem receiveIter_split {p : Pass} (hp : receiveIter env data pos r fs = .ok p) :
    (receiveIter env.pushing data pos r fs = .ok p ∧ Pass.Keeps r fs p) ∨
      ∃ res r' fs', p = .ret res r' fs' ∧ Broke env r fs res fs' := by
  unfold receiveIter at hp ⊢
  cases hst : r.state with
  | header =>
    simp only [hst] at hp ⊢
    split at hp
    · refine .inl ⟨hp, ?_⟩
      obtain ⟨x, -, hx⟩ := bind_eq_ok.mp hp
      cases hx
      trivial
    · exact onFrame_split hp
  | partialHeader leftovers len =>
    simp only [hst] at hp ⊢
    split at hp
    · cases hp
    · rename_i hlen
      rw [if_neg hlen]
      split at hp
      · refine .inl ⟨hp, ?_⟩
        obtain ⟨x, -, hx⟩ := bind_eq_ok.mp hp
        cases hx
        trivial
      · obtain ⟨buf, hb, h1⟩ := bind_eq_ok.mp hp
        rw [hb]
        exact onFrame_split h1
  | data remaining =>
    simp only [hst] at hp ⊢
    generalize hw : (data.drop pos).take (min remaining (data.length - pos)) = chunk at hp ⊢
    by_cases hc : chunk = []
    · subst hc
      rw [Fs.writeAll_nil] at hp ⊢
      refine .inl ⟨hp, ?_⟩
      cases hp
      exact ⟨rfl, rfl, .refl ..⟩
    · cases hf : env.fail (.writeAll pos) with
      | none =>
        have hput : fs.writeAll env.pushing r.file pos chunk = (.ok (), fs.put r.file chunk) :=
          Fs.writeAll_ok rfl hc ..
        rw [Fs.writeAll_ok hf hc] at hp
        rw [hput]
        refine .inl ⟨hp, ?_⟩
        cases hp
        exact ⟨rfl, rfl, fs.touched_put r.file chunk⟩
      | some e =>
        rw [Fs.writeAll_error hf hc] at hp
        obtain ⟨response, hresp, h1⟩ := bind_eq_ok.mp hp
        cases h1
        exact .inr ⟨_, _, _, rfl, .inl ⟨rfl, pos, hf⟩, hresp, rfl, fs.touched_put r.file _, rfl⟩

/-- **A payload is taken as if every call succeeded, or one of them failed.** -/
theorem receiveFrom_split (h : receiveFrom env data pos r fs = .ok (res, r', fs')) :
    receiveFrom env.pushing data pos r fs = .ok (res, r', fs') ∨ Broke env r fs res fs' := by
  induction hm : 3 * (data.length - pos) + rank r.state using Nat.strong_induction_on
    generalizing pos r fs with
  | _ m ih =>
    subst hm
    by_cases hlt : pos < data.length
    · rcases receiveFrom_cases hlt h with hp | ⟨pos1, r1, fs1, hp, h1⟩
      · rcases receiveIter_split hp with ⟨hp', -⟩ | ⟨res, r', fs', he, hb⟩
        · exact .inl (receiveFrom_ret hlt hp')
        · cases he
          exact .inr hb
      · rcases receiveIter_split hp with ⟨hp', hpath, hino, ht⟩ | ⟨res, r', fs', he, -⟩
        · rcases ih _ (receiveIter_decreases hlt hp).2 h1 rfl with h2 | h2
          · exact .inl ((receiveFrom_next hlt hp').trans h2)
          · exact .inr (h2.from hpath hino ht)
        · cases he
    · have hge : data.length ≤ pos := Nat.not_lt.mp hlt
      cases (receiveFrom_end hge).symm.trans h
      exact .inl (receiveFrom_end hge)

/-! ## What becomes of a push -/

/-- The receiver of a push that was sent `fed` so far: its path names its file,
which holds what was decoded. -/
structure Intact (r : FileReceiver) (fs : Fs) (fed : Bytes) : Prop where
  named : fs.names r.path = some r.file.ino
  atEnd : r.AtEnd fs
  wf : r.state.Wf
  run : pushMachine.run (.header []) fed = (r.state.abs, r.file.moved)

/-- What becomes of a push that was sent `fed`: it goes on, its file is stored,
or its file is removed. -/
inductive Fate (r : FileReceiver) (fs : Fs) (fed : Bytes) :
    FileReceiverResult → FileReceiver → Fs → Prop where
  | goesOn {r' : FileReceiver} {fs' : Fs} (path : r'.path = r.path) (ino : r'.file.ino = r.file.ino)
      (touched : Fs.Touched r.file.ino fs fs') (intact : r'.Intact fs' fed) :
      Fate r fs fed .continue r' fs'
  | stored {r' : FileReceiver} {fs' : Fs} (touched : Fs.Touched r.file.ino fs fs')
      (content : (fs'.inodes r.file.ino).content = (decode fed).1) :
      Fate r fs fed (.done okayResponse) r' fs'
  | removed {response : SyncResponse} {r' : FileReceiver} {fs1 : Fs}
      (touched : Fs.Touched r.file.ino fs fs1) :
      Fate r fs fed (.done response) r' (fs1.setName r.path none)

theorem abort_named {ino : Nat} (hrm : env.fail .removeFile = none) (hn : fs.names r.path = some ino) :
    r.abort env fs = fs.setName r.path none := by
  unfold abort Fs.removeFile
  rw [hrm, hn]

theorem finalize_stored {mtime : UInt32} (hp : env.fail .setPermissions = none)
    (h : r.finalize env fs mtime = .ok (res, fs')) :
    Fs.Touched r.file.ino fs fs' ∧
      (fs'.inodes r.file.ino).content = (fs.inodes r.file.ino).content := by
  unfold finalize Fs.setPermissions Fs.setTimes at h
  rw [hp] at h
  simp only at h
  cases ht : env.fail .setTimes with
  | none =>
    rw [ht] at h
    cases h
    exact ⟨(fs.touched_setInode ..).trans (Fs.touched_setInode ..), by simp⟩
  | some e =>
    rw [ht] at h
    cases h
    exact ⟨fs.touched_setInode .., by simp⟩

/-- **What becomes of a push** when a payload arrives, whichever calls fail. -/
theorem receive_fate {fed : Bytes} (hi : r.Intact fs fed) (hrm : env.fail .removeFile = none)
    (h : r.receive env data fs = .ok (res, r', fs')) : Fate r fs (fed ++ data) res r' fs' := by
  have hput := fs.touched_put r.file
  rcases receiveFrom_split h with hp | hb
  · obtain ⟨res1, r1, fs1, h1, hfed⟩ := receive_sim env.pushing_ok data hi.wf hi.atEnd
    cases h1.symm.trans hp
    have hrun : pushMachine.run (.header []) (fed ++ data) =
        ((pushMachine.run r.state.abs data).1,
          r.file.moved ++ (pushMachine.run r.state.abs data).2) := by
      rw [Mealy.run_append, hi.run]
    cases res with
    | «continue» =>
      have hend := hfed.atEnd hi.atEnd
      obtain ⟨hwf, habs, rfl, hr⟩ := hfed
      have hfile : r'.file = (fs.put r.file (pushMachine.run r.state.abs data).2).1 := by rw [hr]; rfl
      have hpath : r'.path = r.path := by rw [hr]; rfl
      have hino : r'.file.ino = r.file.ino := by rw [hfile]; rfl
      refine .goesOn hpath hino (hput _) ⟨?_, hend, hwf, ?_⟩
      · rw [hpath, hino]
        exact hi.named
      · rw [hrun, habs, hfile]
        rfl
    | done response =>
      obtain ⟨verdict, hstop, hset⟩ := hfed
      cases verdict with
      | pending => exact hset.elim
      | okay mtime =>
        obtain ⟨rfl, hfin⟩ := hset
        obtain ⟨htouch, hcont⟩ := finalize_stored rfl hfin
        refine .stored ((hput _).trans htouch) ?_
        have hmoved := Fs.put_content hi.atEnd (pushMachine.run r.state.abs data).2
        rw [decode_eq_run, hrun]
        exact hcont.trans hmoved.symm
      | fail =>
        obtain ⟨-, hfs⟩ := hset
        have habort : fs' = (fs.put r.file (pushMachine.run r.state.abs data).2).2.setName r.path none :=
          hfs.trans (abort_named hrm hi.named)
        rw [habort]
        exact .removed (hput _)
  · obtain ⟨-, -, rfl, htouch, hfs⟩ := hb
    rw [hfs, abort_named hrm (by rw [htouch.names]; exact hi.named)]
    exact .removed htouch

end FileReceiver

namespace SyncService

def receiver (s : SyncService) : Option FileReceiver :=
  match s.state with
  | .receiving r => some r
  | _ => none

/-- The receiver a payload reaches, the files it finds and the bytes for it: of
the push in progress, or of the push the payload starts. -/
def reaches (env : Env) (fs : Fs) (s : SyncService) (payload : Bytes) :
    Option (FileReceiver × Fs × Bytes) :=
  match s.state with
  | .receiving r => some (r, fs, payload)
  | _ =>
    match parseSyncPacket payload with
    | some (.sendV1 path mode, leftover) =>
      match fs.create env path with
      | .ok (file, fs) => some (⟨file, path, mode, .header⟩, fs, leftover)
      | .error _ => none
    | _ => none

variable {env : Env} {fs fs' : Fs} {s s' : SyncService} {payload : Bytes} {result : SyncResult}

theorem receiver_none_iff : s.receiver = none ↔ ∀ r, s.state ≠ .receiving r := by
  unfold receiver
  cases s.state <;> simp

/-- The answer to a payload of a push, and what is left of the push. -/
def After (s' : SyncService) (r' : FileReceiver) (result : SyncResult) : FileReceiverResult → Prop
  | .continue => result = .continue ∧ s'.receiver = some r'
  | .done response => result = .data response.1 response.2 ∧ s'.receiver = none

theorem handle_request (hno : ∀ r, s.state ≠ .receiving r) :
    s.handle env fs payload = s.handleRequest env fs payload := by
  unfold handle
  cases hs : s.state with
  | receiving r => exact absurd hs (hno r)
  | idle => rfl
  | sending sender => rfl

theorem handle_reaches {r : FileReceiver} {fs1 : Fs} {bytes : Bytes}
    (hr : s.reaches env fs payload = some (r, fs1, bytes))
    (h : s.handle env fs payload = .ok (result, s', fs')) :
    ∃ res r', r.receive env bytes fs1 = .ok (res, r', fs') ∧ s'.After r' result res := by
  by_cases hst : ∃ r0, s.state = .receiving r0
  · obtain ⟨r0, hst⟩ := hst
    simp only [reaches, hst, Option.some.injEq, Prod.mk.injEq] at hr
    obtain ⟨rfl, rfl, rfl⟩ := hr
    simp only [handle, hst] at h
    obtain ⟨⟨res, r', fs2⟩, hrec, h1⟩ := bind_eq_ok.mp h
    cases res with
    | «continue» =>
      cases h1
      exact ⟨.continue, r', hrec, rfl, rfl⟩
    | done response =>
      cases h1
      exact ⟨.done response, r', hrec, rfl, rfl⟩
  · have hno : ∀ r0, s.state ≠ .receiving r0 := fun r0 he => hst ⟨r0, he⟩
    have hkeep : s.receiver = none := receiver_none_iff.mpr hno
    rw [handle_request hno] at h
    unfold reaches at hr
    split at hr
    · rename_i r0 hs
      exact absurd hs (hno r0)
    · cases hp : parseSyncPacket payload with
      | none =>
        rw [hp] at hr
        cases hr
      | some x =>
        obtain ⟨packet, leftover⟩ := x
        rw [hp] at hr
        unfold handleRequest at h
        rw [hp] at h
        cases packet with
        | lstatV1 path => cases hr
        | recvV1 path => cases hr
        | quit => cases hr
        | sendV1 path mode =>
          simp only at hr h
          unfold handleSendV1 at h
          cases hc : fs.create env path with
          | error e =>
            rw [hc] at hr
            cases hr
          | ok x =>
            obtain ⟨file, fs2⟩ := x
            rw [hc] at hr h
            cases hr
            simp only at h
            by_cases hl : bytes = []
            · subst hl
              rw [if_neg (fun hne => hne rfl)] at h
              cases h
              exact ⟨.continue, _, FileReceiver.receive_nil .., rfl, rfl⟩
            · rw [if_pos hl] at h
              obtain ⟨⟨res, r', fs3⟩, hrec, h1⟩ := bind_eq_ok.mp h
              cases res with
              | «continue» =>
                cases h1
                exact ⟨.continue, r', hrec, rfl, rfl⟩
              | done response =>
                cases h1
                exact ⟨.done response, r', hrec, rfl, hkeep⟩

/-- What a payload that reaches no receiver comes to: the request, the result and the
service after it. -/
inductive Requested (env : Env) (fs : Fs) (s : SyncService) (payload : Bytes) :
    SyncResult → SyncService → Prop where
  | invalid {result : SyncResult} (hp : parseSyncPacket payload = none)
      (hf : failResult (ascii "invalid sync request") = .ok result) :
      Requested env fs s payload result s
  | lstat {path : Path} {rest : Bytes} {stat : SyncStat}
      (hp : parseSyncPacket payload = some (.lstatV1 path, rest)) :
      Requested env fs s payload (.stat stat) s
  | opened {path : Path} {rest : Bytes} {file : File}
      (hp : parseSyncPacket payload = some (.recvV1 path, rest)) (ho : fs.open_ env path = .ok file) :
      Requested env fs s payload .continue ⟨.sending ⟨file, false⟩⟩
  | unopened {path : Path} {rest : Bytes} {e : IoError} {result : SyncResult}
      (hp : parseSyncPacket payload = some (.recvV1 path, rest))
      (ho : fs.open_ env path = .error e)
      (hf : failResult (ascii "cannot open " ++ path.display ++ ascii ": " ++ e) = .ok result) :
      Requested env fs s payload result s
  | uncreated {path : Path} {mode : UInt32} {rest : Bytes} {e : IoError} {result : SyncResult}
      (hp : parseSyncPacket payload = some (.sendV1 path mode, rest))
      (hc : fs.create env path = .error e)
      (hf : failResult (ascii "cannot create " ++ path.display ++ ascii ": " ++ e) = .ok result) :
      Requested env fs s payload result s
  | quit {rest : Bytes} (hp : parseSyncPacket payload = some (.quit, rest)) :
      Requested env fs s payload .quit s

theorem reaches_none (hr : s.reaches env fs payload = none) : ∀ r, s.state ≠ .receiving r := by
  intro r he
  simp only [reaches, he] at hr
  cases hr

theorem handleLstatV1_stat {path : Path} (h : handleLstatV1 env fs path = .ok result) :
    ∃ stat, result = .stat stat := by
  unfold handleLstatV1 at h
  split at h
  · obtain ⟨size, -, h1⟩ := bind_eq_ok.mp h
    obtain ⟨mtime, -, h2⟩ := bind_eq_ok.mp h1
    cases h2
    exact ⟨_, rfl⟩
  · cases h
    exact ⟨_, rfl⟩

/-- **Such a payload leaves the files alone.** -/
theorem requested_of_ok (hr : s.reaches env fs payload = none)
    (h : s.handle env fs payload = .ok (result, s', fs')) :
    fs' = fs ∧ Requested env fs s payload result s' := by
  rw [handle_request (reaches_none hr)] at h
  unfold handleRequest at h
  cases hp : parseSyncPacket payload with
  | none =>
    rw [hp] at h
    obtain ⟨x, hx, h1⟩ := bind_eq_ok.mp h
    cases h1
    exact ⟨rfl, .invalid hp hx⟩
  | some x =>
    obtain ⟨packet, leftover⟩ := x
    rw [hp] at h
    cases packet with
    | lstatV1 path =>
      obtain ⟨x, hx, h1⟩ := bind_eq_ok.mp h
      cases h1
      obtain ⟨stat, rfl⟩ := handleLstatV1_stat hx
      exact ⟨rfl, .lstat hp⟩
    | quit =>
      cases h
      exact ⟨rfl, .quit hp⟩
    | recvV1 path =>
      obtain ⟨⟨result1, s1⟩, hrecv, h1⟩ := bind_eq_ok.mp h
      cases h1
      refine ⟨rfl, ?_⟩
      unfold handleRecvV1 at hrecv
      cases ho : fs.open_ env path with
      | ok file =>
        rw [ho] at hrecv
        cases hrecv
        exact .opened hp ho
      | error e =>
        rw [ho] at hrecv
        obtain ⟨x, hx, h2⟩ := bind_eq_ok.mp hrecv
        cases h2
        exact .unopened hp ho hx
    | sendV1 path mode =>
      simp only at h
      unfold handleSendV1 at h
      cases hc : fs.create env path with
      | ok x =>
        -- the push would be a receiver that the payload reaches
        unfold reaches at hr
        split at hr
        · cases hr
        · simp only [hp, hc] at hr
          cases hr
      | error e =>
        rw [hc] at h
        obtain ⟨x, hx, h1⟩ := bind_eq_ok.mp h
        cases h1
        exact ⟨rfl, .uncreated hp hc hx⟩

/-- A payload that reaches no receiver leaves the files alone and starts no push. -/
theorem handle_apart (hr : s.reaches env fs payload = none)
    (h : s.handle env fs payload = .ok (result, s', fs')) : fs' = fs ∧ s'.receiver = none := by
  have hkeep : s.receiver = none := receiver_none_iff.mpr (reaches_none hr)
  obtain ⟨rfl, hreq⟩ := requested_of_ok hr h
  cases hreq with
  | opened _ _ => exact ⟨rfl, rfl⟩
  | invalid _ _ => exact ⟨rfl, hkeep⟩
  | lstat _ => exact ⟨rfl, hkeep⟩
  | unopened _ _ _ => exact ⟨rfl, hkeep⟩
  | uncreated _ _ _ => exact ⟨rfl, hkeep⟩
  | quit _ => exact ⟨rfl, hkeep⟩

end SyncService

end Adibi
