import Mathlib.Logic.Equiv.Basic
import Adibi.Cleanup

/-!
# The files an event reaches

A sync service reaches at most one file by its name and one by a handle
(`Files`). Run in two file systems that agree on these, it answers the same and
does the same to them (`Fs.Twin`); what it leaves alone it leaves alone in both.
A file it creates may get another inode number in the second, so the two runs are
compared up to a permutation `π` of the numbers: no answer shows them.
-/

namespace Adibi

open Lib

/-- The files an event reaches: by the entry a path leads to, and by inode number. -/
structure Files where
  name : Option Path
  ino : Option Nat
  deriving DecidableEq

namespace Files

def none : Files := ⟨.none, .none⟩

def Disjoint (F G : Files) : Prop := (∀ p ∈ F.name, p ∉ G.name) ∧ ∀ i ∈ F.ino, i ∉ G.ino

theorem Disjoint.symm {F G : Files} (h : F.Disjoint G) : G.Disjoint F :=
  ⟨fun p hG hF => h.1 p hF hG, fun i hG hF => h.2 i hF hG⟩

instance (F G : Files) : Decidable (F.Disjoint G) := by
  unfold Disjoint
  infer_instance

/-- The files, with the new inode `n` if one is created. -/
def made (F : Files) (n : Nat) (new : Bool) : Files := if new then ⟨F.name, some n⟩ else F

end Files

/-! ## Two file systems -/

namespace Fs

variable {π : Equiv.Perm Nat} {F : Files} {k : Nat} {fs fs' fs0 fs0' : Fs}

/-- The two agree on the files `F`, up to their numbers. -/
structure Agree (π : Equiv.Perm Nat) (F : Files) (fs fs0 : Fs) : Prop where
  entry : fs0.entry = fs.entry
  names : ∀ p ∈ F.name, fs0.dir p = (fs.dir p).map π
  inodes : ∀ i ∈ F.ino, fs0.inodes (π i) = fs.inodes i

theorem Agree.none (π : Equiv.Perm Nat) (h : fs0.entry = fs.entry) : Agree π .none fs fs0 where
  entry := h
  names _ hp := nomatch hp
  inodes _ hi := nomatch hi

/-- Nothing but the entry `name` and the inode `ino` differs, and `k` inodes are new. -/
structure Only (name : Option Path) (ino : Option Nat) (k : Nat) (fs fs' : Fs) : Prop where
  entry : fs'.entry = fs.entry
  names : ∀ p, p ∉ name → fs'.dir p = fs.dir p
  inodes : ∀ i, i ∉ ino → fs'.inodes i = fs.inodes i
  nextIno : fs'.nextIno = fs.nextIno + k
  wf : fs.Wf → fs'.Wf

theorem Only.refl (name : Option Path) (ino : Option Nat) (fs : Fs) : Only name ino 0 fs fs :=
  ⟨rfl, fun _ _ => rfl, fun _ _ => rfl, rfl, id⟩

theorem Only.trans {name : Option Path} {ino : Option Nat} {fs1 fs2 fs3 : Fs}
    (h : Only name ino k fs1 fs2) (h' : Only name ino 0 fs2 fs3) : Only name ino k fs1 fs3 :=
  ⟨h'.entry.trans h.entry, fun p hp => (h'.names p hp).trans (h.names p hp),
    fun i hi => (h'.inodes i hi).trans (h.inodes i hi), h'.nextIno.trans h.nextIno,
    fun hwf => h'.wf (h.wf hwf)⟩

theorem only_setInode (name : Option Path) (fs : Fs) (i : Nat) (n : Inode) :
    Only name (some i) 0 fs (fs.setInode i n) where
  entry := rfl
  names _ _ := rfl
  inodes j hj := Function.update_of_ne (fun he => hj (by rw [he]; rfl)) ..
  nextIno := rfl
  wf := (fs.touched_setInode i n).wf

theorem only_unlink (ino : Option Nat) (fs : Fs) (path : Path) :
    Only (some (fs.entry path)) ino 0 fs (fs.setName path Option.none) where
  entry := rfl
  names q hq := Function.update_of_ne (fun he => hq (by rw [he]; rfl)) ..
  inodes _ _ := rfl
  nextIno := rfl
  wf hwf := hwf.unlink path

/-- From `fs` to `fs'` and from `fs0` to `fs0'` the same happened to the files `F`, and
nothing to others. -/
structure Twin (π : Equiv.Perm Nat) (F : Files) (k : Nat) (fs fs' fs0 fs0' : Fs) : Prop where
  only : Only F.name F.ino k fs fs'
  only0 : Only F.name (F.ino.map π) k fs0 fs0'
  agree : Agree π F fs' fs0'

theorem Twin.refl (h : Agree π F fs fs0) : Twin π F 0 fs fs fs0 fs0 :=
  ⟨.refl .., .refl .., h⟩

theorem Twin.trans {fs1 fs2 fs3 fs01 fs02 fs03 : Fs} (h : Twin π F k fs1 fs2 fs01 fs02)
    (h' : Twin π F 0 fs2 fs3 fs02 fs03) : Twin π F k fs1 fs3 fs01 fs03 :=
  ⟨h.only.trans h'.only, h.only0.trans h'.only0, h'.agree⟩

theorem Agree.setInode {name : Option Path} {i : Nat} (h : Agree π ⟨name, some i⟩ fs fs0) (n : Inode) :
    Twin π ⟨name, some i⟩ 0 fs (fs.setInode i n) fs0 (fs0.setInode (π i) n) where
  only := only_setInode ..
  only0 := only_setInode ..
  agree := by
    refine ⟨h.entry, h.names, fun j hj => ?_⟩
    cases hj
    simp

theorem Agree.unlink {path : Path} {ino : Option Nat} (h : Agree π ⟨some (fs.entry path), ino⟩ fs fs0) :
    Twin π ⟨some (fs.entry path), ino⟩ 0 fs (fs.setName path Option.none)
      fs0 (fs0.setName path Option.none) where
  only := only_unlink ..
  only0 := by
    rw [← h.entry]
    exact only_unlink ..
  agree := by
    refine ⟨h.entry, fun q hq => ?_, h.inodes⟩
    cases hq
    simp [setName, h.entry]

theorem Agree.name_eq {path : Path} (h : Agree π F fs fs0) (hp : fs.entry path ∈ F.name) :
    fs0.names path = (fs.names path).map π := by
  rw [Fs.names, h.entry]
  exact h.names _ hp

/-- The same file system, with the inodes renumbered. -/
structure Renamed (π : Equiv.Perm Nat) (fs fs' : Fs) : Prop where
  entry : fs'.entry = fs.entry
  names : ∀ p, fs'.dir p = (fs.dir p).map π
  inodes : ∀ i, fs'.inodes (π i) = fs.inodes i
  nextIno : fs'.nextIno = fs.nextIno

/-- **Two changes to different files commute.** `F` is changed first and then `G`, or
the other way round; `π` exchanges the numbers of the files they create. -/
theorem renamed_of_twins {G : Files} {l : Nat} {fsx fsy fsxy fsyx : Fs} (hinv : ∀ i, π (π i) = i)
    (hold : ∀ i < fs.nextIno, π i = i) (hwf : fs.Wf) (hx : Twin π F k fs fsx fsy fsyx)
    (hy : Twin π G l fs fsy fsx fsxy) (hname : ∀ p ∈ F.name, p ∉ G.name)
    (hino : ∀ i ∈ F.ino, π i ∉ G.ino) (hfix : ∀ i, i ∉ F.ino → π i ∉ G.ino → π i = i) :
    Renamed π fsxy fsyx where
  entry := by rw [hx.only0.entry, hy.only.entry, hy.only0.entry, hx.only.entry]
  names p := by
    by_cases hF : p ∈ F.name
    · rw [hx.agree.names p hF, hy.only0.names p (hname p hF)]
    · rw [hx.only0.names p hF]
      by_cases hG : p ∈ G.name
      · rw [hy.agree.names p hG, Option.map_map]
        cases fsy.dir p with
        | none => rfl
        | some i => exact congrArg some (hinv i).symm
      · rw [hy.only0.names p hG, hy.only.names p hG, hx.only.names p hF]
        cases hn : fs.dir p with
        | none => rfl
        | some i => rw [Option.map_some, hold i (hwf p i hn)]
  inodes i := by
    have hFπ : i ∉ F.ino → π i ∉ F.ino.map π := by
      rintro hF hmem
      obtain ⟨j, hj, hij⟩ := Option.mem_map.mp hmem
      rw [π.injective hij] at hj
      exact hF hj
    have hGπ : π i ∉ G.ino → i ∉ G.ino.map π := by
      rintro hG hmem
      obtain ⟨j, hj, hij⟩ := Option.mem_map.mp hmem
      rw [← hij, hinv] at hG
      exact hG hj
    by_cases hF : i ∈ F.ino
    · rw [hx.agree.inodes i hF, hy.only0.inodes i (hGπ (hino i hF))]
    · rw [hx.only0.inodes _ (hFπ hF)]
      by_cases hG : π i ∈ G.ino
      · have hag := hy.agree.inodes _ hG
        rw [hinv] at hag
        exact hag.symm
      · rw [hy.only0.inodes i (hGπ hG), hy.only.inodes _ hG, hx.only.inodes i hF, hfix i hF hG]
  nextIno := by
    rw [hx.only0.nextIno, hy.only.nextIno, hy.only0.nextIno, hx.only.nextIno]
    omega

end Fs

/-! ## Handles -/

def File.rename (π : Equiv.Perm Nat) (f : File) : File := ⟨π f.ino, f.moved⟩

def FileReceiver.rename (π : Equiv.Perm Nat) (r : FileReceiver) : FileReceiver :=
  { r with file := r.file.rename π }

def FileSender.rename (π : Equiv.Perm Nat) (s : FileSender) : FileSender :=
  { s with file := s.file.rename π }

def FileReceiver.files (entry : Path → Path) (r : FileReceiver) : Files :=
  ⟨some (entry r.path), some r.file.ino⟩

section

variable {π : Equiv.Perm Nat} {env : Env} {fs fs' fs0 : Fs}

theorem Fs.Agree.put {name : Option Path} {f : File} (h : Fs.Agree π ⟨name, some f.ino⟩ fs fs0)
    (data : Bytes) : (fs0.put (f.rename π) data).1 = (fs.put f data).1.rename π ∧
      Fs.Twin π ⟨name, some f.ino⟩ 0 fs (fs.put f data).2 fs0 (fs0.put (f.rename π) data).2 := by
  have hi : fs0.inodes (π f.ino) = fs.inodes f.ino := h.inodes _ rfl
  refine ⟨rfl, ?_⟩
  have ht := h.setInode { fs.inodes f.ino with
    content := Fs.writeAt (fs.inodes f.ino).content f.offset data }
  simp only [Fs.put, File.rename, hi]
  exact ht

theorem Fs.Agree.writeAll {name : Option Path} {f f' : File} {pos : Nat} {data : Bytes}
    {res : Except IoError Unit} (h : Fs.Agree π ⟨name, some f.ino⟩ fs fs0)
    (hw : fs.writeAll env f pos data = (res, f', fs')) :
    ∃ fs0', fs0.writeAll env (f.rename π) pos data = (res, f'.rename π, fs0') ∧ f'.ino = f.ino ∧
      Fs.Twin π ⟨name, some f.ino⟩ 0 fs fs' fs0 fs0' := by
  unfold Fs.writeAll at hw ⊢
  by_cases hd : data = []
  · rw [if_pos hd] at hw ⊢
    cases hw
    exact ⟨fs0, rfl, rfl, .refl h⟩
  · rw [if_neg hd] at hw ⊢
    cases hf : env.fail (.writeAll pos) with
    | none =>
      rw [hf] at hw
      cases hw
      exact ⟨_, rfl, rfl, (h.put data).2⟩
    | some e =>
      rw [hf] at hw
      cases hw
      exact ⟨_, rfl, rfl, (h.put _).2⟩

end

namespace FileReceiver

variable {π : Equiv.Perm Nat} {env : Env} {data : Bytes} {pos : Nat} {r r' : FileReceiver}
  {fs fs' fs0 : Fs} {res : FileReceiverResult}

theorem abort_twin (h : Fs.Agree π (r.files fs.entry) fs fs0) :
    Fs.Twin π (r.files fs.entry) 0 fs (r.abort env fs) fs0 ((r.rename π).abort env fs0) := by
  have hn : fs0.names r.path = (fs.names r.path).map π := h.name_eq rfl
  unfold abort Fs.removeFile
  cases hf : env.fail .removeFile with
  | some e => exact .refl h
  | none =>
    simp only [rename, hn]
    cases hp : fs.names r.path with
    | none => exact .refl h
    | some i => exact h.unlink

theorem finalize_twin {mtime : UInt32} (h : Fs.Agree π (r.files fs.entry) fs fs0)
    (hf : r.finalize env fs mtime = .ok (res, fs')) :
    ∃ fs0', (r.rename π).finalize env fs0 mtime = .ok (res, fs0') ∧
      Fs.Twin π (r.files fs.entry) 0 fs fs' fs0 fs0' := by
  have hi : fs0.inodes (π r.file.ino) = fs.inodes r.file.ino := h.inodes _ rfl
  unfold finalize Fs.setPermissions at hf ⊢
  cases hperm : env.fail .setPermissions with
  | some e =>
    simp only [hperm] at hf ⊢
    obtain ⟨response, hr, h1⟩ := bind_eq_ok.mp hf
    cases h1
    refine ⟨_, ?_, abort_twin h⟩
    show (failResponse (ascii "cannot set permissions on " ++ r.path.display ++ ascii ": " ++ e) >>=
      _) = _
    rw [hr]
    rfl
  | none =>
    simp only [hperm] at hf ⊢
    generalize hn : { fs.inodes r.file.ino with
      mode := ((fs.inodes r.file.ino).mode &&& ~~~0o7777) ||| (r.mode &&& 0o7777) } = n at hf
    have ht : Fs.Twin π (r.files fs.entry) 0 fs (fs.setInode r.file.ino n) fs0
      (fs0.setInode (π r.file.ino) n) := h.setInode n
    have hn0 : { fs0.inodes (r.rename π).file.ino with
        mode := ((fs0.inodes (r.rename π).file.ino).mode &&& ~~~0o7777) |||
          ((r.rename π).mode &&& 0o7777) } = n := by
      rw [← hn, ← hi]
      rfl
    rw [hn0]
    unfold Fs.setTimes at hf ⊢
    cases htime : env.fail .setTimes with
    | some e =>
      simp only [htime] at hf
      cases hf
      exact ⟨_, rfl, ht⟩
    | none =>
      simp only [htime] at hf
      cases hf
      refine ⟨_, rfl, ht.trans ?_⟩
      have hi1 := ht.agree.inodes r.file.ino rfl
      have ht1 := ht.agree.setInode
        { (fs.setInode r.file.ino n).inodes r.file.ino with mtime := (mtime.toNat : Int) }
      rw [← hi1] at ht1
      rw [← hi1]
      exact ht1

/-- Two ends of a pass of the receiver `r`, in `fs` and in `fs0`. -/
def PassTwin (π : Equiv.Perm Nat) (r : FileReceiver) (fs fs0 : Fs) : Pass → Pass → Prop
  | .next pos r1 fs1, .next pos0 r0 fs01 =>
    pos0 = pos ∧ r0 = r1.rename π ∧ r1.files fs.entry = r.files fs.entry ∧
      Fs.Twin π (r.files fs.entry) 0 fs fs1 fs0 fs01
  | .ret res r1 fs1, .ret res0 r0 fs01 =>
    res0 = res ∧ r0 = r1.rename π ∧ r1.files fs.entry = r.files fs.entry ∧
      Fs.Twin π (r.files fs.entry) 0 fs fs1 fs0 fs01
  | _, _ => False

theorem onFrame_twin {b : Bytes} {p : Pass} (h : Fs.Agree π (r.files fs.entry) fs fs0)
    (hp : r.onFrame env fs pos b = .ok p) :
    ∃ p0, (r.rename π).onFrame env fs0 pos b = .ok p0 ∧ PassTwin π r fs fs0 p p0 := by
  unfold onFrame at hp ⊢
  cases hf : parseSyncFrameHeader b with
  | none =>
    rw [hf] at hp
    obtain ⟨response, hr, h1⟩ := bind_eq_ok.mp hp
    cases h1
    simp only [badFrame, hr]
    exact ⟨_, rfl, rfl, rfl, rfl, abort_twin h⟩
  | some x =>
    obtain ⟨⟨id, len⟩, t⟩ := x
    rw [hf] at hp
    cases id with
    | data =>
      cases hp
      exact ⟨_, rfl, rfl, rfl, rfl, .refl h⟩
    | done =>
      obtain ⟨⟨result, fs1⟩, hfin, h1⟩ := bind_eq_ok.mp hp
      cases h1
      obtain ⟨fs01, h0, ht⟩ := finalize_twin h hfin
      simp only [onHeader, h0]
      exact ⟨_, rfl, rfl, rfl, rfl, ht⟩

/-- **A pass does the same in both.** -/
theorem receiveIter_twin {p : Pass} (h : Fs.Agree π (r.files fs.entry) fs fs0)
    (hp : receiveIter env data pos r fs = .ok p) :
    ∃ p0, receiveIter env data pos (r.rename π) fs0 = .ok p0 ∧ PassTwin π r fs fs0 p p0 := by
  unfold receiveIter at hp ⊢
  have hst0 : (r.rename π).state = r.state := rfl
  rw [hst0]
  cases hst : r.state with
  | header =>
    simp only [hst] at hp ⊢
    cases hsl : slice? data pos (pos + frameHeaderSize) with
    | none =>
      rw [hsl] at hp
      obtain ⟨buf, hb, h1⟩ := bind_eq_ok.mp hp
      cases h1
      simp only
      rw [hb]
      exact ⟨_, rfl, rfl, rfl, rfl, .refl h⟩
    | some s =>
      rw [hsl] at hp
      exact onFrame_twin h hp
  | partialHeader leftovers len =>
    simp only [hst] at hp ⊢
    by_cases hlen : len > frameHeaderSize
    · rw [if_pos hlen] at hp
      cases hp
    · rw [if_neg hlen] at hp ⊢
      cases hsl : slice? data pos (pos + (frameHeaderSize - len)) with
      | none =>
        rw [hsl] at hp
        obtain ⟨buf, hb, h1⟩ := bind_eq_ok.mp hp
        cases h1
        simp only
        rw [hb]
        exact ⟨_, rfl, rfl, rfl, rfl, .refl h⟩
      | some s =>
        rw [hsl] at hp
        obtain ⟨buf, hb, h1⟩ := bind_eq_ok.mp hp
        simp only
        rw [hb]
        exact onFrame_twin h h1
  | data remaining =>
    simp only [hst] at hp ⊢
    generalize (data.drop pos).take (min remaining (data.length - pos)) = chunk at hp ⊢
    obtain ⟨⟨wres, f1, fs1⟩, hw⟩ : ∃ x, fs.writeAll env r.file pos chunk = x := ⟨_, rfl⟩
    obtain ⟨fs01, hw0, hino, ht⟩ := h.writeAll hw
    have hw0' : fs0.writeAll env (r.rename π).file pos chunk = (wres, f1.rename π, fs01) := hw0
    rw [hw] at hp
    rw [hw0']
    have hfiles : ({ r with file := f1 } : FileReceiver).files fs.entry = r.files fs.entry := by
      simp only [files, hino]
    cases wres with
    | ok u =>
      cases hp
      exact ⟨_, rfl, rfl, rfl, hfiles, ht⟩
    | error e =>
      obtain ⟨response, hr, h1⟩ := bind_eq_ok.mp hp
      cases h1
      simp only
      rw [show (r.rename π).path = r.path from rfl, hr]
      have hagree : Fs.Agree π (r.files fs1.entry) fs1 fs01 := by
        rw [ht.only.entry]
        exact ht.agree
      have habort : Fs.Twin π _ 0 fs1 (r.abort env fs1) _ _ := abort_twin hagree
      rw [ht.only.entry] at habort
      exact ⟨_, rfl, rfl, rfl, hfiles, ht.trans habort⟩

/-- **A payload of a push does the same in both.** The induction is on what the
loop has left to do. -/
theorem receiveFrom_twin (h : Fs.Agree π (r.files fs.entry) fs fs0)
    (hr : receiveFrom env data pos r fs = .ok (res, r', fs')) :
    ∃ fs0', receiveFrom env data pos (r.rename π) fs0 = .ok (res, r'.rename π, fs0') ∧
      r'.files fs.entry = r.files fs.entry ∧ Fs.Twin π (r.files fs.entry) 0 fs fs' fs0 fs0' := by
  induction hm : 3 * (data.length - pos) + rank r.state using Nat.strong_induction_on
    generalizing pos r fs fs0 with
  | _ m ih =>
    subst hm
    by_cases hlt : pos < data.length
    · rcases receiveFrom_cases hlt hr with hp | ⟨pos1, r1, fs1, hp, h1⟩
      · obtain ⟨p0, hp0, hal⟩ := receiveIter_twin h hp
        cases p0 with
        | next pos0 r0 fs01 => exact hal.elim
        | ret res0 r0 fs01 =>
          obtain ⟨rfl, rfl, hfiles, ht⟩ := hal
          exact ⟨fs01, receiveFrom_ret hlt hp0, hfiles, ht⟩
      · obtain ⟨p0, hp0, hal⟩ := receiveIter_twin h hp
        cases p0 with
        | ret res0 r0 fs01 => exact hal.elim
        | next pos0 r0 fs01 =>
          obtain ⟨rfl, rfl, hfiles, ht⟩ := hal
          have hagree : Fs.Agree π (r1.files fs1.entry) fs1 fs01 := by
            rw [ht.only.entry, hfiles]
            exact ht.agree
          obtain ⟨fs02, h2, hfiles2, ht2⟩ := ih _ (receiveIter_decreases hlt hp).2 hagree h1 rfl
          rw [ht.only.entry, hfiles] at hfiles2 ht2
          exact ⟨fs02, (receiveFrom_next hlt hp0).trans h2, hfiles2, ht.trans ht2⟩
    · have hge : data.length ≤ pos := Nat.not_lt.mp hlt
      cases (receiveFrom_end hge).symm.trans hr
      exact ⟨fs0, receiveFrom_end hge, rfl, .refl h⟩

end FileReceiver

/-! ## A payload for a sync service -/

/-- The files `F` are among the first `m`, which keep their numbers, and are the same
in `fs0`. -/
structure Fs.Alike (π : Equiv.Perm Nat) (m : Nat) (F : Files) (fs fs0 : Fs) : Prop where
  old : ∀ i < m, π i = i
  bound : m ≤ fs.nextIno
  entry : fs0.entry = fs.entry
  named : ∀ p ∈ F.name, ∀ i, fs.dir p = some i → i < m
  names : ∀ p ∈ F.name, fs0.dir p = fs.dir p
  inodes : ∀ i ∈ F.ino, fs0.inodes i = fs.inodes i

namespace Fs

variable {π : Equiv.Perm Nat} {m : Nat} {F : Files} {env : Env} {fs fs' fs0 : Fs} {path : Path}
  {file : File}

theorem Alike.agree (h : Alike π m F fs fs0) (hi : ∀ i ∈ F.ino, i < m) : Agree π F fs fs0 := by
  refine ⟨h.entry, fun p hp => ?_, fun i hmem => by rw [h.old i (hi i hmem), h.inodes i hmem]⟩
  rw [h.names p hp]
  cases hn : fs.dir p with
  | none => rfl
  | some i => rw [Option.map_some, h.old i (h.named p hp i hn)]

def at_ (fs : Fs) (path : Path) : Files := ⟨some (fs.entry path), fs.names path⟩

theorem Alike.agree_at (h : Alike π m (fs.at_ path) fs fs0) : Agree π (fs.at_ path) fs fs0 :=
  h.agree fun i hi => h.named _ rfl i hi

theorem Alike.names_at (h : Alike π m (fs.at_ path) fs fs0) : fs0.names path = fs.names path := by
  rw [Fs.names, h.entry]
  exact h.names _ rfl

def creates (env : Env) (fs : Fs) (path : Path) : Bool :=
  (env.fail .create).isNone && (fs.names path).isNone

theorem create_error_iff {e : IoError} : fs.create env path = .error e ↔ env.fail .create = some e := by
  unfold create
  cases hf : env.fail .create with
  | some e' =>
    refine ⟨fun h => ?_, fun h => ?_⟩
    · cases h
      rfl
    · cases h
      rfl
  | none =>
    refine ⟨fun h => ?_, fun h => nomatch h⟩
    cases hn : fs.names path with
    | none =>
      simp only [hn] at h
      cases h
    | some i =>
      simp only [hn] at h
      cases h

theorem Created.only {k : Nat} (h : Created fs path file fs') (hn : fs'.nextIno = fs.nextIno + k) :
    Only (some (fs.entry path)) (some file.ino) k fs fs' where
  entry := h.entry
  names q hq := h.dir q fun he => hq (by rw [he]; rfl)
  inodes i hi := h.inodes i fun he => hi (by rw [he]; rfl)
  nextIno := hn
  wf := h.wf

theorem create_twin (h : Alike π m (fs.at_ path) fs fs0)
    (hnew : fs.creates env path = true → π fs.nextIno = fs0.nextIno)
    (hc : fs.create env path = .ok (file, fs')) :
    ∃ fs0', fs0.create env path = .ok (file.rename π, fs0') ∧ file.ino < fs'.nextIno ∧
      (⟨some (fs.entry path), some file.ino⟩ : Files) =
        Files.made (fs.at_ path) fs.nextIno (fs.creates env path) ∧
      Twin π ⟨some (fs.entry path), some file.ino⟩ (fs.creates env path).toNat fs fs' fs0 fs0' := by
  have hname := h.names_at
  have hcr := created_of_ok hc
  cases hf : env.fail .create with
  | some e =>
    simp only [create, hf] at hc
    cases hc
  | none =>
    cases hn : fs.names path with
    | some i =>
      have hk : fs.creates env path = false := by simp [creates, hn]
      simp only [create, hf, hn] at hc
      cases hc
      have hi : i < m := h.named _ rfl i hn
      have hagree : Agree π ⟨some (fs.entry path), some i⟩ fs fs0 := by
        rw [← hn]
        exact h.agree_at
      have hnode : fs0.inodes i = fs.inodes i := h.inodes i hn
      refine ⟨fs0.setInode i { fs0.inodes i with content := [] }, ?_,
        Nat.lt_of_lt_of_le hi h.bound, by rw [hk, at_, hn]; rfl, ?_⟩
      · simp only [create, hf, hname, hn, File.rename, h.old i hi]
      · have ht := hagree.setInode { fs.inodes i with content := [] }
        rw [h.old i hi] at ht
        rw [hk, hnode]
        exact ht
    | none =>
      have hk : fs.creates env path = true := by simp [creates, hf, hn]
      have hpi := hnew hk
      simp only [create, hf, hn] at hc
      cases hc
      have hc0 : ∃ fs0', fs0.create env path = .ok (⟨fs0.nextIno, []⟩, fs0') ∧
          fs0'.nextIno = fs0.nextIno + 1 ∧ fs0'.inodes fs0.nextIno = ⟨[], 0o100644, 0⟩ := by
        simp only [create, hf, hname, hn]
        exact ⟨_, rfl, rfl, setInode_self ..⟩
      obtain ⟨fs0', hc0, hnext0, hnode0⟩ := hc0
      have hcr0 := created_of_ok hc0
      rw [hk, File.rename, hpi]
      refine ⟨fs0', hc0, Nat.lt_succ_self _, rfl, hcr.only rfl, ?_,
        ⟨hcr0.entry.trans (h.entry.trans hcr.entry.symm), fun q hq => ?_, fun i hi => ?_⟩⟩
      · rw [Option.map_some, hpi, ← h.entry]
        exact hcr0.only hnext0
      · cases hq
        have hnamed := hcr.named
        have hnamed0 := hcr0.named
        rw [names, hcr.entry] at hnamed
        rw [names, hcr0.entry, h.entry] at hnamed0
        rw [hnamed0, hnamed, Option.map_some, hpi]
      · cases hi
        rw [hpi, hnode0]
        exact (setInode_self ..).symm

end Fs

namespace SyncService

def rename (π : Equiv.Perm Nat) (s : SyncService) : SyncService :=
  match s.state with
  | .idle => s
  | .sending sender => ⟨.sending (sender.rename π)⟩
  | .receiving r => ⟨.receiving (r.rename π)⟩

/-- The inode of the service's handle is one of the first `n`. -/
def Below (n : Nat) (s : SyncService) : Prop :=
  match s.state with
  | .idle => True
  | .sending sender => sender.file.ino < n
  | .receiving r => r.file.ino < n

/-- The files a payload reaches: those of the push in progress, or the one that a
request names. -/
def files (fs : Fs) (s : SyncService) (payload : Bytes) : Files :=
  match s.state with
  | .receiving r => r.files fs.entry
  | _ =>
    match parseSyncPacket payload with
    | some (.lstatV1 path, _) | some (.recvV1 path, _) | some (.sendV1 path _, _) =>
      (fs.at_ path)
    | _ => .none

def creates (env : Env) (fs : Fs) (s : SyncService) (payload : Bytes) : Bool :=
  match s.state with
  | .receiving _ => false
  | _ =>
    match parseSyncPacket payload with
    | some (.sendV1 path _, _) => fs.creates env path
    | _ => false

variable {π : Equiv.Perm Nat} {env : Env} {m n : Nat} {fs fs' fs0 : Fs} {s s' : SyncService}
  {payload : Bytes} {result : SyncResult}

theorem Below.rename (h : s.Below n) (hπ : ∀ i < n, π i = i) : s.rename π = s := by
  obtain ⟨state⟩ := s
  cases state with
  | idle => rfl
  | sending sender =>
    have hi : π sender.file.ino = sender.file.ino := hπ _ h
    simp only [SyncService.rename, FileSender.rename, File.rename, hi]
  | receiving r =>
    have hi : π r.file.ino = r.file.ino := hπ _ h
    simp only [SyncService.rename, FileReceiver.rename, File.rename, hi]

theorem Below.mono (h : s.Below n) (hm : n ≤ m) : s.Below m := by
  unfold Below at *
  split
  · trivial
  · rename_i sender hs
    rw [hs] at h
    exact Nat.lt_of_lt_of_le h hm
  · rename_i r hs
    rw [hs] at h
    exact Nat.lt_of_lt_of_le h hm

theorem failResult_ne {msg : Bytes} (h : failResult msg = .ok result) : result ≠ .continue := by
  obtain ⟨x, -, h1⟩ := bind_eq_ok.mp h
  cases h1
  exact fun he => nomatch he

/-- A payload left the service `s'` and did the same to the files `F` of `fs` and of
`fs0`; a transfer it continues reads one of them. -/
structure Twin (π : Equiv.Perm Nat) (F : Files) (k : Nat) (fs fs0 : Fs) (result : SyncResult)
    (s' : SyncService) (fs' fs0' : Fs) : Prop where
  below : s'.Below fs'.nextIno
  sends : result = .continue → ∀ sender, s'.state = .sending sender → sender.file.ino ∈ F.ino
  files : Fs.Twin π F k fs fs' fs0 fs0'

theorem Twin.still {F : Files} (hb : s.Below fs.nextIno) (hr : result ≠ .continue)
    (h : Fs.Agree π F fs fs0) : Twin π F 0 fs fs0 result s fs fs0 :=
  ⟨hb, fun he => absurd he hr, .refl h⟩

theorem handle_receiving_twin {r : FileReceiver} (hst : s.state = .receiving r)
    (hi : r.file.ino < m) (h : Fs.Alike π m (r.files fs.entry) fs fs0)
    (hh : s.handle env fs payload = .ok (result, s', fs')) :
    ∃ fs0', s.handle env fs0 payload = .ok (result, s'.rename π, fs0') ∧
      Twin π (r.files fs.entry) 0 fs fs0 result s' fs' fs0' := by
  have hagree : Fs.Agree π (r.files fs.entry) fs fs0 := h.agree fun i hmem => by
    cases hmem
    exact hi
  have hr : r.rename π = r := by
    simp only [FileReceiver.rename, File.rename, h.old _ hi]
  simp only [handle, hst] at hh ⊢
  obtain ⟨⟨res, r', fs1⟩, hrec, h1⟩ := bind_eq_ok.mp hh
  obtain ⟨fs01, hrec0, hfiles, ht⟩ := FileReceiver.receiveFrom_twin hagree hrec
  rw [hr] at hrec0
  have hrec0 : r.receive env payload fs0 = .ok (res, r'.rename π, fs01) := hrec0
  have hino : r'.file.ino = r.file.ino := Option.some.inj (congrArg Files.ino hfiles)
  rw [hrec0]
  cases res with
  | «continue» =>
    cases h1
    refine ⟨fs01, rfl, ?_, fun _ sender hs => SyncState.noConfusion hs, ht⟩
    show r'.file.ino < fs1.nextIno
    rw [hino, ht.only.nextIno]
    exact Nat.lt_of_lt_of_le hi h.bound
  | done response =>
    cases h1
    exact ⟨fs01, rfl, trivial, fun he => SyncResult.noConfusion he, ht⟩

theorem handleLstatV1_alike {path : Path} (h : Fs.Alike π m (fs.at_ path) fs fs0) :
    handleLstatV1 env fs0 path = handleLstatV1 env fs path := by
  have hname := h.names_at
  have hlook : fs0.lookup path = fs.lookup path := by
    unfold Fs.lookup
    rw [hname]
    cases hn : fs.names path with
    | none => rfl
    | some i => rw [Option.map_some, Option.map_some, h.inodes i hn]
  unfold handleLstatV1 Fs.symlinkMetadata
  rw [hlook]

theorem handleLstatV1_ne {path : Path} (h : handleLstatV1 env fs path = .ok result) :
    result ≠ .continue := by
  rintro rfl
  unfold handleLstatV1 at h
  split at h
  · obtain ⟨size, -, h1⟩ := bind_eq_ok.mp h
    obtain ⟨mtime, -, h2⟩ := bind_eq_ok.mp h1
    cases h2
  · cases h

theorem handleRecvV1_twin {path : Path} (hb : s.Below m)
    (h : Fs.Alike π m (fs.at_ path) fs fs0)
    (hh : s.handleRecvV1 env fs path = .ok (result, s')) :
    s.handleRecvV1 env fs0 path = .ok (result, s'.rename π) ∧
      Twin π (fs.at_ path) 0 fs fs0 result s' fs fs0 := by
  have hopen : fs0.open_ env path = fs.open_ env path := by
    unfold Fs.open_
    rw [h.names_at]
  unfold handleRecvV1 at hh ⊢
  rw [hopen]
  cases ho : fs.open_ env path with
  | error e =>
    rw [ho] at hh
    obtain ⟨x, hx, h1⟩ := bind_eq_ok.mp hh
    cases h1
    refine ⟨?_, .still (hb.mono h.bound) (failResult_ne hx) h.agree_at⟩
    rw [hb.rename h.old]
    exact hh
  | ok file =>
    rw [ho] at hh
    cases hh
    have hn : fs.names path = some file.ino := by
      unfold Fs.open_ at ho
      split at ho
      · cases ho
      · split at ho
        · rename_i i hi
          cases ho
          exact hi
        · cases ho
    have hi := h.named _ rfl _ hn
    refine ⟨?_, Nat.lt_of_lt_of_le hi h.bound, fun _ sender hs => ?_, .refl h.agree_at⟩
    · simp only [rename, FileSender.rename, File.rename, h.old _ hi]
    · cases hs
      exact hn

theorem handleSendV1_twin {path : Path} {mode : UInt32} {leftover : Bytes} (hb : s.Below m)
    (h : Fs.Alike π m (fs.at_ path) fs fs0)
    (hnew : fs.creates env path = true → π fs.nextIno = fs0.nextIno)
    (hh : s.handleSendV1 env fs path mode leftover = .ok (result, s', fs')) :
    ∃ fs0', s.handleSendV1 env fs0 path mode leftover = .ok (result, s'.rename π, fs0') ∧
      Twin π (Files.made (fs.at_ path) fs.nextIno (fs.creates env path))
        (fs.creates env path).toNat fs fs0 result s' fs' fs0' := by
  unfold handleSendV1 at hh ⊢
  cases hc : fs.create env path with
  | error e =>
    have hf := Fs.create_error_iff.mp hc
    have hk : fs.creates env path = false := by simp [Fs.creates, hf]
    have hc0 : fs0.create env path = .error e := Fs.create_error_iff.mpr hf
    rw [hc] at hh
    obtain ⟨x, hx, h1⟩ := bind_eq_ok.mp hh
    cases h1
    rw [hc0, hk, hb.rename h.old]
    exact ⟨fs0, by simp only [hx]; rfl, .still (hb.mono h.bound) (failResult_ne hx) h.agree_at⟩
  | ok x =>
    obtain ⟨file, fs1⟩ := x
    obtain ⟨fs01, hc0, hlt, hmade, ht⟩ := Fs.create_twin h hnew hc
    rw [hc] at hh
    rw [hc0, ← hmade]
    simp only at hh ⊢
    by_cases hl : leftover = []
    · rw [if_neg (fun hne => hne hl)] at hh ⊢
      cases hh
      exact ⟨fs01, rfl, hlt, fun _ sender hs => (nomatch hs), ht⟩
    · rw [if_pos hl] at hh ⊢
      obtain ⟨⟨res, r', fs2⟩, hrec, h1⟩ := bind_eq_ok.mp hh
      have hf : FileReceiver.files fs1.entry ⟨file, path, mode, .header⟩ =
          ⟨some (fs.entry path), some file.ino⟩ := by
        rw [FileReceiver.files, ht.only.entry]
      obtain ⟨fs02, hrec0, hfiles, ht2⟩ := FileReceiver.receiveFrom_twin (by rw [hf]; exact ht.agree) hrec
      rw [hf] at hfiles ht2
      have hrec0 : FileReceiver.receive env leftover ⟨file.rename π, path, mode, .header⟩ fs01 =
        .ok (res, r'.rename π, fs02) := hrec0
      have hino : r'.file.ino = file.ino := Option.some.inj (congrArg Files.ino hfiles)
      have htwin := ht.trans ht2
      rw [hrec0]
      cases res with
      | «continue» =>
        cases h1
        refine ⟨fs02, rfl, ?_, fun _ sender hs => (nomatch hs), htwin⟩
        show r'.file.ino < fs2.nextIno
        rw [hino, ht2.only.nextIno]
        exact hlt
      | done response =>
        cases h1
        refine ⟨fs02, ?_, hb.mono ?_, fun he => (nomatch he), htwin⟩
        · rw [hb.rename h.old]
          rfl
        · have := h.bound
          rw [htwin.only.nextIno]
          omega

theorem files_request (hno : ∀ r, s.state ≠ .receiving r) : s.files fs payload =
    match parseSyncPacket payload with
    | some (.lstatV1 path, _) | some (.recvV1 path, _) | some (.sendV1 path _, _) =>
      (fs.at_ path)
    | _ => .none := by
  unfold files
  cases hs : s.state with
  | receiving r => exact absurd hs (hno r)
  | idle => rfl
  | sending sender => rfl

theorem creates_request (hno : ∀ r, s.state ≠ .receiving r) : s.creates env fs payload =
    match parseSyncPacket payload with
    | some (.sendV1 path _, _) => fs.creates env path
    | _ => false := by
  unfold creates
  cases hs : s.state with
  | receiving r => exact absurd hs (hno r)
  | idle => rfl
  | sending sender => rfl

/-- **A payload is answered the same in both**, and does the same to the files it
reaches. -/
theorem handle_twin (hb : s.Below m)
    (h : Fs.Alike π m (s.files fs payload) fs fs0)
    (hnew : s.creates env fs payload = true → π fs.nextIno = fs0.nextIno)
    (hh : s.handle env fs payload = .ok (result, s', fs')) :
    ∃ fs0', s.handle env fs0 payload = .ok (result, s'.rename π, fs0') ∧
      Twin π ((s.files fs payload).made fs.nextIno (s.creates env fs payload))
        (s.creates env fs payload).toNat fs fs0 result s' fs' fs0' := by
  by_cases hst : ∃ r, s.state = .receiving r
  · obtain ⟨r, hst⟩ := hst
    have hf : s.files fs payload = r.files fs.entry := by simp only [files, hst]
    have hk : s.creates env fs payload = false := by simp only [creates, hst]
    have hi : r.file.ino < m := by
      unfold Below at hb
      rw [hst] at hb
      exact hb
    rw [hf] at h ⊢
    rw [hk]
    exact handle_receiving_twin hst hi h hh
  have hno : ∀ r, s.state ≠ .receiving r := fun r he => hst ⟨r, he⟩
  have hkeep := hb.rename h.old
  have hb' := hb.mono h.bound
  rw [files_request hno] at h ⊢
  rw [creates_request hno] at hnew ⊢
  rw [handle_request hno] at hh ⊢
  unfold handleRequest at hh ⊢
  cases hp : parseSyncPacket payload with
  | none =>
    rw [hp] at hh
    obtain ⟨x, hx, h1⟩ := bind_eq_ok.mp hh
    cases h1
    refine ⟨fs0, ?_, .still hb' (failResult_ne hx) (.none π h.entry)⟩
    rw [hkeep]
    simp only [hx]
    rfl
  | some x =>
    obtain ⟨packet, leftover⟩ := x
    rw [hp] at hh h hnew
    cases packet with
    | lstatV1 path =>
      obtain ⟨x, hx, h1⟩ := bind_eq_ok.mp hh
      cases h1
      refine ⟨fs0, ?_, .still hb' ?_ h.agree_at⟩
      · rw [hkeep]
        simp only [handleLstatV1_alike h, hx]
        rfl
      · exact handleLstatV1_ne hx
    | recvV1 path =>
      obtain ⟨⟨x, s1⟩, hx, h1⟩ := bind_eq_ok.mp hh
      cases h1
      obtain ⟨h0, ht⟩ := handleRecvV1_twin hb h hx
      refine ⟨fs0, ?_, ht⟩
      simp only [h0]
      rfl
    | sendV1 path mode => exact handleSendV1_twin hb h hnew hh
    | quit =>
      cases hh
      exact ⟨fs0, by rw [hkeep], .still hb' (fun he => nomatch he) (.none π h.entry)⟩

end SyncService

/-! ## Effects -/

theorem FileSender.nextFrame_twin {π : Equiv.Perm Nat} {env : Env} {fs fs0 : Fs} {s : FileSender}
    (h : fs0.inodes (π s.file.ino) = fs.inodes s.file.ino) :
    (s.rename π).nextFrame env fs0 =
      (s.nextFrame env fs).map fun x => (x.1, x.2.rename π) := by
  have hread : fs0.read env (s.rename π).file payloadSizeMaxBytes =
      (fs.read env s.file payloadSizeMaxBytes).map fun x => (x.1, x.2.rename π) := by
    unfold Fs.read
    cases env.fail .read with
    | some e => rfl
    | none =>
      simp only [FileSender.rename, File.rename, h]
      rfl
  unfold nextFrame
  rw [hread, show (s.rename π).done = s.done from rfl]
  cases s.done with
  | true => rfl
  | false =>
    simp only [Bool.false_eq_true, if_false]
    cases fs.read env s.file payloadSizeMaxBytes with
    | error e =>
      simp only [Except.map]
      cases failResponse (ascii "read error: " ++ e) <;> rfl
    | ok x =>
      obtain ⟨chunk, file⟩ := x
      cases chunk with
      | nil => rfl
      | cons b bs =>
        simp only [Except.map]
        cases dataResponse (b :: bs) <;> rfl

theorem FileSender.nextFrame_ino {env : Env} {fs : Fs} {s s' : FileSender} {f : Option SyncResponse}
    (h : s.nextFrame env fs = .ok (f, s')) : s'.file.ino = s.file.ino := by
  have hread : ∀ chunk file, fs.read env s.file payloadSizeMaxBytes = .ok (chunk, file) →
      file.ino = s.file.ino := by
    intro chunk file hr
    unfold Fs.read at hr
    split at hr
    · cases hr
    · cases hr
      rfl
  unfold nextFrame at h
  split at h
  · cases h
    rfl
  · split at h
    · rename_i file hr
      cases h
      exact hread _ _ hr
    · rename_i chunk file _ hr
      obtain ⟨x, -, h1⟩ := bind_eq_ok.mp h
      cases h1
      exact hread _ _ hr
    · obtain ⟨x, -, h1⟩ := bind_eq_ok.mp h
      cases h1
      rfl

def Service.rename (π : Equiv.Perm Nat) : Service → Service
  | .sync svc => .sync (svc.rename π)
  | svc => svc

def Service.Below (n : Nat) : Service → Prop
  | .sync svc => svc.Below n
  | _ => True

theorem Service.Below.mono {m n : Nat} {svc : Service} (h : svc.Below n) (hm : n ≤ m) :
    svc.Below m := by
  cases svc with
  | sync svc => exact SyncService.Below.mono h hm
  | shell sh => trivial
  | reboot => trivial
  | forward fwd => trivial

/-- The entry with its file handle renumbered. -/
def Stream.rename (π : Equiv.Perm Nat) (st : Stream) : Stream :=
  { st with service := st.service.rename π }

theorem Stream.rename_of_below {π : Equiv.Perm Nat} {n : Nat} {st : Stream} (h : st.service.Below n)
    (hπ : ∀ i < n, π i = i) : st.rename π = st := by
  obtain ⟨r, svc, w, c⟩ := st
  cases svc with
  | sync svc =>
    have hs : svc.rename π = svc := SyncService.Below.rename h hπ
    simp only [rename, Service.rename, hs]
  | shell sh => rfl
  | reboot => rfl
  | forward fwd => rfl

theorem Stream.rename_rename {π : Equiv.Perm Nat} (h : ∀ i, π (π i) = i) (st : Stream) :
    (st.rename π).rename π = st := by
  obtain ⟨r, svc, w, c⟩ := st
  rcases svc with ⟨⟨_ | sender | r⟩⟩ | _ | _ | _
  case sync.sending =>
    simp only [rename, Service.rename, SyncService.rename, FileSender.rename, File.rename, h]
  case sync.receiving =>
    simp only [rename, Service.rename, SyncService.rename, FileReceiver.rename, File.rename, h]
  all_goals rfl

/-- Two outcomes of an event for the stream it strikes: the same submissions, the
same entry up to the number of its file, and the same done to the files `F`. -/
structure Effect.Twin (π : Equiv.Perm Nat) (F : Files) (k : Nat) (os os0 : Os) (e e0 : Effect) :
    Prop where
  stream : e0.stream = e.stream.map (Stream.rename π)
  outs : e0.outs = e.outs
  below : ∀ st, e.stream = some st → st.service.Below e.os.fs.nextIno
  files : Fs.Twin π F k os.fs e.os.fs os0.fs e0.os.fs

section

variable {π : Equiv.Perm Nat} {m : Nat} {F : Files} {env : Env} {v : ProtocolVersion} {i : UInt32}
  {os os0 : Os} {st : Stream} {e : Effect}

theorem continueSync_idle (h : st.waitingForOkay = true ∨
      ∀ sender, st.service ≠ .sync ⟨.sending sender⟩) (os0 : Os) :
    continueSync env v i os0 (st.rename π) = .ok ⟨some (st.rename π), os0, []⟩ := by
  unfold continueSync
  rw [show (st.rename π).waitingForOkay = st.waitingForOkay from rfl]
  by_cases hw : st.waitingForOkay = true
  · rw [if_pos hw]
  · rw [if_neg hw]
    have hno := h.resolve_left hw
    obtain ⟨r, svc, w, c⟩ := st
    rcases svc with ⟨⟨_ | sender | _⟩⟩ | _ | _ | _
    case sync.sending => exact absurd rfl (hno sender)
    all_goals rfl

theorem continueSync_twin (hb : st.service.Below os.fs.nextIno) (h : Fs.Agree π F os.fs os0.fs)
    (hs : ∀ sender, st.service = .sync ⟨.sending sender⟩ → sender.file.ino ∈ F.ino)
    (he : continueSync env v i os st = .ok e) :
    ∃ e0, continueSync env v i os0 (st.rename π) = .ok e0 ∧ Effect.Twin π F 0 os os0 e e0 := by
  have hremote : (st.rename π).remoteId = st.remoteId := rfl
  have hnext : ∀ sender, st.service = .sync ⟨.sending sender⟩ →
      (st.rename π).service = .sync ⟨.sending (sender.rename π)⟩ ∧
        (sender.rename π).nextFrame env os0.fs =
          (sender.nextFrame env os.fs).map fun x => (x.1, x.2.rename π) := by
    intro sender hsv
    refine ⟨?_, FileSender.nextFrame_twin (h.inodes _ (hs sender hsv))⟩
    simp only [Stream.rename, hsv, Service.rename, SyncService.rename]
  rcases continueSync_cases he with ⟨rfl, hidle⟩ |
    ⟨hw, sender, sender', hdr, data, o, hsv, hn, ho, rfl⟩ | ⟨hw, sender, sender', hsv, hn, rfl⟩
  · refine ⟨⟨some (st.rename π), os0, []⟩, ?_, rfl, rfl, fun st' hst' => ?_, .refl h⟩
    · exact continueSync_idle hidle os0
    · cases hst'
      exact hb
  · obtain ⟨hsv0, hn0⟩ := hnext sender hsv
    have hw0 : (st.rename π).waitingForOkay = false := hw
    refine ⟨⟨some { st.rename π with service := .sync ⟨.sending (sender'.rename π)⟩, waitingForOkay := true },
      os0, [o]⟩, ?_, rfl, rfl, fun st' hst' => ?_, .refl h⟩
    · simp only [continueSync, hw0, hsv0, hn0, hn, Bool.false_eq_true, if_false, Except.map, ok_bind,
        hremote, ho, pure_eq_ok]
    · cases hst'
      show sender'.file.ino < os.fs.nextIno
      rw [FileSender.nextFrame_ino hn]
      rw [hsv] at hb
      exact hb
  · obtain ⟨hsv0, hn0⟩ := hnext sender hsv
    have hw0 : (st.rename π).waitingForOkay = false := hw
    refine ⟨⟨some { st.rename π with service := .sync ⟨.idle⟩ }, os0, []⟩, ?_, rfl, rfl,
      fun st' hst' => ?_, .refl h⟩
    · simp only [continueSync, hw0, hsv0, hn0, hn, Bool.false_eq_true, if_false, Except.map, ok_bind,
        pure_eq_ok]
    · cases hst'
      trivial

theorem Effect.Twin.still {e0 : Effect} (h : Fs.Alike π m F os.fs os0.fs)
    (hs : e0.stream = e.stream) (ho : e0.outs = e.outs)
    (hb : ∀ st, e.stream = some st → st.service.Below m) (hfs : e.os.fs = os.fs)
    (hfs0 : e0.os.fs = os0.fs) : Effect.Twin π .none 0 os os0 e e0 where
  stream := by
    rw [hs]
    cases hst : e.stream with
    | none => rfl
    | some st => rw [Option.map_some, Stream.rename_of_below (hb st hst) h.old]
  outs := ho
  below st hst := by
    rw [hfs]
    exact (hb st hst).mono h.bound
  files := by
    rw [hfs, hfs0]
    exact .refl (.none π h.entry)

def Service.sendFiles : Service → Files
  | .sync ⟨.sending sender⟩ => ⟨none, some sender.file.ino⟩
  | _ => .none

theorem onOkay_twin (hb : st.service.Below m) (h : Fs.Alike π m st.service.sendFiles os.fs os0.fs)
    (he : onOkay env v i os st = .ok e) :
    ∃ e0, onOkay env v i os0 st = .ok e0 ∧ Effect.Twin π st.service.sendFiles 0 os os0 e e0 := by
  unfold onOkay at he ⊢
  simp only at he ⊢
  have hread : ∀ op, (readOut op i >>= fun o =>
        pure (⟨some { st with waitingForOkay := false }, os, [o]⟩ : Effect)) = .ok e →
      ∃ e0, (readOut op i >>= fun o =>
        pure (⟨some { st with waitingForOkay := false }, os0, [o]⟩ : Effect)) = .ok e0 ∧
      Effect.Twin π .none 0 os os0 e e0 := by
    intro op hr
    obtain ⟨o, ho, h1⟩ := bind_eq_ok.mp hr
    cases h1
    refine ⟨⟨some { st with waitingForOkay := false }, os0, [o]⟩, by rw [ho]; rfl,
      .still h rfl rfl (fun st' hst' => ?_) rfl rfl⟩
    cases hst'
    exact hb
  cases hsv : st.service with
  | shell sh =>
    rw [hsv] at he
    simp only [hsv] at hread ⊢
    exact hread .ptyRead he
  | forward fwd =>
    rw [hsv] at he
    simp only [hsv] at hread ⊢
    exact hread .socketRead he
  | reboot =>
    rw [hsv] at he
    cases he
  | sync svc =>
    rw [hsv] at he hb h
    simp only at he ⊢
    have hagree : Fs.Agree π (Service.sync svc).sendFiles os.fs os0.fs := by
      refine h.agree fun j hj => ?_
      obtain ⟨state⟩ := svc
      cases state with
      | idle => cases hj
      | receiving r => cases hj
      | sending sender =>
        cases hj
        exact hb
    obtain ⟨e0, he0, ht⟩ := continueSync_twin (Service.Below.mono hb h.bound) hagree
      (fun sender hs => by cases hs; exact rfl) he
    rw [Stream.rename_of_below hb h.old] at he0
    exact ⟨e0, he0, ht⟩

theorem onSync_twin {svc : SyncService} {payload : Bytes} (hb : svc.Below m)
    (h : Fs.Alike π m (svc.files os.fs payload) os.fs os0.fs)
    (hnew : svc.creates env os.fs payload = true → π os.fs.nextIno = os0.fs.nextIno)
    (he : onSync env v i os st svc payload = .ok e) :
    ∃ e0, onSync env v i os0 st svc payload = .ok e0 ∧
      Effect.Twin π ((svc.files os.fs payload).made os.fs.nextIno (svc.creates env os.fs payload))
        (svc.creates env os.fs payload).toNat os os0 e e0 := by
  unfold onSync at he ⊢
  obtain ⟨⟨result, svc', fs'⟩, hh, h1⟩ := bind_eq_ok.mp he
  obtain ⟨fs0', hh0, ht⟩ := SyncService.handle_twin hb h hnew hh
  rw [hh0]
  simp only [ok_bind] at h1 ⊢
  have hsend : ∀ data, (wrteOut v i st.remoteId data >>= fun o =>
        pure (⟨some { st with service := .sync svc' }, { os with fs := fs' }, [o]⟩ : Effect)) = .ok e →
      ∃ e0, (wrteOut v i st.remoteId data >>= fun o =>
        pure (⟨some { st with service := .sync (svc'.rename π) }, { os0 with fs := fs0' }, [o]⟩ :
          Effect)) = .ok e0 ∧
        Effect.Twin π ((svc.files os.fs payload).made os.fs.nextIno (svc.creates env os.fs payload))
          (svc.creates env os.fs payload).toNat os os0 e e0 := by
    intro data hd
    obtain ⟨o, ho, h2⟩ := bind_eq_ok.mp hd
    cases h2
    refine ⟨⟨some { st with service := .sync (svc'.rename π) }, { os0 with fs := fs0' }, [o]⟩,
      by rw [ho]; rfl, rfl, rfl, fun st' hst' => ?_, ht.files⟩
    cases hst'
    exact ht.below
  cases result with
  | stat stat => exact hsend _ h1
  | data hdr data => exact hsend _ h1
  | quit =>
    cases h1
    exact ⟨_, rfl, rfl, rfl, fun st' hst' => (nomatch hst'), ht.files⟩
  | «continue» =>
    have hagree : Fs.Agree π _ ({ os with fs := fs' } : Os).fs ({ os0 with fs := fs0' } : Os).fs :=
      ht.files.agree
    have hbelow : ({ st with service := .sync svc' } : Stream).service.Below
      ({ os with fs := fs' } : Os).fs.nextIno := ht.below
    obtain ⟨e0, he0, hc⟩ := continueSync_twin hbelow hagree
      (fun sender hs => ht.sends rfl sender (by cases hs; rfl)) h1
    exact ⟨e0, he0, hc.stream, hc.outs, hc.below, ht.files.trans hc.files⟩

def Service.files (fs : Fs) (payload : Bytes) : Service → Files
  | .sync svc => svc.files fs payload
  | _ => .none

def Service.creates (env : Env) (fs : Fs) (payload : Bytes) : Service → Bool
  | .sync svc => svc.creates env fs payload
  | _ => false

/-- Whether a socket takes a payload does not depend on what it got before. -/
theorem writeLoop_fst (env : Env) (socket k : Nat) (os os0 : Os) (data : Bytes) :
    (ForwardService.writeLoop env socket k os0 data).1 =
      (ForwardService.writeLoop env socket k os data).1 := by
  induction hn : data.length using Nat.strong_induction_on generalizing data k os os0 with
  | _ n ih =>
    subst hn
    rw [ForwardService.writeLoop.eq_def env socket k os0 data,
      ForwardService.writeLoop.eq_def env socket k os data]
    by_cases hd : data = []
    · rw [dif_pos hd, dif_pos hd]
    · rw [dif_neg hd, dif_neg hd]
      have hpos := List.length_pos_iff.mpr hd
      cases hf : env.fail (.socketWrite k) with
      | some e => rfl
      | none =>
        simp only
        exact ih _ (by simp only [List.length_drop]; omega) _ _ _ _ rfl

theorem written_twin {r r0 : Except IoError Unit × Os}
    (hb : st.service.Below m) (h : Fs.Alike π m F os.fs os0.fs) (h1 : r0.1 = r.1)
    (hfs : r.2.fs = os.fs) (hfs0 : r0.2.fs = os0.fs) :
    Effect.Twin π .none 0 os os0 (written i st r) (written i st r0) := by
  obtain ⟨res, os1⟩ := r
  obtain ⟨res0, os01⟩ := r0
  simp only at h1 hfs hfs0
  subst h1
  cases res0 with
  | ok u =>
    refine .still h rfl rfl (fun st' hst' => ?_) hfs hfs0
    cases hst'
    exact hb
  | error e => exact .still h rfl rfl (fun st' hst' => nomatch hst') hfs hfs0

theorem onWrte_twin {payload : Bytes} (hb : st.service.Below m)
    (h : Fs.Alike π m (st.service.files os.fs payload) os.fs os0.fs)
    (hnew : st.service.creates env os.fs payload = true → π os.fs.nextIno = os0.fs.nextIno)
    (he : onWrte env v i os st payload = .ok e) :
    ∃ e0, onWrte env v i os0 st payload = .ok e0 ∧
      Effect.Twin π ((st.service.files os.fs payload).made os.fs.nextIno
        (st.service.creates env os.fs payload)) (st.service.creates env os.fs payload).toNat os os0 e e0 := by
  unfold onWrte at he ⊢
  cases hsv : st.service with
  | sync svc =>
    rw [hsv] at he hb h hnew
    exact onSync_twin hb h hnew he
  | reboot =>
    rw [hsv] at he
    cases he
  | shell sh =>
    rw [hsv] at he
    cases he
    refine ⟨_, rfl, written_twin (by rw [hsv]; trivial) h ?_ (shell_writeInput_fs ..)
      (shell_writeInput_fs ..)⟩
    unfold ShellService.writeInput
    by_cases hd : payload = []
    · rw [if_pos hd, if_pos hd]
    · rw [if_neg hd, if_neg hd]
      cases env.fail .ptyWrite <;> rfl
  | forward fwd =>
    rw [hsv] at he
    cases he
    exact ⟨_, rfl, written_twin (by rw [hsv]; trivial) h (writeLoop_fst ..) (writeLoop_fs ..)
      (writeLoop_fs ..)⟩

theorem onClse_twin {r : UInt32} (h : Fs.Alike π m F os.fs os0.fs)
    (he : onClse env i os st r = .ok e) :
    ∃ e0, onClse env i os0 st r = .ok e0 ∧ Effect.Twin π .none 0 os os0 e e0 := by
  have hfs := onClse_fs he
  unfold onClse at he ⊢
  by_cases hr : st.remoteId ≠ r
  · rw [if_pos hr] at he
    cases he
  rw [if_neg hr] at he ⊢
  cases hsv : st.service with
  | forward fwd =>
    rw [hsv] at he
    cases he
    refine ⟨_, rfl, .still h rfl rfl (fun st' hst' => ?_) hfs ?_⟩
    · cases hst'
      exact trivial
    · unfold ForwardService.shutdownWrite Os.shutdownWrite
      cases env.fail .shutdown <;> rfl
  | sync svc =>
    rw [hsv] at he
    cases he
    exact ⟨_, rfl, .still h rfl rfl (fun st' hst' => nomatch hst') rfl rfl⟩
  | shell sh =>
    rw [hsv] at he
    cases he
    exact ⟨_, rfl, .still h rfl rfl (fun st' hst' => nomatch hst') rfl rfl⟩
  | reboot =>
    rw [hsv] at he
    cases he
    exact ⟨_, rfl, .still h rfl rfl (fun st' hst' => nomatch hst') rfl rfl⟩

theorem onRead_twin {op : UserDataOpType} {res : Int} (hb : st.service.Below m)
    (h : Fs.Alike π m F os.fs os0.fs) (he : onRead v i os st op res = .ok e) :
    ∃ e0, onRead v i os0 st op res = .ok e0 ∧ Effect.Twin π .none 0 os os0 e e0 := by
  unfold onRead at he ⊢
  by_cases hr : res ≤ 0
  · rw [if_pos hr] at he ⊢
    cases he
    exact ⟨_, rfl, .still h rfl rfl (fun st' hst' => nomatch hst') rfl rfl⟩
  rw [if_neg hr] at he ⊢
  have hkeep : ∀ w st', some { st with waitingForOkay := w } = some st' →
      st'.service.Below m := by
    intro w st' hst'
    cases hst'
    exact hb
  cases hd : Sys.readData op st.service res.toNat with
  | none =>
    rw [hd] at he
    cases he
    exact ⟨_, rfl, .still h rfl rfl (hkeep st.waitingForOkay) rfl rfl⟩
  | some data =>
    rw [hd] at he
    obtain ⟨o, ho, h1⟩ := bind_eq_ok.mp he
    cases h1
    refine ⟨⟨some { st with waitingForOkay := true }, os0, [o]⟩, ?_,
      .still h rfl rfl (hkeep true) rfl rfl⟩
    simp only [ho]
    rfl

end

end Adibi
