import Adibi.Cleanup
import Adibi.Sync.Session

/-!
# The sync service is a file store

A `Store` is what a sync session is for: files by path, an answer to each
request, nothing of payloads, frames or handles. LSTAT describes a file, RECV
returns it, SEND replaces it, under every name the file has. A session refines
it (`session_refines_store`): whatever the cut of the host's bytes and whatever
the reads of a pull return, the replies spell the store's answers and the files
are the store's.

The frames of a pull are the frames of a push, so a file can be copied from one
device to another by passing on what the first sent (`pull_feeds_push`).
-/

namespace Adibi

open Lib

/-! ## The store -/

/-- Files by path. `sameFile` tells which paths are links to one file. -/
structure Store where
  files : Path → Option Inode
  sameFile : Path → Path → Bool

/-- An answer to a request, as the store gives it. -/
inductive Answer where
  | stat (s : SyncStat)
  | frame (r : SyncResponse)
  | file (content : Bytes)
  deriving DecidableEq

namespace Store

/-- The file under `path`, whatever it is called, is now `n`. -/
def put (st : Store) (path : Path) (n : Inode) : Store :=
  { st with files := fun q => if st.sameFile q path then some n else st.files q }

/-- What LSTAT tells; zeros of a path that names nothing. -/
def stat (st : Store) (path : Path) : Except Panic SyncStat :=
  match st.files path with
  | some n => do
    let size ← SyncService.narrow .fileTooLarge n.content.length
    let mtime ← SyncService.narrow .mtimeRange n.mtime
    pure ⟨idLstatV1, n.mode, size, mtime⟩
  | none => pure ⟨idLstatV1, 0, 0, 0⟩

/-- The file a push leaves: a new file has the mode of `File::create` beside the
permission bits. -/
def pushed (st : Store) (req : SendRequest) (body : PushBody) : Inode where
  content := body.chunks.flatten
  mode := chmod (((st.files req.path).map Inode.mode).getD 0o100644) req.mode
  mtime := body.mtime.toNat

def serve (st : Store) : SyncRequest → Except Panic (List Answer × Store)
  | .lstat path _ => do
    let s ← st.stat path
    pure ([.stat s], st)
  | .recv path _ =>
    match st.files path with
    | some n => pure ([.file n.content], st)
    | none => do
      let response ← failResponse (ascii "cannot open " ++ path.display ++ ascii ": " ++
        ascii "No such file or directory (os error 2)")
      pure ([.frame response], st)
  | .send req body => pure ([.frame okayResponse], st.put req.path (st.pushed req body))
  | .quit _ => pure ([], st)

def run (st : Store) : List SyncRequest → Except Panic (List Answer × Store)
  | [] => pure ([], st)
  | r :: rs => do
    let (answers, st) ← st.serve r
    let (more, st) ← st.run rs
    pure (answers ++ more, st)

end Store

/-! ## Frames of a file -/

def chunkResponse (chunk : Bytes) : SyncResponse := (⟨.data, UInt32.ofNat chunk.length⟩, chunk)

/-- `content` cut as `FileSender` may cut it. -/
structure Chunked (content : Bytes) (chunks : List Bytes) : Prop where
  flatten : chunks.flatten = content
  ne_nil : ∀ c ∈ chunks, c ≠ []
  length_le : ∀ c ∈ chunks, c.length ≤ payloadSizeMaxBytes

theorem Chunked.nil : Chunked [] [] := ⟨rfl, List.forall_mem_nil _, List.forall_mem_nil _⟩

theorem Chunked.cons {c content : Bytes} {chunks : List Bytes} (hne : c ≠ [])
    (hle : c.length ≤ payloadSizeMaxBytes) (h : Chunked content chunks) :
    Chunked (c ++ content) (c :: chunks) where
  flatten := by rw [List.flatten_cons, h.flatten]
  ne_nil := List.forall_mem_cons.mpr ⟨hne, h.ne_nil⟩
  length_le := List.forall_mem_cons.mpr ⟨hle, h.length_le⟩

def fileFrames (chunks : List Bytes) : List SyncResponse := chunks.map chunkResponse ++ [doneResponse]

/-- The replies spell the answer. -/
def Answer.Sent : Answer → List Reply → Prop
  | .stat s, replies => replies = [.stat s]
  | .frame r, replies => replies = [.frame r]
  | .file content, replies => ∃ chunks, Chunked content chunks ∧
      replies = (fileFrames chunks).map .frame

namespace FileSender

variable {env : Env} {fs : Fs} {s s' : FileSender} {f : SyncResponse}

theorem nextFrame_eof (henv : env.fail .read = none) (hd : s.done = false)
    (h : (fs.inodes s.file.ino).content = s.file.moved) :
    s.nextFrame env fs = .ok (some doneResponse, ⟨s.file, true⟩) := by
  have hdrop : (fs.inodes s.file.ino).content.drop s.file.offset = [] := by
    rw [h, File.offset, List.drop_length]
  simp only [nextFrame, hd, Bool.false_eq_true, if_false, Fs.read, henv, hdrop, List.take_nil,
    List.append_nil]

theorem nextFrame_chunk {rest : Bytes} (henv : env.fail .read = none) (hd : s.done = false)
    (h : (fs.inodes s.file.ino).content = s.file.moved ++ rest) (hne : rest ≠ []) :
    ∃ c more, rest = c ++ more ∧ c ≠ [] ∧ c.length ≤ payloadSizeMaxBytes ∧
      s.nextFrame env fs = .ok (some (chunkResponse c), ⟨⟨s.file.ino, s.file.moved ++ c⟩, false⟩) := by
  obtain ⟨n, hn⟩ : ∃ n, min payloadSizeMaxBytes (max 1 (env.amount .read)) = n + 1 :=
    Nat.exists_eq_add_one.mpr (by simp only [payloadSizeMaxBytes]; omega)
  have hle : n + 1 ≤ payloadSizeMaxBytes := by
    rw [← hn]
    exact Nat.min_le_left _ _
  have hdrop : (fs.inodes s.file.ino).content.drop s.file.offset = rest := by
    rw [h, File.offset, List.drop_left]
  cases rest with
  | nil => exact absurd rfl hne
  | cons b bs =>
    have hlen : (b :: bs.take n).length ≤ payloadSizeMaxBytes := by
      rw [List.length_cons, List.length_take]
      omega
    have hlt : (b :: bs.take n).length < 2 ^ 32 := by
      simp only [payloadSizeMaxBytes] at hlen
      omega
    refine ⟨b :: bs.take n, bs.drop n, by simp, by simp, hlen, ?_⟩
    simp only [nextFrame, hd, Bool.false_eq_true, if_false, Fs.read, henv, hdrop, hn,
      List.take_succ_cons, dataResponse, lenU32, hlt, if_true, ok_bind, pure_eq_ok]
    rfl

theorem drain_done {env : Nat → Env} {k : Nat} (h : s.done = true) : s.drain env k fs = .ok [] := by
  have hn : s.nextFrame (env k) fs = .ok (none, s) := if_pos h
  rw [drain]
  split <;> simp_all

theorem drain_frame {env : Nat → Env} {k : Nat} (h : s.nextFrame (env k) fs = .ok (some f, s')) :
    s.drain env k fs = s'.drain env (k + 1) fs >>= fun frames => pure (f :: frames) := by
  rw [drain]
  split <;> simp_all

/-- A pull sends what is left of the file, however the reads cut it, and DONE. -/
theorem drain_file {env : Nat → Env} {rest : Bytes} (henv : ∀ k, (env k).fail .read = none) (k : Nat)
    (hd : s.done = false) (h : (fs.inodes s.file.ino).content = s.file.moved ++ rest) :
    ∃ chunks, Chunked rest chunks ∧ s.drain env k fs = .ok (fileFrames chunks) := by
  induction hlen : rest.length using Nat.strong_induction_on generalizing rest s k with
  | _ n ih =>
    by_cases hrest : rest = []
    · subst hrest
      rw [List.append_nil] at h
      refine ⟨[], .nil, ?_⟩
      rw [drain_frame (nextFrame_eof (henv k) hd h), drain_done rfl]
      rfl
    · obtain ⟨c, more, rfl, hc, hle, hn⟩ := nextFrame_chunk (henv k) hd h hrest
      have hpos : 0 < c.length := List.length_pos_of_ne_nil hc
      have hmore : (fs.inodes s.file.ino).content = (s.file.moved ++ c) ++ more := by
        rw [h, List.append_assoc]
      rw [List.length_append] at hlen
      obtain ⟨chunks, hch, hdr⟩ :=
        ih more.length (by omega) (s := ⟨⟨s.file.ino, s.file.moved ++ c⟩, false⟩) (k + 1) rfl hmore rfl
      refine ⟨c :: chunks, .cons hc hle hch, ?_⟩
      rw [drain_frame hn, hdr]
      rfl

end FileSender

/-! ## Pushes -/

namespace Fs

variable {fs fs' fs1 : Fs} {path p q : Path} {n : Inode}

/-- Spellings of one path, or two names of one file. -/
def sameFile (fs : Fs) (p q : Path) : Bool :=
  fs.entry p == fs.entry q || ((fs.names p).isSome && fs.names p == fs.names q)

theorem sameFile_iff : fs.sameFile p q = true ↔
    fs.entry p = fs.entry q ∨ ∃ i, fs.names p = some i ∧ fs.names q = some i := by
  simp only [sameFile, Bool.or_eq_true, beq_iff_eq, Bool.and_eq_true, Option.isSome_iff_exists]
  constructor
  · rintro (h | ⟨⟨i, hi⟩, he⟩)
    · exact .inl h
    · exact .inr ⟨i, hi, by rw [← he, hi]⟩
  · rintro (h | ⟨i, hp, hq⟩)
    · exact .inl h
    · exact .inr ⟨⟨i, hp⟩, by rw [hp, hq]⟩

/-- The store a file system holds. -/
def store (fs : Fs) : Store := ⟨fs.lookup, fs.sameFile⟩

/-- The file under `path` is now `n`, and no other file has changed. -/
structure Stored (fs : Fs) (path : Path) (n : Inode) (fs' : Fs) : Prop where
  entry : fs'.entry = fs.entry
  named : fs'.names path = some (fs.target path)
  inode : fs'.inodes (fs.target path) = n
  names : ∀ q, fs.entry q ≠ fs.entry path → fs'.names q = fs.names q
  others : ∀ i, i ≠ fs.target path → fs'.inodes i = fs.inodes i
  wf : fs.Wf → fs'.Wf

/-- Another path names the file a push to `path` writes only if `path` does too. -/
theorem Wf.named_target (hwf : fs.Wf) (hq : fs.names q = some (fs.target path)) :
    fs.names path = some (fs.target path) := by
  unfold target at hq ⊢
  cases hn : fs.names path with
  | some i => rfl
  | none =>
    rw [hn] at hq
    exact absurd (hwf _ _ hq) (Nat.lt_irrefl _)

theorem names_of_entry (h : fs.entry q = fs.entry p) : fs.names q = fs.names p := congrArg fs.dir h

theorem Stored.named_of_entry (h : fs.Stored path n fs') (hq : fs.entry q = fs.entry path) :
    fs'.names q = some (fs.target path) := by
  rw [names_of_entry (p := path) (by rw [h.entry, hq]), h.named]

theorem Stored.sameFile (h : fs.Stored path n fs') (hwf : fs.Wf) : fs'.sameFile = fs.sameFile := by
  -- a name of the file that `path` gets now was one of the file `path` named before
  have key : ∀ {a b}, fs.entry a ≠ fs.entry path → fs.entry b = fs.entry path →
      ((∃ i, fs'.names a = some i ∧ fs'.names b = some i) ↔
        ∃ i, fs.names a = some i ∧ fs.names b = some i) := by
    intro a b ha hb
    rw [h.names a ha, h.named_of_entry hb, names_of_entry hb]
    constructor
    · rintro ⟨i, hi, ht⟩
      cases ht
      exact ⟨_, hi, hwf.named_target hi⟩
    · rintro ⟨i, hi, hp⟩
      exact ⟨i, hi, by rw [target, hp]; rfl⟩
  funext a b
  rw [Bool.eq_iff_iff, sameFile_iff, sameFile_iff, h.entry]
  by_cases hab : fs.entry a = fs.entry b
  · simp only [hab, true_or]
  · simp only [hab, false_or]
    by_cases ha : fs.entry a = fs.entry path
    · have hk := key (fun hb => hab (ha.trans hb.symm)) ha
      simp only [and_comm] at hk ⊢
      exact hk
    · by_cases hb : fs.entry b = fs.entry path
      · exact key ha hb
      · rw [h.names a ha, h.names b hb]

theorem Stored.store (h : fs.Stored path n fs') (hwf : fs.Wf) : fs'.store = fs.store.put path n := by
  have hfiles : fs'.lookup = fun q => if fs.sameFile q path then some n else fs.lookup q := by
    funext q
    by_cases hq : fs.entry q = fs.entry path
    · rw [if_pos (sameFile_iff.mpr (.inl hq)), lookup, h.named_of_entry hq, Option.map_some, h.inode]
    · unfold lookup
      rw [h.names q hq]
      by_cases hs : fs.sameFile q path = true
      · obtain ⟨i, hi, hp⟩ := (sameFile_iff.mp hs).resolve_left hq
        have ht : fs.target path = i := by
          rw [target, hp]
          rfl
        rw [if_pos hs, hi, Option.map_some, ← ht, h.inode]
      · rw [if_neg hs]
        cases hi : fs.names q with
        | none => rfl
        | some i =>
          have hne : i ≠ fs.target path := by
            rintro rfl
            exact hs (sameFile_iff.mpr (.inr ⟨_, hi, hwf.named_target hi⟩))
          rw [Option.map_some, Option.map_some, h.others i hne]
  rw [Fs.store, h.sameFile hwf, hfiles]
  rfl

end Fs

theorem Fs.Stored.touched {fs0 fs fs' : Fs} {path : Path} {n : Inode} (h : fs0.Stored path n fs)
    (ht : Fs.Touched (fs0.target path) fs fs') :
    fs0.Stored path (fs'.inodes (fs0.target path)) fs' where
  entry := ht.entry.trans h.entry
  named := by rw [ht.names, h.named]
  inode := rfl
  names q hq := by rw [ht.names, h.names q hq]
  others i hi := (ht.others i hi).trans (h.others i hi)
  wf hwf := ht.wf (h.wf hwf)

namespace FileReceiver

variable {env : Env} {r : FileReceiver} {fs0 fs : Fs} {req : SendRequest} {body : PushBody}

/-- The receiver of a push that began in `fs0`, with the bytes `b` still to come. -/
structure Midway (fs0 : Fs) (req : SendRequest) (body : PushBody) (r : FileReceiver) (fs : Fs)
    (b : Bytes) : Prop where
  ino : r.file.ino = fs0.target req.path
  mode : r.mode = req.mode
  wf : r.state.Wf
  atEnd : r.AtEnd fs
  stored : fs0.Stored req.path (fs.inodes (fs0.target req.path)) fs
  created : (fs.inodes (fs0.target req.path)).mode = (fs0.fresh req.path).mode
  completes : ∃ out, Completes r.state.abs b (.okay body.mtime) out ∧
    r.file.moved ++ out = body.chunks.flatten

theorem midway_start (henv : env.Succeeds) (fs0 : Fs) (req : SendRequest) (body : PushBody) :
    ∃ fs, fs0.create env req.path = .ok (⟨fs0.target req.path, []⟩, fs) ∧
      (SyncService.receiverOf req (fs0.target req.path)).Midway fs0 req body fs body.encode := by
  obtain ⟨fs, hc, hname, hinode⟩ := Fs.create_ok (henv .create) fs0 req.path
  have hcr := Fs.created_of_ok hc
  have hcontent : (fs0.fresh req.path).content = [] := by
    unfold Fs.fresh
    split <;> rfl
  refine ⟨fs, hc, rfl, rfl, trivial, ?_, ⟨hcr.entry, hname, rfl, fun _ => hcr.names, hcr.inodes, hcr.wf⟩,
    by rw [hinode], _, body.completes, rfl⟩
  show [] = (fs.inodes (fs0.target req.path)).content
  rw [hinode, hcontent]

theorem Midway.part {p b : Bytes} (henv : env.Succeeds) (h : r.Midway fs0 req body fs (p ++ b))
    (hb : b ≠ []) : ∃ r' fs', r.receive env p fs = .ok (.continue, r', fs') ∧
      r'.Midway fs0 req body fs' b := by
  obtain ⟨out, ⟨hrun, hpre⟩, hout⟩ := h.completes
  obtain ⟨res, r', fs', he, hf⟩ := receive_sim henv.pushOk p h.wf h.atEnd
  have hpend := hpre p (List.prefix_append p b) (by simpa using hb)
  cases res with
  | done response =>
    obtain ⟨v, hv, hs⟩ := hf
    rw [hv] at hpend
    cases hpend
    exact hs.elim
  | «continue» =>
    refine ⟨r', fs', he, ?_⟩
    have hend := hf.atEnd h.atEnd
    obtain ⟨hwf, habs, rfl, hr⟩ := hf
    have happ : ∀ q, pushMachine.run r.state.abs (p ++ q) =
        ((pushMachine.run r'.state.abs q).1,
          (pushMachine.run r.state.abs p).2 ++ (pushMachine.run r'.state.abs q).2) := by
      intro q
      rw [Mealy.run_append, ← habs]
    have hfile : r'.file = (fs.put r.file (pushMachine.run r.state.abs p).2).1 := by
      rw [hr]
      rfl
    rw [happ] at hrun
    have hput := fs.touched_put r.file (pushMachine.run r.state.abs p).2
    rw [h.ino] at hput
    refine ⟨by rw [hfile]; exact h.ino, by rw [hr]; exact h.mode, hwf, hend, h.stored.touched hput, ?_,
      (pushMachine.run r'.state.abs b).2, ⟨?_, fun q hq hne => ?_⟩, ?_⟩
    · have hinode := fs.put_inode r.file (pushMachine.run r.state.abs p).2
      rw [h.ino] at hinode
      rw [hinode]
      exact h.created
    · rw [← (Prod.mk.inj hrun).1]
    · have hq' := hpre (p ++ q) ((List.prefix_append_right_inj p).mpr hq) (by simpa using hne)
      rw [happ] at hq'
      exact hq'
    · rw [← hout, ← (Prod.mk.inj hrun).2, hfile, ← List.append_assoc]
      rfl

theorem finalize_ok (henv : env.Succeeds) (r : FileReceiver) (fs : Fs) (mtime : UInt32) :
    r.finalize env fs mtime = .ok (.done okayResponse,
      fs.setInode r.file.ino ⟨(fs.inodes r.file.ino).content,
        chmod (fs.inodes r.file.ino).mode r.mode, mtime.toNat⟩) := by
  simp only [finalize, Fs.setPermissions, henv .setPermissions, Fs.setTimes, henv .setTimes,
    Fs.setInode_self, Fs.setInode_setInode, chmod]

theorem Midway.done {b : Bytes} (henv : env.Succeeds) (h : r.Midway fs0 req body fs b) :
    ∃ r' fs', r.receive env b fs = .ok (.done okayResponse, r', fs') ∧
      fs0.Stored req.path (fs0.store.pushed req body) fs' := by
  obtain ⟨out, ⟨hrun, -⟩, hout⟩ := h.completes
  obtain ⟨res, r', fs', he, hf⟩ := receive_sim henv.pushOk b h.wf h.atEnd
  rw [hrun] at hf
  cases res with
  | «continue» =>
    have hv := r'.state.verdict_abs
    rw [hf.2.1] at hv
    cases hv
  | done response =>
    obtain ⟨v, hv, hs⟩ := hf
    cases hv
    obtain ⟨rfl, hfin⟩ := hs
    rw [finalize_ok henv] at hfin
    simp only [Except.ok.injEq, Prod.mk.injEq, true_and] at hfin
    subst hfin
    refine ⟨r', _, he, ?_⟩
    have hwrite : Fs.writeAt (fs.inodes (fs0.target req.path)).content r.file.offset out =
        body.chunks.flatten := by
      have hend : r.file.moved = (fs.inodes (fs0.target req.path)).content := by
        rw [← h.ino]
        exact h.atEnd
      rw [File.offset, ← hout, hend, Fs.writeAt_length]
    have hmode : (fs0.fresh req.path).mode =
        ((fs0.lookup req.path).map Inode.mode).getD 0o100644 := by
      unfold Fs.fresh Fs.lookup
      cases fs0.names req.path <;> rfl
    have hpushed : fs0.store.pushed req body = ⟨body.chunks.flatten,
        chmod (fs.inodes (fs0.target req.path)).mode req.mode, body.mtime.toNat⟩ := by
      rw [h.created, hmode]
      rfl
    have hino : (r.wrote fs out).file.ino = fs0.target req.path := h.ino
    have ht := fs.touched_setInode (fs0.target req.path) (fs0.store.pushed req body)
    have hst := h.stored.touched ht
    rw [Fs.setInode_self] at hst
    rw [hino]
    simp only [wrote, Fs.put, h.ino, Fs.setInode_self, Fs.setInode_setInode, hwrite, h.mode, ← hpushed]
    exact hst

end FileReceiver

theorem SyncService.handle_push {env : Env} (henv : env.Succeeds) (fs : Fs) (req : SendRequest)
    (body : PushBody) : ∃ fs', SyncService.new.handle env fs (req.encode ++ body.encode) =
        .ok (.data okayResponse.1 okayResponse.2, .new, fs') ∧
      fs.Stored req.path (fs.store.pushed req body) fs' := by
  obtain ⟨fs1, hc, hm⟩ := FileReceiver.midway_start henv fs req body
  obtain ⟨r', fs', hrec, hst⟩ := hm.done henv
  refine ⟨fs', ?_, hst⟩
  rw [handle_send hc]
  simp only [handle]
  exact congrArg (· >>= _) hrec

namespace SyncService

variable {env : Env} {fs : Fs} {path : Path}

theorem handle_lstat (henv : env.Succeeds) (fs : Fs) (lt : path.length < 2 ^ 32) :
    SyncService.new.handle env fs (SyncRequest.lstat path lt).encode =
      fs.store.stat path >>= fun s => .ok (.stat s, .new, fs) := by
  have hp := (SyncRequest.lstat path lt).parse_head []
  simp only [handle, new, handleRequest, SyncRequest.encode, SyncRequest.tail, hp, SyncRequest.packet,
    handleLstatV1, Fs.symlinkMetadata, henv .symlinkMetadata, Store.stat, Fs.store]
  cases hl : fs.lookup path with
  | none => rfl
  | some n =>
    simp only [bind_assoc]
    rfl

theorem handle_recv_some {i : Nat} (henv : env.Succeeds) (lt : path.length < 2 ^ 32)
    (hn : fs.names path = some i) :
    SyncService.new.handle env fs (SyncRequest.recv path lt).encode =
      .ok (.continue, ⟨.sending ⟨⟨i, []⟩, false⟩⟩, fs) := by
  have hp := (SyncRequest.recv path lt).parse_head []
  simp only [handle, new, handleRequest, SyncRequest.encode, SyncRequest.tail, hp, SyncRequest.packet,
    handleRecvV1, Fs.open_, henv .open, hn]
  rfl

theorem handle_recv_none (henv : env.Succeeds) (lt : path.length < 2 ^ 32)
    (hn : fs.names path = none) :
    SyncService.new.handle env fs (SyncRequest.recv path lt).encode =
      failResponse (ascii "cannot open " ++ path.display ++ ascii ": " ++
        ascii "No such file or directory (os error 2)") >>= fun r => .ok (.data r.1 r.2, .new, fs) := by
  have hp := (SyncRequest.recv path lt).parse_head []
  simp only [handle, new, handleRequest, SyncRequest.encode, SyncRequest.tail, hp, SyncRequest.packet,
    handleRecvV1, Fs.open_, henv .open, hn, failResult, bind_assoc]
  rfl

end SyncService

/-! ## Sessions -/

namespace Session

variable {env : Nat → Env} {x : Session}

/-- The session got to where the store got: with its answers spelled out, its
files and its panics. -/
def Meets (x : Session) (got : Except Panic Session) : Except Panic (List Answer × Store) → Prop
  | .error p => got = .error p
  | .ok (answers, st) => ∃ y groups, got = .ok y ∧ y.fs.Wf ∧ y.fs.store = st ∧
      List.Forall₂ Answer.Sent answers groups ∧ y.replies = x.replies ++ groups.flatten

theorem meets_one {got : Except Panic Session} {y : Session} {a : Answer} {replies : List Reply}
    (hy : got = .ok y) (hwf : y.fs.Wf) (ha : a.Sent replies) (hr : y.replies = x.replies ++ replies) :
    x.Meets got (.ok ([a], y.fs.store)) :=
  ⟨y, [replies], hy, hwf, rfl, .cons ha .nil, by simpa using hr⟩

theorem Idle.lstat_meets (henv : ∀ k, (env k).Succeeds) (h : x.Idle) (hwf : x.fs.Wf) {path : Path}
    (lt : path.length < 2 ^ 32) :
    x.Meets (x.serve env (SyncRequest.lstat path lt).encode)
      (x.fs.store.serve (.lstat path lt)) := by
  obtain ⟨hx, hs⟩ := h
  simp only [serve, hx, Bool.false_eq_true, if_false, hs, SyncService.handle_lstat (henv _) x.fs lt,
    Store.serve]
  cases hst : x.fs.store.stat path with
  | error p => rfl
  | ok s => exact meets_one (y := ⟨.new, x.fs, _, false⟩) rfl hwf rfl rfl

theorem Idle.recv_meets (henv : ∀ k, (env k).Succeeds) (h : x.Idle) (hwf : x.fs.Wf) {path : Path}
    (lt : path.length < 2 ^ 32) :
    x.Meets (x.serve env (SyncRequest.recv path lt).encode)
      (x.fs.store.serve (.recv path lt)) := by
  obtain ⟨hx, hs⟩ := h
  have hfiles : x.fs.store.files path = (x.fs.names path).map x.fs.inodes := rfl
  simp only [serve, hx, Bool.false_eq_true, if_false, hs, Store.serve, hfiles]
  cases hn : x.fs.names path with
  | none =>
    rw [SyncService.handle_recv_none (henv _) lt hn]
    simp only [Option.map_none]
    cases hf : failResponse (ascii "cannot open " ++ path.display ++ ascii ": " ++
      ascii "No such file or directory (os error 2)") with
    | error p => rfl
    | ok r => exact meets_one (y := ⟨.new, x.fs, _, false⟩) rfl hwf rfl rfl
  | some i =>
    rw [SyncService.handle_recv_some (henv _) lt hn]
    obtain ⟨chunks, hch, hd⟩ := FileSender.drain_file (s := ⟨⟨i, []⟩, false⟩)
      (fun k => henv k .read) x.replies.length rfl (List.nil_append _).symm
    refine meets_one (y := ⟨.new, x.fs, _, false⟩) ?_ hwf ⟨chunks, hch, rfl⟩ rfl
    show (FileSender.drain env x.replies.length x.fs ⟨⟨i, []⟩, false⟩ >>= fun frames =>
      Except.ok (⟨.new, x.fs, x.replies ++ frames.map .frame, false⟩ : Session)) = _
    rw [hd]
    rfl

/-- **A request by itself gets the store's answer.** -/
theorem Idle.serve_meets (henv : ∀ k, (env k).Succeeds) (h : x.Idle) (hwf : x.fs.Wf)
    (r : SyncRequest) : x.Meets (x.serve env r.encode) (x.fs.store.serve r) := by
  cases r with
  | lstat path lt => exact h.lstat_meets henv hwf lt
  | recv path lt => exact h.recv_meets henv hwf lt
  | send req body =>
    obtain ⟨hx, hs⟩ := h
    obtain ⟨fs', hh, hst⟩ := SyncService.handle_push (henv x.replies.length) x.fs req body
    have hserve : x.serve env (SyncRequest.send req body).encode =
        .ok ⟨.new, fs', x.replies ++ [.frame okayResponse], false⟩ := by
      simp only [serve, hx, Bool.false_eq_true, if_false, hs, SyncRequest.encode, SyncRequest.head,
        SyncRequest.tail, hh]
      rfl
    simp only [Store.serve, ← hst.store hwf]
    exact meets_one hserve (hst.wf hwf) rfl rfl
  | quit t =>
    refine ⟨_, [], h.serve_quit t t, hwf, rfl, .nil, ?_⟩
    rw [List.flatten_nil, List.append_nil]

theorem run_meets (henv : ∀ k, (env k).Succeeds) {rs : List SyncRequest} (hwf : x.fs.Wf)
    (hidle : rs ≠ [] → x.Idle) (hquit : ∀ r ∈ rs.dropLast, r.isQuit = false) :
    x.Meets (x.run env (rs.map SyncRequest.encode)) (x.fs.store.run rs) := by
  induction rs generalizing x with
  | nil => exact ⟨x, [], rfl, hwf, rfl, .nil, by simp⟩
  | cons r rs ih =>
    have hidle := hidle (List.cons_ne_nil r rs)
    have hserve := hidle.serve_meets henv hwf r
    rw [List.map_cons, run_cons, Store.run]
    cases hst : x.fs.store.serve r with
    | error p =>
      rw [hst] at hserve
      rw [show x.serve env r.encode = .error p from hserve]
      rfl
    | ok a =>
      obtain ⟨answers, st⟩ := a
      rw [hst] at hserve
      obtain ⟨y, groups, hy, hwfy, rfl, hsent, hrep⟩ := hserve
      have hrest : y.Meets (y.run env (rs.map SyncRequest.encode)) (y.fs.store.run rs) := by
        refine ih hwfy (fun hrs => hidle.serve_idle henv (hquit r ?_) hy) fun q hq => hquit q ?_
        · cases rs with
          | nil => exact absurd rfl hrs
          | cons q rs => exact List.mem_cons_self
        · cases rs with
          | nil => cases hq
          | cons q' rs => exact List.mem_cons_of_mem _ hq
      simp only [hy, ok_bind]
      cases hrun : y.fs.store.run rs with
      | error p =>
        rw [hrun] at hrest
        exact hrest
      | ok a =>
        obtain ⟨more, st⟩ := a
        rw [hrun] at hrest
        obtain ⟨z, groups', hz, hwfz, hstz, hsent', hrep'⟩ := hrest
        refine ⟨z, groups ++ groups', hz, hwfz, hstz, List.rel_append hsent hsent', ?_⟩
        rw [hrep', hrep, List.flatten_append, List.append_assoc]

end Session

/-- **A sync session is a file store.** Every cut of the host's bytes that
respects the requests gets the store's answers, each spelled out whole and in
order, and ends with the store's files; it panics where the store does, which
LSTAT of a file too large or too old for its fields makes it do. -/
theorem session_refines_store (script : Script) (env : Nat → Env) (fs : Fs) (payloads : List Bytes)
    (henv : ∀ k, (env k).Succeeds) (hwf : fs.Wf) (hne : ∀ p ∈ payloads, p ≠ [])
    (hcut : Grouped script.requests payloads) :
    match fs.store.run script.requests with
    | .error p => (Session.start fs).run env payloads = .error p
    | .ok (answers, st) => ∃ y groups, (Session.start fs).run env payloads = .ok y ∧
        y.fs.store = st ∧ List.Forall₂ Answer.Sent answers groups ∧ y.replies = groups.flatten := by
  have hrun := (Session.run_of_grouped henv hne script.quit_last (fun _ => ⟨rfl, rfl⟩) hcut
    (x := .start fs)).1
  have hmeets := Session.run_meets henv (x := .start fs) hwf (fun _ => ⟨rfl, rfl⟩) script.quit_last
  rw [← hrun] at hmeets
  have hfs : (Session.start fs).fs = fs := rfl
  rw [hfs] at hmeets
  cases hst : fs.store.run script.requests with
  | error p =>
    rw [hst] at hmeets
    exact hmeets
  | ok a =>
    rw [hst] at hmeets
    obtain ⟨y, groups, hy, -, hstore, hsent, hrep⟩ := hmeets
    exact ⟨y, groups, hy, hstore, hsent, hrep⟩

theorem samplePath_lt : (ascii "/f").length < 2 ^ 32 := by decide

/-- A path without its repeated separators. -/
def Path.squeezed : Path → Path
  | 0x2f :: 0x2f :: rest => Path.squeezed (0x2f :: rest)
  | b :: rest => b :: Path.squeezed rest
  | [] => []

/-- No files, and `/f` is `//f`. -/
def Fs.squeezing : Fs := { Fs.empty with entry := Path.squeezed }

theorem otherSpelling_lt : (ascii "//f").length < 2 ^ 32 := by decide

def Script.pushPull : Script where
  requests := [.send .sample ⟨[ascii "hi", []], 7, by decide⟩, .lstat (ascii "//f") otherSpelling_lt,
    .recv (ascii "//f") otherSpelling_lt]
  quit_last := by decide

/-- Its bytes; the push is cut inside its second frame header. -/
def pushPullCut : List Bytes :=
  [SendRequest.sample.encode ++ (dataFrame (ascii "hi") ++ [0x44, 0x41]),
    [0x54, 0x41, 0, 0, 0, 0] ++ doneFrame 7, le32 idLstatV1 ++ lenPrefixed (ascii "//f"),
    le32 idRecvV1 ++ lenPrefixed (ascii "//f")]

/-- The store answers OKAY, the record of two bytes, and the two bytes. -/
theorem session_refines_store_push_pull :
    (Fs.squeezing.store.run Script.pushPull.requests).toOption.map Prod.fst =
      some [.frame okayResponse, .stat ⟨idLstatV1, 0o100644, 2, 7⟩, .file (ascii "hi")] ∧
    match Fs.squeezing.store.run Script.pushPull.requests with
    | .error p => (Session.start .squeezing).run (fun _ => {}) pushPullCut = .error p
    | .ok (answers, st) => ∃ y groups, (Session.start .squeezing).run (fun _ => {}) pushPullCut = .ok y ∧
        y.fs.store = st ∧ List.Forall₂ Answer.Sent answers groups ∧ y.replies = groups.flatten := by
  refine ⟨by decide +kernel, session_refines_store .pushPull _ .squeezing _ (fun _ _ => rfl) ?_
    (by decide +kernel) ?_⟩
  · intro path ino h
    cases h
  · exact ⟨_, [[0x54, 0x41, 0, 0, 0, 0] ++ doneFrame 7], _, rfl, by decide +kernel, [], [],
      [le32 idRecvV1 ++ lenPrefixed (ascii "//f")], by decide +kernel, rfl, [], [], [],
      by decide +kernel, rfl, rfl⟩

/-! ## From one device to another -/

/-- A reply as the bytes of its WRTE payload. -/
def Reply.bytes : Reply → Bytes
  | .stat s => s.asLeBytes
  | .frame r => r.1.asLeBytes ++ r.2

/-- The bytes of a pull are the body of a push, with the time of its DONE 0. -/
theorem fileFrames_bytes (chunks : List Bytes) :
    (((fileFrames chunks).map Reply.frame).map Reply.bytes).flatten = encodeFrames chunks 0 := by
  have hchunk : ∀ c, (Reply.frame (chunkResponse c)).bytes = dataFrame c := fun _ => rfl
  have hdone : (Reply.frame doneResponse).bytes = doneFrame 0 := by decide +kernel
  simp only [fileFrames, List.map_append, List.map_map, List.flatten_append, List.map_cons,
    List.map_nil, List.flatten_cons, List.flatten_nil, List.append_nil, hdone, encodeFrames]
  rfl

/-- **What one device sends for a pull, another takes for a push.** Any file of
`fsA`, pulled with whatever reads, then passed on behind a SEND in any cut: the
other device answers OKAY once, at the end, and its file has the content, the
SEND's mode and time 0. -/
theorem pull_feeds_push (envA envB : Nat → Env) (fsA fsB : Fs) (path : Path) (req : SendRequest)
    {n : Inode} (hA : ∀ k, (envA k).Succeeds) (hB : ∀ k, (envB k).Succeeds) (hwfA : fsA.Wf)
    (hwfB : fsB.Wf) (lt : path.length < 2 ^ 32) (hn : fsA.lookup path = some n) :
    ∃ y, (Session.start fsA).run envA [(SyncRequest.recv path lt).encode] = .ok y ∧
      ∀ t mid, (∀ p ∈ mid, p ≠ []) → t ++ mid.flatten = (y.replies.map Reply.bytes).flatten →
        ∃ z, (Session.start fsB).run envB ((req.encode ++ t) :: mid) = .ok z ∧
          z.replies = [.frame okayResponse] ∧
          z.fs.store = fsB.store.put req.path ⟨n.content,
            chmod (((fsB.lookup req.path).map Inode.mode).getD 0o100644) req.mode, 0⟩ := by
  have hrecv := Session.Idle.recv_meets hA (x := .start fsA) ⟨rfl, rfl⟩ hwfA lt
  have hfile : fsA.store.serve (.recv path lt) = .ok ([.file n.content], fsA.store) := by
    have hst : fsA.store.files path = some n := hn
    simp only [Store.serve, hst, pure_eq_ok]
  have hstart : (Session.start fsA).fs = fsA := rfl
  rw [hstart, hfile] at hrecv
  obtain ⟨y, groups, hy, -, -, hsent, hrep⟩ := hrecv
  obtain ⟨replies, hone, rfl⟩ : ∃ replies, Answer.Sent (.file n.content) replies ∧ groups = [replies] := by
    cases hsent with
    | cons h1 h2 =>
      cases h2
      exact ⟨_, h1, rfl⟩
  obtain ⟨chunks, hch, rfl⟩ := hone
  have hlt : ∀ c ∈ chunks, c.length < 2 ^ 32 := fun c hc => by
    have hle := hch.length_le c hc
    simp only [payloadSizeMaxBytes] at hle
    omega
  have hbytes : (y.replies.map Reply.bytes).flatten = (⟨chunks, 0, hlt⟩ : PushBody).encode := by
    have hy : y.replies = (fileFrames chunks).map .frame := by
      rw [hrep]
      simp [Session.start]
    rw [hy, fileFrames_bytes]
    rfl
  refine ⟨y, ?_, fun t mid hmid ht => ?_⟩
  · rw [Session.run_cons, hy]
    rfl
  · rw [hbytes] at ht
    have hgroup := (Session.Idle.run_group (x := .start fsB) (r := .send req ⟨chunks, 0, hlt⟩) hB hmid
      ⟨rfl, rfl⟩ ht).1
    have hsend := Session.Idle.serve_meets hB (x := .start fsB) ⟨rfl, rfl⟩ hwfB
      (.send req ⟨chunks, 0, hlt⟩)
    obtain ⟨z, groups, hz, -, hstore, hsent, hrep⟩ := hsend
    refine ⟨z, hgroup.trans hz, ?_, ?_⟩
    · cases hsent with
      | cons h1 h2 =>
        cases h2
        cases h1
        exact hrep
    · rw [hstore, Store.pushed, hch.flatten]
      rfl

def Fs.hiFile : Fs := Fs.oneFile.setInode 0 ⟨ascii "hi", 0o100600, 3⟩

theorem Fs.hiFile_wf : Fs.hiFile.Wf := by
  intro path ino h
  have h : (if path = ascii "/f" then some 0 else none) = some ino := h
  split at h
  · cases h
    decide
  · cases h

/-- `/f` read one byte at a time, and passed on to a device without files. -/
theorem pull_feeds_push_hi : Fs.hiFile.lookup (ascii "/f") = some ⟨ascii "hi", 0o100600, 3⟩ ∧
    ∃ y, (Session.start .hiFile).run (fun _ => { amount := fun _ => 1 })
        [(SyncRequest.recv (ascii "/f") samplePath_lt).encode] = .ok y ∧
      ∀ t mid, (∀ p ∈ mid, p ≠ []) → t ++ mid.flatten = (y.replies.map Reply.bytes).flatten →
        ∃ z, (Session.start .empty).run (fun _ => {}) ((SendRequest.sample.encode ++ t) :: mid) = .ok z ∧
          z.replies = [.frame okayResponse] ∧
          z.fs.store = Fs.empty.store.put SendRequest.sample.path ⟨ascii "hi",
            chmod (((Fs.empty.lookup SendRequest.sample.path).map Inode.mode).getD 0o100644)
              SendRequest.sample.mode, 0⟩ := by
  have hwf : Fs.empty.Wf := by
    intro path ino h
    cases h
  exact ⟨rfl, pull_feeds_push _ _ .hiFile .empty (ascii "/f") .sample (fun _ _ => rfl) (fun _ _ => rfl)
    Fs.hiFile_wf hwf samplePath_lt rfl⟩

end Adibi
