import Adibi.Basic

/-!
# The operating system under the daemon

Files, PTYs and sockets as the daemon's calls see them. `Env` decides what the
system is free to decide during one event: which calls fail and how far a
partial transfer got. A file handle remembers the bytes moved through it, so
its offset is their number. Writes leave `mtime` alone: the clock's own stamp
is not modelled, only what `set_times` stores.

The files are regular ones, and nobody but the daemon makes, writes or removes
any. The daemon makes no directories and no links, so where a path leads does not
change in a run: `Fs.entry` is any such map, and a path that leads to a directory,
a device or a symbolic link is one whose calls fail. A call that returns does so
within its event.
-/

namespace Adibi

open Lib

/-- An I/O error: the text its `Display` prints. -/
abbrev IoError := Bytes

/-- A path, as raw bytes. -/
abbrev Path := Bytes

/-- `Path::display`: invalid UTF-8 becomes U+FFFD. -/
def Path.display (p : Path) : Bytes := Utf8.lossy p

/-- The system calls of one event. A handler makes each of them at most once,
except `writeAll` (told apart by its position in the payload) and
`socketWrite` (by its index). -/
inductive Call where
  | create
  | writeAll (pos : Nat)
  | setPermissions
  | setTimes
  | removeFile
  | open
  | read
  | symlinkMetadata
  | spawn
  | connect
  | ptyWrite
  | socketWrite (k : Nat)
  | shutdown
  deriving DecidableEq, Repr

/-- The event types of `FunctionFS`. -/
inductive UsbFunctionFsEventType where
  | bind
  | unbind
  | enable
  | disable
  | setup
  | suspend
  | resume
  deriving DecidableEq, Repr

/-- What the system decides during one event. -/
structure Env where
  /-- The error a call fails with, if it fails. -/
  fail : Call → Option IoError := fun _ => none
  /-- Bytes moved: before a failure, by a short read, by a short socket write. -/
  amount : Call → Nat := fun _ => 65536
  /-- What `read_next_ffs_event_type` returns. -/
  ep0 : Except IoError UsbFunctionFsEventType := .ok .suspend

def Env.Succeeds (env : Env) : Prop := ∀ c, env.fail c = none

/-! ## Files -/

structure Inode where
  content : Bytes
  mode : UInt32
  mtime : Int
  deriving DecidableEq, Repr

/-- The entries of the directories over a table of inodes. -/
structure Fs where
  /-- The entry a path leads to: the same for all spellings of a path. -/
  entry : Path → Path
  dir : Path → Option Nat
  inodes : Nat → Inode
  nextIno : Nat

/-- An open file: its inode, and the bytes read or written through it so far. -/
structure File where
  ino : Nat
  moved : Bytes
  deriving DecidableEq, Repr

def File.offset (f : File) : Nat := f.moved.length

/-- `lstat`'s answer. -/
structure Metadata where
  mode : UInt32
  size : Nat
  mtime : Int
  deriving DecidableEq, Repr

namespace Fs

def empty : Fs := ⟨id, fun _ => none, fun _ => ⟨[], 0, 0⟩, 0⟩

def names (fs : Fs) (path : Path) : Option Nat := fs.dir (fs.entry path)

def setName (fs : Fs) (path : Path) (ino : Option Nat) : Fs :=
  { fs with dir := Function.update fs.dir (fs.entry path) ino }

def setInode (fs : Fs) (i : Nat) (n : Inode) : Fs :=
  { fs with inodes := Function.update fs.inodes i n }

def lookup (fs : Fs) (path : Path) : Option Inode := (fs.names path).map fs.inodes

/-- `File::create`: truncates an existing file, else makes a new one. -/
def create (env : Env) (fs : Fs) (path : Path) : Except IoError (File × Fs) :=
  match env.fail .create with
  | some e => .error e
  | none =>
    match fs.names path with
    | some i => .ok (⟨i, []⟩, fs.setInode i { fs.inodes i with content := [] })
    | none =>
      let i := fs.nextIno
      .ok (⟨i, []⟩,
        { (fs.setInode i ⟨[], 0o100644, 0⟩).setName path (some i) with nextIno := i + 1 })

def open_ (env : Env) (fs : Fs) (path : Path) : Except IoError File :=
  match env.fail .open with
  | some e => .error e
  | none =>
    match fs.names path with
    | some i => .ok ⟨i, []⟩
    | none => .error (ascii "No such file or directory (os error 2)")

/-- `data` written over `content` from offset `off`, a gap filled with zeros. -/
def writeAt (content : Bytes) (off : Nat) (data : Bytes) : Bytes :=
  content.take off ++ List.replicate (off - content.length) 0 ++ data ++
    content.drop (off + data.length)

/-- Moves `data` through the handle. -/
def put (fs : Fs) (f : File) (data : Bytes) : File × Fs :=
  let n := fs.inodes f.ino
  (⟨f.ino, f.moved ++ data⟩, fs.setInode f.ino { n with content := writeAt n.content f.offset data })

/-- `write_all`: nothing to do for an empty slice; a failure may come after
part of the data. -/
def writeAll (env : Env) (fs : Fs) (f : File) (pos : Nat) (data : Bytes) :
    Except IoError Unit × File × Fs :=
  if data = [] then (.ok (), f, fs)
  else
    match env.fail (.writeAll pos) with
    | none => (.ok (), fs.put f data)
    | some e => (.error e, fs.put f (data.take (env.amount (.writeAll pos))))

theorem writeAll_nil (env : Env) (fs : Fs) (f : File) (pos : Nat) :
    fs.writeAll env f pos [] = (.ok (), f, fs) := if_pos rfl

theorem writeAll_ok {env : Env} {pos : Nat} {data : Bytes} (hf : env.fail (.writeAll pos) = none)
    (hd : data ≠ []) (fs : Fs) (f : File) :
    fs.writeAll env f pos data = (.ok (), fs.put f data) := by
  rw [writeAll, if_neg hd, hf]

theorem writeAll_error {env : Env} {pos : Nat} {data : Bytes} {e : IoError}
    (hf : env.fail (.writeAll pos) = some e) (hd : data ≠ []) (fs : Fs) (f : File) :
    fs.writeAll env f pos data =
      (.error e, fs.put f (data.take (env.amount (.writeAll pos)))) := by
  rw [writeAll, if_neg hd, hf]

/-- Where `write_all` fails there was something to write, and the system failed it. -/
theorem writeAll_fails {env : Env} {fs fs' : Fs} {f f' : File} {pos : Nat} {data : Bytes}
    {e : IoError} (h : fs.writeAll env f pos data = (.error e, f', fs')) :
    data ≠ [] ∧ env.fail (.writeAll pos) = some e := by
  by_cases hd : data = []
  · subst hd
    cases (writeAll_nil ..).symm.trans h
  · cases hf : env.fail (.writeAll pos) with
    | none => cases (writeAll_ok hf hd fs f).symm.trans h
    | some e' =>
      cases (writeAll_error hf hd fs f).symm.trans h
      exact ⟨hd, rfl⟩

/-- `set_permissions`: the twelve permission bits. -/
def setPermissions (env : Env) (fs : Fs) (f : File) (mode : UInt32) : Except IoError Fs :=
  match env.fail .setPermissions with
  | some e => .error e
  | none =>
    let n := fs.inodes f.ino
    .ok (fs.setInode f.ino { n with mode := (n.mode &&& ~~~0o7777) ||| (mode &&& 0o7777) })

def setTimes (env : Env) (fs : Fs) (f : File) (mtime : Int) : Except IoError Fs :=
  match env.fail .setTimes with
  | some e => .error e
  | none => .ok (fs.setInode f.ino { fs.inodes f.ino with mtime := mtime })

def removeFile (env : Env) (fs : Fs) (path : Path) : Except IoError Fs :=
  match env.fail .removeFile with
  | some e => .error e
  | none =>
    match fs.names path with
    | some _ => .ok (fs.setName path none)
    | none => .error (ascii "No such file or directory (os error 2)")

def symlinkMetadata (env : Env) (fs : Fs) (path : Path) : Except IoError Metadata :=
  match env.fail .symlinkMetadata with
  | some e => .error e
  | none =>
    match fs.lookup path with
    | some n => .ok ⟨n.mode, n.content.length, n.mtime⟩
    | none => .error (ascii "No such file or directory (os error 2)")

/-- `read` into a buffer of `cap` bytes: some of what is left, nothing at the
end of the file. -/
def read (env : Env) (fs : Fs) (f : File) (cap : Nat) : Except IoError (Bytes × File) :=
  match env.fail .read with
  | some e => .error e
  | none =>
    let chunk := ((fs.inodes f.ino).content.drop f.offset).take (min cap (max 1 (env.amount .read)))
    .ok (chunk, ⟨f.ino, f.moved ++ chunk⟩)

@[simp] theorem setInode_names (fs : Fs) (i : Nat) (n : Inode) :
    (fs.setInode i n).names = fs.names := rfl

@[simp] theorem setName_inodes (fs : Fs) (path : Path) (ino : Option Nat) :
    (fs.setName path ino).inodes = fs.inodes := rfl

theorem setName_names (fs : Fs) (path q : Path) (ino : Option Nat) :
    (fs.setName path ino).names q = if fs.entry q = fs.entry path then ino else fs.names q := by
  simp only [names, setName, Function.update_apply]

@[simp] theorem setName_self (fs : Fs) (path : Path) (ino : Option Nat) :
    (fs.setName path ino).names path = ino := by
  rw [setName_names, if_pos rfl]

theorem entry_ne_of_names {fs : Fs} {p q : Path} (h : fs.names p ≠ fs.names q) :
    fs.entry p ≠ fs.entry q := fun he => h (congrArg fs.dir he)

@[simp] theorem setInode_self (fs : Fs) (i : Nat) (n : Inode) : (fs.setInode i n).inodes i = n :=
  Function.update_self ..

theorem setInode_setInode (fs : Fs) (i : Nat) (m n : Inode) :
    (fs.setInode i m).setInode i n = fs.setInode i n := by
  simp only [setInode, Function.update_idem]

theorem writeAt_length (content data : Bytes) :
    writeAt content content.length data = content ++ data := by
  simp [writeAt]

/-- Writes through a handle at the end of its file add up. -/
theorem put_put {fs : Fs} {f : File} (h : f.moved = (fs.inodes f.ino).content) (s t : Bytes) :
    (fs.put f s).2.put (fs.put f s).1 t = fs.put f (s ++ t) := by
  simp only [put, setInode_self, setInode_setInode, File.offset, h, writeAt_length,
    List.append_assoc]

theorem put_content {fs : Fs} {f : File} (h : f.moved = (fs.inodes f.ino).content) (s : Bytes) :
    (fs.put f s).1.moved = ((fs.put f s).2.inodes f.ino).content := by
  simp only [put, setInode_self, File.offset, h, writeAt_length]

/-- Handed an empty slice, a handle at the end of its file changes nothing. -/
theorem put_nil {fs : Fs} {f : File} (h : f.moved = (fs.inodes f.ino).content) :
    fs.put f [] = (f, fs) := by
  simp only [put, File.offset, h, writeAt_length, List.append_nil, setInode]
  show ((⟨f.ino, (fs.inodes f.ino).content⟩ : File),
    { fs with inodes := Function.update fs.inodes f.ino (fs.inodes f.ino) }) = (f, fs)
  rw [Function.update_eq_self, ← h]

end Fs

/-! ## PTYs and sockets -/

/-- The far end of a PTY or a socket: what runs or listens there, what was
written to it, and whether the write side is shut down. -/
structure Channel where
  target : Bytes
  input : Bytes
  shut : Bool
  deriving DecidableEq, Repr

/-- The files, and the PTYs and sockets opened so far. -/
structure Os where
  fs : Fs
  channels : Nat → Channel
  nextChannel : Nat

namespace Os

def boot (fs : Fs) : Os := ⟨fs, fun _ => ⟨[], [], false⟩, 0⟩

def setChannel (os : Os) (c : Nat) (ch : Channel) : Os :=
  { os with channels := Function.update os.channels c ch }

def openChannel (os : Os) (target : Bytes) : Nat × Os :=
  let c := os.nextChannel
  (c, { (os.setChannel c ⟨target, [], false⟩) with nextChannel := c + 1 })

/-- Bytes that reached the far end. -/
def send (os : Os) (c : Nat) (data : Bytes) : Os :=
  let ch := os.channels c
  os.setChannel c { ch with input := ch.input ++ data }

/-- `shutdown` of the write side. -/
def shutdownWrite (env : Env) (os : Os) (c : Nat) : Except IoError Os :=
  match env.fail .shutdown with
  | some e => .error e
  | none => .ok (os.setChannel c { os.channels c with shut := true })

end Os

end Adibi
