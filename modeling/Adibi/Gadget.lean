import Mathlib.Data.List.Forall2
import Adibi.Device
import Adibi.Lib.Restart

/-!
# The gadget

`adibi setup-gadget` writes the description of the USB gadget into configfs. It is run
again whenever it failed or was stopped halfway, so every call of it has to put up with
what an earlier attempt left. It does: after any attempts, a run that is not disturbed
comes to what it would have come to without them (`gadget_setup_restarts`). What the
attempts found out about the device may differ; only the serial number shows it.
-/

namespace Adibi

open Lib

/-! ## Paths -/

/-- A path from the root, its last component first. -/
abbrev Loc := List Bytes

def components (s : Bytes) : List Bytes := (s.splitOnP (· = 0x2f)).filter (· ≠ [])

def Loc.join (p : Loc) (s : Bytes) : Loc := (components s).reverse ++ p

def ffsPath : Loc := Loc.join [] (ascii "/run/adibi/ffs")

def gadgetPath : Loc := Loc.join [] (ascii "/sys/kernel/config/usb_gadget/adibi")

/-! ## The file tree -/

inductive Node where
  | dir
  | file (content : Bytes)
  | link (target : Loc)
  deriving DecidableEq

def Node.kind : Node → Node
  | .file _ => .file []
  | n => n

/-- What a name leads to. A link of configfs is to an item, which is a directory and
cannot go away before the link does. -/
def Node.followed : Node → Node
  | .link _ => .dir
  | n => n

/-- The names of the system. What has a name is in a directory. -/
@[ext]
structure Tree where
  node : Loc → Option Node
  root : node [] = some .dir
  parent : ∀ x p, node (x :: p) ≠ none → node p = some .dir

/-- The kinds of errors the calls tell apart. -/
inductive FsError where
  | notFound
  | alreadyExists
  | notADirectory
  | isADirectory
  | other (text : Bytes)
  deriving DecidableEq

namespace Tree

def bare : Tree where
  node p := if p = [] then some .dir else none
  root := rfl
  parent _ _ h := absurd (if_neg (List.cons_ne_nil _ _)) h

/-- A name in a directory that is no directory and no link. -/
def Free (t : Tree) (x : Bytes) (p : Loc) : Prop :=
  t.node p = some .dir ∧ ∀ n, t.node (x :: p) = some n → n.kind = .file []

instance (t : Tree) (x : Bytes) (p : Loc) : Decidable (t.Free x p) :=
  inferInstanceAs (Decidable (_ ∧ ∀ n, t.node (x :: p) = some n → _))

def put (t : Tree) (x : Bytes) (p : Loc) (h : t.Free x p) (n : Node) : Tree where
  node q := if q = x :: p then some n else t.node q
  root := (if_neg (List.cons_ne_nil x p).symm).trans t.root
  parent y q hq := by
    have hne : q ≠ x :: p := by
      rintro rfl
      rw [if_neg (by simp)] at hq
      cases h.2 _ (t.parent y _ hq)
    rw [if_neg hne]
    split at hq
    · rename_i he
      cases he
      exact h.1
    · exact t.parent y q hq

/-- The names of `t`, and below `at_` those of `new`. -/
def graftNode (t : Tree) (at_ : Loc) (new : Tree) (q : Loc) : Option Node :=
  if at_ <:+ q then new.node (q.take (q.length - at_.length)) else t.node q

theorem graftNode_below (t : Tree) (at_ : Loc) (new : Tree) (r : Loc) :
    t.graftNode at_ new (r ++ at_) = new.node r := by
  unfold graftNode
  rw [if_pos (List.suffix_append r at_), List.length_append, Nat.add_sub_cancel, List.take_left]

theorem graftNode_other (t : Tree) {at_ : Loc} (new : Tree) {q : Loc} (h : ¬ at_ <:+ q) :
    t.graftNode at_ new q = t.node q := if_neg h

def graft (t : Tree) (x : Bytes) (p : Loc) (h : t.node p = some .dir) (new : Tree) : Tree where
  node := t.graftNode (x :: p) new
  root := (t.graftNode_other new (by simp)).trans t.root
  parent y q hq := by
    by_cases hin : (x :: p) <:+ q
    · obtain ⟨r, rfl⟩ := hin
      rw [← List.cons_append, graftNode_below] at hq
      rw [graftNode_below]
      exact new.parent y r hq
    · rw [graftNode_other _ _ hin]
      by_cases hself : y :: q = x :: p
      · cases hself
        exact h
      · rw [graftNode_other] at hq
        · exact t.parent y q hq
        · intro hsuf
          rcases List.suffix_cons_iff.mp hsuf with he | hq
          · exact hself he.symm
          · exact hin hq

/-! ## Calls -/

/-- Path resolution: every component but the last has to be a directory. A link there
would be followed; configfs has links only to functions, where no path goes on. -/
def walk (t : Tree) : Loc → Except FsError Unit
  | [] => .ok ()
  | _ :: p => do
    t.walk p
    match t.node p with
    | some .dir => .ok ()
    | some _ => .error .notADirectory
    | none => .error .notFound

def mkdir (fresh : Loc → Tree) (t : Tree) (p : Loc) : Except FsError Tree := do
  t.walk p
  match p with
  | [] => .error .alreadyExists
  | x :: q =>
    if h : t.node q = some .dir ∧ t.node (x :: q) = none then .ok (t.graft x q h.1 (fresh (x :: q)))
    else .error .alreadyExists

/-- `fs::write`. An attribute of configfs is never a link. -/
def write (t : Tree) (p : Loc) (content : Bytes) : Except FsError Tree := do
  t.walk p
  match p with
  | [] => .error .isADirectory
  | x :: q => if h : t.Free x q then .ok (t.put x q h (.file content)) else .error .isADirectory

def metadata (t : Tree) (p : Loc) : Except FsError Node := do
  t.walk p
  match t.node p with
  | none => .error .notFound
  | some node => .ok node.followed

def exists_ (t : Tree) (p : Loc) : Except FsError Bool :=
  match t.metadata p with
  | .ok _ => .ok true
  | .error .notFound => .ok false
  | .error e => .error e

def isDir (t : Tree) (p : Loc) : Bool :=
  match t.metadata p with
  | .ok node => node = .dir
  | .error _ => false

def symlink (t : Tree) (target p : Loc) : Except FsError Tree := do
  t.walk p
  match p with
  | [] => .error .alreadyExists
  | x :: q =>
    if h : t.Free x q ∧ t.node (x :: q) = none then
      if t.isDir target then .ok (t.put x q h.1 (.link target)) else .error .notFound
    else .error .alreadyExists

end Tree

/-! ## The command -/

/-- A computation on the tree. What it did before an error stays. -/
def Io (α : Type) : Type := Tree → Except FsError α × Tree

namespace Io

instance : Monad Io where
  pure a := fun t => (.ok a, t)
  bind m f := fun t =>
    match m t with
    | (.ok a, t) => f a t
    | (.error e, t) => (.error e, t)

theorem bind_ok {α β : Type} {m : Io α} {f : α → Io β} {t t' : Tree} {a : α} (h : m t = (.ok a, t')) :
    (m >>= f) t = f a t' := by
  simp only [bind, h]

theorem bind_error {α β : Type} {m : Io α} {f : α → Io β} {t t' : Tree} {e : FsError}
    (h : m t = (.error e, t')) : (m >>= f) t = (.error e, t') := by
  simp only [bind, h]

def lift (f : Tree → Except FsError Tree) : Io Unit := fun t =>
  match f t with
  | .ok t => (.ok (), t)
  | .error e => (.error e, t)

theorem lift_ok {f : Tree → Except FsError Tree} {t t' : Tree} (h : f t = .ok t') :
    (lift f t).2 = t' := by
  simp only [lift, h]

theorem lift_error {f : Tree → Except FsError Tree} {t : Tree} {e : FsError} (h : f t = .error e) :
    (lift f t).2 = t := by
  simp only [lift, h]

end Io

inductive FsCall where
  | mkdir (p : Loc) (again : Bool)
  | write (p : Loc)
  | exists (p : Loc)
  | symlink (p : Loc)
  deriving DecidableEq

/-- A call that fails, and how much a failed write left of its file. -/
structure Fault where
  error : FsError
  written : Option Nat

structure Kernel where
  /-- What a new directory comes with. -/
  fresh : Loc → Tree
  fail : FsCall → Option Fault

/-- A kernel that lets every call through. -/
def Kernel.calm (fresh : Loc → Tree) : Kernel := ⟨fresh, fun _ => none⟩

section

variable (k : Kernel)

def mkdirCall (p : Loc) (again : Bool) : Io Unit := fun t =>
  match k.fail (.mkdir p again) with
  | some f => (.error f.error, t)
  | none => Io.lift (·.mkdir k.fresh p) t

/-- The parents first, if they are missing. -/
def createDirAll : Loc → Io Unit
  | [] => pure ()
  | x :: p => fun t =>
    match mkdirCall k (x :: p) false t with
    | (.ok (), t) => (.ok (), t)
    | (.error .notFound, t) =>
      match createDirAll p t with
      | (.error e, t) => (.error e, t)
      | (.ok (), t) =>
        match mkdirCall k (x :: p) true t with
        | (.ok (), t) => (.ok (), t)
        | (.error e, t) => if t.isDir (x :: p) then (.ok (), t) else (.error e, t)
    | (.error e, t) => if t.isDir (x :: p) then (.ok (), t) else (.error e, t)

def writeCall (p : Loc) (content : Bytes) : Io Unit := fun t =>
  match k.fail (.write p) with
  | none => Io.lift (·.write p content) t
  | some ⟨e, none⟩ => (.error e, t)
  | some ⟨e, some n⟩ => (.error e, (Io.lift (·.write p (content.take n)) t).2)

def existsCall (p : Loc) : Io Bool := fun t =>
  match k.fail (.exists p) with
  | some f => (.error f.error, t)
  | none => (t.exists_ p, t)

def symlinkCall (target p : Loc) : Io Unit := fun t =>
  match k.fail (.symlink p) with
  | some f => (.error f.error, t)
  | none => Io.lift (·.symlink target p) t

/-- A number as `#x` prints it, in at least `width` characters. -/
def lowerHex (width n : Nat) : Bytes :=
  let digits := (Nat.toDigits 16 n).map fun c => UInt8.ofNat c.toNat
  ascii "0x" ++ List.replicate (width - 2 - digits.length) 0x30 ++ digits

def usbVendorIdGoogle : UInt16 := 0x18d1
def usbProductIdAdb : UInt16 := 0x4ee7
def usbLangEnUs : UInt16 := 0x409
def adbManufacturerEn : Bytes := ascii "Android"
def adbProductEn : Bytes := ascii "Android Debug Bridge"

def setupGadget (sources : SystemSources) : Io Unit := do
  createDirAll k ffsPath
  createDirAll k gadgetPath
  writeCall k (gadgetPath.join (ascii "idVendor")) (lowerHex 6 usbVendorIdGoogle.toNat)
  writeCall k (gadgetPath.join (ascii "idProduct")) (lowerHex 6 usbProductIdAdb.toNat)
  let stringsPath := gadgetPath.join (ascii "strings")
  let stringsEnPath := stringsPath.join (lowerHex 0 usbLangEnUs.toNat)
  createDirAll k stringsEnPath
  writeCall k (stringsEnPath.join (ascii "manufacturer")) adbManufacturerEn
  writeCall k (stringsEnPath.join (ascii "product")) adbProductEn
  let deviceInfo := DeviceInfo.fromSystem sources
  writeCall k (stringsEnPath.join (ascii "serialnumber")) deviceInfo.serial
  let configPath := gadgetPath.join (ascii "configs/c.1")
  createDirAll k configPath
  let configStringsPath := configPath.join (ascii "strings")
  let configStringsEnPath := configStringsPath.join (lowerHex 0 usbLangEnUs.toNat)
  createDirAll k configStringsEnPath
  writeCall k (configStringsEnPath.join (ascii "configuration")) (ascii "adb")
  let function := gadgetPath.join (ascii "functions/ffs.adb")
  createDirAll k function
  let link := configPath.join (ascii "ffs.adb")
  if !(← existsCall k link) then
    symlinkCall k function link

end

/-! ## The command as a script -/

inductive GadgetStep where
  | dir (p : Loc)
  | write (p : Loc) (content : Bytes)
  | link (target p : Loc)
  deriving DecidableEq

def gadgetScript (sources : SystemSources) : List GadgetStep :=
  let strings := gadgetPath.join (ascii "strings/0x409")
  let config := gadgetPath.join (ascii "configs/c.1")
  let function := gadgetPath.join (ascii "functions/ffs.adb")
  [.dir ffsPath, .dir gadgetPath,
    .write (gadgetPath.join (ascii "idVendor")) (ascii "0x18d1"),
    .write (gadgetPath.join (ascii "idProduct")) (ascii "0x4ee7"),
    .dir strings,
    .write (strings.join (ascii "manufacturer")) (ascii "Android"),
    .write (strings.join (ascii "product")) (ascii "Android Debug Bridge"),
    .write (strings.join (ascii "serialnumber")) (DeviceInfo.fromSystem sources).serial,
    .dir config,
    .dir (config.join (ascii "strings/0x409")),
    .write ((config.join (ascii "strings/0x409")).join (ascii "configuration")) (ascii "adb"),
    .dir function,
    .link function (config.join (ascii "ffs.adb"))]

def GadgetStep.io (k : Kernel) : GadgetStep → Io Unit
  | .dir p => createDirAll k p
  | .write p content => writeCall k p content
  | .link target p => do
    if !(← existsCall k p) then
      symlinkCall k target p

def runSteps (k : Kernel) : List GadgetStep → Io Unit
  | [] => pure ()
  | a :: rest => do
    a.io k
    runSteps k rest

theorem Io.bind_pure (m : Io Unit) : (m >>= fun _ => pure ()) = m := by
  funext t
  cases h : m t with
  | mk r t' =>
    cases r with
    | ok a => exact Io.bind_ok h
    | error e => exact Io.bind_error h

theorem setupGadget_eq (k : Kernel) (sources : SystemSources) :
    setupGadget k sources = runSteps k (gadgetScript sources) := by
  have hvendor : lowerHex 6 usbVendorIdGoogle.toNat = ascii "0x18d1" := by decide
  have hproduct : lowerHex 6 usbProductIdAdb.toNat = ascii "0x4ee7" := by decide
  have hlang : lowerHex 0 usbLangEnUs.toNat = ascii "0x409" := by decide
  have hjoin : ∀ p : Loc, (p.join (ascii "strings")).join (ascii "0x409") =
      p.join (ascii "strings/0x409") := fun p => rfl
  unfold setupGadget gadgetScript
  simp only [runSteps, GadgetStep.io, hvendor, hproduct, hlang, hjoin, Io.bind_pure]
  rfl

/-! ## What a call leaves alone -/

namespace Tree

variable {fresh : Loc → Tree} {t t' u : Tree} {p q : Loc} {x : Bytes}

/-- Directories and links stay what they are, files stay files. -/
def Grows (t t' : Tree) : Prop :=
  ∀ q k, (t.node q).map Node.kind = some k → (t'.node q).map Node.kind = some k

def Keeps (t t' : Tree) : Prop := ∀ q n, t.node q = some n → t'.node q = some n

theorem Keeps.grows (h : t.Keeps t') : t.Grows t' := by
  intro q k hk
  obtain ⟨n, hn, rfl⟩ := Option.map_eq_some_iff.mp hk
  rw [h q n hn]
  rfl

theorem Keeps.trans (h : t.Keeps t') (h' : t'.Keeps u) : t.Keeps u := fun q n hn => h' q n (h q n hn)

/-- The parent of a name is a directory, and so is every one above it. -/
theorem walk_cons : t.walk (x :: p) = .ok () ↔ t.node p = some .dir := by
  constructor
  · intro h
    obtain ⟨_, -, h⟩ := bind_eq_ok.mp h
    split at h
    · assumption
    · cases h
    · cases h
  · intro h
    induction p generalizing x with
    | nil =>
      show (match t.node [] with | some .dir => _ | some _ => _ | none => _) = _
      rw [h]
    | cons y p ih =>
      have hp : t.node p = some .dir := t.parent y p (by rw [h]; nofun)
      show (t.walk (y :: p) >>= _) = _
      rw [ih hp, ok_bind, h]

theorem walk_of_node {n : Node} (h : t.node p = some n) : t.walk p = .ok () := by
  cases p with
  | nil => rfl
  | cons x p => exact walk_cons.mpr (t.parent x p (by rw [h]; nofun))

theorem absent_below (h : t.node p = none) (hq : p <:+ q) : t.node q = none := by
  obtain ⟨r, rfl⟩ := hq
  induction r with
  | nil => exact h
  | cons y r ih =>
    by_contra hne
    cases ih.symm.trans (t.parent y _ hne)

theorem mkdir_spec (h : t.mkdir fresh p = .ok t') :
    t.node p = none ∧ t'.node p = some .dir ∧ t.Keeps t' := by
  obtain ⟨_, -, h⟩ := bind_eq_ok.mp h
  cases p with
  | nil => cases h
  | cons x p =>
    simp only at h
    split at h
    · rename_i hx
      cases h
      refine ⟨hx.2, ?_, fun q n hn => ?_⟩
      · have := t.graftNode_below (x :: p) (fresh (x :: p)) []
        exact this.trans (fresh (x :: p)).root
      · by_cases hq : (x :: p) <:+ q
        · cases (absent_below hx.2 hq).symm.trans hn
        · exact (t.graftNode_other _ hq).trans hn
    · cases h

theorem write_spec {content : Bytes} (h : t.write p content = .ok t') :
    (∀ n, t.node p = some n → n.kind = .file []) ∧ t'.node p = some (.file content) ∧
      ∀ q, q ≠ p → t'.node q = t.node q := by
  obtain ⟨_, -, h⟩ := bind_eq_ok.mp h
  cases p with
  | nil => cases h
  | cons x p =>
    simp only at h
    split at h
    · rename_i hfree
      cases h
      exact ⟨hfree.2, if_pos rfl, fun q hq => if_neg hq⟩
    · cases h

theorem symlink_spec {target : Loc} (h : t.symlink target p = .ok t') :
    t.node p = none ∧ t'.node p = some (.link target) ∧ t.Keeps t' := by
  obtain ⟨_, -, h⟩ := bind_eq_ok.mp h
  cases p with
  | nil => cases h
  | cons x p =>
    simp only at h
    split at h
    · rename_i hfree
      split at h
      · cases h
        refine ⟨hfree.2, if_pos rfl, fun q n hn => ?_⟩
        have hne : q ≠ x :: p := by
          rintro rfl
          cases hfree.2.symm.trans hn
        exact (if_neg hne).trans hn
      · cases h
    · cases h

theorem write_grows {content : Bytes} (h : t.write p content = .ok t') : t.Grows t' := by
  obtain ⟨hkind, hp, hother⟩ := write_spec h
  intro q k hk
  by_cases hq : q = p
  · subst hq
    obtain ⟨n, hn, rfl⟩ := Option.map_eq_some_iff.mp hk
    rw [hp, hkind n hn]
    rfl
  · rw [hother q hq]
    exact hk

/-! ## What is there stays there -/

theorem metadata_of_node {n : Node} (h : t.node p = some n) : t.metadata p = .ok n.followed := by
  unfold metadata
  rw [walk_of_node h, ok_bind, h]

theorem metadata_of_absent (h : t.node p = none) : ∃ e, t.metadata p = .error e := by
  unfold metadata
  rw [h]
  cases t.walk p with
  | ok _ => exact ⟨_, rfl⟩
  | error e => exact ⟨e, rfl⟩

theorem exists_true : t.exists_ p = .ok true ↔ ∃ n, t.node p = some n := by
  unfold exists_
  cases h : t.node p with
  | none =>
    obtain ⟨e, he⟩ := metadata_of_absent h
    rw [he]
    cases e <;> exact ⟨nofun, nofun⟩
  | some n =>
    rw [metadata_of_node h]
    exact ⟨fun _ => ⟨n, rfl⟩, fun _ => rfl⟩

theorem isDir_iff : t.isDir p = true ↔ ∃ n, t.node p = some n ∧ n.kind ≠ .file [] := by
  unfold isDir
  cases h : t.node p with
  | none =>
    obtain ⟨e, he⟩ := metadata_of_absent h
    rw [he]
    exact ⟨nofun, nofun⟩
  | some n =>
    rw [metadata_of_node h]
    cases n <;> simp [Node.kind, Node.followed]

theorem Grows.node {n : Node} (h : t.Grows t') (hn : t.node p = some n) :
    ∃ n', t'.node p = some n' ∧ n'.kind = n.kind :=
  Option.map_eq_some_iff.mp (h p n.kind (by rw [hn]; rfl))

theorem Grows.exists_ (h : t.Grows t') (hp : t.exists_ p = .ok true) : t'.exists_ p = .ok true := by
  obtain ⟨n, hn⟩ := exists_true.mp hp
  obtain ⟨n', hn', -⟩ := h.node hn
  exact exists_true.mpr ⟨n', hn'⟩

theorem Grows.isDir (h : t.Grows t') (hp : t.isDir p = true) : t'.isDir p = true := by
  obtain ⟨n, hn, hk⟩ := isDir_iff.mp hp
  obtain ⟨n', hn', hk'⟩ := h.node hn
  exact isDir_iff.mpr ⟨n', hn', by rwa [hk']⟩

theorem isDir_of_dir (h : t.node p = some .dir) : t.isDir p = true :=
  isDir_iff.mpr ⟨.dir, h, nofun⟩

theorem node_of_isDir (h : t.isDir p = true) : t.node p ≠ none := by
  obtain ⟨n, hn, -⟩ := isDir_iff.mp h
  rw [hn]
  nofun

/-! ## Directories -/

/-- `create_dir_all` when no call fails that need not. -/
def ensure (fresh : Loc → Tree) (t : Tree) : Loc → Option Tree
  | [] => some t
  | x :: p =>
    (t.ensure fresh p).bind fun u =>
      if u.isDir (x :: p) then some u else (u.mkdir fresh (x :: p)).toOption

theorem ensure_isDir (h : t.isDir p = true) : t.ensure fresh p = some t := by
  induction p with
  | nil => rfl
  | cons x p ih =>
    have hp : t.isDir p = true := isDir_of_dir (t.parent x p (node_of_isDir h))
    rw [ensure, ih hp, Option.bind_some, if_pos h]

theorem ensure_spec (h : t.ensure fresh p = some u) : t.Keeps u ∧ u.isDir p = true := by
  induction p generalizing u with
  | nil =>
    cases h
    exact ⟨fun _ _ hn => hn, isDir_of_dir t.root⟩
  | cons x p ih =>
    rw [ensure] at h
    obtain ⟨v, hv, h⟩ := Option.bind_eq_some_iff.mp h
    obtain ⟨hkeep, -⟩ := ih hv
    split at h
    · rename_i hd
      cases h
      exact ⟨hkeep, hd⟩
    · obtain ⟨-, hdir, hmore⟩ := mkdir_spec (ok_of_toOption h)
      exact ⟨hkeep.trans hmore, isDir_of_dir hdir⟩

theorem ensure_resume (hq : q <:+ p) (h : t.ensure fresh q = some u) :
    u.ensure fresh p = t.ensure fresh p := by
  induction p with
  | nil =>
    cases List.suffix_nil.mp hq
    cases h
    rfl
  | cons x p ih =>
    rcases List.suffix_cons_iff.mp hq with rfl | hq
    · rw [ensure_isDir (ensure_spec h).2, h]
    · rw [ensure, ensure, ih hq]

end Tree

/-! ## What a step comes to -/

namespace GadgetStep

variable {fresh : Loc → Tree} {t t' u : Tree}

/-- The tree after a step that succeeds. -/
def carry (fresh : Loc → Tree) (t : Tree) : GadgetStep → Option Tree
  | .dir p => t.ensure fresh p
  | .write p content => (t.write p content).toOption
  | .link target p =>
    match t.exists_ p with
    | .ok true => some t
    | .ok false => (t.symlink target p).toOption
    | .error _ => none

/-- Only whether a step succeeds is of interest: an error may come out as another one
the second time. -/
def exec (fresh : Loc → Tree) (t : Tree) (a : GadgetStep) : Except Unit Tree :=
  (a.carry fresh t).elim (.error ()) .ok

/-- What a step may leave behind when it fails. -/
def Torn (fresh : Loc → Tree) (a : GadgetStep) (t t' : Tree) : Prop :=
  match a with
  | .dir p => ∃ q, q <:+ p ∧ t.ensure fresh q = some t'
  | .write p content => ∃ n, t.write p (content.take n) = .ok t'
  | .link _ _ => False

def Settled (a : GadgetStep) (t : Tree) : Prop :=
  match a with
  | .dir p => t.isDir p = true
  | .write p content => t.node p = some (.file content)
  | .link _ p => t.exists_ p = .ok true

theorem exec_ok {a : GadgetStep} : exec fresh t a = .ok t' ↔ a.carry fresh t = some t' := by
  unfold exec
  cases a.carry fresh t with
  | none => exact ⟨nofun, nofun⟩
  | some u => exact ⟨fun h => by cases h; rfl, fun h => by cases h; rfl⟩

/-- A step leaves the files of other steps alone, and everything else it finds. -/
theorem carry_keeps {a : GadgetStep} (h : a.carry fresh t = some t') :
    t.Grows t' ∧ ∀ q n, t.node q = some n → (∀ content, a ≠ .write q content) → t'.node q = some n := by
  cases a with
  | dir p =>
    have hk := (Tree.ensure_spec h).1
    exact ⟨hk.grows, fun q n hn _ => hk q n hn⟩
  | write p content =>
    have hw := ok_of_toOption h
    refine ⟨Tree.write_grows hw, fun q n hn hq => ?_⟩
    rw [(Tree.write_spec hw).2.2 q fun he => hq content (by rw [he])]
    exact hn
  | link target p =>
    simp only [carry] at h
    split at h
    · cases h
      exact ⟨fun _ _ hk => hk, fun _ _ hn _ => hn⟩
    · have hk := (Tree.symlink_spec (ok_of_toOption h)).2.2
      exact ⟨hk.grows, fun q n hn _ => hk q n hn⟩
    · cases h

theorem Settled.mono {a : GadgetStep} (h : a.Settled t) (hg : t.Grows t')
    (hw : ∀ p content, a = .write p content → t'.node p = t.node p) : a.Settled t' := by
  cases a with
  | dir p => exact hg.isDir h
  | write p content => exact (hw p content rfl).trans h
  | link target p => exact hg.exists_ h

theorem write_again {p : Loc} {c c' : Bytes} (h : t.write p c = .ok t') : t'.write p c' = t.write p c' := by
  cases p with
  | nil => cases h
  | cons x p =>
    obtain ⟨_, -, h⟩ := bind_eq_ok.mp h
    simp only at h
    split at h
    · rename_i hfree
      cases h
      have hdir : (t.put x p hfree (.file c)).node p = some .dir :=
        (if_neg (by simp)).trans hfree.1
      have hfree' : (t.put x p hfree (.file c)).Free x p := by
        refine ⟨hdir, fun n hn => ?_⟩
        cases (if_pos rfl).symm.trans hn
        rfl
      rw [Tree.write, Tree.write, Tree.walk_cons.mpr hdir, Tree.walk_cons.mpr hfree.1, ok_bind, ok_bind]
      simp only [dif_pos hfree, dif_pos hfree']
      refine congrArg Except.ok (Tree.ext (funext fun q => ?_))
      simp only [Tree.put]
      split <;> rfl
    · cases h

theorem write_done {p : Loc} {c : Bytes} (h : t.node p = some (.file c)) : t.write p c = .ok t := by
  cases p with
  | nil => cases t.root.symm.trans h
  | cons x p =>
    have hfree : t.Free x p := by
      refine ⟨t.parent x p (by rw [h]; nofun), fun n hn => ?_⟩
      cases h.symm.trans hn
      rfl
    rw [Tree.write, Tree.walk_of_node h, ok_bind]
    simp only [dif_pos hfree]
    refine congrArg Except.ok (Tree.ext (funext fun q => ?_))
    simp only [Tree.put]
    split
    · rename_i hq
      rw [hq, h]
    · rfl

theorem exec_settled {a : GadgetStep} (h : a.Settled t) : exec fresh t a = .ok t := by
  refine exec_ok.mpr ?_
  cases a with
  | dir p => exact Tree.ensure_isDir h
  | write p content => simp only [carry, write_done h, Except.toOption]
  | link target p =>
    have h : t.exists_ p = .ok true := h
    simp only [carry, h]

theorem exec_torn {a : GadgetStep} (h : a.Torn fresh t t') : exec fresh t' a = exec fresh t a := by
  unfold exec
  cases a with
  | dir p =>
    obtain ⟨q, hq, he⟩ := h
    simp only [carry, Tree.ensure_resume hq he]
  | write p content =>
    obtain ⟨n, hn⟩ := h
    simp only [carry, write_again hn]
  | link target p => exact h.elim

theorem settled_of_exec {a : GadgetStep} (h : exec fresh t a = .ok t') : a.Settled t' := by
  have h := exec_ok.mp h
  cases a with
  | dir p => exact (Tree.ensure_spec h).2
  | write p content => exact (Tree.write_spec (ok_of_toOption h)).2.1
  | link target p =>
    simp only [carry] at h
    split at h
    · rename_i he
      cases h
      exact he
    · obtain ⟨-, hp, -⟩ := Tree.symlink_spec (ok_of_toOption h)
      exact Tree.exists_true.mpr ⟨_, hp⟩
    · cases h

/-! ## The script can be run again -/

def written : GadgetStep → Option Loc
  | .write p _ => some p
  | _ => none

/-- A torn step did what some step of the same file does. -/
theorem carry_of_torn {a : GadgetStep} (h : a.Torn fresh t t') :
    ∃ b : GadgetStep, b.carry fresh t = some t' ∧ b.written = a.written := by
  cases a with
  | dir p =>
    obtain ⟨q, -, he⟩ := h
    exact ⟨.dir q, he, rfl⟩
  | write p content =>
    obtain ⟨n, hn⟩ := h
    exact ⟨.write p (content.take n), by simp only [carry, hn, Except.toOption], rfl⟩
  | link target p => exact h.elim

theorem settled_kept {a b : GadgetStep} {done rest : List GadgetStep}
    (hnodup : ((done ++ a :: rest).filterMap written).Nodup) (hs : ∀ c ∈ done, c.Settled t)
    (hb : b.carry fresh t = some t') (hw : b.written = a.written) : ∀ c ∈ done, c.Settled t' := by
  intro c hc
  obtain ⟨hgrows, hkeep⟩ := carry_keeps hb
  refine (hs c hc).mono hgrows ?_
  rintro p content rfl
  have hp : t.node p = some (.file content) := hs _ hc
  rw [hp]
  refine hkeep p _ hp ?_
  rintro content' rfl
  rw [List.filterMap_append, List.nodup_append] at hnodup
  have hleft : p ∈ done.filterMap written := List.mem_filterMap.mpr ⟨_, hc, rfl⟩
  have hright : p ∈ (a :: rest).filterMap written := List.mem_filterMap.mpr ⟨a, .head _, hw.symm⟩
  exact hnodup.2.2 p hleft p hright rfl

theorem restartable {script : List GadgetStep} (hnodup : (script.filterMap written).Nodup) :
    Restartable (exec fresh) (Torn fresh) Settled script where
  skip := exec_settled
  redo := exec_torn
  step hscript hs ha :=
    ⟨settled_of_exec ha, settled_kept (hscript ▸ hnodup) hs (exec_ok.mp ha) rfl⟩
  tear hscript hs ha := by
    obtain ⟨b, hb, hw⟩ := carry_of_torn ha
    exact settled_kept (hscript ▸ hnodup) hs hb hw

end GadgetStep

/-! ## Another content of one file -/

namespace Tree

variable {fresh : Loc → Tree} {t u : Tree} {p q : Loc} {x : Bytes}

/-- The trees differ at most in the content of the file `p`. -/
def Alike (p : Loc) (t u : Tree) : Prop :=
  ∀ q, t.node q = u.node q ∨ q = p ∧ ∃ c c', t.node q = some (.file c) ∧ u.node q = some (.file c')

theorem Alike.dir_iff (h : Alike p t u) (q : Loc) : t.node q = some .dir ↔ u.node q = some .dir := by
  rcases h q with he | ⟨-, c, c', ht, hu⟩
  · rw [he]
  · rw [ht, hu]
    simp

theorem Alike.none_iff (h : Alike p t u) (q : Loc) : t.node q = none ↔ u.node q = none := by
  rcases h q with he | ⟨-, c, c', ht, hu⟩
  · rw [he]
  · rw [ht, hu]
    simp

theorem Alike.walk (h : Alike p t u) (q : Loc) : t.walk q = u.walk q := by
  induction q with
  | nil => rfl
  | cons x q ih =>
    rw [Tree.walk, Tree.walk, ih]
    rcases h q with he | ⟨-, c, c', ht, hu⟩
    · rw [he]
    · rw [ht, hu]

theorem Alike.isDir (h : Alike p t u) (q : Loc) : t.isDir q = u.isDir q := by
  unfold Tree.isDir metadata
  rw [h.walk q]
  rcases h q with he | ⟨-, c, c', ht, hu⟩
  · rw [he]
  · rw [ht, hu]
    cases u.walk q with
    | error e => rfl
    | ok _ => rfl

theorem Alike.exists_ (h : Alike p t u) (q : Loc) : t.exists_ q = u.exists_ q := by
  unfold Tree.exists_ metadata
  rw [h.walk q]
  rcases h q with he | ⟨-, c, c', ht, hu⟩
  · rw [he]
  · rw [ht, hu]
    cases u.walk q with
    | error e => rfl
    | ok _ => rfl

theorem Alike.free (h : Alike p t u) (x : Bytes) (q : Loc) : t.Free x q ↔ u.Free x q := by
  unfold Free
  rw [h.dir_iff q]
  rcases h (x :: q) with he | ⟨-, c, c', ht, hu⟩
  · rw [he]
  · rw [ht, hu]
    simp [Node.kind]

theorem Alike.put (h : Alike p t u) (ht : t.Free x q) (hu : u.Free x q) {n n' : Node}
    (hn : n = n' ∨ x :: q = p ∧ ∃ c c', n = .file c ∧ n' = .file c') :
    Alike p (t.put x q ht n) (u.put x q hu n') := by
  intro r
  simp only [Tree.put]
  by_cases hr : r = x :: q
  · rw [if_pos hr, if_pos hr]
    rcases hn with rfl | ⟨hp, c, c', rfl, rfl⟩
    · exact .inl rfl
    · exact .inr ⟨hr.trans hp, c, c', rfl, rfl⟩
  · rw [if_neg hr, if_neg hr]
    exact h r

theorem write_alike {c c' : Bytes} (h : Alike p t u) (hc : c = c' ∨ q = p) :
    Option.Rel (Alike p) (t.write q c).toOption (u.write q c').toOption := by
  unfold write
  rw [h.walk q]
  cases u.walk q with
  | error e => exact .none
  | ok _ =>
    cases q with
    | nil => exact .none
    | cons x q =>
      simp only [ok_bind]
      by_cases hf : t.Free x q
      · rw [dif_pos hf, dif_pos ((h.free x q).mp hf)]
        refine .some (h.put hf _ ?_)
        rcases hc with rfl | hq
        · exact .inl rfl
        · exact .inr ⟨hq, c, c', rfl, rfl⟩
      · rw [dif_neg hf, dif_neg fun hf' => hf ((h.free x q).mpr hf')]
        exact .none

theorem write_same {c : Bytes} (h : Alike p t u) : (t.write p c).toOption = (u.write p c).toOption := by
  unfold write
  rw [h.walk p]
  cases u.walk p with
  | error e => rfl
  | ok _ =>
    cases p with
    | nil => rfl
    | cons x p =>
      simp only [ok_bind]
      by_cases hf : t.Free x p
      · rw [dif_pos hf, dif_pos ((h.free x p).mp hf)]
        refine congrArg some (Tree.ext (funext fun q => ?_))
        simp only [Tree.put]
        split
        · rfl
        · rename_i hq
          exact (h q).resolve_right fun hp => hq hp.1
      · rw [dif_neg hf, dif_neg fun hf' => hf ((h.free x p).mpr hf')]

theorem mkdir_alike (h : Alike p t u) (q : Loc) :
    Option.Rel (Alike p) (t.mkdir fresh q).toOption (u.mkdir fresh q).toOption := by
  unfold mkdir
  rw [h.walk q]
  cases u.walk q with
  | error e => exact .none
  | ok _ =>
    cases q with
    | nil => exact .none
    | cons x q =>
      simp only [ok_bind]
      have hiff := and_congr (h.dir_iff q) (h.none_iff (x :: q))
      by_cases hc : t.node q = some .dir ∧ t.node (x :: q) = none
      · rw [dif_pos hc, dif_pos (hiff.mp hc)]
        refine .some fun r => ?_
        simp only [graft, graftNode]
        split
        · exact .inl rfl
        · exact h r
      · rw [dif_neg hc, dif_neg fun hc' => hc (hiff.mpr hc')]
        exact .none

theorem ensure_alike (h : Alike p t u) (q : Loc) :
    Option.Rel (Alike p) (t.ensure fresh q) (u.ensure fresh q) := by
  induction q with
  | nil => exact .some h
  | cons x q ih =>
    rw [ensure, ensure]
    cases ht : t.ensure fresh q with
    | none =>
      rw [ht] at ih
      cases hu : u.ensure fresh q with
      | none => exact .none
      | some u' =>
        rw [hu] at ih
        cases ih
    | some t' =>
      rw [ht] at ih
      cases hu : u.ensure fresh q with
      | none =>
        rw [hu] at ih
        cases ih
      | some u' =>
        rw [hu] at ih
        cases ih with
        | some h' =>
          simp only [Option.bind_some, h'.isDir (x :: q)]
          split
          · exact .some h'
          · exact mkdir_alike h' (x :: q)

theorem symlink_alike (h : Alike p t u) (target q : Loc) :
    Option.Rel (Alike p) (t.symlink target q).toOption (u.symlink target q).toOption := by
  unfold symlink
  rw [h.walk q]
  cases u.walk q with
  | error e => exact .none
  | ok _ =>
    cases q with
    | nil => exact .none
    | cons x q =>
      simp only [ok_bind]
      have hiff := and_congr (h.free x q) (h.none_iff (x :: q))
      by_cases hc : t.Free x q ∧ t.node (x :: q) = none
      · rw [dif_pos hc, dif_pos (hiff.mp hc), h.isDir target]
        split
        · exact .some (h.put hc.1 _ (.inl rfl))
        · exact .none
      · rw [dif_neg hc, dif_neg fun hc' => hc (hiff.mpr hc')]
        exact .none

end Tree

namespace GadgetStep

variable {fresh : Loc → Tree} {t t' u : Tree} {p : Loc} {a b : GadgetStep}

/-- The same step, but for what it writes into the file `p`. -/
def Same (p : Loc) (a b : GadgetStep) : Prop := a = b ∨ ∃ c c', a = .write p c ∧ b = .write p c'

theorem carry_alike (hab : Same p a b) (h : Tree.Alike p t u) :
    Option.Rel (Tree.Alike p) (a.carry fresh t) (b.carry fresh u) := by
  rcases hab with rfl | ⟨c, c', rfl, rfl⟩
  · cases a with
    | dir q => exact Tree.ensure_alike h q
    | write q c => exact Tree.write_alike h (.inl rfl)
    | link target q =>
      simp only [carry, h.exists_ q]
      split
      · exact .some h
      · exact Tree.symlink_alike h target q
      · exact .none
  · exact Tree.write_alike h (.inr rfl)

theorem some_of_alike {o o' : Option Tree} (h : Option.Rel (Tree.Alike p) o o') (ho : o = some t) :
    ∃ u, o' = some u ∧ Tree.Alike p t u := by
  subst ho
  cases h with
  | some h => exact ⟨_, rfl, h⟩

theorem exec_alike (hab : Same p a b) (h : Tree.Alike p t u) (he : exec fresh t a = .ok t') :
    ∃ u', exec fresh u b = .ok u' ∧ Tree.Alike p t' u' := by
  obtain ⟨u', hu, halike⟩ := some_of_alike (carry_alike hab h) (exec_ok.mp he)
  exact ⟨u', exec_ok.mpr hu, halike⟩

theorem torn_alike (hab : Same p a b) (h : Tree.Alike p t u) (ht : a.Torn fresh t t') :
    ∃ u', b.Torn fresh u u' ∧ Tree.Alike p t' u' := by
  rcases hab with rfl | ⟨c, c', rfl, rfl⟩
  · cases a with
    | dir q =>
      obtain ⟨r, hr, he⟩ := ht
      obtain ⟨u', hu, halike⟩ := some_of_alike (Tree.ensure_alike h r) he
      exact ⟨u', ⟨r, hr, hu⟩, halike⟩
    | write q c =>
      obtain ⟨n, hn⟩ := ht
      have hsome : (t.write q (c.take n)).toOption = some t' := by
        rw [hn]
        rfl
      obtain ⟨u', hu, halike⟩ := some_of_alike (Tree.write_alike h (.inl rfl)) hsome
      exact ⟨u', ⟨n, ok_of_toOption hu⟩, halike⟩
    | link target q => exact ht.elim
  · obtain ⟨n, hn⟩ := ht
    have hsome : (t.write p (c.take n)).toOption = some t' := by
      rw [hn]
      rfl
    have hrel : Option.Rel (Tree.Alike p) (t.write p (c.take n)).toOption
        (u.write p (c'.take n)).toOption := Tree.write_alike h (.inr rfl)
    obtain ⟨u', hu, halike⟩ := some_of_alike hrel hsome
    exact ⟨u', ⟨n, ok_of_toOption hu⟩, halike⟩

theorem variants (fresh : Loc → Tree) (p : Loc) :
    Variants (exec fresh) (Torn fresh) (Same p) (Tree.Alike p) where
  refl _ _ := .inl rfl
  exec := exec_alike
  torn := torn_alike

/-- A script that writes the file comes to the same tree. -/
theorem run_alike {script : List GadgetStep} {c : Bytes} (hmem : .write p c ∈ script)
    (h : Tree.Alike p t u) : runEvents (exec fresh) t script = runEvents (exec fresh) u script := by
  induction script generalizing t u with
  | nil => cases hmem
  | cons a script ih =>
    have hrel : Option.Rel (Tree.Alike p) (a.carry fresh t) (a.carry fresh u) :=
      carry_alike (.inl rfl) h
    rcases List.mem_cons.mp hmem with rfl | hmem
    · have hsame : exec fresh t (.write p c) = exec fresh u (.write p c) := by
        simp only [exec, carry, Tree.write_same h]
      rw [runEvents, runEvents, hsame]
    · rw [runEvents, runEvents, exec, exec]
      cases ht : a.carry fresh t with
      | none =>
        rw [ht] at hrel
        cases hu : a.carry fresh u with
        | none => rfl
        | some u' =>
          rw [hu] at hrel
          cases hrel
      | some t' =>
        obtain ⟨u', hu, halike⟩ := some_of_alike hrel ht
        rw [hu]
        exact ih hmem halike

end GadgetStep

/-! ## The calls carry out the steps -/

/-- The result of a computation that is to come to `goal`; if no call fails, an error says
that there is no such tree. -/
def Comes (k : Kernel) (goal : Option Tree) (Left : Tree → Prop) :
    Except FsError Unit × Tree → Prop
  | (.ok (), t) => goal = some t
  | (.error _, t) => Left t ∧ ((∀ c, k.fail c = none) → goal = none)

section

variable {k : Kernel} {t t' : Tree} {p q : Loc} {x : Bytes}

theorem comes_lift (f : Tree → Except FsError Tree) (t : Tree) :
    Comes k (f t).toOption (· = t) (Io.lift f t) := by
  unfold Io.lift
  cases f t with
  | ok t' => rfl
  | error e => exact ⟨rfl, fun _ => rfl⟩

theorem Comes.mono {goal : Option Tree} {Left Left' : Tree → Prop} {r : Except FsError Unit × Tree}
    (h : Comes k goal Left r) (hle : ∀ t, Left t → Left' t) : Comes k goal Left' r := by
  obtain ⟨r | r, t⟩ := r
  · exact ⟨hle t h.1, h.2⟩
  · exact h

theorem comes_mkdirCall (p : Loc) (again : Bool) (t : Tree) :
    Comes k (t.mkdir k.fresh p).toOption (· = t) (mkdirCall k p again t) := by
  unfold mkdirCall
  cases hf : k.fail (.mkdir p again) with
  | none => exact comes_lift _ t
  | some f => exact ⟨rfl, fun hcalm => by cases (hcalm _).symm.trans hf⟩

theorem mkdirCall_error {again : Bool} {e : FsError} (hcalm : ∀ c, k.fail c = none)
    (h : mkdirCall k p again t = (.error e, t')) : t.mkdir k.fresh p = .error e := by
  unfold mkdirCall Io.lift at h
  rw [hcalm] at h
  cases hm : t.mkdir k.fresh p with
  | ok u =>
    simp only [hm] at h
    cases h
  | error e' =>
    simp only [hm] at h
    cases h
    rfl

theorem Tree.dir_above (h : t.node p ≠ none) (hq : q <:+ p) (hne : q ≠ p) : t.node q = some .dir := by
  induction p with
  | nil => exact absurd (List.suffix_nil.mp hq) hne
  | cons x p ih =>
    have hp : t.node p = some .dir := t.parent x p h
    rcases List.suffix_cons_iff.mp hq with rfl | hq
    · exact absurd rfl hne
    · by_cases he : q = p
      · rw [he]
        exact hp
      · exact ih (by rw [hp]; nofun) hq he

/-- Path resolution that fails for another reason than a missing name has met something
that is no directory. -/
theorem Tree.walk_blocked {e : FsError} (h : t.walk p = .error e) (he : e ≠ .notFound) :
    ∃ q n, q <:+ p ∧ q ≠ p ∧ t.node q = some n ∧ n ≠ .dir := by
  induction p with
  | nil => cases h
  | cons x p ih =>
    rcases bind_eq_error.mp h with h | ⟨_, -, h⟩
    · obtain ⟨q, n, hq, hne, hn⟩ := ih h
      refine ⟨q, n, hq.trans (List.suffix_cons x p), ?_, hn⟩
      rintro rfl
      exact absurd hq.length_le (by simp)
    · split at h
      · cases h
      · rename_i n hdir hn
        refine ⟨p, n, List.suffix_cons x p, by simp, hn, ?_⟩
        rintro rfl
        exact hdir rfl
      · cases h
        exact absurd rfl he

theorem Tree.Keeps.walk_fails {e : FsError} (hk : t.Keeps u) (h : t.walk (x :: p) = .error e)
    (he : e ≠ .notFound) : u.walk (x :: p) ≠ .ok () := by
  obtain ⟨q, n, hq, hne, hn, hnd⟩ := walk_blocked h he
  intro hw
  have hp : u.node p = some .dir := walk_cons.mp hw
  have hun : u.node q = some n := hk q n hn
  rcases List.suffix_cons_iff.mp hq with heq | hq
  · exact hne heq
  · by_cases hqp : q = p
    · rw [hqp, hp] at hun
      cases hun
      exact hnd rfl
    · cases (dir_above (by rw [hp]; nofun) hq hqp).symm.trans hun
      exact hnd rfl

/-- A directory that cannot be made is not made by making its parents. -/
theorem Tree.ensure_fails {e : FsError} (h : t.mkdir k.fresh (x :: p) = .error e) (he : e ≠ .notFound)
    (hd : t.isDir (x :: p) = false) : t.ensure k.fresh (x :: p) = none := by
  rw [Tree.ensure]
  cases hu : t.ensure k.fresh p with
  | none => rfl
  | some u =>
    rw [Option.bind_some]
    rcases bind_eq_error.mp h with hblocked | ⟨_, hw, -⟩
    · have hwalk : u.walk (x :: p) ≠ .ok () := (ensure_spec hu).1.walk_fails hblocked he
      have hnode : u.isDir (x :: p) = false := by
        by_contra hne
        obtain ⟨n, hn, -⟩ := isDir_iff.mp (Bool.not_eq_false _ ▸ hne)
        exact hwalk (walk_of_node hn)
      rw [hnode]
      cases hm : u.mkdir k.fresh (x :: p) with
      | error e => rfl
      | ok v =>
        obtain ⟨_, hw, -⟩ := bind_eq_ok.mp hm
        exact absurd hw hwalk
    · rw [ensure_isDir (isDir_of_dir (walk_cons.mp hw))] at hu
      cases hu
      rw [hd, h]
      rfl

theorem Tree.isDir_of_mkdir (h : t.mkdir k.fresh p = .ok t') : t.isDir p = false := by
  by_contra hne
  obtain ⟨n, hn, -⟩ := isDir_iff.mp (Bool.not_eq_false _ ▸ hne)
  cases (mkdir_spec h).1.symm.trans hn

theorem Tree.ensure_step {u : Tree} (hu : t.ensure k.fresh p = some u) : t.ensure k.fresh (x :: p) =
    if u.isDir (x :: p) then some u else (u.mkdir k.fresh (x :: p)).toOption := by
  rw [Tree.ensure, hu, Option.bind_some]

theorem Tree.ensure_mkdir {u : Tree} (hu : t.ensure k.fresh p = some u)
    (h : u.mkdir k.fresh (x :: p) = .ok t') : t.ensure k.fresh (x :: p) = some t' := by
  rw [ensure_step hu, isDir_of_mkdir h, h]
  rfl

theorem comes_mkdirAgain {u : Tree} (hu : t.ensure k.fresh p = some u) :
    Comes k (t.ensure k.fresh (x :: p)) (fun u => ∃ q, q <:+ x :: p ∧ t.ensure k.fresh q = some u)
      (match mkdirCall k (x :: p) true u with
        | (.ok (), t) => (.ok (), t)
        | (.error e, t) => if t.isDir (x :: p) then (.ok (), t) else (.error e, t)) := by
  have hcall := comes_mkdirCall (k := k) (x :: p) true u
  cases hm : mkdirCall k (x :: p) true u with
  | mk r v =>
    rw [hm] at hcall
    cases r with
    | ok _ => exact Tree.ensure_mkdir hu (ok_of_toOption hcall)
    | error e =>
      obtain ⟨rfl, hfail⟩ := hcall
      have hstep := Tree.ensure_step (x := x) hu
      simp only
      split
      · rename_i hd
        exact hstep.trans (if_pos hd)
      · rename_i hd
        refine ⟨⟨p, List.suffix_cons x p, hu⟩, fun hcalm => ?_⟩
        exact (hstep.trans (if_neg hd)).trans (hfail hcalm)

theorem comes_createDirAll (p : Loc) (t : Tree) :
    Comes k (t.ensure k.fresh p) (fun u => ∃ q, q <:+ p ∧ t.ensure k.fresh q = some u)
      (createDirAll k p t) := by
  induction p generalizing t with
  | nil => exact rfl
  | cons x p ih =>
    have hself : ∃ q, q <:+ x :: p ∧ t.ensure k.fresh q = some t := ⟨[], List.nil_suffix, rfl⟩
    have hcall := comes_mkdirCall (k := k) (x :: p) false t
    unfold createDirAll
    cases hm : mkdirCall k (x :: p) false t with
    | mk r t' =>
      rw [hm] at hcall
      cases r with
      | ok _ =>
        have hmk := ok_of_toOption hcall
        obtain ⟨_, hw, -⟩ := bind_eq_ok.mp hmk
        exact Tree.ensure_mkdir (Tree.ensure_isDir (Tree.isDir_of_dir (Tree.walk_cons.mp hw))) hmk
      | error e =>
        obtain ⟨rfl, hfail⟩ := hcall
        have hother : e ≠ .notFound → Comes k (t'.ensure k.fresh (x :: p))
            (fun u => ∃ q, q <:+ x :: p ∧ t'.ensure k.fresh q = some u)
            (if t'.isDir (x :: p) then (.ok (), t') else (.error e, t')) := by
          intro he
          split
          · rename_i hd
            exact Tree.ensure_isDir hd
          · rename_i hd
            refine ⟨hself, fun hcalm => ?_⟩
            exact Tree.ensure_fails (mkdirCall_error hcalm hm) he (Bool.not_eq_true _ ▸ hd)
        by_cases he : e = .notFound
        · subst he
          simp only
          have hparents := ih t'
          cases hp : createDirAll k p t' with
          | mk r u =>
            rw [hp] at hparents
            cases r with
            | ok _ => exact comes_mkdirAgain hparents
            | error e =>
              obtain ⟨⟨q, hq, hu⟩, hnone⟩ := hparents
              refine ⟨⟨q, hq.trans (List.suffix_cons x p), hu⟩, fun hcalm => ?_⟩
              rw [Tree.ensure, hnone hcalm]
              rfl
        · cases e <;> first | exact absurd rfl he | exact hother he

/-! ## Attempts -/

theorem existsCall_cases (k : Kernel) (p : Loc) (t : Tree) :
    (∃ b, existsCall k p t = (.ok b, t) ∧ t.exists_ p = .ok b) ∨
      ∃ e, existsCall k p t = (.error e, t) ∧ ((∀ c, k.fail c = none) → t.exists_ p = .error e) := by
  unfold existsCall
  cases hf : k.fail (.exists p) with
  | some f => exact .inr ⟨f.error, rfl, fun hcalm => by cases (hcalm _).symm.trans hf⟩
  | none =>
    cases t.exists_ p with
    | ok b => exact .inl ⟨b, rfl, rfl⟩
    | error e => exact .inr ⟨e, rfl, fun _ => rfl⟩

theorem comes_symlinkCall (target p : Loc) (t : Tree) :
    Comes k (t.symlink target p).toOption (· = t) (symlinkCall k target p t) := by
  unfold symlinkCall
  cases hf : k.fail (.symlink p) with
  | none => exact comes_lift _ t
  | some f => exact ⟨rfl, fun hcalm => by cases (hcalm _).symm.trans hf⟩

theorem comes_io (a : GadgetStep) (t : Tree) :
    Comes k (a.carry k.fresh t) (fun u => u = t ∨ a.Torn k.fresh t u) (a.io k t) := by
  cases a with
  | dir p => exact (comes_createDirAll p t).mono fun _ => .inr
  | write p content =>
    show Comes _ _ _ (writeCall k p content t)
    unfold writeCall
    cases hf : k.fail (.write p) with
    | none => exact (comes_lift (·.write p content) t).mono fun _ => .inl
    | some f =>
      have hnone : ∀ {P : Prop}, (∀ c, k.fail c = none) → P := fun hcalm => by
        cases (hcalm _).symm.trans hf
      obtain ⟨e, n | n⟩ := f
      · exact ⟨.inl rfl, hnone⟩
      · refine ⟨?_, hnone⟩
        cases hw : t.write p (content.take n) with
        | ok u => exact .inr ⟨n, hw.trans (congrArg Except.ok (Io.lift_ok hw).symm)⟩
        | error e => exact .inl (Io.lift_error hw)
  | link target p =>
    simp only [GadgetStep.io, GadgetStep.carry]
    rcases existsCall_cases k p t with ⟨b, hcall, hb⟩ | ⟨e, hcall, he⟩
    · rw [Io.bind_ok hcall, hb]
      cases b with
      | true => exact rfl
      | false => exact (comes_symlinkCall target p t).mono fun _ => .inl
    · rw [Io.bind_error hcall]
      refine ⟨.inl rfl, fun hcalm => ?_⟩
      rw [he hcalm]

/-- A run of the steps is an attempt at the script, and if it comes to the end, a run of it. -/
theorem runSteps_spec (script : List GadgetStep) (t : Tree) :
    Attempt (GadgetStep.exec k.fresh) (GadgetStep.Torn k.fresh) script t (runSteps k script t).2 ∧
      Comes k (runEvents (GadgetStep.exec k.fresh) t script).toOption (fun _ => True)
        (runSteps k script t) := by
  induction script generalizing t with
  | nil => exact ⟨.stop [] t, rfl⟩
  | cons a script ih =>
    have hstep := comes_io (k := k) a t
    cases ha : a.io k t with
    | mk r u =>
      rw [ha] at hstep
      cases r with
      | ok _ =>
        obtain ⟨hattempt, hcomes⟩ := ih u
        have hexec : a.exec k.fresh t = .ok u := GadgetStep.exec_ok.mpr hstep
        have hrun : runSteps k (a :: script) t = runSteps k script u := Io.bind_ok ha
        rw [hrun]
        refine ⟨.step hexec hattempt, ?_⟩
        rw [runEvents, hexec, ok_bind]
        exact hcomes
      | error e =>
        obtain ⟨hleft, hnone⟩ := hstep
        have hrun : runSteps k (a :: script) t = (.error e, u) := Io.bind_error ha
        rw [hrun]
        refine ⟨?_, trivial, fun hcalm => ?_⟩
        · rcases hleft with rfl | htorn
          · exact .stop _ _
          · exact .torn htorn
        · rw [runEvents, GadgetStep.exec, hnone hcalm]
          rfl

end

def outcome : Except FsError Unit × Tree → Option Tree
  | (.ok (), t) => some t
  | (.error _, _) => none

theorem outcome_calm (fresh : Loc → Tree) (sources : SystemSources) (t : Tree) :
    outcome (setupGadget (.calm fresh) sources t) =
      (runEvents (GadgetStep.exec fresh) t (gadgetScript sources)).toOption := by
  have h := (runSteps_spec (k := .calm fresh) (gadgetScript sources) t).2
  rw [setupGadget_eq]
  cases hr : runSteps (.calm fresh) (gadgetScript sources) t with
  | mk r u =>
    rw [hr] at h
    cases r with
    | ok _ => exact h.symm
    | error e => exact (h.2 fun _ => rfl).symm

theorem gadgetScript_nodup (sources : SystemSources) :
    ((gadgetScript sources).filterMap GadgetStep.written).Nodup := by
  have hpaths : (gadgetScript sources).filterMap GadgetStep.written =
      (gadgetScript ⟨none, none, none, none, none, none⟩).filterMap GadgetStep.written := rfl
  rw [hpaths]
  decide

theorem run_keeps {fresh : Loc → Tree} {script : List GadgetStep} {t u : Tree}
    (h : runEvents (GadgetStep.exec fresh) t script = .ok u) {q : Loc} {n : Node}
    (hn : t.node q = some n) (hq : ∀ c, .write q c ∉ script) : u.node q = some n := by
  induction script generalizing t with
  | nil =>
    cases h
    exact hn
  | cons a script ih =>
    obtain ⟨v, ha, h⟩ := bind_eq_ok.mp h
    refine ih h ?_ fun c hc => hq c (.tail _ hc)
    refine (GadgetStep.carry_keeps (GadgetStep.exec_ok.mp ha)).2 q n hn ?_
    rintro c rfl
    exact hq c (.head _)

/-- The trees an attempt at the setup may leave, whatever calls fail and whatever it finds
out about the device. -/
def Tried (fresh : Loc → Tree) (t t' : Tree) : Prop :=
  ∃ sources fail, (setupGadget ⟨fresh, fail⟩ sources t).2 = t'

def serialPath : Loc := gadgetPath.join (ascii "strings/0x409/serialnumber")

theorem gadgetScript_same (sources sources' : SystemSources) :
    List.Forall₂ (GadgetStep.Same serialPath) (gadgetScript sources) (gadgetScript sources') := by
  have hself : ∀ script, List.Forall₂ (GadgetStep.Same serialPath) script script :=
    fun _ => List.forall₂_same.mpr fun _ _ => .inl rfl
  exact List.rel_append (hself ((gadgetScript sources).take 7))
    (.cons (.inr ⟨_, _, rfl, rfl⟩) (hself ((gadgetScript sources).drop 8)))

/-- **The setup can be run again.** However often it was attempted, and wherever each
attempt failed, a run in which no call fails comes to the same tree as without those
attempts, or to none as well. Where it comes to a tree, another run changes nothing,
every directory, attribute and the link of the gadget are there, and nothing else that
was there has changed. -/
theorem gadget_setup_restarts {fresh : Loc → Tree} {sources : SystemSources} {t t' : Tree}
    (h : Relation.ReflTransGen (Tried fresh) t t') :
    outcome (setupGadget (.calm fresh) sources t') = outcome (setupGadget (.calm fresh) sources t) ∧
      ∀ u, outcome (setupGadget (.calm fresh) sources t) = some u →
        outcome (setupGadget (.calm fresh) sources u) = some u ∧
          (∀ a ∈ gadgetScript sources, a.Settled u) ∧
          ∀ q n, t.node q = some n → (∀ c, .write q c ∉ gadgetScript sources) → u.node q = some n := by
  have hrestart : Restartable (GadgetStep.exec fresh) (GadgetStep.Torn fresh) GadgetStep.Settled
      (gadgetScript sources) := GadgetStep.restartable (gadgetScript_nodup sources)
  have hattempts : Relation.ReflTransGen (fun t t' => ∃ variant,
      List.Forall₂ (GadgetStep.Same serialPath) variant (gadgetScript sources) ∧
        Attempt (GadgetStep.exec fresh) (GadgetStep.Torn fresh) variant t t') t t' := by
    refine Relation.ReflTransGen.mono ?_ _ _ h
    rintro t _ ⟨sources', fail, rfl⟩
    rw [setupGadget_eq]
    exact ⟨_, gadgetScript_same sources' sources,
      (runSteps_spec (k := ⟨fresh, fail⟩) (gadgetScript sources') t).1⟩
  have hserial : .write serialPath (DeviceInfo.fromSystem sources).serial ∈ gadgetScript sources :=
    List.mem_of_getElem? (i := 7) rfl
  have hrun := hrestart.run_variants (GadgetStep.variants fresh serialPath)
    (fun _ _ => GadgetStep.run_alike hserial) hattempts
  simp only [outcome_calm]
  refine ⟨congrArg Except.toOption hrun, fun u hu => ?_⟩
  have hrun := ok_of_toOption hu
  have hsettled := hrestart.settled_of_run hrun (List.nil_append _).symm nofun
  refine ⟨?_, hsettled, fun q n hn hq => run_keeps hrun hn hq⟩
  rw [hrestart.run_settled hsettled]
  rfl

def failAt (c : FsCall) (f : Fault) : FsCall → Option Fault := fun c' => if c' = c then some f else none

/-- The first attempt cannot make the strings' directory; the second, under another
machine id, is cut off within the serial number. -/
theorem gadget_setup_restarts_twice : ∃ t u,
    Relation.ReflTransGen (Tried fun _ => .bare) .bare t ∧
      t.node serialPath = some (.file (ascii "c0")) ∧
      u.node serialPath = some (.file (ascii "adibi")) ∧
      outcome (setupGadget (.calm fun _ => .bare) ⟨none, none, none, none, none, none⟩ t) = some u := by
  let sources : SystemSources := ⟨none, none, none, none, none, none⟩
  let others : SystemSources := { sources with machineId := some "c0ffee".toList }
  let first : Kernel := ⟨fun _ => .bare, failAt (.mkdir serialPath.tail false) ⟨.other [], none⟩⟩
  let second : Kernel := ⟨fun _ => .bare, failAt (.write serialPath) ⟨.other [], some 2⟩⟩
  have htorn : (setupGadget second others (setupGadget first sources .bare).2).2.node serialPath =
      some (.file (ascii "c0")) := by
    decide +kernel
  have hclean : (outcome (setupGadget (.calm fun _ => .bare) sources .bare)).map (·.node serialPath) =
      some (some (.file (ascii "adibi"))) := by
    decide +kernel
  have htried : Relation.ReflTransGen (Tried fun _ => .bare) .bare
      (setupGadget second others (setupGadget first sources .bare).2).2 :=
    (Relation.ReflTransGen.single ⟨sources, first.fail, rfl⟩).tail ⟨others, second.fail, rfl⟩
  obtain ⟨u, hu, hserial⟩ := Option.map_eq_some_iff.mp hclean
  exact ⟨_, u, htried, htorn, hserial, (gadget_setup_restarts htried).1.trans hu⟩

end Adibi
