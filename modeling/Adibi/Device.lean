import Adibi.Lib.Text
import Adibi.Message

/-!
# Device identity

`device_info.rs`: the names the daemon advertises, read from the system's files
with a default behind each. The two key/value scanners are one loop, `scan`,
which gives up at the first line without the delimiter; so it finds a field
unless such a line stands before it (`scanners_find_field_iff`).
-/

namespace Adibi

open Lib

def defaultName : Text := "adibi".toList

def nonEmpty (s : Text) : Option Text := if s = [] then none else some s

/-! ## The scanners -/

/-- The lines of a file of fields, up to the one whose key is looked for. -/
def scan (delim : Char) (isKey : Text → Bool) (clean : Text → Text) : List Text → Option Text
  | [] => none
  | line :: rest =>
    match line.splitOnce delim with
    -- `split_once(..)?`: a line without the delimiter ends the function
    | none => none
    | some (key, value) =>
      if isKey key then nonEmpty (clean value) else scan delim isKey clean rest

def isCpuinfoKey (field key : Text) : Bool := key.trim = field

def isPrettyName (key : Text) : Bool := key = "PRETTY_NAME".toList

def unquote (value : Text) : Text := value.trimMatches (· = '"')

/-- `contents` is the text of `/proc/cpuinfo`, if it could be read. -/
def readCpuinfoField (contents : Option Text) (field : Text) : Option Text :=
  contents.bind fun s => scan ':' (isCpuinfoKey field) Text.trim s.lines

/-- `contents` is the text of `/etc/os-release`, if it could be read. -/
def readOsPrettyName (contents : Option Text) : Option Text :=
  contents.bind fun s => scan '=' isPrettyName unquote s.lines

/-! ## The other sources -/

/-- Product name and serial extracted from the SMBIOS tables. -/
structure DmiInfo where
  product : Option Text
  serial : Option Text

/-- What the system has to say about itself: the product and serial strings of
the first SMBIOS System structure, and the files' texts. -/
structure SystemSources where
  smbios : Option (Text × Text)
  cpuinfo : Option Text
  deviceTreeModel : Option Text
  osRelease : Option Text
  machineId : Option Text
  hostname : Option Text

def readDmi (smbios : Option (Text × Text)) : Option DmiInfo :=
  smbios.map fun system => ⟨nonEmpty system.1, nonEmpty system.2⟩

def readDeviceTreeModel (contents : Option Text) : Option Text :=
  contents.bind fun s => nonEmpty (Text.trim (s.trimEndMatches (· = '\x00')))

def readMachineId (contents : Option Text) : Option Text :=
  contents.bind fun s => nonEmpty s.trim

def readHostname (contents : Option Text) : Option Text :=
  contents.bind fun s => nonEmpty s.trim

/-- Discovers device identity from system sources. -/
def DeviceInfo.fromSystem (sys : SystemSources) : DeviceInfo :=
  let dmi := (readDmi sys.smbios).getD ⟨none, none⟩
  let serial := ((dmi.serial.or (readCpuinfoField sys.cpuinfo "Serial".toList)).or
    (readMachineId sys.machineId)).getD defaultName
  let name := (readOsPrettyName sys.osRelease).getD defaultName
  let model := ((dmi.product.or (readCpuinfoField sys.cpuinfo "Model".toList)).or
    (readDeviceTreeModel sys.deviceTreeModel)).getD defaultName
  let device := (readHostname sys.hostname).getD defaultName
  ⟨serial.utf8, name.utf8, model.utf8, device.utf8⟩

/-! ## No field is empty -/

def Filled (v : Option Text) : Prop := v ≠ some []

theorem filled_nonEmpty (s : Text) : Filled (nonEmpty s) := by
  unfold nonEmpty Filled
  split
  · simp
  · simpa

theorem Filled.or {v w : Option Text} (hv : Filled v) (hw : Filled w) : Filled (v.or w) := by
  cases v with
  | none => exact hw
  | some s => exact hv

theorem Filled.bind {f : Text → Option Text} (h : ∀ s, Filled (f s)) (v : Option Text) :
    Filled (v.bind f) := by
  cases v with
  | none => exact fun e => nomatch e
  | some s => exact h s

theorem Filled.getD {v : Option Text} (h : Filled v) : (v.getD defaultName).utf8 ≠ [] := by
  cases v with
  | none => decide +kernel
  | some s => exact Text.utf8_ne_nil fun e => h (congrArg some e)

section

variable {delim : Char} {isKey : Text → Bool} {clean : Text → Text} {ls rest : List Text}
  {line : Text}

theorem filled_scan (ls : List Text) : Filled (scan delim isKey clean ls) := by
  induction ls with
  | nil => exact fun e => nomatch e
  | cons line rest ih =>
    unfold scan
    cases line.splitOnce delim with
    | none => exact fun e => nomatch e
    | some kv =>
      simp only
      split
      · exact filled_nonEmpty _
      · exact ih

/-- Whatever the system says, every advertised name has at least one byte. -/
theorem DeviceInfo.fromSystem_ne_nil (sys : SystemSources) :
    (fromSystem sys).serial ≠ [] ∧ (fromSystem sys).name ≠ [] ∧ (fromSystem sys).model ≠ [] ∧
      (fromSystem sys).device ≠ [] := by
  have hdmi : Filled ((readDmi sys.smbios).getD ⟨none, none⟩).serial ∧
      Filled ((readDmi sys.smbios).getD ⟨none, none⟩).product := by
    cases sys.smbios with
    | none => exact ⟨(nomatch ·), (nomatch ·)⟩
    | some system => exact ⟨filled_nonEmpty _, filled_nonEmpty _⟩
  have hcpu : ∀ field, Filled (readCpuinfoField sys.cpuinfo field) :=
    fun field => .bind (fun s => filled_scan _) _
  refine ⟨?_, ?_, ?_, ?_⟩
  · exact ((hdmi.1.or (hcpu _)).or (.bind (fun s => filled_nonEmpty _) _)).getD
  · exact (Filled.bind (fun s => filled_scan _) _).getD
  · exact ((hdmi.2.or (hcpu _)).or (.bind (fun s => filled_nonEmpty _) _)).getD
  · exact (Filled.bind (fun s => filled_nonEmpty _) _).getD

/-! ## What a scan should find -/

/-- The value of the field, when this is its line. -/
def fieldOf (delim : Char) (isKey : Text → Bool) (line : Text) : Option Text :=
  (line.splitOnce delim).bind fun kv => if isKey kv.1 then some kv.2 else none

/-- The purpose of a scan: the value on the first line of the field, wherever
that line is, unless it is empty. -/
def fieldValue (delim : Char) (isKey : Text → Bool) (clean : Text → Text) (ls : List Text) :
    Option Text :=
  (ls.findSome? (fieldOf delim isKey)).bind fun value => nonEmpty (clean value)

/-- The first line of the field has a value, and a line without the delimiter
stands somewhere before it. -/
def Shadowed (delim : Char) (isKey : Text → Bool) (clean : Text → Text) (ls : List Text) : Prop :=
  ∃ pre line post value, ls = pre ++ line :: post ∧ fieldOf delim isKey line = some value ∧
    clean value ≠ [] ∧ (∀ l ∈ pre, fieldOf delim isKey l = none) ∧ ∃ l ∈ pre, delim ∉ l

theorem fieldValue_cons_none (h : fieldOf delim isKey line = none) :
    fieldValue delim isKey clean (line :: rest) = fieldValue delim isKey clean rest := by
  simp only [fieldValue, List.findSome?_cons, h]

theorem fieldValue_ne_none : fieldValue delim isKey clean ls ≠ none ↔
    ∃ pre line post value, ls = pre ++ line :: post ∧ fieldOf delim isKey line = some value ∧
      clean value ≠ [] ∧ ∀ l ∈ pre, fieldOf delim isKey l = none := by
  rw [Option.ne_none_iff_exists']
  constructor
  · rintro ⟨v, hv⟩
    obtain ⟨value, hfind, hclean⟩ := Option.bind_eq_some_iff.mp hv
    obtain ⟨pre, line, post, rfl, hline, hpre⟩ := List.findSome?_eq_some_iff.mp hfind
    refine ⟨pre, line, post, value, rfl, hline, fun he => ?_, hpre⟩
    rw [nonEmpty, if_pos he] at hclean
    cases hclean
  · rintro ⟨pre, line, post, value, rfl, hline, hne, hpre⟩
    refine ⟨clean value, ?_⟩
    rw [fieldValue, List.findSome?_eq_some_iff.mpr ⟨pre, line, post, rfl, hline, hpre⟩,
      Option.bind_some, nonEmpty, if_neg hne]

theorem shadowed_cons (hmem : delim ∈ line) (h : fieldOf delim isKey line = none) :
    Shadowed delim isKey clean (line :: rest) ↔ Shadowed delim isKey clean rest := by
  constructor
  · rintro ⟨pre, l, post, value, he, hl, hne, hpre, x, hx, hnot⟩
    cases pre with
    | nil => cases hx
    | cons p pre =>
      simp only [List.cons_append, List.cons.injEq] at he
      obtain ⟨rfl, rfl⟩ := he
      rcases List.mem_cons.mp hx with rfl | hx
      · exact absurd hmem hnot
      · exact ⟨pre, l, post, value, rfl, hl, hne,
          fun y hy => hpre y (List.mem_cons_of_mem _ hy), x, hx, hnot⟩
  · rintro ⟨pre, l, post, value, rfl, hl, hne, hpre, x, hx, hnot⟩
    refine ⟨line :: pre, l, post, value, rfl, hl, hne, fun y hy => ?_, x,
      List.mem_cons_of_mem _ hx, hnot⟩
    rcases List.mem_cons.mp hy with rfl | hy
    · exact h
    · exact hpre y hy

theorem not_shadowed_of_field {value : Text} (h : fieldOf delim isKey line = some value) :
    ¬ Shadowed delim isKey clean (line :: rest) := by
  rintro ⟨pre, l, post, v, he, -, -, hpre, x, hx, -⟩
  cases pre with
  | nil => cases hx
  | cons p pre =>
    simp only [List.cons_append, List.cons.injEq] at he
    have hnone := hpre p List.mem_cons_self
    rw [← he.1, h] at hnone
    cases hnone

theorem shadowed_of_bare (hnot : delim ∉ line) :
    Shadowed delim isKey clean (line :: rest) ↔ fieldValue delim isKey clean rest ≠ none := by
  have hnone : fieldOf delim isKey line = none := by
    rw [fieldOf, Text.splitOnce_eq_none.mpr hnot, Option.bind_none]
  rw [fieldValue_ne_none]
  constructor
  · rintro ⟨pre, l, post, value, he, hl, hne, hpre, x, hx, -⟩
    cases pre with
    | nil => cases hx
    | cons p pre =>
      simp only [List.cons_append, List.cons.injEq] at he
      exact ⟨pre, l, post, value, he.2, hl, hne, fun y hy => hpre y (List.mem_cons_of_mem _ hy)⟩
  · rintro ⟨pre, l, post, value, rfl, hl, hne, hpre⟩
    refine ⟨line :: pre, l, post, value, rfl, hl, hne, fun y hy => ?_, line, List.mem_cons_self, hnot⟩
    rcases List.mem_cons.mp hy with rfl | hy
    · exact hnone
    · exact hpre y hy

/-- A scan finds the field exactly when nothing shadows it. -/
theorem scan_eq_fieldValue_iff (ls : List Text) :
    scan delim isKey clean ls = fieldValue delim isKey clean ls ↔
      ¬ Shadowed delim isKey clean ls := by
  induction ls with
  | nil =>
    refine ⟨fun _ => ?_, fun _ => rfl⟩
    rintro ⟨pre, l, post, value, he, -⟩
    simp at he
  | cons line rest ih =>
    cases hs : line.splitOnce delim with
    | none =>
      have hnone : fieldOf delim isKey line = none := by rw [fieldOf, hs, Option.bind_none]
      rw [scan, hs, fieldValue_cons_none hnone, shadowed_of_bare (Text.splitOnce_eq_none.mp hs),
        not_not]
      exact eq_comm
    | some kv =>
      have hmem : delim ∈ line := by
        by_contra hnot
        rw [Text.splitOnce_eq_none.mpr hnot] at hs
        cases hs
      by_cases hk : isKey kv.1
      · have hfield : fieldOf delim isKey line = some kv.2 := by
          rw [fieldOf, hs, Option.bind_some, if_pos hk]
        refine ⟨fun _ => not_shadowed_of_field hfield, fun _ => ?_⟩
        simp only [scan, hs, hk, if_true, fieldValue, List.findSome?_cons, hfield, Option.bind_some]
      · have hnone : fieldOf delim isKey line = none := by
          rw [fieldOf, hs, Option.bind_some, if_neg hk]
        rw [scan, hs, fieldValue_cons_none hnone, shadowed_cons hmem hnone]
        simp only [hk]
        exact ih

end

/-- **Where the scanners find their field**: for every text of `/proc/cpuinfo`
and every field, and for every text of `/etc/os-release`, the value read is
that of the first line of the field, or none, exactly when no line without the
delimiter stands before a field line that has a value. -/
theorem scanners_find_field_iff (contents field : Text) :
    (readCpuinfoField (some contents) field =
        fieldValue ':' (isCpuinfoKey field) Text.trim contents.lines ↔
      ¬ Shadowed ':' (isCpuinfoKey field) Text.trim contents.lines) ∧
    (readOsPrettyName (some contents) = fieldValue '=' isPrettyName unquote contents.lines ↔
      ¬ Shadowed '=' isPrettyName unquote contents.lines) :=
  ⟨scan_eq_fieldValue_iff _, scan_eq_fieldValue_iff _⟩

/-- The blank line between the processors and the board hides the serial, and a
comment hides the name. -/
theorem field_after_blank_line :
    readCpuinfoField (some "processor\t: 0\n\nSerial\t\t: 1f\n".toList) "Serial".toList = none ∧
    fieldValue ':' (isCpuinfoKey "Serial".toList) Text.trim
      (Text.lines "processor\t: 0\n\nSerial\t\t: 1f\n".toList) = some "1f".toList ∧
    readOsPrettyName (some "# os\nPRETTY_NAME=\"Dune\"\n".toList) = none ∧
    fieldValue '=' isPrettyName unquote (Text.lines "# os\nPRETTY_NAME=\"Dune\"\n".toList) =
      some "Dune".toList := by
  decide +kernel

end Adibi
