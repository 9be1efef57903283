import Adibi.Framing
import Adibi.Utterance

/-!
# The version both sides use

The device answers a CNXN with its own version and then uses the host's: with
checksums for version 0x01000000 and for every version it does not know, without
them for 0x01000001. The host uses the smaller of the two versions announced. Both
agree on checksums for the versions the device knows (`versions_agree_iff`); a
newer host is answered 0x01000001 and held to the checksums of 0x01000000.
-/

namespace Adibi

open Lib

/-- The checksum rule of the version word `w`: the byte sum for 0x01000000, else zero. -/
def CheckedAs (w : UInt32) (h : AdbHeader) (data : Bytes) : Prop :=
  if w = 0x01000000 then checksum data = .ok h.dataCheck else h.dataCheck = 0

/-- A message with a payload that a host using the version `w` can send. -/
structure HostSends (w : UInt32) (h : AdbHeader) (data : Bytes) : Prop where
  magic : h.magic = h.command.toU32 ^^^ 0xffffffff
  length : h.dataLength.toNat = data.length
  nonempty : data ≠ []
  fits : data.length ≤ bulkOutSize
  check : CheckedAs w h data

/-- The device agrees with a host that uses the version `w`: it takes its payloads,
and what it sent, but for the first `n` messages, follows the host's rule. -/
structure Sys.Agreed (w : UInt32) (n : Nat) (s : Sys) : Prop where
  passes : ∀ h data, HostSends w h data → badChecksum s.dev.version h data = .ok false
  dispatched : ∀ h data, HostSends w h data → s.pendingHeader = some h →
    s.arriving = some (true, data) → s.incoming = some (h, some data)
  sends : ∀ m ∈ s.dev.sent.drop n, CheckedAs w m.1 m.2

/-- A message whose check word was computed for the version `v`. -/
def ChecksFor (v : ProtocolVersion) (m : AdbHeader × Bytes) : Prop :=
  (if v.requiresChecksum then checksum m.2 else pure 0) = .ok m.1.dataCheck

theorem ChecksFor.of_header {v : ProtocolVersion} {c : Command} {a b : UInt32} {m : AdbHeader × Bytes}
    (h : headerFromPayload v c a b m.2 = .ok m.1) : ChecksFor v m := (headerFromPayload_ok h).2.2.2.2.1

theorem checksFor_bare (v : ProtocolVersion) (c : Command) (a b : UInt32) :
    ChecksFor v (bareHeader c a b, []) := by
  cases v <;> rfl

theorem ChecksFor.checkedAs {v : ProtocolVersion} {m : AdbHeader × Bytes} (h : ChecksFor v m) :
    CheckedAs v.toU32 m.1 m.2 := by
  cases v with
  | v0 => exact h
  | v1 => exact (Except.ok.inj h).symm

theorem passes_of_checkedAs {v : ProtocolVersion} {h : AdbHeader} {data : Bytes}
    (hc : CheckedAs v.toU32 h data) : Sys.badChecksum v h data = .ok false := by
  cases v with
  | v1 => rfl
  | v0 =>
    have hc : checksum data = .ok h.dataCheck := hc
    show (checksum data).map (· != h.dataCheck) = .ok false
    rw [hc]
    simp [Except.map]

namespace Sys

variable {s s' : Sys} {e : Event}

/-- What holds while the version `v` is in force: everything said since is built for it. -/
structure Speaking (v : ProtocolVersion) (n : Nat) (s : Sys) : Prop where
  version : s.dev.version = v
  since : n ≤ s.dev.sent.length
  built : ∀ m ∈ s.dev.sent.drop n, ChecksFor v m

theorem Speaking.step {v : ProtocolVersion} {n : Nat} (h : s.Speaking v n) (hno : NoCnxn s e)
    (hs : s.step e = .ok s') : s'.Speaking v n := by
  obtain ⟨new, hsent, hnew⟩ := utters_of_ok hs
  have hsince := h.since
  refine ⟨(step_version hs hno).trans h.version, ?_, fun m hm => ?_⟩
  · rw [hsent, List.length_append]
    omega
  · rw [hsent, List.drop_append_of_le_length hsince] at hm
    rcases List.mem_append.mp hm with h1 | h1
    · exact h.built m h1
    · cases hnew m h1 with
      | bare c a b => exact checksFor_bare ..
      | wrte hst hb ha =>
        rw [h.version] at hb
        exact .of_header hb
      | cnxn he hi hc hr => exact absurd hc (hno _ _ _ he hi)

theorem Speaking.agreed {v : ProtocolVersion} {n : Nat} (h : s.Speaking v n) : s.Agreed v.toU32 n where
  passes hd data hs := by
    rw [h.version]
    exact passes_of_checkedAs hs.check
  dispatched hd data hs hp ha := by
    have hb : badChecksum s.dev.version hd data = .ok false := by
      rw [h.version]
      exact passes_of_checkedAs hs.check
    simp only [incoming, ha, hp, hb]
  sends m hm := (h.built m hm).checkedAs

end Sys

theorem ProtocolVersion.tryFrom_none {w : UInt32} (h0 : w ≠ 0x01000000) (h1 : w ≠ 0x01000001) :
    ProtocolVersion.tryFrom w = none := by
  unfold ProtocolVersion.tryFrom
  rw [if_neg h0, if_neg h1]

theorem min_newer {w : UInt32} (hv : 0x01000000 ≤ w) (h0 : w ≠ 0x01000000) (h1 : w ≠ 0x01000001) :
    min w 0x01000001 = 0x01000001 := by
  show (if w ≤ 0x01000001 then w else 0x01000001) = _
  refine if_neg fun hle => ?_
  rw [UInt32.le_iff_toNat_le] at hv hle
  have h0 : w.toNat ≠ 0x01000000 := fun he => h0 (UInt32.toNat_inj.mp he)
  have h1 : w.toNat ≠ 0x01000001 := fun he => h1 (UInt32.toNat_inj.mp he)
  have e0 : (0x01000000 : UInt32).toNat = 0x01000000 := rfl
  have e1 : (0x01000001 : UInt32).toNat = 0x01000001 := rfl
  omega

/-- **Version agreement.** A CNXN with a version word of at least 0x01000000 is
answered, and from then on, up to the next CNXN, the device agrees on checksums
with a host that uses the smaller of the two words announced, exactly if the word
is one the device knows. -/
theorem versions_agree_iff {s0 s1 : Sys} {e : Event} {h : AdbHeader} (hg : Sys.Greeting s0 e h)
    (hv : 0x01000000 ≤ h.arg0) (h1 : s0.step e = .ok s1) :
    ∃ r, s1.dev.sent = s0.dev.sent ++ [(r, systemIdentity s0.dev.info)] ∧
      ((∀ s, Reach Sys.step Sys.NoCnxn s1 s → s.Agreed (min h.arg0 r.arg0) s0.dev.sent.length) ↔
        h.arg0 = 0x01000000 ∨ h.arg0 = 0x01000001) := by
  obtain ⟨hver, r, hr, hsent⟩ := hg.step h1
  have hown : r.arg0 = 0x01000001 := (headerFromPayload_ok hr).2.1
  refine ⟨r, hsent, fun hall => ?_, fun hknown => ?_⟩
  · by_contra hno
    obtain ⟨h0, h01⟩ := not_or.mp hno
    rw [ProtocolVersion.tryFrom_none h0 h01] at hver
    have hag := hall s1 .refl
    rw [hown, min_newer hv h0 h01] at hag
    have hp := hag.passes ⟨.wrte, 0, 0, 1, 0, Command.wrte.toU32 ^^^ 0xffffffff⟩ [1]
      ⟨rfl, rfl, List.cons_ne_nil _ _, by decide, rfl⟩
    rw [hver] at hp
    exact absurd hp (by decide)
  · have hspeak : ∀ v : ProtocolVersion, h.arg0 = v.toU32 → min h.arg0 r.arg0 = v.toU32 →
        ∀ s, Reach Sys.step Sys.NoCnxn s1 s → s.Agreed (min h.arg0 r.arg0) s0.dev.sent.length := by
      intro v hw hmin s hrun
      have hvv : ProtocolVersion.tryFrom v.toU32 = some v := by cases v <;> rfl
      have hver : s1.dev.version = v := by
        rw [hver, hw, hvv]
        rfl
      have hstart : s1.Speaking v s0.dev.sent.length := by
        refine ⟨hver, ?_, fun m hm => ?_⟩
        · rw [hsent, List.length_append]
          omega
        · rw [hsent, List.drop_left] at hm
          rw [List.mem_singleton.mp hm]
          rw [hver] at hr
          exact .of_header hr
      have := hrun.invariant hstart fun _ _ _ hi hno hs => hi.step hno hs
      rw [hmin]
      exact this.agreed
    rcases hknown with hw | hw
    · exact hspeak .v0 hw (by rw [hw, hown]; decide)
    · exact hspeak .v1 hw (by rw [hw, hown]; decide)

theorem versions_agree_iff_known : ∃ s0 s1 h r, Reach Sys.step (fun _ _ => True) Sys.fresh s0 ∧
    Sys.Greeting s0 (.handle {}) h ∧ h.arg0 = 0x01000001 ∧ s0.step (.handle {}) = .ok s1 ∧
    s1.dev.sent = s0.dev.sent ++ [(r, systemIdentity s0.dev.info)] ∧
    ∀ s, Reach Sys.step Sys.NoCnxn s1 s → s.Agreed (min h.arg0 r.arg0) s0.dev.sent.length := by
  have hrun : (Sys.fresh.poised (fun _ _ => true) (Sys.greet 0x01000001).dropLast
      (.payload (ascii "host::"))).bind (fun s0 => (s0.step (.handle {})).toOption.map fun _ =>
        s0.incoming.map fun x => (x.1.command, x.1.arg0)) =
      some (some (.cnxn, 0x01000001)) := by
    decide +kernel
  obtain ⟨s0, hs0, hrest⟩ := Option.bind_eq_some_iff.mp hrun
  obtain ⟨s1, hs1, hmap⟩ := Option.map_eq_some_iff.mp hrest
  obtain ⟨⟨h, p⟩, hi, hx⟩ := Option.map_eq_some_iff.mp hmap
  simp only [Prod.mk.injEq] at hx
  have hg : Sys.Greeting s0 (.handle {}) h := ⟨⟨{}, p, rfl, hi⟩, hx.1⟩
  have h1 := ok_of_toOption hs1
  obtain ⟨r, hsent, hiff⟩ := versions_agree_iff hg (by rw [hx.2]; decide) h1
  exact ⟨s0, s1, h, r, Sys.reach_of_poised (fun _ _ _ => trivial) hs0, hg, hx.2, h1, hsent,
    hiff.mpr (.inr hx.2)⟩

/-- A host of version 0x01000002 is answered 0x01000001 and so sends an OPEN without
a checksum. The device drops it. -/
def Sys.newerHost : List Sys.Turn :=
  Sys.greet 0x01000002 ++ [.header (⟨.open, 7, 0, 7, 0, Command.open.toU32 ^^^ 0xffffffff⟩ :
    AdbHeader).asLeBytes]

theorem newer_host_dropped : ∃ s h r, Reach Sys.step (fun _ _ => True) Sys.fresh s ∧
    s.dev.sent = [(r, systemIdentity Sys.fresh.dev.info)] ∧
    HostSends (min 0x01000002 r.arg0) h (ascii "shell:" ++ [0]) ∧ s.pendingHeader = some h ∧
    s.arriving = some (true, ascii "shell:" ++ [0]) ∧ s.incoming = none ∧
    ¬ CheckedAs (min 0x01000002 r.arg0) r (systemIdentity Sys.fresh.dev.info) := by
  have hrun : (Sys.fresh.poised (fun _ _ => true) Sys.newerHost (.payload (ascii "shell:" ++ [0]))).map
      (fun s => (s.dev.sent, s.pendingHeader, s.incoming.isNone)) = some
        ([(⟨.cnxn, 0x01000001, 1048576, 63, 5928, Command.cnxn.toU32 ^^^ 0xffffffff⟩,
            systemIdentity Sys.fresh.dev.info)],
          some ⟨.open, 7, 0, 7, 0, Command.open.toU32 ^^^ 0xffffffff⟩, true) := by
    decide +kernel
  have harr : (Sys.fresh.poised (fun _ _ => true) Sys.newerHost
      (.payload (ascii "shell:" ++ [0]))).map Sys.arriving =
        some (some (true, ascii "shell:" ++ [0])) := by
    decide +kernel
  obtain ⟨s, hs, hx⟩ := Option.map_eq_some_iff.mp hrun
  simp only [Prod.mk.injEq] at hx
  obtain ⟨hsent, hp, hi⟩ := hx
  rw [hs] at harr
  have hmin : min (0x01000002 : UInt32) 0x01000001 = 0x01000001 := by decide
  refine ⟨s, _, _, Sys.reach_of_poised (fun _ _ _ => trivial) hs, hsent, ?_, hp,
    Option.some.inj harr, Option.isNone_iff_eq_none.mp hi, ?_⟩
  · refine ⟨rfl, by decide, by decide, by decide, ?_⟩
    rw [hmin]
    rfl
  · rw [hmin]
    exact fun hc => absurd (show (5928 : UInt32) = 0 from hc) (by decide)

end Adibi
