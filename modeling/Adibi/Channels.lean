import Adibi.Lib.Tenancy
import Adibi.Relay

/-!
# PTYs and sockets

A PTY or socket is opened for one stream and dropped with it. Streams and their
channels are tenants and rooms (`tenancy`): no two streams share a channel, none is
handed on to another stream, what was written to it stays, and when its stream is
closed nothing is written to it any more and it is not shut down again.
-/

namespace Adibi

open Lib

/-! ## What an effect leaves alone -/

theorem onClse_frame {env : Env} {i : UInt32} {os : Os} {st : Stream} {e : Effect} {r : UInt32}
    {c : Nat} (hc : st.service.channel ≠ some c) (h : onClse env i os st r = .ok e) :
    e.os.channels c = os.channels c := by
  unfold onClse at h
  split at h
  · cases h
  · split at h
    · rename_i fwd hfwd
      cases h
      have hne : c ≠ fwd.socket := by
        rintro rfl
        rw [hfwd] at hc
        exact hc rfl
      unfold ForwardService.shutdownWrite Os.shutdownWrite
      cases env.fail .shutdown with
      | some err => rfl
      | none => exact Function.update_of_ne hne ..
    · cases h
      rfl

theorem onWrte_frame {env : Env} {v : ProtocolVersion} {i : UInt32} {os : Os} {st : Stream}
    {e : Effect} {payload : Bytes} {c : Nat} (hc : st.service.channel ≠ some c)
    (h : onWrte env v i os st payload = .ok e) : e.os.channels c = os.channels c := by
  cases hch : st.service.channel with
  | none => rw [(onWrte_channels hch h).1]
  | some c' =>
    have hne : c ≠ c' := by
      rintro rfl
      exact hc hch
    obtain ⟨pre, -, hsend, -⟩ := writeInput_sends hch env os payload
    rw [(onWrte_written hch h).1, hsend]
    exact Os.send_channel_ne os hne pre

namespace Sys

variable {s s' : Sys} {e : Event} {i : UInt32} {c : Nat}

def Has (s : Sys) (i : UInt32) (c : Nat) : Prop :=
  ∃ st, s.dev.streams.get i = some st ∧ st.service.channel = some c

theorem message_frame {env : Env} {h : AdbHeader} {p : Option Bytes}
    (hd : s.dev.Dispatched env h p s'.dev) (hc : c < s.dev.os.nextChannel) (hno : ∀ i, ¬ s.Has i c) :
    s'.dev.os.channels c = s.dev.os.channels c := by
  have hown : ∀ {j st}, s.dev.streams.get j = some st → st.service.channel ≠ some c :=
    fun hst hch => hno _ ⟨_, hst, hch⟩
  cases hd with
  | ignored _ hd => rw [hd.os]
  | cnxn _ _ hd => rw [hd.os]
  | refused _ _ hd => rw [hd.os]
  | opened _ ho _ hd =>
    rw [hd.os]
    obtain ⟨name, -, hsvc⟩ := Option.bind_eq_some_iff.mp ho
    rcases StreamManager.openService_ok hsvc with ⟨-, rfl⟩ | ⟨target, rfl, -⟩
    · rfl
    · exact Function.update_of_ne (Nat.ne_of_lt hc) ..
  | wrte _ _ hd he =>
    cases he with
    | gone _ hd' => rw [hd'.os, hd.os]
    | effect hst hf _ _ hos =>
      rw [hd.streams] at hst
      rw [hos]
      exact onWrte_frame (hown hst) hf
  | okay _ he =>
    cases he with
    | gone _ hd' => rw [hd'.os]
    | effect _ hf _ _ hos => rw [hos, onOkay_os hf]
  | clse _ he =>
    cases he with
    | gone _ hd' => rw [hd'.os]
    | effect hst hf _ _ hos =>
      rw [hos]
      exact onClse_frame (hown hst) hf

theorem step_frame (hs : s.step e = .ok s') (hc : c < s.dev.os.nextChannel)
    (hno : ∀ i, ¬ s.Has i c) : s'.dev.os.channels c = s.dev.os.channels c := by
  cases stepped_of_ok hs with
  | quiet _ hd => rw [hd.os]
  | filled _ _ hd =>
    rw [hd.os]
    rfl
  | read _ hd =>
    cases hd with
    | gone _ hd' => rw [hd'.os]
    | effect _ hf _ _ hos => rw [hos, onRead_os hf]
  | message _ _ hd => exact message_frame hd hc hno

theorem taken_step (hs : s.step e = .ok s') (hi : s'.Has i c) : s.Has i c ∨
    ¬ c < s.dev.os.nextChannel ∧ c < s'.dev.os.nextChannel ∧ ∀ j, s'.Has j c → s.Has j c ∨ j = i := by
  obtain ⟨st', hst', hch⟩ := hi
  rcases opened_or_kept hs hst' with ⟨r, svc, ha, rfl⟩ | ⟨-, st, hst, heq⟩
  · obtain ⟨hnew, -, hlt⟩ := (channeled_of_ok hs).own_channel ha hch
    refine .inr ⟨by omega, hlt, fun j hj => ?_⟩
    obtain ⟨stj, hstj, hchj⟩ := hj
    rcases opened_or_kept hs hstj with ⟨r', svc', ha', -⟩ | ⟨-, st, hst, heq⟩
    · exact .inr ((act_opened ha').trans (act_opened ha).symm)
    · exact .inl ⟨st, hst, heq ▸ hchj⟩
  · exact .inl ⟨st, hst, heq ▸ hch⟩

/-- **Streams are the tenants of their channels.** -/
theorem tenancy : Tenancy step Has (fun s c => c < s.dev.os.nextChannel)
    (fun s c => s.dev.os.channels c) where
  stays _ _ _ _ hs hc := Nat.lt_of_lt_of_le hc (channeled_of_ok hs).next_le
  taken _ _ _ _ _ hs hi := taken_step hs hi
  frozen _ _ _ _ hs hc hno := step_frame hs hc hno

theorem sound_start (info : DeviceInfo) (os : Os) :
    Tenancy.Sound Has (fun s c => c < s.dev.os.nextChannel) (start info os) := by
  refine ⟨fun i c hi => ?_, fun i j c hi _ => ?_⟩
  · obtain ⟨st, hst, -⟩ := hi
    cases hst
  · obtain ⟨st, hst, -⟩ := hi
    cases hst

theorem input_step (hs : s.step e = .ok s') (hc : c < s.dev.os.nextChannel) :
    (s.dev.os.channels c).input <+: (s'.dev.os.channels c).input := by
  cases channeled_of_ok hs with
  | kept _ _ hin _ =>
    have heq : (s'.dev.os.channels c).input = (s.dev.os.channels c).input := hin c
    exact heq.symm ▸ List.prefix_rfl
  | @opened _ _ target _ _ _ hos =>
    have hne : (s.dev.os.openChannel target).2.channels c = s.dev.os.channels c :=
      Function.update_of_ne (Nat.ne_of_lt hc) ..
    rw [hos]
    exact hne.symm ▸ List.prefix_rfl
  | @written j st payload c' _ _ hch _ _ hos =>
    obtain ⟨pre, -, hsend, -⟩ := writeInput_sends hch e.env s.dev.os payload
    rw [hos, hsend]
    by_cases hcc : c = c'
    · subst hcc
      rw [Os.send_input]
      exact List.prefix_append _ _
    · exact (Os.send_channel_ne _ hcc pre).symm ▸ List.prefix_rfl

theorem input_of_reach {Ok : Sys → Event → Prop} (hc : c < s.dev.os.nextChannel)
    (h : Reach step Ok s s') : (s.dev.os.channels c).input <+: (s'.dev.os.channels c).input := by
  have hinv : c < s'.dev.os.nextChannel ∧
      (s.dev.os.channels c).input <+: (s'.dev.os.channels c).input := by
    refine h.invariant (I := fun t => c < t.dev.os.nextChannel ∧
      (s.dev.os.channels c).input <+: (t.dev.os.channels c).input) ⟨hc, List.prefix_rfl⟩ ?_
    intro t e u ⟨hmade, hpre⟩ _ hs
    exact ⟨tenancy.stays t e u c hs hmade, hpre.trans (input_step hs hmade)⟩
  exact hinv.2

end Sys

/-- **A channel belongs to one stream.** In every reachable state no two streams have
the same PTY or socket. In every state reached from there, whatever the host and the
system do, no other stream has it, and what was written to it is still the first it
got; and if no stream had it, none ever has it again, and it is as it was: nothing is
written to the PTY or socket of a closed stream. -/
theorem channel_belongs_to_stream {info : DeviceInfo} {os : Os} {s s' : Sys}
    (h : Reach Sys.step (fun _ _ => True) (Sys.start info os) s)
    (h' : Reach Sys.step (fun _ _ => True) s s') :
    (∀ i j c, s.Has i c → s.Has j c → i = j) ∧
    ∀ c < s.dev.os.nextChannel,
      (s.dev.os.channels c).input <+: (s'.dev.os.channels c).input ∧
      (∀ i j, s.Has i c → s'.Has j c → j = i) ∧
      ((∀ i, ¬ s.Has i c) →
        (∀ i, ¬ s'.Has i c) ∧ s'.dev.os.channels c = s.dev.os.channels c) := by
  have hsound := Sys.tenancy.sound_of_reach (Sys.sound_start info os) h
  refine ⟨hsound.single, fun c hc => ⟨Sys.input_of_reach hc h', fun i j hi hj => ?_, fun hno => ?_⟩⟩
  · exact Sys.tenancy.tenant_of_reach hsound hi h' hj
  · exact Sys.tenancy.vacant_of_reach hc hno h'

/-- The host closes its shell and opens another one. -/
theorem channel_belongs_to_stream_reopened : ∃ s s',
    Reach Sys.step (fun _ _ => True) Sys.fresh s ∧ Reach Sys.step (fun _ _ => True) s s' ∧
    (∀ i, ¬ s.Has i 0) ∧ s'.Has 2 1 ∧ s'.dev.os.channels 0 = s.dev.os.channels 0 := by
  let ok : Sys → Event → Bool := fun _ _ => true
  have hok : ∀ s e, ok s e = true → True := fun _ _ _ => trivial
  have hplay : ((Sys.fresh.play ok Sys.openShell).bind fun s0 =>
      (s0.play ok (Sys.Turn.message .clse 7 1 [])).bind fun s =>
        (s.play ok Sys.openShell).map fun s' =>
          ((s0.dev.streams.get 1).map (·.service.channel), s.dev.streams.get 1,
            s.dev.os.nextChannel, (s'.dev.streams.get 2).map (·.service.channel))) =
      some (some (some 0), none, 1, some (some 1)) := by
    decide +kernel
  obtain ⟨s0, h0, hplay⟩ := Option.bind_eq_some_iff.mp hplay
  obtain ⟨s, h1, hplay⟩ := Option.bind_eq_some_iff.mp hplay
  obtain ⟨s', h2, hplay⟩ := Option.map_eq_some_iff.mp hplay
  simp only [Prod.mk.injEq, Option.map_eq_some_iff] at hplay
  obtain ⟨hhas, hgone, hnext, hhas'⟩ := hplay
  have r0 : Reach Sys.step (fun _ _ => True) Sys.fresh s0 := Sys.reach_of_play hok h0
  have r1 : Reach Sys.step (fun _ _ => True) s0 s := Sys.reach_of_play hok h1
  have r2 : Reach Sys.step (fun _ _ => True) s s' := Sys.reach_of_play hok h2
  have hmade : 0 < s0.dev.os.nextChannel :=
    (Sys.tenancy.sound_of_reach (Sys.sound_start _ _) r0).made 1 0 hhas
  have hno : ∀ i, ¬ s.Has i 0 := by
    intro i hi
    have heq := ((channel_belongs_to_stream r0 r1).2 0 hmade).2.1 1 i hhas hi
    subst heq
    obtain ⟨st, hst, -⟩ := hi
    rw [hgone] at hst
    cases hst
  have hlater := (channel_belongs_to_stream (r0.trans r1) r2).2 0 (by rw [hnext]; decide)
  exact ⟨s, s', r0.trans r1, r2, hno, hhas', (hlater.2.2 hno).2⟩

end Adibi
