import Adibi.Cleanup
import Adibi.ReadBuffers

/-!
# Relaying

A shell or forward stream carries bytes both ways: the payloads of the host's
WRTEs go to its PTY or socket, the chunks its reads return go to the host. A
history of the stream tells what arrived from either side; with a host that
answers only what it was sent, each side gets exactly what the other gave
(`Sys.Relayed`).
-/

namespace Adibi

open Lib

/-! ## What reaches a channel -/

namespace Os

theorem send_nil (os : Os) (c : Nat) : os.send c [] = os := by
  unfold send setChannel
  simp only [List.append_nil, Function.update_eq_self]

theorem send_send (os : Os) (c : Nat) (a b : Bytes) : (os.send c a).send c b = os.send c (a ++ b) := by
  simp only [send, setChannel, Function.update_self, Function.update_idem, List.append_assoc]

theorem send_input (os : Os) (c : Nat) (data : Bytes) :
    ((os.send c data).channels c).input = (os.channels c).input ++ data := by
  simp [send, setChannel]

theorem send_channel_ne (os : Os) {c c' : Nat} (h : c' ≠ c) (data : Bytes) :
    (os.send c data).channels c' = os.channels c' := Function.update_of_ne h ..

end Os

def Service.channel : Service → Option Nat
  | .shell sh => some sh.master
  | .forward fwd => some fwd.socket
  | _ => none

theorem Service.channel_isSome (svc : Service) : svc.channel.isSome = svc.reader.isSome := by
  cases svc <;> rfl

@[simp] theorem Service.channel_filled (svc : Service) (op : UserDataOpType) (bytes : Bytes) :
    (svc.filled op bytes).channel = svc.channel := by
  cases svc with
  | shell sh =>
    simp only [Service.filled]
    split <;> rfl
  | forward fwd =>
    simp only [Service.filled]
    split <;> rfl
  | sync svc => rfl
  | reboot => rfl

/-- `write_input` of a PTY or socket. -/
def Service.writeInput (env : Env) (os : Os) (payload : Bytes) :
    Service → Except IoError Unit × Os
  | .shell sh => sh.writeInput env os payload
  | .forward fwd => fwd.writeInput env os payload
  | _ => (.ok (), os)

theorem Service.writeInput_fails {svc : Service} {c : Nat} (hc : svc.channel = some c) (env : Env)
    (os : Os) (payload : Bytes) :
    (∃ err, (svc.writeInput env os payload).1 = .error err) ↔ inputFails env svc payload := by
  cases svc with
  | shell sh => exact shell_writeInput_fails env os sh payload
  | forward fwd => exact forward_writeInput_fails env os fwd payload
  | sync svc => cases hc
  | reboot => cases hc

/-- **Short writes.** Part of the payload reaches the socket, all of it unless a
write fails. -/
theorem writeLoop_sends (env : Env) (socket k : Nat) (os : Os) (data : Bytes) :
    ∃ pre, pre <+: data ∧ (ForwardService.writeLoop env socket k os data).2 = os.send socket pre ∧
      ((ForwardService.writeLoop env socket k os data).1 = .ok () → pre = data) := by
  induction hn : data.length using Nat.strong_induction_on generalizing data k os with
  | _ n ih =>
    subst hn
    unfold ForwardService.writeLoop
    split
    · rename_i h
      exact ⟨[], List.nil_prefix, (os.send_nil socket).symm, fun _ => h.symm⟩
    · rename_i hne
      split
      · refine ⟨[], List.nil_prefix, (os.send_nil socket).symm, fun h => ?_⟩
        cases h
      · have hpos := List.length_pos_iff.mpr hne
        simp only
        generalize hm : max 1 (min (env.amount (.socketWrite k)) data.length) = m
        obtain ⟨pre, hpre, hos, hok⟩ := ih (data.drop m).length
          (by simp only [List.length_drop]; omega) (k + 1) (os.send socket (data.take m)) _ rfl
        refine ⟨data.take m ++ pre, ?_, ?_, fun h => ?_⟩
        · obtain ⟨t, ht⟩ := hpre
          exact ⟨t, by rw [List.append_assoc, ht, List.take_append_drop]⟩
        · rw [hos, Os.send_send]
        · rw [hok h, List.take_append_drop]

theorem writeInput_sends {svc : Service} {c : Nat} (hc : svc.channel = some c) (env : Env) (os : Os)
    (payload : Bytes) : ∃ pre, pre <+: payload ∧ (svc.writeInput env os payload).2 = os.send c pre ∧
      (¬ inputFails env svc payload → pre = payload) := by
  have hfails := svc.writeInput_fails hc env os payload
  cases svc with
  | sync svc => cases hc
  | reboot => cases hc
  | forward fwd =>
    cases hc
    obtain ⟨pre, hpre, hos, hok⟩ := writeLoop_sends env fwd.socket 0 os payload
    refine ⟨pre, hpre, hos, fun hf => hok ?_⟩
    cases h : (ForwardService.writeLoop env fwd.socket 0 os payload).1 with
    | ok u => rfl
    | error err => exact absurd (hfails.mp ⟨err, h⟩) hf
  | shell sh =>
    cases hc
    simp only [Service.writeInput, ShellService.writeInput] at hfails ⊢
    split at hfails
    · rename_i h
      rw [if_pos h]
      exact ⟨[], List.nil_prefix, (os.send_nil sh.master).symm, fun _ => h.symm⟩
    · rename_i h
      rw [if_neg h]
      cases hf : env.fail .ptyWrite with
      | none => exact ⟨payload, List.prefix_rfl, rfl, fun _ => rfl⟩
      | some err =>
        rw [hf] at hfails
        exact ⟨_, List.take_prefix .., rfl, fun hno => absurd (hfails.mp ⟨err, rfl⟩) hno⟩

theorem written_stream (i : UInt32) (st : Stream) (r : Except IoError Unit × Os) :
    (written i st r).stream = match r.1 with
      | .ok _ => some st
      | .error _ => none := by
  obtain ⟨_ | _, os⟩ := r <;> rfl

theorem onWrte_written {env : Env} {v : ProtocolVersion} {i : UInt32} {os : Os} {st : Stream}
    {e : Effect} {payload : Bytes} {c : Nat} (hc : st.service.channel = some c)
    (h : onWrte env v i os st payload = .ok e) :
    e.os = (st.service.writeInput env os payload).2 ∧
      e.stream = if inputFails env st.service payload then none else some st := by
  have he : e = written i st (st.service.writeInput env os payload) := by
    unfold onWrte at h
    cases hs : st.service with
    | sync svc =>
      rw [hs] at hc
      cases hc
    | reboot =>
      rw [hs] at hc
      cases hc
    | shell sh =>
      rw [hs] at h
      exact (Except.ok.inj h).symm
    | forward fwd =>
      rw [hs] at h
      exact (Except.ok.inj h).symm
  subst he
  refine ⟨written_os st _, ?_⟩
  rw [written_stream]
  have hfails := st.service.writeInput_fails hc env os payload
  cases hr : (st.service.writeInput env os payload).1 with
  | ok u =>
    refine (if_neg fun hf => ?_).symm
    obtain ⟨err, he⟩ := hfails.mpr hf
    cases hr.symm.trans he
  | error err => exact (if_pos (hfails.mp ⟨err, hr⟩)).symm

theorem onWrte_channels {env : Env} {v : ProtocolVersion} {i : UInt32} {os : Os} {st : Stream}
    {e : Effect} {payload : Bytes} (hc : st.service.channel = none)
    (h : onWrte env v i os st payload = .ok e) :
    e.os.channels = os.channels ∧ e.os.nextChannel = os.nextChannel := by
  unfold onWrte at h
  cases hs : st.service with
  | shell sh =>
    rw [hs] at hc
    cases hc
  | forward fwd =>
    rw [hs] at hc
    cases hc
  | reboot =>
    rw [hs] at h
    cases h
  | sync svc =>
    rw [hs] at h
    obtain ⟨⟨result, svc', fs⟩, -, h1⟩ := bind_eq_ok.mp h
    cases result with
    | stat stat =>
      obtain ⟨o, -, h2⟩ := bind_eq_ok.mp h1
      cases h2
      exact ⟨rfl, rfl⟩
    | data hdr data =>
      obtain ⟨o, -, h2⟩ := bind_eq_ok.mp h1
      cases h2
      exact ⟨rfl, rfl⟩
    | «continue» =>
      rw [continueSync_os h1]
      exact ⟨rfl, rfl⟩
    | quit =>
      cases h1
      exact ⟨rfl, rfl⟩

theorem onClse_channels {env : Env} {i : UInt32} {os : Os} {st : Stream} {e : Effect} {r : UInt32}
    (h : onClse env i os st r = .ok e) :
    (∀ c, (e.os.channels c).input = (os.channels c).input) ∧ e.os.nextChannel = os.nextChannel := by
  unfold onClse at h
  split at h
  · cases h
  · split at h
    · rename_i fwd _
      cases h
      unfold ForwardService.shutdownWrite Os.shutdownWrite
      cases env.fail .shutdown with
      | some err => exact ⟨fun _ => rfl, rfl⟩
      | none =>
        refine ⟨fun c => ?_, rfl⟩
        by_cases hc : c = fwd.socket
        · subst hc
          simp [Os.setChannel]
        · simp [Os.setChannel, Function.update_of_ne hc]
    · cases h
      exact ⟨fun _ => rfl, rfl⟩

/-! ## What a step does to the channels -/

namespace Sys

variable {s s' : Sys} {e : Event} {i : UInt32} {c : Nat}

/-- A step opens a channel, writes a payload to one, or leaves what they got. -/
inductive Channeled (s : Sys) (e : Event) (s' : Sys) : Prop where
  | kept (hopen : ∀ j r svc, s.act e j = .opened r svc → svc.channel = none)
      (hwrte : ∀ j st payload, s.act e j = .wrte payload → s.dev.streams.get j = some st →
        st.service.channel = none)
      (hin : ∀ c, (s'.dev.os.channels c).input = (s.dev.os.channels c).input)
      (hnext : s'.dev.os.nextChannel = s.dev.os.nextChannel)
  | opened {r : UInt32} {svc : Service} {target : Bytes} (ha : s.act e s.nextId = .opened r svc)
      (hc : svc.channel = some s.dev.os.nextChannel) (hwrte : ∀ j payload, s.act e j ≠ .wrte payload)
      (hos : s'.dev.os = (s.dev.os.openChannel target).2)
  | written {j : UInt32} {st : Stream} {payload : Bytes} {c : Nat} (ha : s.act e j = .wrte payload)
      (hst : s.dev.streams.get j = some st) (hc : st.service.channel = some c)
      (hopen : ∀ j r svc, s.act e j ≠ .opened r svc) (honly : ∀ k q, s.act e k = .wrte q → k = j)
      (hos : s'.dev.os = (st.service.writeInput e.env s.dev.os payload).2)

theorem Channeled.of_os (hopen : ∀ j r svc, s.act e j ≠ .opened r svc)
    (hwrte : ∀ j payload, s.act e j ≠ .wrte payload) (hos : s'.dev.os = s.dev.os) :
    Channeled s e s' :=
  .kept (fun j r svc ha => absurd ha (hopen j r svc))
    (fun j _ payload ha => absurd ha (hwrte j payload)) (fun c => by rw [hos]) (by rw [hos])

theorem message_other (env : Env) {h : AdbHeader} {p : Option Bytes} (he : s.ending = none)
    (hi : s.incoming = some (h, p)) (ho : h.command ≠ .open) (hw : h.command ≠ .wrte) :
    (∀ j r svc, s.act (.handle env) j ≠ .opened r svc) ∧
      ∀ j payload, s.act (.handle env) j ≠ .wrte payload := by
  refine ⟨fun j r svc ha => ho ?_, fun j payload ha => hw ?_⟩
  · rw [act_message he hi] at ha
    exact (Dev.actOf_opened ha).1
  · rw [act_message he hi] at ha
    exact (Dev.actOf_wrte ha).1

theorem channeled_of_message {env : Env} {h : AdbHeader} {p : Option Bytes} (he : s.ending = none)
    (hi : s.incoming = some (h, p)) (hd : s.dev.Dispatched env h p s'.dev) :
    Channeled s (.handle env) s' := by
  have hact : ∀ j, s.act (.handle env) j = s.dev.actOf env h p j := fun j => act_message he hi j
  cases hd with
  | ignored hc hd =>
    obtain ⟨h1, h2⟩ := message_other env he hi (by rcases hc with hc | hc <;> simp [hc])
      (by rcases hc with hc | hc <;> simp [hc])
    exact .of_os h1 h2 hd.os
  | cnxn hc hr hd =>
    obtain ⟨h1, h2⟩ := message_other env he hi (by simp [hc]) (by simp [hc])
    exact .of_os h1 h2 hd.os
  | refused hc ho hd =>
    refine .of_os (fun j r svc ha => ?_) (fun j payload ha => ?_) hd.os
    · rw [hact] at ha
      simp only [Dev.actOf, hc, ho] at ha
      cases ha
    · rw [hact] at ha
      cases hc.symm.trans (Dev.actOf_wrte ha).1
  | @opened svc os hc ho hn hd =>
    have ha : s.act (.handle env) s.nextId = .opened h.arg0 svc := by
      rw [hact]
      simp only [Dev.actOf, hc, ho, nextId, if_true]
    have hwrte : ∀ j payload, s.act (.handle env) j ≠ .wrte payload := by
      intro j payload ha'
      rw [hact] at ha'
      cases hc.symm.trans (Dev.actOf_wrte ha').1
    obtain ⟨name, -, hsvc⟩ := Option.bind_eq_some_iff.mp ho
    rcases StreamManager.openService_ok hsvc with ⟨hk, rfl⟩ | ⟨target, rfl, hk⟩
    · refine .kept (fun j r svc' ha' => ?_) (fun j st payload ha' => absurd ha' (hwrte j payload))
        (fun c => by rw [hd.os]; rfl) (by rw [hd.os]; rfl)
      rw [act_opened ha', ha] at ha'
      cases ha'
      rcases hk with rfl | rfl <;> rfl
    · refine .opened ha ?_ hwrte hd.os
      rcases hk with rfl | rfl <;> rfl
  | @wrte payload d1 hc hp hd he' =>
    have hopen : ∀ j r svc, s.act (.handle env) j ≠ .opened r svc := by
      intro j r svc ha
      rw [hact] at ha
      cases hc.symm.trans (Dev.actOf_opened ha).1
    have hwrte : ∀ j q, s.act (.handle env) j = .wrte q → j = h.arg1 ∧ q = payload := by
      intro j q ha
      rw [hact] at ha
      obtain ⟨-, hj, hq⟩ := Dev.actOf_wrte ha
      exact ⟨hj.symm, Option.some.inj (hq.symm.trans hp)⟩
    cases he' with
    | gone hs hd' =>
      rw [hd.streams] at hs
      refine .kept (fun j r svc ha => absurd ha (hopen j r svc)) (fun j st q ha hst => ?_)
        (fun c => by rw [hd'.os, hd.os]) (by rw [hd'.os, hd.os])
      rw [(hwrte j q ha).1, hs] at hst
      cases hst
    | @effect st eff hs hf hstreams hv hos hinfo hsent =>
      rw [hd.streams] at hs
      cases hch : st.service.channel with
      | none =>
        obtain ⟨h1, h2⟩ := onWrte_channels hch hf
        refine .kept (fun j r svc ha => absurd ha (hopen j r svc)) (fun j st' q ha hst => ?_)
          (fun c => by rw [hos, h1]) (by rw [hos, h2])
        rw [(hwrte j q ha).1, hs] at hst
        cases hst
        exact hch
      | some c =>
        have ha : s.act (.handle env) h.arg1 = .wrte payload := by
          rw [hact]
          simp only [Dev.actOf, hc, hp, if_true]
        exact .written ha hs hch hopen (fun k q hk => (hwrte k q hk).1)
          (hos.trans (onWrte_written hch hf).1)
  | okay hc he' =>
    obtain ⟨h1, h2⟩ := message_other env he hi (by simp [hc]) (by simp [hc])
    cases he' with
    | gone hs hd' => exact .of_os h1 h2 hd'.os
    | effect hs hf hstreams hv hos hinfo hsent => exact .of_os h1 h2 (hos.trans (onOkay_os hf))
  | clse hc he' =>
    obtain ⟨h1, h2⟩ := message_other env he hi (by simp [hc]) (by simp [hc])
    cases he' with
    | gone hs hd' => exact .of_os h1 h2 hd'.os
    | effect hs hf hstreams hv hos hinfo hsent =>
      obtain ⟨h3, h4⟩ := onClse_channels hf
      exact .kept (fun j r svc ha => absurd ha (h1 j r svc)) (fun j _ q ha => absurd ha (h2 j q))
        (fun c => by rw [hos, h3]) (by rw [hos, h4])

/-- **What a step does to the PTYs and sockets.** -/
theorem channeled_of_ok (hs : s.step e = .ok s') : Channeled s e s' := by
  cases stepped_of_ok hs with
  | quiet ha hd =>
    refine .of_os (fun j r svc h => ?_) (fun j payload h => ?_) hd.os
    · cases (ha j).symm.trans h
    · cases (ha j).symm.trans h
  | filled ha hst hd =>
    refine .of_os (fun j r svc h => ?_) (fun j payload h => ?_) hd.os
    · rw [ha] at h
      split at h <;> cases h
    · rw [ha] at h
      split at h <;> cases h
  | @read env op j res _ he hd =>
    have hact : ∀ k, s.act (.handle env) k = if j = k then .read op res else .none :=
      fun k => by simp only [act, he]
    have hos : s'.dev.os = s.dev.os := by
      cases hd with
      | gone hs hd' => exact hd'.os
      | effect hs hf hstreams hv hos hinfo hsent => exact hos.trans (onRead_os hf)
    refine .of_os (fun k r svc h => ?_) (fun k payload h => ?_) hos
    · rw [hact] at h
      split at h <;> cases h
    · rw [hact] at h
      split at h <;> cases h
  | message he hi hd => exact channeled_of_message he hi hd

end Sys

theorem View.step_channel {w w' : View} {env : Env} {v : ProtocolVersion} {os : Os} {i : UInt32}
    {st st' : Stream} {a : Act} (ha : ∀ r svc, a ≠ .opened r svc) (hs : w.step env v os i a = .ok w')
    (hst : w.stream = some st) (hst' : w'.stream = some st') :
    st'.service.channel = st.service.channel := by
  cases hr : st.service.reader with
  | none =>
    have hr' := step_reader ha hs hst hst'
    have h1 := st.service.channel_isSome
    have h2 := st'.service.channel_isSome
    rw [hr', hr, Option.isSome_none, Option.isSome_eq_false_iff, Option.isNone_iff_eq_none] at h2
    rw [hr, Option.isSome_none, Option.isSome_eq_false_iff, Option.isNone_iff_eq_none] at h1
    rw [h1, h2]
  | some op =>
    rcases (relays_of_step ha hst hr hs).service hst hst' with hsv | ⟨op', bytes, -, hsv⟩
    · rw [hsv]
    · rw [hsv, Service.channel_filled]

namespace Sys

variable {s s' : Sys} {e : Event} {i : UInt32} {c : Nat}

theorem Channeled.next_le (h : Channeled s e s') :
    s.dev.os.nextChannel ≤ s'.dev.os.nextChannel := by
  cases h with
  | kept hopen hwrte hin hnext => rw [hnext]
  | opened ha hc hwrte hos =>
    rw [hos]
    exact Nat.le_succ _
  | written ha hst hc hopen honly hos =>
    obtain ⟨pre, -, hsend, -⟩ := writeInput_sends hc e.env s.dev.os _
    rw [hos, hsend]
    exact Nat.le_refl _

theorem Channeled.own_channel (h : Channeled s e s') {r : UInt32} {svc : Service}
    (ha : s.act e i = .opened r svc) (hc : svc.channel = some c) :
    c = s.dev.os.nextChannel ∧ (s'.dev.os.channels c).input = [] ∧ c < s'.dev.os.nextChannel := by
  cases h with
  | kept hopen hwrte hin hnext =>
    rw [hopen i r svc ha] at hc
    cases hc
  | opened ha' hc' hwrte hos =>
    rw [act_opened ha, ha'] at ha
    cases ha
    cases hc'.symm.trans hc
    rw [hos]
    exact ⟨rfl, by simp [Os.openChannel, Os.setChannel], Nat.lt_succ_self _⟩
  | written ha' hst hc' hopen honly hos => exact absurd ha (hopen i r svc)

/-- A stream's entry after a step: it was just opened, or it was open before and
has the same channel. -/
theorem opened_or_kept (hs : s.step e = .ok s') {st' : Stream}
    (hst' : s'.dev.streams.get i = some st') :
    (∃ r svc, s.act e i = .opened r svc ∧ st'.service = svc) ∨
      (∀ r svc, s.act e i ≠ .opened r svc) ∧
        ∃ st, s.dev.streams.get i = some st ∧ st'.service.channel = st.service.channel := by
  have hview := step_view hs i
  by_cases ha : ∃ r svc, s.act e i = .opened r svc
  · obtain ⟨r, svc, ha⟩ := ha
    rw [ha] at hview
    obtain ⟨outs, -, hv⟩ := map_eq_ok.mp hview
    have hst : some (⟨r, svc, false, false⟩ : Stream) = some st' :=
      (congrArg View.stream hv).trans hst'
    exact .inl ⟨r, svc, ha, by cases hst; rfl⟩
  · have hno : ∀ r svc, s.act e i ≠ .opened r svc := fun r svc h => ha ⟨r, svc, h⟩
    obtain ⟨st, hst⟩ := View.step_open hno hview hst'
    exact .inr ⟨hno, st, hst, View.step_channel hno hview hst hst'⟩

def Made (s : Sys) : Prop :=
  ∀ j st c, s.dev.streams.get j = some st → st.service.channel = some c → c < s.dev.os.nextChannel

theorem Made.step (h : s.Made) (hs : s.step e = .ok s') : s'.Made := by
  intro j st' c hst' hc
  have hch := channeled_of_ok hs
  rcases opened_or_kept hs hst' with ⟨r, svc, ha, hsvc⟩ | ⟨-, st, hst, heq⟩
  · rw [hsvc] at hc
    exact (hch.own_channel ha hc).2.2
  · rw [heq] at hc
    exact Nat.lt_of_lt_of_le (h j st c hst hc) hch.next_le

/-- The channel `c` belongs to stream `i`, also after it is closed. -/
structure Holds (i : UInt32) (c : Nat) (s : Sys) : Prop where
  given : i.toNat < s.nextId.toNat
  made : c < s.dev.os.nextChannel
  own : ∀ st, s.dev.streams.get i = some st → st.service.channel = some c
  alone : ∀ j st, s.dev.streams.get j = some st → st.service.channel = some c → j = i

theorem Holds.not_opened (h : s.Holds i c) (r : UInt32) (svc : Service) :
    s.act e i ≠ .opened r svc := by
  intro ha
  have hlt := h.given
  rw [act_opened ha] at hlt
  exact absurd hlt (Nat.lt_irrefl _)

theorem Holds.step (h : s.Holds i c) (hs : s.step e = .ok s') : s'.Holds i c := by
  have hch := channeled_of_ok hs
  refine ⟨Nat.lt_of_lt_of_le h.given (nextId_le hs), Nat.lt_of_lt_of_le h.made hch.next_le,
    fun st' hst' => ?_, fun j st' hst' hc => ?_⟩
  · rcases opened_or_kept hs hst' with ⟨r, svc, ha, -⟩ | ⟨-, st, hst, heq⟩
    · exact absurd ha (h.not_opened r svc)
    · rw [heq]
      exact h.own st hst
  · rcases opened_or_kept hs hst' with ⟨r, svc, ha, hsvc⟩ | ⟨-, st, hst, heq⟩
    · rw [hsvc] at hc
      have hlt := h.made
      rw [← (hch.own_channel ha hc).1] at hlt
      exact absurd hlt (Nat.lt_irrefl _)
    · rw [heq] at hc
      exact h.alone j st hst hc

theorem Holds.opened (hmade : s.Made) (hs : s.step e = .ok s') {r : UInt32} {svc : Service}
    (ha : s.act e i = .opened r svc) (hc : svc.channel = some c) :
    s'.Holds i c ∧ (s'.dev.os.channels c).input = [] := by
  obtain ⟨hnext, hnil, hlt⟩ := (channeled_of_ok hs).own_channel ha hc
  refine ⟨⟨?_, hlt, fun st' hst' => ?_, fun j st' hst' hc' => ?_⟩, hnil⟩
  · rcases step_nextId hs with ⟨-, hno⟩ | hsucc
    · exact absurd ha (hno i r svc)
    · rw [act_opened ha]
      omega
  · rcases opened_or_kept hs hst' with ⟨r', svc', ha', hsvc⟩ | ⟨hno, -⟩
    · cases ha.symm.trans ha'
      rw [hsvc]
      exact hc
    · exact absurd ha (hno r svc)
  · rcases opened_or_kept hs hst' with ⟨r', svc', ha', -⟩ | ⟨-, st, hst, heq⟩
    · exact (act_opened ha').trans (act_opened ha).symm
    · rw [heq] at hc'
      have := hmade j st c hst hc'
      rw [hnext] at this
      exact absurd this (Nat.lt_irrefl _)

end Sys

/-! ## What the two sides gave -/

/-- What a shell or forward stream was given, as a history. -/
inductive Relay where
  /-- The payload of a WRTE, and whether its write failed. -/
  | input (payload : Bytes) (failed : Bool)
  /-- A read completed with these bytes. -/
  | chunk (bytes : Bytes)
  /-- A read that brought bytes is handled. -/
  | handled
  deriving DecidableEq

namespace Relay

def input? : Relay → Option Bytes
  | .input payload _ => some payload
  | _ => none

def failed : Relay → Bool
  | .input _ failed => failed
  | _ => false

def chunk? : Relay → Option Bytes
  | .chunk bytes => some bytes
  | _ => none

end Relay

def inputs (notes : List Relay) : List Bytes := notes.filterMap Relay.input?

def chunks (notes : List Relay) : List Bytes := notes.filterMap Relay.chunk?

def handled (notes : List Relay) : Nat := notes.count .handled

namespace Sys

variable {s s' : Sys} {e : Event} {i : UInt32} {c : Nat} {notes : List Relay}

/-- What the loop gives stream `i` by handling an event. -/
def handling (i : UInt32) (s : Sys) (e : Event) : List Relay :=
  match s.act e i, s.dev.streams.get i with
  | .wrte payload, some st => [.input payload (decide (inputFails e.env st.service payload))]
  | .read _ res, some _ => if 0 < res then [.handled] else []
  | _, _ => []

/-- What an event gives stream `i`. -/
def relaying (i : UInt32) (s : Sys) (e : Event) : List Relay :=
  s.handling i e ++ (s.filling i e).map .chunk

theorem handling_wrte {payload : Bytes} {st : Stream} (ha : s.act e i = .wrte payload)
    (hst : s.dev.streams.get i = some st) :
    s.handling i e = [.input payload (decide (inputFails e.env st.service payload))] := by
  simp only [handling, ha, hst]

theorem relaying_handle (i : UInt32) (s : Sys) (env : Env) :
    s.relaying i (.handle env) = s.handling i (.handle env) := List.append_nil _

theorem relaying_wrte {payload : Bytes} {st : Stream} (ha : s.act e i = .wrte payload)
    (hst : s.dev.streams.get i = some st) :
    s.relaying i e = [.input payload (decide (inputFails e.env st.service payload))] := by
  obtain ⟨env, hd, p, rfl, -, -⟩ := act_fromHost (by rw [ha]; rfl)
  exact (relaying_handle ..).trans (handling_wrte ha hst)

theorem relaying_other (h : ∀ payload st, s.act e i = .wrte payload →
    s.dev.streams.get i ≠ some st) : ∀ n ∈ s.relaying i e, n.input? = none ∧ n.failed = false := by
  intro n hn
  rcases List.mem_append.mp hn with hn | hn
  swap
  · obtain ⟨bytes, -, rfl⟩ := List.mem_map.mp hn
    exact ⟨rfl, rfl⟩
  unfold handling at hn
  split at hn
  · rename_i payload st ha hst
    exact absurd hst (h payload st ha)
  · split at hn
    · rw [List.mem_singleton.mp hn]
      exact ⟨rfl, rfl⟩
    · cases hn
  · cases hn

theorem chunks_relaying (i : UInt32) (s : Sys) (e : Event) :
    chunks (s.relaying i e) = s.filling i e := by
  have hhandling : chunks (s.handling i e) = [] := by
    refine List.filterMap_eq_nil_iff.mpr fun n hn => ?_
    unfold handling at hn
    split at hn
    · rw [List.mem_singleton.mp hn]
      rfl
    · split at hn
      · rw [List.mem_singleton.mp hn]
        rfl
      · cases hn
    · cases hn
  have hchunks : ∀ l : List Bytes, chunks (l.map .chunk) = l := fun l => by
    simp [chunks, List.filterMap_map, Function.comp_def, Relay.chunk?]
  rw [relaying, chunks, List.filterMap_append]
  exact (congrArg₂ _ hhandling (hchunks _)).trans (List.nil_append _)

theorem chunks_append (notes : List Relay) (i : UInt32) (s : Sys) (e : Event) :
    chunks (notes ++ s.relaying i e) = chunks notes ++ s.filling i e := by
  rw [← chunks_relaying, chunks, List.filterMap_append]
  rfl

/-! ## Towards the PTY or socket -/

/-- What the channel has got: all payloads, or after a failure, which closed the
stream, part of them. -/
structure Inward (i : UInt32) (c : Nat) (s : Sys) (notes : List Relay) : Prop where
  whole : (∀ n ∈ notes, n.failed = false) → (s.dev.os.channels c).input = (inputs notes).flatten
  part : (∃ n ∈ notes, n.failed = true) →
    s.dev.streams.get i = none ∧ (s.dev.os.channels c).input <+: (inputs notes).flatten

theorem Inward.nil (h : (s.dev.os.channels c).input = []) : s.Inward i c [] :=
  ⟨fun _ => h, fun ⟨_, hn, _⟩ => nomatch hn⟩

theorem inputs_append {l more : List Relay} (h : ∀ n ∈ more, n.input? = none ∧ n.failed = false) :
    inputs (l ++ more) = inputs l := by
  unfold inputs
  rw [List.filterMap_append, List.filterMap_eq_nil_iff.mpr fun n hn => (h n hn).1, List.append_nil]

theorem Inward.kept (h : s.Inward i c notes) (hh : s.Holds i c) (hs : s.step e = .ok s')
    (hno : ∀ payload st, s.act e i = .wrte payload → s.dev.streams.get i ≠ some st)
    (hin : (s'.dev.os.channels c).input = (s.dev.os.channels c).input) :
    s'.Inward i c (notes ++ s.relaying i e) := by
  have hrel := relaying_other hno
  refine ⟨fun hall => ?_, fun ⟨n, hn, hf⟩ => ?_⟩
  · rw [inputs_append hrel, hin]
    exact h.whole fun n hn => hall n (List.mem_append_left _ hn)
  · have hold : n ∈ notes := by
      rcases List.mem_append.mp hn with h1 | h1
      · exact h1
      · rw [(hrel n h1).2] at hf
        cases hf
    obtain ⟨hgone, hpre⟩ := h.part ⟨n, hold, hf⟩
    rw [inputs_append hrel, hin]
    refine ⟨?_, hpre⟩
    cases hst' : s'.dev.streams.get i with
    | none => rfl
    | some st' =>
      obtain ⟨st, hst⟩ := View.step_open (fun r svc => hh.not_opened r svc) (step_view hs i) hst'
      cases hgone.symm.trans hst

/-- **A step writes what it was given**, or part of it and closes the stream. -/
theorem Inward.step (h : s.Inward i c notes) (hh : s.Holds i c) (hs : s.step e = .ok s') :
    s'.Inward i c (notes ++ s.relaying i e) := by
  cases channeled_of_ok hs with
  | kept hopen hwrte hin hnext =>
    refine h.kept hh hs (fun payload st ha hst => ?_) (hin c)
    have := hwrte i st payload ha hst
    rw [hh.own st hst] at this
    cases this
  | opened ha hc hwrte hos =>
    refine h.kept hh hs (fun payload st ha' => absurd ha' (hwrte i payload)) ?_
    have hne : c ≠ s.dev.os.nextChannel := Nat.ne_of_lt hh.made
    rw [hos]
    simp [Os.openChannel, Os.setChannel, Function.update_of_ne hne]
  | @written j st payload c' ha hst hc hopen honly hos =>
    obtain ⟨pre, hpre, hsend, hall⟩ := writeInput_sends hc e.env s.dev.os payload
    by_cases hj : j = i
    · subst hj
      cases (hh.own st hst).symm.trans hc
      have hgood : ∀ n ∈ notes, n.failed = false := by
        intro n hn
        by_contra hf
        obtain ⟨hgone, -⟩ := h.part ⟨n, hn, by simpa using hf⟩
        cases hgone.symm.trans hst
      have hin : (s'.dev.os.channels c).input = (inputs notes).flatten ++ pre := by
        rw [hos, hsend, Os.send_input, h.whole hgood]
      have hnotes : (inputs (notes ++ s.relaying j e)).flatten = (inputs notes).flatten ++ payload := by
        unfold inputs
        rw [relaying_wrte ha hst, List.filterMap_append, List.flatten_append]
        simp [Relay.input?]
      rw [relaying_wrte ha hst] at hnotes ⊢
      refine ⟨fun hf => ?_, fun ⟨n, hn, hf⟩ => ?_⟩
      · have := hf _ (List.mem_append_right _ (List.mem_singleton.mpr rfl))
        rw [hnotes, hin, hall (of_decide_eq_false this)]
      · have hfail : inputFails e.env st.service payload := by
          rcases List.mem_append.mp hn with h1 | h1
          · rw [hgood n h1] at hf
            cases hf
          · rw [List.mem_singleton.mp h1] at hf
            exact of_decide_eq_true hf
        refine ⟨?_, ?_⟩
        · have hview := step_view hs j
          rw [ha] at hview
          obtain ⟨eff, heff, hv⟩ := View.through_some hview hst
          have hnone := (onWrte_written hc heff).2
          rw [if_pos hfail] at hnone
          exact (congrArg View.stream hv).trans hnone
        · rw [hnotes, hin]
          exact (List.prefix_append_right_inj _).mpr hpre
    · refine h.kept hh hs (fun q st' ha' => absurd (honly i q ha').symm hj) ?_
      have hne : c ≠ c' := fun heq => hj (hh.alone j st hst (heq ▸ hc))
      rw [hos, hsend, Os.send_channel_ne _ hne]

/-! ## Towards the host -/

/-- A completed read of stream `i` that brought bytes. -/
def brings (i : UInt32) (c : Cqe) : Bool :=
  decide (0 < c.res ∧ (c.userData = readTag .ptyRead i ∨ c.userData = readTag .socketRead i))

def unread (i : UInt32) (s : Sys) : Nat := s.posted.countP (brings i)

theorem unread_le (i : UInt32) (s : Sys) : s.unread i ≤ (s.view i).allReads := by
  have hor : ∀ l : List Cqe, l.countP (brings i) ≤
      (l.map Cqe.userData).count (readTag .ptyRead i) +
        (l.map Cqe.userData).count (readTag .socketRead i) := by
    intro l
    induction l with
    | nil => exact Nat.le_refl _
    | cons c l ih =>
      simp only [List.countP_cons, List.map_cons, List.count_cons]
      by_cases hb : brings i c = true
      · rcases (of_decide_eq_true hb).2 with h1 | h1
        · simp only [hb, h1, beq_self_eq_true, if_true]
          omega
        · simp only [hb, h1, beq_self_eq_true, if_true]
          omega
      · rw [if_neg hb]
        omega
  have hcount : ∀ o : UserDataOpType, (s.posted.map Cqe.userData).count (readTag o i) ≤
      s.outstanding.count (readTag o i) := by
    intro o
    simp only [outstanding, rest, posted, List.count_append, List.map_append]
    omega
  have h1 := hor s.posted
  have h2 := hcount .ptyRead
  have h3 := hcount .socketRead
  show _ ≤ s.outstanding.count (readTag .ptyRead i) + s.outstanding.count (readTag .socketRead i)
  unfold unread
  omega

theorem unread_complete {k : Nat} {outcome : Outcome} (hs : s.step (.complete k outcome) = .ok s')
    (hi : i ≠ 0) : s'.unread i = s.unread i + (s.filling i (.complete k outcome)).length := by
  obtain ⟨sqe, u, hk, hu, hf, rfl⟩ := complete_ok hs
  have hq := fill_queues s u outcome
  simp only [unread, posted, hq.2.2, List.countP_append, List.countP_singleton]
  have hcase : brings i ⟨sqe.userData, outcome.res⟩ = true ↔
      s.filling i (.complete k outcome) ≠ [] := by
    constructor
    · intro hb
      obtain ⟨hres, htag⟩ := of_decide_eq_true hb
      have hop : ∃ op, (op = .ptyRead ∨ op = .socketRead) ∧ sqe.userData = readTag op i := by
        rcases htag with h1 | h1
        · exact ⟨_, .inl rfl, h1⟩
        · exact ⟨_, .inr rfl, h1⟩
      obtain ⟨op, hop, htag⟩ := hop
      obtain ⟨op', bytes, ha⟩ := completed_fills hk hu hf hop htag hi hres
      obtain ⟨k', sqe', place, j, he, -⟩ := completes_eq_some ha
      cases he
      have hne : bytes ≠ [] := by
        rintro rfl
        exact absurd hres (Int.lt_irrefl 0)
      simp only [filling, ha, if_neg hne]
      exact List.cons_ne_nil _ _
    · intro hfill
      cases ha : s.completes (.complete k outcome) i with
      | none => exact absurd (filling_nil ha) hfill
      | some x =>
        obtain ⟨op, bytes⟩ := x
        obtain ⟨k', sqe', place, j, he, hk', htag, rfl, hop⟩ := completes_eq_some ha
        cases he
        cases hk.symm.trans hk'
        have hne : bytes ≠ [] := by
          rintro rfl
          simp only [filling, ha, if_true] at hfill
          exact hfill rfl
        have hpos : (0 : Int) < bytes.length := by
          have := List.length_pos_iff.mpr hne
          omega
        refine decide_eq_true ⟨hpos, ?_⟩
        rcases hop with rfl | rfl
        · exact .inl (readTag_of_tryFrom htag)
        · exact .inr (readTag_of_tryFrom htag)
  by_cases hb : brings i ⟨sqe.userData, outcome.res⟩ = true
  · have hlen : (s.filling i (.complete k outcome)).length = 1 := by
      have hne := hcase.mp hb
      unfold filling at hne ⊢
      split at hne
      · split
        · rename_i h0
          exact absurd (if_pos h0) hne
        · rfl
      · exact absurd rfl hne
    rw [if_pos hb, hlen]
    omega
  · have hnil : s.filling i (.complete k outcome) = [] := by
      by_contra hne
      exact hb (hcase.mpr hne)
    rw [if_neg hb, hnil, List.length_nil]
    omega

theorem unread_handle {env : Env} (hs : s.step (.handle env) = .ok s') (hi : i ≠ 0) :
    (∃ op res, s.act (.handle env) i = .read op res ∧ 0 < res ∧ s.unread i = s'.unread i + 1) ∨
      (∀ op res, s.act (.handle env) i = .read op res → res ≤ 0) ∧ s'.unread i = s.unread i := by
  obtain ⟨c, hb, hcq, -⟩ := handle_queues hs
  have hn : NonZeroU32.new i = some ⟨i, hi⟩ := dif_pos hi
  have hcount : s.unread i = s'.unread i + if brings i c = true then 1 else 0 := by
    simp only [unread, posted, hb, hcq, List.countP_append, List.countP_cons]
    omega
  by_cases hbr : brings i c = true
  · obtain ⟨hres, htag⟩ := of_decide_eq_true hbr
    have hact : ∀ op, op = .ptyRead ∨ op = .socketRead → c.userData = readTag op i →
        s.act (.handle env) i = .read op c.res := by
      intro op hop ht
      have hu : UserData.tryFrom c.userData = some ⟨op, some ⟨i, hi⟩⟩ := by
        rw [ht, readTag, hn, UserData.tryFrom_toU64]
      simp only [act, ending_eq hb hop hu, if_true]
    rw [if_pos hbr] at hcount
    rcases htag with h1 | h1
    · exact .inl ⟨_, _, hact _ (.inl rfl) h1, hres, hcount⟩
    · exact .inl ⟨_, _, hact _ (.inr rfl) h1, hres, hcount⟩
  · rw [if_neg hbr] at hcount
    refine .inr ⟨fun op res ha => ?_, by omega⟩
    by_contra hpos
    obtain ⟨env', -, he⟩ := act_ending ha
    refine hbr (decide_eq_true ?_)
    unfold ending at he
    rw [hb] at he
    simp only at he
    split at he
    · rename_i n hu
      cases he
      refine ⟨by omega, .inl ?_⟩
      rw [readTag, NonZeroU32.new_val, UserData.toU64_of_tryFrom hu]
    · rename_i n hu
      cases he
      refine ⟨by omega, .inr ?_⟩
      rw [readTag, NonZeroU32.new_val, UserData.toU64_of_tryFrom hu]
    · cases he

end Sys

/-- On a stream that is read, only a handled read is a WRTE. -/
theorem View.step_wrtes {w w' : View} {env : Env} {v : ProtocolVersion} {os : Os} {i : UInt32} {a : Act}
    (ha : ∀ r svc, a ≠ .opened r svc) (hr : ∀ st, w.stream = some st → st.service.reader.isSome)
    (hown : ∀ op res st, a = .read op res → w.stream = some st → st.service.reader = some op)
    (hs : w.step env v os i a = .ok w') :
    (∃ op res st data, a = .read op res ∧ 0 < res ∧ w.stream = some st ∧
        Sys.readData op st.service res.toNat = some data ∧ w'.wrtes = w.wrtes ++ [data]) ∨
      (∀ op res st, a = .read op res → 0 < res → w.stream ≠ some st) ∧ w'.wrtes = w.wrtes := by
  cases moves_of_step hs with
  | opened r svc => exact absurd rfl (ha r svc)
  | absent _ hst =>
    refine .inr ⟨fun op res st _ _ he => ?_, noted_wrtes ..⟩
    cases hst.symm.trans he
  | rests _ hst hq =>
    have := hr _ hst
    rw [hq] at this
    cases this
  | @relays _ _ st op hst hop hrel =>
    cases hrel with
    | none => exact .inr ⟨fun _ _ _ he => (nomatch he), rfl⟩
    | fill _ bytes => exact .inr ⟨fun _ _ _ he => (nomatch he), rfl⟩
    | okay => exact .inr ⟨fun _ _ _ he => (nomatch he), rfl⟩
    | wrte payload => exact .inr ⟨fun _ _ _ he => (nomatch he), rfl⟩
    | failed _ => exact .inr ⟨fun _ _ _ he => (nomatch he), rfl⟩
    | half r _ => exact .inr ⟨fun _ _ _ he => (nomatch he), rfl⟩
    | closed r _ => exact .inr ⟨fun _ _ _ he => (nomatch he), rfl⟩
    | ended op' hres =>
      refine .inr ⟨fun _ res' _ he hpos => ?_, rfl⟩
      cases he
      omega
    | stray hne _ =>
      have hown := hown _ _ st rfl hst
      cases hown.symm.trans hop
      exact absurd rfl hne
    | relayed hpos hd => exact .inl ⟨op, _, st, _, rfl, hpos, hst, hd, rfl⟩

namespace Sys

variable {s s' : Sys} {e : Event} {i : UInt32} {c : Nat} {notes : List Relay}

theorem relaying_read {op : UserDataOpType} {res : Int} {st : Stream} (ha : s.act e i = .read op res)
    (hres : 0 < res) (hst : s.dev.streams.get i = some st) : s.relaying i e = [.handled] := by
  obtain ⟨env, rfl, -⟩ := act_ending ha
  rw [relaying_handle]
  simp only [handling, ha, hst, if_pos hres]

theorem handled_relaying (h : ∀ op res st, s.act e i = .read op res → 0 < res →
    s.dev.streams.get i ≠ some st) : handled (s.relaying i e) = 0 := by
  refine List.count_eq_zero.mpr fun hn => ?_
  rcases List.mem_append.mp hn with hn | hn
  swap
  · obtain ⟨bytes, -, hb⟩ := List.mem_map.mp hn
    cases hb
  unfold handling at hn
  split at hn
  · cases List.mem_singleton.mp hn
  · rename_i op res st ha hst
    split at hn
    · rename_i hres
      exact h op res st ha hres hst
    · cases hn
  · cases hn

/-- What the host was sent: the chunks handled so far, each once and in order. -/
structure Outward (i : UInt32) (s : Sys) (notes : List Relay) : Prop where
  wrtes : (s.view i).wrtes = (chunks notes).take (handled notes)
  handled_le : handled notes ≤ (chunks notes).length
  /-- While the stream is open only completions still to be handled are missing. -/
  due : ∀ st, s.dev.streams.get i = some st → (chunks notes).length = handled notes + s.unread i

theorem Outward.sends (h : s.Outward i notes) (hown : s.OwnReads) (hone : (s.view i).Solo)
    (hbuf : s.Buffered i (chunks notes)) {env : Env} (hs : s.step (.handle env) = .ok s')
    {op : UserDataOpType} {res : Int} {st : Stream} {data : Bytes}
    (ha : s.act (.handle env) i = .read op res) (hres : 0 < res)
    (hst : s.dev.streams.get i = some st) (hdata : readData op st.service res.toNat = some data)
    (hw : (s'.view i).wrtes = (s.view i).wrtes ++ [data]) :
    s'.Outward i (notes ++ s.relaying i (.handle env)) := by
  have hi : i ≠ 0 := by
    rintro rfl
    rw [show s.dev.streams.get 0 = none from hown.zero.1] at hst
    cases hst
  obtain ⟨env', -, he⟩ := act_ending ha
  obtain ⟨bytes, hlast, -, hbytes⟩ := hbuf.ending hown he hres hst
  cases hdata.symm.trans hbytes
  obtain ⟨pre, hpre⟩ := List.getLast?_eq_some_iff.mp hlast
  have hle : s.unread i ≤ 1 := by
    have h1 := unread_le i s
    unfold View.Solo at hone
    omega
  have hun : s.unread i = s'.unread i + 1 := by
    rcases unread_handle hs hi with ⟨_, _, -, -, h1⟩ | ⟨h1, -⟩
    · exact h1
    · exact absurd (h1 op res ha) (by omega)
  have hdue := h.due st hst
  have hchunks : chunks (notes ++ [Relay.handled]) = chunks notes := by simp [chunks, Relay.chunk?]
  have hcount : handled (notes ++ [Relay.handled]) = handled notes + 1 := by simp [handled]
  have hpl : pre.length = handled notes := by
    rw [hpre, List.length_append, List.length_singleton] at hdue
    omega
  rw [relaying_read ha hres hst]
  refine ⟨?_, ?_, fun st' _ => ?_⟩
  · rw [hw, h.wrtes, hchunks, hcount, hpre, ← hpl, List.take_left,
      List.take_of_length_le (by simp)]
  · rw [hchunks, hcount]
    omega
  · rw [hchunks, hcount]
    omega

/-- **A step sends what was read, or nothing.** -/
theorem Outward.step (h : s.Outward i notes) (hh : s.Holds i c) (hown : s.OwnReads)
    (hone : (s.view i).Solo) (hbuf : s.Buffered i (chunks notes)) (hs : s.step e = .ok s') :
    s'.Outward i (notes ++ s.relaying i e) := by
  have hno : ∀ r svc, s.act e i ≠ .opened r svc := fun r svc => hh.not_opened r svc
  have hr : ∀ st, s.dev.streams.get i = some st → st.service.reader.isSome := by
    intro st hst
    rw [← Service.channel_isSome, hh.own st hst]
    rfl
  rcases View.step_wrtes hno hr (fun op res st ha hst => hown.reader_of_act ha hst) (step_view hs i)
    with ⟨op, res, st, data, ha, hres, hst, hdata, hw⟩ | ⟨hquiet, hw⟩
  · obtain ⟨env, rfl, -⟩ := act_ending ha
    exact h.sends hown hone hbuf hs ha hres hst hdata hw
  · have hchunks := chunks_append notes i s e
    have hcount : handled (notes ++ s.relaying i e) = handled notes := by
      rw [handled, List.count_append]
      exact congrArg (handled notes + ·) (handled_relaying hquiet)
    have hle := h.handled_le
    refine ⟨?_, ?_, fun st' hst' => ?_⟩
    · rw [hw, h.wrtes, hchunks, hcount, List.take_append_of_le_length hle]
    · rw [hchunks, hcount, List.length_append]
      omega
    · obtain ⟨st, hst⟩ := View.step_open hno (step_view hs i) hst'
      have hdue := h.due st hst
      have hi : i ≠ 0 := by
        rintro rfl
        cases hown.zero.1.symm.trans hst
      have hun : s'.unread i = s.unread i + (s.filling i e).length := by
        cases e with
        | submit =>
          obtain ⟨-, rfl⟩ := Sys.submit_ok hs
          rfl
        | reap =>
          obtain ⟨hb, -, -, rfl⟩ := Sys.reap_ok hs
          simp only [unread, posted, hb, List.append_nil, List.nil_append]
          rfl
        | complete k outcome => exact unread_complete hs hi
        | handle env =>
          have hnil : s.filling i (.handle env) = [] := rfl
          rw [hnil]
          rcases unread_handle hs hi with ⟨op, res, ha, hres, -⟩ | ⟨-, h1⟩
          · exact absurd hst (hquiet op res st ha hres)
          · exact h1
      rw [hchunks, hcount, List.length_append, hun]
      omega

/-- A host that answers only what it was sent answers a stream that waits. -/
theorem Sound.okaysAwaited (h : s.Sound) (hok : HostOk s e) : OkaysAwaited s e := by
  intro i st hst hr ha
  have hlt := hok i ha
  have hack := (h.paced i st hst).acked hr
  cases hw : st.waitingForOkay with
  | true => rfl
  | false =>
    rw [hw, Bool.toNat_false] at hack
    omega

/-- What holds of every run with such a host that drops no stream under a read. -/
structure Orderly (s : Sys) : Prop where
  sound : s.Sound
  own : s.OwnReads
  kept : s.Kept
  one : s.OneRead
  made : s.Made

theorem Orderly.step (h : s.Orderly) (hok : HostOk s e ∧ KeepsReads s e) (hs : s.step e = .ok s') :
    s'.Orderly :=
  ⟨h.sound.step hok.1 hs, h.own.step hs, h.kept.step h.own hok.2 hs,
    h.one.step h.own (h.sound.okaysAwaited hok.1) hs, h.made.step hs⟩

theorem orderly_of_reach {info : DeviceInfo} {os : Os}
    (h : Reach Sys.step (fun s e => HostOk s e ∧ KeepsReads s e) (Sys.start info os) s) : s.Orderly :=
  h.invariant (I := Orderly)
    ⟨.start info os, .start info os, .start info os, .start info os, fun _ _ _ hst => nomatch hst⟩
    fun _ _ _ hi hok hs => hi.step hok hs

theorem opened_ok {r : UInt32} {svc : Service} (ha : s.act e i = .opened r svc) :
    HostOk s e ∧ KeepsReads s e := by
  obtain ⟨env, hd, p, rfl, hi, h1⟩ := act_fromHost (by rw [ha]; rfl)
  have hcmd := (Dev.actOf_opened (h1.symm.trans ha)).1
  have hend := ending_of_incoming hi
  have hact : ∀ j, s.act (.handle env) j = s.dev.actOf env hd p j := fun j => act_message hend hi j
  refine ⟨fun j hj => ?_, fun j st _ _ => ⟨fun r' sh hj => ?_, fun q hj => ?_, fun op res hj => ?_⟩⟩
  · cases hcmd.symm.trans (Dev.actOf_okay ((hact j).symm.trans hj)).1
  · cases hcmd.symm.trans (Dev.actOf_clse ((hact j).symm.trans hj)).1
  · cases hcmd.symm.trans (Dev.actOf_wrte ((hact j).symm.trans hj)).1
  · obtain ⟨env', -, he⟩ := act_ending hj
    cases hend.symm.trans he

theorem relay_start (h : s.Orderly) {r : UInt32} {svc : Service} (ha : s.act e i = .opened r svc)
    (hc : svc.channel = some c) (hs : s.step e = .ok s') :
    s'.Holds i c ∧ s'.Inward i c [] ∧ s'.Outward i [] ∧ s'.Buffered i [] := by
  obtain ⟨hholds, hnil⟩ := Holds.opened h.made hs ha hc
  have hfresh : (s.view i).Fresh := by
    rw [act_opened ha]
    exact h.sound.fresh s.nextId (Nat.le_refl _)
  have hreads : (s.view i).allReads = 0 := by
    rw [hfresh]
    rfl
  obtain ⟨env, hd, p, rfl, -, -⟩ := act_fromHost (by rw [ha]; rfl)
  obtain ⟨c0, hb, hcq, -⟩ := handle_queues hs
  have hzero : s'.unread i = 0 := by
    have h1 := unread_le i s
    have h2 : s'.unread i ≤ s.unread i := by
      simp only [unread, posted, hb, hcq, List.countP_append, List.countP_cons]
      omega
    omega
  have hwrtes : (s'.view i).wrtes = [] := by
    have hview := step_view hs i
    rw [ha] at hview
    rw [View.step_opened hview, View.begun_wrtes, hfresh]
  refine ⟨hholds, .nil hnil, ⟨hwrtes, Nat.le_refl 0, fun st _ => ?_⟩, ?_⟩
  · rw [hzero]
    rfl
  · intro st op cqe _ hr hmem htag hres
    exfalso
    have hpos : 0 < s'.unread i := by
      refine List.countP_pos_iff.mpr ⟨cqe, hmem, decide_eq_true ⟨hres, ?_⟩⟩
      rcases Service.reader_cases hr with rfl | rfl
      · exact .inl htag
      · exact .inr htag
    omega

end Sys

/-- **Relay fidelity.** With a host that answers only what it was sent, in a run that
drops no stream under a read, and from the moment a shell or forward stream is opened:
the PTY or socket gets the payloads of the WRTEs dispatched to the stream while it was
open, one after the other, and after a write error, which closes the stream, a part of
that; and the host gets the chunks its reads brought, each once and in order, as they
are handled. -/
theorem relay_fidelity {info : DeviceInfo} {os : Os} {s0 s1 s : Sys} {e0 : Event} {i r : UInt32}
    {svc : Service} {c : Nat} {notes : List Relay}
    (h0 : Reach Sys.step (fun s e => HostOk s e ∧ KeepsReads s e) (Sys.start info os) s0)
    (ha : s0.act e0 i = .opened r svc) (hc : svc.channel = some c) (h1 : s0.step e0 = .ok s1)
    (h : Reach (observed Sys.step (Sys.relaying i)) (fun p e => HostOk p.1 e ∧ KeepsReads p.1 e)
      (s1, []) (s, notes)) :
    s.Inward i c notes ∧ s.Outward i notes := by
  have hord := Sys.orderly_of_reach h0
  obtain ⟨hholds, hin, hout, hbuf⟩ := Sys.relay_start hord ha hc h1
  have hinv : s.Orderly ∧ s.Holds i c ∧ s.Inward i c notes ∧ s.Outward i notes ∧
      s.Buffered i (chunks notes) := by
    refine h.invariant (I := fun p => p.1.Orderly ∧ p.1.Holds i c ∧ p.1.Inward i c p.2 ∧
      p.1.Outward i p.2 ∧ p.1.Buffered i (chunks p.2))
      ⟨hord.step (Sys.opened_ok ha) h1, hholds, hin, hout, hbuf⟩ fun p e q hi hok hs => ?_
    obtain ⟨hord, hholds, hin, hout, hbuf⟩ := hi
    obtain ⟨hstep, hhist⟩ := observed_ok hs
    have hone := hord.one i
    rw [hhist]
    refine ⟨hord.step hok hstep, hholds.step hstep, hin.step hholds hstep,
      hout.step hholds hord.own hone hbuf hstep, ?_⟩
    rw [Sys.chunks_append]
    exact hbuf.step hord.own hord.kept hone hstep
  exact ⟨hinv.2.2.1, hinv.2.2.2.1⟩

/-- A shell is given a line and answers one. -/
def Sys.shellTalk : List Sys.Turn :=
  Sys.Turn.message .wrte 7 1 (ascii "ls") ++ [⟨readTag .ptyRead 1, .data (ascii "src"), {}⟩]

/-- The stream an act opens: the host's id and the service. -/
def Act.opened? : Act → Option (UInt32 × Service)
  | .opened r svc => some (r, svc)
  | _ => Option.none

theorem Act.opened?_eq {a : Act} {r : UInt32} {svc : Service} (h : a.opened? = some (r, svc)) :
    a = .opened r svc := by
  unfold Act.opened? at h
  split at h
  · cases h
    rfl
  · cases h

/-- Admits what answers only what was sent and drops no stream. -/
def hostKeeps (s : Sys) (e : Event) : Bool := hostOk s e && keepsReads s e

theorem of_hostKeeps (s : Sys) (e : Event) (h : hostKeeps s e = true) : HostOk s e ∧ KeepsReads s e :=
  have h := Bool.and_eq_true_iff.mp h
  ⟨.of_hostOk h.1, .of_keepsReads h.2⟩

theorem relay_fidelity_shell : ∃ s0 s1 s svc notes,
    Reach Sys.step (fun s e => HostOk s e ∧ KeepsReads s e) Sys.fresh s0 ∧
    s0.act (.handle {}) 1 = .opened 7 svc ∧ svc.channel = some 0 ∧ s0.step (.handle {}) = .ok s1 ∧
    Reach (observed Sys.step (Sys.relaying 1)) (fun p e => HostOk p.1 e ∧ KeepsReads p.1 e)
      (s1, []) (s, notes) ∧
    (s.dev.os.channels 0).input = ascii "ls" ∧ (s.view 1).wrtes = [ascii "src"] ∧
    s.Inward 1 0 notes ∧ s.Outward 1 notes := by
  have hrun : (Sys.fresh.poised hostKeeps Sys.openShell.dropLast
      (.payload (ascii "shell:" ++ [0]))).bind (fun s0 => (s0.step (.handle {})).toOption.bind fun s1 =>
        (s1.play hostKeeps Sys.shellTalk).map fun s =>
          ((s0.act (.handle {}) 1).opened?, (s.dev.os.channels 0).input, (s.view 1).wrtes)) =
      some (some (7, .shell ⟨0, []⟩), ascii "ls", [ascii "src"]) := by
    decide +kernel
  obtain ⟨s0, hs0, hrest⟩ := Option.bind_eq_some_iff.mp hrun
  obtain ⟨s1, hs1, hmap⟩ := Option.bind_eq_some_iff.mp hrest
  obtain ⟨s, hs, hres⟩ := Option.map_eq_some_iff.mp hmap
  simp only [Prod.mk.injEq] at hres
  obtain ⟨hopen, hin, hout⟩ := hres
  have hact : s0.act (.handle {}) 1 = .opened 7 (.shell ⟨0, []⟩) := Act.opened?_eq hopen
  have h0 := Sys.reach_of_poised of_hostKeeps hs0
  have h1 := ok_of_toOption hs1
  have hhist : ∃ notes, Reach (observed Sys.step (Sys.relaying 1))
      (fun p e => HostOk p.1 e ∧ KeepsReads p.1 e) (s1, []) (s, notes) :=
    (Sys.reach_of_play of_hostKeeps hs).observe
  obtain ⟨notes, hobs⟩ := hhist
  exact ⟨s0, s1, s, _, notes, h0, hact, rfl, h1, hobs, hin, hout,
    relay_fidelity h0 hact rfl h1 hobs⟩

/-- A shell is closed under its read, and the OPEN of another has arrived. -/
def Sys.reopening (ok : Sys → Event → Bool) : Option Sys :=
  Sys.fresh.poised ok (Sys.openShell ++ Sys.Turn.message .clse 7 1 [] ++
    (Sys.Turn.message .open 8 0 (ascii "shell:" ++ [0])).dropLast) (.payload (ascii "shell:" ++ [0]))

/-- The read of the new shell completes, then that of the closed one, whose memory the
new one has; then the first is handled. -/
def Sys.lateRead (s : Sys) : List Event :=
  let flying := s.inflight ++ s.dev.sq
  let k := flying.findIdx (·.userData == readTag .ptyRead 2)
  let k' := (flying.eraseIdx k).findIdx (·.userData == readTag .ptyRead 1)
  [.submit, .complete k (.data (ascii "abc")),
    .complete k' (.data (ascii "XYZ") (some (.readBuf 2))), .reap, .handle {}]

/-- The second shell's chunk "abc" goes to the host as "XYZ". -/
theorem late_read_relayed : ∃ s0 s1 s svc notes, Reach Sys.step HostOk Sys.fresh s0 ∧
    s0.act (.handle {}) 2 = .opened 8 svc ∧ svc.channel = some 1 ∧ s0.step (.handle {}) = .ok s1 ∧
    Reach (observed Sys.step (Sys.relaying 2)) (fun p e => HostOk p.1 e) (s1, []) (s, notes) ∧
    chunks notes = [ascii "abc"] ∧ (s.view 2).wrtes = [ascii "XYZ"] ∧ ¬ s.Outward 2 notes := by
  have hrun : ((Sys.reopening hostOk).bind fun s0 => (s0.step (.handle {})).toOption.bind fun s1 =>
      (runGuarded (observed Sys.step (Sys.relaying 2)) (fun p e => hostOk p.1 e) (s1, [])
        s1.lateRead).map fun p =>
          ((s0.act (.handle {}) 2).opened?, chunks p.2, handled p.2, (p.1.view 2).wrtes)) =
      some (some (8, .shell ⟨1, []⟩), [ascii "abc"], 1, [ascii "XYZ"]) := by
    decide +kernel
  obtain ⟨s0, hs0, hrest⟩ := Option.bind_eq_some_iff.mp hrun
  obtain ⟨s1, hs1, hmap⟩ := Option.bind_eq_some_iff.mp hrest
  obtain ⟨⟨s, notes⟩, hs, hres⟩ := Option.map_eq_some_iff.mp hmap
  simp only [Prod.mk.injEq] at hres
  obtain ⟨hopen, hchunks, hhandled, hwrtes⟩ := hres
  refine ⟨s0, s1, s, _, notes, Sys.reach_of_poised (fun _ _ => HostOk.of_hostOk) hs0,
    Act.opened?_eq hopen, rfl, ok_of_toOption hs1,
    Reach.of_runGuarded (fun _ _ => HostOk.of_hostOk) hs, hchunks, hwrtes, fun hout => ?_⟩
  have := hout.wrtes
  rw [hwrtes, hchunks, hhandled] at this
  exact absurd this (by decide)

end Adibi
