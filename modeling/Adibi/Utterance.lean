import Adibi.Inversion
import Adibi.Reads

/-!
# What the device says

Everything a step can submit (`Sys.Utters`): a message without a payload, the
answer to a CNXN, or a WRTE on an open stream with one of the payloads that the
event calls for there (`Answers`). Claims about every message of a run need to
look at no handler beyond these.
-/

namespace Adibi

open Lib

/-- The payloads an act calls for on a stream. -/
inductive Answers (env : Env) (os : Os) (st : Stream) : Act → Bytes → Prop where
  /-- What a PTY or socket read brought. -/
  | chunk {op : UserDataOpType} {res : Int} {data : Bytes} (hres : 0 < res)
      (hd : Sys.readData op st.service res.toNat = some data) : Answers env os st (.read op res) data
  /-- The next frame of a pull. -/
  | frame {sender sender' : FileSender} {hdr : SyncFrameResponseHeader} {data : Bytes}
      (hs : st.service = .sync ⟨.sending sender⟩)
      (hn : sender.nextFrame env os.fs = .ok (some (hdr, data), sender')) :
      Answers env os st .okay (hdr.asLeBytes ++ data)
  /-- The first frame of a pull. -/
  | first {payload : Bytes} {svc : SyncService} {fs : Fs} {sender sender' : FileSender}
      {hdr : SyncFrameResponseHeader} {data : Bytes} (hs : st.service = .sync svc)
      (hw : st.waitingForOkay = false)
      (hh : svc.handle env os.fs payload = .ok (.continue, ⟨.sending sender⟩, fs))
      (hn : sender.nextFrame env fs = .ok (some (hdr, data), sender')) :
      Answers env os st (.wrte payload) (hdr.asLeBytes ++ data)
  | stat {payload : Bytes} {svc svc' : SyncService} {fs : Fs} {stat : SyncStat}
      (hs : st.service = .sync svc) (hh : svc.handle env os.fs payload = .ok (.stat stat, svc', fs)) :
      Answers env os st (.wrte payload) stat.asLeBytes
  | response {payload : Bytes} {svc svc' : SyncService} {fs : Fs} {hdr : SyncFrameResponseHeader}
      {data : Bytes} (hs : st.service = .sync svc)
      (hh : svc.handle env os.fs payload = .ok (.data hdr data, svc', fs)) :
      Answers env os st (.wrte payload) (hdr.asLeBytes ++ data)

/-- What an effect may say: nothing but messages without a payload, and WRTEs with
what the act calls for. -/
def Effect.Voices (env : Env) (v : ProtocolVersion) (i : UInt32) (os : Os) (st : Stream) (a : Act)
    (e : Effect) : Prop :=
  ∀ m ∈ e.outs.filterMap Out.message?, (∃ c a b, m = (bareHeader c a b, [])) ∨
    (∃ r, wrteHeader v i r m.2 = .ok m.1) ∧ Answers env os st a m.2

section

variable {env : Env} {v : ProtocolVersion} {i : UInt32} {os : Os} {st : Stream} {a : Act} {e : Effect}

theorem voices_silent {st' : Option Stream} {os' : Os} :
    (⟨st', os', []⟩ : Effect).Voices env v i os st a := fun _ hm => nomatch hm

theorem voices_closing {os' : Os} {st' : Stream} : (closing i os' st').Voices env v i os st a := by
  intro m hm
  rw [List.mem_singleton.mp hm]
  exact .inl ⟨_, _, _, rfl⟩

theorem voices_read {op : UserDataOpType} {o : Out} {st' : Option Stream} {os' : Os}
    (ho : readOut op i = .ok o) : (⟨st', os', [o]⟩ : Effect).Voices env v i os st a := by
  obtain ⟨u, rfl, -⟩ := readOut_ok ho
  exact fun _ hm => nomatch hm

theorem voices_wrte {r : UInt32} {data : Bytes} {o : Out} {st' : Option Stream} {os' : Os}
    (ho : wrteOut v i r data = .ok o) (ha : Answers env os st a data) :
    (⟨st', os', [o]⟩ : Effect).Voices env v i os st a := by
  obtain ⟨hd, hh, h1⟩ := bind_eq_ok.mp ho
  cases h1
  intro m hm
  rw [List.mem_singleton.mp hm]
  exact .inr ⟨⟨r, hh⟩, ha⟩

theorem continueSync_voices {os0 : Os} {st0 : Stream}
    (ha : ∀ sender sender' hdr data, st.waitingForOkay = false →
      st.service = .sync ⟨.sending sender⟩ →
      sender.nextFrame env os.fs = .ok (some (hdr, data), sender') →
      Answers env os0 st0 a (hdr.asLeBytes ++ data))
    (h : continueSync env v i os st = .ok e) : e.Voices env v i os0 st0 a := by
  rcases continueSync_cases h with ⟨rfl, -⟩ |
    ⟨hw, sender, sender', hdr, data, o, hs, hn, ho, rfl⟩ | ⟨-, _, _, -, -, rfl⟩
  · exact voices_silent
  · exact voices_wrte ho (ha sender sender' hdr data hw hs hn)
  · exact voices_silent

theorem onOkay_voices (h : onOkay env v i os st = .ok e) : e.Voices env v i os st .okay := by
  unfold onOkay at h
  simp only at h
  split at h
  · refine continueSync_voices ?_ h
    exact fun sender sender' hdr data _ hs hn => .frame hs hn
  · obtain ⟨o, ho, h1⟩ := bind_eq_ok.mp h
    cases h1
    exact voices_read ho
  · obtain ⟨o, ho, h1⟩ := bind_eq_ok.mp h
    cases h1
    exact voices_read ho
  · cases h

theorem written_voices (r : Except IoError Unit × Os) : (written i st r).Voices env v i os st a := by
  unfold written
  split
  · exact voices_silent
  · exact voices_closing

theorem onWrte_voices {payload : Bytes} (h : onWrte env v i os st payload = .ok e) :
    e.Voices env v i os st (.wrte payload) := by
  unfold onWrte at h
  split at h
  · rename_i svc hs
    obtain ⟨⟨result, svc', fs⟩, hh, h1⟩ := bind_eq_ok.mp h
    cases result with
    | stat stat =>
      obtain ⟨o, ho, h2⟩ := bind_eq_ok.mp h1
      cases h2
      exact voices_wrte ho (.stat hs hh)
    | data hdr data =>
      obtain ⟨o, ho, h2⟩ := bind_eq_ok.mp h1
      cases h2
      exact voices_wrte ho (.response hs hh)
    | quit =>
      cases h1
      exact voices_closing
    | «continue» =>
      refine continueSync_voices (fun sender sender' hdr data hw hsv hn => ?_) h1
      cases hsv
      exact .first hs hw hh hn
  · cases h
    exact written_voices _
  · cases h
    exact written_voices _
  · cases h

theorem onClse_voices {r : UInt32} (h : onClse env i os st r = .ok e) :
    e.Voices env v i os st (.clse r) := by
  unfold Effect.Voices
  rcases onClse_cases h with ⟨-, -, ho⟩ | ⟨-, -, ho⟩
  · rw [ho]
    exact fun _ hm => nomatch hm
  · rw [ho]
    intro m hm
    rw [List.mem_singleton.mp hm]
    exact .inl ⟨_, _, _, rfl⟩

theorem onRead_voices {op : UserDataOpType} {res : Int} (h : onRead v i os st op res = .ok e) :
    e.Voices env v i os st (.read op res) := by
  unfold onRead at h
  split at h
  · cases h
    exact voices_closing
  · rename_i hres
    cases hd : Sys.readData op st.service res.toNat with
    | none =>
      rw [hd] at h
      cases h
      exact voices_silent
    | some data =>
      rw [hd] at h
      obtain ⟨o, ho, h1⟩ := bind_eq_ok.mp h
      cases h1
      exact voices_wrte ho (.chunk (by omega) hd)

end

/-! ## What a step says -/

namespace Sys

variable {s s' : Sys} {e : Event}

/-- A message that an event may submit. -/
inductive Utters (s : Sys) (e : Event) : AdbHeader × Bytes → Prop where
  | bare (c : Command) (a b : UInt32) : Utters s e (bareHeader c a b, [])
  | wrte {i r : UInt32} {st : Stream} {m : AdbHeader × Bytes} (hst : s.dev.streams.get i = some st)
      (hm : wrteHeader s.dev.version i r m.2 = .ok m.1)
      (ha : Answers e.env s.dev.os st (s.act e i) m.2) : Utters s e m
  | cnxn {env : Env} {h r : AdbHeader} {p : Option Bytes} (he : e = .handle env)
      (hi : s.incoming = some (h, p)) (hc : h.command = .cnxn)
      (hr : cnxnHeader ((ProtocolVersion.tryFrom h.arg0).getD .v0) (systemIdentity s.dev.info) = .ok r) :
      Utters s e (r, systemIdentity s.dev.info)

theorem utters_of_effected {j : UInt32} {f : Stream → Except Panic Effect} {d : Dev}
    (hd : Dev.Effected d j f s'.dev) (hst : d.streams = s.dev.streams)
    (hf : ∀ st eff, f st = .ok eff →
      eff.Voices e.env s.dev.version j s.dev.os st (s.act e j)) :
    ∃ new, s'.dev.sent = d.sent ++ new ∧ ∀ m ∈ new, Utters s e m := by
  cases hd with
  | gone hs hd' => exact ⟨[], by rw [hd'.sent, List.append_nil], fun _ hm => nomatch hm⟩
  | @effect st eff hs he hstreams hv hos hinfo hsent =>
    refine ⟨_, hsent, fun m hm => ?_⟩
    rcases hf st eff he m hm with ⟨c, a, b, rfl⟩ | ⟨⟨r, hr⟩, ha⟩
    · exact .bare c a b
    · rw [hst] at hs
      exact .wrte hs hr ha

theorem utters_of_message {env : Env} {h : AdbHeader} {p : Option Bytes} (he : s.ending = none)
    (hi : s.incoming = some (h, p)) (hd : s.dev.Dispatched env h p s'.dev) :
    ∃ new, s'.dev.sent = s.dev.sent ++ new ∧ ∀ m ∈ new, Utters s (.handle env) m := by
  have hact : ∀ j, s.act (.handle env) j = s.dev.actOf env h p j := fun j => by
    simp only [act, he, hi]
  have hbare : ∀ {c : Command} {a b : UInt32}, ∀ m ∈ [(bareHeader c a b, ([] : Bytes))],
      Utters s (.handle env) m := by
    intro c a b m hm
    rw [List.mem_singleton.mp hm]
    exact .bare c a b
  cases hd with
  | ignored hc hd => exact ⟨[], by rw [hd.sent, List.append_nil], List.forall_mem_nil _⟩
  | @cnxn r hc hr hd =>
    refine ⟨_, hd.sent, fun m hm => ?_⟩
    rw [List.mem_singleton.mp hm]
    exact .cnxn rfl hi hc hr
  | refused hc ho hd => exact ⟨_, hd.sent, hbare⟩
  | opened hc ho hn hd => exact ⟨_, hd.sent, hbare⟩
  | @wrte payload d1 hc hp hd he' =>
    have ha : s.act (.handle env) h.arg1 = .wrte payload := by
      rw [hact]
      simp only [Dev.actOf, hc, hp, if_true]
    obtain ⟨new, hsent, hnew⟩ := utters_of_effected (e := .handle env) he' hd.streams
      fun st eff hf => by rw [ha]; exact onWrte_voices hf
    refine ⟨(bareHeader .okay h.arg1 h.arg0, []) :: new, ?_, fun m hm => ?_⟩
    · rw [hsent, hd.sent, List.append_assoc]
      rfl
    · rcases List.mem_cons.mp hm with rfl | h1
      · exact .bare ..
      · exact hnew m h1
  | okay hc he' =>
    have ha : s.act (.handle env) h.arg1 = .okay := by
      rw [hact]
      simp only [Dev.actOf, hc, if_true]
    exact utters_of_effected (e := .handle env) he' rfl
      fun st eff hf => by rw [ha]; exact onOkay_voices hf
  | clse hc he' =>
    have ha : s.act (.handle env) h.arg1 = .clse h.arg0 := by
      rw [hact]
      simp only [Dev.actOf, hc, if_true]
    exact utters_of_effected (e := .handle env) he' rfl
      fun st eff hf => by rw [ha]; exact onClse_voices hf

/-- **What a step says.** -/
theorem utters_of_ok (hs : s.step e = .ok s') :
    ∃ new, s'.dev.sent = s.dev.sent ++ new ∧ ∀ m ∈ new, Utters s e m := by
  cases stepped_of_ok hs with
  | quiet ha hd => exact ⟨[], by rw [hd.sent, List.append_nil], fun _ hm => nomatch hm⟩
  | filled ha hst hd =>
    refine ⟨[], ?_, fun _ hm => nomatch hm⟩
    rw [hd.sent, List.append_nil]
    rfl
  | @read env op j res _ he hd =>
    have ha : s.act (.handle env) j = .read op res := by simp only [act, he, if_true]
    exact utters_of_effected (e := .handle env) hd rfl
      fun st eff hf => by rw [ha]; exact onRead_voices hf
  | message he hi hd => exact utters_of_message he hi hd

/-! ## After a CNXN -/

def NoCnxn (s : Sys) (e : Event) : Prop :=
  ∀ env h p, e = .handle env → s.incoming = some (h, p) → h.command ≠ .cnxn

theorem Effected.version {d d' : Dev} {j : UInt32} {f : Stream → Except Panic Effect}
    (h : d.Effected j f d') : d'.version = d.version := by
  cases h with
  | gone hs hd => exact hd.version
  | effect hs he hst hv hos hin hse => exact hv

theorem step_version (hs : s.step e = .ok s') (hno : NoCnxn s e) :
    s'.dev.version = s.dev.version := by
  cases stepped_of_ok hs with
  | quiet ha hd => exact hd.version
  | filled ha hst hd => exact hd.version
  | read he hd => exact Effected.version hd
  | message he hi hd =>
    cases hd with
    | ignored hc hd => exact hd.version
    | cnxn hc hr hd => exact absurd hc (hno _ _ _ rfl hi)
    | refused hc ho hd => exact hd.version
    | opened hc ho hn hd => exact hd.version
    | wrte hc hp hd he' => exact (Effected.version he').trans hd.version
    | okay hc he' => exact Effected.version he'
    | clse hc he' => exact Effected.version he'

/-- The event is a CNXN of the host with the header `h`. -/
structure Greeting (s : Sys) (e : Event) (h : AdbHeader) : Prop where
  handles : ∃ env p, e = .handle env ∧ s.incoming = some (h, p)
  cnxn : h.command = .cnxn

theorem Greeting.step {h : AdbHeader} (hg : Greeting s e h) (hs : s.step e = .ok s') :
    s'.dev.version = (ProtocolVersion.tryFrom h.arg0).getD .v0 ∧
      ∃ r, cnxnHeader s'.dev.version (systemIdentity s.dev.info) = .ok r ∧
        s'.dev.sent = s.dev.sent ++ [(r, systemIdentity s.dev.info)] := by
  obtain ⟨⟨env, p, rfl, hi⟩, hc⟩ := hg
  have hcon : ∀ {c : Command}, h.command = c → c = .cnxn := fun h1 => h1.symm.trans hc
  cases served_of_handle hs with
  | idle he hi' hd => cases hi.symm.trans hi'
  | read he hd => cases (ending_of_incoming hi).symm.trans he
  | message he hi' hd =>
    cases hi.symm.trans hi'
    cases hd with
    | cnxn hc' hr hd => exact ⟨hd.version, _, by rw [hd.version]; exact hr, hd.sent⟩
    | ignored hc' hd => rcases hc' with h1 | h1 <;> cases hcon h1
    | refused hc' ho hd => cases hcon hc'
    | opened hc' ho hn hd => cases hcon hc'
    | wrte hc' hp hd he' => cases hcon hc'
    | okay hc' he' => cases hcon hc'
    | clse hc' he' => cases hcon hc'

/-- The host announces the version `v` and payloads of at most 4096 bytes. -/
def greet (v : UInt32) : List Turn := Turn.message .cnxn v 4096 (ascii "host::")

end Sys

end Adibi
