import Adibi.Cleanup
import Adibi.Sync.Answer
import Adibi.Utterance

/-!
# The payload limit

A CNXN sets a limit for the payloads the device sends: the smaller of what the
host takes and what the version allows. The device does not look at the first and
cuts its payloads to neither: a pull sends frames of 64 KiB, a FAIL quotes the
host's path. Every payload keeps to the limit as long as what the services are
given keeps to it (`Sys.Fits`).
-/

namespace Adibi

open Lib

/-! ## Receivers stay well formed -/

/-- The push of the stream, if there is one, is in a proper state. -/
def View.Proper (w : View) : Prop := ∀ r, receiverOf w.stream = some r → r.state.Wf

theorem receiver_filled (svc : Service) (op : UserDataOpType) (bytes : Bytes) :
    (svc.filled op bytes).receiver = svc.receiver := by
  cases svc with
  | shell sh =>
    simp only [Service.filled]
    split <;> rfl
  | forward fwd =>
    simp only [Service.filled]
    split <;> rfl
  | sync svc => rfl
  | reboot => rfl

theorem onWrte_wf {env : Env} {v : ProtocolVersion} {i : UInt32} {os : Os} {st : Stream} {e : Effect}
    {payload : Bytes} (hwf : ∀ r, st.service.receiver = some r → r.state.Wf)
    (h : onWrte env v i os st payload = .ok e) : ∀ r, receiverOf e.stream = some r → r.state.Wf := by
  intro r hr
  by_cases hf : st.service.feeds env os.fs payload = none
  · rw [(Sys.onWrte_apart hf h).2] at hr
    exact hwf r hr
  · cases hsvc : st.service with
    | reboot => exact absurd (by rw [hsvc]; rfl) hf
    | shell sh => exact absurd (by rw [hsvc]; rfl) hf
    | forward fwd => exact absurd (by rw [hsvc]; rfl) hf
    | sync svc =>
      unfold onWrte at h
      rw [hsvc] at h hf hwf
      obtain ⟨result, svc', fs', hh, -, hrec, hquit, -⟩ := onSync_receiver h
      have hne : svc.reaches env os.fs payload ≠ none := fun hno =>
        hf (Option.map_eq_none_iff.mpr hno)
      obtain ⟨⟨r0, fs1, bytes⟩, hreach⟩ := Option.ne_none_iff_exists'.mp hne
      obtain ⟨res, r', hreceive, hafter⟩ := SyncService.handle_reaches hreach hh
      have hwf0 : r0.state.Wf := by
        rcases SyncService.reaches_receiver hreach with h1 | h1
        · exact hwf r0 h1
        · rw [h1]
          trivial
      have hq : result ≠ .quit := by
        rintro rfl
        rw [hquit rfl] at hr
        cases hr
      rw [hrec hq] at hr
      cases res with
      | «continue» =>
        cases hafter.2.symm.trans hr
        exact FileReceiver.receive_answer hwf0 hreceive
      | done response => cases hafter.2.symm.trans hr

theorem View.Proper.step {w w' : View} {env : Env} {v : ProtocolVersion} {os : Os} {i : UInt32}
    {a : Act} (h : w.Proper) (hopen : ∀ r svc, a = .opened r svc → svc.receiver = none)
    (hs : w.step env v os i a = .ok w') : w'.Proper := by
  intro r hr
  by_cases ha : ∃ remote svc, a = .opened remote svc
  · obtain ⟨remote, svc, rfl⟩ := ha
    rw [step_opened hs, begun_stream] at hr
    cases (hopen remote svc rfl).symm.trans hr
  have ha : ∀ remote svc, a ≠ .opened remote svc := fun remote svc he => ha ⟨remote, svc, he⟩
  cases hst : w.stream with
  | none =>
    rw [step_absent ha hst hs, noted_stream] at hr
    exact h r hr
  | some st =>
    have hkept : receiverOf (some st) = some r → r.state.Wf := fun h0 => h r (by rw [hst]; exact h0)
    cases a with
    | opened remote svc => exact absurd rfl (ha remote svc)
    | none =>
      cases hs
      exact h r hr
    | fill op bytes =>
      cases hs
      simp only [receiverOf, hst, Option.map_some, Option.bind_some, receiver_filled] at hr
      exact hkept hr
    | okay =>
      obtain ⟨e, he, rfl⟩ := through_some (w := { w with okays := w.okays + 1 }) hs hst
      have hr : receiverOf e.stream = some r := hr
      rw [onOkay_receiver he] at hr
      exact hkept hr
    | wrte payload =>
      obtain ⟨e, he, rfl⟩ := through_some hs hst
      exact onWrte_wf (fun r0 h0 => h r0 (by rw [hst]; exact h0)) he r hr
    | clse remote =>
      obtain ⟨e, he, rfl⟩ := through_some hs hst
      have hr : receiverOf e.stream = some r := hr
      rcases onClse_cases he with ⟨-, h1, -⟩ | ⟨-, h1, -⟩
      · rw [h1] at hr
        exact hkept hr
      · rw [h1] at hr
        cases hr
    | read op res =>
      obtain ⟨e, he, rfl⟩ := through_some (w := w.ended op) hs hst
      rcases onRead_cases he with ⟨-, rfl⟩ | ⟨-, -, rfl⟩ | ⟨-, -, _, _, -, -, rfl⟩
      · cases hr
      · exact hkept hr
      · exact hkept hr

namespace Sys

variable {s s' : Sys} {e : Event}

theorem act_opened_receiver {i r : UInt32} {svc : Service} (h : s.act e i = .opened r svc) :
    svc.receiver = none := by
  obtain ⟨env, hd, p, -, -, ha⟩ := act_fromHost (by rw [h]; rfl)
  have h := ha.symm.trans h
  have hc := (Dev.actOf_opened h).1
  simp only [Dev.actOf, hc] at h
  split at h
  · rename_i svc' os ho
    split at h
    · cases h
      obtain ⟨name, -, ho⟩ := Option.bind_eq_some_iff.mp ho
      rcases StreamManager.openService_ok ho with ⟨rfl | rfl, -⟩ | ⟨target, -, rfl | rfl⟩
      · rfl
      · rfl
      · rfl
      · rfl
    · cases h
  · cases h

theorem proper_step (h : ∀ i, (s.view i).Proper) (hs : s.step e = .ok s') (i : UInt32) :
    (s'.view i).Proper :=
  (h i).step (fun _ _ ha => act_opened_receiver ha) (step_view hs i)

theorem proper_of_reach {Ok : Sys → Event → Prop} {info : DeviceInfo} {os : Os}
    (h : Reach Sys.step Ok (Sys.start info os) s) : ∀ i, (s.view i).Proper :=
  h.invariant (I := fun s => ∀ i, (s.view i).Proper) (fun _ _ hr => nomatch hr)
    fun _ _ _ hi _ hs => proper_step hi hs

end Sys

/-! ## What the services are given -/

/-- What an act has the stream send has at most `n` bytes: the bytes a read brought,
the frame of a pull, the answer of the sync service. -/
def Stream.Fits (n : Nat) (env : Env) (os : Os) (st : Stream) : Act → Prop
  | .read op res => st.service.reader = some op → 0 < res → res.toNat ≤ n
  | .okay => ∀ sender, st.service = .sync ⟨.sending sender⟩ → sender.done = false →
      sender.frameLength env os.fs ≤ n
  | .wrte payload => ∀ svc, st.service = .sync svc →
      svc.AnswerFits n env os.fs st.waitingForOkay payload
  | _ => True

/-- The same for the stream an event is for. -/
def Sys.Fits (n : Nat) (s : Sys) (e : Event) : Prop :=
  ∀ i st, s.dev.streams.get i = some st → st.Fits n e.env s.dev.os (s.act e i)

theorem readData_length {op : UserDataOpType} {svc : Service} {n : Nat} {data : Bytes}
    (h : Sys.readData op svc n = some data) : svc.reader = some op ∧ data.length ≤ n := by
  unfold Sys.readData at h
  split at h
  · cases h
    exact ⟨rfl, List.length_take_le ..⟩
  · cases h
    exact ⟨rfl, List.length_take_le ..⟩
  · cases h

theorem response_length (hdr : SyncFrameResponseHeader) (data : Bytes) :
    (hdr.asLeBytes ++ data).length = 8 + data.length := by
  simp only [SyncFrameResponseHeader.asLeBytes, List.length_append, le32_length]

/-- **What an act calls for fits** if what the services are given does. -/
theorem Answers.length_le {n : Nat} {env : Env} {os : Os} {st : Stream} {a : Act} {data : Bytes}
    (h : Answers env os st a data) (hfits : st.Fits n env os a)
    (hwf : ∀ r, st.service.receiver = some r → r.state.Wf) : data.length ≤ n := by
  have hsync : ∀ {svc : SyncService}, st.service = .sync svc →
      ∀ r, svc.receiver = some r → r.state.Wf := by
    intro svc hs r hr
    refine hwf r ?_
    rw [hs]
    exact hr
  cases h with
  | chunk hres hd =>
    obtain ⟨hr, hlen⟩ := readData_length hd
    exact Nat.le_trans hlen (hfits hr hres)
  | frame hs hn =>
    obtain ⟨hdone, hlen⟩ := FileSender.nextFrame_length hn
    rw [response_length, hlen]
    exact hfits _ hs hdone
  | first hs hw hh hn =>
    have hres := SyncService.handle_fits (hfits _ hs) (hsync hs) hh
    obtain ⟨-, hlen⟩ := FileSender.nextFrame_length hn
    rw [response_length, hlen]
    exact hres hw _ rfl
  | @stat payload svc svc' fs stat hs hh =>
    have hlen : stat.asLeBytes.length = 16 := by
      simp only [SyncStat.asLeBytes, List.length_append, le32_length]
    rw [hlen]
    exact SyncService.handle_fits (hfits _ hs) (hsync hs) hh
  | response hs hh =>
    rw [response_length]
    exact SyncService.handle_fits (hfits _ hs) (hsync hs) hh

/-! ## Along a run -/

/-- The limit a CNXN sets: the smaller of the host's and that of the version. -/
def limitOf (h : AdbHeader) : Nat :=
  min h.arg1.toNat ((ProtocolVersion.tryFrom h.arg0).getD .v0).maxPayload.toNat

namespace Sys

variable {s s' : Sys} {e : Event} {limit n : Nat}

/-- Everything said but the first `n` messages keeps to the limit. -/
structure Within (limit n : Nat) (s : Sys) : Prop where
  since : n ≤ s.dev.sent.length
  short : ∀ m ∈ s.dev.sent.drop n, m.2.length ≤ limit

theorem Within.step (h : s.Within limit n) (hwf : ∀ i, (s.view i).Proper) (hno : NoCnxn s e)
    (hfits : s.Fits limit e) (hs : s.step e = .ok s') : s'.Within limit n := by
  obtain ⟨new, hsent, hnew⟩ := utters_of_ok hs
  have hsince := h.since
  refine ⟨?_, fun m hm => ?_⟩
  · rw [hsent, List.length_append]
    omega
  · rw [hsent, List.drop_append_of_le_length hsince] at hm
    rcases List.mem_append.mp hm with h1 | h1
    · exact h.short m h1
    · cases hnew m h1 with
      | bare c a b => exact Nat.zero_le _
      | cnxn he hi hc hr => exact absurd hc (hno _ _ _ he hi)
      | @wrte i r st m hst hm ha =>
        refine ha.length_le (hfits i st hst) fun r hr => hwf i r ?_
        show receiverOf (s.dev.streams.get i) = some r
        rw [hst]
        exact hr

end Sys

/-- **The payload limit.** After a CNXN, and up to the next one, every message the
device submits keeps to the smaller of the host's limit and the version's, if the
system identity does and every step is given only what does. -/
theorem payloads_within_limit {info : DeviceInfo} {os : Os} {s0 s1 s : Sys} {e : Event} {h : AdbHeader}
    (h0 : Reach Sys.step (fun _ _ => True) (Sys.start info os) s0) (hg : Sys.Greeting s0 e h)
    (h1 : s0.step e = .ok s1) (hid : (systemIdentity s0.dev.info).length ≤ limitOf h)
    (hrun : Reach Sys.step (fun s e => Sys.NoCnxn s e ∧ s.Fits (limitOf h) e) s1 s) :
    ∀ m ∈ s.dev.sent.drop s0.dev.sent.length,
      m.2.length ≤ min h.arg1.toNat s1.dev.version.maxPayload.toNat := by
  obtain ⟨hver, r, hr, hsent⟩ := hg.step h1
  have hlimit : min h.arg1.toNat s1.dev.version.maxPayload.toNat = limitOf h := by
    rw [hver]
    rfl
  have hstart : s1.Within (limitOf h) s0.dev.sent.length := by
    refine ⟨?_, fun m hm => ?_⟩
    · rw [hsent, List.length_append]
      omega
    · rw [hsent, List.drop_left] at hm
      rw [List.mem_singleton.mp hm]
      exact hid
  have hproper := Sys.proper_step (Sys.proper_of_reach h0) h1
  have hinv : (∀ i, (s.view i).Proper) ∧ s.Within (limitOf h) s0.dev.sent.length := by
    refine hrun.invariant (I := fun s => (∀ i, (s.view i).Proper) ∧
      s.Within (limitOf h) s0.dev.sent.length) ⟨hproper, hstart⟩ fun t e u hi hok hs => ?_
    exact ⟨Sys.proper_step hi.1 hs, hi.2.step hi.1 hok.1 hok.2 hs⟩
  rw [hlimit]
  exact hinv.2.short

/-- The step brings an OPEN, or a read of at most `n` bytes. -/
def Sys.opensOrReads (n : Nat) (s : Sys) (e : Event) : Bool :=
  match e with
  | .handle _ =>
    match s.ending, s.incoming with
    | some (_, _, res), _ => res.toNat ≤ n
    | none, some (h, _) => h.command = .open
    | none, none => true
  | _ => true

theorem Sys.Fits.of_opensOrReads {n : Nat} {s : Sys} {e : Event} (h : s.opensOrReads n e = true) :
    Sys.NoCnxn s e ∧ s.Fits n e := by
  constructor
  · rintro env hd p rfl hi hc
    simp [Sys.opensOrReads, Sys.ending_of_incoming hi, hi, hc] at h
  · intro i st hst
    cases ha : s.act e i with
    | none => trivial
    | fill op bytes => trivial
    | opened r svc => trivial
    | clse r => trivial
    | read op res =>
      obtain ⟨env, rfl, he⟩ := Sys.act_ending ha
      intro _ _
      simpa [Sys.opensOrReads, he] using h
    | okay =>
      obtain ⟨env, hd, p, rfl, hi, hact⟩ := Sys.act_fromHost (by rw [ha]; rfl)
      have hc := (Dev.actOf_okay (hact.symm.trans ha)).1
      simp [Sys.opensOrReads, Sys.ending_of_incoming hi, hi, hc] at h
    | wrte payload =>
      obtain ⟨env, hd, p, rfl, hi, hact⟩ := Sys.act_fromHost (by rw [ha]; rfl)
      have hc := (Dev.actOf_wrte (hact.symm.trans ha)).1
      simp [Sys.opensOrReads, Sys.ending_of_incoming hi, hi, hc] at h

theorem payloads_within_limit_shell : ∃ s0 s1 s h, Reach Sys.step (fun _ _ => True) Sys.fresh s0 ∧
    Sys.Greeting s0 (.handle {}) h ∧ s0.step (.handle {}) = .ok s1 ∧ limitOf h = 4096 ∧
    Reach Sys.step (fun s e => Sys.NoCnxn s e ∧ s.Fits (limitOf h) e) s1 s ∧
    (s.view 1).wrtes = [ascii "$ "] ∧ ∀ m ∈ s.dev.sent.drop s0.dev.sent.length,
      m.2.length ≤ min h.arg1.toNat s1.dev.version.maxPayload.toNat := by
  have hrun : (Sys.fresh.poised (fun _ _ => true) (Sys.greet 0x01000001).dropLast
      (.payload (ascii "host::"))).bind (fun s0 => (s0.step (.handle {})).toOption.bind fun s1 =>
        (s1.play (Sys.opensOrReads 4096) Sys.shellTurns).map fun s =>
          (s0.incoming.map fun x => (x.1.command, limitOf x.1),
            (systemIdentity s0.dev.info).length, (s.view 1).wrtes)) =
      some (some (.cnxn, 4096), 63, [ascii "$ "]) := by
    decide +kernel
  obtain ⟨s0, hs0, hrest⟩ := Option.bind_eq_some_iff.mp hrun
  obtain ⟨s1, hs1, hmap⟩ := Option.bind_eq_some_iff.mp hrest
  obtain ⟨s, hs, hx⟩ := Option.map_eq_some_iff.mp hmap
  simp only [Prod.mk.injEq] at hx
  obtain ⟨hinc, hid, hwrtes⟩ := hx
  obtain ⟨⟨h, p⟩, hi, hy⟩ := Option.map_eq_some_iff.mp hinc
  simp only [Prod.mk.injEq] at hy
  have hg : Sys.Greeting s0 (.handle {}) h := ⟨⟨{}, p, rfl, hi⟩, hy.1⟩
  have h0 := Sys.reach_of_poised (fun _ _ _ => trivial) hs0
  have h1 := ok_of_toOption hs1
  have hfits : Reach Sys.step (fun s e => Sys.NoCnxn s e ∧ s.Fits (limitOf h) e) s1 s := by
    rw [hy.2]
    exact Sys.reach_of_play (fun _ _ hb => Sys.Fits.of_opensOrReads hb) hs
  exact ⟨s0, s1, s, h, h0, hg, h1, hy.2, hfits, hwrtes,
    payloads_within_limit h0 hg h1 (by rw [hid, hy.2]; decide) hfits⟩

def Fs.bigFile : Fs where
  entry := id
  dir path := if path = ascii "a" then some 0 else none
  inodes _ := ⟨List.replicate 5000 0, 0o100644, 0⟩
  nextIno := 1

def Sys.noCnxn (s : Sys) (e : Event) : Bool :=
  match e, s.incoming with
  | .handle _, some (h, _) => h.command != .cnxn
  | _, _ => true

theorem Sys.NoCnxn.of_noCnxn {s : Sys} {e : Event} (h : s.noCnxn e = true) : Sys.NoCnxn s e := by
  rintro env hd p rfl hi hc
  simp [Sys.noCnxn, hi, hc] at h

def Sys.pullBig : List Sys.Turn :=
  Sys.openSync ++ Sys.Turn.message .wrte 7 1 (le32 idRecvV1 ++ lenPrefixed (ascii "a"))

theorem pull_over_limit : ∃ s0 s1 s h, Reach Sys.step (fun _ _ => True)
      (Sys.start ⟨[], [], [], []⟩ (.boot .bigFile)) s0 ∧
    Sys.Greeting s0 (.handle {}) h ∧ h.arg0 = 0x01000000 ∧ h.arg1 = 4096 ∧
    s0.step (.handle {}) = .ok s1 ∧ s1.dev.version.maxPayload = 4096 ∧
    Reach Sys.step (fun s e => Sys.NoCnxn s e) s1 s ∧
    ∃ m ∈ s.dev.sent.drop s0.dev.sent.length, m.1.command = .wrte ∧ m.2.length = 5008 := by
  have hrun : ((Sys.start ⟨[], [], [], []⟩ (.boot .bigFile)).poised (fun _ _ => true)
      (Sys.greet 0x01000000).dropLast (.payload (ascii "host::"))).bind (fun s0 =>
        (s0.step (.handle {})).toOption.bind fun s1 => (s1.play Sys.noCnxn Sys.pullBig).map fun s =>
          (s0.incoming.map fun x => (x.1.command, x.1.arg0, x.1.arg1), s1.dev.version,
            (s.dev.sent.drop s0.dev.sent.length).map fun m => (m.1.command, m.2.length))) =
      some (some (.cnxn, 0x01000000, 4096), .v0, [(.cnxn, 63), (.okay, 0), (.okay, 0), (.wrte, 5008)]) := by
    decide +kernel
  obtain ⟨s0, hs0, hrest⟩ := Option.bind_eq_some_iff.mp hrun
  obtain ⟨s1, hs1, hmap⟩ := Option.bind_eq_some_iff.mp hrest
  obtain ⟨s, hs, hx⟩ := Option.map_eq_some_iff.mp hmap
  simp only [Prod.mk.injEq] at hx
  obtain ⟨hinc, hver, hsent⟩ := hx
  obtain ⟨⟨h, p⟩, hi, hy⟩ := Option.map_eq_some_iff.mp hinc
  simp only [Prod.mk.injEq] at hy
  have hmem : (Command.wrte, 5008) ∈
      (s.dev.sent.drop s0.dev.sent.length).map fun m => (m.1.command, m.2.length) := by
    rw [hsent]
    decide
  obtain ⟨m, hm, he⟩ := List.mem_map.mp hmem
  simp only [Prod.mk.injEq] at he
  exact ⟨s0, s1, s, h, Sys.reach_of_poised (fun _ _ _ => trivial) hs0, ⟨⟨{}, p, rfl, hi⟩, hy.1⟩, hy.2.1,
    hy.2.2, ok_of_toOption hs1, by rw [hver]; rfl,
    Sys.reach_of_play (fun _ _ => Sys.NoCnxn.of_noCnxn) hs, m, hm, he⟩

end Adibi
