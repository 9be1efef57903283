import Adibi.Lifecycle
import Adibi.OwnReads
import Adibi.Sync.Outcome
import Adibi.Sync.Push

/-!
# What a push leaves behind

A history tells what the host sent for each push: the bytes after a SEND request
and those of the payloads that follow. Every push in progress has its file under
its path, and the file holds what the history decodes to (`Sys.Pushing`). So a
push that is answered leaves that file behind an OKAY, or none. A stream that is
closed in the middle of a push leaves the file as it is.
-/

namespace Adibi

open Lib

/-! ## Effects and files -/

section

variable {env : Env} {v : ProtocolVersion} {i : UInt32} {os os' : Os} {st : Stream} {e : Effect}

theorem continueSync_os (h : continueSync env v i os st = .ok e) : e.os = os := by
  rcases continueSync_cases h with ⟨rfl, -⟩ | ⟨-, _, _, _, _, _, -, -, -, rfl⟩ |
    ⟨-, _, _, -, -, rfl⟩
  · rfl
  · rfl
  · rfl

theorem onOkay_os (h : onOkay env v i os st = .ok e) : e.os = os := by
  unfold onOkay at h
  simp only at h
  split at h
  · exact continueSync_os h
  · obtain ⟨o, -, h1⟩ := bind_eq_ok.mp h
    cases h1
    rfl
  · obtain ⟨o, -, h1⟩ := bind_eq_ok.mp h
    cases h1
    rfl
  · cases h

theorem onRead_os {op : UserDataOpType} {res : Int} (h : onRead v i os st op res = .ok e) :
    e.os = os := by
  unfold onRead at h
  split at h
  · cases h
    rfl
  · split at h
    · cases h
      rfl
    · obtain ⟨o, -, h1⟩ := bind_eq_ok.mp h
      cases h1
      rfl

theorem onClse_fs {r : UInt32} (h : onClse env i os st r = .ok e) : e.os.fs = os.fs := by
  unfold onClse at h
  split at h
  · cases h
  · split at h
    · rename_i fwd _
      cases h
      unfold ForwardService.shutdownWrite Os.shutdownWrite
      cases env.fail .shutdown <;> rfl
    · cases h
      rfl

theorem shell_writeInput_fs (sh : ShellService) (payload : Bytes) :
    (sh.writeInput env os payload).2.fs = os.fs := by
  unfold ShellService.writeInput
  split
  · rfl
  · split <;> rfl

theorem writeLoop_fs (socket k : Nat) (data : Bytes) :
    (ForwardService.writeLoop env socket k os data).2.fs = os.fs := by
  induction hn : data.length using Nat.strong_induction_on generalizing data k os with
  | _ n ih =>
    subst hn
    unfold ForwardService.writeLoop
    split
    · rfl
    · rename_i hne
      split
      · rfl
      · have hpos := List.length_pos_iff.mpr hne
        simp only
        rw [ih _ (by simp only [List.length_drop]; omega) _ _ rfl]
        rfl

theorem written_os (st : Stream) (r : Except IoError Unit × Os) : (written i st r).os = r.2 := by
  obtain ⟨_ | _, os⟩ := r <;> rfl

theorem openService_fs {name : Bytes} {svc : Service}
    (h : StreamManager.openService env os name = some (svc, os')) : os'.fs = os.fs := by
  rcases StreamManager.openService_ok h with ⟨-, rfl⟩ | ⟨target, rfl, -⟩
  · rfl
  · rfl

end

/-! ## Pushes in progress -/

def Service.receiver : Service → Option FileReceiver
  | .sync svc => svc.receiver
  | _ => none

/-- The receiver of the push in progress on a stream. -/
def Dev.receiver (d : Dev) (i : UInt32) : Option FileReceiver :=
  (d.streams.get i).bind (·.service.receiver)

/-- What a payload brings to a push: the bytes after its SEND request, or more. -/
inductive Fed where
  | begins (path : Path) (bytes : Bytes)
  | more (bytes : Bytes)
  deriving DecidableEq, Repr

def SyncService.feeds (env : Env) (fs : Fs) (svc : SyncService) (payload : Bytes) : Option Fed :=
  (svc.reaches env fs payload).map fun x =>
    if svc.receiver.isSome then .more x.2.2 else .begins x.1.path x.2.2

def Service.feeds (env : Env) (fs : Fs) (payload : Bytes) : Service → Option Fed
  | .sync svc => svc.feeds env fs payload
  | _ => none

def Sys.feeding (s : Sys) : Event → List (UInt32 × Fed)
  | .handle env =>
    match s.incoming with
    | some (⟨.wrte, _, j, _, _, _⟩, some payload) =>
      (((s.dev.streams.get j).bind (·.service.feeds env s.dev.os.fs payload)).map
        fun f => (j, f)).toList
    | _ => []
  | _ => []

/-- The path and the bytes of a push after more of it. -/
def Fed.onto (sofar : Option (Path × Bytes)) : Fed → Option (Path × Bytes)
  | .begins path bytes => some (path, bytes)
  | .more bytes => sofar.map fun x => (x.1, x.2 ++ bytes)

/-- The last push of a stream: its path, and all bytes sent after its SEND. -/
def lastPush (i : UInt32) (hist : List (UInt32 × Fed)) : Option (Path × Bytes) :=
  ((hist.filter (·.1 = i)).map Prod.snd).foldl Fed.onto none

theorem lastPush_append_self (i : UInt32) (hist : List (UInt32 × Fed)) (f : Fed) :
    lastPush i (hist ++ [(i, f)]) = f.onto (lastPush i hist) := by
  simp [lastPush, List.foldl_append]

theorem lastPush_append_ne {i j : UInt32} (h : j ≠ i) (hist : List (UInt32 × Fed)) (f : Fed) :
    lastPush i (hist ++ [(j, f)]) = lastPush i hist := by
  simp [lastPush, h]

section

variable {env : Env} {v : ProtocolVersion} {i : UInt32} {os : Os} {st : Stream} {e : Effect}

def receiverOf (st : Option Stream) : Option FileReceiver := st.bind (·.service.receiver)

theorem receiver_of_reader {svc : Service} {op : UserDataOpType} (h : svc.reader = some op) :
    svc.receiver = none := by
  cases svc with
  | sync svc => cases h
  | shell sh => rfl
  | forward fwd => rfl
  | reboot => rfl

theorem continueSync_receiver (h : continueSync env v i os st = .ok e) :
    receiverOf e.stream = st.service.receiver := by
  rcases continueSync_cases h with ⟨rfl, -⟩ | ⟨-, sender, _, _, _, _, hs, -, -, rfl⟩ |
    ⟨-, sender, _, hs, -, rfl⟩
  · rfl
  · rw [hs]
    rfl
  · rw [hs]
    rfl

theorem onOkay_receiver (h : onOkay env v i os st = .ok e) :
    receiverOf e.stream = st.service.receiver := by
  unfold onOkay at h
  simp only at h
  split at h
  · have hc := continueSync_receiver h
    exact hc
  · obtain ⟨o, -, h1⟩ := bind_eq_ok.mp h
    cases h1
    rfl
  · obtain ⟨o, -, h1⟩ := bind_eq_ok.mp h
    cases h1
    rfl
  · cases h

/-- A sync payload: the service's answer, the files after it, and the WRTE that
carries a response. -/
theorem onSync_receiver {svc : SyncService} {payload : Bytes}
    (h : onSync env v i os st svc payload = .ok e) :
    ∃ result svc' fs', svc.handle env os.fs payload = .ok (result, svc', fs') ∧ e.os.fs = fs' ∧
      (result ≠ .quit → receiverOf e.stream = svc'.receiver) ∧
      (result = .quit → e.stream = none) ∧
      ∀ hdr data, result = .data hdr data →
        ∃ o, wrteOut v i st.remoteId (hdr.asLeBytes ++ data) = .ok o ∧ e.outs = [o] := by
  obtain ⟨⟨result, svc', fs'⟩, hh, h1⟩ := bind_eq_ok.mp h
  refine ⟨result, svc', fs', hh, ?_⟩
  cases result with
  | stat stat =>
    obtain ⟨o, -, h2⟩ := bind_eq_ok.mp h1
    cases h2
    exact ⟨rfl, fun _ => rfl, (fun hq => nomatch hq), fun _ _ hd => nomatch hd⟩
  | data hdr data =>
    obtain ⟨o, ho, h2⟩ := bind_eq_ok.mp h1
    cases h2
    refine ⟨rfl, fun _ => rfl, (fun hq => nomatch hq), fun _ _ hd => ?_⟩
    cases hd
    exact ⟨o, ho, rfl⟩
  | «continue» =>
    refine ⟨?_, fun _ => continueSync_receiver h1, (fun hq => nomatch hq), fun _ _ hd => nomatch hd⟩
    rw [continueSync_os h1]
  | quit =>
    cases h1
    exact ⟨rfl, fun hq => absurd rfl hq, fun _ => rfl, fun _ _ hd => nomatch hd⟩

end

/-! ## What a step does to the pushes -/

namespace Sys

variable {s s' : Sys} {e : Event}

/-- The receiver that `f` reaches on stream `j`, the files it finds and the bytes
for it. -/
inductive Reached (s : Sys) (env : Env) (j : UInt32) : Fed → FileReceiver → Fs → Bytes → Prop where
  | more {r : FileReceiver} {bytes : Bytes} (hr : s.dev.receiver j = some r) :
      Reached s env j (.more bytes) r s.dev.os.fs bytes
  | begins {path : Path} {mode : UInt32} {file : File} {fs : Fs} {bytes : Bytes}
      (hr : s.dev.receiver j = none) (hc : s.dev.os.fs.create env path = .ok (file, fs)) :
      Reached s env j (.begins path bytes) ⟨file, path, mode, .header⟩ fs bytes

/-- What a step does to the files and the pushes in progress: nothing, or a
payload is received. -/
inductive PushStep (s : Sys) (e : Event) (s' : Sys) : Prop where
  | apart (feeding : s.feeding e = []) (files : s'.dev.os.fs = s.dev.os.fs)
      (pushes : ∀ i, s'.dev.receiver i = s.dev.receiver i)
  | fed {j : UInt32} {f : Fed} {r r' : FileReceiver} {fs : Fs} {bytes : Bytes}
      {res : FileReceiverResult} (feeding : s.feeding e = [(j, f)])
      (reached : s.Reached e.env j f r fs bytes)
      (received : r.receive e.env bytes fs = .ok (res, r', s'.dev.os.fs))
      (others : ∀ i, i ≠ j → s'.dev.receiver i = s.dev.receiver i)
      (goesOn : res = .continue → s'.dev.receiver j = some r')
      (ends : ∀ response, res = .done response → s'.dev.receiver j = none ∧
        ∃ h, h.command = .wrte ∧ h.arg0 = j ∧
          (h, response.1.asLeBytes ++ response.2) ∈ s'.dev.sent.drop s.dev.sent.length)

theorem reached_of_reaches {svc : SyncService} {st : Stream} {env : Env} {j : UInt32}
    {payload bytes : Bytes} {r : FileReceiver} {fs : Fs} (hst : s.dev.streams.get j = some st)
    (hsvc : st.service = .sync svc)
    (hr : svc.reaches env s.dev.os.fs payload = some (r, fs, bytes)) :
    ∃ f, svc.feeds env s.dev.os.fs payload = some f ∧ s.Reached env j f r fs bytes := by
  have hrec : s.dev.receiver j = svc.receiver := by
    unfold Dev.receiver
    rw [hst, Option.bind_some, hsvc]
    rfl
  refine ⟨_, by unfold SyncService.feeds; rw [hr]; rfl, ?_⟩
  unfold SyncService.reaches at hr
  split at hr
  · rename_i r0 hs
    have hself : svc.receiver = some r0 := by
      unfold SyncService.receiver
      rw [hs]
    rw [hself] at hrec ⊢
    cases hr
    exact .more hrec
  · rename_i hs
    rw [SyncService.receiver_none_iff.mpr hs] at hrec ⊢
    split at hr
    · split at hr
      · rename_i path mode leftover hp file fs1 hc
        cases hr
        exact .begins hrec hc
      · cases hr
    · cases hr

theorem receiver_congr (h : s'.dev.streams = s.dev.streams) (i : UInt32) :
    s'.dev.receiver i = s.dev.receiver i := by
  unfold Dev.receiver
  rw [h]

theorem receiver_put {d d' : Dev} {j : UInt32} {st : Option Stream}
    (h : d'.streams = d.streams.put j st) (hst : receiverOf st = d.receiver j) (i : UInt32) :
    d'.receiver i = d.receiver i := by
  unfold Dev.receiver at hst ⊢
  rw [h]
  by_cases hij : i = j
  · subst hij
    rw [StreamManager.get_put_self]
    exact hst
  · rw [StreamManager.get_put_ne hij]

/-- Only a WRTE for an open stream feeds a push, and no push but that stream's. -/
theorem feeding_wrte {x : UInt32 × Fed} (h : x ∈ s.feeding e) :
    (∃ payload, s.act e x.1 = .wrte payload) ∧ (s.dev.streams.get x.1).isSome := by
  unfold feeding at h
  split at h
  · rename_i env
    split at h
    · rename_i c a0 j dl dc m payload hi
      obtain ⟨f, hf, rfl⟩ := Option.map_eq_some_iff.mp (Option.mem_toList.mp h)
      obtain ⟨st, hst, -⟩ := Option.bind_eq_some_iff.mp hf
      refine ⟨⟨payload, ?_⟩, by rw [hst]; rfl⟩
      rw [act_message (ending_of_incoming hi) hi]
      simp only [Dev.actOf, if_true]
    · cases h
  · cases h

theorem feeding_message {env : Env} {h : AdbHeader} {payload : Bytes}
    (hi : s.incoming = some (h, some payload)) (hc : h.command = .wrte) : s.feeding (.handle env) =
      (((s.dev.streams.get h.arg1).bind (·.service.feeds env s.dev.os.fs payload)).map
        fun f => (h.arg1, f)).toList := by
  obtain ⟨c, a0, a1, dl, dc, m⟩ := h
  simp only at hc
  subst hc
  simp only [feeding, hi]

theorem receiver_of_none {d : Dev} {i : UInt32} (h : d.streams.get i = none) :
    d.receiver i = none := by
  unfold Dev.receiver
  rw [h]
  rfl

theorem receiver_of_some {d : Dev} {i : UInt32} {st : Stream} (h : d.streams.get i = some st) :
    d.receiver i = st.service.receiver := by
  unfold Dev.receiver
  rw [h]
  rfl

theorem effected_apart {d d' : Dev} {j : UInt32} {f : Stream → Except Panic Effect}
    (h : d.Effected j f d')
    (hf : ∀ st e, d.streams.get j = some st → f st = .ok e →
      e.os.fs = d.os.fs ∧ receiverOf e.stream = d.receiver j) :
    d'.os.fs = d.os.fs ∧ ∀ i, d'.receiver i = d.receiver i := by
  cases h with
  | gone hs hd =>
    refine ⟨by rw [hd.os], fun i => ?_⟩
    unfold Dev.receiver
    rw [hd.streams]
  | effect hs he hst hv hos hin hse =>
    obtain ⟨h1, h2⟩ := hf _ _ hs he
    exact ⟨by rw [hos, h1], receiver_put hst h2⟩

theorem pushStep_message {env : Env} {h : AdbHeader} {p : Option Bytes} (hown : s.OwnReads)
    (hclse : ∀ i r rid, s.dev.receiver i = some r → s.act (.handle env) i ≠ .clse rid)
    (hend : s.ending = none) (hi : s.incoming = some (h, p)) (hc : h.command ≠ .wrte)
    (hd : s.dev.Dispatched env h p s'.dev) : PushStep s (.handle env) s' := by
  have hfeed : s.feeding (.handle env) = [] := by
    obtain ⟨c, a0, a1, dl, dc, m⟩ := h
    simp only [feeding, hi]
    split
    · rename_i heq
      cases heq
      exact absurd rfl hc
    · rfl
  suffices hsuff : s'.dev.os.fs = s.dev.os.fs ∧ ∀ i, s'.dev.receiver i = s.dev.receiver i from
    .apart hfeed hsuff.1 hsuff.2
  cases hd with
  | ignored hc hd => exact ⟨by rw [hd.os], receiver_congr hd.streams⟩
  | cnxn hc hr hd => exact ⟨by rw [hd.os], receiver_congr hd.streams⟩
  | refused hc ho hd => exact ⟨by rw [hd.os], receiver_congr hd.streams⟩
  | wrte hw hp hd he => exact absurd hw hc
  | @opened svc os hopen ho hn hd =>
    obtain ⟨name, -, ho⟩ := Option.bind_eq_some_iff.mp ho
    refine ⟨by rw [hd.os]; exact openService_fs ho, fun i => ?_⟩
    have hst : s'.dev.streams = (StreamManager.mk s.dev.streams.streams (s.nextId + 1)).put s.nextId
        (some ⟨h.arg0, svc, false, false⟩) := hd.streams
    by_cases hij : i = s.nextId
    · subst hij
      have hnew : s'.dev.streams.get s.nextId = some ⟨h.arg0, svc, false, false⟩ := by
        rw [hst]
        exact StreamManager.get_put_self ..
      have hold : s.dev.streams.get s.nextId = none := (hown.unborn s.nextId (Nat.le_refl _)).1
      rw [receiver_of_none hold, receiver_of_some hnew]
      rcases StreamManager.openService_ok ho with ⟨rfl | rfl, -⟩ | ⟨target, -, rfl | rfl⟩
      · rfl
      · rfl
      · rfl
      · rfl
    · have hsame : s'.dev.streams.get i = s.dev.streams.get i := by
        rw [hst]
        exact StreamManager.get_put_ne hij ..
      unfold Dev.receiver
      rw [hsame]
  | okay hok he =>
    refine effected_apart he fun st e hst he => ⟨by rw [onOkay_os he], ?_⟩
    rw [onOkay_receiver he, receiver_of_some hst]
  | clse hcl he =>
    have hact : s.act (.handle env) h.arg1 = .clse h.arg0 := by
      rw [act_message hend hi]
      simp only [Dev.actOf, hcl, if_true]
    have hno : s.dev.receiver h.arg1 = none := by
      cases hr : s.dev.receiver h.arg1 with
      | none => rfl
      | some r => exact absurd hact (hclse _ r _ hr)
    refine effected_apart he fun st e hst he => ⟨onClse_fs he, ?_⟩
    rw [hno]
    rw [receiver_of_some hst] at hno
    rcases onClse_cases he with ⟨-, h1, -⟩ | ⟨-, h1, -⟩
    · rw [h1]
      exact hno
    · rw [h1]
      rfl

/-- A payload for a PTY or a socket, or for a sync stream outside a push. -/
theorem onWrte_apart {env : Env} {v : ProtocolVersion} {i : UInt32} {os : Os} {st : Stream}
    {ef : Effect} {payload : Bytes} (hf : st.service.feeds env os.fs payload = none)
    (h : onWrte env v i os st payload = .ok ef) :
    ef.os.fs = os.fs ∧ receiverOf ef.stream = st.service.receiver := by
  cases hs : st.service with
  | reboot =>
    unfold onWrte at h
    rw [hs] at h
    cases h
  | shell sh =>
    have hr : st.service.reader = some .ptyRead := by rw [hs]; rfl
    have hos : ef.os.fs = os.fs := by
      unfold onWrte at h
      rw [hs] at h
      cases h
      rw [written_os]
      exact shell_writeInput_fs sh payload
    refine ⟨hos, ?_⟩
    rcases onWrte_reader hr h with ⟨h1, -⟩ | ⟨-, h1, -⟩
    · rw [h1, ← hs]
      rfl
    · rw [h1]
      rfl
  | forward fwd =>
    have hr : st.service.reader = some .socketRead := by rw [hs]; rfl
    have hos : ef.os.fs = os.fs := by
      unfold onWrte at h
      rw [hs] at h
      cases h
      rw [written_os]
      exact writeLoop_fs fwd.socket 0 payload
    refine ⟨hos, ?_⟩
    rcases onWrte_reader hr h with ⟨h1, -⟩ | ⟨-, h1, -⟩
    · rw [h1, ← hs]
      rfl
    · rw [h1]
      rfl
  | sync svc =>
    unfold onWrte at h
    rw [hs] at h hf
    have hno : svc.reaches env os.fs payload = none := Option.map_eq_none_iff.mp hf
    have hidle : svc.receiver = none := by
      refine SyncService.receiver_none_iff.mpr fun r hst => ?_
      simp only [SyncService.reaches, hst] at hno
      cases hno
    obtain ⟨result, svc', fs', hh, hfs, hrec, hquit, -⟩ := onSync_receiver h
    obtain ⟨h1, h2⟩ := SyncService.handle_apart hno hh
    refine ⟨hfs.trans h1, ?_⟩
    show receiverOf ef.stream = svc.receiver
    rw [hidle]
    by_cases hq : result = .quit
    · rw [hquit hq]
      rfl
    · rw [hrec hq, h2]

theorem drop_append_mem {α : Type} {a b c : List α} {x : α} (hc : c = a ++ b) (hx : x ∈ b) :
    x ∈ c.drop a.length := by
  rw [hc, List.drop_left]
  exact hx

theorem pushStep_wrte {env : Env} {h : AdbHeader} {payload : Bytes} {d1 : Dev}
    (hi : s.incoming = some (h, some payload)) (hc : h.command = .wrte)
    (hd : s.dev.Sends (bareHeader .okay h.arg1 h.arg0, []) d1)
    (he : d1.Effected h.arg1 (fun st => onWrte env s.dev.version h.arg1 s.dev.os st payload) s'.dev) :
    PushStep s (.handle env) s' := by
  have hfeed : s.feeding (.handle env) = _ := feeding_message hi hc
  have hrecv : ∀ i, d1.receiver i = s.dev.receiver i := fun i => by
    unfold Dev.receiver
    rw [hd.streams]
  cases he with
  | gone hs hd1 =>
    rw [hd.streams] at hs
    refine .apart (by rw [hfeed, hs]; rfl) (by rw [hd1.os, hd.os]) fun i => ?_
    unfold Dev.receiver
    rw [hd1.streams, hd.streams]
  | @effect st ef hs he hst hv hos hin hse =>
    have hs0 : s.dev.streams.get h.arg1 = some st := by rw [← hd.streams]; exact hs
    rw [hs0, Option.bind_some] at hfeed
    by_cases hf : st.service.feeds env s.dev.os.fs payload = none
    · obtain ⟨h1, h2⟩ := onWrte_apart hf he
      rw [hf] at hfeed
      refine .apart hfeed (by rw [hos, h1]) fun i => ?_
      rw [receiver_put hst (by rw [h2, receiver_of_some hs]) i, hrecv]
    · cases hsvc : st.service with
      | reboot => exact absurd (by rw [hsvc]; rfl) hf
      | shell sh => exact absurd (by rw [hsvc]; rfl) hf
      | forward fwd => exact absurd (by rw [hsvc]; rfl) hf
      | sync svc =>
        rw [hsvc] at hfeed hf
        have hne : svc.reaches env s.dev.os.fs payload ≠ none := fun hno =>
          hf (Option.map_eq_none_iff.mpr hno)
        obtain ⟨⟨r, fs1, bytes⟩, hr⟩ := Option.ne_none_iff_exists'.mp hne
        obtain ⟨f, hfeeds, hreached⟩ := reached_of_reaches hs0 hsvc hr
        simp only [onWrte, hsvc] at he
        obtain ⟨result, svc', fs', hh, hfs, hrec, -, hdata⟩ := onSync_receiver he
        obtain ⟨res, r', hreceive, hafter⟩ := SyncService.handle_reaches hr hh
        have hself : s'.dev.receiver h.arg1 = receiverOf ef.stream := by
          unfold Dev.receiver
          rw [hst, StreamManager.get_put_self]
          rfl
        have hf1 : (Service.sync svc).feeds env s.dev.os.fs payload = some f := hfeeds
        have hreceive' : r.receive env bytes fs1 = .ok (res, r', s'.dev.os.fs) := by
          rw [hos, hfs]
          exact hreceive
        refine .fed (by rw [hfeed, hf1]; rfl) hreached hreceive' ?_ ?_ ?_
        · intro i hij
          unfold Dev.receiver
          rw [hst, StreamManager.get_put_ne hij, hd.streams]
        · rintro rfl
          obtain ⟨hres, hr'⟩ := hafter
          rw [hself, hrec (by rw [hres]; intro hq; cases hq), hr']
        · rintro response rfl
          obtain ⟨hres, hr'⟩ := hafter
          refine ⟨by rw [hself, hrec (by rw [hres]; intro hq; cases hq), hr'], ?_⟩
          obtain ⟨o, ho, houts⟩ := hdata _ _ hres
          obtain ⟨hw, rfl, hcmd, harg, -⟩ := wrteOut_ok ho
          refine ⟨hw, hcmd, harg, ?_⟩
          have hsent : s'.dev.sent = s.dev.sent ++ ([(bareHeader .okay h.arg1 h.arg0, [])] ++
              [(hw, response.1.asLeBytes ++ response.2)]) := by
            rw [hse, hd.sent, houts, List.append_assoc]
            rfl
          exact drop_append_mem hsent (List.mem_append_right _ List.mem_cons_self)

/-- **Inversion.** A step leaves files and pushes alone, or a payload is received
by a push. -/
theorem pushStep_of_ok (hown : s.OwnReads)
    (hclse : ∀ i r rid, s.dev.receiver i = some r → s.act e i ≠ .clse rid)
    (hs : s.step e = .ok s') : PushStep s e s' := by
  cases stepped_of_ok hs with
  | quiet ha hd =>
    refine .apart ?_ (by rw [hd.os]) (receiver_congr hd.streams)
    by_contra hne
    obtain ⟨x, hx⟩ := List.exists_mem_of_ne_nil _ hne
    obtain ⟨payload, hact⟩ := (feeding_wrte hx).1
    cases hact.symm.trans (ha x.1)
  | @filled k bytes place op j st _ ha hst hd =>
    refine .apart rfl (by rw [hd.os]; rfl) fun i => ?_
    refine receiver_put (j := j) hd.streams ?_ i
    rw [receiver_of_some hst]
    show (st.service.filled op bytes).receiver = _
    cases hsv : st.service with
    | sync svc => rfl
    | reboot => rfl
    | shell sh =>
      unfold Service.filled
      simp only
      split <;> rfl
    | forward fwd =>
      unfold Service.filled
      simp only
      split <;> rfl
  | @read env op j res _ hend hd =>
    have hact : s.act (.handle env) j = .read op res := by
      simp only [act, hend, if_true]
    have hfeed : s.feeding (.handle env) = [] := by
      by_contra hne
      obtain ⟨⟨i, f⟩, hx⟩ := List.exists_mem_of_ne_nil _ hne
      obtain ⟨payload, hw⟩ := (feeding_wrte hx).1
      by_cases hij : j = i
      · subst hij
        cases hact.symm.trans hw
      · simp only [act, hend, hij, if_false] at hw
        cases hw
    have hap := effected_apart hd fun st ef hst he => by
      have hr := hown.reader_of_act hact hst
      refine ⟨by rw [onRead_os he], ?_⟩
      rw [receiver_of_some hst, receiver_of_reader hr]
      rcases onRead_cases he with ⟨-, rfl⟩ | ⟨-, -, rfl⟩ | ⟨-, -, _, _, -, -, rfl⟩
      · rfl
      · exact receiver_of_reader hr
      · exact receiver_of_reader hr
    exact .apart hfeed hap.1 hap.2
  | message hend hi hd =>
    rename_i env h p
    by_cases hc : h.command = .wrte
    · cases hd with
      | wrte hw hp hsend heff =>
        rw [hp] at hi
        exact pushStep_wrte hi hw hsend heff
      | ignored hc' _ =>
        rcases hc' with h1 | h1
        · cases hc.symm.trans h1
        · cases hc.symm.trans h1
      | cnxn hc' _ _ => cases hc.symm.trans hc'
      | refused hc' _ _ => cases hc.symm.trans hc'
      | opened hc' _ _ _ => cases hc.symm.trans hc'
      | okay hc' _ => cases hc.symm.trans hc'
      | clse hc' _ => cases hc.symm.trans hc'
    · exact pushStep_message hown hclse hend hi hc hd

end Sys

/-! ## Files of pushes in progress -/

/-- Every inode an entry names has been given out. -/
def Fs.Wf (fs : Fs) : Prop := ∀ e ino, fs.dir e = some ino → ino < fs.nextIno

theorem Fs.Touched.wf {ino : Nat} {fs fs' : Fs} (h : Fs.Touched ino fs fs') (hwf : fs.Wf) : fs'.Wf := by
  intro path n hn
  rw [h.dir] at hn
  rw [h.nextIno]
  exact hwf path n hn

theorem Fs.Wf.unlink {fs : Fs} (h : fs.Wf) (path : Path) : (fs.setName path none).Wf := by
  intro q n hn
  simp only [Fs.setName, Function.update_apply] at hn
  split at hn
  · cases hn
  · exact h q n hn

/-- The file system after `File::create`. -/
structure Fs.Created (fs : Fs) (path : Path) (file : File) (fs' : Fs) : Prop where
  moved : file.moved = []
  content : (fs'.inodes file.ino).content = []
  entry : fs'.entry = fs.entry
  named : fs'.names path = some file.ino
  dir : ∀ q, q ≠ fs.entry path → fs'.dir q = fs.dir q
  inodes : ∀ n, n ≠ file.ino → fs'.inodes n = fs.inodes n
  ino : fs.names path = some file.ino ∨ file.ino = fs.nextIno
  wf : fs.Wf → fs'.Wf

theorem Fs.Created.names {fs fs' : Fs} {path q : Path} {file : File} (h : fs.Created path file fs')
    (hq : fs.entry q ≠ fs.entry path) : fs'.names q = fs.names q := by
  rw [Fs.names, h.entry]
  exact h.dir _ hq

theorem Fs.created_of_ok {env : Env} {fs fs' : Fs} {path : Path} {file : File}
    (h : fs.create env path = .ok (file, fs')) : fs.Created path file fs' := by
  unfold Fs.create at h
  split at h
  · cases h
  · split at h
    · rename_i i hn
      cases h
      have ht := fs.touched_setInode i { fs.inodes i with content := [] }
      exact ⟨rfl, by simp, rfl, hn, fun _ _ => rfl, ht.others, .inl hn, ht.wf⟩
    · rename_i hn
      cases h
      have ht := fs.touched_setInode fs.nextIno ⟨[], 0o100644, 0⟩
      refine ⟨rfl, by simp, rfl, Function.update_self .., fun q hq => Function.update_of_ne hq ..,
        ht.others, .inr rfl, fun hwf q n hq => ?_⟩
      have hq : Function.update fs.dir (fs.entry path) (some fs.nextIno) q = some n := hq
      show n < fs.nextIno + 1
      rw [Function.update_apply] at hq
      split at hq
      · cases hq
        exact Nat.lt_succ_self _
      · have := hwf q n hq
        omega

namespace FileReceiver

variable {r r' q : FileReceiver} {fs fs' : Fs} {fed : Bytes} {res : FileReceiverResult}

theorem Intact.congr {fs1 : Fs} (h : r.Intact fs fed) (hn : fs1.names r.path = fs.names r.path)
    (hi : fs1.inodes r.file.ino = fs.inodes r.file.ino) : r.Intact fs1 fed :=
  ⟨hn.trans h.named, by unfold AtEnd; rw [hi]; exact h.atEnd, h.wf, h.run⟩

theorem Intact.created {path : Path} {file : File} (h : fs.Created path file fs') (mode : UInt32) :
    Intact ⟨file, path, mode, .header⟩ fs' [] :=
  ⟨h.named, h.moved.trans h.content.symm, trivial, by rw [Mealy.run_nil, h.moved]; rfl⟩

/-- What becomes of one push leaves the file of another alone. -/
theorem Fate.frame {sent : Bytes} (h : Fate r fs fed res r' fs')
    (hn : fs.names r.path = some r.file.ino) (hq : q.Intact fs sent)
    (hne : q.file.ino ≠ r.file.ino) : q.Intact fs' sent := by
  cases h with
  | goesOn _ _ ht _ => exact hq.congr (by rw [ht.names]) (ht.others _ hne)
  | stored ht _ => exact hq.congr (by rw [ht.names]) (ht.others _ hne)
  | @removed response r' fs1 ht =>
    have hentry : fs.entry q.path ≠ fs.entry r.path := Fs.entry_ne_of_names fun he => by
      rw [hq.named, hn] at he
      exact hne (Option.some.inj he)
    refine hq.congr ?_ (ht.others _ hne)
    rw [Fs.setName_names, ht.entry, if_neg hentry, ht.names]

theorem Fate.wf (h : Fate r fs fed res r' fs') (hwf : fs.Wf) : fs'.Wf := by
  cases h with
  | goesOn _ _ ht _ => exact ht.wf hwf
  | stored ht _ => exact ht.wf hwf
  | removed ht => exact (ht.wf hwf).unlink r.path

end FileReceiver

/-! ## Runs -/

/-- A failed push can remove its file. -/
def RemovesFiles (e : Event) : Prop := e.env.fail .removeFile = none

/-- A push in progress is left alone: its stream is not closed, and no other SEND
opens its file. -/
def SparesPushes (s : Sys) (e : Event) : Prop :=
  ∀ i r, s.dev.receiver i = some r →
    (∀ rid, s.act e i ≠ .clse rid) ∧
      ∀ j path bytes, (j, Fed.begins path bytes) ∈ s.feeding e →
        s.dev.os.fs.names path ≠ some r.file.ino

namespace Sys

variable {s s' : Sys} {e : Event} {hist : List (UInt32 × Fed)}

/-- Every push in progress has its file to itself, with what was sent for it. -/
structure Pushing (s : Sys) (hist : List (UInt32 × Fed)) : Prop where
  wf : s.dev.os.fs.Wf
  intact : ∀ i r, s.dev.receiver i = some r →
    ∃ fed, lastPush i hist = some (r.path, fed) ∧ r.Intact s.dev.os.fs fed
  apart : ∀ i j r q, i ≠ j → s.dev.receiver i = some r → s.dev.receiver j = some q →
    r.file.ino ≠ q.file.ino

/-- The receiver that is reached has its file to itself. -/
theorem Pushing.reached {env : Env} {j : UInt32} {f : Fed} {r : FileReceiver} {fs : Fs} {bytes : Bytes}
    (h : s.Pushing hist)
    (hsp : ∀ i q path bs, s.dev.receiver i = some q → f = .begins path bs →
      s.dev.os.fs.names path ≠ some q.file.ino)
    (hr : s.Reached env j f r fs bytes) :
    fs.Wf ∧ (∃ sofar, r.Intact fs sofar ∧
      lastPush j (hist ++ [(j, f)]) = some (r.path, sofar ++ bytes)) ∧
      ∀ i q, i ≠ j → s.dev.receiver i = some q → q.file.ino ≠ r.file.ino ∧
        ∀ sent, q.Intact s.dev.os.fs sent → q.Intact fs sent := by
  rw [lastPush_append_self]
  cases hr with
  | more hrec =>
    obtain ⟨fed, hlast, hint⟩ := h.intact j r hrec
    refine ⟨h.wf, ⟨fed, hint, by rw [hlast]; rfl⟩, fun i q hij hq => ?_⟩
    exact ⟨h.apart i j q r hij hq hrec, fun _ hsent => hsent⟩
  | @begins path mode file fs bytes hrec hc =>
    have hcr := Fs.created_of_ok hc
    refine ⟨hcr.wf h.wf, ⟨[], .created hcr mode, rfl⟩, fun i q hij hq => ?_⟩
    obtain ⟨fed, -, hint⟩ := h.intact i q hq
    have hname := hsp i q path bytes hq rfl
    have hne : q.file.ino ≠ file.ino := by
      rcases hcr.ino with h1 | h1
      · exact fun he => hname (by rw [h1, he])
      · have := h.wf _ _ hint.named
        omega
    refine ⟨hne, fun sent hsent => hsent.congr (hcr.names ?_) (hcr.inodes _ hne)⟩
    refine Fs.entry_ne_of_names fun he => hname ?_
    rw [← he, hsent.named]

theorem Pushing.fate {j : UInt32} {f : Fed} {r r' : FileReceiver} {fs : Fs} {bytes : Bytes}
    {res : FileReceiverResult} (h : s.Pushing hist) (hrm : RemovesFiles e) (hsp : SparesPushes s e)
    (hfeed : s.feeding e = [(j, f)]) (hr : s.Reached e.env j f r fs bytes)
    (hrec : r.receive e.env bytes fs = .ok (res, r', s'.dev.os.fs)) :
    ∃ fed, lastPush j (hist ++ s.feeding e) = some (r.path, fed) ∧
      r.Fate fs fed res r' s'.dev.os.fs ∧ s'.dev.os.fs.Wf ∧ fs.names r.path = some r.file.ino ∧
      ∀ i q, i ≠ j → s.dev.receiver i = some q → q.file.ino ≠ r.file.ino ∧
        ∀ sent, q.Intact s.dev.os.fs sent → q.Intact s'.dev.os.fs sent := by
  have hbegin : ∀ i q path bs, s.dev.receiver i = some q → f = .begins path bs →
      s.dev.os.fs.names path ≠ some q.file.ino := by
    rintro i q path bs hq rfl
    exact (hsp i q hq).2 j path bs (by rw [hfeed]; exact List.mem_cons_self)
  obtain ⟨hwf, ⟨sofar, hint, hlast⟩, hothers⟩ := h.reached hbegin hr
  have hfate := FileReceiver.receive_fate hint hrm hrec
  refine ⟨sofar ++ bytes, by rw [hfeed, hlast], hfate, hfate.wf hwf, hint.named, fun i q hij hq => ?_⟩
  obtain ⟨hne, hkeep⟩ := hothers i q hij hq
  exact ⟨hne, fun sent hsent => hfate.frame hint.named (hkeep sent hsent) hne⟩

/-- **A step keeps every push in progress intact.** -/
theorem Pushing.step (h : s.Pushing hist) (hown : s.OwnReads) (hrm : RemovesFiles e)
    (hsp : SparesPushes s e) (hs : s.step e = .ok s') : s'.Pushing (hist ++ s.feeding e) := by
  cases pushStep_of_ok hown (fun i r rid hr => (hsp i r hr).1 rid) hs with
  | apart hfeed hfs hpush =>
    rw [hfeed, List.append_nil]
    refine ⟨by rw [hfs]; exact h.wf, fun i r hr => ?_, fun i j r q hij hr hq => ?_⟩
    · rw [hpush] at hr
      rw [hfs]
      exact h.intact i r hr
    · rw [hpush] at hr hq
      exact h.apart i j r q hij hr hq
  | @fed j f r r' fs bytes res hfeed hreached hrec hothers hgoes hends =>
    obtain ⟨fed, hlast, hfate, hwf, -, hkeep⟩ := h.fate hrm hsp hfeed hreached hrec
    have hself : ∀ q, s'.dev.receiver j = some q → q = r' ∧ res = .continue := by
      intro q hq
      cases res with
      | «continue» =>
        cases (hgoes rfl).symm.trans hq
        exact ⟨rfl, rfl⟩
      | done response => cases (hends response rfl).1.symm.trans hq
    have hino : res = .continue → r'.file.ino = r.file.ino ∧ r'.path = r.path ∧
        r'.Intact s'.dev.os.fs fed := by
      rintro rfl
      cases hfate with
      | goesOn hp hi ht hint => exact ⟨hi, hp, hint⟩
    refine ⟨hwf, fun i q hq => ?_, fun i k p q hik hp hq => ?_⟩
    · by_cases hij : i = j
      · subst hij
        obtain ⟨rfl, hres⟩ := hself q hq
        obtain ⟨-, hpath, hint⟩ := hino hres
        exact ⟨fed, by rw [hlast, hpath], hint⟩
      · rw [hothers i hij] at hq
        obtain ⟨sent, hl, hint⟩ := h.intact i q hq
        refine ⟨sent, ?_, (hkeep i q hij hq).2 sent hint⟩
        rw [hfeed, lastPush_append_ne (Ne.symm hij)]
        exact hl
    · by_cases hij : i = j
      · subst hij
        obtain ⟨rfl, hres⟩ := hself p hp
        rw [hothers k (Ne.symm hik)] at hq
        rw [(hino hres).1]
        exact ((hkeep k q (Ne.symm hik) hq).1).symm
      · rw [hothers i hij] at hp
        by_cases hkj : k = j
        · subst hkj
          obtain ⟨rfl, hres⟩ := hself q hq
          rw [(hino hres).1]
          exact (hkeep i p hij hp).1
        · rw [hothers k hkj] at hq
          exact h.apart i k p q hik hp hq

theorem Pushing.start (info : DeviceInfo) {os : Os} (h : os.fs.Wf) :
    (Sys.start info os).Pushing [] where
  wf := h
  intact _ _ hr := by cases hr
  apart _ _ _ _ _ hr := by cases hr

theorem pushing_of_reach {info : DeviceInfo} {os : Os} (hwf : os.fs.Wf)
    (h : Reach (observed Sys.step feeding) (fun p e => RemovesFiles e ∧ SparesPushes p.1 e)
      (start info os, []) (s, hist)) : s.Pushing hist ∧ s.OwnReads := by
  refine h.invariant (I := fun p => p.1.Pushing p.2 ∧ p.1.OwnReads)
    ⟨Pushing.start info hwf, OwnReads.start info os⟩ fun p e q hi hok hs => ?_
  obtain ⟨hstep, hhist⟩ := observed_ok hs
  rw [hhist]
  exact ⟨hi.1.step hi.2 hok.1 hok.2 hstep, hi.2.step hstep⟩

/-- The bytes of the file at a path. -/
def contentAt (s : Sys) (path : Path) : Option Bytes := (s.dev.os.fs.lookup path).map Inode.content

/-- A step ended the push of `path` on stream `i`, for which the host sent `fed`:
it was answered OKAY and the file holds the DATA bytes, or the file is gone. -/
def PushSettled (s s' : Sys) (i : UInt32) (path : Path) (fed : Bytes) : Prop :=
  ((∃ h : AdbHeader, h.command = .wrte ∧ h.arg0 = i ∧
      (h, okayResponse.1.asLeBytes ++ okayResponse.2) ∈ s'.dev.sent.drop s.dev.sent.length) ∧
    s'.contentAt path = some (decode fed).1) ∨ s'.dev.os.fs.names path = none

end Sys

/-- **No partial file survives an unsuccessful push.** In every run in which no
stream is closed while a push is in progress on it and no SEND opens the file of
another push in progress, a push that ends leaves its file complete behind an
OKAY, or no file. -/
theorem no_partial_file {info : DeviceInfo} {os : Os} {s s' : Sys} {hist : List (UInt32 × Fed)}
    {e : Event} {i : UInt32} (hwf : os.fs.Wf)
    (hreach : Reach (observed Sys.step Sys.feeding)
      (fun p e => RemovesFiles e ∧ SparesPushes p.1 e) (Sys.start info os, []) (s, hist))
    (hok : RemovesFiles e ∧ SparesPushes s e) (hs : s.step e = .ok s')
    (hpush : (s.dev.receiver i).isSome ∨ ∃ path bytes, (i, Fed.begins path bytes) ∈ s.feeding e)
    (hend : s'.dev.receiver i = none) :
    ∃ path fed, lastPush i (hist ++ s.feeding e) = some (path, fed) ∧ s.PushSettled s' i path fed := by
  obtain ⟨hp, hown⟩ := Sys.pushing_of_reach hwf hreach
  obtain ⟨hrm, hsp⟩ := hok
  cases Sys.pushStep_of_ok hown (fun i r rid hr => (hsp i r hr).1 rid) hs with
  | apart hfeed hfs hsame =>
    rw [← hsame, hend, hfeed] at hpush
    rcases hpush with h1 | ⟨path, bytes, h1⟩
    · cases h1
    · cases h1
  | @fed j f r r' fs bytes res hfeed hreached hrec hothers hgoes hends =>
    have hij : i = j := by
      by_contra hne
      rw [← hothers i hne, hend, hfeed] at hpush
      rcases hpush with h1 | ⟨path, bytes, h1⟩
      · cases h1
      · exact hne (congrArg Prod.fst (List.mem_singleton.mp h1))
    subst hij
    obtain ⟨fed, hlast, hfate, -, hnamed, -⟩ := hp.fate hrm hsp hfeed hreached hrec
    refine ⟨r.path, fed, hlast, ?_⟩
    generalize hfs' : s'.dev.os.fs = fs' at hfate
    cases hfate with
    | goesOn hpath hino ht hint => cases (hgoes rfl).symm.trans hend
    | stored ht hcontent =>
      refine .inl ⟨(hends _ rfl).2, ?_⟩
      unfold Sys.contentAt Fs.lookup
      rw [hfs', ht.names, hnamed]
      exact congrArg some hcontent
    | removed ht =>
      refine .inr ?_
      rw [hfs']
      exact Function.update_self ..

/-! ## Runs with a push -/

def sparesPushes (s : Sys) (e : Event) : Bool :=
  (e.env.fail .removeFile).isNone &&
    (match e, s.incoming with
      | .handle _, some (h, _) => h.command != .clse || (s.dev.receiver h.arg1).isNone
      | _, _ => true) &&
    (s.feeding e).all fun x => match x.2 with
      | .begins path _ => (s.dev.os.fs.names path).isNone
      | .more _ => true

theorem SparesPushes.of_sparesPushes {s : Sys} {e : Event} (h : sparesPushes s e = true) :
    RemovesFiles e ∧ SparesPushes s e := by
  simp only [sparesPushes, Bool.and_eq_true, Option.isNone_iff_eq_none, List.all_eq_true] at h
  obtain ⟨⟨hrm, hclse⟩, hfeed⟩ := h
  refine ⟨hrm, fun i r hr => ⟨fun rid ha => ?_, fun j path bytes hmem => ?_⟩⟩
  · obtain ⟨env, hd, p, rfl, hi, hact⟩ := Sys.act_fromHost (by rw [ha]; rfl)
    obtain ⟨hcmd, rfl, -⟩ := Dev.actOf_clse (hact.symm.trans ha)
    simp [hi, hcmd, hr] at hclse
  · have hn := hfeed _ hmem
    simp only [Option.isNone_iff_eq_none] at hn
    rw [hn]
    exact fun he => nomatch he

/-- A push of two bytes in one payload. -/
def wholePush : Bytes := SendRequest.sample.encode ++ dataFrame (ascii "hi") ++ doneFrame 7

theorem no_partial_file_whole_push : ∃ s s' hist path fed,
    Reach (observed Sys.step Sys.feeding) (fun p e => RemovesFiles e ∧ SparesPushes p.1 e)
        (Sys.fresh, []) (s, hist) ∧
      s.step (.handle {}) = .ok s' ∧ lastPush 1 (hist ++ s.feeding (.handle {})) = some (path, fed) ∧
      s.PushSettled s' 1 path fed := by
  have hrun : (Sys.fresh.poised sparesPushes
      (Sys.openSync ++ (Sys.Turn.message .wrte 7 1 wholePush).dropLast) (.payload wholePush)).bind
        (fun s => (s.step (.handle {})).toOption.map fun s' =>
          (sparesPushes s (.handle {}), s.feeding (.handle {}), s'.dev.receiver 1)) =
      some (true, [(1, .begins SendRequest.sample.path (dataFrame (ascii "hi") ++ doneFrame 7))],
        none) := by
    decide +kernel
  obtain ⟨s, hs, hs'⟩ := Option.bind_eq_some_iff.mp hrun
  obtain ⟨s', hstep, he⟩ := Option.map_eq_some_iff.mp hs'
  simp only [Prod.mk.injEq] at he
  obtain ⟨hok, hfeed, hend⟩ := he
  have hstep : s.step (.handle {}) = .ok s' := ok_of_toOption hstep
  have hreach := Sys.reach_of_poised (fun _ _ => SparesPushes.of_sparesPushes) hs
  have hhist : ∃ hist, Reach (observed Sys.step Sys.feeding)
      (fun p e => RemovesFiles e ∧ SparesPushes p.1 e) (Sys.fresh, []) (s, hist) := hreach.observe
  obtain ⟨hist, hobs⟩ := hhist
  have hwf : Fs.empty.Wf := fun path ino hn => nomatch hn
  obtain ⟨path, fed, hlast, hset⟩ := no_partial_file hwf hobs (SparesPushes.of_sparesPushes hok) hstep
    (i := 1) (.inr ⟨_, _, by rw [hfeed]; exact List.mem_cons_self⟩) hend
  exact ⟨s, s', hist, path, fed, hobs, hstep, hlast, hset⟩

/-- A push that stops in the middle of its first frame. -/
def halfPush : Bytes := SendRequest.sample.encode ++ (dataFrame (ascii "hi")).take 9

/-- The host sends half a push and closes the stream. -/
def Sys.closedPush : List Sys.Turn := Sys.openSync ++ Sys.Turn.message .wrte 7 1 halfPush

/-- Two streams push to one path; the second has only sent its SEND when the
first is done. -/
def Sys.twoPushes : List Sys.Turn :=
  Sys.openSync ++ Sys.Turn.message .open 8 0 (ascii "sync:" ++ [0]) ++
    Sys.Turn.message .wrte 7 1 (SendRequest.sample.encode ++ dataFrame (ascii "hi")) ++
    Sys.Turn.message .wrte 8 2 SendRequest.sample.encode ++
    (Sys.Turn.message .wrte 7 1 (doneFrame 7)).dropLast

/-- The push on stream 1, for which the host has sent `fed`, ends unsettled when
the last completion is handled. -/
def Sys.EndsUnsettled (turns : List Sys.Turn) (last : Sys.Turn) (fed : Bytes) : Prop :=
  ∃ s s' r, Reach Sys.step (fun _ e => RemovesFiles e) Sys.fresh s ∧
    Sys.fresh.poised (fun _ e => (e.env.fail .removeFile).isNone) turns last = some s ∧
    s.step (.handle {}) = .ok s' ∧ s.dev.receiver 1 = some r ∧ s'.dev.receiver 1 = none ∧
    ¬ s.PushSettled s' 1 r.path fed

/-- The file is there; no WRTE was sent, or the file has other bytes. -/
def Sys.unsettled (s s' : Sys) (path : Path) (fed : Bytes) : Bool :=
  (s'.dev.os.fs.names path).isSome &&
    ((s'.dev.sent.drop s.dev.sent.length).all (·.1.command != .wrte) ||
      s'.contentAt path != some (decode fed).1)

theorem Sys.not_settled {s s' : Sys} {i : UInt32} {path : Path} {fed : Bytes}
    (h : s.unsettled s' path fed = true) : ¬ s.PushSettled s' i path fed := by
  simp only [unsettled, Bool.and_eq_true, Bool.or_eq_true, List.all_eq_true, bne_iff_ne] at h
  obtain ⟨hname, hsent⟩ := h
  rintro (⟨⟨h, hcmd, -, hmem⟩, hcontent⟩ | hnone)
  · rcases hsent with hno | hno
    · exact hno _ hmem hcmd
    · exact hno hcontent
  · rw [hnone] at hname
    cases hname

theorem Sys.EndsUnsettled.of_poised {turns : List Sys.Turn} {last : Sys.Turn} {fed : Bytes}
    (h : ((Sys.fresh.poised (fun _ e => (e.env.fail .removeFile).isNone) turns last).bind fun s =>
      (s.step (.handle {})).toOption.bind fun s' => (s.dev.receiver 1).map fun r =>
        (s'.dev.receiver 1, s.unsettled s' r.path fed)) = some (none, true)) :
    Sys.EndsUnsettled turns last fed := by
  obtain ⟨s, hs, h1⟩ := Option.bind_eq_some_iff.mp h
  obtain ⟨s', hstep, h2⟩ := Option.bind_eq_some_iff.mp h1
  obtain ⟨r, hr, h3⟩ := Option.map_eq_some_iff.mp h2
  simp only [Prod.mk.injEq] at h3
  refine ⟨s, s', r, Sys.reach_of_poised (fun t e he => ?_) hs, hs, ok_of_toOption hstep, hr, h3.1,
    Sys.not_settled h3.2⟩
  exact Option.isNone_iff_eq_none.mp he

/-- A CLSE in the middle of a push leaves the partial file, and a push that shares
its file ends with an OKAY for a file that was emptied. -/
theorem partial_file_left :
    Sys.EndsUnsettled Sys.closedPush (.header (bareHeader .clse 7 1).asLeBytes)
        ((dataFrame (ascii "hi")).take 9) ∧
      Sys.EndsUnsettled Sys.twoPushes (.payload (doneFrame 7))
        (dataFrame (ascii "hi") ++ doneFrame 7) :=
  ⟨.of_poised (by decide +kernel), .of_poised (by decide +kernel)⟩

end Adibi
