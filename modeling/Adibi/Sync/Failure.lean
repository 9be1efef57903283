import Adibi.Sync.Push

/-!
# Pushes that fail on the device

A host streams a whole push without waiting for an answer. When the device
fails inside one of the payloads it answers FAIL and is idle again at once:
the rest of that payload is dropped, but every later payload of the push is
parsed as a request. So the failure is contained exactly when the payload it
strikes is the push's last.
-/

namespace Adibi

open Lib

/-- A push cut into payloads, the first of which holds the SEND request. -/
structure CutPush where
  req : SendRequest
  body : PushBody
  env : Env
  /-- What the first payload holds after the request. -/
  first : Bytes
  rest : List (Env × Bytes)
  cut : first ++ (rest.map Prod.snd).flatten = body.encode

def CutPush.payloads (p : CutPush) : List (Env × Bytes) := (p.env, p.req.encode ++ p.first) :: p.rest

/-- One payload handled: whether it was parsed as a request, and the result. -/
structure Handled where
  asRequest : Bool
  result : SyncResult
  deriving DecidableEq, Repr

def Handled.isFail (h : Handled) : Bool :=
  match h.result with
  | .data hdr _ => hdr.id == .fail
  | _ => false

namespace SyncService

/-- `handle` parses a payload as a request unless a push is in progress. -/
def parsesRequest (s : SyncService) : Bool :=
  match s.state with
  | .receiving _ => false
  | _ => true

/-- Every payload handled in turn, with a record of each. -/
def handleAll (s : SyncService) (fs : Fs) :
    List (Env × Bytes) → Except Panic (List Handled × SyncService × Fs)
  | [] => .ok ([], s, fs)
  | (env, payload) :: rest => do
    let (result, s', fs) ← s.handle env fs payload
    let (log, s'', fs) ← s'.handleAll fs rest
    pure (⟨s.parsesRequest, result⟩ :: log, s'', fs)

end SyncService

/-- The push leaves no trace but its one FAIL: nothing after the SEND request
was parsed as a request, one FAIL and no other answer came, and the service is
idle for the next request. -/
def CutPush.Contained (p : CutPush) (fs : Fs) : Prop :=
  ∃ log s' fs', SyncService.new.handleAll fs p.payloads = .ok (log, s', fs') ∧
    (∀ h ∈ log.tail, h.asRequest = false) ∧ log.countP Handled.isFail = 1 ∧
    (∀ h ∈ log, h.isFail = true ∨ h.result = .continue) ∧ s'.state = .idle

namespace SyncService

theorem handleAll_cons {s : SyncService} {fs fs' : Fs} {x : Env × Bytes} {rest : List (Env × Bytes)}
    {log : List Handled} {s' : SyncService} :
    s.handleAll fs (x :: rest) = .ok (log, s', fs') ↔
      ∃ result s1 fs1 log', s.handle x.1 fs x.2 = .ok (result, s1, fs1) ∧
        s1.handleAll fs1 rest = .ok (log', s', fs') ∧ log = ⟨s.parsesRequest, result⟩ :: log' := by
  simp only [handleAll, bind_eq_ok]
  constructor
  · rintro ⟨⟨result, s1, fs1⟩, h1, ⟨log', s2, fs2⟩, h2, h3⟩
    cases h3
    exact ⟨result, s1, fs1, log', h1, h2, rfl⟩
  · rintro ⟨result, s1, fs1, log', h1, h2, rfl⟩
    exact ⟨_, h1, _, h2, rfl⟩

/-- A payload of a push in progress: more is expected, or the push is over. -/
theorem handle_receiving {r : FileReceiver} {env : Env} {fs fs' : Fs} {payload : Bytes}
    {result : SyncResult} {s' : SyncService}
    (h : (⟨.receiving r⟩ : SyncService).handle env fs payload = .ok (result, s', fs')) :
    (result = .continue ∧ ∃ r', s' = ⟨.receiving r'⟩) ∨
      (∃ hdr data, result = .data hdr data) ∧ s' = ⟨.idle⟩ := by
  obtain ⟨⟨res, r', fs1⟩, -, h2⟩ := bind_eq_ok.mp h
  cases res with
  | «continue» => cases h2; exact .inl ⟨rfl, r', rfl⟩
  | done response => cases h2; exact .inr ⟨⟨_, _, rfl⟩, rfl⟩

theorem handle_first {req : SendRequest} {env : Env} {fs fs' : Fs} {t : Bytes}
    {result : SyncResult} {s' : SyncService}
    (h : SyncService.new.handle env fs (req.encode ++ t) = .ok (result, s', fs')) :
    (result = .continue ∧ ∃ r', s' = ⟨.receiving r'⟩) ∨
      (∃ hdr data, result = .data hdr data) ∧ s' = ⟨.idle⟩ := by
  cases hc : fs.create env req.path with
  | ok x =>
    rw [handle_send hc] at h
    exact handle_receiving h
  | error e =>
    simp only [handle, new, handleRequest, parseSyncPacket_send, handleSendV1, hc] at h
    obtain ⟨res, h1, h2⟩ := bind_eq_ok.mp h
    obtain ⟨⟨hdr, data⟩, -, h3⟩ := bind_eq_ok.mp h1
    cases h3
    cases h2
    exact .inr ⟨⟨_, _, rfl⟩, rfl⟩

/-- Payloads of a push in progress that draw no answer: the push goes on, and
none of them is parsed as a request. -/
theorem handleAll_silent {pre : List (Env × Bytes)} {r : FileReceiver} {fs fs1 : Fs}
    {s1 : SyncService} (h : (⟨.receiving r⟩ : SyncService).feed fs pre = .ok (none, s1, fs1)) :
    (∃ r1, s1 = ⟨.receiving r1⟩) ∧ ∀ tail log s' fs',
      (⟨.receiving r⟩ : SyncService).handleAll fs (pre ++ tail) = .ok (log, s', fs') ↔
        ∃ log', s1.handleAll fs1 tail = .ok (log', s', fs') ∧
          log = List.replicate pre.length ⟨false, .continue⟩ ++ log' := by
  induction pre generalizing r fs with
  | nil =>
    cases h
    exact ⟨⟨r, rfl⟩, fun tail log s' fs' => by simp⟩
  | cons x pre ih =>
    obtain ⟨env, payload⟩ := x
    obtain ⟨⟨result, s2, fs2⟩, h1, h2⟩ := bind_eq_ok.mp h
    rcases handle_receiving h1 with ⟨rfl, r2, rfl⟩ | ⟨⟨hdr, data, rfl⟩, rfl⟩
    · obtain ⟨hex, hall⟩ := ih h2
      refine ⟨hex, fun tail log s' fs' => ?_⟩
      rw [List.cons_append, handleAll_cons]
      constructor
      · rintro ⟨result, s3, fs3, log1, h3, h4, rfl⟩
        rw [h1] at h3
        cases h3
        obtain ⟨log2, h5, rfl⟩ := (hall tail log1 s' fs').mp h4
        exact ⟨log2, h5, rfl⟩
      · rintro ⟨log2, h5, rfl⟩
        exact ⟨_, _, _, _, h1, (hall tail _ s' fs').mpr ⟨log2, h5, rfl⟩, rfl⟩
    · cases h2

theorem handleAll_idle_cons {fs fs' : Fs} {y : Env × Bytes} {post : List (Env × Bytes)}
    {log : List Handled} {s' : SyncService}
    (h : (⟨.idle⟩ : SyncService).handleAll fs (y :: post) = .ok (log, s', fs')) :
    ∃ h ∈ log, h.asRequest = true := by
  obtain ⟨result, s1, fs1, log', -, -, rfl⟩ := handleAll_cons.mp h
  exact ⟨_, List.mem_cons_self, rfl⟩

end SyncService

/-- The records of a push that fails in payload `x`: silent payloads, the FAIL,
and then what the idle service made of the rest. -/
theorem CutPush.records (p : CutPush) {fs fs1 fs2 : Fs} {pre post : List (Env × Bytes)}
    {x : Env × Bytes} {s1 s2 : SyncService} {hdr : SyncFrameResponseHeader} {data : Bytes}
    (hsplit : p.payloads = pre ++ x :: post)
    (hpre : SyncService.new.feed fs pre = .ok (none, s1, fs1))
    (hx : s1.handle x.1 fs1 x.2 = .ok (.data hdr data, s2, fs2)) :
    ∃ before, (∀ h ∈ before, h.result = .continue) ∧
      (∀ h ∈ (before ++ [⟨before.isEmpty, .data hdr data⟩]).tail, h.asRequest = false) ∧
      ∀ log s' fs', SyncService.new.handleAll fs p.payloads = .ok (log, s', fs') ↔
        ∃ log', (⟨.idle⟩ : SyncService).handleAll fs2 post = .ok (log', s', fs') ∧
          log = before ++ ⟨before.isEmpty, .data hdr data⟩ :: log' := by
  rw [hsplit]
  cases pre with
  | nil =>
    cases hpre
    obtain rfl : (p.env, p.req.encode ++ p.first) = x := (List.cons.inj hsplit).1
    rcases SyncService.handle_first hx with ⟨hc, -⟩ | ⟨-, rfl⟩
    · cases hc
    refine ⟨[], by simp, by simp, fun log s' fs' => ?_⟩
    rw [List.nil_append, SyncService.handleAll_cons]
    constructor
    · rintro ⟨result, s3, fs3, log1, h3, h4, rfl⟩
      rw [hx] at h3
      cases h3
      exact ⟨log1, h4, rfl⟩
    · rintro ⟨log1, h4, rfl⟩
      exact ⟨_, _, _, _, hx, h4, rfl⟩
  | cons y pre =>
    obtain rfl : (p.env, p.req.encode ++ p.first) = y := (List.cons.inj hsplit).1
    obtain ⟨⟨result, s3, fs3⟩, h1, h2⟩ := bind_eq_ok.mp hpre
    rcases SyncService.handle_first h1 with ⟨rfl, r3, rfl⟩ | ⟨⟨_, _, rfl⟩, -⟩
    swap
    · cases h2
    obtain ⟨⟨r1, rfl⟩, hall⟩ := SyncService.handleAll_silent h2
    rcases SyncService.handle_receiving hx with ⟨hc, -⟩ | ⟨-, rfl⟩
    · cases hc
    refine ⟨⟨true, .continue⟩ :: List.replicate pre.length ⟨false, .continue⟩, ?_, ?_,
      fun log s' fs' => ?_⟩
    · intro h hh
      rcases List.mem_cons.mp hh with rfl | hh
      · rfl
      · rw [(List.mem_replicate.mp hh).2]
    · intro h hh
      simp only [List.cons_append, List.tail_cons, List.mem_append, List.mem_replicate,
        List.mem_singleton] at hh
      rcases hh with ⟨-, rfl⟩ | rfl
      · rfl
      · rfl
    · rw [List.cons_append, SyncService.handleAll_cons]
      constructor
      · rintro ⟨result, s4, fs4, log1, h3, h4, rfl⟩
        rw [h1] at h3
        cases h3
        obtain ⟨log2, h5, rfl⟩ := (hall _ log1 s' fs').mp h4
        obtain ⟨result, s5, fs5, log3, h6, h7, rfl⟩ := SyncService.handleAll_cons.mp h5
        rw [hx] at h6
        cases h6
        exact ⟨log3, h7, rfl⟩
      · rintro ⟨log3, h7, rfl⟩
        have h5 := SyncService.handleAll_cons.mpr ⟨_, _, _, _, hx, h7, rfl⟩
        exact ⟨_, _, _, _, h1, (hall _ _ s' fs').mpr ⟨_, h5, rfl⟩, rfl⟩

/-- **A failed push is contained exactly when it fails in its last payload.**
`x` is the payload in which the device fails, `post` what the host has still
to send of the push. -/
theorem push_failure_contained_iff (p : CutPush) (fs : Fs) {fs1 fs2 : Fs}
    {pre post : List (Env × Bytes)} {x : Env × Bytes} {s1 s2 : SyncService}
    {hdr : SyncFrameResponseHeader} {data : Bytes} (hsplit : p.payloads = pre ++ x :: post)
    (hpre : SyncService.new.feed fs pre = .ok (none, s1, fs1))
    (hx : s1.handle x.1 fs1 x.2 = .ok (.data hdr data, s2, fs2)) (hfail : hdr.id = .fail) :
    p.Contained fs ↔ post = [] := by
  obtain ⟨before, hcont, hreq, hall⟩ := p.records hsplit hpre hx
  have hlast : (⟨before.isEmpty, .data hdr data⟩ : Handled).isFail = true := by
    simp only [Handled.isFail, hfail]; rfl
  have hsilent : ∀ h ∈ before, h.isFail = false := fun h hh => by
    simp only [Handled.isFail, hcont h hh]
  constructor
  · rintro ⟨log, s', fs', hrun, htail, -⟩
    obtain ⟨log', hrest, rfl⟩ := (hall log s' fs').mp hrun
    cases post with
    | nil => rfl
    | cons y post =>
      obtain ⟨h, hmem, htrue⟩ := SyncService.handleAll_idle_cons hrest
      have hin : h ∈ (before ++ ⟨before.isEmpty, .data hdr data⟩ :: log').tail := by
        cases before with
        | nil => exact hmem
        | cons b before => simp [hmem]
      rw [htail h hin] at htrue
      cases htrue
  · rintro rfl
    refine ⟨_, ⟨.idle⟩, fs2, (hall _ _ _).mpr ⟨[], rfl, rfl⟩, hreq, ?_, ?_, rfl⟩
    · rw [List.countP_append, List.countP_eq_zero.mpr fun h hh => by simp [hsilent h hh]]
      simp [hlast]
    · intro h hh
      rcases List.mem_append.mp hh with hh | hh
      · exact .inr (hcont h hh)
      · rw [List.mem_singleton.mp hh]
        exact .inl hlast

/-! ## A file that cannot be created -/

def Env.noCreate : Env where
  fail
    | .create => some (ascii "Permission denied (os error 13)")
    | _ => none

def Env.diskFull : Env where
  fail
    | .writeAll _ => some (ascii "No space left on device (os error 28)")
    | _ => none

def quitBody : PushBody := ⟨[ascii "QUIT"], 7, by decide⟩

def oneCut : CutPush where
  req := .sample
  body := quitBody
  env := {}
  first := le32 idData ++ le32 4 ++ ascii "QU"
  rest := [(.diskFull, ascii "IT" ++ doneFrame 7)]
  cut := by decide +kernel

def headerCut : CutPush where
  req := .sample
  body := quitBody
  env := .noCreate
  first := le32 idData ++ le32 4
  rest := [({}, ascii "QUIT" ++ doneFrame 7)]
  cut := by decide +kernel

/-- Half of the file is written, and the last payload fails. -/
theorem push_failure_contained_one_cut : oneCut.Contained .empty := by
  have hrun : ((SyncService.new.feed .empty (oneCut.payloads.take 1)).toOption.bind fun x =>
      (x.2.1.handle .diskFull x.2.2 (ascii "IT" ++ doneFrame 7)).toOption.map fun y =>
        (x.1, (⟨false, y.1⟩ : Handled).isFail)) = some (none, true) := by
    decide +kernel
  obtain ⟨⟨out, s1, fs1⟩, hpre, h1⟩ := Option.bind_eq_some_iff.mp hrun
  obtain ⟨⟨result, s2, fs2⟩, hx, h2⟩ := Option.map_eq_some_iff.mp h1
  obtain ⟨rfl, hfail⟩ := Prod.mk.inj h2
  have hsplit : oneCut.payloads =
      oneCut.payloads.take 1 ++ (.diskFull, ascii "IT" ++ doneFrame 7) :: [] := rfl
  cases result with
  | data hdr data =>
    exact (push_failure_contained_iff oneCut .empty hsplit (ok_of_toOption hpre)
      (ok_of_toOption hx) (beq_iff_eq.mp hfail)).mpr rfl
  | stat s => cases hfail
  | quit => cases hfail
  | «continue» => cases hfail

/-- Cut after the DATA header, the file's content closes the session. -/
theorem push_data_taken_for_quit : ¬ headerCut.Contained .empty ∧
    (SyncService.new.handleAll .empty headerCut.payloads).toOption.map (fun r => r.1.tail) =
      some [⟨true, .quit⟩] := by
  have hrun : (SyncService.new.handleAll .empty headerCut.payloads).toOption.map
      (fun r => r.1.tail) = some [⟨true, .quit⟩] := by
    decide +kernel
  refine ⟨?_, hrun⟩
  rintro ⟨log, s', fs', hlog, htail, -⟩
  rw [hlog] at hrun
  have htl : log.tail = [⟨true, .quit⟩] := Option.some.inj hrun
  have := htail ⟨true, .quit⟩ (by rw [htl]; exact List.mem_singleton_self _)
  cases this

end Adibi
