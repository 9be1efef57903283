import Adibi.Sync.Push

/-!
# Sync sessions

A sync session as the host sees it: requests back to back in one byte stream,
cut into WRTE payloads. `serve` passes a payload to `SyncService::handle` and
drains a pull before the next payload. The request parser keeps nothing
between payloads, so the answers are those of requests sent one a payload
exactly when the cut is `Grouped`: every request starts a payload that holds
it whole, and what belongs to a request ends with a payload.
-/

namespace Adibi

open Lib

/-! ## Requests -/

/-- A well-formed request; after QUIT the host may send what it likes. -/
inductive SyncRequest where
  | lstat (path : Path) (lt : path.length < 2 ^ 32)
  | recv (path : Path) (lt : path.length < 2 ^ 32)
  | send (req : SendRequest) (body : PushBody)
  | quit (t : Bytes)

namespace SyncRequest

/-- What the request parser reads. -/
def head : SyncRequest → Bytes
  | .lstat path _ => le32 idLstatV1 ++ lenPrefixed path
  | .recv path _ => le32 idRecvV1 ++ lenPrefixed path
  | .send req _ => req.encode
  | .quit _ => le32 idQuit

/-- What follows it: the frames of a push. -/
def tail : SyncRequest → Bytes
  | .send _ body => body.encode
  | .quit t => t
  | _ => []

def encode (r : SyncRequest) : Bytes := r.head ++ r.tail

def packet : SyncRequest → SyncPacket
  | .lstat path _ => .lstatV1 path
  | .recv path _ => .recvV1 path
  | .send req _ => .sendV1 req.path req.mode
  | .quit _ => .quit

def isQuit : SyncRequest → Bool
  | .quit _ => true
  | _ => false

theorem parse_head (r : SyncRequest) (t : Bytes) :
    parseSyncPacket (r.head ++ t) = some (r.packet, t) := by
  cases r with
  | lstat path lt => exact parseSyncPacket_lstat lt t
  | recv path lt => exact parseSyncPacket_recv lt t
  | send req body => exact parseSyncPacket_send req t
  | quit u => exact parseSyncPacket_quit t

theorem head_ne_nil (r : SyncRequest) : r.head ≠ [] := by
  intro h
  have hp := r.parse_head []
  rw [h] at hp
  exact absurd hp (by simp [parseSyncPacket, Parser.andThen, parseSyncPacketId, Parser.verifyMap,
    Parser.leU32])

/-- A payload that parses, cut from a stream that begins with a request, begins
with that request. -/
theorem prefix_of_parse (r : SyncRequest) {p more u rest : Bytes} {k : SyncPacket}
    (hflat : p ++ more = r.head ++ u) (hp : parseSyncPacket p = some (k, rest)) :
    p = r.head ++ rest ∧ k = r.packet := by
  obtain ⟨c, rfl, hc⟩ := local_parseSyncPacket p k rest hp
  have h1 := hc (rest ++ more)
  rw [← List.append_assoc, hflat, r.parse_head] at h1
  simp only [Option.some.injEq, Prod.mk.injEq] at h1
  obtain ⟨rfl, rfl⟩ := h1
  rw [List.append_assoc] at hflat
  rw [List.append_cancel_right hflat]
  exact ⟨rfl, rfl⟩

end SyncRequest

/-! ## Pulls -/

namespace FileSender

/-- Frames still to come, at most. -/
def left (fs : Fs) (s : FileSender) : Nat :=
  if s.done then 0 else (fs.inodes s.file.ino).content.length - s.file.offset + 1

theorem nextFrame_decreases {env : Env} {fs : Fs} {s s' : FileSender} {f : SyncResponse}
    (h : s.nextFrame env fs = .ok (some f, s')) : s'.left fs < s.left fs := by
  unfold nextFrame at h
  split at h
  · cases h
  · rename_i hd
    have hleft : s.left fs = (fs.inodes s.file.ino).content.length - s.file.offset + 1 := if_neg hd
    split at h
    · cases h
      rw [hleft]
      exact Nat.succ_pos _
    · rename_i chunk file hne hr
      obtain ⟨response, -, h2⟩ := bind_eq_ok.mp h
      cases h2
      unfold Fs.read at hr
      split at hr
      · cases hr
      · simp only [Except.ok.injEq, Prod.mk.injEq] at hr
        obtain ⟨hchunk, rfl⟩ := hr
        have hpos : 0 < chunk.length := by
          cases chunk with
          | nil => exact absurd rfl hne
          | cons b bs => simp
        have hlen : chunk.length ≤ (fs.inodes s.file.ino).content.length - s.file.offset := by
          rw [← hchunk, List.length_take, List.length_drop]
          omega
        rw [hleft, left, if_neg hd, hchunk]
        simp only [File.offset, List.length_append] at hlen ⊢
        omega
    · obtain ⟨response, -, h2⟩ := bind_eq_ok.mp h
      cases h2
      rw [hleft]
      exact Nat.succ_pos _

/-- All frames of a pull. `env k` is the system at the session's `k`-th reply. -/
def drain (env : Nat → Env) (k : Nat) (fs : Fs) (s : FileSender) :
    Except Panic (List SyncResponse) :=
  match _h : s.nextFrame (env k) fs with
  | .error e => .error e
  | .ok (none, _) => .ok []
  | .ok (some f, s') => do
    let frames ← drain env (k + 1) fs s'
    pure (f :: frames)
termination_by s.left fs
decreasing_by exact nextFrame_decreases _h

end FileSender

/-! ## Sessions -/

/-- A sync response on its way to the host. -/
inductive Reply where
  | stat (s : SyncStat)
  | frame (r : SyncResponse)
  deriving DecidableEq, Repr

structure Session where
  service : SyncService
  fs : Fs
  replies : List Reply
  closed : Bool

namespace Session

def start (fs : Fs) : Session := ⟨.new, fs, [], false⟩

/-- One payload, and the whole of a pull it starts. A closed session reads
nothing. -/
def serve (env : Nat → Env) (x : Session) (payload : Bytes) : Except Panic Session :=
  if x.closed then .ok x
  else do
    let (result, s, fs) ← x.service.handle (env x.replies.length) x.fs payload
    match result with
    | .stat st => pure ⟨s, fs, x.replies ++ [.stat st], false⟩
    | .data hdr data => pure ⟨s, fs, x.replies ++ [.frame (hdr, data)], false⟩
    | .quit => pure ⟨s, fs, x.replies, true⟩
    | .continue =>
      match s.state with
      | .sending sender => do
        let frames ← sender.drain env x.replies.length fs
        pure ⟨.new, fs, x.replies ++ frames.map .frame, false⟩
      | _ => pure ⟨s, fs, x.replies, false⟩

def run (env : Nat → Env) (x : Session) (payloads : List Bytes) : Except Panic Session :=
  runEvents (serve env) x payloads

end Session

/-- The receiver does not answer before the end of `bs`: nothing after the
answer is dropped. -/
def FileReceiver.Keeps (env : Env) (fs : Fs) (r : FileReceiver) (bs : Bytes) : Prop :=
  ∀ q, q <+: bs → q ≠ bs → ∀ response r' fs', r.receive env q fs ≠ .ok (.done response, r', fs')

/-- `handle` neither rejects a payload as a request nor drops any of it: not
what follows an LSTAT, a RECV or the DONE of a push. -/
def SyncService.Keeps (env : Env) (fs : Fs) (s : SyncService) (payload : Bytes) : Prop :=
  match s.state with
  | .receiving r => r.Keeps env fs payload
  | _ =>
    match parseSyncPacket payload with
    | none => False
    | some (.lstatV1 _, rest) => rest = []
    | some (.recvV1 _, rest) => rest = []
    | some (.sendV1 path mode, leftover) => ∀ f fs', fs.create env path = .ok (f, fs') →
        (⟨f, path, mode, .header⟩ : FileReceiver).Keeps env fs' leftover
    | some (.quit, _) => True

/-- No payload of the session is rejected or dropped in part, until it is closed. -/
def Session.KeepsAll (env : Nat → Env) : Session → List Bytes → Prop
  | _, [] => True
  | x, p :: ps => (x.closed = false → x.service.Keeps (env x.replies.length) x.fs p) ∧
      ∀ y, x.serve env p = .ok y → y.KeepsAll env ps

/-- The cut respects the requests: each starts a payload that holds all of its
head, and its tail ends with a payload. -/
def Grouped : List SyncRequest → List Bytes → Prop
  | [], ps => ps = []
  | r :: rs, ps => ∃ t mid rest, ps = (r.head ++ t) :: mid ++ rest ∧ t ++ mid.flatten = r.tail ∧
      Grouped rs rest

/-! ## A push in several payloads -/

namespace FileReceiver

variable {env : Env} {r r1 r' : FileReceiver} {fs fs1 fs' : Fs}

theorem Fed.unique {t : PushState × Bytes} {response response' : SyncResponse} {r'' : FileReceiver}
    {fs'' : Fs} {mtime : UInt32} (ht : t.1 = .stop (.okay mtime))
    (h : Fed env r fs t (.done response) r' fs') (h' : Fed env r fs t (.done response') r'' fs'') :
    response' = response ∧ fs'' = fs' := by
  obtain ⟨v, hv, hs⟩ := h
  obtain ⟨v', hv', hs'⟩ := h'
  rw [ht] at hv hv'
  cases hv
  cases hv'
  obtain ⟨rfl, h1⟩ := hs
  obtain ⟨rfl, h2⟩ := hs'
  rw [h1] at h2
  cases h2
  exact ⟨rfl, rfl⟩

/-- A receiver that `b` takes to OKAY. -/
structure Awaits (r : FileReceiver) (fs : Fs) (b : Bytes) : Prop where
  wf : r.state.Wf
  atEnd : r.AtEnd fs
  completes : ∃ mtime out, Completes r.state.abs b (.okay mtime) out

theorem Awaits.ne_nil {b : Bytes} (h : r.Awaits fs b) : b ≠ [] := by
  rintro rfl
  obtain ⟨mtime, out, hrun, -⟩ := h.completes
  have hv := r.state.verdict_abs
  rw [(Prod.mk.inj hrun).1] at hv
  cases hv

theorem Awaits.done {b : Bytes} (henv : env.PushOk) (h : r.Awaits fs b) :
    ∃ response r' fs', r.receive env b fs = .ok (.done response, r', fs') := by
  obtain ⟨mtime, out, hrun, -⟩ := h.completes
  obtain ⟨res, r', fs', he, hf⟩ := receive_sim henv b h.wf h.atEnd
  cases res with
  | done response => exact ⟨response, r', fs', he⟩
  | «continue» =>
    have hv := r'.state.verdict_abs
    rw [hf.2.1, hrun] at hv
    cases hv

/-- Part of what is awaited: the rest is awaited, and ends as the whole would. -/
theorem Awaits.split {p b : Bytes} (henv : env.PushOk) (h : r.Awaits fs (p ++ b)) (hb : b ≠ []) :
    ∃ r1 fs1, r.receive env p fs = .ok (.continue, r1, fs1) ∧ r1.Awaits fs1 b ∧
      ∃ response r' r'' fs', r.receive env (p ++ b) fs = .ok (.done response, r', fs') ∧
        r1.receive env b fs1 = .ok (.done response, r'', fs') := by
  obtain ⟨mtime, out, hrun, hpre⟩ := h.completes
  obtain ⟨res, r1, fs1, he, hf⟩ := receive_sim henv p h.wf h.atEnd
  have hpend := hpre p (List.prefix_append p b) (by simpa using hb)
  cases res with
  | done response =>
    obtain ⟨v, hv, hs⟩ := hf
    rw [hv] at hpend
    cases hpend
    exact hs.elim
  | «continue» =>
    have happ : ∀ q, pushMachine.run r.state.abs (p ++ q) =
        ((pushMachine.run r1.state.abs q).1,
          (pushMachine.run r.state.abs p).2 ++ (pushMachine.run r1.state.abs q).2) := by
      intro q
      rw [Mealy.run_append, ← hf.2.1]
    have hc : Completes r1.state.abs b (.okay mtime) (pushMachine.run r1.state.abs b).2 := by
      rw [happ] at hrun
      refine ⟨by rw [← (Prod.mk.inj hrun).1], fun q hq hne => ?_⟩
      have hq' := hpre (p ++ q) ((List.prefix_append_right_inj p).mpr hq) (by simpa using hne)
      rw [happ] at hq'
      exact hq'
    have h1 : r1.Awaits fs1 b := ⟨hf.1, hf.atEnd h.atEnd, mtime, _, hc⟩
    refine ⟨r1, fs1, he, h1, ?_⟩
    obtain ⟨response, r', fs', hd⟩ := h.done henv
    obtain ⟨response', r'', fs'', hd'⟩ := h1.done henv
    obtain ⟨_, _, _, hd2, hfd⟩ := receive_sim henv (p ++ b) h.wf h.atEnd
    rw [hd] at hd2
    cases hd2
    obtain ⟨_, _, _, hd2', hfd'⟩ := receive_sim henv b h1.wf h1.atEnd
    rw [hd'] at hd2'
    cases hd2'
    have htrans := hf.trans h.atEnd hfd'
    rw [← happ] at htrans
    obtain ⟨rfl, rfl⟩ := hfd.unique (by rw [hrun]) htrans
    exact ⟨response', r', r'', fs'', hd, hd'⟩

theorem Awaits.keeps {p b : Bytes} (henv : env.PushOk) (h : r.Awaits fs (p ++ b)) :
    r.Keeps env fs p := by
  intro q hq hne response r' fs' hrec
  obtain ⟨s, rfl⟩ := hq
  have hs : s ++ b ≠ [] := by
    rintro e
    obtain ⟨rfl, -⟩ := List.append_eq_nil_iff.mp e
    exact hne (by simp)
  rw [List.append_assoc] at h
  obtain ⟨r1, fs1, he, -⟩ := h.split henv hs
  rw [he] at hrec
  cases hrec

theorem Awaits.prefix_of_keeps {p more b u : Bytes} (henv : env.PushOk) (h : r.Awaits fs b)
    (hflat : p ++ more = b ++ u) (hk : r.Keeps env fs p) : ∃ b', b = p ++ b' ∧ more = b' ++ u := by
  rcases List.append_eq_append_iff.mp hflat with ⟨b', rfl, rfl⟩ | ⟨t, rfl, rfl⟩
  · exact ⟨b', rfl, rfl⟩
  · obtain ⟨response, r', fs', hd⟩ := h.done henv
    by_cases ht : t = []
    · subst ht
      exact ⟨[], by simp, by simp⟩
    · exact absurd hd (hk b (List.prefix_append b t) (by simpa using ht) _ _ _)

end FileReceiver

theorem Env.Succeeds.pushOk {env : Env} (h : env.Succeeds) : env.PushOk :=
  ⟨h _, fun _ => h _, h _⟩

namespace Session

variable {env : Nat → Env} {x y : Session}

def Idle (x : Session) : Prop := x.closed = false ∧ x.service = .new

/-- In a push that `b` takes to its end. -/
def Receives (x : Session) (b : Bytes) : Prop :=
  x.closed = false ∧ ∃ r, x.service = ⟨.receiving r⟩ ∧ r.Awaits x.fs b

theorem serve_continue {r r' : FileReceiver} {p : Bytes} {fs' : Fs} (hx : x.closed = false)
    (hs : x.service = ⟨.receiving r⟩)
    (h : r.receive (env x.replies.length) p x.fs = .ok (.continue, r', fs')) :
    x.serve env p = .ok ⟨⟨.receiving r'⟩, fs', x.replies, false⟩ := by
  simp only [serve, hx, hs, SyncService.handle, h, ok_bind, pure_eq_ok]
  rfl

theorem serve_done {r r' : FileReceiver} {p : Bytes} {fs' : Fs} {response : SyncResponse}
    (hx : x.closed = false) (hs : x.service = ⟨.receiving r⟩)
    (h : r.receive (env x.replies.length) p x.fs = .ok (.done response, r', fs')) :
    x.serve env p = .ok ⟨.new, fs', x.replies ++ [.frame response], false⟩ := by
  simp only [serve, hx, hs, SyncService.handle, h, ok_bind, pure_eq_ok]
  rfl

theorem Receives.split {p b : Bytes} (henv : ∀ k, (env k).Succeeds) (h : x.Receives (p ++ b))
    (hb : b ≠ []) :
    ∃ y, x.serve env p = .ok y ∧ y.Receives b ∧ y.serve env b = x.serve env (p ++ b) := by
  obtain ⟨hx, r, hs, hr⟩ := h
  obtain ⟨r1, fs1, hp, hr1, response, r', r'', fs', hall, hrest⟩ := hr.split (henv _).pushOk hb
  refine ⟨_, serve_continue hx hs hp, ⟨rfl, r1, rfl, hr1⟩, ?_⟩
  rw [serve_done hx hs hall]
  exact serve_done rfl rfl hrest

theorem Receives.serve_idle {b : Bytes} (henv : ∀ k, (env k).Succeeds) (h : x.Receives b) :
    ∃ y, x.serve env b = .ok y ∧ y.Idle := by
  obtain ⟨hx, r, hs, hr⟩ := h
  obtain ⟨response, r', fs', hd⟩ := hr.done (henv _).pushOk
  exact ⟨_, serve_done hx hs hd, rfl, rfl⟩

theorem Receives.keeps {p b : Bytes} (henv : ∀ k, (env k).Succeeds) (h : x.Receives (p ++ b)) :
    x.service.Keeps (env x.replies.length) x.fs p := by
  obtain ⟨-, r, hs, hr⟩ := h
  rw [hs]
  exact hr.keeps (henv _).pushOk

theorem run_cons (p : Bytes) (ps : List Bytes) :
    x.run env (p :: ps) = x.serve env p >>= fun y => y.run env ps := rfl

theorem run_append (ps qs : List Bytes) :
    x.run env (ps ++ qs) = x.run env ps >>= fun y => y.run env qs := by
  induction ps generalizing x with
  | nil => rfl
  | cons p ps ih =>
    rw [List.cons_append, run_cons, run_cons]
    cases x.serve env p with
    | error e => rfl
    | ok y => exact ih

theorem keepsAll_append {ps qs : List Bytes} : x.KeepsAll env (ps ++ qs) ↔
    x.KeepsAll env ps ∧ ∀ y, x.run env ps = .ok y → y.KeepsAll env qs := by
  induction ps generalizing x with
  | nil =>
    constructor
    · intro h
      refine ⟨trivial, fun y hy => ?_⟩
      cases hy
      exact h
    · exact fun h => h.2 x rfl
  | cons p ps ih =>
    constructor
    · rintro ⟨h1, h2⟩
      refine ⟨⟨h1, fun y hy => (ih.mp (h2 y hy)).1⟩, fun z hz => ?_⟩
      obtain ⟨y, hy, hz⟩ := bind_eq_ok.mp hz
      exact (ih.mp (h2 y hy)).2 z hz
    · rintro ⟨⟨h1, h2⟩, h3⟩
      refine ⟨h1, fun y hy => ih.mpr ⟨h2 y hy, fun z hz => h3 z ?_⟩⟩
      rw [run_cons, hy]
      exact hz

/-- The payloads of a push are as good as one, and kept whole. Only the first
may be empty: it is what the SEND's payload holds after the request. -/
theorem Receives.run_eq {t : Bytes} {mid : List Bytes} (henv : ∀ k, (env k).Succeeds)
    (hne : ∀ p ∈ mid, p ≠ []) (h : x.Receives (t ++ mid.flatten)) :
    x.run env (t :: mid) = x.serve env (t ++ mid.flatten) ∧ x.KeepsAll env (t :: mid) := by
  induction mid generalizing x t with
  | nil =>
    rw [run_cons, List.flatten_nil, List.append_nil]
    refine ⟨?_, fun _ => h.keeps henv, fun _ _ => trivial⟩
    cases x.serve env t <;> rfl
  | cons p mid ih =>
    have hb : (p :: mid).flatten ≠ [] := by simp [hne p List.mem_cons_self]
    obtain ⟨y, hy, hrec, heq⟩ := h.split henv hb
    obtain ⟨hrun, hkeep⟩ := ih (fun q hq => hne q (List.mem_cons_of_mem _ hq)) hrec
    refine ⟨?_, fun _ => h.keeps henv, fun z hz => ?_⟩
    · rw [run_cons, hy, ok_bind, hrun, ← heq]
      rfl
    · rw [hy] at hz
      cases hz
      exact hkeep

theorem Receives.group {b u : Bytes} {ps : List Bytes} (henv : ∀ k, (env k).Succeeds)
    (h : x.Receives b) (hflat : ps.flatten = b ++ u)
    (hk : x.KeepsAll env ps) : ∃ mid rest, ps = mid ++ rest ∧ mid.flatten = b := by
  induction ps generalizing x b with
  | nil =>
    obtain ⟨-, r, -, hr⟩ := h
    exact absurd (List.append_eq_nil_iff.mp hflat.symm).1 hr.ne_nil
  | cons p ps ih =>
    obtain ⟨hx, r, hs, hr⟩ := id h
    have hkeep := hk.1 hx
    rw [hs] at hkeep
    obtain ⟨b', rfl, hmore⟩ := hr.prefix_of_keeps (henv _).pushOk hflat hkeep
    by_cases hb : b' = []
    · subst hb
      exact ⟨[p], ps, rfl, by simp⟩
    · obtain ⟨y, hy, hrec, -⟩ := h.split henv hb
      obtain ⟨mid, rest, rfl, hmid⟩ := ih hrec hmore (hk.2 y hy)
      exact ⟨p :: mid, rest, rfl, by rw [List.flatten_cons, hmid]⟩

/-! ## One request -/

/-- After a SEND request the session is in a push; `t` is what its payload
holds after the request. -/
theorem Idle.send (henv : ∀ k, (env k).Succeeds) (h : x.Idle) (req : SendRequest)
    (body : PushBody) : ∃ x1 : Session, x1.Receives body.encode ∧ ∀ t,
      x.serve env (req.encode ++ t) = x1.serve env t ∧
        (x.service.Keeps (env x.replies.length) x.fs (req.encode ++ t) ↔
          x1.service.Keeps (env x1.replies.length) x1.fs t) := by
  obtain ⟨hx, hs⟩ := h
  obtain ⟨fs1, hc, -, hinode⟩ := Fs.create_ok (henv x.replies.length .create) x.fs req.path
  have hfresh : (x.fs.fresh req.path).content = [] := by
    unfold Fs.fresh; split <;> rfl
  have hend : (SyncService.receiverOf req (x.fs.target req.path)).AtEnd fs1 := by
    show [] = (fs1.inodes (x.fs.target req.path)).content
    rw [hinode, hfresh]
  refine ⟨⟨⟨.receiving (SyncService.receiverOf req (x.fs.target req.path))⟩, fs1, x.replies, false⟩,
    ⟨rfl, _, rfl, trivial, hend, body.mtime, body.chunks.flatten, body.completes⟩, fun t => ⟨?_, ?_⟩⟩
  · simp only [serve, hx, hs, SyncService.handle_send hc]
    rfl
  · simp only [SyncService.Keeps, hs, SyncService.new, parseSyncPacket_send, hc,
      SyncService.receiverOf]
    constructor
    · exact fun h => h _ _ rfl
    · intro h f fs' e
      cases e
      exact h

theorem Idle.serve_idle (henv : ∀ k, (env k).Succeeds) (h : x.Idle) {r : SyncRequest}
    (hr : r.isQuit = false) (hy : x.serve env r.encode = .ok y) : y.Idle := by
  cases r with
  | quit t => cases hr
  | send req body =>
    obtain ⟨x1, hrec, hx1⟩ := h.send henv req body
    obtain ⟨z, hz, hidle⟩ := hrec.serve_idle henv
    rw [SyncRequest.encode, SyncRequest.head, SyncRequest.tail, (hx1 _).1, hz] at hy
    cases hy
    exact hidle
  | lstat path lt =>
    obtain ⟨hx, hs⟩ := h
    have hp := (SyncRequest.lstat path lt).parse_head []
    simp only [serve, hx, hs, SyncService.handle, SyncService.new, SyncService.handleRequest,
      SyncRequest.encode, SyncRequest.tail, hp, SyncRequest.packet] at hy
    obtain ⟨⟨result, s, fs⟩, h1, h2⟩ := bind_eq_ok.mp hy
    obtain ⟨res, h3, h4⟩ := bind_eq_ok.mp h1
    cases h4
    unfold SyncService.handleLstatV1 at h3
    split at h3
    · obtain ⟨a, -, h5⟩ := bind_eq_ok.mp h3
      obtain ⟨b, -, h6⟩ := bind_eq_ok.mp h5
      cases h6
      cases h2
      exact ⟨rfl, rfl⟩
    · cases h3
      cases h2
      exact ⟨rfl, rfl⟩
  | recv path lt =>
    obtain ⟨hx, hs⟩ := h
    have hp := (SyncRequest.recv path lt).parse_head []
    simp only [serve, hx, hs, SyncService.handle, SyncService.new, SyncService.handleRequest,
      SyncRequest.encode, SyncRequest.tail, hp, SyncRequest.packet] at hy
    obtain ⟨⟨result, s, fs⟩, h1, h2⟩ := bind_eq_ok.mp hy
    obtain ⟨⟨res, s'⟩, h3, h4⟩ := bind_eq_ok.mp h1
    cases h4
    unfold SyncService.handleRecvV1 at h3
    split at h3
    · cases h3
      obtain ⟨frames, -, h5⟩ := bind_eq_ok.mp h2
      cases h5
      exact ⟨rfl, rfl⟩
    · obtain ⟨res, h5, h6⟩ := bind_eq_ok.mp h3
      cases h6
      obtain ⟨⟨hdr, data⟩, -, h7⟩ := bind_eq_ok.mp h5
      cases h7
      cases h2
      exact ⟨rfl, rfl⟩

theorem serve_closed (hx : x.closed = true) (p : Bytes) : x.serve env p = .ok x := if_pos hx

theorem run_closed (hx : x.closed = true) (ps : List Bytes) :
    x.run env ps = .ok x ∧ x.KeepsAll env ps := by
  induction ps with
  | nil => exact ⟨rfl, trivial⟩
  | cons p ps ih =>
    refine ⟨by rw [run_cons, serve_closed hx, ok_bind, ih.1], ?_, fun y hy => ?_⟩
    · rw [hx]
      exact fun h => nomatch h
    · rw [serve_closed hx] at hy
      cases hy
      exact ih.2

theorem Idle.serve_quit (h : x.Idle) (t u : Bytes) :
    x.serve env ((SyncRequest.quit u).head ++ t) = .ok ⟨.new, x.fs, x.replies, true⟩ := by
  obtain ⟨hx, hs⟩ := h
  simp only [serve, hx, hs, SyncService.handle, SyncService.new, SyncService.handleRequest,
    SyncRequest.parse_head, SyncRequest.packet, ok_bind, pure_eq_ok]
  rfl

/-- The payloads of one request are as good as one, and kept whole. -/
theorem Idle.run_group {r : SyncRequest} {t : Bytes} {mid : List Bytes}
    (henv : ∀ k, (env k).Succeeds) (hne : ∀ p ∈ mid, p ≠ []) (h : x.Idle)
    (ht : t ++ mid.flatten = r.tail) : x.run env ((r.head ++ t) :: mid) = x.serve env r.encode ∧
      x.KeepsAll env ((r.head ++ t) :: mid) := by
  -- a request without a tail is one payload
  have hone : r.tail = [] → t = [] ∧ mid = [] := by
    intro e
    rw [e] at ht
    obtain ⟨rfl, hmid⟩ := List.append_eq_nil_iff.mp ht
    cases mid with
    | nil => exact ⟨rfl, rfl⟩
    | cons p mid =>
      exact absurd (List.append_eq_nil_iff.mp hmid).1 (hne p List.mem_cons_self)
  have hrun1 : ∀ p, x.run env [p] = x.serve env p := fun p => by
    rw [run_cons]
    cases x.serve env p <;> rfl
  cases r with
  | lstat path lt =>
    obtain ⟨rfl, rfl⟩ := hone rfl
    refine ⟨hrun1 _, fun _ => ?_, fun _ _ => trivial⟩
    simp only [SyncService.Keeps, h.2, SyncService.new, SyncRequest.parse_head, SyncRequest.packet]
  | recv path lt =>
    obtain ⟨rfl, rfl⟩ := hone rfl
    refine ⟨hrun1 _, fun _ => ?_, fun _ _ => trivial⟩
    simp only [SyncService.Keeps, h.2, SyncService.new, SyncRequest.parse_head, SyncRequest.packet]
  | send req body =>
    obtain ⟨x1, hrec, hx1⟩ := h.send henv req body
    rw [SyncRequest.tail] at ht
    rw [← ht] at hrec
    obtain ⟨hrun, hkeep⟩ := hrec.run_eq henv hne
    simp only [SyncRequest.encode, SyncRequest.head, SyncRequest.tail, run_cons, (hx1 _).1]
    refine ⟨by rw [← ht, ← hrun, run_cons], fun _ => (hx1 t).2.mpr (hkeep.1 hrec.1), fun y hy => ?_⟩
    rw [(hx1 t).1] at hy
    exact hkeep.2 y hy
  | quit u =>
    rw [run_cons, SyncRequest.encode, h.serve_quit, h.serve_quit, ok_bind]
    refine ⟨(run_closed rfl mid).1, fun _ => ?_, fun y hy => ?_⟩
    · simp only [SyncService.Keeps, h.2, SyncService.new, SyncRequest.parse_head, SyncRequest.packet]
    · rw [h.serve_quit] at hy
      cases hy
      exact (run_closed rfl mid).2

theorem Idle.group {r : SyncRequest} {u : Bytes} {ps : List Bytes} (henv : ∀ k, (env k).Succeeds)
    (h : x.Idle) (hq : r.isQuit = true → u = []) (hflat : ps.flatten = r.encode ++ u)
    (hk : x.KeepsAll env ps) :
    ∃ t mid rest, ps = (r.head ++ t) :: mid ++ rest ∧ t ++ mid.flatten = r.tail := by
  rw [SyncRequest.encode, List.append_assoc] at hflat
  cases ps with
  | nil => exact absurd (List.append_eq_nil_iff.mp hflat.symm).1 r.head_ne_nil
  | cons p ps =>
    have hkeep := hk.1 h.1
    -- the first payload parses, so it begins with the request
    obtain ⟨t, rfl⟩ : ∃ t, p = r.head ++ t := by
      cases hp : parseSyncPacket p with
      | none =>
        simp only [SyncService.Keeps, h.2, SyncService.new, hp] at hkeep
      | some a => exact ⟨a.2, (r.prefix_of_parse hflat hp).1⟩
    rw [List.flatten_cons, List.append_assoc, List.append_cancel_left_eq] at hflat
    cases r with
    | lstat path lt =>
      simp only [SyncService.Keeps, h.2, SyncService.new, SyncRequest.parse_head,
        SyncRequest.packet] at hkeep
      exact ⟨t, [], ps, rfl, by rw [hkeep]; rfl⟩
    | recv path lt =>
      simp only [SyncService.Keeps, h.2, SyncService.new, SyncRequest.parse_head,
        SyncRequest.packet] at hkeep
      exact ⟨t, [], ps, rfl, by rw [hkeep]; rfl⟩
    | quit v =>
      rw [hq rfl, List.append_nil] at hflat
      exact ⟨t, ps, [], by simp, hflat⟩
    | send req body =>
      obtain ⟨x1, hrec, hx1⟩ := h.send henv req body
      have hk1 : x1.KeepsAll env (t :: ps) :=
        ⟨fun _ => (hx1 t).2.mp hkeep, fun y hy => hk.2 y (by rw [SyncRequest.head, (hx1 t).1]; exact hy)⟩
      have hbody : (t :: ps).flatten = body.encode ++ u := hflat
      obtain ⟨mid, rest, heq, hmid⟩ := hrec.group henv hbody hk1
      cases mid with
      | nil =>
        obtain ⟨-, r, -, hr⟩ := hrec
        exact absurd hmid.symm hr.ne_nil
      | cons q mid =>
        obtain ⟨rfl, rfl⟩ := List.cons.inj heq
        exact ⟨t, mid, rest, rfl, hmid⟩

/-! ## The whole session -/

theorem run_of_grouped {rs : List SyncRequest} {ps : List Bytes} (henv : ∀ k, (env k).Succeeds)
    (hne : ∀ p ∈ ps, p ≠ []) (hquit : ∀ r ∈ rs.dropLast, r.isQuit = false)
    (hidle : rs ≠ [] → x.Idle) (h : Grouped rs ps) :
    x.run env ps = x.run env (rs.map SyncRequest.encode) ∧ x.KeepsAll env ps := by
  induction rs generalizing x ps with
  | nil =>
    obtain rfl : ps = [] := h
    exact ⟨rfl, trivial⟩
  | cons r rs ih =>
    obtain ⟨t, mid, rest, rfl, ht, hrest⟩ := h
    have hmid : ∀ p ∈ mid, p ≠ [] := fun p hp => hne p (by simp [hp])
    obtain ⟨hrun, hkeep⟩ := (hidle (by simp)).run_group henv hmid ht
    have hnext : ∀ y, x.serve env r.encode = .ok y →
        y.run env rest = y.run env (rs.map SyncRequest.encode) ∧ y.KeepsAll env rest := by
      intro y hy
      refine ih (fun p hp => hne p (by simp [hp])) (fun q hq => hquit q ?_) (fun hrs => ?_) hrest
      · cases rs with
        | nil => cases hq
        | cons q' rs => exact List.mem_cons_of_mem _ hq
      · refine (hidle (by simp)).serve_idle henv (hquit r ?_) hy
        cases rs with
        | nil => exact absurd rfl hrs
        | cons q' rs => exact List.mem_cons_self
    rw [run_append, hrun, List.map_cons, run_cons, keepsAll_append, hrun]
    refine ⟨?_, hkeep, fun y hy => (hnext y hy).2⟩
    cases hs : x.serve env r.encode with
    | error e => rfl
    | ok y => exact (hnext y hs).1

/-- A session that keeps every payload whole was cut so. -/
theorem grouped_of_keepsAll {rs : List SyncRequest} {ps : List Bytes} {z : Session}
    (henv : ∀ k, (env k).Succeeds) (hne : ∀ p ∈ ps, p ≠ [])
    (hquit : ∀ r ∈ rs.dropLast, r.isQuit = false) (hidle : rs ≠ [] → x.Idle)
    (hflat : ps.flatten = (rs.map SyncRequest.encode).flatten)
    (hz : x.run env (rs.map SyncRequest.encode) = .ok z) (hk : x.KeepsAll env ps) :
    Grouped rs ps := by
  induction rs generalizing x ps with
  | nil =>
    cases ps with
    | nil => rfl
    | cons p ps => exact absurd (List.append_eq_nil_iff.mp hflat).1 (hne p List.mem_cons_self)
  | cons r rs ih =>
    have hx := hidle (by simp)
    have hlast : r.isQuit = true → rs = [] := by
      intro hq
      cases rs with
      | nil => rfl
      | cons q rs =>
        rw [hquit r List.mem_cons_self] at hq
        cases hq
    obtain ⟨t, mid, rest, rfl, ht⟩ :=
      hx.group henv (fun hq => by rw [hlast hq]; rfl) hflat hk
    have hmid : ∀ p ∈ mid, p ≠ [] := fun p hp => hne p (by simp [hp])
    obtain ⟨hrun, -⟩ := hx.run_group henv hmid ht
    obtain ⟨y, hy, hz⟩ := bind_eq_ok.mp hz
    refine ⟨t, mid, rest, rfl, ht, ?_⟩
    refine ih (fun p hp => hne p (by simp [hp])) (fun q hq => hquit q ?_) (fun hrs => ?_) ?_ hz
      ((keepsAll_append.mp hk).2 y (by rw [hrun, hy]))
    · cases rs with
      | nil => cases hq
      | cons q' rs => exact List.mem_cons_of_mem _ hq
    · exact hx.serve_idle henv (by
        cases hb : r.isQuit with
        | false => rfl
        | true => exact absurd (hlast hb) hrs) hy
    · rw [List.flatten_append, List.flatten_cons, List.append_assoc r.head, ht,
        List.map_cons, List.flatten_cons] at hflat
      exact List.append_cancel_left hflat

end Session

/-- The requests of a session; QUIT comes last. -/
structure Script where
  requests : List SyncRequest
  quit_last : ∀ r ∈ requests.dropLast, r.isQuit = false

/-- One payload a request, with its own frames. -/
def Script.aligned (s : Script) : List Bytes := s.requests.map SyncRequest.encode

/-- Both deliveries get through, with the same replies and the same files. -/
def SameOutcome (a b : Except Panic Session) : Prop :=
  ∃ y z, a = .ok y ∧ b = .ok z ∧ y.replies = z.replies ∧
    ∀ path, y.fs.lookup path = z.fs.lookup path

/-- **A session is a byte stream exactly when its cut respects the requests.**
The requests one a payload get through (no `expect` of LSTAT fails); then any
cut of the same bytes draws the same replies and leaves the same files, with
nothing dropped and nothing rejected, if and only if it is grouped. -/
theorem session_cut_iff (script : Script) (env : Nat → Env) (fs : Fs) (payloads : List Bytes)
    {z : Session} (henv : ∀ k, (env k).Succeeds) (hne : ∀ p ∈ payloads, p ≠ [])
    (hflat : payloads.flatten = script.aligned.flatten)
    (hz : (Session.start fs).run env script.aligned = .ok z) :
    SameOutcome ((Session.start fs).run env payloads) ((Session.start fs).run env script.aligned) ∧
      (Session.start fs).KeepsAll env payloads ↔ Grouped script.requests payloads := by
  constructor
  · rintro ⟨-, hk⟩
    exact Session.grouped_of_keepsAll henv hne script.quit_last (fun _ => ⟨rfl, rfl⟩) hflat hz hk
  · intro hg
    obtain ⟨hrun, hk⟩ :=
      Session.run_of_grouped henv hne script.quit_last (fun _ => ⟨rfl, rfl⟩) hg (x := .start fs)
    exact ⟨⟨z, z, hrun.trans hz, hz, rfl, fun _ => rfl⟩, hk⟩

def Script.pushStat : Script where
  requests := [.send .sample ⟨[ascii "hi"], 7, by decide⟩, .lstat (ascii "/f") (by decide)]
  quit_last := by decide

/-- The push is cut inside its SEND payload's first frame header. -/
theorem session_push_stat :
    SameOutcome
        ((Session.start .empty).run (fun _ => {})
          [SendRequest.sample.encode ++ [0x44, 0x41], [0x54, 0x41, 2, 0, 0, 0, 0x68, 0x69] ++ doneFrame 7,
            le32 idLstatV1 ++ lenPrefixed (ascii "/f")])
        ((Session.start .empty).run (fun _ => {}) Script.pushStat.aligned) ∧
      (Session.start .empty).KeepsAll (fun _ => {})
        [SendRequest.sample.encode ++ [0x44, 0x41], [0x54, 0x41, 2, 0, 0, 0, 0x68, 0x69] ++ doneFrame 7,
          le32 idLstatV1 ++ lenPrefixed (ascii "/f")] := by
  have hok : ((Session.start .empty).run (fun _ => {}) Script.pushStat.aligned).isOk = true := by
    decide +kernel
  cases hz : (Session.start .empty).run (fun _ => {}) Script.pushStat.aligned with
  | error e =>
    rw [hz] at hok
    cases hok
  | ok z =>
    rw [← hz]
    refine (session_cut_iff .pushStat _ .empty _ (fun _ _ => rfl) (by decide +kernel)
      (by decide +kernel) hz).mpr ?_
    exact ⟨[0x44, 0x41], [_], _, rfl, by decide +kernel, [], [], [], by decide +kernel, rfl, rfl⟩

def Script.statTwice : Script where
  requests := [.lstat (ascii "/f") (by decide), .lstat (ascii "/f") (by decide)]
  quit_last := by decide

def Fs.oneFile : Fs where
  entry := id
  dir path := if path = ascii "/f" then some 0 else none
  inodes _ := ⟨[], 0o100644, 0⟩
  nextIno := 1

/-- In one payload the second LSTAT is never answered. -/
theorem session_stat_twice :
    ¬ SameOutcome ((Session.start .oneFile).run (fun _ => {}) [Script.statTwice.aligned.flatten])
      ((Session.start .oneFile).run (fun _ => {}) Script.statTwice.aligned) := by
  have hone : (((Session.start .oneFile).run (fun _ => {})
      [Script.statTwice.aligned.flatten]).toOption.map (·.replies.length)) = some 1 := by
    decide +kernel
  have htwo : (((Session.start .oneFile).run (fun _ => {})
      Script.statTwice.aligned).toOption.map (·.replies.length)) = some 2 := by
    decide +kernel
  rintro ⟨y, z, hy, hz, hrep, -⟩
  rw [hy] at hone
  rw [hz] at htwo
  simp only [Except.toOption, Option.map_some, Option.some.injEq, hrep] at hone htwo
  omega

end Adibi
