import Adibi.Core
import Adibi.Lifecycle

/-!
# Who speaks when

The history of a run is a sequence of exchanges, and the table of streams is what they
say it is (`Conversation`). A transfer is read; or it completes a message of the host,
which is answered before anything else happens: a CNXN with a CNXN, an OPEN with an OKAY
under the next id or a CLSE, a WRTE with an OKAY and then at most one message of its
stream, an OKAY with at most one WRTE, a CLSE with at most one CLSE. Unasked, a stream
says a WRTE or its CLSE, one at a time, when a read ends. The invariant is one of the
core, where a step is computed without looking at buffers.
-/

namespace Adibi

open Lib

def said (m : AdbHeader × Bytes) : Traffic := .sent m.1 m.2

/-- The open streams, each with the host's id for it, and the id the next one gets. -/
structure Peers where
  remote : UInt32 → Option UInt32
  nextId : UInt32

namespace Peers

def none : Peers := ⟨fun _ => .none, 1⟩

/-- A stream is opened under the next id. -/
def add (t : Peers) (remoteId : UInt32) : Peers :=
  ⟨Function.update t.remote t.nextId (some remoteId), t.nextId + 1⟩

def drop (t : Peers) (i : UInt32) : Peers := { t with remote := Function.update t.remote i .none }

end Peers

/-- What stream `i` says at once when an event strikes it: nothing, a WRTE to its peer,
or the CLSE with which it is dropped. -/
inductive Struck (t : Peers) (i : UInt32) : List (AdbHeader × Bytes) → Peers → Prop where
  | silent : Struck t i [] t
  | wrte {r : UInt32} {h : AdbHeader} {p : Bytes} (ht : t.remote i = some r) (hc : h.command = .wrte)
      (h0 : h.arg0 = i) (h1 : h.arg1 = r) : Struck t i [(h, p)] t
  | clse {r : UInt32} (ht : t.remote i = some r) :
      Struck t i [(bareHeader .clse i r, [])] (t.drop i)

/-- How a message of the host is answered, and what it does to the table. An OKAY drops
no stream; a CLSE for an open stream comes from its peer and brings no WRTE. -/
inductive Replies (t : Peers) (h : AdbHeader) (p : Option Bytes) :
    List (AdbHeader × Bytes) → Peers → Prop where
  | cnxn {r : AdbHeader} {identity : Bytes} (hc : h.command = .cnxn) (hp : p.isSome)
      (hr : r.command = .cnxn) : Replies t h p [(r, identity)] t
  | opened (hc : h.command = .open) (hp : p.isSome) :
      Replies t h p [(bareHeader .okay t.nextId h.arg0, [])] (t.add h.arg0)
  | refused (hc : h.command = .open) (hp : p.isSome) :
      Replies t h p [(bareHeader .clse 0 h.arg0, [])] t
  | wrte {ms : List (AdbHeader × Bytes)} {t' : Peers} (hc : h.command = .wrte) (hp : p.isSome)
      (hm : Struck t h.arg1 ms t') :
      Replies t h p ((bareHeader .okay h.arg1 h.arg0, []) :: ms) t'
  | okay {ms : List (AdbHeader × Bytes)} (hc : h.command = .okay) (hp : p = none)
      (hm : Struck t h.arg1 ms t) : Replies t h p ms t
  | clse {ms : List (AdbHeader × Bytes)} {t' : Peers} (hc : h.command = .clse)
      (hr : ∀ r, t.remote h.arg1 = some r → r = h.arg0) (hm : Struck t h.arg1 ms t')
      (hw : ∀ m ∈ ms, m.1.command = .clse) : Replies t h p ms t'
  | ignored (hc : h.command = .auth ∨ h.command = .stls) : Replies t h p [] t

/-- What one event adds to the history. -/
inductive Exchange (t : Peers) : List Traffic → Peers → Prop where
  | silent : Exchange t [] t
  | header (data : Bytes) : Exchange t [.headerRead data] t
  | payload (data : Bytes) : Exchange t [.payloadRead data] t
  | bare {data : Bytes} {h : AdbHeader} {ms : List (AdbHeader × Bytes)} {t' : Peers}
      (hr : Replies t h none ms t') :
      Exchange t (.headerRead data :: .heard h none :: ms.map said) t'
  | loaded {data : Bytes} {h : AdbHeader} {ms : List (AdbHeader × Bytes)} {t' : Peers}
      (hr : Replies t h (some data) ms t') :
      Exchange t (.payloadRead data :: .heard h (some data) :: ms.map said) t'
  | unasked {i : UInt32} {ms : List (AdbHeader × Bytes)} {t' : Peers} (hm : Struck t i ms t') :
      Exchange t (ms.map said) t'

/-- A history of exchanges, and the table it comes to. -/
inductive Conversation : List Traffic → Peers → Prop where
  | nil : Conversation [] .none
  | snoc {tr new : List Traffic} {t t' : Peers} (h : Conversation tr t) (he : Exchange t new t') :
      Conversation (tr ++ new) t'

/-! ## What an effect says -/

def Effect.messages (e : Effect) : List (AdbHeader × Bytes) := e.outs.filterMap Out.message?

section

variable {env : Env} {v : ProtocolVersion} {i : UInt32} {os : Os} {st : Stream} {e : Effect}

theorem onOkay_keeps (h : onOkay env v i os st = .ok e) : e.stream.isSome := by
  unfold onOkay at h
  simp only at h
  split at h
  · rcases continueSync_cases h with ⟨rfl, -⟩ | ⟨-, _, _, _, _, o, -, -, ho, rfl⟩ |
      ⟨-, _, _, -, -, rfl⟩
    · rfl
    · rfl
    · rfl
  · obtain ⟨o, -, h1⟩ := bind_eq_ok.mp h
    cases h1
    rfl
  · obtain ⟨o, -, h1⟩ := bind_eq_ok.mp h
    cases h1
    rfl
  · cases h

theorem onClse_peer {r : UInt32} (h : onClse env i os st r = .ok e) : st.remoteId = r := by
  unfold onClse at h
  split at h
  · cases h
  · rename_i hr
    exact not_not.mp hr

theorem onClse_messages {r : UInt32} (h : onClse env i os st r = .ok e) :
    ∀ m ∈ e.messages, m.1.command = .clse := by
  intro m hm
  unfold Effect.messages at hm
  rcases onClse_cases h with ⟨-, -, ho⟩ | ⟨-, -, ho⟩
  · rw [ho] at hm
    cases hm
  · rw [ho] at hm
    rw [List.mem_singleton.mp hm]
    rfl

end

/-! ## The core's history -/

namespace Core

variable {env : Env} {c c' : Core} {h : AdbHeader} {p : Option Bytes} {j : UInt32}

def peers (c : Core) : Peers := ⟨fun i => (c.streams.get i).map Stream.remoteId, c.streams.nextId⟩

theorem sayAll_trace (c : Core) (outs : List Out) :
    (c.sayAll outs).trace = c.trace ++ (outs.filterMap Out.message?).map said := by
  induction outs generalizing c with
  | nil => exact (List.append_nil _).symm
  | cons o outs ih =>
    rw [show c.sayAll (o :: outs) = (c.say o).sayAll outs from rfl, ih]
    cases o with
    | op u => rfl
    | message hd p =>
      show (c.trace ++ [.sent hd p]) ++ _ = _
      rw [List.append_assoc]
      rfl

theorem sayAll_peers (c : Core) (outs : List Out) : (c.sayAll outs).peers = c.peers := by
  induction outs generalizing c with
  | nil => rfl
  | cons o outs ih =>
    rw [show c.sayAll (o :: outs) = (c.say o).sayAll outs from rfl, ih]
    cases o <;> rfl

theorem put_peers (c : Core) (st' : Option Stream) (os : Os) :
    { c with streams := c.streams.put j st', os := os }.peers =
      ⟨Function.update c.peers.remote j (st'.map Stream.remoteId), c.peers.nextId⟩ := by
  unfold peers
  congr 1
  funext i
  simp only [StreamManager.get, StreamManager.put, Function.update_apply]
  split <;> rfl

theorem apply_peers {st st' : Stream} {e : Effect} (hst : c.streams.get j = some st)
    (hst' : e.stream = some st') (hr : st'.remoteId = st.remoteId) :
    (c.apply j e).peers = c.peers := by
  have hpeer : c.peers.remote j = some st.remoteId := by simp only [peers, hst, Option.map_some]
  rw [apply, sayAll_peers, put_peers, hst', Option.map_some, hr, ← hpeer, Function.update_eq_self]

/-- **An effect strikes its stream**: it says at most what a stream may say. -/
theorem struck_apply {st : Stream} {e : Effect} (hst : c.streams.get j = some st)
    (hs : Speaks j st e) : Struck c.peers j e.messages (c.apply j e).peers := by
  have hpeer : c.peers.remote j = some st.remoteId := by simp only [peers, hst, Option.map_some]
  cases hs with
  | kept hst' hr hm hone =>
    rw [apply_peers hst hst' hr]
    unfold Effect.messages
    generalize e.outs.filterMap Out.message? = ms at hm hone
    match ms with
    | [] => exact .silent
    | [(h, p)] =>
      obtain ⟨hc, h0, h1⟩ := hm _ (.head _)
      exact .wrte hpeer hc h0 h1
    | _ :: _ :: _ =>
      simp only [List.length_cons] at hone
      omega
  | closed hst' ho =>
    have hm : e.messages = [(bareHeader .clse j st.remoteId, [])] := by rw [Effect.messages, ho]; rfl
    rw [hm, apply, sayAll_peers, put_peers, hst', Option.map_none]
    exact .clse hpeer

theorem strike_trace {f : Stream → Except Panic Effect} (hs : c.strike j f = .ok c')
    (hf : ∀ st e, f st = .ok e → Speaks j st e) :
    ∃ ms, c'.trace = c.trace ++ ms.map said ∧ Struck c.peers j ms c'.peers := by
  unfold strike at hs
  split at hs
  · cases hs
    exact ⟨[], (List.append_nil _).symm, .silent⟩
  · rename_i st hst
    obtain ⟨e, he, rfl⟩ := map_eq_ok.mp hs
    exact ⟨e.messages, sayAll_trace _ _, struck_apply hst (hf st e he)⟩

theorem onOkay_trace (hc : h.command = .okay) (hp : p = none)
    (hs : c.strike h.arg1 (onOkay env c.version h.arg1 c.os) = .ok c') :
    ∃ ms, c'.trace = c.trace ++ ms.map said ∧ Replies c.peers h p ms c'.peers := by
  unfold strike at hs
  split at hs
  · cases hs
    exact ⟨[], (List.append_nil _).symm, .okay hc hp .silent⟩
  · rename_i st hst
    obtain ⟨e, he, rfl⟩ := map_eq_ok.mp hs
    have hsp := onOkay_speaks he
    obtain ⟨st', hst'⟩ := Option.isSome_iff_exists.mp (onOkay_keeps he)
    have hr : st'.remoteId = st.remoteId := by
      cases hsp with
      | kept h1 hr _ _ =>
        cases h1.symm.trans hst'
        exact hr
      | closed h1 _ => cases h1.symm.trans hst'
    have hstruck := struck_apply hst hsp
    have hpeers := apply_peers (c := c) hst hst' hr
    rw [hpeers] at hstruck ⊢
    exact ⟨e.messages, sayAll_trace _ _, .okay hc hp hstruck⟩

theorem onClse_trace (hc : h.command = .clse)
    (hs : c.strike h.arg1 (fun st => onClse env h.arg1 c.os st h.arg0) = .ok c') :
    ∃ ms, c'.trace = c.trace ++ ms.map said ∧ Replies c.peers h p ms c'.peers := by
  unfold strike at hs
  split at hs
  · rename_i hnone
    cases hs
    refine ⟨[], (List.append_nil _).symm, .clse hc (fun r hr => ?_) .silent (List.forall_mem_nil _)⟩
    simp only [peers, hnone, Option.map_none] at hr
    cases hr
  · rename_i st hst
    obtain ⟨e, he, rfl⟩ := map_eq_ok.mp hs
    refine ⟨e.messages, sayAll_trace _ _, .clse hc (fun r hr => ?_)
      (struck_apply hst (onClse_speaks he)) (onClse_messages he)⟩
    simp only [peers, hst, Option.map_some] at hr
    exact (Option.some.inj hr).symm.trans (onClse_peer he)

theorem onCnxn_trace (hc : h.command = .cnxn) (hp : p.isSome) (hs : c.onCnxn h = .ok c') :
    ∃ ms, c'.trace = c.trace ++ ms.map said ∧ Replies c.peers h p ms c'.peers := by
  obtain ⟨⟨r, identity⟩, hr, h1⟩ := bind_eq_ok.mp hs
  cases h1
  rw [cnxnResponse_eq] at hr
  obtain ⟨r', hh, he⟩ := map_eq_ok.mp hr
  cases he
  exact ⟨[(r, _)], rfl, .cnxn hc hp (headerFromPayload_ok hh).1⟩

theorem added_peers (svc : Service) (os : Os) (r : UInt32) :
    (c.added svc os r).peers = c.peers.add r := by
  unfold peers added Peers.add
  congr 1
  funext i
  simp only [StreamManager.get, StreamManager.put, Function.update_apply]
  split <;> rfl

theorem onOpen_trace {payload : Bytes} (hc : h.command = .open) (hp : p.isSome)
    (hs : c.onOpen env h payload = .ok c') :
    ∃ ms, c'.trace = c.trace ++ ms.map said ∧ Replies c.peers h p ms c'.peers := by
  unfold onOpen at hs
  split at hs
  · cases hs
    exact ⟨[_], rfl, .refused hc hp⟩
  · rename_i svc os _
    split at hs
    · obtain ⟨outs, ho, h1⟩ := bind_eq_ok.mp hs
      cases h1
      have hnone : outs.filterMap Out.message? = [] :=
        List.filterMap_eq_nil_iff.mpr fun o ho' => Dev.firstRead_message ho o ho'
      have hpeers : (((c.added svc os h.arg0).say (okayOut c.streams.nextId h.arg0)).sayAll outs).peers =
          c.peers.add h.arg0 := by
        rw [sayAll_peers]
        exact added_peers svc os h.arg0
      refine ⟨[(bareHeader .okay c.streams.nextId h.arg0, [])], ?_, hpeers ▸ .opened hc hp⟩
      rw [sayAll_trace, hnone]
      exact List.append_nil _
    · cases hs

/-- **A message of the host is answered at once.** -/
theorem handleCommand_trace (hs : c.handleCommand env h p = .ok c') :
    ∃ ms, c'.trace = c.trace ++ .heard h p :: ms.map said ∧ Replies c.peers h p ms c'.peers := by
  have hcons : ∀ {ms : List (AdbHeader × Bytes)}, c'.trace = (c.log (.heard h p)).trace ++ ms.map said →
      c'.trace = c.trace ++ .heard h p :: ms.map said := by
    intro ms hm
    rw [hm]
    exact List.append_assoc ..
  unfold handleCommand at hs
  simp only at hs
  cases hc : h.command with
  | cnxn =>
    cases p with
    | none =>
      rw [hc] at hs
      cases hs
    | some payload =>
      rw [hc] at hs
      obtain ⟨ms, hm, hr⟩ := onCnxn_trace hc (p := some payload) rfl hs
      exact ⟨ms, hcons hm, hr⟩
  | «open» =>
    cases p with
    | none =>
      rw [hc] at hs
      cases hs
    | some payload =>
      rw [hc] at hs
      obtain ⟨ms, hm, hr⟩ := onOpen_trace hc (p := some payload) rfl hs
      exact ⟨ms, hcons hm, hr⟩
  | wrte =>
    cases p with
    | none =>
      rw [hc] at hs
      cases hs
    | some payload =>
      rw [hc] at hs
      obtain ⟨ms, hm, hr⟩ := strike_trace hs fun st e he => onWrte_speaks he
      refine ⟨_ :: ms, hcons ?_, .wrte hc rfl hr⟩
      rw [hm]
      exact List.append_assoc ..
  | okay =>
    cases p with
    | some payload =>
      rw [hc] at hs
      cases hs
    | none =>
      rw [hc] at hs
      obtain ⟨ms, hm, hr⟩ := onOkay_trace hc rfl hs
      exact ⟨ms, hcons hm, hr⟩
  | clse =>
    rw [hc] at hs
    have hs : (c.log (.heard h p)).strike h.arg1 (fun st => onClse env h.arg1 c.os st h.arg0) =
        .ok c' := by
      cases p <;> exact hs
    obtain ⟨ms, hm, hr⟩ := onClse_trace hc hs
    exact ⟨ms, hcons hm, hr⟩
  | auth =>
    rw [hc] at hs
    have hs : c.log (.heard h p) = c' := by cases p <;> exact Except.ok.inj hs
    rw [← hs]
    exact ⟨[], rfl, .ignored (.inl hc)⟩
  | stls =>
    rw [hc] at hs
    have hs : c.log (.heard h p) = c' := by cases p <;> exact Except.ok.inj hs
    rw [← hs]
    exact ⟨[], rfl, .ignored (.inr hc)⟩

theorem panics_ok {α : Type} {x : Except Panic α} {a : α} (h : panics x = .ok a) : x = .ok a := by
  cases x with
  | error p => cases h
  | ok b =>
    cases h
    rfl

/-- One step of the conversation. -/
def Exchanges (c c' : Core) : Prop :=
  ∃ new, c'.trace = c.trace ++ new ∧ Exchange c.peers new c'.peers

theorem Exchanges.silent (ht : c'.trace = c.trace) (hp : c'.peers = c.peers) : c.Exchanges c' :=
  ⟨[], by rw [ht, List.append_nil], hp ▸ .silent⟩

theorem onHeader_trace {data : Bytes} (hs : c.onHeader env data = .ok c') : c.Exchanges c' := by
  unfold onHeader at hs
  simp only at hs
  split at hs
  · split at hs
    · cases hs
      exact ⟨_, rfl, .header data⟩
    · obtain ⟨ms, hm, hr⟩ := handleCommand_trace (panics_ok hs)
      exact ⟨_, hm.trans (List.append_assoc ..), .bare hr⟩
  · cases hs
    exact ⟨_, rfl, .header data⟩

theorem onPayload_trace {data : Bytes} (hs : c.onPayload env data = .ok c') : c.Exchanges c' := by
  unfold onPayload at hs
  simp only at hs
  split at hs
  · obtain ⟨bad, hb, h1⟩ := bind_eq_ok.mp (panics_ok hs)
    cases bad with
    | true =>
      cases h1
      exact ⟨_, rfl, .payload data⟩
    | false =>
      obtain ⟨ms, hm, hr⟩ := handleCommand_trace h1
      exact ⟨_, hm.trans (List.append_assoc ..), .loaded hr⟩
  · cases hs
    exact ⟨_, rfl, .payload data⟩

theorem handle_trace {q : Cqe} (hs : c.handle env q = .ok c') : c.Exchanges c' := by
  have hread : ∀ (op : UserDataOpType) (j : NonZeroU32),
      panics (c.strike j.1 fun st => onRead c.version j.1 c.os st op q.res) = .ok c' →
      c.Exchanges c' := by
    intro op j hd
    obtain ⟨ms, hm, hr⟩ := strike_trace (panics_ok hd) fun st e he => onRead_speaks he
    exact ⟨_, hm, .unasked hr⟩
  have hsame : c' = c → c.Exchanges c' := fun he => he ▸ .silent rfl rfl
  unfold handle at hs
  cases ht : UserData.tryFrom q.userData with
  | none =>
    rw [ht] at hs
    cases hs
    exact hsame rfl
  | some u =>
    obtain ⟨op, x⟩ := u
    rw [ht] at hs
    cases op with
    | ptyRead =>
      cases x with
      | none => cases hs
      | some j => exact hread .ptyRead j hs
    | socketRead =>
      cases x with
      | none => cases hs
      | some j => exact hread .socketRead j hs
    | bulkInWrite =>
      cases hs
      exact hsame rfl
    | ep0Poll =>
      simp only at hs
      split at hs
      · cases hs
      · split at hs
        · cases hs
        · cases hs
          exact hsame rfl
    | bulkOutReadHeader =>
      obtain ⟨data, -, h1⟩ := bind_eq_ok.mp hs
      exact onHeader_trace h1
    | bulkOutReadPayload =>
      obtain ⟨data, -, h1⟩ := bind_eq_ok.mp hs
      exact onPayload_trace h1

/-- A read buffer is no part of the conversation. -/
theorem fill_silent (c : Core) (op : UserDataOpType) (i : UInt32) (bytes : Bytes) :
    c.Exchanges (c.fill op i bytes) := by
  unfold fill
  split
  · rename_i st hst
    have hr : c.peers.remote i = some st.remoteId := by simp only [peers, hst, Option.map_some]
    have hself := Function.update_eq_self i c.peers.remote
    refine .silent rfl ?_
    rw [put_peers c _ c.os, Option.map_some, ← hr, hself]
  · exact .silent rfl rfl

theorem step_exchange {i : Input} (hs : c.step i = .ok c') : c.Exchanges c' := by
  cases i with
  | bulk bytes =>
    cases hs
    exact .silent rfl rfl
  | fill op i bytes =>
    cases hs
    exact fill_silent c op i bytes
  | done env q => exact handle_trace hs

/-- The history is a conversation that comes to the table. -/
def Conversed (c : Core) : Prop := Conversation c.trace c.peers

theorem Conversed.step {i : Input} (h : c.Conversed) (hs : c.step i = .ok c') : c'.Conversed := by
  obtain ⟨new, hnew, hex⟩ := step_exchange hs
  unfold Conversed
  rw [hnew]
  exact .snoc h hex

end Core

def Sys.peers (s : Sys) : Peers :=
  ⟨fun i => (s.dev.streams.get i).map Stream.remoteId, s.dev.streams.nextId⟩

/-- **Every message is answered at once, and nothing else is said but by a stream.** The
history of every run is a conversation: whatever the host sends and in whatever order
operations complete, each dispatched message is followed by its answer before the next
transfer is read, and unasked an open stream says a WRTE to its peer, or the CLSE with
which it is dropped, and nothing else. The streams the conversation opened and did not
drop are those of the table. -/
theorem run_is_conversation {info : DeviceInfo} {os : Os} {s : Sys}
    (h : Reach Sys.step (fun _ _ => True) (Sys.start info os) s) :
    Conversation s.dev.trace s.peers :=
  Reach.of_abstract (I := Core.Conversed) Sys.step_core h .nil fun _ _ _ hc hs => hc.step hs

/-- A shell is opened: two transfers, the OPEN and its OKAY. -/
theorem run_is_conversation_open : ∃ s, Reach Sys.step (fun _ _ => True) Sys.fresh s ∧
    s.dev.sent = [(bareHeader .okay 1 7, [])] ∧ s.peers.remote 1 = some 7 ∧ s.peers.nextId = 2 ∧
    Conversation s.dev.trace s.peers := by
  have hplay : (Sys.fresh.play (fun _ _ => true) Sys.openShell).map (fun s =>
      (s.dev.sent, s.peers.remote 1, s.peers.nextId)) =
      some ([(bareHeader .okay 1 7, [])], some 7, 2) := by
    decide +kernel
  obtain ⟨s, hs, he⟩ := Option.map_eq_some_iff.mp hplay
  simp only [Prod.mk.injEq] at he
  obtain ⟨hsent, hpeer, hnext⟩ := he
  have hreach : Reach Sys.step (fun _ _ => True) Sys.fresh s :=
    Sys.reach_of_play (fun _ _ _ => trivial) hs
  exact ⟨s, hreach, hsent, hpeer, hnext, run_is_conversation hreach⟩

end Adibi
