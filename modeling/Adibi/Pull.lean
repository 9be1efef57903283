import Adibi.Reads

/-!
# Pulls

The frames of a pull. After an accepted RECV on a sync stream that the host
otherwise leaves alone, the WRTEs of the stream carry DATA frames with the bytes
read from the file, in order, and then one DONE or FAIL. `Pulling` is a pull part
way through; an OKAY moves it by one frame (`Pulling.okay`).
-/

namespace Adibi

open Lib

/-- The frame of a chunk. -/
def chunkFrame (chunk : Bytes) : Bytes :=
  (SyncFrameResponseHeader.mk .data (UInt32.ofNat chunk.length)).asLeBytes ++ chunk

/-- How a pull ends: at the end of the file, or with an error of `read`. -/
inductive PullEnd where
  | done
  | fail (error : IoError)

def PullEnd.text : PullEnd → Bytes
  | .done => []
  | .fail error => ascii "read error: " ++ error

/-- The last frame of a pull. -/
def PullEnd.frame : PullEnd → Bytes
  | .done => (SyncFrameResponseHeader.mk .done 0).asLeBytes
  | .fail error =>
    (SyncFrameResponseHeader.mk .fail (UInt32.ofNat (PullEnd.fail error).text.length)).asLeBytes ++
      (PullEnd.fail error).text

/-! ## One frame -/

/-- What the next `read` of a file brings, at an offset: a chunk of what is left, the
end of the file, or the error it fails with. -/
def nextRead (env : Env) (content : Bytes) (offset : Nat) : Bytes ⊕ PullEnd :=
  match env.fail .read with
  | some error => .inr (.fail error)
  | none =>
    match (content.drop offset).take (min payloadSizeMaxBytes (max 1 (env.amount .read))) with
    | [] => .inr .done
    | b :: bs => .inl (b :: bs)

section

variable {env : Env} {fs : Fs} {sender sender' : FileSender} {r : Option SyncResponse}

/-- The next frame of an unfinished transfer: a chunk of what is left of the
file, or the end, with an error only where `read` fails with it. -/
theorem FileSender.nextFrame_cases (hd : sender.done = false)
    (h : sender.nextFrame env fs = .ok (r, sender')) :
    (∃ chunk hdr, r = some (hdr, chunk) ∧ hdr.asLeBytes ++ chunk = chunkFrame chunk ∧
      chunk ≠ [] ∧ chunk.length ≤ payloadSizeMaxBytes ∧
      nextRead env (fs.inodes sender.file.ino).content sender.file.offset = .inl chunk ∧
      sender' = ⟨⟨sender.file.ino, sender.file.moved ++ chunk⟩, false⟩) ∨
    (∃ hdr data e, r = some (hdr, data) ∧ hdr.asLeBytes ++ data = PullEnd.frame e ∧
      nextRead env (fs.inodes sender.file.ino).content sender.file.offset = .inr e ∧
      sender'.done = true) := by
  unfold FileSender.nextFrame at h
  rw [if_neg (by rw [hd]; exact Bool.false_ne_true)] at h
  cases hr : fs.read env sender.file payloadSizeMaxBytes with
  | error e =>
    rw [hr] at h
    obtain ⟨⟨hdr, data⟩, hf, h1⟩ := bind_eq_ok.mp h
    cases h1
    obtain ⟨n, hn, he⟩ := bind_eq_ok.mp hf
    cases he
    have hfail : env.fail .read = some e := by
      unfold Fs.read at hr
      split at hr
      · rename_i he
        cases hr
        exact he
      · cases hr
    refine .inr ⟨_, _, .fail e, rfl, ?_, by rw [nextRead, hfail], rfl⟩
    rw [PullEnd.frame, PullEnd.text]
    have : n = UInt32.ofNat (ascii "read error: " ++ e).length :=
      UInt32.toNat_inj.mp (by
        rw [lenU32_ok hn]
        unfold lenU32 at hn
        split at hn
        · rename_i hlt
          exact (UInt32.toNat_ofNat_of_lt' hlt).symm
        · cases hn)
    rw [this]
  | ok x =>
    obtain ⟨chunk, file'⟩ := x
    rw [hr] at h
    unfold Fs.read at hr
    split at hr
    · cases hr
    rename_i hok
    cases hc : chunk with
    | nil =>
      subst hc
      simp only [Except.ok.injEq, Prod.mk.injEq] at hr
      cases h
      refine .inr ⟨_, _, .done, rfl, List.append_nil _, ?_, rfl⟩
      simp only [nextRead, hok, hr.1]
    | cons b bs =>
      simp only [Except.ok.injEq, Prod.mk.injEq] at hr
      obtain ⟨hchunk, hfile⟩ := hr
      rw [hc] at h
      obtain ⟨⟨hdr, data⟩, hf, h1⟩ := bind_eq_ok.mp h
      cases h1
      obtain ⟨n, hn, he⟩ := bind_eq_ok.mp hf
      cases he
      have hle : (b :: bs).length ≤ payloadSizeMaxBytes := by
        rw [← hc, ← hchunk, List.length_take]
        omega
      have hnext : nextRead env (fs.inodes sender.file.ino).content sender.file.offset =
          .inl (b :: bs) := by
        simp only [nextRead, hok, hchunk, hc]
      refine .inl ⟨_, _, rfl, ?_, List.cons_ne_nil b bs, hle, hnext, ?_⟩
      · rw [chunkFrame]
        rw [lenU32_of_lt (Nat.lt_of_le_of_lt hle (by decide))] at hn
        cases hn
        rfl
      · rw [← hfile, ← hd]
        simp only [hchunk, hc]

end

/-! ## A pull part way through -/

/-- The chunks sent so far and the end, if it was sent, on a stream that had
sent `base` before the pull of inode `ino`. -/
structure Pulling (base : List Bytes) (ino : Nat) (w : View) (chunks : List Bytes)
    (ending : Option PullEnd) : Prop where
  sent : w.wrtes = base ++ chunks.map chunkFrame ++ (ending.map PullEnd.frame).toList
  chunk : ∀ c ∈ chunks, c ≠ [] ∧ c.length ≤ payloadSizeMaxBytes
  going : ending = none → ∃ st, w.stream = some st ∧
    st.service = .sync ⟨.sending ⟨⟨ino, chunks.flatten⟩, false⟩⟩
  finished : ending ≠ none → ∃ st, w.stream = some st ∧ (st.service = .sync ⟨.idle⟩ ∨
    ∃ sender : FileSender, st.service = .sync ⟨.sending sender⟩ ∧ sender.done = true)

/-- The chunks are what a file of this content has before the offset, and all of
it when the transfer is done. -/
def ReadsOff (content : Bytes) (chunks : List Bytes) (ending : Option PullEnd) : Prop :=
  chunks.flatten <+: content ∧ (ending = some .done → chunks.flatten = content)

theorem prefix_take_drop {p c : Bytes} {n : Nat} (h : p <+: c) :
    p ++ (c.drop p.length).take n <+: c := by
  obtain ⟨t, rfl⟩ := h
  rw [List.drop_left]
  obtain ⟨u, hu⟩ := List.take_prefix n t
  exact ⟨u, by rw [List.append_assoc, hu]⟩

/-- What a read adds to the chunks. -/
def grown (chunks : List Bytes) : Bytes ⊕ PullEnd → List Bytes
  | .inl chunk => chunks ++ [chunk]
  | .inr _ => chunks

/-- The end a read brings. -/
def ended : Bytes ⊕ PullEnd → Option PullEnd
  | .inl _ => none
  | .inr e => some e

theorem ReadsOff.next {content : Bytes} {chunks : List Bytes} (h : ReadsOff content chunks none)
    (env : Env) : ReadsOff content (grown chunks (nextRead env content chunks.flatten.length))
      (ended (nextRead env content chunks.flatten.length)) := by
  unfold nextRead
  split
  · exact ⟨h.1, by rintro ⟨⟩⟩
  · split
    · rename_i hnil
      refine ⟨h.1, fun _ => h.1.eq_of_length_le ?_⟩
      have hlen := congrArg List.length hnil
      simp only [List.length_take, List.length_drop, List.length_nil, payloadSizeMaxBytes] at hlen
      omega
    · rename_i b bs hcons
      refine ⟨?_, by rintro ⟨⟩⟩
      simp only [grown, List.flatten_append, List.flatten_singleton]
      rw [← hcons]
      exact prefix_take_drop h.1

theorem ended_fail {env : Env} {content : Bytes} {offset : Nat} {error : IoError}
    (h : ended (nextRead env content offset) = some (.fail error)) :
    env.fail .read = some error := by
  unfold nextRead at h
  split at h
  · rename_i e he
    cases h
    exact he
  · split at h <;> cases h

section

variable {base : List Bytes} {ino : Nat} {w : View} {chunks : List Bytes} {ending : Option PullEnd}
  {env : Env} {v : ProtocolVersion} {i : UInt32} {os : Os} {st : Stream} {e : Effect}

theorem continueSync_sending {file : File} (hw : st.waitingForOkay = false)
    (hsv : st.service = .sync ⟨.sending ⟨file, false⟩⟩) (h : continueSync env v i os st = .ok e) :
    ∃ hdr data sender', FileSender.nextFrame env os.fs ⟨file, false⟩ = .ok (some (hdr, data), sender') ∧
      e.stream = some { st with service := .sync ⟨.sending sender'⟩, waitingForOkay := true } ∧
      ∀ w : View, (w.plus i e.outs).wrtes = w.wrtes ++ [hdr.asLeBytes ++ data] := by
  rcases continueSync_cases h with ⟨-, hno⟩ | ⟨-, sender, sender', hdr, data, o, hs, hn, ho, rfl⟩ |
    ⟨-, sender, sender', hs, hn, -⟩
  · rcases hno with hw' | hno
    · rw [hw] at hw'
      cases hw'
    · exact absurd hsv (hno _)
  · cases hsv.symm.trans hs
    exact ⟨hdr, data, sender', hn, rfl, fun w => by rw [View.plus_wrteOut ho]⟩
  · cases hsv.symm.trans hs
    rcases FileSender.nextFrame_cases rfl hn with ⟨_, _, hr, -⟩ | ⟨_, _, _, hr, -⟩ <;> cases hr

theorem Pulling.frame (h : Pulling base ino w chunks none) {w' : View} {st' : Stream}
    {hdr : SyncFrameResponseHeader} {data : Bytes} {sender' : FileSender} {fs : Fs}
    (hn : FileSender.nextFrame env fs ⟨⟨ino, chunks.flatten⟩, false⟩ = .ok (some (hdr, data), sender'))
    (hw : w'.wrtes = w.wrtes ++ [hdr.asLeBytes ++ data]) (hst : w'.stream = some st')
    (hsv : st'.service = .sync ⟨.sending sender'⟩) :
    Pulling base ino w'
      (grown chunks (nextRead env (fs.inodes ino).content chunks.flatten.length))
      (ended (nextRead env (fs.inodes ino).content chunks.flatten.length)) := by
  have hsent := h.sent
  simp only [Option.map_none, Option.toList_none, List.append_nil] at hsent
  rcases FileSender.nextFrame_cases rfl hn with ⟨chunk, hdr', hr, hf, hne, hle, hread, rfl⟩ |
    ⟨hdr', data', en, hr, hf, hread, hdone⟩
  · cases hr
    have hread' : nextRead env (fs.inodes ino).content chunks.flatten.length = .inl data := hread
    rw [hread']
    refine ⟨?_, ?_, fun _ => ⟨st', hst, ?_⟩, fun hn => absurd rfl hn⟩
    · rw [hw, hsent, hf]
      simp [grown, ended]
    · intro c hmem
      rcases List.mem_append.mp hmem with hm | hm
      · exact h.chunk c hm
      · cases List.mem_singleton.mp hm
        exact ⟨hne, hle⟩
    · rw [hsv]
      simp [grown]
  · cases hr
    have hread' : nextRead env (fs.inodes ino).content chunks.flatten.length = .inr en := hread
    rw [hread']
    refine ⟨?_, h.chunk, (fun h => nomatch h), fun _ => ⟨st', hst, .inr ⟨_, hsv, hdone⟩⟩⟩
    rw [hw, hsent, hf]
    simp [grown, ended]

/-- **An OKAY during a pull reads the file once and sends one frame; after the end it
does neither.** -/
theorem Pulling.okay {w' : View} (h : Pulling base ino w chunks ending)
    (hs : w.step env v os i .okay = .ok w') :
    (ending = none → (∃ frame, w'.wrtes = w.wrtes ++ [frame]) ∧ Pulling base ino w'
      (grown chunks (nextRead env (os.fs.inodes ino).content chunks.flatten.length))
      (ended (nextRead env (os.fs.inodes ino).content chunks.flatten.length))) ∧
    (ending ≠ none → w'.wrtes = w.wrtes ∧ Pulling base ino w' chunks ending) := by
  cases ending with
  | none =>
    obtain ⟨st, hst, hsv⟩ := h.going rfl
    obtain ⟨e, he, rfl⟩ := View.through_some hs hst
    simp only [onOkay, hsv] at he
    obtain ⟨hdr, data, sender', hn, hest, hplus⟩ := continueSync_sending rfl rfl he
    have hw := hplus { w with okays := w.okays + 1, stream := e.stream }
    exact ⟨fun _ => ⟨⟨_, hw⟩, h.frame hn hw hest rfl⟩, fun hn => absurd rfl hn⟩
  | some en =>
    refine ⟨fun h => absurd h (Option.some_ne_none en), fun _ => ?_⟩
    obtain ⟨st, hst, hsv⟩ := h.finished (by simp)
    obtain ⟨e, he, rfl⟩ := View.through_some hs hst
    have hcont : continueSync env v i os { st with waitingForOkay := false } = .ok e := by
      unfold onOkay at he
      rcases hsv with hsv | ⟨sender, hsv, -⟩
      · simp only [hsv] at he ⊢
        exact he
      · simp only [hsv] at he ⊢
        exact he
    have hout : e.outs = [] ∧ ∃ st', e.stream = some st' ∧ (st'.service = .sync ⟨.idle⟩ ∨
        ∃ sender : FileSender, st'.service = .sync ⟨.sending sender⟩ ∧ sender.done = true) := by
      rcases continueSync_cases hcont with ⟨rfl, -⟩ |
        ⟨-, sender, sender', hdr, data, o, hs', hn, -, -⟩ | ⟨-, _, _, -, -, rfl⟩
      · exact ⟨rfl, _, rfl, hsv⟩
      · exfalso
        have hd : sender.done = true := by
          rcases hsv with hsv | ⟨sender1, hsv, hd⟩
          · cases hsv.symm.trans hs'
          · cases hsv.symm.trans hs'
            exact hd
        simp only [FileSender.nextFrame, hd, if_true] at hn
        cases hn
      · exact ⟨rfl, _, rfl, .inl rfl⟩
    obtain ⟨ho, st', hst', hsv'⟩ := hout
    rw [ho, View.plus_nil]
    exact ⟨rfl, h.sent, h.chunk, fun h => absurd h (Option.some_ne_none en),
      fun _ => ⟨st', hst', hsv'⟩⟩

theorem Pulling.recv {w' : View} {payload rest : Bytes} {path : Path} {file : File}
    (hst : w.stream = some st) (hidle : st.service = .sync ⟨.idle⟩)
    (hreq : parseSyncPacket payload = some (.recvV1 path, rest))
    (hopen : os.fs.open_ env path = .ok file) (hs : w.step env v os i (.wrte payload) = .ok w') :
    ∃ chunks ending, Pulling w.wrtes file.ino w' chunks ending ∧
      ReadsOff (os.fs.inodes file.ino).content chunks ending ∧
      ∀ error, ending = some (.fail error) → env.fail .read = some error := by
  have hfile : file = ⟨file.ino, []⟩ := by
    unfold Fs.open_ at hopen
    split at hopen
    · cases hopen
    · split at hopen
      · cases hopen
        rfl
      · cases hopen
  have hstart : ReadsOff (os.fs.inodes file.ino).content [] none :=
    ⟨List.nil_prefix, fun h => absurd h.symm (Option.some_ne_none _)⟩
  obtain ⟨e, he, rfl⟩ := View.through_some hs hst
  simp only [onWrte, hidle, onSync, SyncService.handle, SyncService.handleRequest, hreq,
    SyncService.handleRecvV1, hopen, ok_bind, pure_eq_ok] at he
  have h0 : Pulling w.wrtes file.ino
      { w with stream := some { st with service := .sync ⟨.sending ⟨file, false⟩⟩ } } [] none :=
    ⟨by simp, List.forall_mem_nil _, fun _ => ⟨_, rfl, by rw [List.flatten_nil, ← hfile]⟩,
      fun hn => absurd rfl hn⟩
  by_cases hw : st.waitingForOkay = true
  · have hcont : e = ⟨some { st with service := .sync ⟨.sending ⟨file, false⟩⟩ }, os, []⟩ := by
      rw [continueSync, if_pos hw] at he
      exact (Except.ok.inj he).symm
    subst hcont
    rw [View.plus_nil]
    exact ⟨[], none, h0, hstart, by rintro error ⟨⟩⟩
  · have hw' : st.waitingForOkay = false := by simpa using hw
    rw [hfile] at he
    have hw'' : ({ st with service := .sync ⟨.sending ⟨⟨file.ino, []⟩, false⟩⟩ } : Stream).waitingForOkay =
        false := hw'
    obtain ⟨hdr, data, sender', hn, hest, hplus⟩ := continueSync_sending hw'' rfl he
    have hw1 := hplus { w with stream := e.stream }
    have hst1 : ({ w with stream := e.stream }.plus i e.outs).stream = _ := hest
    exact ⟨_, _, h0.frame hn hw1 hst1 rfl, hstart.next env, fun _ => ended_fail⟩

end

/-! ## Along a run -/

/-- Nothing happens to the stream but OKAYs. -/
def OnlyOkays (i : UInt32) (s : Sys) (e : Event) : Prop := s.act e i = .none ∨ s.act e i = .okay

/-- The error reads of files fail with during an event. -/
def Sys.readError (_ : Sys) (e : Event) : List IoError := (e.env.fail .read).toList

/-- A pull of inode `ino` in a run: what it read of the file, and an end with an error
only if reads failed with that error. -/
structure Faithful (K : Sys → Prop) (base : List Bytes) (ino : Nat) (i : UInt32)
    (p : Sys × List IoError) (chunks : List Bytes) (ending : Option PullEnd) : Prop where
  pulling : Pulling base ino (p.1.view i) chunks ending
  reads : ∀ content, (∀ t, K t → (t.dev.os.fs.inodes ino).content = content) →
    ReadsOff content chunks ending
  failed : ∀ error, ending = some (.fail error) → error ∈ p.2

theorem Faithful.okay {K : Sys → Prop} {base : List Bytes} {ino : Nat} {i : UInt32} {s s' : Sys}
    {errors : List IoError} {chunks : List Bytes} {ending : Option PullEnd} {e : Event}
    (h : Faithful K base ino i (s, errors) chunks ending) (hK : K s) (hs : s.step e = .ok s')
    (ha : s.act e i = .okay) :
    ∃ chunks' ending', Faithful K base ino i (s', errors ++ s.readError e) chunks' ending' := by
  have hv := Sys.step_view hs i
  rw [ha] at hv
  have hok := h.pulling.okay hv
  cases ending with
  | none =>
    refine ⟨_, _, (hok.1 rfl).2, fun content hc => ?_, fun error he => ?_⟩
    · rw [hc s hK]
      exact (h.reads content hc).next e.env
    · have herr := ended_fail he
      exact List.mem_append_right _ (by simp [Sys.readError, herr])
  | some en =>
    exact ⟨_, _, (hok.2 (Option.some_ne_none en)).2, h.reads,
      fun error he => List.mem_append_left _ (h.failed error he)⟩

/-- **A pull is faithful.** After a RECV accepted by an idle sync stream, and
while the host sends nothing but OKAYs on it, the stream carries the chunks read
from the file and then one end frame, a FAIL only with an error that reads failed
with; in a run during which the file keeps its content (`K`), the chunks are the
content up to the offset, all of it at DONE. Each OKAY before the end brings exactly
one frame, which is what the read of that event brings; after the end, none. -/
theorem pull_faithful {K : Sys → Prop} {s₀ s₁ s : Sys} {e : Event} {i : UInt32} {st : Stream}
    {payload rest : Bytes} {path : Path} {file : File} {errors : List IoError}
    (hst : s₀.dev.streams.get i = some st)
    (hidle : st.service = .sync ⟨.idle⟩) (hact : s₀.act e i = .wrte payload)
    (hreq : parseSyncPacket payload = some (.recvV1 path, rest))
    (hopen : s₀.dev.os.fs.open_ e.env path = .ok file) (hrecv : s₀.step e = .ok s₁) (hK : K s₀)
    (h : Reach (observed Sys.step Sys.readError) (fun p e => OnlyOkays i p.1 e ∧ K p.1)
      (s₁, s₀.readError e) (s, errors)) :
    ∃ chunks ending, Faithful K (s₀.view i).wrtes file.ino i (s, errors) chunks ending ∧
      ∀ e' s', s.step e' = .ok s' → s.act e' i = .okay →
        (ending = none → (∃ frame, (s'.view i).wrtes = (s.view i).wrtes ++ [frame]) ∧
          Pulling (s₀.view i).wrtes file.ino (s'.view i)
            (grown chunks (nextRead e'.env (s.dev.os.fs.inodes file.ino).content
              chunks.flatten.length))
            (ended (nextRead e'.env (s.dev.os.fs.inodes file.ino).content
              chunks.flatten.length))) ∧
        (ending ≠ none → (s'.view i).wrtes = (s.view i).wrtes) := by
  have hinv := h.invariant (I := fun p => ∃ chunks ending,
    Faithful K (s₀.view i).wrtes file.ino i p chunks ending) ?_ ?_
  · obtain ⟨chunks, ending, hp⟩ := hinv
    refine ⟨chunks, ending, hp, fun e' s' hs' ha => ?_⟩
    have hv := Sys.step_view hs' i
    rw [ha] at hv
    have hok := hp.pulling.okay hv
    exact ⟨hok.1, fun hn => (hok.2 hn).1⟩
  · have hv := Sys.step_view hrecv i
    rw [hact] at hv
    obtain ⟨chunks, ending, hp, hro, hfail⟩ := Pulling.recv hst hidle hreq hopen hv
    refine ⟨chunks, ending, hp, fun content hc => by rw [← hc s₀ hK]; exact hro, fun error he => ?_⟩
    simp [Sys.readError, hfail error he]
  · rintro ⟨t, errs⟩ e' ⟨u, errs'⟩ ⟨chunks, ending, hp⟩ ⟨hq, hKt⟩ hs
    obtain ⟨hstep, rfl⟩ : t.step e' = .ok u ∧ errs' = errs ++ t.readError e' := observed_ok hs
    rcases hq with ha | ha
    · have hv := Sys.step_view hstep i
      rw [ha] at hv
      refine ⟨chunks, ending, ?_, hp.reads, fun error he =>
        List.mem_append_left _ (hp.failed error he)⟩
      rw [← Except.ok.inj hv]
      exact hp.pulling
    · exact hp.okay hKt hstep ha

def Sys.withFile : Sys :=
  Sys.start ⟨[], [], [], []⟩ (.boot ⟨id, fun p => if p = ascii "/f" then some 0 else none,
    fun _ => ⟨ascii "hello", 0o100644, 0⟩, 1⟩)

def recvRequest : Bytes := ascii "RECV" ++ le32 2 ++ ascii "/f"

def Sys.recvArrived : Option Sys :=
  (Sys.withFile.play (fun _ _ => true)
    (Sys.openSync ++ (Sys.Turn.message .wrte 7 1 recvRequest).dropLast)).bind fun s =>
      runGuarded Sys.step (fun _ _ => true) s (s.turn (.payload recvRequest)).dropLast

def Sys.keepsHello (s : Sys) : Bool := (s.dev.os.fs.inodes 0).content == ascii "hello"

/-- Nothing but OKAYs for stream 1, and the file as it was. -/
def Sys.onlyOkays (s : Sys) (e : Event) : Bool :=
  (match s.act e 1 with | .none => true | .okay => true | _ => false) && s.keepsHello

def Sys.pulled (s : Sys) : Option (Sys × Sys × List IoError) :=
  (s.step (.handle {})).toOption.bind fun s₁ =>
    (Sys.playShown Sys.readError Sys.onlyOkays (s₁, [])
      (Sys.Turn.message .okay 7 1 [] ++ Sys.Turn.message .okay 7 1 [])).map fun p => (s₁, p)

/-- The whole file, and its DONE. -/
theorem pull_faithful_hello : ∃ (s₀ s₁ s : Sys) (chunks : List Bytes) (ending : Option PullEnd),
    Reach (observed Sys.step Sys.readError) (fun p e => OnlyOkays 1 p.1 e ∧ p.1.keepsHello = true)
      (s₁, []) (s, []) ∧ s₀.step (.handle {}) = .ok s₁ ∧
    Pulling (s₀.view 1).wrtes 0 (s.view 1) chunks ending ∧ ReadsOff (ascii "hello") chunks ending ∧
    (s.view 1).wrtes = (s₀.view 1).wrtes ++ [chunkFrame (ascii "hello"), PullEnd.done.frame] := by
  have hrun : (Sys.recvArrived.bind fun s₀ => s₀.pulled.map fun p => (s₀.dev.streams.get 1,
      (match s₀.act (.handle {}) 1 with | .wrte b => some b | _ => none),
      (s₀.dev.os.fs.open_ {} (ascii "/f")).toOption,
      s₀.keepsHello && (s₀.view 1).wrtes == [] && p.2.2 == [] &&
        (p.2.1.view 1).wrtes == [chunkFrame (ascii "hello"), PullEnd.done.frame])) =
        some (some ⟨7, .sync ⟨.idle⟩, false, false⟩, some recvRequest, some ⟨0, []⟩, true) := by
    decide +kernel
  obtain ⟨s₀, -, hs₀⟩ := Option.bind_eq_some_iff.mp hrun
  obtain ⟨⟨s₁, s, errors⟩, hp, he⟩ := Option.map_eq_some_iff.mp hs₀
  simp only [Prod.mk.injEq, Bool.and_eq_true, beq_iff_eq] at he
  obtain ⟨hget, hact, hopen, ⟨⟨hkeep, hbase⟩, rfl⟩, hwrtes⟩ := he
  obtain ⟨s₁', hrecv, hs⟩ := Option.bind_eq_some_iff.mp hp
  obtain ⟨p, hs, he⟩ := Option.map_eq_some_iff.mp hs
  cases he
  have hrecv' : s₀.step (.handle {}) = .ok s₁ := ok_of_toOption hrecv
  have hact' : s₀.act (.handle {}) 1 = .wrte recvRequest := by
    split at hact
    · rename_i b hb
      cases hact
      exact hb
    · cases hact
  have hopen' : s₀.dev.os.fs.open_ (Event.handle {}).env (ascii "/f") = .ok ⟨0, []⟩ :=
    ok_of_toOption hopen
  have hok : ∀ s e, Sys.onlyOkays s e = true → OnlyOkays 1 s e ∧ s.keepsHello = true := by
    intro s e ht
    obtain ⟨ht, hkeep⟩ := Bool.and_eq_true_iff.mp ht
    refine ⟨?_, hkeep⟩
    unfold OnlyOkays
    split at ht
    · rename_i ha
      exact .inl ha
    · rename_i ha
      exact .inr ha
    · cases ht
  have hreach : Reach (observed Sys.step Sys.readError)
      (fun p e => OnlyOkays 1 p.1 e ∧ p.1.keepsHello = true) (s₁, []) (s, []) :=
    Sys.reach_of_playShown hok hs
  obtain ⟨chunks, ending, hpull, -⟩ := pull_faithful (K := fun t => t.keepsHello = true) hget rfl
    hact' (by decide +kernel : parseSyncPacket recvRequest = some (.recvV1 (ascii "/f"), []))
    hopen' hrecv' hkeep hreach
  refine ⟨s₀, s₁, s, chunks, ending, hreach, hrecv', hpull.pulling,
    hpull.reads _ fun t ht => beq_iff_eq.mp ht, ?_⟩
  rw [hbase, hwrtes]
  rfl

end Adibi
