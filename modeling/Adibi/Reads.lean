import Adibi.Inversion
import Adibi.Moves

/-!
# Reads and acknowledgements

On a shell or forward stream the device alternates: a read in flight, then a
WRTE waiting for its OKAY, then a read again. `Paced` is this alternation as an
invariant of a stream's view; with a host that answers only what it was sent,
every act keeps it (`Paced.step`), so it holds in every reachable state
(`sound_of_reach`).
-/

namespace Adibi

open Lib

/-! ## The host -/

/-- The host sends an OKAY on a stream only for a WRTE it has not yet answered. -/
def HostOk (s : Sys) (e : Event) : Prop :=
  ∀ i, s.act e i = .okay → (s.view i).okays < (s.view i).wrtes.length

/-! ## The alternation -/

/-- A stream that is read has a read in flight or waits for an OKAY, not both,
and waits exactly while a WRTE is unanswered; no other read is in flight. -/
structure View.Paced (w : View) (st : Stream) : Prop where
  stray : ∀ op, st.service.reader ≠ some op → w.reads op = 0
  one : ∀ op, st.service.reader = some op → w.reads op + st.waitingForOkay.toNat = 1
  acked : st.service.reader.isSome → w.wrtes.length = w.okays + st.waitingForOkay.toNat

namespace View

variable {w w' : View} {env : Env} {v : ProtocolVersion} {os : Os} {i : UInt32}

/-- Nothing has happened on the stream. -/
def Fresh (w : View) : Prop := w = ⟨none, 0, 0, [], 0⟩

theorem Paced.of_eq {st : Stream} (h : w.Paced st) (hr : ∀ op, w'.reads op = w.reads op)
    (hw : w'.wrtes = w.wrtes) (ho : w'.okays = w.okays) : w'.Paced st :=
  ⟨fun op hop => by rw [hr]; exact h.stray op hop, fun op hop => by rw [hr]; exact h.one op hop,
    fun hs => by rw [hw, ho]; exact h.acked hs⟩

/-- A stream without reads is paced as long as none is submitted for it. -/
theorem paced_quiet {st : Stream} (h : ∀ op, w.reads op = 0) (hr : st.service.reader = none) :
    w.Paced st :=
  ⟨fun op _ => h op, fun op hop => (by rw [hr] at hop; cases hop),
    fun hs => (by rw [hr] at hs; cases hs)⟩

theorem Paced.no_reads {st : Stream} (h : w.Paced st) (hr : st.service.reader = none) (op) :
    w.reads op = 0 := h.stray op (by rw [hr]; exact fun e => nomatch e)

theorem Paced.reader_of_pos {st : Stream} {op : UserDataOpType} (h : w.Paced st)
    (hpos : 0 < w.reads op) : st.service.reader = some op := by
  by_contra hne
  rw [h.stray op hne] at hpos
  exact absurd hpos (Nat.lt_irrefl 0)

theorem Paced.relays {a : Act} {st st' : Stream} {op : UserDataOpType} (h : w.Paced st)
    (hst : w.stream = some st) (hr : st.service.reader = some op)
    (hokay : a = .okay → w.okays < w.wrtes.length)
    (hread : ∀ op res, a = .read op res → 0 < w.reads op)
    (hrel : Relays env w st op a w') (hst' : w'.stream = some st') : w'.Paced st' := by
  have hop := Service.reader_cases hr
  have hone := h.one op hr
  have hack := h.acked (by rw [hr]; rfl)
  cases hrel with
  | none =>
    cases hst.symm.trans hst'
    exact h
  | fill op' bytes =>
    cases hst'
    obtain ⟨h1, h2, h3⟩ := h
    exact ⟨by simpa using h1, by simpa using h2, by simpa using h3⟩
  | okay =>
    cases hst'
    have hlt := hokay rfl
    have hw : st.waitingForOkay.toNat = 1 := by
      have := st.waitingForOkay.toNat_le
      omega
    have hkept : ∀ op', ({ w with okays := w.okays + 1, stream := some st } : View).reads op' =
        w.reads op' := by
      intro op'
      cases op' <;> rfl
    refine ⟨fun op' hop' => ?_, fun op' hop' => ?_, fun _ => ?_⟩
    · rw [began_reads _ hop, if_neg (fun e => hop' (by rw [e]; exact hr))]
      exact (hkept op').trans (h.stray op' hop')
    · cases hr.symm.trans hop'
      rw [began_reads _ hop, if_pos rfl]
      have := hkept op
      show w.reads op + 1 + 0 = 1
      omega
    · show w.wrtes.length = w.okays + 1 + 0
      omega
  | wrte payload =>
    cases hst.symm.trans hst'
    exact h
  | failed _ => cases hst'
  | half r _ =>
    cases hst'
    have hkept : ({ w with stream := some { st with remoteClosed := true } } : View).Paced st :=
      h.of_eq (fun op => reads_stream ..) rfl rfl
    exact ⟨hkept.stray, hkept.one, hkept.acked⟩
  | closed r _ => cases hst'
  | ended op' _ => cases hst'
  | stray hne _ =>
    have := h.reader_of_pos (hread _ _ rfl)
    cases this.symm.trans hr
    exact absurd rfl hne
  | @relayed res data _ _ =>
    cases hst'
    have hpos := hread op res rfl
    refine ⟨fun op' hop' => ?_, fun op' hop' => ?_, fun _ => ?_⟩
    · show (w.ended op).reads op' = 0
      rw [ended_reads, if_neg (fun e => hop' (by rw [e]; exact hr))]
      exact h.stray op' hop'
    · cases hr.symm.trans hop'
      show (w.ended op).reads op + 1 = 1
      rw [ended_reads, if_pos rfl]
      omega
    · show (w.wrtes ++ [data]).length = w.okays + 1
      rw [List.length_append, List.length_singleton]
      omega

/-- **The alternation is kept by every act** of a host that answers only what it
was sent. -/
theorem Paced.step {a : Act} (h : ∀ st, w.stream = some st → w.Paced st)
    (hopen : ∀ r svc, a = .opened r svc → w.Fresh)
    (hokay : a = .okay → w.okays < w.wrtes.length)
    (hread : ∀ op res, a = .read op res → 0 < w.reads op)
    (hs : w.step env v os i a = .ok w') : ∀ st, w'.stream = some st → w'.Paced st := by
  intro st' hst'
  cases moves_of_step hs with
  | opened r svc =>
    have hf := hopen r svc rfl
    cases hf
    cases (begun_stream ..).symm.trans hst'
    refine ⟨fun op hop => ?_, fun op hop => ?_, fun _ => ?_⟩
    · rw [begun_reads, if_neg hop]
      cases op <;> rfl
    · rw [begun_reads, if_pos hop]
      cases op <;> rfl
    · rw [begun_wrtes, begun_okays]
      rfl
  | absent _ hst =>
    rw [noted_stream, hst] at hst'
    cases hst'
  | rests _ hst hr hq =>
    refine paced_quiet (fun op => ?_) (hq.reader st' hst')
    have hle := w.noted_reads a op
    rw [(h _ hst).no_reads hr op] at hle
    rw [hq.reads op]
    exact Nat.le_zero.mp hle
  | relays hst hr hrel => exact (h _ hst).relays hst hr hokay hread hrel hst'

end View

/-! ## Along a run -/

/-- Every open stream is paced, and nothing has happened on an id not yet given. -/
structure Sys.Sound (s : Sys) : Prop where
  paced : ∀ i st, s.dev.streams.get i = some st → (s.view i).Paced st
  fresh : ∀ i, s.nextId.toNat ≤ i.toNat → (s.view i).Fresh

theorem View.Fresh.step {w w' : View} {env : Env} {v : ProtocolVersion} {os : Os} {i : UInt32} {a : Act}
    (h : w.Fresh) (hopen : ∀ r svc, a ≠ .opened r svc) (hokay : a = .okay → w.okays < w.wrtes.length)
    (hread : ∀ op res, a = .read op res → 0 < w.reads op) (hs : w.step env v os i a = .ok w') :
    w'.Fresh := by
  cases h
  cases a with
  | none =>
    cases hs
    rfl
  | fill op bytes =>
    cases hs
    rfl
  | opened r svc => exact absurd rfl (hopen r svc)
  | okay => exact absurd (hokay rfl) (Nat.lt_irrefl 0)
  | wrte payload => exact (Except.ok.inj hs).symm
  | clse r => exact (Except.ok.inj hs).symm
  | read op res =>
    have := hread op res rfl
    cases op <;> exact absurd this (Nat.lt_irrefl 0)

namespace Sys

theorem act_reads {s : Sys} {e : Event} {i : UInt32} {op : UserDataOpType} {res : Int}
    (h : s.act e i = .read op res) : 0 < (s.view i).reads op := by
  rcases act_read h with ⟨rfl, hp⟩ | ⟨rfl, hp⟩
  · exact hp
  · exact hp

theorem start_view (info : DeviceInfo) (os : Os) (i : UInt32) : ((start info os).view i).Fresh := by
  have hcount : ∀ op : UserDataOpType, op = .ptyRead ∨ op = .socketRead →
      (start info os).outstanding.count (readTag op i) = 0 := by
    intro op hop
    refine List.count_eq_zero.mpr fun hmem => ?_
    have htag : (start info os).outstanding =
        [(UserData.mk .ep0Poll none).toU64, (UserData.mk .bulkOutReadHeader none).toU64] := rfl
    rw [htag] at hmem
    simp only [List.mem_cons, List.not_mem_nil, or_false, readTag] at hmem
    rcases hmem with h | h
    · have := congrArg UserData.opType (UserData.toU64_injective h)
      rcases hop with rfl | rfl <;> cases this
    · have := congrArg UserData.opType (UserData.toU64_injective h)
      rcases hop with rfl | rfl <;> cases this
  show View.mk none _ _ [] 0 = _
  exact congrArg₂ (fun a b => View.mk none a b [] 0) (hcount .ptyRead (.inl rfl))
    (hcount .socketRead (.inr rfl))

theorem Sound.start (info : DeviceInfo) (os : Os) : (Sys.start info os).Sound where
  paced _ _ h := by cases h
  fresh i _ := start_view info os i

/-- **A step keeps the alternation.** -/
theorem Sound.step {s s' : Sys} {e : Event} (h : s.Sound) (hok : HostOk s e)
    (hs : s.step e = .ok s') : s'.Sound := by
  have hview := fun i => step_view hs i
  refine ⟨fun i st hst => ?_, fun i hi => ?_⟩
  · refine View.Paced.step (h.paced i) (fun r svc ha => ?_) (hok i) (fun op res ha => act_reads ha)
      (hview i) st hst
    rw [act_opened ha]
    exact h.fresh s.nextId (Nat.le_refl _)
  · have hle := not_opened_of_le hs hi
    exact (h.fresh i hle.1).step hle.2 (hok i) (fun op res ha => act_reads ha) (hview i)

theorem sound_of_reach {info : DeviceInfo} {os : Os} {s : Sys}
    (h : Reach Sys.step HostOk (Sys.start info os) s) : s.Sound :=
  h.invariant (Sound.start info os) fun _ _ _ hi hok hs => hi.step hok hs

end Sys

/-- **Read and acknowledgement alternate.** With a host that answers only what
it was sent, every open shell or forward stream has exactly one read in flight,
or none and waits for an OKAY. -/
theorem one_read_or_okay {info : DeviceInfo} {os : Os} {s : Sys}
    (h : Reach Sys.step HostOk (Sys.start info os) s) {i : UInt32} {st : Stream}
    (hst : s.dev.streams.get i = some st)
    (hk : (∃ sh, st.service = .shell sh) ∨ ∃ fwd, st.service = .forward fwd) :
    s.outstanding.count (readTag .ptyRead i) + s.outstanding.count (readTag .socketRead i) +
      st.waitingForOkay.toNat = 1 := by
  have hp := (Sys.sound_of_reach h).paced i st hst
  rcases hk with ⟨sh, hs⟩ | ⟨fwd, hs⟩
  · have h1 := hp.one .ptyRead (by rw [hs]; rfl)
    have h2 := hp.stray .socketRead (by rw [hs]; exact fun e => nomatch e)
    simp only [View.reads] at h1 h2
    have e1 : (s.view i).ptyReads = s.outstanding.count (readTag .ptyRead i) := rfl
    have e2 : (s.view i).socketReads = s.outstanding.count (readTag .socketRead i) := rfl
    omega
  · have h1 := hp.one .socketRead (by rw [hs]; rfl)
    have h2 := hp.stray .ptyRead (by rw [hs]; exact fun e => nomatch e)
    simp only [View.reads] at h1 h2
    have e1 : (s.view i).ptyReads = s.outstanding.count (readTag .ptyRead i) := rfl
    have e2 : (s.view i).socketReads = s.outstanding.count (readTag .socketRead i) := rfl
    omega

def hostOk (s : Sys) (e : Event) : Bool :=
  match e with
  | .handle _ =>
    match s.incoming with
    | some (h, _) =>
      h.command != .okay || decide ((s.view h.arg1).okays < (s.view h.arg1).wrtes.length)
    | none => true
  | _ => true

theorem HostOk.of_hostOk {s : Sys} {e : Event} (h : hostOk s e = true) : HostOk s e := by
  intro i ha
  obtain ⟨env, hd, p, rfl, hi, hact⟩ := Sys.act_fromHost (by rw [ha]; rfl)
  obtain ⟨hc, rfl⟩ := Dev.actOf_okay (hact.symm.trans ha)
  simpa [hostOk, hi, hc] using h

def Sys.shellTurns : List Sys.Turn :=
  Sys.openShell ++ [⟨readTag .ptyRead 1, .data (ascii "$ "), {}⟩]

theorem one_read_or_okay_shell : ∃ s st, Reach Sys.step HostOk Sys.fresh s ∧
    s.dev.streams.get 1 = some st ∧ s.outstanding.count (readTag .ptyRead 1) +
      s.outstanding.count (readTag .socketRead 1) + st.waitingForOkay.toNat = 1 := by
  have hplay : (Sys.fresh.play hostOk Sys.shellTurns).map (fun s => s.dev.streams.get 1) =
      some (some ⟨7, .shell ⟨0, ascii "$ "⟩, true, false⟩) := by
    decide +kernel
  obtain ⟨s, hs, hget⟩ := Option.map_eq_some_iff.mp hplay
  have hreach := Sys.reach_of_play (fun _ _ => HostOk.of_hostOk) hs
  exact ⟨s, _, hreach, hget, one_read_or_okay hreach hget (.inl ⟨_, rfl⟩)⟩

/-! ## The buffer of a read -/

/-- The event does not drop a stream whose read is in flight: no CLSE for a
shell, and no failed write to a PTY or socket, while the stream is not waiting
for an OKAY. -/
def SparesReads (s : Sys) (e : Event) : Prop :=
  ∀ i st, s.dev.streams.get i = some st → st.waitingForOkay = false →
    (∀ r sh, s.act e i = .clse r → st.service ≠ .shell sh) ∧
      ∀ p, s.act e i = .wrte p → ¬ inputFails e.env st.service p

/-- A stream that is gone has no reads in flight. -/
def View.NoStray (w : View) : Prop := w.stream = none → ∀ op, w.reads op = 0

namespace View

variable {w w' : View} {env : Env} {v : ProtocolVersion} {os : Os} {i : UInt32}

theorem Paced.no_reads_waiting {st : Stream} (h : w.Paced st) (hw : st.waitingForOkay = true) (op) :
    w.reads op = 0 := by
  by_cases hr : st.service.reader = some op
  · have := h.one op hr
    rw [hw, Bool.toNat_true] at this
    omega
  · exact h.stray op hr

theorem NoStray.step {a : Act} (h : w.NoStray) (hp : ∀ st, w.stream = some st → w.Paced st)
    (hread : ∀ op res, a = .read op res → 0 < w.reads op)
    (hspare : ∀ st, w.stream = some st → st.waitingForOkay = false →
      (∀ r sh, a = .clse r → st.service ≠ .shell sh) ∧
        ∀ p, a = .wrte p → ¬ inputFails env st.service p)
    (hs : w.step env v os i a = .ok w') : w'.NoStray := by
  intro hnone op
  cases moves_of_step hs with
  | opened r svc =>
    unfold begun at hnone
    split at hnone <;> cases hnone
  | absent _ hst =>
    have hle := w.noted_reads a op
    rw [h hst op] at hle
    exact Nat.le_zero.mp hle
  | rests _ hst hr hq =>
    have hle := w.noted_reads a op
    rw [(hp _ hst).no_reads hr op] at hle
    rw [hq.reads op]
    exact Nat.le_zero.mp hle
  | @relays _ _ st op' hst hr hrel =>
    have hpc := hp st hst
    cases hrel with
    | none => cases hst.symm.trans hnone
    | fill op'' bytes => cases hnone
    | okay => cases hnone
    | wrte payload => cases hst.symm.trans hnone
    | failed hfail =>
      rw [reads_stream]
      refine hpc.no_reads_waiting ?_ op
      by_contra hw
      exact (hspare st hst (by simpa using hw)).2 _ rfl hfail
    | half r _ => cases hnone
    | closed r hfwd =>
      rw [reads_stream]
      cases hsv : st.service with
      | forward fwd => exact absurd hsv (hfwd fwd)
      | sync svc => exact hpc.no_reads (by rw [hsv]; rfl) op
      | reboot => exact hpc.no_reads (by rw [hsv]; rfl) op
      | shell sh =>
        refine hpc.no_reads_waiting ?_ op
        by_contra hw
        exact (hspare st hst (by simpa using hw)).1 r sh rfl hsv
    | ended op'' _ =>
      have hpos := hread op'' _ rfl
      have hr := hpc.reader_of_pos hpos
      have hone := hpc.one op'' hr
      rw [reads_stream, ended_reads]
      split
      · rename_i heq
        subst heq
        omega
      · rename_i hne
        exact hpc.stray op fun e => hne (Option.some.inj (e.symm.trans hr))
    | stray _ _ => cases hst.symm.trans hnone
    | relayed _ _ => cases hnone

end View

def sparesReads (s : Sys) (e : Event) : Bool :=
  match e with
  | .handle _ =>
    match s.incoming with
    | some (h, _) => ((s.dev.streams.get h.arg1).map (·.waitingForOkay)).getD true
    | none => true
  | _ => true

theorem SparesReads.of_sparesReads {s : Sys} {e : Event} (h : sparesReads s e = true) :
    SparesReads s e := by
  intro i st hst hw
  refine ⟨fun r sh ha => ?_, fun p ha => ?_⟩
  · obtain ⟨env, hd, p, rfl, hi, hact⟩ := Sys.act_fromHost (by rw [ha]; rfl)
    obtain ⟨-, rfl, -⟩ := Dev.actOf_clse (hact.symm.trans ha)
    simp [sparesReads, hi, hst, hw] at h
  · obtain ⟨env, hd, p, rfl, hi, hact⟩ := Sys.act_fromHost (by rw [ha]; rfl)
    obtain ⟨-, rfl, -⟩ := Dev.actOf_wrte (hact.symm.trans ha)
    simp [sparesReads, hi, hst, hw] at h

/-- **The buffer of a read in flight is alive** in every run that spares reads:
its stream is open, with a service of the kind that is read. -/
theorem read_buffer_alive {info : DeviceInfo} {os : Os} {s : Sys}
    (h : Reach Sys.step (fun s e => HostOk s e ∧ SparesReads s e) (Sys.start info os) s)
    {op : UserDataOpType} (hop : op = .ptyRead ∨ op = .socketRead) {i : UInt32}
    (hin : readTag op i ∈ s.outstanding) :
    ∃ st, s.dev.streams.get i = some st ∧ st.service.reader = some op := by
  have hinv : s.Sound ∧ ∀ i, (s.view i).NoStray :=
    h.invariant (I := fun s => s.Sound ∧ ∀ i, (s.view i).NoStray)
      ⟨Sys.Sound.start info os, fun i _ op => by
        rw [Sys.start_view info os i]
        cases op <;> rfl⟩
      fun t e u hi hok hs => ⟨hi.1.step hok.1 hs, fun i =>
        (hi.2 i).step (hi.1.paced i) (fun op res ha => Sys.act_reads ha)
          (fun st hst hw => hok.2 i st hst hw) (Sys.step_view hs i)⟩
  have hpos : 0 < (s.view i).reads op := by
    have := List.count_pos_iff.mpr hin
    rcases hop with rfl | rfl
    · exact this
    · exact this
  cases hst : s.dev.streams.get i with
  | none =>
    rw [hinv.2 i hst op] at hpos
    exact absurd hpos (Nat.lt_irrefl 0)
  | some st => exact ⟨st, rfl, (hinv.1.paced i st hst).reader_of_pos hpos⟩

theorem read_buffer_alive_shell : ∃ s,
    Reach Sys.step (fun s e => HostOk s e ∧ SparesReads s e) Sys.fresh s ∧
      readTag .ptyRead 1 ∈ s.outstanding ∧
      ∃ st, s.dev.streams.get 1 = some st ∧ st.service.reader = some .ptyRead := by
  have hplay : (Sys.fresh.play (fun s e => hostOk s e && sparesReads s e) Sys.openShell).map
      (fun s => decide (readTag .ptyRead 1 ∈ s.outstanding)) = some true := by
    decide +kernel
  obtain ⟨s, hs, hin⟩ := Option.map_eq_some_iff.mp hplay
  have hreach : Reach Sys.step (fun s e => HostOk s e ∧ SparesReads s e) Sys.fresh s :=
    Sys.reach_of_play (fun _ _ h => by
      rw [Bool.and_eq_true] at h
      exact ⟨.of_hostOk h.1, .of_sparesReads h.2⟩) hs
  exact ⟨s, hreach, of_decide_eq_true hin,
    read_buffer_alive hreach (.inl rfl) (of_decide_eq_true hin)⟩

/-- The host closes the shell while its read is in flight: the stream is dropped
and the kernel still holds its buffer. -/
theorem shell_closed_under_read : ∃ s,
    Sys.fresh.play hostOk (Sys.openShell ++ Sys.Turn.message .clse 7 1 []) = some s ∧
      Reach Sys.step HostOk Sys.fresh s ∧ readTag .ptyRead 1 ∈ s.outstanding ∧
      s.dev.streams.get 1 = none := by
  have hplay : (Sys.fresh.play hostOk (Sys.openShell ++ Sys.Turn.message .clse 7 1 [])).map (fun s =>
      decide (readTag .ptyRead 1 ∈ s.outstanding ∧ s.dev.streams.get 1 = none)) = some true := by
    decide +kernel
  obtain ⟨s, hs, hin⟩ := Option.map_eq_some_iff.mp hplay
  exact ⟨s, hs, Sys.reach_of_play (fun _ _ => HostOk.of_hostOk) hs, of_decide_eq_true hin⟩

end Adibi
