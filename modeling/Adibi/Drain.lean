import Adibi.Reads

/-!
# Half-closed forward streams

After the host's CLSE a forward stream stays open, so that what the destination
still sends reaches the host and the end of the socket closes the stream. That
needs a socket read in flight. Reads are resubmitted by the host's OKAYs alone,
and a host that has closed its end sends none: the stream drains as long as no
WRTE was unanswered when the CLSE came and no more data comes after it
(`ClosesDrained`).
-/

namespace Adibi

open Lib

/-- A CLSE for a forward stream comes while no WRTE is unanswered, and no read
of a half-closed stream returns data. -/
def ClosesDrained (s : Sys) (e : Event) : Prop :=
  ∀ i st fwd, s.dev.streams.get i = some st → st.service = .forward fwd →
    (∀ r, s.act e i = .clse r → st.waitingForOkay = false) ∧
      (st.remoteClosed = true → ∀ res, s.act e i = .read .socketRead res → res ≤ 0)

theorem reader_forward {svc : Service} (h : svc.reader = some .socketRead) :
    ∃ fwd, svc = .forward fwd := by
  cases svc with
  | forward fwd => exact ⟨fwd, rfl⟩
  | shell sh => cases h
  | sync svc => cases h
  | reboot => cases h

namespace View

variable {w w' : View} {env : Env} {v : ProtocolVersion} {os : Os} {i : UInt32} {st st' : Stream}

/-- A forward stream that waits for no OKAY has a read in flight, and one that
the host has closed waits for none. -/
structure Draining (w : View) (st : Stream) : Prop where
  reading : st.waitingForOkay = false → 0 < w.socketReads
  answered : st.remoteClosed = true → st.waitingForOkay = false

/-- **Every act keeps it**, of a host that closes a stream it has answered and is
silent after that, if no read returns data after the CLSE. -/
theorem Draining.step {a : Act}
    (h : ∀ st, w.stream = some st → st.service.reader = some .socketRead → w.Draining st)
    (hclse : ∀ st r, w.stream = some st → st.service.reader = some .socketRead → a = .clse r →
      st.waitingForOkay = false)
    (hread : ∀ st res, w.stream = some st → st.service.reader = some .socketRead →
      st.remoteClosed = true → a = .read .socketRead res → res ≤ 0)
    (hs : w.step env v os i a = .ok w') :
    ∀ st', w'.stream = some st' → st'.service.reader = some .socketRead → w'.Draining st' := by
  intro st' hst' hr'
  cases moves_of_step hs with
  | opened r svc =>
    cases (begun_stream ..).symm.trans hst'
    refine ⟨fun _ => ?_, fun hc => ?_⟩
    · show 0 < (w.begun r svc).reads .socketRead
      rw [begun_reads, if_pos hr']
      exact Nat.succ_pos _
    · cases hc
  | absent _ hst =>
    rw [noted_stream, hst] at hst'
    cases hst'
  | rests _ _ _ hq => cases (hq.reader st' hst').symm.trans hr'
  | @relays _ _ st op hst hr hrel =>
    have hsame : st'.service.reader = st.service.reader := hrel.reader hst hst'
    cases hr.symm.trans (hsame.symm.trans hr')
    have hd := h st hst hr
    cases hrel with
    | none =>
      cases hst.symm.trans hst'
      exact hd
    | fill op bytes =>
      cases hst'
      exact ⟨hd.reading, hd.answered⟩
    | okay =>
      cases hst'
      exact ⟨fun _ => Nat.succ_pos _, fun _ => rfl⟩
    | wrte payload =>
      cases hst.symm.trans hst'
      exact hd
    | failed _ => cases hst'
    | half r _ =>
      cases hst'
      exact ⟨hd.reading, fun _ => hclse st r hst hr rfl⟩
    | closed r _ => cases hst'
    | ended op _ => cases hst'
    | stray hne _ =>
      cases hst.symm.trans hst'
      refine ⟨fun hw => ?_, hd.answered⟩
      simp only [View.ended, if_neg hne]
      exact hd.reading hw
    | relayed hpos _ =>
      cases hst'
      refine ⟨fun hw => absurd hw Bool.noConfusion, fun hc => ?_⟩
      have := hread st _ hst hr hc rfl
      omega

end View

/-- A half-closed stream's read, when it completes: the end of the socket closes
the stream, data is relayed. -/
def DrainsBy (s : Sys) (i : UInt32) (st : Stream) : Prop :=
  ∀ e s' res, s.step e = .ok s' → s.act e i = .read .socketRead res →
    (res ≤ 0 → s'.dev.streams.get i = none ∧ (s'.view i).wrtes = (s.view i).wrtes) ∧
      (0 < res → ∃ data, Sys.readData .socketRead st.service res.toNat = some data ∧
        (s'.view i).wrtes = (s.view i).wrtes ++ [data])

theorem drainsBy {s : Sys} {i : UInt32} {st : Stream} (hst : s.dev.streams.get i = some st)
    (hr : st.service.reader = some .socketRead) : DrainsBy s i st := by
  intro e s' res hs ha
  have hview := Sys.step_view hs i
  rw [ha] at hview
  have hrel := View.relays_of_step (fun _ _ => Act.noConfusion) hst hr hview
  show (_ → (s'.view i).stream = none ∧ _) ∧ _
  generalize s'.view i = w' at hrel
  cases hrel with
  | ended _ hres => exact ⟨fun _ => ⟨rfl, rfl⟩, fun hpos => by omega⟩
  | stray hne _ => exact absurd rfl hne
  | relayed hpos hd => exact ⟨fun hres => by omega, fun _ => ⟨_, hd, rfl⟩⟩

/-- **A half-closed forward stream drains** in every run in which a stream is
closed with no WRTE unanswered and no data comes after that, whatever the host
sends: its read is in flight, and the end of the socket closes the stream. -/
theorem half_closed_drains {info : DeviceInfo} {os : Os} {s : Sys}
    (h : Reach Sys.step ClosesDrained (Sys.start info os) s)
    {i : UInt32} {st : Stream} {fwd : ForwardService} (hst : s.dev.streams.get i = some st)
    (hf : st.service = .forward fwd) (hc : st.remoteClosed = true) :
    readTag .socketRead i ∈ s.outstanding ∧ DrainsBy s i st := by
  have hr : st.service.reader = some .socketRead := by rw [hf]; rfl
  have hinv : ∀ i st, s.dev.streams.get i = some st → st.service.reader = some .socketRead →
      (s.view i).Draining st := by
    refine h.invariant (I := fun s => ∀ i st, s.dev.streams.get i = some st →
      st.service.reader = some .socketRead → (s.view i).Draining st) (fun i st hst => nomatch hst) ?_
    intro t e u hi hok hs j
    refine View.Draining.step (hi j) (fun st r hst hr ha => ?_) (fun st res hst hr hc ha => ?_)
      (Sys.step_view hs j)
    · obtain ⟨fwd, hf⟩ := reader_forward hr
      exact (hok j st fwd hst hf).1 r ha
    · obtain ⟨fwd, hf⟩ := reader_forward hr
      exact (hok j st fwd hst hf).2 hc res ha
  have hd := hinv i st hst hr
  exact ⟨List.count_pos_iff.mp (hd.reading (hd.answered hc)), drainsBy hst hr⟩

/-- Whether an event brings a forward stream a CLSE while it waits for an OKAY, or
a half-closed one data, decided at the completion it handles. -/
def closesDrained (s : Sys) (e : Event) : Bool :=
  match e with
  | .handle _ =>
    match s.ending, s.incoming with
    | some (_, j, res), _ => ((s.dev.streams.get j).map (!·.remoteClosed)).getD true || res ≤ 0
    | none, some (h, _) =>
      h.command != .clse || ((s.dev.streams.get h.arg1).map (!·.waitingForOkay)).getD true
    | none, none => true
  | _ => true

theorem ClosesDrained.of_closesDrained {s : Sys} {e : Event} (h : closesDrained s e = true) :
    ClosesDrained s e := by
  intro i st fwd hst hf
  refine ⟨fun r ha => ?_, fun hc res ha => ?_⟩
  · obtain ⟨env, hd, p, rfl, hi, hact⟩ := Sys.act_fromHost (by rw [ha]; rfl)
    obtain ⟨hcmd, rfl, -⟩ := Dev.actOf_clse (hact.symm.trans ha)
    have he : s.ending = none := Sys.ending_of_incoming hi
    simpa [closesDrained, he, hi, hcmd, hst] using h
  · obtain ⟨env, rfl, he⟩ := Sys.act_ending ha
    simpa [closesDrained, he, hst, hc] using h

def Sys.openForward : List Sys.Turn := Sys.Turn.message .open 7 0 (ascii "tcp:80" ++ [0])

def Sys.closedTurns : List Sys.Turn := Sys.openForward ++ Sys.Turn.message .clse 7 1 []

theorem half_closed_drains_forward : ∃ s st, Reach Sys.step ClosesDrained Sys.fresh s ∧
    s.dev.streams.get 1 = some st ∧ st.remoteClosed = true ∧
      readTag .socketRead 1 ∈ s.outstanding ∧ DrainsBy s 1 st := by
  have hplay : (Sys.fresh.play closesDrained Sys.closedTurns).map (fun s => s.dev.streams.get 1) =
      some (some ⟨7, .forward ⟨0, []⟩, false, true⟩) := by
    decide +kernel
  obtain ⟨s, hs, hget⟩ := Option.map_eq_some_iff.mp hplay
  have hreach := Sys.reach_of_play (fun _ _ => ClosesDrained.of_closesDrained) hs
  exact ⟨s, _, hreach, hget, rfl, half_closed_drains hreach hget rfl rfl⟩

/-- The host sends nothing more on a stream after its CLSE. -/
def HostSilent (s : Sys) (e : Event) : Prop :=
  ∀ i st, s.dev.streams.get i = some st → st.remoteClosed = true →
    s.act e i ≠ .okay ∧ (∀ p, s.act e i ≠ .wrte p) ∧ ∀ r, s.act e i ≠ .clse r

def hostSilent (s : Sys) (e : Event) : Bool :=
  match e with
  | .handle _ =>
    match s.incoming with
    | some (h, _) => ((s.dev.streams.get h.arg1).map (!·.remoteClosed)).getD true
    | none => true
  | _ => true

theorem HostSilent.of_hostSilent {s : Sys} {e : Event} (h : hostSilent s e = true) :
    HostSilent s e := by
  intro i st hst hc
  refine ⟨fun ha => ?_, fun p ha => ?_, fun r ha => ?_⟩
  · obtain ⟨env, hd, q, rfl, hi, hact⟩ := Sys.act_fromHost (by rw [ha]; rfl)
    obtain ⟨-, rfl⟩ := Dev.actOf_okay (hact.symm.trans ha)
    simp [hostSilent, hi, hst, hc] at h
  · obtain ⟨env, hd, q, rfl, hi, hact⟩ := Sys.act_fromHost (by rw [ha]; rfl)
    obtain ⟨-, rfl, -⟩ := Dev.actOf_wrte (hact.symm.trans ha)
    simp [hostSilent, hi, hst, hc] at h
  · obtain ⟨env, hd, q, rfl, hi, hact⟩ := Sys.act_fromHost (by rw [ha]; rfl)
    obtain ⟨-, rfl, -⟩ := Dev.actOf_clse (hact.symm.trans ha)
    simp [hostSilent, hi, hst, hc] at h

/-- The reply of the destination crosses the host's CLSE. -/
def Sys.crossingReply : List Sys.Turn :=
  Sys.openForward ++ [⟨readTag .socketRead 1, .data (ascii "hello"), {}⟩] ++
    Sys.Turn.message .clse 7 1 []

/-- The destination replies after the host's CLSE. -/
def Sys.lateReply : List Sys.Turn :=
  Sys.openForward ++ Sys.Turn.message .clse 7 1 [] ++
    [⟨readTag .socketRead 1, .data (ascii "hello"), {}⟩]

/-- The run keeps the host's rules, with no word after its CLSE, and leaves a
half-closed stream without a read. -/
def Sys.Stuck (turns : List Sys.Turn) : Prop :=
  ∃ s st fwd, Sys.fresh.play (fun s e => hostOk s e && hostSilent s e) turns = some s ∧
    Reach Sys.step (fun s e => HostOk s e ∧ HostSilent s e) Sys.fresh s ∧
    s.dev.streams.get 1 = some st ∧ st.service = .forward fwd ∧ st.remoteClosed = true ∧
    readTag .socketRead 1 ∉ s.outstanding

theorem Sys.Stuck.of_play {turns : List Sys.Turn} (data : Bytes)
    (h : (Sys.fresh.play (fun s e => hostOk s e && hostSilent s e) turns).map
      (fun s => (s.dev.streams.get 1, decide (readTag .socketRead 1 ∈ s.outstanding))) =
        some (some ⟨7, .forward ⟨0, data⟩, true, true⟩, false)) : Sys.Stuck turns := by
  obtain ⟨s, hs, hx⟩ := Option.map_eq_some_iff.mp h
  simp only [Prod.mk.injEq, decide_eq_false_iff_not] at hx
  refine ⟨s, _, _, hs, Sys.reach_of_play (fun _ _ h => ?_) hs, hx.1, rfl, rfl, hx.2⟩
  rw [Bool.and_eq_true] at h
  exact ⟨.of_hostOk h.1, .of_hostSilent h.2⟩

/-- A half-closed stream stays open with nothing in flight, both when a WRTE was
unanswered at the CLSE and when data came after it. -/
theorem half_closed_stuck : Sys.Stuck Sys.crossingReply ∧ Sys.Stuck Sys.lateReply :=
  ⟨.of_play (ascii "hello") (by decide +kernel), .of_play (ascii "hello") (by decide +kernel)⟩

end Adibi
