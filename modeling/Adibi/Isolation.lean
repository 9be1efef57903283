import Adibi.Capacity
import Adibi.Locality

/-!
# Streams do not interfere

A message for a live stream, or a completed read of one, changes the entry of that
stream alone. Two of them for different streams, whose services act on different
files, can be handled in either order (`streams_isolated`): the tables are the
same, up to the number of a file that both orders create, and each stream submits
the same messages and the same reads in the same order.
-/

namespace Adibi

open Lib

/-- What strikes one stream: a message of the host, or the completion of a read. -/
inductive Strike where
  | message (env : Env) (h : AdbHeader) (p : Option Bytes)
  | read (op : UserDataOpType) (localId : UInt32) (res : Int)

namespace Strike

def localId : Strike → UInt32
  | .message _ h _ => h.arg1
  | .read _ i _ => i

def handle (d : Dev) : Strike → Except Panic Dev
  | .message env h p => d.handleCommand env h p
  | .read op i res => if res ≤ 0 then Sys.readEnd d i else Sys.readRelay d op i res.toNat

/-- It is addressed to a live stream: a WRTE, OKAY or CLSE with the right pair of ids, or
the completion of a PTY or socket read. -/
def Addressed (d : Dev) : Strike → Prop
  | .message _ h _ => (h.command = .wrte ∨ h.command = .okay ∨ h.command = .clse) ∧
      d.Live h.arg1 h.arg0
  | .read op i _ => (op = .ptyRead ∨ op = .socketRead) ∧ (d.streams.get i).isSome

/-- The device with the message in its history. -/
def noted (d : Dev) : Strike → Dev
  | .message _ h p => d.log (.heard h p)
  | .read _ _ _ => d

/-- The effect on the entry of the stream. -/
def effect (v : ProtocolVersion) (os : Os) (st : Stream) : Strike → Except Panic Effect
  | .message env h p =>
    match h.command, p with
    | .wrte, some payload => do
      let e ← onWrte env v h.arg1 os st payload
      pure { e with outs := okayOut h.arg1 h.arg0 :: e.outs }
    | .wrte, none => .error .wrtePayload
    | .okay, none => onOkay env v h.arg1 os st
    | .okay, some _ => .error .okayPayload
    | .clse, _ => onClse env h.arg1 os st h.arg0
    | _, _ => .ok ⟨some st, os, []⟩
  | .read op i res => onRead v i os st op res

def filesOf (fs : Fs) (st : Stream) : Strike → Files
  | .message _ h p =>
    match h.command, p with
    | .wrte, some payload => st.service.files fs payload
    | .okay, _ => st.service.sendFiles
    | _, _ => .none
  | .read _ _ _ => .none

def createsOf (fs : Fs) (st : Stream) : Strike → Bool
  | .message env h p =>
    match h.command, p with
    | .wrte, some payload => st.service.creates env fs payload
    | _, _ => false
  | .read _ _ _ => false

def files (d : Dev) (x : Strike) : Files :=
  match d.streams.get x.localId with
  | some st => x.filesOf d.os.fs st
  | none => .none

def creates (d : Dev) (x : Strike) : Bool :=
  match d.streams.get x.localId with
  | some st => x.createsOf d.os.fs st
  | none => false

end Strike

/-! ## What a stream submits -/

def isReadTag (i : UInt32) (t : UInt64) : Bool := t = readTag .ptyRead i ∨ t = readTag .socketRead i

namespace Out

def sentOn (i : UInt32) (outs : List Out) : List (AdbHeader × Bytes) :=
  (outs.filterMap Out.message?).filter fun m => m.1.arg0 = i

def readsOn (i : UInt32) (outs : List Out) : List UInt64 :=
  (outs.filterMap fun
    | .op u => some u.toU64
    | .message _ _ => none).filter (isReadTag i)

theorem sentOn_other {i j : UInt32} {outs : List Out} (hij : i ≠ j) (h : ∀ o ∈ outs, o.On j) :
    sentOn i outs = [] := by
  refine List.filter_eq_nil_iff.mpr fun m hm => ?_
  obtain ⟨o, ho, hom⟩ := List.mem_filterMap.mp hm
  have hon := h o ho
  cases o with
  | op u => cases hom
  | message hd p =>
    cases hom
    have hj : hd.arg0 = j := hon
    simp only [decide_eq_true_eq, hj]
    exact hij.symm

theorem readsOn_other {i j : UInt32} {outs : List Out} (hij : i ≠ j) (h : ∀ o ∈ outs, o.On j) :
    readsOn i outs = [] := by
  refine List.filter_eq_nil_iff.mpr fun t ht => ?_
  obtain ⟨o, ho, hot⟩ := List.mem_filterMap.mp ht
  have hon := h o ho
  cases o with
  | message hd p => cases hot
  | op u =>
    cases hot
    simp only [isReadTag, hon.2, decide_eq_true_eq]
    rintro (he | he)
    · exact hij (readTag_inj he).2.symm
    · exact hij (readTag_inj he).2.symm

end Out

namespace Dev

def sentOn (d : Dev) (i : UInt32) : List (AdbHeader × Bytes) := d.sent.filter fun m => m.1.arg0 = i

def readsOn (d : Dev) (i : UInt32) : List UInt64 := d.tags.filter (isReadTag i)

theorem emitAll_sentOn {d d' : Dev} {outs : List Out} (h : d.emitAll outs = .ok d') (i : UInt32) :
    d'.sentOn i = d.sentOn i ++ Out.sentOn i outs := by
  unfold sentOn Out.sentOn
  rw [emitAll_sent h, List.filter_append]

theorem submitWrite_readsOn {d d' : Dev} {bytes : Bytes} {link : Bool}
    (h : d.submitWrite bytes link = .ok d') (i : UInt32) : d'.readsOn i = d.readsOn i := by
  obtain ⟨slot, buffers, -, rfl⟩ := submitWrite_ok h
  have h1 : _ ≠ readTag .ptyRead i := writeTag_ne slot i (by decide)
  have h2 : _ ≠ readTag .socketRead i := writeTag_ne slot i (by decide)
  simp [readsOn, tags, isReadTag, h1, h2]

theorem emit_readsOn {d d' : Dev} {o : Out} (h : d.emit o = .ok d') (i : UInt32) :
    d'.readsOn i = d.readsOn i ++ Out.readsOn i [o] := by
  cases emitted_of_ok h with
  | op u _ =>
    simp only [readsOn, tags, List.map_append, List.filter_append]
    rfl
  | bare h1 => exact (submitWrite_readsOn h1 i).trans (List.append_nil _).symm
  | full _ h1 h2 =>
    rw [← submitWrite_readsOn h1 i, ← submitWrite_readsOn h2 i]
    exact (List.append_nil _).symm

theorem emitAll_readsOn {d d' : Dev} {outs : List Out} (h : d.emitAll outs = .ok d') (i : UInt32) :
    d'.readsOn i = d.readsOn i ++ Out.readsOn i outs := by
  induction outs generalizing d with
  | nil =>
    cases h
    exact (List.append_nil _).symm
  | cons o outs ih =>
    obtain ⟨d1, h1, h2⟩ := bind_eq_ok.mp h
    rw [ih h2, emit_readsOn h1, List.append_assoc, Out.readsOn, Out.readsOn, Out.readsOn,
      ← List.filter_append, ← List.filterMap_append]
    rfl

end Dev

/-! ## One strike -/

namespace Dev

/-- Submitting first and changing the table and the system after is the same. -/
theorem emit_apply (d : Dev) (o : Out) (i : UInt32) (e : Effect) :
    (d.emit o >>= fun d => d.apply i e) = d.apply i { e with outs := o :: e.outs } := by
  have hr := emit_reset d o (d.streams.put i e.stream) d.version e.os
  show _ = (d.reset (d.streams.put i e.stream) d.version e.os).emitAll (o :: e.outs)
  rw [emitAll_cons, hr]
  cases he : d.emit o with
  | error p => rfl
  | ok d1 =>
    obtain ⟨h1, h2, -⟩ := emitAll_frame (by rw [emitAll_singleton]; exact he)
    show { d1.setStream i e.stream with os := e.os }.emitAll e.outs =
      (d1.reset (d.streams.put i e.stream) d.version e.os).emitAll e.outs
    rw [← h1, ← h2]
    rfl

end Dev

namespace Strike

variable {d d' : Dev} {x : Strike} {st : Stream}

theorem Addressed.live (h : x.Addressed d) : ∃ st, d.streams.get x.localId = some st := by
  cases x with
  | message env hd p =>
    obtain ⟨-, st, hst, -⟩ := h
    exact ⟨st, hst⟩
  | read op i res => exact Option.isSome_iff_exists.mp h.2

theorem Addressed.congr (h : x.Addressed d) (hs : d'.streams.get x.localId = d.streams.get x.localId) :
    x.Addressed d' := by
  cases x with
  | message env hd p =>
    obtain ⟨hc, st, hst, hr⟩ := h
    exact ⟨hc, st, hs.trans hst, hr⟩
  | read op i res =>
    refine ⟨h.1, ?_⟩
    rw [show d'.streams.get i = d.streams.get i from hs]
    exact h.2

theorem wrte_ok_iff {env : Env} {h : AdbHeader} {payload : Bytes}
    (hst : d.streams.get h.arg1 = some st) :
    (d.emit (okayOut h.arg1 h.arg0) >>= fun d =>
      match d.streams.get h.arg1 with
      | none => .ok d
      | some s => onWrte env d.version h.arg1 d.os s payload >>= d.apply h.arg1) = .ok d' ↔
    ∃ e, (onWrte env d.version h.arg1 d.os st payload >>= fun e =>
        pure { e with outs := okayOut h.arg1 h.arg0 :: e.outs }) = .ok e ∧
      d.apply h.arg1 e = .ok d' := by
  have hframe : ∀ d1, d.emit (okayOut h.arg1 h.arg0) = .ok d1 →
      d1.streams = d.streams ∧ d1.version = d.version ∧ d1.os = d.os := fun d1 h1 =>
    Dev.emitAll_frame (by rw [Dev.emitAll_singleton]; exact h1)
  constructor
  · intro hd
    obtain ⟨d1, h1, h2⟩ := bind_eq_ok.mp hd
    obtain ⟨hs, hv, hos⟩ := hframe d1 h1
    rw [hs, hst, hv, hos] at h2
    obtain ⟨e, he, ha⟩ := bind_eq_ok.mp h2
    refine ⟨{ e with outs := okayOut h.arg1 h.arg0 :: e.outs }, by rw [he]; rfl, ?_⟩
    rw [← Dev.emit_apply, h1]
    exact ha
  · rintro ⟨e, he, ha⟩
    obtain ⟨e1, he1, h2⟩ := bind_eq_ok.mp he
    cases h2
    rw [← Dev.emit_apply] at ha
    obtain ⟨d1, h1, h3⟩ := bind_eq_ok.mp ha
    obtain ⟨hs, hv, hos⟩ := hframe d1 h1
    rw [h1, ok_bind, hs, hst, hv, hos]
    simp only [he1, ok_bind]
    exact h3

/-- **A strike is its effect, applied.** -/
theorem handle_ok_iff (hx : x.Addressed d) (hst : d.streams.get x.localId = some st) :
    x.handle d = .ok d' ↔
      ∃ e, x.effect d.version d.os st = .ok e ∧ (x.noted d).apply x.localId e = .ok d' := by
  cases x with
  | read op i res =>
    have hst : d.streams.get i = some st := hst
    simp only [handle, effect, noted, localId, Dev.readDone_eq, hst]
    exact bind_eq_ok
  | message env h p =>
    have hst : (d.log (.heard h p)).streams.get h.arg1 = some st := hst
    obtain ⟨hc, -⟩ := hx
    simp only [handle, noted, localId, Dev.handleCommand]
    rcases hc with hc | hc | hc
    · cases p with
      | none =>
        simp only [hc, effect]
        refine ⟨fun h => ?_, ?_⟩
        · cases h
        · rintro ⟨e, he, -⟩
          cases he
      | some payload =>
        simp only [hc, effect, Dev.handleCommandWrte_eq]
        exact wrte_ok_iff hst
    · cases p with
      | none =>
        simp only [hc, effect, Dev.handleCommandOkay_eq, hst]
        exact bind_eq_ok
      | some payload =>
        simp only [hc, effect]
        refine ⟨fun h => ?_, ?_⟩
        · cases h
        · rintro ⟨e, he, -⟩
          cases he
    · simp only [hc, effect, Dev.handleCommandClse_eq, hst]
      exact bind_eq_ok

theorem effect_on {v : ProtocolVersion} {os : Os} {e : Effect} (hx : x.Addressed d)
    (he : x.effect v os st = .ok e) : ∀ o ∈ e.outs, o.On x.localId := by
  cases x with
  | read op i res => exact onRead_on he
  | message env h p =>
    obtain ⟨hc, -⟩ := hx
    simp only [effect] at he
    rcases hc with hc | hc | hc
    · cases p with
      | none =>
        rw [hc] at he
        cases he
      | some payload =>
        rw [hc] at he
        obtain ⟨e1, he1, h1⟩ := bind_eq_ok.mp he
        cases h1
        intro o ho
        rcases List.mem_cons.mp ho with rfl | ho
        · rfl
        · exact onWrte_on he1 o ho
    · cases p with
      | none =>
        rw [hc] at he
        exact onOkay_on he
      | some payload =>
        rw [hc] at he
        cases he
    · rw [hc] at he
      exact onClse_on he

/-- The strike in another system that has the same files for it. -/
theorem effect_twin {π : Equiv.Perm Nat} {m : Nat} {v : ProtocolVersion} {os os0 : Os} {e : Effect}
    (hx : x.Addressed d) (hb : st.service.Below m)
    (h : Fs.Alike π m (x.filesOf os.fs st) os.fs os0.fs)
    (hnew : x.createsOf os.fs st = true → π os.fs.nextIno = os0.fs.nextIno)
    (he : x.effect v os st = .ok e) :
    ∃ e0, x.effect v os0 st = .ok e0 ∧
      Effect.Twin π ((x.filesOf os.fs st).made os.fs.nextIno (x.createsOf os.fs st))
        (x.createsOf os.fs st).toNat os os0 e e0 := by
  cases x with
  | read op i res => exact onRead_twin hb h he
  | message env hd p =>
    obtain ⟨hc, -⟩ := hx
    simp only [effect, filesOf, createsOf] at he h hnew ⊢
    rcases hc with hc | hc | hc
    · cases p with
      | none =>
        rw [hc] at he
        cases he
      | some payload =>
        rw [hc] at he h hnew
        simp only [hc]
        obtain ⟨e1, he1, h1⟩ := bind_eq_ok.mp he
        cases h1
        obtain ⟨e0, he0, ht⟩ := onWrte_twin hb h hnew he1
        rw [he0]
        refine ⟨_, rfl, ht.stream, ?_, ht.below, ht.files⟩
        simp only [ht.outs]
    · cases p with
      | none =>
        rw [hc] at he h
        simp only [hc]
        exact onOkay_twin hb h he
      | some payload =>
        rw [hc] at he
        cases he
    · rw [hc] at he
      simp only [hc]
      exact onClse_twin h he

/-- What a strike leaves: the entry of its stream, the system and the submissions of its
effect. -/
structure Struck (d : Dev) (i : UInt32) (e : Effect) (d' : Dev) : Prop where
  streams : d'.streams = d.streams.put i e.stream
  version : d'.version = d.version
  os : d'.os = e.os
  sent : ∀ j, d'.sentOn j = d.sentOn j ++ Out.sentOn j e.outs
  reads : ∀ j, d'.readsOn j = d.readsOn j ++ Out.readsOn j e.outs
  took : d.Took d' (e.outs.map Out.cost).sum (e.outs.map Out.entries).sum
  room : d.Room e.outs

theorem noted_sentOn (d : Dev) (x : Strike) (j : UInt32) : (x.noted d).sentOn j = d.sentOn j := by
  cases x with
  | read op i res => rfl
  | message env h p =>
    unfold Dev.sentOn
    rw [noted, Dev.log_sent d rfl]

theorem noted_room (d : Dev) (x : Strike) (outs : List Out) : (x.noted d).Room outs ↔ d.Room outs := by
  cases x with
  | read op i res => exact Iff.rfl
  | message env h p => exact ⟨fun ⟨h1, h2, h3⟩ => ⟨h1, h2, h3⟩, fun ⟨h1, h2, h3⟩ => ⟨h1, h2, h3⟩⟩

theorem struck_of_ok (hx : x.Addressed d) (hst : d.streams.get x.localId = some st)
    (h : x.handle d = .ok d') :
    ∃ e, x.effect d.version d.os st = .ok e ∧ Struck d x.localId e d' := by
  obtain ⟨e, he, ha⟩ := (handle_ok_iff hx hst).mp h
  obtain ⟨h1, h2, h3⟩ := Dev.emitAll_frame ha
  have hroom : (x.noted d).Room e.outs := by
    obtain ⟨g1, g2, g3⟩ := Dev.emitAll_ok_iff.mp ⟨d', ha⟩
    exact ⟨g1, g2, g3⟩
  have htook := Dev.emitAll_took ha
  refine ⟨e, he, ?_, ?_, h3, fun j => ?_, fun j => ?_, ?_, (noted_room d x e.outs).mp hroom⟩
  · cases x <;> exact h1
  · cases x <;> exact h2
  · rw [Dev.emitAll_sentOn ha, ← noted_sentOn d x]
    rfl
  · rw [Dev.emitAll_readsOn ha]
    cases x <;> rfl
  · cases x <;> exact ⟨htook.slots, htook.entries⟩

theorem handle_of_room {e : Effect} (hx : x.Addressed d) (hst : d.streams.get x.localId = some st)
    (he : x.effect d.version d.os st = .ok e) (hroom : d.Room e.outs) : ∃ d', x.handle d = .ok d' := by
  obtain ⟨g1, g2, g3⟩ := (noted_room d x e.outs).mpr hroom
  have hroom' : ({ (x.noted d).setStream x.localId e.stream with os := e.os } : Dev).Room e.outs :=
    ⟨g1, g2, g3⟩
  obtain ⟨d', ha⟩ := Dev.emitAll_ok_iff.mpr hroom'
  exact ⟨d', (handle_ok_iff hx hst).mpr ⟨e, he, ha⟩⟩

end Strike

/-! ## Handles of a run -/

/-- Every name and every handle in the table is of an inode that was given out. -/
structure Dev.Filed (d : Dev) : Prop where
  wf : d.os.fs.Wf
  below : ∀ i st, d.streams.get i = some st → st.service.Below d.os.fs.nextIno

namespace Dev

variable {d d' : Dev}

theorem Filed.congr (h : d.Filed) (hs : d'.streams = d.streams) (hfs : d'.os.fs = d.os.fs) :
    d'.Filed :=
  ⟨by rw [hfs]; exact h.wf, fun i st hst => by rw [hfs]; rw [hs] at hst; exact h.below i st hst⟩

theorem Filed.put (h : d.Filed) (i : UInt32) (st : Option Stream)
    (hs : ∀ j, j ≠ i → d'.streams.get j = d.streams.get j) (hi : d'.streams.get i = st)
    (hwf : d'.os.fs.Wf) (hle : d.os.fs.nextIno ≤ d'.os.fs.nextIno)
    (hb : ∀ st', st = some st' → st'.service.Below d'.os.fs.nextIno) : d'.Filed where
  wf := hwf
  below j st' hst' := by
    by_cases hij : j = i
    · subst hij
      exact hb st' (hi.symm.trans hst')
    · rw [hs j hij] at hst'
      exact (h.below j st' hst').mono hle

theorem Filed.alike (h : d.Filed) (F : Files) :
    Fs.Alike (Equiv.refl Nat) d.os.fs.nextIno F d.os.fs d.os.fs :=
  ⟨fun _ _ => rfl, Nat.le_refl _, rfl, fun p _ i hi => h.wf p i hi, fun _ _ => rfl, fun _ _ => rfl⟩

theorem Filed.effected {j : UInt32} {f : Stream → Except Panic Effect} (h : d.Filed)
    (hf : ∀ st e, st.service.Below d.os.fs.nextIno → f st = .ok e → ∃ F k e0,
      Effect.Twin (Equiv.refl Nat) F k d.os d.os e e0) (he : Effected d j f d') : d'.Filed := by
  cases he with
  | gone hs hd => exact h.congr hd.streams (by rw [hd.os])
  | @effect st e hs he hstreams hv hos hin hse =>
    obtain ⟨F, k, e0, ht⟩ := hf st e (h.below j st hs) he
    refine h.put j e.stream (fun i hi => ?_) ?_ ?_ ?_ ?_
    · rw [hstreams]
      exact StreamManager.get_put_ne hi ..
    · rw [hstreams]
      exact StreamManager.get_put_self ..
    · rw [hos]
      exact ht.files.only.wf h.wf
    · rw [hos, ht.files.only.nextIno]
      exact Nat.le_add_right ..
    · rw [hos]
      exact ht.below

theorem Filed.sends {m : AdbHeader × Bytes} (h : d.Filed) (hd : Sends d m d') : d'.Filed :=
  h.congr hd.streams (by rw [hd.os])

theorem Filed.dispatched {env : Env} {hdr : AdbHeader} {p : Option Bytes} (h : d.Filed)
    (hd : Dispatched env d hdr p d') : d'.Filed := by
  cases hd with
  | ignored hc hd => exact h.congr hd.streams (by rw [hd.os])
  | cnxn hc hr hd =>
    have h1 : ({ d with version := (ProtocolVersion.tryFrom hdr.arg0).getD .v0 } : Dev).Filed :=
      h.congr rfl rfl
    exact h1.sends hd
  | refused hc ho hd => exact h.sends hd
  | @opened svc os hc ho hn hd =>
    obtain ⟨name, -, ho⟩ := Option.bind_eq_some_iff.mp ho
    have hfs := openService_fs ho
    have hb : svc.Below os.fs.nextIno := by
      rcases StreamManager.openService_ok ho with ⟨rfl | rfl, -⟩ | ⟨target, -, rfl | rfl⟩ <;> trivial
    have h1 : (d.added svc os hdr.arg0).Filed := by
      refine h.put d.streams.nextId (some ⟨hdr.arg0, svc, false, false⟩) (fun i hi => ?_) ?_ ?_ ?_
        fun st' hst' => ?_
      · exact StreamManager.get_put_ne hi ..
      · exact StreamManager.get_put_self ..
      · show os.fs.Wf
        rw [hfs]
        exact h.wf
      · show d.os.fs.nextIno ≤ os.fs.nextIno
        rw [hfs]
      · cases hst'
        exact hb
    exact h1.sends hd
  | @wrte payload d1 hc hp hd he =>
    have h1 := h.sends hd
    rw [← hd.os] at he
    refine h1.effected (fun st e hb hf => ?_) he
    obtain ⟨e0, -, ht⟩ := onWrte_twin hb (h1.alike _) (fun _ => rfl) hf
    exact ⟨_, _, e0, ht⟩
  | okay hc he =>
    refine h.effected (fun st e hb hf => ?_) he
    obtain ⟨e0, -, ht⟩ := onOkay_twin hb (h.alike _) hf
    exact ⟨_, _, e0, ht⟩
  | clse hc he =>
    refine h.effected (fun st e hb hf => ?_) he
    obtain ⟨e0, -, ht⟩ := onClse_twin (h.alike .none) hf
    exact ⟨_, _, e0, ht⟩

end Dev

theorem Service.Below.filled {n : Nat} {svc : Service} (h : svc.Below n) (op : UserDataOpType)
    (bytes : Bytes) : (svc.filled op bytes).Below n := by
  cases svc with
  | sync svc => exact h
  | reboot => trivial
  | shell sh =>
    simp only [Service.filled]
    split <;> trivial
  | forward fwd =>
    simp only [Service.filled]
    split <;> trivial

theorem Sys.filed_step {s s' : Sys} {e : Event} (h : s.dev.Filed) (hs : s.step e = .ok s') :
    s'.dev.Filed := by
  cases stepped_of_ok hs with
  | quiet ha hd => exact h.congr hd.streams (by rw [hd.os])
  | @filled k bytes place op j st _ ha hst hd =>
    have h1 : (s.dev.setStream j (some { st with service := st.service.filled op bytes })).Filed := by
      refine h.put j _ (fun i hi => StreamManager.get_put_ne hi ..) (StreamManager.get_put_self ..)
        h.wf (Nat.le_refl _) fun st' hst' => ?_
      cases hst'
      exact (h.below j st hst).filled op bytes
    exact h1.congr hd.streams (by rw [hd.os])
  | read he hd =>
    refine h.effected (fun st e hb hf => ?_) hd
    obtain ⟨e0, -, ht⟩ := onRead_twin hb (h.alike .none) hf
    exact ⟨_, _, e0, ht⟩
  | message he hi hd => exact h.dispatched hd

theorem Sys.filed_of_reach {Ok : Sys → Event → Prop} {info : DeviceInfo} {os : Os} {s : Sys}
    (hwf : os.fs.Wf) (h : Reach Sys.step Ok (Sys.start info os) s) : s.dev.Filed := by
  refine h.invariant (I := fun s => s.dev.Filed) ⟨hwf, fun i st hst => nomatch hst⟩ ?_
  exact fun _ _ _ hi _ hs => filed_step hi hs

/-! ## Two strikes -/

theorem SyncService.files_congr {fs fs0 : Fs} {svc : SyncService} {payload : Bytes}
    (hent : fs0.entry = fs.entry)
    (h : ∀ p ∈ (svc.files fs payload).name, fs0.dir p = fs.dir p) (env : Env) :
    svc.files fs0 payload = svc.files fs payload ∧
      svc.creates env fs0 payload = svc.creates env fs payload := by
  by_cases hst : ∃ r, svc.state = .receiving r
  · obtain ⟨r, hst⟩ := hst
    simp only [files, creates, hst, hent, and_self]
  have hno : ∀ r, svc.state ≠ .receiving r := fun r he => hst ⟨r, he⟩
  rw [files_request hno] at h
  rw [files_request hno, files_request hno, creates_request hno, creates_request hno]
  cases hp : parseSyncPacket payload with
  | none => exact ⟨rfl, rfl⟩
  | some x =>
    obtain ⟨packet, leftover⟩ := x
    rw [hp] at h
    have hat : ∀ path, (∀ p ∈ (fs.at_ path).name, fs0.dir p = fs.dir p) →
        fs0.names path = fs.names path ∧ fs0.at_ path = fs.at_ path := by
      intro path hdir
      have hn : fs0.names path = fs.names path := by
        rw [Fs.names, hent]
        exact hdir _ rfl
      exact ⟨hn, by rw [Fs.at_, Fs.at_, hn, hent]⟩
    cases packet with
    | lstatV1 path => exact ⟨(hat path h).2, rfl⟩
    | recvV1 path => exact ⟨(hat path h).2, rfl⟩
    | sendV1 path mode => exact ⟨(hat path h).2, by simp only [Fs.creates, (hat path h).1]⟩
    | quit => exact ⟨rfl, rfl⟩

theorem SyncService.files_below {fs : Fs} {svc : SyncService} {payload : Bytes} (hwf : fs.Wf)
    (hb : svc.Below fs.nextIno) : ∀ i ∈ (svc.files fs payload).ino, i < fs.nextIno := by
  by_cases hst : ∃ r, svc.state = .receiving r
  · obtain ⟨r, hst⟩ := hst
    unfold Below at hb
    rw [hst] at hb
    intro i hi
    simp only [files, hst] at hi
    cases hi
    exact hb
  have hno : ∀ r, svc.state ≠ .receiving r := fun r he => hst ⟨r, he⟩
  rw [files_request hno]
  intro i hi
  cases hp : parseSyncPacket payload with
  | none =>
    rw [hp] at hi
    cases hi
  | some x =>
    obtain ⟨packet, leftover⟩ := x
    rw [hp] at hi
    cases packet with
    | lstatV1 path => exact hwf _ i hi
    | recvV1 path => exact hwf _ i hi
    | sendV1 path mode => exact hwf _ i hi
    | quit => cases hi

namespace Strike

variable {d d' : Dev} {x y : Strike} {st : Stream} {fs fs0 : Fs}

theorem files_congr (hent : fs0.entry = fs.entry)
    (h : ∀ p ∈ (x.filesOf fs st).name, fs0.dir p = fs.dir p) :
    x.filesOf fs0 st = x.filesOf fs st ∧ x.createsOf fs0 st = x.createsOf fs st := by
  cases x with
  | read op i res => exact ⟨rfl, rfl⟩
  | message env hd p =>
    simp only [filesOf, createsOf] at h ⊢
    cases hc : hd.command
    case wrte =>
      cases p with
      | none => exact ⟨rfl, rfl⟩
      | some payload =>
        rw [hc] at h
        simp only at h ⊢
        cases hsv : st.service with
        | sync svc =>
          rw [hsv] at h
          exact SyncService.files_congr hent h env
        | shell sh => exact ⟨rfl, rfl⟩
        | reboot => exact ⟨rfl, rfl⟩
        | forward fwd => exact ⟨rfl, rfl⟩
    all_goals exact ⟨rfl, rfl⟩

theorem files_below (hwf : fs.Wf) (hb : st.service.Below fs.nextIno) :
    ∀ i ∈ (x.filesOf fs st).ino, i < fs.nextIno := by
  obtain ⟨r, svc, w, c⟩ := st
  intro i hi
  unfold filesOf at hi
  split at hi
  · split at hi
    · cases svc with
      | sync svc => exact SyncService.files_below hwf hb i hi
      | shell sh => cases hi
      | reboot => cases hi
      | forward fwd => cases hi
    · rcases svc with ⟨⟨_ | sender | _⟩⟩ | _ | _ | _
      case sync.sending =>
        cases hi
        exact hb
      all_goals cases hi
    · cases hi
  · cases hi

/-- The numbers of the files that two strikes create, exchanged. -/
def renumber (d : Dev) (x y : Strike) : Equiv.Perm Nat :=
  if x.creates d && y.creates d then Equiv.swap d.os.fs.nextIno (d.os.fs.nextIno + 1)
  else Equiv.refl Nat

theorem renumber_comm (d : Dev) (x y : Strike) : renumber d y x = renumber d x y := by
  unfold renumber
  rw [Bool.and_comm]

theorem renumber_renumber (d : Dev) (x y : Strike) (i : Nat) :
    renumber d x y (renumber d x y i) = i := by
  unfold renumber
  split
  · exact DFunLike.congr_fun (Equiv.swap_swap _ _) i
  · rfl

theorem renumber_old (d : Dev) (x y : Strike) : ∀ i < d.os.fs.nextIno, renumber d x y i = i := by
  intro i hi
  unfold renumber
  split
  · exact Equiv.swap_apply_of_ne_of_ne (by omega) (by omega)
  · rfl

theorem renumber_new (d : Dev) (x y : Strike) (h : x.creates d = true) :
    renumber d x y d.os.fs.nextIno = d.os.fs.nextIno + (y.creates d).toNat := by
  unfold renumber
  rw [h, Bool.true_and]
  cases y.creates d with
  | true => exact Equiv.swap_apply_left ..
  | false => rfl

def changes (d : Dev) (x : Strike) : Files := (x.files d).made d.os.fs.nextIno (x.creates d)

theorem changes_name (d : Dev) (x : Strike) : (x.changes d).name = (x.files d).name := by
  unfold changes Files.made
  split <;> rfl

theorem files_of_get (hst : d.streams.get x.localId = some st) :
    x.files d = x.filesOf d.os.fs st ∧ x.creates d = x.createsOf d.os.fs st := by
  simp only [files, creates, hst, and_self]

theorem not_changed (hd : d.Filed) (hdis : (x.files d).Disjoint (y.files d)) {st : Stream}
    (hst : d.streams.get x.localId = some st) :
    (∀ p ∈ (x.files d).name, p ∉ (y.changes d).name) ∧
      ∀ i ∈ (x.files d).ino, i ∉ (y.changes d).ino := by
  rw [changes_name]
  refine ⟨hdis.1, fun i hi hmem => ?_⟩
  have hlt : i < d.os.fs.nextIno := by
    rw [(files_of_get hst).1] at hi
    exact files_below hd.wf (hd.below _ st hst) i hi
  unfold changes Files.made at hmem
  split at hmem
  · cases hmem
    exact absurd hlt (Nat.lt_irrefl _)
  · exact hdis.2 i hi hmem

section

variable {stx sty : Stream} {ex ey : Effect}

theorem twin_refl (hd : d.Filed) (hx : x.Addressed d) (hst : d.streams.get x.localId = some stx)
    (he : x.effect d.version d.os stx = .ok ex) :
    Effect.Twin (Equiv.refl Nat) (x.changes d) (x.creates d).toNat d.os d.os ex ex := by
  obtain ⟨e0, he0, ht⟩ := effect_twin hx (hd.below _ stx hst) (hd.alike _) (fun _ => rfl) he
  cases he0.symm.trans he
  unfold changes
  rw [(files_of_get hst).1, (files_of_get hst).2]
  exact ht

theorem unchanged (hd : d.Filed) (hx : x.Addressed d) (hstx : d.streams.get x.localId = some stx)
    (hsty : d.streams.get y.localId = some sty) (hdis : (y.files d).Disjoint (x.files d))
    (hex : x.effect d.version d.os stx = .ok ex) :
    ex.os.fs.entry = d.os.fs.entry ∧
      (∀ p ∈ (y.filesOf d.os.fs sty).name, ex.os.fs.dir p = d.os.fs.dir p) ∧
      ∀ i ∈ (y.filesOf d.os.fs sty).ino, ex.os.fs.inodes i = d.os.fs.inodes i := by
  have ht := twin_refl hd hx hstx hex
  obtain ⟨hname, hino⟩ := not_changed hd hdis hsty
  rw [(files_of_get hsty).1] at hname hino
  exact ⟨ht.files.only.entry, fun p hp => ht.files.only.names p (hname p hp),
    fun i hi => ht.files.only.inodes i (hino i hi)⟩

theorem twin_after (hd : d.Filed) (hx : x.Addressed d) (hy : y.Addressed d)
    (hstx : d.streams.get x.localId = some stx) (hsty : d.streams.get y.localId = some sty)
    (hdis : (y.files d).Disjoint (x.files d)) (hex : x.effect d.version d.os stx = .ok ex)
    (hey : y.effect d.version d.os sty = .ok ey) :
    ∃ e0, y.effect d.version ex.os sty = .ok e0 ∧
      Effect.Twin (renumber d x y) (y.changes d) (y.creates d).toNat d.os ex.os ey e0 := by
  have ht := twin_refl hd hx hstx hex
  obtain ⟨hent, hnames, hinodes⟩ := unchanged hd hx hstx hsty hdis hex
  obtain ⟨hf, hc⟩ := files_of_get hsty
  have halike : Fs.Alike (renumber d x y) d.os.fs.nextIno (y.filesOf d.os.fs sty) d.os.fs ex.os.fs :=
    ⟨renumber_old d x y, Nat.le_refl _, hent, fun p _ i hi => hd.wf p i hi, hnames, hinodes⟩
  have hnew : y.createsOf d.os.fs sty = true →
      renumber d x y d.os.fs.nextIno = ex.os.fs.nextIno := by
    intro hcr
    rw [ht.files.only.nextIno, ← renumber_comm]
    exact renumber_new d y x (hc.trans hcr)
  obtain ⟨e0, he0, ht0⟩ := effect_twin hy (hd.below _ sty hsty) halike hnew hey
  unfold changes
  rw [hf, hc]
  exact ⟨e0, he0, ht0⟩

/-- `y` has an effect before `x` if it has one after it. -/
theorem effect_before {e : Effect} (hd : d.Filed) (hx : x.Addressed d) (hy : y.Addressed d)
    (hstx : d.streams.get x.localId = some stx) (hsty : d.streams.get y.localId = some sty)
    (hdis : (y.files d).Disjoint (x.files d)) (hex : x.effect d.version d.os stx = .ok ex)
    (he : y.effect d.version ex.os sty = .ok e) :
    ∃ ey, y.effect d.version d.os sty = .ok ey ∧ ey.outs = e.outs := by
  have ht := twin_refl hd hx hstx hex
  obtain ⟨hent, hnames, hinodes⟩ := unchanged hd hx hstx hsty hdis hex
  obtain ⟨hf, hc⟩ := files_congr hent hnames
  have hle : d.os.fs.nextIno ≤ ex.os.fs.nextIno := by
    rw [ht.files.only.nextIno]
    exact Nat.le_add_right ..
  -- a file that `y` creates gets the next number, which `x` may have taken
  have halike : Fs.Alike (Equiv.swap ex.os.fs.nextIno d.os.fs.nextIno) d.os.fs.nextIno
      (y.filesOf ex.os.fs sty) ex.os.fs d.os.fs := by
    rw [hf]
    refine ⟨fun i hi => Equiv.swap_apply_of_ne_of_ne (by omega) (by omega), hle, hent.symm,
      fun p hp i hi => ?_, fun p hp => (hnames p hp).symm, fun i hi => (hinodes i hi).symm⟩
    rw [hnames p hp] at hi
    exact hd.wf p i hi
  obtain ⟨ey, hey, hty⟩ := effect_twin hy (hd.below _ sty hsty) halike
    (fun _ => Equiv.swap_apply_left ..) he
  exact ⟨ey, hey, hty.outs⟩

end

theorem changes_apart (hd : d.Filed) {stx sty : Stream} (hstx : d.streams.get x.localId = some stx)
    (hsty : d.streams.get y.localId = some sty) (hdis : (x.files d).Disjoint (y.files d)) :
    ∀ i ∈ (x.changes d).ino, renumber d x y i ∉ (y.changes d).ino := by
  intro i hi
  cases hcx : x.creates d with
  | false =>
    have hfile : i ∈ (x.files d).ino := by
      simpa only [changes, Files.made, hcx, Bool.false_eq_true, if_false] using hi
    have hid : renumber d x y i = i := by
      simp [renumber, hcx]
    rw [hid]
    exact (not_changed hd hdis hstx).2 i hfile
  | true =>
    have hi : i = d.os.fs.nextIno := by
      simp only [changes, Files.made, hcx, if_true] at hi
      exact (Option.some.inj hi).symm
    subst hi
    rw [renumber_new d x y hcx]
    intro hmem
    cases hcy : y.creates d with
    | true =>
      simp only [changes, Files.made, hcy, if_true] at hmem
      have := Option.some.inj hmem
      simp at this
    | false =>
      simp only [changes, Files.made, hcy, Bool.false_eq_true, if_false, (files_of_get hsty).1] at hmem
      have := files_below hd.wf (hd.below _ sty hsty) _ hmem
      omega

theorem renumber_other {i : Nat} (hi : i ∉ (x.changes d).ino)
    (hπ : renumber d x y i ∉ (y.changes d).ino) : renumber d x y i = i := by
  cases hc : x.creates d && y.creates d with
  | false => simp [renumber, hc]
  | true =>
    obtain ⟨hcx, hcy⟩ := Bool.and_eq_true_iff.mp hc
    simp only [changes, Files.made, hcx, if_true] at hi
    simp only [changes, Files.made, hcy, if_true] at hπ
    have hr : renumber d x y = Equiv.swap d.os.fs.nextIno (d.os.fs.nextIno + 1) := by
      simp [renumber, hc]
    rw [hr] at hπ ⊢
    refine Equiv.swap_apply_of_ne_of_ne (fun he => hi (by rw [he]; rfl)) fun he => hπ ?_
    rw [he, Equiv.swap_apply_right]
    rfl

theorem renamed (hd : d.Filed) {stx sty : Stream} {ex ey exy eyx : Effect}
    (hstx : d.streams.get x.localId = some stx) (hsty : d.streams.get y.localId = some sty)
    (hdis : (x.files d).Disjoint (y.files d))
    (hx : Effect.Twin (renumber d x y) (x.changes d) (x.creates d).toNat d.os ey.os ex eyx)
    (hy : Effect.Twin (renumber d x y) (y.changes d) (y.creates d).toNat d.os ex.os ey exy) :
    Fs.Renamed (renumber d x y) exy.os.fs eyx.os.fs := by
  refine Fs.renamed_of_twins (renumber_renumber d x y) (renumber_old d x y) hd.wf hx.files hy.files
    ?_ ?_ ?_
  · intro p hp
    rw [changes_name] at hp ⊢
    exact hdis.1 p hp
  · exact changes_apart hd hstx hsty hdis
  · exact fun i hi hπ => renumber_other hi hπ

end Strike

/-- The same streams and files, with the inodes renumbered, and on each stream the same
messages and reads in the same order. -/
structure Dev.Interleaved (π : Equiv.Perm Nat) (d d' : Dev) : Prop where
  nextId : d'.streams.nextId = d.streams.nextId
  streams : ∀ i, d'.streams.get i = (d.streams.get i).map (Stream.rename π)
  files : Fs.Renamed π d.os.fs d'.os.fs
  sent : ∀ i, d'.sentOn i = d.sentOn i
  reads : ∀ i, d'.readsOn i = d.readsOn i

namespace Strike

variable {d : Dev} {x y : Strike}

theorem interleaved {stx sty : Stream} {ex ey exy eyx : Effect} {d1 d12 d2 d21 : Dev} (hd : d.Filed)
    (hne : x.localId ≠ y.localId) (hx : Struck d x.localId ex d1) (hxy : Struck d1 y.localId exy d12)
    (hy : Struck d y.localId ey d2) (hyx : Struck d2 x.localId eyx d21)
    (honx : ∀ o ∈ ex.outs, o.On x.localId) (hony : ∀ o ∈ ey.outs, o.On y.localId)
    (htx : Effect.Twin (renumber d x y) (x.changes d) (x.creates d).toNat d.os ey.os ex eyx)
    (hty : Effect.Twin (renumber d x y) (y.changes d) (y.creates d).toNat d.os ex.os ey exy)
    (hstx : d.streams.get x.localId = some stx) (hsty : d.streams.get y.localId = some sty)
    (hdis : (x.files d).Disjoint (y.files d)) :
    Dev.Interleaved (renumber d x y) d12 d21 where
  nextId := by
    rw [hyx.streams, hy.streams, hxy.streams, hx.streams]
    rfl
  streams i := by
    rw [hyx.streams, hy.streams, hxy.streams, hx.streams]
    by_cases hix : i = x.localId
    · subst hix
      rw [StreamManager.get_put_self, StreamManager.get_put_ne hne, StreamManager.get_put_self]
      exact htx.stream
    rw [StreamManager.get_put_ne hix]
    by_cases hiy : i = y.localId
    · subst hiy
      rw [StreamManager.get_put_self, StreamManager.get_put_self, hty.stream, Option.map_map]
      cases ey.stream with
      | none => rfl
      | some st => exact congrArg some (Stream.rename_rename (renumber_renumber d x y) st).symm
    rw [StreamManager.get_put_ne hiy, StreamManager.get_put_ne hiy, StreamManager.get_put_ne hix]
    cases hst : d.streams.get i with
    | none => rfl
    | some st =>
      rw [Option.map_some, Stream.rename_of_below (hd.below i st hst) (renumber_old d x y)]
  files := by
    rw [hyx.os, hxy.os]
    exact renamed hd hstx hsty hdis htx hty
  sent i := by
    rw [hyx.sent, hy.sent, hxy.sent, hx.sent, htx.outs, hty.outs, List.append_assoc, List.append_assoc]
    by_cases hi : i = x.localId
    · rw [Out.sentOn_other (fun he => hne (hi.symm.trans he)) hony, List.append_nil, List.nil_append]
    · rw [Out.sentOn_other hi honx, List.append_nil, List.nil_append]
  reads i := by
    rw [hyx.reads, hy.reads, hxy.reads, hx.reads, htx.outs, hty.outs, List.append_assoc,
      List.append_assoc]
    by_cases hi : i = x.localId
    · rw [Out.readsOn_other (fun he => hne (hi.symm.trans he)) hony, List.append_nil, List.nil_append]
    · rw [Out.readsOn_other hi honx, List.append_nil, List.nil_append]

/-- **Two strikes commute.** -/
theorem commute {d1 d12 : Dev} (hd : d.Filed) (hx : x.Addressed d) (hy : y.Addressed d)
    (hne : x.localId ≠ y.localId) (hdis : (x.files d).Disjoint (y.files d))
    (h1 : x.handle d = .ok d1) (h12 : y.handle d1 = .ok d12) :
    ∃ d2 d21, y.handle d = .ok d2 ∧ x.handle d2 = .ok d21 ∧
      Dev.Interleaved (renumber d x y) d12 d21 := by
  obtain ⟨stx, hstx⟩ := hx.live
  obtain ⟨sty, hsty⟩ := hy.live
  obtain ⟨ex, hex, hsx⟩ := struck_of_ok hx hstx h1
  have hsty1 : d1.streams.get y.localId = d.streams.get y.localId := by
    rw [hsx.streams]
    exact StreamManager.get_put_ne hne.symm ..
  obtain ⟨exy, hexy, hsxy⟩ := struck_of_ok (hy.congr hsty1) (hsty1.trans hsty) h12
  rw [hsx.version, hsx.os] at hexy
  obtain ⟨ey, hey, houts⟩ := effect_before hd hx hy hstx hsty hdis.symm hex hexy
  obtain ⟨exy', hexy', hty⟩ := twin_after hd hx hy hstx hsty hdis.symm hex hey
  cases hexy'.symm.trans hexy
  obtain ⟨eyx, heyx, htx⟩ := twin_after hd hy hx hsty hstx hdis hey hex
  rw [renumber_comm] at htx
  -- room for both in one order is room for both in the other
  have hroom : d.Room (ex.outs ++ exy.outs) := (Dev.room_append hsx.took hsx.room).mpr hsxy.room
  have hroom' : d.Room (ey.outs ++ eyx.outs) := by
    rw [htx.outs, houts]
    exact hroom.perm List.perm_append_comm
  have hroomy : d.Room ey.outs := hroom'.left
  obtain ⟨d2, h2⟩ := handle_of_room hy hsty hey hroomy
  obtain ⟨ey', hey', hsy⟩ := struck_of_ok hy hsty h2
  cases hey'.symm.trans hey
  have hstx2 : d2.streams.get x.localId = d.streams.get x.localId := by
    rw [hsy.streams]
    exact StreamManager.get_put_ne hne ..
  have heyx2 : x.effect d2.version d2.os stx = .ok eyx := by
    rw [hsy.version, hsy.os]
    exact heyx
  obtain ⟨d21, h21⟩ := handle_of_room (hx.congr hstx2) (hstx2.trans hstx) heyx2
    ((Dev.room_append hsy.took hroomy).mp hroom')
  obtain ⟨eyx', heyx', hsyx⟩ := struck_of_ok (hx.congr hstx2) (hstx2.trans hstx) h21
  cases heyx'.symm.trans heyx2
  exact ⟨d2, d21, h2, h21, interleaved hd hne hsx hsxy hsy hsyx (effect_on hx hex)
    (effect_on hy hey) htx hty hstx hsty hdis⟩

end Strike

/-- **Streams are isolated.** In every reachable state, what strikes a live stream leaves
every other entry of the table and the next id alone; and two strikes of different
streams that reach different files, handled in one order, can be handled in the other,
with the same table (and files, up to the numbers of two new ones) and on each
stream the same messages and reads. -/
theorem streams_isolated {info : DeviceInfo} {os : Os} {s : Sys} {x : Strike} (hwf : os.fs.Wf)
    (hreach : Reach Sys.step (fun _ _ => True) (Sys.start info os) s) (hx : x.Addressed s.dev) :
    (∀ d1, x.handle s.dev = .ok d1 → d1.streams.nextId = s.dev.streams.nextId ∧
      ∀ i, i ≠ x.localId → d1.streams.get i = s.dev.streams.get i) ∧
    ∀ y d1 d12, y.Addressed s.dev → x.localId ≠ y.localId →
      (x.files s.dev).Disjoint (y.files s.dev) → x.handle s.dev = .ok d1 → y.handle d1 = .ok d12 →
      ∃ d2 d21, y.handle s.dev = .ok d2 ∧ x.handle d2 = .ok d21 ∧
        Dev.Interleaved (Strike.renumber s.dev x y) d12 d21 := by
  refine ⟨fun d1 h1 => ?_, fun y d1 d12 hy hne hdis h1 h12 => ?_⟩
  · obtain ⟨st, hst⟩ := hx.live
    obtain ⟨e, -, hs⟩ := Strike.struck_of_ok hx hst h1
    rw [hs.streams]
    exact ⟨rfl, fun i hi => StreamManager.get_put_ne hi ..⟩
  · exact Strike.commute (Sys.filed_of_reach hwf hreach) hx hy hne hdis h1 h12

def Strike.push (localId remoteId : UInt32) (body : Bytes) : Strike :=
  let payload := le32 idSendV1 ++ lenPrefixed body
  .message {} (wrteOf localId remoteId payload) (some payload)

/-- Two sync streams each create a file. -/
theorem streams_isolated_two_pushes : ∃ s d1 d12 d2 d21,
    let x := Strike.push 1 7 (ascii "/f,420")
    let y := Strike.push 2 8 (ascii "/g,420")
    Reach Sys.step (fun _ _ => True) Sys.fresh s ∧ x.creates s.dev = true ∧ y.creates s.dev = true ∧
      x.handle s.dev = .ok d1 ∧ y.handle d1 = .ok d12 ∧ y.handle s.dev = .ok d2 ∧
      x.handle d2 = .ok d21 ∧ Dev.Interleaved (Strike.renumber s.dev x y) d12 d21 := by
  have hplay : (Sys.fresh.play (fun _ _ => true)
      (Sys.openSync ++ Sys.Turn.message .open 8 0 (ascii "sync:" ++ [0]))).bind (fun s =>
        ((Strike.push 1 7 (ascii "/f,420")).handle s.dev).toOption.bind fun d1 =>
          ((Strike.push 2 8 (ascii "/g,420")).handle d1).toOption.map fun _ =>
            ((s.dev.streams.get 1).map Stream.remoteId, (s.dev.streams.get 2).map Stream.remoteId,
              (Strike.push 1 7 (ascii "/f,420")).creates s.dev,
              (Strike.push 2 8 (ascii "/g,420")).creates s.dev,
              decide (((Strike.push 1 7 (ascii "/f,420")).files s.dev).Disjoint
                ((Strike.push 2 8 (ascii "/g,420")).files s.dev)))) =
      some (some 7, some 8, true, true, true) := by
    decide +kernel
  obtain ⟨s, hs, hrest⟩ := Option.bind_eq_some_iff.mp hplay
  obtain ⟨d1, h1, hrest⟩ := Option.bind_eq_some_iff.mp hrest
  obtain ⟨d12, h12, hfacts⟩ := Option.map_eq_some_iff.mp hrest
  simp only [Prod.mk.injEq, decide_eq_true_eq] at hfacts
  obtain ⟨hst1, hst2, hc1, hc2, hdis⟩ := hfacts
  obtain ⟨st1, hst1, hr1⟩ := Option.map_eq_some_iff.mp hst1
  obtain ⟨st2, hst2, hr2⟩ := Option.map_eq_some_iff.mp hst2
  have hreach : Reach Sys.step (fun _ _ => True) Sys.fresh s :=
    Sys.reach_of_play (fun _ _ _ => trivial) hs
  have hwf : (Os.boot .empty).fs.Wf := fun path ino hn => nomatch hn
  have h1 := ok_of_toOption h1
  have h12 := ok_of_toOption h12
  obtain ⟨d2, d21, h2, h21, hi⟩ := (streams_isolated hwf hreach
    (x := Strike.push 1 7 (ascii "/f,420")) ⟨.inl rfl, st1, hst1, hr1⟩).2
      (Strike.push 2 8 (ascii "/g,420")) d1 d12 ⟨.inl rfl, st2, hst2, hr2⟩ (by decide) hdis h1 h12
  exact ⟨s, d1, d12, d2, d21, hreach, hc1, hc2, h1, h12, h2, h21, hi⟩

end Adibi
