import Adibi.Drain

/-!
# Whose reads are in flight

`View.step_reads` says what an act does to the number of reads of a stream: an
OPEN and an OKAY start one if the service is read, a completion takes one away.
Whatever the host sends, a read in flight for an open stream is of the kind its
service is read by, and an id not yet given has none (`ownReads_of_reach`).
-/

namespace Adibi

open Lib

namespace View

variable {w w' : View} {env : Env} {v : ProtocolVersion} {os : Os} {i : UInt32}

def reader (w : View) : Option UserDataOpType := w.stream.bind (·.service.reader)

def readsAfter (w : View) (op : UserDataOpType) : Act → Nat
  | .opened _ svc => w.reads op + if svc.reader = some op then 1 else 0
  | .okay => w.reads op + if w.reader = some op then 1 else 0
  | .read op' _ => if op = op' then w.reads op - 1 else w.reads op
  | _ => w.reads op

theorem noted_readsAfter {a : Act} {op : UserDataOpType} (ha : ∀ r svc, a ≠ .opened r svc)
    (hr : w.reader ≠ some op) : (w.noted a).reads op = w.readsAfter op a := by
  cases a with
  | opened r svc => exact absurd rfl (ha r svc)
  | okay =>
    show _ = w.reads op + if w.reader = some op then 1 else 0
    rw [if_neg hr]
    cases op <;> rfl
  | read op' res => exact ended_reads ..
  | none => rfl
  | fill op' bytes => rfl
  | wrte payload => rfl
  | clse r => rfl

/-- **What an act does to the reads in flight.** -/
theorem step_reads {a : Act} (hs : w.step env v os i a = .ok w') (op : UserDataOpType) :
    w'.reads op = w.readsAfter op a := by
  cases moves_of_step hs with
  | opened r svc => exact begun_reads ..
  | absent ha hst =>
    refine noted_readsAfter ha ?_
    unfold reader
    rw [hst]
    exact Option.some_ne_none op ∘ Eq.symm
  | rests ha hst hr hq =>
    refine (hq.reads op).trans (noted_readsAfter ha ?_)
    unfold reader
    rw [hst, Option.bind_some, hr]
    exact Option.some_ne_none op ∘ Eq.symm
  | @relays _ _ st op' hst hr hrel =>
    cases hrel with
    | none => rfl
    | fill _ bytes => exact reads_stream ..
    | okay =>
      have hreader : w.reader = some op' := by
        unfold reader
        rw [hst]
        exact hr
      show _ = w.reads op + if w.reader = some op then 1 else 0
      rw [began_reads _ (Service.reader_cases hr), hreader]
      simp only [Option.some.injEq, eq_comm (a := op')]
      cases op <;> rfl
    | wrte payload => rfl
    | failed _ => exact reads_stream ..
    | half r _ => exact reads_stream ..
    | closed r _ => exact reads_stream ..
    | ended op'' _ => exact (reads_stream ..).trans (ended_reads ..)
    | stray _ _ => exact ended_reads ..
    | relayed _ _ =>
      refine Eq.trans ?_ (ended_reads w op' op)
      cases op <;> rfl

/-- Only reads of the stream's own kind are in flight. -/
def OwnReads (w : View) : Prop :=
  ∀ st, w.stream = some st → ∀ op, st.service.reader ≠ some op → w.reads op = 0

def Unborn (w : View) : Prop := w.stream = none ∧ ∀ op, w.reads op = 0

theorem OwnReads.step {a : Act} (h : w.OwnReads) (hopen : ∀ r svc, a = .opened r svc → w.Unborn)
    (hs : w.step env v os i a = .ok w') : w'.OwnReads := by
  intro st' hst' op hop
  rw [step_reads hs op]
  by_cases ha : ∃ r svc, a = .opened r svc
  · obtain ⟨r, svc, rfl⟩ := ha
    obtain ⟨outs, -, rfl⟩ := map_eq_ok.mp hs
    cases hst'
    show w.reads op + (if svc.reader = some op then 1 else 0) = 0
    rw [(hopen r svc rfl).2 op, if_neg hop]
  · have hno : ∀ r svc, a ≠ .opened r svc := fun r svc he => ha ⟨r, svc, he⟩
    obtain ⟨st, hst⟩ := step_open hno hs hst'
    rw [step_reader hno hs hst hst'] at hop
    have h0 := h st hst op hop
    have hr : w.reader ≠ some op := by
      unfold reader
      rw [hst]
      exact hop
    cases a with
    | opened r svc => exact absurd rfl (hno r svc)
    | okay =>
      show w.reads op + (if w.reader = some op then 1 else 0) = 0
      rw [h0, if_neg hr]
    | read op' res =>
      show (if op = op' then w.reads op - 1 else w.reads op) = 0
      rw [h0, ite_self]
    | none => exact h0
    | fill op' bytes => exact h0
    | wrte payload => exact h0
    | clse r => exact h0

theorem Unborn.step {a : Act} (h : w.Unborn) (hopen : ∀ r svc, a ≠ .opened r svc)
    (hs : w.step env v os i a = .ok w') : w'.Unborn := by
  refine ⟨?_, fun op => ?_⟩
  · cases hst' : w'.stream with
    | none => rfl
    | some st' =>
      obtain ⟨st, hst⟩ := step_open hopen hs hst'
      rw [h.1] at hst
      cases hst
  · have h0 := h.2 op
    rw [step_reads hs op]
    cases a with
    | opened r svc => exact absurd rfl (hopen r svc)
    | okay =>
      show w.reads op + (if w.reader = some op then 1 else 0) = 0
      unfold reader
      rw [h0, h.1, Option.bind_none, if_neg (fun e => nomatch e)]
    | read op' res =>
      show (if op = op' then w.reads op - 1 else w.reads op) = 0
      rw [h0, ite_self]
    | none => exact h0
    | fill op' bytes => exact h0
    | wrte payload => exact h0
    | clse r => exact h0

end View

namespace Sys

/-- Reads belong to the streams they are for. -/
structure OwnReads (s : Sys) : Prop where
  own : ∀ i, (s.view i).OwnReads
  unborn : ∀ i, s.nextId.toNat ≤ i.toNat → (s.view i).Unborn
  /-- No stream has the id zero. -/
  zero : (s.view 0).Unborn
  pos : 0 < s.nextId.toNat

theorem start_unborn (info : DeviceInfo) (os : Os) (i : UInt32) :
    ((Sys.start info os).view i).Unborn := by
  have h := start_view info os i
  unfold View.Fresh at h
  rw [h]
  exact ⟨rfl, fun op => by cases op <;> rfl⟩

theorem OwnReads.start (info : DeviceInfo) (os : Os) : (Sys.start info os).OwnReads where
  own _ _ h := by cases h
  unborn i _ := start_unborn info os i
  zero := start_unborn info os 0
  pos := Nat.zero_lt_one

theorem OwnReads.step {s s' : Sys} {e : Event} (h : s.OwnReads) (hs : s.step e = .ok s') :
    s'.OwnReads := by
  refine ⟨fun i => ?_, fun i hi => ?_, ?_, ?_⟩
  · refine (h.own i).step (fun r svc ha => ?_) (step_view hs i)
    rw [act_opened ha]
    exact h.unborn s.nextId (Nat.le_refl _)
  · obtain ⟨hle, hno⟩ := not_opened_of_le hs hi
    exact (h.unborn i hle).step hno (step_view hs i)
  · refine h.zero.step (fun r svc ha => ?_) (step_view hs 0)
    have hpos := h.pos
    rw [← act_opened ha] at hpos
    exact absurd hpos (Nat.lt_irrefl 0)
  · have hpos := h.pos
    rcases step_nextId hs with ⟨heq, -⟩ | hsucc
    · rw [heq]
      exact hpos
    · omega

/-- **Reads belong to the streams they are for**, whatever the host sends. -/
theorem ownReads_of_reach {Ok : Sys → Event → Prop} {info : DeviceInfo} {os : Os} {s : Sys}
    (h : Reach Sys.step Ok (Sys.start info os) s) : s.OwnReads :=
  h.invariant (OwnReads.start info os) fun _ _ _ hi _ hs => hi.step hs

/-- A read that is handled is of the kind its stream is read by. -/
theorem OwnReads.reader_of_act {s : Sys} {e : Event} {i : UInt32} {op : UserDataOpType} {res : Int}
    {st : Stream} (h : s.OwnReads) (ha : s.act e i = .read op res)
    (hst : s.dev.streams.get i = some st) : st.service.reader = some op := by
  by_contra hne
  have hpos := act_reads ha
  rw [h.own i st hst op hne] at hpos
  exact absurd hpos (Nat.lt_irrefl 0)

end Sys

end Adibi
