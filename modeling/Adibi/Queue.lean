import Adibi.Budget
import Adibi.Pairing
import Adibi.Slots

/-!
# The submission queue

What the loop queues between two calls of `submit_and_wait`. Each write has a
slot of its own, which no completion of the same batch gives back; besides there
are a poll, if the poll completed, and a bulk-out read with at most one read of a
stream, if the bulk-out read did. So the queue stays short of its 32 entries,
however many streams are open and however long the batch is.
-/

namespace Adibi

open Lib

/-- The operations a submission queues besides writes. -/
def Out.ops : Out → Nat
  | .op _ => 1
  | .message _ _ => 0

namespace Dev

variable {d d' : Dev} {a n : Nat}

/-- The writes in the queue. -/
def queuedWrites (d : Dev) : Nat := (d.tags.filterMap writeSlot).length

/-- There is room for `n` operations that are no writes, with which there are at
most `a` of them in the queue; and for as many writes as there are slots. -/
def Spare (a : Nat) (d : Dev) (n : Nat) : Prop :=
  d.sq.length + n ≤ d.queuedWrites + a ∧ d.sq.length + n ≤ d.buffers.used + 23

/-! ## Submissions -/

/-- A push with room for it, of a write with its slot or of an operation paid for. -/
theorem push_spare (buffers : BufferManager) {e : Sqe} (hq : d.sq.length < sqEntries)
    (hw : d.sq.length + 1 + n ≤ d.queuedWrites + (writeSlot e.userData).toList.length + a)
    (hu : d.sq.length + 1 + n ≤ buffers.used + 23) :
    Raises (push { d with buffers } e) (· ≠ .sqFull) ∧
      ∀ d', push { d with buffers } e = .ok d' → d'.Spare a n := by
  unfold push
  rw [if_pos hq]
  refine ⟨.ok _, fun d' hd => ?_⟩
  cases hd
  have hpush : (((d.sq ++ [e]).map Sqe.userData).filterMap writeSlot).length =
      d.queuedWrites + (writeSlot e.userData).toList.length := by
    rw [List.map_append, List.filterMap_append, List.length_append]
    cases hs : writeSlot e.userData <;> simp [hs, queuedWrites, tags]
  refine ⟨?_, ?_⟩
  · show (d.sq ++ [e]).length + n ≤ (((d.sq ++ [e]).map Sqe.userData).filterMap writeSlot).length + a
    rw [hpush, List.length_append, List.length_singleton]
    exact hw
  · show (d.sq ++ [e]).length + n ≤ buffers.used + 23
    rw [List.length_append, List.length_singleton]
    exact hu

theorem submitOp_spare {u : UserData} (h : d.Spare a (1 + n)) :
    Raises (d.submitOp u) (· ≠ .sqFull) ∧ ∀ d', d.submitOp u = .ok d' → d'.Spare a n := by
  obtain ⟨h1, h2⟩ := h
  have hle := d.buffers.used_le
  refine push_spare d.buffers ?_ (by omega) (by omega)
  simp only [maxBufferSlots, sqEntries] at *
  omega

theorem submitWrite_spare {bytes : Bytes} {link : Bool} (h : d.Spare a n) :
    Raises (d.submitWrite bytes link) (· ≠ .sqFull) ∧
      ∀ d', d.submitWrite bytes link = .ok d' → d'.Spare a n := by
  obtain ⟨h1, h2⟩ := h
  have hzero : Panic.Plain .slotZero := Panic.plain_of (by decide)
  have halloc : Raises d.buffers.alloc (· ≠ .sqFull) := by
    unfold BufferManager.alloc
    split
    · exact .error (by decide)
    · exact .ok _
  refine Budget.Leaves.bind halloc fun x hx => .bind ((lenU32_raises _).mono fun _ hq => hq.plain.queue)
    fun _ _ => .bind ((nonZero_raises hzero _).mono fun _ hq => hq.queue) fun slot hslot => ?_
  -- the slot was free, so the queue is not longer than the other slots and operations
  have hused : (x.2.extend x.1 bytes).used = d.buffers.used + 1 := BufferManager.alloc_used hx
  have hle := (x.2.extend x.1 bytes).used_le
  refine push_spare _ ?_ ?_ (by omega)
  · simp only [maxBufferSlots, sqEntries] at *
    omega
  · simp only [writeSlot_write, Option.toList_some, List.length_singleton]
    omega

/-- The queue's entries are a budget that only operations other than writes use up. -/
theorem queueBudget (a : Nat) : Budget (· ≠ .sqFull) Out.ops (Spare a) where
  plain _ h := h.queue
  emit := by
    intro d o n h
    cases o with
    | op u => exact submitOp_spare h
    | message header payload =>
      have h0 : d.Spare a n := by simpa [Out.ops] using h
      obtain ⟨hr, hd⟩ := submitWrite_spare h0
      refine Budget.Leaves.bind hr fun d1 h1 => ?_
      have hp : Budget.Leaves (· ≠ .sqFull) (Spare a)
          (d1.submitPayload ((some payload).filter (· ≠ []))) n := by
        unfold submitPayload
        split
        · exact .ok (hd d1 h1)
        · exact submitWrite_spare (hd d1 h1)
      exact .bind hp.1 fun d2 h2 => .ok (hp.2 d2 h2)
  frame := by
    intro d d' n h hb hq
    simpa only [Spare, queuedWrites, tags, hb, hq] using h
  le := by
    intro d m n hle h
    obtain ⟨h1, h2⟩ := h
    exact ⟨by omega, by omega⟩

end Dev

/-! ## Effects -/

section

variable {env : Env} {v : ProtocolVersion} {i : UInt32} {os : Os} {st : Stream} {e : Effect}

theorem ops_le_length (outs : List Out) : (outs.map Out.ops).sum ≤ outs.length := by
  induction outs with
  | nil => exact Nat.le_refl 0
  | cons o outs ih =>
    have ho : o.ops ≤ 1 := by cases o <;> simp [Out.ops]
    rw [List.map_cons, List.sum_cons, List.length_cons]
    omega

theorem continueSync_single (h : continueSync env v i os st = .ok e) : e.outs.length ≤ 1 := by
  unfold continueSync at h
  split at h
  · cases h
    exact Nat.zero_le 1
  · split at h
    · obtain ⟨⟨frame, sender⟩, -, h1⟩ := bind_eq_ok.mp h
      cases frame with
      | none =>
        cases h1
        exact Nat.zero_le 1
      | some r =>
        obtain ⟨o, -, h2⟩ := bind_eq_ok.mp h1
        cases h2
        exact Nat.le_refl 1
    · cases h
      exact Nat.zero_le 1

theorem onOkay_single (h : onOkay env v i os st = .ok e) : e.outs.length ≤ 1 := by
  unfold onOkay at h
  simp only at h
  split at h
  · exact continueSync_single h
  · obtain ⟨o, -, h1⟩ := bind_eq_ok.mp h
    cases h1
    exact Nat.le_refl 1
  · obtain ⟨o, -, h1⟩ := bind_eq_ok.mp h
    cases h1
    exact Nat.le_refl 1
  · cases h

theorem written_single (i : UInt32) (st : Stream) (r : Except IoError Unit × Os) :
    (written i st r).outs.length ≤ 1 := by
  unfold written
  split
  · exact Nat.zero_le 1
  · exact Nat.le_refl 1

theorem onWrte_single {payload : Bytes} (h : onWrte env v i os st payload = .ok e) :
    e.outs.length ≤ 1 := by
  unfold onWrte at h
  split at h
  · obtain ⟨⟨result, svc, fs⟩, -, h1⟩ := bind_eq_ok.mp h
    cases result with
    | stat stat =>
      obtain ⟨o, -, h2⟩ := bind_eq_ok.mp h1
      cases h2
      exact Nat.le_refl 1
    | data hdr data =>
      obtain ⟨o, -, h2⟩ := bind_eq_ok.mp h1
      cases h2
      exact Nat.le_refl 1
    | «continue» => exact continueSync_single h1
    | quit =>
      cases h1
      exact Nat.le_refl 1
  · cases h
    exact written_single ..
  · cases h
    exact written_single ..
  · cases h

theorem onClse_single {r : UInt32} (h : onClse env i os st r = .ok e) : e.outs.length ≤ 1 := by
  unfold onClse at h
  split at h
  · cases h
  · split at h
    · cases h
      exact Nat.zero_le 1
    · cases h
      exact Nat.le_refl 1

theorem firstRead_single {outs : List Out} (h : firstRead i st = .ok outs) : outs.length ≤ 1 := by
  unfold firstRead at h
  split at h
  · obtain ⟨o, -, rfl⟩ := map_eq_ok.mp h
    exact Nat.le_refl 1
  · obtain ⟨o, -, rfl⟩ := map_eq_ok.mp h
    exact Nat.le_refl 1
  · cases h
    exact Nat.zero_le 1

theorem onRead_ops {op : UserDataOpType} {res : Int} (h : onRead v i os st op res = .ok e) :
    (e.outs.map Out.ops).sum = 0 := by
  unfold onRead at h
  split at h
  · cases h
    rfl
  · split at h
    · cases h
      rfl
    · obtain ⟨o, ho, h1⟩ := bind_eq_ok.mp h
      cases h1
      obtain ⟨hd, rfl, -⟩ := wrteOut_ok ho
      rfl

end

theorem Dev.costs_ops (env : Env) (d : Dev) (h : AdbHeader) (p : Option Bytes) :
    d.Costs Out.ops env h p 1 := by
  have hone : ∀ {outs : List Out}, outs.length ≤ 1 → (outs.map Out.ops).sum ≤ 1 :=
    fun hl => Nat.le_trans (ops_le_length _) hl
  unfold Dev.Costs
  cases h.command with
  | auth => cases p <;> trivial
  | stls => cases p <;> trivial
  | cnxn =>
    cases p with
    | none => trivial
    | some payload => exact fun header data => Nat.zero_le 1
  | «open» =>
    cases p with
    | none => trivial
    | some payload =>
      refine ⟨Nat.zero_le 1, Nat.zero_le 1, fun svc outs houts => ?_⟩
      have hle := hone (firstRead_single houts)
      simpa [okayOut, Out.ops] using hle
  | wrte =>
    cases p with
    | none => trivial
    | some payload =>
      refine ⟨Nat.zero_le 1, fun st e _ he => ?_⟩
      have hle := hone (onWrte_single he)
      simpa [okayOut, Out.ops] using hle
  | okay =>
    cases p with
    | some payload => trivial
    | none => exact fun st e _ he => hone (onOkay_single he)
  | clse =>
    cases p <;> exact fun st e _ he => hone (onClse_single he)

/-! ## Completions -/

/-- The operations besides writes that the queue may hold: two for a bulk-out read,
one for a poll. -/
def Dev.allowance (d : Dev) : Nat := 2 * (d.tags.filterMap bulkKind).length + d.tags.countP isPoll

/-- What a completion adds to them. -/
def Cqe.adds (c : Cqe) : Nat :=
  if (bulkKind c.userData).isSome then 2 else if isPoll c.userData then 1 else 0

theorem Dev.Grows.allowance {d d' : Dev} (h : d.Grows d') : d'.allowance = d.allowance := by
  rw [Dev.allowance, Dev.allowance, h.bulk, h.polls]

theorem Resubmits.allowance {c : Cqe} {d d' : Dev} (h : Resubmits c d d') :
    d'.allowance = d.allowance + c.adds := by
  cases h with
  | other hb hp hg => simp [hg.allowance, Cqe.adds, hb, hp]
  | poll hb hp ht =>
    have hk : bulkKind (UserData.mk .ep0Poll none).toU64 = none := bulkKind_op (by decide) (by decide)
    simp only [Dev.allowance, Cqe.adds, ht, hb, hp, List.filterMap_append, List.countP_append,
      List.filterMap_cons, hk, List.countP_singleton, isPoll_poll]
    simp [Nat.add_assoc]
  | @bulk op d1 hb hp hop hg ht =>
    obtain ⟨b, hk⟩ : ∃ b, bulkKind (UserData.mk op none).toU64 = some b := by
      rcases hop with rfl | rfl
      · exact ⟨_, Sys.bulkKind_header⟩
      · exact ⟨_, Sys.bulkKind_payload⟩
    have hn : isPoll (UserData.mk op none).toU64 = false :=
      isPoll_op (by rcases hop with rfl | rfl <;> decide)
    have hg' := hg.allowance
    simp only [Dev.allowance] at hg'
    simp only [Dev.allowance, Cqe.adds, ht, hb, List.filterMap_append, List.countP_append,
      List.filterMap_cons, hk, List.countP_singleton, hn, if_true, List.length_append]
    simp only [List.filterMap_nil, List.length_singleton, Bool.false_eq_true, if_false]
    omega

namespace Sys

variable {s s' : Sys} {c : Cqe} {tail : List Cqe} {env : Env} {a : Nat}

theorem adds_bulk {b : Bool} (h : bulkKind c.userData = some b) : c.adds = 2 := by
  simp [Cqe.adds, h]

theorem read_spare {d : Dev} (hs : d.Spare a 0) (op : UserDataOpType) (i : UInt32) (res : Int) :
    Budget.Leaves (· ≠ .sqFull) (Dev.Spare a)
      (if res ≤ 0 then readEnd d i else readRelay d op i res.toNat) 0 := by
  rw [Dev.readDone_eq]
  exact (Dev.queueBudget a).effect (n := 0) hs
    (fun st _ => (onRead_raises ..).mono fun q hq => hq.queue)
    fun st e _ he => Nat.le_of_eq (onRead_ops he)

theorem dispatch_spare {d : Dev} {h : AdbHeader} {p : Option Bytes} (hs : d.Spare a 2) :
    Budget.Leaves (· ≠ .sqFull) (Dev.Spare a)
      (d.handleCommand env h p >>= fun d => d.submitBulkOutRead .bulkOutReadHeader) 0 := by
  have hsite : ∀ q, d.Trips h p q → q ≠ .sqFull := by
    rintro q hq rfl
    exact hq
  obtain ⟨h1, h2⟩ := (Dev.queueBudget a).handleCommand (n := 1) (m := 1) hs
    (Dev.costs_ops env d h p) hsite
  exact .bind h1 fun d1 hd1 => Dev.submitOp_spare (h2 d1 hd1)

theorem Handles.spare (h : Handles env s c s') (hs : s.dev.Spare a c.adds) :
    s'.dev.sq.length ≤ s'.dev.queuedWrites + a := by
  have hbulk : ∀ {b : Bool}, bulkKind c.userData = some b → ∀ t, (s.dev.log t).Spare a 2 := by
    intro b hk t
    rw [adds_bulk hk] at hs
    exact (Dev.queueBudget a).frame hs rfl rfl
  have hnext : ∀ {b : Bool} {op : UserDataOpType} {t : Traffic} {d : Dev},
      bulkKind c.userData = some b → (s.dev.log t).submitBulkOutRead op = .ok d →
      d.sq.length ≤ d.queuedWrites + a := by
    intro b op t d hk hd
    have h1 : d.Spare a 1 := (Dev.submitOp_spare (n := 1) (hbulk hk t)).2 d hd
    have h2 := h1.1
    omega
  have hdisp : ∀ {b : Bool} {t : Traffic} {hd : AdbHeader} {p : Option Bytes} {d d' : Dev},
      bulkKind c.userData = some b → (s.dev.log t).handleCommand env hd p = .ok d →
      d.submitBulkOutRead .bulkOutReadHeader = .ok d' → d'.sq.length ≤ d'.queuedWrites + a := by
    intro b t hd p d d' hk hc hd'
    exact ((dispatch_spare (hbulk hk t)).2 d' (bind_eq_ok.mpr ⟨d, hc, hd'⟩)).1
  have hle := hs.1
  cases h with
  | unknown ht => exact Nat.le_trans (Nat.le_add_right _ _) hle
  | write ht hd => exact Nat.le_trans (Nat.le_add_right _ _) hle
  | @read op j d hop ht hd =>
    have h0 : s.dev.Spare a 0 := (Dev.queueBudget a).le (Nat.zero_le _) hs
    exact ((read_spare h0 op j.1 c.res).2 d hd).1
  | poll ht hd =>
    have hone : c.adds = 1 + 0 := by
      simp [Cqe.adds, bulkKind, isPoll, ht]
    rw [hone] at hs
    exact ((Dev.submitOp_spare hs).2 _ hd).1
  | rejected ht hx hp hd => exact hnext (b := false) (by simp [bulkKind, ht]) hd
  | pending ht hx hp hl hd => exact hnext (b := false) (by simp [bulkKind, ht]) hd
  | bare ht hx hp hl hc hd => exact hdisp (b := false) (by simp [bulkKind, ht]) hc hd
  | orphan ht hx hp hd => exact hnext (b := true) (by simp [bulkKind, ht]) hd
  | dropped ht hx hp hb hd => exact hnext (b := true) (by simp [bulkKind, ht]) hd
  | loaded ht hx hp hb hc hd => exact hdisp (b := true) (by simp [bulkKind, ht]) hc hd

theorem arriving_bulk {b : Bool} {data : Bytes} (hb : s.batch = c :: tail)
    (h : s.arriving = some (b, data)) : bulkKind c.userData = some b := by
  simp only [arriving, hb] at h
  split at h
  · rename_i ht _
    cases h
    simp [bulkKind, ht]
  · rename_i ht _
    cases h
    simp [bulkKind, ht]
  · cases h

theorem arriving_of_incoming {x : AdbHeader × Option Bytes} (h : s.incoming = some x) :
    ∃ b data, s.arriving = some (b, data) := by
  cases ha : s.arriving with
  | none =>
    simp only [incoming, ha] at h
    cases h
  | some y => exact ⟨y.1, y.2, rfl⟩

theorem handle_spare (hs : ∀ c tail, s.batch = c :: tail → s.dev.Spare a c.adds) :
    Raises (s.step (.handle env)) (Halt.Of (· ≠ .sqFull)) := by
  have hbulk : ∀ {b : Bool} {data : Bytes}, s.arriving = some (b, data) →
      ∀ t, (s.dev.log t).Spare a 2 := by
    intro b data ha t
    cases hb : s.batch with
    | nil =>
      simp only [arriving, hb] at ha
      cases ha
    | cons c tail =>
      have h2 := hs c tail hb
      rw [adds_bulk (arriving_bulk hb ha)] at h2
      exact (Dev.queueBudget a).frame h2 rfl rfl
  refine handle_raises (fun p hp => hp.queue) ?_ ?_ ?_ ?_
  · intro op i res he
    cases hb : s.batch with
    | nil =>
      simp only [ending, hb] at he
      cases he
    | cons c tail =>
      exact (read_spare ((Dev.queueBudget a).le (Nat.zero_le _) (hs c tail hb)) op i res).1
  · intro c tail x hb ht
    have hone : c.adds = 1 + 0 := by simp [Cqe.adds, bulkKind, isPoll, ht]
    have h1 := hs c tail hb
    rw [hone] at h1
    exact (Dev.submitOp_spare h1).1
  · intro b data ha t op
    exact (Dev.submitOp_spare (n := 1) (hbulk ha t)).1
  · intro t h p hin
    obtain ⟨b, data, ha⟩ := arriving_of_incoming hin
    exact (dispatch_spare (hbulk ha t)).1

/-! ## Runs -/

/-- The queue holds writes and what its bulk-out read and its poll allow. -/
def Queued (s : Sys) : Prop := s.dev.sq.length ≤ s.dev.queuedWrites + s.dev.allowance

/-- What is queued is outstanding: writes with a slot each, one bulk-out read, one poll. -/
theorem queue_bounds {info : DeviceInfo} {os : Os}
    (h : Reach Sys.step (fun _ _ => True) (Sys.start info os) s) :
    s.dev.queuedWrites ≤ s.dev.buffers.used ∧ s.dev.allowance ≤ 3 := by
  have howned := (owned_of_reach h).owns
  have hpolled := polled_of_reach h
  obtain ⟨arrived, ho⟩ : ∃ arrived, Reach (observed Sys.step Sys.arrival) (fun _ _ => True)
      (Sys.start info os, []) (s, arrived) := h.observe
  have hbulk := congrArg List.length (tracks_of_reach ho).bulk
  unfold Polled at hpolled
  unfold outstanding at hpolled hbulk
  simp only [List.countP_append, List.filterMap_append, List.length_append,
    List.length_singleton] at hpolled hbulk
  refine ⟨?_, ?_⟩
  · rw [BufferManager.used_eq howned, List.filterMap_append, List.length_append]
    exact Nat.le_add_right _ _
  · unfold Dev.allowance
    omega

theorem Queued.spare {info : DeviceInfo} {os : Os} (hq : s.Queued)
    (h : Reach Sys.step (fun _ _ => True) (Sys.start info os) s) (c : Cqe) :
    s.dev.Spare (s.dev.allowance + c.adds) c.adds := by
  obtain ⟨hw, ha⟩ := queue_bounds h
  have hadds : c.adds ≤ 2 := by
    unfold Cqe.adds
    split
    · exact Nat.le_refl 2
    · split <;> omega
  unfold Queued at hq
  exact ⟨by omega, by omega⟩

theorem Queued.step {info : DeviceInfo} {os : Os} {e : Event} (hq : s.Queued)
    (h : Reach Sys.step (fun _ _ => True) (Sys.start info os) s) (hs : s.step e = .ok s') :
    s'.Queued := by
  cases e with
  | submit =>
    obtain ⟨-, rfl⟩ := Sys.submit_ok hs
    exact Nat.zero_le _
  | reap =>
    obtain ⟨-, -, -, rfl⟩ := Sys.reap_ok hs
    exact hq
  | complete k outcome =>
    obtain ⟨e, u, -, -, -, rfl⟩ := complete_ok hs
    obtain ⟨hsq, -⟩ := s.fill_pool u outcome
    unfold Queued Dev.queuedWrites Dev.allowance Dev.tags at hq ⊢
    rw [hsq]
    exact hq
  | handle env =>
    obtain ⟨c, tail, hb, hh⟩ := Sys.handle_ok hs
    have hsp : ({ s with batch := tail } : Sys).dev.Spare (s.dev.allowance + c.adds) c.adds :=
      hq.spare h c
    unfold Queued
    rw [hh.resubmits.1.allowance]
    exact hh.spare hsp

theorem queued_of_reach {info : DeviceInfo} {os : Os}
    (h : Reach Sys.step (fun _ _ => True) (Sys.start info os) s) : s.Queued := by
  induction h with
  | refl =>
    have htags : (Sys.start info os).dev.tags =
        [(UserData.mk .ep0Poll none).toU64, (UserData.mk .bulkOutReadHeader none).toU64] := rfl
    have hlen : (Sys.start info os).dev.sq.length = 2 := rfl
    unfold Queued Dev.allowance
    rw [hlen, htags, List.filterMap_cons, List.filterMap_cons, bulkKind_header,
      bulkKind_op (by decide) (by decide), List.countP_cons, isPoll_poll]
    simp only [List.filterMap_nil, List.length_singleton, if_true]
    omega
  | tail hr _ hs ih => exact ih.step hr hs

end Sys

/-- **The submission queue is never full.** In every state of every run it holds at
most the writes of the eight slots and three other operations, which is less than
its 32 entries; and no step panics for want of an entry. -/
theorem queue_never_full {info : DeviceInfo} {os : Os} {s : Sys}
    (h : Reach Sys.step (fun _ _ => True) (Sys.start info os) s) :
    s.dev.sq.length ≤ maxBufferSlots + 3 ∧ maxBufferSlots + 3 < sqEntries ∧
      ∀ e, s.step e ≠ .error (.panic .sqFull) := by
  have hq := Sys.queued_of_reach h
  obtain ⟨hw, ha⟩ := Sys.queue_bounds h
  have hused := s.dev.buffers.used_le
  unfold Sys.Queued at hq
  refine ⟨by omega, by decide, fun e he => ?_⟩
  have hraise : Raises (s.step e) (Halt.Of (· ≠ .sqFull)) := by
    refine Sys.step_raises ?_
    rintro env rfl
    cases hb : s.batch with
    | nil =>
      simp only [Sys.step, hb]
      exact .error trivial
    | cons c tail =>
      refine Sys.handle_spare (a := s.dev.allowance + c.adds) fun c' tail' hb' => ?_
      cases hb.symm.trans hb'
      exact (Sys.queued_of_reach h).spare h c
  exact hraise.of_error _ he rfl

/-- The OKAY of a new shell, its first read and the next header read are queued. -/
theorem queue_never_full_open : ∃ s, Reach Sys.step (fun _ _ => True) Sys.fresh s ∧
    s.dev.sq.length = 3 ∧ ∀ e, s.step e ≠ .error (.panic .sqFull) := by
  have hplay : (Sys.fresh.play (fun _ _ => true) Sys.openShell).map (fun s => s.dev.sq.length) =
      some 3 := by
    decide +kernel
  obtain ⟨s, hs, hlen⟩ := Option.map_eq_some_iff.mp hplay
  have hreach : Reach Sys.step (fun _ _ => True) Sys.fresh s :=
    Sys.reach_of_play (fun _ _ _ => trivial) hs
  exact ⟨s, hreach, hlen, (queue_never_full hreach).2.2⟩

end Adibi
