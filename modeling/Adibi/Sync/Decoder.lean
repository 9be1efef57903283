import Adibi.Lib.Mealy
import Adibi.Sync.Packet

/-!
# The frame stream of a push

What the bytes after a SEND request mean, independent of the receiver that
reads them. `decode` is the one-shot reading of a whole stream: headers of
eight bytes, `len` bytes of file data after each DATA, the verdict at DONE or
at an unknown id. `pushMachine` reads the same stream byte by byte and emits
the file data; `decode_eq_run` says they agree, so a stream may be cut anywhere.
-/

namespace Adibi

open Lib

/-- Where a push stands. -/
inductive Verdict where
  | pending
  | okay (mtime : UInt32)
  | fail
  deriving DecidableEq, Repr

/-- The one-shot reading of a frame stream: the file's bytes and the verdict. -/
def decode (bs : Bytes) : Bytes × Verdict :=
  if bs.length < 8 then ([], .pending)
  else
    match parseSyncFrameHeader (bs.take 8) with
    | some (⟨.data, len⟩, _) =>
      let body := bs.drop 8
      let rest := decode (body.drop len.toNat)
      (body.take len.toNat ++ rest.1, rest.2)
    | some (⟨.done, mtime⟩, _) => ([], .okay mtime)
    | none => ([], .fail)
termination_by bs.length
decreasing_by simp only [List.length_drop]; omega

/-! ## The byte machine -/

/-- The states of the byte machine. -/
inductive PushState where
  /-- Collecting a header; fewer than eight bytes so far. -/
  | header (got : Bytes)
  /-- Inside a DATA frame; `left` bytes to go. -/
  | body (left : Nat)
  /-- The verdict has fallen. -/
  | stop (v : Verdict)
  deriving DecidableEq, Repr

namespace PushState

def enter (len : Nat) : PushState := if len = 0 then .header [] else .body len

/-- The state after a complete header. -/
def afterHeader (h : Bytes) : PushState :=
  match parseSyncFrameHeader h with
  | some (⟨.data, len⟩, _) => enter len.toNat
  | some (⟨.done, mtime⟩, _) => .stop (.okay mtime)
  | none => .stop .fail

def step : PushState → UInt8 → PushState × Bytes
  | .header got, b =>
    (if got.length + 1 < 8 then .header (got ++ [b]) else afterHeader (got ++ [b]), [])
  | .body left, b => (enter (left - 1), [b])
  | .stop v, _ => (.stop v, [])

def verdict : PushState → Verdict
  | .stop v => v
  | _ => .pending

def inBody : PushState → Bool
  | .body _ => true
  | _ => false

end PushState

def pushMachine : Mealy PushState UInt8 UInt8 := ⟨PushState.step⟩

open PushState

theorem run_stop (v : Verdict) (bs : Bytes) : pushMachine.run (.stop v) bs = (.stop v, []) :=
  Mealy.Absorbing.run (fun _ => rfl) bs

theorem run_header_lt {got bs : Bytes} (h : got.length + bs.length < 8) :
    pushMachine.run (.header got) bs = (.header (got ++ bs), []) := by
  induction bs generalizing got with
  | nil => simp
  | cons b bs ih =>
    simp only [List.length_cons] at h
    have h1 : got.length + 1 < 8 := by omega
    rw [Mealy.run_cons]
    simp only [pushMachine, PushState.step, h1, if_true, List.nil_append] at ih ⊢
    rw [ih (by simp only [List.length_append, List.length_singleton]; omega), List.append_assoc]
    rfl

/-- The byte that completes a header decides the next state. -/
theorem run_header_eq {got bs : Bytes} (hb : bs ≠ []) (h : got.length + bs.length = 8) :
    pushMachine.run (.header got) bs = (afterHeader (got ++ bs), []) := by
  obtain ⟨init, last, rfl⟩ : ∃ init last, bs = init ++ [last] :=
    ⟨bs.dropLast, bs.getLast hb, (List.dropLast_append_getLast hb).symm⟩
  simp only [List.length_append, List.length_singleton] at h
  have hlast : ¬ (got ++ init).length + 1 < 8 := by
    simp only [List.length_append]; omega
  rw [Mealy.run_append, run_header_lt (by omega), Mealy.run_cons]
  simp only [pushMachine, PushState.step, hlast, if_false, List.nil_append, Mealy.run_nil,
    List.append_assoc]

theorem run_body {left : Nat} {bs : Bytes} (h : bs.length ≤ left) (hl : 0 < left) :
    pushMachine.run (.body left) bs = (enter (left - bs.length), bs) := by
  induction bs generalizing left with
  | nil => simp only [Mealy.run_nil, List.length_nil, Nat.sub_zero, enter, Nat.ne_of_gt hl, if_false]
  | cons b bs ih =>
    simp only [List.length_cons] at h
    rw [Mealy.run_cons]
    simp only [pushMachine, PushState.step, List.singleton_append] at ih ⊢
    rcases Nat.lt_or_ge 1 left with h1 | h1
    · have he : enter (left - 1) = .body (left - 1) := if_neg (by omega)
      rw [he, ih (by omega) (by omega), List.length_cons, Nat.sub_sub, Nat.add_comm 1]
    · have hb : bs = [] := List.length_eq_zero_iff.mp (by omega)
      subst hb
      simp

theorem run_enter {len : Nat} {bs : Bytes} (h : bs.length ≤ len) :
    pushMachine.run (enter len) bs = (enter (len - bs.length), bs) := by
  rcases Nat.eq_zero_or_pos len with rfl | hl
  · have hb : bs = [] := List.length_eq_zero_iff.mp (by omega)
    subst hb
    simp
  · have he : enter len = .body len := if_neg (by omega)
    rw [he, run_body h hl]

/-- The file data of a frame, then what follows it. -/
theorem run_enter_split (len : Nat) (bs : Bytes) :
    pushMachine.run (enter len) bs =
      ((pushMachine.run (enter (len - bs.length)) (bs.drop len)).1,
        bs.take len ++ (pushMachine.run (enter (len - bs.length)) (bs.drop len)).2) := by
  have hlen : len - (bs.take len).length = len - bs.length := by
    rw [List.length_take]; omega
  conv_lhs => rw [← List.take_append_drop len bs]
  rw [Mealy.run_append, run_enter (by rw [List.length_take]; omega), hlen]

/-- One-shot reading and byte machine agree. -/
theorem decode_eq_run (bs : Bytes) :
    decode bs =
      ((pushMachine.run (.header []) bs).2, (pushMachine.run (.header []) bs).1.verdict) := by
  induction hn : bs.length using Nat.strong_induction_on generalizing bs with
  | _ n ih =>
    subst hn
    unfold decode
    split
    · rename_i h
      rw [run_header_lt (by simpa using h)]
      rfl
    · rename_i h
      have h8 : (bs.take 8).length = 8 := by rw [List.length_take]; omega
      have hne : bs.take 8 ≠ [] := fun e => by rw [e] at h8; cases h8
      have hrun : pushMachine.run (.header []) bs =
          pushMachine.run (afterHeader (bs.take 8)) (bs.drop 8) := by
        conv_lhs => rw [← List.take_append_drop 8 bs]
        rw [Mealy.run_append, run_header_eq hne (by simp [h8])]
        rfl
      rw [hrun, afterHeader]
      cases hp : parseSyncFrameHeader (bs.take 8) with
      | none => simp only [run_stop]; rfl
      | some r =>
        obtain ⟨⟨id, len⟩, t⟩ := r
        cases id with
        | done => simp only [run_stop]; rfl
        | data =>
          simp only
          rw [run_enter_split, ih _ (by simp only [List.length_drop]; omega) _ rfl]
          rcases Nat.lt_or_ge (bs.drop 8).length len.toNat with hlt | hge
          · have hd : (bs.drop 8).drop len.toNat = [] := List.drop_eq_nil_of_le (by omega)
            simp only [hd, Mealy.run_nil]
            have he : enter (len.toNat - (bs.drop 8).length) =
              .body (len.toNat - (bs.drop 8).length) := if_neg (by omega)
            rw [he]
            rfl
          · have he : enter (len.toNat - (bs.drop 8).length) = .header [] := if_pos (by omega)
            rw [he]

/-! ## The frames a host sends -/

/-- The DATA frames and the DONE of one push. -/
structure PushBody where
  chunks : List Bytes
  mtime : UInt32
  chunks_lt : ∀ c ∈ chunks, c.length < 2 ^ 32

def dataFrame (c : Bytes) : Bytes := le32 idData ++ le32 (UInt32.ofNat c.length) ++ c

def doneFrame (mtime : UInt32) : Bytes := le32 idDone ++ le32 mtime

def encodeFrames (chunks : List Bytes) (mtime : UInt32) : Bytes :=
  (chunks.map dataFrame).flatten ++ doneFrame mtime

def PushBody.encode (b : PushBody) : Bytes := encodeFrames b.chunks b.mtime

/-- `bs` takes the machine from `d` to its verdict, and no shorter prefix does. -/
def Completes (d : PushState) (bs : Bytes) (v : Verdict) (out : Bytes) : Prop :=
  pushMachine.run d bs = (.stop v, out) ∧
    ∀ q, q <+: bs → q ≠ bs → (pushMachine.run d q).1.verdict = .pending

theorem verdict_enter (n : Nat) : (enter n).verdict = .pending := by
  unfold enter
  split <;> rfl

theorem parse_data (n : UInt32) (t : Bytes) :
    parseSyncFrameHeader (le32 idData ++ le32 n ++ t) = some (⟨.data, n⟩, t) := by
  have hid : SyncFrameRequestId.tryFrom idData = some .data := by decide +kernel
  simp only [parseSyncFrameHeader, parseSyncFrameId, Parser.andThen, Parser.verifyMap, Parser.map,
    List.append_assoc, Parser.leU32_le32, Option.bind_some, hid, Option.map_some]

theorem parse_done (n : UInt32) (t : Bytes) :
    parseSyncFrameHeader (le32 idDone ++ le32 n ++ t) = some (⟨.done, n⟩, t) := by
  have hid : SyncFrameRequestId.tryFrom idDone = some .done := by decide +kernel
  simp only [parseSyncFrameHeader, parseSyncFrameId, Parser.andThen, Parser.verifyMap, Parser.map,
    List.append_assoc, Parser.leU32_le32, Option.bind_some, hid, Option.map_some]

theorem Completes.header {h bs out : Bytes} {v : Verdict} (h8 : h.length = 8)
    (hc : Completes (afterHeader h) bs v out) : Completes (.header []) (h ++ bs) v out := by
  have hne : h ≠ [] := fun e => by rw [e] at h8; cases h8
  have hrun : ∀ t, pushMachine.run (.header []) (h ++ t) = pushMachine.run (afterHeader h) t := by
    intro t
    rw [Mealy.run_append, run_header_eq hne (by simpa using h8)]
    rfl
  refine ⟨by rw [hrun]; exact hc.1, fun q hq hne' => ?_⟩
  rcases Nat.lt_or_ge q.length 8 with hlt | hge
  · rw [run_header_lt (by simpa using hlt)]
    rfl
  · obtain ⟨q', rfl⟩ : h <+: q := List.prefix_of_prefix_length_le (List.prefix_append h bs) hq (by omega)
    rw [hrun]
    exact hc.2 q' ((List.prefix_append_right_inj h).mp hq) fun e => hne' (by rw [e])

theorem Completes.body {c bs out : Bytes} {v : Verdict} (hc : Completes (.header []) bs v out) :
    Completes (enter c.length) (c ++ bs) v (c ++ out) := by
  have hrun : ∀ t, pushMachine.run (enter c.length) (c ++ t) =
      ((pushMachine.run (.header []) t).1, c ++ (pushMachine.run (.header []) t).2) := by
    intro t
    rw [Mealy.run_append, run_enter (Nat.le_refl _), Nat.sub_self]
    rfl
  refine ⟨by rw [hrun, hc.1], fun q hq hne => ?_⟩
  rcases Nat.lt_or_ge q.length c.length with hlt | hge
  · rw [run_enter (by omega)]
    exact verdict_enter _
  · obtain ⟨q', rfl⟩ : c <+: q := List.prefix_of_prefix_length_le (List.prefix_append c bs) hq hge
    rw [hrun]
    exact hc.2 q' ((List.prefix_append_right_inj c).mp hq) fun e => hne (by rw [e])

theorem completes_doneFrame (mtime : UInt32) :
    Completes (.header []) (doneFrame mtime) (.okay mtime) [] := by
  have hp := parse_done mtime []
  rw [List.append_nil] at hp
  have ha : afterHeader (doneFrame mtime) = .stop (.okay mtime) := by
    rw [doneFrame, afterHeader, hp]
  have hstop : Completes (afterHeader (doneFrame mtime)) [] (.okay mtime) [] := by
    rw [ha]
    exact ⟨Mealy.run_nil .., fun q hq hne => absurd (List.prefix_nil.mp hq) hne⟩
  have hlen : (doneFrame mtime).length = 8 := by
    simp only [doneFrame, List.length_append, le32_length]
  have := Completes.header hlen hstop
  rwa [List.append_nil] at this

/-- A well-formed push completes with its chunks and its DONE, at its last byte. -/
theorem completes_encodeFrames {chunks : List Bytes} (mtime : UInt32)
    (h : ∀ c ∈ chunks, c.length < 2 ^ 32) :
    Completes (.header []) (encodeFrames chunks mtime) (.okay mtime) chunks.flatten := by
  induction chunks with
  | nil =>
    rw [encodeFrames, List.map_nil, List.flatten_nil, List.nil_append]
    exact completes_doneFrame mtime
  | cons c cs ih =>
    have hlt : c.length < 2 ^ 32 := h c List.mem_cons_self
    have hn : (UInt32.ofNat c.length).toNat = c.length := UInt32.toNat_ofNat_of_lt' hlt
    have hp := parse_data (UInt32.ofNat c.length) []
    rw [List.append_nil] at hp
    have ha : afterHeader (le32 idData ++ le32 (UInt32.ofNat c.length)) = enter c.length := by
      simp only [afterHeader, hp, hn]
    have hrest := (ih fun d hd => h d (List.mem_cons_of_mem _ hd)).body (c := c)
    rw [← ha] at hrest
    have hlen : (le32 idData ++ le32 (UInt32.ofNat c.length)).length = 8 := by
      simp only [List.length_append, le32_length]
    have := Completes.header hlen hrest
    rw [List.append_assoc] at this
    rw [encodeFrames, List.map_cons, List.flatten_cons, dataFrame, List.append_assoc,
      List.append_assoc, List.append_assoc]
    exact this

theorem PushBody.completes (b : PushBody) :
    Completes (.header []) b.encode (.okay b.mtime) b.chunks.flatten :=
  completes_encodeFrames b.mtime b.chunks_lt

end Adibi
