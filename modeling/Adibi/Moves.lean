import Adibi.Simulation

/-!
# What an act does to a stream

`Moves` says once what an act can do to the view of a stream: open it, find none,
leave a stream without reads one (`Rests`), or one of the ways a stream that is
read goes on (`Relays`). The invariants of a stream are proved over these cases
and never unfold `View.step`.
-/

namespace Adibi

open Lib

/-! ## What submissions add to a view -/

namespace View

variable {w w' : View} {i : UInt32}

theorem plus_wrteOut {v : ProtocolVersion} {r : UInt32} {data : Bytes} {o : Out}
    (h : wrteOut v i r data = .ok o) : w.plus i [o] = { w with wrtes := w.wrtes ++ [data] } := by
  obtain ⟨hd, rfl, hc, h0, -⟩ := wrteOut_ok h
  simp [plus, Out.isRead, Out.wrteOn, hc, h0]

def reads (w : View) : UserDataOpType → Nat
  | .ptyRead => w.ptyReads
  | .socketRead => w.socketReads
  | _ => 0

def began (w : View) (op : UserDataOpType) : View :=
  { w with
    ptyReads := if op = .ptyRead then w.ptyReads + 1 else w.ptyReads
    socketReads := if op = .socketRead then w.socketReads + 1 else w.socketReads }

@[simp] theorem began_stream (w : View) (op : UserDataOpType) : (w.began op).stream = w.stream := rfl

@[simp] theorem reads_stream (w : View) (st : Option Stream) (op : UserDataOpType) :
    { w with stream := st }.reads op = w.reads op := by
  cases op <;> rfl

theorem began_reads (w : View) {op : UserDataOpType} (hop : op = .ptyRead ∨ op = .socketRead)
    (op' : UserDataOpType) :
    (w.began op).reads op' = w.reads op' + if op' = op then 1 else 0 := by
  rcases hop with rfl | rfl <;> cases op' <;> rfl

theorem ended_reads (w : View) (op op' : UserDataOpType) :
    (w.ended op).reads op' = if op' = op then w.reads op' - 1 else w.reads op' := by
  cases op' <;> cases op <;> rfl

theorem plus_readOut {op : UserDataOpType} {o : Out} (hop : op = .ptyRead ∨ op = .socketRead)
    (h : readOut op i = .ok o) : w.plus i [o] = w.began op := by
  obtain ⟨u, rfl, -, hu⟩ := readOut_ok h
  have hw : (Out.op u).wrteOn i = none := rfl
  have hne : readTag .ptyRead i ≠ readTag .socketRead i := by
    intro e
    cases (readTag_inj e).1
  rcases hop with rfl | rfl
  · simp [plus, began, Out.isRead, hu, hw, hne]
  · simp [plus, began, Out.isRead, hu, hw, hne.symm]

end View

/-! ## What an effect leaves of a stream -/

section

variable {env : Env} {v : ProtocolVersion} {i : UInt32} {os : Os} {st : Stream} {e : Effect}

/-- Continuing a sync stream: nothing to send, the next frame, or the end of the
pull. -/
theorem continueSync_cases (h : continueSync env v i os st = .ok e) :
    (e = ⟨some st, os, []⟩ ∧ (st.waitingForOkay = true ∨
        ∀ sender, st.service ≠ .sync ⟨.sending sender⟩)) ∨
    (st.waitingForOkay = false ∧ ∃ sender sender' hdr data o,
      st.service = .sync ⟨.sending sender⟩ ∧
      sender.nextFrame env os.fs = .ok (some (hdr, data), sender') ∧
      wrteOut v i st.remoteId (hdr.asLeBytes ++ data) = .ok o ∧
      e = ⟨some { st with service := .sync ⟨.sending sender'⟩, waitingForOkay := true }, os, [o]⟩) ∨
    (st.waitingForOkay = false ∧ ∃ sender sender',
      st.service = .sync ⟨.sending sender⟩ ∧ sender.nextFrame env os.fs = .ok (none, sender') ∧
      e = ⟨some { st with service := .sync ⟨.idle⟩ }, os, []⟩) := by
  unfold continueSync at h
  split at h
  · rename_i hw
    cases h
    exact .inl ⟨rfl, .inl hw⟩
  · rename_i hw
    have hw : st.waitingForOkay = false := by simpa using hw
    split at h
    · rename_i sender hs
      obtain ⟨⟨frame, sender'⟩, hn, h1⟩ := bind_eq_ok.mp h
      cases frame with
      | none =>
        cases h1
        exact .inr (.inr ⟨hw, sender, sender', hs, hn, rfl⟩)
      | some r =>
        obtain ⟨o, ho, h2⟩ := bind_eq_ok.mp h1
        cases h2
        exact .inr (.inl ⟨hw, sender, sender', r.1, r.2, o, hs, hn, ho, rfl⟩)
    · rename_i hs
      cases h
      exact .inl ⟨rfl, .inr hs⟩

end

/-! ## Services that are read -/

theorem Service.reader_cases {svc : Service} {op : UserDataOpType} (h : svc.reader = some op) :
    op = .ptyRead ∨ op = .socketRead := by
  cases svc with
  | shell sh =>
    cases h
    exact .inl rfl
  | forward fwd =>
    cases h
    exact .inr rfl
  | sync svc => cases h
  | reboot => cases h

@[simp] theorem Service.reader_filled (svc : Service) (op : UserDataOpType) (bytes : Bytes) :
    (svc.filled op bytes).reader = svc.reader := by
  cases svc with
  | shell sh =>
    simp only [Service.filled]
    split <;> rfl
  | forward fwd =>
    simp only [Service.filled]
    split <;> rfl
  | sync svc => rfl
  | reboot => rfl

section

variable {env : Env} {v : ProtocolVersion} {i : UInt32} {os : Os} {st : Stream} {e : Effect}
  {op : UserDataOpType}

theorem firstRead_reader (h : st.service.reader = some op) :
    firstRead i st = (readOut op i).map fun o => [o] := by
  unfold firstRead
  cases hs : st.service <;> rw [hs] at h <;> cases h <;> rfl

theorem firstRead_none (h : st.service.reader = none) : firstRead i st = .ok [] := by
  unfold firstRead
  cases hs : st.service <;> rw [hs] at h <;> first | rfl | cases h

theorem onOkay_reader (hr : st.service.reader = some op) (h : onOkay env v i os st = .ok e) :
    ∃ o, readOut op i = .ok o ∧ e = ⟨some { st with waitingForOkay := false }, os, [o]⟩ := by
  unfold onOkay at h
  cases hs : st.service with
  | sync svc =>
    rw [hs] at hr
    cases hr
  | reboot =>
    rw [hs] at hr
    cases hr
  | shell sh =>
    rw [hs] at hr
    cases hr
    simp only [hs] at h
    obtain ⟨o, ho, h1⟩ := bind_eq_ok.mp h
    cases h1
    exact ⟨o, ho, rfl⟩
  | forward fwd =>
    rw [hs] at hr
    cases hr
    simp only [hs] at h
    obtain ⟨o, ho, h1⟩ := bind_eq_ok.mp h
    cases h1
    exact ⟨o, ho, rfl⟩

/-- How many of `n` bytes the first `k` writes to a socket take. -/
def Env.taken (env : Env) (n : Nat) : Nat → Nat
  | 0 => 0
  | k + 1 => env.taken n k + max 1 (min (env.amount (.socketWrite k)) (n - env.taken n k))

/-- The system fails a write of a WRTE's payload: the one to a PTY, or one of those to
a socket that come before all is written. -/
def inputFails (env : Env) (svc : Service) (payload : Bytes) : Prop :=
  match svc with
  | .shell _ => payload ≠ [] ∧ (env.fail .ptyWrite).isSome
  | .forward _ => ∃ k < payload.length, env.taken payload.length k < payload.length ∧
      (env.fail (.socketWrite k)).isSome
  | _ => False

instance (env : Env) (svc : Service) (payload : Bytes) : Decidable (inputFails env svc payload) :=
  match svc with
  | .shell _ => inferInstanceAs (Decidable (_ ∧ _))
  | .forward _ => inferInstanceAs (Decidable (∃ k < payload.length, _))
  | .sync _ => inferInstanceAs (Decidable False)
  | .reboot => inferInstanceAs (Decidable False)

theorem le_taken (env : Env) (n k : Nat) : k ≤ env.taken n k := by
  induction k with
  | zero => exact Nat.zero_le _
  | succ k ih =>
    simp only [Env.taken]
    omega

theorem writeLoop_fails (env : Env) (socket n k : Nat) (os : Os) (data : Bytes)
    (hn : data.length = n - env.taken n k) :
    (∃ err, (ForwardService.writeLoop env socket k os data).1 = .error err) ↔
      ∃ j, k ≤ j ∧ env.taken n j < n ∧ (env.fail (.socketWrite j)).isSome := by
  induction hm : data.length using Nat.strong_induction_on generalizing data k os with
  | _ m ih =>
    subst hm
    have hmono : ∀ j, k ≤ j → env.taken n k ≤ env.taken n j := by
      intro j hj
      induction j, hj using Nat.le_induction with
      | base => exact Nat.le_refl _
      | succ j _ ihj =>
        simp only [Env.taken]
        omega
    unfold ForwardService.writeLoop
    split
    · rename_i hnil
      rw [hnil, List.length_nil] at hn
      refine iff_of_false (by rintro ⟨_, ⟨⟩⟩) ?_
      rintro ⟨j, hj, hlt, -⟩
      have := hmono j hj
      omega
    · rename_i hne
      have hpos := List.length_pos_iff.mpr hne
      cases hf : env.fail (.socketWrite k) with
      | some err => exact ⟨fun _ => ⟨k, Nat.le_refl k, by omega, by rw [hf]; rfl⟩, fun _ => ⟨err, rfl⟩⟩
      | none =>
        simp only
        have hlen : (data.drop (max 1 (min (env.amount (.socketWrite k)) data.length))).length =
            n - env.taken n (k + 1) := by
          simp only [List.length_drop, Env.taken, ← hn]
          omega
        rw [ih _ (by simp only [List.length_drop]; omega) (k + 1) _ _ hlen rfl]
        refine exists_congr fun j => Iff.intro (fun ⟨hj, h⟩ => ⟨Nat.le_of_succ_le hj, h⟩) ?_
        rintro ⟨hj, hlt, hfail⟩
        refine ⟨Nat.lt_of_le_of_ne hj fun heq => ?_, hlt, hfail⟩
        rw [← heq, hf] at hfail
        cases hfail

/-- **A write of input fails** where the system fails a call of it. -/
theorem forward_writeInput_fails (env : Env) (os : Os) (fwd : ForwardService) (payload : Bytes) :
    (∃ err, (fwd.writeInput env os payload).1 = .error err) ↔
      inputFails env (.forward fwd) payload := by
  unfold ForwardService.writeInput
  rw [writeLoop_fails env fwd.socket payload.length 0 os payload rfl]
  refine exists_congr fun k => Iff.intro (fun ⟨_, hlt, hfail⟩ => ?_) fun ⟨_, h⟩ => ⟨Nat.zero_le k, h⟩
  exact ⟨Nat.lt_of_le_of_lt (le_taken env _ k) hlt, hlt, hfail⟩

theorem shell_writeInput_fails (env : Env) (os : Os) (sh : ShellService) (payload : Bytes) :
    (∃ err, (sh.writeInput env os payload).1 = .error err) ↔ inputFails env (.shell sh) payload := by
  unfold ShellService.writeInput inputFails
  split
  · rename_i hnil
    exact iff_of_false (by rintro ⟨_, ⟨⟩⟩) fun h => h.1 hnil
  · rename_i hne
    cases env.fail .ptyWrite with
    | none => exact iff_of_false (by rintro ⟨_, ⟨⟩⟩) (by rintro ⟨-, ⟨⟩⟩)
    | some err => exact ⟨fun _ => ⟨hne, rfl⟩, fun _ => ⟨err, rfl⟩⟩

/-- A payload is written, or the stream is closed because it could not be. -/
theorem onWrte_reader {payload : Bytes} (hr : st.service.reader = some op)
    (h : onWrte env v i os st payload = .ok e) :
    (e.stream = some st ∧ e.outs = []) ∨
      (inputFails env st.service payload ∧ e.stream = none ∧ e.outs = [clseOut i st.remoteId]) := by
  unfold onWrte at h
  cases hs : st.service with
  | sync svc =>
    rw [hs] at hr
    cases hr
  | reboot =>
    rw [hs] at hr
    cases hr
  | shell sh =>
    rw [hs] at h
    cases h
    rcases hw : sh.writeInput env os payload with ⟨_ | _, os'⟩
    · exact .inr ⟨(shell_writeInput_fails env os sh payload).mp ⟨_, by rw [hw]⟩, rfl, rfl⟩
    · exact .inl ⟨rfl, rfl⟩
  | forward fwd =>
    rw [hs] at h
    cases h
    rcases hw : fwd.writeInput env os payload with ⟨_ | _, os'⟩
    · exact .inr ⟨(forward_writeInput_fails env os fwd payload).mp ⟨_, by rw [hw]⟩, rfl, rfl⟩
    · exact .inl ⟨rfl, rfl⟩

/-- A completed read ends the stream, is of another kind than the stream's, or is
relayed. -/
theorem onRead_cases {res : Int} (h : onRead v i os st op res = .ok e) :
    (res ≤ 0 ∧ e = closing i os st) ∨
      (0 < res ∧ st.service.reader ≠ some op ∧ e = ⟨some st, os, []⟩) ∨
      (0 < res ∧ st.service.reader = some op ∧ ∃ data o,
        Sys.readData op st.service res.toNat = some data ∧
        wrteOut v i st.remoteId data = .ok o ∧
        e = ⟨some { st with waitingForOkay := true }, os, [o]⟩) := by
  unfold onRead at h
  split at h
  · rename_i hres
    cases h
    exact .inl ⟨hres, rfl⟩
  · rename_i hres
    have hpos : 0 < res := by omega
    cases hd : Sys.readData op st.service res.toNat with
    | none =>
      rw [hd] at h
      cases h
      refine .inr (.inl ⟨hpos, fun hr => ?_, rfl⟩)
      cases hs : st.service <;> rw [hs] at hr hd <;> cases hr <;> cases hd
    | some data =>
      rw [hd] at h
      obtain ⟨o, ho, h1⟩ := bind_eq_ok.mp h
      cases h1
      refine .inr (.inr ⟨hpos, ?_, data, o, rfl, ho, rfl⟩)
      cases op <;> cases hs : st.service <;> rw [hs] at hd <;> first | rfl | cases hd

theorem onClse_cases {r : UInt32} (h : onClse env i os st r = .ok e) :
    ((∃ fwd, st.service = .forward fwd) ∧ e.stream = some { st with remoteClosed := true } ∧
        e.outs = []) ∨
      ((∀ fwd, st.service ≠ .forward fwd) ∧ e.stream = none ∧ e.outs = [clseOut i st.remoteId]) := by
  unfold onClse at h
  split at h
  · cases h
  · cases hs : st.service with
    | forward fwd =>
      rw [hs] at h
      cases h
      exact .inl ⟨⟨fwd, rfl⟩, rfl, rfl⟩
    | sync svc =>
      rw [hs] at h
      cases h
      exact .inr ⟨by simp, rfl, rfl⟩
    | shell sh =>
      rw [hs] at h
      cases h
      exact .inr ⟨by simp, rfl, rfl⟩
    | reboot =>
      rw [hs] at h
      cases h
      exact .inr ⟨by simp, rfl, rfl⟩

end

/-! ## Services that are not -/

section

variable {env : Env} {v : ProtocolVersion} {i : UInt32} {os : Os} {st : Stream} {e : Effect}

/-- The effect keeps a stream without reads one, and submits no read. -/
def Quiet (i : UInt32) (e : Effect) : Prop :=
  (∀ st', e.stream = some st' → st'.service.reader = none) ∧
    ∀ (w : View) (op : UserDataOpType), (w.plus i e.outs).reads op = w.reads op

theorem quiet_nil {st' : Stream} (h : st'.service.reader = none) : Quiet i ⟨some st', os, []⟩ :=
  ⟨fun _ hst => by cases hst; exact h, fun w op => by rw [View.plus_nil]⟩

theorem quiet_wrte {r : UInt32} {data : Bytes} {o : Out} {st' : Stream}
    (h : st'.service.reader = none) (ho : wrteOut v i r data = .ok o) :
    Quiet i ⟨some st', os, [o]⟩ :=
  ⟨fun _ hst => by cases hst; exact h, fun w op => by rw [View.plus_wrteOut ho]; cases op <;> rfl⟩

theorem quiet_closing : Quiet i (closing i os st) := by
  refine ⟨fun _ hst => (nomatch hst), fun w op => ?_⟩
  rw [closing, View.plus_clseOut]

theorem continueSync_quiet (hr : st.service.reader = none) (h : continueSync env v i os st = .ok e) :
    Quiet i e := by
  rcases continueSync_cases h with ⟨rfl, -⟩ | ⟨-, _, _, _, _, o, -, -, ho, rfl⟩ |
    ⟨-, _, _, -, -, rfl⟩
  · exact quiet_nil hr
  · exact quiet_wrte rfl ho
  · exact quiet_nil rfl

theorem onOkay_quiet (hr : st.service.reader = none) (h : onOkay env v i os st = .ok e) :
    Quiet i e := by
  unfold onOkay at h
  cases hs : st.service with
  | sync svc =>
    simp only [hs] at h
    exact continueSync_quiet rfl h
  | reboot =>
    simp only [hs] at h
    cases h
  | shell sh =>
    rw [hs] at hr
    cases hr
  | forward fwd =>
    rw [hs] at hr
    cases hr

theorem onWrte_quiet {payload : Bytes} (hr : st.service.reader = none)
    (h : onWrte env v i os st payload = .ok e) : Quiet i e := by
  unfold onWrte at h
  cases hs : st.service with
  | reboot =>
    rw [hs] at h
    cases h
  | shell sh =>
    rw [hs] at hr
    cases hr
  | forward fwd =>
    rw [hs] at hr
    cases hr
  | sync svc =>
    rw [hs] at h
    obtain ⟨⟨result, svc', fs⟩, -, h1⟩ := bind_eq_ok.mp h
    cases result with
    | stat stat =>
      obtain ⟨o, ho, h2⟩ := bind_eq_ok.mp h1
      cases h2
      exact quiet_wrte rfl ho
    | data hdr data =>
      obtain ⟨o, ho, h2⟩ := bind_eq_ok.mp h1
      cases h2
      exact quiet_wrte rfl ho
    | quit =>
      cases h1
      exact quiet_closing
    | «continue» => exact continueSync_quiet rfl h1

theorem onClse_quiet {r : UInt32} (hr : st.service.reader = none)
    (h : onClse env i os st r = .ok e) : Quiet i e := by
  rcases onClse_cases h with ⟨⟨fwd, hs⟩, -, -⟩ | ⟨-, hst, ho⟩
  · rw [hs] at hr
    cases hr
  · refine ⟨fun st' hst' => ?_, fun w op => ?_⟩
    · cases hst.symm.trans hst'
    · rw [ho, View.plus_clseOut]

theorem onRead_quiet {op : UserDataOpType} {res : Int} (hr : st.service.reader = none)
    (h : onRead v i os st op res = .ok e) : Quiet i e := by
  rcases onRead_cases h with ⟨-, rfl⟩ | ⟨-, -, rfl⟩ | ⟨-, hop, -⟩
  · exact quiet_closing
  · exact quiet_nil hr
  · rw [hr] at hop
    cases hop

end

/-! ## The cases -/

namespace View

variable {w w' : View} {env : Env} {v : ProtocolVersion} {os : Os} {i : UInt32} {a : Act}
  {st st' : Stream}

theorem through_none {f : Stream → Except Panic Effect} (h : w.through i f = .ok w')
    (hs : w.stream = none) : w' = w := by
  unfold through at h
  rw [hs] at h
  exact (Except.ok.inj h).symm

theorem through_some {f : Stream → Except Panic Effect} {st : Stream} (h : w.through i f = .ok w')
    (hs : w.stream = some st) :
    ∃ e, f st = .ok e ∧ w' = { w with stream := e.stream }.plus i e.outs := by
  unfold through at h
  rw [hs] at h
  simp only at h
  cases hf : f st with
  | error p =>
    rw [hf] at h
    cases h
  | ok e =>
    rw [hf] at h
    exact ⟨e, rfl, (Except.ok.inj h).symm⟩

/-- What an act shows before the stream is asked. -/
def noted (w : View) : Act → View
  | .okay => { w with okays := w.okays + 1 }
  | .read op _ => w.ended op
  | _ => w

@[simp] theorem noted_stream (w : View) (a : Act) : (w.noted a).stream = w.stream := by
  cases a <;> rfl

@[simp] theorem noted_wrtes (w : View) (a : Act) : (w.noted a).wrtes = w.wrtes := by
  cases a <;> rfl

theorem noted_okays (w : View) (a : Act) : w.okays ≤ (w.noted a).okays := by
  cases a with
  | okay => exact Nat.le_succ _
  | none => exact Nat.le_refl _
  | fill op bytes => exact Nat.le_refl _
  | opened r svc => exact Nat.le_refl _
  | wrte payload => exact Nat.le_refl _
  | clse r => exact Nat.le_refl _
  | read op res => exact Nat.le_refl _

theorem noted_reads (w : View) (a : Act) (op : UserDataOpType) :
    (w.noted a).reads op ≤ w.reads op := by
  cases a with
  | read op' res =>
    show (w.ended op').reads op ≤ _
    rw [ended_reads]
    split
    · exact Nat.sub_le ..
    · exact Nat.le_refl _
  | okay => cases op <;> exact Nat.le_refl _
  | none => exact Nat.le_refl _
  | fill op' bytes => exact Nat.le_refl _
  | opened r svc => exact Nat.le_refl _
  | wrte payload => exact Nat.le_refl _
  | clse r => exact Nat.le_refl _

/-- A new stream, with its first read if it has one. -/
def begun (w : View) (r : UInt32) (svc : Service) : View :=
  match svc.reader with
  | none => { w with stream := some ⟨r, svc, false, false⟩ }
  | some op => { w with stream := some ⟨r, svc, false, false⟩ }.began op

@[simp] theorem begun_stream (w : View) (r : UInt32) (svc : Service) :
    (w.begun r svc).stream = some ⟨r, svc, false, false⟩ := by
  unfold begun
  split <;> rfl

@[simp] theorem begun_wrtes (w : View) (r : UInt32) (svc : Service) :
    (w.begun r svc).wrtes = w.wrtes := by
  unfold begun
  split <;> rfl

@[simp] theorem begun_okays (w : View) (r : UInt32) (svc : Service) :
    (w.begun r svc).okays = w.okays := by
  unfold begun
  split <;> rfl

theorem begun_reads (w : View) (r : UInt32) (svc : Service) (op : UserDataOpType) :
    (w.begun r svc).reads op = w.reads op + if svc.reader = some op then 1 else 0 := by
  unfold begun
  cases hr : svc.reader with
  | none =>
    simp only [reads_stream, reduceCtorEq, if_false]
    rfl
  | some op' =>
    simp only [began_reads _ (Service.reader_cases hr), reads_stream, Option.some.injEq,
      eq_comm (a := op')]

/-- An act on a stream without reads: it stays one. -/
structure Rests (w : View) (a : Act) (w' : View) : Prop where
  reader : ∀ st', w'.stream = some st' → st'.service.reader = none
  reads : ∀ op, w'.reads op = (w.noted a).reads op

/-- An act on a stream that is read by `op`. -/
inductive Relays (env : Env) (w : View) (st : Stream) (op : UserDataOpType) :
    Act → View → Prop where
  | none : Relays env w st op .none w
  | fill (op' : UserDataOpType) (bytes : Bytes) : Relays env w st op (.fill op' bytes)
      { w with stream := some { st with service := st.service.filled op' bytes } }
  | okay : Relays env w st op .okay
      ({ w with okays := w.okays + 1, stream := some { st with waitingForOkay := false } }.began op)
  | wrte (payload : Bytes) : Relays env w st op (.wrte payload) w
  | failed {payload : Bytes} (h : inputFails env st.service payload) :
      Relays env w st op (.wrte payload) { w with stream := Option.none }
  | half (r : UInt32) {fwd : ForwardService} (h : st.service = .forward fwd) :
      Relays env w st op (.clse r) { w with stream := some { st with remoteClosed := true } }
  | closed (r : UInt32) (h : ∀ fwd, st.service ≠ .forward fwd) :
      Relays env w st op (.clse r) { w with stream := Option.none }
  | ended (op' : UserDataOpType) {res : Int} (h : res ≤ 0) : Relays env w st op (.read op' res)
      { w.ended op' with stream := Option.none }
  | stray {op' : UserDataOpType} {res : Int} (hop : op' ≠ op) (h : 0 < res) :
      Relays env w st op (.read op' res) (w.ended op')
  | relayed {res : Int} {data : Bytes} (h : 0 < res)
      (hd : Sys.readData op st.service res.toNat = some data) :
      Relays env w st op (.read op res)
        { w.ended op with
          stream := some { st with waitingForOkay := true }
          wrtes := w.wrtes ++ [data] }

/-- **What an act does to a view.** -/
inductive Moves (env : Env) (w : View) : Act → View → Prop where
  | opened (r : UInt32) (svc : Service) : Moves env w (.opened r svc) (w.begun r svc)
  | absent {a : Act} (ha : ∀ r svc, a ≠ .opened r svc) (hst : w.stream = none) :
      Moves env w a (w.noted a)
  | rests {a : Act} {w' : View} {st : Stream} (ha : ∀ r svc, a ≠ .opened r svc)
      (hst : w.stream = some st) (hr : st.service.reader = none) (h : w.Rests a w') :
      Moves env w a w'
  | relays {a : Act} {w' : View} {st : Stream} {op : UserDataOpType}
      (hst : w.stream = some st) (hr : st.service.reader = some op)
      (h : Relays env w st op a w') : Moves env w a w'

theorem stream_self (hst : w.stream = some st) : { w with stream := some st } = w := by
  cases w
  cases hst
  rfl

theorem Rests.of_quiet {e : Effect} (h : Quiet i e) :
    w.Rests a ({ w.noted a with stream := e.stream }.plus i e.outs) :=
  ⟨h.1, fun op => (h.2 _ op).trans (reads_stream ..)⟩

theorem rests_of_step (ha : ∀ r svc, a ≠ .opened r svc) (hst : w.stream = some st)
    (hr : st.service.reader = none) (hs : w.step env v os i a = .ok w') : w.Rests a w' := by
  cases a with
  | opened r svc => exact absurd rfl (ha r svc)
  | none =>
    cases hs
    refine ⟨fun st' hst' => ?_, fun op => rfl⟩
    cases hst.symm.trans hst'
    exact hr
  | fill op bytes =>
    cases hs
    refine ⟨fun st' hst' => ?_, fun op => reads_stream ..⟩
    obtain ⟨st0, h0, rfl⟩ := Option.map_eq_some_iff.mp hst'
    cases hst.symm.trans h0
    exact (Service.reader_filled ..).trans hr
  | okay =>
    obtain ⟨e, he, rfl⟩ := through_some hs hst
    exact .of_quiet (a := .okay) (onOkay_quiet hr he)
  | wrte payload =>
    obtain ⟨e, he, rfl⟩ := through_some hs hst
    exact .of_quiet (a := .wrte payload) (onWrte_quiet hr he)
  | clse r =>
    obtain ⟨e, he, rfl⟩ := through_some hs hst
    exact .of_quiet (a := .clse r) (onClse_quiet hr he)
  | read op res =>
    obtain ⟨e, he, rfl⟩ := through_some (w := w.ended op) hs hst
    exact .of_quiet (a := .read op res) (onRead_quiet hr he)

theorem relays_of_step {op : UserDataOpType} (ha : ∀ r svc, a ≠ .opened r svc)
    (hst : w.stream = some st) (hr : st.service.reader = some op)
    (hs : w.step env v os i a = .ok w') : Relays env w st op a w' := by
  cases a with
  | opened r svc => exact absurd rfl (ha r svc)
  | none =>
    cases hs
    exact .none
  | fill op' bytes =>
    cases hs
    rw [hst]
    exact .fill op' bytes
  | okay =>
    obtain ⟨e, he, rfl⟩ := through_some hs hst
    obtain ⟨o, ho, rfl⟩ := onOkay_reader hr he
    rw [plus_readOut (Service.reader_cases hr) ho]
    exact .okay
  | wrte payload =>
    obtain ⟨e, he, rfl⟩ := through_some hs hst
    rcases onWrte_reader hr he with ⟨h1, h2⟩ | ⟨hfail, h1, h2⟩
    · rw [h1, h2, plus_nil, stream_self hst]
      exact .wrte payload
    · rw [h1, h2, plus_clseOut]
      exact .failed hfail
  | clse r =>
    obtain ⟨e, he, rfl⟩ := through_some hs hst
    rcases onClse_cases he with ⟨⟨fwd, hfwd⟩, h1, h2⟩ | ⟨hfwd, h1, h2⟩
    · rw [h1, h2, plus_nil]
      exact .half r hfwd
    · rw [h1, h2, plus_clseOut]
      exact .closed r hfwd
  | read op' res =>
    obtain ⟨e, he, rfl⟩ := through_some (w := w.ended op') hs hst
    rcases onRead_cases he with ⟨hres, rfl⟩ | ⟨hres, hop, rfl⟩ | ⟨hres, hop, data, o, hd, ho, rfl⟩
    · rw [closing, plus_clseOut]
      exact .ended op' hres
    · rw [plus_nil, stream_self (w := w.ended op') hst]
      exact .stray (fun e => hop (by rw [e]; exact hr)) hres
    · cases hop.symm.trans hr
      rw [plus_wrteOut ho]
      exact .relayed hres hd

theorem step_opened {r : UInt32} {svc : Service} (hs : w.step env v os i (.opened r svc) = .ok w') :
    w' = w.begun r svc := by
  obtain ⟨outs, ho, rfl⟩ := map_eq_ok.mp hs
  unfold begun
  cases hr : svc.reader with
  | none =>
    have hno : firstRead i ⟨r, svc, false, false⟩ = .ok [] := firstRead_none hr
    cases hno.symm.trans ho
    exact plus_nil ..
  | some op =>
    have hone : firstRead i ⟨r, svc, false, false⟩ = _ := firstRead_reader hr
    obtain ⟨o, ho', rfl⟩ := map_eq_ok.mp (hone.symm.trans ho)
    exact plus_readOut (Service.reader_cases hr) ho'

theorem step_absent (ha : ∀ r svc, a ≠ .opened r svc) (hst : w.stream = none)
    (hs : w.step env v os i a = .ok w') : w' = w.noted a := by
  cases a with
  | opened r svc => exact absurd rfl (ha r svc)
  | none => exact (Except.ok.inj hs).symm
  | fill op bytes =>
    cases hs
    cases w
    cases hst
    rfl
  | okay => exact through_none hs hst
  | wrte payload => exact through_none hs hst
  | clse r => exact through_none hs hst
  | read op res => exact through_none (w := w.ended op) hs hst

theorem moves_of_step (hs : w.step env v os i a = .ok w') : w.Moves env a w' := by
  by_cases ha : ∃ r svc, a = .opened r svc
  · obtain ⟨r, svc, rfl⟩ := ha
    rw [step_opened hs]
    exact .opened r svc
  · have ha : ∀ r svc, a ≠ .opened r svc := fun r svc he => ha ⟨r, svc, he⟩
    cases hst : w.stream with
    | some st =>
      cases hr : st.service.reader with
      | none => exact .rests ha hst hr (rests_of_step ha hst hr hs)
      | some op => exact .relays hst hr (relays_of_step ha hst hr hs)
    | none =>
      rw [step_absent ha hst hs]
      exact .absent ha hst

/-! ## What stays -/

theorem step_open (ha : ∀ r svc, a ≠ .opened r svc) (hs : w.step env v os i a = .ok w')
    (hst' : w'.stream = some st') : ∃ st, w.stream = some st := by
  cases moves_of_step hs with
  | opened r svc => exact absurd rfl (ha r svc)
  | absent _ hst =>
    rw [noted_stream, hst] at hst'
    cases hst'
  | rests _ hst => exact ⟨_, hst⟩
  | relays hst => exact ⟨_, hst⟩

/-- A stream that is read keeps its service, up to what the kernel fills in. -/
theorem Relays.service {op : UserDataOpType} (h : Relays env w st op a w')
    (hst : w.stream = some st) (hst' : w'.stream = some st') :
    st'.service = st.service ∨
      ∃ op' bytes, a = .fill op' bytes ∧ st'.service = st.service.filled op' bytes := by
  cases h with
  | none =>
    cases hst.symm.trans hst'
    exact .inl rfl
  | fill op' bytes =>
    cases hst'
    exact .inr ⟨op', bytes, rfl, rfl⟩
  | okay =>
    cases hst'
    exact .inl rfl
  | wrte payload =>
    cases hst.symm.trans hst'
    exact .inl rfl
  | failed _ => cases hst'
  | half r _ =>
    cases hst'
    exact .inl rfl
  | closed r _ => cases hst'
  | ended op' _ => cases hst'
  | stray _ _ =>
    cases hst.symm.trans hst'
    exact .inl rfl
  | relayed _ _ =>
    cases hst'
    exact .inl rfl

theorem Relays.reader {op : UserDataOpType} (h : Relays env w st op a w')
    (hst : w.stream = some st) (hst' : w'.stream = some st') :
    st'.service.reader = st.service.reader := by
  rcases h.service hst hst' with hsv | ⟨op', bytes, -, hsv⟩
  · rw [hsv]
  · rw [hsv, Service.reader_filled]

theorem step_reader (ha : ∀ r svc, a ≠ .opened r svc) (hs : w.step env v os i a = .ok w')
    (hst : w.stream = some st) (hst' : w'.stream = some st') :
    st'.service.reader = st.service.reader := by
  cases hr : st.service.reader with
  | none => exact (rests_of_step ha hst hr hs).reader st' hst'
  | some op => exact ((relays_of_step ha hst hr hs).reader hst hst').trans hr

theorem step_service {op : UserDataOpType} (ha : ∀ r svc, a ≠ .opened r svc)
    (hf : ∀ op bytes, a ≠ .fill op bytes) (hs : w.step env v os i a = .ok w')
    (hst : w.stream = some st) (hr : st.service.reader = some op) (hst' : w'.stream = some st') :
    st'.service = st.service := by
  rcases (relays_of_step ha hst hr hs).service hst hst' with hsv | ⟨op', bytes, he, -⟩
  · exact hsv
  · exact absurd he (hf op' bytes)

end View

end Adibi
