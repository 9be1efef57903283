import Adibi.Device
import Adibi.Lib.Refinement
import Adibi.Pairing
import Adibi.Slots

/-!
# The life of the daemon

`main` without a subcommand: the three descriptors of socket activation, the wait
for an Enable event on ep0 (`wait_for_enable`), then the event loop until it
returns (`run_daemon`). `Daemon.step` is one event of the whole process. Its runs
are known in full (`Account`): it serves from the first Enable on, and what ends it
is the USB function or the ring, never a service. Once the interface is disabled,
the completions posted before the one that says so are all it still handles.
-/

namespace Adibi

open Lib

/-! ## Events of `FunctionFS` -/

namespace UsbFunctionFsEventType

def tryFrom (value : UInt8) : Except IoError UsbFunctionFsEventType :=
  if value = 0 then .ok .bind
  else if value = 1 then .ok .unbind
  else if value = 2 then .ok .enable
  else if value = 3 then .ok .disable
  else if value = 4 then .ok .setup
  else if value = 5 then .ok .suspend
  else if value = 6 then .ok .resume
  else .error (ascii "Unknown FunctionFs Event Type: " ++ ascii (toString value.toNat))

end UsbFunctionFsEventType

def ffsEventSize : Nat := 12

def ffsEventTypeOffset : Nat := 8

/-- What a read of ep0 returns: an error, or what the kernel put into a buffer of
the size of one event. -/
abbrev Ep0Read := Except IoError { data : Bytes // data.length ≤ ffsEventSize }

def readNextFfsEventType (ep0 : Ep0Read) : Except IoError UsbFunctionFsEventType :=
  match ep0 with
  | .error e => .error e
  | .ok data =>
    let buf := fillRead (List.replicate ffsEventSize 0) data.1
    if data.1.length < ffsEventSize then .error (ascii "short ep0 event read")
    else UsbFunctionFsEventType.tryFrom (buf.getD ffsEventTypeOffset 0)

/-! ## Starting -/

/-- The digits of `str::parse::<i32>`, after the sign. -/
def parseI32Digits (negative : Bool) (acc : Int) : Bytes → Except IoError Int
  | [] => .ok acc
  | d :: ds =>
    if Parser.isDigit d = false then .error (ascii "invalid digit found in string")
    else
      let digit : Int := d.toNat - 48
      let acc := if negative then 10 * acc - digit else 10 * acc + digit
      if 2 ^ 31 ≤ acc then .error (ascii "number too large to fit in target type")
      else if acc < -2 ^ 31 then .error (ascii "number too small to fit in target type")
      else parseI32Digits negative acc ds

/-- `str::parse::<i32>`. -/
def parseI32 (s : Bytes) : Except IoError Int :=
  match s with
  | [] => .error (ascii "cannot parse integer from empty string")
  | [0x2b] | [0x2d] => .error (ascii "invalid digit found in string")
  | 0x2b :: ds => parseI32Digits false 0 ds
  | 0x2d :: ds => parseI32Digits true 0 ds
  | ds => parseI32Digits false 0 ds

def sdListenFdsStart : Nat := 3

/-- The descriptors of ep0, bulk-out and bulk-in. `listenFds` is what `env::var`
returns for `LISTEN_FDS`. -/
def receiveUsbFds (listenFds : Except IoError Bytes) : Except IoError (Nat × Nat × Nat) := do
  let n ← listenFds >>= parseI32
  if n ≠ 3 then
    .error (ascii "expected 3 fds (ep0 + 2 data endpoints), got " ++ ascii (toString n))
  else .ok (sdListenFdsStart, sdListenFdsStart + 1, sdListenFdsStart + 2)

/-! ## The process -/

/-- What `main` returns. -/
abbrev Exit := Except IoError Unit

/-- Where the process stands. -/
inductive Daemon where
  /-- In `wait_for_enable`. -/
  | waiting (info : DeviceInfo) (os : Os)
  /-- In `AdbConnection::run`. -/
  | serving (s : Sys)
  | exited (r : Exit)

/-- An event of the loop, and the read of ep0 it makes if it handles a poll. -/
structure LoopEvent where
  event : Event
  ep0 : Ep0Read

/-- The event with what its read of ep0 returned. -/
def LoopEvent.seen (l : LoopEvent) : Event :=
  match l.event with
  | .handle env => .handle { env with ep0 := readNextFfsEventType l.ep0 }
  | e => e

inductive DaemonEvent where
  /-- A read of ep0 while waiting; on an Enable, `IoUring::new` returns `ring`. -/
  | ep0 (read : Ep0Read) (ring : Exit)
  | loop (l : LoopEvent)
  /-- `submit_and_wait` fails. -/
  | unsubmitted (e : IoError)

def UserDataOpType.debug : UserDataOpType → Bytes
  | .ep0Poll => ascii "Ep0Poll"
  | .bulkOutReadHeader => ascii "BulkOutReadHeader"
  | .bulkOutReadPayload => ascii "BulkOutReadPayload"
  | .bulkInWrite => ascii "BulkInWrite"
  | .ptyRead => ascii "PtyRead"
  | .socketRead => ascii "SocketRead"

section

-- the system's text for an error number
variable (strerror : Nat → Bytes)

/-- The error `run` returns for an operation that failed. -/
def opError (op : UserDataOpType) (res : Int) : IoError :=
  op.debug ++ ascii " error: " ++ strerror (-res).toNat ++ ascii " (os error " ++
    ascii (toString (-res).toNat) ++ ascii ")"

/-- What `run` returns at a completion that ends it. -/
def Cqe.exit (c : Cqe) : Exit :=
  match UserData.tryFrom c.userData with
  | some u => if c.res < 0 then .error (opError strerror u.opType c.res) else .ok ()
  | none => .ok ()

namespace Daemon

/-- `main`, up to the wait. -/
def main (listenFds : Except IoError Bytes) (sources : SystemSources) (os : Os) : Daemon :=
  match receiveUsbFds listenFds with
  | .ok _ => .waiting (.fromSystem sources) os
  | .error e => .exited (.error e)

def step : Daemon → DaemonEvent → Except Halt Daemon
  | .waiting info os, .ep0 read ring =>
    match readNextFfsEventType read with
    | .ok .enable =>
      match ring with
      | .ok () => .ok (.serving (.start info os))
      | .error e => .ok (.exited (.error e))
    | .ok _ => .ok (.waiting info os)
    | .error e => .ok (.exited (.error e))
  | .serving s, .loop l =>
    match s.step l.seen with
    | .ok s => .ok (.serving s)
    | .error .returned => .ok (.exited (s.batch.head?.elim (.ok ()) (Cqe.exit strerror)))
    | .error halt => .error halt
  | .serving s, .unsubmitted e => if s.batch = [] then .ok (.exited (.error e)) else .error .disabled
  | _, _ => .error .disabled

end Daemon

/-! ## What ends the loop -/

/-- A read of ep0 that stops the loop: the function is disabled or unbound, or the
read is no event. -/
def Ep0Read.Stops (ep0 : Ep0Read) : Prop :=
  ∀ t, readNextFfsEventType ep0 = .ok t → t = .disable ∨ t = .unbind

/-- Why a completion ends the daemon, and what it returns. -/
inductive Ends (c : Cqe) (ep0 : Ep0Read) : Exit → Prop where
  | poll {x : Option NonZeroU32} (ht : UserData.tryFrom c.userData = some ⟨.ep0Poll, x⟩)
      (hres : c.res < 0) : Ends c ep0 (.error (opError strerror .ep0Poll c.res))
  | gone {x : Option NonZeroU32} (ht : UserData.tryFrom c.userData = some ⟨.ep0Poll, x⟩)
      (hres : 0 ≤ c.res) (hep0 : ep0.Stops) : Ends c ep0 (.ok ())
  | bulkOut {op : UserDataOpType} {x : Option NonZeroU32}
      (hop : op = .bulkOutReadHeader ∨ op = .bulkOutReadPayload)
      (ht : UserData.tryFrom c.userData = some ⟨op, x⟩) (hres : c.res < 0) :
      Ends c ep0 (.error (opError strerror op c.res))

theorem ep0Stops_iff {env : Env} {ep0 : Ep0Read} (h : env.ep0 = readNextFfsEventType ep0) :
    Sys.ep0Stops env = true ↔ ep0.Stops := by
  unfold Sys.ep0Stops Ep0Read.Stops
  rw [h]
  cases readNextFfsEventType ep0 with
  | error e => simp
  | ok t => cases t <;> simp

def Halt.Panics : Halt → Prop
  | .panic _ => True
  | _ => False

theorem lift_raises (s : Sys) (x : Except Panic Dev) : Raises (s.lift x) Halt.Panics := by
  cases x with
  | error p => exact .error trivial
  | ok d => exact .ok _

theorem onHeader_raises (env : Env) (s : Sys) (data : Bytes) :
    Raises (s.onHeader env data) Halt.Panics := by
  unfold Sys.onHeader
  simp only
  repeat' split
  all_goals exact lift_raises _ _

theorem onPayload_raises (env : Env) (s : Sys) (data : Bytes) :
    Raises (s.onPayload env data) Halt.Panics := by
  unfold Sys.onPayload
  simp only
  split
  all_goals exact lift_raises _ _

theorem transfer_raises (s : Sys) (res : Int) {f : Bytes → Except Halt Sys}
    (hf : ∀ data, Raises (f data) Halt.Panics) :
    Raises (s.transfer res >>= f) fun halt => halt.Panics ∨ halt = .returned ∧ res < 0 := by
  refine .bind ?_ fun data _ => (hf data).mono fun _ h => .inl h
  unfold Sys.transfer
  split
  · rename_i hres
    exact .error (.inr ⟨rfl, hres⟩)
  · cases s.bulkOutBuf.slice res.toNat with
    | error p => exact .error (.inl trivial)
    | ok data => exact .ok _

theorem Ends.exit {c : Cqe} {ep0 : Ep0Read} {r : Exit} (h : Ends strerror c ep0 r) :
    r = c.exit strerror := by
  unfold Cqe.exit
  cases h with
  | poll ht hres => simp [ht, hres]
  | gone ht hres hep0 => simp [ht, hres]
  | bulkOut hop ht hres => simp [ht, hres]

/-- **How a completion ends the run**: by a panic, or for one of these reasons, a
write without a slot apart. -/
theorem handleCqe_raises {env : Env} {ep0 : Ep0Read} (s : Sys) (c : Cqe)
    (henv : env.ep0 = readNextFfsEventType ep0) :
    Raises (s.handleCqe env c) fun halt => halt.Panics ∨ halt = .returned ∧
      (UserData.tryFrom c.userData = some ⟨.bulkInWrite, none⟩ ∨ ∃ r, Ends strerror c ep0 r) := by
  unfold Sys.handleCqe
  cases ht : UserData.tryFrom c.userData with
  | none => exact .ok _
  | some u =>
    obtain ⟨op, x⟩ := u
    have hlift : ∀ d : Except Panic Dev, Raises (s.lift d) fun halt => halt.Panics ∨
        halt = .returned ∧ (some (UserData.mk op x) = some ⟨.bulkInWrite, none⟩ ∨
          ∃ r, Ends strerror c ep0 r) := fun d => (lift_raises s d).mono fun _ h => .inl h
    cases op with
    | ptyRead | socketRead =>
      cases x with
      | none => exact .error (.inl trivial)
      | some i =>
        simp only
        split
        · exact hlift _
        · exact hlift _
    | bulkInWrite =>
      cases x with
      | none =>
        simp only
        split
        · exact .error (.inr ⟨rfl, .inl trivial⟩)
        · exact .error (.inl trivial)
      | some slot => exact hlift _
    | ep0Poll =>
      simp only
      split
      · rename_i hres
        exact .error (.inr ⟨rfl, .inr ⟨_, .poll ht hres⟩⟩)
      · rename_i hres
        split
        · rename_i hstop
          exact .error (.inr ⟨rfl, .inr ⟨_, .gone ht (by omega) ((ep0Stops_iff henv).mp hstop)⟩⟩)
        · exact hlift _
    | bulkOutReadHeader =>
      exact (transfer_raises s c.res (onHeader_raises env s)).mono fun _ h =>
        h.imp_right fun ⟨h, hres⟩ => ⟨h, .inr ⟨_, .bulkOut (.inl rfl) ht hres⟩⟩
    | bulkOutReadPayload =>
      exact (transfer_raises s c.res (onPayload_raises env s)).mono fun _ h =>
        h.imp_right fun ⟨h, hres⟩ => ⟨h, .inr ⟨_, .bulkOut (.inr rfl) ht hres⟩⟩

theorem returned_of_ends {env : Env} {ep0 : Ep0Read} {s : Sys} {c : Cqe} {r : Exit}
    (henv : env.ep0 = readNextFfsEventType ep0) (h : Ends strerror c ep0 r) :
    s.handleCqe env c = .error .returned := by
  unfold Sys.handleCqe
  cases h with
  | poll ht hres => simp [ht, hres]
  | gone ht hres hep0 => simp [ht, (ep0Stops_iff henv).mpr hep0]
  | bulkOut hop ht hres =>
    rcases hop with rfl | rfl
    · simp [ht, Sys.transfer, hres]
    · simp [ht, Sys.transfer, hres]

/-! ## A run told -/

def DaemonEvent.Waits : DaemonEvent → Prop
  | .ep0 read _ => ∃ t, readNextFfsEventType read = .ok t ∧ t ≠ .enable
  | _ => False

def Ep0Read.Enables (read : Ep0Read) : Prop := readNextFfsEventType read = .ok .enable

/-- What the events of a run were and where they led: a wait, which a failed read
ends, or an Enable to which the ring could not be set up; else the loop from the
Enable on, which goes on, cannot submit, or meets a completion that ends it. -/
inductive Account (info : DeviceInfo) (os : Os) : List DaemonEvent → Daemon → Prop where
  | waiting {es : List DaemonEvent} (hw : ∀ e ∈ es, e.Waits) : Account info os es (.waiting info os)
  | failed {es : List DaemonEvent} {read : Ep0Read} {ring : Exit} {e : IoError}
      (hw : ∀ e ∈ es, e.Waits) (hread : readNextFfsEventType read = .error e) :
      Account info os (es ++ [.ep0 read ring]) (.exited (.error e))
  | ringless {es : List DaemonEvent} {read : Ep0Read} {e : IoError} (hw : ∀ e ∈ es, e.Waits)
      (hread : read.Enables) : Account info os (es ++ [.ep0 read (.error e)]) (.exited (.error e))
  | serving {es : List DaemonEvent} {read : Ep0Read} {ls : List LoopEvent} {s : Sys}
      (hw : ∀ e ∈ es, e.Waits) (hread : read.Enables)
      (hrun : runEvents Sys.step (.start info os) (ls.map LoopEvent.seen) = .ok s) :
      Account info os (es ++ .ep0 read (.ok ()) :: ls.map .loop) (.serving s)
  | unsubmitted {es : List DaemonEvent} {read : Ep0Read} {ls : List LoopEvent} {s : Sys}
      {e : IoError} (hw : ∀ e ∈ es, e.Waits) (hread : read.Enables)
      (hrun : runEvents Sys.step (.start info os) (ls.map LoopEvent.seen) = .ok s)
      (hb : s.batch = []) :
      Account info os (es ++ .ep0 read (.ok ()) :: ls.map .loop ++ [.unsubmitted e])
        (.exited (.error e))
  | ended {es : List DaemonEvent} {read ep0 : Ep0Read} {ls : List LoopEvent} {s : Sys} {env : Env}
      {c : Cqe} {tail : List Cqe} {r : Exit} (hw : ∀ e ∈ es, e.Waits) (hread : read.Enables)
      (hrun : runEvents Sys.step (.start info os) (ls.map LoopEvent.seen) = .ok s)
      (hb : s.batch = c :: tail) (hends : Ends strerror c ep0 r) :
      Account info os (es ++ .ep0 read (.ok ()) :: ls.map .loop ++ [.loop ⟨.handle env, ep0⟩])
        (.exited r)

theorem step_returned {s : Sys} {e : Event} (h : s.step e = .error .returned) :
    ∃ env c tail, e = .handle env ∧ s.batch = c :: tail ∧
      { s with batch := tail }.handleCqe env c = .error .returned := by
  cases e with
  | submit =>
    simp only [Sys.step] at h
    split at h <;> cases h
  | reap =>
    simp only [Sys.step] at h
    split at h <;> cases h
  | complete k outcome =>
    simp only [Sys.step] at h
    repeat' split at h
    all_goals cases h
  | handle env =>
    cases hb : s.batch with
    | nil =>
      simp only [Sys.step, hb] at h
      cases h
    | cons c tail =>
      simp only [Sys.step, hb] at h
      exact ⟨env, c, tail, rfl, rfl, h⟩

theorem LoopEvent.seen_handle {l : LoopEvent} {env : Env} (h : l.seen = .handle env) :
    (∃ env', l = ⟨.handle env', l.ep0⟩) ∧ env.ep0 = readNextFfsEventType l.ep0 := by
  obtain ⟨event, ep0⟩ := l
  unfold seen at h
  cases event with
  | handle env' =>
    cases h
    exact ⟨⟨env', rfl⟩, rfl⟩
  | submit => cases h
  | complete k outcome => cases h
  | reap => cases h

theorem slotted_of_run {info : DeviceInfo} {os : Os} {es : List Event} {s : Sys} {c : Cqe}
    {tail : List Cqe} (h : runEvents Sys.step (.start info os) es = .ok s) (hb : s.batch = c :: tail) :
    UserData.tryFrom c.userData ≠ some ⟨.bulkInWrite, none⟩ := by
  have ho : s.Owned := Sys.owned_of_reach (Reach.of_runEvents h)
  have hc : c ∈ s.batch := by
    rw [hb]
    exact .head _
  intro ht
  obtain ⟨slot, hslot, -⟩ := ho.slot_of_batch hc ht
  cases hslot

namespace Daemon

variable {strerror : Nat → Bytes} {info : DeviceInfo} {os : Os}

theorem run_loop {s s' : Sys} {ls : List LoopEvent}
    (h : runEvents Sys.step s (ls.map LoopEvent.seen) = .ok s') :
    runEvents (step strerror) (.serving s) (ls.map .loop) = .ok (.serving s') := by
  induction ls generalizing s with
  | nil =>
    cases h
    rfl
  | cons l ls ih =>
    obtain ⟨s1, h1, h2⟩ := bind_eq_ok.mp h
    have hstep : step strerror (.serving s) (.loop l) = .ok (.serving s1) := by simp only [step, h1]
    exact bind_eq_ok.mpr ⟨_, hstep, ih h2⟩

theorem loop_of_run {s s' : Sys} {ls : List LoopEvent}
    (h : runEvents (step strerror) (.serving s) (ls.map .loop) = .ok (.serving s')) :
    runEvents Sys.step s (ls.map LoopEvent.seen) = .ok s' := by
  induction ls generalizing s with
  | nil =>
    cases h
    rfl
  | cons l ls ih =>
    obtain ⟨d, h1, h2⟩ := bind_eq_ok.mp h
    cases hs : s.step l.seen with
    | ok s1 =>
      simp only [step, hs] at h1
      cases h1
      exact bind_eq_ok.mpr ⟨s1, hs, ih h2⟩
    | error halt =>
      cases halt with
      | returned =>
        simp only [step, hs] at h1
        cases h1
        cases ls <;> cases h2
      | panic p =>
        simp only [step, hs] at h1
        cases h1
      | disabled =>
        simp only [step, hs] at h1
        cases h1

theorem run_waits {es : List DaemonEvent} (h : ∀ e ∈ es, e.Waits) :
    runEvents (step strerror) (.waiting info os) es = .ok (.waiting info os) := by
  induction es with
  | nil => rfl
  | cons e es ih =>
    have hstep : step strerror (.waiting info os) e = .ok (.waiting info os) := by
      have he := h e List.mem_cons_self
      cases e with
      | ep0 read ring =>
        obtain ⟨t, ht, hne⟩ := he
        simp only [step, ht]
      | loop l => exact he.elim
      | unsubmitted e => exact he.elim
    exact bind_eq_ok.mpr ⟨_, hstep, ih fun e he => h e (List.mem_cons_of_mem _ he)⟩

theorem step_waiting {read : Ep0Read} {ring : Exit} {d : Daemon}
    (h : step strerror (.waiting info os) (.ep0 read ring) = .ok d) :
    (DaemonEvent.Waits (.ep0 read ring) ∧ d = .waiting info os) ∨
      (∃ e, readNextFfsEventType read = .error e ∧ d = .exited (.error e)) ∨
      (read.Enables ∧ ((ring = .ok () ∧ d = .serving (.start info os)) ∨
        ∃ e, ring = .error e ∧ d = .exited (.error e))) := by
  cases hr : readNextFfsEventType read with
  | error e =>
    simp only [step, hr] at h
    cases h
    exact .inr (.inl ⟨e, rfl, rfl⟩)
  | ok t =>
    by_cases ht : t = .enable
    · subst ht
      cases ring with
      | ok u =>
        simp only [step, hr] at h
        cases h
        exact .inr (.inr ⟨hr, .inl ⟨rfl, rfl⟩⟩)
      | error e =>
        simp only [step, hr] at h
        cases h
        exact .inr (.inr ⟨hr, .inr ⟨e, rfl, rfl⟩⟩)
    · simp only [step, hr] at h
      cases h
      exact .inl ⟨⟨t, hr, ht⟩, rfl⟩

theorem step_loop {s : Sys} {l : LoopEvent} {d : Daemon}
    (h : step strerror (.serving s) (.loop l) = .ok d)
    (hslot : ∀ c tail, s.batch = c :: tail → UserData.tryFrom c.userData ≠ some ⟨.bulkInWrite, none⟩) :
    (∃ s', s.step l.seen = .ok s' ∧ d = .serving s') ∨
      ∃ env c tail r, l = ⟨.handle env, l.ep0⟩ ∧ s.batch = c :: tail ∧ Ends strerror c l.ep0 r ∧
        d = .exited r := by
  cases hs : s.step l.seen with
  | ok s' =>
    simp only [step, hs] at h
    cases h
    exact .inl ⟨s', rfl, rfl⟩
  | error halt =>
    cases halt with
    | returned =>
      obtain ⟨env, c, tail, he, hb, hc⟩ := step_returned hs
      obtain ⟨⟨env', hl⟩, henv⟩ := LoopEvent.seen_handle he
      obtain ⟨r, hr⟩ : ∃ r, Ends strerror c l.ep0 r := by
        rcases (handleCqe_raises strerror _ c henv).of_error _ hc with hp | ⟨-, hw | hr⟩
        · exact hp.elim
        · exact absurd hw (hslot c tail hb)
        · exact hr
      simp only [step, hs, hb] at h
      cases h
      refine .inr ⟨env', c, tail, r, hl, hb, hr, ?_⟩
      rw [hr.exit]
      rfl
    | panic p =>
      simp only [step, hs] at h
      cases h
    | disabled =>
      simp only [step, hs] at h
      cases h

end Daemon

namespace Account

variable {strerror : Nat → Bytes} {info : DeviceInfo} {os : Os} {es : List DaemonEvent} {d d' : Daemon}

theorem step {e : DaemonEvent} (h : Account strerror info os es d)
    (hs : d.step strerror e = .ok d') : Account strerror info os (es ++ [e]) d' := by
  cases h with
  | waiting hw =>
    cases e with
    | ep0 read ring =>
      rcases Daemon.step_waiting hs with ⟨he, rfl⟩ | ⟨err, hr, rfl⟩ | ⟨hr, ⟨rfl, rfl⟩ | ⟨err, rfl, rfl⟩⟩
      · refine .waiting fun e hin => ?_
        rcases List.mem_append.mp hin with hin | hin
        · exact hw e hin
        · rw [List.mem_singleton.mp hin]
          exact he
      · exact .failed hw hr
      · have hrun : runEvents Sys.step (.start info os) ([].map LoopEvent.seen) =
            .ok (.start info os) := rfl
        exact .serving hw hr hrun
      · exact .ringless hw hr
    | loop l => cases hs
    | unsubmitted e => cases hs
  | @serving es read ls s hw hread hrun =>
    cases e with
    | ep0 read ring => cases hs
    | loop l =>
      rcases Daemon.step_loop hs fun c tail hb => slotted_of_run hrun hb with
        ⟨s', hl, rfl⟩ | ⟨env, c, tail, r, hl, hb, hends, rfl⟩
      · have hrun' : runEvents Sys.step (.start info os) ((ls ++ [l]).map LoopEvent.seen) = .ok s' := by
          rw [List.map_append, runEvents_append, hrun, ok_bind]
          exact bind_eq_ok.mpr ⟨s', hl, rfl⟩
        simpa using serving hw hread hrun'
      · rw [hl]
        exact .ended hw hread hrun hb hends
    | unsubmitted e =>
      simp only [Daemon.step] at hs
      split at hs
      · rename_i hb
        cases hs
        exact .unsubmitted hw hread hrun hb
      · cases hs
  | failed | ringless | unsubmitted | ended => cases e <;> cases hs

theorem of_run (h : runEvents (Daemon.step strerror) (.waiting info os) es = .ok d) :
    Account strerror info os es d := by
  induction es using List.reverseRecOn generalizing d with
  | nil =>
    cases h
    exact .waiting fun e he => nomatch he
  | append_singleton es e ih =>
    rw [runEvents_append] at h
    obtain ⟨d1, h1, h2⟩ := bind_eq_ok.mp h
    obtain ⟨d2, h3, h4⟩ := bind_eq_ok.mp h2
    cases h4
    exact (ih h1).step h3

theorem run_enabled {read : Ep0Read} {ls : List LoopEvent} {s : Sys} (hw : ∀ e ∈ es, e.Waits)
    (hread : read.Enables)
    (hrun : runEvents Sys.step (.start info os) (ls.map LoopEvent.seen) = .ok s) :
    runEvents (Daemon.step strerror) (.waiting info os) (es ++ .ep0 read (.ok ()) :: ls.map .loop) =
      .ok (.serving s) := by
  have hstart : Daemon.step strerror (.waiting info os) (.ep0 read (.ok ())) =
      .ok (.serving (.start info os)) := by
    simp only [Daemon.step, show readNextFfsEventType read = .ok .enable from hread]
  rw [runEvents_append, Daemon.run_waits hw, ok_bind]
  exact bind_eq_ok.mpr ⟨_, hstart, Daemon.run_loop hrun⟩

theorem run (h : Account strerror info os es d) :
    runEvents (Daemon.step strerror) (.waiting info os) es = .ok d := by
  have hlast : ∀ {es : List DaemonEvent} {e : DaemonEvent} {d1 d2 : Daemon},
      runEvents (Daemon.step strerror) (.waiting info os) es = .ok d1 →
      d1.step strerror e = .ok d2 →
      runEvents (Daemon.step strerror) (.waiting info os) (es ++ [e]) = .ok d2 := by
    intro es e d1 d2 h1 h2
    rw [runEvents_append, h1, ok_bind]
    exact bind_eq_ok.mpr ⟨d2, h2, rfl⟩
  cases h with
  | waiting hw => exact Daemon.run_waits hw
  | failed hw hread => exact hlast (Daemon.run_waits hw) (by simp only [Daemon.step, hread])
  | @ringless es read e hw hread =>
    have hr : readNextFfsEventType read = .ok .enable := hread
    exact hlast (Daemon.run_waits hw) (by simp only [Daemon.step, hr])
  | serving hw hread hrun => exact run_enabled hw hread hrun
  | unsubmitted hw hread hrun hb =>
    exact hlast (run_enabled hw hread hrun) (by simp only [Daemon.step, hb, if_true])
  | @ended es read ep0 ls s env c tail r hw hread hrun hb hends =>
    refine hlast (run_enabled hw hread hrun) ?_
    have hstep : s.step (LoopEvent.seen ⟨.handle env, ep0⟩) = .error .returned := by
      simp only [LoopEvent.seen, Sys.step, hb]
      exact returned_of_ends strerror rfl hends
    simp only [Daemon.step, hstep, hb, hends.exit]
    rfl

end Account

/-- **The runs of the daemon.** Without the three descriptors it exits at once.
Else a run is accounted for: it waits while the reads of ep0 bring other events than
Enable; from the Enable on it is a run of the event loop; and it exits exactly for a
failed read while waiting, a ring that is not set up or does not take submissions, a
failed poll, an event that disables or unbinds the function, an event that cannot be
read, or a failed bulk-out read, and returns the error or `Ok`. -/
theorem daemon_account {strerror : Nat → Bytes} {listenFds : Except IoError Bytes}
    {sources : SystemSources} {os : Os} {es : List DaemonEvent} {d : Daemon} :
    runEvents (Daemon.step strerror) (.main listenFds sources os) es = .ok d ↔
      (∃ e, receiveUsbFds listenFds = .error e ∧ es = [] ∧ d = .exited (.error e)) ∨
        ∃ fds, receiveUsbFds listenFds = .ok fds ∧
          Account strerror (.fromSystem sources) os es d := by
  constructor
  · intro h
    cases hf : receiveUsbFds listenFds with
    | ok fds =>
      rw [Daemon.main, hf] at h
      exact .inr ⟨fds, rfl, .of_run h⟩
    | error err =>
      rw [Daemon.main, hf] at h
      cases es with
      | nil =>
        cases h
        exact .inl ⟨err, rfl, rfl, rfl⟩
      | cons e es =>
        obtain ⟨d1, h1, -⟩ := bind_eq_ok.mp h
        cases e <;> cases h1
  · rintro (⟨err, hf, rfl, rfl⟩ | ⟨fds, hf, ha⟩)
    · rw [Daemon.main, hf]
      rfl
    · rw [Daemon.main, hf]
      exact ha.run

/-! ## Stopping -/

/-- The completions posted and not yet handled, in the order they will be. -/
def Sys.upcoming (s : Sys) : List Cqe := s.batch ++ s.cq

/-- Whether the event handles a completion. -/
def LoopEvent.handles (l : LoopEvent) : Bool :=
  match l.event with
  | .handle _ => true
  | _ => false

theorem LoopEvent.handles_of_seen {l : LoopEvent} {e : Event} (h : l.seen = e) :
    l.handles = true ↔ ∃ env, e = .handle env := by
  obtain ⟨event, ep0⟩ := l
  subst h
  cases event <;> simp [LoopEvent.handles, seen]

namespace Sys

variable {s s' : Sys}

theorem Handles.upcoming {env : Env} {c : Cqe} (h : Handles env s c s') : s'.upcoming = s.upcoming := by
  cases h <;> rfl

theorem fill_upcoming (s : Sys) (u : UserData) (outcome : Outcome) : (s.fill u outcome).upcoming = s.upcoming := by
  unfold fill
  repeat' split
  all_goals rfl

/-- Completions are handled in the order they are posted: a step takes the first one
or, if it handles none, adds behind the last. -/
theorem upcoming_step {e : Event} (h : s.step e = .ok s') :
    (∃ env c tail, e = .handle env ∧ s.batch = c :: tail ∧ s.upcoming = c :: s'.upcoming) ∨
      (∀ env, e ≠ .handle env) ∧ ∃ more, s'.upcoming = s.upcoming ++ more := by
  cases e with
  | submit =>
    obtain ⟨-, rfl⟩ := submit_ok h
    exact .inr ⟨fun _ => by rintro ⟨⟩, [], (List.append_nil _).symm⟩
  | reap =>
    obtain ⟨hb, -, -, rfl⟩ := reap_ok h
    exact .inr ⟨fun _ => by rintro ⟨⟩, [], by simp [upcoming, hb]⟩
  | complete k outcome =>
    simp only [step] at h
    split at h
    · cases h
    · rename_i e he
      split at h
      · cases h
      · rename_i u hu
        split at h
        · cases h
          have hfill := fill_upcoming s u outcome
          refine .inr ⟨fun _ => by rintro ⟨⟩, [⟨e.userData, outcome.res⟩], ?_⟩
          rw [← hfill]
          exact (List.append_assoc _ _ _).symm
        · cases h
  | handle env =>
    obtain ⟨c, tail, hb, hh⟩ := handle_ok h
    refine .inl ⟨env, c, tail, rfl, hb, ?_⟩
    rw [hh.upcoming]
    simp [upcoming, hb]

end Sys

theorem tryFrom_of_isPoll {tag : UInt64} (h : isPoll tag = true) :
    ∃ x, UserData.tryFrom tag = some ⟨.ep0Poll, x⟩ := by
  unfold isPoll at h
  split at h
  · rename_i x ht
    exact ⟨x, ht⟩
  · cases h

theorem step_poll {s : Sys} {l : LoopEvent} {env : Env} {c : Cqe} {tail : List Cqe}
    (he : l.seen = .handle env) (hb : s.batch = c :: tail) (hp : isPoll c.userData = true)
    (hstop : l.ep0.Stops) : s.step l.seen = .error .returned := by
  have hep0 : Sys.ep0Stops env = true := (ep0Stops_iff (LoopEvent.seen_handle he).2).mpr hstop
  obtain ⟨x, ht⟩ := tryFrom_of_isPoll hp
  rw [he]
  simp [Sys.step, hb, Sys.handleCqe, ht, hep0]

/-- No run goes on beyond the completion of a poll that stops it. -/
theorem handled_le_of_run {s s' : Sys} {ls : List LoopEvent} {k : Nat} {c : Cqe}
    (hk : s.upcoming[k]? = some c) (hp : isPoll c.userData = true) (hstop : ∀ l ∈ ls, l.ep0.Stops)
    (h : runEvents Sys.step s (ls.map LoopEvent.seen) = .ok s') : ls.countP LoopEvent.handles ≤ k := by
  induction ls generalizing s k with
  | nil => exact Nat.zero_le k
  | cons l ls ih =>
    obtain ⟨s1, h1, h2⟩ := bind_eq_ok.mp h
    have hrest : ∀ l ∈ ls, l.ep0.Stops := fun l hl => hstop l (List.mem_cons_of_mem _ hl)
    rcases Sys.upcoming_step h1 with ⟨env, c', tail, he, hb, hpost⟩ | ⟨hne, more, hpost⟩
    · rw [hpost] at hk
      cases k with
      | zero =>
        cases hk
        rw [step_poll he hb hp (hstop l List.mem_cons_self)] at h1
        cases h1
      | succ k =>
        have hle := ih hk hrest h2
        rw [List.countP_cons]
        split <;> omega
    · have hk' : s1.upcoming[k]? = some c := by
        rw [hpost, List.getElem?_append_left (List.getElem?_eq_some_iff.mp hk).1]
        exact hk
      have hno : l.handles = false := by
        rw [← Bool.not_eq_true, LoopEvent.handles_of_seen rfl]
        exact fun ⟨env, he⟩ => hne env he
      rw [List.countP_cons, hno]
      exact ih hk' hrest h2

/-- What the system decides when the event handles a completion. -/
def LoopEvent.Under (env : Env) (ep0 : Ep0Read) (l : LoopEvent) : Prop :=
  l.ep0 = ep0 ∧ ∀ env', l.event = .handle env' → env' = env

/-- The loop goes on from `s` to `s'` within `n` events. -/
def Goes (env : Env) (ep0 : Ep0Read) (n : Nat) (s s' : Sys) : Prop :=
  ∃ ls : List LoopEvent, (∀ l ∈ ls, l.Under env ep0) ∧ ls.length ≤ n ∧
    runEvents Sys.step s (ls.map LoopEvent.seen) = .ok s'

/-- Within `n` events from `s` the loop is over: the daemon has exited, or panicked. -/
def EndsWithin (env : Env) (ep0 : Ep0Read) (n : Nat) (s : Sys) : Prop :=
  ∃ ls : List LoopEvent, (∀ l ∈ ls, l.Under env ep0) ∧ ls.length ≤ n ∧
    ((∃ r, runEvents (Daemon.step strerror) (.serving s) (ls.map .loop) = .ok (.exited r)) ∨
      ∃ p, runEvents (Daemon.step strerror) (.serving s) (ls.map .loop) = .error (.panic p))

section

variable {env : Env} {ep0 : Ep0Read} {m n : Nat} {s s' s'' : Sys}

theorem Goes.refl (s : Sys) : Goes env ep0 0 s s := ⟨[], by simp, Nat.le_refl 0, rfl⟩

theorem Goes.single (e : Event) (hu : LoopEvent.Under env ep0 ⟨e, ep0⟩)
    (h : s.step (LoopEvent.seen ⟨e, ep0⟩) = .ok s') : Goes env ep0 1 s s' :=
  ⟨[⟨e, ep0⟩], by simpa using hu, Nat.le_refl 1, bind_eq_ok.mpr ⟨s', h, rfl⟩⟩

theorem Goes.trans (h : Goes env ep0 m s s') (h' : Goes env ep0 n s' s'') :
    Goes env ep0 (m + n) s s'' := by
  obtain ⟨ls, hu, hlen, hrun⟩ := h
  obtain ⟨ls', hu', hlen', hrun'⟩ := h'
  refine ⟨ls ++ ls', fun l hl => (List.mem_append.mp hl).elim (hu l) (hu' l), ?_, ?_⟩
  · rw [List.length_append]
    omega
  · rw [List.map_append, runEvents_append, hrun]
    exact hrun'

theorem Goes.mono (h : Goes env ep0 m s s') (hle : m ≤ n) : Goes env ep0 n s s' := by
  obtain ⟨ls, hu, hlen, hrun⟩ := h
  exact ⟨ls, hu, hlen.trans hle, hrun⟩

theorem EndsWithin.mono (h : EndsWithin strerror env ep0 m s) (hle : m ≤ n) :
    EndsWithin strerror env ep0 n s := by
  obtain ⟨ls, hu, hlen, hends⟩ := h
  exact ⟨ls, hu, hlen.trans hle, hends⟩

theorem Goes.ends (h : Goes env ep0 m s s') (h' : EndsWithin strerror env ep0 n s') :
    EndsWithin strerror env ep0 (m + n) s := by
  obtain ⟨ls, hu, hlen, hrun⟩ := h
  obtain ⟨ls', hu', hlen', hends⟩ := h'
  refine ⟨ls ++ ls', fun l hl => (List.mem_append.mp hl).elim (hu l) (hu' l), ?_, ?_⟩
  · rw [List.length_append]
    omega
  · rw [List.map_append, runEvents_append, Daemon.run_loop hrun]
    exact hends

theorem handle_or_ends (env : Env) (ep0 : Ep0Read) {c : Cqe} {tail : List Cqe}
    (hb : s.batch = c :: tail) :
    (∃ s', s.step (LoopEvent.seen ⟨.handle env, ep0⟩) = .ok s') ∨
      EndsWithin strerror env ep0 1 s := by
  have hu : ∀ l ∈ [LoopEvent.mk (.handle env) ep0], l.Under env ep0 := by
    intro l hl
    rw [List.mem_singleton.mp hl]
    exact ⟨rfl, fun env' he => (Event.handle.inj he).symm⟩
  cases hs : s.step (LoopEvent.seen ⟨.handle env, ep0⟩) with
  | ok s' => exact .inl ⟨s', rfl⟩
  | error halt =>
    cases halt with
    | returned =>
      have hstep : Daemon.step strerror (.serving s) (.loop ⟨.handle env, ep0⟩) =
          .ok (.exited (c.exit strerror)) := by
        simp only [Daemon.step, hs, hb]
        rfl
      exact .inr ⟨_, hu, Nat.le_refl 1, .inl ⟨_, bind_eq_ok.mpr ⟨_, hstep, rfl⟩⟩⟩
    | panic p =>
      have hstep : Daemon.step strerror (.serving s) (.loop ⟨.handle env, ep0⟩) =
          .error (.panic p) := by
        simp only [Daemon.step, hs]
      exact .inr ⟨_, hu, Nat.le_refl 1, .inr ⟨p, bind_eq_error.mpr (.inl hstep)⟩⟩
    | disabled =>
      simp only [LoopEvent.seen, Sys.step, hb] at hs
      have henv : { env with ep0 := readNextFfsEventType ep0 }.ep0 = readNextFfsEventType ep0 := rfl
      rcases (handleCqe_raises strerror _ c henv).of_error _ hs with hp | ⟨he, -⟩
      · exact hp.elim
      · cases he

theorem Goes.handle (h : s.step (LoopEvent.seen ⟨.handle env, ep0⟩) = .ok s') :
    Goes env ep0 1 s s' :=
  .single (.handle env) ⟨rfl, fun _ he => (Event.handle.inj he).symm⟩ h

theorem Goes.submit (env : Env) (ep0 : Ep0Read) (hb : s.batch = []) :
    Goes env ep0 1 s { s with inflight := s.inflight ++ s.dev.sq, dev := { s.dev with sq := [] } } :=
  .single .submit ⟨rfl, nofun⟩ (if_pos hb)

theorem batch_of_upcoming (env : Env) (ep0 : Ep0Read) (h : s.upcoming ≠ []) :
    ∃ s', Goes env ep0 2 s s' ∧ s'.batch ≠ [] ∧ s'.upcoming = s.upcoming := by
  by_cases hb : s.batch = []
  · have hcq : s.cq ≠ [] := by
      unfold Sys.upcoming at h
      rwa [hb, List.nil_append] at h
    let s1 : Sys := { s with inflight := s.inflight ++ s.dev.sq, dev := { s.dev with sq := [] } }
    have hreap : Goes env ep0 1 s1 { s1 with batch := s1.cq, cq := [] } :=
      .single .reap ⟨rfl, nofun⟩ (if_pos ⟨hb, rfl, hcq⟩)
    refine ⟨_, (Goes.submit env ep0 hb).trans hreap, hcq, ?_⟩
    simp [Sys.upcoming, s1, hb]
  · exact ⟨s, (Goes.refl s).mono (Nat.zero_le 2), hb, rfl⟩

/-- Within three events the first completion posted is handled. It ends the loop if it
is the poll's. -/
theorem advance (env : Env) {c : Cqe} {more : List Cqe} (h : s.upcoming = c :: more)
    (hstop : ep0.Stops) : EndsWithin strerror env ep0 3 s ∨
      isPoll c.userData = false ∧ ∃ s', Goes env ep0 3 s s' ∧ s'.upcoming = more := by
  obtain ⟨s1, hgoes, hne, hpost⟩ := batch_of_upcoming env ep0 (h ▸ List.cons_ne_nil c more)
  obtain ⟨c', tail, hb⟩ := List.exists_cons_of_ne_nil hne
  rcases handle_or_ends strerror env ep0 hb with ⟨s2, h2⟩ | hends
  · rcases Sys.upcoming_step h2 with ⟨env', c2, tail2, -, hb2, hpost2⟩ | ⟨hne, -⟩
    · rw [hpost, h] at hpost2
      cases hpost2
      refine .inr ⟨?_, s2, hgoes.trans (.handle h2), rfl⟩
      by_contra hpoll
      rw [Bool.not_eq_false] at hpoll
      rw [step_poll rfl hb2 hpoll hstop] at h2
      cases h2
    · exact absurd rfl (hne _)
  · exact .inl (hgoes.ends strerror hends)

/-- A poll's completion that is posted ends the loop within three events for each
completion up to it. -/
theorem upcoming_ends (env : Env) {k : Nat} {c : Cqe} (hk : s.upcoming[k]? = some c)
    (hp : isPoll c.userData = true) (hstop : ep0.Stops) :
    EndsWithin strerror env ep0 (3 * (k + 1)) s := by
  induction k generalizing s with
  | zero =>
    cases hpost : s.upcoming with
    | nil =>
      rw [hpost] at hk
      cases hk
    | cons c' more =>
      rw [hpost] at hk
      cases hk
      rcases advance strerror env hpost hstop with hends | ⟨hno, -⟩
      · exact hends
      · rw [hp] at hno
        cases hno
  | succ k ih =>
    cases hpost : s.upcoming with
    | nil =>
      rw [hpost] at hk
      cases hk
    | cons c' more =>
      rcases advance strerror env hpost hstop with hends | ⟨-, s', hgoes, hmore⟩
      · exact hends.mono strerror (by omega)
      · rw [hpost, List.getElem?_cons_succ, ← hmore] at hk
        exact (hgoes.ends strerror (ih hk)).mono strerror (by omega)

theorem drain (env : Env) (ep0 : Ep0Read) {k : Nat} (hk : s.batch.length = k) :
    EndsWithin strerror env ep0 k s ∨
      ∃ s', Goes env ep0 k s s' ∧ s'.batch = [] ∧ s'.cq = s.cq := by
  induction k generalizing s with
  | zero => exact .inr ⟨s, .refl s, List.length_eq_zero_iff.mp hk, rfl⟩
  | succ k ih =>
    obtain ⟨c, tail, hb⟩ := List.exists_cons_of_ne_nil (List.ne_nil_of_length_eq_add_one hk)
    rcases handle_or_ends strerror env ep0 hb with ⟨s1, h1⟩ | hends
    · have hstep := h1
      simp only [LoopEvent.seen, Sys.step, hb] at hstep
      have hframe : s1.batch = tail ∧ s1.cq = s.cq := by
        cases Sys.handles_of_ok hstep <;> exact ⟨rfl, rfl⟩
      have htail : s1.batch.length = k := by
        rw [hframe.1]
        rw [hb, List.length_cons] at hk
        omega
      rw [Nat.add_comm k 1]
      rcases ih htail with hends | ⟨s', hgoes, hb', hcq⟩
      · exact .inl ((Goes.handle h1).ends strerror hends)
      · exact .inr ⟨s', (Goes.handle h1).trans hgoes, hb', hcq.trans hframe.2⟩
    · exact .inl (hends.mono strerror (by omega))

/-- With no completion left to handle, the poll's is posted, or can be. -/
theorem poll_upcoming (env : Env) (ep0 : Ep0Read) (hpolled : s.Polled) (hb : s.batch = []) :
    ∃ s' k c, Goes env ep0 2 s s' ∧ k ≤ s.cq.length ∧ s'.upcoming[k]? = some c ∧
      isPoll c.userData = true := by
  obtain ⟨tag, hmem, hpoll⟩ : ∃ tag ∈ s.outstanding, isPoll tag = true := by
    refine List.countP_pos_iff.mp ?_
    rw [show s.outstanding.countP isPoll = 1 from hpolled]
    exact Nat.one_pos
  by_cases hcq : ∃ c ∈ s.cq, c.userData = tag
  · obtain ⟨c, hc, rfl⟩ := hcq
    obtain ⟨k, hk⟩ := List.mem_iff_getElem?.mp hc
    have hlt : k < s.cq.length := (List.getElem?_eq_some_iff.mp hk).1
    exact ⟨s, k, c, (Goes.refl s).mono (Nat.zero_le 2), hlt.le, by simpa [Sys.upcoming, hb] using hk,
      hpoll⟩
  · obtain ⟨e, he, rfl⟩ : ∃ e ∈ s.inflight ++ s.dev.sq, e.userData = tag := by
      simp only [Sys.outstanding, Sys.rest, Dev.tags, hb, List.map_nil, List.append_nil,
        List.mem_append, List.mem_map] at hmem
      rcases hmem with ⟨e, he, rfl⟩ | ⟨e, he, rfl⟩ | hc
      · exact ⟨e, List.mem_append_right _ he, rfl⟩
      · exact ⟨e, List.mem_append_left _ he, rfl⟩
      · exact absurd hc hcq
    obtain ⟨j, hj⟩ := List.mem_iff_getElem?.mp he
    obtain ⟨x, ht⟩ := tryFrom_of_isPoll hpoll
    let s1 : Sys := { s with inflight := s.inflight ++ s.dev.sq, dev := { s.dev with sq := [] } }
    let s2 : Sys := { s1 with inflight := s1.inflight.eraseIdx j, cq := s1.cq ++ [⟨e.userData, 0⟩] }
    have hcomplete : s1.step (.complete j (.count 0)) = .ok s2 := by
      simp only [Sys.step, s1, hj, ht]
      rfl
    have hgoes := (Goes.submit env ep0 hb).trans
      (Goes.single (.complete j (.count 0)) ⟨rfl, fun _ => by rintro ⟨⟩⟩ hcomplete)
    refine ⟨s2, s.cq.length, ⟨e.userData, 0⟩, hgoes, Nat.le_refl _, ?_, hpoll⟩
    simp [Sys.upcoming, s2, s1, hb]

end

end

/-- **Disabling the interface ends the daemon.** Take any state in which it serves.
If the poll of ep0 has completed, behind `k` other completions, and reads of ep0 now
say that the function is gone, then no run goes on after `k` more completions. And as
long as the calls of the services return, the kernel can always bring it to an end: within
a bounded number of events it exits, unless it panics. -/
theorem disable_ends_daemon {strerror : Nat → Bytes} {info : DeviceInfo} {os : Os}
    {es : List DaemonEvent} {s : Sys}
    (h : runEvents (Daemon.step strerror) (.waiting info os) es = .ok (.serving s)) :
    (∀ (k : Nat) (c : Cqe) (ls : List LoopEvent) (s' : Sys), s.upcoming[k]? = some c →
      isPoll c.userData = true → (∀ l ∈ ls, l.ep0.Stops) →
      runEvents (Daemon.step strerror) (.serving s) (ls.map .loop) = .ok (.serving s') →
        ls.countP LoopEvent.handles ≤ k) ∧
    (∀ (env : Env) (ep0 : Ep0Read), ep0.Stops →
      EndsWithin strerror env ep0 (s.batch.length + 3 * s.cq.length + 5) s) := by
  obtain ⟨ls, hrun⟩ : ∃ ls, runEvents Sys.step (.start info os) ls = .ok s := by
    cases Account.of_run h with
    | serving hw hread hrun => exact ⟨_, hrun⟩
  have hreach := Reach.of_runEvents hrun
  refine ⟨fun k c ls s' hk hp hstop hs => ?_, fun env ep0 hstop => ?_⟩
  · exact handled_le_of_run hk hp hstop (Daemon.loop_of_run hs)
  · rcases drain strerror env ep0 rfl with hends | ⟨s1, hgoes, hb, hcq⟩
    · exact hends.mono strerror (by omega)
    · have hpolled1 : s1.Polled := by
        obtain ⟨ls', -, -, hrun'⟩ := hgoes
        exact Sys.polled_of_reach (hreach.trans (Reach.of_runEvents hrun'))
      obtain ⟨s2, k, c, hgoes2, hk, hpost, hpoll⟩ := poll_upcoming env ep0 hpolled1 hb
      have hends := (hgoes.trans hgoes2).ends strerror (upcoming_ends strerror env hpost hpoll hstop)
      exact hends.mono strerror (by rw [hcq] at hk; omega)

theorem ffsEvent_length (type : UInt8) :
    (List.replicate 8 0 ++ [type] ++ List.replicate 3 0).length ≤ ffsEventSize := Nat.le_refl 12

def ffsEvent (type : UInt8) : Ep0Read := .ok ⟨_, ffsEvent_length type⟩

def Daemon.sys? : Daemon → Option Sys
  | .serving s => some s
  | _ => none

def enabledPoll : List DaemonEvent :=
  [.ep0 (ffsEvent 0) (.ok ()), .ep0 (ffsEvent 2) (.ok ()), .loop ⟨.submit, ffsEvent 0⟩,
    .loop ⟨.complete 0 (.count 1), ffsEvent 0⟩]

/-- With the poll first in the queue, a disabled interface lets nothing be handled. -/
theorem disable_ends_daemon_enabled : ∃ s,
    runEvents (Daemon.step fun _ => []) (.waiting ⟨[], [], [], []⟩ (.boot .empty)) enabledPoll =
      .ok (.serving s) ∧
    (∀ (ls : List LoopEvent) (s' : Sys), (∀ l ∈ ls, l.ep0.Stops) →
      runEvents (Daemon.step fun _ => []) (.serving s) (ls.map .loop) = .ok (.serving s') →
        ls.countP LoopEvent.handles = 0) ∧
    EndsWithin (fun _ => []) {} (ffsEvent 3) 8 s := by
  have hplay : ((runEvents (Daemon.step fun _ => []) (.waiting ⟨[], [], [], []⟩ (.boot .empty))
      enabledPoll).toOption.bind Daemon.sys?).map (fun s => (s.upcoming, s.batch.length, s.cq.length)) =
        some ([⟨(UserData.mk .ep0Poll none).toU64, 1⟩], 0, 1) := by
    decide +kernel
  obtain ⟨s, hs, he⟩ := Option.map_eq_some_iff.mp hplay
  obtain ⟨d, hd, hsys⟩ := Option.bind_eq_some_iff.mp hs
  cases d with
  | waiting info os => cases hsys
  | exited r => cases hsys
  | serving s =>
    cases hsys
    simp only [Prod.mk.injEq] at he
    obtain ⟨hpost, hb, hcq⟩ := he
    have hstop : (ffsEvent 3).Stops := by
      intro t ht
      cases ht
      exact .inl rfl
    obtain ⟨h1, h2⟩ := disable_ends_daemon (ok_of_toOption hd)
    have hends := h2 {} (ffsEvent 3) hstop
    rw [hb, hcq] at hends
    refine ⟨s, ok_of_toOption hd, fun ls s' hls hrun => ?_, hends⟩
    exact Nat.le_zero.mp (h1 0 _ ls s' (by rw [hpost]; rfl) isPoll_poll hls hrun)

end Adibi
