import Adibi.Simulation

/-!
# What a step does

`Sys.stepped_of_ok` says what one event can do to the stream table, the version,
the system and the messages submitted so far: nothing, fill the read buffer of a
stream, the effect of a completed read, or what the message it brings calls for
(`Dispatched`). Claims about the messages of whole runs start from here.
-/

namespace Adibi

open Lib

def Out.message? : Out → Option (AdbHeader × Bytes)
  | .message h p => some (h, p)
  | .op _ => none

def Traffic.message? : Traffic → Option (AdbHeader × Bytes)
  | .sent h p => some (h, p)
  | _ => none

namespace Dev

variable {d d' : Dev}

/-- The messages submitted so far. -/
def sent (d : Dev) : List (AdbHeader × Bytes) := d.trace.filterMap Traffic.message?

theorem submitWrite_trace {bytes : Bytes} {link : Bool} (h : d.submitWrite bytes link = .ok d') :
    d'.trace = d.trace := by
  obtain ⟨slot, buffers, -, rfl⟩ := submitWrite_ok h
  rfl

theorem emit_sent {o : Out} (h : d.emit o = .ok d') : d'.sent = d.sent ++ o.message?.toList := by
  cases emitted_of_ok h with
  | op u _ => exact (List.append_nil _).symm
  | bare h1 =>
    simp only [sent, log, submitWrite_trace h1, List.filterMap_append]
    rfl
  | full _ h1 h2 =>
    simp only [sent, log, submitWrite_trace h2, submitWrite_trace h1, List.filterMap_append]
    rfl

theorem submitWrite_info {bytes : Bytes} {link : Bool} (h : d.submitWrite bytes link = .ok d') :
    d'.info = d.info := by
  obtain ⟨slot, buffers, -, rfl⟩ := submitWrite_ok h
  rfl

theorem emit_info {o : Out} (h : d.emit o = .ok d') : d'.info = d.info := by
  cases emitted_of_ok h with
  | op u _ => rfl
  | bare h1 =>
    have hw := submitWrite_info h1
    exact hw
  | full _ h1 h2 =>
    have hw := (submitWrite_info h2).trans (submitWrite_info h1)
    exact hw

theorem emitAll_sent {outs : List Out} (h : d.emitAll outs = .ok d') :
    d'.sent = d.sent ++ outs.filterMap Out.message? := by
  induction outs generalizing d with
  | nil =>
    cases h
    simp
  | cons o outs ih =>
    obtain ⟨d1, h1, h2⟩ := bind_eq_ok.mp h
    rw [ih h2, emit_sent h1, List.append_assoc]
    cases ho : o.message? with
    | none => simp [ho]
    | some m => simp [ho]

theorem emitAll_info {outs : List Out} (h : d.emitAll outs = .ok d') : d'.info = d.info := by
  induction outs generalizing d with
  | nil =>
    cases h
    rfl
  | cons o outs ih =>
    obtain ⟨d1, h1, h2⟩ := bind_eq_ok.mp h
    exact (ih h2).trans (emit_info h1)

theorem firstRead_message {i : UInt32} {st : Stream} {outs : List Out}
    (h : firstRead i st = .ok outs) : ∀ o ∈ outs, o.message? = none := by
  have hread : ∀ op, (readOut op i).map (fun o => [o]) = .ok outs → ∀ o ∈ outs, o.message? = none := by
    intro op hr o ho
    obtain ⟨o', hr', rfl⟩ := map_eq_ok.mp hr
    obtain ⟨u, rfl, -⟩ := readOut_ok hr'
    rw [List.mem_singleton.mp ho]
    rfl
  unfold firstRead at h
  split at h
  · exact hread _ h
  · exact hread _ h
  · cases h
    exact fun o ho => nomatch ho

theorem log_sent (d : Dev) {t : Traffic} (h : t.message? = none) : (d.log t).sent = d.sent := by
  simp [sent, log, h]

/-- The two devices differ at most in their buffers, their queue and what they
have heard. -/
structure Same (d d' : Dev) : Prop where
  streams : d'.streams = d.streams
  version : d'.version = d.version
  os : d'.os = d.os
  info : d'.info = d.info
  sent : d'.sent = d.sent

theorem Same.refl (d : Dev) : Same d d := ⟨rfl, rfl, rfl, rfl, rfl⟩

theorem Same.trans {d1 d2 d3 : Dev} (h : Same d1 d2) (h' : Same d2 d3) : Same d1 d3 :=
  ⟨h'.streams.trans h.streams, h'.version.trans h.version, h'.os.trans h.os, h'.info.trans h.info,
    h'.sent.trans h.sent⟩

theorem Same.log (d : Dev) {t : Traffic} (h : t.message? = none) : Same d (d.log t) :=
  ⟨rfl, rfl, rfl, rfl, d.log_sent h⟩

theorem Same.logs (d : Dev) {t u : Traffic} (ht : t.message? = none) (hu : u.message? = none) :
    Same d ((d.log t).log u) := (Same.log d ht).trans (.log _ hu)

theorem Same.submitOp {u : UserData} (h : d.submitOp u = .ok d') : Same d d' := by
  rw [(push_ok h).2]
  exact ⟨rfl, rfl, rfl, rfl, rfl⟩

/-- The effect `f` of an event on stream `j`, if the stream is open. -/
inductive Effected (d : Dev) (j : UInt32) (f : Stream → Except Panic Effect) (d' : Dev) : Prop where
  | gone (hs : d.streams.get j = none) (hd : d.Same d')
  | effect {st : Stream} {e : Effect} (hs : d.streams.get j = some st) (he : f st = .ok e)
      (streams : d'.streams = d.streams.put j e.stream) (version : d'.version = d.version)
      (os : d'.os = e.os) (info : d'.info = d.info)
      (sent : d'.sent = d.sent ++ e.outs.filterMap Out.message?)

theorem Effected.of_ok {j : UInt32} {f : Stream → Except Panic Effect}
    (h : (match d.streams.get j with
      | none => Except.ok d
      | some st => f st >>= d.apply j) = .ok d') : Effected d j f d' := by
  cases hs : d.streams.get j with
  | none =>
    rw [hs] at h
    cases h
    exact .gone hs (.refl d)
  | some st =>
    rw [hs] at h
    obtain ⟨e, he, ha⟩ := bind_eq_ok.mp h
    obtain ⟨h1, h2, h3⟩ := emitAll_frame ha
    have h4 := emitAll_info ha
    have h5 := emitAll_sent ha
    exact .effect hs he h1 h2 h3 h4 h5

theorem Effected.congr {d1 d2 : Dev} {j : UInt32} {f : Stream → Except Panic Effect} (h0 : d1.Same d)
    (h : Effected d j f d') (h2 : d'.Same d2) : Effected d1 j f d2 := by
  cases h with
  | gone hs hd => exact .gone (by rw [← h0.streams]; exact hs) ((h0.trans hd).trans h2)
  | effect hs he hst hv hos hin hse =>
    refine .effect (by rw [← h0.streams]; exact hs) he ?_ ?_ ?_ ?_ ?_
    · rw [h2.streams, hst, h0.streams]
    · rw [h2.version, hv, h0.version]
    · rw [h2.os, hos]
    · rw [h2.info, hin, h0.info]
    · rw [h2.sent, hse, h0.sent]

/-- One more message, and nothing else. -/
structure Sends (d : Dev) (m : AdbHeader × Bytes) (d' : Dev) : Prop where
  streams : d'.streams = d.streams
  version : d'.version = d.version
  os : d'.os = d.os
  info : d'.info = d.info
  sent : d'.sent = d.sent ++ [m]

theorem Sends.of_emit {h : AdbHeader} {p : Bytes} (he : d.emit (.message h p) = .ok d') :
    Sends d (h, p) d' := by
  have ha : d.emitAll [.message h p] = .ok d' := by rw [emitAll_singleton]; exact he
  obtain ⟨h1, h2, h3⟩ := emitAll_frame ha
  exact ⟨h1, h2, h3, emitAll_info ha, emitAll_sent ha⟩

theorem Sends.congr {d1 d2 : Dev} {m : AdbHeader × Bytes} (h0 : d1.Same d) (h : Sends d m d')
    (h2 : d'.Same d2) : Sends d1 m d2 where
  streams := by rw [h2.streams, h.streams, h0.streams]
  version := by rw [h2.version, h.version, h0.version]
  os := by rw [h2.os, h.os, h0.os]
  info := by rw [h2.info, h.info, h0.info]
  sent := by rw [h2.sent, h.sent, h0.sent]

/-- What a dispatched message comes to. -/
inductive Dispatched (env : Env) (d : Dev) (h : AdbHeader) (p : Option Bytes) (d' : Dev) : Prop where
  | ignored (hc : h.command = .auth ∨ h.command = .stls) (hd : d.Same d')
  | cnxn {r : AdbHeader} (hc : h.command = .cnxn)
      (hr : cnxnHeader ((ProtocolVersion.tryFrom h.arg0).getD .v0) (systemIdentity d.info) = .ok r)
      (hd : Sends { d with version := (ProtocolVersion.tryFrom h.arg0).getD .v0 }
        (r, systemIdentity d.info) d')
  | refused (hc : h.command = .open)
      (ho : (p.bind serviceName).bind (StreamManager.openService env d.os) = none)
      (hd : Sends d (bareHeader .clse 0 h.arg0, []) d')
  | opened {svc : Service} {os : Os} (hc : h.command = .open)
      (ho : (p.bind serviceName).bind (StreamManager.openService env d.os) = some (svc, os))
      (hn : d.streams.nextId.toNat + 1 < 2 ^ 32)
      (hd : Sends (d.added svc os h.arg0) (bareHeader .okay d.streams.nextId h.arg0, []) d')
  | wrte {payload : Bytes} {d1 : Dev} (hc : h.command = .wrte) (hp : p = some payload)
      (hd : Sends d (bareHeader .okay h.arg1 h.arg0, []) d1)
      (he : Effected d1 h.arg1 (fun st => onWrte env d.version h.arg1 d.os st payload) d')
  | okay (hc : h.command = .okay) (he : Effected d h.arg1 (onOkay env d.version h.arg1 d.os) d')
  | clse (hc : h.command = .clse)
      (he : Effected d h.arg1 (fun st => onClse env h.arg1 d.os st h.arg0) d')

/-- **Inversion.** A message that does not panic is one of these. -/
theorem dispatched_of_ok {env : Env} {h : AdbHeader} {p : Option Bytes}
    (hd : d.handleCommand env h p = .ok d') :
    Dispatched env (d.log (.heard h p)) h p d' := by
  unfold handleCommand at hd
  simp only at hd
  cases hc : h.command with
  | cnxn =>
    rw [hc] at hd
    cases p with
    | none => cases hd
    | some payload =>
      obtain ⟨⟨hr, pr⟩, h1, h2⟩ := bind_eq_ok.mp hd
      rw [cnxnResponse_eq] at h1
      obtain ⟨hr', h3, h4⟩ := map_eq_ok.mp h1
      cases h4
      exact .cnxn hc h3 (.of_emit h2)
  | «open» =>
    rw [hc] at hd
    cases p with
    | none => cases hd
    | some payload =>
      simp only [handleCommandOpen_eq] at hd
      split at hd
      · rename_i ho
        exact .refused hc ho (.of_emit hd)
      · rename_i svc os ho
        split at hd
        · rename_i hn
          obtain ⟨d1, h1, h2⟩ := bind_eq_ok.mp hd
          obtain ⟨outs, h3, h4⟩ := bind_eq_ok.mp h2
          have h5 := Sends.of_emit h1
          obtain ⟨e1, e2, e3⟩ := emitAll_frame h4
          have hnone : outs.filterMap Out.message? = [] := by
            refine List.filterMap_eq_nil_iff.mpr fun o ho => ?_
            exact firstRead_message h3 o ho
          refine .opened hc ho hn (h5.congr (.refl _) ⟨e1, e2, e3, emitAll_info h4, ?_⟩)
          rw [emitAll_sent h4, hnone, List.append_nil]
        · cases hd
  | wrte =>
    rw [hc] at hd
    cases p with
    | none => cases hd
    | some payload =>
      simp only [handleCommandWrte_eq] at hd
      obtain ⟨d1, h1, h2⟩ := bind_eq_ok.mp hd
      have hs := Sends.of_emit h1
      have he := Effected.of_ok h2
      rw [hs.version, hs.os] at he
      exact .wrte hc rfl hs he
  | okay =>
    rw [hc] at hd
    cases p with
    | some payload => cases hd
    | none =>
      simp only [handleCommandOkay_eq] at hd
      exact .okay hc (.of_ok hd)
  | clse =>
    rw [hc] at hd
    simp only [handleCommandClse_eq] at hd
    exact .clse hc (.of_ok hd)
  | auth =>
    rw [hc] at hd
    cases hd
    exact .ignored (.inl hc) (.refl _)
  | stls =>
    rw [hc] at hd
    cases hd
    exact .ignored (.inr hc) (.refl _)

theorem Dispatched.congr {env : Env} {h : AdbHeader} {p : Option Bytes} {d1 d2 : Dev}
    (h0 : d1.Same d) (hd : Dispatched env d h p d') (h2 : d'.Same d2) :
    Dispatched env d1 h p d2 := by
  cases hd with
  | ignored hc hd => exact .ignored hc ((h0.trans hd).trans h2)
  | @cnxn r hc hr hd =>
    have hid : systemIdentity d.info = systemIdentity d1.info := by rw [h0.info]
    have hs : Same { d1 with version := (ProtocolVersion.tryFrom h.arg0).getD .v0 }
        { d with version := (ProtocolVersion.tryFrom h.arg0).getD .v0 } :=
      ⟨h0.streams, rfl, h0.os, h0.info, h0.sent⟩
    have hd1 := hd.congr hs h2
    rw [hid] at hr hd1
    exact .cnxn hc hr hd1
  | refused hc ho hd =>
    rw [h0.os] at ho
    exact .refused hc ho (hd.congr h0 h2)
  | @opened svc os hc ho hn hd =>
    rw [h0.os] at ho
    rw [h0.streams] at hn hd
    have hs : Same (d1.added svc os h.arg0) (d.added svc os h.arg0) :=
      ⟨by simp only [added, h0.streams], h0.version, rfl, h0.info, h0.sent⟩
    exact .opened hc ho hn (hd.congr hs h2)
  | wrte hc hp hd he =>
    rw [h0.version, h0.os] at he
    exact .wrte hc hp (hd.congr h0 (.refl _)) (he.congr (.refl _) h2)
  | okay hc he =>
    rw [h0.version, h0.os] at he
    exact .okay hc (he.congr h0 h2)
  | clse hc he =>
    rw [h0.os] at he
    exact .clse hc (he.congr h0 h2)

end Dev

namespace Sys

variable {s s' : Sys} {e : Event}

/-- What one event can do to the device. -/
inductive Stepped (s : Sys) : Event → Sys → Prop where
  | quiet {e : Event} {s' : Sys}
      (ha : ∀ i, s.act e i = .none) (hd : s.dev.Same s'.dev) : Stepped s e s'
  | filled {k : Nat} {bytes : Bytes} {place : Option Place} {op : UserDataOpType} {j : UInt32}
      {st : Stream} {s' : Sys}
      (ha : ∀ i, s.act (.complete k (.data bytes place)) i = if j = i then .fill op bytes else .none)
      (hs : s.dev.streams.get j = some st)
      (hd : (s.dev.setStream j (some { st with service := st.service.filled op bytes })).Same s'.dev) :
      Stepped s (.complete k (.data bytes place)) s'
  | read {env : Env} {op : UserDataOpType} {j : UInt32} {res : Int} {s' : Sys}
      (he : s.ending = some (op, j, res))
      (hd : s.dev.Effected j (fun st => onRead s.dev.version j s.dev.os st op res) s'.dev) :
      Stepped s (.handle env) s'
  | message {env : Env} {h : AdbHeader} {p : Option Bytes} {s' : Sys} (he : s.ending = none)
      (hi : s.incoming = some (h, p)) (hd : s.dev.Dispatched env h p s'.dev) :
      Stepped s (.handle env) s'

/-- What a handled completion does to the device. -/
inductive Served (env : Env) (s s' : Sys) : Prop where
  | idle (he : s.ending = none) (hi : s.incoming = none) (hd : s.dev.Same s'.dev)
  | read {op : UserDataOpType} {j : UInt32} {res : Int} (he : s.ending = some (op, j, res))
      (hd : s.dev.Effected j (fun st => onRead s.dev.version j s.dev.os st op res) s'.dev)
  | message {h : AdbHeader} {p : Option Bytes} (he : s.ending = none) (hi : s.incoming = some (h, p))
      (hd : s.dev.Dispatched env h p s'.dev)

theorem served_of_handle {env : Env} (h : s.step (.handle env) = .ok s') : Served env s s' := by
  obtain ⟨c, tail, hb, hh⟩ := handle_ok h
  cases hh with
  | unknown ht =>
    have ha : s.arriving = none := arriving_none hb (by simp [ht]) (by simp [ht])
    exact .idle (by simp only [ending, hb, ht]) (by simp only [incoming, ha]) (.refl _)
  | read hop ht hd =>
    rw [Dev.readDone_eq] at hd
    exact .read (ending_eq hb hop ht) (.of_ok hd)
  | write ht hd =>
    have ha : s.arriving = none := arriving_none hb (by simp [ht]) (by simp [ht])
    exact .idle (ending_none hb ht (by simp) (by simp)) (by simp only [incoming, ha])
      ⟨rfl, rfl, rfl, rfl, rfl⟩
  | poll ht hd =>
    have ha : s.arriving = none := arriving_none hb (by simp [ht]) (by simp [ht])
    exact .idle (ending_none hb ht (by simp) (by simp)) (by simp only [incoming, ha])
      (.submitOp hd)
  | rejected ht hx hp hd =>
    refine .idle (ending_none hb ht (by simp) (by simp)) ?_
      ((Dev.Same.log s.dev rfl).trans (.submitOp hd))
    simp only [incoming, arriving_header hb ht hx, hp]
  | pending ht hx hp hl hd =>
    refine .idle (ending_none hb ht (by simp) (by simp)) ?_
      ((Dev.Same.log s.dev rfl).trans (.submitOp hd))
    simp only [incoming, arriving_header hb ht hx, hp, hl, if_true]
  | bare ht hx hp hl hc hd =>
    refine .message (ending_none hb ht (by simp) (by simp)) ?_
      ((Dev.dispatched_of_ok hc).congr (.logs s.dev rfl rfl) (.submitOp hd))
    simp only [incoming, arriving_header hb ht hx, hp, hl, if_false]
  | orphan ht hx hp hd =>
    refine .idle (ending_none hb ht (by simp) (by simp)) ?_
      ((Dev.Same.log s.dev rfl).trans (.submitOp hd))
    simp only [incoming, arriving_payload hb ht hx, show s.pendingHeader = none from hp]
  | dropped ht hx hp hbad hd =>
    rename_i x data hdr d
    refine .idle (ending_none hb ht (by simp) (by simp)) ?_
      ((Dev.Same.log s.dev rfl).trans (.submitOp hd))
    simp only [incoming, arriving_payload hb ht hx, show s.pendingHeader = some hdr from hp,
      show badChecksum s.dev.version hdr data = .ok true from hbad]
  | loaded ht hx hp hbad hc hd =>
    rename_i x data hdr d d'
    refine .message (ending_none hb ht (by simp) (by simp)) ?_
      ((Dev.dispatched_of_ok hc).congr (.logs s.dev rfl rfl) (.submitOp hd))
    simp only [incoming, arriving_payload hb ht hx, show s.pendingHeader = some hdr from hp,
      show badChecksum s.dev.version hdr data = .ok false from hbad]

theorem stepped_of_handle {env : Env} (h : s.step (.handle env) = .ok s') :
    Stepped s (.handle env) s' := by
  cases served_of_handle h with
  | idle he hi hd => exact .quiet (fun i => by simp only [act, he, hi]) hd
  | read he hd => exact .read he hd
  | message he hi hd => exact .message he hi hd

/-- Completing an operation fills the read buffer of its stream, if it is a read
of an open stream that brought data. -/
theorem stepped_of_complete {k : Nat} {outcome : Outcome} (h : s.step (.complete k outcome) = .ok s') :
    Stepped s (.complete k outcome) s' := by
  obtain ⟨e, ⟨op, x⟩, he, hu, hf, rfl⟩ := complete_ok h
  cases outcome with
  | count n => exact .quiet (fun i => rfl) ⟨rfl, rfl, rfl, rfl, rfl⟩
  | error n => exact .quiet (fun i => rfl) ⟨rfl, rfl, rfl, rfl, rfl⟩
  | data bytes place =>
    by_cases hop : op = .ptyRead ∨ op = .socketRead
    · cases x with
      | none =>
        refine .quiet (fun i => ?_) ?_
        · simp only [act, he, Option.bind_some, hu]
        · rcases hop with rfl | rfl <;> exact ⟨rfl, rfl, rfl, rfl, rfl⟩
      | some j =>
        rw [fill_read hop]
        generalize hd : s.dev.fill op j.1 bytes place = d'
        cases fills hd with
        | @stream op' j' st hf hst =>
          refine .filled (fun i => ?_) hst (.refl _)
          rw [act_filling he hu hop, Dev.fillAct, hf]
        | slot hf hp hj =>
          refine .quiet (fun i => ?_) ⟨rfl, rfl, rfl, rfl, rfl⟩
          rw [act_filling he hu hop, Dev.fillAct, hf]
        | nothing hf =>
          refine .quiet (fun i => ?_) (.refl _)
          rw [act_filling he hu hop, Dev.fillAct, hf]
    · refine .quiet (fun i => ?_) ?_
      · simp only [act, he, Option.bind_some, hu]
        cases x <;> simp [hop]
      · cases op with
        | ptyRead => exact absurd (.inl rfl) hop
        | socketRead => exact absurd (.inr rfl) hop
        | ep0Poll => cases hf
        | bulkInWrite => cases hf
        | bulkOutReadHeader => cases x <;> exact ⟨rfl, rfl, rfl, rfl, rfl⟩
        | bulkOutReadPayload => cases x <;> exact ⟨rfl, rfl, rfl, rfl, rfl⟩

/-- **Inversion.** A step does one of these to the device. -/
theorem stepped_of_ok (h : s.step e = .ok s') : Stepped s e s' := by
  cases e with
  | submit =>
    obtain ⟨-, rfl⟩ := submit_ok h
    exact .quiet (fun i => rfl) ⟨rfl, rfl, rfl, rfl, rfl⟩
  | reap =>
    obtain ⟨-, -, -, rfl⟩ := reap_ok h
    exact .quiet (fun i => rfl) (.refl _)
  | complete k outcome => exact stepped_of_complete h
  | handle env => exact stepped_of_handle h

end Sys

/-! ## Stream ids -/

namespace Dev

variable {d d' : Dev} {j : UInt32}

theorem Effected.nextId {f : Stream → Except Panic Effect} (h : d.Effected j f d') :
    d'.streams.nextId = d.streams.nextId := by
  cases h with
  | gone hs hd => rw [hd.streams]
  | effect hs he hst hv hos hin hse =>
    rw [hst]
    rfl

theorem Sends.nextId_added {svc : Service} {os : Os} {r : UInt32} {m : AdbHeader × Bytes}
    (h : (d.added svc os r).Sends m d') (hn : d.streams.nextId.toNat + 1 < 2 ^ 32) :
    d'.streams.nextId.toNat = d.streams.nextId.toNat + 1 := by
  have hid : d'.streams.nextId = d.streams.nextId + 1 := by
    rw [h.streams]
    rfl
  rw [hid, UInt32.toNat_add, Nat.mod_eq_of_lt (by simpa using hn)]
  rfl

theorem Dispatched.nextId {env : Env} {h : AdbHeader} {p : Option Bytes}
    (hd : Dispatched env d h p d') :
    (d'.streams.nextId = d.streams.nextId ∧ ∀ i r svc, d.actOf env h p i ≠ .opened r svc) ∨
      d'.streams.nextId.toNat = d.streams.nextId.toNat + 1 := by
  have hno : h.command ≠ .open → ∀ i r svc, d.actOf env h p i ≠ .opened r svc :=
    fun hc i r svc ha => hc (actOf_opened ha).1
  cases hd with
  | ignored hc hd =>
    refine .inl ⟨by rw [hd.streams], hno fun ho => ?_⟩
    rcases hc with hc | hc <;> cases hc.symm.trans ho
  | cnxn hc _ hd =>
    refine .inl ⟨by rw [hd.streams], hno fun ho => ?_⟩
    cases hc.symm.trans ho
  | refused hc ho hd =>
    refine .inl ⟨by rw [hd.streams], fun i r svc ha => ?_⟩
    simp only [actOf, hc, ho] at ha
    cases ha
  | opened hc _ hn hd => exact .inr (hd.nextId_added hn)
  | wrte hc _ hd he =>
    refine .inl ⟨by rw [he.nextId, hd.streams], hno fun ho => ?_⟩
    cases hc.symm.trans ho
  | okay hc he =>
    refine .inl ⟨he.nextId, hno fun ho => ?_⟩
    cases hc.symm.trans ho
  | clse hc he =>
    refine .inl ⟨he.nextId, hno fun ho => ?_⟩
    cases hc.symm.trans ho

end Dev

namespace Sys

variable {s s' : Sys} {e : Event}

theorem step_nextId (h : s.step e = .ok s') :
    (s'.nextId = s.nextId ∧ ∀ i r svc, s.act e i ≠ .opened r svc) ∨
      s'.nextId.toNat = s.nextId.toNat + 1 := by
  unfold nextId
  cases stepped_of_ok h with
  | quiet ha hd =>
    refine .inl ⟨by rw [hd.streams], fun i r svc hopen => ?_⟩
    cases (ha i).symm.trans hopen
  | filled ha _ hd =>
    refine .inl ⟨by rw [hd.streams]; rfl, fun i r svc hopen => ?_⟩
    rw [ha i] at hopen
    split at hopen <;> cases hopen
  | read he hd =>
    refine .inl ⟨hd.nextId, fun i r svc hopen => ?_⟩
    simp only [act, he] at hopen
    split at hopen <;> cases hopen
  | message he hi hd =>
    simp only [act, he, hi]
    exact hd.nextId

theorem nextId_le (h : s.step e = .ok s') : s.nextId.toNat ≤ s'.nextId.toNat := by
  rcases step_nextId h with ⟨heq, -⟩ | hsucc
  · rw [heq]
  · omega

theorem not_opened_of_le (h : s.step e = .ok s') {i : UInt32} (hi : s'.nextId.toNat ≤ i.toNat) :
    s.nextId.toNat ≤ i.toNat ∧ ∀ r svc, s.act e i ≠ .opened r svc := by
  rcases step_nextId h with ⟨heq, hno⟩ | hsucc
  · exact ⟨by rw [heq] at hi; exact hi, hno i⟩
  · refine ⟨by omega, fun r svc ha => ?_⟩
    rw [act_opened ha] at hi
    omega

end Sys

end Adibi
