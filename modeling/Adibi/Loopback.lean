import Adibi.Framing

/-!
# The two codecs against each other

What `submit_message` writes, read back by the receive path. `Built` is a
message as the builders of `message.rs` make it; `Submitted` relates messages
to the submissions pushed for them, in order, whatever the device does between
two messages. Fed to a receiver of the same version the writes come back as the
messages (`loopback`).
-/

namespace Adibi

open Lib

/-- A message with one of the headers the daemon builds. -/
inductive Built where
  | okay (localId remoteId : UInt32)
  | wrte (localId remoteId : UInt32) (data : Bytes)
  | clse (localId remoteId : UInt32)
  | cnxn (info : DeviceInfo)

namespace Built

def payload : Built → Bytes
  | .okay _ _ | .clse _ _ => []
  | .wrte _ _ data => data
  | .cnxn info => systemIdentity info

/-- The header, and the payload handed to `submit_message` with it. -/
def build (v : ProtocolVersion) : Built → Except Panic (AdbHeader × Option Bytes)
  | .okay localId remoteId => (okayHeader v localId remoteId).map fun h => (h, none)
  | .wrte localId remoteId data => (wrteHeader v localId remoteId data).map fun h => (h, some data)
  | .clse localId remoteId => (clseHeader v localId remoteId).map fun h => (h, none)
  | .cnxn info => (cnxnResponse v info).map fun x => (x.1, some x.2)

end Built

/-- Messages built for a peer of version `v`, with what `submit_message` pushes
for each; the device that sends the next message is any. -/
inductive Submitted (v : ProtocolVersion) : List (AdbHeader × Bytes) → List Sqe → Prop where
  | nil : Submitted v [] []
  | cons {r : Built} {h : AdbHeader} {p : Option Bytes} {d d' : Dev} {pushed ws : List Sqe}
      {ms : List (AdbHeader × Bytes)} (hr : r.build v = .ok (h, p))
      (hlen : r.payload.length ≤ 2 ^ 20) (hd : d.submitMessage h p = .ok d')
      (hq : d'.sq = d.sq ++ pushed) (rest : Submitted v ms ws) :
      Submitted v ((h, p.getD []) :: ms) (pushed ++ ws)

/-- The writes of a message, with their `IO_LINK` flags: a payload is linked to
the header before it. -/
def writesOf (m : AdbHeader × Bytes) : List (Bytes × Bool) :=
  if m.2 = [] then [(m.1.asLeBytes, false)] else [(m.1.asLeBytes, true), (m.2, false)]

/-- What the receive path shows when it takes in a message. -/
def received (m : AdbHeader × Bytes) : List Traffic :=
  if m.2 = [] then [.headerRead m.1.asLeBytes, .heard m.1 none]
  else [.headerRead m.1.asLeBytes, .payloadRead m.2, .heard m.1 (some m.2)]

/-! ## The sender -/

theorem headerFromPayload_of_le (v : ProtocolVersion) (c : Command) (a b : UInt32) {p : Bytes}
    (h : p.length ≤ 2 ^ 20) : ∃ hd, headerFromPayload v c a b p = .ok hd := by
  unfold headerFromPayload
  rw [lenU32_of_lt (by omega), checksum_of_le h]
  cases v with
  | v0 => exact ⟨_, rfl⟩
  | v1 => exact ⟨_, rfl⟩

/-- A payload of at most 1 MiB has a header: neither its length nor the sum of
its bytes overflows. -/
theorem Built.exists_build (v : ProtocolVersion) {r : Built} (h : r.payload.length ≤ 2 ^ 20) :
    ∃ hd p, r.build v = .ok (hd, p) ∧ p.getD [] = r.payload := by
  cases r with
  | okay l m => exact ⟨_, none, by simp only [build, okayHeader, headerFromPayload_nil]; rfl, rfl⟩
  | clse l m => exact ⟨_, none, by simp only [build, clseHeader, headerFromPayload_nil]; rfl, rfl⟩
  | wrte l m data =>
    obtain ⟨hd, hh⟩ := headerFromPayload_of_le v .wrte l m h
    have hw : wrteHeader v l m data = .ok hd := hh
    exact ⟨hd, some data, by simp only [build, hw]; rfl, rfl⟩
  | cnxn info =>
    obtain ⟨hd, hh⟩ := headerFromPayload_of_le v .cnxn protocolVersion.toU32 protocolVersion.maxPayload h
    have hc : cnxnHeader v (systemIdentity info) = .ok hd := hh
    exact ⟨hd, some (systemIdentity info), by simp only [build, cnxnResponse_eq, hc]; rfl, rfl⟩

/-- Every builder is `header_from_payload` on the payload that is sent. -/
theorem Built.build_ok {v : ProtocolVersion} {r : Built} {h : AdbHeader} {p : Option Bytes}
    (hb : r.build v = .ok (h, p)) : p.getD [] = r.payload ∧
      ∃ c a b, headerFromPayload v c a b r.payload = .ok h ∧
        (c = .cnxn → ProtocolVersion.tryFrom a = some .v1) := by
  cases r with
  | okay l m =>
    simp only [build, okayHeader, headerFromPayload_nil] at hb
    cases hb
    exact ⟨rfl, .okay, l, m, headerFromPayload_nil .., fun hc => Command.noConfusion hc⟩
  | clse l m =>
    simp only [build, clseHeader, headerFromPayload_nil] at hb
    cases hb
    exact ⟨rfl, .clse, l, m, headerFromPayload_nil .., fun hc => Command.noConfusion hc⟩
  | wrte l m data =>
    cases hh : wrteHeader v l m data with
    | error e =>
      rw [build, hh] at hb
      cases hb
    | ok hd =>
      rw [build, hh] at hb
      cases hb
      exact ⟨rfl, .wrte, l, m, hh, fun hc => Command.noConfusion hc⟩
  | cnxn info =>
    cases hh : cnxnHeader v (systemIdentity info) with
    | error e =>
      rw [build, cnxnResponse_eq, hh] at hb
      cases hb
    | ok hd =>
      rw [build, cnxnResponse_eq, hh] at hb
      cases hb
      exact ⟨rfl, .cnxn, _, _, hh, fun _ => rfl⟩

/-- **A message is one write, or two linked ones.** -/
theorem Dev.submitMessage_writes {d d' : Dev} {h : AdbHeader} {p : Option Bytes}
    (hd : d.submitMessage h p = .ok d') : ∃ pushed, d'.sq = d.sq ++ pushed ∧
      pushed.map (fun e => (e.bytes, e.link)) = writesOf (h, p.getD []) ∧
      ∀ e ∈ pushed, ∃ slot, e.userData = (UserData.mk .bulkInWrite (some slot)).toU64 := by
  obtain ⟨d1, h1, h2⟩ := bind_eq_ok.mp hd
  obtain ⟨d2, h3, h4⟩ := bind_eq_ok.mp h2
  cases h4
  obtain ⟨slot, buffers, -, rfl⟩ := submitWrite_ok h1
  by_cases hp : p.getD [] = []
  · have hf : p.filter (· ≠ []) = none := by
      cases p with
      | none => rfl
      | some q => simp_all
    rw [hf] at h3
    cases h3
    refine ⟨_, rfl, by simp [writesOf, hp], ?_⟩
    intro e he
    exact ⟨slot, by rw [List.mem_singleton.mp he]⟩
  · obtain ⟨q, rfl, hq⟩ : ∃ q, p = some q ∧ q ≠ [] := by
      cases p with
      | none => exact absurd rfl hp
      | some q => exact ⟨q, rfl, hp⟩
    have hf : (some q).filter (· ≠ []) = some q := by simp [Option.filter, hq]
    rw [hf] at h3
    obtain ⟨slot', buffers', -, rfl⟩ := submitWrite_ok h3
    refine ⟨_, List.append_assoc .., by simp [writesOf, hq], ?_⟩
    intro e he
    rcases List.mem_cons.mp he with rfl | he
    · exact ⟨slot, rfl⟩
    · exact ⟨slot', by rw [List.mem_singleton.mp he]⟩

/-! ## The receiver -/

theorem checksumOk_of_build {v w : ProtocolVersion} {c : Command} {a b : UInt32} {p : Bytes}
    {h : AdbHeader} (hb : headerFromPayload v c a b p = .ok h) (hl : p.length ≤ 2 ^ 20)
    (hw : w = v ∨ w = .v1) : checksumOk w h p = true := by
  obtain ⟨-, -, -, -, hk, -⟩ := headerFromPayload_ok hb
  unfold checksumOk
  rcases hw with rfl | rfl
  · cases w with
    | v1 => rfl
    | v0 =>
      rw [checksum_of_le hl] at hk
      have hd := Except.ok.inj hk
      simp [hd]
  · rfl

/-- A message comes back whole. A CNXN of the daemon announces the newer
version, whose checksum test everything passes. -/
theorem run_received {v w : ProtocolVersion} {c : Command} {a b : UInt32} {p : Bytes} {h : AdbHeader}
    (hb : headerFromPayload v c a b p = .ok h) (hl : p.length ≤ 2 ^ 20)
    (hc : c = .cnxn → ProtocolVersion.tryFrom a = some .v1) (hw : w = v ∨ w = .v1) :
    ∃ w', (w' = v ∨ w' = .v1) ∧
      rx.run ⟨none, w⟩ ((writesOf (h, p)).map Prod.fst) = (⟨none, w'⟩, received (h, p)) := by
  obtain ⟨hcmd, harg, -, hlen, -, hmagic⟩ := headerFromPayload_ok hb
  have hparse : parseHeader h.asLeBytes = some (h, []) := by
    have := parseHeader_asLeBytes (by rw [hmagic, hcmd]) []
    rwa [List.append_nil] at this
  have hver : ∀ q, versionAfter w h q = v ∨ versionAfter w h q = .v1 := by
    intro q
    unfold versionAfter
    split
    · rename_i hcn
      rw [harg, hc (by rw [← hcmd]; exact hcn)]
      exact .inr rfl
    · exact hw
  by_cases hp : p = []
  · have hz : ¬ h.dataLength > 0 := by
      intro hgt
      have := UInt32.lt_iff_toNat_lt.mp hgt
      rw [hlen, hp] at this
      exact absurd this (Nat.lt_irrefl _)
    refine ⟨versionAfter w h none, hver none, ?_⟩
    simp [writesOf, received, hp, Mealy.run_cons, rx, hparse, hz]
  · have hz : h.dataLength > 0 := by
      refine UInt32.lt_iff_toNat_lt.mpr ?_
      rw [hlen]
      exact List.length_pos_iff.mpr hp
    refine ⟨versionAfter w h (some p), hver (some p), ?_⟩
    have hchk := checksumOk_of_build hb hl hw
    simp [writesOf, received, hp, Mealy.run_cons, rx, hparse, hz, hchk]

section

variable {v : ProtocolVersion} {ms : List (AdbHeader × Bytes)} {ws : List Sqe}

theorem Submitted.writes (h : Submitted v ms ws) :
    ws.map (fun e => (e.bytes, e.link)) = ms.flatMap writesOf ∧
      ∀ e ∈ ws, ∃ slot, e.userData = (UserData.mk .bulkInWrite (some slot)).toU64 := by
  induction h with
  | nil => exact ⟨rfl, fun e he => nomatch he⟩
  | cons hr hlen hd hq rest ih =>
    obtain ⟨pushed, hq', hw, ht⟩ := Dev.submitMessage_writes hd
    cases List.append_cancel_left (hq.symm.trans hq')
    refine ⟨by rw [List.map_append, hw, ih.1, List.flatMap_cons], fun e he => ?_⟩
    rcases List.mem_append.mp he with he | he
    · exact ht e he
    · exact ih.2 e he

theorem Submitted.received (h : Submitted v ms ws) {w : ProtocolVersion} (hw : w = v ∨ w = .v1) :
    ∃ w', rx.run ⟨none, w⟩ (ws.map Sqe.bytes) = (⟨none, w'⟩, ms.flatMap received) := by
  have hbytes : ws.map Sqe.bytes = (ms.flatMap writesOf).map Prod.fst := by
    rw [← h.writes.1, List.map_map]
    rfl
  rw [hbytes]
  clear hbytes
  induction h generalizing w with
  | nil => exact ⟨w, rfl⟩
  | cons hr hlen hd hq rest ih =>
    obtain ⟨hp, c, a, b, hb, hc⟩ := Built.build_ok hr
    obtain ⟨w1, hw1, hrun⟩ := run_received hb hlen hc hw
    obtain ⟨w2, hrest⟩ := ih hw1
    refine ⟨w2, ?_⟩
    rw [hp, List.flatMap_cons, List.map_append, Mealy.run_append, hrun, hrest, List.flatMap_cons]

end

/-- Between messages nothing is pending and no transfer waits to be handled. -/
structure Sys.Between (s : Sys) : Prop where
  pending : s.pendingHeader = none
  waiting : s.waiting = []

theorem Sys.Between.tracks {info : DeviceInfo} {os : Os} {s : Sys} (hb : s.Between)
    (hr : Reach Sys.step (fun _ _ => True) (Sys.start info os) s) :
    s.Tracks ⟨none, s.dev.version⟩ s.dev.inbound [] := by
  have hhist : ∃ arrived, Reach (observed Sys.step Sys.arrival) (fun _ _ => True)
      (Sys.start info os, []) (s, arrived) := hr.observe
  obtain ⟨arrived, ho⟩ := hhist
  refine ⟨(Sys.tracks_of_reach ho).bulk, [], by rw [hb.waiting]; rfl, ?_, ?_⟩
  · rw [hb.pending]
    rfl
  · rw [Mealy.run_nil, List.append_nil]

/-- **The codecs agree.** Every message of the daemon with a payload of at most
1 MiB can be built; its writes are its header and, linked to it and next, its
payload if that is not empty. Any sequence of such messages comes back from the
receive path of the same version, header by header and payload by payload; so it
does in every run of the event loop that the writes arrive in. A header is
accepted if and only if it has 24 bytes, a known command and its complement, and
is then the first 24 bytes of what was read. -/
theorem loopback (v : ProtocolVersion) :
    (∀ r : Built, r.payload.length ≤ 2 ^ 20 →
      ∃ h p, r.build v = .ok (h, p) ∧ p.getD [] = r.payload) ∧
    (∀ ms ws, Submitted v ms ws →
      ws.map (fun e => (e.bytes, e.link)) = ms.flatMap writesOf ∧
      (∀ e ∈ ws, ∃ slot, e.userData = (UserData.mk .bulkInWrite (some slot)).toU64) ∧
      (rx.run ⟨none, v⟩ (ws.map Sqe.bytes)).2 = ms.flatMap received ∧
      ∀ info os s0 s, Reach Sys.step (fun _ _ => True) (Sys.start info os) s0 → s0.Between →
        s0.dev.version = v →
        Reach (observed Sys.step Sys.arrival) (fun _ _ => True) (s0, []) (s, ws.map Sqe.bytes) →
        s.waiting = [] → s.dev.inbound = s0.dev.inbound ++ ms.flatMap received) ∧
    ∀ data, ((parseHeader data).isSome ↔ 24 ≤ data.length ∧
        ∃ c : Command, wordAt data 0 = some c.toU32 ∧ wordAt data 5 = some (c.toU32 ^^^ 0xffffffff)) ∧
      ∀ h t, parseHeader data = some (h, t) → h.asLeBytes = data.take 24 := by
  refine ⟨fun r hr => r.exists_build v hr, fun ms ws hs => ?_, fun data => ⟨?_, ?_⟩⟩
  · obtain ⟨w', hrun⟩ := hs.received (.inl rfl)
    refine ⟨hs.writes.1, hs.writes.2, by rw [hrun], fun info os s0 s h0 hb hv hr hw => ?_⟩
    obtain ⟨handled, he, -, hin⟩ := ((hb.tracks h0).along hr).run
    rw [hw, List.append_nil] at he
    rw [hin, ← he, hv, hrun]
  · exact parseHeader_isSome_iff data
  · intro h t hp
    obtain ⟨he, -⟩ := parseHeader_eq_some.mp hp
    rw [he]
    exact (List.take_left' h.asLeBytes_length).symm

def twoByteHeader : AdbHeader :=
  ⟨.wrte, 1, 7, 2, UInt32.ofNat (byteSum (ascii "ok")), Command.wrte.toU32 ^^^ 0xffffffff⟩

theorem loopback_okay_wrte : ∃ ws,
    Submitted .v0 [(bareHeader .okay 1 7, []), (twoByteHeader, ascii "ok")] ws ∧
      (rx.run ⟨none, .v0⟩ (ws.map Sqe.bytes)).2 =
        received (bareHeader .okay 1 7, []) ++ received (twoByteHeader, ascii "ok") := by
  let d := Dev.new ⟨[], [], [], []⟩ (.boot .empty)
  have hokay : (Built.okay 1 7).build .v0 = .ok (bareHeader .okay 1 7, none) := rfl
  have hwrte : (Built.wrte 1 7 (ascii "ok")).build .v0 = .ok (twoByteHeader, some (ascii "ok")) := by
    decide +kernel
  have hsent : ∀ {h p}, (d.submitMessage h p).isOk = true →
      ∃ d' pushed, d.submitMessage h p = .ok d' ∧ d'.sq = d.sq ++ pushed := by
    intro h p hok
    cases hd : d.submitMessage h p with
    | error e =>
      rw [hd] at hok
      cases hok
    | ok d' =>
      obtain ⟨pushed, hq, -⟩ := Dev.submitMessage_writes hd
      exact ⟨d', pushed, rfl, hq⟩
  obtain ⟨d1, pushed1, hd1, hq1⟩ := hsent (h := bareHeader .okay 1 7) (p := none) (by decide +kernel)
  obtain ⟨d2, pushed2, hd2, hq2⟩ := hsent (h := twoByteHeader) (p := some (ascii "ok"))
    (by decide +kernel)
  have hs := Submitted.cons hokay (by decide) hd1 hq1 (.cons hwrte (by decide) hd2 hq2 .nil)
  exact ⟨_, hs, ((loopback .v0).2.1 _ _ hs).2.2.1.trans (by simp)⟩

end Adibi
