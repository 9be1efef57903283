import Adibi.Cleanup
import Adibi.Demand
import Adibi.Sync.Session

/-!
# Messages for pairs that are not live

A WRTE, an OKAY and a CLSE carry both ids of their stream. The table is keyed by
the device's id alone: a message whose device id is not live is harmless, and one
whose host id does not match is taken for the stream it is not for. What follows
from it depends on the command (`routed_by_both_iff`).
-/

namespace Adibi

open Lib

/-- The pair names a live stream. -/
def Dev.Live (d : Dev) (localId remoteId : UInt32) : Prop :=
  ∃ st, d.streams.get localId = some st ∧ st.remoteId = remoteId

/-- The payload of a well-formed message: as long as the header says, some for a
WRTE and none for an OKAY. -/
structure Proper (h : AdbHeader) (p : Option Bytes) : Prop where
  length : (p.getD []).length = h.dataLength.toNat
  some_iff : p.isSome ↔ 0 < h.dataLength.toNat
  wrte : h.command = .wrte → p.isSome
  okay : h.command = .okay → p = none

/-- Handling the message does not panic, leaves the streams and all that the
services act on alone, and submits no read. -/
def Harmless (env : Env) (d : Dev) (h : AdbHeader) (p : Option Bytes) : Prop :=
  ∃ d', d.handleCommand env h p = .ok d' ∧ d'.streams = d.streams ∧ d'.os = d.os ∧
    ∀ op i, op = .ptyRead ∨ op = .socketRead →
      d'.tags.count (readTag op i) = d.tags.count (readTag op i)

/-- One more write finds a slot and a queue entry. -/
def Dev.HasSlot (d : Dev) : Prop := d.buffers.used < maxBufferSlots ∧ d.sq.length < sqEntries

instance (d : Dev) : Decidable d.HasSlot := inferInstanceAs (Decidable (_ ∧ _))

/-- What the code does with a command for a device id. -/
def Spared (d : Dev) (c : Command) (localId : UInt32) : Prop :=
  match d.streams.get localId with
  | none => c = .wrte → d.HasSlot
  | some st => c = .okay ∧ st.waitingForOkay = false ∧
      ∃ svc, st.service = .sync svc ∧ ∀ sender, svc.state ≠ .sending sender

/-! ## A device id that is not live -/

namespace Dev

variable {d d' : Dev}

theorem submitWrite_ok_iff {bytes : Bytes} (hb : bytes.length < 2 ^ 32) (link : Bool) :
    (∃ d', d.submitWrite bytes link = .ok d') ↔ d.HasSlot := by
  unfold submitWrite HasSlot
  cases ha : d.buffers.alloc with
  | error p =>
    have hfull := BufferManager.alloc_error ha
    refine ⟨fun ⟨d', hd⟩ => (nomatch hd), fun hs => ?_⟩
    omega
  | ok x =>
    obtain ⟨slot, b⟩ := x
    have h0 := (BufferManager.alloc_ok ha).1
    have hfree : d.buffers.used < maxBufferSlots := by
      have h1 : (b.extend slot []).used = d.buffers.used + 1 := BufferManager.alloc_used ha
      have h2 := (b.extend slot []).used_le
      omega
    have hnz : nonZero .slotZero slot = .ok ⟨slot, h0⟩ := by
      unfold nonZero NonZeroU32.new
      rw [dif_pos h0]
    simp only [ok_bind, lenU32_of_lt hb, hnz, push]
    constructor
    · rintro ⟨d', hd⟩
      split at hd
      · rename_i hq
        exact ⟨hfree, hq⟩
      · cases hd
    · rintro ⟨-, hq⟩
      exact ⟨_, if_pos hq⟩

theorem emit_bare_ok_iff {h : AdbHeader} : (∃ d', d.emit (.message h []) = .ok d') ↔ d.HasSlot := by
  have hlen : h.asLeBytes.length < 2 ^ 32 := by
    rw [AdbHeader.asLeBytes_length]
    decide
  rw [← submitWrite_ok_iff hlen false]
  show (∃ d', (d.submitWrite h.asLeBytes false >>= fun d => .ok (d.log (.sent h []))) = .ok d') ↔ _
  constructor
  · rintro ⟨d', hd⟩
    obtain ⟨d1, h1, -⟩ := bind_eq_ok.mp hd
    exact ⟨d1, h1⟩
  · rintro ⟨d1, h1⟩
    exact ⟨_, by rw [h1]; rfl⟩

theorem count_readTag (d : Dev) {op : UserDataOpType} (i : UInt32)
    (hop : op = .ptyRead ∨ op = .socketRead) :
    d.tags.count (readTag op i) = (d.view [] i).reads op := by
  rcases hop with rfl | rfl
  · simp [view, View.reads]
  · simp [view, View.reads]

theorem emit_message_reads {h : AdbHeader} {p : Bytes} (he : d.emit (.message h p) = .ok d')
    {op : UserDataOpType} (i : UInt32) (hop : op = .ptyRead ∨ op = .socketRead) :
    d'.tags.count (readTag op i) = d.tags.count (readTag op i) := by
  rw [count_readTag d' i hop, count_readTag d i hop, emit_view he]
  cases op <;> simp [View.plus, View.reads, Out.isRead]

theorem log_tags (d : Dev) (t : Traffic) : (d.log t).tags = d.tags := rfl

end Dev

/-- Nothing that is no WRTE happens to an id that is not live; a WRTE is
acknowledged. -/
theorem harmless_of_none {env : Env} {d : Dev} {h : AdbHeader} {p : Option Bytes}
    (hc : h.command = .wrte ∨ h.command = .okay ∨ h.command = .clse) (hp : Proper h p)
    (hs : d.streams.get h.arg1 = none) (hroom : h.command = .wrte → d.HasSlot) :
    Harmless env d h p := by
  have hs' : (d.log (.heard h p)).streams.get h.arg1 = none := hs
  rcases hc with hc | hc | hc
  · obtain ⟨payload, rfl⟩ := Option.isSome_iff_exists.mp (hp.wrte hc)
    have hlog : (d.log (.heard h (some payload))).HasSlot := hroom hc
    obtain ⟨d1, h1⟩ := Dev.emit_bare_ok_iff.mpr hlog
    have hsend := Dev.Sends.of_emit h1
    refine ⟨d1, ?_, hsend.streams, hsend.os, fun op i hop => ?_⟩
    · simp only [Dev.handleCommand, hc, Dev.handleCommandWrte_eq]
      show ((d.log _).emit (.message (bareHeader .okay h.arg1 h.arg0) []) >>= _) = _
      rw [h1, ok_bind, hsend.streams, hs']
    · rw [Dev.emit_message_reads h1 i hop, Dev.log_tags]
  · have hnone := hp.okay hc
    subst hnone
    refine ⟨d.log (.heard h none), ?_, rfl, rfl, fun _ _ _ => rfl⟩
    simp only [Dev.handleCommand, hc, Dev.handleCommandOkay_eq, hs']
  · refine ⟨d.log (.heard h p), ?_, rfl, rfl, fun _ _ _ => rfl⟩
    simp only [Dev.handleCommand, hc, Dev.handleCommandClse_eq, hs']

/-! ## A device id that is live -/

theorem not_harmless_of_error {env : Env} {d : Dev} {h : AdbHeader} {p : Option Bytes} {e : Panic}
    (he : d.handleCommand env h p = .error e) : ¬ Harmless env d h p := by
  rintro ⟨d', hd, -⟩
  rw [he] at hd
  cases hd

theorem clse_harmful {env : Env} {d : Dev} {h : AdbHeader} {p : Option Bytes} {st : Stream}
    (hc : h.command = .clse) (hs : d.streams.get h.arg1 = some st) (hne : st.remoteId ≠ h.arg0) :
    ¬ Harmless env d h p := by
  have hs' : (d.log (.heard h p)).streams.get h.arg1 = some st := hs
  refine not_harmless_of_error (e := .clseRemoteId) ?_
  simp only [Dev.handleCommand, hc, Dev.handleCommandClse_eq, hs', onClse, if_pos hne]
  rfl

/-- What a handled OKAY leaves of the stream it names, if it is harmless. -/
theorem okay_harmless_iff {env : Env} {d : Dev} {h : AdbHeader} {st : Stream}
    (hc : h.command = .okay) (hs : d.streams.get h.arg1 = some st) :
    Harmless env d h none ↔ st.waitingForOkay = false ∧
      ∃ svc, st.service = .sync svc ∧ ∀ sender, svc.state ≠ .sending sender := by
  have hs' : (d.log (.heard h none)).streams.get h.arg1 = some st := hs
  have hcmd : d.handleCommand env h none = onOkay env d.version h.arg1 d.os st >>=
      (d.log (.heard h none)).apply h.arg1 := by
    simp only [Dev.handleCommand, hc, Dev.handleCommandOkay_eq, hs']
    rfl
  constructor
  · rintro ⟨d', hd, hst, -, hreads⟩
    rw [hcmd] at hd
    obtain ⟨e, he, ha⟩ := bind_eq_ok.mp hd
    have hput : d'.streams = d.streams.put h.arg1 e.stream := (Dev.emitAll_frame ha).1
    have hkept : e.stream = some st := by
      rw [← hs, ← hst, hput, StreamManager.get_put_self]
    cases hr : st.service.reader with
    | some op =>
      -- the OKAY starts a read
      exfalso
      have hop := Service.reader_cases hr
      obtain ⟨o, ho, rfl⟩ := onOkay_reader hr he
      have hview := Dev.apply_view_self ha []
      have hcount := hreads op h.arg1 hop
      rw [Dev.count_readTag d' _ hop, Dev.count_readTag d _ hop, hview, View.plus_readOut hop ho,
        View.began_reads _ hop, if_pos rfl, View.reads_stream] at hcount
      have hlog : ((d.log (.heard h none)).view [] h.arg1).reads op = (d.view [] h.arg1).reads op := by
        cases op <;> rfl
      omega
    | none =>
      cases hsv : st.service with
      | shell sh =>
        rw [hsv] at hr
        cases hr
      | forward fwd =>
        rw [hsv] at hr
        cases hr
      | reboot =>
        simp only [onOkay, hsv] at he
        cases he
      | sync svc =>
        simp only [onOkay, hsv] at he
        rcases continueSync_cases he with ⟨rfl, hns⟩ | ⟨-, sender, sender', hdr, data, o, hsend, hn, -, rfl⟩ |
          ⟨-, sender, sender', hsend, -, rfl⟩
        · have hw : false = st.waitingForOkay := congrArg Stream.waitingForOkay (Option.some.inj hkept)
          refine ⟨hw.symm, svc, rfl, fun sender hstate => ?_⟩
          rcases hns with hw | hns
          · cases hw
          · exact hns sender (by rw [← hstate])
        · -- the next frame moves the sender on
          exfalso
          have hsame : Service.sync ⟨.sending sender'⟩ = st.service :=
            congrArg Stream.service (Option.some.inj hkept)
          have hsend : Service.sync svc = .sync ⟨.sending sender⟩ := hsend
          cases hsame.trans (hsv.trans hsend)
          have := FileSender.nextFrame_decreases hn
          omega
        · exfalso
          have hsame : Service.sync ⟨.idle⟩ = st.service :=
            congrArg Stream.service (Option.some.inj hkept)
          have hsend : Service.sync svc = .sync ⟨.sending sender⟩ := hsend
          cases hsame.trans (hsv.trans hsend)
  · rintro ⟨hw, svc, hsv, hns⟩
    have hst : { st with waitingForOkay := false } = st := by
      cases st
      simp only at hw
      rw [hw]
    have he : onOkay env d.version h.arg1 d.os st = .ok ⟨some st, d.os, []⟩ := by
      simp only [onOkay, hsv]
      rw [← hsv, hst]
      unfold continueSync
      rw [hw, if_neg Bool.false_ne_true]
      split
      · rename_i sender hsend
        rw [hsv] at hsend
        cases hsend
        exact absurd rfl (hns sender)
      · rfl
    refine ⟨d.log (.heard h none), ?_, rfl, rfl, fun _ _ _ => rfl⟩
    rw [hcmd, he, ok_bind]
    exact Dev.apply_same _ hs'

/-! ## A payload for the wrong stream -/

namespace FileReceiver

variable {r r' : FileReceiver} {fs fs' : Fs} {b : UInt8}

theorem onFrame_cases {env : Env} {pos : Nat} {bytes : Bytes} {p : Pass}
    (h : r.onFrame env fs pos bytes = .ok p) :
    (∃ response r1 fs1, p = .ret (.done response) r1 fs1) ∨
      ∃ n, p = .next pos { r with state := .data n } fs := by
  unfold onFrame at h
  split at h
  · obtain ⟨response, -, h1⟩ := bind_eq_ok.mp h
    cases h1
    exact .inl ⟨_, _, _, rfl⟩
  · unfold onHeader at h
    split at h
    · cases h
      exact .inr ⟨_, rfl⟩
    · obtain ⟨⟨result, fs1⟩, hfin, h1⟩ := bind_eq_ok.mp h
      cases h1
      unfold finalize at hfin
      split at hfin
      · obtain ⟨response, -, h2⟩ := bind_eq_ok.mp hfin
        cases h2
        exact .inl ⟨_, _, _, rfl⟩
      · split at hfin
        · cases hfin
          exact .inl ⟨_, _, _, rfl⟩
        · cases hfin
          exact .inl ⟨_, _, _, rfl⟩

theorem receive_byte_header (hst : r.state = .header)
    (h : receiveFrom {} [b] 0 r fs = .ok (.continue, r', fs')) :
    ∃ buf, r'.state = .partialHeader buf 1 := by
  have hiter : receiveIter {} [b] 0 r fs =
      (HeaderBuf.zero.copy 0 [b] >>= fun buf =>
        .ok (.ret .continue { r with state := .partialHeader buf 1 } fs)) := by
    unfold receiveIter
    rw [hst]
    rfl
  rcases receiveFrom_cases (Nat.zero_lt_one) h with hp | ⟨pos1, r1, fs1, hp, -⟩
  · rw [hiter] at hp
    obtain ⟨buf, -, h1⟩ := bind_eq_ok.mp hp
    cases h1
    exact ⟨buf, rfl⟩
  · rw [hiter] at hp
    obtain ⟨buf, -, h1⟩ := bind_eq_ok.mp hp
    cases h1

theorem receive_byte_data {n : Nat} (hst : r.state = .data n)
    (h : receiveFrom {} [b] 0 r fs = .ok (.continue, r', fs')) :
    r'.file.moved = r.file.moved ++ [b] ∨ ∃ buf, r'.state = .partialHeader buf 1 := by
  cases n with
  | zero =>
    have hiter : receiveIter {} [b] 0 r fs = .ok (.next 0 { r with state := .header } fs) := by
      unfold receiveIter
      rw [hst]
      rfl
    rcases receiveFrom_cases (Nat.zero_lt_one) h with hp | ⟨pos1, r1, fs1, hp, h1⟩
    · cases hp.symm.trans hiter
    · cases hp.symm.trans hiter
      exact .inr (receive_byte_header rfl h1)
  | succ n =>
    have hmin : min (n + 1) ([b].length - 0) = 1 := by simp
    have hiter : ∃ st, receiveIter {} [b] 0 r fs =
        .ok (.next 1 { r with file := (fs.put r.file [b]).1, state := st } (fs.put r.file [b]).2) := by
      unfold receiveIter
      rw [hst]
      simp only [hmin]
      exact ⟨_, rfl⟩
    obtain ⟨st, hiter⟩ := hiter
    rcases receiveFrom_cases (Nat.zero_lt_one) h with hp | ⟨pos1, r1, fs1, hp, h1⟩
    · cases hp.symm.trans hiter
    · cases hp.symm.trans hiter
      cases (receiveFrom_end (Nat.le_refl _)).symm.trans h1
      exact .inl rfl

/-- **A byte does not leave a receiver as it was.** -/
theorem receive_byte_ne (h : receive {} [b] r fs = .ok (.continue, r', fs')) : r' ≠ r := by
  rintro rfl
  unfold receive at h
  cases hst : r'.state with
  | header =>
    obtain ⟨buf, h1⟩ := receive_byte_header hst h
    cases hst.symm.trans h1
  | data n =>
    rcases receive_byte_data hst h with h1 | ⟨buf, h1⟩
    · exact absurd (congrArg List.length h1) (by simp)
    · cases hst.symm.trans h1
  | partialHeader leftovers len =>
    rcases receiveFrom_cases (Nat.zero_lt_one) h with hp | ⟨pos1, r1, fs1, hp, h1⟩
    · unfold receiveIter at hp
      simp only [hst] at hp
      split at hp
      · cases hp
      · split at hp
        · -- the header is still short: one more byte of it is kept
          rename_i hle hslice
          obtain ⟨buf, -, h2⟩ := bind_eq_ok.mp hp
          simp only [pure_eq_ok, Except.ok.injEq, Pass.ret.injEq, true_and] at h2
          have hlen : RecvState.partialHeader buf (len + min (frameHeaderSize - len) 1) =
              .partialHeader leftovers len := (congrArg FileReceiver.state h2.1).trans hst
          have hneed : 0 < frameHeaderSize - len := by
            by_contra hno
            have hz : frameHeaderSize - len = 0 := by omega
            rw [hz] at hslice
            cases hslice
          simp only [RecvState.partialHeader.injEq] at hlen
          omega
        · obtain ⟨buf, -, h2⟩ := bind_eq_ok.mp hp
          rcases onFrame_cases h2 with ⟨response, r1, fs1, h3⟩ | ⟨n, h3⟩
          · cases h3
          · cases h3
    · unfold receiveIter at hp
      simp only [hst] at hp
      split at hp
      · cases hp
      · rename_i hle
        split at hp
        · obtain ⟨buf, -, h2⟩ := bind_eq_ok.mp hp
          cases h2
        · rename_i rem hslice
          obtain ⟨hge, hle1, hrem⟩ := slice?_eq_some hslice
          obtain ⟨buf, -, h2⟩ := bind_eq_ok.mp hp
          rcases onFrame_cases h2 with ⟨response, r2, fs2, h3⟩ | ⟨n, h3⟩
          · cases h3
          · simp only [Pass.next.injEq] at h3
            obtain ⟨rfl, rfl, rfl⟩ := h3
            have hpos : rem.length = 0 ∨ rem.length = 1 := by
              simp only [List.length_singleton] at hle1
              omega
            rcases hpos with h0 | h0
            · rw [h0] at h1 hrem
              rcases receive_byte_data rfl h1 with h4 | ⟨buf', h4⟩
              · exact absurd (congrArg List.length h4) (by simp)
              · have := hst.symm.trans h4
                simp only [RecvState.partialHeader.injEq] at this
                simp only [frameHeaderSize] at hrem
                omega
            · rw [h0] at h1
              have hend := (receiveFrom_end (Nat.le_refl _)).symm.trans h1
              simp only [Except.ok.injEq, Prod.mk.injEq, true_and] at hend
              have := (congrArg FileReceiver.state hend.1).trans hst
              cases this

end FileReceiver

theorem wrte_harmless {env : Env} {d : Dev} {h : AdbHeader} {payload : Bytes} {st : Stream}
    (hc : h.command = .wrte) (hs : d.streams.get h.arg1 = some st)
    (hh : Harmless env d h (some payload)) :
    ∃ e, onWrte env d.version h.arg1 d.os st payload = .ok e ∧ e.stream = some st ∧ e.os = d.os := by
  obtain ⟨d', hd, hst, hos, -⟩ := hh
  simp only [Dev.handleCommand, hc, Dev.handleCommandWrte_eq] at hd
  obtain ⟨d1, h1, h2⟩ := bind_eq_ok.mp hd
  have hsend := Dev.Sends.of_emit h1
  have hs1 : d1.streams.get h.arg1 = some st := by
    rw [hsend.streams]
    exact hs
  rw [hs1, hsend.version, hsend.os] at h2
  obtain ⟨e, he, ha⟩ := bind_eq_ok.mp h2
  obtain ⟨hput, -, hos'⟩ := Dev.emitAll_frame ha
  refine ⟨e, he, ?_, hos'.symm.trans hos⟩
  have hself : d'.streams.get h.arg1 = e.stream := by
    rw [hput]
    exact StreamManager.get_put_self ..
  rw [← hself, hst]
  exact hs

theorem send_ne (os : Os) (c : Nat) {data : Bytes} (h : data ≠ []) : os.send c data ≠ os := by
  intro he
  have hin : ((os.send c data).channels c).input = (os.channels c).input ++ data := by
    simp [Os.send, Os.setChannel]
  rw [he] at hin
  exact h (List.self_eq_append_right.mp hin)

theorem writeLoop_byte (os : Os) (socket : Nat) (b : UInt8) :
    ForwardService.writeLoop {} socket 0 os [b] = (.ok (), os.send socket [b]) := by
  rw [ForwardService.writeLoop, dif_neg (fun h => nomatch h)]
  simp only [List.length_singleton]
  have hn : max 1 (min 65536 1) = 1 := rfl
  rw [hn, ForwardService.writeLoop]
  exact dif_pos rfl

/-- The payload that shows that a stream was reached. -/
def probe : SyncState → Bytes
  | .receiving _ => [0]
  | _ => le32 idQuit ++ le32 0

def wrteOf (localId remoteId : UInt32) (payload : Bytes) : AdbHeader :=
  ⟨.wrte, remoteId, localId, UInt32.ofNat payload.length, 0, Command.wrte.toU32 ^^^ 0xffffffff⟩

theorem proper_wrteOf (a b : UInt32) {payload : Bytes} (h0 : payload ≠ [])
    (h : payload.length < 2 ^ 32) : Proper (wrteOf a b payload) (some payload) := by
  have hn : (wrteOf a b payload).dataLength.toNat = payload.length := UInt32.toNat_ofNat_of_lt' h
  refine ⟨hn.symm, ?_, fun _ => rfl, fun hc => nomatch hc⟩
  rw [hn]
  exact ⟨fun _ => List.length_pos_iff.mpr h0, fun _ => rfl⟩

theorem proper_bare (c : Command) (a b : UInt32) (hc : c ≠ .wrte) : Proper (bareHeader c a b) none :=
  ⟨rfl, by simp [bareHeader], fun h => absurd h hc, fun _ => rfl⟩

theorem onSync_probe {v : ProtocolVersion} {i : UInt32} {os : Os} {st : Stream} {e : Effect}
    {svc : SyncService} (hsv : st.service = .sync svc)
    (h : onSync {} v i os st svc (probe svc.state) = .ok e) : e.stream ≠ some st := by
  intro hkept
  have hquit : ∀ state, (∀ r, state ≠ .receiving r) → svc.state = state →
      svc.handle {} os.fs (le32 idQuit ++ le32 0) = .ok (.quit, svc, os.fs) := by
    intro state hno hst
    rw [SyncService.handle_request (fun r => by rw [hst]; exact hno r)]
    unfold SyncService.handleRequest
    rw [parseSyncPacket_quit]
  obtain ⟨⟨result, svc', fs'⟩, hh, h1⟩ := bind_eq_ok.mp h
  cases hst : svc.state with
  | idle =>
    rw [hst] at hh
    have hq := hquit .idle (fun r => nofun) hst
    cases hh.symm.trans hq
    cases h1
    cases hkept
  | sending sender =>
    rw [hst] at hh
    have hq := hquit (.sending sender) (fun r => nofun) hst
    cases hh.symm.trans hq
    cases h1
    cases hkept
  | receiving r =>
    rw [hst] at hh
    have hreach : svc.reaches {} os.fs [0] = some (r, os.fs, [0]) := by
      unfold SyncService.reaches
      rw [hst]
    obtain ⟨res, r', hrec, hafter⟩ := SyncService.handle_reaches hreach hh
    obtain ⟨result0, svc0, fs0, hh0, -, hstream, -, -⟩ := onSync_receiver h
    rw [hst] at hh0
    cases hh.symm.trans hh0
    have hsame : svc'.receiver = some r := by
      have hq : result ≠ .quit := by
        rintro rfl
        cases res with
        | «continue» => cases hafter.1
        | done response => cases hafter.1
      rw [← hstream hq, hkept]
      show st.service.receiver = some r
      rw [hsv]
      show svc.receiver = some r
      unfold SyncService.receiver
      rw [hst]
    cases res with
    | «continue» =>
      have hr := hafter.2.symm.trans hsame
      exact FileReceiver.receive_byte_ne hrec (Option.some.inj hr)
    | done response =>
      have hr := hafter.2.symm.trans hsame
      cases hr

/-- **Some WRTE for a live id is not harmless**, whatever host id it carries. -/
theorem wrte_harmful {d : Dev} {a b : UInt32} {st : Stream} (hs : d.streams.get a = some st) :
    ∃ env payload, Proper (wrteOf a b payload) (some payload) ∧
      ¬ Harmless env d (wrteOf a b payload) (some payload) := by
  have hbyte : Proper (wrteOf a b [0]) (some [0]) := proper_wrteOf a b (List.cons_ne_nil _ _) (by decide)
  cases hsv : st.service with
  | reboot =>
    refine ⟨{}, [0], hbyte, fun hh => ?_⟩
    obtain ⟨e, he, -⟩ := wrte_harmless rfl hs hh
    unfold onWrte at he
    rw [hsv] at he
    cases he
  | shell sh =>
    refine ⟨{}, [0], hbyte, fun hh => ?_⟩
    obtain ⟨e, he, -, hos⟩ := wrte_harmless rfl hs hh
    unfold onWrte at he
    rw [hsv] at he
    cases he
    have hne : ([0] : Bytes) ≠ [] := List.cons_ne_nil _ _
    exact send_ne d.os sh.master hne hos
  | forward fwd =>
    refine ⟨{}, [0], hbyte, fun hh => ?_⟩
    obtain ⟨e, he, -, hos⟩ := wrte_harmless rfl hs hh
    simp only [onWrte, hsv, ForwardService.writeInput, writeLoop_byte] at he
    cases he
    have hne : ([0] : Bytes) ≠ [] := List.cons_ne_nil _ _
    exact send_ne d.os fwd.socket hne hos
  | sync svc =>
    have hlen : probe svc.state ≠ [] ∧ (probe svc.state).length < 2 ^ 32 := by
      have hquit : le32 idQuit ++ le32 0 ≠ [] ∧ (le32 idQuit ++ le32 0).length < 2 ^ 32 := by
        decide +kernel
      cases svc.state with
      | idle => exact hquit
      | sending sender => exact hquit
      | receiving r => exact ⟨List.cons_ne_nil _ _, Nat.one_lt_two_pow (by decide)⟩
    refine ⟨{}, probe svc.state, proper_wrteOf a b hlen.1 hlen.2, fun hh => ?_⟩
    obtain ⟨e, he, hst, -⟩ := wrte_harmless rfl hs hh
    simp only [onWrte, hsv] at he
    exact onSync_probe hsv he hst

/-! ## Routing -/

/-- **Messages whose pair is not live.** For every state of the device and every
such pair, the well-formed messages of a command are all harmless if and only if
no stream has the device id and a WRTE finds a slot for its acknowledgement, or
the command is OKAY and the stream is a sync stream that neither waits for one
nor sends a file. A WRTE without a payload and an OKAY with one are never
harmless. -/
theorem routed_by_both_iff (d : Dev) {c : Command} (hc : c = .wrte ∨ c = .okay ∨ c = .clse)
    {localId remoteId : UInt32} (hpair : ¬ d.Live localId remoteId) :
    ((∀ env h p, h.command = c → h.arg0 = remoteId → h.arg1 = localId → Proper h p →
        Harmless env d h p) ↔ Spared d c localId) ∧
      ∀ env h p, h.command = c → (c = .wrte ∧ p = none) ∨ (c = .okay ∧ p.isSome) →
        ¬ Harmless env d h p := by
  refine ⟨?_, fun env h p hcmd himp => ?_⟩
  · cases hs : d.streams.get localId with
    | none =>
      unfold Spared
      rw [hs]
      constructor
      · rintro hall rfl
        have hp : Proper (wrteOf localId remoteId [0]) (some [0]) :=
          proper_wrteOf localId remoteId (fun h => nomatch h) (by decide)
        obtain ⟨d', hd, -⟩ := hall {} _ _ rfl rfl rfl hp
        simp only [Dev.handleCommand, wrteOf, Dev.handleCommandWrte_eq] at hd
        obtain ⟨d1, h1, -⟩ := bind_eq_ok.mp hd
        have hslot : (d.log (.heard (wrteOf localId remoteId [0]) (some [0]))).HasSlot :=
          Dev.emit_bare_ok_iff.mp ⟨d1, h1⟩
        exact hslot
      · rintro hroom env h p rfl rfl rfl hp
        exact harmless_of_none hc hp hs hroom
    | some st =>
      have hne : st.remoteId ≠ remoteId := fun he => hpair ⟨st, hs, he⟩
      unfold Spared
      rw [hs]
      rcases hc with rfl | rfl | rfl
      · refine ⟨fun hall => ?_, fun hsp => nomatch hsp.1⟩
        obtain ⟨env, payload, hp, hno⟩ := wrte_harmful hs
        exact absurd (hall env _ _ rfl rfl rfl hp) hno
      · refine ⟨fun hall => ⟨rfl, ?_⟩, ?_⟩
        · have hp : Proper (bareHeader .okay remoteId localId) none :=
            proper_bare .okay remoteId localId (fun hc => nomatch hc)
          exact (okay_harmless_iff rfl hs).mp (hall {} _ _ rfl rfl rfl hp)
        · rintro ⟨-, hsp⟩ env h p hcmd rfl rfl hp
          rw [hp.okay hcmd]
          exact (okay_harmless_iff hcmd hs).mpr hsp
      · refine ⟨fun hall => ?_, fun hsp => nomatch hsp.1⟩
        have hp : Proper (bareHeader .clse remoteId localId) none :=
          proper_bare .clse remoteId localId (fun hc => nomatch hc)
        exact absurd (hall {} _ _ rfl rfl rfl hp) (clse_harmful rfl hs hne)
  · rcases himp with ⟨rfl, rfl⟩ | ⟨rfl, hp⟩
    · exact not_harmless_of_error (e := .wrtePayload) (by simp only [Dev.handleCommand, hcmd])
    · obtain ⟨payload, rfl⟩ := Option.isSome_iff_exists.mp hp
      exact not_harmless_of_error (e := .okayPayload) (by simp only [Dev.handleCommand, hcmd])

/-- With an idle sync stream open as 7 of the host and 1 of the device, neither a WRTE for
9 and 2 nor an OKAY for 9 and 1 does harm. -/
theorem routed_by_both_iff_sync : ∃ s, Reach Sys.step (fun _ _ => True) Sys.fresh s ∧
    s.dev.Live 1 7 ∧
    (∀ env h p, h.command = .wrte → h.arg0 = 9 → h.arg1 = 2 → Proper h p → Harmless env s.dev h p) ∧
    ∀ env h p, h.command = .okay → h.arg0 = 9 → h.arg1 = 1 → Proper h p → Harmless env s.dev h p := by
  have hplay : (Sys.fresh.play (fun _ _ => true) Sys.openSync).map (fun s =>
      (s.dev.streams.get 1, s.dev.streams.get 2, decide s.dev.HasSlot)) =
        some (some ⟨7, .sync ⟨.idle⟩, false, false⟩, none, true) := by
    decide +kernel
  obtain ⟨s, hs, he⟩ := Option.map_eq_some_iff.mp hplay
  simp only [Prod.mk.injEq, decide_eq_true_eq] at he
  obtain ⟨hst, hnone, hslot⟩ := he
  have hunknown : ¬ s.dev.Live 2 9 := by
    rintro ⟨st, hst', -⟩
    cases hnone.symm.trans hst'
  have hother : ¬ s.dev.Live 1 9 := by
    rintro ⟨st, hst', hr⟩
    cases hst.symm.trans hst'
    exact absurd hr (by decide)
  have hwrte : Spared s.dev .wrte 2 := by
    unfold Spared
    rw [hnone]
    exact fun _ => hslot
  have hokay : Spared s.dev .okay 1 := by
    unfold Spared
    rw [hst]
    exact ⟨rfl, rfl, _, rfl, fun sender => by rintro ⟨⟩⟩
  exact ⟨s, Sys.reach_of_play (fun _ _ _ => trivial) hs, ⟨_, hst, rfl⟩,
    (routed_by_both_iff s.dev (.inl rfl) hunknown).1.mpr hwrte,
    (routed_by_both_iff s.dev (.inr (.inl rfl)) hother).1.mpr hokay⟩

/-- With a shell open as the stream 7 of the host and 1 of the device, messages
for the pair of 9 and 1: a CLSE panics, an OKAY starts a second read and a WRTE
is written to the shell. -/
theorem wrong_pair_taken : ∃ s, Reach Sys.step (fun _ _ => True) Sys.fresh s ∧ ¬ s.dev.Live 1 9 ∧
    ¬ Harmless {} s.dev (bareHeader .clse 9 1) none ∧
    ¬ Harmless {} s.dev (bareHeader .okay 9 1) none ∧
    ¬ Harmless {} s.dev (wrteOf 1 9 [0]) (some [0]) := by
  have hplay : (Sys.fresh.play (fun _ _ => true) Sys.openShell).map (fun s => s.dev.streams.get 1) =
      some (some ⟨7, .shell ⟨0, []⟩, false, false⟩) := by
    decide +kernel
  obtain ⟨s, hs, hst⟩ := Option.map_eq_some_iff.mp hplay
  refine ⟨s, Sys.reach_of_play (fun _ _ _ => trivial) hs, ?_, ?_, ?_, ?_⟩
  · rintro ⟨st, hst', hr⟩
    cases hst.symm.trans hst'
    exact absurd hr (by decide)
  · exact clse_harmful rfl hst (by decide)
  · intro hh
    obtain ⟨-, svc, hsv, -⟩ := (okay_harmless_iff rfl hst).mp hh
    cases hsv
  · intro hh
    obtain ⟨e, he, -, hos⟩ := wrte_harmless rfl hst hh
    cases he
    have hne : ([0] : Bytes) ≠ [] := List.cons_ne_nil _ _
    exact send_ne s.dev.os 0 hne hos

end Adibi
