import Adibi.Inversion
import Adibi.Reads

/-!
# The life of a stream on the wire

What the device says under one of its ids: the OKAY that answers the OPEN, then
WRTEs and OKAYs, then at most one CLSE, all of them to the host's id of the OPEN
(`Life`). A WRTE of the host is acknowledged before the stream is looked up, so
the order holds as long as every WRTE names a live stream (`WrtesLive`).
-/

namespace Adibi

open Lib

/-- What a message says on stream `i`: its command, and the host's id. -/
def saidOn (i : UInt32) (m : AdbHeader × Bytes) : Option (Command × UInt32) :=
  if m.1.command ≠ .cnxn ∧ m.1.arg0 = i then some (m.1.command, m.1.arg1) else none

/-- Everything the device has said under the id `i`, in order. -/
def Dev.said (d : Dev) (i : UInt32) : List (Command × UInt32) := d.sent.filterMap (saidOn i)

/-- An OKAY, then WRTEs and OKAYs, all to the host's stream `r`. -/
def Alive (r : UInt32) (l : List (Command × UInt32)) : Prop :=
  ∃ mid, l = (.okay, r) :: mid ∧ ∀ m ∈ mid, (m.1 = .wrte ∨ m.1 = .okay) ∧ m.2 = r

/-- The life of a stream: an OKAY, then WRTEs and OKAYs, then at most one CLSE,
all to the host's stream `r`. -/
def Life (r : UInt32) (l : List (Command × UInt32)) : Prop :=
  ∃ mid ending, l = (.okay, r) :: mid ++ ending ∧
    (∀ m ∈ mid, (m.1 = .wrte ∨ m.1 = .okay) ∧ m.2 = r) ∧ (ending = [] ∨ ending = [(.clse, r)])

theorem Alive.life {r : UInt32} {l : List (Command × UInt32)} (h : Alive r l) : Life r l := by
  obtain ⟨mid, rfl, hm⟩ := h
  exact ⟨mid, [], by simp, hm, .inl rfl⟩

theorem Alive.closed {r : UInt32} {l : List (Command × UInt32)} (h : Alive r l) :
    Life r (l ++ [(.clse, r)]) := by
  obtain ⟨mid, rfl, hm⟩ := h
  exact ⟨mid, _, rfl, hm, .inr rfl⟩

theorem Alive.append {r : UInt32} {l more : List (Command × UInt32)} (h : Alive r l)
    (hm : ∀ m ∈ more, (m.1 = .wrte ∨ m.1 = .okay) ∧ m.2 = r) : Alive r (l ++ more) := by
  obtain ⟨mid, rfl, hmid⟩ := h
  refine ⟨mid ++ more, rfl, fun m hin => ?_⟩
  rcases List.mem_append.mp hin with hin | hin
  · exact hmid m hin
  · exact hm m hin

/-! ## What an effect says -/

/-- An effect keeps the stream, saying at most a WRTE, or ends it with a CLSE. -/
inductive Speaks (i : UInt32) (st : Stream) (e : Effect) : Prop where
  | kept {st' : Stream} (hst : e.stream = some st') (hr : st'.remoteId = st.remoteId)
      (hs : ∀ m ∈ e.outs.filterMap Out.message?,
        m.1.command = .wrte ∧ m.1.arg0 = i ∧ m.1.arg1 = st.remoteId)
      (hone : (e.outs.filterMap Out.message?).length ≤ 1)
  | closed (hst : e.stream = none) (hs : e.outs = [clseOut i st.remoteId])

section

variable {env : Env} {v : ProtocolVersion} {i : UInt32} {os : Os} {st : Stream} {e : Effect}

theorem Speaks.silent {st' : Stream} (hr : st'.remoteId = st.remoteId) :
    Speaks i st ⟨some st', os, []⟩ := .kept rfl hr (fun _ hm => nomatch hm) (Nat.zero_le 1)

theorem Speaks.reads {op : UserDataOpType} {o : Out} {st' : Stream} (hr : st'.remoteId = st.remoteId)
    (ho : readOut op i = .ok o) : Speaks i st ⟨some st', os, [o]⟩ := by
  obtain ⟨u, rfl, -⟩ := readOut_ok ho
  exact .kept rfl hr (fun _ hm => nomatch hm) (Nat.zero_le 1)

theorem Speaks.wrte {data : Bytes} {o : Out} {st' : Stream} (hr : st'.remoteId = st.remoteId)
    (ho : wrteOut v i st.remoteId data = .ok o) : Speaks i st ⟨some st', os, [o]⟩ := by
  obtain ⟨hd, rfl, hc, h0, h1⟩ := wrteOut_ok ho
  refine .kept rfl hr (fun m hm => ?_) (Nat.le_refl 1)
  rw [List.mem_singleton.mp hm]
  exact ⟨hc, h0, h1⟩

theorem continueSync_speaks (h : continueSync env v i os st = .ok e) : Speaks i st e := by
  rcases continueSync_cases h with ⟨rfl, -⟩ | ⟨-, _, _, _, _, o, -, -, ho, rfl⟩ |
    ⟨-, _, _, -, -, rfl⟩
  · exact .silent rfl
  · exact .wrte rfl ho
  · exact .silent rfl

theorem onOkay_speaks (h : onOkay env v i os st = .ok e) : Speaks i st e := by
  unfold onOkay at h
  simp only at h
  split at h
  · rcases continueSync_speaks h with ⟨hst, hr, hs, hone⟩ | ⟨hst, hs⟩
    · exact .kept hst hr hs hone
    · exact .closed hst hs
  · obtain ⟨o, ho, h1⟩ := bind_eq_ok.mp h
    cases h1
    exact .reads rfl ho
  · obtain ⟨o, ho, h1⟩ := bind_eq_ok.mp h
    cases h1
    exact .reads rfl ho
  · cases h

theorem written_speaks (r : Except IoError Unit × Os) : Speaks i st (written i st r) := by
  unfold written
  split
  · exact .silent rfl
  · exact .closed rfl rfl

theorem onWrte_speaks {payload : Bytes} (h : onWrte env v i os st payload = .ok e) :
    Speaks i st e := by
  unfold onWrte at h
  split at h
  · obtain ⟨⟨result, svc, fs⟩, -, h1⟩ := bind_eq_ok.mp h
    cases result with
    | stat stat =>
      obtain ⟨o, ho, h2⟩ := bind_eq_ok.mp h1
      cases h2
      exact .wrte rfl ho
    | data hdr data =>
      obtain ⟨o, ho, h2⟩ := bind_eq_ok.mp h1
      cases h2
      exact .wrte rfl ho
    | quit =>
      cases h1
      exact .closed rfl rfl
    | «continue» =>
      rcases continueSync_speaks h1 with ⟨hst, hr, hs, hone⟩ | ⟨hst, hs⟩
      · exact .kept hst hr hs hone
      · exact .closed hst hs
  · cases h
    exact written_speaks _
  · cases h
    exact written_speaks _
  · cases h

theorem onClse_speaks {r : UInt32} (h : onClse env i os st r = .ok e) : Speaks i st e := by
  rcases onClse_cases h with ⟨-, hst, ho⟩ | ⟨-, hst, ho⟩
  · exact .kept hst rfl (by rw [ho]; exact fun _ hm => nomatch hm) (by rw [ho]; exact Nat.zero_le 1)
  · exact .closed hst ho

theorem onRead_speaks {op : UserDataOpType} {res : Int} (h : onRead v i os st op res = .ok e) :
    Speaks i st e := by
  unfold onRead at h
  split at h
  · cases h
    exact .closed rfl rfl
  · split at h
    · cases h
      exact .silent rfl
    · obtain ⟨o, ho, h1⟩ := bind_eq_ok.mp h
      cases h1
      exact .wrte rfl ho

end

/-! ## One stream -/

/-- A stream's entry, what was said under its id and the host's ids of the OPENs
answered with it, all in agreement. -/
def OnWire (stream : Option Stream) (said : List (Command × UInt32)) (remotes : List UInt32) : Prop :=
  match stream with
  | some st => remotes = [st.remoteId] ∧ Alive st.remoteId said
  | none => (remotes = [] ∧ said = []) ∨
      ∃ r l, remotes = [r] ∧ Alive r l ∧ said = l ++ [(.clse, r)]

section

variable {st : Stream} {said : List (Command × UInt32)} {remotes : List UInt32} {i : UInt32}

theorem OnWire.okay (h : OnWire (some st) said remotes) :
    OnWire (some st) (said ++ [(.okay, st.remoteId)]) remotes := by
  refine ⟨h.1, h.2.append fun m hm => ?_⟩
  rw [List.mem_singleton.mp hm]
  exact ⟨.inr rfl, rfl⟩

theorem OnWire.effect {e : Effect} (h : OnWire (some st) said remotes) (hs : Speaks i st e) :
    OnWire e.stream (said ++ (e.outs.filterMap Out.message?).filterMap (saidOn i)) remotes := by
  cases hs with
  | kept hst hr hm =>
    rw [hst]
    refine ⟨by rw [hr]; exact h.1, ?_⟩
    rw [hr]
    refine h.2.append fun m hin => ?_
    obtain ⟨a, ha, hsaid⟩ := List.mem_filterMap.mp hin
    obtain ⟨hc, h0, h1⟩ := hm a ha
    simp only [saidOn, hc, h0, h1] at hsaid
    cases hsaid
    exact ⟨.inl rfl, rfl⟩
  | closed hst ho =>
    rw [hst, ho]
    refine .inr ⟨st.remoteId, said, h.1, h.2, ?_⟩
    simp [clseOut, Out.message?, saidOn, bareHeader]

theorem OnWire.life {stream : Option Stream} (h : OnWire stream said remotes) :
    (remotes = [] ∧ said = []) ∨ ∃ r, remotes = [r] ∧ Life r said := by
  cases stream with
  | some st => exact .inr ⟨st.remoteId, h.1, h.2.life⟩
  | none =>
    rcases h with h | ⟨r, l, hr, hl, rfl⟩
    · exact .inl h
    · exact .inr ⟨r, hr, hl.closed⟩

end

/-! ## Runs -/

/-- The stream an event opens: the device's id and the host's. -/
def Sys.opening (s : Sys) (e : Event) : List (UInt32 × UInt32) :=
  match s.act e s.nextId with
  | .opened r _ => [(s.nextId, r)]
  | _ => []

/-- The host's ids of the OPENs answered with the id `i`. -/
def remotesOf (i : UInt32) (opened : List (UInt32 × UInt32)) : List UInt32 :=
  (opened.filter (·.1 = i)).map Prod.snd

/-- A WRTE that the event dispatches names a live stream by both ids. Under the
id zero, which no stream has, nothing is promised. -/
def WrtesLive (s : Sys) (e : Event) : Prop :=
  ∀ env h p, e = .handle env → s.incoming = some (h, p) → h.command = .wrte → h.arg1 ≠ 0 →
    ∃ st, s.dev.streams.get h.arg1 = some st ∧ st.remoteId = h.arg0

namespace Dev

variable {d d' : Dev} {i j : UInt32} {remotes : List UInt32}

theorem Same.said (h : d.Same d') (i : UInt32) : d'.said i = d.said i := by
  unfold Dev.said
  rw [h.sent]

theorem Sends.said {m : AdbHeader × Bytes} (h : d.Sends m d') (i : UInt32) :
    d'.said i = d.said i ++ (saidOn i m).toList := by
  unfold Dev.said
  rw [h.sent, List.filterMap_append]
  cases hm : saidOn i m <;> simp [hm]

theorem Speaks.other {st : Stream} {e : Effect} (h : Speaks j st e) (hij : i ≠ j) :
    (e.outs.filterMap Out.message?).filterMap (saidOn i) = [] := by
  refine List.filterMap_eq_nil_iff.mpr fun m hm => ?_
  have h0 : m.1.arg0 = j := by
    cases h with
    | kept _ _ hs _ => exact (hs m hm).2.1
    | closed _ hs =>
      rw [hs] at hm
      rw [List.mem_singleton.mp hm]
      rfl
  simp [saidOn, h0, Ne.symm hij]

theorem Effected.onWire {f : Stream → Except Panic Effect} (h : d.Effected j f d')
    (hf : ∀ st e, f st = .ok e → Speaks j st e)
    (hw : OnWire (d.streams.get i) (d.said i) remotes) :
    OnWire (d'.streams.get i) (d'.said i) remotes := by
  cases h with
  | gone hs hd =>
    rw [hd.streams, hd.said]
    exact hw
  | effect hs he hst hv hos hin hse =>
    have hsp := hf _ _ he
    unfold Dev.said at hw ⊢
    rw [hst, hse, List.filterMap_append]
    by_cases hij : i = j
    · subst hij
      rw [hs] at hw
      rw [StreamManager.get_put_self]
      exact hw.effect hsp
    · rw [StreamManager.get_put_ne hij, Speaks.other hsp hij, List.append_nil]
      exact hw

theorem Effected.get_none {f : Stream → Except Panic Effect} (h : d.Effected j f d')
    (hi : d.streams.get i = none) : d'.streams.get i = none := by
  cases h with
  | gone hs hd =>
    rw [hd.streams]
    exact hi
  | effect hs he hst hv hos hin hse =>
    have hij : i ≠ j := fun e => by
      rw [e, hs] at hi
      cases hi
    rw [hst, StreamManager.get_put_ne hij]
    exact hi

end Dev

namespace Sys

variable {s s' : Sys} {e : Event} {opened : List (UInt32 × UInt32)}

/-- Every stream of the run so far is where its life says. -/
structure Wired (s : Sys) (opened : List (UInt32 × UInt32)) : Prop where
  on : ∀ i, i ≠ 0 → OnWire (s.dev.streams.get i) (s.dev.said i) (remotesOf i opened)
  fresh : ∀ i : UInt32, s.nextId.toNat ≤ i.toNat →
    s.dev.streams.get i = none ∧ remotesOf i opened = []
  pos : s.nextId ≠ 0

theorem Wired.kept (h : s.Wired opened) (hid : s'.nextId = s.nextId)
    (hget : ∀ i, s.dev.streams.get i = none → s'.dev.streams.get i = none)
    (hon : ∀ i, i ≠ 0 → OnWire (s'.dev.streams.get i) (s'.dev.said i) (remotesOf i opened)) :
    s'.Wired opened := by
  refine ⟨hon, fun i hi => ?_, by rw [hid]; exact h.pos⟩
  rw [hid] at hi
  obtain ⟨h1, h2⟩ := h.fresh i hi
  exact ⟨hget i h1, h2⟩

theorem Wired.silent (h : s.Wired opened) (hst : s'.dev.streams = s.dev.streams)
    (hsaid : ∀ i, i ≠ 0 → s'.dev.said i = s.dev.said i) : s'.Wired opened := by
  refine h.kept (by rw [nextId, hst]; rfl) (fun i hi => by rw [hst]; exact hi) fun i hi => ?_
  rw [hst, hsaid i hi]
  exact h.on i hi

theorem Wired.opens (h : s.Wired opened) {svc : Service} {os : Os} {r : UInt32}
    (hn : s.nextId.toNat + 1 < 2 ^ 32)
    (hd : (s.dev.added svc os r).Sends (bareHeader .okay s.nextId r, []) s'.dev) :
    s'.Wired (opened ++ [(s.nextId, r)]) := by
  have hnext : s'.nextId.toNat = s.nextId.toNat + 1 := hd.nextId_added hn
  have hsaid := hd.said
  have hadd : ∀ i, (s.dev.added svc os r).said i = s.dev.said i := fun _ => rfl
  have hself : s'.dev.streams.get s.nextId = some ⟨r, svc, false, false⟩ := by
    rw [hd.streams]
    exact StreamManager.get_put_self ..
  have hother : ∀ i, i ≠ s.nextId → s'.dev.streams.get i = s.dev.streams.get i := fun i hi => by
    rw [hd.streams]
    exact StreamManager.get_put_ne hi ⟨s.dev.streams.streams, s.nextId + 1⟩ _
  have hrem : ∀ i, i ≠ s.nextId → remotesOf i (opened ++ [(s.nextId, r)]) = remotesOf i opened :=
    fun i hi => by simp [remotesOf, List.filter_append, Ne.symm hi]
  refine ⟨fun i hi => ?_, fun i hi => ?_, fun e => ?_⟩
  · by_cases hin : i = s.nextId
    · subst hin
      obtain ⟨hnone, hnil⟩ := h.fresh s.nextId (Nat.le_refl _)
      have hw := h.on s.nextId hi
      rw [hnone, hnil] at hw
      have hempty : s.dev.said s.nextId = [] := by
        rcases hw with h | ⟨r, l, hr, -⟩
        · exact h.2
        · cases hr
      rw [hself, hsaid, hadd, hempty]
      refine ⟨?_, [], ?_, fun _ hm => nomatch hm⟩
      · rw [remotesOf, List.filter_append]
        rw [remotesOf, List.map_eq_nil_iff] at hnil
        simp [hnil]
      · simp [saidOn, bareHeader]
    · have hsay : saidOn i (bareHeader .okay s.nextId r, []) = none := by
        simp [saidOn, bareHeader, Ne.symm hin]
      rw [hother i hin, hsaid, hadd, hsay, hrem i hin]
      simpa using h.on i hi
  · have hne : i ≠ s.nextId := fun e => by
      rw [e] at hi
      omega
    rw [hother i hne, hrem i hne]
    exact h.fresh i (by omega)
  · rw [e] at hnext
    simp at hnext

theorem act_message {env : Env} {h : AdbHeader} {p : Option Bytes} (he : s.ending = none)
    (hi : s.incoming = some (h, p)) (i : UInt32) :
    s.act (.handle env) i = s.dev.actOf env h p i := by
  simp only [act, he, hi]

theorem opening_nil (h : ∀ r svc, s.act e s.nextId ≠ .opened r svc) : s.opening e = [] := by
  unfold opening
  split
  · rename_i r svc hact
    exact absurd hact (h r svc)
  · rfl

theorem opening_message {env : Env} {h : AdbHeader} {p : Option Bytes} (he : s.ending = none)
    (hi : s.incoming = some (h, p)) (hc : h.command ≠ .open) : s.opening (.handle env) = [] := by
  refine opening_nil fun r svc hact => hc ?_
  rw [act_message he hi] at hact
  exact (Dev.actOf_opened hact).1

/-- A dispatched message keeps every stream's life. -/
theorem Wired.message {env : Env} {hdr : AdbHeader} {p : Option Bytes} (h : s.Wired opened)
    (hlive : WrtesLive s (.handle env)) (he : s.ending = none) (hi : s.incoming = some (hdr, p))
    (hd : s.dev.Dispatched env hdr p s'.dev) : s'.Wired (opened ++ s.opening (.handle env)) := by
  cases hd with
  | ignored hc hd =>
    rw [opening_message he hi (by rcases hc with h | h <;> rw [h] <;> decide), List.append_nil]
    exact h.silent hd.streams fun i _ => hd.said i
  | @cnxn r hc hr hd =>
    rw [opening_message he hi (by rw [hc]; decide), List.append_nil]
    refine h.silent hd.streams fun i _ => ?_
    have hsay : saidOn i (r, systemIdentity s.dev.info) = none := by
      simp [saidOn, (headerFromPayload_ok hr).1]
    rw [hd.said, hsay]
    exact List.append_nil _
  | refused hc ho hd =>
    have hno : s.opening (.handle env) = [] := by
      refine opening_nil fun r svc hact => ?_
      rw [act_message he hi] at hact
      simp only [Dev.actOf, hc, ho] at hact
      cases hact
    rw [hno, List.append_nil]
    refine h.silent hd.streams fun i hi => ?_
    have hsay : saidOn i (bareHeader .clse 0 hdr.arg0, []) = none := by
      simp [saidOn, bareHeader, Ne.symm hi]
    rw [hd.said, hsay]
    exact List.append_nil _
  | @opened svc os hc ho hn hd =>
    have hyes : s.opening (.handle env) = [(s.nextId, hdr.arg0)] := by
      unfold opening
      rw [act_message he hi]
      simp [Dev.actOf, hc, ho, nextId]
    rw [hyes]
    exact h.opens hn hd
  | @wrte payload d1 hc hp hd hf =>
    rw [opening_message he hi (by rw [hc]; decide), List.append_nil]
    have hget : d1.streams = s.dev.streams := hd.streams
    refine h.kept (by rw [nextId, hf.nextId, hget]; rfl) (fun i hi => ?_) fun i hi0 => ?_
    · exact hf.get_none (by rw [hget]; exact hi)
    · refine hf.onWire (fun _ _ => onWrte_speaks) ?_
      rw [hget, hd.said]
      by_cases hij : i = hdr.arg1
      · subst hij
        obtain ⟨st, hst, hr⟩ := hlive env hdr p rfl hi hc hi0
        have hw := h.on _ hi0
        rw [hst] at hw ⊢
        have := hw.okay
        rw [hr] at this
        simpa [saidOn, bareHeader] using this
      · have hsay : saidOn i (bareHeader .okay hdr.arg1 hdr.arg0, []) = none := by
          simp [saidOn, bareHeader, Ne.symm hij]
        rw [hsay]
        simpa using h.on i hi0
  | okay hc hf =>
    rw [opening_message he hi (by rw [hc]; decide), List.append_nil]
    exact h.kept hf.nextId (fun i => hf.get_none) fun i hi =>
      hf.onWire (fun _ _ => onOkay_speaks) (h.on i hi)
  | clse hc hf =>
    rw [opening_message he hi (by rw [hc]; decide), List.append_nil]
    exact h.kept hf.nextId (fun i => hf.get_none) fun i hi =>
      hf.onWire (fun _ _ => onClse_speaks) (h.on i hi)

/-- **A step keeps every stream's life.** -/
theorem Wired.step (h : s.Wired opened) (hlive : WrtesLive s e) (hs : s.step e = .ok s') :
    s'.Wired (opened ++ s.opening e) := by
  cases stepped_of_ok hs with
  | quiet ha hd =>
    have hno : s.opening e = [] := by
      refine opening_nil fun r svc hact => ?_
      rw [ha] at hact
      cases hact
    rw [hno, List.append_nil]
    exact h.silent hd.streams fun i _ => hd.said i
  | @filled k bytes place op j st _ ha hst hd =>
    have hno : s.opening (.complete k (.data bytes place)) = [] := by
      refine opening_nil fun r svc hact => ?_
      rw [ha] at hact
      split at hact <;> cases hact
    rw [hno, List.append_nil]
    refine h.kept (by rw [nextId, hd.streams]; rfl) (fun i hi => ?_) fun i hi => ?_
    · have hij : i ≠ j := fun e => by
        rw [e, hst] at hi
        cases hi
      rw [hd.streams, Dev.setStream, StreamManager.get_put_ne hij]
      exact hi
    · have hw := h.on i hi
      rw [hd.streams, hd.said, Dev.setStream]
      by_cases hij : i = j
      · subst hij
        rw [hst] at hw
        rw [StreamManager.get_put_self]
        exact hw
      · rw [StreamManager.get_put_ne hij]
        exact hw
  | @read env op j res _ he hd =>
    have hno : s.opening (.handle env) = [] := by
      refine opening_nil fun r svc hact => ?_
      simp only [act, he] at hact
      split at hact <;> cases hact
    rw [hno, List.append_nil]
    exact h.kept hd.nextId (fun i => hd.get_none) fun i hi =>
      hd.onWire (fun _ _ => onRead_speaks) (h.on i hi)
  | message he hi hd => exact h.message hlive he hi hd

theorem Wired.start (info : DeviceInfo) (os : Os) : (start info os).Wired [] :=
  ⟨fun _ _ => .inl ⟨rfl, rfl⟩, fun _ _ => ⟨rfl, rfl⟩, (by decide : (1 : UInt32) ≠ 0)⟩

end Sys

/-- **The life of a stream on the wire.** In every run whose host writes only to
live streams, what the device says under a non-zero id is nothing as long as no
OPEN was answered with it; else one was, and it is a life to the host's id of
that OPEN. -/
theorem stream_life {info : DeviceInfo} {os : Os} {s : Sys} {opened : List (UInt32 × UInt32)}
    (h : Reach (observed Sys.step Sys.opening) (fun p e => WrtesLive p.1 e) (Sys.start info os, [])
      (s, opened)) {i : UInt32} (hi : i ≠ 0) :
    (remotesOf i opened = [] ∧ s.dev.said i = []) ∨
      ∃ r, remotesOf i opened = [r] ∧ Life r (s.dev.said i) := by
  have hinv : s.Wired opened :=
    h.invariant (I := fun p => p.1.Wired p.2) (.start info os) fun p e q hp hok hs => by
      obtain ⟨h1, h2⟩ := observed_ok hs
      rw [h2]
      exact hp.step hok h1
  exact (hinv.on i hi).life

def wrtesLive (s : Sys) (e : Event) : Bool :=
  match e with
  | .handle _ =>
    match s.incoming with
    | some (h, _) => h.command != .wrte || h.arg1 == 0 ||
        (s.dev.streams.get h.arg1).map Stream.remoteId == some h.arg0
    | none => true
  | _ => true

theorem WrtesLive.of_wrtesLive {s : Sys} {e : Event} (h : wrtesLive s e = true) : WrtesLive s e := by
  rintro env hd p rfl hi hc h0
  have hget : (s.dev.streams.get hd.arg1).map Stream.remoteId = some hd.arg0 := by
    simpa [wrtesLive, hi, hc, h0] using h
  exact Option.map_eq_some_iff.mp hget

def Sys.quitTurns : List Sys.Turn :=
  Sys.openSync ++ Sys.Turn.message .wrte 7 1 (ascii "QUIT" ++ le32 0)

theorem stream_life_quit : ∃ s opened,
    Reach (observed Sys.step Sys.opening) (fun p e => WrtesLive p.1 e) (Sys.fresh, []) (s, opened) ∧
      s.dev.said 1 = [(.okay, 7), (.okay, 7), (.clse, 7)] ∧
      ∃ r, remotesOf 1 opened = [r] ∧ Life r (s.dev.said 1) := by
  have hplay : (Sys.fresh.play wrtesLive Sys.quitTurns).map (fun s => s.dev.said 1) =
      some [(.okay, 7), (.okay, 7), (.clse, 7)] := by
    decide +kernel
  obtain ⟨s, hs, hsaid⟩ := Option.map_eq_some_iff.mp hplay
  have hreach := Sys.reach_of_play (fun _ _ => WrtesLive.of_wrtesLive) hs
  have hhist : ∃ opened, Reach (observed Sys.step Sys.opening) (fun p e => WrtesLive p.1 e)
      (Sys.fresh, []) (s, opened) := hreach.observe
  obtain ⟨opened, hobs⟩ := hhist
  rcases stream_life hobs (show (1 : UInt32) ≠ 0 by decide) with ⟨-, hnil⟩ | hlife
  · rw [hsaid] at hnil
    cases hnil
  · exact ⟨s, opened, hobs, hsaid, hlife⟩

/-- A WRTE of the host that crosses the CLSE of a shell that ended. -/
def Sys.crossingTurns : List Sys.Turn :=
  Sys.openShell ++ [⟨readTag .ptyRead 1, .data [], {}⟩] ++ Sys.Turn.message .wrte 7 1 (ascii "x")

/-- The device acknowledges it on the stream it has closed. -/
theorem okay_after_clse : ∃ s, Reach Sys.step (fun _ _ => True) Sys.fresh s ∧
    s.dev.said 1 = [(.okay, 7), (.clse, 7), (.okay, 7)] ∧ ¬ ∃ r, Life r (s.dev.said 1) := by
  have hplay : (Sys.fresh.play (fun _ _ => true) Sys.crossingTurns).map (fun s => s.dev.said 1) =
      some [(.okay, 7), (.clse, 7), (.okay, 7)] := by
    decide +kernel
  obtain ⟨s, hs, hsaid⟩ := Option.map_eq_some_iff.mp hplay
  refine ⟨s, Sys.reach_of_play (fun _ _ _ => trivial) hs, hsaid, ?_⟩
  rintro ⟨r, mid, ending, hl, hmid, hend⟩
  rw [hsaid] at hl
  have hclse : (Command.clse, (7 : UInt32)) ∉ mid := fun hin => by
    rcases (hmid _ hin).1 with h | h <;> cases h
  rcases hend with rfl | rfl
  · simp only [List.append_nil, List.cons.injEq] at hl
    exact hclse (by rw [← hl.2]; exact List.mem_cons_self)
  · have hlast := congrArg List.getLast? hl
    rw [List.getLast?_concat] at hlast
    cases hlast

end Adibi
