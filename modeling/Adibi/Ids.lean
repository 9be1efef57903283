import Adibi.Lifecycle
import Adibi.OwnReads

/-!
# Stream ids

The device gives ids from a counter and never gives one twice, so what still
names a stream that is gone (a read the kernel holds, a message on its way) names
no stream that came later. The one place where the device says an id that it did
not give is the OKAY for a WRTE, which repeats the host's.
-/

namespace Adibi

open Lib

/-- A WRTE that the event dispatches names an id that was given. -/
def WrtesGiven (s : Sys) (e : Event) : Prop :=
  ∀ env h p, e = .handle env → s.incoming = some (h, p) → h.command = .wrte →
    h.arg1.toNat < s.nextId.toNat

/-- Whether a message is on a stream, whose id on the device is its `arg0`. -/
def Command.ofStream : Command → Bool
  | .okay | .wrte | .clse => true
  | _ => false

/-- The table after `open`: the same, or with a stream under the next id, which none
had before. -/
def OpensFresh (m : StreamManager) (result : Option UInt32) (m' : StreamManager) : Prop :=
  match result with
  | none => m' = m
  | some i => i = m.nextId ∧ m.get i = none ∧ (m'.get i).isSome ∧
      (∀ k, k ≠ i → m'.get k = m.get k) ∧ m'.nextId.toNat = m.nextId.toNat + 1

/-! ## What is said -/

/-- The ids in a list of messages are below `n`. -/
def SaidBelow (n : Nat) (l : List (AdbHeader × Bytes)) : Prop :=
  ∀ m ∈ l, m.1.command.ofStream = true → m.1.arg0.toNat < n

theorem SaidBelow.append {n : Nat} {l l' : List (AdbHeader × Bytes)} (h : SaidBelow n l)
    (h' : SaidBelow n l') : SaidBelow n (l ++ l') := by
  intro m hm
  rcases List.mem_append.mp hm with hm | hm
  · exact h m hm
  · exact h' m hm

theorem SaidBelow.mono {n n' : Nat} {l : List (AdbHeader × Bytes)} (h : SaidBelow n l)
    (hn : n ≤ n') : SaidBelow n' l := fun m hm hc => Nat.lt_of_lt_of_le (h m hm hc) hn

theorem saidBelow_singleton {n : Nat} {m : AdbHeader × Bytes}
    (h : m.1.command.ofStream = true → m.1.arg0.toNat < n) : SaidBelow n [m] := by
  intro m' hm'
  rw [List.mem_singleton.mp hm']
  exact h

theorem Speaks.below {i : UInt32} {st : Stream} {e : Effect} (h : Speaks i st e) {n : Nat}
    (hi : i.toNat < n) : SaidBelow n (e.outs.filterMap Out.message?) := by
  intro m hm _
  cases h with
  | kept _ _ hs _ =>
    rw [(hs m hm).2.1]
    exact hi
  | closed _ hs =>
    rw [hs] at hm
    rw [List.mem_singleton.mp hm]
    exact hi

namespace Dev

variable {d d' : Dev} {j : UInt32} {n : Nat}

theorem Effected.below {f : Stream → Except Panic Effect} (h : d.Effected j f d')
    (hf : ∀ st e, f st = .ok e → Speaks j st e) (hj : (d.streams.get j).isSome → j.toNat < n)
    (hd : SaidBelow n d.sent) : SaidBelow n d'.sent := by
  cases h with
  | gone hs hd' =>
    rw [hd'.sent]
    exact hd
  | effect hs he hst hv hos hin hse =>
    rw [hse]
    exact hd.append ((hf _ _ he).below (hj (by rw [hs]; rfl)))

theorem Sends.below {m : AdbHeader × Bytes} (h : d.Sends m d') (hd : SaidBelow n d.sent)
    (hm : m.1.command.ofStream = true → m.1.arg0.toNat < n) : SaidBelow n d'.sent := by
  rw [h.sent]
  exact hd.append (saidBelow_singleton hm)

end Dev

namespace Sys

variable {s s' : Sys} {e : Event}

theorem OwnReads.given (h : s.OwnReads) {i : UInt32} (hi : (s.dev.streams.get i).isSome) :
    i ≠ 0 ∧ i.toNat < s.nextId.toNat := by
  refine ⟨?_, ?_⟩
  · rintro rfl
    have hnone : s.dev.streams.get 0 = none := h.zero.1
    rw [hnone] at hi
    cases hi
  · by_contra hle
    have hnone : s.dev.streams.get i = none := (h.unborn i (by omega)).1
    rw [hnone] at hi
    cases hi

theorem said_step (h : s.OwnReads) (hg : WrtesGiven s e) (hd : SaidBelow s.nextId.toNat s.dev.sent)
    (hs : s.step e = .ok s') : SaidBelow s'.nextId.toNat s'.dev.sent := by
  have hkey : ∀ j, (s.dev.streams.get j).isSome → j.toNat < s.nextId.toNat :=
    fun j hj => (h.given hj).2
  have hle := nextId_le hs
  cases stepped_of_ok hs with
  | quiet ha hd' =>
    rw [hd'.sent]
    exact hd.mono hle
  | filled ha hst hd' =>
    rw [hd'.sent]
    exact hd.mono hle
  | read he hf => exact (hf.below (fun _ _ => onRead_speaks) (hkey _) hd).mono hle
  | @message env hdr p _ he hi hm =>
    cases hm with
    | ignored hc hd' =>
      rw [hd'.sent]
      exact hd.mono hle
    | @cnxn r hc hr hd' =>
      refine (hd'.below hd fun hcmd => ?_).mono hle
      have hr' : r.command = .cnxn := (headerFromPayload_ok hr).1
      simp only [hr', Command.ofStream] at hcmd
      cases hcmd
    | refused hc ho hd' => exact (hd'.below hd fun _ => h.pos).mono hle
    | @opened svc os hc ho hn hd' =>
      have hnext : s'.nextId.toNat = s.nextId.toNat + 1 := hd'.nextId_added hn
      refine hd'.below (hd.mono hle) fun _ => ?_
      show s.nextId.toNat < s'.nextId.toNat
      omega
    | @wrte payload d1 hc hp hd' hf =>
      have hokay := hd'.below hd fun _ => hg env hdr p rfl hi hc
      refine (hf.below (fun _ _ => onWrte_speaks) (fun hj => ?_) hokay).mono hle
      rw [hd'.streams] at hj
      exact hkey _ hj
    | okay hc hf => exact (hf.below (fun _ _ => onOkay_speaks) (hkey _) hd).mono hle
    | clse hc hf => exact (hf.below (fun _ _ => onClse_speaks) (hkey _) hd).mono hle

/-! ## What names a stream -/

theorem OwnReads.read_given (h : s.OwnReads) {tag : UInt64} (ht : tag ∈ s.outstanding)
    {op : UserDataOpType} (hop : op = .ptyRead ∨ op = .socketRead) {x : Option NonZeroU32}
    (hx : UserData.tryFrom tag = some ⟨op, x⟩) :
    ∃ j : NonZeroU32, x = some j ∧ j.1.toNat < s.nextId.toNat := by
  have htag := UserData.toU64_of_tryFrom hx
  have hreads : ∀ i, tag = readTag op i → (s.view i).reads op ≠ 0 := by
    rintro i rfl
    have hpos : 0 < s.outstanding.count (readTag op i) := List.count_pos_iff.mpr ht
    rcases hop with rfl | rfl <;> exact Nat.ne_of_gt hpos
  cases x with
  | none => exact absurd (h.zero.2 op) (hreads 0 htag.symm)
  | some j =>
    refine ⟨j, rfl, ?_⟩
    have hj : tag = readTag op j.1 := by
      rw [← htag, readTag, NonZeroU32.new_val]
    by_contra hle
    exact hreads j.1 hj ((h.unborn j.1 (by omega)).2 op)

theorem gone_step {j : UInt32} (hj : j.toNat < s.nextId.toNat) (hg : s.dev.streams.get j = none)
    (hs : s.step e = .ok s') : j.toNat < s'.nextId.toNat ∧ s'.dev.streams.get j = none := by
  refine ⟨Nat.lt_of_lt_of_le hj (nextId_le hs), ?_⟩
  have hno : ∀ r svc, s.act e j ≠ .opened r svc := by
    intro r svc ha
    rw [act_opened ha] at hj
    exact absurd hj (Nat.lt_irrefl _)
  cases hst : s'.dev.streams.get j with
  | none => rfl
  | some st' =>
    have hopen : ∃ st, (s.view j).stream = some st := View.step_open hno (step_view hs j) hst
    obtain ⟨st, hget⟩ := hopen
    have hget' : s.dev.streams.get j = some st := hget
    rw [hg] at hget'
    cases hget'

theorem gone_of_reach {j : UInt32} {Ok : Sys → Event → Prop} (hj : j.toNat < s.nextId.toNat)
    (hg : s.dev.streams.get j = none) (h : Reach Sys.step Ok s s') : s'.dev.streams.get j = none :=
  (h.invariant (I := fun t => j.toNat < t.nextId.toNat ∧ t.dev.streams.get j = none) ⟨hj, hg⟩
    fun _ _ _ hi _ hs => gone_step hi.1 hi.2 hs).2

/-- The completion of a read for a stream that is gone does nothing. -/
theorem handle_gone {c : Cqe} {tail : List Cqe} {op : UserDataOpType} {j : NonZeroU32}
    (hb : s.batch = c :: tail) (hop : op = .ptyRead ∨ op = .socketRead)
    (ht : UserData.tryFrom c.userData = some ⟨op, some j⟩) (hg : s.dev.streams.get j.1 = none)
    (env : Env) : s.step (.handle env) = .ok { s with batch := tail } := by
  have hread : (if c.res ≤ 0 then readEnd s.dev j.1 else readRelay s.dev op j.1 c.res.toNat) =
      .ok s.dev := by
    rw [Dev.readDone_eq, hg]
  simp only [step, hb, handleCqe, ht]
  rcases hop with rfl | rfl
  · simp only [← apply_ite ({ s with batch := tail }.lift), hread]
    rfl
  · simp only [← apply_ite ({ s with batch := tail }.lift), hread]
    rfl

/-! ## What is given -/

/-- The ids given so far are distinct, not zero, and below the next. -/
structure Given (s : Sys) (opened : List (UInt32 × UInt32)) : Prop where
  below : ∀ x ∈ opened, x.1 ≠ 0 ∧ x.1.toNat < s.nextId.toNat
  nodup : (opened.map Prod.fst).Nodup
  pos : 0 < s.nextId.toNat

theorem Given.step {opened : List (UInt32 × UInt32)} (h : s.Given opened) (hs : s.step e = .ok s') :
    s'.Given (opened ++ s.opening e) := by
  have hle := nextId_le hs
  have hbelow : ∀ x ∈ opened, x.1 ≠ 0 ∧ x.1.toNat < s'.nextId.toNat :=
    fun x hx => ⟨(h.below x hx).1, Nat.lt_of_lt_of_le (h.below x hx).2 hle⟩
  have hpos := h.pos
  by_cases ho : ∃ r svc, s.act e s.nextId = .opened r svc
  · obtain ⟨r, svc, ha⟩ := ho
    have hnext : s'.nextId.toNat = s.nextId.toNat + 1 := by
      rcases step_nextId hs with ⟨-, hno⟩ | hsucc
      · exact absurd ha (hno s.nextId r svc)
      · exact hsucc
    have hopening : s.opening e = [(s.nextId, r)] := by
      unfold opening
      rw [ha]
    have hnew : s.nextId ∉ opened.map Prod.fst := by
      intro hin
      obtain ⟨x, hx, he⟩ := List.mem_map.mp hin
      have hlt := (h.below x hx).2
      rw [he] at hlt
      exact absurd hlt (Nat.lt_irrefl _)
    rw [hopening]
    refine ⟨fun x hx => ?_, ?_, by omega⟩
    · rcases List.mem_append.mp hx with hx | hx
      · exact hbelow x hx
      · rw [List.mem_singleton.mp hx]
        refine ⟨fun e0 => ?_, by simp only; omega⟩
        simp only at e0
        rw [e0] at hpos
        exact absurd hpos (Nat.lt_irrefl 0)
    · rw [List.map_append, List.map_singleton]
      exact List.nodup_append.mpr ⟨h.nodup, List.nodup_singleton _, fun a ha b hb hab => by
        rw [List.mem_singleton.mp hb] at hab
        rw [hab] at ha
        exact hnew ha⟩
  · have hnil : s.opening e = [] := opening_nil fun r svc ha => ho ⟨r, svc, ha⟩
    rw [hnil, List.append_nil]
    exact ⟨hbelow, h.nodup, by omega⟩

theorem Given.start (info : DeviceInfo) (os : Os) : (start info os).Given [] :=
  ⟨(fun _ hx => nomatch hx), List.nodup_nil, Nat.zero_lt_one⟩

theorem OwnReads.open_fresh (h : s.OwnReads) {env : Env} {os os' : Os} {r : UInt32} {name : Bytes}
    {result : Option UInt32} {m : StreamManager}
    (ho : StreamManager.open_ env os s.dev.streams r name = .ok (result, m, os')) :
    OpensFresh s.dev.streams result m := by
  unfold StreamManager.open_ at ho
  split at ho
  · cases ho
    rfl
  · split at ho
    · rename_i hn
      cases ho
      refine ⟨rfl, (h.unborn _ (Nat.le_refl _)).1, ?_, fun k hk => ?_, ?_⟩
      · rw [StreamManager.get_put_self]
        rfl
      · rw [StreamManager.get_put_ne hk]
        rfl
      · rw [StreamManager.put_nextId]
        show (s.dev.streams.nextId + 1).toNat = _
        rw [UInt32.toNat_add, Nat.mod_eq_of_lt (by simpa using hn)]
        rfl
    · cases ho

/-- Ids name one stream each, for good. -/
structure Unconfused (s : Sys) (opened : List (UInt32 × UInt32)) : Prop where
  /-- What `open` returned is distinct, not zero and below the next id. -/
  given : (∀ x ∈ opened, x.1 ≠ 0 ∧ x.1.toNat < s.nextId.toNat) ∧ (opened.map Prod.fst).Nodup
  /-- So are the keys of the table, -/
  keys : ∀ i, (s.dev.streams.get i).isSome → i ≠ 0 ∧ i.toNat < s.nextId.toNat
  /-- the ids of reads in flight, whose tags decode to what they were built from, -/
  reads : ∀ u : UserData, u.toU64 ∈ s.outstanding → u.opType = .ptyRead ∨ u.opType = .socketRead →
    UserData.tryFrom u.toU64 = some u ∧ ∃ j : NonZeroU32, u.data = some j ∧ j.1.toNat < s.nextId.toNat
  /-- and the ids on the wire. -/
  said : SaidBelow s.nextId.toNat s.dev.sent
  /-- `open` takes an id that no stream has, or changes nothing. -/
  fresh : ∀ env os r name result m os',
    StreamManager.open_ env os s.dev.streams r name = .ok (result, m, os') →
      OpensFresh s.dev.streams result m
  /-- Under the id of a stream that is gone there is none at any later time, and the
  completion of a read for it does nothing. -/
  gone : ∀ j : NonZeroU32, j.1.toNat < s.nextId.toNat → s.dev.streams.get j.1 = none →
    ∀ s', Reach Sys.step (fun _ _ => True) s s' → s'.dev.streams.get j.1 = none ∧
      ∀ c tail op env, s'.batch = c :: tail → op = .ptyRead ∨ op = .socketRead →
        UserData.tryFrom c.userData = some ⟨op, some j⟩ →
          s'.step (.handle env) = .ok { s' with batch := tail }

end Sys

/-- **Stream ids are not confused** in any run whose host writes only to ids that
were given. -/
theorem ids_unconfused {info : DeviceInfo} {os : Os} {s : Sys} {opened : List (UInt32 × UInt32)}
    (h : Reach (observed Sys.step Sys.opening) (fun p e => WrtesGiven p.1 e) (Sys.start info os, [])
      (s, opened)) : s.Unconfused opened := by
  have hinv : s.OwnReads ∧ s.Given opened ∧ SaidBelow s.nextId.toNat s.dev.sent := by
    refine h.invariant (I := fun p => p.1.OwnReads ∧ p.1.Given p.2 ∧
      SaidBelow p.1.nextId.toNat p.1.dev.sent) ?_ fun p e q hp hok hs => ?_
    · exact ⟨.start info os, .start info os, fun _ hm => nomatch hm⟩
    · obtain ⟨h1, h2⟩ := observed_ok hs
      obtain ⟨ho, hg, hsaid⟩ := hp
      rw [h2]
      exact ⟨ho.step h1, hg.step h1, Sys.said_step ho hok hsaid h1⟩
  obtain ⟨ho, hg, hsaid⟩ := hinv
  refine ⟨⟨hg.below, hg.nodup⟩, fun i hi => ho.given hi, fun u hu hop => ?_, hsaid,
    fun env os r name result m os' hopen => ho.open_fresh hopen, fun j hj hnone s' hr => ?_⟩
  · have ht := UserData.tryFrom_toU64 u
    exact ⟨ht, ho.read_given hu hop ht⟩
  · have hgone := Sys.gone_of_reach hj hnone hr
    exact ⟨hgone, fun c tail op env hb hop ht => Sys.handle_gone hb hop ht hgone env⟩

def wrtesGiven (s : Sys) (e : Event) : Bool :=
  match e with
  | .handle _ =>
    match s.incoming with
    | some (h, _) => h.command != .wrte || decide (h.arg1.toNat < s.nextId.toNat)
    | none => true
  | _ => true

theorem WrtesGiven.of_wrtesGiven {s : Sys} {e : Event} (h : wrtesGiven s e = true) :
    WrtesGiven s e := by
  rintro env hd p rfl hi hc
  simpa [wrtesGiven, hi, hc] using h

theorem ids_unconfused_quit : ∃ s opened,
    Reach (observed Sys.step Sys.opening) (fun p e => WrtesGiven p.1 e) (Sys.fresh, []) (s, opened) ∧
      s.nextId = 2 ∧ s.dev.streams.get 1 = none ∧ s.Unconfused opened := by
  have hplay : (Sys.fresh.play wrtesGiven Sys.quitTurns).map
      (fun s => (s.nextId, (s.dev.streams.get 1).isSome)) = some (2, false) := by
    decide +kernel
  obtain ⟨s, hs, he⟩ := Option.map_eq_some_iff.mp hplay
  simp only [Prod.mk.injEq] at he
  have hreach := Sys.reach_of_play (fun _ _ => WrtesGiven.of_wrtesGiven) hs
  have hhist : ∃ opened, Reach (observed Sys.step Sys.opening) (fun p e => WrtesGiven p.1 e)
      (Sys.fresh, []) (s, opened) := hreach.observe
  obtain ⟨opened, hobs⟩ := hhist
  exact ⟨s, opened, hobs, he.1, by simpa using he.2, ids_unconfused hobs⟩

def Sys.strayWrte : List Sys.Turn := Sys.Turn.message .wrte 7 5 (ascii "x")

/-- The device acknowledges it under that id. -/
theorem okay_for_unknown_id : ∃ s opened,
    Reach (observed Sys.step Sys.opening) (fun _ _ => True) (Sys.fresh, []) (s, opened) ∧
      s.nextId = 1 ∧ (bareHeader .okay 5 7, []) ∈ s.dev.sent ∧ ¬ s.Unconfused opened := by
  have hplay : (Sys.fresh.play (fun _ _ => true) Sys.strayWrte).map
      (fun s => (s.nextId, decide ((bareHeader .okay 5 7, []) ∈ s.dev.sent))) = some (1, true) := by
    decide +kernel
  obtain ⟨s, hs, he⟩ := Option.map_eq_some_iff.mp hplay
  simp only [Prod.mk.injEq, decide_eq_true_eq] at he
  obtain ⟨hid, hsent⟩ := he
  have hreach : Reach Sys.step (fun _ _ => True) Sys.fresh s :=
    Sys.reach_of_play (fun _ _ _ => trivial) hs
  have hhist : ∃ opened, Reach (observed Sys.step Sys.opening) (fun _ _ => True) (Sys.fresh, [])
      (s, opened) := hreach.observe
  obtain ⟨opened, hobs⟩ := hhist
  refine ⟨s, opened, hobs, hid, hsent, fun hu => ?_⟩
  have hlt := hu.said _ hsent rfl
  rw [hid] at hlt
  exact absurd hlt (by decide)

end Adibi
