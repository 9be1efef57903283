import Adibi.Ids
import Adibi.Isolation
import Adibi.Pull
import Adibi.Sync.Store

/-!
# A sync client on the event loop

The host's side of a sync stream that waits for the end of a pull before it asks
again. Its `Desk` is what it has to do with: the stream, the files and the WRTEs
that came back. `Stage` says where the desk stands between the requests asked and
their answers: settled, in the middle of a pull or of a push, or closed. Each
event keeps it, whatever the other streams do, as long as they write no files; so
what comes back are the answers of the store (`sync_client_sees_store`).
-/

namespace Adibi

open Lib

/-! ## The desk -/

structure Desk where
  stream : Option Stream
  fs : Fs
  wrtes : List Bytes

/-- The desk after an effect on its stream. -/
def Desk.after (i : UInt32) (d : Desk) (e : Effect) : Desk :=
  ⟨e.stream, e.os.fs, d.wrtes ++ e.outs.filterMap (Out.wrteOn i)⟩

namespace Sys

variable {s s' : Sys} {e : Event} {i : UInt32}

def desk (s : Sys) (i : UInt32) : Desk := ⟨s.dev.streams.get i, s.dev.os.fs, (s.view i).wrtes⟩

def asked (i : UInt32) (s : Sys) (e : Event) : List Bytes :=
  match s.act e i with
  | .wrte payload => [payload]
  | _ => []

/-- An event with a well-behaved client on stream `i`. -/
structure ClientOk (i : UInt32) (s : Sys) (e : Event) : Prop where
  /-- The file calls of the stream succeed. -/
  succeeds : s.act e i ≠ .none → e.env.Succeeds
  /-- The client does not close the stream but with QUIT. -/
  stays : ∀ r, s.act e i ≠ .clse r
  /-- It sends nothing before the end of a pull. -/
  waits : ∀ payload st sender, s.act e i = .wrte payload → s.dev.streams.get i = some st →
    st.service ≠ .sync ⟨.sending sender⟩
  /-- No other stream's push begins or goes on. -/
  alone : ∀ x ∈ s.feeding e, x.1 = i

theorem step_wrte_os {payload : Bytes} {st : Stream} (hs : s.step e = .ok s')
    (ha : s.act e i = .wrte payload) (hst : s.dev.streams.get i = some st) :
    ∃ ef, onWrte e.env s.dev.version i s.dev.os st payload = .ok ef ∧ s'.dev.os = ef.os := by
  cases stepped_of_ok hs with
  | quiet hq hd =>
    cases ha.symm.trans (hq i)
  | filled hact _ _ =>
    rw [hact i] at ha
    split at ha
    · cases ha
    · cases ha
  | @read env op j res _ hend hd =>
    simp only [act, hend] at ha
    split at ha
    · cases ha
    · cases ha
  | @message env h p _ hend hi hd =>
    simp only [act, hend, hi] at ha
    obtain ⟨hc, rfl, rfl⟩ := Dev.actOf_wrte ha
    cases hd with
    | wrte hc' hp hsend heff =>
      cases hp
      cases heff with
      | gone hnone _ =>
        rw [hsend.streams, hst] at hnone
        cases hnone
      | effect hst' he _ _ hos _ _ =>
        rw [hsend.streams, hst] at hst'
        cases hst'
        exact ⟨_, he, hos⟩
    | ignored hc' _ => rcases hc' with h1 | h1 <;> cases hc.symm.trans h1
    | cnxn hc' _ _ => cases hc.symm.trans hc'
    | refused hc' _ _ => cases hc.symm.trans hc'
    | opened hc' _ _ _ => cases hc.symm.trans hc'
    | okay hc' _ => cases hc.symm.trans hc'
    | clse hc' _ => cases hc.symm.trans hc'

theorem effected_fs {d d' : Dev} {j : UInt32} {f : Stream → Except Panic Effect}
    (h : d.Effected j f d')
    (hf : ∀ st ef, d.streams.get j = some st → f st = .ok ef → ef.os.fs = d.os.fs) :
    d'.os.fs = d.os.fs := by
  cases h with
  | gone _ hd => rw [hd.os]
  | effect hst he _ _ hos _ _ => rw [hos, hf _ _ hst he]

/-- Only pushes write files. -/
theorem step_fs (hs : s.step e = .ok s') (hno : s.feeding e = []) : s'.dev.os.fs = s.dev.os.fs := by
  cases stepped_of_ok hs with
  | quiet _ hd => rw [hd.os]
  | filled _ _ hd => rw [hd.os]; rfl
  | read _ hd => exact effected_fs hd fun st ef _ he => by rw [onRead_os he]
  | @message env h p _ hend hi hd =>
    cases hd with
    | ignored _ hd => rw [hd.os]
    | cnxn _ _ hd => rw [hd.os]
    | refused _ _ hd => rw [hd.os]
    | opened _ ho _ hd =>
      rw [hd.os]
      obtain ⟨name, -, h1⟩ := Option.bind_eq_some_iff.mp ho
      exact openService_fs h1
    | okay _ heff => exact effected_fs heff fun st ef _ he => by rw [onOkay_os he]
    | clse _ heff => exact effected_fs heff fun st ef _ he => onClse_fs he
    | @wrte payload d1 hc hp hsend heff =>
      have hfs : s'.dev.os.fs = d1.os.fs := by
        refine effected_fs heff fun st ef hst he => ?_
        rw [hsend.streams] at hst
        rw [hp] at hi
        rw [feeding_message hi hc, hst, Option.bind_some, Option.toList_eq_nil_iff,
          Option.map_eq_none_iff] at hno
        rw [hsend.os]
        exact (onWrte_apart hno he).1
      rw [hfs, hsend.os]

/-- What an event is at the desk. -/
inductive Attends (s : Sys) (e : Event) (i : UInt32) (s' : Sys) : Prop where
  | still (ht : s.asked i e = []) (hd : s'.desk i = s.desk i)
  | okay {st : Stream} {ef : Effect} (ht : s.asked i e = []) (hst : s.dev.streams.get i = some st)
      (henv : e.env.Succeeds) (he : onOkay e.env s.dev.version i s.dev.os st = .ok ef)
      (hd : s'.desk i = (s.desk i).after i ef)
  | wrte {payload : Bytes} {st : Stream} {ef : Effect} (ht : s.asked i e = [payload])
      (hst : s.dev.streams.get i = some st) (henv : e.env.Succeeds)
      (hno : ∀ sender, st.service ≠ .sync ⟨.sending sender⟩)
      (he : onWrte e.env s.dev.version i s.dev.os st payload = .ok ef)
      (hd : s'.desk i = (s.desk i).after i ef)
  | deaf {payload : Bytes} (ht : s.asked i e = [payload]) (hst : s.dev.streams.get i = none)
      (hd : s'.desk i = s.desk i)

/-- The desk of a stream that is not struck: only its files could change. -/
theorem desk_of_view (hv : (s'.view i).stream = (s.view i).stream ∧ (s'.view i).wrtes = (s.view i).wrtes)
    (hfs : s'.dev.os.fs = s.dev.os.fs) : s'.desk i = s.desk i := by
  have hstream : s'.dev.streams.get i = s.dev.streams.get i := hv.1
  unfold desk
  rw [hstream, hfs, hv.2]

theorem desk_of_effect {ef : Effect} {w : View}
    (hv : s'.view i = { w with stream := ef.stream }.plus i ef.outs)
    (hw : w.wrtes = (s.view i).wrtes) (hfs : s'.dev.os.fs = ef.os.fs) :
    s'.desk i = (s.desk i).after i ef := by
  have hstream : s'.dev.streams.get i = ef.stream := by
    show (s'.view i).stream = _
    rw [hv]
    rfl
  unfold desk Desk.after
  rw [hstream, hfs, hv, ← hw]
  rfl

/-- **One event at the desk** of a sync stream. -/
theorem attends_of_ok (hown : s.OwnReads) (hi : i.toNat < s.nextId.toNat)
    (hsync : ∀ st, s.dev.streams.get i = some st → ∃ svc, st.service = .sync svc)
    (hc : s.ClientOk i e) (hs : s.step e = .ok s') : s.Attends e i s' := by
  have hv := step_view hs i
  have hfs : (∀ payload, s.act e i ≠ .wrte payload) → s'.dev.os.fs = s.dev.os.fs := by
    intro hno
    refine step_fs hs (List.eq_nil_iff_forall_not_mem.mpr fun x hx => ?_)
    obtain ⟨payload, hact⟩ := (feeding_wrte hx).1
    rw [hc.alone x hx] at hact
    exact hno payload hact
  cases ha : s.act e i with
  | none =>
    rw [ha] at hv
    refine .still (by simp only [asked, ha]) (desk_of_view ?_ (hfs fun p h1 => by cases ha.symm.trans h1))
    rw [← Except.ok.inj hv]
    exact ⟨rfl, rfl⟩
  | fill op bytes =>
    rw [ha] at hv
    refine .still (by simp only [asked, ha]) (desk_of_view ?_ (hfs fun p h1 => by cases ha.symm.trans h1))
    rw [← Except.ok.inj hv]
    refine ⟨?_, rfl⟩
    show (s.dev.streams.get i).map _ = s.dev.streams.get i
    cases hst : s.dev.streams.get i with
    | none => rfl
    | some st =>
      obtain ⟨svc, hsv⟩ := hsync st hst
      have hfill : st.service.filled op bytes = st.service := by
        rw [hsv]
        rfl
      rw [Option.map_some, hfill]
  | opened r svc =>
    rw [act_opened ha] at hi
    exact absurd hi (Nat.lt_irrefl _)
  | clse r => exact absurd ha (hc.stays r)
  | read op res =>
    rw [ha] at hv
    cases hst : s.dev.streams.get i with
    | some st =>
      obtain ⟨svc, hsv⟩ := hsync st hst
      have hr := hown.reader_of_act ha hst
      rw [hsv] at hr
      cases hr
    | none =>
      refine .still (by simp only [asked, ha])
        (desk_of_view ?_ (hfs fun p h1 => by cases ha.symm.trans h1))
      rw [View.through_none hv hst]
      exact ⟨rfl, rfl⟩
  | okay =>
    rw [ha] at hv
    have hf := hfs fun p h1 => by cases ha.symm.trans h1
    cases hst : s.dev.streams.get i with
    | none =>
      refine .still (by simp only [asked, ha]) (desk_of_view ?_ hf)
      rw [View.through_none hv hst]
      exact ⟨rfl, rfl⟩
    | some st =>
      obtain ⟨ef, he, hw⟩ := View.through_some hv hst
      have henv : e.env.Succeeds := hc.succeeds (by rw [ha]; exact Act.noConfusion)
      exact .okay (by simp only [asked, ha]) hst henv he (desk_of_effect hw rfl (by rw [hf, onOkay_os he]))
  | wrte payload =>
    rw [ha] at hv
    have ht : s.asked i e = [payload] := by simp only [asked, ha]
    cases hst : s.dev.streams.get i with
    | none =>
      refine .deaf ht hst (desk_of_view ?_
        (step_fs hs (List.eq_nil_iff_forall_not_mem.mpr fun x hx => ?_)))
      · rw [View.through_none hv hst]
        exact ⟨rfl, rfl⟩
      · have hsome := (feeding_wrte hx).2
        rw [hc.alone x hx, hst] at hsome
        cases hsome
    | some st =>
      obtain ⟨ef, he, hw⟩ := View.through_some hv hst
      obtain ⟨ef', he', hos⟩ := step_wrte_os hs ha hst
      cases he.symm.trans he'
      have henv : e.env.Succeeds := hc.succeeds (by rw [ha]; exact Act.noConfusion)
      exact .wrte ht hst henv (fun sender => hc.waits payload st sender ha hst) he
        (desk_of_effect hw rfl (by rw [hos]))

end Sys

/-! ## Effects at the desk -/

section

variable {env : Env} {v : ProtocolVersion} {i : UInt32} {os : Os} {st : Stream} {ef : Effect}
  {svc svc' : SyncService} {payload : Bytes} {fs' : Fs}

theorem filterMap_wrteOut {r : UInt32} {data : Bytes} {o : Out} (h : wrteOut v i r data = .ok o) :
    [o].filterMap (Out.wrteOn i) = [data] := by
  obtain ⟨hd, rfl, hc, h0, -⟩ := wrteOut_ok h
  simp [Out.wrteOn, hc, h0]

theorem onSync_panic {p : Panic} (hh : svc.handle env os.fs payload = .error p) :
    onSync env v i os st svc payload = .error p := by
  unfold onSync
  rw [hh]
  rfl

theorem onSync_stat {x : SyncStat} (hh : svc.handle env os.fs payload = .ok (.stat x, svc', fs'))
    (he : onSync env v i os st svc payload = .ok ef) (d : Desk) :
    d.after i ef = ⟨some { st with service := .sync svc' }, fs', d.wrtes ++ [x.asLeBytes]⟩ := by
  simp only [onSync, hh, ok_bind] at he
  obtain ⟨o, ho, h1⟩ := bind_eq_ok.mp he
  cases h1
  simp only [Desk.after, filterMap_wrteOut ho]

theorem onSync_data {hdr : SyncFrameResponseHeader} {data : Bytes}
    (hh : svc.handle env os.fs payload = .ok (.data hdr data, svc', fs'))
    (he : onSync env v i os st svc payload = .ok ef) (d : Desk) :
    d.after i ef =
      ⟨some { st with service := .sync svc' }, fs', d.wrtes ++ [hdr.asLeBytes ++ data]⟩ := by
  simp only [onSync, hh, ok_bind] at he
  obtain ⟨o, ho, h1⟩ := bind_eq_ok.mp he
  cases h1
  simp only [Desk.after, filterMap_wrteOut ho]

theorem onSync_quit (hh : svc.handle env os.fs payload = .ok (.quit, svc', fs'))
    (he : onSync env v i os st svc payload = .ok ef) (d : Desk) :
    d.after i ef = ⟨none, fs', d.wrtes⟩ := by
  simp only [onSync, hh, ok_bind, pure_eq_ok, Except.ok.injEq] at he
  rw [← he]
  simp [Desk.after, closing, clseOut, Out.wrteOn, bareHeader]

theorem onSync_continue (hh : svc.handle env os.fs payload = .ok (.continue, svc', fs'))
    (he : onSync env v i os st svc payload = .ok ef) :
    continueSync env v i { os with fs := fs' } { st with service := .sync svc' } = .ok ef := by
  simp only [onSync, hh, ok_bind] at he
  exact he

theorem continueSync_silent (hno : ∀ sender, st.service ≠ .sync ⟨.sending sender⟩)
    (he : continueSync env v i os st = .ok ef) (d : Desk) :
    d.after i ef = ⟨some st, os.fs, d.wrtes⟩ := by
  rcases continueSync_cases he with ⟨rfl, -⟩ | ⟨-, sender, _, _, _, _, hs, -⟩ | ⟨-, sender, _, hs, -⟩
  · simp [Desk.after]
  · exact absurd hs (hno sender)
  · exact absurd hs (hno sender)

theorem continueSync_waiting (hw : st.waitingForOkay = true) (he : continueSync env v i os st = .ok ef)
    (d : Desk) : d.after i ef = ⟨some st, os.fs, d.wrtes⟩ := by
  simp only [continueSync, hw, if_true, pure_eq_ok, Except.ok.injEq] at he
  rw [← he]
  simp [Desk.after]

theorem continueSync_frame {file : File} {f : SyncResponse} {sender : FileSender}
    (hw : st.waitingForOkay = false) (hsv : st.service = .sync ⟨.sending ⟨file, false⟩⟩)
    (hn : FileSender.nextFrame env os.fs ⟨file, false⟩ = .ok (some f, sender))
    (he : continueSync env v i os st = .ok ef) (d : Desk) :
    d.after i ef = ⟨some { st with service := .sync ⟨.sending sender⟩, waitingForOkay := true }, os.fs,
      d.wrtes ++ [(Reply.frame f).bytes]⟩ := by
  rcases continueSync_cases he with ⟨-, hno⟩ | ⟨-, sender0, sender', hdr, data, o, hs, hn', ho, rfl⟩ |
    ⟨-, sender0, sender', hs, hn', -⟩
  · rcases hno with h1 | h1
    · rw [hw] at h1
      cases h1
    · exact absurd hsv (h1 _)
  · cases hsv.symm.trans hs
    cases hn.symm.trans hn'
    simp only [Desk.after, filterMap_wrteOut ho]
    rfl
  · cases hsv.symm.trans hs
    cases hn.symm.trans hn'

end

/-! ## Stages -/

def Spells (answers : List Answer) (replies : List Reply) : Prop :=
  ∃ groups, List.Forall₂ Answer.Sent answers groups ∧ replies = groups.flatten

theorem Spells.snoc {answers : List Answer} {replies more : List Reply} {a : Answer}
    (h : Spells answers replies) (ha : a.Sent more) : Spells (answers ++ [a]) (replies ++ more) := by
  obtain ⟨groups, hg, rfl⟩ := h
  exact ⟨groups ++ [more], List.rel_append hg (.cons ha .nil), by simp⟩

/-- The answers have come back, after `base`. -/
def Desk.Told (base : List Bytes) (answers : List Answer) (d : Desk) : Prop :=
  ∃ replies, Spells answers replies ∧ d.wrtes = base ++ replies.map Reply.bytes

theorem Desk.Told.snoc {base : List Bytes} {answers : List Answer} {d d' : Desk} {a : Answer}
    {more : List Reply} (h : d.Told base answers) (ha : a.Sent more)
    (hd : d'.wrtes = d.wrtes ++ more.map Reply.bytes) : d'.Told base (answers ++ [a]) := by
  obtain ⟨replies, hr, hw⟩ := h
  exact ⟨replies ++ more, hr.snoc ha, by rw [hd, hw, List.map_append, List.append_assoc]⟩

/-- The desk between requests and answers: `answers` and `store` are what the store
makes of the requests begun, `left` the payloads that the last of them still lacks. -/
inductive Stage (base : List Bytes) (answers : List Answer) (store : Store) (left : List Bytes)
    (d : Desk) : Prop where
  /-- Between two requests. -/
  | idle {st : Stream} (hst : d.stream = some st) (hsv : st.service = .sync ⟨.idle⟩) (hl : left = [])
      (told : d.Told base answers) (wf : d.fs.Wf) (files : d.fs.store = store)
  /-- In a pull, with `rest` not yet sent. -/
  | sending {st : Stream} {ino : Nat} {before : List Answer} {chunks : List Bytes} {rest : Bytes}
      (hst : d.stream = some st)
      (hsv : st.service = .sync ⟨.sending ⟨⟨ino, chunks.flatten⟩, false⟩⟩) (hl : left = [])
      (content : (d.fs.inodes ino).content = chunks.flatten ++ rest)
      (chunked : Chunked chunks.flatten chunks)
      (ha : answers = before ++ [.file (chunks.flatten ++ rest)])
      (told : ∃ replies, Spells before replies ∧
        d.wrtes = base ++ (replies ++ (chunks.map chunkResponse).map Reply.frame).map Reply.bytes)
      (wf : d.fs.Wf) (files : d.fs.store = store)
  /-- The end of a pull is sent. -/
  | ending {st : Stream} {sender : FileSender} (hst : d.stream = some st)
      (hsv : st.service = .sync ⟨.sending sender⟩) (hd : sender.done = true) (hl : left = [])
      (told : d.Told base answers) (wf : d.fs.Wf) (files : d.fs.store = store)
  /-- In a push that began in `fs0`. -/
  | pushing {st : Stream} {before : List Answer} {fs0 : Fs} {req : SendRequest} {body : PushBody}
      {r : FileReceiver} (hst : d.stream = some st) (hsv : st.service = .sync ⟨.receiving r⟩)
      (hl : left ≠ []) (hne : ∀ p ∈ left, p ≠ [])
      (ha : answers = before ++ [.frame okayResponse]) (told : d.Told base before) (wf : fs0.Wf)
      (files : fs0.store.put req.path (fs0.store.pushed req body) = store)
      (mid : r.Midway fs0 req body d.fs left.flatten)

/-- The desk after QUIT. -/
structure Desk.Closed (base : List Bytes) (answers : List Answer) (store : Store) (d : Desk) : Prop where
  stream : d.stream = none
  told : d.Told base answers
  files : d.fs.store = store

namespace Stage

variable {base : List Bytes} {answers before : List Answer} {store : Store} {left mid : List Bytes}
  {d : Desk} {env : Env} {v : ProtocolVersion} {i : UInt32} {os : Os} {st : Stream} {ef : Effect}

theorem sync (h : Stage base answers store left d) :
    ∃ st svc, d.stream = some st ∧ st.service = .sync svc := by
  cases h with
  | idle hst hsv => exact ⟨_, _, hst, hsv⟩
  | sending hst hsv => exact ⟨_, _, hst, hsv⟩
  | ending hst hsv => exact ⟨_, _, hst, hsv⟩
  | pushing hst hsv => exact ⟨_, _, hst, hsv⟩

/-- A pull that may send sends its next frame. -/
theorem pull {ino : Nat} (chunks : List Bytes) (rest : Bytes) (henv : env.Succeeds)
    (he : continueSync env v i os st = .ok ef) (hw : st.waitingForOkay = false)
    (hsv : st.service = .sync ⟨.sending ⟨⟨ino, chunks.flatten⟩, false⟩⟩) (hfs : os.fs = d.fs)
    (content : (d.fs.inodes ino).content = chunks.flatten ++ rest)
    (chunked : Chunked chunks.flatten chunks)
    (told : ∃ replies, Spells before replies ∧
      d.wrtes = base ++ (replies ++ (chunks.map chunkResponse).map Reply.frame).map Reply.bytes)
    (wf : d.fs.Wf) (files : d.fs.store = store) :
    Stage base (before ++ [.file (chunks.flatten ++ rest)]) store [] (d.after i ef) := by
  obtain ⟨replies, hrep, hwr⟩ := told
  rw [← hfs] at content
  by_cases hrest : rest = []
  · subst hrest
    rw [List.append_nil] at content ⊢
    have hn := FileSender.nextFrame_eof (s := ⟨⟨ino, chunks.flatten⟩, false⟩) (henv .read) rfl content
    rw [continueSync_frame hw hsv hn he, hfs]
    refine .ending rfl rfl rfl rfl ⟨replies ++ (fileFrames chunks).map .frame, ?_, ?_⟩ wf files
    · exact hrep.snoc ⟨chunks, chunked, rfl⟩
    · simp [hwr, fileFrames]
  · obtain ⟨c, more, rfl, hc, hle, hn⟩ := FileSender.nextFrame_chunk
      (s := ⟨⟨ino, chunks.flatten⟩, false⟩) (henv .read) rfl content hrest
    have hflat : (chunks ++ [c]).flatten = chunks.flatten ++ c := by simp
    rw [continueSync_frame hw hsv hn he, hfs]
    have hcontent : (d.fs.inodes ino).content = (chunks ++ [c]).flatten ++ more := by
      rw [hflat, List.append_assoc, ← content, hfs]
    refine .sending rfl (by rw [← hflat]) rfl hcontent ⟨rfl, ?_, ?_⟩ ?_ ⟨replies, hrep, ?_⟩ wf files
    · intro x hx
      rcases List.mem_append.mp hx with h1 | h1
      · exact chunked.ne_nil x h1
      · rw [List.mem_singleton.mp h1]
        exact hc
    · intro x hx
      rcases List.mem_append.mp hx with h1 | h1
      · exact chunked.length_le x h1
      · rw [List.mem_singleton.mp h1]
        exact hle
    · rw [hflat, List.append_assoc]
    · simp [hwr]

/-- An OKAY moves a pull on, and nothing else. -/
theorem okay (h : Stage base answers store left d) (henv : env.Succeeds) (hst : d.stream = some st)
    (hfs : os.fs = d.fs) (he : onOkay env v i os st = .ok ef) :
    Stage base answers store left (d.after i ef) := by
  have hcont : ∀ svc, st.service = .sync svc →
      continueSync env v i os { st with waitingForOkay := false } = .ok ef := by
    intro svc hsv
    simp only [onOkay, hsv] at he
    rw [← hsv] at he
    exact he
  cases h with
  | idle hst' hsv hl told wf files =>
    cases hst.symm.trans hst'
    rw [continueSync_silent (by simp [hsv]) (hcont _ hsv), hfs]
    exact .idle rfl hsv hl told wf files
  | sending hst' hsv hl content chunked ha told wf files =>
    cases hst.symm.trans hst'
    rw [ha, hl]
    exact pull _ _ henv (hcont _ hsv) rfl hsv hfs content chunked told wf files
  | @ending st' sender hst' hsv hd hl told wf files =>
    cases hst.symm.trans hst'
    have hn : sender.nextFrame env os.fs = .ok (none, sender) := if_pos hd
    have he' := hcont _ hsv
    simp only [continueSync, Bool.false_eq_true, if_false, hsv, hn, ok_bind, pure_eq_ok,
      Except.ok.injEq] at he'
    subst he'
    refine .idle rfl rfl hl ?_ ?_ ?_
    · simp only [Desk.Told, Desk.after, List.filterMap_nil, List.append_nil]
      exact told
    · simp only [Desk.after, hfs, wf]
    · simp only [Desk.after, hfs, files]
  | pushing hst' hsv hl hne ha told wf files mid =>
    cases hst.symm.trans hst'
    rw [continueSync_silent (by simp [hsv]) (hcont _ hsv), hfs]
    exact .pushing rfl hsv hl hne ha told wf files mid

theorem stored {fs0 fs' : Fs} {req : SendRequest} {body : PushBody}
    (told : d.Told base before) (wf : fs0.Wf)
    (hs : fs0.Stored req.path (fs0.store.pushed req body) fs') :
    Stage base (before ++ [.frame okayResponse])
      (fs0.store.put req.path (fs0.store.pushed req body)) []
      ⟨some { st with service := .sync .new }, fs', d.wrtes ++ [(Reply.frame okayResponse).bytes]⟩ :=
  .idle rfl rfl rfl (told.snoc rfl rfl) (hs.wf wf) (hs.store wf)

/-- The desk in the middle of a push: more of it, or the rest. -/
theorem feed {fs0 : Fs} {req : SendRequest} {body : PushBody} {r : FileReceiver} {p : Bytes}
    {svc : SyncService} {payload : Bytes} (henv : env.Succeeds)
    (hne : ∀ p ∈ left, p ≠ []) (told : d.Told base before) (wf : fs0.Wf) {fs1 : Fs}
    (mid : r.Midway fs0 req body fs1 (p ++ left.flatten))
    (hh : svc.handle env os.fs payload = (⟨.receiving r⟩ : SyncService).handle env fs1 p)
    (he : onSync env v i os st svc payload = .ok ef) :
    Stage base (before ++ [.frame okayResponse])
      (fs0.store.put req.path (fs0.store.pushed req body)) left (d.after i ef) := by
  cases left with
  | nil =>
    rw [List.flatten_nil, List.append_nil] at mid
    obtain ⟨r', fs', hrec, hs⟩ := mid.done henv
    have hd : svc.handle env os.fs payload =
        .ok (.data okayResponse.1 okayResponse.2, .new, fs') := by
      rw [hh]
      simp only [SyncService.handle]
      exact congrArg (· >>= _) hrec
    rw [onSync_data hd he]
    exact stored told wf hs
  | cons q left =>
    have hflat : (q :: left).flatten ≠ [] := by simp [hne q List.mem_cons_self]
    obtain ⟨r', fs', hrec, hm⟩ := mid.part henv hflat
    have hd : svc.handle env os.fs payload = .ok (.continue, ⟨.receiving r'⟩, fs') := by
      rw [hh]
      simp only [SyncService.handle]
      exact congrArg (· >>= _) hrec
    have hsilent := continueSync_silent (by simp) (onSync_continue hd he) d
    rw [hsilent]
    exact .pushing rfl rfl (List.cons_ne_nil q left) hne rfl told wf rfl hm

/-- A request begins; `mid` are its further payloads. -/
theorem ask {r : SyncRequest} {t : Bytes} (hq : r.isQuit = false) (henv : env.Succeeds)
    (hfs : os.fs = d.fs) (hsv : st.service = .sync ⟨.idle⟩)
    (told : d.Told base answers) (wf : d.fs.Wf) (hne : ∀ p ∈ mid, p ≠ [])
    (ht : t ++ mid.flatten = r.tail)
    (he : onWrte env v i os st (r.head ++ t) = .ok ef) :
    ∃ a store', d.fs.store.serve r = .ok (a, store') ∧
      Stage base (answers ++ a) store' mid (d.after i ef) := by
  simp only [onWrte, hsv] at he
  have hone : r.tail = [] → t = [] ∧ mid = [] := by
    intro e
    rw [e] at ht
    obtain ⟨rfl, hmid⟩ := List.append_eq_nil_iff.mp ht
    cases mid with
    | nil => exact ⟨rfl, rfl⟩
    | cons p mid =>
      exact absurd (List.append_eq_nil_iff.mp hmid).1 (hne p List.mem_cons_self)
  cases r with
  | lstat path lt =>
    obtain ⟨rfl, rfl⟩ := hone rfl
    have hh := SyncService.handle_lstat henv os.fs lt
    rw [hfs] at hh
    cases hs : d.fs.store.stat path with
    | error p =>
      rw [hs] at hh
      cases he.symm.trans (onSync_panic (by rw [hfs]; exact hh))
    | ok x =>
      rw [hs] at hh
      refine ⟨[.stat x], d.fs.store, by simp only [Store.serve, hs]; rfl, ?_⟩
      rw [onSync_stat (by rw [hfs]; exact hh) he]
      exact .idle rfl rfl rfl (told.snoc rfl rfl) wf rfl
  | recv path lt =>
    obtain ⟨rfl, rfl⟩ := hone rfl
    have hfiles : d.fs.store.files path = (d.fs.names path).map d.fs.inodes := rfl
    cases hn : d.fs.names path with
    | none =>
      have hh := SyncService.handle_recv_none henv lt hn
      cases hf : failResponse (ascii "cannot open " ++ path.display ++ ascii ": " ++
        ascii "No such file or directory (os error 2)") with
      | error p =>
        rw [hf] at hh
        cases he.symm.trans (onSync_panic (by rw [hfs]; exact hh))
      | ok x =>
        rw [hf] at hh
        refine ⟨[.frame x], d.fs.store, ?_, ?_⟩
        · simp only [Store.serve, hfiles, hn, Option.map_none, hf]
          rfl
        · rw [onSync_data (by rw [hfs]; exact hh) he]
          exact .idle rfl rfl rfl (told.snoc rfl rfl) wf rfl
    | some ino =>
      have hh := SyncService.handle_recv_some henv lt hn
      have hcont := onSync_continue (by rw [hfs]; exact hh) he
      refine ⟨[.file (d.fs.inodes ino).content], d.fs.store, ?_, ?_⟩
      · simp only [Store.serve, hfiles, hn, Option.map_some]
        rfl
      · obtain ⟨replies, hrep, hwr⟩ := told
        have hwr' : d.wrtes = base ++ (replies ++ []).map Reply.bytes := by
          simpa using hwr
        cases hw : st.waitingForOkay with
        | false =>
          exact pull [] (d.fs.inodes ino).content henv hcont hw rfl rfl (List.nil_append _).symm .nil
            ⟨replies, hrep, hwr'⟩ wf rfl
        | true =>
          -- nothing is sent before the OKAY that the stream waits for
          have hsilent := continueSync_waiting (by exact hw) hcont d
          rw [hsilent]
          have hsv' : Service.sync ⟨.sending ⟨⟨ino, []⟩, false⟩⟩ =
              .sync ⟨.sending ⟨⟨ino, ([] : List Bytes).flatten⟩, false⟩⟩ := rfl
          exact .sending rfl hsv' rfl (List.nil_append _).symm .nil rfl
            ⟨replies, hrep, hwr'⟩ wf rfl
  | send req body =>
    obtain ⟨fs1, hc, hm⟩ := FileReceiver.midway_start henv d.fs req body
    refine ⟨_, _, rfl, ?_⟩
    rw [SyncRequest.tail] at ht
    rw [← ht] at hm
    refine feed henv hne told wf hm ?_ he
    rw [hfs]
    exact SyncService.handle_send hc t
  | quit u => cases hq

theorem quit {u t : Bytes} (hfs : os.fs = d.fs) (hsv : st.service = .sync ⟨.idle⟩)
    (told : d.Told base answers)
    (he : onWrte env v i os st ((SyncRequest.quit u).head ++ t) = .ok ef) :
    (d.after i ef).Closed base answers d.fs.store := by
  simp only [onWrte, hsv] at he
  have hh : SyncService.new.handle env os.fs ((SyncRequest.quit u).head ++ t) =
      .ok (.quit, .new, d.fs) := by
    simp only [SyncService.handle, SyncService.new, SyncService.handleRequest,
      SyncRequest.parse_head, SyncRequest.packet, hfs]
  rw [onSync_quit hh he]
  exact ⟨rfl, told, rfl⟩

end Stage

/-! ## The run -/

theorem Store.run_append (st : Store) (rs rs' : List SyncRequest) :
    st.run (rs ++ rs') = st.run rs >>= fun x => x.2.run rs' >>= fun y => pure (x.1 ++ y.1, y.2) := by
  induction rs generalizing st with
  | nil =>
    show st.run rs' = st.run rs' >>= fun y => pure ([] ++ y.1, y.2)
    cases st.run rs' <;> rfl
  | cons r rs ih =>
    simp only [List.cons_append, Store.run]
    cases st.serve r with
    | error p => rfl
    | ok x =>
      simp only [ok_bind, ih]
      cases x.2.run rs with
      | error p => rfl
      | ok y =>
        simp only [ok_bind, pure_eq_ok]
        cases y.2.run rs' with
        | error p => rfl
        | ok z => simp only [ok_bind, List.append_assoc]

theorem Store.run_snoc {st st1 st2 : Store} {rs : List SyncRequest} {r : SyncRequest}
    {answers a : List Answer} (h : st.run rs = .ok (answers, st1)) (hr : st1.serve r = .ok (a, st2)) :
    st.run (rs ++ [r]) = .ok (answers ++ a, st2) := by
  rw [Store.run_append, h]
  simp only [ok_bind, Store.run, hr, pure_eq_ok, List.append_nil]

/-- The last request is the only one that may be QUIT. -/
theorem Script.nil_of_quit {script : Script} {before after : List SyncRequest} {r : SyncRequest}
    (hr : script.requests = before ++ r :: after) (hq : r.isQuit = true) : after = [] := by
  by_contra hne
  have hmem : r ∈ script.requests.dropLast := by
    rw [hr, List.dropLast_append_of_ne_nil (List.cons_ne_nil r after),
      List.dropLast_cons_of_ne_nil hne]
    simp
  rw [script.quit_last r hmem] at hq
  cases hq

/-- Where the client is in `script`, cut into `payloads`, after `hist`. -/
inductive Sys.Asking (script : Script) (payloads base : List Bytes) (st₀ : Store) (i : UInt32) (s : Sys)
    (hist : List Bytes) : Prop where
  | open {before after : List SyncRequest} {left rest : List Bytes} {answers : List Answer}
      {store : Store} (hr : script.requests = before ++ after) (hg : Grouped after rest)
      (hp : payloads = hist ++ (left ++ rest)) (hrun : st₀.run before = .ok (answers, store))
      (stage : Stage base answers store left (s.desk i))
  | closed {answers : List Answer} {store : Store}
      (hrun : st₀.run script.requests = .ok (answers, store))
      (desk : (s.desk i).Closed base answers store)

namespace Sys

variable {script : Script} {payloads base hist : List Bytes} {st₀ : Store} {i : UInt32} {s s' : Sys}
  {e : Event}

theorem Asking.of_desk (h : s.Asking script payloads base st₀ i hist) (hd : s'.desk i = s.desk i) :
    s'.Asking script payloads base st₀ i hist := by
  cases h with
  | «open» hr hg hp hrun stage => exact .open hr hg hp hrun (hd ▸ stage)
  | closed hrun desk => exact .closed hrun (hd ▸ desk)

theorem Asking.sync (h : s.Asking script payloads base st₀ i hist) {st : Stream}
    (hst : s.dev.streams.get i = some st) : ∃ svc, st.service = .sync svc := by
  cases h with
  | «open» _ _ _ _ stage =>
    obtain ⟨st', svc, hst', hsv⟩ := stage.sync
    cases hst.symm.trans hst'
    exact ⟨svc, hsv⟩
  | closed _ desk => cases hst.symm.trans desk.stream

/-- An idle service takes the next request: it answers, or closes the stream. -/
theorem Asking.request {before after : List SyncRequest} {rest more : List Bytes}
    {answers : List Answer} {env : Env} {v : ProtocolVersion} {st : Stream} {payload : Bytes}
    {ef : Effect} (hne : ∀ p ∈ payloads, p ≠ []) (hr : script.requests = before ++ after)
    (hg : Grouped after rest) (hp : payloads = hist ++ rest) (hnext : rest = payload :: more)
    (hrun : st₀.run before = .ok (answers, (s.desk i).fs.store)) (henv : env.Succeeds)
    (hsv : st.service = .sync ⟨.idle⟩)
    (told : (s.desk i).Told base answers) (wf : (s.desk i).fs.Wf)
    (he : onWrte env v i s.dev.os st payload = .ok ef) (hd : s'.desk i = (s.desk i).after i ef) :
    s'.Asking script payloads base st₀ i (hist ++ [payload]) := by
  cases after with
  | nil =>
    rw [show rest = [] from hg] at hnext
    cases hnext
  | cons r after =>
    obtain ⟨t, mid, rest', hrest, htail, hg'⟩ := hg
    rw [hrest] at hnext hp
    obtain ⟨rfl, -⟩ := List.cons.inj hnext
    have hmid : ∀ p ∈ mid, p ≠ [] := fun p hmem => hne p (by rw [hp]; simp [hmem])
    have hr' : script.requests = (before ++ [r]) ++ after := by
      rw [hr, List.append_assoc]
      rfl
    cases hq : r.isQuit with
    | false =>
      obtain ⟨a, store', hserve, hstage⟩ := Stage.ask hq henv rfl hsv told wf hmid htail he
      refine .open hr' hg' (hp.trans (List.append_cons hist _ _)) (Store.run_snoc hrun hserve) ?_
      rw [hd]
      exact hstage
    | true =>
      cases r with
      | quit u =>
        have hserve : (s.desk i).fs.store.serve (.quit u) = .ok ([], (s.desk i).fs.store) := rfl
        have hall := Store.run_snoc hrun hserve
        rw [Script.nil_of_quit hr hq, List.append_nil] at hr'
        rw [← hr', List.append_nil] at hall
        refine .closed hall ?_
        rw [hd]
        exact Stage.quit rfl hsv told he
      | lstat path lt => cases hq
      | recv path lt => cases hq
      | send req body => cases hq

/-- **One event**, while the host keeps to the script. -/
theorem Asking.step (hne : ∀ p ∈ payloads, p ≠ []) (hown : s.OwnReads)
    (hi : i.toNat < s.nextId.toNat) (h : s.Asking script payloads base st₀ i hist)
    (hc : s.ClientOk i e) (hpre : hist ++ s.asked i e <+: payloads) (hs : s.step e = .ok s') :
    s'.Asking script payloads base st₀ i (hist ++ s.asked i e) := by
  cases attends_of_ok hown hi (fun st hst => h.sync hst) hc hs with
  | still ht hd =>
    rw [ht, List.append_nil]
    exact h.of_desk hd
  | okay ht hst henv he hd =>
    rw [ht, List.append_nil]
    cases h with
    | «open» hr hg hp hrun stage =>
      refine .open hr hg hp hrun ?_
      rw [hd]
      exact stage.okay henv hst rfl he
    | closed _ desk => cases hst.symm.trans desk.stream
  | @deaf payload ht hst hd =>
    cases h with
    | «open» hr hg hp hrun stage =>
      obtain ⟨st, svc, hst', -⟩ := stage.sync
      cases hst.symm.trans hst'
    | closed hrun desk => exact .closed hrun (hd ▸ desk)
  | @wrte payload st ef ht hst henv hno he hd =>
    rw [ht] at hpre ⊢
    cases h with
    | closed _ desk => cases hst.symm.trans desk.stream
    | @«open» before after left rest answers store hr hg hp hrun stage =>
      obtain ⟨more, hmore⟩ : ∃ more, left ++ rest = payload :: more := by
        obtain ⟨more, hmore⟩ := hpre
        rw [hp, List.append_assoc] at hmore
        exact ⟨more, (List.append_cancel_left hmore).symm⟩
      cases stage with
      | idle hst' hsv hl told wf files =>
        cases hst.symm.trans hst'
        subst hl files
        exact .request hne hr hg hp hmore hrun henv hsv told wf he hd
      | sending hst' hsv =>
        cases hst.symm.trans hst'
        exact absurd hsv (hno _)
      | ending hst' hsv =>
        cases hst.symm.trans hst'
        exact absurd hsv (hno _)
      | @pushing st' bef fs0 req body r hst' hsv hl hnl ha told wf files mid =>
        cases hst.symm.trans hst'
        cases left with
        | nil => exact absurd rfl hl
        | cons p left =>
          obtain ⟨rfl, -⟩ := List.cons.inj hmore
          refine .open hr hg (hp.trans (List.append_cons hist _ _)) hrun ?_
          simp only [onWrte, hsv] at he
          rw [hd, ha, ← files]
          exact Stage.feed henv (fun q hq => hnl q (List.mem_cons_of_mem _ hq)) told wf mid rfl he

end Sys

theorem Chunked.exists (content : Bytes) : ∃ chunks, Chunked content chunks := by
  induction content with
  | nil => exact ⟨[], .nil⟩
  | cons b bs ih =>
    obtain ⟨chunks, h⟩ := ih
    exact ⟨[b] :: chunks, h.cons (List.cons_ne_nil b []) (show 1 ≤ payloadSizeMaxBytes by decide)⟩

theorem Chunked.append {a b : Bytes} {xs ys : List Bytes} (ha : Chunked a xs) (hb : Chunked b ys) :
    Chunked (a ++ b) (xs ++ ys) where
  flatten := by rw [List.flatten_append, ha.flatten, hb.flatten]
  ne_nil c hc := (List.mem_append.mp hc).elim (ha.ne_nil c) (hb.ne_nil c)
  length_le c hc := (List.mem_append.mp hc).elim (ha.length_le c) (hb.length_le c)

/-- The answers come back; all of them, unless a pull is under way. -/
theorem Stage.back {base : List Bytes} {answers : List Answer} {store : Store} {d : Desk}
    (h : Stage base answers store [] d) : d.fs.store = store ∧
      ∃ replies, Spells answers replies ∧ d.wrtes <+: base ++ replies.map Reply.bytes ∧
        ((∀ st file, d.stream = some st → st.service ≠ .sync ⟨.sending ⟨file, false⟩⟩) →
          d.wrtes = base ++ replies.map Reply.bytes) := by
  cases h with
  | idle _ _ _ told _ files =>
    obtain ⟨replies, hr, hw⟩ := told
    exact ⟨files, replies, hr, hw ▸ List.prefix_refl _, fun _ => hw⟩
  | ending _ _ _ _ told _ files =>
    obtain ⟨replies, hr, hw⟩ := told
    exact ⟨files, replies, hr, hw ▸ List.prefix_refl _, fun _ => hw⟩
  | pushing _ _ hl => exact absurd rfl hl
  | @sending st ino before chunks rest hst hsv _ _ chunked ha told _ files =>
    obtain ⟨replies, hr, hw⟩ := told
    obtain ⟨more, hmore⟩ := Chunked.exists rest
    subst ha
    refine ⟨files, _, hr.snoc ⟨chunks ++ more, chunked.append hmore, rfl⟩, ?_,
      fun hno => absurd hsv (hno st _ hst)⟩
    exact ⟨(more.map chunkResponse ++ [doneResponse]).map fun r => (Reply.frame r).bytes, by
      simp [hw, fileFrames]⟩

/-- **A sync client sees the store, through everything the loop does.** A stream is
between two requests; the client sends the requests of a script on it, cut so that
each starts a payload and ends with one, and waits for the end of a pull before it
goes on. Whatever else happens meanwhile (other streams, late OKAYs, completions in
any order), if the files are only written by this stream and its file calls
succeed, then once all is sent the files are the store's, and the WRTEs of the
stream spell the store's answers: all of them, unless a pull is still under way. -/
theorem sync_client_sees_store (script : Script) (payloads : List Bytes) {info : DeviceInfo} {os : Os}
    {s₀ s : Sys} {i : UInt32} {st₀ : Stream}
    (hreach : Reach Sys.step (fun _ _ => True) (Sys.start info os) s₀)
    (hst : s₀.dev.streams.get i = some st₀) (hsv : st₀.service = .sync ⟨.idle⟩)
    (hwf : os.fs.Wf) (hne : ∀ p ∈ payloads, p ≠ [])
    (hcut : Grouped script.requests payloads)
    (h : Reach (observed Sys.step (Sys.asked i)) (fun p e => p.1.ClientOk i e) (s₀, []) (s, payloads)) :
    ∃ answers groups, s₀.dev.os.fs.store.run script.requests = .ok (answers, s.dev.os.fs.store) ∧
      List.Forall₂ Answer.Sent answers groups ∧
      (s.view i).wrtes <+: (s₀.view i).wrtes ++ groups.flatten.map Reply.bytes ∧
      ((∀ st file, s.dev.streams.get i = some st → st.service ≠ .sync ⟨.sending ⟨file, false⟩⟩) →
        (s.view i).wrtes = (s₀.view i).wrtes ++ groups.flatten.map Reply.bytes) := by
  have hown := Sys.ownReads_of_reach hreach
  have hgiven : i.toNat < s₀.nextId.toNat := (hown.given (by rw [hst]; rfl)).2
  have hinv : s.OwnReads ∧ i.toNat < s.nextId.toNat ∧ (payloads <+: payloads →
      s.Asking script payloads (s₀.view i).wrtes s₀.dev.os.fs.store i payloads) := by
    refine h.invariant (I := fun p => p.1.OwnReads ∧ i.toNat < p.1.nextId.toNat ∧
      (p.2 <+: payloads → p.1.Asking script payloads (s₀.view i).wrtes s₀.dev.os.fs.store i p.2))
      ⟨hown, hgiven, fun _ => ?_⟩ ?_
    · have hr : script.requests = [] ++ script.requests := rfl
      have hp : payloads = [] ++ ([] ++ payloads) := rfl
      refine .open hr hcut hp rfl ?_
      exact .idle hst hsv rfl ⟨[], ⟨[], .nil, rfl⟩, by simp [Sys.desk]⟩
        (Sys.filed_of_reach hwf hreach).wf rfl
    · rintro p e q ⟨hown, hi, hask⟩ hc hs
      obtain ⟨hs, hq⟩ := observed_ok hs
      refine ⟨hown.step hs, Nat.lt_of_lt_of_le hi (Sys.nextId_le hs), fun hpre => ?_⟩
      rw [hq] at hpre ⊢
      have hask := hask ((List.prefix_append _ _).trans hpre)
      exact hask.step hne hown hi hc hpre hs
  cases hinv.2.2 (List.prefix_refl _) with
  | @«open» before after left rest answers store hr hg hp hrun stage =>
    have hnil : left ++ rest = [] := by
      have hlen := congrArg List.length hp
      rw [List.length_append] at hlen
      exact List.length_eq_zero_iff.mp (by omega)
    obtain ⟨rfl, rfl⟩ := List.append_eq_nil_iff.mp hnil
    cases after with
    | cons r after =>
      obtain ⟨t, mid, rest', hrest, -⟩ := hg
      cases hrest
    | nil =>
      rw [List.append_nil] at hr
      obtain ⟨hfiles, replies, ⟨groups, hsent, rfl⟩, hpre, hall⟩ := stage.back
      refine ⟨answers, groups, ?_, hsent, hpre, hall⟩
      rw [hr, hrun, ← hfiles]
      rfl
  | closed hrun desk =>
    obtain ⟨replies, ⟨groups, hsent, rfl⟩, hwr⟩ := desk.told
    refine ⟨_, groups, ?_, hsent, ?_, fun _ => hwr⟩
    · rw [hrun, ← desk.files]
      rfl
    · have hwr' : (s.view i).wrtes = _ := hwr
      exact hwr'.symm ▸ List.prefix_refl _

namespace Sys

/-- `ClientOk`, but for the calls. -/
def clientOk (i : UInt32) (p : Sys × List Bytes) (e : Event) : Bool :=
  ((p.1.feeding e).all fun x => x.1 == i) &&
  match p.1.act e i with
  | .clse _ => false
  | .wrte _ =>
    match (p.1.dev.streams.get i).map Stream.service with
    | some (.sync ⟨.sending _⟩) => false
    | _ => true
  | _ => true

theorem ClientOk.of_clientOk {i : UInt32} {p : Sys × List Bytes} {e : Event}
    (hok : clientOk i p e = true) (henv : e.env.Succeeds) : p.1.ClientOk i e := by
  obtain ⟨hfeed, hact⟩ := Bool.and_eq_true_iff.mp hok
  refine ⟨fun _ => henv, fun r ha => ?_, fun payload st sender ha hst hsv => ?_, fun x hx => ?_⟩
  · rw [ha] at hact
    cases hact
  · rw [ha, hst, Option.map_some, hsv] at hact
    cases hact
  · exact beq_iff_eq.mp (List.all_eq_true.mp hfeed x hx)

/-- The turns played one after the other, with the payloads that came for stream `i`. -/
def playAsked (i : UInt32) : Sys × List Bytes → List Turn → Option (Sys × List Bytes)
  | p, [] => some p
  | p, t :: ts => (runGuarded (observed step (asked i)) (clientOk i) p (p.1.turn t)).bind fun q =>
      playAsked i q ts

theorem env_of_turn {s : Sys} {t : Turn} (ht : t.env.Succeeds) {e : Event} (he : e ∈ s.turn t) :
    e.env.Succeeds := by
  have hdef : ({} : Env).Succeeds := fun _ => rfl
  simp only [turn, List.mem_cons, List.not_mem_nil, or_false] at he
  rcases he with rfl | rfl | rfl | rfl
  · exact hdef
  · exact hdef
  · exact hdef
  · exact ht

theorem reach_of_guardedAsked {i : UInt32} {es : List Event} {p q : Sys × List Bytes}
    (henv : ∀ e ∈ es, e.env.Succeeds)
    (h : runGuarded (observed step (asked i)) (clientOk i) p es = some q) :
    Reach (observed step (asked i)) (fun p e => p.1.ClientOk i e) p q := by
  induction es generalizing p with
  | nil =>
    cases h
    exact .refl
  | cons e es ih =>
    unfold runGuarded at h
    split at h
    · rename_i hok
      obtain ⟨u, h1, h2⟩ := Option.bind_eq_some_iff.mp h
      have h1 : Reach (observed step (asked i)) (fun p e => p.1.ClientOk i e) p u :=
        .tail .refl (ClientOk.of_clientOk hok (henv e List.mem_cons_self)) (ok_of_toOption h1)
      exact h1.trans (ih (fun e he => henv e (List.mem_cons_of_mem _ he)) h2)
    · cases h

theorem reach_of_playAsked {i : UInt32} {ts : List Turn} {p q : Sys × List Bytes}
    (henv : ∀ t ∈ ts, t.env.Succeeds) (h : playAsked i p ts = some q) :
    Reach (observed step (asked i)) (fun p e => p.1.ClientOk i e) p q := by
  induction ts generalizing p with
  | nil =>
    cases h
    exact .refl
  | cons t ts ih =>
    obtain ⟨u, h1, h2⟩ := Option.bind_eq_some_iff.mp h
    refine (reach_of_guardedAsked (fun e he => ?_) h1).trans
      (ih (fun t ht => henv t (List.mem_cons_of_mem _ ht)) h2)
    exact env_of_turn (henv t List.mem_cons_self) he

theorem Turn.message_succeeds {c : Command} {arg0 arg1 : UInt32} {payload : Bytes} {t : Turn}
    (h : t ∈ Turn.message c arg0 arg1 payload) : t.env.Succeeds := by
  simp only [Turn.message] at h
  split at h
  · rw [List.mem_singleton.mp h]
    exact fun _ => rfl
  · rcases List.mem_cons.mp h with rfl | h
    · exact fun _ => rfl
    · rw [List.mem_singleton.mp h]
      exact fun _ => rfl

def written (k : UInt32) : Turn := ⟨(UserData.mk .bulkInWrite (NonZeroU32.new k)).toU64, .count 24, {}⟩

end Sys

theorem hi_lt : ∀ c ∈ [ascii "hi"], c.length < 2 ^ 32 := by decide

theorem pushThenPull_noQuit : ∀ r ∈ [SyncRequest.send .sample ⟨[ascii "hi"], 7, hi_lt⟩,
    .recv (ascii "/f") samplePath_lt].dropLast, r.isQuit = false := by
  decide

def Script.pushThenPull : Script where
  requests := [.send .sample ⟨[ascii "hi"], 7, hi_lt⟩, .recv (ascii "/f") samplePath_lt]
  quit_last := pushThenPull_noQuit

def pushThenPullCut : List Bytes :=
  [SendRequest.sample.encode ++ [0x44, 0x41, 0x54, 0x41, 2, 0, 0, 0, 0x68], [0x69] ++ doneFrame 7,
    le32 idRecvV1 ++ lenPrefixed (ascii "/f")]

/-- Stream 1 for the client, and another sync stream. -/
def openSyncs : List Sys.Turn :=
  Sys.openSync ++ Sys.Turn.message .open 9 0 (ascii "sync:" ++ [0])

/-- LSTAT of `/f` on stream 2. -/
def statElsewhere : List Sys.Turn :=
  Sys.Turn.message .wrte 9 2 (le32 idLstatV1 ++ lenPrefixed (ascii "/f"))

/-- The client's messages, and an LSTAT on stream 2 in the middle of the push; the
writes complete before the pull. -/
def pushThenPullTurns : List Sys.Turn :=
  (pushThenPullCut.take 1).flatMap (Sys.Turn.message .wrte 7 1) ++ statElsewhere ++
    [Sys.written 1, Sys.written 2, Sys.written 3, Sys.written 4, Sys.written 5, Sys.written 6] ++
    (pushThenPullCut.drop 1).flatMap (Sys.Turn.message .wrte 7 1) ++
    Sys.Turn.message .okay 7 1 [] ++ Sys.Turn.message .okay 7 1 []

/-- OKAY, the two bytes and DONE come back. -/
theorem sync_client_sees_store_push_pull : ∃ s₀ s : Sys,
    Reach (observed Sys.step (Sys.asked 1)) (fun p e => p.1.ClientOk 1 e) (s₀, [])
      (s, pushThenPullCut) ∧
    s₀.dev.streams.get 1 = some ⟨7, .sync ⟨.idle⟩, false, false⟩ ∧ (s.view 1).wrtes.length = 3 ∧
    ∃ answers groups, s₀.dev.os.fs.store.run Script.pushThenPull.requests =
        .ok (answers, s.dev.os.fs.store) ∧ List.Forall₂ Answer.Sent answers groups ∧
      (s.view 1).wrtes = (s₀.view 1).wrtes ++ groups.flatten.map Reply.bytes := by
  have hplay : ((Sys.fresh.play (fun _ _ => true) openSyncs).bind fun s₀ =>
      (Sys.playAsked 1 (s₀, []) pushThenPullTurns).map fun p => (s₀.dev.streams.get 1,
        p.2, p.1.dev.streams.get 1, (p.1.view 1).wrtes.length)) =
      some (some ⟨7, .sync ⟨.idle⟩, false, false⟩, pushThenPullCut,
        some ⟨7, .sync ⟨.idle⟩, false, false⟩, 3) := by
    decide +kernel
  obtain ⟨s₀, hs₀, h1⟩ := Option.bind_eq_some_iff.mp hplay
  obtain ⟨⟨s, hist⟩, hs, h2⟩ := Option.map_eq_some_iff.mp h1
  simp only [Prod.mk.injEq] at h2
  obtain ⟨hst, rfl, hidle, hlen⟩ := h2
  have hreach : Reach Sys.step (fun _ _ => True) Sys.fresh s₀ :=
    Sys.reach_of_play (fun _ _ _ => trivial) hs₀
  have henv : ∀ t ∈ pushThenPullTurns, t.env.Succeeds := by
    intro t ht
    simp only [pushThenPullTurns, List.mem_append, List.mem_flatMap, List.mem_cons,
      List.not_mem_nil, or_false] at ht
    rcases ht with ((((⟨_, -, h⟩ | h) | h) | ⟨_, -, h⟩) | h) | h
    · exact Sys.Turn.message_succeeds h
    · exact Sys.Turn.message_succeeds h
    · rcases h with rfl | rfl | rfl | rfl | rfl | rfl
      all_goals exact fun _ => rfl
    · exact Sys.Turn.message_succeeds h
    · exact Sys.Turn.message_succeeds h
    · exact Sys.Turn.message_succeeds h
  have hclient := Sys.reach_of_playAsked henv hs
  have hwf : Fs.empty.Wf := by
    intro path ino h
    cases h
  obtain ⟨answers, groups, hrun, hsent, -, hall⟩ := sync_client_sees_store .pushThenPull
    pushThenPullCut hreach hst rfl hwf (by decide +kernel)
    ⟨_, [[0x69] ++ doneFrame 7], _, rfl, by decide +kernel, [], [], [], by decide +kernel, rfl, rfl⟩
    hclient
  refine ⟨s₀, s, hclient, hst, hlen, answers, groups, hrun, hsent, hall fun st file hst' hsv => ?_⟩
  rw [hidle] at hst'
  cases hst'
  cases hsv

end Adibi
