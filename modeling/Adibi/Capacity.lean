import Adibi.Routing

/-!
# Room for submissions

A submission takes write slots and queue entries. Whether a list of submissions
goes through depends on how many are left and on nothing else (`emitAll_ok_iff`),
so not on the order.
-/

namespace Adibi

open Lib

namespace Out

/-- The queue entries a submission takes. -/
def entries : Out → Nat
  | .message _ payload => if payload = [] then 1 else 2
  | .op _ => 1

def Short : Out → Prop
  | .message _ payload => payload.length < 2 ^ 32
  | .op _ => True

end Out

namespace Dev

variable {d d' : Dev}

/-- There are slots and queue entries for the submissions. -/
structure Room (d : Dev) (outs : List Out) : Prop where
  slots : d.buffers.used + (outs.map Out.cost).sum ≤ maxBufferSlots
  queue : outs ≠ [] → d.sq.length + (outs.map Out.entries).sum ≤ sqEntries
  short : ∀ o ∈ outs, o.Short

/-- `d'` has used the slots and the queue entries of the submissions. -/
structure Took (d d' : Dev) (slots entries : Nat) : Prop where
  slots : d'.buffers.used = d.buffers.used + slots
  entries : d'.sq.length = d.sq.length + entries

theorem submitWrite_took {bytes : Bytes} {link : Bool} (h : d.submitWrite bytes link = .ok d') :
    d.HasSlot ∧ bytes.length < 2 ^ 32 ∧ d.Took d' 1 1 := by
  have hlen : bytes.length < 2 ^ 32 := by
    obtain ⟨x, -, h1⟩ := bind_eq_ok.mp h
    obtain ⟨n, hn, -⟩ := bind_eq_ok.mp h1
    rw [← lenU32_ok hn]
    exact n.toNat_lt
  have hu := submitWrite_used h
  refine ⟨(submitWrite_ok_iff hlen link).mp ⟨d', h⟩, hlen, hu, ?_⟩
  obtain ⟨slot, buffers, -, rfl⟩ := submitWrite_ok h
  simp

theorem emit_message_eq {h : AdbHeader} {p : Bytes} (hp : p ≠ []) :
    d.emit (.message h p) = d.submitWrite h.asLeBytes true >>= fun d =>
      d.submitWrite p false >>= fun d => .ok (d.log (.sent h p)) := by
  have hf : (some p).filter (· ≠ []) = some p := by simp [Option.filter, hp]
  simp only [emit, submitMessage, hf]
  rfl

theorem emit_took {o : Out} (h : d.emit o = .ok d') : d.Room [o] ∧ d.Took d' o.cost o.entries := by
  cases emitted_of_ok h with
  | op u hq =>
    refine ⟨⟨?_, ?_, fun o ho => ?_⟩, ?_, ?_⟩
    · simpa [Out.cost] using d.buffers.used_le
    · intro _
      simp only [List.map_cons, List.map_nil, List.sum_cons, List.sum_nil, Out.entries]
      omega
    · rw [List.mem_singleton.mp ho]
      trivial
    · rfl
    · simp [Out.entries]
  | bare h1 =>
    obtain ⟨⟨hs, hq⟩, -, ht⟩ := submitWrite_took h1
    refine ⟨⟨?_, fun _ => ?_, fun o ho => ?_⟩, ht.slots, ht.entries⟩
    · simp only [List.map_cons, List.map_nil, List.sum_cons, List.sum_nil, Out.cost, if_true]
      omega
    · simp only [List.map_cons, List.map_nil, List.sum_cons, List.sum_nil, Out.entries, if_true]
      omega
    · rw [List.mem_singleton.mp ho]
      exact Nat.two_pow_pos 32
  | @full header payload d1 d2 hp h1 h2 =>
    obtain ⟨-, -, ht1⟩ := submitWrite_took h1
    obtain ⟨⟨hs, hq⟩, hlen, ht2⟩ := submitWrite_took h2
    have hs1 := ht1.slots
    have hq1 := ht1.entries
    have hs2 : (d2.log (.sent header payload)).buffers.used = d1.buffers.used + 1 := ht2.slots
    have hq2 : (d2.log (.sent header payload)).sq.length = d1.sq.length + 1 := ht2.entries
    refine ⟨⟨?_, fun _ => ?_, fun o ho => ?_⟩, ?_, ?_⟩
    · simp only [List.map_cons, List.map_nil, List.sum_cons, List.sum_nil, Out.cost, if_neg hp]
      omega
    · simp only [List.map_cons, List.map_nil, List.sum_cons, List.sum_nil, Out.entries, if_neg hp]
      omega
    · rw [List.mem_singleton.mp ho]
      exact hlen
    · simp only [Out.cost, if_neg hp]
      omega
    · simp only [Out.entries, if_neg hp]
      omega

theorem emit_of_room {o : Out} (h : d.Room [o]) : ∃ d', d.emit o = .ok d' := by
  obtain ⟨hs, hq, hlen⟩ := h
  have hlen := hlen o List.mem_cons_self
  have hq := hq (List.cons_ne_nil _ _)
  simp only [List.map_cons, List.map_nil, List.sum_cons, List.sum_nil, Nat.add_zero] at hs hq
  cases o with
  | op u =>
    have hq : d.sq.length < sqEntries := hq
    exact ⟨_, if_pos hq⟩
  | message header payload =>
    by_cases hp : payload = []
    · subst hp
      exact emit_bare_ok_iff.mpr ⟨hs, hq⟩
    · simp only [Out.cost, Out.entries, if_neg hp] at hs hq
      have hhdr : header.asLeBytes.length < 2 ^ 32 := by
        rw [AdbHeader.asLeBytes_length]
        decide
      have h0 : d.HasSlot := ⟨by omega, by omega⟩
      obtain ⟨d1, h1⟩ := (submitWrite_ok_iff hhdr true).mpr h0
      obtain ⟨-, -, ht⟩ := submitWrite_took h1
      have hs1 := ht.slots
      have hq1 := ht.entries
      have h2 : d1.HasSlot := ⟨by omega, by omega⟩
      obtain ⟨d2, h3⟩ := (submitWrite_ok_iff hlen false).mpr h2
      exact ⟨_, by rw [emit_message_eq hp, h1, ok_bind, h3, ok_bind]⟩

theorem emitAll_took {outs : List Out} (h : d.emitAll outs = .ok d') :
    d.Took d' (outs.map Out.cost).sum (outs.map Out.entries).sum := by
  induction outs generalizing d with
  | nil =>
    cases h
    exact ⟨rfl, rfl⟩
  | cons o outs ih =>
    obtain ⟨d1, h1, h2⟩ := bind_eq_ok.mp h
    obtain ⟨hs, hq⟩ := (emit_took h1).2
    obtain ⟨hs', hq'⟩ := ih h2
    simp only [List.map_cons, List.sum_cons]
    exact ⟨by omega, by omega⟩

theorem room_append {xs ys : List Out}
    (ht : d.Took d' (xs.map Out.cost).sum (xs.map Out.entries).sum) (hxs : d.Room xs) :
    d.Room (xs ++ ys) ↔ d'.Room ys := by
  obtain ⟨hs, hq⟩ := ht
  constructor
  · rintro ⟨h1, h2, h3⟩
    rw [List.map_append, List.sum_append] at h1 h2
    refine ⟨by omega, fun hne => ?_, fun p hp => h3 p (List.mem_append_right _ hp)⟩
    have := h2 (List.append_ne_nil_of_right_ne_nil _ hne)
    omega
  · rintro ⟨h1, h2, h3⟩
    refine ⟨?_, fun hne => ?_, fun p hp => ?_⟩
    · rw [List.map_append, List.sum_append]
      omega
    · rw [List.map_append, List.sum_append]
      by_cases hnil : ys = []
      · subst hnil
        rw [List.append_nil] at hne
        have := hxs.queue hne
        simpa using this
      · have := h2 hnil
        omega
    · rcases List.mem_append.mp hp with hp | hp
      · exact hxs.short p hp
      · exact h3 p hp

theorem Room.left {xs ys : List Out} (h : d.Room (xs ++ ys)) : d.Room xs := by
  obtain ⟨h1, h2, h3⟩ := h
  rw [List.map_append, List.sum_append] at h1 h2
  refine ⟨by omega, fun hne => ?_, fun p hp => h3 p (List.mem_append_left _ hp)⟩
  have := h2 (List.append_ne_nil_of_left_ne_nil hne _)
  omega

/-- **Submissions go through exactly if there is room for all of them.** -/
theorem emitAll_ok_iff {outs : List Out} : (∃ d', d.emitAll outs = .ok d') ↔ d.Room outs := by
  induction outs generalizing d with
  | nil =>
    refine ⟨fun _ => ⟨?_, fun h => absurd rfl h, fun o ho => nomatch ho⟩, fun _ => ⟨d, rfl⟩⟩
    simpa using d.buffers.used_le
  | cons o outs ih =>
    constructor
    · rintro ⟨d', h⟩
      obtain ⟨d1, h1, h2⟩ := bind_eq_ok.mp h
      obtain ⟨hroom, htook⟩ := emit_took h1
      exact (room_append (by simpa using htook) hroom).mpr (ih.mp ⟨d', h2⟩)
    · intro h
      have ho : d.Room [o] := Room.left h
      obtain ⟨d1, h1⟩ := emit_of_room ho
      obtain ⟨hroom, htook⟩ := emit_took h1
      obtain ⟨d', h2⟩ := ih.mpr ((room_append (by simpa using htook) hroom).mp h)
      exact ⟨d', by rw [emitAll_cons, h1, ok_bind, h2]⟩

/-- The order of submissions does not matter for whether they go through. -/
theorem Room.perm {outs outs' : List Out} (h : d.Room outs) (hp : outs.Perm outs') : d.Room outs' where
  slots := by
    rw [← (hp.map Out.cost).sum_nat]
    exact h.slots
  queue hne := by
    rw [← (hp.map Out.entries).sum_nat]
    refine h.queue fun he => hne ?_
    rw [he] at hp
    exact hp.nil_eq.symm
  short o ho := h.short o (hp.mem_iff.mpr ho)

end Dev

end Adibi
