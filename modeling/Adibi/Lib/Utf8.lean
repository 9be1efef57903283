import Adibi.Lib.Bytes

/-!
# UTF-8

`lead` reads the sequence at the head of a byte string: the length of a
well-formed one, or the length of the longest ill-formed prefix that could
still have begun one. `valid` accepts exactly the byte strings made of
well-formed sequences; `lossy` copies those and writes U+FFFD for each
ill-formed one.
-/

namespace Adibi.Lib.Utf8

def isCont (b : UInt8) : Bool := 0x80 ≤ b.toNat && b.toNat ≤ 0xbf

/-- The second bytes allowed after a lead byte (no overlong forms, no
surrogates, nothing above U+10FFFF). -/
def secondOk (lead second : UInt8) : Bool :=
  match lead.toNat with
  | 0xe0 => 0xa0 ≤ second.toNat && second.toNat ≤ 0xbf
  | 0xed => 0x80 ≤ second.toNat && second.toNat ≤ 0x9f
  | 0xf0 => 0x90 ≤ second.toNat && second.toNat ≤ 0xbf
  | 0xf4 => 0x80 ≤ second.toNat && second.toNat ≤ 0x8f
  | _ => isCont second

/-- How many bytes a sequence with this lead byte has (`0`: no sequence has it). -/
def width (b : UInt8) : Nat :=
  if b.toNat < 0x80 then 1
  else if 0xc2 ≤ b.toNat && b.toNat ≤ 0xdf then 2
  else if 0xe0 ≤ b.toNat && b.toNat ≤ 0xef then 3
  else if 0xf0 ≤ b.toNat && b.toNat ≤ 0xf4 then 4
  else 0

/-- The number of bytes of `bs` (at most `n`) that continue a sequence. -/
def contRun : Nat → Bytes → Nat
  | n + 1, b :: bs => if isCont b then contRun n bs + 1 else 0
  | _, _ => 0

/-- `.ok n`: a sequence of `n` bytes. `.error n`: an ill-formed prefix of `n`. -/
def lead (b : UInt8) (bs : Bytes) : Except Nat Nat :=
  match width b with
  | 0 => .error 1
  | 1 => .ok 1
  | w =>
    match bs with
    | c :: cs =>
      if secondOk b c then
        let got := 2 + contRun (w - 2) cs
        if got = w then .ok w else .error got
      else .error 1
    | [] => .error 1

def valid : Bytes → Bool
  | [] => true
  | b :: bs =>
    match lead b bs with
    | .ok n => valid (bs.drop (n - 1))
    | .error _ => false
termination_by bs => bs.length
decreasing_by simp only [List.length_drop, List.length_cons]; omega

def lossy : Bytes → Bytes
  | [] => []
  | b :: bs =>
    match lead b bs with
    | .ok n => b :: bs.take (n - 1) ++ lossy (bs.drop (n - 1))
    | .error n => [0xef, 0xbf, 0xbd] ++ lossy (bs.drop (n - 1))
termination_by bs => bs.length
decreasing_by all_goals simp only [List.length_drop, List.length_cons]; omega

example : lossy [65, 0xff, 0xe2, 0x82, 66] =
    [65, 0xef, 0xbf, 0xbd, 0xef, 0xbf, 0xbd, 66] := by decide +kernel

theorem lossy_length_le (bs : Bytes) : (lossy bs).length ≤ 3 * bs.length := by
  induction bs using lossy.induct with
  | case1 => simp [lossy]
  | case2 b bs n h ih =>
    rw [lossy, h]
    simp only [List.length_append, List.length_cons, List.length_take, List.length_drop] at ih ⊢
    omega
  | case3 b bs n h ih =>
    rw [lossy, h]
    simp only [List.length_append, List.length_cons, List.length_nil, List.length_drop] at ih ⊢
    omega

end Adibi.Lib.Utf8
