/-
The program `add.s`.

`myatoi` answers -1 on an invalid string, and each argument is tested by adding 1 and
comparing with zero.  The first addition is made in `eax`, which is half of the
register:

* `main` — the program;
* `accepts_iff` — what it takes as its two arguments;
* `commutes_iff` — when it does the same with the arguments exchanged.
-/
import Mathlib.Data.BitVec
import UnixPrograms.Bytes

namespace AddProgram

open Bytes

inductive Printed where
  | text (s : String)
  /-- `"%d + %d = %d\n"`, with the numbers as `%d` reads them. -/
  | sum (num1 num2 res : ℤ)
deriving DecidableEq

def usage : String := "Usage: add <num 1> <num 2>\n"

def newOutput : String := "Must enter two integers. Try Again...\n"

/-- `myatoi`: the value in `rax`, -1 on an invalid character. -/
def myatoi (s : CString) : BitVec 64 := parse 10 decDigit 0 s

/-- A number as `%d` shows it: its low half, with a sign. -/
def asInt (x : BitVec 64) : ℤ := (x.setWidth 32).toInt

/-- `inc eax`, which clears the upper half of `rax`. -/
def incEax (rax : BitVec 64) : BitVec 64 := (rax.setWidth 32 + 1 : BitVec 32).setWidth 64

/-- The program: what it prints, and its exit status. -/
def main : List CString → Printed × ℕ
  | [_, arg1, arg2] =>
    let num1 := myatoi arg1
    if incEax num1 = 0 then (.text newOutput, 0)
    else
      let num2 := myatoi arg2
      if num2 + 1 = 0 then (.text newOutput, 0)
      else (.sum (asInt num1) (asInt num2) (asInt (num1 + num2)), 0)
  | _ => (.text usage, 1)

/-! ### The two tests -/

theorem incEax_eq_zero_iff {rax : BitVec 64} : incEax rax = 0 ↔ rax.setWidth 32 = -1 := by
  have hwide : incEax rax = 0 ↔ (rax.setWidth 32 + 1 : BitVec 32) = 0 := by
    constructor
    · intro h
      have hval := congrArg BitVec.toNat h
      rw [incEax, BitVec.toNat_setWidth_of_le (by decide)] at hval
      exact BitVec.eq_of_toNat_eq hval
    · intro h
      rw [incEax, h]
      rfl
  rw [hwide]
  exact add_eq_zero_iff_eq_neg

theorem add_one_eq_zero_iff {rax : BitVec 64} : rax + 1 = 0 ↔ rax = -1 :=
  add_eq_zero_iff_eq_neg

variable (prog a b : CString)

/-- The program takes the two strings, and prints a sum. -/
def Accepts : Prop := ∃ num1 num2 res, (main [prog, a, b]).1 = .sum num1 num2 res

/-- **What the program takes**: the low half of the first value is not -1, nor is the
second value. -/
theorem accepts_iff : Accepts prog a b ↔ (myatoi a).setWidth 32 ≠ -1 ∧ myatoi b ≠ -1 := by
  rw [Accepts, main, Ne, Ne, ← incEax_eq_zero_iff, ← add_one_eq_zero_iff]
  by_cases ha : incEax (myatoi a) = 0
  · rw [if_pos ha]
    refine iff_of_false ?_ fun h => h.1 ha
    rintro ⟨num1, num2, res, h⟩
    exact Printed.noConfusion h
  · rw [if_neg ha]
    by_cases hb : myatoi b + 1 = 0
    · rw [if_pos hb]
      refine iff_of_false ?_ fun h => h.2 hb
      rintro ⟨num1, num2, res, h⟩
      exact Printed.noConfusion h
    · rw [if_neg hb]
      exact iff_of_true ⟨_, _, _, rfl⟩ ⟨ha, hb⟩

/-- The sum that is printed. -/
theorem main_of_accepts (h : Accepts prog a b) :
    (main [prog, a, b]).1 = .sum (asInt (myatoi a)) (asInt (myatoi b))
      (asInt (myatoi a + myatoi b)) := by
  obtain ⟨ha, hb⟩ := (accepts_iff prog a b).mp h
  rw [main, if_neg (mt incEax_eq_zero_iff.mp ha), if_neg (mt add_one_eq_zero_iff.mp hb)]

/-! ### The arguments exchanged -/

/-- The order of the arguments does not matter, and a pair is taken exactly if
`myatoi` finds no error in either string. -/
def Commutes : Prop :=
  (Accepts prog a b ↔ Accepts prog b a) ∧
    (Accepts prog a b ↔ myatoi a ≠ -1 ∧ myatoi b ≠ -1) ∧
    ∀ num1 num2 res num1' num2' res', (main [prog, a, b]).1 = .sum num1 num2 res →
      (main [prog, b, a]).1 = .sum num1' num2' res' → res = res'

/-- One of the strings is invalid, or the low half of neither value is -1. -/
def LowHalvesFit : Prop :=
  myatoi a = -1 ∨ myatoi b = -1 ∨
    ((myatoi a).setWidth 32 ≠ -1 ∧ (myatoi b).setWidth 32 ≠ -1)

variable {a} in
/-- The error value has -1 in its low half. -/
theorem low_of_error (h : myatoi a = -1) : (myatoi a).setWidth 32 = -1 := by
  rw [h]
  decide

/-- The sum does not depend on the order. -/
theorem sum_comm {num1 num2 res num1' num2' res' : ℤ}
    (h : (main [prog, a, b]).1 = .sum num1 num2 res)
    (h' : (main [prog, b, a]).1 = .sum num1' num2' res') : res = res' := by
  rw [main_of_accepts prog a b ⟨_, _, _, h⟩] at h
  rw [main_of_accepts prog b a ⟨_, _, _, h'⟩] at h'
  obtain ⟨-, -, rfl⟩ := Printed.sum.inj h
  obtain ⟨-, -, rfl⟩ := Printed.sum.inj h'
  rw [add_comm]

/-- **When the order of the arguments does not matter.** -/
theorem commutes_iff : Commutes prog a b ↔ LowHalvesFit a b := by
  rw [Commutes, LowHalvesFit, accepts_iff, accepts_iff]
  constructor
  · rintro ⟨hswap, hvalid, -⟩
    by_cases ha : myatoi a = -1
    · exact Or.inl ha
    · by_cases hb : myatoi b = -1
      · exact Or.inr (Or.inl hb)
      · have hab := hvalid.mpr ⟨ha, hb⟩
        exact Or.inr (Or.inr ⟨hab.1, (hswap.mp hab).1⟩)
  · intro h
    refine ⟨?_, ?_, fun _ _ _ _ _ _ => sum_comm prog a b⟩
    · rcases h with ha | hb | ⟨ha, hb⟩
      · exact iff_of_false (fun hab => hab.1 (low_of_error ha)) fun hba => hba.2 ha
      · exact iff_of_false (fun hab => hab.2 hb) fun hba => hba.1 (low_of_error hb)
      · exact iff_of_true ⟨ha, mt low_of_error hb⟩ ⟨hb, mt low_of_error ha⟩
    · rcases h with ha | hb | ⟨ha, hb⟩
      · exact iff_of_false (fun hab => hab.1 (low_of_error ha)) fun hab => hab.1 ha
      · exact iff_of_false (fun hab => hab.2 hb) fun hab => hab.2 hb
      · exact iff_of_true ⟨ha, mt low_of_error hb⟩ ⟨mt low_of_error ha, mt low_of_error hb⟩

/-- 4294967295 is refused as the first argument, and taken as the second. -/
theorem low_half_refused :
    ¬ Commutes [] (text ['4', '2', '9', '4', '9', '6', '7', '2', '9', '5']) (text ['1']) := by
  rw [commutes_iff, LowHalvesFit]
  decide +kernel

end AddProgram
