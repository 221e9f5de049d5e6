/-
The program `factorial.s`, and what it and the menu's `FACTOR` print for one number.

The program has the loop of the menu, but it reports the variable that the loop has
counted down:

* `mult`, `main` — its loop and the program;
* `mult_eq` — the loop multiplies to the factorial, and leaves 1 in `NUM1`;
* `typedLine` — what `FACTOR` gets of a line, `numeral_take` of its digits;
* `factor_right_iff`, `alone_right_iff` — for which numbers each of the two prints
  the number and its factorial, or an error.
-/
import UnixPrograms.MenuFibonacciRuns

namespace FactorialProgram

open Bytes
open MenuProgram (Printed asInt TypedPositive typedNumber typedString fresh factMessage factUsage)
open scoped Nat

/-! ### The code -/

def usage : String := "Usage: add <num 1>\n"

def newOutput : String := "This Sucks\n"

/-- `myatoi`. -/
def myatoi (s : CString) : BitVec 64 := parse 10 decDigit 0 s

/-- `MULT`: `NUM1` and `RES_1`; the loop ends when `NUM1` has come down to 1. -/
def mult (num1 res1 : BitVec 64) : BitVec 64 × BitVec 64 :=
  let rax := num1 * res1
  let num1' := num1 - 1
  if num1' = 1 then (num1', rax) else mult num1' rax
termination_by (num1 - 1 - 1).toNat
decreasing_by exact MenuProgram.toNat_dec_lt fun h => ‹¬ _› (sub_eq_zero.mp h)

/-- The program: what it prints, and its exit status. -/
def main : List CString → List Printed × ℕ
  | [_, num] =>
    let rax := myatoi num
    if rax = -1 then ([.text newOutput], 2)
    -- `jle`; the `js` after it is never taken
    else if rax.sle 1 then ([.factorial (asInt rax) (asInt 1)], 0)
    else
      let (num1, res1) := mult rax 1
      ([.factorial (asInt num1) (asInt res1)], 0)
  | _ => ([.text usage], 1)

/-! ### The loop -/

/-- **The product is right, the number is not.** -/
theorem mult_eq (n : ℕ) (res1 : BitVec 64) (hn : n + 2 < 2 ^ 64) :
    mult (BitVec.ofNat 64 (n + 2)) res1 = (1, res1 * BitVec.ofNat 64 (n + 2)!) := by
  induction n generalizing res1 with
  | zero =>
    have hdone : BitVec.ofNat 64 (0 + 2) - 1 = 1 := by decide
    rw [mult, if_pos hdone, hdone, mul_comm]
    rfl
  | succ n ih =>
    have hdec : BitVec.ofNat 64 (n + 1 + 2) - 1 = BitVec.ofNat 64 (n + 2) := by
      rw [show n + 1 + 2 = n + 2 + 1 by omega, BitVec.ofNat_add (n + 2) 1]
      exact add_sub_cancel_right _ _
    have hmore : BitVec.ofNat 64 (n + 2) ≠ 1 := by
      intro hone
      have hval := congrArg BitVec.toNat hone
      rw [BitVec.toNat_ofNat, Nat.mod_eq_of_lt (by omega)] at hval
      exact absurd hval (by simp)
    rw [mult, hdec, if_neg hmore, ih _ (by omega), show n + 1 + 2 = n + 2 + 1 by omega,
      Nat.factorial_succ (n + 2), BitVec.ofNat_mul]
    congr 1
    ring

/-! ### Numbers as `%d` shows them -/

theorem asInt_lt (x : BitVec 64) : asInt x < 2 ^ 31 := by
  have h := BitVec.toInt_lt (x := x.setWidth 32)
  rw [asInt]
  omega

theorem asInt_ofNat {k : ℕ} (hk : k < 2 ^ 31) : asInt (BitVec.ofNat 64 k) = k := by
  rw [asInt, BitVec.setWidth_ofNat_of_le (by decide), BitVec.toInt_ofNat']
  exact Int.bmod_eq_of_le (by omega) (by omega)

/-- The factorials that `%d` can show. -/
theorem factorial_lt_iff {n : ℕ} : n ! < 2 ^ 31 ↔ n ≤ 12 := by
  constructor
  · intro h
    by_contra hlarge
    have hle : 13 ! ≤ n ! := Nat.factorial_le (by omega)
    have hthirteen : 2 ^ 31 ≤ 13 ! := by decide
    omega
  · intro h
    exact (Nat.factorial_le h).trans_lt (by decide)

/-! ### What is typed -/

/-- `BUFFER_LEN`. -/
def bufferLen : ℕ := 256

/-- What `read` delivers of a line: a long one is cut, and its newline is not there. -/
def typedLine (num : CString) : List Byte := (num ++ [0x0a]).take bufferLen

/-- The last byte is overwritten in either case. -/
theorem typedString_typedLine (num : CString) :
    typedString (typedLine num) = num.take (bufferLen - 1) := by
  rw [typedString, typedLine]
  by_cases hlen : num.length < bufferLen
  · have hshort : num.length ≤ bufferLen - 1 := Nat.le_sub_one_of_lt hlen
    rw [List.take_of_length_le (by simpa using hlen), List.dropLast_concat,
      List.take_of_length_le hshort]
  · have hlong : bufferLen ≤ num.length := Nat.le_of_not_lt hlen
    rw [List.take_append_of_le_length hlong]
    rcases hlong.eq_or_lt with heq | hlt
    · rw [heq, List.take_length, List.dropLast_eq_take]
    · exact List.dropLast_take hlt

section Prefix

variable {base : ℕ} {digit : Byte → Option ℕ} {s : List Byte}

theorem digits_take {ds : List ℕ} (h : digits digit s = some ds) (k : ℕ) :
    digits digit (s.take k) = some (ds.take k) := by
  induction s generalizing k ds with
  | nil =>
    obtain rfl : ds = [] := (Option.some.inj h).symm
    rw [List.take_nil, List.take_nil]
    exact h
  | cons c s ih =>
    cases k with
    | zero => rfl
    | succ k =>
      rw [List.take_succ_cons]
      by_cases hc : c = 0
      · subst hc
        obtain rfl : ds = [] := (Option.some.inj h).symm
        rfl
      · obtain ⟨d, ds', hd, hds', rfl⟩ := exists_of_digits_cons hc h
        rw [digits_cons hc, hd, ih hds' k]
        rfl

/-- **The front of a numeral** is a numeral, of a number that is no larger. -/
theorem numeral_take {n : ℕ} (hbase : 0 < base) (h : numeral base digit s = some n) (k : ℕ) :
    ∃ m, numeral base digit (s.take k) = some m ∧ m ≤ n := by
  obtain ⟨ds, hds, rfl⟩ := Option.map_eq_some_iff.mp h
  refine ⟨_, by rw [numeral, digits_take hds k]; rfl, ?_⟩
  -- the digits that are missing make up the low end of the number
  have hsplit : ds.reverse = (ds.drop k).reverse ++ (ds.take k).reverse := by
    rw [← List.reverse_append, List.take_append_drop]
  rw [hsplit, Nat.ofDigits_append]
  exact (Nat.le_mul_of_pos_left _ (Nat.pow_pos hbase)).trans (Nat.le_add_left _ _)

end Prefix

/-! ### What the two programs print -/

/-- `FACTOR`, in a new process, prints the number and its factorial, or an error. -/
def FactorRight (chunk : List Byte) (rbx : BitVec 64) (n : ℕ) : Prop :=
  (MenuProgram.factor chunk (fresh rbx)).2 = [.text factMessage, .factorial n n !] ∨
    (MenuProgram.factor chunk (fresh rbx)).2 = [.text factMessage, .text factUsage]

/-- The program alone prints the number and its factorial, or an error. -/
def AloneRight (prog num : CString) (n : ℕ) : Prop :=
  (main [prog, num]).1 = [.factorial n n !] ∨ (main [prog, num]).1 = [.text newOutput]

variable {chunk : List Byte} {num : CString} {m n : ℕ}

theorem ofNat_eq_zero_iff : BitVec.ofNat 64 n = 0 ↔ n % 2 ^ 64 = 0 := by
  rw [← BitVec.toNat_inj, BitVec.toNat_ofNat]
  rfl

theorem ofNat_slt_zero_iff : (BitVec.ofNat 64 n).slt 0 = true ↔ 2 ^ 63 ≤ n % 2 ^ 64 := by
  rw [slt_zero_iff, BitVec.toNat_ofNat]

/-- The register that `FACTOR` works with. -/
theorem myStrtol_typed (h : numeral 10 decDigit (typedString chunk) = some m) :
    MenuProgram.myStrtol (typedString chunk) = BitVec.ofNat 64 m := by
  rw [MenuProgram.myStrtol_eq, h]
  rfl

/-- A number that `FACTOR` takes is printed with its low half as a number of 32 bits, and
so is the product. -/
theorem factor_right_of_positive (h : numeral 10 decDigit (typedString chunk) = some m)
    (hpos : TypedPositive chunk) (hmn : m ≤ n) (rbx : BitVec 64) :
    FactorRight chunk rbx n ↔ n ≤ 12 ∧ m = n := by
  have hrax := myStrtol_typed h
  have hprinted := (MenuProgram.factor_positive (s := fresh rbx) hpos).2
  have htyped : typedNumber chunk = m % 2 ^ 64 := by
    rw [typedNumber, hrax, BitVec.toNat_ofNat]
  have hlow := hpos.1
  have hone : (fresh rbx).res1 * BitVec.ofNat 64 (m % 2 ^ 64)! = BitVec.ofNat 64 (m % 2 ^ 64)! :=
    one_mul _
  rw [htyped] at hlow hprinted
  rw [FactorRight, hprinted, hrax, hone]
  constructor
  · rintro (hline | hline)
    · obtain ⟨hnum, hres⟩ := Printed.factorial.inj (List.cons.inj (List.cons.inj hline).2).1
      have hfact := hres.symm.trans_lt (asInt_lt _)
      have hle := factorial_lt_iff.mp (by exact_mod_cast hfact : n ! < 2 ^ 31)
      rw [asInt_ofNat (by omega)] at hnum
      exact ⟨hle, by exact_mod_cast hnum⟩
    · exact absurd (List.cons.inj (List.cons.inj hline).2).1 (by simp)
  · rintro ⟨hle, rfl⟩
    rw [Nat.mod_eq_of_lt (by omega), asInt_ofNat (by omega), asInt_ofNat (factorial_lt_iff.mpr hle)]
    exact Or.inl rfl

/-- **When `FACTOR` is right** about a number, of which it has got the front: up to
12!, and where it reports an error. -/
theorem factor_right_iff (h : numeral 10 decDigit (typedString chunk) = some m)
    (hn : 1 ≤ n) (hmn : m ≤ n) (rbx : BitVec 64) :
    FactorRight chunk rbx n ↔
      (n ≤ 12 ∧ m = n) ∨ m % 2 ^ 64 = 0 ∨ m % 2 ^ 64 = 2 ^ 64 - 1 := by
  have hrax := myStrtol_typed h
  by_cases hpos : TypedPositive chunk
  · rw [factor_right_of_positive h hpos hmn rbx]
    obtain ⟨hlow, hhigh⟩ := hpos
    rw [typedNumber, hrax, BitVec.toNat_ofNat] at hlow hhigh
    refine ⟨Or.inl, ?_⟩
    rintro (hright | hzero | hneg)
    · exact hright
    · omega
    · omega
  · rw [MenuProgram.typedPositive_iff, hrax, Ne, Ne, ofNat_eq_neg_one_iff, ofNat_eq_zero_iff,
      ofNat_slt_zero_iff] at hpos
    rw [FactorRight, MenuProgram.factor, hrax]
    by_cases hneg : m % 2 ^ 64 = 2 ^ 64 - 1
    · rw [if_pos (ofNat_eq_neg_one_iff.mpr hneg)]
      exact iff_of_true (Or.inr rfl) (Or.inr (Or.inr hneg))
    · rw [if_neg (mt ofNat_eq_neg_one_iff.mp hneg)]
      by_cases hzero : m % 2 ^ 64 = 0
      · rw [if_pos (ofNat_eq_zero_iff.mpr hzero)]
        exact iff_of_true (Or.inr rfl) (Or.inr (Or.inl hzero))
      · -- a negative number: `EXIT` without a word
        have hslt : 2 ^ 63 ≤ m % 2 ^ 64 := by
          by_contra hlt
          exact hpos ⟨hneg, hzero, hlt⟩
        rw [if_neg (mt ofNat_eq_zero_iff.mp hzero), if_pos (ofNat_slt_zero_iff.mpr hslt)]
        refine iff_of_false (by simp) ?_
        omega

theorem ofNat_sle_one_iff :
    (BitVec.ofNat 64 n).sle 1 = true ↔ n % 2 ^ 64 ≤ 1 ∨ 2 ^ 63 ≤ n % 2 ^ 64 := by
  have hone : (1 : BitVec 64).toInt = 1 := by decide
  have hlt : n % 2 ^ 64 < 2 ^ 64 := Nat.mod_lt _ (by decide)
  rw [BitVec.sle_iff_toInt_le, hone, BitVec.toInt_eq_toNat_cond, BitVec.toNat_ofNat]
  split <;> omega

/-- **When the program alone is right**: for 1, and where it reports an error. -/
theorem alone_right_iff (h : numeral 10 decDigit num = some n) (hn : 1 ≤ n) (prog : CString) :
    AloneRight prog num n ↔ n = 1 ∨ n % 2 ^ 64 = 2 ^ 64 - 1 := by
  have hrax : myatoi num = BitVec.ofNat 64 n := by
    rw [myatoi, parse_eq_numeral, h]
    rfl
  rw [AloneRight, main, hrax]
  by_cases hneg : n % 2 ^ 64 = 2 ^ 64 - 1
  · rw [if_pos (ofNat_eq_neg_one_iff.mpr hneg)]
    exact iff_of_true (Or.inr rfl) (Or.inr hneg)
  · rw [if_neg (mt ofNat_eq_neg_one_iff.mp hneg)]
    by_cases hsle : n % 2 ^ 64 ≤ 1 ∨ 2 ^ 63 ≤ n % 2 ^ 64
    · -- the answer 1 is the factorial of 1 only
      rw [if_pos (ofNat_sle_one_iff.mpr hsle)]
      constructor
      · rintro (hline | hline)
        · obtain ⟨-, hres⟩ := Printed.factorial.inj (List.cons.inj hline).1
          have hasInt : asInt 1 = 1 := by decide
          have hone : n ! = 1 := by exact_mod_cast hres.symm.trans hasInt
          have hle := Nat.self_le_factorial n
          exact Or.inl (by omega)
        · exact absurd (List.cons.inj hline).1 (by simp)
      · rintro (rfl | hneg')
        · exact Or.inl rfl
        · exact absurd hneg' hneg
    · obtain ⟨m, hm⟩ : ∃ m, n % 2 ^ 64 = m + 2 := ⟨n % 2 ^ 64 - 2, by omega⟩
      have hmod : BitVec.ofNat 64 n = BitVec.ofNat 64 (m + 2) := by
        apply BitVec.eq_of_toNat_eq
        rw [BitVec.toNat_ofNat, BitVec.toNat_ofNat, hm, Nat.mod_eq_of_lt (by omega)]
      rw [if_neg (mt ofNat_sle_one_iff.mp hsle), hmod, mult_eq m 1 (by omega)]
      constructor
      · rintro (hline | hline)
        · obtain ⟨hnum, -⟩ := Printed.factorial.inj (List.cons.inj hline).1
          have hone : asInt 1 = 1 := by decide
          exact Or.inl (by exact_mod_cast hnum.symm.trans hone)
        · exact absurd (List.cons.inj hline).1 (by simp)
      · rintro (rfl | hneg')
        · omega
        · exact absurd hneg' hneg

/-- **When the two programs are right** about the number that a string denotes.  The
program has the whole string as its argument; `FACTOR` has 255 characters of the line,
and is right about `n` only if these are all. -/
theorem factorials_right_iff (h : numeral 10 decDigit num = some n) (hn : 1 ≤ n)
    (rbx : BitVec 64) (prog : CString) :
    (∃ m, numeral 10 decDigit (num.take 255) = some m ∧ (num.length ≤ 255 → m = n) ∧
        (FactorRight (typedLine num) rbx n ↔
          (n ≤ 12 ∧ m = n) ∨ m % 2 ^ 64 = 0 ∨ m % 2 ^ 64 = 2 ^ 64 - 1)) ∧
      (AloneRight prog num n ↔ n = 1 ∨ n % 2 ^ 64 = 2 ^ 64 - 1) := by
  obtain ⟨m, hm, hmn⟩ := numeral_take (by decide) h 255
  have htyped : numeral 10 decDigit (typedString (typedLine num)) = some m := by
    rw [typedString_typedLine]
    exact hm
  refine ⟨⟨m, hm, ?_, factor_right_iff htyped hn hmn rbx⟩, alone_right_iff h hn prog⟩
  intro hlen
  rw [List.take_of_length_le hlen] at hm
  exact Option.some.inj (hm.symm.trans h)

theorem factorials_right_thirteen :
    (∃ m, numeral 10 decDigit ((text ['1', '3']).take 255) = some m ∧
        ((text ['1', '3']).length ≤ 255 → m = 13) ∧
        (FactorRight (typedLine (text ['1', '3'])) 0 13 ↔
          (13 ≤ 12 ∧ m = 13) ∨ m % 2 ^ 64 = 0 ∨ m % 2 ^ 64 = 2 ^ 64 - 1)) ∧
      (AloneRight [] (text ['1', '3']) 13 ↔ 13 = 1 ∨ 13 % 2 ^ 64 = 2 ^ 64 - 1) :=
  factorials_right_iff (by decide) (by decide) 0 []

/-- The program alone prints `1! = 2` for the number 2. -/
theorem two_misnamed :
    numeral 10 decDigit (text ['2']) = some 2 ∧ ¬ AloneRight [] (text ['2']) 2 := by
  refine ⟨by decide, ?_⟩
  rw [alone_right_iff (n := 2) (by decide) (by decide)]
  decide

end FactorialProgram
