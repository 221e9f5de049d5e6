/-
The decimal readers `my_strtol`, `myatoi` and `my_atoi`.

All of them are one loop in many files, with no test of the register it adds up in:

* `IsDecimal`, `denoted` — what a numeral is and the number it stands for, said
  without the loop;
* `Copy` — the readers of the programs, and the one of `170d/myatoi.s`, whose error
  value is `-1` in `eax` and not in `rax`;
* `Copy.run_of_isDecimal`, `Copy.run_of_not_isDecimal` — what each of them returns;
* `readsNumber_iff` — when the answer is the number or an error, for a register
  read without a sign and with one.
-/
import UnixPrograms.Add
import UnixPrograms.Factorial
import UnixPrograms.JacobRot

namespace Atoi

open Bytes

/-! ### Numerals -/

/-- One of the characters `0` to `9`. -/
def IsDigit (c : Byte) : Prop := 0x30 ≤ c.toNat ∧ c.toNat ≤ 0x39

instance IsDigit.instDecidable (c : Byte) : Decidable (IsDigit c) :=
  inferInstanceAs (Decidable (0x30 ≤ c.toNat ∧ c.toNat ≤ 0x39))

/-- What stands before the zero byte. -/
def chars (s : CString) : List Byte := s.takeWhile (· ≠ 0)

/-- The string consists of digits. -/
def IsDecimal (s : CString) : Prop := ∀ c ∈ chars s, IsDigit c

instance IsDecimal.instDecidable (s : CString) : Decidable (IsDecimal s) :=
  inferInstanceAs (Decidable (∀ c ∈ chars s, IsDigit c))

/-- The number that a string of digits stands for, the last one being the units. -/
def denoted (s : CString) : ℕ :=
  Nat.ofDigits 10 ((chars s).map fun c => c.toNat - 0x30).reverse

theorem decDigit_of_isDigit {c : Byte} (hc : IsDigit c) :
    decDigit c = some (c.toNat - 0x30) := by
  obtain ⟨hlow, hhigh⟩ := hc
  rw [decDigit, if_neg (by omega), if_neg (by omega)]

theorem decDigit_eq_none {c : Byte} (hc : ¬ IsDigit c) : decDigit c = none := by
  rw [IsDigit] at hc
  by_cases hlow : c.toNat < 0x30
  · rw [decDigit, if_pos hlow]
  · rw [decDigit, if_neg hlow, if_pos (by omega)]

theorem mapM_decDigit {s : List Byte} (hs : ∀ c ∈ s, IsDigit c) :
    s.mapM decDigit = some (s.map fun c => c.toNat - 0x30) := by
  induction s with
  | nil => rfl
  | cons c s ih =>
    obtain ⟨hc, hs⟩ := List.forall_mem_cons.mp hs
    rw [List.mapM_cons, decDigit_of_isDigit hc, ih hs]
    rfl

theorem mapM_decDigit_eq_none {s : List Byte} (hs : ¬ ∀ c ∈ s, IsDigit c) :
    s.mapM decDigit = none := by
  induction s with
  | nil => exact absurd (by simp) hs
  | cons c s ih =>
    rw [List.mapM_cons]
    by_cases hc : IsDigit c
    · -- the character that is no digit comes later
      rw [ih fun h => hs (List.forall_mem_cons.mpr ⟨hc, h⟩), decDigit_of_isDigit hc]
      rfl
    · rw [decDigit_eq_none hc]
      rfl

/-- The numerals of the readers are the strings of digits. -/
theorem numeral_of_isDecimal {s : CString} (hs : IsDecimal s) :
    numeral 10 decDigit s = some (denoted s) :=
  congrArg (Option.map _) (mapM_decDigit hs)

theorem numeral_eq_none {s : CString} (hs : ¬ IsDecimal s) : numeral 10 decDigit s = none :=
  congrArg (Option.map _) (mapM_decDigit_eq_none hs)

/-! ### The readers -/

/-- The loop `convert` of `170d/myatoi.s`: an error is `mov eax, -1`, which clears the
upper half of `rax`. -/
def convert (rax : BitVec 64) : List Byte → BitVec 64
  | [] => rax
  | c :: s =>
    if c = 0 then rax
    else
      match decDigit c with
      | none => (-1 : BitVec 32).setWidth 64
      | some d => convert (rax * 10 + BitVec.ofNat 64 d) s

/-- `myatoi` of `170d/myatoi.s`. -/
def myatoi (s : CString) : BitVec 64 := convert 0 s

/-- The readers: `my_strtol`, with the same text in `fib.s` and `assembly_funcs.s`, the
`myatoi` of three programs, `my_atoi`, and the `myatoi` that is in a file of its own. -/
inductive Copy where
  | myStrtol
  | rotMyatoi
  | addMyatoi
  | factorialMyatoi
  | jacobMyAtoi
  | aloneMyatoi
deriving DecidableEq

def Copy.run : Copy → CString → BitVec 64
  | myStrtol => MenuProgram.myStrtol
  | rotMyatoi => FileFilters.Rot13.myatoi
  | addMyatoi => AddProgram.myatoi
  | factorialMyatoi => FactorialProgram.myatoi
  | jacobMyAtoi => FileFilters.JacobRot.myAtoi
  | aloneMyatoi => myatoi

/-- What `rax` holds after `error_strtol` or `error_atoi`. -/
def Copy.error : Copy → BitVec 64
  | aloneMyatoi => (-1 : BitVec 32).setWidth 64
  | _ => -1

theorem Copy.error_eq_iff (copy : Copy) : copy.error = -1 ↔ copy ≠ aloneMyatoi := by
  cases copy <;> decide

/-- The loop of the file on its own is the loop of the others but for its error. -/
theorem convert_eq (rax : BitVec 64) (s : List Byte) :
    convert rax s =
      if (digits decDigit s).isSome then parse 10 decDigit rax s
      else (-1 : BitVec 32).setWidth 64 := by
  induction s generalizing rax with
  | nil => rfl
  | cons c s ih =>
    by_cases hc : c = 0
    · subst hc
      rfl
    · rw [convert, if_neg hc, parse, if_neg hc, digits_cons hc]
      rcases decDigit c with _ | d
      · rfl
      · dsimp only
        rw [ih, Option.bind_some, Option.isSome_map]
        rfl

/-- **What a numeral is read as**: its number modulo `2 ^ 64`. -/
theorem Copy.run_of_isDecimal (copy : Copy) {s : CString} (hs : IsDecimal s) :
    copy.run s = BitVec.ofNat 64 (denoted s) := by
  have hparse : parse 10 decDigit (0 : BitVec 64) s = BitVec.ofNat 64 (denoted s) := by
    rw [parse_eq_numeral, numeral_of_isDecimal hs]
    rfl
  cases copy with
  | aloneMyatoi =>
    have hdigits : digits decDigit s = some _ := mapM_decDigit hs
    rw [run, myatoi, convert_eq, hdigits, Option.isSome_some, if_pos rfl, hparse]
  | _ => exact hparse

/-- **Any other string** is answered with the error. -/
theorem Copy.run_of_not_isDecimal (copy : Copy) {s : CString} (hs : ¬ IsDecimal s) :
    copy.run s = copy.error := by
  have hparse : parse 10 decDigit (0 : BitVec 64) s = -1 := by
    rw [parse_eq_numeral, numeral_eq_none hs]
    rfl
  cases copy with
  | aloneMyatoi =>
    have hdigits : digits decDigit s = none := mapM_decDigit_eq_none hs
    rw [run, myatoi, convert_eq, hdigits]
    rfl
  | _ => exact hparse

/-! ### Which numbers they read -/

/-- How a program takes the register: without a sign, or with one. -/
inductive Reading where
  | unsigned
  | signed

def Reading.value : Reading → BitVec 64 → ℤ
  | unsigned, rax => rax.toNat
  | signed, rax => rax.toInt

/-- The first number that is too large. -/
def Reading.size : Reading → ℕ
  | unsigned => 2 ^ 64
  | signed => 2 ^ 63

/-- An answer other than -1 is the number that the string denotes, and the string
consists of digits; a number that is too large is answered with -1. -/
structure ReadsNumber (reading : Reading) (rax : BitVec 64) (s : CString) : Prop where
  exact : rax ≠ -1 → IsDecimal s ∧ reading.value rax = denoted s
  tooLarge : IsDecimal s → reading.size ≤ denoted s → rax = -1

theorem Reading.value_ofNat (reading : Reading) {n : ℕ} (hn : n < reading.size) :
    reading.value (BitVec.ofNat 64 n) = n := by
  cases reading with
  | unsigned =>
    rw [size] at hn
    rw [value, BitVec.toNat_ofNat, Nat.mod_eq_of_lt hn]
  | signed =>
    rw [size] at hn
    rw [value, BitVec.toInt_ofNat', Int.bmod_eq_of_le (by omega) (by omega)]

/-- **Which strings are read right**, by each reader and in each reading: those whose
number fits, or comes out as -1 by chance, and those that are no numerals, unless the
reader is the one that leaves -1 in `eax`. -/
theorem readsNumber_iff (copy : Copy) (reading : Reading) (s : CString) :
    ReadsNumber reading (copy.run s) s ↔
      (IsDecimal s → denoted s < reading.size ∨ denoted s % 2 ^ 64 = 2 ^ 64 - 1) ∧
        (IsDecimal s ∨ copy ≠ .aloneMyatoi) := by
  by_cases hs : IsDecimal s
  · rw [copy.run_of_isDecimal hs]
    constructor
    · rintro ⟨-, hlarge⟩
      refine ⟨fun _ => ?_, Or.inl hs⟩
      rcases lt_or_ge (denoted s) reading.size with hlt | hge
      · exact Or.inl hlt
      · exact Or.inr (ofNat_eq_neg_one_iff.mp (hlarge hs hge))
    · rintro ⟨hfits, -⟩
      rcases hfits hs with hlt | hneg
      · exact ⟨fun _ => ⟨hs, reading.value_ofNat hlt⟩, fun _ hge => absurd hlt hge.not_gt⟩
      · have hrax := ofNat_eq_neg_one_iff.mpr hneg
        exact ⟨fun hne => absurd hrax hne, fun _ _ => hrax⟩
  · rw [copy.run_of_not_isDecimal hs]
    constructor
    · rintro ⟨hexact, -⟩
      refine ⟨fun h => absurd h hs, Or.inr (copy.error_eq_iff.mp ?_)⟩
      by_contra hne
      exact hs (hexact hne).1
    · rintro ⟨-, hcopy⟩
      have herror := copy.error_eq_iff.mpr (hcopy.resolve_left hs)
      exact ⟨fun hne => absurd herror hne, fun h => absurd h hs⟩

/-- `18446744073709551617` is read as 1 by all of them, and `x` as `4294967295` by the
one in a file of its own. -/
theorem wrapped_numeral :
    (∀ (copy : Copy) (reading : Reading),
      ¬ ReadsNumber reading (copy.run (text "18446744073709551617".toList))
        (text "18446744073709551617".toList)) ∧
    ∀ reading, ¬ ReadsNumber reading (Copy.run .aloneMyatoi (text ['x'])) (text ['x']) := by
  constructor
  · intro copy reading hreads
    have hdec : IsDecimal (text "18446744073709551617".toList) := by decide
    have hval : denoted (text "18446744073709551617".toList) = 2 ^ 64 + 1 := by decide
    have hsize : reading.size ≤ denoted (text "18446744073709551617".toList) := by
      rw [hval]
      cases reading <;> decide
    have hrax := hreads.tooLarge hdec hsize
    rw [copy.run_of_isDecimal hdec, ofNat_eq_neg_one_iff, hval] at hrax
    omega
  · intro reading hreads
    have hrax : Copy.run .aloneMyatoi (text ['x']) ≠ -1 := by decide
    exact absurd (hreads.exact hrax).1 (by decide)

end Atoi
