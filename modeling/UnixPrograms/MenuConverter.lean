/-
What the menu's `CONVERT` does with a number.

The remainder of a division, made a character, stays in `rdx`, where the next one
takes it for the upper half of the dividend: it is 48 or more, and the quotient by
10 then has more than 64 bits.

* `hextodec_faults` — the second division always faults;
* `convert_eq_none_iff` — so `CONVERT` faults whenever it starts to divide;
* `no_numeral_printed` — it never prints a number.
-/
import UnixPrograms.MenuFactorial

namespace MenuProgram

open Bytes

/-! ### The printer -/

theorem div_ten (rdx rax : BitVec 64) :
    div rdx rax 10 =
      if 2 ^ 64 ≤ (2 ^ 64 * rdx.toNat + rax.toNat) / 10 then none
      else some (BitVec.ofNat 64 ((2 ^ 64 * rdx.toNat + rax.toNat) / 10),
        BitVec.ofNat 64 ((2 ^ 64 * rdx.toNat + rax.toNat) % 10)) := by
  have hten : (10 : BitVec 64).toNat = 10 := by decide
  have hne : (10 : BitVec 64) ≠ 0 := by decide
  rw [div, hten]
  simp only [hne, false_or]

/-- A division by 10 under an upper half of 10 or more. -/
theorem div_ten_eq_none {rdx rax : BitVec 64} (h : 10 ≤ rdx.toNat) : div rdx rax 10 = none := by
  rw [div_ten]
  refine if_pos ?_
  omega

/-- The remainder of a division by 10, made a character. -/
theorem ten_le_digit {rdx rax r12 rem : BitVec 64} (h : div rdx rax 10 = some (r12, rem)) :
    10 ≤ ((rem.setWidth 32 + 0x30 : BitVec 32).setWidth 64).toNat := by
  have hthirty : (0x30 : BitVec 32).toNat = 48 := by decide
  have hrem : rem.toNat < 10 := by
    rw [div_ten] at h
    split_ifs at h
    obtain ⟨-, rfl⟩ := Prod.mk.inj (Option.some.inj h)
    rw [BitVec.toNat_ofNat]
    omega
  rw [BitVec.toNat_setWidth, BitVec.toNat_add, BitVec.toNat_setWidth, hthirty]
  omega

/-- **Two digits are never printed**: the second division faults. -/
theorem hextodec_faults (ecx : ℕ) (rax rdx : BitVec 64) (digits : CString) :
    hextodec (ecx + 2) rax rdx digits = none := by
  rw [hextodec]
  rcases div rdx rax 10 with _ | ⟨r12, rem⟩
  · rfl
  · dsimp only
    rcases hrem : div 0 rem 10 with _ | ⟨r11, rem'⟩
    · rfl
    · dsimp only
      rw [hextodec, div_ten_eq_none (ten_le_digit hrem)]

/-! ### The parser -/

section Parser

variable {rax rbx : BitVec 64} {r11 v : ℕ} {s : CString} {ds : List ℕ}

/-- The error code tells whether there are only digits. -/
theorem stringToHex_code (rax rbx : BitVec 64) (r11 : ℕ) (s : CString) :
    (stringToHex rax rbx r11 s).2.2 = if (digits hexDigit s).isSome then 0 else -1 := by
  fun_induction stringToHex rax rbx r11 s with
  | case1 => rfl
  | case2 => rfl
  | case3 => rfl
  | case4 => rfl
  | case5 => rfl
  | case6 rax rbx r11 c s next rax' rbx' r11' hreset hc hnone =>
    rw [digits_cons hc, hnone]
    rfl
  | case7 rax rbx r11 c s next rax' rbx' r11' hreset hc d hd ih =>
    rw [ih, digits_cons hc, hd]
    simp

/-- From the 17th digit on `rbx` keeps the first 16, and gives them back. -/
theorem stringToHex_low (h : 17 ≤ r11) (hs : digits hexDigit s = some ds) :
    (stringToHex rax rbx r11 s).1 = rbx := by
  induction s generalizing rax r11 ds with
  | nil =>
    rw [stringToHex, if_neg (by omega), if_neg (by omega)]
  | cons c s ih =>
    have hreset : ¬ r11 + 1 = 17 := by omega
    have hlow : ¬ r11 + 1 < 17 := by omega
    simp only [stringToHex, if_neg hreset, if_neg hlow]
    by_cases hc : c = 0
    · rw [if_pos hc]
    · obtain ⟨d, ds', hd, hds', -⟩ := exists_of_digits_cons hc hs
      simp only [if_neg hc, hd]
      exact ih (by omega) hds'

/-- The first 16 digits end up in `rax`, however many there are. -/
theorem stringToHex_high (h : r11 ≤ 16) (hs : digits hexDigit s = some ds) :
    (stringToHex (BitVec.ofNat 64 v) rbx r11 s).1 =
      BitVec.ofNat 64 ((ds.take (16 - r11)).foldl (fun v d => v * 16 + d) v) := by
  induction s generalizing v rbx r11 ds with
  | nil =>
    obtain rfl : ds = [] := (Option.some.inj hs).symm
    rw [List.take_nil, List.foldl_nil, stringToHex]
    split_ifs
    · rfl
    · rfl
    · omega
  | cons c s ih =>
    by_cases hreset : r11 + 1 = 17
    · have hfull : 16 - r11 = 0 := by omega
      have hlow : ¬ r11 + 1 + 1 < 17 := by omega
      simp only [stringToHex, if_pos hreset, if_neg hlow, hfull, List.take_zero, List.foldl_nil]
      by_cases hc : c = 0
      · rw [if_pos hc]
      · obtain ⟨d, ds', hd, hds', -⟩ := exists_of_digits_cons hc hs
        simp only [if_neg hc, hd]
        exact stringToHex_low (by omega) hds'
    · have hhigh : r11 + 1 < 17 := by omega
      simp only [stringToHex, if_neg hreset, if_pos hhigh]
      by_cases hc : c = 0
      · subst hc
        obtain rfl : ds = [] := (Option.some.inj hs).symm
        rw [if_pos rfl, List.take_nil, List.foldl_nil]
      · obtain ⟨d, ds', hd, hds', rfl⟩ := exists_of_digits_cons hc hs
        have hroom : 16 - r11 = 16 - (r11 + 1) + 1 := by omega
        have hnext : BitVec.ofNat 64 v * 16 + BitVec.ofNat 64 d = BitVec.ofNat 64 (v * 16 + d) := by
          rw [BitVec.ofNat_add, BitVec.ofNat_mul]
          rfl
        simp only [if_neg hc, hd, hroom, List.take_succ_cons, List.foldl_cons]
        rw [hnext]
        exact ih (by omega) hds'

end Parser

/-! ### The first 16 digits -/

theorem hexDigit_lt {c : Byte} {d : ℕ} (h : hexDigit c = some d) : d < 16 := by
  simp only [hexDigit] at h
  split_ifs at h <;> (obtain rfl := Option.some.inj h; omega)

/-- Sixteen digits in a register are zero if each of them is. -/
theorem ofNat_digits_eq_zero_iff {ds : List ℕ} (hlt : ∀ d ∈ ds, d < 16) (hds : ds.length ≤ 16) :
    BitVec.ofNat 64 (ds.foldl (fun v d => v * 16 + d) 0) = 0 ↔ ∀ d ∈ ds, d = 0 := by
  have hbound : Nat.ofDigits 16 ds.reverse < 2 ^ 64 := by
    calc Nat.ofDigits 16 ds.reverse < 16 ^ ds.reverse.length :=
          Nat.ofDigits_lt_base_pow_length (by decide) fun d hd => hlt d (List.mem_reverse.mp hd)
      _ ≤ 16 ^ 16 := Nat.pow_le_pow_right (by decide) (by rwa [List.length_reverse])
      _ = 2 ^ 64 := by decide
  rw [← ofDigits_reverse]
  constructor
  · intro hzero d hd
    have hval : Nat.ofDigits 16 ds.reverse = 0 := by
      have hmod := congrArg BitVec.toNat hzero
      rwa [BitVec.toNat_ofNat, Nat.mod_eq_of_lt hbound] at hmod
    exact Nat.digits_zero_of_eq_zero (by decide) hval d (List.mem_reverse.mpr hd)
  · intro hall
    rw [List.eq_replicate_of_mem hall, List.reverse_replicate, Nat.ofDigits_replicate_zero]
    rfl

/-! ### CONVERT -/

/-- A hexadecimal number whose first 16 digits are not all zero. -/
def StartsDividing (typed : CString) : Prop :=
  ∃ ds, digits hexDigit typed = some ds ∧ ∃ d ∈ ds.take 16, d ≠ 0

variable {chunk : List Byte} {s : Statics}

/-- What `string_to_hex` gives to the printer. -/
theorem stringToHex_eq_zero_iff {rbx : BitVec 64} {typed : CString} {ds : List ℕ}
    (h : digits hexDigit typed = some ds) :
    (stringToHex 0 rbx 0 typed).1 = 0 ↔ ¬ StartsDividing typed := by
  have hhigh : (stringToHex 0 rbx 0 typed).1 = _ := stringToHex_high (v := 0) (Nat.zero_le 16) h
  have hlt : ∀ d ∈ ds.take 16, d < 16 := by
    intro d hd
    obtain ⟨c, hc⟩ := exists_of_mem_digits h (List.mem_of_mem_take hd)
    exact hexDigit_lt hc
  rw [hhigh, ofNat_digits_eq_zero_iff hlt (List.length_take_le 16 ds)]
  simp [StartsDividing, h]

/-- `CONVERT` faults, or prints nothing but its prompt. -/
theorem convert_cases (chunk : List Byte) (s : Statics) :
    (StartsDividing (typedString chunk) ∧ convert chunk s = none) ∨
      (¬ StartsDividing (typedString chunk) ∧
        ∃ rbx, convert chunk s = some ({ s with rbx := rbx }, [.text convMessage])) := by
  have hcode := stringToHex_code 0 s.rbx 0 (typedString chunk)
  have hzero := @stringToHex_eq_zero_iff s.rbx (typedString chunk)
  have hfaults : ∀ rax rdx, hextodec 63 rax rdx [] = none :=
    fun rax rdx => hextodec_faults 61 rax rdx []
  rcases hhex : stringToHex 0 s.rbx 0 (typedString chunk) with ⟨rax, rbx, r10⟩
  rw [hhex] at hcode hzero
  simp only [convert, hhex, hfaults]
  rcases hds : digits hexDigit (typedString chunk) with _ | ds
  · rw [hds] at hcode
    refine Or.inr ⟨?_, rbx, if_pos hcode⟩
    rintro ⟨ds, hsome, -⟩
    exact absurd (hds.symm.trans hsome) (by simp)
  · rw [hds] at hcode
    have hvalid : r10 ≠ -1 := by
      have hr10 : r10 = 0 := hcode
      rw [hr10]
      decide
    rw [if_neg hvalid]
    by_cases hrax : rax = 0
    · exact Or.inr ⟨(hzero hds).mp hrax, rbx, if_pos hrax⟩
    · exact Or.inl ⟨not_not.mp fun h => hrax ((hzero hds).mpr h), if_neg hrax⟩

/-- **`CONVERT` faults when it starts to divide.** -/
theorem convert_eq_none_iff : convert chunk s = none ↔ StartsDividing (typedString chunk) := by
  rcases convert_cases chunk s with ⟨hdiv, hnone⟩ | ⟨hdiv, rbx, hsome⟩
  · exact iff_of_true hnone hdiv
  · exact iff_of_false (by simp [hsome]) hdiv

/-- `CONVERT` goes back to the menu after it has printed the decimal numeral of `v`. -/
def ConvertsTo (chunk : List Byte) (s : Statics) (v : ℕ) : Prop :=
  ∃ s' out typed digits, convert chunk s = some (s', out) ∧
    .converted typed digits ∈ out ∧ numeral 10 decDigit digits = some v

/-- **No number is ever printed.** -/
theorem no_numeral_printed (chunk : List Byte) (s : Statics) (v : ℕ) :
    ¬ ConvertsTo chunk s v := by
  rintro ⟨s', out, typed, digits, hout, hmem, -⟩
  rcases convert_cases chunk s with ⟨-, hnone⟩ | ⟨-, rbx, hsome⟩
  · exact absurd (hnone.symm.trans hout) (by simp)
  · obtain ⟨-, rfl⟩ := Prod.mk.inj (Option.some.inj (hsome.symm.trans hout))
    simp at hmem

/-- `CONVERT` faults on the number 1. -/
theorem one_not_converted :
    numeral 16 hexDigit (typedString (line ['1'])) = some 1 ∧
      ¬ ConvertsTo (line ['1']) (fresh 0) 1 := by
  have hfaults : convert (line ['1']) (fresh 0) = none :=
    convert_eq_none_iff.mpr ⟨[1], by decide, 1, by decide, by decide⟩
  refine ⟨by decide, ?_⟩
  rintro ⟨s', out, typed, digits, hout, -, -⟩
  exact absurd (hfaults.symm.trans hout) (by simp)

end MenuProgram
