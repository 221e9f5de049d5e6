/-
The older `CONVERT` of `arch/converter_old.s`, for numbers of one word.

Its `string_to_hex` is that of `converter.s`; its divide loop clears `rdx` before
each `div`, stops when nothing is left of the number, and stores the digits from
the end of the buffer `NEW_NUM` backwards:

* `hextodec`, `convert` — the loop and the routine;
* `hextodec_spec` — the digits in the buffer, and where the loop stops;
* `converts_to_decimal` — a number of up to 16 digits is printed in decimal.
-/
import UnixPrograms.MenuConverter
import UnixPrograms.Numerals

namespace ConverterOld

open Bytes Numerals
open MenuProgram (Printed convMessage typedString stringToHex div)

/-- `NEW_NUM`, by the offset of its bytes; the terminating zero goes to offset 64. -/
abbrev Buffer := ℕ → Byte

/-! ### The code -/

/-- `moretogo_hextodec`, from `ecx` on: where it stops, and the buffer. -/
def hextodec : ℕ → BitVec 64 → Buffer → Option (ℕ × Buffer)
  | 0, _, buf => some (0, buf)
  | ecx + 1, rax, buf =>
    let rdx : BitVec 64 := 0
    let rax := rax ||| rdx
    if rax = 0 then some (ecx + 1, buf)
    else
      match div rdx rax 10 with
      | none => none
      | some (rax, rdx) =>
        let edx : BitVec 32 := rdx.setWidth 32 + 0x30
        hextodec ecx rax (Function.update buf (ecx + 1) (edx.setWidth 8))

/-- The string that starts at an offset of the buffer. -/
def stringAt (buf : Buffer) (i : ℕ) : CString :=
  ((List.range' i (65 - i)).map buf).takeWhile (· ≠ 0)

/-- `CONVERT`, with the line that is typed: the buffer after it and what it prints;
`none` if it faults. -/
def convert (chunk : List Byte) (rbx : BitVec 64) (buf : Buffer) :
    Option (Buffer × List Printed) :=
  let (rax, _rbx, r10) := stringToHex 0 rbx 0 (typedString chunk)
  if r10 = -1 then some (buf, [.text convMessage])
  else if rax = 0 then some (buf, [.text convMessage])
  else
    match hextodec 63 rax (Function.update buf 64 0) with
    | none => none
    | some (ecx, buf) =>
      some (buf, [.text convMessage, .converted (typedString chunk) (stringAt buf (ecx + 1))])

/-! ### The divide loop -/

/-- A division by 10 under an empty upper half. -/
theorem div_zero_ten {v : ℕ} (hv : v < 2 ^ 64) :
    div 0 (BitVec.ofNat 64 v) 10 = some (BitVec.ofNat 64 (v / 10), BitVec.ofNat 64 (v % 10)) := by
  have hval : 2 ^ 64 * (0 : BitVec 64).toNat + (BitVec.ofNat 64 v).toNat = v := by
    rw [BitVec.toNat_ofNat, Nat.mod_eq_of_lt hv]
    exact Nat.zero_add v
  rw [MenuProgram.div_ten, hval, if_neg (by omega)]

/-- The byte that is stored for a remainder. -/
theorem digit_byte {d : ℕ} (hd : d < 10) :
    ((BitVec.ofNat 64 d).setWidth 32 + 0x30 : BitVec 32).setWidth 8 = digitChar d := by
  have hthirty : (0x30 : BitVec 32).toNat = 48 := by decide
  apply BitVec.eq_of_toNat_eq
  rw [toNat_digitChar hd, BitVec.toNat_setWidth, BitVec.toNat_add, BitVec.toNat_setWidth,
    BitVec.toNat_ofNat, hthirty]
  omega

theorem hextodec_zero (ecx : ℕ) (buf : Buffer) : hextodec ecx 0 buf = some (ecx, buf) := by
  cases ecx <;> rfl

theorem hextodec_succ {v : ℕ} (hpos : v ≠ 0) (hv : v < 2 ^ 64) (ecx : ℕ) (buf : Buffer) :
    hextodec (ecx + 1) (BitVec.ofNat 64 v) buf =
      hextodec ecx (BitVec.ofNat 64 (v / 10))
        (Function.update buf (ecx + 1) (digitChar (v % 10))) := by
  have hne : BitVec.ofNat 64 v ≠ 0 := by
    intro hzero
    have hval := congrArg BitVec.toNat hzero
    rw [BitVec.toNat_ofNat, Nat.mod_eq_of_lt hv] at hval
    exact hpos hval
  have hor : BitVec.ofNat 64 v ||| 0 = BitVec.ofNat 64 v := BitVec.or_zero
  have hdigit := digit_byte (Nat.mod_lt v (by decide : 0 < 10))
  simp only [hextodec, hor, if_neg hne, div_zero_ten hv, hdigit]

/-- **The digits in the buffer**: they end at the offset from which the loop
starts, and nothing else is stored. -/
theorem hextodec_spec {v ecx : ℕ} (hlen : (Nat.digits 10 v).length ≤ ecx) (hv : v < 2 ^ 64)
    (buf : Buffer) :
    ∃ buf', hextodec ecx (BitVec.ofNat 64 v) buf
        = some (ecx - (Nat.digits 10 v).length, buf') ∧
      (List.range' (ecx - (Nat.digits 10 v).length + 1) (Nat.digits 10 v).length).map buf'
        = (Nat.digits 10 v).reverse.map digitChar ∧
      ∀ j, j ≤ ecx - (Nat.digits 10 v).length ∨ ecx < j → buf' j = buf j := by
  induction ecx generalizing v buf with
  | zero =>
    have hnil := List.length_eq_zero_iff.mp (Nat.le_zero.mp hlen)
    rw [hnil]
    exact ⟨buf, rfl, rfl, fun _ _ => rfl⟩
  | succ ecx ih =>
    by_cases hzero : v = 0
    · subst hzero
      rw [Nat.digits_zero]
      exact ⟨buf, hextodec_zero _ buf, rfl, fun _ _ => rfl⟩
    · -- the last digit is stored first, at the higher end
      have hdigits := Nat.digits_def' (by decide : 1 < 10) (Nat.pos_of_ne_zero hzero)
      rw [hdigits, List.length_cons] at hlen
      obtain ⟨buf', hloop, hstored, hframe⟩ := ih (v := v / 10) (by omega) (by omega)
        (Function.update buf (ecx + 1) (digitChar (v % 10)))
      have hstop : ecx + 1 - ((Nat.digits 10 (v / 10)).length + 1)
          = ecx - (Nat.digits 10 (v / 10)).length := by omega
      have hlast : ecx - (Nat.digits 10 (v / 10)).length + 1
          + 1 * (Nat.digits 10 (v / 10)).length = ecx + 1 := by omega
      rw [hdigits, List.length_cons, hstop]
      refine ⟨buf', ?_, ?_, ?_⟩
      · rw [hextodec_succ hzero hv, hloop]
      · rw [List.range'_concat, hlast, List.map_append, hstored, List.reverse_cons,
          List.map_append, List.map_singleton, List.map_singleton, hframe _ (by omega),
          Function.update_self]
      · intro j hj
        rw [hframe j (by omega), Function.update_of_ne (by omega)]

/-! ### The routine -/

/-- The string of hexadecimal digits has no other character, and no zero byte. -/
theorem digits_of_forall {s : CString} (hs : ∀ c ∈ s, (hexDigit c).isSome) :
    ∃ ds, digits hexDigit s = some ds ∧ ds.length = s.length ∧ ∀ d ∈ ds, d < 16 := by
  induction s with
  | nil => exact ⟨[], rfl, rfl, by simp⟩
  | cons c s ih =>
    obtain ⟨d, hd⟩ := Option.isSome_iff_exists.mp (hs c List.mem_cons_self)
    obtain ⟨ds, hds, hlen, hlt⟩ := ih fun e he => hs e (List.mem_cons_of_mem c he)
    have hc : c ≠ 0 := by
      rintro rfl
      have hnone : hexDigit 0 = none := by decide
      exact absurd (hnone.symm.trans hd) (by simp)
    refine ⟨d :: ds, ?_, by rw [List.length_cons, List.length_cons, hlen], ?_⟩
    · rw [digits_cons hc, hd, hds]
      rfl
    · exact List.forall_mem_cons.mpr ⟨MenuProgram.hexDigit_lt hd, hlt⟩

/-- What `string_to_hex` gives to the loop: the number in `rax`, whatever `rbx` was. -/
theorem stringToHex_eq {s : CString} (hs : ∀ c ∈ s, (hexDigit c).isSome) (hlen : s.length ≤ 16)
    {v : ℕ} (hv : numeral 16 hexDigit s = some v) (rbx : BitVec 64) :
    v < 2 ^ 64 ∧ ∃ rbx', stringToHex 0 rbx 0 s = (BitVec.ofNat 64 v, rbx', 0) := by
  obtain ⟨ds, hds, hdslen, hlt⟩ := digits_of_forall hs
  have hval : Nat.ofDigits 16 ds.reverse = v := by
    rw [numeral, hds] at hv
    exact Option.some.inj hv
  have hfit : v < 2 ^ 64 := by
    rw [← hval]
    calc Nat.ofDigits 16 ds.reverse < 16 ^ ds.reverse.length :=
          Nat.ofDigits_lt_base_pow_length (by decide) fun d hd => hlt d (List.mem_reverse.mp hd)
      _ ≤ 16 ^ 16 := Nat.pow_le_pow_right (by decide) (by rw [List.length_reverse]; omega)
      _ = 2 ^ 64 := by decide
  have hrax : (stringToHex 0 rbx 0 s).1 = _ :=
    MenuProgram.stringToHex_high (v := 0) (Nat.zero_le 16) hds
  rw [List.take_of_length_le (by omega), ← ofDigits_reverse, hval] at hrax
  have hr10 := MenuProgram.stringToHex_code 0 rbx 0 s
  rw [hds] at hr10
  exact ⟨hfit, _, Prod.ext hrax (Prod.ext rfl hr10)⟩

theorem length_digits_ten_le {v : ℕ} (hv : v < 2 ^ 64) : (Nat.digits 10 v).length ≤ 20 := by
  rw [Nat.digits_length_le_iff (by decide)]
  exact hv.trans (by decide)

/-- The digits up to the terminating zero. -/
theorem stringAt_of_stored {buf : Buffer} {ds : List ℕ} {i : ℕ} (hi : i + ds.length = 64)
    (hds : ∀ d ∈ ds, d < 10) (hstored : (List.range' i ds.length).map buf = ds.map digitChar)
    (hend : buf 64 = 0) : stringAt buf i = ds.map digitChar := by
  have hlen : 65 - i = ds.length + 1 := by omega
  have hpos : i + 1 * ds.length = 64 := by omega
  rw [stringAt, hlen, List.range'_concat, hpos, List.map_append, hstored, List.map_singleton, hend,
    List.takeWhile_append_of_pos]
  · simp
  · intro c hc
    obtain ⟨d, hd, rfl⟩ := List.mem_map.mp hc
    simpa using digitChar_ne_zero (hds d hd)

/-- **A number of one word is printed in decimal**: the routine does not fault, the
string that it prints has no leading zero, and no byte of the buffer in front of the
last twenty is stored to. -/
theorem converts_to_decimal {s : CString} (hs : ∀ c ∈ s, (hexDigit c).isSome)
    (hlen : 1 ≤ s.length ∧ s.length ≤ 16) {v : ℕ} (hv : numeral 16 hexDigit s = some v)
    (hpos : v ≠ 0) (rbx : BitVec 64) (buf : Buffer) :
    ∃ buf', convert (s ++ [0x0a]) rbx buf =
        some (buf', [.text convMessage, .converted s ((written 10 v).map digitChar)]) ∧
      ∀ j < 44, buf' j = buf j := by
  obtain ⟨hfit, rbx', hhex⟩ := stringToHex_eq hs hlen.2 hv rbx
  have hshort := length_digits_ten_le hfit
  have htyped : typedString (s ++ [0x0a]) = s := List.dropLast_concat
  have hrax : BitVec.ofNat 64 v ≠ 0 := by
    intro hzero
    have hval := congrArg BitVec.toNat hzero
    rw [BitVec.toNat_ofNat, Nat.mod_eq_of_lt hfit] at hval
    exact hpos hval
  have hcode : (0 : BitVec 64) ≠ -1 := by decide
  obtain ⟨buf', hloop, hstored, hframe⟩ :=
    hextodec_spec (hshort.trans (by decide : 20 ≤ 63)) hfit (Function.update buf 64 0)
  have hwritten : written 10 v = (Nat.digits 10 v).reverse := if_neg hpos
  rw [← List.length_reverse, ← hwritten] at hstored hloop hframe
  rw [← List.length_reverse, ← hwritten] at hshort
  have hstring := stringAt_of_stored (by omega) (fun d => lt_of_mem_written (by decide)) hstored (by
    rw [hframe 64 (by omega), Function.update_self])
  refine ⟨buf', ?_, ?_⟩
  · simp only [convert, htyped, hhex, if_neg hcode, if_neg hrax, hloop, hstring]
  · intro j hj
    rw [hframe j (by omega), Function.update_of_ne (by omega)]

/-- The largest number of one word. -/
theorem converts_sixteen_digits :
    ∃ buf', convert (text (List.replicate 16 'f') ++ [0x0a]) 7 (fun _ => 0) =
        some (buf', [.text convMessage, .converted (text (List.replicate 16 'f'))
          ((written 10 (2 ^ 64 - 1)).map digitChar)]) ∧ ∀ j < 44, buf' j = 0 :=
  converts_to_decimal (by decide) (by decide) (by decide) (by decide) 7 fun _ => 0

end ConverterOld
