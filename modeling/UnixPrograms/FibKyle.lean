/-
The octal printers of `fib-kyle.s`.

The result of the program is a number in the four registers rsi:rdx:rcx:r8.  In
octal it is printed in chunks of 48 bits, which are 16 digits each, and every
number of chunks has a printer of its own that regroups the registers:

* `olt70` to `olt347` — the five printers, `octPrinter` the choice among them;
* `chunks_olt278`, `chunks_olt347` — which chunk each of the last two gets wrong;
* `printsOctal_iff` — when a printer prints the number: the first three always,
  the last two where the bits that they misplace do not show.
-/
import Mathlib.Data.BitVec
import Mathlib.Data.Nat.Fib.Basic
import UnixPrograms.Numerals

namespace FibKyle

open Bytes Numerals

/-- The registers that hold the result. -/
structure Result where
  rsi : BitVec 64
  rdx : BitVec 64
  rcx : BitVec 64
  r8 : BitVec 64

/-- The number in them. -/
def Result.val (s : Result) : ℕ :=
  s.r8.toNat + 2 ^ 64 * s.rcx.toNat + 2 ^ 128 * s.rdx.toNat + 2 ^ 192 * s.rsi.toNat

/-! ### The printers -/

/-- `"0%lo\n"`, with `%016lo` for each further register. -/
def fmtObase (args : List (BitVec 64)) : CString :=
  (0 :: chunks 8 16 (args.map BitVec.toNat)).map digitChar ++ [0x0a]

/-- What `.OCT_PRINTER` puts into `r10`. -/
def mask : BitVec 64 := 0xFFFFFFFFFFFF

/-- `.OLT70`. -/
def olt70 (_r12 _r13 _r14 r15 : BitVec 64) : CString :=
  let rsi := r15
  fmtObase [rsi]

/-- `.OLT139`. -/
def olt139 (_r12 _r13 r14 r15 : BitVec 64) : CString :=
  let rdx := r15
  let rdx := rdx &&& mask
  let r15 := r15 >>> 48
  let rsi := r14
  let rsi := rsi <<< 16
  let rsi := rsi ||| r15
  fmtObase [rsi, rdx]

/-- `.OLT209`. -/
def olt209 (_r12 r13 r14 r15 : BitVec 64) : CString :=
  let rcx := r15
  let rcx := rcx &&& mask
  let rsi := r13
  let rsi := rsi <<< 32
  let rsi := rsi &&& mask
  let rdx := r14
  let r14 := r14 >>> 32
  let rsi := rsi ||| r14
  let rdx := rdx <<< 16
  let rdx := rdx &&& mask
  let r15 := r15 >>> 48
  let rdx := rdx ||| r15
  fmtObase [rsi, rdx, rcx]

/-- `.OLT278`: `r13` goes up by 48 bits, and is not masked. -/
def olt278 (_r12 r13 r14 r15 : BitVec 64) : CString :=
  let rcx : BitVec 64 := 0
  let r8 := r15
  let r8 := r8 &&& mask
  let r15 := r15 >>> 48
  let rsi := r13
  let rsi := rsi >>> 16
  let r13 := r13 <<< 48
  let rdx := r14
  let rdx := rdx >>> 32
  let rdx := rdx ||| r13
  let r14 := r14 <<< 16
  let r14 := r14 &&& mask
  let rcx := rcx ||| r14
  let rcx := rcx ||| r15
  fmtObase [rsi, rdx, rcx, r8]

/-- `.OLT347`: the upper half of `r14` is made, and `r13` is used. -/
def olt347 (r12 r13 r14 r15 : BitVec 64) : CString :=
  let r9 := r15
  let r9 := r9 &&& mask
  let r15 := r15 >>> 48
  let r8 := r14
  let r8 := r8 <<< 16
  let r8 := r8 &&& mask
  let r8 := r8 ||| r15
  let _r14 := r14 >>> 32
  let rcx := r13
  let rcx := rcx <<< 32
  let rcx := rcx &&& mask
  let rcx := rcx ||| r13
  let rdx := r13
  let rdx := rdx >>> 16
  let rsi := r12
  fmtObase [rsi, rdx, rcx, r8, r9]

inductive Formatter where
  | olt70
  | olt139
  | olt209
  | olt278
  | olt347
deriving DecidableEq

namespace Formatter

/-- A printer, after `.OCT_PRINTER` has copied the result to `r12` to `r15`. -/
def print (f : Formatter) (s : Result) : CString :=
  let printer :=
    match f with
    | olt70 => FibKyle.olt70
    | olt139 => FibKyle.olt139
    | olt209 => FibKyle.olt209
    | olt278 => FibKyle.olt278
    | olt347 => FibKyle.olt347
  printer s.rsi s.rdx s.rcx s.r8

/-- The numbers that the printer is for. -/
def limit : Formatter → ℕ
  | olt70 => 2 ^ 64
  | olt139 => 2 ^ 112
  | olt209 => 2 ^ 144
  | olt278 => 2 ^ 192
  | olt347 => 2 ^ 256

end Formatter

/-- The comparisons of `.OCT_PRINTER`. -/
def octFormatter (rax : BitVec 64) : Formatter :=
  if rax ≤ 70 then .olt70
  else if rax ≤ 139 then .olt139
  else if rax ≤ 209 then .olt209
  else if rax ≤ 278 then .olt278
  else .olt347

/-- `.OCT_PRINTER`. -/
def octPrinter (rax : BitVec 64) (s : Result) : CString := (octFormatter rax).print s

/-! ### Registers as numbers -/

section Registers

variable (x : BitVec 64)

theorem toNat_and_mask : (x &&& mask).toNat = x.toNat % 2 ^ 48 := by
  rw [BitVec.toNat_and, ← Nat.and_two_pow_sub_one_eq_mod]
  rfl

theorem toNat_shl (n : ℕ) : (x <<< n).toNat = x.toNat * 2 ^ n % 2 ^ 64 := by
  rw [BitVec.toNat_shiftLeft, Nat.shiftLeft_eq]

theorem toNat_shr (n : ℕ) : (x >>> n).toNat = x.toNat / 2 ^ n := by
  rw [BitVec.toNat_ushiftRight, Nat.shiftRight_eq_div_pow]

variable {x}

/-- `or` of numbers that do not overlap. -/
theorem toNat_or_of_lt {y : BitVec 64} {k : ℕ} (hx : 2 ^ k ∣ x.toNat) (hy : y.toNat < 2 ^ k) :
    (x ||| y).toNat = x.toNat + y.toNat := by
  obtain ⟨a, ha⟩ := hx
  rw [BitVec.toNat_or, ha, ← Nat.two_pow_add_eq_or_of_lt hy]

end Registers

/-! ### What is printed -/

/-- The printer prints the octal numeral of the number, leading zeros aside. -/
def PrintsOctal (f : Formatter) (s : Result) : Prop :=
  ∃ digits, f.print s = digits ++ [0x0a] ∧
    numeral 8 (digitBelow 8) digits = some s.val

/-- A line of chunks is a numeral. -/
theorem numeral_fmtObase (args : List (BitVec 64)) (v : ℕ) :
    (∃ digits, fmtObase args = digits ++ [0x0a] ∧ numeral 8 (digitBelow 8) digits = some v) ↔
      value 8 (chunks 8 16 (args.map BitVec.toNat)) = v := by
  have hvalue : value 8 (0 :: chunks 8 16 (args.map BitVec.toNat))
      = value 8 (chunks 8 16 (args.map BitVec.toNat)) := by
    rw [← List.singleton_append, value_append]
    simp [value]
  have hdigits : ∀ d ∈ 0 :: chunks 8 16 (args.map BitVec.toNat), d < 8 := by
    intro d hd
    rcases List.mem_cons.mp hd with rfl | hd
    · decide
    · exact lt_of_mem_chunks (by decide) hd
  have hnumeral := numeral_map_digitChar (by decide : (8 : ℕ) ≤ 10) hdigits
  rw [hvalue] at hnumeral
  constructor
  · rintro ⟨digits, hline, hv⟩
    obtain rfl := List.append_cancel_right hline
    exact Option.some.inj (hnumeral.symm.trans hv)
  · rintro rfl
    exact ⟨_, rfl, hnumeral⟩

theorem eight_pow : 8 ^ 16 = 2 ^ 48 := by decide

/-- Chunks that are all short enough. -/
theorem value_of_short {v : ℕ} {vs : List ℕ} (hvs : ∀ u ∈ vs, u < 2 ^ 48) :
    value 8 (chunks 8 16 (v :: vs)) = joined 8 16 (v :: vs) :=
  value_chunks (by decide) (by decide) (by rwa [eight_pow])

/-! ### Three printers that are right -/

variable {s : Result}

theorem printsOctal_olt70 (h : s.val < 2 ^ 64) : PrintsOctal .olt70 s := by
  refine (numeral_fmtObase [s.r8] s.val).mpr ?_
  rw [List.map_singleton, value_of_short (by simp), joined]
  simp only [List.foldl_cons, List.foldl_nil]
  rw [Result.val] at h ⊢
  omega

theorem printsOctal_olt139 (h : s.val < 2 ^ 112) : PrintsOctal .olt139 s := by
  have hr8 := s.r8.isLt
  have hrsi : (s.rcx <<< 16 ||| s.r8 >>> 48).toNat
      = s.rcx.toNat * 2 ^ 16 % 2 ^ 64 + s.r8.toNat / 2 ^ 48 := by
    rw [toNat_or_of_lt (k := 16), toNat_shl, toNat_shr]
    · rw [toNat_shl]
      omega
    · rw [toNat_shr]
      omega
  refine (numeral_fmtObase [s.rcx <<< 16 ||| s.r8 >>> 48, s.r8 &&& mask] s.val).mpr ?_
  simp only [List.map_cons, List.map_nil, hrsi, toNat_and_mask]
  rw [value_of_short (by simp; omega), joined, eight_pow]
  simp only [List.foldl_cons, List.foldl_nil]
  rw [Result.val] at h ⊢
  omega

/-- The second lowest chunk, which three printers make in the same way. -/
theorem toNat_chunk_one :
    (s.rcx <<< 16 &&& mask ||| s.r8 >>> 48).toNat
      = s.rcx.toNat % 2 ^ 32 * 2 ^ 16 + s.r8.toNat / 2 ^ 48 := by
  have hr8 := s.r8.isLt
  rw [toNat_or_of_lt (k := 16), toNat_and_mask, toNat_shl, toNat_shr]
  · omega
  · rw [toNat_and_mask, toNat_shl]
    omega
  · rw [toNat_shr]
    omega

theorem printsOctal_olt209 (h : s.val < 2 ^ 144) : PrintsOctal .olt209 s := by
  have hr8 := s.r8.isLt
  have hrcx := s.rcx.isLt
  have hrsi : (s.rdx <<< 32 &&& mask ||| s.rcx >>> 32).toNat
      = s.rdx.toNat % 2 ^ 16 * 2 ^ 32 + s.rcx.toNat / 2 ^ 32 := by
    rw [toNat_or_of_lt (k := 32), toNat_and_mask, toNat_shl, toNat_shr]
    · omega
    · rw [toNat_and_mask, toNat_shl]
      omega
    · rw [toNat_shr]
      omega
  refine (numeral_fmtObase [s.rdx <<< 32 &&& mask ||| s.rcx >>> 32,
    s.rcx <<< 16 &&& mask ||| s.r8 >>> 48, s.r8 &&& mask] s.val).mpr ?_
  simp only [List.map_cons, List.map_nil, hrsi, toNat_chunk_one, toNat_and_mask]
  rw [value_of_short (by simp; omega), joined, eight_pow]
  simp only [List.foldl_cons, List.foldl_nil]
  rw [Result.val] at h ⊢
  omega

/-! ### The two that are not -/

/-- The third chunk of `.OLT278`: the lowest 16 bits of `rdx` come 16 bits too high. -/
theorem toNat_chunk_olt278 :
    (s.rcx >>> 32 ||| s.rdx <<< 48).toNat
      = s.rdx.toNat % 2 ^ 16 * 2 ^ 48 + s.rcx.toNat / 2 ^ 32 := by
  have hrcx := s.rcx.isLt
  rw [BitVec.or_comm, toNat_or_of_lt (k := 48), toNat_shl, toNat_shr]
  · omega
  · rw [toNat_shl]
    omega
  · rw [toNat_shr]
    omega

theorem printsOctal_olt278_iff (h : s.val < 2 ^ 192) :
    PrintsOctal .olt278 s ↔ s.rdx.toNat % 2 ^ 16 = 0 := by
  have hr8 := s.r8.isLt
  have hrcx := s.rcx.isLt
  refine (numeral_fmtObase [s.rdx >>> 16, s.rcx >>> 32 ||| s.rdx <<< 48,
    (0 : BitVec 64) ||| (s.rcx <<< 16 &&& mask) ||| s.r8 >>> 48, s.r8 &&& mask] s.val).trans ?_
  have hzero : (0 : BitVec 64) ||| (s.rcx <<< 16 &&& mask) = s.rcx <<< 16 &&& mask :=
    BitVec.zero_or
  rw [hzero]
  simp only [List.map_cons, List.map_nil, toNat_chunk_olt278, toNat_chunk_one, toNat_and_mask,
    toNat_shr]
  rw [Result.val] at h ⊢
  constructor
  · intro hvalue
    by_contra hbits
    -- padded or not, the third chunk stands for more than it should
    have hle := (joined_le_value_chunks (by decide : 0 < 8)).trans_eq hvalue
    rw [joined, eight_pow] at hle
    simp only [List.foldl_cons, List.foldl_nil] at hle
    omega
  · intro hbits
    rw [value_of_short (by simp; omega), joined, eight_pow]
    simp only [List.foldl_cons, List.foldl_nil]
    omega

/-- The third chunk of `.OLT347`: `rdx` is there twice. -/
theorem toNat_chunk_olt347 :
    (s.rdx <<< 32 &&& mask ||| s.rdx).toNat
      = (s.rdx.toNat % 2 ^ 16 ||| s.rdx.toNat / 2 ^ 32) * 2 ^ 32 + s.rdx.toNat % 2 ^ 32 := by
  have hlt : s.rdx.toNat % 2 ^ 32 < 2 ^ 32 := Nat.mod_lt _ (by decide)
  have hshift : s.rdx.toNat * 2 ^ 32 % 2 ^ 64 % 2 ^ 48 = (s.rdx.toNat % 2 ^ 16) <<< 32 := by
    rw [Nat.shiftLeft_eq]
    omega
  have hsplit : s.rdx.toNat = (s.rdx.toNat / 2 ^ 32) <<< 32 ||| s.rdx.toNat % 2 ^ 32 := by
    rw [← Nat.shiftLeft_add_eq_or_of_lt hlt, Nat.shiftLeft_eq, Nat.div_add_mod']
  rw [BitVec.toNat_or, toNat_and_mask, toNat_shl, hshift]
  conv_lhs =>
    rhs
    rw [hsplit]
  rw [← Nat.or_assoc, ← Nat.shiftLeft_or_distrib, ← Nat.shiftLeft_add_eq_or_of_lt hlt,
    Nat.shiftLeft_eq]

theorem printsOctal_olt347_iff :
    PrintsOctal .olt347 s ↔ s.rcx.toNat / 2 ^ 32 = s.rdx.toNat % 2 ^ 32 ∧
      s.rdx.toNat % 2 ^ 16 ||| s.rdx.toNat / 2 ^ 32 = s.rdx.toNat % 2 ^ 16 := by
  have hr8 := s.r8.isLt
  have hrcx := s.rcx.isLt
  have hrdx := s.rdx.isLt
  refine (numeral_fmtObase [s.rsi, s.rdx >>> 16, s.rdx <<< 32 &&& mask ||| s.rdx,
    s.rcx <<< 16 &&& mask ||| s.r8 >>> 48, s.r8 &&& mask] s.val).trans ?_
  simp only [List.map_cons, List.map_nil, toNat_chunk_olt347, toNat_chunk_one, toNat_and_mask,
    toNat_shr]
  rw [Result.val]
  generalize s.rdx.toNat % 2 ^ 16 ||| s.rdx.toNat / 2 ^ 32 = o
  constructor
  · intro hvalue
    by_cases hshort : o * 2 ^ 32 + s.rdx.toNat % 2 ^ 32 < 2 ^ 48
    · rw [value_of_short (by simp; omega), joined, eight_pow] at hvalue
      simp only [List.foldl_cons, List.foldl_nil] at hvalue
      omega
    · have hle := (joined_le_value_chunks (by decide : 0 < 8)).trans_eq hvalue
      rw [joined, eight_pow] at hle
      simp only [List.foldl_cons, List.foldl_nil] at hle
      omega
  · rintro ⟨hhalf, ho⟩
    rw [value_of_short (by simp; omega), joined, eight_pow]
    simp only [List.foldl_cons, List.foldl_nil]
    omega

/-! ### All five -/

/-- The bits that a printer misplaces do not show. -/
def Formatter.Fits (f : Formatter) (s : Result) : Prop :=
  match f with
  | olt278 => s.rdx.toNat % 2 ^ 16 = 0
  | olt347 => s.rcx.toNat / 2 ^ 32 = s.rdx.toNat % 2 ^ 32 ∧
      s.rdx.toNat % 2 ^ 16 ||| s.rdx.toNat / 2 ^ 32 = s.rdx.toNat % 2 ^ 16
  | _ => True

/-- **When an octal printer is right.** -/
theorem printsOctal_iff (f : Formatter) (s : Result) (h : s.val < f.limit) :
    PrintsOctal f s ↔ f.Fits s := by
  cases f with
  | olt70 => exact iff_of_true (printsOctal_olt70 h) trivial
  | olt139 => exact iff_of_true (printsOctal_olt139 h) trivial
  | olt209 => exact iff_of_true (printsOctal_olt209 h) trivial
  | olt278 => exact printsOctal_olt278_iff h
  | olt347 => exact printsOctal_olt347_iff

theorem printsOctal_two_pow_144 :
    (⟨0, 2 ^ 16, 0, 0⟩ : Result).val < Formatter.olt278.limit ∧
      (PrintsOctal .olt278 ⟨0, 2 ^ 16, 0, 0⟩ ↔ Formatter.olt278.Fits ⟨0, 2 ^ 16, 0, 0⟩) :=
  ⟨by decide, printsOctal_iff .olt278 ⟨0, 2 ^ 16, 0, 0⟩ (by decide)⟩

/-- `.OLT278` does not print the 210th Fibonacci number, its first one. -/
theorem fib_210_misprinted :
    (⟨0, 0x18c21, 0xd187cc2634e253ba, 0x655882c7a13bb18⟩ : Result).val = Nat.fib 210 ∧
      ¬ ∀ (f : Formatter) (s : Result), s.val < f.limit → PrintsOctal f s := by
  refine ⟨by decide +kernel, ?_⟩
  intro h
  have hlt : (⟨0, 0x18c21, 0xd187cc2634e253ba, 0x655882c7a13bb18⟩ : Result).val < 2 ^ 192 := by
    decide
  exact absurd ((printsOctal_olt278_iff hlt).mp (h .olt278 _ hlt)) (by decide)

end FibKyle
