/-
The file filter `jacob_rot_13/src/rot.s`.

`JacobRot.main` takes the distance in decimal, and any number that is not negative
will do: it is added to the letter, and then 26 is taken away until the sum is a
letter again.  The sum is a number of 64 bits with a sign.

* `decrease` — the loops `DEC_UPPER` and `DEC_LOWER`;
* `readByte` — what one round of `READ_BYTE` leaves in `BUFFER`, of eight bytes;
* `changed_eq` — the byte that is written: the letter is `rotated`, or the sum was
  negative and is written as it is;
* `rotates_iff` — when the letters go as far as the argument says;
* `sameOutput_rot13` — the program `rot_13`, for the arguments it takes, does the same.
-/
import UnixPrograms.Rot

namespace FileFilters

open Bytes Files

namespace JacobRot

def usage : String := "Usage: ./rot <int> <input_file>\n"

def argInvalid : String := "Argument must be unsigned integer numbers.\n"

def inFileInvalid : String := "Input file failed to open.\n"

def outFileInvalid : String := "Output file failed to open.\n"

/-! ### The code -/

/-- `my_atoi`: the value in `rax`, -1 on an invalid character. -/
def myAtoi (s : CString) : BitVec 64 := parse 10 decDigit 0 s

theorem toInt_sub_26 {rax : BitVec 64} (h : 26 ≤ rax.toInt) :
    (rax - 26).toInt = rax.toInt - 26 := by
  have hlt := BitVec.toInt_lt (x := rax)
  have h26 : (26 : BitVec 64).toInt = 26 := by decide
  rw [BitVec.toInt_sub, h26]
  exact Int.bmod_eq_of_le (by omega) (by omega)

/-- The loop of `DEC_UPPER` and `DEC_LOWER`, to below a bound. -/
def decrease (bound : ℕ) (hbound : 26 ≤ bound) (rax : BitVec 64) : BitVec 64 :=
  if rax.toInt < bound then rax else decrease bound hbound (rax - 26)
termination_by rax.toInt.toNat
decreasing_by
  rename_i h
  rw [toInt_sub_26 (by omega)]
  omega

def decUpper : BitVec 64 → BitVec 64 := decrease (0x5a + 1) (by decide)

def decLower : BitVec 64 → BitVec 64 := decrease (0x7a + 1) (by decide)

/-- What is in `BUFFER` at `WRITE_BYTE`. -/
def rotateBuffer (rbx buffer : BitVec 64) : BitVec 64 :=
  let rax := buffer &&& 255
  if ¬ BitVec.slt 0x5a rax then
    -- INCREMENT_UPPER
    if rax.slt 0x41 then buffer
    else decUpper (rax + rbx)
  else
    -- INCREMENT_LOWER
    if rax.slt 0x61 then buffer
    else if BitVec.ult 0x7a rax then buffer
    else decLower (rax + rbx)

/-- `BUFFER` after a byte was read to its beginning. -/
def storeByte (buffer : BitVec 64) (b : Byte) : BitVec 64 :=
  buffer &&& ~~~255 ||| b.setWidth 64

/-- The loop `READ_BYTE`; it writes the first byte of `BUFFER`. -/
def readBytes (rbx buffer : BitVec 64) : List Byte → OpenFile → OpenFile
  | [], out => out
  | b :: infile, out =>
    let buffer := rotateBuffer rbx (storeByte buffer b)
    readBytes rbx buffer infile (out.write [buffer.setWidth 8])

/-- `strncat` behind the argument. -/
def strncat (dest suffix : CString) : CString := dest.takeWhile (· ≠ 0) ++ suffix

/-- `buffer` is what was on the stack when the program began. -/
def main (buffer : BitVec 64) : List CString → Opens → Exit
  | [_, rot, name], o =>
    let rotVal := myAtoi rot
    if rotVal.slt 0 then ⟨argInvalid, some 2, none⟩
    else
      match o.infile with
      | none => ⟨inFileInvalid, some 2, none⟩
      | some infile =>
        match o.outfile with
        | none => ⟨outFileInvalid, some 2, none⟩
        | some old =>
          ⟨"", some 0, some (strncat name (text ['.', 'o', 'u', 't']),
            (readBytes rotVal buffer infile (.openCreat old)).content)⟩
  | _, _ => ⟨usage, some 255, none⟩

/-! ### The loop that takes 26 away -/

section Decrease

variable {bound : ℕ} {hbound : 26 ≤ bound}

theorem decrease_of_neg {rax : BitVec 64} (h : rax.toInt < 0) :
    decrease bound hbound rax = rax := by
  rw [decrease, if_pos (by omega)]

theorem toInt_ofNat {n : ℕ} (hn : n < 2 ^ 63) : (BitVec.ofNat 64 n).toInt = n := by
  rw [BitVec.toInt_eq_toNat_cond, BitVec.toNat_ofNat, Nat.mod_eq_of_lt (by omega), if_pos (by omega)]

/-- **The remainder**, behind the first letter. -/
theorem decrease_ofNat {first n : ℕ} (hfirst : bound = first + 26) (hle : first ≤ n)
    (hn : n < 2 ^ 63) :
    decrease bound hbound (BitVec.ofNat 64 n) = BitVec.ofNat 64 (first + (n - first) % 26) := by
  induction n using Nat.strong_induction_on with
  | _ n ih =>
    rw [decrease, toInt_ofNat hn]
    by_cases hlt : n < bound
    · rw [if_pos (by exact_mod_cast hlt), Nat.mod_eq_of_lt (by omega)]
      congr 1
      omega
    · have hsub : BitVec.ofNat 64 n - 26 = BitVec.ofNat 64 (n - 26) :=
        BitVec.ofNat_sub_ofNat_of_le n 26 (by decide) (by omega)
      rw [if_neg (by exact_mod_cast hlt), hsub, ih (n - 26) (by omega) (by omega) (by omega)]
      congr 1
      omega

end Decrease

/-! ### The byte that is written -/

theorem setWidth_storeByte (buffer : BitVec 64) (b : Byte) :
    (storeByte buffer b).setWidth 8 = b := by
  have hmask : (~~~255 : BitVec 64).setWidth 8 = 0#8 := by decide
  rw [storeByte, BitVec.setWidth_or, BitVec.setWidth_and, hmask, BitVec.and_zero,
    BitVec.zero_or, BitVec.setWidth_setWidth_of_le _ (by decide), BitVec.setWidth_eq]

theorem storeByte_and (buffer : BitVec 64) (b : Byte) :
    storeByte buffer b &&& 255 = BitVec.ofNat 64 b.toNat := by
  have hlow := congrArg BitVec.toNat (setWidth_storeByte buffer b)
  rw [BitVec.toNat_setWidth] at hlow
  have hmask : (255 : BitVec 64).toNat = 2 ^ 8 - 1 := by decide
  apply BitVec.eq_of_toNat_eq
  rw [BitVec.toNat_and, hmask, Nat.and_two_pow_sub_one_eq_mod, hlow, BitVec.toNat_ofNat,
    Nat.mod_eq_of_lt (by omega)]

/-- **The tests** between `READ_BYTE` and `WRITE_BYTE` tell the two alphabets. -/
theorem rotateBuffer_storeByte (rbx buffer : BitVec 64) (b : Byte) :
    rotateBuffer rbx (storeByte buffer b) =
      match firstLetter b with
      | none => storeByte buffer b
      | some first =>
        if first = 65 then decUpper (BitVec.ofNat 64 b.toNat + rbx)
        else decLower (BitVec.ofNat 64 b.toNat + rbx) := by
  have hb := b.isLt
  obtain ⟨rax, hrax⟩ : ∃ rax, rax = BitVec.ofNat 64 b.toNat := ⟨_, rfl⟩
  have hval : rax.toNat = b.toNat := by
    rw [hrax, BitVec.toNat_ofNat, Nat.mod_eq_of_lt (by omega)]
  have h7a : (0x7a : BitVec 64).toNat = 0x7a := by decide
  have hZ : BitVec.slt 0x5a rax = true ↔ _ := ofNat_slt_iff (m := 0x5a) rax (by decide)
  have hA : rax.slt 0x41 = true ↔ _ := slt_ofNat_iff (m := 0x41) rax (by decide)
  have ha : rax.slt 0x61 = true ↔ _ := slt_ofNat_iff (m := 0x61) rax (by decide)
  have hz : BitVec.ult 0x7a rax = true ↔ 0x7a < rax.toNat := by
    rw [BitVec.ult_iff_lt, BitVec.lt_def, h7a]
  simp only [rotateBuffer, storeByte_and, ← hrax, firstLetter, hZ, hA, ha, hz, hval]
  by_cases hupper : 65 ≤ b.toNat ∧ b.toNat ≤ 90
  · rw [if_pos hupper, if_pos (by omega), if_neg (by omega)]
    rfl
  · by_cases hlower : 97 ≤ b.toNat ∧ b.toNat ≤ 122
    · rw [if_neg hupper, if_pos hlower, if_neg (by omega), if_neg (by omega), if_neg (by omega)]
      rfl
    · rw [if_neg hupper, if_neg hlower]
      split_ifs <;> first | rfl | omega

/-- **The byte that a round writes**: the letter is rotated, unless the sum is too
large for the sign. -/
theorem changed_eq {r : ℕ} (hr : r < 2 ^ 63) (buffer : BitVec 64) (b : Byte) :
    (rotateBuffer (BitVec.ofNat 64 r) (storeByte buffer b)).setWidth 8 =
      match firstLetter b with
      | none => b
      | some first =>
        if b.toNat + r < 2 ^ 63 then BitVec.ofNat 8 (first + (b.toNat - first + r) % 26)
        else BitVec.ofNat 8 (b.toNat + r) := by
  rw [rotateBuffer_storeByte]
  have hb := b.isLt
  rcases hletter : firstLetter b with _ | first
  · exact setWidth_storeByte buffer b
  · obtain ⟨hfirst, hle, hge⟩ := bounds_of_firstLetter hletter
    have hsum : BitVec.ofNat 64 b.toNat + BitVec.ofNat 64 r = BitVec.ofNat 64 (b.toNat + r) :=
      (BitVec.ofNat_add _ _).symm
    have hdec : (if first = 65 then decUpper (BitVec.ofNat 64 (b.toNat + r))
        else decLower (BitVec.ofNat 64 (b.toNat + r))) =
        decrease (first + 26) (by omega) (BitVec.ofNat 64 (b.toNat + r)) := by
      rcases hfirst with rfl | rfl
      · rw [if_pos rfl, decUpper]
      · rw [if_neg (by decide), decLower]
    simp only [hsum, hdec]
    by_cases hfits : b.toNat + r < 2 ^ 63
    · rw [if_pos hfits, decrease_ofNat rfl (by omega) hfits,
        show b.toNat + r - first = b.toNat - first + r by omega]
      exact BitVec.setWidth_ofNat_of_le (by decide) _
    · have hneg : (BitVec.ofNat 64 (b.toNat + r)).toInt < 0 := by
        rw [BitVec.toInt_eq_toNat_cond, BitVec.toNat_ofNat, Nat.mod_eq_of_lt (by omega),
          if_neg (by omega)]
        omega
      rw [if_neg hfits, decrease_of_neg hneg]
      exact BitVec.setWidth_ofNat_of_le (by decide) _

/-- What a round makes of a byte. -/
def changeByte (rbx : BitVec 64) (b : Byte) : Byte :=
  (rotateBuffer rbx (storeByte 0 b)).setWidth 8

/-- The byte that is written does not depend on what `BUFFER` held before. -/
theorem changeByte_eq {rbx : BitVec 64} (hrbx : ¬ rbx.slt 0 = true) (buffer : BitVec 64) (b : Byte) :
    (rotateBuffer rbx (storeByte buffer b)).setWidth 8 = changeByte rbx b := by
  rw [slt_zero_iff] at hrbx
  obtain ⟨r, hr, rfl⟩ : ∃ r, r < 2 ^ 63 ∧ rbx = BitVec.ofNat 64 r :=
    ⟨rbx.toNat, by omega, by simp⟩
  rw [changeByte, changed_eq hr, changed_eq hr]

/-- The loop writes every byte of the input, changed. -/
theorem readBytes_wrote {rbx : BitVec 64} (hrbx : ¬ rbx.slt 0 = true) {old bs : List Byte}
    {out : OpenFile} (h : Wrote old bs out) (buffer : BitVec 64) (infile : List Byte) :
    Wrote old (bs ++ infile.map (changeByte rbx)) (readBytes rbx buffer infile out) := by
  induction infile generalizing buffer bs out with
  | nil => simpa [readBytes] using h
  | cons b infile ih =>
    have hnext := ih (h.write [changeByte rbx b]) (rotateBuffer rbx (storeByte buffer b))
    rw [List.append_assoc] at hnext
    rw [readBytes, changeByte_eq hrbx]
    exact hnext

section Runs

variable (prog name : CString) (buffer : BitVec 64) {rot : CString}

/-- The name of the output. -/
def outName : CString := strncat name (text ['.', 'o', 'u', 't'])

/-- **A run** with an argument that is taken. -/
theorem main_writes (hrot : ¬ (myAtoi rot).slt 0 = true) (x : List Byte) :
    Writes (fun old => main buffer [prog, rot, name] ⟨some x, some old⟩) (outName name)
      (x.map (changeByte (myAtoi rot))) := by
  intro old
  refine ⟨_, readBytes_wrote hrot (wrote_openCreat old) buffer x, ?_⟩
  simp only [main, if_neg hrot]
  rfl

end Runs

/-! ### How far the letters go -/

/-- What a register that runs over loses of an alphabet. -/
theorem add_two_pow_mod (m q : ℕ) : (m + 2 ^ 64 * q) % 26 = (m + 16 * q) % 26 := by
  have hpow : 2 ^ 64 ≡ 16 [MOD 26] := by decide
  exact (Nat.ModEq.refl m).add (hpow.mul_right q)

theorem letter_eq_iff {first m n : ℕ} :
    BitVec.ofNat 8 (first + m % 26) = BitVec.ofNat 8 (first + n % 26) ↔ m % 26 = n % 26 := by
  rw [← BitVec.toNat_inj, BitVec.toNat_ofNat, BitVec.toNat_ofNat]
  omega

/-- A sum too large for the sign, as it is written, against the letter it stands for. -/
theorem overflow_eq_iff {first b q r : ℕ} (hle : first ≤ b) (hge : b ≤ first + 25)
    (hfirst : first ≤ 97) (hr : r < 2 ^ 63) (hover : 2 ^ 63 ≤ b + r) :
    BitVec.ofNat 8 (b + r) = BitVec.ofNat 8 (first + (b - first + r + 2 ^ 64 * q) % 26) ↔
      q % 13 = 6 ∧ 2 ^ 63 + first ≤ b + r := by
  obtain ⟨t, ht, hsum⟩ : ∃ t, t ≤ first + 25 ∧ b + r = t + 2 ^ 63 :=
    ⟨b + r - 2 ^ 63, by omega, by omega⟩
  rw [← BitVec.toNat_inj, BitVec.toNat_ofNat, BitVec.toNat_ofNat, add_two_pow_mod, hsum]
  have hpow : 2 ^ 63 ≡ 8 [MOD 26] := by decide
  have hmod : (b - first + r + 16 * q) % 26 = (t + 26 * 4 - first + 8 + 16 * q) % 26 := by
    have hback : b - first + r + 16 * q + 26 * 4 = t + 26 * 4 - first + 2 ^ 63 + 16 * q := by
      omega
    rw [← Nat.add_mul_mod_self_left (b - first + r + 16 * q) 26 4, hback]
    exact ((Nat.ModEq.refl _).add hpow).add_right _
  have hlow : (t + 2 ^ 63) % 2 ^ 8 = t := by
    omega
  have hiff : 2 ^ 63 + first ≤ t + 2 ^ 63 ↔ first ≤ t := by
    omega
  rw [hmod, hlow, hiff]
  clear hmod hlow hiff hsum hover hr hpow
  omega

/-- For a letter whose alphabet begins with `first`: the sum has no sign and the
argument lost no more than whole alphabets in its register, or both went wrong and
cancel out. -/
def MeetsLetter (k : ℕ) (b : Byte) (first : ℕ) : Prop :=
  if b.toNat + k % 2 ^ 64 < 2 ^ 63 then k / 2 ^ 64 % 13 = 0
  else k / 2 ^ 64 % 13 = 6 ∧ 2 ^ 63 + first ≤ b.toNat + k % 2 ^ 64

theorem changeByte_eq_rotated_iff {k : ℕ} (hk : k % 2 ^ 64 < 2 ^ 63) (b : Byte) :
    changeByte (BitVec.ofNat 64 k) b = rotated k b ↔
      ∀ first, firstLetter b = some first → MeetsLetter k b first := by
  have hmod : BitVec.ofNat 64 k = BitVec.ofNat 64 (k % 2 ^ 64) := by
    apply BitVec.eq_of_toNat_eq
    simp
  obtain ⟨q, hq⟩ : ∃ q, q = k / 2 ^ 64 := ⟨_, rfl⟩
  obtain ⟨r, hr⟩ : ∃ r, r = k % 2 ^ 64 := ⟨_, rfl⟩
  have hsplit : k = r + 2 ^ 64 * q := by
    omega
  rw [changeByte, hmod, changed_eq hk, rotated]
  simp only [MeetsLetter, ← hq, ← hr] at hk ⊢
  rcases hletter : firstLetter b with _ | first
  · simp
  · obtain ⟨hfirst, hle, hge⟩ := bounds_of_firstLetter hletter
    simp only [Option.some.injEq, forall_eq', hsplit, ← Nat.add_assoc]
    by_cases hfits : b.toNat + r < 2 ^ 63
    · rw [if_pos hfits, if_pos hfits, letter_eq_iff, add_two_pow_mod]
      clear hsplit hq hr hmod hfits hk
      omega
    · rw [if_neg hfits, if_neg hfits]
      exact overflow_eq_iff hle hge (by omega) hk (by omega)

/-- A file comes out rotated when every letter in it meets its own. -/
theorem map_changeByte_eq_iff {k : ℕ} (hk : k % 2 ^ 64 < 2 ^ 63) (x : List Byte) :
    x.map (changeByte (BitVec.ofNat 64 k)) = x.map (rotated k) ↔
      ∀ b ∈ x, ∀ first, firstLetter b = some first → MeetsLetter k b first := by
  rw [List.map_inj_left]
  exact forall₂_congr fun b _ => changeByte_eq_rotated_iff hk b

section Rotates

variable {k : ℕ} {rot : CString}

/-- The value of the argument, in its register. -/
theorem myAtoi_eq (hnum : numeral 10 decDigit rot = some k) :
    myAtoi rot = BitVec.ofNat 64 k := by
  rw [myAtoi, parse_eq_numeral, hnum]
  rfl

/-- The program rotates by the number that its argument stands for. -/
def Rotates (buffer : BitVec 64) (prog rot name : CString) (k : ℕ) (x : List Byte) : Prop :=
  Writes (fun old => main buffer [prog, rot, name] ⟨some x, some old⟩) (outName name)
    (x.map (rotated k))

/-- **When the letters go as far as the argument says.** -/
theorem rotates_iff (hnum : numeral 10 decDigit rot = some k)
    (hrot : ¬ (myAtoi rot).slt 0 = true) (buffer : BitVec 64) (prog name : CString)
    (x : List Byte) :
    Rotates buffer prog rot name k x ↔
      ∀ b ∈ x, ∀ first, firstLetter b = some first → MeetsLetter k b first := by
  have hwrites := main_writes prog name buffer hrot x
  rw [myAtoi_eq hnum] at hwrites
  have hk : k % 2 ^ 64 < 2 ^ 63 := by
    rw [myAtoi_eq hnum, slt_zero_iff, BitVec.toNat_ofNat] at hrot
    omega
  rw [← map_changeByte_eq_iff hk]
  constructor
  · intro h
    exact hwrites.unique h
  · intro heq
    rw [Rotates, ← heq]
    exact hwrites

/-- The argument `3`, for the two ends of the alphabets. -/
theorem rotates_three :
    Rotates 0 [] (text ['3']) [] 3 (text ['A', 'z']) ↔
      ∀ b ∈ text ['A', 'z'], ∀ first, firstLetter b = some first → MeetsLetter 3 b first :=
  rotates_iff (by decide) (by decide) 0 [] [] (text ['A', 'z'])

/-- With the largest distance of all, `A` is not taken to `H`: the sum is negative. -/
theorem far_letter_wrong :
    ¬ ∀ rot k, numeral 10 decDigit rot = some k → ¬ (myAtoi rot).slt 0 = true →
      ∀ buffer prog name x, Rotates buffer prog rot name k x := by
  intro h
  have hnum : numeral 10 decDigit (text "9223372036854775807".toList) = some (2 ^ 63 - 1) := by
    decide
  have hrot : ¬ (myAtoi (text "9223372036854775807".toList)).slt 0 = true := by
    rw [myAtoi_eq hnum]
    decide
  have hsame := (main_writes [] [] 0 hrot [0x41]).unique (h _ _ hnum hrot 0 [] [] [0x41])
  rw [myAtoi_eq hnum, map_changeByte_eq_iff (by decide)] at hsame
  have hmeets := hsame 0x41 (by simp) 65 (by decide)
  revert hmeets
  rw [MeetsLetter]
  decide

end Rotates

/-! ### The other program -/

section Rot13

variable {rot : CString} {r : BitVec 64}

theorem rot13_writes (hr : Rot13.rotVal (Rot13.myatoi rot) = some r)
    (prog infile outfile : CString) (x : List Byte) :
    Writes (fun old => Rot13.main [prog, rot, infile, outfile] ⟨some x, some old⟩) outfile
      (x.map (rotated r.toNat)) := by
  obtain ⟨-, -, h25⟩ := Rot13.rotVal_eq_some_iff.mp hr
  have hmap : x.map (Rot13.changeByte r) = x.map (rotated r.toNat) :=
    List.map_congr_left fun b _ => Rot13.changeByte_eq h25 b
  rw [← hmap]
  intro old
  refine ⟨_, Rot13.rotLoop_wrote r old x, ?_⟩
  simp only [Rot13.main, hr]
  rfl

/-- A small distance is never too far. -/
theorem main_writes_rotated {k : ℕ} (hk : k ≤ 25) (hrot : myAtoi rot = BitVec.ofNat 64 k)
    (prog name : CString) (buffer : BitVec 64) (x : List Byte) :
    Writes (fun old => main buffer [prog, rot, name] ⟨some x, some old⟩) (outName name)
      (x.map (rotated k)) := by
  have hmod : k % 2 ^ 64 = k := Nat.mod_eq_of_lt (by omega)
  have hpos : ¬ (myAtoi rot).slt 0 = true := by
    rw [hrot, slt_zero_iff, BitVec.toNat_ofNat]
    omega
  have hmap : x.map (changeByte (myAtoi rot)) = x.map (rotated k) := by
    rw [hrot, map_changeByte_eq_iff (by omega)]
    intro b _ first _
    have hb := b.isLt
    rw [MeetsLetter, hmod, if_pos (by omega)]
    omega
  rw [← hmap]
  exact main_writes prog name buffer hpos x

/-- **The two programs agree** on the arguments that `rot_13` takes, and its own
rotation is undone by the rest of the alphabet. -/
theorem same_output_and_back (hr : Rot13.rotVal (Rot13.myatoi rot) = some r)
    (prog infile outfile prog' name : CString) (buffer : BitVec 64) (x : List Byte) :
    ¬ (myAtoi rot).slt 0 = true ∧ ∃ y,
      Writes (fun old => Rot13.main [prog, rot, infile, outfile] ⟨some x, some old⟩) outfile y ∧
      Writes (fun old => main buffer [prog', rot, name] ⟨some x, some old⟩) (outName name) y ∧
      ∀ rot', numeral 10 decDigit rot' = some (26 - r.toNat) → ∀ infile' outfile',
        Writes (fun old => Rot13.main [prog, rot', infile', outfile'] ⟨some y, some old⟩)
          outfile' x := by
  obtain ⟨hval, hone, h25⟩ := Rot13.rotVal_eq_some_iff.mp hr
  have hrot : myAtoi rot = BitVec.ofNat 64 r.toNat := by
    rw [BitVec.ofNat_toNat, BitVec.setWidth_eq]
    exact hval
  refine ⟨?_, x.map (rotated r.toNat), rot13_writes hr prog infile outfile x,
    main_writes_rotated h25 hrot prog' name buffer x, ?_⟩
  · rw [hrot, slt_zero_iff, BitVec.toNat_ofNat]
    omega
  · intro rot' hnum infile' outfile'
    have hr' : Rot13.rotVal (Rot13.myatoi rot') = some (BitVec.ofNat 64 (26 - r.toNat)) := by
      rw [Rot13.rotVal_eq_some_iff, BitVec.toNat_ofNat]
      exact ⟨myAtoi_eq hnum, by omega, by omega⟩
    have hback : ((x.map (rotated r.toNat)).map (rotated (26 - r.toNat))) = x := by
      rw [List.map_map]
      exact List.map_id'' (fun b => rotated_rotated (by omega) b) x
    have hwrites := rot13_writes hr' prog infile' outfile' (x.map (rotated r.toNat))
    rw [BitVec.toNat_ofNat, Nat.mod_eq_of_lt (by omega), hback] at hwrites
    exact hwrites

/-- The argument `3` on a text with letters of both cases, and `23` back again. -/
theorem same_output_and_back_three :
    ¬ (myAtoi (text ['3'])).slt 0 = true ∧ ∃ y,
      Writes (fun old => Rot13.main [text ['r'], text ['3'], text ['i'], text ['o']]
        ⟨some (text ['A', 'z', '!']), some old⟩) (text ['o']) y ∧
      Writes (fun old => main 0 [text ['j'], text ['3'], text ['i']]
        ⟨some (text ['A', 'z', '!']), some old⟩) (outName (text ['i'])) y ∧
      Writes (fun old => Rot13.main [text ['r'], text ['2', '3'], text ['o'], text ['b']]
        ⟨some y, some old⟩) (text ['b']) (text ['A', 'z', '!']) := by
  have hrot : Rot13.rotVal (Rot13.myatoi (text ['3'])) = some 3 := by decide
  obtain ⟨hpos, y, hrot13, hjacob, hback⟩ := same_output_and_back hrot (text ['r']) (text ['i'])
    (text ['o']) (text ['j']) (text ['i']) 0 (text ['A', 'z', '!'])
  refine ⟨hpos, y, hrot13, hjacob, ?_⟩
  have hnum : numeral 10 decDigit (text ['2', '3']) = some 23 := by decide
  simpa using hback (text ['2', '3']) hnum (text ['o']) (text ['b'])

end Rot13

end JacobRot

end FileFilters
