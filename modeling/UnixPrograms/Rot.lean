/-
The file filter `rot_13/src/rot.s`.

`Rot13.main` takes the distance in decimal and moves every letter that far along
its alphabet, upper and lower case apart; the other bytes are copied.  Bytes are
compared with a sign, so those from 0x80 on are below `A`.

`rotated` is what a rotation means: the letters of each alphabet go round.  Two
rotations that make up the alphabet undo each other (`rotated_rotated`), and the
program makes them (`Rot13.changeByte_eq`).
-/
import UnixPrograms.Coder

namespace FileFilters

open Bytes Files

/-! ### Letters -/

/-- The first letter of the alphabet that a letter is of. -/
def firstLetter (b : Byte) : Option ℕ :=
  if 65 ≤ b.toNat ∧ b.toNat ≤ 90 then some 65
  else if 97 ≤ b.toNat ∧ b.toNat ≤ 122 then some 97
  else none

/-- A letter moved along its alphabet; any other byte as it is. -/
def rotated (k : ℕ) (b : Byte) : Byte :=
  match firstLetter b with
  | none => b
  | some first => BitVec.ofNat 8 (first + (b.toNat - first + k) % 26)

theorem bounds_of_firstLetter {b : Byte} {first : ℕ} (h : firstLetter b = some first) :
    (first = 65 ∨ first = 97) ∧ first ≤ b.toNat ∧ b.toNat ≤ first + 25 := by
  rw [firstLetter] at h
  split_ifs at h
  · obtain rfl := Option.some.inj h
    omega
  · obtain rfl := Option.some.inj h
    omega

theorem firstLetter_eq_some_iff {b : Byte} {first : ℕ} :
    firstLetter b = some first ↔
      (first = 65 ∨ first = 97) ∧ first ≤ b.toNat ∧ b.toNat ≤ first + 25 := by
  refine ⟨bounds_of_firstLetter, ?_⟩
  rintro ⟨rfl | rfl, hle, hge⟩
  · rw [firstLetter, if_pos (by omega)]
  · rw [firstLetter, if_neg (by omega), if_pos (by omega)]

/-- **Once round the alphabet.** -/
theorem rotated_rotated {j k : ℕ} (h : j + k = 26) (b : Byte) : rotated j (rotated k b) = b := by
  rcases hletter : firstLetter b with _ | first
  · have hsame : rotated k b = b := by
      rw [rotated, hletter]
    rw [hsame, rotated, hletter]
  · obtain ⟨hfirst, hle, hge⟩ := bounds_of_firstLetter hletter
    have hmoved : (rotated k b).toNat = first + (b.toNat - first + k) % 26 := by
      rw [rotated, hletter]
      simp only [BitVec.toNat_ofNat]
      omega
    have hletter' : firstLetter (rotated k b) = some first :=
      firstLetter_eq_some_iff.mpr ⟨hfirst, by omega, by omega⟩
    rw [rotated, hletter', hmoved]
    apply BitVec.eq_of_toNat_eq
    simp only [BitVec.toNat_ofNat]
    omega

namespace Rot13

def usage : String := "Usage: rot <rot-val> <infile> <outfile>\n"

/-- `myatoi`: the value in `rax`, -1 on an invalid character. -/
def myatoi (s : CString) : BitVec 64 := parse 10 decDigit 0 s

/-- The checks between `myatoi` and `ROTVAL`. -/
def rotVal (rax : BitVec 64) : Option (BitVec 64) :=
  if rax.slt 0 then none
  else if rax.slt 1 then none
  else if BitVec.slt 25 rax then none
  else some rax

/-- `ISUPPERCHAR` and `ISLOWERCHAR`: `div cl` leaves the remainder in `ah`; the
read before it left 1 in `rax`, so `ah` is zero when it divides. -/
def rotate (base : Byte) (rotval : BitVec 64) (al : Byte) : Byte :=
  let bl : Byte := rotval.setWidth 8
  let al := al - base + bl
  BitVec.ofNat 8 (al.toNat % 26) + base

/-- The body of `ROT_LOOP` between the read and the write. -/
def changeByte (rotval : BitVec 64) (b : Byte) : Byte :=
  if b.slt 0x41 then b
  else if BitVec.slt 0x7a b then b
  else if ¬ BitVec.slt 0x5a b then rotate 0x41 rotval b
  else if b.slt 0x61 then b
  else rotate 0x61 rotval b

/-- `ROT_LOOP`, which has no counter. -/
def rotLoop (rotval : BitVec 64) : List Byte → OpenFile → OpenFile :=
  copyWith id (fun _ => changeByte rotval) ()

/-- Before `ROTVALINVALID` exits it sets up a write and does not make it. -/
def main : List CString → Opens → Exit
  | [_, rot, _, outfile], o =>
    match rotVal (myatoi rot) with
    | none => ⟨"", some 2, none⟩
    | some rotval => openAndCopy outfile (rotLoop rotval) o
  | _, _ => ⟨usage, some 255, none⟩

theorem rotLoop_wrote (rotval : BitVec 64) (old : Option (List Byte)) (x : List Byte) :
    Wrote (old.getD []) (x.map (changeByte rotval)) (rotLoop rotval x (.openCreat old)) := by
  have hmap : x.mapIdx (fun _ => changeByte rotval) = x.map (changeByte rotval) := by
    apply List.ext_getElem
    · simp
    · intro i _ _
      simp
  rw [← hmap]
  exact copyWith_wrote id (fun _ => changeByte rotval) () x old

/-! ### The rotation -/

theorem rotVal_eq_some_iff {rax r : BitVec 64} :
    rotVal rax = some r ↔ rax = r ∧ 1 ≤ r.toNat ∧ r.toNat ≤ 25 := by
  have hlow : rax.slt 1 = true ↔ _ := slt_ofNat_iff (m := 1) rax (by decide)
  have hhigh : BitVec.slt 25 rax = true ↔ _ := ofNat_slt_iff (m := 25) rax (by decide)
  rw [rotVal]
  simp only [slt_zero_iff, hlow, hhigh]
  constructor
  · intro h
    split_ifs at h
    obtain rfl := Option.some.inj h
    exact ⟨rfl, by omega, by omega⟩
  · rintro ⟨rfl, hone, h25⟩
    rw [if_neg (by omega), if_neg (by omega), if_neg (by omega)]

theorem rotate_eq {base b : Byte} {r : BitVec 64} (hle : base.toNat ≤ b.toNat)
    (hge : b.toNat ≤ base.toNat + 25) (hr : r.toNat ≤ 25) :
    rotate base r b = BitVec.ofNat 8 (base.toNat + (b.toNat - base.toNat + r.toNat) % 26) := by
  have hsum : (b - base + r.setWidth 8).toNat = b.toNat - base.toNat + r.toNat := by
    rw [BitVec.toNat_add, BitVec.toNat_sub_of_le hle, BitVec.toNat_setWidth]
    omega
  simp only [rotate]
  rw [hsum]
  apply BitVec.eq_of_toNat_eq
  rw [BitVec.toNat_add, BitVec.toNat_ofNat, BitVec.toNat_ofNat]
  omega

/-- **The tests with a sign** find the letters. -/
theorem changeByte_eq {r : BitVec 64} (hr : r.toNat ≤ 25) (b : Byte) :
    changeByte r b = rotated r.toNat b := by
  have hb := b.isLt
  have hA : b.slt 0x41 = true ↔ _ := slt_ofNat_iff (m := 0x41) b (by decide)
  have hZ : BitVec.slt 0x5a b = true ↔ _ := ofNat_slt_iff (m := 0x5a) b (by decide)
  have ha : b.slt 0x61 = true ↔ _ := slt_ofNat_iff (m := 0x61) b (by decide)
  have hz : BitVec.slt 0x7a b = true ↔ _ := ofNat_slt_iff (m := 0x7a) b (by decide)
  have h41 : (0x41 : Byte).toNat = 65 := by decide
  have h61 : (0x61 : Byte).toNat = 97 := by decide
  rw [changeByte, rotated]
  simp only [hA, hZ, ha, hz]
  rcases hletter : firstLetter b with _ | first
  · have hno (first : ℕ) : ¬ ((first = 65 ∨ first = 97) ∧ first ≤ b.toNat ∧ b.toNat ≤ first + 25) := by
      rw [← firstLetter_eq_some_iff, hletter]
      simp
    have hupper := hno 65
    have hlower := hno 97
    split_ifs <;> first | rfl | omega
  · obtain ⟨rfl | rfl, hle, hge⟩ := bounds_of_firstLetter hletter
    · rw [if_neg (by omega), if_neg (by omega), if_pos (by omega), rotate_eq (by omega) (by omega) hr,
        h41]
    · rw [if_neg (by omega), if_neg (by omega), if_neg (by omega), if_neg (by omega),
        rotate_eq (by omega) (by omega) hr, h61]

end Rot13

end FileFilters
