/-
Files that go from one checksum program to another.

There are three of them: `versions/checksum_v1.s`, which can only encode; `checksum`,
which sums up words with the first byte on top; and the program of `170d`, which works
on the file itself and, as the first version, sums up words with the first byte below.
All of them put two bytes behind the file.

* `main` — the first version;
* `main_encodes` — what it writes;
* `evenPlaces`, `oddPlaces` — what the bytes of each place add to a sum;
* `verified_elsewhere_iff` — when the program of `170d` finds good what the other two
  have written, and when these two write the same.
-/
import Mathlib.Data.Nat.ModEq
import UnixPrograms.Checksum
import UnixPrograms.ChecksumInPlace

namespace ChecksumV1

open Bytes Files

def usage : String := "Usage: ./rot <int> <input_file>\n"

def inFileInvalid : String := "Input file failed to open.\n"

def outFileInvalid : String := "Output file failed to open.\n"

/-! ### The code -/

/-- `ADD` takes the eight bytes from `BUFFER` on; nothing writes to the last six. -/
def addend (above : BitVec 48) (bytes : List Byte) : BitVec 64 :=
  above ++ Checksum.buffer bytes

/-- `READ_WORD`, with `WRITE_WORD` writing as many bytes as were read. -/
def readWords (above : BitVec 48) (r12 : BitVec 64) :
    List Byte → OpenFile → BitVec 64 × OpenFile
  | [], out => (r12, out)
  | [b], out => (r12 + addend above [b], out.write [b])
  | b :: c :: infile, out => readWords above (r12 + addend above [b, c]) infile (out.write [b, c])

def main (above : BitVec 48) : List CString → Opens → Exit
  | [_, name], o =>
    match o.infile with
    | none => ⟨inFileInvalid, some 2, none⟩
    | some infile =>
      match o.outfile with
      | none => ⟨outFileInvalid, some 2, none⟩
      | some old =>
        let (r12, out) := readWords above 0 infile (.openCreat old)
        ⟨"", some 0, some (Checksum.strncat name (text ['.', 'o', 'u', 't']),
          (out.write (storeWord (r12.setWidth 16))).content)⟩
  | _, _ => ⟨usage, some 255, none⟩

/-! ### Sums of places -/

/-- The bytes of the places 0, 2, 4, … -/
def evenPlaces : List Byte → ℕ
  | [] => 0
  | [b] => b.toNat
  | b :: _ :: s => b.toNat + evenPlaces s

/-- The bytes of the places 1, 3, 5, … -/
def oddPlaces : List Byte → ℕ
  | [] => 0
  | [_] => 0
  | _ :: c :: s => c.toNat + oddPlaces s

/-- What the buffer still holds above a single last byte: the byte before it, or the
one that was there from the start. -/
def carried (h : Byte) : List Byte → ℕ
  | [] => 0
  | [_] => h.toNat
  | _ :: c :: s => carried c s

theorem wordTotal_eq (s : List Byte) : wordTotal s = 256 * evenPlaces s + oddPlaces s := by
  fun_induction wordTotal s with
  | case1 => rfl
  | case2 b => rfl
  | case3 b c s ih =>
    rw [evenPlaces, oddPlaces, ih]
    ring

theorem toNat_wordSum_eq (s : List Byte) :
    (wordSum s).toNat = (256 * evenPlaces s + oddPlaces s) % 2 ^ 16 := by
  rw [toNat_wordSum, wordTotal_eq]

/-- The sum that the program of `170d` makes. -/
theorem toNat_sum (h : Byte) (s : List Byte) :
    (ChecksumInPlace.sum h s).toNat
      = (evenPlaces s + 256 * oddPlaces s + 256 * carried h s) % 2 ^ 16 := by
  fun_induction ChecksumInPlace.sum h s with
  | case1 h => rfl
  | case2 h b =>
    have hh := h.isLt
    have hb := b.isLt
    rw [toNat_word, evenPlaces, oddPlaces, carried]
    omega
  | case3 h b c s ih =>
    rw [BitVec.toNat_add, toNat_word, ih, evenPlaces, oddPlaces, carried, Nat.add_mod_mod]
    congr 1
    ring

theorem toNat_addend (above : BitVec 48) (bytes : List Byte) :
    (addend above bytes).toNat % 2 ^ 16 = (Checksum.buffer bytes).toNat := by
  have hlow : (addend above bytes).setWidth 16 = Checksum.buffer bytes :=
    BitVec.setWidth_append_eq_right
  rw [← BitVec.toNat_setWidth, hlow]

/-- The sum that the first version makes, whatever stands above the buffer. -/
theorem toNat_readWords (above : BitVec 48) (r : BitVec 64) (s : List Byte) (out : OpenFile) :
    (readWords above r s out).1.toNat % 2 ^ 16
      = (r.toNat + evenPlaces s + 256 * oddPlaces s) % 2 ^ 16 := by
  fun_induction readWords above r s out with
  | case1 r out => rfl
  | case2 r b out =>
    have hlow := toNat_addend above [b]
    rw [Checksum.buffer, toNat_word] at hlow
    rw [BitVec.toNat_add, evenPlaces, oddPlaces]
    have hzero : (0 : Byte).toNat = 0 := rfl
    omega
  | case3 r b c s out ih =>
    have hlow := toNat_addend above [b, c]
    rw [Checksum.buffer, toNat_word] at hlow
    rw [ih, BitVec.toNat_add, evenPlaces, oddPlaces]
    omega

/-! ### What is written -/

theorem readWords_wrote {old bs : List Byte} {out : OpenFile} (h : Wrote old bs out)
    (above : BitVec 48) (r : BitVec 64) (infile : List Byte) :
    Wrote old (bs ++ infile) (readWords above r infile out).2 := by
  fun_induction readWords above r infile out generalizing bs with
  | case1 r out => simpa using h
  | case2 r b out => exact h.write [b]
  | case3 r b c infile out ih =>
    have hnext := ih (h.write [b, c])
    rwa [List.append_assoc] at hnext

/-- The sum of the words with the first byte below. -/
def placeSum (x : List Byte) : BitVec 16 := BitVec.ofNat 16 (evenPlaces x + 256 * oddPlaces x)

theorem toNat_placeSum (x : List Byte) :
    (placeSum x).toNat = (evenPlaces x + 256 * oddPlaces x) % 2 ^ 16 :=
  BitVec.toNat_ofNat _ 16

/-- The first version writes the file and the sum, whatever is on its stack. -/
theorem main_encodes (above : BitVec 48) (prog name : CString) (x : List Byte) :
    Writes (fun old => main above [prog, name] ⟨some x, some old⟩)
      (Checksum.strncat name (text ['.', 'o', 'u', 't'])) (x ++ storeWord (placeSum x)) := by
  intro old
  have hsum : (readWords above 0 x (.openCreat old)).1.setWidth 16 = placeSum x := by
    have hzero : (0 : BitVec 64).toNat = 0 := rfl
    apply BitVec.eq_of_toNat_eq
    rw [BitVec.toNat_setWidth, toNat_readWords, toNat_placeSum, hzero, Nat.zero_add]
  have hcopy := readWords_wrote (wrote_openCreat old) above 0 x
  refine ⟨_, hcopy.write (storeWord (placeSum x)), ?_⟩
  rw [← hsum]
  rfl

/-! ### What the others find -/

theorem carried_lt (h : Byte) (s : List Byte) : carried h s < 256 := by
  fun_induction carried h s with
  | case1 h => decide
  | case2 h b => exact h.isLt
  | case3 h b c s ih => exact ih

/-- The program of `170d` finds the sum good, and cuts it off. -/
def Verified (frame : ChecksumInPlace.Frame) (y x : List Byte) : Prop :=
  ∀ prog name, ChecksumInPlace.main frame [prog, text ['-', 'd'], name] (some y) =
    ⟨ChecksumInPlace.checksumGoodMsg, 0, some x⟩

theorem verified_iff (frame : ChecksumInPlace.Frame) (x : List Byte) (c : BitVec 16) :
    Verified frame (x ++ storeWord c) x ↔
      ChecksumInPlace.sum (ChecksumInPlace.high frame.buffer) x = c := by
  constructor
  · intro h
    have hmain := h [] []
    rw [ChecksumInPlace.main_decode] at hmain
    exact (ChecksumInPlace.decode_good_iff frame x c).mp (congrArg _ hmain)
  · intro h prog name
    rw [ChecksumInPlace.main_decode, ChecksumInPlace.decode_eq, if_pos h]

section

variable (frame : ChecksumInPlace.Frame) (x : List Byte)

theorem verified_first_iff :
    Verified frame (x ++ storeWord (placeSum x)) x ↔
      carried (ChecksumInPlace.high frame.buffer) x = 0 := by
  have hlt := carried_lt (ChecksumInPlace.high frame.buffer) x
  rw [verified_iff, ← BitVec.toNat_inj, toNat_sum, toNat_placeSum]
  omega

/-- 255 has an inverse modulo `2 ^ 16`. -/
theorem places_swapped_iff (e o c : ℕ) :
    (e + 256 * o + 256 * c) % 2 ^ 16 = (256 * e + o) % 2 ^ 16 ↔
      e + 256 * c ≡ o [MOD 2 ^ 16] := by
  rw [Nat.ModEq]
  omega

theorem verified_checksum_iff :
    Verified frame (Checksum.encoded x) x ↔
      evenPlaces x + 256 * carried (ChecksumInPlace.high frame.buffer) x ≡ oddPlaces x
        [MOD 2 ^ 16] := by
  rw [Checksum.encoded, verified_iff, ← BitVec.toNat_inj, toNat_sum, toNat_wordSum_eq]
  exact places_swapped_iff _ _ _

theorem encoded_eq_iff :
    x ++ storeWord (placeSum x) = Checksum.encoded x ↔
      evenPlaces x ≡ oddPlaces x [MOD 2 ^ 16] := by
  rw [Checksum.encoded, List.append_right_inj, storeWord_injective.eq_iff, ← BitVec.toNat_inj,
    toNat_placeSum, toNat_wordSum_eq]
  exact places_swapped_iff _ _ 0

end

/-- **From one program to another.**  The program of `170d` verifies, and gives back, what
the first version has written if nothing is carried over a single last byte, and what
`checksum` has written if the bytes of the even places, with what is carried, have the
sum of those of the odd places; without a carry, these are the files for which both
write the same. -/
theorem verified_elsewhere_iff (frame : ChecksumInPlace.Frame) (above : BitVec 48)
    (prog name : CString) (x : List Byte) :
    ∃ out y y', (main above [prog, name] ⟨some x, some none⟩).outfile = some (out, y) ∧
      (Checksum.main [prog, name] ⟨some x, some none⟩).outfile = some (out, y') ∧
      (Verified frame y x ↔ carried (ChecksumInPlace.high frame.buffer) x = 0) ∧
      (Verified frame y' x ↔
        evenPlaces x + 256 * carried (ChecksumInPlace.high frame.buffer) x ≡ oddPlaces x
          [MOD 2 ^ 16]) ∧
      (y = y' ↔ evenPlaces x ≡ oddPlaces x [MOD 2 ^ 16]) := by
  have henc : (Checksum.main [prog, name] ⟨some x, some none⟩).outfile
      = some (Checksum.strncat name (text ['.', 'o', 'u', 't']), Checksum.encoded x) := by
    rw [Checksum.main, Checksum.encode_new]
  exact ⟨_, _, _, (main_encodes above prog name x).new, henc, verified_first_iff frame x,
    verified_checksum_iff frame x, encoded_eq_iff x⟩

end ChecksumV1
