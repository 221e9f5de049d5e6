/-
The program `checksum`: `checksum.s` with its `DECODE`, and `encode.s`.

With one argument it copies the file `name` to `name.out` and puts the sum of its
16-bit words behind it; with two it copies the file named by the second one,
printing whether the trailer is the sum:

* `readWords` — the loop `READ_WORD`, which both parts have;
* `encode`, `decode` — the two parts, after the choice that `main` makes;
* `decode_eq` — what a run of `DECODE` prints and writes;
* `accepts_even`, `accepts_odd` — when it finds the trailer good.

`DECODE` cuts its *output* to the length without the trailer before it writes to
it, and then copies and sums up the input to its very end.
-/
import UnixPrograms.OpenFile

namespace Checksum

open Bytes Files

def usage : String := "Usage: ./checksum <input_file>\n"

def inFileInvalid : String := "Input file failed to open.\n"

def outFileInvalid : String := "Output file failed to open.\n"

def checksumMismatch : String := "CHECKSUM Incorrect.\n"

def checksumMatch : String := "CHECKSUM SUCCESS!.\n"

/-! ### The code -/

/-- The word `BUFFER` after it was cleared and `read` put these bytes there. -/
def buffer : List Byte → BitVec 16
  | [] => 0
  | [b] => word 0 b
  | b :: c :: _ => word c b

/-- `ADD`: the bytes of the word trade places, and it goes to the sum. -/
def add (r12w r11w : BitVec 16) : BitVec 16 := r12w + r11w.rotateLeft 8

/-- `READ_WORD`, with `WRITE_WORD` writing as many bytes as were read. -/
def readWords (r12w : BitVec 16) : List Byte → OpenFile → BitVec 16 × OpenFile
  | [], out => (r12w, out)
  | [b], out => (add r12w (buffer [b]), out.write [b])
  | b :: c :: infile, out => readWords (add r12w (buffer [b, c])) infile (out.write [b, c])

/-- `strncat` behind the argument. -/
def strncat (dest suffix : CString) : CString := dest.takeWhile (· ≠ 0) ++ suffix

/-- `GET_NEXT_CHAR`: a zero byte goes over the first `.` of the name. -/
def cutAtDot (name : CString) : CString := name.takeWhile fun r9 => r9 ≠ 0x2e ∧ r9 ≠ 0

def encode (name : CString) (o : Opens) : Exit :=
  match o.infile with
  | none => ⟨inFileInvalid, some 2, none⟩
  | some infile =>
    match o.outfile with
    | none => ⟨outFileInvalid, some 2, none⟩
    | some old =>
      let (r12w, out) := readWords 0 infile (.openCreat old)
      ⟨"", some 0,
        some (strncat name (text ['.', 'o', 'u', 't']), (out.write (storeWord r12w)).content)⟩

def decode (name : CString) (o : Opens) : Exit :=
  match o.infile with
  | none => ⟨inFileInvalid, some 2, none⟩
  | some content =>
    match o.outfile with
    | none => ⟨outFileInvalid, some 2, none⟩
    | some old =>
      -- GET_CHECKSUM, READ_CHECKSUM
      let (size, infile) := (OpenFile.openRead content).lseekEnd (-2)
      let (bytes, infile) := infile.read 2
      let checksum := buffer bytes
      -- TRUNCATE: the file descriptor is that of the output
      let out := (OpenFile.openCreat old).ftruncate size
      let (r12w, out) := readWords 0 (infile.lseekSet 0).rest out
      ⟨if r12w = checksum then checksumMatch else checksumMismatch, some 0,
        some (strncat (cutAtDot name) (text ['2']), out.content)⟩

def main : List CString → Opens → Exit
  | [_, name], o => encode name o
  | [_, _, name], o => decode name o
  | _, _ => ⟨usage, some 255, none⟩

/-! ### The loop -/

theorem add_buffer (r : BitVec 16) (b c : Byte) : add r (buffer [b, c]) = r + word b c := by
  rw [add, buffer, rotateLeft_word]

theorem add_buffer_last (r : BitVec 16) (b : Byte) : add r (buffer [b]) = r + word b 0 := by
  rw [add, buffer, rotateLeft_word]

theorem readWords_sum (r : BitVec 16) (infile : List Byte) (out : OpenFile) :
    (readWords r infile out).1 = r + wordSum infile := by
  fun_induction readWords r infile out with
  | case1 r out => simp
  | case2 r b out => exact add_buffer_last r b
  | case3 r b c infile out ih => rw [ih, add_buffer, wordSum_cons_cons, BitVec.add_assoc]

/-- The loop copies what it sums up. -/
theorem readWords_wrote {old bs : List Byte} {out : OpenFile} (h : Wrote old bs out)
    (r : BitVec 16) (infile : List Byte) :
    Wrote old (bs ++ infile) (readWords r infile out).2 := by
  fun_induction readWords r infile out generalizing bs with
  | case1 r out => simpa using h
  | case2 r b out => exact h.write [b]
  | case3 r b c infile out ih =>
    have hnext := ih (h.write [b, c])
    rwa [List.append_assoc] at hnext

/-! ### The encoder -/

/-- The bytes that `ENCODE` writes. -/
def encoded (x : List Byte) : List Byte := x ++ storeWord (wordSum x)

theorem encode_wrote (x : List Byte) (old : Option (List Byte)) :
    Wrote (old.getD []) (encoded x)
      ((readWords 0 x (.openCreat old)).2.write (storeWord (readWords 0 x (.openCreat old)).1)) := by
  have hsum : (readWords 0 x (.openCreat old)).1 = wordSum x := by
    simp [readWords_sum]
  have hcopy := readWords_wrote (wrote_openCreat old) 0 x
  rw [hsum]
  exact hcopy.write (storeWord (wordSum x))

/-- A new file gets the bytes of the input and the trailer. -/
theorem encode_new (name : CString) (x : List Byte) :
    encode name ⟨some x, some none⟩ =
      ⟨"", some 0, some (strncat name (text ['.', 'o', 'u', 't']), encoded x)⟩ := by
  have hcontent := (encode_wrote x none).content_eq_iff.mpr (Nat.zero_le _)
  simp only [encode, hcontent]

/-- The two bytes behind the file: the low one of the sum modulo `2 ^ 16`, and the
high one. -/
def trailer (x : List Byte) : List Byte :=
  [BitVec.ofNat 8 (wordTotal x % 2 ^ 16), BitVec.ofNat 8 (wordTotal x % 2 ^ 16 / 256)]

theorem storeWord_wordSum (x : List Byte) : storeWord (wordSum x) = trailer x := by
  obtain ⟨h, l, hx⟩ := exists_word (wordSum x)
  have htotal : wordTotal x % 2 ^ 16 = 256 * h.toNat + l.toNat := by
    rw [← toNat_wordSum, hx, toNat_word]
  have hh := h.isLt
  have hl := l.isLt
  rw [hx, storeWord_word, trailer, htotal]
  congr 1
  · apply BitVec.eq_of_toNat_eq
    rw [BitVec.toNat_ofNat]
    omega
  · congr 1
    apply BitVec.eq_of_toNat_eq
    rw [BitVec.toNat_ofNat]
    omega

/-! ### The decoder -/

/-- What `DECODE` finds in a file that ends in the bytes `a`, `b`. -/
def accepts (p : List Byte) (a b : Byte) : Prop := wordSum (p ++ [a, b]) = word b a

instance : ∀ p a b, Decidable (accepts p a b) := fun p a b =>
  inferInstanceAs (Decidable (wordSum (p ++ [a, b]) = word b a))

/-- **A run of `DECODE`** on a file with a trailer: all bytes of the file are
summed up, and all of them are in the output. -/
theorem decode_eq (name : CString) (p : List Byte) (a b : Byte) (old : Option (List Byte)) :
    decode name ⟨some (p ++ [a, b]), some old⟩ =
      ⟨if accepts p a b then checksumMatch else checksumMismatch, some 0,
        some (strncat (cutAtDot name) (text ['2']), p ++ [a, b])⟩ := by
  have hseek : (OpenFile.openRead (p ++ [a, b])).lseekEnd (-2)
      = ((p.length : ℤ), ⟨p ++ [a, b], p.length⟩) :=
    OpenFile.lseekEnd_append p [a, b] 0
  have hread : (OpenFile.read ⟨p ++ [a, b], p.length⟩ 2).1 = [a, b] :=
    OpenFile.read_append p [a, b]
  have hsum (out : OpenFile) : (readWords 0 (p ++ [a, b]) out).1 = wordSum (p ++ [a, b]) := by
    simp [readWords_sum]
  have hcontent : (readWords 0 (p ++ [a, b])
      ((OpenFile.openCreat old).ftruncate p.length)).2.content = p ++ [a, b] := by
    have hcopy := readWords_wrote (wrote_nil (f := (OpenFile.openCreat old).ftruncate p.length)
      (OpenFile.offset_ftruncate _ _)) 0 (p ++ [a, b])
    rw [List.nil_append] at hcopy
    refine hcopy.content_eq_iff.mpr ?_
    rw [OpenFile.length_ftruncate, List.length_append]
    omega
  simp only [decode, hseek, hread, hsum, hcontent, accepts, buffer, OpenFile.content_read,
    OpenFile.rest_lseekSet_zero]
  rfl

/-- After whole words the trailer is one word more of the sum. -/
theorem accepts_even {p : List Byte} (hp : Even p.length) (a b : Byte) :
    accepts p a b ↔ wordSum p + word a b = word b a := by
  rw [accepts, wordSum_append_of_even a b p hp]

/-- After a single last byte its bytes are those of two words. -/
theorem accepts_odd {p : List Byte} (hp : Odd p.length) (a b : Byte) :
    accepts p a b ↔ wordSum p = 0 := by
  rw [accepts, wordSum_append_of_odd a b p hp]
  simp

/-! ### Encoding and decoding -/

theorem exists_encoded_eq (x : List Byte) :
    ∃ h l, wordSum x = word h l ∧ encoded x = x ++ [l, h] := by
  obtain ⟨h, l, hx⟩ := exists_word (wordSum x)
  exact ⟨h, l, hx, by rw [encoded, hx, storeWord_word]⟩

/-- The decoder sums up the trailer too, so it finds its own only over a sum of
zero. -/
theorem accepts_own {x : List Byte} {h l : Byte} (hx : wordSum x = word h l) :
    accepts x l h ↔ wordSum x = 0 := by
  rcases Nat.even_or_odd x.length with heven | hodd
  · rw [accepts_even heven, hx, word_eq_zero, and_comm, ← word_eq_zero]
    simp
  · exact accepts_odd hodd l h

/-- **Decoding an encoded file**: the trailer is left in the output. -/
theorem decode_encoded (name : CString) (x : List Byte) (old : Option (List Byte)) :
    decode name ⟨some (encoded x), some old⟩ =
      ⟨if wordSum x = 0 then checksumMatch else checksumMismatch, some 0,
        some (strncat (cutAtDot name) (text ['2']), encoded x)⟩ := by
  obtain ⟨h, l, hx, henc⟩ := exists_encoded_eq x
  rw [henc, decode_eq]
  simp only [accepts_own hx]

section RoundTrip

variable (prog prog' opt name : CString) (x : List Byte)

/-- The file `x` is encoded, the result is decoded; both outputs are new files. -/
def RoundTrip : Prop :=
  ∃ out y name', (main [prog, name] ⟨some x, some none⟩).outfile = some (out, y) ∧
    (main [prog', opt, out] ⟨some y, some none⟩).stdout = checksumMatch ∧
    (main [prog', opt, out] ⟨some y, some none⟩).outfile = some (name', x)

variable {prog prog' opt name x}

theorem eq_encoded_of_roundTrip (h : RoundTrip prog prog' opt name x) : x = encoded x := by
  obtain ⟨out, y, name', henc, -, hdec⟩ := h
  rw [main, encode_new] at henc
  obtain ⟨-, rfl⟩ := Prod.mk.inj (Option.some.inj henc)
  rw [main, decode_encoded] at hdec
  obtain ⟨-, heq⟩ := Prod.mk.inj (Option.some.inj hdec)
  exact heq.symm

variable (prog prog' opt name x)

/-- **No file comes back**: the decoder's output is two bytes too long. -/
theorem no_round_trip : ¬ RoundTrip prog prog' opt name x := by
  intro h
  have hlen := congrArg List.length (eq_encoded_of_roundTrip h)
  rw [encoded, List.length_append, storeWord, List.length_cons] at hlen
  omega

/-- The file of the one byte `A`. -/
theorem one_byte_not_back : ¬ RoundTrip [] [] [] (text ['f']) [0x41] := by
  intro h
  have heq := eq_encoded_of_roundTrip h
  revert heq
  decide

end RoundTrip

/-! ### What an accepted file can be -/

/-- One byte of the file, and no other, has a new value. -/
def OneByteFrom (y z : List Byte) : Prop :=
  ∃ i v, i < y.length ∧ y[i]? ≠ some v ∧ z = y.set i v

theorem trailer_ne {x y : List Byte} (h : OneByteFrom x y) : trailer y ≠ trailer x := by
  obtain ⟨i, v, hi, hv, rfl⟩ := h
  intro heq
  rw [← storeWord_wordSum, ← storeWord_wordSum] at heq
  exact wordSum_set_ne v x i hi hv (storeWord_injective heq)

/-- **The encoder's output** for every file, and what its trailer is good for. -/
theorem encodes (prog name : CString) (x : List Byte) :
    Writes (fun old => main [prog, name] ⟨some x, some old⟩)
        (strncat name (text ['.', 'o', 'u', 't'])) (x ++ trailer x) ∧
      ∀ y, OneByteFrom x y → trailer y ≠ trailer x := by
  refine ⟨?_, fun y h => trailer_ne h⟩
  intro old
  rw [← storeWord_wordSum]
  exact ⟨_, encode_wrote x old, rfl⟩

/-- After one changed byte the trailer is not the sum of the bytes before it. -/
theorem trailer_ne_of_oneByteFrom {x p : List Byte} {a b : Byte}
    (h : OneByteFrom (encoded x) (p ++ [a, b])) : word b a ≠ wordSum p := by
  obtain ⟨i, v, hi, hv, hz⟩ := h
  obtain ⟨h, l, hx, henc⟩ := exists_encoded_eq x
  rw [henc] at hi hv hz
  by_cases hlt : i < x.length
  · rw [List.set_append_left i v hlt] at hz
    rw [List.getElem?_append_left hlt] at hv
    obtain ⟨rfl, htrailer⟩ := List.append_inj' hz rfl
    obtain ⟨rfl, rfl⟩ : a = l ∧ b = h := by simpa using htrailer
    rw [← hx]
    exact (wordSum_set_ne v x i hlt hv).symm
  · have hle : x.length ≤ i := by omega
    rw [List.set_append_right i v hle] at hz
    rw [List.getElem?_append_right hle] at hv
    obtain ⟨rfl, htrailer⟩ := List.append_inj' hz (by simp)
    rw [hx, Ne, word_inj]
    rw [List.length_append] at hi
    obtain hzero | hone : i - p.length = 0 ∨ i - p.length = 1 := by
      simp only [List.length_cons, List.length_nil] at hi
      omega
    · rw [hzero] at htrailer hv
      obtain ⟨rfl, rfl⟩ : a = v ∧ b = h := by simpa using htrailer
      rintro ⟨-, rfl⟩
      exact hv rfl
    · rw [hone] at htrailer hv
      obtain ⟨rfl, rfl⟩ : a = l ∧ b = v := by simpa using htrailer
      rintro ⟨rfl, -⟩
      exact hv rfl

section Sound

variable (prog opt name : CString) (old : Option (List Byte)) (p : List Byte) (a b : Byte)

/-- `DECODE` reports success on the file that ends in `a`, `b`. -/
def ReportsSuccess : Prop :=
  (main [prog, opt, name] ⟨some (p ++ [a, b]), some old⟩).stdout = checksumMatch

/-- Success says that the trailer is the sum of the bytes before it, and it is
not reported for a file that is one byte away from an output of the encoder. -/
def Sound : Prop :=
  (ReportsSuccess prog opt name old p a b → word b a = wordSum p) ∧
    ∀ prog' name' x out y, (main [prog', name'] ⟨some x, some none⟩).outfile = some (out, y) →
      OneByteFrom y (p ++ [a, b]) → ¬ ReportsSuccess prog opt name old p a b

/-- The trailer is zero, or its words, taken with those before it, do not happen
to meet it. -/
def NoCoincidence : Prop :=
  (a = 0 ∧ b = 0) ∨ (Even p.length ∧ wordSum p + word a b ≠ word b a) ∨
    (Odd p.length ∧ wordSum p ≠ 0)

variable {prog opt name old p a b}

theorem reportsSuccess_iff : ReportsSuccess prog opt name old p a b ↔ accepts p a b := by
  have hne : checksumMismatch ≠ checksumMatch := by decide
  rw [ReportsSuccess, main, decode_eq]
  by_cases h : accepts p a b
  · simp [h]
  · simp [h, hne]

/-- A file that is accepted for its sum has a zero trailer. -/
theorem noCoincidence_iff : NoCoincidence p a b ↔ (accepts p a b → word b a = wordSum p) := by
  have hzero (hs : wordSum p + word a b = word b a) : word b a = wordSum p ↔ a = 0 ∧ b = 0 := by
    rw [← hs, ← word_eq_zero]
    simp
  rcases Nat.even_or_odd p.length with heven | hodd
  · have hno : ¬ Odd p.length := Nat.not_odd_iff_even.mpr heven
    rw [NoCoincidence, accepts_even heven]
    constructor
    · rintro (hab | ⟨-, hne⟩ | ⟨h, -⟩) hs
      · exact (hzero hs).mpr hab
      · exact absurd hs hne
      · exact absurd h hno
    · intro h
      by_cases hs : wordSum p + word a b = word b a
      · exact Or.inl ((hzero hs).mp (h hs))
      · exact Or.inr (Or.inl ⟨heven, hs⟩)
  · have hno : ¬ Even p.length := Nat.not_even_iff_odd.mpr hodd
    rw [NoCoincidence, accepts_odd hodd]
    constructor
    · rintro (⟨rfl, rfl⟩ | ⟨h, -⟩ | ⟨-, hne⟩) hs
      · rw [hs]
        decide
      · exact absurd h hno
      · exact absurd hs hne
    · intro h
      by_cases hs : wordSum p = 0
      · have hba := h hs
        rw [hs, word_eq_zero] at hba
        exact Or.inl ⟨hba.2, hba.1⟩
      · exact Or.inr (Or.inr ⟨hodd, hs⟩)

variable (prog opt name old p a b)

/-- **When success can be trusted.** -/
theorem sound_iff : Sound prog opt name old p a b ↔ NoCoincidence p a b := by
  rw [noCoincidence_iff, Sound, reportsSuccess_iff]
  constructor
  · intro h
    exact h.1
  · intro h
    refine ⟨h, ?_⟩
    intro prog' name' x out y henc hchange hacc
    rw [main, encode_new] at henc
    obtain ⟨-, rfl⟩ := Prod.mk.inj (Option.some.inj henc)
    exact trailer_ne_of_oneByteFrom hchange (h hacc)

/-- The bytes `00 00 01`, one byte away from the encoded file `01 00 01`. -/
theorem damaged_file_accepted : ¬ Sound [] [] (text ['f']) none [0] 0 1 := by
  intro h
  have hsum := h.1 (reportsSuccess_iff.mpr (by decide))
  revert hsum
  decide

end Sound

end Checksum
