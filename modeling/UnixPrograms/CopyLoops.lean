/-
The copy loops of `encode.s`, `checksum.s` and `jacob_rot_13/src/rot.s`, read by read.

The files of `Checksum.readWords` and `JacobRot.readBytes` are regular ones, whose
reads all succeed.  Here a read may fail: each loop takes the result of `read` for
zero or not, and the length of the next write, or the byte in it, comes from there.

* `readWord`, `readByte` — one round;
* `wordLoop_run`, `byteLoop_run` — over a regular file they are those functions;
* `copy_loops_end_iff` — they end on the end of the file, and on nothing else.
-/
import UnixPrograms.ReadLoops
import UnixPrograms.Checksum
import UnixPrograms.JacobRot

namespace CopyLoops

open Bytes Files ReadLoops ReadLoops.ReadResult

/-- The bytes that `write` takes from a buffer; a negative length is refused. -/
def writeCall (rdx : BitVec 64) (buffer : List Byte) : List Byte :=
  if rdx.slt 0 then [] else buffer.take rdx.toNat

/-! ### The checksum program -/

/-- What the loop `READ_WORD` works on. -/
structure Words where
  r12w : BitVec 16
  written : List Byte
deriving DecidableEq

/-- One round of `READ_WORD`; `BUFFER` is cleared first. -/
def readWord (s : Words) (r : ReadResult Byte) : Option Words :=
  let buffer := Checksum.buffer r.bytes
  if r.rax = 0 then none
  else some ⟨Checksum.add s.r12w buffer, s.written ++ writeCall r.rax (storeWord buffer)⟩

/-- `READ_WORD` of `encode.s`. -/
def encoderLoop : Loop Words Byte := ⟨readWord, Words.written⟩

/-- `READ_WORD` of `checksum.s`. -/
def decoderLoop : Loop Words Byte := ⟨readWord, Words.written⟩

/-! ### The rotation -/

/-- What the loop `READ_BYTE` works on. -/
structure Rotating where
  buffer : BitVec 64
  written : List Byte
deriving DecidableEq

open FileFilters.JacobRot (rotateBuffer storeByte changeByte readBytes)

/-- One round of `READ_BYTE`; a read that fails leaves `BUFFER` as it was. -/
def readByte (rotVal : BitVec 64) (s : Rotating) (r : ReadResult Byte) : Option Rotating :=
  let buffer :=
    match r.bytes with
    | [] => s.buffer
    | b :: _ => storeByte s.buffer b
  if r.rax = 0 then none
  else
    let buffer := rotateBuffer rotVal buffer
    some ⟨buffer, s.written ++ writeCall 1 [buffer.setWidth 8]⟩

def rotLoop (rotVal : BitVec 64) : Loop Rotating Byte := ⟨readByte rotVal, Rotating.written⟩

/-! ### What one round does -/

theorem writeCall_ofNat {n : ℕ} (hn : n < 2 ^ 63) (buffer : List Byte) :
    writeCall (BitVec.ofNat 64 n) buffer = buffer.take n := by
  have hpos : ¬ (BitVec.ofNat 64 n).slt 0 = true := by
    rw [slt_zero_iff, BitVec.toNat_ofNat]
    omega
  rw [writeCall, if_neg hpos, BitVec.toNat_ofNat, Nat.mod_eq_of_lt (by omega)]

/-- Of the word in `BUFFER`, as many bytes are written as were read. -/
theorem take_storeWord_buffer {bs : List Byte} (hlen : bs.length ≤ 2) :
    (storeWord (Checksum.buffer bs)).take bs.length = bs := by
  match bs, hlen with
  | [], _ => rfl
  | [b], _ =>
    rw [Checksum.buffer, storeWord_word]
    rfl
  | [b, c], _ =>
    rw [Checksum.buffer, storeWord_word]
    rfl

theorem readWord_data (s : Words) {bs : List Byte} (hne : bs ≠ []) (hlen : bs.length ≤ 2) :
    readWord s (.data bs) =
      some ⟨Checksum.add s.r12w (Checksum.buffer bs), s.written ++ bs⟩ := by
  have hwrite : writeCall (data bs).rax (storeWord (Checksum.buffer bs)) = bs := by
    rw [rax, writeCall_ofNat (by omega), take_storeWord_buffer hlen]
  simp only [readWord, if_neg (rax_data_ne_zero hne (by omega)), bytes, hwrite]

theorem readByte_data {rotVal : BitVec 64} (hrot : ¬ rotVal.slt 0 = true) (s : Rotating) (b : Byte) :
    readByte rotVal s (.data [b]) =
      some ⟨rotateBuffer rotVal (storeByte s.buffer b), s.written ++ [changeByte rotVal b]⟩ := by
  have hne : (data [b]).rax ≠ 0 := rax_data_ne_zero (by simp) (by simp)
  have hwrite : writeCall 1 [changeByte rotVal b] = [changeByte rotVal b] :=
    writeCall_ofNat (n := 1) (by decide) _
  simp only [readByte, if_neg hne, bytes, FileFilters.JacobRot.changeByte_eq hrot, hwrite]

theorem readWord_copying : Loop.Copying (⟨readWord, Words.written⟩ : Loop Words Byte) 2 id where
  data := by
    intro s bs hne hlen
    rw [List.map_id]
    exact ⟨_, readWord_data s hne hlen, rfl⟩
  eof := by
    intro s
    rfl
  error := by
    intro s errno herrno
    simp only [readWord, if_neg (rax_error_ne_zero herrno)]
    simp

theorem encoder_copying : encoderLoop.Copying 2 id := readWord_copying

theorem decoder_copying : decoderLoop.Copying 2 id := readWord_copying

theorem rot_copying {rotVal : BitVec 64} (hrot : ¬ rotVal.slt 0 = true) :
    (rotLoop rotVal).Copying 1 (changeByte rotVal) where
  data := by
    intro s bs hne hlen
    obtain ⟨b, rfl⟩ : ∃ b, bs = [b] := List.length_eq_one_iff.mp (by
      have hpos := List.length_pos_iff.mpr hne
      omega)
    exact ⟨_, readByte_data hrot s b, rfl⟩
  eof := by
    intro s
    rfl
  error := by
    intro s errno herrno
    simp only [rotLoop, readByte, if_neg (rax_error_ne_zero herrno)]
    simp

/-! ### Over a regular file -/

/-- Full reads of two bytes, until the last one. -/
def pairs : List Byte → List (List Byte)
  | [] => []
  | [b] => [[b]]
  | b :: c :: infile => [b, c] :: pairs infile

section Regular

variable {old : List Byte} {out : OpenFile}

/-- **The loop of the checksum program** sums up and writes what `readWords` does. -/
theorem wordLoop_run (infile : List Byte) {s : Words} (h : Wrote old s.written out) :
    ∃ t, encoderLoop.run (readsThen (pairs infile) eof) s (pairs infile).length = (t, false) ∧
      t.r12w = (Checksum.readWords s.r12w infile out).1 ∧
      Wrote old t.written (Checksum.readWords s.r12w infile out).2 := by
  obtain ⟨r12w, written⟩ := s
  fun_induction Checksum.readWords r12w infile out generalizing written with
  | case1 r12w out => exact ⟨_, rfl, rfl, h⟩
  | case2 r12w b out =>
    have hbody := readWord_data ⟨r12w, written⟩ (List.cons_ne_nil b []) (by simp)
    exact ⟨_, Loop.run_succ_of_some rfl hbody, rfl, h.write [b]⟩
  | case3 r12w b c infile out ih =>
    have hbody := readWord_data ⟨r12w, written⟩ (List.cons_ne_nil b [c]) (by simp)
    obtain ⟨t, hrun, hsum, hwrote⟩ := ih (written ++ [b, c]) (h.write [b, c])
    refine ⟨t, ?_, hsum, hwrote⟩
    rw [pairs, List.length_cons, Loop.run_cons hbody]
    exact hrun

/-- **The loop of the rotation** writes what `readBytes` does. -/
theorem byteLoop_run {rotVal : BitVec 64} (hrot : ¬ rotVal.slt 0 = true) (infile : List Byte)
    {s : Rotating} (h : Wrote old s.written out) :
    ∃ t, (rotLoop rotVal).run (readsThen (infile.map ([·])) eof) s infile.length = (t, false) ∧
      Wrote old t.written (readBytes rotVal s.buffer infile out) := by
  induction infile generalizing s out with
  | nil => exact ⟨s, rfl, h⟩
  | cons b infile ih =>
    have hbody := readByte_data hrot s b
    obtain ⟨t, hrun, hwrote⟩ := ih
      (s := ⟨rotateBuffer rotVal (storeByte s.buffer b), s.written ++ [changeByte rotVal b]⟩)
      (h.write [changeByte rotVal b])
    refine ⟨t, ?_, ?_⟩
    · rw [List.length_cons, List.map_cons, Loop.run_cons hbody]
      exact hrun
    · rw [readBytes, FileFilters.JacobRot.changeByte_eq hrot]
      exact hwrote

end Regular

/-! ### Whole runs -/

/-- **The copy loops end at the end of the file**, with nothing written that was not
read; from an error that stays none of them gets away. -/
theorem copy_loops_end_iff {last : ReadResult Byte}
    (hlast : last = eof ∨ ∃ errno, IsNegative errno ∧ last = .error errno)
    {words : List (List Byte)} (hwords : ∀ bs ∈ words, bs ≠ [] ∧ bs.length ≤ 2)
    {rotVal : BitVec 64} (hrot : ¬ rotVal.slt 0 = true) (bs : List Byte) (s : Words)
    (t : Rotating) :
    (encoderLoop.Copies (readsThen words last) s id ↔ last = eof) ∧
      (decoderLoop.Copies (readsThen words last) s id ↔ last = eof) ∧
      ((rotLoop rotVal).Copies (readsThen (bs.map ([·])) last) t (changeByte rotVal) ↔
        last = eof) := by
  have hbytes : ∀ cs ∈ bs.map ([·]), cs ≠ [] ∧ cs.length ≤ 1 := by
    intro cs hcs
    obtain ⟨b, -, rfl⟩ := List.mem_map.mp hcs
    simp
  exact ⟨encoder_copying.copies_iff hwords hlast, decoder_copying.copies_iff hwords hlast,
    (rot_copying hrot).copies_iff hbytes hlast⟩

/-- Three bytes, and then the end of the file. -/
theorem copy_loops_end_three :
    (encoderLoop.Copies (readsThen [[1, 2], [3]] eof) ⟨0, []⟩ id ↔ (eof : ReadResult Byte) = eof) ∧
      (decoderLoop.Copies (readsThen [[1, 2], [3]] eof) ⟨0, []⟩ id ↔
        (eof : ReadResult Byte) = eof) ∧
      ((rotLoop 13).Copies (readsThen ([1, 2, 3].map ([·])) eof) ⟨0, []⟩ (changeByte 13) ↔
        (eof : ReadResult Byte) = eof) :=
  copy_loops_end_iff (Or.inl rfl) (by decide) (by decide) [1, 2, 3] ⟨0, []⟩ ⟨0, []⟩

/-- A directory, where each read fails with `EISDIR`. -/
theorem directory_never_left :
    ¬ ∀ (last : ReadResult Byte), (last = eof ∨ ∃ errno, IsNegative errno ∧ last = .error errno) →
      ∀ words : List (List Byte), (∀ bs ∈ words, bs ≠ [] ∧ bs.length ≤ 2) →
        ∀ s : Words, encoderLoop.Copies (readsThen words last) s id := by
  intro h
  have herrno : IsNegative 21 := by
    constructor <;> norm_num
  have hleaves := (h (.error 21) (Or.inr ⟨21, herrno, rfl⟩) [] (by simp) ⟨0, []⟩).1
  exact encoder_copying.not_leaves_error (by simp) herrno hleaves

end CopyLoops
