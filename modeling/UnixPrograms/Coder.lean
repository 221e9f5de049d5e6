/-
The file filters `coder.s`, `decoder.s` and `coder2.s`.

Each of them reads a key in hexadecimal, opens two different files and copies
the one into the other byte by byte, with a counter in `ecx` that goes from 0 to
3 and round again:

* `Coder.main` — rotates left by the counter, then xors with the key;
* `Decoder.main` — xors with the key, then rotates right by the counter;
* `Coder2.main` — either of the two, as its first argument says.

On success no instruction writes `ERROR_CODE`, so the exit status is then
whatever was on the stack.
-/
import UnixPrograms.OpenFile

namespace FileFilters

open Bytes Files

def arg1Invalid : String :=
  "Argument must be hexidecimal numbers in the format XX (example f4).\n"

def arg2Invalid : String := "Unable to open <infile> for reading.\n"

def arg3Invalid : String := "Unable to open <outfile> for writing.\n"

/-- The two `open` calls and then the loop that copies. -/
def openAndCopy (outfile : CString) (loop : List Byte → OpenFile → OpenFile) (o : Opens) :
    Exit :=
  match o.infile with
  | none => ⟨arg2Invalid, some 2, none⟩
  | some infile =>
    match o.outfile with
    | none => ⟨arg3Invalid, some 2, none⟩
    | some old => ⟨"", none, some (outfile, (loop infile (.openCreat old)).content)⟩

/-! ### The key -/

/-- `stringtohex`: the value in `rax`, -1 on an invalid character. -/
def stringtohex (s : CString) : BitVec 64 := parse 16 hexDigit 0 s

/-- The number that a key argument stands for. -/
def hexValue (s : CString) : Option ℕ := numeral 16 hexDigit s

theorem stringtohex_eq (s : CString) :
    stringtohex s = (hexValue s).elim (-1) (BitVec.ofNat 64) :=
  parse_eq_numeral s

/-! ### What the range checks compare -/

theorem ff_slt_iff (rax : BitVec 64) :
    BitVec.slt 0xff rax = true ↔ 255 < rax.toNat ∧ rax.toNat < 2 ^ 63 := by
  rw [show (0xff : BitVec 64) = BitVec.ofNat 64 255 from rfl, ofNat_slt_iff rax (by decide)]
  omega

theorem ff_ult_iff (rax : BitVec 64) :
    BitVec.ult 0xff (rax.setWidth 32) = true ↔ 255 < rax.toNat % 2 ^ 32 := by
  rw [BitVec.ult_iff_lt, BitVec.lt_def, BitVec.toNat_setWidth]
  exact Iff.rfl

/-! ### The loop with the counter -/

/-- `inc ecx`, and back to 0 at 4. -/
def incEcx (ecx : ℕ) : ℕ := if ecx + 1 = 4 then 0 else ecx + 1

/-- The counter is the position modulo 4. -/
theorem incEcx_iterate (i : ℕ) : incEcx^[i] 0 = i % 4 := by
  induction i with
  | zero => rfl
  | succ i ih =>
    rw [Function.iterate_succ_apply', ih, incEcx]
    split <;> omega

section Copy

variable {change undo : ℕ → Byte → Byte}

theorem copy_wrote (change : ℕ → Byte → Byte) (old : Option (List Byte)) (x : List Byte) :
    Wrote (old.getD []) (x.mapIdx fun i => change (i % 4))
      (copyWith incEcx change 0 x (.openCreat old)) := by
  have h := copyWith_wrote incEcx change 0 x old
  simp only [incEcx_iterate] at h
  exact h

end Copy

/-! ### coder -/

namespace Coder

def usage : String := "Usage: coder <xor byte> <infile> <outfile>\n"

/-- The checks between `stringtohex` and `XOR_VAL`: signed, on all of `rax`. -/
def xorVal (rax : BitVec 64) : Option Byte :=
  if rax.slt 0 then none
  else if rax.slt 0x00 then none
  else if BitVec.slt 0xff rax then none
  else some (rax.setWidth 8)

def changeByte (xorVal : Byte) (ecx : ℕ) (al : Byte) : Byte := al.rotateLeft ecx ^^^ xorVal

/-- `CODER_LOOP`. -/
def coderLoop (xorVal : Byte) : List Byte → OpenFile → OpenFile :=
  copyWith incEcx (changeByte xorVal) 0

def main : List CString → Opens → Exit
  | [_, key, _, outfile], o =>
    match xorVal (stringtohex key) with
    | none => ⟨arg1Invalid, some 2, none⟩
    | some k => openAndCopy outfile (coderLoop k) o
  | _, _ => ⟨usage, some 255, none⟩

end Coder

/-! ### decoder -/

namespace Decoder

def usage : String := "Usage: coder <xor byte> <infile> <outfile>\n"

/-- Here the range checks are unsigned and look at `eax` only. -/
def xorVal (rax : BitVec 64) : Option Byte :=
  if rax.slt 0 then none
  else
    let eax : BitVec 32 := rax.setWidth 32
    if eax.ult 0x00 then none
    else if BitVec.ult 0xff eax then none
    else some (rax.setWidth 8)

def changeByte (xorVal : Byte) (ecx : ℕ) (al : Byte) : Byte := (al ^^^ xorVal).rotateRight ecx

/-- `DECODER_LOOP`. -/
def decoderLoop (xorVal : Byte) : List Byte → OpenFile → OpenFile :=
  copyWith incEcx (changeByte xorVal) 0

def main : List CString → Opens → Exit
  | [_, key, _, outfile], o =>
    match xorVal (stringtohex key) with
    | none => ⟨arg1Invalid, some 2, none⟩
    | some k => openAndCopy outfile (decoderLoop k) o
  | _, _ => ⟨usage, some 255, none⟩

end Decoder

/-! ### coder2 -/

namespace Coder2

def usage : String := "Usage: coder <-d|-e> <xor byte> <infile> <outfile>\n"

def argInvalid : String :=
  "Argument is invalid, use either -d for decode or -e for encode.\n"

/-- A byte of an argument; the bytes from its end on are zero. -/
def byteAt (s : CString) (i : ℕ) : Byte := s.getD i 0

/-- The switch as a value of `ebx`: 0 to decode, 1 to encode. -/
def switch (arg : CString) : Option ℕ :=
  if byteAt arg 0 ≠ 0x2d then none
  else if byteAt arg 2 ≠ 0 then none
  else if byteAt arg 1 = 0x64 then some 0
  else if byteAt arg 1 = 0x65 then some 1
  else none

def xorVal (rax : BitVec 64) : Option Byte :=
  if rax.slt 0 then none
  else if rax.slt 0x00 then none
  else if BitVec.slt 0xff rax then none
  else some (rax.setWidth 8)

/-- The label `DO_ENCODE` decodes. -/
def changeByte (ebx : ℕ) (xorVal : Byte) (ecx : ℕ) (al : Byte) : Byte :=
  if ebx = 0 then (al ^^^ xorVal).rotateRight ecx
  else al.rotateLeft ecx ^^^ xorVal

def coderLoop (ebx : ℕ) (xorVal : Byte) : List Byte → OpenFile → OpenFile :=
  copyWith incEcx (changeByte ebx xorVal) 0

def main : List CString → Opens → Exit
  | [_, arg, key, _, outfile], o =>
    match switch arg with
    | none => ⟨argInvalid, some 2, none⟩
    | some ebx =>
      match xorVal (stringtohex key) with
      | none => ⟨arg1Invalid, some 2, none⟩
      | some k => openAndCopy outfile (coderLoop ebx k) o
  | _, _ => ⟨usage, some 255, none⟩

end Coder2

/-! ### Coding and decoding -/

theorem switch_encode : Coder2.switch (text ['-', 'e']) = some 1 := by decide

theorem switch_decode : Coder2.switch (text ['-', 'd']) = some 0 := by decide

theorem Coder.xorVal_eq (rax : BitVec 64) :
    Coder.xorVal rax = if rax.toNat ≤ 255 then some (rax.setWidth 8) else none := by
  rw [Coder.xorVal]
  simp only [slt_zero_iff, ff_slt_iff]
  split_ifs <;> first | rfl | omega

theorem Decoder.xorVal_eq (rax : BitVec 64) :
    Decoder.xorVal rax =
      if rax.toNat < 2 ^ 63 ∧ rax.toNat % 2 ^ 32 ≤ 255 then some (rax.setWidth 8)
      else none := by
  have hzero : BitVec.ult (rax.setWidth 32) 0 = false := decide_eq_false (Nat.not_lt_zero _)
  rw [Decoder.xorVal]
  simp only [slt_zero_iff, ff_ult_iff, hzero, Bool.false_eq_true, if_false]
  split_ifs <;> first | rfl | omega

/-- A numeral too long for `eax` whose low half passes for a byte. -/
def WideKey (key : CString) : Prop :=
  ∃ v, hexValue key = some v ∧
    2 ^ 32 ≤ v % 2 ^ 64 ∧ v % 2 ^ 64 < 2 ^ 63 ∧ v % 2 ^ 32 ≤ 255

/-- The two checks part on the wide keys only. -/
theorem xorVal_eq_iff (key : CString) :
    Coder.xorVal (stringtohex key) = Decoder.xorVal (stringtohex key) ↔ ¬ WideKey key := by
  rw [stringtohex_eq, WideKey]
  rcases hexValue key with _ | v
  · constructor
    · rintro - ⟨v, hv, -⟩
      exact absurd hv (by simp)
    · intro _
      decide
  · have hdvd : v % 2 ^ 64 % 2 ^ 32 = v % 2 ^ 32 := Nat.mod_mod_of_dvd v (by decide)
    simp only [Option.elim_some, Option.some_inj, exists_eq_left', Coder.xorVal_eq,
      Decoder.xorVal_eq, BitVec.toNat_ofNat, hdvd]
    split_ifs <;> simp <;> omega

/-- With both files open, a run leaves an output file exactly when it took the
key; these are the runs of `coder2.s` and of the program it stands for. -/
def SameOutput (prog prog' key infile outfile : CString) (arg : CString)
    (main : List CString → Opens → Exit) (x : List Byte) (old : Option (List Byte)) : Prop :=
  (Coder2.main [prog, arg, key, infile, outfile] ⟨some x, some old⟩).outfile =
    (main [prog', key, infile, outfile] ⟨some x, some old⟩).outfile

section

variable (prog prog' key infile outfile : CString) (x : List Byte) (old : Option (List Byte))

theorem sameOutput_coder :
    SameOutput prog prog' key infile outfile (text ['-', 'e']) Coder.main x old := by
  rw [SameOutput, Coder2.main, Coder.main, switch_encode]
  rfl

theorem sameOutput_decoder_iff :
    SameOutput prog prog' key infile outfile (text ['-', 'd']) Decoder.main x old ↔
      ¬ WideKey key := by
  rw [← xorVal_eq_iff, SameOutput, Coder2.main, Decoder.main, switch_decode]
  have hsame : Coder2.xorVal = Coder.xorVal := rfl
  simp only [hsame]
  constructor
  · intro hout
    rw [Coder.xorVal_eq, Decoder.xorVal_eq] at hout ⊢
    split_ifs at hout ⊢ with hcoder hdecoder
    · rfl
    · exact absurd hout (by simp [openAndCopy])
    · exact absurd hout (by simp [openAndCopy])
    · rfl
  · intro hkey
    rw [hkey]
    rcases Decoder.xorVal (stringtohex key) with _ | k
    · rfl
    · rfl

/-- **`coder2.s` stands for the two programs** except on the wide keys: there
`decoder.s` copies and `coder2.s -d` refuses. -/
theorem coder2_agrees_iff :
    (SameOutput prog prog' key infile outfile (text ['-', 'e']) Coder.main x old ∧
      SameOutput prog prog' key infile outfile (text ['-', 'd']) Decoder.main x old) ↔
      ¬ WideKey key := by
  rw [← sameOutput_decoder_iff prog prog' key infile outfile x old]
  exact and_iff_right (sameOutput_coder prog prog' key infile outfile x old)

end

/-- The key `100000041`, over the file of one zero byte. -/
theorem coder2_differs :
    ¬ ∀ (prog prog' key infile outfile : CString) (x : List Byte) (old : Option (List Byte)),
      SameOutput prog prog' key infile outfile (text ['-', 'e']) Coder.main x old ∧
        SameOutput prog prog' key infile outfile (text ['-', 'd']) Decoder.main x old := by
  intro h
  have hkey := (h [] [] (text ['1', '0', '0', '0', '0', '0', '0', '4', '1']) [] [] [0] none).2
  revert hkey
  rw [SameOutput]
  decide

/-! ### Which keys are right -/

/-- The key byte that a string of hexadecimal digits stands for. -/
def keyByte (key : CString) : Option Byte :=
  match hexValue key with
  | none => none
  | some v => if v ≤ 0xff then some (BitVec.ofNat 8 v) else none

/-- A program refuses the key if it stands for no byte, and otherwise copies under
that byte. -/
def KeyRight (run : Opens → Exit) (loop : Byte → List Byte → OpenFile → OpenFile)
    (outfile key : CString) : Prop :=
  ∀ o, run o =
    match keyByte key with
    | none => ⟨arg1Invalid, some 2, none⟩
    | some k => openAndCopy outfile (loop k) o

/-- A value that does not pass for a byte in `rax`, unless it is one. -/
def FitsRax (v : ℕ) : Prop := v ≤ 0xff ∨ 0xff < v % 2 ^ 64

/-- A value that does not pass for a byte in `eax` with the sign of `rax`. -/
def FitsEax (v : ℕ) : Prop := v ≤ 0xff ∨ 2 ^ 63 ≤ v % 2 ^ 64 ∨ 0xff < v % 2 ^ 32

section Keys

variable {run : Opens → Exit} {loop : Byte → List Byte → OpenFile → OpenFile}
  {outfile key : CString} {xorVal : BitVec 64 → Option Byte}

/-- With its checks, a program is right about the keys that they take as bytes. -/
theorem keyRight_iff
    (hrun : ∀ o, run o =
      match xorVal (stringtohex key) with
      | none => ⟨arg1Invalid, some 2, none⟩
      | some k => openAndCopy outfile (loop k) o)
    (hbyte : ∀ v ≤ 0xff, xorVal (BitVec.ofNat 64 v) = some (BitVec.ofNat 8 v))
    (herror : xorVal (-1) = none) :
    KeyRight run loop outfile key ↔
      ∀ v, hexValue key = some v → v ≤ 0xff ∨ xorVal (BitVec.ofNat 64 v) = none := by
  rw [KeyRight, keyByte]
  simp only [hrun, stringtohex_eq]
  rcases hexValue key with _ | v
  · simp only [Option.elim_none, herror]
    simp
  · simp only [Option.elim_some, Option.some_inj, forall_eq']
    by_cases hv : v ≤ 0xff
    · simp only [hbyte v hv, if_pos hv]
      simp [hv]
    · simp only [hv, false_or, if_false]
      constructor
      · intro h
        -- with both files open, a key that was taken leaves an output
        have hopen := h ⟨some [], some none⟩
        rcases hval : xorVal (BitVec.ofNat 64 v) with _ | k
        · rfl
        · rw [hval] at hopen
          exact absurd (congrArg Exit.outfile hopen) (by simp [openAndCopy])
      · intro hval o
        simp only [hval]

theorem Coder.xorVal_ofNat_eq_none (v : ℕ) :
    v ≤ 0xff ∨ Coder.xorVal (BitVec.ofNat 64 v) = none ↔ FitsRax v := by
  rw [Coder.xorVal_eq, BitVec.toNat_ofNat, FitsRax]
  split_ifs with hle
  · simp only [or_false]
    omega
  · simp only [or_true, true_iff]
    omega

theorem Decoder.xorVal_ofNat_eq_none (v : ℕ) :
    v ≤ 0xff ∨ Decoder.xorVal (BitVec.ofNat 64 v) = none ↔ FitsEax v := by
  have hdvd : v % 2 ^ 64 % 2 ^ 32 = v % 2 ^ 32 := Nat.mod_mod_of_dvd v (by decide)
  rw [Decoder.xorVal_eq, BitVec.toNat_ofNat, hdvd, FitsEax]
  split_ifs with hle
  · simp only [or_false]
    omega
  · simp only [or_true, true_iff]
    omega

theorem Coder.xorVal_byte {v : ℕ} (hv : v ≤ 0xff) :
    Coder.xorVal (BitVec.ofNat 64 v) = some (BitVec.ofNat 8 v) := by
  rw [Coder.xorVal_eq, BitVec.toNat_ofNat, if_pos (by omega),
    BitVec.setWidth_ofNat_of_le (by decide)]

theorem Decoder.xorVal_byte {v : ℕ} (hv : v ≤ 0xff) :
    Decoder.xorVal (BitVec.ofNat 64 v) = some (BitVec.ofNat 8 v) := by
  rw [Decoder.xorVal_eq, BitVec.toNat_ofNat, if_pos (by omega),
    BitVec.setWidth_ofNat_of_le (by decide)]

end Keys

section Programs

variable (prog infile outfile key : CString)

theorem coder_key_iff :
    KeyRight (Coder.main [prog, key, infile, outfile]) Coder.coderLoop outfile key ↔
      ∀ v, hexValue key = some v → FitsRax v := by
  have hrun (o : Opens) : Coder.main [prog, key, infile, outfile] o =
      match Coder.xorVal (stringtohex key) with
      | none => ⟨arg1Invalid, some 2, none⟩
      | some k => openAndCopy outfile (Coder.coderLoop k) o := rfl
  rw [keyRight_iff hrun (fun v => Coder.xorVal_byte) (by decide)]
  simp only [Coder.xorVal_ofNat_eq_none]

theorem decoder_key_iff :
    KeyRight (Decoder.main [prog, key, infile, outfile]) Decoder.decoderLoop outfile key ↔
      ∀ v, hexValue key = some v → FitsEax v := by
  have hrun (o : Opens) : Decoder.main [prog, key, infile, outfile] o =
      match Decoder.xorVal (stringtohex key) with
      | none => ⟨arg1Invalid, some 2, none⟩
      | some k => openAndCopy outfile (Decoder.decoderLoop k) o := rfl
  rw [keyRight_iff hrun (fun v => Decoder.xorVal_byte) (by decide)]
  simp only [Decoder.xorVal_ofNat_eq_none]

theorem coder2_key_iff {arg : CString} {ebx : ℕ} (harg : Coder2.switch arg = some ebx) :
    KeyRight (Coder2.main [prog, arg, key, infile, outfile]) (Coder2.coderLoop ebx) outfile key ↔
      ∀ v, hexValue key = some v → FitsRax v := by
  have hrun (o : Opens) : Coder2.main [prog, arg, key, infile, outfile] o =
      match Coder.xorVal (stringtohex key) with
      | none => ⟨arg1Invalid, some 2, none⟩
      | some k => openAndCopy outfile (Coder2.coderLoop ebx k) o := by
    rw [Coder2.main, harg]
    rfl
  rw [keyRight_iff hrun (fun v => Coder.xorVal_byte) (by decide)]
  simp only [Coder.xorVal_ofNat_eq_none]

/-- **Which keys the three programs are right about.** -/
theorem keys_right_iff :
    (KeyRight (Coder.main [prog, key, infile, outfile]) Coder.coderLoop outfile key ↔
        ∀ v, hexValue key = some v → FitsRax v) ∧
      (KeyRight (Decoder.main [prog, key, infile, outfile]) Decoder.decoderLoop outfile key ↔
        ∀ v, hexValue key = some v → FitsEax v) ∧
      ∀ arg ebx, Coder2.switch arg = some ebx →
        (KeyRight (Coder2.main [prog, arg, key, infile, outfile]) (Coder2.coderLoop ebx)
            outfile key ↔
          ∀ v, hexValue key = some v → FitsRax v) :=
  ⟨coder_key_iff prog infile outfile key, decoder_key_iff prog infile outfile key,
    fun _ _ harg => coder2_key_iff prog infile outfile key harg⟩

end Programs

/-- The key `10000000000000041`, taken by all three as `41`. -/
theorem long_key_taken :
    ¬ ∀ prog infile outfile key : CString,
      KeyRight (Coder.main [prog, key, infile, outfile]) Coder.coderLoop outfile key := by
  intro h
  have hkey := (coder_key_iff [] [] [] _).mp (h [] [] [] (text "10000000000000041".toList))
    (2 ^ 64 + 0x41) (by decide)
  revert hkey
  rw [FitsRax]
  decide

end FileFilters
