/-
Open regular files: their bytes and the offset where the next transfer goes.

* `openCreat` — `O_WRONLY | O_CREAT`: a new file is empty, an old one keeps its
  bytes;
* `write`, `lseekEnd`, `lseekSet`, `read`, `ftruncate` — as POSIX has them for a
  regular file, whose transfers are never short;
* `copyWith` — a loop that reads a byte, changes it and writes it, with a
  counter on the way.

`Opens` is what a command finds that copies one file into another, `Exit` what
its run leaves behind.  `Wrote old bs f` says that `f` came from a file `old` by writing `bs` from its
beginning on: what lies behind `bs` is still there.
-/
import Mathlib.Tactic
import UnixPrograms.Bytes

namespace Files

open Bytes

structure OpenFile where
  content : List Byte
  offset : ℕ
deriving DecidableEq

namespace OpenFile

/-- A file opened for reading. -/
def openRead (content : List Byte) : OpenFile := ⟨content, 0⟩

/-- A file opened with `O_WRONLY | O_CREAT`; `none` if there was no file. -/
def openCreat (old : Option (List Byte)) : OpenFile := ⟨old.getD [], 0⟩

/-- What is left to read. -/
def rest (f : OpenFile) : List Byte := f.content.drop f.offset

/-- `read` of `n` bytes, or of what is left. -/
def read (f : OpenFile) (n : ℕ) : List Byte × OpenFile :=
  let bs := f.rest.take n
  (bs, ⟨f.content, f.offset + bs.length⟩)

/-- `write` at the offset; a gap before it is filled with zeros. -/
def write (f : OpenFile) (bs : List Byte) : OpenFile :=
  if bs = [] then f
  else
    ⟨f.content.takeD f.offset 0 ++ bs ++ f.content.drop (f.offset + bs.length),
      f.offset + bs.length⟩

/-- `lseek` from the end: the new offset, or `-EINVAL` in front of the file. -/
def lseekEnd (f : OpenFile) (d : ℤ) : ℤ × OpenFile :=
  let pos := f.content.length + d
  if pos < 0 then (-22, f) else (pos, ⟨f.content, pos.toNat⟩)

/-- `lseek` from the beginning. -/
def lseekSet (f : OpenFile) (pos : ℕ) : OpenFile := ⟨f.content, pos⟩

/-- `ftruncate`: cuts the file, or fills it up with zeros; a negative size is
refused. -/
def ftruncate (f : OpenFile) (size : ℤ) : OpenFile :=
  if size < 0 then f else ⟨f.content.takeD size.toNat 0, f.offset⟩

@[simp] theorem rest_lseekSet_zero (f : OpenFile) : (f.lseekSet 0).rest = f.content := rfl

@[simp] theorem content_read (f : OpenFile) (n : ℕ) : (f.read n).2.content = f.content := rfl

@[simp] theorem offset_ftruncate (f : OpenFile) (size : ℤ) :
    (f.ftruncate size).offset = f.offset := by
  rw [ftruncate]
  split <;> rfl

theorem length_ftruncate (f : OpenFile) (n : ℕ) : (f.ftruncate n).content.length = n := by
  rw [ftruncate, if_neg (by omega)]
  exact List.takeD_length n f.content 0

@[simp] theorem write_nil (f : OpenFile) : f.write [] = f := rfl

/-- Seeking back over a known end of the file. -/
theorem lseekEnd_append (p s : List Byte) (off : ℕ) :
    lseekEnd ⟨p ++ s, off⟩ (-(s.length : ℤ)) = ((p.length : ℤ), ⟨p ++ s, p.length⟩) := by
  have hpos : ((p ++ s).length : ℤ) + -s.length = p.length := by
    rw [List.length_append]
    push_cast
    ring
  simp only [lseekEnd, hpos]
  rw [if_neg (by omega), Int.toNat_natCast]

theorem read_append (p s : List Byte) :
    (read ⟨p ++ s, p.length⟩ s.length).1 = s := by
  simp [read, rest]

/-- A write at the end of the file. -/
theorem write_append (p s : List Byte) :
    write ⟨p, p.length⟩ s = ⟨p ++ s, (p ++ s).length⟩ := by
  by_cases hs : s = []
  · rw [hs, write_nil, List.append_nil]
  · have hfront : p.takeD p.length 0 = p := by
      simpa using List.takeD_left p [] 0
    rw [write, if_neg hs]
    simp only [hfront, List.drop_of_length_le (Nat.le_add_right p.length s.length),
      List.append_nil, List.length_append]

/-- Cutting off the end of the file. -/
theorem ftruncate_append (p s : List Byte) (off : ℕ) :
    ftruncate ⟨p ++ s, off⟩ p.length = ⟨p, off⟩ := by
  rw [ftruncate, if_neg (by omega)]
  dsimp only
  rw [Int.toNat_natCast, List.takeD_left]

end OpenFile

open OpenFile

/-! ### Commands -/

/-- What `open` answers: the bytes of the input file, and for the output file the
bytes it had before, `some none` where `O_CREAT` makes it; `none` is an error. -/
structure Opens where
  infile : Option (List Byte)
  outfile : Option (Option (List Byte))

/-- A run that is over: what it printed, its exit status (`none` where nothing
sets it) and the output file with its name, if it was opened. -/
structure Exit where
  stdout : String
  status : Option ℕ
  outfile : Option (CString × List Byte)
deriving DecidableEq

/-! ### What was written -/

/-- The file is `old` with `bs` written over its beginning, and the next write
goes behind `bs`. -/
structure Wrote (old bs : List Byte) (f : OpenFile) : Prop where
  content : f.content = bs ++ old.drop bs.length
  offset : f.offset = bs.length

variable {old bs cs : List Byte} {f : OpenFile}

/-- Nothing was written yet. -/
theorem wrote_nil (hoff : f.offset = 0) : Wrote f.content [] f := ⟨rfl, hoff⟩

theorem wrote_openCreat (old : Option (List Byte)) :
    Wrote (old.getD []) [] (openCreat old) :=
  wrote_nil (f := openCreat old) rfl

/-- A write goes on where the last one ended. -/
theorem Wrote.write (h : Wrote old bs f) (cs : List Byte) :
    Wrote old (bs ++ cs) (f.write cs) := by
  by_cases hcs : cs = []
  · subst hcs
    simpa using h
  · obtain ⟨hcontent, hoffset⟩ := h
    have hfront : f.content.takeD f.offset 0 = bs := by
      rw [hcontent, hoffset]
      exact List.takeD_left bs _ 0
    have hback : f.content.drop (f.offset + cs.length)
        = old.drop (bs ++ cs).length := by
      rw [hcontent, hoffset, List.drop_length_add_append, List.drop_drop, List.length_append]
    rw [OpenFile.write, if_neg hcs]
    constructor
    · rw [hfront, hback]
    · simp [hoffset]

/-- **Nothing is left of the old file** exactly when it was no longer than what
was written over it. -/
theorem Wrote.content_eq_iff (h : Wrote old bs f) :
    f.content = bs ↔ old.length ≤ bs.length := by
  rw [h.content, List.append_right_eq_self, List.drop_eq_nil_iff]

/-- Runs over any old file, or none, write `bs` to the file of this name. -/
def Writes (run : Option (List Byte) → Exit) (name : CString) (bs : List Byte) : Prop :=
  ∀ old, ∃ f, Wrote (old.getD []) bs f ∧ (run old).outfile = some (name, f.content)

/-- A new file gets just these bytes. -/
theorem Writes.new {run : Option (List Byte) → Exit} {name : CString}
    (h : Writes run name bs) : (run none).outfile = some (name, bs) := by
  obtain ⟨f, hf, hout⟩ := h none
  rw [hout, hf.content_eq_iff.mpr (Nat.zero_le _)]

theorem Writes.unique {run : Option (List Byte) → Exit} {name name' : CString}
    (h : Writes run name bs) (h' : Writes run name' cs) : bs = cs := by
  have heq := h.new.symm.trans h'.new
  exact (Prod.mk.inj (Option.some.inj heq)).2

/-! ### Byte by byte -/

section Copy

variable {κ : Type} (next : κ → κ) (change : κ → Byte → Byte)

/-- Reads a byte, changes it, writes it and moves the counter, to the end of the
input. -/
def copyWith (k : κ) : List Byte → OpenFile → OpenFile
  | [], out => out
  | b :: infile, out => copyWith (next k) infile (out.write [change k b])

variable {next change}

/-- **The bytes of a copy**: each one is changed under the counter of its
position. -/
theorem Wrote.copyWith (h : Wrote old bs f) (k : κ) (infile : List Byte) :
    Wrote old (bs ++ infile.mapIdx fun i => change (next^[i] k))
      (copyWith next change k infile f) := by
  induction infile generalizing k bs f with
  | nil => simpa [Files.copyWith] using h
  | cons b infile ih =>
    have hnext := ih (h.write [change k b]) (next k)
    rw [List.append_assoc] at hnext
    rw [List.mapIdx_cons]
    exact hnext

variable (next change) in
theorem copyWith_wrote (k : κ) (infile : List Byte) (old : Option (List Byte)) :
    Wrote (old.getD []) (infile.mapIdx fun i => change (next^[i] k))
      (Files.copyWith next change k infile (openCreat old)) :=
  (wrote_openCreat old).copyWith k infile

end Copy

end Files
