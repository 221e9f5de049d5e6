/-
The streams of `validate_and_open_file`.

The function once more, with the table of streams of the process:

* `Streams` — `fopen` adds a stream, `fclose` takes it away, and an operation
  on NULL or on a closed stream is a fault;
* `Streams.validateAndOpenFile_eq` — without the table it is the function of
  `FileUtils.lean`;
* `Streams.validates_iff` — for a file inside the root, when it opens exactly
  the files of text and leaves no stream behind otherwise.

After a failing `fopen` the NULL goes on into `is_file_binary`, which reads from
it; and as `!RECORD_SEP` is 0, no byte of any file counts as binary.
-/
import UnixPrograms.FileUtils

namespace FileUtils

open Bytes Files Paths

/-- The streams opened so far, `none` for one that is closed again.  A `FILE *`
is NULL or a place in this table. -/
abbrev Streams := List (Option OpenFile)

/-- What a call returns and prints, and the streams it leaves behind. -/
structure OpenedStream where
  handle : Option ℕ
  stderr : Option Message
  streams : Streams
deriving DecidableEq

namespace Streams

/-! ### The code -/

/-- The open stream behind a `FILE *`. -/
def get (t : Streams) : Option ℕ → Option OpenFile
  | none => none
  | some h => t[h]?.join

/-- `fopen`, of which the file system says what it finds. -/
def fopen (t : Streams) : Option OpenFile → Option ℕ × Streams
  | none => (none, t)
  | some f => (some t.length, t ++ [some f])

/-- `fclose`. -/
def fclose (t : Streams) : Option ℕ → Option Streams
  | none => none
  | some h => (t.get (some h)).map fun _ => t.set h none

/-- `is_file_binary` on the stream behind the pointer. -/
def isFileBinary (t : Streams) : Option ℕ → Option (Bool × Streams)
  | none => none
  | some h =>
    (FileUtils.isFileBinary (t.get (some h))).map fun p => (p.1, t.set h (some p.2))

/-- `validate_and_open_file`; the answer is `none` if the call faults. -/
def validateAndOpenFile (fs : FileSystem) (filename mode rootDir : Option CString)
    (t : Streams) : Option OpenedStream :=
  match filename, mode, rootDir with
  | some filename, some mode, some rootDir =>
    match fs.realpath filename with
    | none => some ⟨none, some (.perror "Unable to find path"), t⟩
    | some resolvedPath =>
      if ¬ fs.stat resolvedPath.render then
        some ⟨none, some (.perror "Unable to access file"), t⟩
      else if strstr resolvedPath.render rootDir = none then
        some ⟨none, some (.notSubdirectory rootDir), t⟩
      else
        match fs.lstat filename with
        | none => some ⟨none, some (.perror "lstat error occured"), t⟩
        | some kind =>
          if kind ≠ .regular then some ⟨none, some (.notRegular filename), t⟩
          else
            let (hFilePtr, t) := t.fopen (fs.fopen filename mode)
            match t.isFileBinary hFilePtr with
            | none => none
            | some (false, t) => some ⟨hFilePtr, none, t⟩
            | some (true, t) =>
              (t.fclose hFilePtr).map fun t => ⟨none, some (.binary filename), t⟩
  | _, _, _ => some ⟨none, none, t⟩

/-! ### One stream -/

variable (t : Streams) (f : OpenFile)

@[simp] theorem get_append_length : get (t ++ [some f]) (some t.length) = some f := by
  rw [get, List.getElem?_concat_length]
  rfl

@[simp] theorem isFileBinary_fopen :
    isFileBinary (t ++ [some f]) (some t.length) =
      some (false, t ++ [some (f.lseekSet 0)]) := by
  rw [isFileBinary, get_append_length, FileUtils.isFileBinary, findBinary_eq_false,
    Option.map_some, List.set_append_right _ _ (le_refl _), Nat.sub_self]
  rfl

variable {t f}

/-! ### The two models -/

/-- **The table of streams is only added to the function**: what the call
returns and prints does not depend on it. -/
theorem validateAndOpenFile_eq (fs : FileSystem) (filename mode rootDir : Option CString)
    (t : Streams) :
    FileUtils.validateAndOpenFile fs filename mode rootDir =
      (validateAndOpenFile fs filename mode rootDir t).map fun r =>
        ⟨r.streams.get r.handle, r.stderr⟩ := by
  rcases filename with _ | filename
  · rfl
  rcases mode with _ | mode
  · rfl
  rcases rootDir with _ | rootDir
  · rfl
  simp only [FileUtils.validateAndOpenFile, validateAndOpenFile]
  rcases fs.realpath filename with _ | p
  · rfl
  dsimp only
  split_ifs
  · rfl
  · rcases fs.lstat filename with _ | kind
    · rfl
    · dsimp only
      split_ifs
      · rfl
      · rcases fs.fopen filename mode with _ | f
        · rfl
        · simp [fopen, FileUtils.isFileBinary, findBinary_eq_false]
  · rfl

/-! ### The files it should open -/

/-- Every byte is printable, white space, or the record separator. -/
def IsText (f : OpenFile) : Prop :=
  ∀ c ∈ f.content, isprint c ∨ isspace c ∨ c = recordSep

instance IsText.instDecidable (f : OpenFile) : Decidable (IsText f) :=
  inferInstanceAs (Decidable (∀ c ∈ f.content, _))

section

variable (fs : FileSystem) (filename mode : CString) (root : CanonPath)

/-- The calls before `fopen` succeed, and the file is regular. -/
def PassesChecks : Prop :=
  (∃ p, fs.realpath filename = some p ∧ fs.stat p.render) ∧
    fs.lstat filename = some .regular

/-- All the calls succeed, and the file is a regular file of text. -/
def Accepts (f : OpenFile) : Prop :=
  PassesChecks fs filename ∧ fs.fopen filename mode = some f ∧ IsText f

/-- The call touches no NULL; it returns a stream at the beginning of the file
exactly for the files to accept, and else NULL with no new stream left open. -/
def Validates : Prop :=
  ∀ t : Streams, ∃ r,
    validateAndOpenFile fs (some filename) (some mode) (some root.render) t = some r ∧
      (∀ f, Accepts fs filename mode f →
        r.handle = some t.length ∧ r.streams = t ++ [some (f.lseekSet 0)]) ∧
      ((∀ f, ¬ Accepts fs filename mode f) →
        r.handle = none ∧ ∃ closed, r.streams = t ++ List.replicate closed none)

/-- Where a check fails, NULL is returned before anything is opened. -/
theorem validateAndOpenFile_of_not_passes (hpass : ¬ PassesChecks fs filename)
    (t : Streams) :
    ∃ message,
      validateAndOpenFile fs (some filename) (some mode) (some root.render) t =
        some ⟨none, some message, t⟩ := by
  simp only [validateAndOpenFile]
  rcases hreal : fs.realpath filename with _ | p
  · exact ⟨_, rfl⟩
  dsimp only
  split_ifs with hstat hstr
  · exact ⟨_, rfl⟩
  · rcases hlstat : fs.lstat filename with _ | kind
    · exact ⟨_, rfl⟩
    dsimp only
    split_ifs with hkind
    · exact ⟨_, rfl⟩
    · -- nothing has failed after all
      rw [not_not] at hkind
      exact absurd ⟨⟨p, hreal, hstat⟩, hkind ▸ hlstat⟩ hpass
  · exact ⟨_, rfl⟩

variable {fs filename mode root}

/-- A file inside the root is opened as soon as the checks before it pass. -/
theorem validateAndOpenFile_of_passes
    (hin : ∀ p, fs.realpath filename = some p → root.Contains p)
    (hpass : PassesChecks fs filename) (t : Streams) :
    validateAndOpenFile fs (some filename) (some mode) (some root.render) t =
      (fs.fopen filename mode).map fun f =>
        ⟨some t.length, none, t ++ [some (f.lseekSet 0)]⟩ := by
  obtain ⟨⟨p, hreal, hstat⟩, hlstat⟩ := hpass
  have hfound : strstr p.render root.render ≠ none := fun hnone =>
    strstr_eq_none_iff.mp hnone (CanonPath.prefix_of_contains (hin p hreal)).isInfix
  simp only [validateAndOpenFile, hreal, hlstat]
  rw [if_neg (not_not.mpr hstat), if_neg hfound, if_neg (by simp)]
  rcases fs.fopen filename mode with _ | f
  · rfl
  · simp [fopen]

/-- **When the function does what it is for**, on a file inside the root: a
check before `fopen` fails, or the file can be opened and is text. -/
theorem validates_iff (hin : ∀ p, fs.realpath filename = some p → root.Contains p) :
    Validates fs filename mode root ↔
      (PassesChecks fs filename → ∃ f, fs.fopen filename mode = some f ∧ IsText f) := by
  constructor
  · intro hval hpass
    obtain ⟨r, hrun, -, hno⟩ := hval []
    rw [validateAndOpenFile_of_passes hin hpass, Option.map_eq_some_iff] at hrun
    obtain ⟨f, hopen, rfl⟩ := hrun
    refine ⟨f, hopen, ?_⟩
    -- a stream came back, so some file was to be accepted, and it is this one
    by_contra htext
    refine absurd (hno ?_).1 (Option.some_ne_none _)
    rintro f' ⟨-, hopen', htext'⟩
    exact htext (Option.some.inj (hopen.symm.trans hopen') ▸ htext')
  · intro h t
    by_cases hpass : PassesChecks fs filename
    · obtain ⟨f, hopen, htext⟩ := h hpass
      refine ⟨⟨some t.length, none, t ++ [some (f.lseekSet 0)]⟩, ?_, ?_, ?_⟩
      · rw [validateAndOpenFile_of_passes hin hpass, hopen, Option.map_some]
      · rintro f' ⟨-, hopen', -⟩
        rw [Option.some.inj (hopen'.symm.trans hopen)]
        exact ⟨rfl, rfl⟩
      · exact fun hno => absurd ⟨hpass, hopen, htext⟩ (hno f)
    · obtain ⟨message, hrun⟩ := validateAndOpenFile_of_not_passes fs filename mode root hpass t
      refine ⟨_, hrun, fun f hf => absurd hf.1 hpass, fun _ => ⟨rfl, 0, ?_⟩⟩
      rw [List.replicate_zero, List.append_nil]

end

/-! ### Two files of `/srv` -/

/-- The path `/srv/x`. -/
def srvX : CanonPath where
  components := [text ['s', 'r', 'v'], text ['x']]
  isName := by decide

/-- A file system whose only file is `/srv/x`; `none` if it cannot be opened. -/
def onlySrvX (content : Option (List Byte)) : FileSystem where
  realpath name := if name = srvX.render then some srvX else none
  stat name := name = srvX.render
  lstat name := if name = srvX.render then some .regular else none
  fopen name _ := if name = srvX.render then content.map .openRead else none

theorem validates_srvX :
    Validates (onlySrvX (some [0x41, 0x1e, 0x0a])) srvX.render (text ['r']) srv ↔
      (PassesChecks (onlySrvX (some [0x41, 0x1e, 0x0a])) srvX.render →
        ∃ f, (onlySrvX (some [0x41, 0x1e, 0x0a])).fopen srvX.render (text ['r']) = some f ∧
          IsText f) :=
  validates_iff (by
    intro p hreal
    obtain rfl : srvX = p := Option.some.inj hreal
    decide)

/-- A file that cannot be opened is read from, and a byte 1 counts as text. -/
theorem unreadable_and_binary_srvX :
    ¬ Validates (onlySrvX none) srvX.render (text ['r']) srv ∧
      ¬ Validates (onlySrvX (some [1])) srvX.render (text ['r']) srv := by
  constructor
  · intro hval
    obtain ⟨r, hrun, -⟩ := hval []
    have hfault : validateAndOpenFile (onlySrvX none) (some srvX.render) (some (text ['r']))
        (some srv.render) [] = none := by decide
    exact absurd (hfault.symm.trans hrun) (Option.some_ne_none r).symm
  · intro hval
    obtain ⟨r, hrun, -, hno⟩ := hval []
    have hopens : validateAndOpenFile (onlySrvX (some [1])) (some srvX.render)
        (some (text ['r'])) (some srv.render) [] =
          some ⟨some 0, none, [some (.openRead [1])]⟩ := by decide
    obtain rfl := Option.some.inj (hopens.symm.trans hrun)
    refine absurd (hno ?_).1 (Option.some_ne_none _)
    rintro f ⟨-, hopen, htext⟩
    obtain rfl : OpenFile.openRead [1] = f := Option.some.inj hopen
    exact absurd htext (by decide)

end Streams

end FileUtils
