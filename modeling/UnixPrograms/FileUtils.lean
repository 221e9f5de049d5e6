/-
`validate_and_open_file` of `file_utils_lib.c`.

* `FileSystem` — what `realpath`, `stat`, `lstat` and `fopen` answer;
* `isFileBinary`, `validateAndOpenFile` — the code; a stream operation on a NULL
  handle is a fault;
* `opens_inside_iff` — when every file it opens lies inside the root.

The code takes a path for one inside the root if the text of the root occurs in
it, wherever that is.
-/
import UnixPrograms.CanonPaths
import UnixPrograms.OpenFile

namespace FileUtils

open Bytes Files Paths

/-- The file types that `st_mode` tells apart. -/
inductive FileKind where
  | regular
  | directory
  | symlink
  | other
deriving DecidableEq

structure FileSystem where
  realpath : CString → Option CanonPath
  stat : CString → Bool
  lstat : CString → Option FileKind
  fopen : CString → CString → Option OpenFile

/-- What is printed to `stderr`; `perror` puts the text of `errno` behind. -/
inductive Message where
  | perror (s : String)
  | notSubdirectory (rootDir : CString)
  | notRegular (filename : CString)
  | binary (filename : CString)
deriving DecidableEq

/-- The handle that is returned, `none` for NULL, and what was printed. -/
structure Opened where
  handle : Option OpenFile
  stderr : Option Message
deriving DecidableEq

/-! ### The code -/

def recordSep : Byte := 0x1e

/-- `isprint` in the C locale. -/
def isprint (c : Byte) : Bool := 0x20 ≤ c.toNat ∧ c.toNat ≤ 0x7e

/-- `isspace` in the C locale. -/
def isspace (c : Byte) : Bool := c.toNat = 0x20 ∨ 0x09 ≤ c.toNat ∧ c.toNat ≤ 0x0d

/-- The loop of `is_file_binary`; the last operand is `!RECORD_SEP`. -/
def findBinary : List Byte → Bool
  | [] => false
  | c :: s => if ¬ isprint c ∧ ¬ isspace c ∧ recordSep = 0 then true else findBinary s

/-- `is_file_binary`, and the handle after its `rewind`. -/
def isFileBinary : Option OpenFile → Option (Bool × OpenFile)
  | none => none
  | some f => some (findBinary f.rest, f.lseekSet 0)

/-- `strstr`: the text from the first occurrence on. -/
def strstr (haystack needle : CString) : Option CString :=
  if needle <+: haystack then some haystack
  else
    match haystack with
    | [] => none
    | _ :: s => strstr s needle

/-- `validate_and_open_file`; the answer is `none` if the call faults. -/
def validateAndOpenFile (fs : FileSystem) (filename mode rootDir : Option CString) :
    Option Opened :=
  match filename, mode, rootDir with
  | some filename, some mode, some rootDir =>
    match fs.realpath filename with
    | none => some ⟨none, some (.perror "Unable to find path")⟩
    | some resolvedPath =>
      if ¬ fs.stat resolvedPath.render then
        some ⟨none, some (.perror "Unable to access file")⟩
      else if strstr resolvedPath.render rootDir = none then
        some ⟨none, some (.notSubdirectory rootDir)⟩
      else
        match fs.lstat filename with
        | none => some ⟨none, some (.perror "lstat error occured")⟩
        | some kind =>
          if kind ≠ .regular then some ⟨none, some (.notRegular filename)⟩
          else
            -- a failing `fopen` prints a message, and its NULL goes on
            match isFileBinary (fs.fopen filename mode) with
            | none => none
            | some (true, _) => some ⟨none, some (.binary filename)⟩
            | some (false, handle) => some ⟨some handle, none⟩
  | _, _, _ => some ⟨none, none⟩

/-! ### What the checks let pass -/

theorem strstr_eq_none_iff {haystack needle : CString} :
    strstr haystack needle = none ↔ ¬ needle <:+: haystack := by
  induction haystack with
  | nil =>
    rw [strstr, List.infix_nil]
    by_cases h : needle = [] <;> simp [h]
  | cons c s ih =>
    rw [strstr, List.infix_cons_iff]
    by_cases h : needle <+: c :: s <;> simp [h, ih]

/-- No file is found binary: `!RECORD_SEP` is 0. -/
theorem findBinary_eq_false (s : List Byte) : findBinary s = false := by
  induction s with
  | nil => rfl
  | cons c s ih =>
    rw [findBinary, if_neg, ih]
    rintro ⟨-, -, hzero⟩
    exact absurd hzero (by decide)

section

variable (fs : FileSystem) (filename mode : CString) (root : CanonPath)

/-- **What a handle means**: the other checks passed, and the text of the root
occurs in that of the path. -/
theorem handle_iff (f : OpenFile) (stderr : Option Message) :
    validateAndOpenFile fs (some filename) (some mode) (some root.render)
        = some ⟨some f, stderr⟩ ↔
      ∃ p f', fs.realpath filename = some p ∧ fs.stat p.render ∧
        root.render <:+: p.render ∧ fs.lstat filename = some .regular ∧
        fs.fopen filename mode = some f' ∧ f = f'.lseekSet 0 ∧ stderr = none := by
  simp only [validateAndOpenFile]
  constructor
  · intro h
    -- a check that fails returns a message and no handle
    rcases hreal : fs.realpath filename with _ | p
    · rw [hreal] at h
      exact absurd h (by simp)
    · rw [hreal] at h
      dsimp only at h
      split_ifs at h with hstat hstr
      · exact absurd h (by simp)
      · rcases hlstat : fs.lstat filename with _ | kind
        · rw [hlstat] at h
          exact absurd h (by simp)
        · rw [hlstat] at h
          dsimp only at h
          split_ifs at h with hkind
          · exact absurd h (by simp)
          · rcases hopen : fs.fopen filename mode with _ | f'
            · rw [hopen] at h
              exact absurd h (by simp [isFileBinary])
            · rw [hopen, isFileBinary, findBinary_eq_false] at h
              obtain ⟨hf, hstderr⟩ := Opened.mk.inj (Option.some.inj h)
              refine ⟨p, f', rfl, hstat, ?_, ?_, rfl, (Option.some.inj hf).symm, hstderr.symm⟩
              · by_contra hno
                exact hstr (strstr_eq_none_iff.mpr hno)
              · rw [not_not.mp hkind]
      · exact absurd h (by simp)
  · rintro ⟨p, f', hreal, hstat, hstr, hlstat, hopen, rfl, rfl⟩
    have hfound : strstr p.render root.render ≠ none :=
      fun hnone => strstr_eq_none_iff.mp hnone hstr
    simp only [hreal, hlstat, hopen, isFileBinary, findBinary_eq_false]
    rw [if_neg (not_not.mpr hstat), if_neg hfound, if_neg (by simp)]

/-- Every file that is opened is the root or lies below it. -/
def OpensInside : Prop :=
  ∀ f stderr, validateAndOpenFile fs (some filename) (some mode) (some root.render)
      = some ⟨some f, stderr⟩ →
    ∃ p, fs.realpath filename = some p ∧ root.Contains p

/-- A regular file that can be opened, outside the root, with the text of the root
somewhere in its path. -/
def Misleading : Prop :=
  ∃ p, fs.realpath filename = some p ∧ root.render <:+: p.render ∧ ¬ root.Contains p ∧
    fs.stat p.render ∧ fs.lstat filename = some .regular ∧ (fs.fopen filename mode).isSome

/-- **No file outside the root is opened** unless the text of the root occurs in
its path. -/
theorem opens_inside_iff :
    OpensInside fs filename mode root ↔ ¬ Misleading fs filename mode root := by
  constructor
  · rintro hinside ⟨p, hreal, hstr, hout, hstat, hlstat, hopen⟩
    obtain ⟨f, hf⟩ := Option.isSome_iff_exists.mp hopen
    have hhandle := (handle_iff fs filename mode root (f.lseekSet 0) none).mpr
      ⟨p, f, hreal, hstat, hstr, hlstat, hf, rfl, rfl⟩
    obtain ⟨p', hreal', hin⟩ := hinside _ _ hhandle
    obtain rfl := Option.some.inj (hreal.symm.trans hreal')
    exact hout hin
  · intro hnot f stderr hhandle
    obtain ⟨p, f', hreal, hstat, hstr, hlstat, hopen, -, -⟩ :=
      (handle_iff fs filename mode root f stderr).mp hhandle
    refine ⟨p, hreal, ?_⟩
    by_contra hout
    exact hnot ⟨p, hreal, hstr, hout, hstat, hlstat, by rw [hopen]; rfl⟩

/-- **Every readable file inside the root is opened**, from its beginning on. -/
theorem handle_of_contains {p : CanonPath} {f : OpenFile} (hreal : fs.realpath filename = some p)
    (hin : root.Contains p) (hstat : fs.stat p.render)
    (hlstat : fs.lstat filename = some .regular) (hopen : fs.fopen filename mode = some f) :
    validateAndOpenFile fs (some filename) (some mode) (some root.render)
      = some ⟨some (f.lseekSet 0), none⟩ :=
  (handle_iff fs filename mode root _ _).mpr
    ⟨p, f, hreal, hstat, (CanonPath.prefix_of_contains hin).isInfix, hlstat, hopen, rfl, rfl⟩

end

/-! ### A file outside -/

/-- The path `/old/srv/x`. -/
def oldSrvX : CanonPath where
  components := [text ['o', 'l', 'd'], text ['s', 'r', 'v'], text ['x']]
  isName := by decide

/-- The directory `/srv`. -/
def srv : CanonPath where
  components := [text ['s', 'r', 'v']]
  isName := by decide

/-- A file system whose only file is `/old/srv/x`, empty. -/
def oneFile : FileSystem where
  realpath name := if name = oldSrvX.render then some oldSrvX else none
  stat name := name = oldSrvX.render
  lstat name := if name = oldSrvX.render then some .regular else none
  fopen name _ := if name = oldSrvX.render then some (.openRead []) else none

/-- `/old/srv/x` is opened as a file below `/srv`. -/
theorem opens_outside :
    ¬ OpensInside oneFile oldSrvX.render (text ['r']) srv := by
  intro hinside
  obtain ⟨p, hreal, hin⟩ := hinside (.openRead []) none (by decide)
  obtain rfl : oldSrvX = p := Option.some.inj hreal
  exact absurd hin (by decide)

end FileUtils
