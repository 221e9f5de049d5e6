/-
The menu program and the end of its input.

`MAIN_MENU` does not look at what `read` returns.  After the end of the file every
choice is the empty string, which is the number 0: an invalid option, for ever.

* `main`, `mainMenu` — the process with what its reads will deliver;
* `rounds` — the rounds of the menu that an input makes up;
* `exits_iff` — the process exits if one of them chooses to, and `CONVERT` has not
  killed it before.
-/
import UnixPrograms.MenuConverter

namespace MenuProgram

open Bytes

/-! ### The process -/

/-- The process: at `MAIN_MENU`, with the results of the reads to come, or at its
end. -/
inductive Process where
  | menu (s : Statics) (stdin : List (List Byte))
  /-- The `exit` syscall. -/
  | exited
  /-- A `div` faulted. -/
  | killed

/-- The `read` syscall; at the end of the file it delivers nothing. -/
def read : List (List Byte) → List Byte × List (List Byte)
  | [] => ([], [])
  | chunk :: stdin => (chunk, stdin)

/-- The choice is one of the three routines, which read once more. -/
def AsksLine (choice : List Byte) : Prop :=
  myStrtol (typedString choice) = 1 ∨ myStrtol (typedString choice) = 2 ∨
    myStrtol (typedString choice) = 3

instance (choice : List Byte) : Decidable (AsksLine choice) :=
  inferInstanceAs (Decidable (_ ∨ _ ∨ _))

/-- The reads of one round. -/
def readRound (stdin : List (List Byte)) : Round × List (List Byte) :=
  let (choice, stdin) := read stdin
  if AsksLine choice then
    let (typed, stdin) := read stdin
    (⟨choice, typed⟩, stdin)
  else (⟨choice, []⟩, stdin)

/-- The round goes to `EXIT`. -/
def ChoosesExit (r : Round) : Prop := myStrtol (typedString r.choice) = 4

instance (r : Round) : Decidable (ChoosesExit r) :=
  inferInstanceAs (Decidable (myStrtol (typedString r.choice) = 4))

/-- From `MAIN_MENU` back to `MAIN_MENU`, or to the end of the process. -/
def mainMenu : Process → Process
  | .menu s stdin =>
    let (r, stdin) := readRound stdin
    match step s r with
    | some (s, _) => .menu s stdin
    | none => if ChoosesExit r then .exited else .killed
  | .exited => .exited
  | .killed => .killed

/-- The program up to `MAIN_MENU`: the name that it reads is only printed. -/
def main (argc : ℕ) (rbx : BitVec 64) (stdin : List (List Byte)) : Process :=
  if argc = 1 then .menu (fresh rbx) (read stdin).2 else .exited

/-- The process gets to the `exit` syscall. -/
def Exits (p : Process) : Prop := ∃ k, mainMenu^[k] p = .exited

/-! ### One round -/

variable {s s' : Statics} {r : Round} {stdin rest : List (List Byte)}

/-- The round runs `CONVERT`, on a number at which it faults. -/
def Faults (r : Round) : Prop :=
  myStrtol (typedString r.choice) = 3 ∧ StartsDividing (typedString r.typed)

/-- The two ways in which a round ends the process. -/
theorem step_eq_none_iff : step s r = none ↔ ChoosesExit r ∨ Faults r := by
  rw [step, ChoosesExit, Faults, ← @convert_eq_none_iff r.typed s]
  generalize myStrtol (typedString r.choice) = rax
  split_ifs with hone htwo hthree hfour
  · subst hone
    simp
  · subst htwo
    simp
  · subst hthree
    simp
  · simp [hfour]
  · refine iff_of_false (by simp) ?_
    rintro (h | ⟨h, -⟩)
    · exact hfour h
    · exact hthree h

theorem ChoosesExit.not_faults (h : ChoosesExit r) : ¬ Faults r := by
  rintro ⟨hthree, -⟩
  exact absurd (h.symm.trans hthree) (by decide)

theorem exits_mainMenu : Exits (mainMenu (.menu s stdin)) ↔ Exits (.menu s stdin) := by
  constructor
  · rintro ⟨k, hk⟩
    exact ⟨k + 1, hk⟩
  · rintro ⟨k, hk⟩
    rcases k with _ | k
    · exact absurd hk (by simp)
    · exact ⟨k, hk⟩

theorem not_exits_killed : ¬ Exits .killed := by
  rintro ⟨k, hk⟩
  rw [Function.iterate_fixed (show mainMenu .killed = .killed from rfl)] at hk
  exact absurd hk (by simp)

/-- At the end of the file the menu only goes round. -/
theorem not_exits_nil (s : Statics) : ¬ Exits (.menu s []) := by
  rintro ⟨k, hk⟩
  rw [Function.iterate_fixed (show mainMenu (.menu s []) = .menu s [] from rfl)] at hk
  exact absurd hk (by simp)

theorem exits_of_choosesExit (h : readRound stdin = (r, rest)) (hr : ChoosesExit r) :
    Exits (.menu s stdin) := by
  refine ⟨1, ?_⟩
  simp [mainMenu, h, step_eq_none_iff.mpr (Or.inl hr), hr]

theorem not_exits_of_faults (h : readRound stdin = (r, rest)) (hr : Faults r) :
    ¬ Exits (.menu s stdin) := by
  have hkilled : mainMenu (.menu s stdin) = .killed := by
    have hnot : ¬ ChoosesExit r := fun hexit => hexit.not_faults hr
    simp [mainMenu, h, step_eq_none_iff.mpr (Or.inr hr), hnot]
  rw [← exits_mainMenu, hkilled]
  exact not_exits_killed

/-! ### Whole inputs -/

/-- The rounds that an input makes up; a routine at the end of the file gets the
empty line. -/
def rounds : List (List Byte) → List Round
  | [] => []
  | choice :: stdin =>
    if AsksLine choice then
      match stdin with
      | [] => [⟨choice, []⟩]
      | typed :: stdin => ⟨choice, typed⟩ :: rounds stdin
    else ⟨choice, []⟩ :: rounds stdin

/-- Some round goes to `EXIT`, and `CONVERT` does not fault before it. -/
def Leaves (rounds : List Round) : Prop :=
  ∃ past r rest, rounds = past ++ r :: rest ∧ ChoosesExit r ∧ ∀ q ∈ past, ¬ Faults q

theorem not_leaves_nil : ¬ Leaves [] := by
  rintro ⟨past, r, rest, h, -⟩
  simp at h

theorem leaves_cons {rs : List Round} :
    Leaves (r :: rs) ↔ ChoosesExit r ∨ (¬ Faults r ∧ Leaves rs) := by
  constructor
  · rintro ⟨past, q, rest, heq, hq, hpast⟩
    rcases past with _ | ⟨p, past⟩
    · obtain ⟨rfl, -⟩ := List.cons.inj heq
      exact Or.inl hq
    · obtain ⟨rfl, rfl⟩ := List.cons.inj heq
      obtain ⟨hp, hpast⟩ := List.forall_mem_cons.mp hpast
      exact Or.inr ⟨hp, past, q, rest, rfl, hq, hpast⟩
  · rintro (hr | ⟨hr, past, q, rest, rfl, hq, hpast⟩)
    · exact ⟨[], r, rs, rfl, hr, by simp⟩
    · exact ⟨r :: past, q, rest, rfl, hq, List.forall_mem_cons.mpr ⟨hr, hpast⟩⟩

/-- One round more. -/
theorem exits_menu_iff {rs : List Round} (h : readRound stdin = (r, rest))
    (ih : ∀ s, Exits (.menu s rest) ↔ Leaves rs) :
    Exits (.menu s stdin) ↔ Leaves (r :: rs) := by
  rw [leaves_cons]
  by_cases hexit : ChoosesExit r
  · exact iff_of_true (exits_of_choosesExit h hexit) (Or.inl hexit)
  · by_cases hfaults : Faults r
    · exact iff_of_false (not_exits_of_faults h hfaults) (by simp [hexit, hfaults])
    · rcases hstep : step s r with _ | ⟨t, out⟩
      · exact absurd (step_eq_none_iff.mp hstep) (by simp [hexit, hfaults])
      · have hnext : mainMenu (.menu s stdin) = .menu t rest := by
          simp [mainMenu, h, hstep]
        rw [← exits_mainMenu, hnext, ih t]
        simp [hexit, hfaults]

/-- From any state of the data. -/
theorem exits_menu (s : Statics) (stdin : List (List Byte)) :
    Exits (.menu s stdin) ↔ Leaves (rounds stdin) := by
  fun_induction rounds stdin generalizing s with
  | case1 => exact iff_of_false (not_exits_nil s) not_leaves_nil
  | case2 choice hasks =>
    have hread : readRound [choice] = (⟨choice, []⟩, []) := by
      simp [readRound, read, hasks]
    exact exits_menu_iff hread fun t => iff_of_false (not_exits_nil t) not_leaves_nil
  | case3 choice hasks typed stdin ih =>
    have hread : readRound (choice :: typed :: stdin) = (⟨choice, typed⟩, stdin) := by
      simp [readRound, read, hasks]
    exact exits_menu_iff hread ih
  | case4 choice stdin hasks ih =>
    have hread : readRound (choice :: stdin) = (⟨choice, []⟩, stdin) := by
      simp [readRound, read, hasks]
    exact exits_menu_iff hread ih

/-- **When the menu program exits.** -/
theorem exits_iff (rbx : BitVec 64) (stdin : List (List Byte)) :
    Exits (main 1 rbx stdin) ↔ Leaves (rounds stdin.tail) := by
  have hmain : main 1 rbx stdin = .menu (fresh rbx) stdin.tail := by
    rcases stdin with _ | ⟨chunk, stdin⟩ <;> rfl
  rw [hmain]
  exact exits_menu (fresh rbx) stdin.tail

/-- A name, and then nothing. -/
theorem name_alone : ¬ Exits (main 1 0 [line ['a']]) := not_exits_nil (fresh 0)

end MenuProgram
