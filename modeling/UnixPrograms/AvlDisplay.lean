/-
The picture that `avl_display_full` draws.

`print_recursive` draws the tree turned on its side, the right subtree above the
root.  To the left of a node it prints one string for each node above it, the
`str` field of that node's `struct trunk`.  These structs live in the frames of the
calls that are still running, each linked to the one before it, and a call writes
into its own one and into that of its caller:

* `printRecursive` — the code, with the strings of the open frames as a list;
* `drawing` — the picture, from the way to each node alone: a bar stands where the
  way turns;
* `printRecursive_eq` — the strings are always those of the picture;
* `terminal`, `readLines` — the characters on the terminal, when `user_print` prints a
  line for each datum, and what a reader finds on the lines;
* `display_determines` — these characters show the tree.
-/
import UnixPrograms.AvlTraversals

namespace AvlTreeLib

open AvlNode

variable {α : Type*}

/-! ### The code -/

/-- What goes to the terminal: strings of the library, and data that `user_print`
is called on. -/
inductive Shown (α : Type*) where
  | text (s : String)
  | data (d : α)
  deriving DecidableEq

/-- `print_trunks`.  The list is the chain of `p_prev`, the last trunk first. -/
def printTrunks : List String → List (Shown α)
  | [] => []
  | str :: pPrev => printTrunks pPrev ++ [.text str]

/-- `p_prev->str = str`, for a `p_prev` that is not NULL. -/
def setStr (str : String) : List String → List String
  | [] => []
  | _ :: pPrev => str :: pPrev

/-- `print_recursive`: what it prints, and the strings of its caller's trunks when
it is done. -/
def printRecursive : AvlNode α → List String → Bool → List (Shown α) × List String
  | null, pPrev, _ => ([], pPrev)
  | node d _ l r, pPrev, isPLeft =>
    let pPrevStr := "     "
    let (above, thisDisp) := printRecursive r ("     " :: pPrev) true
    let pPrev := thisDisp.tail
    let (str, pPrevStr, pPrev) :=
      if pPrev.isEmpty then ("---", pPrevStr, pPrev)
      else if isPLeft then (".--", "    |", pPrev)
      else ("`--", pPrevStr, setStr pPrevStr pPrev)
    let line := printTrunks (str :: pPrev) ++ [.data d]
    let pPrev := setStr pPrevStr pPrev
    let (below, thisDisp) := printRecursive l ("    |" :: pPrev) false
    let pPrev := thisDisp.tail
    (above ++ line ++ below ++ (if pPrev.isEmpty then [.text "\n"] else []), pPrev)

/-- `avl_display_full`; `print` says whether it is not NULL.  The tree is read
without a test. -/
def avlDisplayFull (pTree : Option (AvlTree α)) (print : Bool) : Option (List (Shown α)) :=
  match pTree with
  | none => none
  | some s =>
    match s.pRoot with
    | null => some []
    | node d h l r =>
      if print = false then some []
      else some (printRecursive (node d h l r) [] false).1

/-! ### The picture -/

/-- What stands in the column of a node, on the lines of the nodes that are reached
by the turns `b` to its child and then `c`; `true` is a turn to the right. -/
def trunk (b c : Bool) : String := if b = c then "     " else "    |"

/-- The columns above the parent of a node, by the turns that lead to the node, the
last one first. -/
def trunks : List Bool → List String
  | c :: b :: path => trunk b c :: trunks (b :: path)
  | _ => []

/-- The line of a node. -/
def line : List Bool → α → List (Shown α)
  | [], d => [.text "---", .data d]
  | b :: path, d =>
    (trunks (b :: path)).reverse.map .text ++
      [.text "     ", .text (if b then ".--" else "`--"), .data d]

/-- The lines of a subtree. -/
def drawing (path : List Bool) : AvlNode α → List (Shown α)
  | null => []
  | node d _ l r => drawing (true :: path) r ++ line path d ++ drawing (false :: path) l

/-! ### The code draws the picture -/

theorem printTrunks_eq (chain : List String) :
    printTrunks chain = (chain.reverse.map .text : List (Shown α)) := by
  induction chain with
  | nil => rfl
  | cons str chain ih => rw [printTrunks, ih, List.reverse_cons, List.map_append]; rfl

/-- What a node has in its trunk when it starts on a subtree. -/
def entered (b : Bool) : String := if b then "     " else "    |"

/-- **The strings of the open frames.**  Below the root: on the way `b :: path` the
trunks above the parent are those of the picture, before and after. -/
theorem printRecursive_eq (t : AvlNode α) (b : Bool) (path : List Bool) :
    ∃ str, printRecursive t (entered b :: trunks (b :: path)) b =
      (drawing (b :: path) t, str :: trunks (b :: path)) := by
  induction t generalizing b path with
  | null => exact ⟨entered b, rfl⟩
  | node d h l r ihl ihr =>
    -- the right subtree is drawn before the parent's string is changed
    obtain ⟨_, hr⟩ := ihr true (b :: path)
    obtain ⟨_, hl⟩ := ihl false (b :: path)
    cases b with
    | true =>
      refine ⟨"    |", ?_⟩
      have hr' : printRecursive r ("     " :: entered true :: trunks (true :: path)) true = _ := hr
      have hl' : printRecursive l ("    |" :: "    |" :: trunks (true :: path)) false = _ := hl
      simp only [printRecursive, hr', trunks, trunk, printTrunks_eq, drawing, line, setStr]
      simp [hl', trunks, trunk]
    | false =>
      refine ⟨"     ", ?_⟩
      have hr' : printRecursive r ("     " :: entered false :: trunks (false :: path)) true = _ := hr
      have hl' : printRecursive l ("    |" :: "     " :: trunks (false :: path)) false = _ := hl
      simp only [printRecursive, hr', trunks, trunk, printTrunks_eq, drawing, line, setStr]
      simp [hl', trunks, trunk]

/-- All that is printed for a tree. -/
def picture : AvlNode α → List (Shown α)
  | null => []
  | node d h l r => drawing [] (node d h l r) ++ [.text "\n"]

theorem avlDisplayFull_eq (s : AvlTree α) :
    avlDisplayFull (some s) true = some (picture s.pRoot) := by
  rw [avlDisplayFull]
  cases s.pRoot with
  | null => rfl
  | node d h l r =>
    obtain ⟨_, hr⟩ := printRecursive_eq r true []
    obtain ⟨_, hl⟩ := printRecursive_eq l false []
    have hr' : printRecursive r ["     "] true = _ := hr
    have hl' : printRecursive l ["    |"] false = _ := hl
    simp only [printRecursive, hr', trunks, printTrunks_eq, picture, drawing, line, setStr]
    simp [hl', trunks]

/-! ### What the picture shows -/

/-- The data on the lines. -/
def shownData (out : List (Shown α)) : List α :=
  out.filterMap fun
    | .text _ => none
    | .data d => some d

theorem shownData_append (xs ys : List (Shown α)) :
    shownData (xs ++ ys) = shownData xs ++ shownData ys :=
  List.filterMap_append

theorem shownData_text (strs : List String) :
    shownData (strs.map .text : List (Shown α)) = [] := by
  rw [shownData, List.filterMap_map]
  exact List.filterMap_eq_nil_iff.mpr fun _ _ => rfl

theorem shownData_line (path : List Bool) (d : α) : shownData (line path d) = [d] := by
  cases path with
  | nil => rfl
  | cons b path => rw [line, shownData_append, shownData_text]; rfl

/-- The lines are those of the in-order traversal, the last one first. -/
theorem shownData_drawing (path : List Bool) (t : AvlNode α) :
    shownData (drawing path t) = (avlInorderAction t).reverse := by
  induction t generalizing path with
  | null => rfl
  | node d h l r ihl ihr =>
    rw [drawing, shownData_append, shownData_append, ihl, ihr, shownData_line,
      avlInorderAction_node]
    simp

/-- The characters on the terminal, and the data between them. -/
def chars (out : List (Shown α)) : List (Char ⊕ α) :=
  out.flatMap fun
    | .text s => s.toList.map .inl
    | .data d => [.inr d]

/-- Every datum with the number of characters before it on its line, counted from
the datum before. -/
def readColumns : ℕ → List (Char ⊕ α) → List (ℕ × α)
  | _, [] => []
  | column, .inl _ :: out => readColumns (column + 1) out
  | column, .inr d :: out => (column, d) :: readColumns 0 out

theorem chars_append (xs ys : List (Shown α)) : chars (xs ++ ys) = chars xs ++ chars ys :=
  List.flatMap_append

theorem readColumns_text (column : ℕ) (cs : List Char) (out : List (Char ⊕ α)) :
    readColumns column (cs.map .inl ++ out) = readColumns (column + cs.length) out := by
  induction cs generalizing column with
  | nil => rfl
  | cons c cs ih =>
    rw [List.map_cons, List.cons_append, readColumns, ih, List.length_cons, Nat.add_right_comm]
    rfl

/-- The characters that trunks are made of. -/
def isTrunk (c : Char) : Bool := c = ' ' ∨ c = '|'

/-- Every trunk is five of these characters. -/
theorem mem_trunks {path : List Bool} {str : String} (h : str ∈ trunks path) :
    str.toList.length = 5 ∧ ∀ c ∈ str.toList, isTrunk c = true := by
  induction path with
  | nil => exact absurd h (by simp [trunks])
  | cons c path ih =>
    cases path with
    | nil => exact absurd h (by simp [trunks])
    | cons b path =>
      rcases List.mem_cons.mp h with rfl | h
      · rw [trunk]
        split <;> exact ⟨by decide, List.all_eq_true.mp (by decide)⟩
      · exact ih h

theorem readColumns_trunks (column : ℕ) {strs : List String}
    (h : ∀ str ∈ strs, str.toList.length = 5) (out : List (Char ⊕ α)) :
    readColumns column (chars (strs.map .text) ++ out) =
      readColumns (column + 5 * strs.length) out := by
  induction strs generalizing column with
  | nil => rfl
  | cons str strs ih =>
    have hcons : chars (List.map (Shown.text (α := α)) (str :: strs)) =
        str.toList.map .inl ++ chars (strs.map .text) := rfl
    rw [hcons, List.append_assoc, readColumns_text, h str List.mem_cons_self,
      ih _ fun s hs => h s (List.mem_cons_of_mem str hs), List.length_cons]
    congr 1
    omega

theorem length_trunks (b : Bool) (path : List Bool) :
    (trunks (b :: path)).length = path.length := by
  induction path generalizing b with
  | nil => rfl
  | cons c path ih => rw [trunks, List.length_cons, ih, List.length_cons]

/-- **The column of a node** says how deep it is. -/
theorem readColumns_line (path : List Bool) (d : α) (out : List (Char ⊕ α)) :
    readColumns 0 (chars (line path d) ++ out) =
      (5 * path.length + 3, d) :: readColumns 0 out := by
  cases path with
  | nil => rfl
  | cons b path =>
    have hown : ∀ column, readColumns column (chars [.text "     ",
        .text (if b then ".--" else "`--"), .data d] ++ out) =
          (column + 8, d) :: readColumns 0 out := by
      intro column
      cases b <;> rfl
    rw [line, chars_append, List.append_assoc,
      readColumns_trunks 0 fun str h => (mem_trunks (List.mem_reverse.mp h)).1, hown,
      List.length_reverse, length_trunks, List.length_cons]
    congr 2
    omega

/-- Columns and data of a subtree, from the top to the bottom of the picture. -/
def columns (depth : ℕ) : AvlNode α → List (ℕ × α)
  | null => []
  | node d _ l r => columns (depth + 1) r ++ (5 * depth + 3, d) :: columns (depth + 1) l

theorem readColumns_drawing (path : List Bool) (t : AvlNode α) (out : List (Char ⊕ α)) :
    readColumns 0 (chars (drawing path t) ++ out) =
      columns path.length t ++ readColumns 0 out := by
  induction t generalizing path out with
  | null => rfl
  | node d h l r ihl ihr =>
    rw [drawing, chars_append, chars_append, List.append_assoc, List.append_assoc, ihr,
      readColumns_line, ihl, columns, List.length_cons, List.length_cons, List.append_assoc,
      List.cons_append]

theorem readColumns_picture (t : AvlNode α) :
    readColumns 0 (chars (picture t)) = columns 0 t := by
  cases t with
  | null => rfl
  | node d h l r =>
    rw [picture, chars_append, readColumns_drawing]
    exact List.append_nil _

theorem depth_le_of_mem_columns {depth : ℕ} {t : AvlNode α} {x : ℕ × α}
    (h : x ∈ columns depth t) : 5 * depth + 3 ≤ x.1 := by
  induction t generalizing depth with
  | null => exact absurd h (by simp [columns])
  | node d th l r ihl ihr =>
    rw [columns] at h
    rcases List.mem_append.mp h with h | h
    · have := ihr h
      omega
    · rcases List.mem_cons.mp h with rfl | h
      · exact le_refl _
      · have := ihl h
        omega

/-- **Only one tree** has its data in these columns: its root is the one datum that
is farthest to the left. -/
theorem sameShape_of_columns {depth : ℕ} {t u : AvlNode α}
    (h : columns depth t = columns depth u) : SameShape t u := by
  induction t generalizing depth u with
  | null =>
    cases u with
    | null => trivial
    | node => exact absurd h (by simp [columns])
  | node d th l r ihl ihr =>
    cases u with
    | null => exact absurd h (by simp [columns])
    | node d' uh l' r' =>
      rw [columns, columns] at h
      have hnot : ∀ t : AvlNode α, (5 * depth + 3, d') ∉ columns (depth + 1) t := by
        intro t hmem
        have := depth_le_of_mem_columns hmem
        omega
      obtain ⟨hr, hd, hl⟩ := (List.append_cons_inj_of_notMem (hnot r) (hnot l)).mp h
      exact ⟨(Prod.mk.inj hd).2, ihl hl, ihr hr⟩

/-! ### The characters on the terminal -/

section Terminal

variable {label : α → List Char}

/-- All characters, when `user_print` prints `label d` and ends the line. -/
def terminal (label : α → List Char) (out : List (Shown α)) : List Char :=
  out.flatMap fun
    | .text s => s.toList
    | .data d => label d ++ ['\n']

theorem terminal_append (xs ys : List (Shown α)) :
    terminal label (xs ++ ys) = terminal label xs ++ terminal label ys :=
  List.flatMap_append

/-- A line, as a reader takes it: the column behind the trunks and the three characters
that join the datum to them, and what stands there. -/
def readLine (cs : List Char) : ℕ × List Char :=
  ((cs.takeWhile isTrunk).length + 3, cs.drop ((cs.takeWhile isTrunk).length + 3))

/-- The lines of the picture; the empty ones come from the last newline. -/
def readLines (cs : List Char) : List (ℕ × List Char) :=
  ((cs.splitOn '\n').filter fun l => l ≠ []).map readLine

/-- What stands on the line of a node in front of its datum. -/
def lead : List Bool → List Char
  | [] => ['-', '-', '-']
  | b :: path =>
    (trunks (b :: path)).reverse.flatMap String.toList ++
      [' ', ' ', ' ', ' ', ' ', if b then '.' else '`', '-', '-']

theorem terminal_line (path : List Bool) (d : α) :
    terminal label (line path d) = lead path ++ label d ++ ['\n'] := by
  cases path with
  | nil => simp [terminal, line, lead]
  | cons b path =>
    have hown : terminal label [.text "     ", .text (if b then ".--" else "`--"), .data d] =
        [' ', ' ', ' ', ' ', ' ', if b then '.' else '`', '-', '-'] ++ (label d ++ ['\n']) := by
      cases b <;> simp [terminal]
    have htrunks : terminal label ((trunks (b :: path)).reverse.map .text) =
        (trunks (b :: path)).reverse.flatMap String.toList := by
      rw [terminal, List.flatMap_map]
    rw [line, terminal_append, hown, htrunks, lead, List.append_assoc, List.append_assoc]

/-- Five characters for each node above, then a character that no trunk has. -/
theorem lead_eq (path : List Bool) :
    ∃ blanks c, lead path = blanks ++ [c, '-', '-'] ∧ (∀ x ∈ blanks, isTrunk x = true) ∧
      isTrunk c = false ∧ c ≠ '\n' ∧ blanks.length = 5 * path.length := by
  cases path with
  | nil => exact ⟨[], '-', rfl, by simp, by decide, by decide, rfl⟩
  | cons b path =>
    refine ⟨(trunks (b :: path)).reverse.flatMap String.toList ++ [' ', ' ', ' ', ' ', ' '],
      if b then '.' else '`', ?_, ?_, ?_, ?_, ?_⟩
    · rw [lead, List.append_assoc]
      rfl
    · intro x hx
      rcases List.mem_append.mp hx with hx | hx
      · obtain ⟨str, hstr, hx⟩ := List.mem_flatMap.mp hx
        exact (mem_trunks (List.mem_reverse.mp hstr)).2 x hx
      · have hblank : x = ' ' := by simpa using hx
        rw [hblank]
        rfl
    · cases b <;> decide
    · cases b <;> decide
    · have hsum : ∀ strs : List String, (∀ str ∈ strs, str.toList.length = 5) →
          (strs.flatMap String.toList).length = 5 * strs.length := by
        intro strs h
        rw [List.length_flatMap, List.map_congr_left h, List.map_const', List.sum_replicate,
          smul_eq_mul, mul_comm]
      rw [List.length_append, hsum _ fun str h => (mem_trunks (List.mem_reverse.mp h)).1,
        List.length_reverse, length_trunks]
      simp only [List.length_cons, List.length_nil]
      omega

/-- **A line is read** as it was meant, whatever the label begins with. -/
theorem readLines_line (hlabel : ∀ d, '\n' ∉ label d) (path : List Bool) (d : α)
    (rest : List Char) :
    readLines (terminal label (line path d) ++ rest) =
      (5 * path.length + 3, label d) :: readLines rest := by
  obtain ⟨blanks, c, hlead, hblanks, hc, hcn, hlen⟩ := lead_eq path
  have hnewline : '\n' ∉ lead path ++ label d := by
    rw [hlead]
    intro h
    rcases List.mem_append.mp h with h | h
    · rcases List.mem_append.mp h with h | h
      · exact absurd (hblanks _ h) (by decide)
      · rcases List.mem_cons.mp h with h | h
        · exact hcn h.symm
        · exact absurd h (by decide)
    · exact hlabel d h
  have htake : (lead path ++ label d).takeWhile isTrunk = blanks := by
    rw [hlead, List.append_assoc, List.takeWhile_append_of_pos hblanks, List.cons_append,
      List.takeWhile_cons_of_neg (by simp [hc]), List.append_nil]
  have hread : readLine (lead path ++ label d) = (5 * path.length + 3, label d) := by
    have hwidth : blanks.length + 3 = (lead path).length := by
      rw [hlead, List.length_append]
      rfl
    rw [readLine, htake, hwidth, List.drop_left, ← hwidth, hlen]
  have hne : decide (lead path ++ label d ≠ []) = true := by
    rw [hlead]
    simp
  rw [terminal_line, List.append_assoc, List.singleton_append, readLines,
    List.splitOn_append_cons_self, List.splitOn_eq_singleton hnewline, List.singleton_append,
    List.filter_cons, if_pos hne, List.map_cons, hread]
  rfl

theorem readLines_drawing (hlabel : ∀ d, '\n' ∉ label d) (path : List Bool) (t : AvlNode α)
    (rest : List Char) :
    readLines (terminal label (drawing path t) ++ rest) =
      (columns path.length t).map (Prod.map id label) ++ readLines rest := by
  induction t generalizing path rest with
  | null => rfl
  | node d h l r ihl ihr =>
    rw [drawing, terminal_append, terminal_append, List.append_assoc, List.append_assoc, ihr,
      readLines_line hlabel, ihl, columns, List.length_cons, List.length_cons, List.map_append,
      List.map_cons, List.append_assoc, List.cons_append]
    rfl

theorem readLines_picture (hlabel : ∀ d, '\n' ∉ label d) (t : AvlNode α) :
    readLines (terminal label (picture t)) = (columns 0 t).map (Prod.map id label) := by
  cases t with
  | null => rfl
  | node d h l r =>
    rw [picture, terminal_append, readLines_drawing hlabel]
    exact List.append_nil _

end Terminal

/-! ### The terminal -/

/-- **What `avl_display_full` prints.**  Whatever the tree, the strings that the calls
write into each other's frames are those of the picture: a line for each node, the
last one in order first, with a bar where the way to the node turns.  Columns are
counted from the datum before: `user_print` ends its line. -/
theorem display_draws (s : AvlTree α) :
    ∃ out, avlDisplayFull (some s) true = some out ∧ out = picture s.pRoot ∧
      shownData out = (avlInorderAction s.pRoot).reverse ∧
      readColumns 0 (chars out) = columns 0 s.pRoot := by
  refine ⟨_, avlDisplayFull_eq s, rfl, ?_, readColumns_picture s.pRoot⟩
  cases s.pRoot with
  | null => rfl
  | node d h l r =>
    rw [picture, shownData_append, shownData_drawing]
    exact List.append_nil _

example : picture (node 4 2 (node 1 1 null (node 2 0 null null)) (node 5 0 null null)) =
    [.text "     ", .text ".--", .data 5,
      .text "---", .data 4,
      .text "    |", .text "     ", .text ".--", .data 2,
      .text "     ", .text "`--", .data 1, .text "\n"] := by decide

/-- **The picture shows the tree.**  If `user_print` prints a line for each datum, and
different lines for different data, and the same characters appear for two trees, they
have the same data in the same places, and are equal if they are valid. -/
theorem display_determines {label : α → List Char} (hinj : Function.Injective label)
    (hlabel : ∀ d, '\n' ∉ label d) (s s' : AvlTree α) {out out' : List (Shown α)}
    (h : avlDisplayFull (some s) true = some out)
    (h' : avlDisplayFull (some s') true = some out')
    (hsame : terminal label out = terminal label out') :
    SameShape s.pRoot s'.pRoot ∧
      (ValidAvl s.pRoot → ValidAvl s'.pRoot → s.pRoot = s'.pRoot) := by
  rw [avlDisplayFull_eq, Option.some_inj] at h h'
  rw [← h, ← h'] at hsame
  have hlines := congrArg readLines hsame
  rw [readLines_picture hlabel, readLines_picture hlabel] at hlines
  have hcolumns := List.map_injective_iff.mpr (Function.injective_id.prodMap hinj) hlines
  have hshape := sameShape_of_columns hcolumns
  exact ⟨hshape, hshape.eq_of_valid⟩

/-- Numbers as tallies. -/
def tally (n : ℕ) : List Char := List.replicate n '*'

/-- Two trees that differ in a stored height, and so look the same. -/
theorem display_determines_stale :
    SameShape (node 2 5 (node 1 0 null null) (node 3 0 null null))
        (node 2 1 (node 1 0 null null) (node 3 0 null null)) ∧
      (ValidAvl (node 2 5 (node 1 0 null null) (node 3 0 null null)) →
        ValidAvl (node 2 1 (node 1 0 null null) (node 3 0 null null)) →
        node 2 5 (node 1 0 null null) (node 3 0 null null) =
          node 2 1 (node 1 0 null null) (node 3 0 null null)) := by
  have hinj : Function.Injective tally := fun m n h => by
    simpa [tally] using congrArg List.length h
  exact display_determines hinj (fun n h => absurd (List.eq_of_mem_replicate h) (by decide))
    ⟨node 2 5 (node 1 0 null null) (node 3 0 null null), 3, fun a b => (a : ℤ) - b⟩
    ⟨node 2 1 (node 1 0 null null) (node 3 0 null null), 3, fun a b => (a : ℤ) - b⟩ rfl rfl rfl

end AvlTreeLib
