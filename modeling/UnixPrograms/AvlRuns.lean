/-
Runs of the AVL tree library against a set.

Heights may go stale during a run, the contents may not:

* `avl_safe_iff` — no call dereferences NULL and no insertion loses an element
  exactly when no insertion meets a `DupPivot`;
* `avl_refines_set` — a run that inserts only new keys refines a set of
  elements (`SetStep`), in-order contents and answers included.
-/
import UnixPrograms.AvlContents

namespace AvlTreeLib

open AvlNode Machine OrderedList

variable {α : Type*}

/-- What every tree of a run satisfies, stale heights or not. -/
structure Sound (cmp : α → α → Int) (s : AvlTree α) : Prop where
  cmp_eq : s.cmp = cmp
  nonneg : HeightsNonneg s.pRoot
  increasing : Increasing cmp (avlInorderAction s.pRoot)

theorem sound_avlCreate (cmp : α → α → Int) : Sound cmp (avlCreate cmp) :=
  ⟨rfl, trivial, List.Pairwise.nil⟩

/-- A deletion keeps a tree sound and frees what it drops. -/
theorem Sound.delete {cmp : α → α → Int} (hc : TotalPreorder cmp) {s : AvlTree α}
    (hs : Sound cmp s) (data : α) :
    ∃ s' b destroyed, avlStep true s (.delete data) = some (s', .deleted b destroyed) ∧
      Sound cmp s' ∧
      avlInorderAction s'.pRoot = eraseSorted cmp data (avlInorderAction s.pRoot) ∧
      ((b = false ∧ destroyed = [] ∧ ∀ y ∈ avlInorderAction s.pRoot, cmp data y ≠ 0) ∨
        b = true ∧ ∃ y ∈ avlInorderAction s.pRoot, cmp data y = 0 ∧ destroyed = [y]) := by
  obtain ⟨hcmp, hn, hinc⟩ := hs
  obtain ⟨res, hdel, hres, hin, hfree⟩ := deleteNode_contents hc data hn hinc
  refine ⟨_, _, _, avlStep_delete.mpr ⟨res, by rw [hcmp, hdel], rfl, rfl⟩,
    ⟨hcmp, hres, ?_⟩, hin, ?_⟩
  · rw [hin]
    exact hinc.filter _
  · simpa [and_assoc] using hfree

/-- An insertion that meets no `DupPivot` keeps a tree sound. -/
theorem Sound.insert {cmp : α → α → Int} (hc : TotalPreorder cmp) {s : AvlTree α}
    (hs : Sound cmp s) {data : α} (hdup : ¬ DupPivot cmp data s.pRoot) :
    ∃ s' k, avlStep true s (.insert data) = some (s', .inserted k) ∧ Sound cmp s' ∧
      avlInorderAction s'.pRoot = insertSorted cmp data (avlInorderAction s.pRoot) := by
  obtain ⟨hcmp, hn, hinc⟩ := hs
  obtain ⟨t, k, hins, ht, hin, -⟩ := insertNode_contents hc data hn hinc hdup
  refine ⟨_, k, avlStep_insert.mpr ⟨t, k, by rw [hcmp, hins], rfl, rfl⟩,
    ⟨hcmp, ht, ?_⟩, hin⟩
  rw [hin]
  exact increasing_insertSorted hc hinc

/-! ### Safety -/

/-- An insertion drops no element. -/
def InsertKeeps (s : AvlTree α) (op : AvlOp α) (s' : AvlTree α) (_ : AvlOut α) : Prop :=
  match op with
  | .insert _ => (avlInorderAction s.pRoot).Sublist (avlInorderAction s'.pRoot)
  | _ => True

instance InsertKeeps.instDecidable [DecidableEq α] (s : AvlTree α) (s' : AvlTree α)
    (o : AvlOut α) : ∀ op : AvlOp α, Decidable (InsertKeeps s op s' o)
  | .insert _ => inferInstanceAs
      (Decidable ((avlInorderAction s.pRoot).Sublist (avlInorderAction s'.pRoot)))
  | .delete _ => isTrue trivial
  | .search _ => isTrue trivial

/-- The call is not the insertion of a duplicate whose rotation has no pivot. -/
def StepPivots (s : AvlTree α) (op : AvlOp α) : Prop :=
  match op with
  | .insert data => ¬ DupPivot s.cmp data s.pRoot
  | _ => True

instance StepPivots.instDecidable [DecidableEq α] (s : AvlTree α) :
    ∀ op : AvlOp α, Decidable (StepPivots s op)
  | .insert data => inferInstanceAs (Decidable (¬ DupPivot s.cmp data s.pRoot))
  | .delete _ => isTrue trivial
  | .search _ => isTrue trivial

theorem avlStep_safe_iff {cmp : α → α → Int} (hc : TotalPreorder cmp) (s : AvlTree α)
    (op : AvlOp α) (hs : Sound cmp s) :
    (∃ s' o, avlStep true s op = some (s', o) ∧ InsertKeeps s op s' o) ↔
      StepPivots s op := by
  cases op with
  | insert data =>
    constructor
    · rintro ⟨s', o, hstep, -⟩ hdup
      obtain ⟨t, k, hins, -, -⟩ := avlStep_insert.mp hstep
      rw [insertNode_dupPivot hs.nonneg hdup] at hins
      cases hins
    · intro hdup
      rw [StepPivots, hs.cmp_eq] at hdup
      obtain ⟨s', k, hstep, -, hin⟩ := hs.insert hc hdup
      refine ⟨s', _, hstep, ?_⟩
      rw [InsertKeeps, hin]
      exact sublist_insertSorted data _
  | delete data =>
    obtain ⟨s', b, destroyed, hstep, -⟩ := hs.delete hc data
    exact ⟨fun _ => trivial, fun _ => ⟨s', _, hstep, trivial⟩⟩
  | search data =>
    exact ⟨fun _ => trivial, fun _ => ⟨s, _, avlStep_search.mpr ⟨rfl, rfl⟩, trivial⟩⟩

theorem avlStep_sound {cmp : α → α → Int} (hc : TotalPreorder cmp) {s s' : AvlTree α}
    {op : AvlOp α} {o : AvlOut α} (hs : Sound cmp s)
    (hstep : avlStep true s op = some (s', o)) : Sound cmp s' := by
  cases op with
  | insert data =>
    -- the call returned, so its rotations had their pivots
    have hdup : ¬ DupPivot cmp data s.pRoot := by
      intro hdup
      obtain ⟨t, k, hins, -, -⟩ := avlStep_insert.mp hstep
      rw [hs.cmp_eq, insertNode_dupPivot hs.nonneg hdup] at hins
      cases hins
    obtain ⟨t, k, hstep', ht, -⟩ := hs.insert hc hdup
    cases hstep.symm.trans hstep'
    exact ht
  | delete data =>
    obtain ⟨t, b, destroyed, hstep', ht, -⟩ := hs.delete hc data
    cases hstep.symm.trans hstep'
    exact ht
  | search data =>
    obtain ⟨rfl, -⟩ := avlStep_search.mp hstep
    exact hs

/-- **Runs without a NULL dereference.**  A run on a fresh tree never faults
and never loses an element to an insertion exactly when none of its
insertions meets a `DupPivot`. -/
theorem avl_safe_iff {cmp : α → α → Int} (hc : TotalPreorder cmp) (ops : List (AvlOp α)) :
    RunsWith (avlStep true) InsertKeeps (avlCreate cmp) ops ↔
      RunMeets (avlStep true) StepPivots (avlCreate cmp) ops :=
  runsWith_iff_runMeets (Sound cmp) (avlStep_safe_iff hc)
    (fun _ _ _ _ hs hstep _ => avlStep_sound hc hs hstep) (sound_avlCreate cmp)

theorem avl_safe_iff_intCmp :
    RunsWith (avlStep true) InsertKeeps (avlCreate intCmp)
      [.insert 2, .insert 1, .insert 3, .delete 2, .insert 3, .search 1] :=
  (avl_safe_iff intCmp_totalPreorder _).mpr (by decide)

/-- After the deletion of 50 the node of 70 has no left child and a right child
of height 1; inserting 80 again asks for a double rotation around the missing
left child of 80. -/
theorem avl_duplicate_faults :
    TotalPreorder intCmp ∧
      ¬ RunsWith (avlStep true) InsertKeeps (avlCreate intCmp)
        [.insert 50, .insert 20, .insert 70, .insert 30, .insert 60, .insert 80, .insert 90,
          .delete 50, .insert 80] :=
  ⟨intCmp_totalPreorder, by decide⟩

/-! ### Refinement of a set -/

/-- The set the tree stands for: an insertion adds an element, a deletion drops
the elements that compare equal and frees the one it drops, a search answers
an element that compares equal. -/
def SetStep (cmp : α → α → Int) (S : Set α) : AvlOp α → AvlOut α → Set α → Prop
  | .insert x, o, S' => (∃ k, o = .inserted k) ∧ S' = insert x S
  | .delete x, o, S' =>
    S' = {y ∈ S | cmp x y ≠ 0} ∧
      ((∃ y ∈ S, cmp x y = 0 ∧ y ∉ S' ∧ o = .deleted true [y]) ∨
        (∀ y ∈ S, cmp x y ≠ 0) ∧ o = .deleted false [])
  | .search x, o, S' =>
    S' = S ∧
      ((∃ y ∈ S, cmp y x = 0 ∧ o = .found (some y)) ∨
        (∀ y ∈ S, cmp y x ≠ 0) ∧ o = .found none)

/-- The in-order contents are the strictly increasing list of the elements. -/
def Represents (cmp : α → α → Int) (s : AvlTree α) (S : Set α) : Prop :=
  Increasing cmp (avlInorderAction s.pRoot) ∧ ∀ y, y ∈ avlInorderAction s.pRoot ↔ y ∈ S

/-- The call is not the insertion of a key that is present. -/
def InsertsNew (s : AvlTree α) (op : AvlOp α) : Prop :=
  match op with
  | .insert x => ∀ y ∈ avlInorderAction s.pRoot, s.cmp x y ≠ 0
  | _ => True

instance InsertsNew.instDecidable (s : AvlTree α) :
    ∀ op : AvlOp α, Decidable (InsertsNew s op)
  | .insert x =>
    inferInstanceAs (Decidable (∀ y ∈ avlInorderAction s.pRoot, s.cmp x y ≠ 0))
  | .delete _ => isTrue trivial
  | .search _ => isTrue trivial

/-- A `DupPivot` is a duplicate. -/
theorem exists_zero_of_dupPivot {cmp : α → α → Int} {data : α} {t : AvlNode α}
    (h : DupPivot cmp data t) : ∃ y ∈ avlInorderAction t, cmp data y = 0 := by
  induction t with
  | null => exact absurd h not_false
  | node d th l r ihl ihr =>
    rw [DupPivot] at h
    split at h
    · rcases h with h | h
      · obtain ⟨y, hy, hy0⟩ := ihl h
        exact ⟨y, by simp [hy], hy0⟩
      · rcases l with _ | ⟨ld, lh, ll, lr⟩
        · exact absurd h not_false
        · exact ⟨ld, by simp, h.1⟩
    · split at h
      · rcases h with h | h
        · obtain ⟨y, hy, hy0⟩ := ihr h
          exact ⟨y, by simp [hy], hy0⟩
        · rcases r with _ | ⟨rd, rh, rl, rr⟩
          · exact absurd h not_false
          · exact ⟨rd, by simp, h.1⟩
      · exact absurd h not_false

/-- One call of a run that inserts only new keys is one step of the set. -/
theorem avlStep_setStep {cmp : α → α → Int} (hc : TotalPreorder cmp) (s : AvlTree α)
    (S : Set α) (op : AvlOp α) (hs : Sound cmp s ∧ Represents cmp s S)
    (hnew : InsertsNew s op) :
    ∃ s' o S', avlStep true s op = some (s', o) ∧ SetStep cmp S op o S' ∧
      Sound cmp s' ∧ Represents cmp s' S' := by
  obtain ⟨hsound, hinc, hmem⟩ := hs
  cases op with
  | insert x =>
    rw [InsertsNew, hsound.cmp_eq] at hnew
    have hdup : ¬ DupPivot cmp x s.pRoot := fun h => by
      obtain ⟨y, hy, hy0⟩ := exists_zero_of_dupPivot h
      exact hnew y hy hy0
    obtain ⟨s', k, hstep, hs', hin⟩ := hsound.insert hc hdup
    refine ⟨s', _, insert x S, hstep, ⟨⟨k, rfl⟩, rfl⟩, hs', hs'.increasing, ?_⟩
    intro y
    rw [hin, Set.mem_insert_iff, ← hmem]
    constructor
    · exact mem_insertSorted_subset
    · rintro (rfl | hy)
      · exact mem_insertSorted_new hnew
      · exact (sublist_insertSorted x _).subset hy
  | delete x =>
    obtain ⟨s', b, destroyed, hstep, hs', hin, hfree⟩ := hsound.delete hc x
    refine ⟨s', _, {y ∈ S | cmp x y ≠ 0}, hstep, ⟨rfl, ?_⟩, hs', hs'.increasing, ?_⟩
    · rcases hfree with ⟨rfl, rfl, hno⟩ | ⟨rfl, y, hy, hy0, rfl⟩
      · exact Or.inr ⟨fun y hy => hno y ((hmem y).mpr hy), rfl⟩
      · exact Or.inl ⟨y, (hmem y).mp hy, hy0, fun h => h.2 hy0, rfl⟩
    · intro y
      rw [hin, mem_eraseSorted, hmem]
      rfl
  | search x =>
    refine ⟨s, _, S, avlStep_search.mpr ⟨rfl, rfl⟩, ⟨rfl, ?_⟩, hsound, hinc, hmem⟩
    rw [hsound.cmp_eq]
    rcases hf : searchHelper cmp x s.pRoot with _ | y
    · refine Or.inr ⟨?_, rfl⟩
      intro y hy hy0
      rw [(searchHelper_eq_some hc hinc).mpr ⟨(hmem y).mpr hy, hy0⟩] at hf
      cases hf
    · obtain ⟨hy, hy0⟩ := (searchHelper_eq_some hc hinc).mp hf
      exact Or.inl ⟨y, (hmem y).mp hy, hy0, rfl⟩

/-- **The library refines a set**, whatever has become of the stored heights,
as long as every inserted key is new when it is inserted. -/
theorem avl_refines_set {cmp : α → α → Int} (hc : TotalPreorder cmp) (ops : List (AvlOp α))
    (hnew : RunMeets (avlStep true) InsertsNew (avlCreate cmp) ops) :
    RunRefines (avlStep true) (SetStep cmp) (Represents cmp) (avlCreate cmp) ∅ ops :=
  runRefines_of_runMeets (fun s S => Sound cmp s ∧ Represents cmp s S)
    (avlStep_setStep hc) (fun _ _ h => h.2)
    ⟨sound_avlCreate cmp, List.Pairwise.nil, fun y => by simp [avlCreate]⟩ hnew

theorem avl_refines_set_intCmp :
    RunRefines (avlStep true) (SetStep intCmp) (Represents intCmp) (avlCreate intCmp) ∅
      [.insert 50, .insert 20, .insert 70, .insert 60, .delete 50, .search 60] :=
  avl_refines_set intCmp_totalPreorder _ (by decide)

end AvlTreeLib
