/-
What `insert_node` makes of a valid tree.

On a valid tree in search order the call has three outcomes, and the height of
a tree grown by insertions alone is bounded by the number of its elements:

* `insertNode_same` — nothing moves when an element compares equal, or when
  the allocation fails;
* `insertNode_new` — otherwise the tree stays valid, gets the element at its
  sorted place, and is at most one higher;
* `leastCount_le` — a valid tree of height `h` has at least `leastCount h`
  nodes;
* `insertNode_outcomes` — all of it together.
-/
import UnixPrograms.AvlCount
import UnixPrograms.AvlRuns

namespace AvlTreeLib

open AvlNode Machine OrderedList

variable {α : Type*} {cmp : α → α → Int} {data : α}

/-! ### The outcomes of a call -/

theorem ValidAvl.heightsNonneg {t : AvlNode α} (ht : ValidAvl t) : HeightsNonneg t := by
  induction t with
  | null => trivial
  | node d h l r ihl ihr =>
    obtain ⟨hh, -, -, hl, hr⟩ := validAvl_node.mp ht
    exact heightsNonneg_of_children (ihl hl) (ihr hr) (by omega)

/-- **Without a new node the tree is what it was**: on the way back the heights
are balanced and computed again to the same values. -/
theorem insertNode_same {calloc : Bool} {t : AvlNode α} (ht : ValidAvl t)
    (hsame : ¬ (calloc = true ∧ ReachesNull cmp data t)) :
    insertNode cmp calloc data t = some (t, 0) := by
  induction t with
  | null =>
    cases calloc with
    | false => rfl
    | true => exact absurd ⟨rfl, trivial⟩ hsame
  | node d h l r ihl ihr =>
    obtain ⟨hh, hb1, hb2, hl, hr⟩ := validAvl_node.mp ht
    have hset : setHeight (node d h l r) = some (node d h l r) := by
      rw [setHeight, hh, add_comm]
    by_cases hlt : cmp data d < 0
    · rw [reachesNull_left hlt] at hsame
      have hfix : insertFixLeft cmp data (node d h l r) = some (node d h l r, 0) :=
        insertFixLeft_of_ne (by omega)
      simp [insertNode, hlt, ihl hl hsame, hfix, hset]
    · by_cases hgt : 0 < cmp data d
      · rw [reachesNull_right hgt] at hsame
        have hfix : insertFixRight cmp data (node d h l r) = some (node d h l r, 0) :=
          insertFixRight_of_ne (by omega)
        simp [insertNode, hlt, hgt, ihr hr hsame, hfix, hset]
      · simp [insertNode, hlt, hgt, hset]

/-- **A new element** goes to its sorted place, and the tree stays valid. -/
theorem insertNode_new (hc : TotalPreorder cmp) {t : AvlNode α} (ht : ValidAvl t)
    (hinc : Increasing cmp (avlInorderAction t))
    (hnew : ∀ y ∈ avlInorderAction t, cmp data y ≠ 0) :
    ∃ t' k, insertNode cmp true data t = some (t', k) ∧ ValidAvl t' ∧
      avlInorderAction t' = insertSorted cmp data (avlInorderAction t) ∧
      (trueHeight t' = trueHeight t ∨ trueHeight t' = trueHeight t + 1) := by
  have hdup : ¬ DupPivot cmp data t := by
    intro hdup
    obtain ⟨y, hy, hy0⟩ := exists_zero_of_dupPivot hdup
    exact hnew y hy hy0
  obtain ⟨t', k, hins, ht', hgrow⟩ := insertNode_valid cmp data ht
  obtain ⟨t₁, k₁, hins₁, -, hin, -⟩ := insertNode_contents hc data ht.heightsNonneg hinc hdup
  cases hins.symm.trans hins₁
  refine ⟨t', k, hins, ht', hin, ?_⟩
  rw [← ht'.height_eq, ← ht.height_eq]
  exact hgrow.imp_right fun h => h.1

/-! ### Height and number of elements -/

/-- The fewest nodes of a valid tree with this many levels. -/
def fewestNodes : ℕ → ℕ
  | 0 => 0
  | 1 => 1
  | n + 2 => fewestNodes (n + 1) + fewestNodes n + 1

theorem fewestNodes_le_succ (n : ℕ) : fewestNodes n ≤ fewestNodes (n + 1) := by
  cases n with
  | zero => exact Nat.zero_le _
  | succ n => rw [fewestNodes]; omega

/-- Two subtrees of about as many levels, with a root over them. -/
theorem fewestNodes_max {a b : ℕ} (hab : a ≤ b + 1) (hba : b ≤ a + 1) :
    fewestNodes (max a b + 1) ≤ fewestNodes a + fewestNodes b + 1 := by
  have hcases : a = b ∨ a = b + 1 ∨ b = a + 1 := by omega
  rcases hcases with rfl | rfl | rfl
  · rw [max_self]
    cases a with
    | zero => exact le_refl _
    | succ n =>
      have := fewestNodes_le_succ n
      rw [fewestNodes]
      omega
  · rw [max_eq_left (Nat.le_succ b), fewestNodes]
  · rw [max_eq_right (Nat.le_succ a), fewestNodes]
    omega

/-- The fewest nodes of a valid tree of height `h`, a lone root having height 0. -/
def leastCount (h : Int) : ℕ := fewestNodes (h + 1).toNat

theorem leastCount_step {h : Int} (hh : 1 ≤ h) :
    leastCount h = leastCount (h - 1) + leastCount (h - 2) + 1 := by
  have h0 : (h + 1).toNat = (h - 2 + 1).toNat + 2 := by omega
  have h1 : (h - 1 + 1).toNat = (h - 2 + 1).toNat + 1 := by omega
  rw [leastCount, leastCount, leastCount, h0, h1, fewestNodes]

/-- **A valid tree of height `h` has at least `leastCount h` nodes.** -/
theorem leastCount_le {t : AvlNode α} (ht : ValidAvl t) :
    leastCount (trueHeight t) ≤ avlNodeCount t := by
  induction t with
  | null => exact le_refl _
  | node d h l r ihl ihr =>
    obtain ⟨-, hbal, hl, hr⟩ := ht
    obtain ⟨hb1, hb2⟩ := abs_le.mp hbal
    have hl0 := neg_one_le_trueHeight l
    have hr0 := neg_one_le_trueHeight r
    have hlevels : (trueHeight (node d h l r) + 1).toNat =
        max (trueHeight l + 1).toNat (trueHeight r + 1).toNat + 1 := by
      rw [trueHeight]
      omega
    calc leastCount (trueHeight (node d h l r))
        ≤ leastCount (trueHeight l) + leastCount (trueHeight r) + 1 := by
          rw [leastCount, hlevels]
          exact fewestNodes_max (by omega) (by omega)
      _ ≤ avlNodeCount l + avlNodeCount r + 1 :=
          Nat.add_le_add_right (Nat.add_le_add (ihl hl) (ihr hr)) 1

/-! ### Trees built by insertions -/

/-- Insertions, each with what becomes of its allocation. -/
def insertCalls (inserts : List (Bool × α)) : List (Bool × AvlOp α) :=
  inserts.map fun p => (p.1, .insert p.2)

/-- A run of insertions never faults, and its tree is valid. -/
theorem run_insertCalls {s : AvlTree α} (hs : ValidAvl s.pRoot) (inserts : List (Bool × α)) :
    ∃ s' outs, run avlCall s (insertCalls inserts) = some (s', outs) ∧ ValidAvl s'.pRoot := by
  induction inserts generalizing s with
  | nil => exact ⟨s, [], rfl, hs⟩
  | cons p inserts ih =>
    obtain ⟨calloc, x⟩ := p
    have hone : ∃ t k, insertNode s.cmp calloc x s.pRoot = some (t, k) ∧ ValidAvl t := by
      cases calloc with
      | false => exact ⟨s.pRoot, 0, insertNode_same hs (by simp), hs⟩
      | true =>
        obtain ⟨t, k, hins, ht, -⟩ := insertNode_valid s.cmp x hs
        exact ⟨t, k, hins, ht⟩
    obtain ⟨t, k, hins, ht⟩ := hone
    have hcall : avlCall s (calloc, .insert x) =
        some ({ s with pRoot := t, count := s.count + 1 }, .inserted k) :=
      avlStep_insert.mpr ⟨t, k, hins, rfl, rfl⟩
    obtain ⟨s', outs, hrun, hs'⟩ := ih (s := { s with pRoot := t, count := s.count + 1 }) ht
    refine ⟨s', .inserted k :: outs, ?_, hs'⟩
    rw [insertCalls, List.map_cons, run, hcall]
    simp only
    rw [← insertCalls, hrun]
    rfl

/-- **The outcomes of `insert_node`** on a valid tree in search order, and the
height of a tree built by insertions alone. -/
theorem insertNode_outcomes (hc : TotalPreorder cmp) :
    (∀ (data : α) (t : AvlNode α), ValidAvl t → Increasing cmp (avlInorderAction t) →
      (∀ calloc, (∃ y ∈ avlInorderAction t, cmp data y = 0) →
        insertNode cmp calloc data t = some (t, 0)) ∧
      (insertNode cmp false data t = some (t, 0)) ∧
      ((∀ y ∈ avlInorderAction t, cmp data y ≠ 0) →
        ∃ t' k, insertNode cmp true data t = some (t', k) ∧ ValidAvl t' ∧
          Increasing cmp (avlInorderAction t') ∧
          (∃ a b, avlInorderAction t = a ++ b ∧ avlInorderAction t' = a ++ data :: b ∧
            (∀ y ∈ a, cmp y data < 0) ∧ ∀ y ∈ b, cmp data y < 0) ∧
          (trueHeight t' = trueHeight t ∨ trueHeight t' = trueHeight t + 1))) ∧
    (leastCount (-1) = 0 ∧ leastCount 0 = 1 ∧
      ∀ h, 1 ≤ h → leastCount h = leastCount (h - 1) + leastCount (h - 2) + 1) ∧
    ∀ inserts : List (Bool × α), ∃ s outs,
      run avlCall (avlCreate cmp) (insertCalls inserts) = some (s, outs) ∧
        leastCount (trueHeight s.pRoot) ≤ avlTotalElements s := by
  refine ⟨fun data t ht hinc => ⟨?_, ?_, ?_⟩, ⟨rfl, rfl, fun h => leastCount_step⟩,
    fun inserts => ?_⟩
  · rintro calloc ⟨y, hy, hy0⟩
    refine insertNode_same ht fun hadd => ?_
    exact (reachesNull_iff hc hinc).mp hadd.2 y hy hy0
  · exact insertNode_same ht fun hadd => Bool.false_ne_true hadd.1
  · intro hnew
    obtain ⟨t', k, hins, ht', hin, hheight⟩ := insertNode_new hc ht hinc hnew
    refine ⟨t', k, hins, ht', ?_, ?_, hheight⟩
    · rw [hin]
      exact increasing_insertSorted hc hinc
    · rw [hin]
      exact exists_insertSorted_eq hc hinc hnew
  · obtain ⟨s, outs, hrun, hs⟩ := run_insertCalls (s := avlCreate cmp) trivial inserts
    exact ⟨s, outs, hrun, leastCount_le hs⟩

/-- Inserting 6 below 7 and 5 calls `rotate_p_left_p_right`. -/
theorem insertNode_outcomes_rotates :
    insertNode intCmp true 6 (node 7 1 (node 5 0 null null) null) =
        some (node 6 1 (node 5 0 null null) (node 7 0 null null), 1) ∧
      ∃ t' k, insertNode intCmp true 6 (node 7 1 (node 5 0 null null) null) = some (t', k) ∧
        ValidAvl t' ∧ Increasing intCmp (avlInorderAction t') ∧
        (∃ a b, [5, 7] = a ++ b ∧ avlInorderAction t' = a ++ 6 :: b ∧
          (∀ y ∈ a, intCmp y 6 < 0) ∧ ∀ y ∈ b, intCmp 6 y < 0) ∧
        (trueHeight t' = 1 ∨ trueHeight t' = 1 + 1) :=
  ⟨by decide,
    ((insertNode_outcomes intCmp_totalPreorder).1 6 (node 7 1 (node 5 0 null null) null) (by decide)
      (by simp [Increasing, avlInorderAction, intCmp])).2.2 (by decide)⟩

end AvlTreeLib
