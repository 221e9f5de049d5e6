/-
Strictly increasing lists under a C comparator.

A comparator answers an `Int` of which only the sign counts.  When it is a
total preorder (`TotalPreorder`), a strictly increasing list is a set of
equivalence classes with one stored element each:

* `insertSorted` — put an element in its place unless one compares equal;
* `eraseSorted` — drop the element that compares equal.

The lemmas follow the shape `l ++ d :: r`, the in-order contents of a search
tree with root `d`: each operation moves to one side of `d`.
-/
import Mathlib.Tactic
import Mathlib.Data.List.Basic

namespace OrderedList

variable {α : Type*} {cmp : α → α → Int}

/-- The comparator is sign-antisymmetric and transitive. -/
structure TotalPreorder (cmp : α → α → Int) : Prop where
  antisymm : ∀ a b, cmp a b < 0 ↔ 0 < cmp b a
  trans : ∀ a b c, cmp a b ≤ 0 → cmp b c ≤ 0 → cmp a c ≤ 0

namespace TotalPreorder

theorem zero_comm (hc : TotalPreorder cmp) {a b : α} : cmp a b = 0 ↔ cmp b a = 0 := by
  have h1 := hc.antisymm a b
  have h2 := hc.antisymm b a
  omega

theorem lt_of_le_of_lt (hc : TotalPreorder cmp) {a b c : α} (hab : cmp a b ≤ 0)
    (hbc : cmp b c < 0) : cmp a c < 0 := by
  by_contra hac
  have hca : cmp c a ≤ 0 := by
    have := hc.antisymm a c
    have := hc.antisymm c a
    omega
  have hcb := hc.trans c a b hca hab
  have := hc.antisymm b c
  omega

theorem lt_of_lt_of_le (hc : TotalPreorder cmp) {a b c : α} (hab : cmp a b < 0)
    (hbc : cmp b c ≤ 0) : cmp a c < 0 := by
  by_contra hac
  have hca : cmp c a ≤ 0 := by
    have := hc.antisymm a c
    have := hc.antisymm c a
    omega
  have hba := hc.trans b c a hbc hca
  have := hc.antisymm a b
  omega

theorem lt_trans (hc : TotalPreorder cmp) {a b c : α} (hab : cmp a b < 0)
    (hbc : cmp b c < 0) : cmp a c < 0 :=
  hc.lt_of_le_of_lt hab.le hbc

end TotalPreorder

/-- Integers in their usual order. -/
def intCmp (a b : Int) : Int := a - b

theorem intCmp_totalPreorder : TotalPreorder intCmp where
  antisymm a b := by unfold intCmp; omega
  trans a b c := by unfold intCmp; omega

/-- Strictly increasing under the comparator. -/
def Increasing (cmp : α → α → Int) (l : List α) : Prop :=
  l.Pairwise fun a b => cmp a b < 0

theorem increasing_append_cons (hc : TotalPreorder cmp) {l r : List α} {d : α} :
    Increasing cmp (l ++ d :: r) ↔
      Increasing cmp l ∧ Increasing cmp r ∧ (∀ a ∈ l, cmp a d < 0) ∧
        ∀ b ∈ r, cmp d b < 0 := by
  unfold Increasing
  rw [List.pairwise_append, List.pairwise_cons]
  constructor
  · rintro ⟨hl, ⟨hd, hr⟩, hlr⟩
    exact ⟨hl, hr, fun a ha => hlr a ha d List.mem_cons_self, hd⟩
  · rintro ⟨hl, hr, hld, hdr⟩
    refine ⟨hl, ⟨hdr, hr⟩, ?_⟩
    intro a ha b hb
    obtain rfl | hb := List.mem_cons.mp hb
    · exact hld a ha
    · exact hc.lt_trans (hld a ha) (hdr b hb)

/-- In an increasing list two elements that compare equal are the same. -/
theorem Increasing.eq_of_zero (hc : TotalPreorder cmp) {l : List α}
    (hl : Increasing cmp l) {a b : α} (ha : a ∈ l) (hb : b ∈ l) (hab : cmp a b = 0) :
    a = b := by
  obtain ⟨l₁, l₂, rfl⟩ := List.append_of_mem ha
  obtain ⟨-, -, h₁, h₂⟩ := (increasing_append_cons hc).mp hl
  obtain hb | hb := List.mem_append.mp hb
  · have := h₁ b hb
    have := hc.antisymm b a
    omega
  · obtain rfl | hb := List.mem_cons.mp hb
    · rfl
    · have := h₂ b hb
      omega

theorem Increasing.nodup (hc : TotalPreorder cmp) {l : List α} (hl : Increasing cmp l) :
    l.Nodup := by
  refine hl.imp fun {a b} hab => ?_
  rintro rfl
  have := (hc.antisymm a a).mp hab
  omega

/-- Strictly increasing lists with the same elements are equal. -/
theorem Increasing.eq_of_perm (hc : TotalPreorder cmp) {l l' : List α}
    (hl : Increasing cmp l) (hl' : Increasing cmp l') (h : l.Perm l') : l = l' := by
  refine h.eq_of_pairwise (fun a b _ _ hab hba => ?_) hl hl'
  have := (hc.antisymm a b).mp hab
  omega

/-! ### Insertion -/

/-- Insert `x` at its place; nothing happens when an element compares equal. -/
def insertSorted (cmp : α → α → Int) (x : α) : List α → List α
  | [] => [x]
  | y :: ys =>
    if cmp x y < 0 then x :: y :: ys
    else if 0 < cmp x y then y :: insertSorted cmp x ys
    else y :: ys

theorem insertSorted_left {x d : α} {l r : List α} (h : cmp x d < 0) :
    insertSorted cmp x (l ++ d :: r) = insertSorted cmp x l ++ d :: r := by
  induction l with
  | nil => simp [insertSorted, h]
  | cons y l ih =>
    by_cases h1 : cmp x y < 0
    · simp [insertSorted, h1]
    · by_cases h2 : 0 < cmp x y
      · simp [insertSorted, h1, h2, ih]
      · simp [insertSorted, h1, h2]

theorem insertSorted_skip {x : α} {l r : List α} (h : ∀ a ∈ l, 0 < cmp x a) :
    insertSorted cmp x (l ++ r) = l ++ insertSorted cmp x r := by
  induction l with
  | nil => rfl
  | cons y l ih =>
    have hy : 0 < cmp x y := h y List.mem_cons_self
    rw [List.cons_append, insertSorted, if_neg (by omega), if_pos hy,
      ih fun a ha => h a (List.mem_cons_of_mem y ha), List.cons_append]

theorem TotalPreorder.pos_of_lt (hc : TotalPreorder cmp) {x d : α} {l : List α}
    (hxd : 0 ≤ cmp x d) (hld : ∀ a ∈ l, cmp a d < 0) : ∀ a ∈ l, 0 < cmp x a := by
  intro a ha
  have hdx : cmp d x ≤ 0 := by
    have := hc.antisymm x d
    have := hc.antisymm d x
    omega
  exact (hc.antisymm a x).mp (hc.lt_of_lt_of_le (hld a ha) hdx)

theorem insertSorted_right (hc : TotalPreorder cmp) {x d : α} {l r : List α}
    (h : 0 < cmp x d) (hld : ∀ a ∈ l, cmp a d < 0) :
    insertSorted cmp x (l ++ d :: r) = l ++ d :: insertSorted cmp x r := by
  rw [insertSorted_skip (hc.pos_of_lt h.le hld), insertSorted, if_neg (by omega), if_pos h]

theorem insertSorted_self (hc : TotalPreorder cmp) {x d : α} {l r : List α}
    (h : cmp x d = 0) (hld : ∀ a ∈ l, cmp a d < 0) :
    insertSorted cmp x (l ++ d :: r) = l ++ d :: r := by
  rw [insertSorted_skip (hc.pos_of_lt h.ge hld), insertSorted, if_neg (by omega),
    if_neg (by omega)]

/-- Afterwards some element compares equal to `x`. -/
theorem exists_zero_insertSorted (hc : TotalPreorder cmp) (x : α) (l : List α) :
    ∃ y ∈ insertSorted cmp x l, cmp x y = 0 := by
  have hxx : cmp x x = 0 := by
    have := hc.antisymm x x
    omega
  induction l with
  | nil => exact ⟨x, by simp [insertSorted], hxx⟩
  | cons y l ih =>
    by_cases h1 : cmp x y < 0
    · exact ⟨x, by simp [insertSorted, h1], hxx⟩
    · by_cases h2 : 0 < cmp x y
      · obtain ⟨z, hz, hxz⟩ := ih
        exact ⟨z, by simp [insertSorted, h1, h2, hz], hxz⟩
      · exact ⟨y, by simp [insertSorted, h1, h2], by omega⟩

/-- Insertion drops nothing. -/
theorem sublist_insertSorted (x : α) (l : List α) : l.Sublist (insertSorted cmp x l) := by
  induction l with
  | nil => exact List.nil_sublist _
  | cons y l ih =>
    rw [insertSorted]
    split
    · exact List.sublist_cons_self x (y :: l)
    · split
      · exact ih.cons_cons y
      · exact List.Sublist.refl _

theorem mem_insertSorted_subset {x a : α} {l : List α} (h : a ∈ insertSorted cmp x l) :
    a = x ∨ a ∈ l := by
  induction l with
  | nil => simpa [insertSorted] using h
  | cons y l ih =>
    rw [insertSorted] at h
    split at h
    · simpa using h
    · split at h
      · obtain rfl | h := List.mem_cons.mp h
        · simp
        · rcases ih h with rfl | h <;> simp_all
      · exact Or.inr h

theorem mem_insertSorted_new {x : α} {l : List α} (h : ∀ y ∈ l, cmp x y ≠ 0) :
    x ∈ insertSorted cmp x l := by
  induction l with
  | nil => simp [insertSorted]
  | cons y l ih =>
    have hy := h y List.mem_cons_self
    rw [insertSorted]
    split
    · simp
    · rw [if_pos (by omega)]
      exact List.mem_cons_of_mem y (ih fun z hz => h z (List.mem_cons_of_mem y hz))

theorem increasing_insertSorted (hc : TotalPreorder cmp) {x : α} {l : List α}
    (hl : Increasing cmp l) : Increasing cmp (insertSorted cmp x l) := by
  induction l with
  | nil => exact List.pairwise_singleton _ _
  | cons y l ih =>
    obtain ⟨hy, hl'⟩ := List.pairwise_cons.mp hl
    rw [insertSorted]
    split
    · rename_i hxy
      refine List.pairwise_cons.mpr ⟨?_, hl⟩
      intro b hb
      obtain rfl | hb := List.mem_cons.mp hb
      · exact hxy
      · exact hc.lt_trans hxy (hy b hb)
    · split
      · rename_i hxy
        refine List.pairwise_cons.mpr ⟨?_, ih hl'⟩
        intro b hb
        rcases mem_insertSorted_subset hb with rfl | hb
        · exact (hc.antisymm y b).mpr hxy
        · exact hy b hb
      · exact hl

/-- A new element goes between the smaller and the larger ones. -/
theorem exists_insertSorted_eq (hc : TotalPreorder cmp) {x : α} {l : List α}
    (hl : Increasing cmp l) (hno : ∀ y ∈ l, cmp x y ≠ 0) :
    ∃ a b, l = a ++ b ∧ insertSorted cmp x l = a ++ x :: b ∧
      (∀ y ∈ a, cmp y x < 0) ∧ ∀ y ∈ b, cmp x y < 0 := by
  induction l with
  | nil => exact ⟨[], [], rfl, rfl, by simp, by simp⟩
  | cons y l ih =>
    obtain ⟨hy, hl'⟩ := List.pairwise_cons.mp hl
    obtain ⟨hxy, hno'⟩ := List.forall_mem_cons.mp hno
    by_cases hlt : cmp x y < 0
    · refine ⟨[], y :: l, rfl, by rw [insertSorted, if_pos hlt, List.nil_append], by simp,
        List.forall_mem_cons.mpr ⟨hlt, ?_⟩⟩
      exact fun z hz => hc.lt_trans hlt (hy z hz)
    · obtain ⟨a, b, rfl, hins, ha, hb⟩ := ih hl' hno'
      refine ⟨y :: a, b, rfl, ?_, List.forall_mem_cons.mpr ⟨?_, ha⟩, hb⟩
      · rw [insertSorted, if_neg hlt, if_pos (by omega), hins, List.cons_append]
      · exact (hc.antisymm y x).mpr (by omega)

/-! ### Deletion -/

/-- Drop the element that compares equal to `x`. -/
def eraseSorted (cmp : α → α → Int) (x : α) (l : List α) : List α :=
  l.filter fun y => cmp x y ≠ 0

theorem eraseSorted_eq_self {x : α} {l : List α} (h : ∀ y ∈ l, cmp x y ≠ 0) :
    eraseSorted cmp x l = l :=
  List.filter_eq_self.mpr fun y hy => by simpa using h y hy

theorem mem_eraseSorted {x a : α} {l : List α} :
    a ∈ eraseSorted cmp x l ↔ a ∈ l ∧ cmp x a ≠ 0 := by
  simp [eraseSorted]

section

variable (hc : TotalPreorder cmp) {x d : α} {l r : List α}
  (hld : ∀ a ∈ l, cmp a d < 0) (hdr : ∀ b ∈ r, cmp d b < 0)
include hc

include hdr in
theorem eraseSorted_left (h : cmp x d < 0) :
    eraseSorted cmp x (l ++ d :: r) = eraseSorted cmp x l ++ d :: r := by
  have hr : ∀ y ∈ d :: r, cmp x y ≠ 0 := by
    intro y hy
    obtain rfl | hy := List.mem_cons.mp hy
    · omega
    · have := hc.lt_trans h (hdr y hy)
      omega
  rw [eraseSorted, List.filter_append]
  exact congrArg _ (eraseSorted_eq_self hr)

include hld in
theorem eraseSorted_right (h : 0 < cmp x d) :
    eraseSorted cmp x (l ++ d :: r) = l ++ d :: eraseSorted cmp x r := by
  have hl : ∀ y ∈ l, cmp x y ≠ 0 := fun y hy => by
    have := hc.pos_of_lt h.le hld y hy
    omega
  rw [eraseSorted, List.filter_append, List.filter_cons_of_pos (by simp; omega)]
  exact congrArg (· ++ _) (eraseSorted_eq_self hl)

include hld hdr in
theorem eraseSorted_self (h : cmp x d = 0) :
    eraseSorted cmp x (l ++ d :: r) = l ++ r := by
  have hl : ∀ y ∈ l, cmp x y ≠ 0 := fun y hy => by
    have := hc.pos_of_lt h.ge hld y hy
    omega
  have hr : ∀ y ∈ r, cmp x y ≠ 0 := fun y hy => by
    have := hc.lt_of_le_of_lt h.le (hdr y hy)
    omega
  rw [eraseSorted, List.filter_append, List.filter_cons_of_neg (by simp [h])]
  exact congrArg₂ _ (eraseSorted_eq_self hl) (eraseSorted_eq_self hr)

end

end OrderedList
