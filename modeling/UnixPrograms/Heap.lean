/-
A heap of blocks, and singly linked lists in it.

A block keeps its identity for ever: `alloc` never hands out an address again,
and a freed address reads `none`, so a pointer that outlives its block can be
told from a pointer to a later one.  Reading, writing and freeing answer `none`
through NULL and through a freed block.

* `Seg h p ns q` — the nodes `ns` (addresses and data) lead from `p` to `q`;
* `Chain h p ns` — they lead from `p` to NULL;
* `walk` — the loop `while (current->next) current = current->next`;
* `Owned h own ns` — the nodes that threads took off the list `ns`.
-/
import Mathlib.Tactic
import Mathlib.Data.List.Basic

namespace Memory

/-- A heap whose blocks hold a `β`; addresses from `fresh` on are unused. -/
structure Heap (β : Type*) where
  cell : ℕ → Option β
  fresh : ℕ
  fresh_none : ∀ a, fresh ≤ a → cell a = none

namespace Heap

variable {β : Type*}

/-- The heap without a block. -/
def empty : Heap β := ⟨fun _ => none, 0, fun _ _ => rfl⟩

theorem lt_fresh {h : Heap β} {a : ℕ} {v : β} (ha : h.cell a = some v) : a < h.fresh := by
  by_contra hlt
  rw [h.fresh_none a (by omega)] at ha
  exact absurd ha (by simp)

/-- `calloc` and the first write to the new block, at address `h.fresh`. -/
def alloc (h : Heap β) (v : β) : Heap β where
  cell b := if b = h.fresh then some v else h.cell b
  fresh := h.fresh + 1
  fresh_none b hb := by rw [if_neg (by omega), h.fresh_none b (by omega)]

/-- One used block replaced, or removed. -/
def update (h : Heap β) (a : ℕ) (v : Option β) (ha : a < h.fresh) : Heap β where
  cell b := if b = a then v else h.cell b
  fresh := h.fresh
  fresh_none b hb := by rw [if_neg (by omega), h.fresh_none b hb]

/-- Reading through a pointer. -/
def load (h : Heap β) (p : Option ℕ) : Option β := p.bind h.cell

/-- Rewriting the block behind a pointer. -/
def modify (h : Heap β) (p : Option ℕ) (f : β → β) : Option (Heap β) :=
  match p with
  | none => none
  | some a =>
    match ha : h.cell a with
    | none => none
    | some v => some (h.update a (some (f v)) (lt_fresh ha))

/-- `free` of a pointer that is not NULL. -/
def free (h : Heap β) (a : ℕ) : Option (Heap β) :=
  match ha : h.cell a with
  | none => none
  | some _ => some (h.update a none (lt_fresh ha))

@[simp] theorem load_none (h : Heap β) : h.load none = none := rfl

@[simp] theorem load_some (h : Heap β) (a : ℕ) : h.load (some a) = h.cell a := rfl

theorem alloc_cell (h : Heap β) (v : β) (b : ℕ) :
    (h.alloc v).cell b = if b = h.fresh then some v else h.cell b := rfl

@[simp] theorem alloc_cell_fresh (h : Heap β) (v : β) :
    (h.alloc v).cell h.fresh = some v := if_pos rfl

theorem alloc_cell_of_lt (h : Heap β) (v : β) {b : ℕ} (hb : b < h.fresh) :
    (h.alloc v).cell b = h.cell b := by
  rw [alloc_cell, if_neg (by omega)]

@[ext] theorem ext {h h' : Heap β} (hcell : ∀ a, h.cell a = h'.cell a)
    (hfresh : h.fresh = h'.fresh) : h = h' := by
  obtain ⟨c, n, _⟩ := h
  obtain ⟨c', n', _⟩ := h'
  obtain rfl : c = c' := funext hcell
  obtain rfl : n = n' := hfresh
  rfl

/-- A write through a pointer to a block changes that block only. -/
theorem modify_of_cell {h : Heap β} {a : ℕ} {v : β} (f : β → β) (ha : h.cell a = some v) :
    ∃ h', h.modify (some a) f = some h' ∧ h'.fresh = h.fresh ∧
      ∀ b, h'.cell b = if b = a then some (f v) else h.cell b := by
  refine ⟨h.update a (some (f v)) (lt_fresh ha), ?_, rfl, fun b => rfl⟩
  show (match hc : h.cell a with
    | none => none
    | some w => some (h.update a (some (f w)) (lt_fresh hc))) = _
  split
  · rename_i hc
    exact absurd (ha.symm.trans hc) (by simp)
  · rename_i w hc
    obtain rfl := Option.some.inj (ha.symm.trans hc)
    rfl

/-- Filling in a block that was just allocated. -/
theorem alloc_modify_fresh (h : Heap β) (v : β) (f : β → β) :
    (h.alloc v).modify (some h.fresh) f = some (h.alloc (f v)) := by
  obtain ⟨h', hmod, hfresh, hcell⟩ := modify_of_cell f (h.alloc_cell_fresh v)
  rw [hmod]
  congr 1
  ext1
  · rename_i b
    rw [hcell, alloc_cell, alloc_cell]
    split <;> rfl
  · exact hfresh

theorem modify_of_load_none {h : Heap β} {p : Option ℕ} (f : β → β) (hp : h.load p = none) :
    h.modify p f = none := by
  cases p with
  | none => rfl
  | some a =>
    unfold modify
    split
    · rfl
    · rename_i c hc
      obtain rfl := Option.some.inj hc
      split
      · rfl
      · rename_i hv
        exact absurd (hp.symm.trans hv) (by simp)

theorem free_of_cell {h : Heap β} {a : ℕ} {v : β} (ha : h.cell a = some v) :
    ∃ h', h.free a = some h' ∧ h'.fresh = h.fresh ∧
      ∀ b, h'.cell b = if b = a then none else h.cell b := by
  refine ⟨h.update a none (lt_fresh ha), ?_, rfl, fun b => rfl⟩
  rw [free]
  split
  · rename_i hc
    exact absurd (ha.symm.trans hc) (by simp)
  · rfl

end Heap

/-! ### Linked nodes -/

/-- A node of a singly linked list. -/
structure Node (δ : Type*) where
  data : δ
  next : Option ℕ
  deriving DecidableEq

variable {δ : Type*}

/-- The nodes `ns`, each with its address, lead from the pointer `p` to `q`. -/
def Seg (h : Heap (Node δ)) : Option ℕ → List (ℕ × δ) → Option ℕ → Prop
  | p, [], q => p = q
  | p, (a, d) :: ns, q => p = some a ∧ ∃ r, h.cell a = some ⟨d, r⟩ ∧ Seg h r ns q

/-- The nodes `ns` are the list at `p`. -/
def Chain (h : Heap (Node δ)) (p : Option ℕ) (ns : List (ℕ × δ)) : Prop := Seg h p ns none

/-- `while (current->next) current = current->next`, from a node: the node it
stops at.  A walk over more nodes than the heap has is in a cycle and never
ends; the fuel says so. -/
def walk (h : Heap (Node δ)) : ℕ → ℕ → Option ℕ
  | 0, _ => none
  | fuel + 1, current =>
    match h.cell current with
    | none => none
    | some ⟨_, none⟩ => some current
    | some ⟨_, some next⟩ => walk h fuel next

section Lists

variable {h h' : Heap (Node δ)} {p q : Option ℕ} {ns ms : List (ℕ × δ)}

theorem seg_append : Seg h p (ns ++ ms) q ↔ ∃ r, Seg h p ns r ∧ Seg h r ms q := by
  induction ns generalizing p with
  | nil => simp [Seg]
  | cons n ns ih =>
    obtain ⟨a, d⟩ := n
    simp only [List.cons_append, Seg, ih]
    constructor
    · rintro ⟨hp, r, hr, t, h₁, h₂⟩
      exact ⟨t, ⟨hp, r, hr, h₁⟩, h₂⟩
    · rintro ⟨t, ⟨hp, r, hr, h₁⟩, h₂⟩
      exact ⟨hp, r, hr, t, h₁, h₂⟩

/-- **Frame.**  A segment only depends on its own nodes. -/
theorem Seg.frame (hs : Seg h p ns q) (hsame : ∀ n ∈ ns, h'.cell n.1 = h.cell n.1) :
    Seg h' p ns q := by
  induction ns generalizing p with
  | nil => exact hs
  | cons n ns ih =>
    obtain ⟨hp, r, hr, hrest⟩ := hs
    refine ⟨hp, r, ?_, ih hrest fun m hm => hsame m (List.mem_cons_of_mem n hm)⟩
    rw [hsame n List.mem_cons_self, hr]

theorem Seg.cell_of_mem (hs : Seg h p ns q) {n : ℕ × δ} (hn : n ∈ ns) :
    ∃ r, h.cell n.1 = some ⟨n.2, r⟩ := by
  induction ns generalizing p with
  | nil => exact absurd hn (by simp)
  | cons m ns ih =>
    obtain ⟨_, r, hr, hrest⟩ := hs
    obtain hnm | hn := List.mem_cons.mp hn
    · rw [hnm]
      exact ⟨r, hr⟩
    · exact ih hrest hn

theorem Seg.lt_fresh (hs : Seg h p ns q) {n : ℕ × δ} (hn : n ∈ ns) : n.1 < h.fresh := by
  obtain ⟨r, hr⟩ := hs.cell_of_mem hn
  exact Heap.lt_fresh hr

theorem Seg.alloc (hs : Seg h p ns q) (v : Node δ) : Seg (h.alloc v) p ns q :=
  hs.frame fun _ hn => h.alloc_cell_of_lt v (hs.lt_fresh hn)

/-- The list at a pointer is determined by the heap. -/
theorem Chain.unique (hn : Chain h p ns) (hm : Chain h p ms) : ns = ms := by
  induction ns generalizing p ms with
  | nil =>
    obtain rfl : p = none := hn
    cases ms with
    | nil => rfl
    | cons m ms => exact absurd hm.1 (by simp)
  | cons n ns ih =>
    obtain ⟨rfl, r, hr, hrest⟩ := hn
    cases ms with
    | nil => exact absurd hm (by simp [Chain, Seg])
    | cons m ms =>
      obtain ⟨ha, r', hr', hrest'⟩ := hm
      rw [← Option.some.inj ha, hr] at hr'
      obtain ⟨hd, hnext⟩ := Node.mk.inj (Option.some.inj hr')
      rw [← hnext] at hrest'
      rw [ih hrest hrest', Prod.ext (Option.some.inj ha) hd]

/-- No node occurs twice in a list: it would lead back to itself. -/
theorem Chain.nodup (hn : Chain h p ns) : (ns.map Prod.fst).Nodup := by
  induction ns generalizing p with
  | nil => exact List.nodup_nil
  | cons n ns ih =>
    have hall := hn
    obtain ⟨_, r, hr, hrest⟩ := hn
    refine List.nodup_cons.mpr ⟨?_, ih hrest⟩
    intro hmem
    obtain ⟨m, hm, hma⟩ := List.mem_map.mp hmem
    obtain ⟨us, vs, rfl⟩ := List.append_of_mem hm
    obtain ⟨t, _, hback⟩ := seg_append.mp hrest
    -- from `m`, which is `n` again, the list is both `m :: vs` and all of it
    rw [hback.1, hma, ← hall.1] at hback
    have hlen := congrArg List.length (Chain.unique hall hback)
    simp only [List.length_cons, List.length_append] at hlen
    omega

/-- The first node of a list does not come again. -/
theorem Chain.ne_head {n : ℕ × δ} (hn : Chain h p (n :: ns)) : ∀ m ∈ ns, m.1 ≠ n.1 := by
  intro m hm heq
  have hnotMem := (List.nodup_cons.mp hn.nodup).1
  exact hnotMem (heq ▸ List.mem_map_of_mem hm)

theorem Chain.length_le_fresh (hn : Chain h p ns) : ns.length ≤ h.fresh := by
  have hsub : (ns.map Prod.fst).toFinset ⊆ Finset.range h.fresh := by
    intro a ha
    obtain ⟨n, hmem, rfl⟩ := List.mem_map.mp (List.mem_toFinset.mp ha)
    exact Finset.mem_range.mpr (hn.lt_fresh hmem)
  have hcard := Finset.card_le_card hsub
  rwa [List.toFinset_card_of_nodup hn.nodup, List.length_map, Finset.card_range] at hcard

theorem Chain.eq_nil (hn : Chain h none ns) : ns = [] :=
  hn.unique (show Chain h none [] from rfl)

theorem Chain.eq_none_iff {a : Option ℕ} (hn : Chain h a ns) : a = none ↔ ns = [] := by
  constructor
  · rintro rfl
    exact hn.eq_nil
  · rintro rfl
    exact hn

/-- A list that starts at a node: its data, and the list at the next pointer. -/
theorem Chain.of_some {a : ℕ} (hn : Chain h (some a) ns) :
    ∃ d r ms, ns = (a, d) :: ms ∧ h.cell a = some ⟨d, r⟩ ∧ Chain h r ms := by
  cases ns with
  | nil => exact absurd hn (by simp [Chain, Seg])
  | cons n ms =>
    obtain ⟨ha, r, hr, hrest⟩ := hn
    obtain rfl := Option.some.inj ha
    exact ⟨n.2, r, ms, rfl, hr, hrest⟩

theorem chain_append_singleton {n : ℕ × δ} :
    Chain h p (ns ++ [n]) ↔ Seg h p ns (some n.1) ∧ h.cell n.1 = some ⟨n.2, none⟩ := by
  rw [Chain, seg_append]
  constructor
  · rintro ⟨r, hseg, rfl, s, hs, rfl⟩
    exact ⟨hseg, hs⟩
  · rintro ⟨hseg, hcell⟩
    exact ⟨some n.1, hseg, rfl, none, hcell, rfl⟩

theorem Chain.notMem_of_append {n : ℕ × δ} (hn : Chain h p (ns ++ n :: ms)) :
    ∀ m ∈ ns, m.1 ≠ n.1 := by
  intro m hm heq
  have hnodup := hn.nodup
  rw [List.map_append, List.map_cons] at hnodup
  exact (List.nodup_append.mp hnodup).2.2 m.1 (List.mem_map_of_mem hm) n.1
    List.mem_cons_self heq

/-- The walk from the first node of a list stops at its last node. -/
theorem walk_of_chain {fuel a : ℕ} {n : ℕ × δ} (hn : Chain h (some a) (ns ++ [n]))
    (hfuel : ns.length < fuel) : walk h fuel a = some n.1 := by
  induction ns generalizing a fuel with
  | nil =>
    obtain ⟨fuel, rfl⟩ : ∃ k, fuel = k + 1 := ⟨fuel - 1, by omega⟩
    obtain ⟨hseg, hcell⟩ := chain_append_singleton.mp hn
    obtain rfl := Option.some.inj hseg
    rw [walk, hcell]
  | cons m ns ih =>
    obtain ⟨fuel, rfl⟩ : ∃ k, fuel = k + 1 := ⟨fuel - 1, by omega⟩
    obtain ⟨ha, r, hr, hrest⟩ := hn
    obtain rfl := Option.some.inj ha
    cases r with
    | none => exact absurd (Chain.eq_nil hrest) (by simp)
    | some b =>
      rw [walk, hr]
      exact ih hrest (by simpa using hfuel)

/-- A new first node. -/
theorem Chain.alloc_front (hn : Chain h p ns) (d : δ) :
    Chain (h.alloc ⟨d, p⟩) (some h.fresh) ((h.fresh, d) :: ns) :=
  ⟨rfl, p, h.alloc_cell_fresh _, Seg.alloc hn _⟩

/-- Writing the address of a new node into a node `n` of a list: what followed
`n` is cut off, and the new node takes its place. -/
theorem Chain.link_behind {n : ℕ × δ} (hn : Chain h p (ns ++ n :: ms)) (d : δ) :
    ∃ h', (h.alloc ⟨d, none⟩).modify (some n.1) (fun m => { m with next := some h.fresh })
        = some h' ∧
      Chain h' p (ns ++ [n, (h.fresh, d)]) ∧ h'.fresh = h.fresh + 1 ∧
      ∀ b, b ≠ n.1 → b ≠ h.fresh → h'.cell b = h.cell b := by
  have hapart := hn.notMem_of_append
  have hlt : n.1 < h.fresh := Seg.lt_fresh hn (by simp)
  obtain ⟨r, hseg, rfl, s, hs, hrest⟩ := seg_append.mp hn
  have hs' : (h.alloc ⟨d, none⟩).cell n.1 = some ⟨n.2, s⟩ := by
    rw [h.alloc_cell_of_lt _ hlt, hs]
  obtain ⟨h', hmod, hfresh, hcell⟩ :=
    Heap.modify_of_cell (fun m => { m with next := some h.fresh }) hs'
  refine ⟨h', hmod, ?_, hfresh, ?_⟩
  · refine seg_append.mpr ⟨some n.1, hseg.frame fun u hu => ?_,
      rfl, some h.fresh, ?_, rfl, none, ?_, rfl⟩
    · rw [hcell, if_neg (hapart u hu), h.alloc_cell_of_lt _ (hseg.lt_fresh hu)]
    · rw [hcell, if_pos rfl]
    · rw [hcell, if_neg (by omega), h.alloc_cell_fresh]
  · intro b hb hbf
    rw [hcell, if_neg hb, Heap.alloc_cell, if_neg hbf]

/-- A block outside the list, already allocated, is linked behind the last node. -/
theorem Chain.link_block {n : ℕ × δ} {b : ℕ} {d : δ} (hn : Chain h p (ns ++ [n]))
    (hb : h.cell b = some ⟨d, none⟩) (hout : ∀ m ∈ ns ++ [n], m.1 ≠ b) :
    ∃ h', h.modify (some n.1) (fun m => { m with next := some b }) = some h' ∧
      Chain h' p (ns ++ [n] ++ [(b, d)]) ∧ h'.fresh = h.fresh ∧
      ∀ c, c ≠ n.1 → h'.cell c = h.cell c := by
  have hapart := hn.notMem_of_append
  have hbn : b ≠ n.1 := (hout n (by simp)).symm
  obtain ⟨hseg, hcelln⟩ := chain_append_singleton.mp hn
  obtain ⟨h', hmod, hfresh, hcell⟩ :=
    Heap.modify_of_cell (fun m => { m with next := some b }) hcelln
  refine ⟨h', hmod, ?_, hfresh, fun c hc => by rw [hcell, if_neg hc]⟩
  refine chain_append_singleton.mpr ⟨seg_append.mpr ⟨some n.1, ?_, rfl, some b, ?_, rfl⟩, ?_⟩
  · exact hseg.frame fun u hu => by rw [hcell, if_neg (hapart u hu)]
  · rw [hcell, if_pos rfl]
  · rw [hcell, if_neg hbn, hb]

/-- Freeing, or rewriting, a block outside a list leaves the list alone. -/
theorem Chain.of_notMem {a : ℕ} {v : Option (Node δ)} (hn : Chain h p ns)
    (ha : ∀ n ∈ ns, n.1 ≠ a)
    (hcell : ∀ b, h'.cell b = if b = a then v else h.cell b) : Chain h' p ns :=
  Seg.frame hn fun n hmem => by rw [hcell, if_neg (ha n hmem)]

/-! ### Linking a node at the end of a list -/

/-- The new node becomes the first one of an empty list; in any other list the
loop looks for the last node and the new one is linked behind it.  The answer is
the pointer to the list and the heap. -/
def linkLast {δ : Type} (h : Heap (Node δ)) (head : Option ℕ) (newNode : ℕ) :
    Option (Option ℕ × Heap (Node δ)) :=
  match head with
  | none => some (some newNode, h)
  | some first => do
    let current ← walk h h.fresh first
    let h ← h.modify (some current) fun n => { n with next := some newNode }
    some (some first, h)

/-- **Appending.** -/
theorem linkLast_spec {δ : Type} {h : Heap (Node δ)} {ns : List (ℕ × δ)} (hn : Chain h p ns)
    (d : δ) :
    ∃ q h', linkLast (h.alloc ⟨d, none⟩) p h.fresh = some (q, h') ∧
      Chain h' q (ns ++ [(h.fresh, d)]) ∧ h'.fresh = h.fresh + 1 ∧
      ∀ b, (∀ n ∈ ns, n.1 ≠ b) → b ≠ h.fresh → h'.cell b = h.cell b := by
  rcases List.eq_nil_or_concat' ns with rfl | ⟨ms, n, rfl⟩
  · obtain rfl : p = none := hn
    refine ⟨some h.fresh, h.alloc ⟨d, none⟩, rfl,
      ⟨rfl, none, h.alloc_cell_fresh _, rfl⟩, rfl, ?_⟩
    intro b _ hb
    rw [Heap.alloc_cell, if_neg hb]
  · -- the new node is allocated before the walk, and the walk does not reach it
    obtain ⟨h', hmod, hchain, hfresh, hcell⟩ := hn.link_behind d
    cases p with
    | none => exact absurd hn.eq_nil (by simp)
    | some first =>
      have hlen := hn.length_le_fresh
      rw [List.length_append, List.length_singleton] at hlen
      -- the walk runs over the heap with the new node in it
      have hwalk : walk (h.alloc ⟨d, none⟩) (h.fresh + 1) first = some n.1 :=
        walk_of_chain (Seg.alloc hn _) (Nat.lt_succ_of_lt hlen)
      refine ⟨some first, h', ?_, ?_, hfresh, fun b hb => hcell b ?_⟩
      · show (walk (h.alloc ⟨d, none⟩) (h.fresh + 1) first).bind _ = _
        rw [hwalk, Option.bind_some]
        show ((h.alloc ⟨d, none⟩).modify (some n.1) _).bind _ = _
        rw [hmod, Option.bind_some]
      · rw [List.append_assoc]
        exact hchain
      · exact (hb n (by simp)).symm

end Lists

/-! ### Nodes that threads have taken off a list -/

/-- Each thread owns at most one node.  The owned nodes are live, none of them
is still in the list `ns`, and no two threads own the same one. -/
structure Owned {θ : Type*} (h : Heap (Node δ)) (own : θ → Option ℕ)
    (ns : List (ℕ × δ)) : Prop where
  live : ∀ i a, own i = some a → ∃ n, h.cell a = some n
  out : ∀ i a, own i = some a → ∀ n ∈ ns, n.1 ≠ a
  apart : ∀ i j a, own i = some a → own j = some a → i = j

namespace Owned

variable {θ : Type*} {h h' : Heap (Node δ)} {p : Option ℕ} {own : θ → Option ℕ}
  {ns : List (ℕ × δ)} {i : θ} {a : ℕ}

theorem nobody (hown : ∀ i, own i = none) : Owned h own ns where
  live i a hi := absurd ((hown i).symm.trans hi) (by simp)
  out i a hi := absurd ((hown i).symm.trans hi) (by simp)
  apart i j a hi := absurd ((hown i).symm.trans hi) (by simp)

variable [DecidableEq θ]

/-- A thread takes the first node. -/
theorem take {n : ℕ × δ} (ho : Owned h own (n :: ns)) (hn : Chain h p (n :: ns)) (i : θ) :
    Owned h (Function.update own i (some n.1)) ns := by
  have hfresh : ∀ j, own j ≠ some n.1 := fun j hj => ho.out j n.1 hj n List.mem_cons_self rfl
  refine ⟨?_, ?_, ?_⟩
  · intro j a hj
    by_cases hji : j = i
    · rw [hji, Function.update_self] at hj
      obtain rfl := Option.some.inj hj
      obtain ⟨r, hr⟩ := Seg.cell_of_mem hn List.mem_cons_self
      exact ⟨_, hr⟩
    · rw [Function.update_of_ne hji] at hj
      exact ho.live j a hj
  · intro j a hj m hm
    by_cases hji : j = i
    · rw [hji, Function.update_self] at hj
      obtain rfl := Option.some.inj hj
      exact hn.ne_head m hm
    · rw [Function.update_of_ne hji] at hj
      exact ho.out j a hj m (List.mem_cons_of_mem n hm)
  · intro j k a hj hk
    by_cases hji : j = i <;> by_cases hki : k = i
    · rw [hji, hki]
    · rw [hji, Function.update_self] at hj
      rw [Function.update_of_ne hki, ← hj] at hk
      exact absurd hk (hfresh k)
    · rw [hki, Function.update_self] at hk
      rw [Function.update_of_ne hji, ← hk] at hj
      exact absurd hj (hfresh j)
    · rw [Function.update_of_ne hji] at hj
      rw [Function.update_of_ne hki] at hk
      exact ho.apart j k a hj hk

/-- After a thread gave its node away, the other owners are who they were. -/
theorem others (ho : Owned h own ns) (hi : own i = some a) {j : θ} {b : ℕ}
    (hj : Function.update own i none j = some b) : own j = some b ∧ b ≠ a := by
  by_cases hji : j = i
  · rw [hji, Function.update_self] at hj
    exact absurd hj (by simp)
  · rw [Function.update_of_ne hji] at hj
    exact ⟨hj, fun heq => hji (ho.apart j i a (heq ▸ hj) hi)⟩

/-- A thread frees the node it owns. -/
theorem release (ho : Owned h own ns) (hi : own i = some a)
    (hcell : ∀ b, h'.cell b = if b = a then none else h.cell b) :
    Owned h' (Function.update own i none) ns := by
  refine ⟨?_, ?_, ?_⟩
  · intro j b hj
    obtain ⟨hj', hne⟩ := ho.others hi hj
    rw [hcell, if_neg hne]
    exact ho.live j b hj'
  · intro j b hj
    exact ho.out j b (ho.others hi hj).1
  · intro j k b hj hk
    exact ho.apart j k b (ho.others hi hj).1 (ho.others hi hk).1

/-- A thread allocates a block. -/
theorem adopt (ho : Owned h own ns) (hn : Chain h p ns) (v : Node δ) (i : θ) :
    Owned (h.alloc v) (Function.update own i (some h.fresh)) ns := by
  have hlt : ∀ j a, own j = some a → a < h.fresh := by
    intro j a hj
    obtain ⟨n, ha⟩ := ho.live j a hj
    exact Heap.lt_fresh ha
  have hown : ∀ j a, Function.update own i (some h.fresh) j = some a →
      (j = i ∧ a = h.fresh) ∨ (j ≠ i ∧ own j = some a) := by
    intro j a hj
    by_cases hji : j = i
    · rw [hji, Function.update_self] at hj
      exact Or.inl ⟨hji, (Option.some.inj hj).symm⟩
    · rw [Function.update_of_ne hji] at hj
      exact Or.inr ⟨hji, hj⟩
  refine ⟨?_, ?_, ?_⟩
  · intro j a hj
    obtain ⟨_, rfl⟩ | ⟨_, hj⟩ := hown j a hj
    · exact ⟨v, h.alloc_cell_fresh v⟩
    · rw [h.alloc_cell_of_lt v (hlt j a hj)]
      exact ho.live j a hj
  · intro j a hj n hmem
    obtain ⟨_, rfl⟩ | ⟨_, hj⟩ := hown j a hj
    · exact Nat.ne_of_lt (Seg.lt_fresh hn hmem)
    · exact ho.out j a hj n hmem
  · intro j k a hj hk
    obtain ⟨hji, hja⟩ | ⟨hji, hj⟩ := hown j a hj <;> obtain ⟨hki, hka⟩ | ⟨hki, hk⟩ := hown k a hk
    · rw [hji, hki]
    · exact absurd hja (Nat.ne_of_lt (hlt k a hk))
    · exact absurd hka (Nat.ne_of_lt (hlt j a hj))
    · exact ho.apart j k a hj hk

/-- A thread links the node it owns at the end of the list. -/
theorem give (ho : Owned h own ns) (hi : own i = some a) (d : δ)
    (hcell : ∀ b, (∀ n ∈ ns, n.1 ≠ b) → h'.cell b = h.cell b) :
    Owned h' (Function.update own i none) (ns ++ [(a, d)]) := by
  refine ⟨?_, ?_, ?_⟩
  · intro j b hj
    obtain ⟨hj', _⟩ := ho.others hi hj
    rw [hcell b (ho.out j b hj')]
    exact ho.live j b hj'
  · intro j b hj n hn
    obtain ⟨hj', hne⟩ := ho.others hi hj
    obtain hn | hn := List.mem_append.mp hn
    · exact ho.out j b hj' n hn
    · rw [List.mem_singleton.mp hn]
      exact hne.symm
  · intro j k b hj hk
    exact ho.apart j k b (ho.others hi hj).1 (ho.others hi hk).1

omit [DecidableEq θ] in
/-- A new node is linked at the end of the list. -/
theorem append (ho : Owned h own ns) (d : δ)
    (hcell : ∀ b, (∀ n ∈ ns, n.1 ≠ b) → b ≠ h.fresh → h'.cell b = h.cell b) :
    Owned h' own (ns ++ [(h.fresh, d)]) := by
  have hlt : ∀ j b, own j = some b → b ≠ h.fresh := by
    intro j b hj
    obtain ⟨n, hb⟩ := ho.live j b hj
    exact Nat.ne_of_lt (Heap.lt_fresh hb)
  refine ⟨?_, ?_, ho.apart⟩
  · intro j b hj
    rw [hcell b (ho.out j b hj) (hlt j b hj)]
    exact ho.live j b hj
  · intro j b hj n hn
    obtain hn | hn := List.mem_append.mp hn
    · exact ho.out j b hj n hn
    · rw [List.mem_singleton.mp hn]
      exact (hlt j b hj).symm

end Owned

end Memory
