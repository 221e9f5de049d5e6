/-
The end of a linked list: `llist_destroy`, and the variable it is given.

The caller holds an `llist_t *` in a variable, and `llist_destroy` takes the address
of the variable.  The containers `llist_t` live in a heap of their own here, so that
a use of one that was freed can be seen.

* `llistDestroy` — the loop frees the nodes from the front, then the container is
  freed; the last line, `llist = NULL`, sets the parameter and not the variable;
* `llistDestroy_spec` — the first call frees everything, once, and leaves the variable
  as it was; any use of the variable after that faults;
* `meetsDestroy_iff` — so the variable is only NULL afterwards if it was before.
-/
import UnixPrograms.LinkedListRuns

namespace LinkedListLib

open Memory

variable {α : Type}

/-! ### The code -/

/-- The fields of an `llist_t`. -/
structure Container where
  count : ℕ
  head : Option ℕ
  tail : Option ℕ
  deriving DecidableEq

/-- A variable of type `llist_t *`, the containers, the nodes, and what was handed to
`user_free` so far. -/
structure Caller (α : Type) where
  llist : Option ℕ
  containers : Heap Container
  nodes : Heap (Node α)
  freed : List α

/-- The list in a container. -/
def Caller.list (w : Caller α) (c : Container) : Llist α := ⟨c.count, c.head, c.tail, w.nodes⟩

/-- `llist = llist_create(print, destroy)`; `calloc` says whether there is memory. -/
def Caller.create (calloc : Bool) : Caller α :=
  if calloc then ⟨some 0, Heap.empty.alloc ⟨0, none, none⟩, Heap.empty, []⟩
  else ⟨none, Heap.empty, Heap.empty, []⟩

/-- What the functions of the library answer to NULL. -/
def nullAnswer : LlistCall α → Answer α
  | .insertFront _ | .insertBack _ | .push _ | .enqueue _ => .done
  | .removeFront | .pop | .dequeue | .peek | .peekTail => .data none
  | .size => .size (2 ^ 64 - 1)

/-- A call of the library on the variable. -/
def Caller.call (w : Caller α) (c : LlistCall α) : Option (Caller α × Answer α) :=
  match w.llist with
  | none => some (w, nullAnswer c)
  | some address => do
    let container ← w.containers.cell address
    let (s, o) ← llistStep (w.list container) c
    let containers ← w.containers.modify (some address) fun _ => ⟨s.count, s.head, s.tail⟩
    some ({ w with containers, nodes := s.heap }, o)

/-- The loop of `llist_destroy`: the data handed to `user_free`, and the list that is
left.  Each round frees a node, so there are no more rounds than nodes. -/
def destroyLoop : ℕ → Llist α → Option (List α × Llist α)
  | 0, _ => none
  | rounds + 1, s =>
    match s.head with
    | none => some ([], s)
    | some temp => do
      let node ← s.heap.cell temp
      let heap ← s.heap.free temp
      let (data, s) ← destroyLoop rounds { s with head := node.next, heap }
      some (node.data :: data, s)

/-- `llist_destroy(&llist)`. -/
def llistDestroy (w : Caller α) : Option (Caller α) :=
  match w.llist with
  | none => some w
  | some address => do
    let container ← w.containers.cell address
    let (data, s) ← destroyLoop (w.nodes.fresh + 1) (w.list container)
    let containers ← w.containers.free address
    -- `llist = NULL` has no effect here: `llist` is the address of the variable
    some { w with containers, nodes := s.heap, freed := w.freed ++ data }

/-- Calls of `llist_destroy`, one after the other. -/
def destroyTimes : ℕ → Caller α → Option (Caller α)
  | 0, w => some w
  | k + 1, w => (llistDestroy w).bind (destroyTimes k)

/-! ### The loop -/

/-- **Everything is freed**, from the front, and nothing else is touched. -/
theorem destroyLoop_spec {s : Llist α} {ns : List (ℕ × α)} (h : Chain s.heap s.head ns)
    {rounds : ℕ} (hrounds : ns.length < rounds) :
    ∃ s', destroyLoop rounds s = some (ns.map Prod.snd, s') ∧ s'.head = none ∧
      (∀ n ∈ ns, s'.heap.cell n.1 = none) ∧
      ∀ b, (∀ n ∈ ns, n.1 ≠ b) → s'.heap.cell b = s.heap.cell b := by
  induction rounds generalizing s ns with
  | zero => exact absurd hrounds (Nat.not_lt_zero _)
  | succ rounds ih =>
    cases ns with
    | nil =>
      have hhead : s.head = none := h
      rw [destroyLoop, hhead]
      exact ⟨s, rfl, hhead, by simp, fun _ _ => rfl⟩
    | cons n ns =>
      obtain ⟨hhead, r, hr, hrest⟩ := h
      obtain ⟨heap, hfree, -, hcell⟩ := Heap.free_of_cell hr
      have hchain : Chain heap r ns :=
        Chain.of_notMem hrest (Chain.ne_head ⟨hhead, r, hr, hrest⟩) hcell
      obtain ⟨s', hloop, hnil, hgone, hsame⟩ :=
        ih (s := { s with head := r, heap }) hchain (by simpa using hrounds)
      have hn : s'.heap.cell n.1 = none := by
        rw [hsame n.1 fun m hm => Chain.ne_head ⟨hhead, r, hr, hrest⟩ m hm]
        exact (hcell n.1).trans (if_pos rfl)
      refine ⟨s', ?_, hnil, ?_, ?_⟩
      · rw [destroyLoop, hhead]
        show (s.heap.cell n.1).bind _ = _
        rw [hr, Option.bind_some]
        show (s.heap.free n.1).bind _ = _
        rw [hfree, Option.bind_some]
        show (destroyLoop rounds { s with head := r, heap }).bind _ = _
        rw [hloop, Option.bind_some, List.map_cons]
      · intro m hm
        rcases List.mem_cons.mp hm with rfl | hm
        · exact hn
        · exact hgone m hm
      · intro b hb
        rw [hsame b fun m hm => hb m (List.mem_cons_of_mem n hm)]
        exact (hcell b).trans (if_neg (hb n List.mem_cons_self).symm)

/-! ### Every list is a chain -/

/-- What a run keeps, whatever it does to `count`: the list ends, and `tail` is NULL, a
node of the list, or a node that has been freed. -/
structure Shape (s : Llist α) (ns : List (ℕ × α)) : Prop where
  chain : Chain s.heap s.head ns
  tail : ∀ t, s.tail = some t →
    t < s.heap.fresh ∧ ((∃ d, (t, d) ∈ ns) ∨ s.heap.cell t = none)

variable {s s' : Llist α} {ns ms : List (ℕ × α)} {d : α}

/-- A dead block is no node of the list. -/
theorem Shape.ne_of_dead (h : Shape s ns) {b : ℕ} (hb : s.heap.cell b = none) :
    ∀ n ∈ ns, n.1 ≠ b := by
  rintro n hn rfl
  obtain ⟨r, hr⟩ := Seg.cell_of_mem h.chain hn
  exact absurd (hr.symm.trans hb) (by simp)

/-- A new node somewhere in the list. -/
theorem Shape.insert (h : Shape s ns) (hchain : Chain s'.heap s'.head ms)
    (hfresh : s'.heap.fresh = s.heap.fresh + 1) (hsub : ∀ n ∈ ns, n ∈ ms)
    (hnew : (s.heap.fresh, d) ∈ ms)
    (hcell : ∀ b, (∀ n ∈ ns, n.1 ≠ b) → b ≠ s.heap.fresh → s'.heap.cell b = s.heap.cell b)
    (htail : s'.tail = s.tail ∨ s'.tail = some s.heap.fresh) : Shape s' ms := by
  refine ⟨hchain, fun t ht => ?_⟩
  rw [hfresh]
  rcases htail with hold | hlast
  · obtain ⟨hlt, hmem | hdead⟩ := h.tail t (hold ▸ ht)
    · obtain ⟨e, he⟩ := hmem
      exact ⟨by omega, Or.inl ⟨e, hsub _ he⟩⟩
    · refine ⟨by omega, Or.inr ?_⟩
      rw [hcell t (h.ne_of_dead hdead) (by omega), hdead]
  · obtain rfl := Option.some.inj (hlast.symm.trans ht)
    exact ⟨Nat.lt_succ_self _, Or.inl ⟨d, hnew⟩⟩

theorem Shape.insertFront (h : Shape s ns) (hs : llistInsertFront s (some d) true = some s') :
    ∃ ms, Shape s' ms := by
  obtain ⟨heap, hmod, heq⟩ := Option.bind_eq_some_iff.mp hs
  rw [Heap.alloc_modify_fresh] at hmod
  obtain rfl := Option.some.inj hmod
  obtain rfl := Option.some.inj heq
  refine ⟨(s.heap.fresh, d) :: ns, h.insert (d := d) (h.chain.alloc_front d) rfl
    (fun n hn => List.mem_cons_of_mem _ hn) List.mem_cons_self ?_ ?_⟩
  · intro b _ hb
    exact (Heap.alloc_cell _ _ b).trans (if_neg hb)
  · show (if s.tail = none then _ else _) = _ ∨ _
    split
    · exact Or.inr rfl
    · exact Or.inl rfl

theorem Shape.insertBack (h : Shape s ns) (hs : llistInsertBack s (some d) true = some s') :
    ∃ ms, Shape s' ms := by
  obtain ⟨head, heap, hlink, hchain, hfresh, hcell⟩ := linkLast_spec h.chain d
  obtain ⟨⟨head', heap'⟩, hlink', heq⟩ := Option.bind_eq_some_iff.mp hs
  obtain ⟨rfl, rfl⟩ := Prod.mk.inj (Option.some.inj (hlink.symm.trans hlink'))
  obtain rfl := Option.some.inj heq
  exact ⟨ns ++ [(s.heap.fresh, d)], h.insert (d := d) hchain hfresh
    (fun n hn => List.mem_append_left _ hn) (by simp) hcell (Or.inl rfl)⟩

/-- `llist_enqueue` may cut the list off behind `tail`, but what is left still ends. -/
theorem Shape.enqueue (h : Shape s ns) (hs : llistEnqueue s (some d) true = some s') :
    ∃ ms, Shape s' ms := by
  rw [llistEnqueue_some] at hs
  cases hhead : s.head with
  | none =>
    rw [linkTail_of_empty hhead] at hs
    obtain rfl := Option.some.inj hs
    refine ⟨[(s.heap.fresh, d)], ⟨rfl, none, s.heap.alloc_cell_fresh _, rfl⟩, ?_⟩
    intro t ht
    obtain rfl := Option.some.inj ht
    exact ⟨Nat.lt_succ_self _, Or.inl ⟨d, List.mem_cons_self⟩⟩
  | some first =>
    rw [linkTail_of_head hhead] at hs
    obtain ⟨heap, hmod, heq⟩ := Option.bind_eq_some_iff.mp hs
    obtain rfl := Option.some.inj heq
    cases htail : s.tail with
    | none =>
      rw [htail] at hmod
      exact absurd hmod (by simp [Heap.modify])
    | some t =>
      rw [htail] at hmod
      obtain ⟨hlt, hmem | hdead⟩ := h.tail t htail
      · obtain ⟨e, he⟩ := hmem
        obtain ⟨us, vs, rfl⟩ := List.append_of_mem he
        obtain ⟨heap', hmod', hchain, hfresh, -⟩ := Chain.link_behind h.chain d
        obtain rfl := Option.some.inj (hmod.symm.trans hmod')
        refine ⟨_, hchain, ?_⟩
        intro u hu
        obtain rfl := Option.some.inj hu
        refine ⟨?_, Or.inl ⟨d, by simp⟩⟩
        show s.heap.fresh < heap.fresh
        omega
      · have hload : (s.heap.alloc ⟨d, none⟩).load (some t) = none := by
          rw [Heap.load_some, alloc_dead s _ hdead (by omega)]
        rw [Heap.modify_of_load_none _ hload] at hmod
        exact absurd hmod (by simp)

theorem Shape.removeFront (h : Shape s ns) {p : Option α}
    (hs : llistRemoveFront s = some (p, s')) : ∃ ms, Shape s' ms := by
  rw [llistRemoveFront] at hs
  split at hs
  · obtain ⟨-, rfl⟩ := Prod.mk.inj (Option.some.inj hs)
    exact ⟨ns, h⟩
  · obtain ⟨⟨temp, t⟩, hunlink, hs⟩ := Option.bind_eq_some_iff.mp hs
    obtain ⟨⟨e, u⟩, hrelease, heq⟩ := Option.bind_eq_some_iff.mp hs
    obtain ⟨-, rfl⟩ := Prod.mk.inj (Option.some.inj heq)
    cases ns with
    | nil => exact absurd (hunlink.symm.trans (unlinkFront_eq_none h.chain)) (by simp)
    | cons n ns =>
      obtain ⟨hhead, r, hr, hrest⟩ := h.chain
      have hfirst : unlinkFront s =
          some (n.1, { s with head := r, count := decrement s.count }) := by
        show s.head.bind _ = _
        rw [hhead, Option.bind_some]
        show (s.heap.cell n.1).bind _ = _
        rw [hr, Option.bind_some]
      obtain ⟨rfl, rfl⟩ := Prod.mk.inj (Option.some.inj (hunlink.symm.trans hfirst))
      obtain ⟨heap, hfreed, hfresh, hcell⟩ :=
        releaseNode_spec (s := { s with head := r, count := decrement s.count }) hr
      obtain ⟨-, rfl⟩ := Prod.mk.inj (Option.some.inj (hrelease.symm.trans hfreed))
      refine ⟨ns, Chain.of_notMem hrest h.chain.ne_head hcell, ?_⟩
      intro t ht
      obtain ⟨hlt, hmem⟩ := h.tail t ht
      refine ⟨hfresh.symm ▸ hlt, ?_⟩
      -- `tail` may have been the node that is freed
      by_cases htn : t = n.1
      · exact Or.inr ((hcell t).trans (if_pos htn))
      · rcases hmem with ⟨e, he⟩ | hdead
        · exact Or.inl ⟨e, (List.mem_cons.mp he).resolve_left fun heq => htn (congrArg Prod.fst heq)⟩
        · exact Or.inr (((hcell t).trans (if_neg htn)).trans hdead)

/-- **No call breaks the list**, not even one that loses nodes of it. -/
theorem Shape.step (h : Shape s ns) {c : LlistCall α} {o : Answer α}
    (hs : llistStep s c = some (s', o)) : ∃ ms, Shape s' ms := by
  cases c with
  | insertFront d =>
    obtain ⟨t, ht, heq⟩ := Option.map_eq_some_iff.mp hs
    obtain ⟨rfl, -⟩ := Prod.mk.inj heq
    exact h.insertFront ht
  | insertBack d =>
    obtain ⟨t, ht, heq⟩ := Option.map_eq_some_iff.mp hs
    obtain ⟨rfl, -⟩ := Prod.mk.inj heq
    exact h.insertBack ht
  | push d =>
    obtain ⟨t, ht, heq⟩ := Option.map_eq_some_iff.mp hs
    obtain ⟨rfl, -⟩ := Prod.mk.inj heq
    exact h.insertFront (llistPush_eq s (some d) true ▸ ht)
  | enqueue d =>
    obtain ⟨t, ht, heq⟩ := Option.map_eq_some_iff.mp hs
    obtain ⟨rfl, -⟩ := Prod.mk.inj heq
    exact h.enqueue ht
  | removeFront | pop | dequeue =>
    obtain ⟨⟨p, t⟩, ht, heq⟩ := Option.map_eq_some_iff.mp hs
    obtain ⟨rfl, -⟩ := Prod.mk.inj heq
    exact h.removeFront ht
  | size =>
    obtain ⟨rfl, -⟩ := Prod.mk.inj (Option.some.inj hs)
    exact ⟨ns, h⟩
  | peek | peekTail =>
    obtain ⟨p, -, heq⟩ := Option.map_eq_some_iff.mp hs
    obtain ⟨rfl, -⟩ := Prod.mk.inj heq
    exact ⟨ns, h⟩

/-! ### What the caller can reach -/

/-- The states of a caller that made a list and called functions on it. -/
inductive Reachable : Caller α → Prop where
  | create (calloc : Bool) : Reachable (Caller.create calloc)
  | call {w w' : Caller α} {c : LlistCall α} {o : Answer α} (h : Reachable w)
      (hcall : w.call c = some (w', o)) : Reachable w'

/-- The variable is NULL, or its container holds the nodes `ns`. -/
def Stored (w : Caller α) (ns : List (ℕ × α)) : Prop :=
  match w.llist with
  | none => ns = []
  | some address => ∃ container, w.containers.cell address = some container ∧
      Chain w.nodes container.head ns

variable {w w' : Caller α}

theorem call_of_null (hnull : w.llist = none) (c : LlistCall α) :
    w.call c = some (w, nullAnswer c) := by
  rw [Caller.call, hnull]

/-- **Whatever was called**, the variable leads to a list that ends. -/
theorem Reachable.shape (hw : Reachable w) {address : ℕ} (haddress : w.llist = some address) :
    ∃ container ns, w.containers.cell address = some container ∧ Shape (w.list container) ns := by
  induction hw generalizing address with
  | create calloc =>
    cases calloc with
    | false => exact absurd haddress (by simp [Caller.create])
    | true =>
      obtain rfl := Option.some.inj haddress
      exact ⟨⟨0, none, none⟩, [], rfl, rfl, fun t ht => absurd ht (by simp [Caller.list])⟩
  | @call w w' c o h hcall ih =>
    cases hvar : w.llist with
    | none =>
      rw [call_of_null hvar] at hcall
      obtain ⟨rfl, -⟩ := Prod.mk.inj (Option.some.inj hcall)
      exact absurd (hvar.symm.trans haddress) (by simp)
    | some a =>
      obtain ⟨container, ns, hcell, hshape⟩ := ih hvar
      rw [Caller.call, hvar] at hcall
      obtain ⟨container', hcell', hcall⟩ := Option.bind_eq_some_iff.mp hcall
      obtain rfl := Option.some.inj (hcell.symm.trans hcell')
      obtain ⟨⟨s, p⟩, hstep, hcall⟩ := Option.bind_eq_some_iff.mp hcall
      obtain ⟨containers, hmod, heq⟩ := Option.bind_eq_some_iff.mp hcall
      obtain ⟨rfl, -⟩ := Prod.mk.inj (Option.some.inj heq)
      obtain ⟨containers', hmod', -, hcells⟩ :=
        Heap.modify_of_cell (fun _ => Container.mk s.count s.head s.tail) hcell
      obtain rfl := Option.some.inj (hmod.symm.trans hmod')
      obtain rfl := Option.some.inj haddress
      obtain ⟨ms, hms⟩ := hshape.step hstep
      exact ⟨_, ms, (hcells a).trans (if_pos rfl), hms⟩

/-! ### Destroying it -/

/-- `llist_destroy` does not write to the variable. -/
theorem llistDestroy_llist (h : llistDestroy w = some w') : w'.llist = w.llist := by
  cases hvar : w.llist with
  | none =>
    rw [llistDestroy, hvar] at h
    rw [← Option.some.inj h, hvar]
  | some address =>
    rw [llistDestroy, hvar] at h
    obtain ⟨container, -, h⟩ := Option.bind_eq_some_iff.mp h
    obtain ⟨⟨data, s⟩, -, h⟩ := Option.bind_eq_some_iff.mp h
    obtain ⟨containers, -, heq⟩ := Option.bind_eq_some_iff.mp h
    rw [← Option.some.inj heq]

/-- A variable that points to a freed container. -/
def Dangling (w : Caller α) : Prop :=
  ∃ address, w.llist = some address ∧ w.containers.cell address = none

/-- **Any use of it** reads freed memory. -/
theorem Dangling.faults (h : Dangling w) :
    llistDestroy w = none ∧ ∀ c, w.call c = none := by
  obtain ⟨address, hvar, hgone⟩ := h
  refine ⟨?_, fun c => ?_⟩
  · rw [llistDestroy, hvar]
    show (w.containers.cell address).bind _ = _
    rw [hgone, Option.bind_none]
  · rw [Caller.call, hvar]
    show (w.containers.cell address).bind _ = _
    rw [hgone, Option.bind_none]

/-- **The first call** hands every element to `user_free` and frees every node and the
container, once; then the variable points to the freed container. -/
theorem llistDestroy_spec {address : ℕ} {container : Container} {ns : List (ℕ × α)}
    (hvar : w.llist = some address) (hcell : w.containers.cell address = some container)
    (hchain : Chain w.nodes container.head ns) :
    ∃ w', llistDestroy w = some w' ∧ w'.freed = w.freed ++ ns.map Prod.snd ∧
      (∀ n ∈ ns, w'.nodes.cell n.1 = none) ∧ Dangling w' := by
  obtain ⟨s, hloop, -, hgone, -⟩ := destroyLoop_spec (s := w.list container) hchain
    (Nat.lt_succ_of_le hchain.length_le_fresh)
  obtain ⟨containers, hfree, -, hcells⟩ := Heap.free_of_cell hcell
  refine ⟨{ w with containers, nodes := s.heap, freed := w.freed ++ ns.map Prod.snd }, ?_, rfl,
    hgone, address, hvar, (hcells address).trans (if_pos rfl)⟩
  rw [llistDestroy, hvar]
  show (w.containers.cell address).bind _ = _
  rw [hcell, Option.bind_some]
  show (destroyLoop (w.nodes.fresh + 1) (w.list container)).bind _ = _
  rw [hloop, Option.bind_some]
  show (w.containers.free address).bind _ = _
  rw [hfree, Option.bind_some]

/-- `llist_destroy` as its header has it: every element, every node and the container
are freed once, the variable is NULL, and no call does anything any more. -/
def MeetsDestroy (w : Caller α) : Prop :=
  ∃ w', llistDestroy w = some w' ∧ w'.llist = none ∧
    (∀ ns, Stored w ns → w'.freed = w.freed ++ ns.map Prod.snd ∧
      ∀ n ∈ ns, w'.nodes.cell n.1 = none) ∧
    (∀ address, w.llist = some address → w'.containers.cell address = none) ∧
    (∀ k, destroyTimes (k + 1) w = some w') ∧ ∀ c, w'.call c = some (w', nullAnswer c)

theorem llistDestroy_of_null (hnull : w.llist = none) : llistDestroy w = some w := by
  rw [llistDestroy, hnull]

theorem destroyTimes_of_null (hnull : w.llist = none) (k : ℕ) : destroyTimes k w = some w := by
  induction k with
  | zero => rfl
  | succ k ih => rw [destroyTimes, llistDestroy_of_null hnull, Option.bind_some, ih]

theorem meetsDestroy_of_null (hnull : w.llist = none) : MeetsDestroy w := by
  refine ⟨w, llistDestroy_of_null hnull, hnull, ?_, ?_,
    fun k => destroyTimes_of_null hnull (k + 1), call_of_null hnull⟩
  · intro ns hns
    rw [Stored, hnull] at hns
    subst hns
    simp
  · intro address hsome
    exact absurd (hnull.symm.trans hsome) (by simp)

theorem not_meetsDestroy {address : ℕ} (hvar : w.llist = some address) : ¬ MeetsDestroy w := by
  rintro ⟨w', hdestroy, hnull, -⟩
  rw [llistDestroy_llist hdestroy, hvar] at hnull
  exact absurd hnull (by simp)

/-- **When the header is right**: for a variable that was NULL before.  For every list
that was made and used, the first call frees everything once, and each later use of
the variable, destroying it again or not, works on freed memory. -/
theorem meetsDestroy_iff (hw : Reachable w) :
    (MeetsDestroy w ↔ w.llist = none) ∧
      (w.llist ≠ none → ∃ ns w', Stored w ns ∧ llistDestroy w = some w' ∧
        w'.freed = w.freed ++ ns.map Prod.snd ∧ (∀ n ∈ ns, w'.nodes.cell n.1 = none) ∧
        Dangling w' ∧ (∀ k, destroyTimes (k + 2) w = none) ∧ ∀ c, w'.call c = none) := by
  constructor
  · constructor
    · intro hmeets
      by_contra hvar
      obtain ⟨address, haddress⟩ := Option.ne_none_iff_exists'.mp hvar
      exact not_meetsDestroy haddress hmeets
    · exact meetsDestroy_of_null
  · intro hvar
    obtain ⟨address, haddress⟩ := Option.ne_none_iff_exists'.mp hvar
    obtain ⟨container, ns, hcell, hshape⟩ := hw.shape haddress
    obtain ⟨w', hdestroy, hfreed, hgone, hdangling⟩ :=
      llistDestroy_spec haddress hcell hshape.chain
    refine ⟨ns, w', ?_, hdestroy, hfreed, hgone, hdangling, fun k => ?_, hdangling.faults.2⟩
    · rw [Stored, haddress]
      exact ⟨container, hcell, hshape.chain⟩
    · rw [destroyTimes, hdestroy, Option.bind_some, destroyTimes, hdangling.faults.1,
        Option.bind_none]

/-- A list with three elements: all are freed, from the front, and the variable dangles. -/
theorem meetsDestroy_three :
    ∃ w : Caller ℕ, (((Caller.create true).call (.enqueue 1)).bind fun r =>
        (r.1.call (.enqueue 2)).bind fun r => r.1.call (.push 3)) = some (w, .done) ∧
      ¬ MeetsDestroy w ∧ ∃ w', llistDestroy w = some w' ∧ w'.freed = [3, 1, 2] ∧ Dangling w' ∧
        ∀ c, w'.call c = none := by
  have hone : Reachable (α := ℕ) _ := (Reachable.create true).call (c := .enqueue 1) rfl
  have htwo : Reachable _ := hone.call (c := .enqueue 2) rfl
  have hw : Reachable _ := htwo.call (c := .push 3) rfl
  obtain ⟨hmeets, hlater⟩ := meetsDestroy_iff hw
  obtain ⟨ns, w', -, hdestroy, -, -, hdangling, -, hcalls⟩ := hlater (Option.some_ne_none 0)
  exact ⟨_, rfl, mt hmeets.mp (Option.some_ne_none 0), w', hdestroy,
    Option.some.inj (congrArg (Option.map Caller.freed) hdestroy).symm, hdangling, hcalls⟩

/-- After `llist_create` and `llist_destroy` the variable is not NULL. -/
theorem destroyed_not_null : ¬ ∀ w : Caller ℕ, Reachable w → MeetsDestroy w := by
  intro h
  exact not_meetsDestroy rfl (h (Caller.create true) (Reachable.create true))

end LinkedListLib
