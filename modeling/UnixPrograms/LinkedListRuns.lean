/-
Runs of one thread on a linked list, against a sequence.

* `LlistCall`, `llistStep` — the calls on one list, as steps that may fault;
* `seqStep` — the same calls on the sequence the list stands for;
* `TailFits` — the states in which `tail` serves the call;
* `llist_refines_iff` — a run refines the sequence exactly when every call is
  made in such a state.

`llist_insert_back` never sets `tail` and `llist_remove_front` never resets it,
so after a mixture of calls `tail` is NULL, a freed node, or a node in the
middle; `llist_enqueue` writes through it and `llist_peek_tail` reads it.
-/
import UnixPrograms.LinkedList

namespace LinkedListLib

open Memory Machine

variable {α : Type}

/-- The calls on a list. -/
inductive LlistCall (α : Type) where
  | insertFront (data : α)
  | insertBack (data : α)
  | push (data : α)
  | enqueue (data : α)
  | removeFront
  | pop
  | dequeue
  | size
  | peek
  | peekTail
  deriving DecidableEq

/-- What a call returns: nothing, a size, or a data pointer (NULL is `none`). -/
inductive Answer (α : Type) where
  | done
  | size (count : ℕ)
  | data (p : Option α)
  deriving DecidableEq

/-- One call, its allocation succeeding. -/
def llistStep (s : Llist α) : LlistCall α → Option (Llist α × Answer α)
  | .insertFront d => (llistInsertFront s (some d) true).map fun s => (s, .done)
  | .insertBack d => (llistInsertBack s (some d) true).map fun s => (s, .done)
  | .push d => (llistPush s (some d) true).map fun s => (s, .done)
  | .enqueue d => (llistEnqueue s (some d) true).map fun s => (s, .done)
  | .removeFront => (llistRemoveFront s).map fun r => (r.2, .data r.1)
  | .pop => (llistPop s).map fun r => (r.2, .data r.1)
  | .dequeue => (llistDequeue s).map fun r => (r.2, .data r.1)
  | .size => some (s, .size (llistSize s))
  | .peek => (llistPeek s).map fun p => (s, .data p)
  | .peekTail => (llistPeekTail s).map fun p => (s, .data p)

/-- The calls on a sequence. -/
def seqStep (xs : List α) : LlistCall α → List α × Answer α
  | .insertFront d | .push d => (d :: xs, .done)
  | .insertBack d | .enqueue d => (xs ++ [d], .done)
  | .removeFront | .pop | .dequeue => (xs.tail, .data xs.head?)
  | .size => (xs, .size xs.length)
  | .peek => (xs, .data xs.head?)
  | .peekTail => (xs, .data xs.getLast?)

/-- The sequence as a machine: a step answers as `seqStep` does. -/
def SeqMoves (xs : List α) (c : LlistCall α) (a : Answer α) (ys : List α) : Prop :=
  seqStep xs c = (ys, a)

/-- The list holds the sequence: its nodes carry it, and its size is its length. -/
def Represents (s : Llist α) (xs : List α) : Prop :=
  (∃ ns, Chain s.heap s.head ns ∧ ns.map Prod.snd = xs) ∧ llistSize s = xs.length

/-- The states in which a call finds what it needs: an insertion does not take
`count` past its largest value, `llist_enqueue` finds an empty list or `tail` at
the last node, and `llist_peek_tail` finds NULL in the `tail` of an empty list
and the data of the last node through the `tail` of any other. -/
def TailFits (s : Llist α) : LlistCall α → Prop
  | .insertFront _ | .insertBack _ | .push _ => s.count + 1 < 2 ^ 64
  | .enqueue _ => s.count + 1 < 2 ^ 64 ∧ (s.head = none ∨ s.tail = lastNode s)
  | .peekTail =>
    if s.head = none then s.tail = none
    else (s.heap.load s.tail).map Node.data = (s.heap.load (lastNode s)).map Node.data
  | _ => True

/-- What a run keeps: the list holds `xs`, and `tail` is NULL, a node of the
list, or a node that has been freed. -/
def Holds (s : Llist α) (xs : List α) : Prop :=
  ∃ ns, Nodes s ns ∧ ns.map Prod.snd = xs ∧ s.count < 2 ^ 64 ∧
    ∀ t, s.tail = some t → t < s.heap.fresh ∧ ((∃ d, (t, d) ∈ ns) ∨ s.heap.cell t = none)

variable {s s' : Llist α} {xs ys : List α} {ns ms : List (ℕ × α)} {d : α}

theorem holds_llistCreate : Holds (llistCreate : Llist α) [] :=
  ⟨[], nodes_llistCreate, rfl, Nat.two_pow_pos 64, fun t ht => absurd ht (by simp [llistCreate])⟩

theorem Holds.represents (h : Holds s xs) : Represents s xs := by
  obtain ⟨ns, hnodes, rfl, _⟩ := h
  exact ⟨⟨ns, hnodes.chain, rfl⟩, hnodes.count.trans (List.length_map _).symm⟩

theorem Represents.count (h : Represents s xs) : s.count = xs.length := h.2

/-! ### The calls that do what the sequence does -/

/-- An insertion keeps `tail` known: it moves to the new node or stays. -/
theorem Inserted.holds (hi : Inserted s s' ms)
    (htail : ∀ t, s.tail = some t →
      t < s.heap.fresh ∧ ((∃ d, (t, d) ∈ ns) ∨ s.heap.cell t = none))
    (hsub : ∀ n ∈ ns, n ∈ ms) (hnew : (s.heap.fresh, d) ∈ ms) (hlen : ms.length < 2 ^ 64) :
    Holds s' (ms.map Prod.snd) := by
  refine ⟨ms, hi.nodes, rfl, by rw [hi.nodes.count]; exact hlen, ?_⟩
  intro t ht
  rw [hi.fresh]
  rcases hi.tail with hold | hfresh
  · obtain ⟨hlt, hmem⟩ := htail t (hold ▸ ht)
    refine ⟨by omega, ?_⟩
    rcases hmem with ⟨e, he⟩ | hdead
    · exact Or.inl ⟨e, hsub _ he⟩
    · exact Or.inr (hi.dead t hdead (by omega))
  · obtain rfl := Option.some.inj (hfresh.symm.trans ht)
    exact ⟨Nat.lt_succ_self _, Or.inl ⟨d, hnew⟩⟩

theorem Holds.insertFront (h : Holds s xs) (hc : s.count + 1 < 2 ^ 64) (d : α) :
    ∃ s', llistInsertFront s (some d) true = some s' ∧ Holds s' (d :: xs) := by
  obtain ⟨ns, hnodes, rfl, _, htail⟩ := h
  obtain ⟨s', hs', hi⟩ := linkFront_spec hnodes d hc
  refine ⟨s', hs', hi.holds htail (fun n hn => List.mem_cons_of_mem _ hn)
    List.mem_cons_self ?_⟩
  rwa [hnodes.count] at hc

/-- Both insertions at the back. -/
theorem Holds.insertedBack (h : Holds s xs) (hc : s.count + 1 < 2 ^ 64) (d : α)
    {insert : Option (Llist α)}
    (hspec : ∀ ns, Nodes s ns →
      ∃ s', insert = some s' ∧ Inserted s s' (ns ++ [(s.heap.fresh, d)])) :
    ∃ s', insert = some s' ∧ Holds s' (xs ++ [d]) := by
  obtain ⟨ns, hnodes, rfl, _, htail⟩ := h
  obtain ⟨s', hs', hi⟩ := hspec ns hnodes
  have hholds := hi.holds (d := d) htail (fun n hn => List.mem_append_left _ hn)
    (by simp) (by rwa [List.length_append, List.length_singleton, ← hnodes.count])
  rw [List.map_append] at hholds
  exact ⟨s', hs', hholds⟩

theorem Holds.removeFront (h : Holds s xs) :
    ∃ s', llistRemoveFront s = some (xs.head?, s') ∧ Holds s' xs.tail := by
  obtain ⟨ns, hnodes, rfl, hlt, htail⟩ := h
  cases ns with
  | nil => exact ⟨s, llistRemoveFront_nil hnodes, [], hnodes, rfl, hlt, htail⟩
  | cons n ns =>
    obtain ⟨t, hremove, hrest, hsame, hfresh, hfreed⟩ := llistRemoveFront_cons hnodes hlt
    refine ⟨t, hremove, ns, hrest, rfl, ?_, ?_⟩
    · have hcount := hnodes.count
      rw [List.length_cons] at hcount
      rw [hrest.count]
      omega
    · -- `tail` may have pointed to the removed node: it is freed now
      intro u hu
      obtain ⟨hltu, hmem⟩ := htail u (hsame.symm.trans hu)
      refine ⟨hfresh ▸ hltu, ?_⟩
      rw [hfreed]
      by_cases hun : u = n.1
      · exact Or.inr (if_pos hun)
      · rw [if_neg hun]
        refine hmem.imp_left fun ⟨e, he⟩ => ⟨e, ?_⟩
        exact (List.mem_cons.mp he).resolve_left fun heq => hun (congrArg Prod.fst heq)

theorem Holds.peek (h : Holds s xs) : llistPeek s = some xs.head? := by
  obtain ⟨ns, hnodes, rfl, _⟩ := h
  cases ns with
  | nil =>
    have hhead : s.head = none := hnodes.chain
    rw [llistPeek, hhead]
    rfl
  | cons n ns =>
    obtain ⟨hhead, r, hr, _⟩ := hnodes.chain
    rw [llistPeek, hhead]
    show (s.heap.cell n.1).map _ = _
    rw [hr]
    rfl

/-- The data of the last node is the last element. -/
theorem Holds.load_lastNode (h : Holds s xs) :
    (s.heap.load (lastNode s)).map Node.data = xs.getLast? := by
  obtain ⟨ns, hnodes, rfl, _⟩ := h
  rcases List.eq_nil_or_concat' ns with rfl | ⟨ms, n, rfl⟩
  · have hhead : s.head = none := hnodes.chain
    rw [lastNode, hhead]
    rfl
  · obtain ⟨_, hcell⟩ := chain_append_singleton.mp hnodes.chain
    rw [hnodes.lastNode_append, Heap.load_some, hcell]
    simp

theorem Holds.head_eq_none (h : Holds s xs) : s.head = none ↔ xs = [] := by
  obtain ⟨ns, hnodes, rfl, _⟩ := h
  rw [hnodes.head_eq_none, List.map_eq_nil_iff]

/-- `llist_peek_tail` answers with the last element exactly when `tail` fits. -/
theorem Holds.peekTail_iff (h : Holds s xs) :
    llistPeekTail s = some xs.getLast? ↔ TailFits s .peekTail := by
  rw [TailFits, h.load_lastNode, llistPeekTail]
  by_cases hhead : s.head = none
  · rw [if_pos hhead, h.head_eq_none.mp hhead]
    cases s.tail with
    | none => simp
    | some t => cases hcell : s.heap.cell t <;> simp [hcell]
  · rw [if_neg hhead]
    have hne : xs ≠ [] := fun hnil => hhead (h.head_eq_none.mpr hnil)
    rw [List.getLast?_eq_some_getLast hne]
    cases s.tail with
    | none => simp
    | some t => cases hcell : s.heap.cell t <;> simp [hcell]

/-- **The step lemma.**  A call that `tail` and `count` fit does what the
sequence does, and the list goes on holding it. -/
theorem Holds.step (h : Holds s xs) {c : LlistCall α} (hfits : TailFits s c) :
    ∃ s' o ys, llistStep s c = some (s', o) ∧ SeqMoves xs c o ys ∧ Holds s' ys := by
  cases c with
  | insertFront d =>
    obtain ⟨s', hs', hholds⟩ := h.insertFront hfits d
    exact ⟨s', .done, d :: xs, by rw [llistStep, hs']; rfl, rfl, hholds⟩
  | insertBack d =>
    obtain ⟨s', hs', hholds⟩ := h.insertedBack hfits d fun ns hn => linkBack_spec hn d hfits
    exact ⟨s', .done, xs ++ [d], by rw [llistStep, llistInsertBack_some, hs']; rfl, rfl, hholds⟩
  | push d =>
    obtain ⟨s', hs', hholds⟩ := h.insertFront hfits d
    exact ⟨s', .done, d :: xs, by rw [llistStep, llistPush_eq, hs']; rfl, rfl, hholds⟩
  | enqueue d =>
    obtain ⟨s', hs', hholds⟩ :=
      h.insertedBack hfits.1 d fun ns hn => linkTail_spec hn d hfits.1 hfits.2
    exact ⟨s', .done, xs ++ [d], by rw [llistStep, llistEnqueue_some, hs']; rfl, rfl, hholds⟩
  | removeFront | pop | dequeue =>
    obtain ⟨s', hs', hholds⟩ := h.removeFront
    refine ⟨s', .data xs.head?, xs.tail, ?_, rfl, hholds⟩
    show (llistRemoveFront s).map _ = _
    rw [hs']
    rfl
  | size =>
    exact ⟨s, .size xs.length, xs, by rw [llistStep, h.represents.2], rfl, h⟩
  | peek =>
    exact ⟨s, .data xs.head?, xs, by rw [llistStep, h.peek]; rfl, rfl, h⟩
  | peekTail =>
    exact ⟨s, .data xs.getLast?, xs,
      by rw [llistStep, h.peekTail_iff.mpr hfits]; rfl, rfl, h⟩

/-! ### The calls that do not -/

theorem linkFront_count {a : ℕ} (h : linkFront s a = some s') :
    s'.count = increment s.count := by
  obtain ⟨heap, _, heq⟩ := Option.bind_eq_some_iff.mp h
  obtain rfl := Option.some.inj heq
  rfl

theorem linkBack_count {a : ℕ} (h : linkBack s a = some s') :
    s'.count = increment s.count := by
  obtain ⟨⟨head, heap⟩, _, heq⟩ := Option.bind_eq_some_iff.mp h
  obtain rfl := Option.some.inj heq
  rfl

theorem linkTail_fields {a : ℕ} (h : linkTail s a = some s') :
    s'.count = increment s.count ∧ s'.tail = some a := by
  rw [linkTail] at h
  cases hhead : s.head with
  | none =>
    rw [hhead] at h
    obtain rfl := Option.some.inj h
    exact ⟨rfl, rfl⟩
  | some first =>
    rw [hhead] at h
    obtain ⟨_, _, h⟩ := Option.bind_eq_some_iff.mp h
    obtain rfl := Option.some.inj h
    exact ⟨rfl, rfl⟩

/-- A size that wrapped to 0 is not the length of the longer sequence. -/
theorem Holds.count_fits (h : Holds s xs) (hcount : s'.count = increment s.count)
    (hrep : Represents s' ys) (hlen : ys.length = xs.length + 1) : s.count + 1 < 2 ^ 64 := by
  obtain ⟨_, _, _, hlt, _⟩ := id h
  rw [hrep.count, hlen, ← h.represents.count] at hcount
  rw [increment] at hcount
  omega

/-- When `llist_enqueue` appends, `tail` was the last node: through NULL and
through a freed node it faults, and behind an earlier node it cuts the list. -/
theorem Holds.tail_fits (h : Holds s xs) {d : α} (hhead : s.head ≠ none)
    (hlink : linkTail (withNode s d) s.heap.fresh = some s') (hrep : Represents s' (xs ++ [d])) :
    s.tail = lastNode s := by
  obtain ⟨ns, hnodes, rfl, _, htail⟩ := h
  obtain ⟨first, hfirst⟩ := Option.ne_none_iff_exists'.mp hhead
  -- the write did not fault, so `tail` points to a block
  have hfault : (s.heap.alloc ⟨d, none⟩).load s.tail ≠ none := by
    intro hload
    have hmod := Heap.modify_of_load_none
      (fun m : Node α => { m with next := some s.heap.fresh }) hload
    rw [linkTail_of_head hfirst, hmod, Option.bind_none] at hlink
    exact absurd hlink (by simp)
  obtain ⟨t, ht⟩ : ∃ t, s.tail = some t :=
    Option.ne_none_iff_exists'.mp fun hnone => hfault (by rw [hnone, Heap.load_none])
  obtain ⟨hlt, hmem | hdead⟩ := htail t ht
  · obtain ⟨e, he⟩ := hmem
    obtain ⟨us, vs, rfl⟩ := List.append_of_mem he
    obtain ⟨heap, hmod, hchain, _, _⟩ := Chain.link_behind hnodes.chain d
    rw [linkTail_of_head hfirst, ht, hmod, Option.bind_some] at hlink
    obtain rfl := Option.some.inj hlink
    obtain ⟨⟨ms, hms, hdata⟩, _⟩ := hrep
    -- the list after the write is as long as the sequence only if nothing was cut
    have hlen := congrArg List.length hdata
    rw [hms.unique hchain] at hlen
    simp only [List.length_map, List.length_append, List.length_cons, List.length_nil] at hlen
    obtain rfl := List.length_eq_zero_iff.mp (show vs.length = 0 by omega)
    rw [ht, hnodes.lastNode_append]
  · refine absurd ?_ hfault
    rw [ht, Heap.load_some]
    exact alloc_dead s _ hdead (by omega)

/-- A call that does what the sequence does found `tail` and `count` fit. -/
theorem Holds.fits (h : Holds s xs) {c : LlistCall α} {o : Answer α}
    (hstep : llistStep s c = some (s', o)) (hmoves : SeqMoves xs c o ys)
    (hrep : Represents s' ys) : TailFits s c := by
  cases c with
  | insertFront d | push d =>
    obtain ⟨t, ht, heq⟩ := Option.map_eq_some_iff.mp hstep
    obtain ⟨rfl, rfl⟩ := Prod.mk.inj heq
    obtain ⟨rfl, _⟩ := Prod.mk.inj hmoves
    exact h.count_fits (linkFront_count (s := withNode s d) ht) hrep (List.length_cons)
  | insertBack d =>
    obtain ⟨t, ht, heq⟩ := Option.map_eq_some_iff.mp hstep
    obtain ⟨rfl, rfl⟩ := Prod.mk.inj heq
    obtain ⟨rfl, _⟩ := Prod.mk.inj hmoves
    exact h.count_fits (linkBack_count (s := withNode s d) ht) hrep (by simp)
  | enqueue d =>
    obtain ⟨t, ht, heq⟩ := Option.map_eq_some_iff.mp hstep
    obtain ⟨rfl, rfl⟩ := Prod.mk.inj heq
    obtain ⟨rfl, _⟩ := Prod.mk.inj hmoves
    have hc := h.count_fits (linkTail_fields (s := withNode s d) ht).1 hrep (by simp)
    refine ⟨hc, ?_⟩
    by_cases hhead : s.head = none
    · exact Or.inl hhead
    · exact Or.inr (h.tail_fits hhead ht hrep)
  | removeFront | pop | dequeue | size | peek => trivial
  | peekTail =>
    obtain ⟨p, hp, heq⟩ := Option.map_eq_some_iff.mp hstep
    obtain ⟨rfl, rfl⟩ := Prod.mk.inj heq
    obtain ⟨_, ho⟩ := Prod.mk.inj hmoves
    rw [← h.peekTail_iff, hp, ← Answer.data.inj ho]

/-! ### Runs -/

/-- **Exactly when the library is a sequence.**  A run of calls on a fresh list
faults nowhere, answers as the sequence does and holds the sequence after every
call if and only if `tail` and `count` fit every call of it. -/
theorem llist_refines_iff (calls : List (LlistCall α)) :
    RunRefines llistStep SeqMoves Represents llistCreate [] calls ↔
      RunMeets llistStep TailFits llistCreate calls := by
  refine runRefines_iff_runMeets Holds (fun s xs c h => ⟨?_, fun hfits => ?_⟩) ?_
    holds_llistCreate
  · rintro ⟨s', o, ys, hstep, hmoves, hrep⟩
    exact h.fits hstep hmoves hrep
  · obtain ⟨s', o, ys, hstep, hmoves, hholds⟩ := h.step hfits
    exact ⟨s', o, ys, hstep, hmoves, hholds.represents⟩
  · intro s xs c s' o ys h hstep hmoves hrep
    obtain ⟨t, p, zs, hstep', hmoves', hholds⟩ := h.step (h.fits hstep hmoves hrep)
    obtain ⟨rfl, rfl⟩ := Prod.mk.inj (Option.some.inj (hstep.symm.trans hstep'))
    obtain ⟨rfl, _⟩ := Prod.mk.inj (hmoves.symm.trans hmoves')
    exact hholds

/-- `llist_insert_back` leaves `tail` NULL, and `llist_enqueue` writes through it. -/
theorem llist_enqueue_through_null :
    ¬∀ calls : List (LlistCall ℕ),
      RunRefines llistStep SeqMoves Represents llistCreate [] calls := by
  intro h
  obtain ⟨s, o, xs, hstep, _, _, hrest⟩ :=
    runRefines_cons.mp (h [.insertBack 1, .enqueue 2])
  obtain ⟨t, p, ys, hfault, _⟩ := runRefines_cons.mp hrest
  obtain ⟨rfl, rfl⟩ := Prod.mk.inj (Option.some.inj hstep)
  exact absurd hfault (by simp [llistStep, llistEnqueue, createNode, linkTail, Heap.modify,
    llistCreate])

end LinkedListLib
