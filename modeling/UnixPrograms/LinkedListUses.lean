/-
The three ways in which the linked list is meant to be used.

Only `llist_enqueue` trusts `tail`, and no removal resets it: after the list was
emptied it is the address of a freed node.  That does no harm as long as a list is
used as one thing only:

* `Use` — a list, a stack or a queue, and the calls of each;
* `TailServes` — what a use keeps: in a queue that is not empty `tail` is the last node;
* `one_use_refines` — any run of the calls of one use does what the sequence does, and
  `llist_destroy` then hands out what is left, front to back.
-/
import UnixPrograms.LinkedListDestroy

namespace LinkedListLib

open Memory Machine

variable {α : Type}

/-- The documented uses. -/
inductive Use where
  | list
  | stack
  | queue
  deriving DecidableEq

/-- The calls of a use; any list can be asked for its size. -/
def Use.allows : Use → LlistCall α → Prop
  | .list, .insertFront _ | .list, .insertBack _ | .list, .removeFront => True
  | .stack, .push _ | .stack, .pop => True
  | .queue, .enqueue _ | .queue, .dequeue => True
  | _, .size => True
  | _, _ => False

/-- A run of the sequence: what it holds then, and what it answered. -/
def seqRun : List α → List (LlistCall α) → List α × List (Answer α)
  | xs, [] => (xs, [])
  | xs, c :: calls =>
    let (ys, o) := seqStep xs c
    let (zs, os) := seqRun ys calls
    (zs, o :: os)

/-- The allocations of a run succeed: at no time are there as many elements as there
are addresses. -/
def Room : List α → List (LlistCall α) → Prop
  | xs, [] => xs.length < 2 ^ 64
  | xs, c :: calls => xs.length < 2 ^ 64 ∧ Room (seqStep xs c).1 calls

/-- As a queue, the list is empty or `tail` is its last node. -/
def TailServes (use : Use) (s : Llist α) : Prop :=
  use = .queue → s.head = none ∨ s.tail = lastNode s

variable {s s' : Llist α} {xs ys : List α} {use : Use} {c : LlistCall α}

theorem Room.length_lt {calls : List (LlistCall α)} (h : Room xs calls) : xs.length < 2 ^ 64 := by
  cases calls with
  | nil => exact h
  | cons c calls => exact h.1

/-- In its use, a call finds `tail` and `count` as it needs them. -/
theorem Holds.tailFits (h : Holds s xs) (hserves : TailServes use s) (hallows : use.allows c)
    (hlen : (seqStep xs c).1.length < 2 ^ 64) : TailFits s c := by
  have hcount := h.represents.count
  cases c with
  | insertFront d | push d =>
    show s.count + 1 < 2 ^ 64
    rwa [hcount]
  | insertBack d =>
    show s.count + 1 < 2 ^ 64
    rwa [seqStep, List.length_append, ← hcount] at hlen
  | enqueue d =>
    rw [seqStep, List.length_append, ← hcount] at hlen
    refine ⟨hlen, hserves ?_⟩
    cases use <;> first | rfl | exact absurd hallows not_false
  | peekTail => cases use <;> exact absurd hallows not_false
  | removeFront | pop | dequeue | size | peek => trivial

/-- `llist_enqueue` leaves `tail` at the last node. -/
theorem enqueue_lastNode (h : Holds s xs) {d : α} (hfits : TailFits s (.enqueue d))
    (hs : llistEnqueue s (some d) true = some s') : s'.tail = lastNode s' := by
  obtain ⟨ns, hnodes, -⟩ := h
  rw [llistEnqueue_some] at hs
  obtain ⟨t, ht, hi⟩ := linkTail_spec hnodes d hfits.1 hfits.2
  obtain rfl := Option.some.inj (hs.symm.trans ht)
  rw [(linkTail_fields hs).2, hi.nodes.lastNode_append]

/-- A removal leaves `tail` at the last node, if there is one left. -/
theorem removeFront_lastNode (h : Holds s xs) (hserves : s.head = none ∨ s.tail = lastNode s)
    {p : Option α} (hs : llistRemoveFront s = some (p, s')) :
    s'.head = none ∨ s'.tail = lastNode s' := by
  obtain ⟨ns, hnodes, -, hlt, -⟩ := h
  cases ns with
  | nil =>
    rw [llistRemoveFront_nil hnodes] at hs
    obtain ⟨-, rfl⟩ := Prod.mk.inj (Option.some.inj hs)
    exact Or.inl hnodes.chain
  | cons n ns =>
    obtain ⟨t, ht, hrest, htail, -⟩ := llistRemoveFront_cons hnodes hlt
    obtain ⟨-, rfl⟩ := Prod.mk.inj (Option.some.inj (ht.symm.trans hs))
    rcases List.eq_nil_or_concat' ns with rfl | ⟨ms, m, rfl⟩
    · exact Or.inl hrest.chain
    · -- the last node of two or more is not the one that was removed
      have hhead : s.head ≠ none := fun hnone =>
        absurd (hnodes.head_eq_none.mp hnone) (by simp)
      rw [← List.cons_append] at hnodes
      rw [htail, hserves.resolve_left hhead, hnodes.lastNode_append, hrest.lastNode_append]
      exact Or.inr rfl

/-- **The step lemma**: a use keeps `tail` as it needs it. -/
theorem TailServes.step (hserves : TailServes use s) (h : Holds s xs) (hallows : use.allows c)
    (hfits : TailFits s c) {o : Answer α} (hs : llistStep s c = some (s', o)) :
    TailServes use s' := by
  rintro rfl
  cases c with
  | enqueue d =>
    obtain ⟨t, ht, heq⟩ := Option.map_eq_some_iff.mp hs
    obtain ⟨rfl, -⟩ := Prod.mk.inj heq
    exact Or.inr (enqueue_lastNode h hfits ht)
  | dequeue =>
    obtain ⟨⟨p, t⟩, ht, heq⟩ := Option.map_eq_some_iff.mp hs
    obtain ⟨rfl, -⟩ := Prod.mk.inj heq
    exact removeFront_lastNode h (hserves rfl) ht
  | size =>
    obtain ⟨rfl, -⟩ := Prod.mk.inj (Option.some.inj hs)
    exact hserves rfl
  | insertFront | insertBack | push | removeFront | pop | peek | peekTail =>
    exact absurd hallows not_false

/-- **The run lemma.** -/
theorem Holds.run_use {calls : List (LlistCall α)} (h : Holds s xs) (hserves : TailServes use s)
    (hallows : ∀ c ∈ calls, use.allows c) (hroom : Room xs calls) :
    ∃ s', run llistStep s calls = some (s', (seqRun xs calls).2) ∧
      Holds s' (seqRun xs calls).1 := by
  induction calls generalizing s xs with
  | nil => exact ⟨s, rfl, h⟩
  | cons c calls ih =>
    have hc := hallows c List.mem_cons_self
    have hfits := h.tailFits hserves hc hroom.2.length_lt
    obtain ⟨t, o, ys, hstep, hmoves, hholds⟩ := h.step hfits
    have hseq : seqStep xs c = (ys, o) := hmoves
    have hrest := hroom.2
    rw [hseq] at hrest
    obtain ⟨s', hrun, hend⟩ := ih hholds (hserves.step h hc hfits hstep)
      (fun c hc => hallows c (List.mem_cons_of_mem _ hc)) hrest
    refine ⟨s', ?_, ?_⟩
    · simp only [run, hstep, hrun, seqRun, hseq, Option.map_some]
    · simp only [seqRun, hseq]
      exact hend

/-- A caller whose variable leads to the list. -/
def Caller.holding (s : Llist α) : Caller α :=
  ⟨some 0, Heap.empty.alloc ⟨s.count, s.head, s.tail⟩, s.heap, []⟩

theorem Holds.destroy (h : Holds s xs) :
    ∃ w, llistDestroy (Caller.holding s) = some w ∧ w.freed = xs := by
  obtain ⟨ns, hnodes, rfl, -⟩ := h
  obtain ⟨w, hw, hfreed, -⟩ := llistDestroy_spec (w := Caller.holding s) rfl
    (Heap.alloc_cell_fresh _ _) hnodes.chain
  exact ⟨w, hw, hfreed⟩

theorem Holds.remove_nothing (h : Holds s []) : llistRemoveFront s = some (none, s) := by
  obtain ⟨ns, hnodes, hmap, -⟩ := h
  obtain rfl := List.map_eq_nil_iff.mp hmap
  exact llistRemoveFront_nil hnodes

/-- **One use at a time.**  A run of the calls of one use, on a list that was just
made, faults nowhere and answers as the sequence does; the list then holds what the
sequence holds, a removal from an empty one changes nothing, and `llist_destroy` hands
out every element, once and in order. -/
theorem one_use_refines (use : Use) (calls : List (LlistCall α))
    (hallows : ∀ c ∈ calls, use.allows c) (hroom : Room [] calls) :
    ∃ s, run llistStep llistCreate calls = some (s, (seqRun [] calls).2) ∧
      Represents s (seqRun [] calls).1 ∧
      ((seqRun [] calls).1 = [] → llistRemoveFront s = some (none, s)) ∧
      ∃ w, llistDestroy (Caller.holding s) = some w ∧ w.freed = (seqRun [] calls).1 := by
  have hserves : TailServes use (llistCreate : Llist α) := fun _ => Or.inl rfl
  obtain ⟨s, hrun, hholds⟩ := holds_llistCreate.run_use hserves hallows hroom
  refine ⟨s, hrun, hholds.represents, fun hnil => ?_, hholds.destroy⟩
  rw [hnil] at hholds
  exact hholds.remove_nothing

/-- A queue that is emptied and filled again. -/
theorem one_use_refines_refilled :
    ∃ s, run llistStep llistCreate [.enqueue 1, .dequeue, .enqueue 2, .enqueue 3] =
        some (s, (seqRun [] [.enqueue 1, .dequeue, .enqueue 2, .enqueue 3]).2) ∧
      Represents s (seqRun [] [.enqueue 1, .dequeue, .enqueue 2, .enqueue 3]).1 ∧
      ((seqRun [] [.enqueue 1, .dequeue, .enqueue 2, .enqueue 3]).1 = [] →
        llistRemoveFront s = some (none, s)) ∧
      ∃ w, llistDestroy (Caller.holding s) = some w ∧
        w.freed = (seqRun [] [.enqueue 1, .dequeue, .enqueue 2, .enqueue (3 : ℕ)]).1 :=
  one_use_refines .queue [.enqueue 1, .dequeue, .enqueue 2, .enqueue 3] (by simp [Use.allows])
    (by simp [Room, seqStep])

end LinkedListLib
