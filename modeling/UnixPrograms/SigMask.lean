/-
The signal mask under the calls of `sig_handler_lib.c`.

* `sigemptyset`, `sigaddset`, `sigfillset`, `sigprocmask` — as POSIX has them;
* `blockSignals`, `unblockSignals`, `blockSignal`, `blockAllSignals`,
  `unblockAllSignals` — the calls, with the value each returns and the mask it
  leaves;
* `RefStep` — what the calls are for, as set operations; a call that fails leaves
  the mask as it was;
* `mask_refines_iff` — when a run of calls follows the reference.

`SIG_UNBLOCK` with an empty set takes nothing out of the mask.
-/
import Mathlib.Tactic
import Mathlib.Data.Finset.Image
import UnixPrograms.Machine

namespace SigMaskLib

open Machine

/-- The signals of a platform: those that `sigaddset` knows, and those of them
that a mask can hold. -/
structure Signals where
  sigrtmax : ℤ
  valid : Finset ℤ
  blockable : Finset ℤ
  blockable_subset : blockable ⊆ valid
  valid_range : ∀ s ∈ valid, 1 ≤ s ∧ s ≤ sigrtmax

/-- The mask of the process: the kernel keeps the other signals out of it. -/
@[ext] structure Mask (S : Signals) where
  signals : Finset ℤ
  subset_blockable : signals ⊆ S.blockable

variable {S : Signals}

/-! ### The C library -/

def sigBlock : ℤ := 0

def sigUnblock : ℤ := 1

def sigemptyset : ℤ × Finset ℤ := (0, ∅)

def sigfillset (S : Signals) : ℤ × Finset ℤ := (0, S.valid)

def sigaddset (S : Signals) (set : Finset ℤ) (signum : ℤ) : ℤ × Finset ℤ :=
  if signum ∈ S.valid then (0, insert signum set) else (-1, set)

/-- `sigprocmask`: a `how` that is none of the two is refused. -/
def sigprocmask (how : ℤ) (set : Finset ℤ) (mask : Mask S) : ℤ × Mask S :=
  if how = sigBlock then
    (0, ⟨mask.signals ∪ set ∩ S.blockable,
      Finset.union_subset mask.subset_blockable Finset.inter_subset_right⟩)
  else if how = sigUnblock then
    (0, ⟨mask.signals \ set, Finset.sdiff_subset.trans mask.subset_blockable⟩)
  else (-1, mask)

/-! ### The calls -/

/-- The loop over the `n` arguments from number `i` on. -/
def addSignals (S : Signals) (va : ℕ → ℤ) : ℕ → ℕ → Finset ℤ → ℤ × Finset ℤ
  | 0, _, set => (0, set)
  | n + 1, i, set =>
    let (result, set) := sigaddset S set (va i)
    if result = -1 then (result, set) else addSignals S va n (i + 1) set

/-- The body of `block_signals` and `unblock_signals`; `va` are the variadic
arguments. -/
def changeSignals (how : ℤ) (numSignals : ℤ) (va : ℕ → ℤ) (mask : Mask S) : ℤ × Mask S :=
  let (result, set) := sigemptyset
  if result = -1 then (1, mask)
  else
    let (result, set) := addSignals S va numSignals.toNat 0 set
    if result = -1 then (result, mask)
    else
      let (result, mask) := sigprocmask how set mask
      if result = -1 then (1, mask) else (result, mask)

def blockSignals (numSignals : ℤ) (va : ℕ → ℤ) : Mask S → ℤ × Mask S :=
  changeSignals sigBlock numSignals va

def unblockSignals (numSignals : ℤ) (va : ℕ → ℤ) : Mask S → ℤ × Mask S :=
  changeSignals sigUnblock numSignals va

/-- The body of `block_all_signals` and `unblock_all_signals`. -/
def changeAll (filled : ℤ × Finset ℤ) (how : ℤ) (mask : Mask S) : ℤ × Mask S :=
  let (result, set) := filled
  if result = -1 then (1, mask)
  else
    let (result, mask) := sigprocmask how set mask
    if result = -1 then (1, mask) else (result, mask)

def blockAllSignals : Mask S → ℤ × Mask S := changeAll (sigfillset S) sigBlock

def unblockAllSignals : Mask S → ℤ × Mask S := changeAll sigemptyset sigUnblock

/-- `block_signal` returns nothing, and does not look at what `sigaddset`
answers. -/
def blockSignal (signum : ℤ) (mask : Mask S) : Mask S :=
  if signum < 1 ∨ signum > S.sigrtmax then mask
  else (sigprocmask sigBlock (sigaddset S sigemptyset.2 signum).2 mask).2

/-! ### Runs of calls -/

inductive Call where
  | block (numSignals : ℤ) (va : ℕ → ℤ)
  | unblock (numSignals : ℤ) (va : ℕ → ℤ)
  | blockOne (signum : ℤ)
  | blockAll
  | unblockAll

/-- The mask after a call, and the value it returns. -/
def returns (answer : ℤ × Mask S) : Option (Mask S × Option ℤ) := some (answer.2, some answer.1)

/-- One call; `block_signal` returns no value. -/
def step (mask : Mask S) : Call → Option (Mask S × Option ℤ)
  | .block n va => returns (blockSignals n va mask)
  | .unblock n va => returns (unblockSignals n va mask)
  | .blockOne signum => some (blockSignal signum mask, none)
  | .blockAll => returns (blockAllSignals mask)
  | .unblockAll => returns (unblockAllSignals mask)

/-! ### What the calls are for -/

/-- The signals that a call lists. -/
def Call.listed : Call → Finset ℤ
  | block n va => (Finset.range n.toNat).image va
  | unblock n va => (Finset.range n.toNat).image va
  | blockOne signum => {signum}
  | _ => ∅

/-- The set after a call that succeeds. -/
def Call.reference (S : Signals) (c : Call) (a : Finset ℤ) : Finset ℤ :=
  match c with
  | block .. => a ∪ c.listed ∩ S.blockable
  | unblock .. => a \ c.listed
  | blockOne _ => a ∪ c.listed ∩ S.blockable
  | blockAll => S.blockable
  | unblockAll => ∅

/-- The call returns something else than 0, or an argument is not a signal. -/
def Call.Fails (S : Signals) (c : Call) (returned : Option ℤ) : Prop :=
  (∃ r, returned = some r ∧ r ≠ 0) ∨ ¬ c.listed ⊆ S.valid

/-- A step of the reference: the set operation, or nothing if the call fails. -/
def RefStep (S : Signals) (a : Finset ℤ) (c : Call) (returned : Option ℤ) (a' : Finset ℤ) :
    Prop :=
  (c.Fails S returned → a' = a) ∧ (¬ c.Fails S returned → a' = c.reference S a)

/-! ### One call -/

theorem addSignals_valid {va : ℕ → ℤ} {n i : ℕ} {set : Finset ℤ}
    (h : ∀ j < n, va (i + j) ∈ S.valid) :
    addSignals S va n i set = (0, set ∪ (Finset.range n).image fun j => va (i + j)) := by
  induction n generalizing i set with
  | zero => simp [addSignals]
  | succ n ih =>
    have hfirst : va i ∈ S.valid := h 0 (Nat.succ_pos n)
    have hrest : ∀ j < n, va (i + 1 + j) ∈ S.valid := by
      intro j hj
      have hj' := h (j + 1) (by omega)
      rwa [show i + (j + 1) = i + 1 + j by omega] at hj'
    have himage : (Finset.range (n + 1)).image (fun j => va (i + j))
        = insert (va i) ((Finset.range n).image fun j => va (i + 1 + j)) := by
      ext s
      simp only [Finset.mem_insert, Finset.mem_image, Finset.mem_range]
      constructor
      · rintro ⟨_ | j, hj, rfl⟩
        · exact Or.inl rfl
        · exact Or.inr ⟨j, by omega, by rw [show i + 1 + j = i + (j + 1) by omega]⟩
      · rintro (rfl | ⟨j, hj, rfl⟩)
        · exact ⟨0, by omega, rfl⟩
        · exact ⟨j + 1, by omega, by rw [show i + 1 + j = i + (j + 1) by omega]⟩
    rw [addSignals, sigaddset, if_pos hfirst]
    simp only [ih hrest, himage]
    rw [if_neg (by decide), Finset.insert_union, Finset.union_insert]

theorem addSignals_invalid {va : ℕ → ℤ} {n i : ℕ} {set : Finset ℤ}
    (h : ∃ j < n, va (i + j) ∉ S.valid) : (addSignals S va n i set).1 = -1 := by
  induction n generalizing i set with
  | zero =>
    obtain ⟨j, hj, -⟩ := h
    omega
  | succ n ih =>
    rw [addSignals, sigaddset]
    by_cases hfirst : va i ∈ S.valid
    · rw [if_pos hfirst]
      refine ih ?_
      obtain ⟨j, hj, hbad⟩ := h
      rcases j with _ | j
      · exact absurd hfirst hbad
      · exact ⟨j, by omega, by rwa [show i + 1 + j = i + (j + 1) by omega]⟩
    · rw [if_neg hfirst]
      rfl

/-- `block_signals` and `unblock_signals` stop at the first argument that is not a
signal. -/
theorem changeSignals_eq {how : ℤ} (hhow : how = sigBlock ∨ how = sigUnblock) (n : ℤ)
    (va : ℕ → ℤ) (mask : Mask S) :
    changeSignals how n va mask =
      if (Finset.range n.toNat).image va ⊆ S.valid then
        (0, (sigprocmask how ((Finset.range n.toNat).image va) mask).2)
      else (-1, mask) := by
  have hmask (set : Finset ℤ) : (sigprocmask how set mask).1 = 0 := by
    rcases hhow with rfl | rfl <;> rfl
  by_cases hvalid : (Finset.range n.toNat).image va ⊆ S.valid
  · have hall : ∀ j < n.toNat, va (0 + j) ∈ S.valid := by
      intro j hj
      rw [Nat.zero_add]
      exact hvalid (Finset.mem_image_of_mem va (Finset.mem_range.mpr hj))
    rw [if_pos hvalid]
    simp only [changeSignals, sigemptyset, addSignals_valid hall, Nat.zero_add,
      Finset.empty_union, hmask]
    rfl
  · have hbad : ∃ j < n.toNat, va (0 + j) ∉ S.valid := by
      by_contra hno
      push Not at hno
      refine hvalid ?_
      intro s hs
      obtain ⟨j, hj, rfl⟩ := Finset.mem_image.mp hs
      have hj' := hno j (Finset.mem_range.mp hj)
      rwa [Nat.zero_add] at hj'
    rw [if_neg hvalid]
    simp only [changeSignals, sigemptyset, addSignals_invalid hbad]
    rfl

theorem not_fails {c : Call} (hvalid : c.listed ⊆ S.valid) {returned : Option ℤ}
    (h : returned = some 0 ∨ returned = none) : ¬ c.Fails S returned := by
  rintro (⟨r, hr, hne⟩ | hbad)
  · rcases h with rfl | rfl
    · exact hne (Option.some.inj hr).symm
    · exact absurd hr (by simp)
  · exact hbad hvalid

theorem refStep_success {a : Finset ℤ} {c : Call} (hvalid : c.listed ⊆ S.valid)
    {returned : Option ℤ} (h : returned = some 0 ∨ returned = none) :
    RefStep S a c returned (c.reference S a) :=
  ⟨fun hfail => absurd hfail (not_fails hvalid h), fun _ => rfl⟩

theorem refStep_failure {a : Finset ℤ} {c : Call} {returned : Option ℤ}
    (hbad : ¬ c.listed ⊆ S.valid) : RefStep S a c returned a :=
  ⟨fun _ => rfl, fun hok => absurd (Or.inr hbad) hok⟩

/-- A call that goes through its arguments does what it is for, if `sigprocmask`
does it with the listed signals. -/
theorem changeSignals_reference {how : ℤ} (hhow : how = sigBlock ∨ how = sigUnblock) {n : ℤ}
    {va : ℕ → ℤ} {mask : Mask S} {c : Call} (hlisted : c.listed = (Finset.range n.toNat).image va)
    (hset : (sigprocmask how c.listed mask).2.signals = c.reference S mask.signals) :
    ∃ mask' returned, returns (changeSignals how n va mask) = some (mask', returned) ∧
      RefStep S mask.signals c returned mask'.signals := by
  have heq := changeSignals_eq hhow n va mask
  rw [← hlisted] at heq
  by_cases hvalid : c.listed ⊆ S.valid
  · rw [if_pos hvalid] at heq
    refine ⟨_, _, congrArg returns heq, ?_⟩
    rw [hset]
    exact refStep_success hvalid (Or.inl rfl)
  · rw [if_neg hvalid] at heq
    exact ⟨_, _, congrArg returns heq, refStep_failure hvalid⟩

/-- **Each call but one** does what the reference does. -/
theorem step_reference (mask : Mask S) (c : Call) (hc : c ≠ .unblockAll) :
    ∃ mask' returned, step mask c = some (mask', returned) ∧
      RefStep S mask.signals c returned mask'.signals := by
  cases c with
  | block n va => exact changeSignals_reference (Or.inl rfl) rfl rfl
  | unblock n va => exact changeSignals_reference (Or.inr rfl) rfl rfl
  | blockOne signum =>
    refine ⟨_, _, rfl, ?_⟩
    by_cases hvalid : signum ∈ S.valid
    · obtain ⟨hpos, hmax⟩ := S.valid_range signum hvalid
      rw [blockSignal, if_neg (by omega), sigaddset, if_pos hvalid]
      exact refStep_success (c := .blockOne signum) (by simpa [Call.listed] using hvalid)
        (Or.inr rfl)
    · have hsame : (blockSignal signum mask).signals = mask.signals := by
        rw [blockSignal, sigaddset, if_neg hvalid]
        split
        · rfl
        · exact (congrArg (mask.signals ∪ ·) (Finset.empty_inter S.blockable)).trans
            (Finset.union_empty mask.signals)
      rw [hsame]
      exact refStep_failure (by simpa [Call.listed] using hvalid)
  | blockAll =>
    have hall : mask.signals ∪ S.valid ∩ S.blockable = S.blockable := by
      rw [Finset.inter_eq_right.mpr S.blockable_subset, Finset.union_eq_right]
      exact mask.subset_blockable
    refine ⟨_, _, rfl, ?_⟩
    have href := refStep_success (S := S) (a := mask.signals) (c := .blockAll)
      (by simp [Call.listed]) (Or.inl rfl)
    rwa [Call.reference, ← hall] at href
  | unblockAll => exact absurd rfl hc

/-- `unblock_all_signals` returns 0 and changes nothing. -/
theorem step_unblockAll (mask : Mask S) : step mask .unblockAll = some (mask, some 0) := by
  have hsame : (unblockAllSignals mask).2 = mask := Mask.ext Finset.sdiff_empty
  exact congrArg (fun m => some (m, some 0)) hsame

/-- **When the calls follow the reference.**  In every run, and from every mask:
exactly if `unblock_all_signals` is called on empty masks only. -/
theorem mask_refines_iff (mask : Mask S) (calls : List Call) :
    RunRefines step (RefStep S) (fun m a => m.signals = a) mask mask.signals calls ↔
      RunMeets step (fun m c => c = .unblockAll → m.signals = ∅) mask calls := by
  refine runRefines_iff_runMeets (fun m a => m.signals = a) ?_ ?_ rfl
  · rintro m _ c rfl
    by_cases hc : c = .unblockAll
    · subst hc
      rw [step_unblockAll]
      constructor
      · rintro ⟨m', o, a', hstep, ⟨-, href⟩, hrel⟩ -
        obtain ⟨rfl, rfl⟩ := Prod.mk.inj (Option.some.inj hstep)
        exact hrel.trans (href (not_fails (Finset.empty_subset _) (Or.inl rfl)))
      · intro hempty
        refine ⟨m, some 0, m.signals, rfl, ?_, rfl⟩
        have href := refStep_success (S := S) (a := m.signals) (c := .unblockAll)
          (by simp [Call.listed]) (Or.inl rfl)
        rwa [Call.reference, ← hempty rfl] at href
    · obtain ⟨m', o, hstep, href⟩ := step_reference m c hc
      exact iff_of_true ⟨m', o, m'.1, hstep, href, rfl⟩ fun h => absurd h hc
  · rintro m _ c m' o a' rfl _ _ hrel
    exact hrel

/-- The numbers of the Linux signals. -/
def upTo64 : Finset ℤ := (Finset.range 64).image fun n : ℕ => (n : ℤ) + 1

/-- Linux with glibc: two real-time signals are not known to `sigaddset`, and
SIGKILL and SIGSTOP are not blocked. -/
def linux : Signals where
  sigrtmax := 64
  valid := upTo64 \ {32, 33}
  blockable := upTo64 \ {9, 19, 32, 33}
  blockable_subset := Finset.sdiff_subset_sdiff subset_rfl (by decide)
  valid_range s hs := by
    obtain ⟨n, hn, rfl⟩ := Finset.mem_image.mp (Finset.mem_sdiff.mp hs).1
    have hlt := Finset.mem_range.mp hn
    omega

/-- The mask that holds SIGINT. -/
def sigintBlocked : Mask linux where
  signals := {2}
  subset_blockable := by decide

/-- `unblock_all_signals` leaves SIGINT blocked. -/
theorem unblock_all_leaves_sigint :
    ¬ RunRefines step (RefStep linux) (fun m a => m.signals = a) sigintBlocked
      sigintBlocked.signals [.unblockAll] := by
  intro h
  obtain ⟨m', o, a', hstep, href, hrel, -⟩ := runRefines_cons.mp h
  rw [step_unblockAll] at hstep
  obtain ⟨rfl, rfl⟩ := Prod.mk.inj (Option.some.inj hstep)
  have hempty : sigintBlocked.signals = ∅ :=
    hrel.trans (href.2 (not_fails (Finset.empty_subset _) (Or.inl rfl)))
  exact absurd hempty (by decide)

end SigMaskLib
