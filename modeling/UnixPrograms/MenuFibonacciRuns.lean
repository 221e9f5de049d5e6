/-
The menu's Fibonacci numbers over a whole session.

Nothing sets the words of `FIBBY` back: it goes on counting, and adding, where the
one before it stopped, and its loop ends when the counter meets the number typed:

* `printsFibonacci_iff` — when one `FIBBY` prints its numbers, from any state;
* `each_fibonacci_iff` — when all of a session do;
* `each_fibonacci_iff_once` — this is once in a session, as long as no number is
  too large.
-/
import UnixPrograms.MenuFactorial
import UnixPrograms.MenuFibonacci

namespace MenuProgram

open Bytes Machine

variable {s : Statics}

/-! ### Sessions -/

theorem myStrtol_eq (s : CString) :
    myStrtol s = (numeral 10 decDigit s).elim (-1) (BitVec.ofNat 64) :=
  parse_eq_numeral s

/-- The round runs `FIBBY`. -/
def ChoosesFibonacci (r : Round) : Prop := myStrtol (typedString r.choice) = 1

instance (r : Round) : Decidable (ChoosesFibonacci r) :=
  inferInstanceAs (Decidable (myStrtol (typedString r.choice) = 1))

/-- The round runs `FIBBY` with a positive number whose Fibonacci number fits into
three registers. -/
def AsksFibonacci (r : Round) (n : ℕ) : Prop :=
  ChoosesFibonacci r ∧ numeral 10 decDigit (typedString r.typed) = some n ∧
    1 ≤ n ∧ Nat.fib n < 2 ^ 192

/-- The round prints the numbers from the first to the `n`-th one, and goes back
to the menu. -/
def PrintsFibonacci (s : Statics) (r : Round) (n : ℕ) : Prop :=
  ∃ s', step s r =
    some (s', banner fibOption ++ .text fibMessage :: (List.range' 1 n).map fibLine)

theorem step_of_choosesFibonacci {r : Round} (h : ChoosesFibonacci r) :
    step s r = some ((fibby r.typed s).1, banner fibOption ++ (fibby r.typed s).2) := by
  have hone : myStrtol (typedString r.choice) = 1 := h
  rw [step, hone]
  rfl

theorem AsksFibonacci.typedPositive {r : Round} {n : ℕ} (h : AsksFibonacci r n) :
    TypedPositive r.typed ∧ myStrtol (typedString r.typed) = BitVec.ofNat 64 n := by
  obtain ⟨-, hnum, hn, hfib⟩ := h
  have hlt := lt_of_fib_lt hfib
  have hrax : myStrtol (typedString r.typed) = BitVec.ofNat 64 n := by
    rw [myStrtol_eq, hnum]
    rfl
  refine ⟨?_, hrax⟩
  rw [TypedPositive, typedNumber, hrax, BitVec.toNat_ofNat, Nat.mod_eq_of_lt (by omega)]
  omega

/-- The state in which `FIBBY` enters its loop. -/
def fibStart (s : Statics) (n : ℕ) : Statics :=
  { s with userNum := BitVec.ofNat 64 n
           rbx := 0 }

theorem AsksFibonacci.step_eq {r : Round} {n : ℕ} (h : AsksFibonacci r n) :
    step s r = some ((fibLoop (fibStart s n)).1,
      banner fibOption ++ .text fibMessage :: (fibLoop (fibStart s n)).2) := by
  obtain ⟨hpos, hrax⟩ := h.typedPositive
  obtain ⟨hneg, hzero, hslt⟩ := typedPositive_iff.mp hpos
  have hfibby : fibby r.typed s =
      ((fibLoop (fibStart s n)).1, .text fibMessage :: (fibLoop (fibStart s n)).2) := by
    rw [fibby, if_neg hneg, if_neg hzero, if_neg hslt, hrax]
    rfl
  rw [step_of_choosesFibonacci h.1, hfibby]

/-- One `FIBBY`, from any state. -/
theorem printsFibonacci_iff {r : Round} {n : ℕ} (h : AsksFibonacci r n) :
    PrintsFibonacci s r n ↔ FibReady n s := by
  have hready : FibReady n (fibStart s n) ↔ FibReady n s := Iff.rfl
  rw [← hready, ← fibLoop_first_iff h.2.2.1 h.2.2.2 rfl, PrintsFibonacci, h.step_eq]
  simp

/-- **A session that prints every sequence**: each `FIBBY` prints all its numbers. -/
def EachFibonacciRight (rbx : BitVec 64) (rounds : List Round) : Prop :=
  ∀ past r s out n, past ++ [r] <+: rounds → run step (fresh rbx) past = some (s, out) →
    AsksFibonacci r n → PrintsFibonacci s r n

/-- Each `FIBBY` finds its words as in a new process. -/
def EachFindsReady (rbx : BitVec 64) (rounds : List Round) : Prop :=
  ∀ past r s out n, past ++ [r] <+: rounds → run step (fresh rbx) past = some (s, out) →
    AsksFibonacci r n → FibReady n s

/-- **When the sequences of a session are right.** -/
theorem each_fibonacci_iff (rbx : BitVec 64) (rounds : List Round) :
    EachFibonacciRight rbx rounds ↔ EachFindsReady rbx rounds := by
  constructor
  · intro h past r s out n hpast hrun hasks
    exact (printsFibonacci_iff hasks).mp (h past r s out n hpast hrun hasks)
  · intro h past r s out n hpast hrun hasks
    exact (printsFibonacci_iff hasks).mpr (h past r s out n hpast hrun hasks)

/-! ### Which sessions are right -/

/-- The static words of `FIBBY`. -/
def fibWords (s : Statics) : List (BitVec 64) :=
  [s.count, s.num1L, s.num2L, s.carryCurr, s.carryPrev, s.secondCarryCurr, s.secondCarryPrev]

/-- The round enters the loop `FIB`. -/
def EntersFib (r : Round) : Prop := ChoosesFibonacci r ∧ TypedPositive r.typed

theorem mult_fibWords (s : Statics) : fibWords (mult s) = fibWords s := by
  fun_induction mult s with
  | case1 s rax s' hdone => rfl
  | case2 s rax s' hmore ih => exact ih

theorem factor_fibWords (chunk : List Byte) (s : Statics) :
    fibWords (factor chunk s).1 = fibWords s := by
  rw [factor]
  split_ifs
  · rfl
  · rfl
  · rfl
  · exact mult_fibWords _

theorem fibby_not_positive {chunk : List Byte} (h : ¬ TypedPositive chunk) :
    (fibby chunk s).1 = s := by
  rw [typedPositive_iff] at h
  rw [fibby]
  split_ifs with hneg hzero hslt
  · rfl
  · rfl
  · rfl
  · exact absurd ⟨hneg, hzero, hslt⟩ h

/-- Only a `FIBBY` that enters its loop writes to its words. -/
theorem step_fibWords {r : Round} {s' : Statics} {out : List Printed}
    (h : step s r = some (s', out)) (hfib : ¬ EntersFib r) : fibWords s' = fibWords s := by
  by_cases hchoice : ChoosesFibonacci r
  · rw [step_of_choosesFibonacci hchoice] at h
    obtain ⟨rfl, -⟩ := Prod.mk.inj (Option.some.inj h)
    rw [fibby_not_positive fun hpos => hfib ⟨hchoice, hpos⟩]
  · by_cases hfact : ChoosesFactorial r
    · rw [step_of_choosesFactorial hfact] at h
      obtain ⟨rfl, -⟩ := Prod.mk.inj (Option.some.inj h)
      exact factor_fibWords r.typed s
    · obtain ⟨rbx, rfl⟩ := step_other h hchoice hfact
      rfl

/-- The first `FIBBY` of a session is right. -/
theorem fibReady_of_first {rbx : BitVec 64} {past : List Round} {out : List (List Printed)}
    (hrun : run step (fresh rbx) past = some (s, out)) (hfirst : ∀ r ∈ past, ¬ EntersFib r)
    (n : ℕ) : FibReady n s := by
  have hwords : fibWords s = fibWords (fresh rbx) :=
    run_invariant (fun t => fibWords t = fibWords (fresh rbx))
      (fun t r t' o hr ht hstep => (step_fibWords hstep (hfirst r hr)).trans ht) hrun rfl
  simp only [fibWords, fresh, List.cons.injEq, and_true] at hwords
  obtain ⟨hcount, h1, h2, hcurr, hprev, hsecond, hhigh⟩ := hwords
  exact ⟨hcount, hcurr, Or.inl ⟨h1, h2⟩, fun _ _ => ⟨hprev, hsecond⟩, fun _ _ => hhigh⟩

/-- The loop ends at its number, or with a sum that is too large. -/
theorem fibLoop_count (h : .text tooLarge ∉ (fibLoop s).2) :
    (fibLoop s).1.count = s.userNum := by
  fun_induction fibLoop s with
  | case1 s s' hnone => exact absurd List.mem_cons_self h
  | case2 s s' line hline hlast => exact hlast.trans (fibStep_count s).2
  | case3 s s' line hline hmore s'' lines hrest ih =>
    rw [hrest] at ih
    have hlines : .text tooLarge ∉ lines := fun hmem => h (List.mem_cons_of_mem line hmem)
    exact (ih hlines).trans (fibStep_count s).2

/-- A `FIBBY` that was right leaves its number in `COUNT`. -/
theorem count_of_printsFibonacci {r : Round} {n : ℕ} {s' : Statics} {out : List Printed}
    (hasks : AsksFibonacci r n) (hprints : PrintsFibonacci s r n)
    (hstep : step s r = some (s', out)) : s'.count ≠ 0 := by
  obtain ⟨t, hlines⟩ := hprints
  rw [hasks.step_eq] at hlines hstep
  obtain ⟨rfl, -⟩ := Prod.mk.inj (Option.some.inj hstep)
  obtain ⟨-, hout⟩ := Prod.mk.inj (Option.some.inj hlines)
  have hall := (List.cons.inj (List.append_cancel_left hout)).2
  have hlt := lt_of_fib_lt hasks.2.2.2
  rw [fibLoop_count]
  · intro hzero
    have hval : n % 2 ^ 64 = 0 := congrArg BitVec.toNat hzero
    have hn := hasks.2.2.1
    omega
  · rw [hall]
    simp [fibLine]

/-- As long as every `FIBBY` is right, `COUNT` is zero only before the first one. -/
theorem first_of_count {rbx : BitVec 64} {rounds past : List Round} {out : List (List Printed)}
    (hfits : ∀ r ∈ rounds, EntersFib r → ∃ n, AsksFibonacci r n)
    (h : EachFibonacciRight rbx rounds) (hpast : past <+: rounds)
    (hrun : run step (fresh rbx) past = some (s, out)) (hcount : s.count = 0) :
    ∀ q ∈ past, ¬ EntersFib q := by
  induction past using List.reverseRecOn generalizing s out with
  | nil => simp
  | append_singleton past r ih =>
    obtain ⟨t, us, o, ht, hstep⟩ := exists_last hrun
    have hr : ¬ EntersFib r := by
      intro henters
      obtain ⟨n, hasks⟩ := hfits r (hpast.subset (by simp)) henters
      exact count_of_printsFibonacci hasks (h past r t us n hpast ht hasks) hstep hcount
    have hsame : t.count = s.count := (List.cons.inj (step_fibWords hstep hr)).1.symm
    intro q hq
    rcases List.mem_append.mp hq with hq | hq
    · exact ih ((List.prefix_append past [r]).trans hpast) ht (hsame.trans hcount) q hq
    · rwa [List.mem_singleton.mp hq]

/-- **Once in a session.**  If no `FIBBY` of a session is given a number whose
Fibonacci number is too large, all of them are right exactly if only one is given a
positive number. -/
theorem each_fibonacci_iff_once {rbx : BitVec 64} {rounds : List Round}
    (hfits : ∀ r ∈ rounds, EntersFib r → ∃ n, AsksFibonacci r n) :
    EachFibonacciRight rbx rounds ↔
      ∀ past r s out, past ++ [r] <+: rounds → run step (fresh rbx) past = some (s, out) →
        EntersFib r → ∀ q ∈ past, ¬ EntersFib q := by
  constructor
  · intro h past r s out hpast hrun henters
    obtain ⟨n, hasks⟩ := hfits r (hpast.subset (by simp)) henters
    have hready := (printsFibonacci_iff hasks).mp (h past r s out n hpast hrun hasks)
    exact first_of_count hfits h ((List.prefix_append past [r]).trans hpast) hrun hready.1
  · intro h past r s out n hpast hrun hasks
    have hfirst := h past r s out hpast hrun ⟨hasks.1, hasks.typedPositive.1⟩
    exact (printsFibonacci_iff hasks).mpr (fibReady_of_first hrun hfirst n)

/-- The first Fibonacci number, asked for twice. -/
theorem first_fibonacci_twice :
    ¬ EachFibonacciRight 0 [⟨line ['1'], line ['1']⟩, ⟨line ['1'], line ['1']⟩] := by
  intro h
  have hasks : AsksFibonacci ⟨line ['1'], line ['1']⟩ 1 :=
    ⟨by decide, by decide, le_refl 1, by decide⟩
  have henters : EntersFib ⟨line ['1'], line ['1']⟩ := ⟨hasks.1, hasks.typedPositive.1⟩
  obtain ⟨s, out, hrun⟩ : ∃ s out,
      run step (fresh 0) [⟨line ['1'], line ['1']⟩] = some (s, out) := by
    rw [run, hasks.step_eq]
    exact ⟨_, _, rfl⟩
  have honce := (each_fibonacci_iff_once (by
    intro r hr _
    obtain rfl : r = ⟨line ['1'], line ['1']⟩ := by simpa using hr
    exact ⟨1, hasks⟩)).mp h
  exact honce _ _ s out List.prefix_rfl hrun henters _ List.mem_cons_self henters

end MenuProgram
