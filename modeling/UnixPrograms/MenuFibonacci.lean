/-
The menu's Fibonacci numbers: the loop `FIB`.

The last two numbers are in three limbs each, and a line shows as many of them as
the number needs:

* `Shows s a b` — the words of `s` stand for the numbers `a` and, before it, `b`;
* `Shows.fibStep_next`, `Shows.carriesFit` — when a pass prints the next number:
  the limbs that it reaches for the first time must be zero (`CarriesFit`);
* `fibLoop_iff` — when the loop prints all lines that are left;
* `fibLoop_first_iff` — when it prints the first `n` numbers, from any state.
-/
import Mathlib.Data.Nat.Fib.Basic
import UnixPrograms.Limbs
import UnixPrograms.MenuProgram

namespace MenuProgram

open Bytes Limbs

/-! ### Limbs of a sum -/

theorem adc_limb (i x y : ℕ) :
    adc (limb 64 i x) (limb 64 i y) (carry 64 i x y) =
      (limb 64 i (x + y), carry 64 (i + 1) x y) := by
  rw [adc, limb_add, ← carry_succ]

theorem carry_comm (i x y : ℕ) : carry 64 i x y = carry 64 i y x := by
  rw [carry, carry, add_comm]

theorem adc_eq_add_cancel {x y : BitVec 64} {cf : Bool}
    (h : (adc x y cf).1 = y + 0 + BitVec.ofNat 64 cf.toNat) : x = 0 := by
  have hsum : x + y + BitVec.ofNat 64 cf.toNat = 0 + y + BitVec.ofNat 64 cf.toNat := by
    rw [zero_add]
    rwa [add_zero] at h
  exact (BitVec.add_left_inj _).mp ((BitVec.add_left_inj _).mp hsum)

/-! ### One pass of the loop -/

/-- The words stand for `a` and, before it, `b`.  A limb that no number so far
has reached is not known. -/
structure Shows (s : Statics) (a b : ℕ) : Prop where
  num1L : s.num1L = limb 64 0 a
  num2L : s.num2L = limb 64 0 b
  carryCurr : s.carryCurr = limb 64 1 a
  mid : 2 ^ 64 ≤ a → s.carryPrev = limb 64 1 b ∧ s.secondCarryCurr = limb 64 2 a
  high : 2 ^ 128 ≤ a → s.secondCarryPrev = limb 64 2 b
  lt : a < 2 ^ 192

/-- Going from `a` up to `v`, each limb that is reached for the first time is
still zero. -/
def CarriesFit (s : Statics) (a v : ℕ) : Prop :=
  (a < 2 ^ 64 → 2 ^ 64 ≤ v → s.carryPrev = 0 ∧ s.secondCarryCurr = 0) ∧
    (a < 2 ^ 128 → 2 ^ 128 ≤ v → s.secondCarryPrev = 0)

/-- The state after `add`, with the sum `v`. -/
def afterAdd (s : Statics) (v : ℕ) : Statics :=
  { s with rbx := s.num2L
           count := s.count + 1
           baseResult := limb 64 0 v
           num1L := limb 64 0 v
           num2L := s.num1L }

/-- The state after the first `adc`, with the sum `v`. -/
def afterAdc (s : Statics) (v : ℕ) : Statics :=
  { afterAdd s v with carryCurr := limb 64 1 v
                      carryPrev := s.carryCurr }

variable {s : Statics} {a b : ℕ}

theorem Shows.fibStep_eq (h : Shows s a b) :
    fibStep s =
      if carry 64 1 a b = false ∧ s.carryCurr = 0 then
        (afterAdd s (a + b), some (.fibonacci (s.count + 1) [limb 64 0 (a + b)]))
      else twoRegisters (afterAdd s (a + b)) (carry 64 1 a b) := by
  have hadd := adc_limb 0 a b
  rw [carry_zero, ← h.num1L, ← h.num2L] at hadd
  simp only [fibStep, hadd]
  rfl

/-- A pass whose middle limbs are known. -/
theorem Shows.twoRegisters_eq (h : Shows s a b) (hprev : s.carryPrev = limb 64 1 b)
    (hsecond : s.secondCarryCurr = limb 64 2 a) :
    twoRegisters (afterAdd s (a + b)) (carry 64 1 a b) =
      if carry 64 2 a b = false ∧ limb 64 2 a = 0 then
        (afterAdc s (a + b),
          some (.fibonacci (s.count + 1) [limb 64 1 (a + b), limb 64 0 (a + b)]))
      else threeRegisters (afterAdc s (a + b)) (carry 64 2 a b) := by
  have hadc := adc_limb 1 b a
  rw [carry_comm 1 b a, carry_comm 2 b a, add_comm b a] at hadc
  simp only [twoRegisters, afterAdc, afterAdd, hprev, h.carryCurr, hsecond, hadc]

/-- A pass whose high limbs are known too. -/
theorem threeRegisters_eq {t : Statics} (hprev : t.secondCarryPrev = limb 64 2 b)
    (hcurr : t.secondCarryCurr = limb 64 2 a) (hlt : a + b < 2 ^ 192) :
    threeRegisters t (carry 64 2 a b) =
      ({ t with secondCarryCurr := limb 64 2 (a + b)
                secondCarryPrev := limb 64 2 a },
        some (.fibonacci t.count [limb 64 2 (a + b), t.carryCurr, t.baseResult])) := by
  have hadc := adc_limb 2 b a
  rw [carry_comm 2 b a, carry_comm 3 b a, add_comm b a, carry_eq_false 3 hlt] at hadc
  simp only [threeRegisters, hprev, hcurr, hadc]
  rfl

theorem limbs_two {v : ℕ} (hle : 2 ^ 64 ≤ v) (hlt : v < 2 ^ 128) :
    limbs 64 v = [limb 64 1 v, limb 64 0 v] := by
  rw [limbs_append (by decide) hle, limbs_one (by omega) (by omega), ← limb_succ]
  rfl

theorem limbs_three {v : ℕ} (hle : 2 ^ 128 ≤ v) (hlt : v < 2 ^ 192) :
    limbs 64 v = [limb 64 2 v, limb 64 1 v, limb 64 0 v] := by
  rw [limbs_append (by decide) (by omega), limbs_two (by omega) (by omega), ← limb_succ,
    ← limb_succ]
  rfl

/-- What is known of two numbers in a row. -/
structure InARow (a b : ℕ) : Prop where
  le : b ≤ a ∨ a = 0 ∧ b = 1
  pos : 0 < a + b
  lt : a + b < 2 ^ 192
  mid : 2 ^ 64 ≤ a → limb 64 1 a ≠ 0

/-- **A pass that prints the next number**: its state stands for it, and the limbs
that it did not reach are as they were. -/
theorem Shows.fibStep_next (h : Shows s a b) (hab : InARow a b)
    (hfit : CarriesFit s a (a + b)) :
    ∃ s', fibStep s = (s', some (.fibonacci (s.count + 1) (limbs 64 (a + b)))) ∧
      Shows s' (a + b) a ∧
      (a + b < 2 ^ 64 → s'.carryPrev = s.carryPrev ∧ s'.secondCarryCurr = s.secondCarryCurr) ∧
      (a + b < 2 ^ 128 → s'.secondCarryPrev = s.secondCarryPrev) := by
  obtain ⟨hle, hpos, hlt, hmid⟩ := hab
  have hlta := h.lt
  -- one, two or three registers, as far as the sum reaches
  by_cases hone : a + b < 2 ^ 64
  · have hcarry : carry 64 1 a b = false := carry_eq_false 1 hone
    have hcurr : s.carryCurr = 0 := h.carryCurr.trans (limb_eq_zero 1 (by omega))
    refine ⟨afterAdd s (a + b), ?_, ⟨rfl, h.num1L, ?_, by omega, by omega, hlt⟩,
      fun _ => ⟨rfl, rfl⟩, fun _ => rfl⟩
    · rw [h.fibStep_eq, if_pos ⟨hcarry, hcurr⟩, limbs_one (by omega) hone]
    · exact hcurr.trans (limb_eq_zero 1 (by omega)).symm
  · -- the middle limbs are known, whether they were reached before or not
    have hprev : s.carryPrev = limb 64 1 b := by
      by_cases hnew : a < 2 ^ 64
      · exact (hfit.1 hnew (by omega)).1.trans (limb_eq_zero 1 (by omega)).symm
      · exact (h.mid (by omega)).1
    have hsecond : s.secondCarryCurr = limb 64 2 a := by
      by_cases hnew : a < 2 ^ 64
      · exact (hfit.1 hnew (by omega)).2.trans (limb_eq_zero 2 (by omega)).symm
      · exact (h.mid (by omega)).2
    have hmore : ¬ (carry 64 1 a b = false ∧ s.carryCurr = 0) := by
      rintro ⟨hcarry, hcurr⟩
      by_cases hnew : a < 2 ^ 64
      · rw [carry_eq_true 1 (by omega) (by omega) (by omega)] at hcarry
        exact absurd hcarry (by simp)
      · exact hmid (by omega) (h.carryCurr.symm.trans hcurr)
    rw [h.fibStep_eq, if_neg hmore, h.twoRegisters_eq hprev hsecond]
    by_cases htwo : a + b < 2 ^ 128
    · have hcarry : carry 64 2 a b = false := carry_eq_false 2 htwo
      have hzero : limb 64 2 a = 0 := limb_eq_zero 2 (by omega)
      rw [if_pos ⟨hcarry, hzero⟩, limbs_two (by omega) htwo]
      refine ⟨_, rfl, ⟨rfl, h.num1L, rfl, fun _ => ⟨h.carryCurr, ?_⟩, by omega, hlt⟩,
        by omega, fun _ => rfl⟩
      exact (hsecond.trans hzero).trans (limb_eq_zero 2 (by omega)).symm
    · have hhigh : s.secondCarryPrev = limb 64 2 b := by
        by_cases hnew : a < 2 ^ 128
        · exact (hfit.2 hnew (by omega)).trans (limb_eq_zero 2 (by omega)).symm
        · exact h.high (by omega)
      have hmost : ¬ (carry 64 2 a b = false ∧ limb 64 2 a = 0) := by
        rintro ⟨hcarry, hzero⟩
        by_cases hnew : a < 2 ^ 128
        · rw [carry_eq_true 2 (by omega) (by omega) (by omega)] at hcarry
          exact absurd hcarry (by simp)
        · have hval := congrArg BitVec.toNat hzero
          rw [toNat_limb] at hval
          simp only [BitVec.ofNat_eq_ofNat, BitVec.toNat_ofNat] at hval
          omega
      rw [if_neg hmost, threeRegisters_eq (t := afterAdc s (a + b)) hhigh hsecond hlt,
        limbs_three (by omega) hlt]
      exact ⟨_, rfl, ⟨rfl, h.num1L, rfl, fun _ => ⟨h.carryCurr, rfl⟩, fun _ => rfl, hlt⟩,
        by omega, by omega⟩

/-! ### What a line says about the words -/

variable {t : Statics} {cf : Bool} {count : BitVec 64} {ls : List (BitVec 64)}

theorem line_of_threeRegisters (h : (threeRegisters t cf).2 = some (.fibonacci count ls)) :
    ls = [(adc t.secondCarryPrev t.secondCarryCurr cf).1, t.carryCurr, t.baseResult] := by
  rcases hadc : adc t.secondCarryPrev t.secondCarryCurr cf with ⟨r9, _ | _⟩
  · simp only [threeRegisters, hadc] at h
    exact (Printed.fibonacci.inj (Option.some.inj h)).2.symm
  · simp only [threeRegisters, hadc] at h
    exact absurd h (by simp)

theorem line_of_twoRegisters (h : (twoRegisters t cf).2 = some (.fibonacci count ls)) :
    (ls = [(adc t.carryPrev t.carryCurr cf).1, t.baseResult] ∧ t.secondCarryCurr = 0) ∨
      ls.length = 3 := by
  rcases hadc : adc t.carryPrev t.carryCurr cf with ⟨r9, cf'⟩
  simp only [twoRegisters, hadc] at h
  by_cases htwo : cf' = false ∧ t.secondCarryCurr = 0
  · rw [if_pos htwo] at h
    exact Or.inl ⟨(Printed.fibonacci.inj (Option.some.inj h)).2.symm, htwo.2⟩
  · rw [if_neg htwo] at h
    rw [line_of_threeRegisters h]
    exact Or.inr rfl

/-- **A pass that prints the next number** found zero in the limbs that it reached
first. -/
theorem Shows.carriesFit (h : Shows s a b) (hab : InARow a b)
    (hline : (fibStep s).2 = some (.fibonacci count (limbs 64 (a + b)))) :
    CarriesFit s a (a + b) := by
  obtain ⟨hle, hpos, hlt, hmid⟩ := hab
  have hlta := h.lt
  constructor
  · intro hnew hreach
    have hcarry : carry 64 1 a b = true := carry_eq_true 1 hnew (by omega) hreach
    have hcurr : s.carryCurr = 0 := h.carryCurr.trans (limb_eq_zero 1 hnew)
    have hb : limb 64 1 b = 0 := limb_eq_zero 1 (by omega)
    rw [h.fibStep_eq, if_neg (by simp [hcarry]), hcarry, limbs_two hreach (by omega)] at hline
    rcases line_of_twoRegisters hline with ⟨hls, hsecond⟩ | hlen
    · have hsum := (List.cons.inj hls).1
      rw [← limb_add, ← h.carryCurr, hb, hcarry] at hsum
      exact ⟨adc_eq_add_cancel hsum.symm, hsecond⟩
    · exact absurd hlen (by simp)
  · intro hnew hreach
    have hcarry : carry 64 2 a b = true := carry_eq_true 2 hnew (by omega) hreach
    have hb : limb 64 2 b = 0 := limb_eq_zero 2 (by omega)
    obtain ⟨hprev, hsecond⟩ := h.mid (by omega)
    have hmore : ¬ (carry 64 1 a b = false ∧ s.carryCurr = 0) := by
      rintro ⟨-, hcurr⟩
      exact hmid (by omega) (h.carryCurr.symm.trans hcurr)
    rw [h.fibStep_eq, if_neg hmore, h.twoRegisters_eq hprev hsecond, if_neg (by simp [hcarry]),
      hcarry, limbs_three hreach hlt] at hline
    have hsum := (List.cons.inj (line_of_threeRegisters hline)).1
    rw [← limb_add, ← hsecond, hb, hcarry] at hsum
    exact adc_eq_add_cancel hsum.symm

/-! ### The loop -/

theorem fibLoop_of_last {s' : Statics} {line : Printed} (h : fibStep s = (s', some line))
    (hlast : s'.count = s'.userNum) : fibLoop s = (s', [line]) := by
  rw [fibLoop, h]
  exact if_pos hlast

theorem fibLoop_of_more {s' : Statics} {line : Printed} (h : fibStep s = (s', some line))
    (hmore : s'.count ≠ s'.userNum) :
    fibLoop s = ((fibLoop s').1, line :: (fibLoop s').2) := by
  rw [fibLoop, h]
  exact if_neg hmore

/-- Before the last line there is one more to come. -/
theorem count_ne_userNum {i n : ℕ} (hcount : s.count = BitVec.ofNat 64 i)
    (huser : s.userNum = BitVec.ofNat 64 n) (hi : i < n) (hn : n < 2 ^ 64) :
    s.count ≠ s.userNum := by
  rw [hcount, huser]
  intro heq
  have hval := congrArg BitVec.toNat heq
  rw [BitVec.toNat_ofNat, BitVec.toNat_ofNat, Nat.mod_eq_of_lt (hi.trans hn),
    Nat.mod_eq_of_lt hn] at hval
  omega

/-- The first line of the loop is that of its first pass. -/
theorem fibStep_of_head {line : Printed} {lines : List Printed} (hne : line ≠ .text tooLarge)
    (h : (fibLoop s).2 = line :: lines) : (fibStep s).2 = some line := by
  rcases hstep : fibStep s with ⟨s', _ | line'⟩
  · rw [fibLoop, hstep] at h
    exact absurd (List.cons.inj h).1.symm hne
  · by_cases hlast : s'.count = s'.userNum
    · rw [fibLoop_of_last hstep hlast] at h
      exact congrArg some (List.cons.inj h).1
    · rw [fibLoop_of_more hstep hlast] at h
      exact congrArg some (List.cons.inj h).1

/-! ### Fibonacci numbers -/

/-- The number before the `i`-th one; the one before 0 is 1. -/
def fibPrev : ℕ → ℕ
  | 0 => 1
  | i + 1 => Nat.fib i

theorem fib_succ_eq (i : ℕ) : Nat.fib (i + 1) = Nat.fib i + fibPrev i := by
  cases i with
  | zero => rfl
  | succ i => rw [Nat.fib_add_two, fibPrev, add_comm]

/-- No middle limb is zero: `FIB` would take it for one that is not reached yet. -/
theorem limb_one_fib_ne_zero :
    ∀ i < 280, 2 ^ 64 ≤ Nat.fib i → limb 64 1 (Nat.fib i) ≠ 0 := by
  decide +kernel

theorem lt_of_fib_lt {i : ℕ} (h : Nat.fib i < 2 ^ 192) : i < 280 := by
  by_contra hle
  have hmono : Nat.fib 280 ≤ Nat.fib i := Nat.fib_mono (by omega)
  have hlarge : 2 ^ 192 ≤ Nat.fib 280 := by decide +kernel
  omega

theorem inARow_fib {i : ℕ} (h : Nat.fib (i + 1) < 2 ^ 192) :
    InARow (Nat.fib i) (fibPrev i) := by
  have hlt : Nat.fib i < 2 ^ 192 := (Nat.fib_le_fib_succ).trans_lt h
  refine ⟨?_, ?_, ?_, limb_one_fib_ne_zero i (lt_of_fib_lt hlt)⟩
  · cases i with
    | zero => exact Or.inr ⟨rfl, rfl⟩
    | succ i => exact Or.inl Nat.fib_le_fib_succ
  · rw [← fib_succ_eq]
    exact Nat.fib_pos.mpr (Nat.succ_pos i)
  · rwa [← fib_succ_eq]

/-- The line for the `i`-th number. -/
def fibLine (i : ℕ) : Printed := .fibonacci (BitVec.ofNat 64 i) (limbs 64 (Nat.fib i))

/-- The limbs of the line stand for the number. -/
theorem fibLine_value (i : ℕ) :
    ∃ ls, fibLine i = .fibonacci (BitVec.ofNat 64 i) ls ∧
      Nat.ofDigits (2 ^ 64) (ls.reverse.map BitVec.toNat) = Nat.fib i :=
  ⟨_, rfl, ofDigits_limbs _ (by decide)⟩

theorem CarriesFit.mono {a v w : ℕ} (h : CarriesFit s a w) (hvw : v ≤ w) : CarriesFit s a v :=
  ⟨fun ha hv => h.1 ha (hv.trans hvw), fun ha hv => h.2 ha (hv.trans hvw)⟩

/-- What is reached up to `w` is reached up to `v`, or from there on. -/
theorem carriesFit_iff {s' : Statics} {a v w : ℕ} (hav : a ≤ v)
    (hfit : CarriesFit s a v)
    (hmid : v < 2 ^ 64 → s'.carryPrev = s.carryPrev ∧ s'.secondCarryCurr = s.secondCarryCurr)
    (hhigh : v < 2 ^ 128 → s'.secondCarryPrev = s.secondCarryPrev) :
    CarriesFit s' v w ↔ CarriesFit s a w := by
  constructor
  · rintro ⟨hw, hw'⟩
    constructor
    · intro ha hreach
      by_cases hv : v < 2 ^ 64
      · rw [← (hmid hv).1, ← (hmid hv).2]
        exact hw hv hreach
      · exact hfit.1 ha (by omega)
    · intro ha hreach
      by_cases hv : v < 2 ^ 128
      · rw [← hhigh hv]
        exact hw' hv hreach
      · exact hfit.2 ha (by omega)
  · rintro ⟨hw, hw'⟩
    constructor
    · intro hv hreach
      rw [(hmid hv).1, (hmid hv).2]
      exact hw (by omega) hreach
    · intro hv hreach
      rw [hhigh hv]
      exact hw' (by omega) hreach

theorem fibLine_succ {i : ℕ} (hcount : s.count = BitVec.ofNat 64 i) :
    fibLine (i + 1) = .fibonacci (s.count + 1) (limbs 64 (Nat.fib i + fibPrev i)) := by
  rw [fibLine, fib_succ_eq, hcount, BitVec.ofNat_add]
  rfl

/-- A pass from one Fibonacci number to the next. -/
theorem Shows.fibStep_fib {i : ℕ} (h : Shows s (Nat.fib i) (fibPrev i))
    (hcount : s.count = BitVec.ofNat 64 i) (hfib : Nat.fib (i + 1) < 2 ^ 192)
    (hfit : CarriesFit s (Nat.fib i) (Nat.fib (i + 1))) :
    ∃ s', fibStep s = (s', some (fibLine (i + 1))) ∧ s'.count = BitVec.ofNat 64 (i + 1) ∧
      s'.userNum = s.userNum ∧ Shows s' (Nat.fib (i + 1)) (fibPrev (i + 1)) ∧
      ∀ w, CarriesFit s' (Nat.fib (i + 1)) w ↔ CarriesFit s (Nat.fib i) w := by
  have hfit' := hfit
  rw [fib_succ_eq] at hfit'
  obtain ⟨s', hstep, hshow, hmid, hhigh⟩ := h.fibStep_next (inARow_fib hfib) hfit'
  obtain ⟨hcount', huser⟩ := fibStep_count s
  rw [hstep] at hcount' huser
  rw [← fib_succ_eq] at hshow hmid hhigh
  refine ⟨s', ?_, ?_, huser, hshow, ?_⟩
  · rw [fibLine_succ hcount, hstep]
  · rw [hcount', hcount, BitVec.ofNat_add]
    rfl
  · intro w
    exact carriesFit_iff Nat.fib_le_fib_succ hfit hmid hhigh

/-- The first line is right only if the limbs that its number reaches were zero. -/
theorem Shows.carriesFit_of_head {i : ℕ} (h : Shows s (Nat.fib i) (fibPrev i))
    (hcount : s.count = BitVec.ofNat 64 i) (hfib : Nat.fib (i + 1) < 2 ^ 192)
    {lines : List Printed} (hlines : (fibLoop s).2 = fibLine (i + 1) :: lines) :
    CarriesFit s (Nat.fib i) (Nat.fib (i + 1)) := by
  rw [fibLine_succ hcount] at hlines
  rw [fib_succ_eq]
  exact h.carriesFit (inARow_fib hfib) (fibStep_of_head (by simp) hlines)

/-- **When the loop prints all lines that are left.** -/
theorem fibLoop_iff {m i n : ℕ} (hn : i + 1 + m = n) (hcount : s.count = BitVec.ofNat 64 i)
    (huser : s.userNum = BitVec.ofNat 64 n) (hlt : n < 2 ^ 64) (hfib : Nat.fib n < 2 ^ 192)
    (h : Shows s (Nat.fib i) (fibPrev i)) :
    (fibLoop s).2 = (List.range' (i + 1) (m + 1)).map fibLine ↔
      CarriesFit s (Nat.fib i) (Nat.fib n) := by
  induction m generalizing s i with
  | zero =>
    obtain rfl : i + 1 = n := hn
    rw [List.range'_one, List.map_singleton]
    constructor
    · intro hlines
      exact h.carriesFit_of_head hcount hfib hlines
    · intro hfit
      obtain ⟨s', hstep, hcount', huser', -⟩ := h.fibStep_fib hcount hfib hfit
      rw [fibLoop_of_last hstep (hcount'.trans (huser'.trans huser).symm)]
  | succ m ih =>
    have hle : Nat.fib (i + 1) ≤ Nat.fib n := Nat.fib_mono (by omega)
    have hnext := hle.trans_lt hfib
    rw [List.range'_succ, List.map_cons]
    -- the words fit for this line, and the rest is the induction, or the line is wrong
    by_cases hfit : CarriesFit s (Nat.fib i) (Nat.fib (i + 1))
    · obtain ⟨s', hstep, hcount', huser', hshow, hrest⟩ := h.fibStep_fib hcount hnext hfit
      have hmore : s'.count ≠ s'.userNum :=
        count_ne_userNum hcount' (huser'.trans huser) (by omega) hlt
      rw [fibLoop_of_more hstep hmore, ← hrest,
        ← ih (by omega) hcount' (huser'.trans huser) hshow, List.cons_inj_right]
    · refine iff_of_false ?_ ?_
      · intro hlines
        exact hfit (h.carriesFit_of_head hcount hnext hlines)
      · intro hall
        exact hfit (hall.mono hle)

/-! ### From the first line on -/

/-- The words are those of a new process, as far as the first `n` lines show them. -/
def FibReady (n : ℕ) (s : Statics) : Prop :=
  s.count = 0 ∧ s.carryCurr = 0 ∧
    (s.num1L = 0 ∧ s.num2L = 1 ∨ n = 1 ∧ s.num1L = 1 ∧ s.num2L = 0) ∧
    CarriesFit s 0 (Nat.fib n)

/-- The first line is right if the counter is zero and the sum is 1. -/
theorem words_of_first_line (h : (fibStep s).2 = some (fibLine 1)) :
    s.count = 0 ∧ s.carryCurr = 0 ∧
      (s.num1L = 0 ∧ s.num2L = 1 ∨ s.num1L = 1 ∧ s.num2L = 0) := by
  have hfirst : fibLine 1 = .fibonacci 1 [1] := by decide
  rw [hfirst] at h
  rcases hadc : adc s.num1L s.num2L false with ⟨rax, cf⟩
  simp only [fibStep, hadc] at h
  by_cases hone : cf = false ∧ s.carryCurr = 0
  · rw [if_pos hone] at h
    obtain ⟨hcount, hsum⟩ := Printed.fibonacci.inj (Option.some.inj h)
    obtain ⟨rfl, hcf⟩ := Prod.mk.inj hadc
    have hval := congrArg BitVec.toNat (List.cons.inj hsum).1
    rw [hone.1, decide_eq_false_iff_not] at hcf
    refine ⟨by simpa using hcount, hone.2, ?_⟩
    have hone' : s.num1L.toNat + s.num2L.toNat = 1 := by
      rw [Bool.toNat_false] at hcf
      have hmod : (s.num1L.toNat + s.num2L.toNat) % 2 ^ 64 = 1 := by simpa using hval
      omega
    obtain ⟨h1, h2⟩ | ⟨h1, h2⟩ := Nat.add_eq_one_iff.mp hone'
    · exact Or.inl ⟨BitVec.eq_of_toNat_eq h1, BitVec.eq_of_toNat_eq h2⟩
    · exact Or.inr ⟨BitVec.eq_of_toNat_eq h1, BitVec.eq_of_toNat_eq h2⟩
  · rw [if_neg hone] at h
    rcases line_of_twoRegisters h with ⟨hls, -⟩ | hlen
    · exact absurd hls (by simp)
    · exact absurd hlen (by simp)

theorem shows_fresh {s : Statics} (hcurr : s.carryCurr = 0) (hnum : s.num1L = 0 ∧ s.num2L = 1) :
    Shows s (Nat.fib 0) (fibPrev 0) :=
  ⟨hnum.1, hnum.2, hcurr, fun h => absurd h (by decide), fun h => absurd h (by decide),
    by decide⟩

/-- The two numbers the other way round. -/
theorem shows_swapped {s : Statics} (hcurr : s.carryCurr = 0)
    (hnum : s.num1L = 1 ∧ s.num2L = 0) : Shows s 1 0 :=
  ⟨hnum.1, hnum.2, hcurr, fun h => absurd h (by decide), fun h => absurd h (by decide),
    by decide⟩

/-- The second line is then 2, and not 1. -/
theorem fibLoop_swapped_iff {n : ℕ} (hn : 1 ≤ n) (hlt : n < 280) (hcount : s.count = 0)
    (hcurr : s.carryCurr = 0) (hnum : s.num1L = 1 ∧ s.num2L = 0)
    (huser : s.userNum = BitVec.ofNat 64 n) :
    (fibLoop s).2 = (List.range' 1 n).map fibLine ↔ n = 1 := by
  have hrow : InARow 1 0 :=
    ⟨Or.inl (by decide), by decide, by decide, fun h => absurd h (by decide)⟩
  have hrow' : InARow 1 1 :=
    ⟨Or.inl (by decide), by decide, by decide, fun h => absurd h (by decide)⟩
  have hfit {s : Statics} {v : ℕ} (hv : v < 2 ^ 64) : CarriesFit s 1 v :=
    ⟨fun _ h => by omega, fun _ h => by omega⟩
  obtain ⟨s', hstep, hshow, -, -⟩ :=
    (shows_swapped hcurr hnum).fibStep_next hrow (hfit (by decide))
  obtain ⟨t, hstep', -, -, -⟩ := hshow.fibStep_next hrow' (hfit (by decide))
  obtain ⟨hcount', huser'⟩ := fibStep_count s
  rw [hstep, hcount] at hcount'
  rw [hstep, huser] at huser'
  rw [hcount] at hstep
  by_cases hone : n = 1
  · subst hone
    refine iff_of_true ?_ rfl
    rw [fibLoop_of_last hstep (hcount'.trans huser'.symm)]
    rfl
  · refine iff_of_false ?_ hone
    intro hlines
    have hmore : s'.count ≠ s'.userNum := by
      rw [hcount', huser']
      intro heq
      have hval := congrArg BitVec.toNat heq
      rw [BitVec.toNat_ofNat, Nat.mod_eq_of_lt (by omega)] at hval
      exact hone hval.symm
    -- the second line shows 2, where the list of Fibonacci numbers has 1 once more
    obtain ⟨m, rfl⟩ : ∃ m, n = m + 2 := ⟨n - 2, by omega⟩
    rw [fibLoop_of_more hstep hmore, List.range'_succ, List.range'_succ, List.map_cons,
      List.map_cons] at hlines
    have hsecond := fibStep_of_head (by simp [fibLine]) (List.cons.inj hlines).2
    rw [hstep'] at hsecond
    exact absurd (Printed.fibonacci.inj (Option.some.inj hsecond)).2 (by decide)

/-- **When `FIB` prints the first `n` numbers.** -/
theorem fibLoop_first_iff {n : ℕ} (hn : 1 ≤ n) (hfib : Nat.fib n < 2 ^ 192)
    (huser : s.userNum = BitVec.ofNat 64 n) :
    (fibLoop s).2 = (List.range' 1 n).map fibLine ↔ FibReady n s := by
  have hlt := lt_of_fib_lt hfib
  obtain ⟨m, rfl⟩ : ∃ m, n = m + 1 := ⟨n - 1, by omega⟩
  have hrest (hcount : s.count = 0) (hcurr : s.carryCurr = 0)
      (hnum : s.num1L = 0 ∧ s.num2L = 1) :=
    fibLoop_iff (m := m) (i := 0) (by omega) hcount huser (by omega) hfib
      (shows_fresh hcurr hnum)
  rw [FibReady]
  constructor
  · intro hlines
    have hlines' := hlines
    rw [List.range'_succ, List.map_cons] at hlines'
    obtain ⟨hcount, hcurr, hnum | hnum⟩ :=
      words_of_first_line (fibStep_of_head (by simp [fibLine]) hlines')
    · exact ⟨hcount, hcurr, Or.inl hnum, (hrest hcount hcurr hnum).mp hlines⟩
    · have hone := (fibLoop_swapped_iff hn hlt hcount hcurr hnum huser).mp hlines
      refine ⟨hcount, hcurr, Or.inr ⟨hone, hnum⟩, ?_⟩
      rw [hone]
      exact ⟨fun _ h => absurd h (by decide), fun _ h => absurd h (by decide)⟩
  · rintro ⟨hcount, hcurr, hnum | ⟨hone, hnum⟩, hfit⟩
    · exact (hrest hcount hcurr hnum).mpr hfit
    · exact (fibLoop_swapped_iff hn hlt hcount hcurr hnum huser).mpr hone

end MenuProgram
