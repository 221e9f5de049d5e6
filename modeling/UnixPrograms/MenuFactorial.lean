/-
The menu's factorials over a whole session.

`RES_1` starts at 1 and `FACTOR` multiplies it by what is typed and everything
below, without setting it back:

* `mult_res1` — the loop multiplies by a factorial;
* `step_res1` — what a round does to `RES_1`;
* `res1_of_run` — it holds the product of all factorials of the session;
* `each_as_fresh_iff` — when every factorial is printed as in a new process.
-/
import Mathlib.Data.Nat.Factorial.Basic
import UnixPrograms.MenuProgram

namespace MenuProgram

open Bytes Machine
open scoped Nat

/-! ### The loop -/

/-- **`MULT` multiplies by a factorial**, modulo `2 ^ 64`. -/
theorem mult_res1 (n : ℕ) (s : Statics) (hnum : s.num1 = BitVec.ofNat 64 (n + 1))
    (hn : n + 1 < 2 ^ 64) : (mult s).res1 = s.res1 * BitVec.ofNat 64 (n + 1)! := by
  induction n generalizing s with
  | zero =>
    have hdone : s.num1 - 1 = 0 := by
      rw [hnum]
      rfl
    rw [mult, if_pos hdone, hnum]
    exact mul_comm _ _
  | succ n ih =>
    have hdec : s.num1 - 1 = BitVec.ofNat 64 (n + 1) := by
      rw [hnum, BitVec.ofNat_add (n + 1) 1]
      exact add_sub_cancel_right _ _
    have hmore : s.num1 - 1 ≠ 0 := by
      rw [hdec]
      intro hzero
      have hval := congrArg BitVec.toNat hzero
      rw [BitVec.toNat_ofNat, Nat.mod_eq_of_lt (by omega)] at hval
      exact absurd hval (by simp)
    rw [mult, if_neg hmore, ih _ hdec (by omega), Nat.factorial_succ (n + 1), BitVec.ofNat_mul,
      ← hnum]
    ring

/-! ### FACTOR -/

/-- The number that is typed, as `my_strtol` reads it. -/
def typedNumber (chunk : List Byte) : ℕ := (myStrtol (typedString chunk)).toNat

/-- A positive number, for a register with a sign. -/
def TypedPositive (chunk : List Byte) : Prop :=
  0 < typedNumber chunk ∧ typedNumber chunk < 2 ^ 63

instance (chunk : List Byte) : Decidable (TypedPositive chunk) :=
  inferInstanceAs (Decidable (_ ∧ _))

variable {chunk : List Byte} {s : Statics}

/-- The three tests after `my_strtol`. -/
theorem typedPositive_iff :
    TypedPositive chunk ↔ myStrtol (typedString chunk) ≠ -1 ∧
      myStrtol (typedString chunk) ≠ 0 ∧ ¬ (myStrtol (typedString chunk)).slt 0 = true := by
  rw [slt_zero_iff, TypedPositive, typedNumber]
  generalize myStrtol (typedString chunk) = rax
  constructor
  · rintro ⟨hpos, hlt⟩
    refine ⟨?_, ?_, by omega⟩
    · rintro rfl
      exact absurd hlt (by decide)
    · rintro rfl
      exact absurd hpos (by decide)
  · rintro ⟨-, hne, hlt⟩
    refine ⟨Nat.pos_of_ne_zero fun h0 => hne ?_, by omega⟩
    exact BitVec.eq_of_toNat_eq h0

/-- **`FACTOR` on a positive number** multiplies `RES_1` by its factorial, and
prints that. -/
theorem factor_positive (h : TypedPositive chunk) :
    (factor chunk s).1.res1 = s.res1 * BitVec.ofNat 64 (typedNumber chunk)! ∧
      (factor chunk s).2 =
        [.text factMessage, .factorial (asInt (myStrtol (typedString chunk)))
          (asInt (s.res1 * BitVec.ofNat 64 (typedNumber chunk)!))] := by
  obtain ⟨hneg, hzero, hslt⟩ := typedPositive_iff.mp h
  have hnum : myStrtol (typedString chunk) = BitVec.ofNat 64 (typedNumber chunk - 1 + 1) := by
    rw [Nat.sub_add_cancel h.1, typedNumber, BitVec.ofNat_toNat, BitVec.setWidth_eq]
  have hlt : typedNumber chunk - 1 + 1 < 2 ^ 64 := by
    have hsigned := h.2
    omega
  have hres := mult_res1 _ { s with num1 := myStrtol (typedString chunk) } hnum hlt
  rw [Nat.sub_add_cancel h.1] at hres
  rw [factor, if_neg hneg, if_neg hzero, if_neg hslt]
  simp only [hres, and_self]

/-- Without a positive number `FACTOR` changes nothing. -/
theorem factor_not_positive (h : ¬ TypedPositive chunk) : (factor chunk s).1 = s := by
  rw [typedPositive_iff] at h
  rw [factor]
  split_ifs with hneg hzero hslt
  · rfl
  · rfl
  · rfl
  · exact absurd ⟨hneg, hzero, hslt⟩ h

/-! ### What the routines do to `RES_1` -/

theorem fibStep_res1 (s : Statics) : (fibStep s).1.res1 = s.res1 := by
  simp only [fibStep, twoRegisters, threeRegisters]
  split_ifs <;> rfl

theorem fibLoop_res1 (s : Statics) : (fibLoop s).1.res1 = s.res1 := by
  fun_induction fibLoop s with
  | case1 s s' => exact fibStep_res1 s
  | case2 s s' => exact fibStep_res1 s
  | case3 s s' line _ _ s'' lines hrest ih =>
    rw [hrest] at ih
    exact ih.trans (fibStep_res1 s)

theorem fibby_res1 (chunk : List Byte) (s : Statics) : (fibby chunk s).1.res1 = s.res1 := by
  rw [fibby]
  split_ifs
  · rfl
  · rfl
  · rfl
  · exact fibLoop_res1 _

/-- `CONVERT` keeps the data sections, and leaves something in `rbx`. -/
theorem convert_statics {s' : Statics} {out : List Printed}
    (h : convert chunk s = some (s', out)) : ∃ rbx, s' = { s with rbx := rbx } := by
  rcases hhex : stringToHex 0 s.rbx 0 (typedString chunk) with ⟨rax, rbx, r10⟩
  rw [convert, hhex] at h
  dsimp only at h
  generalize hextodec 63 rax rbx [] = dec at h
  split_ifs at h
  · exact ⟨rbx, (Prod.mk.inj (Option.some.inj h)).1.symm⟩
  · exact ⟨rbx, (Prod.mk.inj (Option.some.inj h)).1.symm⟩
  · rcases dec with _ | digits
    · exact absurd h (by simp)
    · exact ⟨10, (Prod.mk.inj (Option.some.inj h)).1.symm⟩

/-! ### Sessions -/

/-- The round runs `FACTOR`. -/
def ChoosesFactorial (r : Round) : Prop := myStrtol (typedString r.choice) = 2

instance (r : Round) : Decidable (ChoosesFactorial r) :=
  inferInstanceAs (Decidable (myStrtol (typedString r.choice) = 2))

/-- What a round multiplies `RES_1` by. -/
def roundFactorial (r : Round) : ℕ :=
  if ChoosesFactorial r ∧ TypedPositive r.typed then (typedNumber r.typed)! else 1

/-- The product of the factorials of a session. -/
def factorials (rounds : List Round) : ℕ := (rounds.map roundFactorial).prod

theorem factorials_cons (r : Round) (rounds : List Round) :
    factorials (r :: rounds) = roundFactorial r * factorials rounds := by
  rw [factorials, List.map_cons, List.prod_cons, factorials]

theorem factorials_pos (rounds : List Round) : 0 < factorials rounds := by
  refine List.prod_pos ?_
  intro n hn
  obtain ⟨r, -, rfl⟩ := List.mem_map.mp hn
  rw [roundFactorial]
  split
  · exact Nat.factorial_pos _
  · exact Nat.one_pos

theorem step_of_choosesFactorial {r : Round} (h : ChoosesFactorial r) :
    step s r = some ((factor r.typed s).1, banner factOption ++ (factor r.typed s).2) := by
  have htwo : myStrtol (typedString r.choice) = 2 := h
  rw [step, htwo]
  rfl

/-- A round that chooses neither `FIBBY` nor `FACTOR` keeps the data sections. -/
theorem step_other {r : Round} {s' : Statics} {out : List Printed}
    (h : step s r = some (s', out)) (hfib : ¬ myStrtol (typedString r.choice) = 1)
    (hfact : ¬ ChoosesFactorial r) : ∃ rbx, s' = { s with rbx := rbx } := by
  have htwo : ¬ myStrtol (typedString r.choice) = 2 := hfact
  rw [step, if_neg hfib, if_neg htwo] at h
  split_ifs at h with hconv hexit
  · obtain ⟨⟨t, out'⟩, ht, heq⟩ := Option.map_eq_some_iff.mp h
    obtain ⟨rfl, -⟩ := Prod.mk.inj heq
    exact convert_statics ht
  · obtain ⟨rfl, -⟩ := Prod.mk.inj (Option.some.inj h)
    exact ⟨s.rbx, rfl⟩

/-- **What a round does to `RES_1`.** -/
theorem step_res1 {r : Round} {s' : Statics} {out : List Printed}
    (h : step s r = some (s', out)) :
    s'.res1 = s.res1 * BitVec.ofNat 64 (roundFactorial r) := by
  by_cases hfact : ChoosesFactorial r
  · rw [step_of_choosesFactorial hfact] at h
    obtain ⟨rfl, -⟩ := Prod.mk.inj (Option.some.inj h)
    rw [roundFactorial]
    by_cases hpos : TypedPositive r.typed
    · rw [if_pos ⟨hfact, hpos⟩, (factor_positive hpos).1]
    · rw [if_neg fun hand => hpos hand.2, factor_not_positive hpos]
      exact (mul_one _).symm
  · have hone : roundFactorial r = 1 := if_neg fun hand => hfact hand.1
    have hsame : s'.res1 = s.res1 := by
      by_cases hfib : myStrtol (typedString r.choice) = 1
      · rw [step, if_pos hfib] at h
        obtain ⟨rfl, -⟩ := Prod.mk.inj (Option.some.inj h)
        exact fibby_res1 r.typed s
      · obtain ⟨rbx, rfl⟩ := step_other h hfib hfact
        rfl
    rw [hsame, hone]
    exact (mul_one _).symm

/-- **What `RES_1` holds** after some rounds. -/
theorem res1_of_run {s' : Statics} {rounds : List Round} {out : List (List Printed)}
    (h : run step s rounds = some (s', out)) :
    s'.res1 = s.res1 * BitVec.ofNat 64 (factorials rounds) := by
  induction rounds generalizing s out with
  | nil =>
    obtain ⟨rfl, -⟩ := Prod.mk.inj (Option.some.inj h)
    exact (mul_one _).symm
  | cons r rounds ih =>
    rcases hstep : step s r with _ | ⟨t, o⟩
    · simp [run, hstep] at h
    · simp only [run, hstep, Option.map_eq_some_iff] at h
      obtain ⟨⟨u, outs⟩, hrun, heq⟩ := h
      obtain ⟨rfl, -⟩ := Prod.mk.inj heq
      rw [ih hrun, step_res1 hstep, factorials_cons, BitVec.ofNat_mul, mul_assoc]

/-! ### As in a new process -/

/-- `%d` shows two numbers alike if their low halves are. -/
theorem asInt_ofNat_inj {m n : ℕ} :
    asInt (BitVec.ofNat 64 m) = asInt (BitVec.ofNat 64 n) ↔ m ≡ n [MOD 2 ^ 32] := by
  rw [asInt, asInt, BitVec.toInt_inj, BitVec.setWidth_ofNat_of_le (by decide),
    BitVec.setWidth_ofNat_of_le (by decide), ← BitVec.toNat_inj, BitVec.toNat_ofNat,
    BitVec.toNat_ofNat]
  rfl

/-- One `FACTOR` after a session, against the same one in a new process. -/
theorem factor_as_fresh_iff {rbx rbx' : BitVec 64} {past : List Round}
    {out : List (List Printed)} {r : Round} (hrun : run step (fresh rbx) past = some (s, out))
    (hfact : ChoosesFactorial r) (hpos : TypedPositive r.typed) :
    (step s r).map Prod.snd = (step (fresh rbx') r).map Prod.snd ↔
      2 ^ 32 ∣ (factorials past - 1) * (typedNumber r.typed)! := by
  have hres : s.res1 = BitVec.ofNat 64 (factorials past) :=
    (res1_of_run hrun).trans (one_mul _)
  have hle : (typedNumber r.typed)! ≤ factorials past * (typedNumber r.typed)! :=
    Nat.le_mul_of_pos_left _ (factorials_pos past)
  have hfresh : (fresh rbx').res1 * BitVec.ofNat 64 (typedNumber r.typed)!
      = BitVec.ofNat 64 (typedNumber r.typed)! := one_mul _
  have hdvd : factorials past * (typedNumber r.typed)! ≡ (typedNumber r.typed)! [MOD 2 ^ 32] ↔
      2 ^ 32 ∣ (factorials past - 1) * (typedNumber r.typed)! := by
    rw [Nat.ModEq.comm, Nat.modEq_iff_dvd' hle, Nat.sub_mul, one_mul]
  rw [step_of_choosesFactorial hfact, step_of_choosesFactorial hfact, (factor_positive hpos).2,
    (factor_positive hpos).2, hres, hfresh, ← BitVec.ofNat_mul, ← hdvd, ← asInt_ofNat_inj]
  simp

/-- **A session without traces**: each `FACTOR` given a positive number prints
what it prints in a new process. -/
def EachAsFresh (rbx : BitVec 64) (rounds : List Round) : Prop :=
  ∀ past r s out, past ++ [r] <+: rounds → run step (fresh rbx) past = some (s, out) →
    ChoosesFactorial r → TypedPositive r.typed →
      ∀ rbx', (step s r).map Prod.snd = (step (fresh rbx') r).map Prod.snd

/-- The product of the factorials so far is not seen in the low half of the next
one. -/
def Unnoticed (rbx : BitVec 64) (rounds : List Round) : Prop :=
  ∀ past r s out, past ++ [r] <+: rounds → run step (fresh rbx) past = some (s, out) →
    ChoosesFactorial r → TypedPositive r.typed →
      2 ^ 32 ∣ (factorials past - 1) * (typedNumber r.typed)!

/-- **When the factorials of a session are right.** -/
theorem each_as_fresh_iff (rbx : BitVec 64) (rounds : List Round) :
    EachAsFresh rbx rounds ↔ Unnoticed rbx rounds := by
  constructor
  · intro h past r s out hpast hrun hfact hpos
    exact (factor_as_fresh_iff hrun hfact hpos).mp
      (h past r s out hpast hrun hfact hpos rbx)
  · intro h past r s out hpast hrun hfact hpos rbx'
    exact (factor_as_fresh_iff hrun hfact hpos).mpr (h past r s out hpast hrun hfact hpos)

/-- A line of the user, ended by a newline. -/
def line (s : List Char) : List Byte := text s ++ [0x0a]

/-- 2! after 3! is printed as 12. -/
theorem two_after_three :
    ¬ EachAsFresh 0 [⟨line ['2'], line ['3']⟩, ⟨line ['2'], line ['2']⟩] := by
  intro h
  have hfact : ChoosesFactorial ⟨line ['2'], line ['3']⟩ := by decide
  obtain ⟨s, out, hfirst⟩ : ∃ s out,
      run step (fresh 0) [⟨line ['2'], line ['3']⟩] = some (s, out) := by
    rw [run, step_of_choosesFactorial hfact]
    exact ⟨_, _, rfl⟩
  have hsame := h _ ⟨line ['2'], line ['2']⟩ s out List.prefix_rfl hfirst (by decide) (by decide) 0
  rw [factor_as_fresh_iff hfirst (by decide) (by decide)] at hsame
  revert hsame
  decide

end MenuProgram
