/-
Division of numbers that take two registers.

* `pair` — the number in two registers of `w` bits, `pair_lt_iff`, `pair_sub` how
  a borrow goes from the low one to the high one, `pair_shiftRight_one`,
  `pair_shiftLeft` how bits do;
* `rounds` — the division that shifts and subtracts, one bit of the quotient in
  each round, `rounds_eq` what it finds after any number of them;
* `schoolbook` — the division by one register, one register of the quotient at a
  time.
-/
import Mathlib.Tactic
import Mathlib.Data.BitVec

namespace LongDivision

/-! ### Two registers -/

section Pairs

variable {w : ℕ}

/-- The number in two registers. -/
def pair (hi lo : BitVec w) : ℕ := hi.toNat * 2 ^ w + lo.toNat

/-- Subtraction with the borrow from below, and the borrow above. -/
def sbb (x y : BitVec w) (cf : Bool) : BitVec w × Bool :=
  (x - y - BitVec.ofNat w cf.toNat, decide (x.toNat < y.toNat + cf.toNat))

variable (hi lo hi' lo' : BitVec w)

theorem pair_lt : pair hi lo < 2 ^ (w + w) := by
  have hhi := hi.isLt
  have hlo := lo.isLt
  rw [pair, pow_add]
  calc hi.toNat * 2 ^ w + lo.toNat < (hi.toNat + 1) * 2 ^ w := by rw [add_one_mul]; omega
    _ ≤ 2 ^ w * 2 ^ w := Nat.mul_le_mul_right _ hhi

theorem pair_div : pair hi lo / 2 ^ w = hi.toNat := by
  rw [pair, add_comm, Nat.add_mul_div_right _ _ (Nat.two_pow_pos w), Nat.div_eq_of_lt lo.isLt,
    zero_add]

theorem pair_zero_left : pair (0 : BitVec w) lo = lo.toNat := by
  rw [pair, show (0 : BitVec w).toNat = 0 from BitVec.toNat_ofNat 0 w ▸ Nat.zero_mod _, zero_mul,
    zero_add]

/-- **The borrow**: the high registers are compared with the borrow of the low ones. -/
theorem pair_lt_iff :
    pair hi lo < pair hi' lo' ↔ hi.toNat < hi'.toNat + (decide (lo.toNat < lo'.toNat)).toNat := by
  have hlo := lo.isLt
  have hlo' := lo'.isLt
  rw [pair, pair]
  rcases lt_trichotomy hi.toNat hi'.toNat with h | h | h
  · have hle := Nat.mul_le_mul_right (2 ^ w) (Nat.succ_le_of_lt h)
    rw [Nat.succ_mul] at hle
    exact iff_of_true (by omega) (by omega)
  · rw [h, add_lt_add_iff_left]
    by_cases hlt : lo.toNat < lo'.toNat <;> simp [hlt]
  · have hle := Nat.mul_le_mul_right (2 ^ w) (Nat.succ_le_of_lt h)
    rw [Nat.succ_mul] at hle
    have hbit := Bool.toNat_le (decide (lo.toNat < lo'.toNat))
    exact iff_of_false (by omega) (by omega)

/-- A difference of two numbers, register by register. -/
theorem toNat_sbb (x y : BitVec w) (cf : Bool) (hw : 0 < w) :
    (sbb x y cf).1.toNat + y.toNat + cf.toNat = x.toNat + (sbb x y cf).2.toNat * 2 ^ w := by
  have hx : x.toNat < 2 ^ w := x.isLt
  have hy : y.toNat < 2 ^ w := y.isLt
  have hone : 1 < 2 ^ w := Nat.one_lt_two_pow hw.ne'
  have hbit := Bool.toNat_le cf
  have hsub : (x - y - BitVec.ofNat w cf.toNat).toNat
      = (2 ^ w - cf.toNat + (2 ^ w - y.toNat + x.toNat)) % 2 ^ w := by
    rw [BitVec.toNat_sub, BitVec.toNat_sub, BitVec.toNat_ofNat,
      Nat.mod_eq_of_lt (hbit.trans_lt hone), Nat.add_mod_mod]
  rw [show (sbb x y cf).1.toNat = _ from hsub, sbb]
  obtain ⟨W, hW⟩ : ∃ W, W = 2 ^ w := ⟨_, rfl⟩
  rw [← hW] at hx hy hone ⊢
  by_cases h : x.toNat < y.toNat + cf.toNat
  · rw [decide_eq_true h, Bool.toNat_true, one_mul]
    have hsum : W - cf.toNat + (W - y.toNat + x.toNat)
        = W + x.toNat - y.toNat - cf.toNat + W := by omega
    rw [hsum, Nat.add_mod_right, Nat.mod_eq_of_lt (by omega)]
    omega
  · rw [decide_eq_false h, Bool.toNat_false, zero_mul]
    have hsum : W - cf.toNat + (W - y.toNat + x.toNat)
        = x.toNat - y.toNat - cf.toNat + 2 * W := by omega
    rw [hsum, Nat.add_mul_mod_self_right, Nat.mod_eq_of_lt (by omega)]
    omega

/-- **Subtracting registers**: the last borrow says whether the difference is
negative, and where it is not the registers hold it. -/
theorem pair_sub (hw : 0 < w) :
    (sbb hi hi' (sbb lo lo' false).2).2 = decide (pair hi lo < pair hi' lo') ∧
      (pair hi' lo' ≤ pair hi lo →
        pair (sbb hi hi' (sbb lo lo' false).2).1 (sbb lo lo' false).1
          = pair hi lo - pair hi' lo') := by
  have hcf : (sbb lo lo' false).2 = decide (lo.toNat < lo'.toNat) := rfl
  have hlast : (sbb hi hi' (sbb lo lo' false).2).2 = decide (pair hi lo < pair hi' lo') := by
    rw [hcf]
    exact decide_eq_decide.mpr (pair_lt_iff hi lo hi' lo').symm
  refine ⟨hlast, fun hle => ?_⟩
  have hlow := toNat_sbb lo lo' false hw
  have hhigh := toNat_sbb hi hi' (sbb lo lo' false).2 hw
  rw [hlast, decide_eq_false hle.not_gt, Bool.toNat_false, zero_mul, add_zero] at hhigh
  rw [Bool.toNat_false, add_zero] at hlow
  rw [eq_tsub_iff_add_eq_of_le hle, pair, pair, pair, ← hhigh]
  linear_combination hlow

/-! ### Shifts -/

/-- The bit that leaves the high register enters the low one. -/
theorem pair_shiftRight_one (hw : 0 < w) :
    pair (hi >>> 1) (lo >>> 1 ||| BitVec.ofNat w (hi.toNat % 2) <<< (w - 1))
      = pair hi lo / 2 := by
  have hhalf : 2 ^ w = 2 ^ (w - 1) * 2 := by rw [← pow_succ, Nat.sub_add_cancel hw]
  have hbit : hi.toNat % 2 < 2 := Nat.mod_lt _ (by decide)
  have hlo : lo.toNat / 2 < 2 ^ (w - 1) := by
    have := lo.isLt
    omega
  have hlow : (lo >>> 1 ||| BitVec.ofNat w (hi.toNat % 2) <<< (w - 1)).toNat
      = lo.toNat / 2 + hi.toNat % 2 * 2 ^ (w - 1) := by
    have hle := Nat.mul_le_mul_right (2 ^ (w - 1)) (Nat.le_of_lt_succ hbit)
    have hself : hi.toNat % 2 % 2 ^ w = hi.toNat % 2 :=
      Nat.mod_eq_of_lt (by have := Nat.two_pow_pos (w - 1); omega)
    rw [BitVec.toNat_or, BitVec.toNat_ushiftRight, BitVec.toNat_shiftLeft, BitVec.toNat_ofNat,
      hself, Nat.mod_eq_of_lt (by rw [Nat.shiftLeft_eq]; omega), Nat.or_comm,
      ← Nat.shiftLeft_add_eq_or_of_lt (by rwa [Nat.shiftRight_one]), Nat.shiftLeft_eq,
      Nat.shiftRight_one, add_comm]
  rw [pair, pair, hlow, BitVec.toNat_ushiftRight, Nat.shiftRight_one, hhalf]
  have hsplit := Nat.div_add_mod hi.toNat 2
  have hnum : hi.toNat * (2 ^ (w - 1) * 2) + lo.toNat = lo.toNat + hi.toNat * 2 ^ (w - 1) * 2 := by
    ring
  rw [hnum, Nat.add_mul_div_right _ _ (by decide : 0 < 2)]
  have hhi : hi.toNat * 2 ^ (w - 1)
      = hi.toNat / 2 * (2 ^ (w - 1) * 2) + hi.toNat % 2 * 2 ^ (w - 1) := by
    calc hi.toNat * 2 ^ (w - 1) = (2 * (hi.toNat / 2) + hi.toNat % 2) * 2 ^ (w - 1) := by rw [hsplit]
      _ = _ := by ring
  omega

/-- The bits that leave the low register enter the high one, and those that leave
the high one are lost. -/
theorem pair_shiftLeft {c : ℕ} (hc : c ≤ w) :
    pair (hi <<< c ||| lo >>> (w - c)) (lo <<< c) = pair hi lo * 2 ^ c % 2 ^ (w + w) := by
  have hpow : 2 ^ w = 2 ^ c * 2 ^ (w - c) := by rw [← pow_add, Nat.add_sub_cancel' hc]
  have hout : lo.toNat / 2 ^ (w - c) < 2 ^ c := by
    rw [Nat.div_lt_iff_lt_mul (Nat.two_pow_pos _), ← hpow]
    exact lo.isLt
  have hcarry : lo.toNat * 2 ^ c / 2 ^ w = lo.toNat / 2 ^ (w - c) := by
    rw [hpow, mul_comm lo.toNat, Nat.mul_div_mul_left _ _ (Nat.two_pow_pos c)]
  have hshift : hi.toNat * 2 ^ c % 2 ^ w = hi.toNat % 2 ^ (w - c) * 2 ^ c := by
    rw [hpow, mul_comm (2 ^ c), Nat.mul_mod_mul_right]
  have hhigh : (hi <<< c ||| lo >>> (w - c)).toNat
      = hi.toNat * 2 ^ c % 2 ^ w + lo.toNat / 2 ^ (w - c) := by
    rw [BitVec.toNat_or, BitVec.toNat_shiftLeft, BitVec.toNat_ushiftRight, Nat.shiftLeft_eq,
      Nat.shiftRight_eq_div_pow, hshift, ← Nat.shiftLeft_eq, ← Nat.shiftLeft_add_eq_or_of_lt hout]
  have hlow : (lo <<< c).toNat = lo.toNat * 2 ^ c % 2 ^ w := by
    rw [BitVec.toNat_shiftLeft, Nat.shiftLeft_eq]
  have hsplit := Nat.div_add_mod (lo.toNat * 2 ^ c) (2 ^ w)
  have hnum : pair hi lo * 2 ^ c
      = lo.toNat * 2 ^ c % 2 ^ w + 2 ^ w * (hi.toNat * 2 ^ c + lo.toNat / 2 ^ (w - c)) := by
    rw [pair, ← hcarry]
    calc (hi.toNat * 2 ^ w + lo.toNat) * 2 ^ c
        = lo.toNat * 2 ^ c + 2 ^ w * (hi.toNat * 2 ^ c) := by ring
      _ = 2 ^ w * (lo.toNat * 2 ^ c / 2 ^ w) + lo.toNat * 2 ^ c % 2 ^ w
            + 2 ^ w * (hi.toNat * 2 ^ c) := by rw [hsplit]
      _ = _ := by ring
  have hfit : hi.toNat * 2 ^ c % 2 ^ w + lo.toNat / 2 ^ (w - c) < 2 ^ w := by
    rw [← hhigh]
    exact BitVec.isLt _
  rw [pair, hhigh, hlow, hnum, pow_add, Nat.mod_mul, Nat.add_mul_mod_self_left,
    Nat.mod_mod, Nat.add_mul_div_left _ _ (Nat.two_pow_pos w),
    Nat.div_eq_of_lt (Nat.mod_lt _ (Nat.two_pow_pos w)), zero_add, ← Nat.mod_add_mod,
    Nat.mod_eq_of_lt hfit]
  ring

/-- A number that is not zero changes when it is moved up, also where bits are lost. -/
theorem mul_two_pow_mod_ne {v m s : ℕ} (hpos : 0 < v) (hlt : v < 2 ^ m) (hs : 0 < s) :
    v * 2 ^ s % 2 ^ m ≠ v := by
  intro h
  have hone : 1 ≤ 2 ^ s := Nat.one_le_two_pow
  have hmod : v * 1 ≡ v * 2 ^ s [MOD 2 ^ m] := by
    rw [Nat.ModEq, h, mul_one, Nat.mod_eq_of_lt hlt]
  have hdvd : 2 ^ m ∣ v * (2 ^ s - 1) := by
    rw [Nat.mul_sub]
    exact (Nat.modEq_iff_dvd' (Nat.mul_le_mul_left v hone)).mp hmod
  have hodd : Nat.Coprime (2 ^ m) (2 ^ s - 1) := by
    refine Nat.Coprime.pow_left m (Nat.coprime_two_left.mpr ?_)
    exact Nat.Even.sub_odd hone (Nat.even_pow.mpr ⟨even_two, hs.ne'⟩) odd_one
  exact hlt.not_ge (Nat.le_of_dvd hpos (hodd.dvd_of_dvd_mul_right hdvd))

end Pairs

/-! ### Shift and subtract -/

/-- Rounds of the division of `n`: each compares with `b`, subtracts it where it fits,
puts the bit below the quotient `q`, and halves `b`.  The answer is the quotient and
what is left. -/
def rounds : ℕ → ℕ → ℕ → ℕ → ℕ × ℕ
  | 0, n, _, q => (q, n)
  | k + 1, n, b, q => if b ≤ n then rounds k (n - b) (b / 2) (2 * q + 1)
      else rounds k n (b / 2) (2 * q)

/-- What `k + 1` rounds can find of a quotient: all of it, if it has no more bits. -/
def found (k n D : ℕ) : ℕ := min (n / D) (2 ^ (k + 1) - 1)

section Found

variable {k n D : ℕ}

theorem found_zero_of_le (hD : 0 < D) (h : D ≤ n) : found 0 n D = 1 :=
  min_eq_right ((Nat.one_le_div_iff hD).mpr h)

theorem found_of_lt (h : n < D) : found k n D = 0 := by
  rw [found, Nat.div_eq_of_lt h, Nat.zero_min]

theorem found_succ_of_le (hD : 0 < D) (h : D * 2 ^ (k + 1) ≤ n) :
    found (k + 1) n D = found k (n - D * 2 ^ (k + 1)) D + 2 ^ (k + 1) := by
  have hquot : 2 ^ (k + 1) ≤ n / D := (Nat.le_div_iff_mul_le hD).mpr (by rwa [mul_comm])
  have hpos := Nat.two_pow_pos (k + 1)
  rw [found, found, Nat.sub_mul_div, pow_succ 2 (k + 1)]
  omega

theorem found_succ_of_lt (h : n < D * 2 ^ (k + 1)) : found (k + 1) n D = found k n D := by
  have hquot : n / D < 2 ^ (k + 1) := Nat.div_lt_of_lt_mul h
  rw [found, found, pow_succ 2 (k + 1)]
  omega

theorem mul_found_le : D * found k n D ≤ n :=
  (Nat.mul_le_mul_left D (min_le_left _ _)).trans (Nat.mul_div_le n D)

/-- What the rounds leave is the remainder exactly if they find the quotient. -/
theorem sub_mul_found (hD : 0 < D) : n - D * found k n D < D ↔ n / D < 2 ^ (k + 1) := by
  have hpos := Nat.two_pow_pos (k + 1)
  have hle := mul_found_le (k := k) (n := n) (D := D)
  rw [tsub_lt_iff_right hle, add_comm, ← Nat.mul_succ, mul_comm, ← Nat.div_lt_iff_lt_mul hD, found]
  omega

end Found

/-- **Shift and subtract**: from `D * 2 ^ k`, `k + 1` rounds find the quotient by `D`
as far as `k + 1` bits go, and leave the rest. -/
theorem rounds_eq {D : ℕ} (hD : 0 < D) (k n q : ℕ) :
    rounds (k + 1) n (D * 2 ^ k) q
      = (q * 2 ^ (k + 1) + found k n D, n - D * found k n D) := by
  induction k generalizing n q with
  | zero =>
    rw [rounds, pow_zero, mul_one]
    by_cases h : D ≤ n
    · rw [if_pos h, rounds, found_zero_of_le hD h, mul_one]
      congr 1
      ring
    · rw [if_neg h, rounds, found_of_lt (not_le.mp h), mul_zero, tsub_zero]
      congr 1
      ring
  | succ k ih =>
    have hhalf : D * 2 ^ (k + 1) / 2 = D * 2 ^ k := by
      rw [pow_succ, ← mul_assoc, Nat.mul_div_cancel _ (by decide : 0 < 2)]
    rw [rounds, hhalf]
    by_cases h : D * 2 ^ (k + 1) ≤ n
    · rw [if_pos h, ih, found_succ_of_le hD h, mul_add, Nat.sub_sub, add_comm (D * 2 ^ (k + 1))]
      congr 1
      ring
    · rw [if_neg h, ih, found_succ_of_lt (not_le.mp h)]
      congr 1
      ring

/-! ### The schoolbook division -/

/-- The quotient of the high digit, with the quotient of what it leaves over the low one. -/
theorem schoolbook (hi lo r W : ℕ) :
    hi / r * W + (hi % r * W + lo) / r = (hi * W + lo) / r ∧
      (hi % r * W + lo) % r = (hi * W + lo) % r := by
  rcases Nat.eq_zero_or_pos r with rfl | hr
  · simp
  have hsplit : hi * W + lo = hi % r * W + lo + r * (hi / r * W) := by
    calc hi * W + lo = (r * (hi / r) + hi % r) * W + lo := by rw [Nat.div_add_mod]
      _ = _ := by ring
  rw [hsplit, Nat.add_mul_div_left _ _ hr, Nat.add_mul_mod_self_left]
  exact ⟨add_comm _ _, rfl⟩

/-- A quotient digit fits, when the digit above was smaller than the divisor. -/
theorem div_lt_of_digit_lt {hi lo r W : ℕ} (hhi : hi < r) (hlo : lo < W) :
    (hi * W + lo) / r < W := by
  rw [Nat.div_lt_iff_lt_mul (hhi.trans_le' (Nat.zero_le _))]
  calc hi * W + lo < (hi + 1) * W := by rw [add_one_mul]; omega
    _ ≤ r * W := Nat.mul_le_mul_right W hhi
    _ = W * r := mul_comm _ _

end LongDivision
