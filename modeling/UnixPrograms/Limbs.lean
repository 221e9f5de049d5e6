/-
Numbers in several registers.

`limb w i v` is the `i`-th register of `v`, each of `w` bits and the lowest one
first.  Two numbers are added limb by limb, with a carry between them:

* `limb_add`, `carry_succ` — the sum of two limbs and the carry below them is a
  limb of the sum, with the carry above;
* `limbs w v` — all limbs that `v` needs, the highest one first (`ofDigits_limbs`).
-/
import Mathlib.Tactic
import Mathlib.Data.Nat.Digits.Lemmas
import Mathlib.Data.BitVec

namespace Limbs

/-- The limb number `i` of a number. -/
def limb (w i v : ℕ) : BitVec w := BitVec.ofNat w (v / 2 ^ (w * i))

/-- The lowest `i` limbs of two numbers add up to one more limb. -/
def carry (w i x y : ℕ) : Bool := 2 ^ (w * i) ≤ x % 2 ^ (w * i) + y % 2 ^ (w * i)

variable {w : ℕ} (i x y v : ℕ)

theorem toNat_limb : (limb w i v).toNat = v / 2 ^ (w * i) % 2 ^ w :=
  BitVec.toNat_ofNat _ _

theorem limb_succ : limb w (i + 1) v = limb w i (v / 2 ^ w) := by
  rw [limb, limb, Nat.div_div_eq_div_mul, ← pow_add, mul_add, mul_one, add_comm]

theorem carry_zero : carry w 0 x y = false := by
  simp [carry, Nat.mod_one]

variable {v} in
theorem limb_eq_zero (h : v < 2 ^ (w * i)) : limb w i v = 0 := by
  rw [limb, Nat.div_eq_of_lt h]
  rfl

variable {x y} in
theorem carry_eq_false (h : x + y < 2 ^ (w * i)) : carry w i x y = false := by
  refine decide_eq_false ?_
  have hx := Nat.mod_le x (2 ^ (w * i))
  have hy := Nat.mod_le y (2 ^ (w * i))
  omega

variable {x y} in
theorem carry_eq_true (hx : x < 2 ^ (w * i)) (hy : y < 2 ^ (w * i)) (h : 2 ^ (w * i) ≤ x + y) :
    carry w i x y = true := by
  rw [carry, Nat.mod_eq_of_lt hx, Nat.mod_eq_of_lt hy]
  exact decide_eq_true h

/-- The carry is what the sum of two numbers has on top of their own limbs. -/
theorem add_div_limb :
    (x + y) / 2 ^ (w * i) = x / 2 ^ (w * i) + y / 2 ^ (w * i) + (carry w i x y).toNat := by
  rw [Nat.add_div (Nat.two_pow_pos _), carry]
  split <;> simp [*]

/-- **Adding limbs**: with the carry from below, the limb of the sum. -/
theorem limb_add :
    limb w i x + limb w i y + BitVec.ofNat w (carry w i x y).toNat = limb w i (x + y) := by
  rw [limb, limb, limb, add_div_limb, BitVec.ofNat_add, BitVec.ofNat_add]

/-- What two remainders add up to beyond one modulus. -/
theorem mod_add_mod_div :
    (x % 2 ^ (w * i) + y % 2 ^ (w * i)) / 2 ^ (w * i) = (carry w i x y).toNat := by
  have hx := Nat.mod_lt x (Nat.two_pow_pos (w * i))
  have hy := Nat.mod_lt y (Nat.two_pow_pos (w * i))
  rw [carry]
  by_cases h : 2 ^ (w * i) ≤ x % 2 ^ (w * i) + y % 2 ^ (w * i)
  · rw [decide_eq_true h]
    exact Nat.div_eq_of_lt_le (by simpa using h) (by rw [Bool.toNat_true]; omega)
  · rw [decide_eq_false h]
    exact Nat.div_eq_of_lt (by omega)

/-- The carry to the next limb. -/
theorem carry_succ :
    carry w (i + 1) x y =
      decide (2 ^ w ≤ (limb w i x).toNat + (limb w i y).toNat + (carry w i x y).toNat) := by
  rw [toNat_limb, toNat_limb, carry, decide_eq_decide]
  have hpow : 2 ^ (w * (i + 1)) = 2 ^ (w * i) * 2 ^ w := by rw [← pow_add, mul_add, mul_one]
  rw [hpow, Nat.mod_mul, Nat.mod_mul, mul_comm, ← Nat.le_div_iff_mul_le (Nat.two_pow_pos _)]
  have hsum : (x % 2 ^ (w * i) + 2 ^ (w * i) * (x / 2 ^ (w * i) % 2 ^ w) +
      (y % 2 ^ (w * i) + 2 ^ (w * i) * (y / 2 ^ (w * i) % 2 ^ w))) / 2 ^ (w * i)
      = x / 2 ^ (w * i) % 2 ^ w + y / 2 ^ (w * i) % 2 ^ w
        + (x % 2 ^ (w * i) + y % 2 ^ (w * i)) / 2 ^ (w * i) := by
    rw [add_comm (x / 2 ^ (w * i) % 2 ^ w + _),
      ← Nat.add_mul_div_left _ _ (Nat.two_pow_pos (w * i))]
    congr 1
    ring
  rw [hsum, mod_add_mod_div]

/-! ### All limbs of a number -/

/-- The limbs of a number, without leading zeros, the highest one first. -/
def limbs (w v : ℕ) : List (BitVec w) := ((Nat.digits (2 ^ w) v).map (BitVec.ofNat w)).reverse

/-- The limbs stand for the number. -/
theorem ofDigits_limbs (hw : 0 < w) :
    Nat.ofDigits (2 ^ w) ((limbs w v).reverse.map BitVec.toNat) = v := by
  have hone : 1 < 2 ^ w := Nat.one_lt_two_pow hw.ne'
  rw [limbs, List.reverse_reverse, List.map_map]
  have hsame : (Nat.digits (2 ^ w) v).map (BitVec.toNat ∘ BitVec.ofNat w)
      = Nat.digits (2 ^ w) v := by
    refine (List.map_congr_left fun d hd => ?_).trans (List.map_id _)
    exact (BitVec.toNat_ofNat d w).trans (Nat.mod_eq_of_lt (Nat.digits_lt_base hone hd))
  rw [hsame, Nat.ofDigits_digits]

variable {v}

theorem limbs_one (hpos : 0 < v) (h : v < 2 ^ w) : limbs w v = [limb w 0 v] := by
  rw [limbs, Nat.digits_of_lt _ _ hpos.ne' h]
  simp [limb]

/-- A number that does not fit into a register has one more limb than its upper part. -/
theorem limbs_append (hw : 0 < w) (h : 2 ^ w ≤ v) :
    limbs w v = limbs w (v / 2 ^ w) ++ [limb w 0 v] := by
  have hpos : 0 < v := (Nat.two_pow_pos w).trans_le h
  rw [limbs, Nat.digits_def' (Nat.one_lt_two_pow hw.ne') hpos, List.map_cons, List.reverse_cons,
    limbs]
  rw [limb, mul_zero, pow_zero, Nat.div_one]
  congr 2
  exact BitVec.eq_of_toNat_eq (by simp)

end Limbs
