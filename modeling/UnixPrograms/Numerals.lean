/-
Numbers written out in digits, as `printf` does it.

* `written base v` — the digits of `v`, the highest one first;
* `value base ds` — the number that digits stand for;
* `chunks base w vs` — several numbers in a row, each after the first padded with
  zeros to `w` digits (`%lo%016lo`);
* `value_chunks` — they are the digits of one number in base `base ^ w` if each
  padded number has at most `w` digits, and stand for more otherwise
  (`joined_le_value_chunks`);
* `chunks_eq_written` — without leading zeros, they are that number written out.

`numeral_map` leads back to the strings of `Bytes`.
-/
import Mathlib.Data.Nat.Digits.Lemmas
import UnixPrograms.Bytes

namespace Numerals

open Bytes

/-- The character of a digit below 10. -/
def digitChar (d : ℕ) : Byte := BitVec.ofNat 8 (0x30 + d)

/-- The character of a hexadecimal digit, of upper case. -/
def hexChar (d : ℕ) : Byte := if d < 10 then digitChar d else BitVec.ofNat 8 (0x37 + d)

/-- A character as a digit below `base`, for a base of at most 10. -/
def digitBelow (base : ℕ) (c : Byte) : Option ℕ :=
  if 0x30 ≤ c.toNat ∧ c.toNat < 0x30 + base then some (c.toNat - 0x30) else none

/-- The digits of a number, without leading zeros. -/
def written (base v : ℕ) : List ℕ := if v = 0 then [0] else (Nat.digits base v).reverse

/-- The number that some digits stand for. -/
def value (base : ℕ) (ds : List ℕ) : ℕ := Nat.ofDigits base ds.reverse

/-- Several numbers in a row, all but the first one padded with zeros. -/
def chunks (base w : ℕ) : List ℕ → List ℕ
  | [] => []
  | v :: vs => written base v ++ vs.flatMap fun v => (written base v).leftpad w 0

/-- The number whose digits in base `base ^ w` these are. -/
def joined (base w : ℕ) (vs : List ℕ) : ℕ := vs.foldl (fun n v => n * base ^ w + v) 0

variable {base w v : ℕ} {ds es vs : List ℕ}

/-! ### Digits as characters -/

theorem toNat_digitChar {d : ℕ} (h : d < 10) : (digitChar d).toNat = 0x30 + d := by
  rw [digitChar, BitVec.toNat_ofNat]
  omega

theorem digitChar_ne_zero {d : ℕ} (h : d < 10) : digitChar d ≠ 0 := by
  intro hzero
  have hval := congrArg BitVec.toNat hzero
  rw [toNat_digitChar h] at hval
  exact absurd hval (by simp)

theorem digitBelow_digitChar (hbase : base ≤ 10) {d : ℕ} (h : d < base) :
    digitBelow base (digitChar d) = some d := by
  rw [digitBelow, toNat_digitChar (by omega), if_pos (by omega), Nat.add_sub_cancel_left]

/-- **The string of some digits** stands for what the digits stand for. -/
theorem numeral_map {digit : Byte → Option ℕ} {char : ℕ → Byte}
    (hdigit : ∀ d < base, char d ≠ 0 ∧ digit (char d) = some d) (hds : ∀ d ∈ ds, d < base) :
    numeral base digit (ds.map char) = some (value base ds) := by
  have hdigits : digits digit (ds.map char) = some ds := by
    induction ds with
    | nil => rfl
    | cons d ds ih =>
      obtain ⟨hne, hd⟩ := hdigit d (hds d List.mem_cons_self)
      rw [List.map_cons, digits_cons hne, hd,
        ih fun e he => hds e (List.mem_cons_of_mem d he)]
      rfl
  rw [numeral, hdigits]
  rfl

theorem numeral_map_digitChar (hbase : base ≤ 10) (hds : ∀ d ∈ ds, d < base) :
    numeral base (digitBelow base) (ds.map digitChar) = some (value base ds) :=
  numeral_map (fun d hd => ⟨digitChar_ne_zero (by omega), digitBelow_digitChar hbase hd⟩) hds

/-! ### Digits and values -/

theorem value_append : value base (ds ++ es) = value base ds * base ^ es.length + value base es := by
  rw [value, List.reverse_append, Nat.ofDigits_append, List.length_reverse, value, value]
  ring

theorem value_singleton (d : ℕ) : value base [d] = d := Nat.ofDigits_singleton

theorem value_cons (d : ℕ) (ds : List ℕ) :
    value base (d :: ds) = d * base ^ ds.length + value base ds := by
  rw [← List.singleton_append, value_append, value_singleton]

theorem value_lt (hbase : 1 < base) (hds : ∀ d ∈ ds, d < base) :
    value base ds < base ^ ds.length := by
  have hlt := Nat.ofDigits_lt_base_pow_length hbase fun d hd => hds d (List.mem_reverse.mp hd)
  rwa [List.length_reverse] at hlt

/-- Digits of one number, and as many of them, are the same. -/
theorem eq_of_value_eq (hbase : 1 < base) (hds : ∀ d ∈ ds, d < base) (hes : ∀ d ∈ es, d < base)
    (hlen : ds.length = es.length) (h : value base ds = value base es) : ds = es := by
  refine List.reverse_injective (Nat.ofDigits_inj_of_len_eq hbase ?_ ?_ ?_ h)
  · rw [List.length_reverse, List.length_reverse, hlen]
  · exact fun d hd => hds d (List.mem_reverse.mp hd)
  · exact fun d hd => hes d (List.mem_reverse.mp hd)

theorem value_written : value base (written base v) = v := by
  rw [written]
  split_ifs with h
  · rw [h]
    rfl
  · rw [value, List.reverse_reverse, Nat.ofDigits_digits]

theorem value_leftpad : value base (ds.leftpad w 0) = value base ds := by
  rw [List.leftpad, value_append]
  have hzero : value base (List.replicate (w - ds.length) 0) = 0 := by
    rw [value, List.reverse_replicate, Nat.ofDigits_replicate_zero]
  rw [hzero, zero_mul, zero_add]

theorem lt_of_mem_written (hbase : 1 < base) {d : ℕ} (h : d ∈ written base v) : d < base := by
  rw [written] at h
  split_ifs at h
  · rw [List.mem_singleton.mp h]
    omega
  · exact Nat.digits_lt_base hbase (List.mem_reverse.mp h)

theorem lt_of_mem_leftpad (hbase : 0 < base) (hds : ∀ d ∈ ds, d < base) {d : ℕ}
    (h : d ∈ ds.leftpad w 0) : d < base := by
  rcases List.mem_append.mp h with hzero | hmem
  · rw [List.eq_of_mem_replicate hzero]
    exact hbase
  · exact hds d hmem

theorem length_written_le_iff (hbase : 1 < base) (hw : 0 < w) :
    (written base v).length ≤ w ↔ v < base ^ w := by
  rw [written]
  split_ifs with h
  · refine iff_of_true hw ?_
    rw [h]
    exact Nat.pow_pos (by omega)
  · rw [List.length_reverse, Nat.digits_length_le_iff hbase]

/-! ### Several numbers in a row -/

theorem lt_of_mem_chunks (hbase : 1 < base) {d : ℕ} (h : d ∈ chunks base w vs) : d < base := by
  rcases vs with _ | ⟨v, vs⟩
  · exact absurd h (by simp [chunks])
  · rcases List.mem_append.mp h with hfirst | hmore
    · exact lt_of_mem_written hbase hfirst
    · obtain ⟨u, -, hu⟩ := List.mem_flatMap.mp hmore
      exact lt_of_mem_leftpad (by omega) (fun e => lt_of_mem_written hbase) hu

/-- One padded number more. -/
theorem value_append_leftpad :
    value base (ds ++ (written base v).leftpad w 0) =
      value base ds * base ^ max w (written base v).length + v := by
  rw [value_append, List.length_leftpad, value_leftpad, value_written]

/-- Padded numbers stand for at least their digits in base `base ^ w`. -/
theorem foldl_le_value (hbase : 0 < base) (n : ℕ) (hn : n ≤ value base ds) :
    vs.foldl (fun n v => n * base ^ w + v) n ≤
      value base (ds ++ vs.flatMap fun v => (written base v).leftpad w 0) := by
  induction vs generalizing n ds with
  | nil => simpa using hn
  | cons v vs ih =>
    rw [List.foldl_cons, List.flatMap_cons, ← List.append_assoc]
    refine ih _ ?_
    rw [value_append_leftpad]
    have hpow : base ^ w ≤ base ^ max w (written base v).length :=
      Nat.pow_le_pow_right hbase (Nat.le_max_left _ _)
    exact Nat.add_le_add_right (Nat.mul_le_mul hn hpow) v

/-- Padded numbers of at most `w` digits are digits in base `base ^ w`. -/
theorem foldl_eq_value (hbase : 1 < base) (hw : 0 < w) (hvs : ∀ v ∈ vs, v < base ^ w) :
    vs.foldl (fun n v => n * base ^ w + v) (value base ds) =
      value base (ds ++ vs.flatMap fun v => (written base v).leftpad w 0) := by
  induction vs generalizing ds with
  | nil => simp
  | cons v vs ih =>
    have hlen := (length_written_le_iff hbase hw).mpr (hvs v List.mem_cons_self)
    have hfirst : value base ds * base ^ w + v = value base (ds ++ (written base v).leftpad w 0) := by
      rw [value_append_leftpad, Nat.max_eq_left hlen]
    rw [List.foldl_cons, List.flatMap_cons, ← List.append_assoc, hfirst]
    exact ih fun u hu => hvs u (List.mem_cons_of_mem v hu)

theorem joined_le_value_chunks (hbase : 0 < base) :
    joined base w vs ≤ value base (chunks base w vs) := by
  rcases vs with _ | ⟨v, vs⟩
  · exact Nat.zero_le _
  · rw [joined, List.foldl_cons, zero_mul, zero_add]
    exact foldl_le_value hbase v value_written.ge

/-- **Numbers in a row** are the digits of one number in base `base ^ w`. -/
theorem value_chunks (hbase : 1 < base) (hw : 0 < w) (hvs : ∀ u ∈ vs, u < base ^ w) :
    value base (chunks base w (v :: vs)) = joined base w (v :: vs) := by
  rw [joined, List.foldl_cons, zero_mul, zero_add, chunks, ← foldl_eq_value hbase hw hvs,
    value_written]

/-! ### Leading zeros -/

theorem head?_written (hv : v ≠ 0) : (written base v).head? ≠ some 0 := by
  rw [written, if_neg hv, List.head?_reverse]
  intro h
  rw [List.getLast?_eq_some_getLast (Nat.digits_ne_nil_iff_ne_zero.mpr hv)] at h
  exact Nat.getLast_digit_ne_zero base hv (Option.some.inj h)

/-- Digits that do not start with a zero are the digits of their number. -/
theorem written_value (hbase : 1 < base) (hds : ∀ d ∈ ds, d < base) (hne : ds ≠ [])
    (hhead : ds.head? ≠ some 0) : written base (value base ds) = ds := by
  have hrev : ds.reverse ≠ [] := List.reverse_ne_nil_iff.mpr hne
  have hlast : ∀ h : ds.reverse ≠ [], ds.reverse.getLast h ≠ 0 := by
    intro h hzero
    rw [List.getLast_reverse, List.head_eq_iff_head?_eq_some] at hzero
    exact hhead hzero
  have hdigits : Nat.digits base (value base ds) = ds.reverse :=
    Nat.digits_ofDigits base hbase _ (fun d hd => hds d (List.mem_reverse.mp hd)) hlast
  have hpos : value base ds ≠ 0 := by
    intro hzero
    rw [hzero, Nat.digits_zero] at hdigits
    exact hrev hdigits.symm
  rw [written, if_neg hpos, hdigits, List.reverse_reverse]

/-- Numbers in a row that start with a zero stand for less than one digit in front of
the others. -/
theorem foldl_lt (hvs : ∀ u ∈ vs, u < base ^ w) (n : ℕ) :
    vs.foldl (fun n v => n * base ^ w + v) n < (n + 1) * (base ^ w) ^ vs.length := by
  induction vs generalizing n with
  | nil => simp
  | cons v vs ih =>
    obtain ⟨hv, hvs⟩ := List.forall_mem_cons.mp hvs
    rw [List.foldl_cons, List.length_cons, pow_succ', ← mul_assoc]
    refine (ih hvs _).trans_le (Nat.mul_le_mul_right _ ?_)
    rw [add_one_mul]
    omega

/-- **A row of numbers without leading zeros** is one number, written out. -/
theorem chunks_eq_written (hbase : 1 < base) (hw : 0 < w) (hvs : ∀ u ∈ vs, u < base ^ w)
    (h : vs = [] ∨ (base ^ w) ^ vs.length ≤ joined base w (v :: vs)) :
    chunks base w (v :: vs) = written base (joined base w (v :: vs)) := by
  rcases h with rfl | h
  · rw [chunks, List.flatMap_nil, List.append_nil, joined, List.foldl_cons, List.foldl_nil,
      zero_mul, zero_add]
  have hv : v ≠ 0 := by
    rintro rfl
    refine h.not_gt ?_
    rw [joined, List.foldl_cons, zero_mul, zero_add]
    simpa using foldl_lt hvs 0
  have hwritten : written base v ≠ [] := by
    rw [written, if_neg hv]
    exact List.reverse_ne_nil_iff.mpr (Nat.digits_ne_nil_iff_ne_zero.mpr hv)
  rw [← value_chunks hbase hw hvs]
  refine (written_value hbase (fun d hd => lt_of_mem_chunks hbase hd) ?_ ?_).symm
  · exact List.append_ne_nil_of_left_ne_nil hwritten _
  · rw [chunks, List.head?_append_of_ne_nil _ hwritten]
    exact head?_written hv

end Numerals
