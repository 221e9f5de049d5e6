/-
Numbers of 128 bits in decimal: `int128printf.c` and `fibo128.c`.

`print128` prints a number in groups of three digits with a separator between them, and
`Mk128` reads a number, passing over commas, blanks and points:

* `groups_digits`, `groups_clean` — the digits of the groups are those of the number;
* `mk128_print128_iff` — what was printed is read back, for separators of these
  characters and for no others;
* `fibo_agrees` — the program `fibo.s` prints the numbers of the loop of `fibo128.c`,
  which stops at the last one that has 128 bits.

The recursion on the smallest number does not end: it has no negative in `__int128`.
-/
import UnixPrograms.Fibo

namespace Int128

open Bytes Numerals

/-! ### `Mk128` -/

/-- The characters that `Mk128` passes over. -/
def isGrouping (c : Byte) : Bool := c = 0x2c || c = 0x20 || c = 0x2e

/-- The loop of `Mk128`, with `*p128` so far: what is returned, and `*p128`. -/
def collect (p128 : BitVec 128) : CString → ℕ × BitVec 128
  | [] => (1, p128)
  | c :: str =>
    if c = 0 then (1, p128)
    else
      match decDigit c with
      | some d => collect (p128 * 10 + BitVec.ofNat 128 d) str
      | none => if isGrouping c then collect p128 str else (0, p128)

/-- `Mk128`: what is returned, and `*p128`. -/
def mk128 (str : CString) : ℕ × BitVec 128 :=
  let (mult, str) : BitVec 128 × CString :=
    match str with
    | [] => (1, [])
    | c :: s => if c = 0x2d then (-1, s) else (1, c :: s)
  match collect 0 str with
  | (0, p128) => (0, p128)
  | (ret, p128) => (ret, p128 * mult)

/-! ### `print128` -/

/-- `"%d"`, of a number that is not negative. -/
def formatD (n : ℕ) : List Byte := (written 10 n).map digitChar

/-- `"%03d"`. -/
def format03d (n : ℕ) : List Byte := ((written 10 n).leftpad 3 0).map digitChar

/-- `print128` of `fibo128.c`, whose argument has no sign. -/
def printUnsigned (x : ℕ) (sep : CString) : List Byte :=
  if x < 1000 then formatD x
  else printUnsigned (x / 1000) sep ++ (sep ++ format03d (x % 1000))

/-- `print128` of `int128printf.c`. -/
def print128 (x : ℤ) (sep : CString) : Option (List Byte) :=
  if x < 0 then
    -- the negation is not in `__int128`
    if x = -2 ^ 127 then none
    else (print128 (-x) sep).map (0x2d :: ·)
  else if x < 1000 then some (formatD x.toNat)
  else (print128 (x.tdiv 1000) sep).map (· ++ (sep ++ format03d (x.tmod 1000).toNat))
termination_by 2 * x.natAbs + if x < 0 then 1 else 0
decreasing_by
  · rw [if_neg (by omega), if_pos ‹_›]
    omega
  · rw [Int.tdiv_eq_ediv_of_nonneg (by omega), if_neg (by omega), if_neg (by omega)]
    omega

/-! ### `fibo128.c` -/

/-- The loop of `main`: of each line `"Fib(%lu) is "`, the number in it and what `print128`
prints behind it. -/
def fibLoop : ℕ → ℕ → BitVec 128 → BitVec 128 → List (ℕ × List Byte)
  | 0, _, _, _ => []
  | rounds + 1, n, num2, next =>
    -- `num1` and `num2` are the old `num2` and `next`
    (n, printUnsigned next.toNat []) :: fibLoop rounds (n + 1) next (num2 + next)

/-- `main`: `n` goes from 0 to 184. -/
def main : List (ℕ × List Byte) := fibLoop 185 0 1 (0 + 1)

/-! ### The digits of the groups -/

variable {sep s t : List Byte} {n : ℕ}

theorem decDigit_digitChar {d : ℕ} (h : d < 10) : decDigit (digitChar d) = some d := by
  rw [decDigit, toNat_digitChar h]
  rw [if_neg (by omega), if_neg (by omega), Nat.add_sub_cancel_left]

theorem filterMap_decDigit {ds : List ℕ} (h : ∀ d ∈ ds, d < 10) :
    (ds.map digitChar).filterMap decDigit = ds := by
  induction ds with
  | nil => rfl
  | cons d ds ih =>
    obtain ⟨hd, hds⟩ := List.forall_mem_cons.mp h
    rw [List.map_cons, List.filterMap_cons_some (decDigit_digitChar hd), ih hds]

theorem lt_of_mem_leftpad_written {d : ℕ} (h : d ∈ (written 10 n).leftpad 3 0) : d < 10 :=
  lt_of_mem_leftpad (by decide) (fun _ => lt_of_mem_written (by decide)) h

/-- A number from 1000 on is the one above its last three digits, and these. -/
theorem written_groups (h : 1000 ≤ n) :
    written 10 n = written 10 (n / 1000) ++ (written 10 (n % 1000)).leftpad 3 0 := by
  have hjoined : joined 10 3 [n / 1000, n % 1000] = n := by
    simp only [joined, List.foldl_cons, List.foldl_nil]
    omega
  have hchunks : chunks 10 3 [n / 1000, n % 1000] =
      written 10 (joined 10 3 [n / 1000, n % 1000]) := by
    refine chunks_eq_written (by decide) (by decide) ?_ (Or.inr ?_)
    · intro u hu
      rw [List.mem_singleton.mp hu]
      omega
    · rw [hjoined]
      exact h
  rw [hjoined] at hchunks
  rw [← hchunks, chunks, List.flatMap_singleton]

/-- **The digits printed**, whatever stands between them. -/
theorem groups_digits (hsep : ∀ c ∈ sep, decDigit c = none) :
    (printUnsigned n sep).filterMap decDigit = written 10 n := by
  induction n using Nat.strong_induction_on with
  | h n ih =>
    rw [printUnsigned]
    split_ifs with h
    · exact filterMap_decDigit fun d => lt_of_mem_written (by decide)
    · have hnone : sep.filterMap decDigit = [] := List.filterMap_eq_nil_iff.mpr hsep
      rw [List.filterMap_append, List.filterMap_append, hnone, List.nil_append,
        ih (n / 1000) (by omega), format03d,
        filterMap_decDigit fun d => lt_of_mem_leftpad_written, ← written_groups (by omega)]

theorem written_ne_nil (n : ℕ) : written 10 n ≠ [] := by
  rw [written]
  split_ifs with h
  · simp
  · exact List.reverse_ne_nil_iff.mpr (Nat.digits_ne_nil_iff_ne_zero.mpr h)

theorem foldl_written (n : ℕ) : (written 10 n).foldl (fun v d => v * 10 + d) 0 = n := by
  rw [← ofDigits_reverse]
  exact value_written

/-- What is printed is digits, and characters of the separator. -/
theorem mem_printUnsigned {c : Byte} (hc : c ∈ printUnsigned n sep) :
    (decDigit c).isSome ∨ c ∈ sep := by
  have hdigit : ∀ ds : List ℕ, (∀ d ∈ ds, d < 10) → c ∈ ds.map digitChar →
      (decDigit c).isSome := by
    intro ds hds hmem
    obtain ⟨d, hd, rfl⟩ := List.mem_map.mp hmem
    rw [decDigit_digitChar (hds d hd)]
    rfl
  induction n using Nat.strong_induction_on with
  | h n ih =>
    rw [printUnsigned] at hc
    split_ifs at hc with h
    · exact Or.inl (hdigit _ (fun d => lt_of_mem_written (by decide)) hc)
    · rcases List.mem_append.mp hc with hc | hc
      · exact ih (n / 1000) (by omega) hc
      · rcases List.mem_append.mp hc with hc | hc
        · exact Or.inr hc
        · exact Or.inl (hdigit _ (fun d => lt_of_mem_leftpad_written) hc)

/-- The separator is printed from 1000 on. -/
theorem sep_subset_printUnsigned (h : 1000 ≤ n) {c : Byte} (hc : c ∈ sep) :
    c ∈ printUnsigned n sep := by
  rw [printUnsigned, if_neg (by omega)]
  exact List.mem_append_right _ (List.mem_append_left _ hc)

/-! ### Reading -/

/-- What a string without other characters adds to the number. -/
theorem collect_clean (hs : ∀ c ∈ s, c ≠ 0 ∧ ((decDigit c).isSome ∨ isGrouping c)) (v : ℕ) :
    collect (BitVec.ofNat 128 v) s =
      (1, BitVec.ofNat 128 ((s.filterMap decDigit).foldl (fun v d => v * 10 + d) v)) := by
  induction s generalizing v with
  | nil => rfl
  | cons c s ih =>
    obtain ⟨⟨hne, hc⟩, hs⟩ := List.forall_mem_cons.mp hs
    rw [collect, if_neg hne]
    cases hd : decDigit c with
    | none =>
      rw [List.filterMap_cons_none hd]
      rw [hd] at hc
      show (if isGrouping c = true then _ else _) = _
      rw [if_pos (hc.resolve_left (by simp))]
      exact ih hs v
    | some d =>
      rw [List.filterMap_cons_some hd, List.foldl_cons, ← ih hs, BitVec.ofNat_add,
        BitVec.ofNat_mul]
      rfl

/-- Any other character ends the reading. -/
theorem collect_bad (hs : ∀ c ∈ s, c ≠ 0)
    (hbad : ∃ c ∈ s, decDigit c = none ∧ ¬isGrouping c) (p128 : BitVec 128) :
    (collect p128 s).1 = 0 := by
  induction s generalizing p128 with
  | nil =>
    obtain ⟨c, hc, _⟩ := hbad
    exact absurd hc (by simp)
  | cons c s ih =>
    obtain ⟨hne, hs⟩ := List.forall_mem_cons.mp hs
    rw [collect, if_neg hne]
    obtain ⟨e, he, hnone, hgroup⟩ := hbad
    rcases List.mem_cons.mp he with rfl | he
    · rw [hnone]
      show (if isGrouping e = true then _ else _ : ℕ × BitVec 128).1 = 0
      rw [if_neg hgroup]
    · cases decDigit c with
      | some d => exact ih hs ⟨e, he, hnone, hgroup⟩ _
      | none =>
        show (if isGrouping c = true then _ else _ : ℕ × BitVec 128).1 = 0
        split
        · exact ih hs ⟨e, he, hnone, hgroup⟩ _
        · rfl

theorem ne_zero_of_isSome {c : Byte} (h : (decDigit c).isSome) : c ≠ 0 := by
  rintro rfl
  exact absurd h (by decide)

/-- A separator that is no part of a number. -/
def Separator (sep : List Byte) : Prop := ∀ c ∈ sep, c ≠ 0 ∧ decDigit c = none

theorem printUnsigned_of_lt (h : n < 1000) : printUnsigned n sep = printUnsigned n [] := by
  rw [printUnsigned, if_pos h, printUnsigned, if_pos h]

/-- What is printed starts with a digit. -/
theorem printUnsigned_eq_cons (n : ℕ) (sep : List Byte) :
    ∃ c s, printUnsigned n sep = c :: s ∧ (decDigit c).isSome := by
  induction n using Nat.strong_induction_on with
  | h n ih =>
    rw [printUnsigned]
    split_ifs with h
    · obtain ⟨d, ds, hds⟩ := List.exists_cons_of_ne_nil (written_ne_nil n)
      have hd : d < 10 := lt_of_mem_written (v := n) (by decide) (by rw [hds]; simp)
      refine ⟨digitChar d, ds.map digitChar, by rw [formatD, hds, List.map_cons], ?_⟩
      rw [decDigit_digitChar hd]
      rfl
    · obtain ⟨c, s, hs, hc⟩ := ih (n / 1000) (by omega)
      exact ⟨c, s ++ (sep ++ format03d (n % 1000)), by rw [hs]; rfl, hc⟩

/-- Groups apart by characters that are passed over are read back. -/
theorem collect_groups (hsep : Separator sep) (h : n < 1000 ∨ ∀ c ∈ sep, isGrouping c) :
    collect 0 (printUnsigned n sep) = (1, BitVec.ofNat 128 n) := by
  have hclean : ∀ us : List Byte, Separator us → (∀ c ∈ us, isGrouping c) →
      collect 0 (printUnsigned n us) = (1, BitVec.ofNat 128 n) := by
    intro us hus hgroup
    have hall := collect_clean (s := printUnsigned n us) (fun c hc => ?_) 0
    · rw [groups_digits fun c hc => (hus c hc).2, foldl_written] at hall
      exact hall
    · rcases mem_printUnsigned hc with hdigit | hmem
      · exact ⟨ne_zero_of_isSome hdigit, Or.inl hdigit⟩
      · exact ⟨(hus c hmem).1, Or.inr (hgroup c hmem)⟩
  rcases h with hsmall | hgroup
  · rw [printUnsigned_of_lt hsmall]
    exact hclean [] (fun c hc => absurd hc (by simp)) fun c hc => absurd hc (by simp)
  · exact hclean sep hsep hgroup

/-- Any other character of the separator ends the reading at once. -/
theorem collect_not_groups (hsep : Separator sep)
    (h : ¬(n < 1000 ∨ ∀ c ∈ sep, isGrouping c)) : (collect 0 (printUnsigned n sep)).1 = 0 := by
  simp only [not_or, not_forall, not_lt] at h
  obtain ⟨hlarge, c, hc, hgroup⟩ := h
  refine collect_bad (fun e he => ?_) ⟨c, ?_, (hsep c hc).2, hgroup⟩ 0
  · rcases mem_printUnsigned he with hdigit | hmem
    · exact ne_zero_of_isSome hdigit
    · exact (hsep e hmem).1
  · exact sep_subset_printUnsigned hlarge hc

/-! ### The sign -/

theorem mk128_printUnsigned (n : ℕ) (sep : List Byte) :
    mk128 (printUnsigned n sep) = collect 0 (printUnsigned n sep) := by
  obtain ⟨c, s, hs, hc⟩ := printUnsigned_eq_cons n sep
  have hne : c ≠ 0x2d := by
    rintro rfl
    exact absurd hc (by decide)
  rw [hs, mk128]
  simp only [if_neg hne]
  rcases collect 0 (c :: s) with ⟨_ | ret, p128⟩
  · rfl
  · simp

theorem mk128_minus (s : List Byte) :
    mk128 (0x2d :: s) =
      ((collect 0 s).1, if (collect 0 s).1 = 0 then (collect 0 s).2 else -(collect 0 s).2) := by
  rw [mk128]
  simp only [if_pos]
  rcases collect 0 s with ⟨_ | ret, p128⟩
  · rfl
  · exact Prod.ext rfl (mul_neg_one p128)

theorem print128_natCast (n : ℕ) : print128 n sep = some (printUnsigned n sep) := by
  induction n using Nat.strong_induction_on with
  | h n ih =>
    rw [print128, printUnsigned]
    rw [if_neg (by omega)]
    split_ifs with hz hn
    · rw [Int.toNat_natCast]
    · omega
    · omega
    · have hdiv : (n : ℤ).tdiv 1000 = (n / 1000 : ℕ) := rfl
      have hmod : (n : ℤ).tmod 1000 = (n % 1000 : ℕ) := rfl
      rw [hdiv, hmod, ih (n / 1000) (by omega), Int.toNat_natCast]
      rfl

/-- A sign, and the number without it. -/
theorem print128_neg {x : ℤ} (hx : x < 0) (hmin : x ≠ -2 ^ 127) :
    print128 x sep = some (0x2d :: printUnsigned x.natAbs sep) := by
  rw [print128, if_pos hx, if_neg hmin, show -x = (x.natAbs : ℤ) by omega, print128_natCast]
  rfl

/-- **The round trip.**  Every number that has a negative is printed, and what is printed
for it is read back as the number if and only if the number is of one group, or the
separator has only characters that `Mk128` passes over. -/
theorem mk128_print128_iff {x : ℤ} (hx : -2 ^ 127 < x ∧ x < 2 ^ 127) (hsep : Separator sep) :
    ∃ s, print128 x sep = some s ∧
      (mk128 s = (1, BitVec.ofInt 128 x) ↔ x.natAbs < 1000 ∨ ∀ c ∈ sep, isGrouping c) := by
  rcases lt_or_ge x 0 with hneg | hpos
  · refine ⟨_, print128_neg hneg (by omega), ?_⟩
    have hval : BitVec.ofInt 128 x = -BitVec.ofNat 128 x.natAbs := by
      rw [← BitVec.ofInt_natCast, ← BitVec.ofInt_neg]
      congr 1
      omega
    rw [mk128_minus, hval]
    constructor
    · intro hread
      by_contra hnot
      have hzero := collect_not_groups hsep hnot
      rw [hzero] at hread
      exact absurd (congrArg Prod.fst hread) (by simp)
    · intro h
      rw [collect_groups hsep h]
      rfl
  · obtain ⟨n, rfl⟩ := Int.eq_ofNat_of_zero_le hpos
    refine ⟨_, print128_natCast n, ?_⟩
    rw [mk128_printUnsigned, Int.natAbs_natCast, BitVec.ofInt_natCast]
    constructor
    · intro hread
      by_contra hnot
      have hzero := collect_not_groups hsep hnot
      rw [hread] at hzero
      exact absurd hzero (by simp)
    · exact collect_groups hsep

/-- A number of three groups with commas. -/
theorem mk128_print128_commas :
    ∃ s, print128 (-1234567) (text [',']) = some s ∧
      mk128 s = (1, BitVec.ofInt 128 (-1234567)) := by
  have hsep : Separator (text [',']) := by
    intro c hc
    rw [List.mem_singleton.mp hc]
    decide
  obtain ⟨s, hs, hread⟩ := mk128_print128_iff (x := -1234567) (by decide) hsep
  refine ⟨s, hs, hread.mpr (Or.inr ?_)⟩
  intro c hc
  rw [List.mem_singleton.mp hc]
  decide

/-! ### The two programs -/

theorem fibLoop_eq (rounds n : ℕ) :
    fibLoop rounds n (BitVec.ofNat 128 (Nat.fib (n + 1))) (BitVec.ofNat 128 (Nat.fib (n + 2))) =
      (List.range' n rounds).map fun k => (k, printUnsigned (Nat.fib (k + 2) % 2 ^ 128) []) := by
  induction rounds generalizing n with
  | zero => rfl
  | succ rounds ih =>
    have hnext : BitVec.ofNat 128 (Nat.fib (n + 1)) + BitVec.ofNat 128 (Nat.fib (n + 2)) =
        BitVec.ofNat 128 (Nat.fib (n + 1 + 2)) := by
      rw [← BitVec.ofNat_add, ← Nat.fib_add_two]
    rw [fibLoop, hnext, ih (n + 1), List.range'_succ, List.map_cons, BitVec.toNat_ofNat]

/-- What the loop prints in its first rounds. -/
theorem fibLoop_start (rounds : ℕ) :
    fibLoop rounds 0 1 (0 + 1) = (List.range' 0 rounds).map fun k =>
      (k, printUnsigned (Nat.fib (k + 2) % 2 ^ 128) []) :=
  fibLoop_eq rounds 0

/-- A line without groups is read back. -/
theorem mk128_line {v : ℕ} (hv : v < 2 ^ 128) :
    (mk128 (printUnsigned v [])).1 = 1 ∧ (mk128 (printUnsigned v [])).2.toNat = v := by
  have hread : collect 0 (printUnsigned v []) = (1, BitVec.ofNat 128 v) :=
    collect_groups (fun c hc => absurd hc (by simp)) (Or.inr fun c hc => absurd hc (by simp))
  rw [mk128_printUnsigned, hread]
  exact ⟨rfl, by rw [BitVec.toNat_ofNat, Nat.mod_eq_of_lt hv]⟩

/-- The loop of `fibo128.c` is right in all its lines exactly up to its own bound. -/
theorem fibLoop_right_iff (rounds : ℕ) :
    (∀ line ∈ fibLoop rounds 0 1 (0 + 1), (mk128 line.2).1 = 1 ∧
      (mk128 line.2).2.toNat = Nat.fib (line.1 + 2)) ↔ rounds ≤ main.length := by
  have hlast : main.length = 185 := by
    rw [main, fibLoop_start, List.length_map, List.length_range']
  have hsmall : Nat.fib 186 < 2 ^ 128 := by decide +kernel
  have hlarge : 2 ^ 128 ≤ Nat.fib 187 := by decide +kernel
  rw [hlast, fibLoop_start]
  constructor
  · intro hright
    by_contra hlt
    -- the line of 185 shows a number of more than 128 bits
    have hmem : 185 ∈ List.range' 0 rounds := by
      rw [List.mem_range'_1]
      omega
    have hline : (mk128 (printUnsigned (Nat.fib 187 % 2 ^ 128) [])).2.toNat = Nat.fib 187 :=
      (hright _ (List.mem_map_of_mem hmem)).2
    rw [(mk128_line (Nat.mod_lt _ (by decide))).2] at hline
    have hwrap : Nat.fib 187 % 2 ^ 128 < 2 ^ 128 := Nat.mod_lt _ (by decide)
    omega
  · intro hle line hline
    obtain ⟨k, hk, rfl⟩ := List.mem_map.mp hline
    rw [List.mem_range'_1] at hk
    have hfib : Nat.fib (k + 2) < 2 ^ 128 := (Nat.fib_mono (by omega)).trans_lt hsmall
    rw [Nat.mod_eq_of_lt hfib]
    exact mk128_line hfib

/-- **The two programs agree.**  On a number of lines, `fibo.s` prints in hexadecimal the
numbers that `Mk128` reads from the lines of the loop of `fibo128.c`, also where both have
wrapped; and that loop is right in every line for as many rounds as `main` makes, and for
no more. -/
theorem fibo_agrees (prog arg : CString) (v : ℕ) (hv : numeral 16 hexDigit arg = some v)
    (hpos : 0 < v) (hlt : v < 2 ^ 63) :
    Fibo.main [prog, arg] = (.lines ((fibLoop v 0 1 (0 + 1)).flatMap fun line =>
        Fibo.exactLine (mk128 line.2).2.toNat), 0) ∧
      ((∀ line ∈ fibLoop v 0 1 (0 + 1), (mk128 line.2).1 = 1 ∧
        (mk128 line.2).2.toNat = Nat.fib (line.1 + 2)) ↔ v ≤ main.length) := by
  refine ⟨?_, fibLoop_right_iff v⟩
  have hpasses : Fibo.passes v = v := by
    rw [Fibo.passes]
    split <;> omega
  rw [Fibo.main_of_numeral hv, if_neg (by omega), hpasses, fibLoop_start, List.flatMap_map,
    Fibo.fibLines, show (2 : ℕ) = 2 + 0 from rfl, ← List.map_add_range', List.flatMap_map]
  refine Prod.ext (congrArg Fibo.Printed.lines ?_) rfl
  refine List.flatMap_congr fun k _ => ?_
  rw [(mk128_line (Nat.mod_lt _ (by decide))).2, Fibo.wrappedLine, add_comm]

/-- The bound of `fibo128.c`, as the argument of `fibo.s`. -/
theorem fibo_agrees_b9 :
    Fibo.main [text ['f', 'i', 'b', 'o'], text ['b', '9']] =
      (.lines (main.flatMap fun line => Fibo.exactLine (mk128 line.2).2.toNat), 0) :=
  (fibo_agrees _ _ 185 rfl (by decide) (by decide)).1

end Int128
