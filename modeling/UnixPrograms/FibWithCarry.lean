/-
The program `fib_with_carry.s`, and the loop `FIB` from its initial data.

The program has the loop of the menu's `FIBBY`, and exits after it:

* `main` — the program;
* `Shows.fibStep_overflow` — a pass whose sum needs a fourth limb prints nothing;
* `fibLoop_overflow` — the loop goes on up to that pass, and stops there;
* `fibonacci_from_start` — what both programs print, for every number asked for.
-/
import UnixPrograms.MenuFibonacciRuns

namespace FibWithCarry

open Bytes Limbs MenuProgram

/-! ### The code -/

def usage : String := "Usage: ./fibonacci <integer>\n\x00"

/-- The program: what it prints, and its exit status.  A line has the format
`"%3lu: %lx\n"`, with `" %lx"` for each further limb. -/
def main : List CString → List Printed × ℕ
  | [_, num] =>
    let rax := myStrtol num
    if rax = -1 then ([.text usage], 2)
    else if rax = 0 then ([.text usage], 2)
    else if rax.slt 0 then ([], 0)
    else
      let lines := (fibLoop { fresh 0 with userNum := rax }).2
      (lines, if .text tooLarge ∈ lines then 2 else 0)
  | _ => ([.text usage], 2)

/-! ### A sum that is too large -/

variable {s : Statics} {a b : ℕ}

/-- **A pass whose sum is too large** prints no line. -/
theorem Shows.fibStep_overflow (h : Shows s a b) (hle : b ≤ a) (hmid : limb 64 1 a ≠ 0)
    (hlarge : 2 ^ 192 ≤ a + b) : (fibStep s).2 = none := by
  have hlta := h.lt
  obtain ⟨hprev, hsecond⟩ := h.mid (by omega)
  have hmore : ¬ (carry 64 1 a b = false ∧ s.carryCurr = 0) := by
    rintro ⟨-, hcurr⟩
    exact hmid (h.carryCurr.symm.trans hcurr)
  have hmost : ¬ (carry 64 2 a b = false ∧ limb 64 2 a = 0) := by
    rintro ⟨-, hzero⟩
    have hval := congrArg BitVec.toNat hzero
    rw [toNat_limb] at hval
    simp only [BitVec.ofNat_eq_ofNat, BitVec.toNat_ofNat] at hval
    omega
  have hadc := adc_limb 2 b a
  rw [carry_comm 2 b a, carry_comm 3 b a, add_comm b a,
    carry_eq_true 3 (by omega) (by omega) hlarge] at hadc
  rw [h.fibStep_eq, if_neg hmore, h.twoRegisters_eq hprev hsecond, if_neg hmost]
  have hhigh : (afterAdc s (a + b)).secondCarryPrev = limb 64 2 b := h.high (by omega)
  have hcurr : (afterAdc s (a + b)).secondCarryCurr = limb 64 2 a := hsecond
  simp only [threeRegisters, hhigh, hcurr, hadc, if_true]

theorem fibLoop_of_none (h : (fibStep s).2 = none) : (fibLoop s).2 = [.text tooLarge] := by
  rw [fibLoop]
  split
  · rfl
  · rename_i line hline
    exact absurd (h.symm.trans hline) (by simp)

/-! ### The whole loop -/

/-- **The loop up to a sum that is too large**, from the number `i` on: the numbers
up to the last one that fits, and the message. -/
theorem fibLoop_overflow {m i n : ℕ} (hn : i + m < n) (hlt : n < 2 ^ 64)
    (hcount : s.count = BitVec.ofNat 64 i) (huser : s.userNum = BitVec.ofNat 64 n)
    (hfit : Nat.fib (i + m) < 2 ^ 192) (hlarge : 2 ^ 192 ≤ Nat.fib (i + m + 1))
    (hfresh : CarriesFit s (Nat.fib i) (Nat.fib (i + m))) (h : Shows s (Nat.fib i) (fibPrev i)) :
    (fibLoop s).2 = (List.range' (i + 1) m).map fibLine ++ [.text tooLarge] := by
  induction m generalizing s i with
  | zero =>
    -- the next number is the first one that is too large
    rw [Nat.add_zero] at hlarge hfit
    have hge : 2 ^ 64 ≤ Nat.fib i := by
      have hprev : fibPrev i ≤ Nat.fib i ∨ i = 0 := by
        cases i with
        | zero => exact Or.inr rfl
        | succ i => exact Or.inl Nat.fib_le_fib_succ
      rw [fib_succ_eq] at hlarge
      rcases hprev with hle | rfl
      · omega
      · exact absurd hlarge (by decide)
    have hle : fibPrev i ≤ Nat.fib i := by
      cases i with
      | zero => exact absurd hge (by decide)
      | succ i => exact Nat.fib_le_fib_succ
    rw [fib_succ_eq] at hlarge
    exact fibLoop_of_none
      (Shows.fibStep_overflow h hle (limb_one_fib_ne_zero i (lt_of_fib_lt hfit) hge) hlarge)
  | succ m ih =>
    have hnext : i + 1 + m = i + (m + 1) := by omega
    have hle : Nat.fib (i + 1) ≤ Nat.fib (i + (m + 1)) := Nat.fib_mono (by omega)
    obtain ⟨s', hstep, hcount', huser', hshow, hrest⟩ :=
      h.fibStep_fib hcount (hle.trans_lt hfit) (hfresh.mono hle)
    have hmore : s'.count ≠ s'.userNum :=
      count_ne_userNum hcount' (huser'.trans huser) (by omega) hlt
    have htail := ih (by omega) hcount' (huser'.trans huser) (by rwa [hnext]) (by rwa [hnext])
      (by rw [hrest, hnext]; exact hfresh) hshow
    rw [fibLoop_of_more hstep hmore, htail, List.range'_succ, List.map_cons, List.cons_append]

/-- The lines for the numbers up to the `n`-th one; if one of them needs a fourth
limb, the lines before the first such number, and the message. -/
def FibLines (n : ℕ) (lines : List Printed) : Prop :=
  (Nat.fib n < 2 ^ 192 ∧ lines = (List.range' 1 n).map fibLine) ∨
    ∃ i, i < n ∧ Nat.fib i < 2 ^ 192 ∧ 2 ^ 192 ≤ Nat.fib (i + 1) ∧
      lines = (List.range' 1 i).map fibLine ++ [.text tooLarge]

/-- The loop from the words of a new process. -/
theorem fibLoop_fresh {n : ℕ} (hn : 1 ≤ n) (hlt : n < 2 ^ 64) (hcount : s.count = 0)
    (huser : s.userNum = BitVec.ofNat 64 n) (hwords : FibReady n s)
    (hnum : s.num1L = 0 ∧ s.num2L = 1) (hfresh : ∀ v, CarriesFit s 0 v) :
    FibLines n (fibLoop s).2 := by
  by_cases hfib : Nat.fib n < 2 ^ 192
  · exact Or.inl ⟨hfib, (fibLoop_first_iff hn hfib huser).mpr hwords⟩
  · -- the last number before the first one that is too large
    have hex : ∃ k, 2 ^ 192 ≤ Nat.fib k := ⟨n, by omega⟩
    obtain ⟨i, hi⟩ : ∃ i, Nat.find hex = i + 1 := by
      refine ⟨Nat.find hex - 1, (Nat.sub_add_cancel ?_).symm⟩
      rw [Nat.one_le_iff_ne_zero]
      intro hzero
      have hspec := Nat.find_spec hex
      rw [hzero] at hspec
      exact absurd hspec (by decide)
    have hlarge := Nat.find_spec hex
    have hfit := Nat.find_min hex (m := i) (by omega)
    have hmin := Nat.find_min' hex (m := n) (by omega)
    rw [hi] at hlarge hmin
    refine Or.inr ⟨i, by omega, by omega, hlarge, ?_⟩
    have hloop := fibLoop_overflow (s := s) (i := 0) (m := i) (n := n) (by omega) hlt hcount huser
      (by rw [Nat.zero_add]; omega) (by rwa [Nat.zero_add]) (hfresh _)
      (shows_fresh hwords.2.1 hnum)
    rwa [Nat.zero_add] at hloop

/-! ### The programs -/

/-- **What both programs print**, from the initial data: the lines of all numbers up
to the one asked for, or up to the last one that fits into three limbs; and the limbs
of each line stand for its number. -/
theorem fibonacci_from_start (rbx n : BitVec 64) (hn : n ≠ 0) :
    (∃ lines, FibLines n.toNat lines ∧
      (fibLoop { fresh rbx with userNum := n, rbx := 0 }).2 = lines ∧
      (∀ chunk, myStrtol (typedString chunk) = n → ¬ n.slt 0 = true →
        (fibby chunk (fresh rbx)).2 = .text fibMessage :: lines) ∧
      ∀ prog num, myStrtol num = n → ¬ n.slt 0 = true → (main [prog, num]).1 = lines) ∧
    ∀ i, ∃ ls, fibLine i = .fibonacci (BitVec.ofNat 64 i) ls ∧
      Nat.ofDigits (2 ^ 64) (ls.reverse.map BitVec.toNat) = Nat.fib i := by
  have hpos : 1 ≤ n.toNat := by
    rw [Nat.one_le_iff_ne_zero]
    exact fun hzero => hn (BitVec.eq_of_toNat_eq hzero)
  have huser : n = BitVec.ofNat 64 n.toNat := by
    rw [BitVec.ofNat_toNat, BitVec.setWidth_eq]
  have hnocarry (rbx : BitVec 64) (v : ℕ) :
      CarriesFit { fresh rbx with userNum := n, rbx := 0 } 0 v :=
    ⟨fun _ _ => ⟨rfl, rfl⟩, fun _ _ => rfl⟩
  have hlines (rbx : BitVec 64) :
      FibLines n.toNat (fibLoop { fresh rbx with userNum := n, rbx := 0 }).2 :=
    fibLoop_fresh hpos n.isLt rfl huser ⟨rfl, rfl, Or.inl ⟨rfl, rfl⟩, hnocarry rbx _⟩ ⟨rfl, rfl⟩
      (hnocarry rbx)
  refine ⟨⟨_, hlines rbx, rfl, ?_, ?_⟩, fibLine_value⟩
  · intro chunk hchunk hslt
    have hneg : n ≠ -1 := by
      rintro rfl
      exact hslt (by decide)
    rw [fibby, hchunk, if_neg hneg, if_neg hn, if_neg hslt]
  · intro prog num hnum hslt
    have hneg : n ≠ -1 := by
      rintro rfl
      exact hslt (by decide)
    rw [main, hnum, if_neg hneg, if_neg hn, if_neg hslt]
    rfl

/-- `250`, typed or as the argument: lines of one, two and three limbs. -/
theorem fibonacci_from_start_250 :
    ∃ lines, FibLines 250 lines ∧
      (fibLoop { fresh 0 with userNum := 250, rbx := 0 }).2 = lines ∧
      (fibby (text ['2', '5', '0', '\n']) (fresh 0)).2 = .text fibMessage :: lines ∧
      (main [text ['f'], text ['2', '5', '0']]).1 = lines := by
  obtain ⟨⟨lines, hlines, hloop, htyped, hmain⟩, -⟩ := fibonacci_from_start 0 250 (by decide)
  exact ⟨lines, hlines, hloop, htyped _ (by decide) (by decide), hmain _ _ (by decide) (by decide)⟩

end FibWithCarry
