/-
The program `fibo.s`.

Its argument is a hexadecimal number of lines; each line is a Fibonacci number of two
registers, written out in 32 digits by `hextostring`, which takes the digits from the
top of a register by rotations:

* `hextostring_eq` — what `hextostring` leaves in its buffer;
* `fiboLoop_eq` — the lines that the loop prints, modulo `2 ^ 128`;
* `prints_fibonacci` — what the program prints, and when all its lines are right.

The counter is tested after a pass, so an argument of zero makes `2 ^ 64` passes.
-/
import UnixPrograms.FibKyleMain

namespace Fibo

open Bytes Numerals Limbs
open MenuProgram (adc adc_limb carry_comm)

/-- `stringtohex`: -1 on an invalid character. -/
def stringtohex (s : CString) : BitVec 64 := parse 16 hexDigit 0 s

/-! ### `hextostring` -/

/-- The bytes of a register in memory, the lowest one first. -/
def qword (rax : BitVec 64) : List Byte :=
  (List.range 8).map fun i => rax.extractLsb' (8 * i) 8

/-- `mov [rsi + rcx], rax`: eight bytes, of which only the first is a character. -/
def store (bss : List Byte) (rcx : ℕ) (rax : BitVec 64) : List Byte :=
  bss.take rcx ++ qword rax ++ bss.drop (rcx + 8)

/-- A digit as a character; `js` goes by the sign of the difference. -/
def isnum (rax : BitVec 64) : BitVec 64 :=
  if (rax - 0xa).msb then rax + 0x30 else rax + 0x7 + 0x30

/-- `moretogo_hextostring`. -/
def moretogo (rax rcx : BitVec 64) (bss : List Byte) : List Byte :=
  let rax := rax.rotateLeft 4
  let bss := store bss rcx.toNat (isnum (rax &&& 0xf))
  if rcx + 1 = 16 then bss else moretogo rax (rcx + 1) bss
termination_by (15 - rcx).toNat
decreasing_by bv_omega

/-- `hextostring`, and the 16 bytes of `buffer` that are printed after it. -/
def hextostring (rdi : BitVec 64) (bss : List Byte) : List Byte := moretogo rdi 0 bss

/-! ### The program -/

/-- The number of a line in `rbx:rax`, the other one in `r9:r8`, and the 24 bytes of
`.bss`. -/
structure State where
  rax : BitVec 64
  rbx : BitVec 64
  r8 : BitVec 64
  r9 : BitVec 64
  bss : List Byte

/-- `FIBO`; `.bss` is zero. -/
def start : State := ⟨1, 0, 1, 0, List.replicate 24 0⟩

/-- The additions and exchanges of `FIBO_LOOP`. -/
def State.add (s : State) : State :=
  let (rax, cf) := adc s.rax s.r8 false
  let (rbx, _) := adc s.rbx s.r9 cf
  { s with rax := s.r8, r8 := rax, rbx := s.r9, r9 := rbx }

/-- One pass of `FIBO_LOOP`, and the three strings it writes. -/
def State.pass (s : State) : State × List Byte :=
  let s := s.add
  let bss := hextostring s.rbx s.bss
  let high := bss.take 16
  let bss := hextostring s.rax bss
  let low := bss.take 16
  ({ s with bss }, high ++ low ++ [0x0a])

/-- `FIBO_LOOP`. -/
def fiboLoop (rcx : BitVec 64) (s : State) : List Byte :=
  let (s, line) := s.pass
  if rcx - 1 = 0 then line else line ++ fiboLoop (rcx - 1) s
termination_by (rcx - 1).toNat
decreasing_by bv_omega

inductive Printed where
  | lines (s : List Byte)
  | text (s : String)
deriving DecidableEq

def usage : String := "Usage: fibo <num1>\n"

def argInvalid : String := "Argument must be unsinged hexadecimal numbers.\n"

/-- The program: what it prints, and its exit status. -/
def main : List CString → Printed × ℕ
  | [_, argv1] =>
    let rax := stringtohex argv1
    if rax.msb then (.text argInvalid, 2) else (.lines (fiboLoop rax start), 0)
  | _ => (.text usage, 255)

/-! ### The digits of a register -/

/-- A number in a number of digits, with zeros in front. -/
def padded (w v : ℕ) : List ℕ := (written 16 v).leftpad w 0

theorem lt_of_mem_padded {w v d : ℕ} (h : d ∈ padded w v) : d < 16 :=
  lt_of_mem_leftpad (by decide) (fun _ he => lt_of_mem_written (by decide) he) h

theorem value_padded (w v : ℕ) : value 16 (padded w v) = v := by
  rw [padded, value_leftpad, value_written]

theorem length_padded {w v : ℕ} (hw : 0 < w) (hv : v < 16 ^ w) : (padded w v).length = w := by
  have hlen : (written 16 v).length ≤ w := (length_written_le_iff (by decide) hw).mpr hv
  rw [padded, List.length_leftpad]
  omega

/-- Two registers of digits are one number of twice as many. -/
theorem padded_append {x y : ℕ} (hx : x < 2 ^ 64) (hy : y < 2 ^ 64) :
    padded 16 x ++ padded 16 y = padded 32 (x * 2 ^ 64 + y) := by
  have hxlen := length_padded (v := x) (by decide : 0 < 16) (by omega)
  have hylen := length_padded (v := y) (by decide : 0 < 16) (by omega)
  refine eq_of_value_eq (by decide) ?_ (fun _ => lt_of_mem_padded) ?_ ?_
  · intro d hd
    rcases List.mem_append.mp hd with h | h <;> exact lt_of_mem_padded h
  · rw [List.length_append, hxlen, hylen, length_padded (by decide) (by omega)]
  · rw [value_append, hylen, value_padded, value_padded, value_padded]
    norm_num

/-- `rol rax, 4`. -/
theorem toNat_rol (x : BitVec 64) :
    (x.rotateLeft 4).toNat = x.toNat % 2 ^ 60 * 2 ^ 4 + x.toNat / 2 ^ 60 := by
  have hlt := x.isLt
  have hlow : x.toNat <<< 4 % 2 ^ 64 = (x.toNat % 2 ^ 60) <<< 4 := by
    rw [Nat.shiftLeft_eq, Nat.shiftLeft_eq]
    omega
  have hhigh : x.toNat >>> 60 < 2 ^ 4 := by
    rw [Nat.shiftRight_eq_div_pow]
    omega
  rw [BitVec.toNat_rotateLeft]
  show x.toNat <<< 4 % 2 ^ 64 ||| x.toNat >>> 60 = _
  rw [hlow, ← Nat.shiftLeft_add_eq_or_of_lt hhigh, Nat.shiftLeft_eq, Nat.shiftRight_eq_div_pow]

/-- **A rotation** brings the first digit of a register to its end. -/
theorem rol_digits {x : BitVec 64} {d : ℕ} {ds : List ℕ} (hlen : ds.length = 15)
    (hds : ∀ e ∈ ds, e < 16) (hx : x.toNat = value 16 (d :: ds)) :
    (x.rotateLeft 4).toNat = value 16 (ds ++ [d]) := by
  have hlt := value_lt (by decide) hds
  rw [value_cons, hlen] at hx
  rw [hlen] at hlt
  rw [toNat_rol, value_append, value_singleton, List.length_singleton]
  omega

theorem isnum_eq : ∀ d < 16, (isnum (BitVec.ofNat 64 d)).extractLsb' 0 8 = hexChar d := by
  decide

/-- The last digit of a register, as a character. -/
theorem isnum_and {x : BitVec 64} {d : ℕ} {ds : List ℕ} (hd : d < 16)
    (hx : x.toNat = value 16 (ds ++ [d])) :
    (isnum (x &&& 0xf)).extractLsb' 0 8 = hexChar d := by
  have hand : x &&& 0xf = BitVec.ofNat 64 d := by
    apply BitVec.eq_of_toNat_eq
    rw [value_append, value_singleton, List.length_singleton] at hx
    rw [BitVec.toNat_and, BitVec.toNat_ofNat, show (0xf : BitVec 64).toNat = 2 ^ 4 - 1 from rfl,
      Nat.and_two_pow_sub_one_eq_mod]
    omega
  rw [hand, isnum_eq d hd]

/-! ### What `hextostring` leaves -/

theorem length_store {bss : List Byte} {rcx : ℕ} (rax : BitVec 64) (h : rcx + 8 ≤ bss.length) :
    (store bss rcx rax).length = bss.length := by
  simp only [store, qword, List.length_append, List.length_take, List.length_map,
    List.length_range, List.length_drop]
  omega

/-- The characters stored before stay; the bytes behind the new one are written over by
the next store, or lie behind the buffer. -/
theorem take_store {bss : List Byte} {rcx : ℕ} (rax : BitVec 64) (h : rcx ≤ bss.length) :
    (store bss rcx rax).take (rcx + 1) = bss.take rcx ++ [rax.extractLsb' 0 8] := by
  have hlen : (bss.take rcx).length = rcx := by
    rw [List.length_take]
    omega
  rw [store, List.append_assoc, List.take_append, hlen, List.take_of_length_le (by omega),
    Nat.add_sub_cancel_left]
  rfl

/-- What the loop keeps, with the digits `ds` to come and the digits `done` at the end of
the register. -/
structure Digits (ds done : List ℕ) (rax : BitVec 64) (bss : List Byte) : Prop where
  count : done.length + ds.length = 16
  lt : ∀ e ∈ ds ++ done, e < 16
  rax : rax.toNat = value 16 (ds ++ done)
  length : bss.length = 24
  stored : bss.take done.length = done.map hexChar

/-- One pass of the loop moves a digit to the buffer. -/
theorem Digits.next {d : ℕ} {ds done : List ℕ} {rax : BitVec 64} {bss : List Byte}
    (h : Digits (d :: ds) done rax bss) :
    Digits ds (done ++ [d]) (rax.rotateLeft 4)
      (store bss done.length (isnum (rax.rotateLeft 4 &&& 0xf))) := by
  have hcount := h.count
  have hlen := h.length
  rw [List.length_cons] at hcount
  have hrax : (rax.rotateLeft 4).toNat = value 16 (ds ++ done ++ [d]) := by
    refine rol_digits ?_ (fun e he => h.lt e (List.mem_cons_of_mem d he)) h.rax
    rw [List.length_append]
    omega
  have hchar := isnum_and (h.lt d List.mem_cons_self) hrax
  refine ⟨?_, ?_, ?_, ?_, ?_⟩
  · rw [List.length_append, List.length_singleton]
    omega
  · intro e he
    refine h.lt e ?_
    simp only [List.mem_append, List.mem_cons, List.not_mem_nil, or_false] at he ⊢
    tauto
  · rw [← List.append_assoc]
    exact hrax
  · rw [length_store _ (by omega), hlen]
  · rw [List.length_append, List.length_singleton, take_store _ (by omega), hchar, h.stored,
      List.map_append]
    rfl

/-- **The loop** writes the digits that are still to come. -/
theorem moretogo_eq {d : ℕ} {ds done : List ℕ} {rax : BitVec 64} {bss : List Byte}
    (h : Digits (d :: ds) done rax bss) :
    (moretogo rax (BitVec.ofNat 64 done.length) bss).take 16 = (done ++ d :: ds).map hexChar ∧
      (moretogo rax (BitVec.ofNat 64 done.length) bss).length = 24 := by
  induction ds generalizing d done rax bss with
  | nil =>
    have hnext := h.next
    have hcount := hnext.count
    rw [List.length_nil, List.length_append, List.length_singleton] at hcount
    obtain hfifteen : done.length = 15 := by omega
    have hstored := hnext.stored
    rw [List.length_append, List.length_singleton, hfifteen] at hstored
    rw [moretogo, hfifteen]
    rw [if_pos (by decide)]
    rw [hfifteen] at hnext
    exact ⟨hstored, hnext.length⟩
  | cons e ds ih =>
    have hnext := h.next
    have hcount := hnext.count
    rw [List.length_cons, List.length_append, List.length_singleton] at hcount
    have hto : (BitVec.ofNat 64 done.length).toNat = done.length := by
      rw [BitVec.toNat_ofNat]
      omega
    have hsucc : BitVec.ofNat 64 done.length + 1 = BitVec.ofNat 64 (done ++ [d]).length := by
      rw [List.length_append, BitVec.ofNat_add]
      rfl
    have hne : BitVec.ofNat 64 (done ++ [d]).length ≠ 16 := by
      intro heq
      have hval := congrArg BitVec.toNat heq
      rw [BitVec.toNat_ofNat, List.length_append, List.length_singleton] at hval
      simp at hval
      omega
    rw [moretogo, hsucc, hto]
    rw [if_neg hne]
    have hrest := ih hnext
    rwa [List.append_assoc, List.singleton_append] at hrest

/-- **`hextostring`** writes the 16 digits of its argument. -/
theorem hextostring_eq (x : BitVec 64) {bss : List Byte} (h : bss.length = 24) :
    (hextostring x bss).take 16 = (padded 16 x.toNat).map hexChar ∧
      (hextostring x bss).length = 24 := by
  have hlen := length_padded (v := x.toNat) (by decide : 0 < 16) (by simpa using x.isLt)
  obtain ⟨d, ds, hds⟩ := List.exists_cons_of_length_pos (hlen.trans_gt (by decide))
  have hstart : Digits (d :: ds) [] x bss := by
    rw [← hds]
    refine ⟨by rw [hlen, List.length_nil], ?_, ?_, h, rfl⟩
    · intro e he
      rw [List.append_nil] at he
      exact lt_of_mem_padded he
    · rw [List.append_nil, value_padded]
  rw [hds]
  exact moretogo_eq hstart

/-! ### The lines -/

/-- The registers hold two numbers, modulo `2 ^ 128`. -/
structure State.Holds (s : State) (a b : ℕ) : Prop where
  rax : s.rax = limb 64 0 a
  rbx : s.rbx = limb 64 1 a
  r8 : s.r8 = limb 64 0 b
  r9 : s.r9 = limb 64 1 b
  bss : s.bss.length = 24

/-- A number in a line of its own. -/
def exactLine (v : ℕ) : List Byte := (padded 32 v).map hexChar ++ [0x0a]

theorem start_holds : start.Holds 1 1 := ⟨rfl, rfl, rfl, rfl, rfl⟩

theorem State.Holds.add {s : State} {a b : ℕ} (h : s.Holds a b) : s.add.Holds b (a + b) := by
  have hlow := adc_limb 0 a b
  rw [carry_zero] at hlow
  have hadd : s.add = { s with
      rax := limb 64 0 b, r8 := limb 64 0 (a + b), rbx := limb 64 1 b,
      r9 := limb 64 1 (a + b) } := by
    simp only [State.add, h.rax, h.rbx, h.r8, h.r9, hlow, adc_limb]
  rw [hadd]
  exact ⟨rfl, rfl, rfl, rfl, h.bss⟩

/-- **A pass** goes one number on, and prints it. -/
theorem State.Holds.pass {s : State} {a b : ℕ} (h : s.Holds a b) :
    s.pass.1.Holds b (a + b) ∧ s.pass.2 = exactLine (b % 2 ^ 128) := by
  have hadd := h.add
  obtain ⟨hhigh, hlen⟩ := hextostring_eq s.add.rbx hadd.bss
  obtain ⟨hlow, hlen'⟩ := hextostring_eq s.add.rax hlen
  refine ⟨⟨hadd.rax, hadd.rbx, hadd.r8, hadd.r9, hlen'⟩, ?_⟩
  show (hextostring s.add.rbx s.add.bss).take 16 ++
    (hextostring s.add.rax (hextostring s.add.rbx s.add.bss)).take 16 ++ [0x0a] = _
  have hnumber : s.add.rbx.toNat * 2 ^ 64 + s.add.rax.toNat = b % 2 ^ 128 := by
    rw [hadd.rbx, hadd.rax, toNat_limb, toNat_limb]
    omega
  rw [hhigh, hlow, ← List.map_append, padded_append (BitVec.isLt _) (BitVec.isLt _), hnumber,
    exactLine]

/-- `n` of the Fibonacci numbers in lines, from the `i`-th on. -/
def fibLines (line : ℕ → List Byte) (i n : ℕ) : List Byte :=
  (List.range' i n).flatMap fun j => line (Nat.fib j)

/-- A number as the program prints it: its two registers. -/
def wrappedLine (v : ℕ) : List Byte := exactLine (v % 2 ^ 128)

theorem fibLines_succ (line : ℕ → List Byte) (i n : ℕ) :
    fibLines line i (n + 1) = line (Nat.fib i) ++ fibLines line (i + 1) n := by
  rw [fibLines, List.range'_succ, List.flatMap_cons, fibLines]

theorem fiboLoop_pass (rcx : BitVec 64) (s : State) :
    fiboLoop rcx s =
      if rcx - 1 = 0 then s.pass.2 else s.pass.2 ++ fiboLoop (rcx - 1) s.pass.1 := by
  rw [fiboLoop]

/-- **The loop** prints the Fibonacci numbers in order, once more than the counter
without one says. -/
theorem fiboLoop_eq {n i : ℕ} {rcx : BitVec 64} {s : State} (hn : (rcx - 1).toNat = n)
    (h : s.Holds (Nat.fib i) (Nat.fib (i + 1))) :
    fiboLoop rcx s = fibLines wrappedLine (i + 1) (n + 1) := by
  induction n generalizing i rcx s with
  | zero =>
    have hzero : rcx - 1 = 0 := BitVec.eq_of_toNat_eq hn
    rw [fiboLoop_pass, fibLines_succ, if_pos hzero, h.pass.2]
    exact (List.append_nil _).symm
  | succ n ih =>
    have hne : rcx - 1 ≠ 0 := by
      intro hzero
      rw [hzero] at hn
      exact absurd hn (by simp)
    have hnext : (rcx - 1 - 1).toNat = n := by
      have hlt := (rcx - 1).isLt
      rw [BitVec.toNat_sub, hn]
      show (2 ^ 64 - 1 + (n + 1)) % 2 ^ 64 = n
      omega
    obtain ⟨hholds, hline⟩ := h.pass
    rw [← Nat.fib_add_two] at hholds
    rw [fiboLoop_pass, fibLines_succ, if_neg hne, ih hnext hholds, hline]
    rfl

/-! ### Which lines are right -/

theorem length_exactLine (v : ℕ) : 33 ≤ (exactLine v).length := by
  rw [exactLine, List.length_append, List.length_map, padded, List.length_leftpad]
  exact Nat.succ_le_succ (Nat.le_max_left _ _)

/-- 32 digits are enough for two registers, and for no more. -/
theorem length_exactLine_eq_iff {v : ℕ} : (exactLine v).length = 33 ↔ v < 2 ^ 128 := by
  have hiff : (written 16 v).length ≤ 32 ↔ v < 16 ^ 32 :=
    length_written_le_iff (by decide) (by decide)
  rw [exactLine, List.length_append, List.length_map, padded, List.length_leftpad]
  rw [show (16 : ℕ) ^ 32 = 2 ^ 128 by decide] at hiff
  rw [← hiff, List.length_singleton]
  omega

theorem length_wrappedLines (i n : ℕ) : (fibLines wrappedLine i n).length = 33 * n := by
  induction n generalizing i with
  | zero => rfl
  | succ n ih =>
    have hline : (wrappedLine (Nat.fib i)).length = 33 :=
      length_exactLine_eq_iff.mpr (Nat.mod_lt _ (by decide))
    rw [fibLines_succ, List.length_append, ih, hline]
    ring

theorem length_exactLines (i n : ℕ) : 33 * n ≤ (fibLines exactLine i n).length := by
  induction n generalizing i with
  | zero => exact Nat.zero_le _
  | succ n ih =>
    have hline := length_exactLine (Nat.fib i)
    have hrest := ih (i + 1)
    rw [fibLines_succ, List.length_append]
    omega

/-- A number that needs more than two registers makes the lines longer. -/
theorem length_exactLines_lt {i j n : ℕ} (hij : i ≤ j) (hjn : j < i + n)
    (hj : 2 ^ 128 ≤ Nat.fib j) : 33 * n < (fibLines exactLine i n).length := by
  induction n generalizing i with
  | zero => omega
  | succ n ih =>
    have hline := length_exactLine (Nat.fib i)
    rw [fibLines_succ, List.length_append]
    by_cases hi : i = j
    · have hlong : (exactLine (Nat.fib i)).length ≠ 33 := by
        rw [Ne, length_exactLine_eq_iff, hi]
        omega
      have hrest := length_exactLines (i + 1) n
      omega
    · have hrest := ih (i := i + 1) (by omega) (by omega)
      omega

theorem fibLines_congr {i n : ℕ} (h : ∀ j < i + n, Nat.fib j < 2 ^ 128) :
    fibLines wrappedLine i n = fibLines exactLine i n := by
  induction n generalizing i with
  | zero => rfl
  | succ n ih =>
    have hfirst : wrappedLine (Nat.fib i) = exactLine (Nat.fib i) := by
      rw [wrappedLine, Nat.mod_eq_of_lt (h i (by omega))]
    rw [fibLines_succ, fibLines_succ, hfirst, ih fun j hj => h j (by omega)]

/-! ### The program -/

variable {prog arg : CString} {v : ℕ}

/-- How many lines are printed for a value. -/
def passes (v : ℕ) : ℕ := if v % 2 ^ 64 = 0 then 2 ^ 64 else v % 2 ^ 64

theorem toNat_ofNat_sub_one (v : ℕ) : (BitVec.ofNat 64 v - 1).toNat + 1 = passes v := by
  rw [BitVec.toNat_sub, BitVec.toNat_ofNat, passes]
  show (2 ^ 64 - 1 + v % 2 ^ 64) % 2 ^ 64 + 1 = _
  split <;> omega

/-- What is printed for any string of hexadecimal digits. -/
theorem main_of_numeral (hv : numeral 16 hexDigit arg = some v) :
    main [prog, arg] =
      if 2 ^ 63 ≤ v % 2 ^ 64 then (.text argInvalid, 2)
      else (.lines (fibLines wrappedLine 2 (passes v)), 0) := by
  have hrax : stringtohex arg = BitVec.ofNat 64 v := by
    rw [stringtohex, parse_eq_numeral, hv]
    rfl
  have hloop : fiboLoop (BitVec.ofNat 64 v) start = fibLines wrappedLine 2 (passes v) := by
    rw [fiboLoop_eq (i := 1) rfl start_holds, toNat_ofNat_sub_one]
  rw [main, hrax, hloop]
  have hmsb : (BitVec.ofNat 64 v).msb = decide (2 ^ 63 ≤ v % 2 ^ 64) := by
    rw [BitVec.msb_eq_decide, BitVec.toNat_ofNat]
  show (if (BitVec.ofNat 64 v).msb then _ else _) = _
  rw [hmsb]
  simp only [decide_eq_true_eq]

theorem main_of_invalid (h : numeral 16 hexDigit arg = none) :
    main [prog, arg] = (.text argInvalid, 2) := by
  have hrax : stringtohex arg = -1 := by
    rw [stringtohex, parse_eq_numeral, h]
    rfl
  rw [main, hrax]
  rfl

/-- The lines are those of the numbers only if none of them needs a third register. -/
theorem lines_eq_iff {n v : ℕ} (hn : n ≤ v ∨ v = 0 ∧ 0 < n) :
    fibLines wrappedLine 2 n = fibLines exactLine 2 v ↔ n = v ∧ v ≤ 185 := by
  have hsmall : Nat.fib 186 < 2 ^ 128 := by decide +kernel
  have hlarge : 2 ^ 128 ≤ Nat.fib 187 := by decide +kernel
  constructor
  · intro heq
    have hlen := congrArg List.length heq
    rw [length_wrappedLines] at hlen
    rcases hn with hn | ⟨rfl, hn⟩
    · have hle := length_exactLines 2 v
      refine ⟨by omega, ?_⟩
      by_contra hlt
      have hlong := length_exactLines_lt (i := 2) (j := 187) (n := v) (by omega) (by omega) hlarge
      omega
    · have hnone : (fibLines exactLine 2 0).length = 0 := rfl
      omega
  · rintro ⟨rfl, hle⟩
    refine fibLines_congr fun j hj => ?_
    exact (Nat.fib_mono (by omega)).trans_lt hsmall

/-- **What the program prints.**  For a hexadecimal number whose last 64 bits are below
`2 ^ 63` it prints as many lines as they say (`2 ^ 64` for zero), each with the next
Fibonacci number modulo `2 ^ 128`; any other argument is refused.  The lines are the
first Fibonacci numbers, as many as the number says, if and only if it is from 1 to 185. -/
theorem prints_fibonacci (prog arg : CString) :
    main [prog, arg] =
        ((numeral 16 hexDigit arg).elim (.text argInvalid, 2) fun v =>
          if 2 ^ 63 ≤ v % 2 ^ 64 then (.text argInvalid, 2)
          else (.lines (fibLines wrappedLine 2 (passes v)), 0)) ∧
      ∀ v, numeral 16 hexDigit arg = some v →
        (main [prog, arg] = (.lines (fibLines exactLine 2 v), 0) ↔ 0 < v ∧ v ≤ 185) := by
  refine ⟨?_, ?_⟩
  · cases hv : numeral 16 hexDigit arg with
    | none => exact main_of_invalid hv
    | some v => exact main_of_numeral hv
  · intro v hv
    rw [main_of_numeral hv]
    by_cases h : 2 ^ 63 ≤ v % 2 ^ 64
    · rw [if_pos h]
      refine iff_of_false (fun heq => absurd (congrArg Prod.snd heq) (by simp)) ?_
      omega
    · rw [if_neg h, Prod.mk.injEq, Printed.lines.injEq, lines_eq_iff]
      · rw [passes]
        split <;> omega
      · rw [passes]
        split <;> omega

/-- The longest run that is right. -/
theorem prints_fibonacci_b9 :
    main [text ['f', 'i', 'b', 'o'], text ['b', '9']] =
      (.lines (fibLines exactLine 2 185), 0) :=
  ((prints_fibonacci _ _).2 185 rfl).mpr (by decide)

end Fibo
