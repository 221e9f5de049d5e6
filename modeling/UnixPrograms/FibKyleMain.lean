/-
The program `fib-kyle.s` around its octal printers.

The number of the argument counts the passes of a loop, in which two numbers of four
registers change places and are added:

* `strtol` — the library function, in base 10, with the rest of the string it leaves;
* `loop_eq` — after `n` passes the registers hold the Fibonacci number, modulo
  `2 ^ 256`;
* `hexPrinter_eq`, `octPrinter_eq_iff` — the four hexadecimal printers are right, the
  octal ones up to 209;
* `exits_zero_iff` — what the program takes as its arguments;
* `main_prints` — what it prints then.
-/
import Mathlib.Tactic
import Mathlib.Data.List.TakeWhile
import UnixPrograms.FibKyle
import UnixPrograms.MenuFibonacci

namespace FibKyle

open Bytes Numerals Limbs
open MenuProgram (adc adc_limb carry_comm)

/-! ### The arguments -/

/-- A string up to its zero byte. -/
def bytes (s : CString) : List Byte := s.takeWhile (· ≠ 0)

/-- `isspace`. -/
def isSpace (c : Byte) : Bool := c = 0x20 || (0x09 ≤ c.toNat && c.toNat ≤ 0x0d)

def isDigit (c : Byte) : Bool := (decDigit c).isSome

/-- The number of some digits. -/
def number (ds : List Byte) : ℕ := value 10 (ds.filterMap decDigit)

/-- A sign, and what stands after it. -/
def splitSign : List Byte → Bool × List Byte
  | [] => (false, [])
  | c :: s =>
    if c = 0x2d then (true, s)
    else if c = 0x2b then (false, s)
    else (false, c :: s)

/-- The nearest number that a `long` can be. -/
def clamp (v : ℤ) : ℤ := max (-2 ^ 63) (min (2 ^ 63 - 1) v)

/-- `strtol` in base 10: the number, and what is left of the string, which is all of it
if there is no digit. -/
def strtol (s : List Byte) : ℤ × List Byte :=
  let (negative, t) := splitSign (s.dropWhile isSpace)
  let ds := t.takeWhile isDigit
  if ds = [] then (0, s)
  else (clamp (if negative then -number ds else number ds), t.dropWhile isDigit)

/-- `repz cmpsb`, with `seta`, `sbb` and `movsx` after it: zero if the bytes are the same,
else which of them is above the other. -/
def cmpsb : ℕ → List Byte → List Byte → BitVec 64
  | ecx + 1, x :: rsi, y :: rdi =>
    if x = y then cmpsb ecx rsi rdi
    else if y < x then 1
    else (-1 : BitVec 32).setWidth 64
  | _, _, _ => 0

/-- `.CHECK_ARGS`. -/
def checkArgs (argv1 : CString) : BitVec 64 :=
  cmpsb 3 (text ['-', 'o'] ++ [0]) (bytes argv1 ++ [0])

/-! ### The loop -/

/-- The number of the result, and the other one. -/
structure Regs extends Result where
  r12 : BitVec 64
  r13 : BitVec 64
  r14 : BitVec 64
  r15 : BitVec 64

def start : Regs := ⟨⟨0, 0, 0, 0⟩, 0, 0, 0, 1⟩

/-- One pass of `.LOOP`. -/
def Regs.pass (s : Regs) : Regs :=
  let (rsi, r12) := (s.r12, s.rsi)
  let (rdx, r13) := (s.r13, s.rdx)
  let (rcx, r14) := (s.r14, s.rcx)
  let ((r8, cf), r15) := (adc s.r8 s.r15 false, s.r8)
  let (rcx, cf) := adc rcx r14 cf
  let (rdx, cf) := adc rdx r13 cf
  let (rsi, _) := adc rsi r12 cf
  ⟨⟨rsi, rdx, rcx, r8⟩, r12, r13, r14, r15⟩

/-- `.LOOP`. -/
def loop (rax r10 : BitVec 64) (s : Regs) : Regs :=
  if r10 = rax then s else loop rax (r10 + 1) s.pass
termination_by (rax - r10).toNat
decreasing_by bv_omega

/-! ### The printers -/

/-- `"0x%lX\n"`, with `%016lX` for each further register. -/
def fmtBase (args : List (BitVec 64)) : CString :=
  text ['0', 'x'] ++ (chunks 16 16 (args.map BitVec.toNat)).map hexChar ++ [0x0a]

/-- `.LT93`. -/
def lt93 (s : Result) : CString :=
  let rsi := s.r8
  fmtBase [rsi]

/-- `.LT186`. -/
def lt186 (s : Result) : CString :=
  let rdx := s.r8
  let rsi := s.rcx
  fmtBase [rsi, rdx]

/-- `.LT278`: three registers go through `r8`. -/
def lt278 (s : Result) : CString :=
  let (rcx, r8) := (s.r8, s.rcx)
  let (rdx, r8) := (r8, s.rdx)
  let (rsi, _r8) := (r8, s.rsi)
  fmtBase [rsi, rdx, rcx]

/-- `.LT370`. -/
def lt370 (s : Result) : CString := fmtBase [s.rsi, s.rdx, s.rcx, s.r8]

/-- The comparisons of `.PRINTER`. -/
def hexPrinter (rax : BitVec 64) (s : Result) : CString :=
  if rax ≤ 93 then lt93 s
  else if rax ≤ 186 then lt186 s
  else if rax ≤ 278 then lt278 s
  else lt370 s

/-! ### The program -/

inductive Printed where
  | line (s : CString)
  /-- `"%s requires 1 argument(the number) and optional -o.\n"`. -/
  | badArgc (prog : Option CString)
  /-- `"%s still in buffer.\n./fibonacci only accepts whole numbers between 0 and 300\n"`. -/
  | badArgv (rest : List Byte)
  /-- `"Expected -o argument, but did not find -o argument before number.\n"`. -/
  | badOpt
  /-- `"%d does not fall between 0 and 300\n"`. -/
  | badVal (d : ℤ)
deriving DecidableEq

/-- From `strtol` on; `r9` is the octal flag. -/
def argsCont (r9 : Bool) (argv1 : CString) : Printed × ℕ :=
  let (v, rest) := strtol (bytes argv1)
  let rax := BitVec.ofInt 64 v
  if rest ≠ [] then (.badArgv rest, 1)
  else if rax < 0 then (.badVal (rax.setWidth 32).toInt, 1)
  else if 300 < rax then (.badVal (rax.setWidth 32).toInt, 1)
  else
    let s := loop rax 0 start
    (.line (if r9 then octPrinter rax s.toResult else hexPrinter rax s.toResult), 0)

/-- The program: what it prints, and its exit status. -/
def main : List CString → Printed × ℕ
  | [_, argv1] => argsCont false argv1
  | [_, argv1, argv2] => if checkArgs argv1 ≠ 0 then (.badOpt, 1) else argsCont true argv2
  | argv => (.badArgc argv.head?, 1)

/-! ### What the loop adds up -/

/-- The registers hold two numbers, modulo `2 ^ 256`. -/
structure Regs.Holds (s : Regs) (a b : ℕ) : Prop where
  r8 : s.r8 = limb 64 0 a
  rcx : s.rcx = limb 64 1 a
  rdx : s.rdx = limb 64 2 a
  rsi : s.rsi = limb 64 3 a
  r15 : s.r15 = limb 64 0 b
  r14 : s.r14 = limb 64 1 b
  r13 : s.r13 = limb 64 2 b
  r12 : s.r12 = limb 64 3 b

/-- A pass adds the numbers, and keeps the larger one. -/
theorem Regs.Holds.pass {s : Regs} {a b : ℕ} (h : s.Holds a b) : s.pass.Holds (b + a) a := by
  have hr8 := adc_limb 0 a b
  rw [carry_zero, add_comm a b, carry_comm] at hr8
  have hpass : s.pass = ⟨⟨limb 64 3 (b + a), limb 64 2 (b + a), limb 64 1 (b + a),
      limb 64 0 (b + a)⟩, limb 64 3 a, limb 64 2 a, limb 64 1 a, limb 64 0 a⟩ := by
    simp only [Regs.pass, h.r8, h.rcx, h.rdx, h.rsi, h.r15, h.r14, h.r13, h.r12, hr8, adc_limb]
  rw [hpass]
  exact ⟨rfl, rfl, rfl, rfl, rfl, rfl, rfl, rfl⟩

/-- **The loop**: from the `i`-th number, with the one before it, to the last. -/
theorem loop_eq {i m n b : ℕ} (hn : i + m = n) (hlt : n < 2 ^ 64) {s : Regs}
    (h : s.Holds (Nat.fib i) b) (hb : b + Nat.fib i = Nat.fib (i + 1)) :
    ∃ b', (loop (BitVec.ofNat 64 n) (BitVec.ofNat 64 i) s).Holds (Nat.fib n) b' := by
  induction m generalizing i b s with
  | zero =>
    rw [add_zero] at hn
    subst hn
    rw [loop, if_pos rfl]
    exact ⟨b, h⟩
  | succ m ih =>
    have hne : BitVec.ofNat 64 i ≠ BitVec.ofNat 64 n := by
      intro heq
      have hval := congrArg BitVec.toNat heq
      rw [BitVec.toNat_ofNat, BitVec.toNat_ofNat] at hval
      omega
    have hpass := h.pass
    rw [hb] at hpass
    rw [loop, if_neg hne]
    rw [show BitVec.ofNat 64 i + 1 = BitVec.ofNat 64 (i + 1) from (BitVec.ofNat_add i 1).symm]
    exact ih (by omega) hpass Nat.fib_add_two.symm

theorem start_holds : start.Holds 0 1 :=
  ⟨rfl, rfl, rfl, rfl, rfl, rfl, rfl, rfl⟩

/-- The words of a number. -/
def words (v : ℕ) : Result := ⟨limb 64 3 v, limb 64 2 v, limb 64 1 v, limb 64 0 v⟩

/-- What the program has computed when it comes to `.PRINTER`. -/
theorem loop_start {n : ℕ} (hlt : n < 2 ^ 64) :
    (loop (BitVec.ofNat 64 n) 0 start).toResult = words (Nat.fib n) := by
  obtain ⟨b, h⟩ := loop_eq (zero_add n) hlt start_holds Nat.fib_one.symm
  rw [words, ← h.r8, ← h.rcx, ← h.rdx, ← h.rsi]
  rfl

theorem val_words {v : ℕ} (hv : v < 2 ^ 256) : (words v).val = v := by
  simp only [Result.val, words, toNat_limb]
  omega

/-! ### What the printers print -/

/-- The number as `"0x%lX\n"` would print it, had it one register. -/
def hexLine (v : ℕ) : CString := text ['0', 'x'] ++ (written 16 v).map hexChar ++ [0x0a]

/-- The number as `"0%lo\n"` would print it. -/
def octLine (v : ℕ) : CString := (0 :: written 8 v).map digitChar ++ [0x0a]

/-- Registers in a row, the first of which is not zero. -/
theorem fmtBase_eq {x : BitVec 64} {xs : List (BitVec 64)} {v : ℕ}
    (hv : joined 16 16 ((x :: xs).map BitVec.toNat) = v)
    (h : xs = [] ∨ (2 ^ 64) ^ xs.length ≤ v) : fmtBase (x :: xs) = hexLine v := by
  have hpow : (16 : ℕ) ^ 16 = 2 ^ 64 := by decide
  rw [fmtBase, hexLine, List.map_cons, chunks_eq_written (by decide) (by decide)]
  · rw [← hv, List.map_cons]
  · intro u hu
    obtain ⟨y, -, rfl⟩ := List.mem_map.mp hu
    rw [hpow]
    exact y.isLt
  · refine h.imp (fun hnil => by rw [hnil, List.map_nil]) fun hle => ?_
    rwa [List.length_map, hpow, ← List.map_cons, hv]

section Printers

variable {n : ℕ}

theorem toNat_ofNat_le (hn : n ≤ 300) : (BitVec.ofNat 64 n).toNat = n := by
  rw [BitVec.toNat_ofNat]
  omega

/-- Bounds of the Fibonacci numbers up to some index. -/
theorem fib_lt {m c : ℕ} (hn : n ≤ m) (hm : Nat.fib m < c) : Nat.fib n < c :=
  (Nat.fib_mono hn).trans_lt hm

theorem le_fib {m c : ℕ} (hn : m ≤ n) (hm : c ≤ Nat.fib m) : c ≤ Nat.fib n :=
  hm.trans (Nat.fib_mono hn)

theorem hexPrinter_ofNat (hn : n ≤ 300) (s : Result) :
    hexPrinter (BitVec.ofNat 64 n) s =
      if n ≤ 93 then lt93 s else if n ≤ 186 then lt186 s else if n ≤ 278 then lt278 s
      else lt370 s := by
  simp only [hexPrinter, BitVec.le_def, toNat_ofNat_le hn]
  rfl

/-- **The hexadecimal printers** print the number, with no zeros in front of it. -/
theorem hexPrinter_eq (hn : n ≤ 300) :
    hexPrinter (BitVec.ofNat 64 n) (words (Nat.fib n)) = hexLine (Nat.fib n) := by
  have hpow : (16 : ℕ) ^ 16 = 2 ^ 64 := by decide
  have h256 : Nat.fib n < 2 ^ 256 := fib_lt hn (by decide +kernel)
  rw [hexPrinter_ofNat hn]
  split_ifs with h93 h186 h278
  · have hlt : Nat.fib n < 2 ^ 64 := fib_lt h93 (by decide +kernel)
    refine fmtBase_eq ?_ (Or.inl rfl)
    simp only [joined, words, List.map_cons, List.map_nil, List.foldl_cons, List.foldl_nil,
      toNat_limb]
    omega
  · have hlt : Nat.fib n < 2 ^ 128 := fib_lt h186 (by decide +kernel)
    have hge : (2 ^ 64) ^ 1 ≤ Nat.fib n := le_fib (m := 94) (by omega) (by decide +kernel)
    refine fmtBase_eq ?_ (Or.inr hge)
    simp only [joined, words, List.map_cons, List.map_nil, List.foldl_cons, List.foldl_nil,
      toNat_limb, hpow]
    omega
  · have hlt : Nat.fib n < 2 ^ 192 := fib_lt h278 (by decide +kernel)
    have hge : (2 ^ 64) ^ 2 ≤ Nat.fib n := le_fib (m := 187) (by omega) (by decide +kernel)
    refine fmtBase_eq ?_ (Or.inr hge)
    simp only [joined, words, List.map_cons, List.map_nil, List.foldl_cons, List.foldl_nil,
      toNat_limb, hpow]
    omega
  · have hge : (2 ^ 64) ^ 3 ≤ Nat.fib n := le_fib (m := 279) (by omega) (by decide +kernel)
    refine fmtBase_eq ?_ (Or.inr hge)
    simp only [joined, words, List.map_cons, List.map_nil, List.foldl_cons, List.foldl_nil,
      toNat_limb, hpow]
    omega

theorem octPrinter_ofNat (hn : n ≤ 300) (s : Result) :
    octPrinter (BitVec.ofNat 64 n) s =
      Formatter.print (if n ≤ 70 then .olt70 else if n ≤ 139 then .olt139
        else if n ≤ 209 then .olt209 else if n ≤ 278 then .olt278 else .olt347) s := by
  simp only [octPrinter, octFormatter, BitVec.le_def, toNat_ofNat_le hn]
  rfl

/-- Chunks of 48 bits in a row, the first of which is not zero. -/
theorem fmtObase_eq {x : BitVec 64} {xs : List (BitVec 64)} {v : ℕ}
    (hv : value 8 (chunks 8 16 ((x :: xs).map BitVec.toNat)) = v)
    (hxs : ∀ y ∈ xs, y.toNat < 2 ^ 48) (h : xs = [] ∨ (2 ^ 48) ^ xs.length ≤ v) :
    fmtObase (x :: xs) = octLine v := by
  have hshort : ∀ u ∈ xs.map BitVec.toNat, u < 8 ^ 16 := by
    intro u hu
    obtain ⟨y, hy, rfl⟩ := List.mem_map.mp hu
    rw [eight_pow]
    exact hxs y hy
  rw [List.map_cons, value_chunks (by decide) (by decide) hshort] at hv
  have hchunks : chunks 8 16 ((x :: xs).map BitVec.toNat) = written 8 v := by
    rw [List.map_cons, chunks_eq_written (by decide) (by decide) hshort, hv]
    refine h.imp (fun hnil => by rw [hnil, List.map_nil]) fun hle => ?_
    rwa [List.length_map, eight_pow, hv]
  rw [fmtObase, octLine, hchunks]

/-- The lowest three printers print the number, with one zero in front of it. -/
theorem octPrinter_eq (hn : n ≤ 209) :
    octPrinter (BitVec.ofNat 64 n) (words (Nat.fib n)) = octLine (Nat.fib n) := by
  have hval : (words (Nat.fib n)).val = Nat.fib n := val_words (fib_lt hn (by decide +kernel))
  have hlow : ((words (Nat.fib n)).r8 &&& mask).toNat < 2 ^ 48 := by
    rw [toNat_and_mask]
    exact Nat.mod_lt _ (by decide)
  rw [octPrinter_ofNat (by omega)]
  split_ifs with h70 h139
  · have hlt : (words (Nat.fib n)).val < 2 ^ 64 := by
      rw [hval]
      exact fib_lt h70 (by decide +kernel)
    have hvalue := (numeral_fmtObase [(words (Nat.fib n)).r8] _).mp (printsOctal_olt70 hlt)
    exact fmtObase_eq (hvalue.trans hval) (by simp) (Or.inl rfl)
  · have hlt : (words (Nat.fib n)).val < 2 ^ 112 := by
      rw [hval]
      exact fib_lt h139 (by decide +kernel)
    have hge : (2 ^ 48) ^ 1 ≤ Nat.fib n := le_fib (m := 71) (by omega) (by decide +kernel)
    have hvalue := (numeral_fmtObase [_, _] _).mp (printsOctal_olt139 hlt)
    refine fmtObase_eq (hvalue.trans hval) ?_ (Or.inr hge)
    exact List.forall_mem_singleton.mpr hlow
  · have hlt : (words (Nat.fib n)).val < 2 ^ 144 := by
      rw [hval]
      exact fib_lt hn (by decide +kernel)
    have hge : (2 ^ 48) ^ 2 ≤ Nat.fib n := le_fib (m := 140) (by omega) (by decide +kernel)
    have hvalue := (numeral_fmtObase [_, _, _] _).mp (printsOctal_olt209 hlt)
    have hmid := toNat_chunk_one (s := words (Nat.fib n))
    refine fmtObase_eq (hvalue.trans hval) ?_ (Or.inr hge)
    refine List.forall_mem_cons.mpr ⟨?_, List.forall_mem_singleton.mpr hlow⟩
    have hr8 := (words (Nat.fib n)).r8.isLt
    omega

/-- The bits that the other two misplace show in every number they are for. -/
theorem misfits :
    (∀ n < 279, 210 ≤ n → (words (Nat.fib n)).rdx.toNat % 2 ^ 16 ≠ 0) ∧
      ∀ n < 301, 279 ≤ n →
        (words (Nat.fib n)).rcx.toNat / 2 ^ 32 ≠ (words (Nat.fib n)).rdx.toNat % 2 ^ 32 := by
  decide +kernel

/-- A line that is right is a numeral of the number. -/
theorem printsOctal_of_eq {f : Formatter} {s : Result} (h : f.print s = octLine s.val) :
    PrintsOctal f s := by
  refine ⟨_, h, ?_⟩
  have hdigits : ∀ d ∈ 0 :: written 8 s.val, d < 8 := by
    refine List.forall_mem_cons.mpr ⟨by decide, fun d => lt_of_mem_written (by decide)⟩
  rw [numeral_map_digitChar (by decide) hdigits, ← List.singleton_append, value_append,
    value_written]
  exact congrArg some (by rw [value, List.reverse_singleton, Nat.ofDigits_singleton]; omega)

/-- **The octal printers**: right up to 209, and wrong for every number above. -/
theorem octPrinter_eq_iff (hn : n ≤ 300) :
    octPrinter (BitVec.ofNat 64 n) (words (Nat.fib n)) = octLine (Nat.fib n) ↔ n ≤ 209 := by
  refine ⟨fun h => ?_, octPrinter_eq⟩
  by_contra h209
  have hval : (words (Nat.fib n)).val = Nat.fib n := val_words (fib_lt hn (by decide +kernel))
  rw [octPrinter_ofNat hn, if_neg (by omega), if_neg (by omega), if_neg h209] at h
  obtain ⟨h278', h347'⟩ := misfits
  split_ifs at h with h278
  · have hlt : (words (Nat.fib n)).val < 2 ^ 192 := by
      rw [hval]
      exact fib_lt h278 (by decide +kernel)
    exact h278' n (by omega) (by omega)
      ((printsOctal_olt278_iff hlt).mp (printsOctal_of_eq (h.trans (by rw [hval]))))
  · exact h347' n (by omega) (by omega)
      (printsOctal_olt347_iff.mp (printsOctal_of_eq (h.trans (by rw [hval])))).1

end Printers

/-! ### The arguments that are taken -/

/-- A string that `strtol` reads to its end, with the value `n`: blanks, a sign and
digits.  The empty string is read as zero. -/
def Reads (argv1 : CString) (n : ℕ) : Prop :=
  (bytes argv1 = [] ∧ n = 0) ∨
    ∃ blanks sign ds, bytes argv1 = blanks ++ (sign ++ ds) ∧ (∀ c ∈ blanks, isSpace c) ∧
      (sign = [] ∨ sign = text ['+'] ∨ (sign = text ['-'] ∧ n = 0)) ∧ ds ≠ [] ∧
      (∀ c ∈ ds, isDigit c) ∧ number ds = n

theorem isDigit_iff {c : Byte} : isDigit c = true ↔ 0x30 ≤ c.toNat ∧ c.toNat ≤ 0x39 := by
  rw [isDigit, decDigit]
  split_ifs <;> simp <;> omega

/-- A digit is neither a blank nor a sign. -/
theorem isSpace_of_isDigit {c : Byte} (h : isDigit c = true) :
    isSpace c = false ∧ c ≠ 0x2d ∧ c ≠ 0x2b := by
  obtain ⟨hlow, hhigh⟩ := isDigit_iff.mp h
  have hne {b : Byte} (hb : b.toNat < 0x30) : c ≠ b := by
    rintro rfl
    omega
  refine ⟨?_, hne (by decide), hne (by decide)⟩
  rw [isSpace, decide_eq_false (hne (by decide)), Bool.false_or, decide_eq_false (by omega : ¬c.toNat ≤ 0x0d),
    Bool.and_false]

/-- What `splitSign` finds is a sign or nothing. -/
theorem splitSign_spec (t : List Byte) :
    ∃ sign, t = sign ++ (splitSign t).2 ∧
      (((splitSign t).1 = false ∧ (sign = [] ∨ sign = text ['+'])) ∨
        ((splitSign t).1 = true ∧ sign = text ['-'])) := by
  cases t with
  | nil => exact ⟨[], rfl, Or.inl ⟨rfl, Or.inl rfl⟩⟩
  | cons c s =>
    rw [splitSign]
    split_ifs with hminus hplus
    · exact ⟨[c], rfl, Or.inr ⟨rfl, by rw [hminus]; rfl⟩⟩
    · exact ⟨[c], rfl, Or.inl ⟨rfl, Or.inr (by rw [hplus]; rfl)⟩⟩
    · exact ⟨[], rfl, Or.inl ⟨rfl, Or.inl rfl⟩⟩

/-- A `long` that is at most 300 as an unsigned number. -/
theorem clamp_le_iff {v : ℤ} :
    (BitVec.ofInt 64 (clamp v)).toNat ≤ 300 ↔ 0 ≤ v ∧ v ≤ 300 := by
  rw [BitVec.toNat_ofInt, clamp]
  omega

theorem ofInt_clamp {n : ℕ} (hn : n ≤ 300) :
    BitVec.ofInt 64 (clamp n) = BitVec.ofNat 64 n := by
  have hclamp : clamp n = n := by
    rw [clamp]
    omega
  rw [hclamp]
  rfl

/-- `strtol` on digits behind blanks and a sign. -/
theorem strtol_of_digits {blanks sign ds : List Byte} (hblanks : ∀ c ∈ blanks, isSpace c)
    (hsign : sign = [] ∨ sign = text ['+'] ∨ sign = text ['-']) (hne : ds ≠ [])
    (hds : ∀ c ∈ ds, isDigit c) :
    strtol (blanks ++ (sign ++ ds)) =
      (clamp (if sign = text ['-'] then -number ds else number ds), []) := by
  have hhead : (sign ++ ds).dropWhile isSpace = sign ++ ds := by
    obtain ⟨c, ds', rfl⟩ := List.exists_cons_of_ne_nil hne
    have hc := isSpace_of_isDigit (hds c List.mem_cons_self)
    rcases hsign with rfl | rfl | rfl
    · exact List.dropWhile_cons_of_neg (by rw [hc.1]; decide)
    · exact List.dropWhile_cons_of_neg (by decide)
    · exact List.dropWhile_cons_of_neg (by decide)
  have hsplit : splitSign (sign ++ ds) = (decide (sign = text ['-']), ds) := by
    obtain ⟨c, ds', rfl⟩ := List.exists_cons_of_ne_nil hne
    have hc := isSpace_of_isDigit (hds c List.mem_cons_self)
    rcases hsign with rfl | rfl | rfl
    · rw [List.nil_append, splitSign, if_neg hc.2.1, if_neg hc.2.2]
      rfl
    · rfl
    · rfl
  have htake : ds.takeWhile isDigit = ds := List.takeWhile_eq_self_iff.mpr hds
  have hdrop : ds.dropWhile isDigit = [] := List.dropWhile_eq_nil_iff.mpr hds
  rw [strtol, List.dropWhile_append_of_pos hblanks, hhead, hsplit]
  dsimp only
  rw [htake, hdrop, if_neg hne]
  by_cases h : sign = text ['-'] <;> simp only [h, decide_true, decide_false, if_true, if_false]
  rfl

/-- A string of which `strtol` leaves nothing. -/
theorem strtol_rest {s : List Byte} (h : (strtol s).2 = []) :
    s = [] ∨ ∃ blanks sign ds, s = blanks ++ (sign ++ ds) ∧ (∀ c ∈ blanks, isSpace c) ∧
      (sign = [] ∨ sign = text ['+'] ∨ sign = text ['-']) ∧ ds ≠ [] ∧ ∀ c ∈ ds, isDigit c := by
  obtain ⟨sign, ht, hsign⟩ := splitSign_spec (s.dropWhile isSpace)
  rw [strtol] at h
  generalize splitSign (s.dropWhile isSpace) = p at ht hsign h
  obtain ⟨negative, t⟩ := p
  dsimp only at ht hsign h
  by_cases hnil : t.takeWhile isDigit = []
  · rw [if_pos hnil] at h
    exact Or.inl h
  · rw [if_neg hnil] at h
    have hds : ∀ c ∈ t, isDigit c := List.dropWhile_eq_nil_iff.mp h
    rw [List.takeWhile_eq_self_iff.mpr hds] at hnil
    refine Or.inr ⟨s.takeWhile isSpace, sign, t, ?_, fun c => List.mem_takeWhile_imp, ?_, hnil, hds⟩
    · rw [← ht, List.takeWhile_append_dropWhile]
    · rcases hsign with ⟨-, hsign | hsign⟩ | ⟨-, hsign⟩
      · exact Or.inl hsign
      · exact Or.inr (Or.inl hsign)
      · exact Or.inr (Or.inr hsign)

/-- **What `strtol` reads to the end of the string**, as a number up to 300. -/
theorem strtol_reads_iff {argv1 : CString} {n : ℕ} (hn : n ≤ 300) :
    Reads argv1 n ↔
      ∃ v, strtol (bytes argv1) = (v, []) ∧ BitVec.ofInt 64 v = BitVec.ofNat 64 n := by
  constructor
  · rintro (⟨hempty, rfl⟩ | ⟨blanks, sign, ds, hs, hblanks, hsign, hne, hds, rfl⟩)
    · rw [hempty]
      exact ⟨0, rfl, rfl⟩
    · rw [hs, strtol_of_digits hblanks (hsign.imp_right (Or.imp_right And.left)) hne hds]
      refine ⟨_, rfl, ?_⟩
      split_ifs with hminus
      · -- a minus sign is only taken in front of zero
        have hzero : number ds = 0 := by
          rcases hsign with rfl | rfl | ⟨-, hzero⟩
          · exact absurd hminus (by decide)
          · exact absurd hminus (by decide)
          · exact hzero
        rw [hzero]
        exact ofInt_clamp (Nat.zero_le _)
      · exact ofInt_clamp hn
  · rintro ⟨v, hv, hrax⟩
    have hbound : (BitVec.ofInt 64 v).toNat = n := by rw [hrax, toNat_ofNat_le hn]
    rcases strtol_rest (s := bytes argv1) (by rw [hv]) with
      hempty | ⟨blanks, sign, ds, hs, hblanks, hsign, hne, hds⟩
    · rw [hempty] at hv
      obtain ⟨rfl, -⟩ := Prod.mk.inj hv
      exact Or.inl ⟨hempty, hbound.symm⟩
    · rw [hs, strtol_of_digits hblanks hsign hne hds] at hv
      obtain ⟨rfl, -⟩ := Prod.mk.inj hv
      obtain ⟨hlow, hhigh⟩ := clamp_le_iff.mp (hbound.trans_le hn)
      refine Or.inr ⟨blanks, sign, ds, hs, hblanks, ?_, hne, hds, ?_⟩
      · refine hsign.imp_right (Or.imp_right fun hminus => ⟨hminus, ?_⟩)
        rw [if_pos hminus] at hlow hbound
        have hzero : number ds = 0 := by omega
        rw [hzero] at hbound
        exact hbound.symm
      · have hpos : (if sign = text ['-'] then -(number ds : ℤ) else number ds) = number ds := by
          split_ifs at hlow ⊢ <;> omega
        rw [hpos] at hbound hhigh
        rw [ofInt_clamp (by omega), toNat_ofNat_le (by omega)] at hbound
        exact hbound

theorem cmpsb_of_ne {ecx : ℕ} {x y : Byte} {rsi rdi : List Byte} (h : x ≠ y) :
    cmpsb (ecx + 1) (x :: rsi) (y :: rdi) ≠ 0 := by
  rw [cmpsb, if_neg h]
  split_ifs <;> decide

/-- Two strings, compared up to the zero byte of the first one. -/
theorem cmpsb_eq_zero_iff {s t : List Byte} (hs : ∀ c ∈ s, c ≠ 0) (ht : ∀ c ∈ t, c ≠ 0) :
    cmpsb (s.length + 1) (s ++ [0]) (t ++ [0]) = 0 ↔ t = s := by
  induction s generalizing t with
  | nil =>
    rcases t with _ | ⟨c, t⟩
    · exact iff_of_true rfl rfl
    · exact iff_of_false (cmpsb_of_ne (ht c List.mem_cons_self).symm) (List.cons_ne_nil c t)
  | cons x s ih =>
    obtain ⟨hx, hs⟩ := List.forall_mem_cons.mp hs
    rcases t with _ | ⟨c, t⟩
    · exact iff_of_false (cmpsb_of_ne hx) (List.cons_ne_nil x s).symm
    · obtain ⟨-, ht⟩ := List.forall_mem_cons.mp ht
      by_cases hxc : x = c
      · rw [hxc, List.cons_append, List.cons_append, List.length_cons, cmpsb, if_pos rfl, ih hs ht,
          List.cons_inj_right]
      · refine iff_of_false (cmpsb_of_ne hxc) fun heq => hxc ?_
        exact (List.cons.inj heq).1.symm

/-- `.CHECK_ARGS` finds the option, and nothing behind it. -/
theorem checkArgs_eq_zero_iff {argv1 : CString} :
    checkArgs argv1 = 0 ↔ bytes argv1 = text ['-', 'o'] := by
  refine cmpsb_eq_zero_iff (s := text ['-', 'o']) (by decide) fun c hc => ?_
  simpa using List.mem_takeWhile_imp hc

/-! ### The program -/

theorem argsCont_of_reads {argv1 : CString} {n : ℕ} (h : Reads argv1 n) (hn : n ≤ 300)
    (r9 : Bool) :
    argsCont r9 argv1 = (.line (if r9 then octPrinter (BitVec.ofNat 64 n) (words (Nat.fib n))
      else hexPrinter (BitVec.ofNat 64 n) (words (Nat.fib n))), 0) := by
  obtain ⟨v, hv, hrax⟩ := (strtol_reads_iff hn).mp h
  have hneg : ¬BitVec.ofNat 64 n < 0 := BitVec.not_lt_zero
  have hle : ¬300 < BitVec.ofNat 64 n := by
    rw [BitVec.lt_def, toNat_ofNat_le hn]
    exact not_lt.mpr hn
  rw [argsCont, hv]
  dsimp only
  rw [hrax, if_neg (fun h => h rfl), if_neg hneg, if_neg hle, loop_start (by omega)]

theorem reads_of_argsCont {argv1 : CString} {r9 : Bool} (h : (argsCont r9 argv1).2 = 0) :
    ∃ n ≤ 300, Reads argv1 n := by
  rw [argsCont] at h
  generalize hv : strtol (bytes argv1) = p at h
  obtain ⟨v, rest⟩ := p
  dsimp only at h
  by_cases hrest : rest ≠ []
  · rw [if_pos hrest] at h
    exact absurd h Nat.one_ne_zero
  rw [if_neg hrest] at h
  by_cases hneg : BitVec.ofInt 64 v < 0
  · rw [if_pos hneg] at h
    exact absurd h Nat.one_ne_zero
  rw [if_neg hneg] at h
  by_cases hgt : 300 < BitVec.ofInt 64 v
  · rw [if_pos hgt] at h
    exact absurd h Nat.one_ne_zero
  have hle : (BitVec.ofInt 64 v).toNat ≤ 300 := by
    rw [BitVec.lt_def] at hgt
    exact not_lt.mp hgt
  refine ⟨_, hle, (strtol_reads_iff hle).mpr ⟨v, ?_, ?_⟩⟩
  · rw [hv, not_not.mp hrest]
  · rw [BitVec.ofNat_toNat, BitVec.setWidth_eq]

/-- **The arguments that the program takes**: a number up to 300, which is written with
`strtol`'s liberties, behind the option or without it. -/
theorem exits_zero_iff (argv : List CString) :
    (main argv).2 = 0 ↔ ∃ prog argv1 n, n ≤ 300 ∧ Reads argv1 n ∧
      (argv = [prog, argv1] ∨
        ∃ opt, bytes opt = text ['-', 'o'] ∧ argv = [prog, opt, argv1]) := by
  constructor
  · intro h
    rcases argv with _ | ⟨prog, _ | ⟨argv1, _ | ⟨argv2, _ | ⟨_, _⟩⟩⟩⟩
    · exact absurd h (by decide)
    · exact absurd h Nat.one_ne_zero
    · obtain ⟨n, hn, hreads⟩ := reads_of_argsCont h
      exact ⟨prog, argv1, n, hn, hreads, Or.inl rfl⟩
    · rw [main] at h
      by_cases hopt : checkArgs argv1 = 0
      · rw [if_neg (not_not.mpr hopt)] at h
        obtain ⟨n, hn, hreads⟩ := reads_of_argsCont h
        exact ⟨prog, argv2, n, hn, hreads, Or.inr ⟨argv1, checkArgs_eq_zero_iff.mp hopt, rfl⟩⟩
      · rw [if_pos hopt] at h
        exact absurd h Nat.one_ne_zero
    · exact absurd h Nat.one_ne_zero
  · rintro ⟨prog, argv1, n, hn, hreads, rfl | ⟨opt, hopt, rfl⟩⟩
    · rw [main, argsCont_of_reads hreads hn]
    · rw [main, if_neg (not_not.mpr (checkArgs_eq_zero_iff.mpr hopt)),
        argsCont_of_reads hreads hn]

/-- **What the program prints**: in hexadecimal, the Fibonacci number; in octal, the
Fibonacci number exactly up to 209. -/
theorem main_prints (prog opt argv1 : CString) (n : ℕ) (hn : n ≤ 300) (h : Reads argv1 n)
    (hopt : bytes opt = text ['-', 'o']) :
    main [prog, argv1] = (.line (hexLine (Nat.fib n)), 0) ∧
      (main [prog, opt, argv1] = (.line (octLine (Nat.fib n)), 0) ↔ n ≤ 209) := by
  constructor
  · rw [main, argsCont_of_reads h hn, if_neg Bool.false_ne_true, hexPrinter_eq hn]
  · rw [main, if_neg (not_not.mpr (checkArgs_eq_zero_iff.mpr hopt)), argsCont_of_reads h hn,
      if_pos rfl, Prod.mk.injEq, Printed.line.injEq, octPrinter_eq_iff hn]
    exact and_iff_left rfl

/-- The first number that is wrong in octal, behind a blank and a sign. -/
theorem main_prints_210 :
    main [[], text [' ', '+', '2', '1', '0']] = (.line (hexLine (Nat.fib 210)), 0) ∧
      main [[], text ['-', 'o'], text [' ', '+', '2', '1', '0']]
        ≠ (.line (octLine (Nat.fib 210)), 0) := by
  have hreads : Reads (text [' ', '+', '2', '1', '0']) 210 :=
    Or.inr ⟨text [' '], text ['+'], text ['2', '1', '0'], by decide, by decide, by decide,
      by decide, by decide, by decide⟩
  obtain ⟨hhex, hoct⟩ :=
    main_prints [] (text ['-', 'o']) (text [' ', '+', '2', '1', '0']) 210 (by decide) hreads
      (by decide)
  exact ⟨hhex, fun h => absurd (hoct.mp h) (by decide)⟩

end FibKyle
