/-
The menu program: `menu.s` with `factorial.s`, `fib.s` and `converter.s`.

A round of the menu reads a choice and, in a routine, one more line; the routines
keep their counters and results in static data, and nothing sets these back
between two rounds.

* `Statics` — the data sections, and `rbx`, which is left as it is from one
  routine to the next;
* `mult`, `factor` — the loop `MULT` and the routine `FACTOR`;
* `fibStep`, `fibLoop`, `fibby` — the loop `FIB` and the routine `FIBBY`;
* `stringToHex`, `hextodec`, `convert` — the routine `CONVERT`, which ends the
  process if a `div` faults;
* `step` — a round of `MAIN_MENU`.

`ERROR_CODE` is written and never read, so it is left out.
-/
import Mathlib.Data.BitVec
import UnixPrograms.Bytes
import UnixPrograms.Machine

namespace MenuProgram

open Bytes

/-- What a call of `printf` or of the `write` syscall puts out. -/
inductive Printed where
  | text (s : String)
  /-- `"%d! = %d\n"`, with the two numbers as `%d` reads them. -/
  | factorial (n res : ℤ)
  /-- `"%3lu: %lx\n"` with `" %016lx"` for each further limb. -/
  | fibonacci (count : BitVec 64) (limbs : List (BitVec 64))
  /-- `"%s: %s\n"`. -/
  | converted (typed digits : CString)
deriving DecidableEq

structure Statics where
  num1 : BitVec 64
  res1 : BitVec 64
  userNum : BitVec 64
  count : BitVec 64
  num1L : BitVec 64
  num2L : BitVec 64
  baseResult : BitVec 64
  carryCurr : BitVec 64
  carryPrev : BitVec 64
  secondCarryCurr : BitVec 64
  secondCarryPrev : BitVec 64
  rbx : BitVec 64

/-- The data sections of a new process; `rbx` is what the caller of `main` left. -/
def fresh (rbx : BitVec 64) : Statics where
  num1 := 1
  res1 := 1
  userNum := 1
  count := 0
  num1L := 0
  num2L := 1
  baseResult := 0
  carryCurr := 0
  carryPrev := 0
  secondCarryCurr := 0
  secondCarryPrev := 0
  rbx := rbx

/-! ### Input -/

/-- The string in the input buffer: the last byte that `read` delivered is
overwritten with zero, at the end of the file nothing is there. -/
def typedString (chunk : List Byte) : CString := chunk.dropLast

/-- `my_strtol`. -/
def myStrtol (s : CString) : BitVec 64 := parse 10 decDigit 0 s

/-! ### FACTOR -/

def factMessage : String := "Enter number: "

def factUsage : String := "Must enter a positive integer\n\x00"

/-- `dec` on a register that is not zero. -/
theorem toNat_dec_lt {x : BitVec 64} (h : x ≠ 0) : (x - 1).toNat < x.toNat := by
  have hx : x.toNat ≠ 0 := fun h0 => h (BitVec.eq_of_toNat_eq h0)
  have hlt := x.isLt
  have hone : (1 : BitVec 64).toNat = 1 := by decide
  rw [BitVec.toNat_sub, hone]
  omega

/-- `MULT`: the loop ends when `dec` leaves 0 in `NUM1`. -/
def mult (s : Statics) : Statics :=
  let rax := s.num1 * s.res1
  let s' := { s with rbx := s.res1
                     res1 := rax
                     num1 := s.num1 - 1 }
  if s.num1 - 1 = 0 then s' else mult s'
termination_by (s.num1 - 1).toNat
decreasing_by exact toNat_dec_lt ‹_›

/-- A number as `%d` shows it: its low half, with a sign. -/
def asInt (x : BitVec 64) : ℤ := (x.setWidth 32).toInt

/-- `FACTOR`, with the line that is typed. -/
def factor (chunk : List Byte) (s : Statics) : Statics × List Printed :=
  let rax := myStrtol (typedString chunk)
  if rax = -1 then (s, [.text factMessage, .text factUsage])
  else if rax = 0 then (s, [.text factMessage, .text factUsage])
  else if rax.slt 0 then (s, [.text factMessage])
  else
    let s := mult { s with num1 := rax }
    (s, [.text factMessage, .factorial (asInt rax) (asInt s.res1)])

/-! ### FIBBY -/

def fibMessage : String := "Enter number: "

def fibUsage : String := "Usage: ./fibonacci <integer>\n\x00"

def tooLarge : String := "Three Registers Overflow!!!\n\x00"

/-- `add` and `adc`, with the carry flag before and after. -/
def adc (a b : BitVec 64) (cf : Bool) : BitVec 64 × Bool :=
  (a + b + BitVec.ofNat 64 cf.toNat, 2 ^ 64 ≤ a.toNat + b.toNat + cf.toNat)

/-- `three_registers`; no line is printed if this addition carries. -/
def threeRegisters (s : Statics) (cf : Bool) : Statics × Option Printed :=
  let r8 := s.secondCarryCurr
  let (r9, cf) := adc s.secondCarryPrev r8 cf
  if cf then (s, none)
  else
    ({ s with secondCarryCurr := r9
              secondCarryPrev := r8 },
      some (.fibonacci s.count [r9, s.carryCurr, s.baseResult]))

/-- `two_registers`; the comparison with 0 clears the carry flag. -/
def twoRegisters (s : Statics) (cf : Bool) : Statics × Option Printed :=
  let r8 := s.carryCurr
  let (r9, cf) := adc s.carryPrev r8 cf
  let s := { s with carryCurr := r9
                    carryPrev := r8 }
  if cf = false ∧ s.secondCarryCurr = 0 then
    (s, some (.fibonacci s.count [r9, s.baseResult]))
  else threeRegisters s cf

/-- One pass of `FIB`, up to `DISPLAY_RESULT` or `TOO_LARGE_MSG`. -/
def fibStep (s : Statics) : Statics × Option Printed :=
  let (rax, cf) := adc s.num1L s.num2L false
  let s := { s with rbx := s.num2L
                    count := s.count + 1
                    baseResult := rax
                    num1L := rax
                    num2L := s.num1L }
  if cf = false ∧ s.carryCurr = 0 then (s, some (.fibonacci s.count [s.baseResult]))
  else twoRegisters s cf

theorem fibStep_count (s : Statics) :
    (fibStep s).1.count = s.count + 1 ∧ (fibStep s).1.userNum = s.userNum := by
  simp only [fibStep, twoRegisters, threeRegisters]
  split_ifs <;> exact ⟨rfl, rfl⟩

/-- The loop `FIB`: it ends when `COUNT` reaches the number typed, or when a sum
is too large. -/
def fibLoop (s : Statics) : Statics × List Printed :=
  let s' := (fibStep s).1
  match (fibStep s).2 with
  | none => (s', [.text tooLarge])
  | some line =>
    if s'.count = s'.userNum then (s', [line])
    else
      let (s'', lines) := fibLoop s'
      (s'', line :: lines)
termination_by (s.userNum - s.count - 1).toNat
decreasing_by
  rename_i hne
  obtain ⟨hcount, huser⟩ := fibStep_count s
  rw [hcount, huser] at hne ⊢
  have hsub : s.userNum - (s.count + 1) = s.userNum - s.count - 1 := by ring
  rw [hsub]
  refine toNat_dec_lt ?_
  intro hzero
  have huserNum : s.userNum = 1 + s.count := sub_eq_iff_eq_add.mp (sub_eq_zero.mp hzero)
  exact hne (by rw [huserNum, add_comm])

/-- `FIBBY`, with the line that is typed. -/
def fibby (chunk : List Byte) (s : Statics) : Statics × List Printed :=
  let rax := myStrtol (typedString chunk)
  if rax = -1 then (s, [.text fibMessage, .text fibUsage])
  else if rax = 0 then (s, [.text fibMessage, .text fibUsage])
  else if rax.slt 0 then (s, [.text fibMessage])
  else
    let (s, lines) := fibLoop { s with userNum := rax
                                       rbx := 0 }
    (s, .text fibMessage :: lines)

/-! ### CONVERT -/

def convMessage : String := "Enter number: "

/-- `div`: quotient and remainder of `rdx:rax`; a quotient of more than 64 bits
faults. -/
def div (rdx rax d : BitVec 64) : Option (BitVec 64 × BitVec 64) :=
  let n := 2 ^ 64 * rdx.toNat + rax.toNat
  if d = 0 ∨ 2 ^ 64 ≤ n / d.toNat then none
  else some (BitVec.ofNat 64 (n / d.toNat), BitVec.ofNat 64 (n % d.toNat))

/-- The loop of `string_to_hex`: `rax`, `rbx` and the error code in `r10`.
`RESET` puts the first 16 digits into `rbx`, and the end puts them back. -/
def stringToHex (rax rbx : BitVec 64) (r11 : ℕ) : CString → BitVec 64 × BitVec 64 × BitVec 64
  | [] =>
    if r11 + 1 < 17 then (rax, rbx, 0)
    else if r11 + 1 = 17 then (rax, 0, 0)
    else (rbx, rax, 0)
  | c :: s =>
    let r11 := r11 + 1
    let (rax, rbx, r11) := if r11 = 17 then (0, rax, r11 + 1) else (rax, rbx, r11)
    if c = 0 then if r11 < 17 then (rax, rbx, 0) else (rbx, rax, 0)
    else
      match hexDigit c with
      | none => (rax, rbx, -1)
      | some d => stringToHex (rax * 16 + BitVec.ofNat 64 d) rbx r11 s

/-- `moretogo_hextodec`, from `ecx` on: the digits stored so far are those
behind. -/
def hextodec : ℕ → BitVec 64 → BitVec 64 → CString → Option CString
  | 0, _, _, digits => some digits
  | ecx + 1, rax, rdx, digits =>
    match div rdx rax 10 with
    | none => none
    | some (r12, rdx) =>
      match div 0 rdx 10 with
      | none => none
      | some (r11, rdx) =>
        -- the count of `shl rax, 64` is taken modulo 64
        let rax := r12 <<< (64 % 64) ||| r11
        let edx : BitVec 32 := rdx.setWidth 32 + 0x30
        hextodec ecx rax (edx.setWidth 64) (edx.setWidth 8 :: digits)

/-- `CONVERT`, with the line that is typed; `none` if it faults. -/
def convert (chunk : List Byte) (s : Statics) : Option (Statics × List Printed) :=
  let (rax, rbx, r10) := stringToHex 0 s.rbx 0 (typedString chunk)
  if r10 = -1 then some ({ s with rbx := rbx }, [.text convMessage])
  else if rax = 0 then some ({ s with rbx := rbx }, [.text convMessage])
  else
    match hextodec 63 rax rbx [] with
    | none => none
    | some digits =>
      some ({ s with rbx := 10 },
        [.text convMessage, .converted (typedString chunk) digits])

/-! ### MAIN_MENU -/

def mainMenuHeader : String := "\n\n----- MAIN MENU -----\n\n"

def menuPrompt : String :=
  "1. Calculate Fibonacci\n2. Calculate Factorial\n3. Hex Conversion\n" ++
    "4. Exit Program\n\nEnter selection: "

def screenClear : String := "\x1b[2J\x1b[;H\x00"

def fibOption : String := "--- Calculate Fibonacci Option ---\n"

def factOption : String := "--- Calculate Factorial Option ---\n"

def hexOption : String := "--- Hexademcial Conversion Option ---\n"

def invalidOption : String :=
  "Invalid selection. Enter a number from the menu to continue.\n\n"

/-- What the two reads of a round deliver; an invalid choice has no second one. -/
structure Round where
  choice : List Byte
  typed : List Byte

/-- What is printed before a routine runs. -/
def banner (option : String) : List Printed :=
  [.text mainMenuHeader, .text menuPrompt, .text screenClear, .text option]

/-- A round of the menu, with all that it prints; `none` if the process ends. -/
def step (s : Statics) (r : Round) : Option (Statics × List Printed) :=
  let rax := myStrtol (typedString r.choice)
  if rax = 1 then
    let (s, out) := fibby r.typed s
    some (s, banner fibOption ++ out)
  else if rax = 2 then
    let (s, out) := factor r.typed s
    some (s, banner factOption ++ out)
  else if rax = 3 then
    (convert r.typed s).map fun (s, out) => (s, banner hexOption ++ out)
  else if rax = 4 then none
  else some (s, banner invalidOption)

end MenuProgram
