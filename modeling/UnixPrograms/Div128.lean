/-
The division of 128 bits, `div128.s`.

A number is in two registers, and the divisor decides which division is made: `div`
once or twice where its high register is zero, shift and subtract where it is not.
The number of rounds of the latter comes from the highest bits of two registers, and
one of them is the wrong register:

* `loop_eq` — the loop makes the rounds of the textbook;
* `large_eq`, `large_wraps` — what `.large` answers, for a distance of the highest
  bits that is not negative, and for one that is;
* `divides_iff` — when `__udivti3` and `__umodti3` divide;
* `large_of_dividend` — with the register that the comment names, they always would.
-/
import UnixPrograms.LongDivision

namespace Div128

open LongDivision

/-! ### Instructions -/

/-- `bsr`: nothing where no bit is set, and the register is then undefined. -/
def bsr (x : BitVec 64) : Option (BitVec 64) :=
  if x = 0 then none else some (BitVec.ofNat 64 x.toNat.log2)

/-- `div`: the quotient and the remainder, or an exception. -/
def div (rdx rax r9 : BitVec 64) : Option (BitVec 64 × BitVec 64) :=
  if r9 = 0 ∨ 2 ^ 64 ≤ pair rdx rax / r9.toNat then none
  else some (BitVec.ofNat 64 (pair rdx rax / r9.toNat), BitVec.ofNat 64 (pair rdx rax % r9.toNat))

/-! ### The loop -/

structure Regs where
  rdi : BitVec 64
  rsi : BitVec 64
  r9 : BitVec 64
  r10 : BitVec 64
  r11 : BitVec 64
  ecx : BitVec 32

/-- `.loop`, up to the jump. -/
def Regs.round (s : Regs) : Regs :=
  let rax := s.rdi
  let rdx := s.rsi
  let (rdi, cf) := sbb s.rdi s.r10 false
  let (rsi, cf) := sbb s.rsi s.r11 cf
  let rdi := if cf then rax else rdi
  let rsi := if cf then rdx else rsi
  let cf := !cf
  let r9 := s.r9 + s.r9 + BitVec.ofNat 64 cf.toNat
  let cf := s.r11.toNat % 2
  let r11 := s.r11 >>> 1
  let r10 := s.r10 >>> 1 ||| BitVec.ofNat 64 cf <<< 63
  let ecx := s.ecx - 1
  ⟨rdi, rsi, r9, r10, r11, ecx⟩

/-- A round that goes on has counted down. -/
theorem Regs.round_ecx_lt (s : Regs) (h : s.round.ecx.msb = false) :
    s.round.ecx.toNat < s.ecx.toNat := by
  have hecx : s.round.ecx = s.ecx - 1 := rfl
  rw [hecx] at h ⊢
  rw [BitVec.msb_eq_false_iff_two_mul_lt] at h
  bv_omega

/-- `.loop`: `jns` goes on while `ecx` is not negative. -/
def loop (s : Regs) : Regs :=
  if s.round.ecx.msb = false then loop s.round else s.round
termination_by s.ecx.toNat
decreasing_by exact s.round_ecx_lt ‹_›

/-! ### The function -/

/-- What a call leaves: the quotient in `rdx:rax`, and the low and the high half of
what is stored as the remainder. -/
structure Answer where
  rax : BitVec 64
  rdx : BitVec 64
  remainder : Option (BitVec 64 × BitVec 64)

/-- The remainder is stored where `r8` is an address, and not zero. -/
def store (r8 : Bool) (low high : BitVec 64) : Option (BitVec 64 × BitVec 64) :=
  if r8 then some (low, high) else none

/-- `.trivial`. -/
def trivial (r8 : Bool) (rdi rsi : BitVec 64) : Answer := ⟨0, 0, store r8 rdi rsi⟩

/-- `.normal`. -/
def normal (r8 : Bool) (rdi rsi rcx r9 : BitVec 64) : Option Answer :=
  match div rsi rdi r9 with
  | none => none
  | some (rax, rdx) => some ⟨rax, rcx, store r8 rdx rcx⟩

/-- `.long`. -/
def long (r8 : Bool) (rdi rsi rcx r9 : BitVec 64) : Option Answer :=
  match div rcx rsi r9 with
  | none => none
  | some (r10, rdx) =>
    match div rdx rdi r9 with
    | none => none
    | some (rax, rdx) => some ⟨rax, r10, store r8 rdx rcx⟩

/-- `.simple`. -/
def simple (r8 : Bool) (rdi rsi rdx rcx : BitVec 64) : Option Answer :=
  let r9 := rdx
  if rdx ≤ rsi then long r8 rdi rsi rcx r9 else normal r8 rdi rsi rcx r9

/-- `.large`. -/
def large (r8 : Bool) (rdi rsi rdx rcx r9 r11 : BitVec 64) : Answer :=
  let rcx := rcx - r9
  let r9 : BitVec 64 := 0
  let r10 := rdx
  -- a shift of 64 bits takes its count modulo 64
  let cl := rcx.toNat % 64
  let r11 := r11 <<< cl ||| r10 >>> (64 - cl)
  let r10 := r10 <<< cl
  let s := loop ⟨rdi, rsi, r9, r10, r11, rcx.setWidth 32⟩
  ⟨s.r9, 0, store r8 s.rdi s.rsi⟩

/-- `__udivmodti4`: the dividend in `rsi:rdi`, the divisor in `rcx:rdx`.  `undef` is what
`bsr` leaves when it finds no bit. -/
def udivmodti4 (undef : BitVec 64) (r8 : Bool) (rdi rsi rdx rcx : BitVec 64) : Option Answer :=
  let cf := (sbb rdi rdx false).2
  let cf := (sbb rsi rcx cf).2
  if cf then some (trivial r8 rdi rsi)
  else
    match bsr rcx with
    | none => simple r8 rdi rsi rdx rcx
    | some r9 =>
      let r11 := rcx
      let rcx := (bsr rdx).getD undef
      some (large r8 rdi rsi rdx rcx r9 r11)

/-- `__udivti3`, with the address zero: the quotient in `rdx:rax`. -/
def udivti3 (undef rdi rsi rdx rcx : BitVec 64) : Option (BitVec 64 × BitVec 64) :=
  (udivmodti4 undef false rdi rsi rdx rcx).map fun a => (a.rdx, a.rax)

/-- `__umodti3`, with an address on the stack: the remainder in `rdx:rax`. -/
def umodti3 (undef rdi rsi rdx rcx : BitVec 64) : Option (BitVec 64 × BitVec 64) :=
  (udivmodti4 undef true rdi rsi rdx rcx).bind fun a => a.remainder.map fun m => (m.2, m.1)

/-! ### The rounds of the loop -/

section Loop

variable (s : Regs)

/-- The dividend, the divisor and the quotient of a round. -/
theorem round_eq (q : ℕ) (hq : s.r9 = BitVec.ofNat 64 q) :
    pair s.round.r11 s.round.r10 = pair s.r11 s.r10 / 2 ∧
      if pair s.r11 s.r10 ≤ pair s.rsi s.rdi then
        pair s.round.rsi s.round.rdi = pair s.rsi s.rdi - pair s.r11 s.r10 ∧
          s.round.r9 = BitVec.ofNat 64 (2 * q + 1)
      else pair s.round.rsi s.round.rdi = pair s.rsi s.rdi ∧
          s.round.r9 = BitVec.ofNat 64 (2 * q) := by
  obtain ⟨hcf, hsub⟩ := pair_sub s.rsi s.rdi s.r11 s.r10 (by decide)
  refine ⟨pair_shiftRight_one s.r11 s.r10 (by decide), ?_⟩
  have hr9 : s.round.r9 = s.r9 + s.r9 + BitVec.ofNat 64
      (!(sbb s.rsi s.r11 (sbb s.rdi s.r10 false).2).2).toNat := rfl
  have hrdi : s.round.rdi = if (sbb s.rsi s.r11 (sbb s.rdi s.r10 false).2).2 then s.rdi
      else (sbb s.rdi s.r10 false).1 := rfl
  have hrsi : s.round.rsi = if (sbb s.rsi s.r11 (sbb s.rdi s.r10 false).2).2 then s.rsi
      else (sbb s.rsi s.r11 (sbb s.rdi s.r10 false).2).1 := rfl
  rw [hr9, hrdi, hrsi, hcf, hq, ← BitVec.ofNat_add, ← BitVec.ofNat_add, ← two_mul]
  by_cases h : pair s.r11 s.r10 ≤ pair s.rsi s.rdi
  · rw [if_pos h, decide_eq_false h.not_gt]
    exact ⟨hsub h, rfl⟩
  · rw [if_neg h, decide_eq_true (not_le.mp h)]
    exact ⟨rfl, rfl⟩

variable {s} in
/-- One round is a round of the textbook. -/
theorem rounds_round {k n b q : ℕ} (hq : s.r9 = BitVec.ofNat 64 q) (hn : pair s.rsi s.rdi = n)
    (hb : pair s.r11 s.r10 = b) :
    ∃ n' q', s.round.r9 = BitVec.ofNat 64 q' ∧ pair s.round.rsi s.round.rdi = n' ∧
      pair s.round.r11 s.round.r10 = b / 2 ∧ rounds (k + 1) n b q = rounds k n' (b / 2) q' := by
  obtain ⟨hhalf, hround⟩ := round_eq s q hq
  rw [hn, hb] at hround
  rw [hb] at hhalf
  rw [rounds]
  by_cases h : b ≤ n
  · rw [if_pos h] at hround ⊢
    exact ⟨n - b, 2 * q + 1, hround.2, hround.1, hhalf, rfl⟩
  · rw [if_neg h] at hround ⊢
    exact ⟨n, 2 * q, hround.2, hround.1, hhalf, rfl⟩

/-- What the loop leaves, when it makes `k` rounds. -/
def Leaves (s : Regs) (k n b q : ℕ) : Prop :=
  (loop s).r9 = BitVec.ofNat 64 (rounds k n b q).1 ∧
    pair (loop s).rsi (loop s).rdi = (rounds k n b q).2

variable {s} in
/-- A loop that counts below zero makes one round. -/
theorem loop_once {n b q : ℕ} (hecx : (s.ecx - 1).msb = true) (hq : s.r9 = BitVec.ofNat 64 q)
    (hn : pair s.rsi s.rdi = n) (hb : pair s.r11 s.r10 = b) : Leaves s 1 n b q := by
  obtain ⟨n', q', hr9, hpair, -, hrounds⟩ := rounds_round (k := 0) hq hn hb
  have hloop : loop s = s.round := by
    rw [loop, if_neg]
    rw [show s.round.ecx = s.ecx - 1 from rfl, hecx]
    decide
  rw [Leaves, hloop, hrounds, rounds]
  exact ⟨hr9, hpair⟩

/-- **The loop**: `k + 1` rounds from the count `k`. -/
theorem loop_eq {k n b q : ℕ} (hk : k < 64) (hecx : s.ecx = BitVec.ofNat 32 k)
    (hq : s.r9 = BitVec.ofNat 64 q) (hn : pair s.rsi s.rdi = n) (hb : pair s.r11 s.r10 = b) :
    Leaves s (k + 1) n b q := by
  induction k generalizing s n b q with
  | zero => exact loop_once (by rw [hecx]; decide) hq hn hb
  | succ k ih =>
    obtain ⟨n', q', hr9, hpair, hhalf, hrounds⟩ := rounds_round (k := k + 1) hq hn hb
    have hnext : s.round.ecx = BitVec.ofNat 32 k := by
      rw [show s.round.ecx = s.ecx - 1 from rfl, hecx, BitVec.ofNat_add]
      exact add_sub_cancel_right _ _
    have hgo : s.round.ecx.msb = false := by
      rw [hnext, BitVec.msb_eq_false_iff_two_mul_lt, BitVec.toNat_ofNat]
      omega
    rw [Leaves, loop, if_pos hgo, hrounds]
    exact ih s.round (by omega) hnext hr9 hpair hhalf

end Loop

/-! ### The answers -/

/-- An answer that is the quotient, and the remainder if that is wanted. -/
structure Answer.Is (a : Answer) (r8 : Bool) (q r : ℕ) : Prop where
  quotient : pair a.rdx a.rax = q
  remainder : ∃ low high, a.remainder = store r8 low high ∧ pair high low = r

section Answers

variable {r8 : Bool} {rdi rsi rdx rcx : BitVec 64}

theorem Answer.Is.of_store {rax rdx low high : BitVec 64} {q r : ℕ} (hq : pair rdx rax = q)
    (hr : pair high low = r) : Answer.Is ⟨rax, rdx, store r8 low high⟩ r8 q r :=
  ⟨hq, low, high, rfl, hr⟩

theorem trivial_is : (trivial r8 rdi rsi).Is r8 0 (pair rsi rdi) :=
  Answer.Is.of_store rfl rfl

/-- One `div`, where the quotient fits. -/
theorem div_eq (hi lo : BitVec 64) {r : BitVec 64} (h : hi.toNat < r.toNat) :
    ∃ q m : BitVec 64, div hi lo r = some (q, m) ∧ q.toNat = pair hi lo / r.toNat ∧
      m.toNat = pair hi lo % r.toNat := by
  have hfit : pair hi lo / r.toNat < 2 ^ 64 := div_lt_of_digit_lt h lo.isLt
  have hpos : 0 < r.toNat := (Nat.zero_le _).trans_lt h
  have hne : r ≠ 0 := by
    rintro rfl
    exact absurd hpos (by decide)
  refine ⟨_, _, if_neg (not_or.mpr ⟨hne, hfit.not_ge⟩), ?_, ?_⟩
  · rw [BitVec.toNat_ofNat, Nat.mod_eq_of_lt hfit]
  · rw [BitVec.toNat_ofNat, Nat.mod_eq_of_lt ((Nat.mod_lt _ hpos).trans r.isLt)]

/-- **A divisor in one register**: one or two `div`, and no exception. -/
theorem simple_is (hpos : 0 < rdx.toNat) :
    ∃ a, simple r8 rdi rsi rdx 0 = some a ∧
      a.Is r8 (pair rsi rdi / rdx.toNat) (pair rsi rdi % rdx.toNat) := by
  rw [simple]
  by_cases h : rdx ≤ rsi
  · obtain ⟨r10, m, hhigh, hq, hm⟩ := div_eq 0 rsi hpos
    rw [pair_zero_left] at hq hm
    have hlt : m.toNat < rdx.toNat := by rw [hm]; exact Nat.mod_lt _ hpos
    obtain ⟨rax, rem, hlow, hax, hrem⟩ := div_eq m rdi hlt
    obtain ⟨hquot, hmod⟩ := schoolbook rsi.toNat rdi.toNat rdx.toNat (2 ^ 64)
    rw [if_pos h, long, hhigh]
    dsimp only
    rw [hlow]
    refine ⟨_, rfl, Answer.Is.of_store ?_ ?_⟩
    · rw [pair, hq, hax, pair, hm, hquot]
      rfl
    · rw [pair_zero_left, hrem, pair, hm, hmod]
      rfl
  · obtain ⟨rax, rem, hdiv, hax, hrem⟩ := div_eq rsi rdi (BitVec.lt_def.mp (BitVec.not_le.mp h))
    rw [if_neg h, normal, hdiv]
    refine ⟨_, rfl, Answer.Is.of_store ?_ ?_⟩
    · rw [pair_zero_left, hax]
    · rw [pair_zero_left, hrem]

/-- A divisor that is zero: the exception that the program's first lines announce. -/
theorem simple_zero : simple r8 rdi rsi 0 0 = none := by
  rw [simple, if_pos (BitVec.le_def.mpr (Nat.zero_le _)), long, div, if_pos (Or.inl rfl)]

/-! ### Shift and subtract -/

/-- The divisor, in its place for the first round. -/
theorem aligned {c : ℕ} (hc : c < 64) (r11 r10 : BitVec 64) :
    pair (r11 <<< c ||| r10 >>> (64 - c)) (r10 <<< c) = pair r11 r10 * 2 ^ c % 2 ^ 128 :=
  pair_shiftLeft r11 r10 hc.le

variable (r8 rdi rsi) in
/-- **`.large`**: with the distance `k`, it finds the quotient as far as `k + 1` bits go. -/
theorem large_is {r9 r11 : BitVec 64} {k : ℕ} (hk : k < 64) (hpos : 0 < pair r11 rdx)
    (hrcx : rcx - r9 = BitVec.ofNat 64 k) (hfit : pair r11 rdx * 2 ^ k < 2 ^ 128) :
    (large r8 rdi rsi rdx rcx r9 r11).Is r8 (found k (pair rsi rdi) (pair r11 rdx))
      (pair rsi rdi - pair r11 rdx * found k (pair rsi rdi) (pair r11 rdx)) := by
  have hcl : (BitVec.ofNat 64 k).toNat % 64 = k := by
    rw [BitVec.toNat_ofNat]
    omega
  have hdivisor := aligned hk r11 rdx
  rw [Nat.mod_eq_of_lt hfit] at hdivisor
  rw [large, hrcx, hcl]
  have hecx : (BitVec.ofNat 64 k).setWidth 32 = BitVec.ofNat 32 k :=
    BitVec.setWidth_ofNat_of_le (by decide) k
  have hleaves : Leaves ⟨rdi, rsi, 0, rdx <<< k, r11 <<< k ||| rdx >>> (64 - k),
      (BitVec.ofNat 64 k).setWidth 32⟩ (k + 1) (pair rsi rdi) (pair r11 rdx * 2 ^ k) 0 :=
    loop_eq _ hk hecx rfl rfl hdivisor
  rw [Leaves, rounds_eq hpos, zero_mul, zero_add] at hleaves
  obtain ⟨hr9, hrem⟩ := hleaves
  refine Answer.Is.of_store ?_ hrem
  have hbound : found k (pair rsi rdi) (pair r11 rdx) < 2 ^ 64 := by
    have hle : found k (pair rsi rdi) (pair r11 rdx) ≤ 2 ^ (k + 1) - 1 := min_le_right _ _
    have hpow := Nat.pow_le_pow_right (by decide : 0 < 2) (Nat.succ_le_of_lt hk)
    have := Nat.two_pow_pos (k + 1)
    omega
  rw [pair_zero_left, hr9, BitVec.toNat_ofNat, Nat.mod_eq_of_lt hbound]

variable (r8 rdi rsi rdx) in
/-- `.large` with a distance below zero: the divisor is moved up by 64 bits less, what
leaves the register is lost, and there is one round. -/
theorem large_wraps (r11 : BitVec 64) {r9 : BitVec 64} {d : ℕ} (hd : 0 < d) (hd' : d < 64)
    (hrcx : rcx - r9 = -BitVec.ofNat 64 d) {b : ℕ}
    (hb : pair r11 rdx * 2 ^ (64 - d) % 2 ^ 128 = b) :
    if b ≤ pair rsi rdi then (large r8 rdi rsi rdx rcx r9 r11).Is r8 1 (pair rsi rdi - b)
    else (large r8 rdi rsi rdx rcx r9 r11).Is r8 0 (pair rsi rdi) := by
  have hcl : (-BitVec.ofNat 64 d).toNat % 64 = 64 - d := by bv_omega
  have hecx : ((-BitVec.ofNat 64 d).setWidth 32 - 1).msb = true := by
    rw [BitVec.msb_eq_true_iff_two_mul_ge]
    bv_omega
  have hdivisor := aligned (by omega : 64 - d < 64) r11 rdx
  rw [hb] at hdivisor
  have hleaves : Leaves ⟨rdi, rsi, 0, rdx <<< (64 - d),
      r11 <<< (64 - d) ||| rdx >>> (64 - (64 - d)), (-BitVec.ofNat 64 d).setWidth 32⟩
      1 (pair rsi rdi) b 0 :=
    loop_once hecx rfl rfl hdivisor
  rw [Leaves, rounds] at hleaves
  rw [large, hrcx, hcl]
  by_cases h : b ≤ pair rsi rdi
  · rw [if_pos h] at hleaves ⊢
    refine Answer.Is.of_store ?_ hleaves.2
    rw [pair_zero_left, hleaves.1]
    rfl
  · rw [if_neg h] at hleaves ⊢
    refine Answer.Is.of_store ?_ hleaves.2
    rw [pair_zero_left, hleaves.1]
    rfl

end Answers

/-! ### The three entries -/

section Entries

/-- The highest bit that is set. -/
theorem bsr_of_ne_zero {x : BitVec 64} (h : x ≠ 0) : bsr x = some (BitVec.ofNat 64 x.toNat.log2) :=
  if_neg h

variable (undef rdi rsi rdx rcx : BitVec 64)

/-- The functions divide: quotient and remainder are those of the two numbers. -/
def Divides : Prop :=
  ∃ q r, udivti3 undef rdi rsi rdx rcx = some q ∧ umodti3 undef rdi rsi rdx rcx = some r ∧
    pair q.1 q.2 * pair rcx rdx + pair r.1 r.2 = pair rsi rdi ∧ pair r.1 r.2 < pair rcx rdx

/-- Where the functions divide: the dividend is below the divisor, or the divisor is in
one register, or its low half has the highest bit above that of its high half, far enough
for the quotient. -/
def Fits : Prop :=
  pair rsi rdi < pair rcx rdx ∨ (rcx = 0 ∧ rdx ≠ 0) ∨
    (rcx ≠ 0 ∧ rcx.toNat.log2 ≤ rdx.toNat.log2 ∧
      pair rsi rdi / pair rcx rdx < 2 ^ (rdx.toNat.log2 - rcx.toNat.log2 + 1))

instance : Decidable (Fits rdi rsi rdx rcx) := inferInstanceAs (Decidable (_ ∨ _ ∨ _))

variable {undef rdi rsi rdx rcx}

/-- What `__udivmodti4` compares first. -/
theorem compare_eq :
    (sbb rsi rcx (sbb rdi rdx false).2).2 = decide (pair rsi rdi < pair rcx rdx) :=
  (pair_sub rsi rdi rcx rdx (by decide)).1

theorem udivmodti4_of_lt (r8 : Bool) (h : pair rsi rdi < pair rcx rdx) :
    udivmodti4 undef r8 rdi rsi rdx rcx = some (trivial r8 rdi rsi) := by
  rw [udivmodti4, compare_eq, decide_eq_true h, if_pos rfl]

variable (undef) in
theorem udivmodti4_of_zero (r8 : Bool) (h : pair 0 rdx ≤ pair rsi rdi) :
    udivmodti4 undef r8 rdi rsi rdx 0 = simple r8 rdi rsi rdx 0 := by
  rw [udivmodti4, compare_eq, decide_eq_false h.not_gt, if_neg Bool.false_ne_true]
  rfl

theorem udivmodti4_of_ne_zero (r8 : Bool) (h : pair rcx rdx ≤ pair rsi rdi) (hcx : rcx ≠ 0)
    (hdx : rdx ≠ 0) :
    udivmodti4 undef r8 rdi rsi rdx rcx = some (large r8 rdi rsi rdx
      (BitVec.ofNat 64 rdx.toNat.log2) (BitVec.ofNat 64 rcx.toNat.log2) rcx) := by
  rw [udivmodti4, compare_eq, decide_eq_false h.not_gt, if_neg Bool.false_ne_true,
    bsr_of_ne_zero hcx, bsr_of_ne_zero hdx]
  rfl

/-- Whether the functions divide is read off from the answers. -/
theorem divides_iff_of_is {q r : ℕ}
    (h : ∀ r8, ∃ a, udivmodti4 undef r8 rdi rsi rdx rcx = some a ∧ a.Is r8 q r) :
    Divides undef rdi rsi rdx rcx ↔ q * pair rcx rdx + r = pair rsi rdi ∧ r < pair rcx rdx := by
  obtain ⟨a, ha, haq, -⟩ := h false
  obtain ⟨b, hb, -, low, high, hstore, hbr⟩ := h true
  have hquot : udivti3 undef rdi rsi rdx rcx = some (a.rdx, a.rax) := by
    rw [udivti3, ha, Option.map_some]
  have hrem : umodti3 undef rdi rsi rdx rcx = some (high, low) := by
    rw [umodti3, hb, Option.bind_some, hstore]
    rfl
  constructor
  · rintro ⟨q', r', hq', hr', hdivides⟩
    rw [hquot] at hq'
    rw [hrem] at hr'
    obtain rfl := Option.some.inj hq'
    obtain rfl := Option.some.inj hr'
    rwa [haq, hbr] at hdivides
  · intro hdivides
    refine ⟨_, _, hquot, hrem, ?_⟩
    rwa [haq, hbr]

/-- A divisor of two registers, at its distance from the top. -/
theorem pair_bounds {hi : BitVec 64} (lo : BitVec 64) (h : hi ≠ 0) :
    2 ^ (64 + hi.toNat.log2) ≤ pair hi lo ∧ pair hi lo < 2 ^ (64 + hi.toNat.log2 + 1) := by
  have hne : hi.toNat ≠ 0 := fun hz => h (BitVec.eq_of_toNat_eq hz)
  have hlo := lo.isLt
  have hself := Nat.log2_self_le hne
  have htop : hi.toNat + 1 ≤ 2 ^ (hi.toNat.log2 + 1) := Nat.lt_log2_self
  rw [pair, add_assoc, pow_add, pow_add 2 64]
  constructor <;> nlinarith

theorem log2_lt {x : BitVec 64} : x.toNat.log2 < 64 := by
  rcases Nat.eq_zero_or_pos x.toNat with h | h
  · rw [h]
    decide
  · exact (Nat.log2_lt h.ne').mpr x.isLt

/-- The distance of two bits, where it is not negative. -/
theorem distance {x y : BitVec 64} (h : y.toNat.log2 ≤ x.toNat.log2) :
    BitVec.ofNat 64 x.toNat.log2 - BitVec.ofNat 64 y.toNat.log2
      = BitVec.ofNat 64 (x.toNat.log2 - y.toNat.log2) := by
  have hx := log2_lt (x := x)
  bv_omega

theorem distance_neg {x y : BitVec 64} (h : x.toNat.log2 < y.toNat.log2) :
    BitVec.ofNat 64 x.toNat.log2 - BitVec.ofNat 64 y.toNat.log2
      = -BitVec.ofNat 64 (y.toNat.log2 - x.toNat.log2) := by
  have hy := log2_lt (x := y)
  bv_omega

/-! ### When the functions divide -/

/-- With a distance that is not negative, the rounds have to be enough. -/
theorem divides_of_distance (h : pair rcx rdx ≤ pair rsi rdi) (hcx : rcx ≠ 0) (hdx : rdx ≠ 0)
    (hd : rcx.toNat.log2 ≤ rdx.toNat.log2) :
    Divides undef rdi rsi rdx rcx ↔
      pair rsi rdi / pair rcx rdx < 2 ^ (rdx.toNat.log2 - rcx.toNat.log2 + 1) := by
  have hdx64 := log2_lt (x := rdx)
  obtain ⟨hlow, hhigh⟩ := pair_bounds rdx hcx
  have hpos : 0 < pair rcx rdx := (Nat.two_pow_pos _).trans_le hlow
  have hfit : pair rcx rdx * 2 ^ (rdx.toNat.log2 - rcx.toNat.log2) < 2 ^ 128 := by
    refine (Nat.mul_lt_mul_of_pos_right hhigh (Nat.two_pow_pos _)).trans_le ?_
    rw [← pow_add]
    exact Nat.pow_le_pow_right (by decide) (by omega)
  have hanswers : ∀ r8, ∃ a, udivmodti4 undef r8 rdi rsi rdx rcx = some a ∧ a.Is r8 _ _ :=
    fun r8 => ⟨_, udivmodti4_of_ne_zero r8 h hcx hdx,
      large_is r8 rdi rsi (by omega) hpos (distance hd) hfit⟩
  rw [divides_iff_of_is hanswers, ← sub_mul_found hpos, mul_comm]
  exact and_iff_right (Nat.add_sub_cancel' mul_found_le)

/-- With a distance below zero, they do not divide. -/
theorem not_divides_of_distance (h : pair rcx rdx ≤ pair rsi rdi) (hcx : rcx ≠ 0) (hdx : rdx ≠ 0)
    (hd : rdx.toNat.log2 < rcx.toNat.log2) : ¬Divides undef rdi rsi rdx rcx := by
  have hcx64 := log2_lt (x := rcx)
  have hpos : 0 < pair rcx rdx := (Nat.two_pow_pos _).trans_le (pair_bounds rdx hcx).1
  have hmoved := mul_two_pow_mod_ne hpos (pair_lt rcx rdx)
    (by omega : 0 < 64 - (rcx.toNat.log2 - rdx.toNat.log2))
  have hanswer (r8 : Bool) := large_wraps r8 rdi rsi rdx rcx
    (Nat.sub_pos_of_lt hd) (by omega) (distance_neg hd) rfl
  by_cases hb : pair rcx rdx * 2 ^ (64 - (rcx.toNat.log2 - rdx.toNat.log2)) % 2 ^ 128
      ≤ pair rsi rdi
  · have hanswers : ∀ r8, ∃ a, udivmodti4 undef r8 rdi rsi rdx rcx = some a ∧ a.Is r8 _ _ :=
      fun r8 => ⟨_, udivmodti4_of_ne_zero r8 h hcx hdx, (if_pos hb).mp (hanswer r8)⟩
    rw [divides_iff_of_is hanswers]
    rintro ⟨hsum, -⟩
    rw [one_mul] at hsum
    exact hmoved (by omega)
  · have hanswers : ∀ r8, ∃ a, udivmodti4 undef r8 rdi rsi rdx rcx = some a ∧ a.Is r8 _ _ :=
      fun r8 => ⟨_, udivmodti4_of_ne_zero r8 h hcx hdx, (if_neg hb).mp (hanswer r8)⟩
    rw [divides_iff_of_is hanswers]
    exact fun hdivides => hdivides.2.not_ge h

/-- **When the functions divide**: whatever the numbers are, as long as `bsr` has a bit to
find in the low half of a divisor of two registers. -/
theorem divides_iff (undef rdi rsi rdx rcx : BitVec 64)
    (hbsr : rcx = 0 ∨ rdx ≠ 0 ∨ pair rsi rdi < pair rcx rdx) :
    Divides undef rdi rsi rdx rcx ↔ Fits rdi rsi rdx rcx := by
  by_cases h : pair rsi rdi < pair rcx rdx
  · refine iff_of_true ?_ (Or.inl h)
    rw [divides_iff_of_is fun r8 => ⟨_, udivmodti4_of_lt r8 h, trivial_is⟩, zero_mul, zero_add]
    exact ⟨rfl, h⟩
  have hle : pair rcx rdx ≤ pair rsi rdi := not_lt.mp h
  rw [Fits, or_iff_right h]
  -- a divisor of one register, and one of two
  by_cases hcx : rcx = 0
  · subst hcx
    rw [or_iff_left fun h' => h'.1 rfl, and_iff_right rfl]
    by_cases hdx : rdx = 0
    · subst hdx
      refine iff_of_false ?_ fun h' => h' rfl
      rintro ⟨q, -, hq, -⟩
      rw [udivti3, udivmodti4_of_zero undef false hle, simple_zero] at hq
      exact absurd hq.symm (Option.some_ne_none q)
    · have hpos : 0 < rdx.toNat :=
        Nat.pos_of_ne_zero fun hz => hdx (BitVec.eq_of_toNat_eq hz)
      have hanswers : ∀ r8, ∃ a, udivmodti4 undef r8 rdi rsi rdx 0 = some a ∧ a.Is r8 _ _ :=
        fun r8 => udivmodti4_of_zero undef r8 hle ▸ simple_is hpos
      refine iff_of_true ?_ hdx
      rw [divides_iff_of_is hanswers, pair_zero_left, mul_comm]
      exact ⟨Nat.div_add_mod _ _, Nat.mod_lt _ hpos⟩
  · have hdx : rdx ≠ 0 := (hbsr.resolve_left hcx).resolve_right h
    rw [or_iff_right fun h' => hcx h'.1, and_iff_right hcx]
    by_cases hd : rcx.toNat.log2 ≤ rdx.toNat.log2
    · rw [and_iff_right hd]
      exact divides_of_distance hle hcx hdx hd
    · exact iff_of_false (not_divides_of_distance hle hcx hdx (not_le.mp hd)) fun h' => hd h'.1

/-- The smallest divisor of two registers with a bit in the low one, and a dividend that
needs a second bit of the quotient. -/
theorem divides_iff_oneRound : ¬Divides 0 2 2 1 1 :=
  fun h => absurd ((divides_iff 0 2 2 1 1 (Or.inr (Or.inl (by decide)))).mp h) (by decide)

/-- With the highest bit of the dividend, as the comment on the instruction has it, the
rounds are always enough. -/
theorem large_of_dividend (r8 : Bool) (h : pair rcx rdx ≤ pair rsi rdi) (hcx : rcx ≠ 0) :
    (large r8 rdi rsi rdx (BitVec.ofNat 64 rsi.toNat.log2) (BitVec.ofNat 64 rcx.toNat.log2)
      rcx).Is r8 (pair rsi rdi / pair rcx rdx) (pair rsi rdi % pair rcx rdx) := by
  have hsi64 := log2_lt (x := rsi)
  obtain ⟨hlow, hhigh⟩ := pair_bounds rdx hcx
  have hpos : 0 < pair rcx rdx := (Nat.two_pow_pos _).trans_le hlow
  have hle : rcx.toNat ≤ rsi.toNat := by
    rw [← pair_div rcx rdx, ← pair_div rsi rdi]
    exact Nat.div_le_div_right h
  have hsi : rsi ≠ 0 := by
    rintro rfl
    exact hcx (BitVec.eq_of_toNat_eq (Nat.le_zero.mp hle))
  have hd : rcx.toNat.log2 ≤ rsi.toNat.log2 := by
    rw [Nat.log2_eq_log_two, Nat.log2_eq_log_two]
    exact Nat.log_mono_right hle
  have htop := (pair_bounds rdi hsi).2
  have hquot : pair rsi rdi / pair rcx rdx < 2 ^ (rsi.toNat.log2 - rcx.toNat.log2 + 1) := by
    rw [Nat.div_lt_iff_lt_mul hpos]
    refine htop.trans_le (le_trans (le_of_eq ?_) (Nat.mul_le_mul_left _ hlow))
    rw [← pow_add]
    congr 1
    omega
  have hfound : found (rsi.toNat.log2 - rcx.toNat.log2) (pair rsi rdi) (pair rcx rdx)
      = pair rsi rdi / pair rcx rdx := min_eq_left (Nat.le_sub_one_of_lt hquot)
  have hfit : pair rcx rdx * 2 ^ (rsi.toNat.log2 - rcx.toNat.log2) < 2 ^ 128 := by
    refine (Nat.mul_lt_mul_of_pos_right hhigh (Nat.two_pow_pos _)).trans_le ?_
    rw [← pow_add]
    exact Nat.pow_le_pow_right (by decide) (by omega)
  have hlarge := large_is r8 rdi rsi (by omega) hpos (distance hd) hfit
  rwa [hfound, Nat.sub_eq_of_eq_add (Nat.mod_add_div _ _).symm] at hlarge

end Entries

end Div128
