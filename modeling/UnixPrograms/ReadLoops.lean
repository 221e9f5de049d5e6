/-
Loops around a system call that reads.

A loop is a body that gets the result of one read and goes on or leaves; the
results come from a stream.

* `Loop.run` — the loop after some reads;
* `Loop.Leaves`, `Loop.OnlyRead` — it ends, and what it wrote was read before;
* `Loop.Copying` — what a body does with data, at the end of the file, and with an
  error: it must look at the sign of the result to leave on an error;
* `Loop.copies_iff` — a loop that looks for zero only leaves on the end of the
  file, and never on an error that stays.
-/
import Mathlib.Tactic

namespace ReadLoops

variable {σ β : Type}

/-- What `read` returns: bytes, none of them at the end of the file, or an error
number, which comes back negative. -/
inductive ReadResult (β : Type) where
  | data (bs : List β)
  | error (errno : ℕ)

namespace ReadResult

/-- The result as a register. -/
def rax : ReadResult β → BitVec 64
  | data bs => BitVec.ofNat 64 bs.length
  | error errno => -BitVec.ofNat 64 errno

/-- The bytes that were read. -/
def bytes : ReadResult β → List β
  | data bs => bs
  | error _ => []

/-- The end of the file. -/
def eof : ReadResult β := data []

/-- The error numbers whose result is negative. -/
def IsNegative (errno : ℕ) : Prop := 0 < errno ∧ errno ≤ 2 ^ 63

theorem rax_data_ne_zero {bs : List β} (hbs : bs ≠ []) (hlen : bs.length < 2 ^ 64) :
    (data bs).rax ≠ 0 := by
  intro hzero
  have hval := congrArg BitVec.toNat hzero
  rw [rax, BitVec.toNat_ofNat, Nat.mod_eq_of_lt hlen] at hval
  exact hbs (List.length_eq_zero_iff.mp hval)

theorem rax_error_ne_zero {errno : ℕ} (h : IsNegative errno) :
    (error errno : ReadResult β).rax ≠ 0 := by
  intro hzero
  have hval := congrArg BitVec.toNat hzero
  obtain ⟨hpos, hlt⟩ := h
  rw [rax, BitVec.toNat_neg, BitVec.toNat_ofNat, Nat.mod_eq_of_lt (a := errno) (by omega),
    Nat.mod_eq_of_lt (by omega)] at hval
  have hzero' : (0 : BitVec 64).toNat = 0 := rfl
  omega

end ReadResult

open ReadResult

/-- Some reads that succeed, and then one result for ever. -/
def readsThen (rs : List (List β)) (last : ReadResult β) (k : ℕ) : ReadResult β :=
  (rs.map data).getD k last

/-- A loop: its body leaves with `none`. -/
structure Loop (σ β : Type) where
  body : σ → ReadResult β → Option σ
  written : σ → List β

namespace Loop

variable (L : Loop σ β) (reads : ℕ → ReadResult β) (s : σ)

/-- The state after some reads, and whether the loop was left. -/
def run : ℕ → σ × Bool
  | 0 => (s, false)
  | k + 1 =>
    match run k with
    | (t, true) => (t, true)
    | (t, false) =>
      match L.body t (reads k) with
      | none => (t, true)
      | some t' => (t', false)

/-- The loop ends. -/
def Leaves : Prop := ∃ k, (L.run reads s k).2 = true

/-- At any time, what was written is what was read up to then, or a part of it. -/
def OnlyRead (change : β → β) : Prop :=
  ∀ k, L.written (L.run reads s k).1 <+:
    L.written s ++ ((List.range k).flatMap fun i => (reads i).bytes).map change

/-- The loop ends, and writes nothing that was not read. -/
def Copies (change : β → β) : Prop := L.Leaves reads s ∧ L.OnlyRead reads s change

/-- A body that writes what is read, byte by byte changed, leaves at the end of the
file, and goes on in any other case. -/
structure Copying (size : ℕ) (change : β → β) : Prop where
  data : ∀ s bs, bs ≠ [] → bs.length ≤ size →
    ∃ s', L.body s (.data bs) = some s' ∧ L.written s' = L.written s ++ bs.map change
  eof : ∀ s, L.body s eof = none
  error : ∀ s errno, IsNegative errno → L.body s (.error errno) ≠ none

variable {L reads s} {change : β → β} {size : ℕ}

theorem run_succ_of_left {k : ℕ} {t : σ} (h : L.run reads s k = (t, true)) :
    L.run reads s (k + 1) = (t, true) := by
  rw [run, h]

theorem run_succ_of_none {k : ℕ} {t : σ} (h : L.run reads s k = (t, false))
    (hbody : L.body t (reads k) = none) : L.run reads s (k + 1) = (t, true) := by
  rw [run, h]
  simp only [hbody]

theorem run_succ_of_some {k : ℕ} {t t' : σ} (h : L.run reads s k = (t, false))
    (hbody : L.body t (reads k) = some t') : L.run reads s (k + 1) = (t', false) := by
  rw [run, h]
  simp only [hbody]

/-- The first round, and then the rest. -/
theorem run_cons {s' : σ} (hbody : L.body s (reads 0) = some s') (k : ℕ) :
    L.run reads s (k + 1) = L.run (fun i => reads (i + 1)) s' k := by
  induction k with
  | zero => simp [run, hbody]
  | succ k ih => rw [run, ih, run]

variable {rs : List (List β)} {last : ReadResult β}

theorem readsThen_of_lt (last : ReadResult β) {k : ℕ} (hk : k < rs.length) : readsThen rs last k = .data rs[k] := by
  simp [readsThen, hk]

theorem readsThen_of_le (last : ReadResult β) {k : ℕ} (hk : rs.length ≤ k) : readsThen rs last k = last := by
  simp [readsThen, hk]

/-- **As long as reads succeed**, the loop writes what they read. -/
theorem Copying.run_data (h : L.Copying size change) (last : ReadResult β)
    (hrs : ∀ bs ∈ rs, bs ≠ [] ∧ bs.length ≤ size) {k : ℕ} (hk : k ≤ rs.length) :
    ∃ t, L.run (readsThen rs last) s k = (t, false) ∧
      L.written t = L.written s ++ (rs.take k).flatten.map change := by
  induction k with
  | zero => exact ⟨s, rfl, by simp⟩
  | succ k ih =>
    obtain ⟨t, hrun, hwritten⟩ := ih (by omega)
    have hlt : k < rs.length := hk
    obtain ⟨hne, hlen⟩ := hrs rs[k] (List.getElem_mem hlt)
    obtain ⟨t', hbody, hmore⟩ := h.data t rs[k] hne hlen
    rw [← readsThen_of_lt last hlt] at hbody
    refine ⟨t', run_succ_of_some hrun hbody, ?_⟩
    rw [hmore, hwritten, List.take_succ_eq_append_getElem hlt, List.flatten_append,
      List.map_append, List.append_assoc]
    simp

/-- At the end of the file the loop is left, with everything written. -/
theorem Copying.run_eof (h : L.Copying size change)
    (hrs : ∀ bs ∈ rs, bs ≠ [] ∧ bs.length ≤ size) {k : ℕ} (hk : rs.length < k) :
    ∃ t, L.run (readsThen rs ReadResult.eof) s k = (t, true) ∧
      L.written t = L.written s ++ rs.flatten.map change := by
  obtain ⟨j, rfl⟩ : ∃ j, k = rs.length + 1 + j := ⟨k - (rs.length + 1), by omega⟩
  induction j with
  | zero =>
    obtain ⟨t, hrun, hwritten⟩ := h.run_data (s := s) ReadResult.eof hrs (le_refl rs.length)
    rw [List.take_length] at hwritten
    refine ⟨t, run_succ_of_none hrun ?_, hwritten⟩
    rw [readsThen_of_le _ (le_refl _)]
    exact h.eof t
  | succ j ih =>
    obtain ⟨t, hrun, hwritten⟩ := ih (by omega)
    exact ⟨t, run_succ_of_left hrun, hwritten⟩

/-- **An error that stays** keeps the loop going for ever. -/
theorem Copying.not_leaves_error (h : L.Copying size change)
    (hrs : ∀ bs ∈ rs, bs ≠ [] ∧ bs.length ≤ size) {errno : ℕ} (herrno : IsNegative errno) :
    ¬ L.Leaves (readsThen rs (.error errno)) s := by
  have hinside : ∀ k, ∃ t, L.run (readsThen rs (.error errno)) s k = (t, false) := by
    intro k
    by_cases hk : k ≤ rs.length
    · obtain ⟨t, hrun, -⟩ := h.run_data (s := s) (.error errno) hrs hk
      exact ⟨t, hrun⟩
    · induction k with
      | zero => exact absurd (Nat.zero_le _) hk
      | succ k ih =>
        obtain ⟨t, hrun⟩ : ∃ t, L.run (readsThen rs (.error errno)) s k = (t, false) := by
          by_cases hlast : k ≤ rs.length
          · obtain ⟨t, hrun, -⟩ := h.run_data (s := s) (.error errno) hrs hlast
            exact ⟨t, hrun⟩
          · exact ih hlast
        obtain ⟨t', hbody⟩ := Option.ne_none_iff_exists'.mp (h.error t errno herrno)
        rw [← readsThen_of_le (.error errno) (show rs.length ≤ k by omega)] at hbody
        exact ⟨t', run_succ_of_some hrun hbody⟩
  rintro ⟨k, hleft⟩
  obtain ⟨t, hrun⟩ := hinside k
  rw [hrun] at hleft
  exact absurd hleft (by simp)

/-- What was read in the first `k` reads. -/
theorem flatMap_bytes_readsThen {k : ℕ} (hlast : last.bytes = []) :
    ((List.range k).flatMap fun i => (readsThen rs last i).bytes) = (rs.take k).flatten := by
  induction k with
  | zero => simp
  | succ k ih =>
    rw [List.range_succ, List.flatMap_append, ih, List.flatMap_singleton]
    by_cases hk : k < rs.length
    · rw [readsThen_of_lt _ hk, List.take_succ_eq_append_getElem hk, List.flatten_append]
      simp [bytes]
    · rw [readsThen_of_le _ (by omega), hlast, List.take_of_length_le (by omega),
        List.take_of_length_le (by omega), List.append_nil]

/-- **When a loop copies its input and ends**: when the reads end with the end of
the file. -/
theorem Copying.copies_iff (h : L.Copying size change)
    (hrs : ∀ bs ∈ rs, bs ≠ [] ∧ bs.length ≤ size)
    (hlast : last = ReadResult.eof ∨ ∃ errno, IsNegative errno ∧ last = .error errno) :
    L.Copies (readsThen rs last) s change ↔ last = ReadResult.eof := by
  constructor
  · rintro ⟨hleaves, -⟩
    rcases hlast with heof | ⟨errno, herrno, rfl⟩
    · exact heof
    · exact absurd hleaves (h.not_leaves_error hrs herrno)
  · rintro rfl
    refine ⟨?_, ?_⟩
    · obtain ⟨t, hrun, -⟩ := h.run_eof (s := s) hrs (Nat.lt_succ_self rs.length)
      exact ⟨rs.length + 1, by rw [hrun]⟩
    · intro k
      rw [flatMap_bytes_readsThen rfl]
      by_cases hk : k ≤ rs.length
      · obtain ⟨t, hrun, hwritten⟩ := h.run_data (s := s) ReadResult.eof hrs hk
        rw [hrun, hwritten]
      · obtain ⟨t, hrun, hwritten⟩ := h.run_eof (s := s) hrs (by omega : rs.length < k)
        rw [hrun, hwritten, List.take_of_length_le (by omega)]

end Loop

end ReadLoops
