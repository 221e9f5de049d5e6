/-
What an earlier file leaves in the outputs of the filters.

All four programs open their output with `O_WRONLY | O_CREAT` (0x41), without
`O_TRUNC`, and write it from its beginning on.  `leaves_nothing_iff` says when the
result does not depend on what was there: the old file must not be longer than
what the run writes.
-/
import UnixPrograms.Rot
import UnixPrograms.Checksum

namespace FileFilters

open Bytes Files

inductive Program where
  | coder
  | decoder
  | checksumEncoder
  | rot13
deriving DecidableEq

namespace Program

/-- The program takes this key; the checksum encoder has none. -/
def accepts : Program → CString → Bool
  | coder, key => (Coder.xorVal (stringtohex key)).isSome
  | decoder, key => (Decoder.xorVal (stringtohex key)).isSome
  | checksumEncoder, _ => true
  | rot13, key => (Rot13.rotVal (Rot13.myatoi key)).isSome

/-- A run whose two `open` calls succeed, over an output file that was `old`. -/
def run (prog key infile outfile : CString) (x : List Byte) (old : Option (List Byte)) :
    Program → Exit
  | coder => Coder.main [prog, key, infile, outfile] ⟨some x, some old⟩
  | decoder => Decoder.main [prog, key, infile, outfile] ⟨some x, some old⟩
  | checksumEncoder => Checksum.main [prog, infile] ⟨some x, some old⟩
  | rot13 => Rot13.main [prog, key, infile, outfile] ⟨some x, some old⟩

/-- How many bytes a run writes for an input of `n` bytes. -/
def written : Program → ℕ → ℕ
  | checksumEncoder, n => n + 2
  | _, n => n

variable (prog key infile outfile : CString) (x : List Byte)

/-- **What a run writes** does not depend on the old file; it is written over its
beginning. -/
theorem run_wrote (p : Program) (h : p.accepts key) :
    ∃ name bs, bs.length = p.written x.length ∧
      ∀ old, ∃ f, Wrote (old.getD []) bs f ∧
        (p.run prog key infile outfile x old).outfile = some (name, f.content) := by
  cases p with
  | coder =>
    obtain ⟨k, hk⟩ := Option.isSome_iff_exists.mp h
    refine ⟨outfile, x.mapIdx fun i => Coder.changeByte k (i % 4), List.length_mapIdx, ?_⟩
    intro old
    refine ⟨_, copy_wrote (Coder.changeByte k) old x, ?_⟩
    rw [run, Coder.main, hk]
    rfl
  | decoder =>
    obtain ⟨k, hk⟩ := Option.isSome_iff_exists.mp h
    refine ⟨outfile, x.mapIdx fun i => Decoder.changeByte k (i % 4), List.length_mapIdx, ?_⟩
    intro old
    refine ⟨_, copy_wrote (Decoder.changeByte k) old x, ?_⟩
    rw [run, Decoder.main, hk]
    rfl
  | checksumEncoder =>
    refine ⟨_, Checksum.encoded x, ?_, fun old => ⟨_, Checksum.encode_wrote x old, rfl⟩⟩
    rw [Checksum.encoded, List.length_append]
    rfl
  | rot13 =>
    obtain ⟨k, hk⟩ := Option.isSome_iff_exists.mp h
    refine ⟨outfile, x.map (Rot13.changeByte k), List.length_map _, ?_⟩
    intro old
    refine ⟨_, Rot13.rotLoop_wrote k old x, ?_⟩
    rw [run, Rot13.main, hk]
    rfl

variable (old : Option (List Byte))

/-- The output file is what it would have been without the old one. -/
def LeavesNothing (p : Program) : Prop :=
  (p.run prog key infile outfile x old).outfile =
    (p.run prog key infile outfile x none).outfile

/-- **Nothing of the old file is left** exactly when the run writes at least as
many bytes as it had. -/
theorem leaves_nothing_iff (p : Program) (h : p.accepts key) :
    p.LeavesNothing prog key infile outfile x old ↔
      (old.getD []).length ≤ p.written x.length := by
  obtain ⟨name, bs, hlen, hrun⟩ := p.run_wrote prog key infile outfile x h
  obtain ⟨f, hf, hout⟩ := hrun old
  obtain ⟨f', hf', hout'⟩ := hrun none
  have hnew : f'.content = bs := hf'.content_eq_iff.mpr (Nat.zero_le _)
  rw [LeavesNothing, hout, hout', hnew, ← hlen, ← hf.content_eq_iff]
  simp

/-- The coder with key `00`, for a file of one byte. -/
theorem coder_leaves_nothing_one_byte :
    coder.accepts (text ['0', '0']) = true ∧
      (coder.LeavesNothing [] (text ['0', '0']) [] [] [0x41] (some [0x42]) ↔
        ((some [0x42] : Option (List Byte)).getD []).length ≤ coder.written 1) :=
  ⟨by decide, leaves_nothing_iff [] (text ['0', '0']) [] [] [0x41] (some [0x42]) coder (by decide)⟩

/-- An empty input over a file of one byte: the byte stays. -/
theorem coder_leaves_old_byte :
    coder.accepts (text ['0', '0']) = true ∧
      ¬ coder.LeavesNothing [] (text ['0', '0']) [] [] [] (some [0x42]) := by
  rw [LeavesNothing]
  decide

end Program

end FileFilters
