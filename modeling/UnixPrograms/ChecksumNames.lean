/-
The names of the outputs of `checksum`, made in the memory of the arguments.

Both parts change the argument where it stands: `encode.s` puts `.out` behind it,
`checksum.s` ends it at its first `.` and puts a `2` there.  The memory from the
argument on is a list of bytes; what does not fit into it is a fault, `none`.

* `strncat`, `getNextChar` — the two edits, with the bytes around them;
* `encoderMemory`, `decoderMemory` — `BUILD_OUTPUT_NAME` of the two parts;
* `outfile_encode`, `outfile_decode` — the paths that are opened then are the names
  that `Checksum.main` has;
* `beside_iff` — when the decoder's path is the encoder's argument with a `2`.
-/
import Mathlib.Data.List.TakeWhile
import UnixPrograms.Checksum

namespace ChecksumNames

open Bytes Files

/-- The path at an address: the bytes up to the first zero. -/
def pathAt (mem : List Byte) : CString := mem.takeWhile (· ≠ 0)

/-! ### The code -/

/-- `strncat` of the C library: at most `n` bytes of the suffix over the zero at the
end of the string, and a new zero behind them. -/
def strncat (mem : List Byte) (suffix : List Byte) (n : ℕ) : Option (List Byte) :=
  let dest := pathAt mem
  let added := (pathAt suffix).take n
  if dest.length + added.length + 1 ≤ mem.length then
    some (dest ++ added ++ 0 :: mem.drop (dest.length + added.length + 1))
  else none

/-- The loop `GET_NEXT_CHAR`, with `REPLACE_WITH_NULL`: two bytes are cleared. -/
def getNextChar : List Byte → Option (List Byte)
  | [] => none
  | r9 :: mem =>
    if r9 = 0x2e then
      match mem with
      | [] => none
      | _ :: mem => some (0 :: 0 :: mem)
    else if r9 = 0 then some (r9 :: mem)
    else (getNextChar mem).map (r9 :: ·)

/-- `OUT_FILE_SUFFIX` of `encode.s`, with the zero behind it. -/
def encoderSuffix : List Byte := text ['.', 'o', 'u', 't'] ++ [0]

/-- `OUT_FILE_SUFFIX` of `checksum.s`. -/
def decoderSuffix : List Byte := text ['2'] ++ [0]

/-- `BUILD_OUTPUT_NAME` of `encode.s`; the length counts the zero. -/
def encoderMemory (mem : List Byte) : Option (List Byte) := strncat mem encoderSuffix 5

/-- `BUILD_OUTPUT_NAME` of `checksum.s`. -/
def decoderMemory (mem : List Byte) : Option (List Byte) :=
  (getNextChar mem).bind fun mem => strncat mem decoderSuffix 1

/-! ### Paths -/

theorem pathAt_append {p : CString} (hp : 0 ∉ p) (rest : List Byte) :
    pathAt (p ++ 0 :: rest) = p := by
  have hall : ∀ b ∈ p, decide (b ≠ 0) = true := by
    intro b hb
    rw [decide_eq_true_iff]
    rintro rfl
    exact hp hb
  rw [pathAt, List.takeWhile_append_of_pos hall, List.takeWhile_cons_of_neg (by simp),
    List.append_nil]

theorem zero_notMem_pathAt (mem : List Byte) : 0 ∉ pathAt mem := by
  intro hzero
  have hne := List.mem_takeWhile_imp hzero
  simp at hne

theorem pathAt_strncat {mem mem' suffix : List Byte} {n : ℕ}
    (h : strncat mem suffix n = some mem') :
    pathAt mem' = pathAt mem ++ (pathAt suffix).take n := by
  obtain ⟨-, heq⟩ := Option.ite_none_right_eq_some.mp h
  obtain rfl := Option.some.inj heq
  refine pathAt_append ?_ _
  rw [List.mem_append, not_or]
  exact ⟨zero_notMem_pathAt mem,
    fun hzero => zero_notMem_pathAt suffix (List.mem_of_mem_take hzero)⟩

/-- What is left of a path is what stood before its first `.`. -/
theorem pathAt_getNextChar {mem mem' : List Byte} (h : getNextChar mem = some mem') :
    pathAt mem' = Checksum.cutAtDot mem := by
  fun_induction getNextChar mem generalizing mem' with
  | case1 => cases h
  | case2 => cases h
  | case3 b mem =>
    cases h
    rfl
  | case4 mem hdot =>
    cases h
    rfl
  | case5 r9 mem hdot hzero ih =>
    obtain ⟨cut, hcut, rfl⟩ := Option.map_eq_some_iff.mp h
    rw [pathAt, List.takeWhile_cons_of_pos (by simpa using hzero), Checksum.cutAtDot,
      List.takeWhile_cons_of_pos (by simpa using ⟨hdot, hzero⟩)]
    exact congrArg (r9 :: ·) (ih hcut)

/-- **The path that the encoder opens** for its output. -/
theorem pathAt_encoderMemory {mem mem' : List Byte} (h : encoderMemory mem = some mem') :
    pathAt mem' = pathAt mem ++ text ['.', 'o', 'u', 't'] :=
  pathAt_strncat h

/-- **The path that the decoder opens** for its output. -/
theorem pathAt_decoderMemory {mem mem' : List Byte} (h : decoderMemory mem = some mem') :
    pathAt mem' = Checksum.cutAtDot mem ++ text ['2'] := by
  obtain ⟨cut, hcut, h⟩ := Option.bind_eq_some_iff.mp h
  rw [pathAt_strncat h, pathAt_getNextChar hcut]
  rfl

/-! ### Room for the edits -/

/-- Four bytes behind the argument are enough for the encoder. -/
theorem exists_encoderMemory {p : CString} (hp : 0 ∉ p) {rest : List Byte}
    (hrest : 4 ≤ rest.length) : ∃ mem, encoderMemory (p ++ 0 :: rest) = some mem := by
  have hsuffix : ((pathAt encoderSuffix).take 5).length = 4 := by decide
  refine ⟨_, if_pos ?_⟩
  rw [pathAt_append hp, hsuffix, List.length_append, List.length_cons]
  omega

theorem length_getNextChar {mem mem' : List Byte} (h : getNextChar mem = some mem') :
    mem'.length = mem.length := by
  fun_induction getNextChar mem generalizing mem' with
  | case1 => cases h
  | case2 => cases h
  | case3 b mem =>
    cases h
    rfl
  | case4 mem hdot =>
    cases h
    rfl
  | case5 r9 mem hdot hzero ih =>
    obtain ⟨cut, hcut, rfl⟩ := Option.map_eq_some_iff.mp h
    rw [List.length_cons, List.length_cons, ih hcut]

theorem getNextChar_cons {r9 : Byte} (hdot : r9 ≠ 0x2e) (mem : List Byte) :
    getNextChar (r9 :: mem) =
      if r9 = 0 then some (r9 :: mem) else (getNextChar mem).map (r9 :: ·) := by
  rw [getNextChar.eq_def]
  exact if_neg hdot

theorem exists_getNextChar (p : CString) (c : Byte) (rest : List Byte) :
    ∃ mem, getNextChar (p ++ 0x2e :: c :: rest) = some mem := by
  induction p with
  | nil => exact ⟨_, rfl⟩
  | cons b p ih =>
    obtain ⟨mem, hmem⟩ := ih
    by_cases hdot : b = 0x2e
    · subst hdot
      obtain ⟨d, tail, htail⟩ : ∃ d tail, p ++ 0x2e :: c :: rest = d :: tail :=
        List.exists_cons_of_ne_nil (by simp)
      rw [List.cons_append, htail]
      exact ⟨_, rfl⟩
    · rw [List.cons_append, getNextChar_cons hdot, hmem]
      by_cases hzero : b = 0
      · exact ⟨_, if_pos hzero⟩
      · exact ⟨_, if_neg hzero⟩

/-- Up to its first `.` there is no more of `p` than `p` itself. -/
theorem cutAtDot_append {p : CString} (hp : 0 ∉ p) (rest : List Byte) :
    Checksum.cutAtDot (p ++ 0x2e :: rest) = p.takeWhile (· ≠ 0x2e) := by
  induction p with
  | nil => rfl
  | cons b p ih =>
    rw [List.mem_cons, not_or] at hp
    obtain ⟨hb, hp⟩ := hp
    by_cases hdot : b = 0x2e
    · subst hdot
      rfl
    · rw [List.cons_append, Checksum.cutAtDot,
        List.takeWhile_cons_of_pos (by simpa using ⟨hdot, Ne.symm hb⟩),
        List.takeWhile_cons_of_pos (by simpa using hdot)]
      exact congrArg (b :: ·) (ih hp)

/-- The decoder writes nothing behind an argument in which there is a `.`. -/
theorem exists_decoderMemory {p : CString} (hp : 0 ∉ p) (c : Byte) (rest : List Byte) :
    ∃ mem, decoderMemory (p ++ 0x2e :: c :: rest) = some mem := by
  obtain ⟨mem, hmem⟩ := exists_getNextChar p c rest
  have hlen := length_getNextChar hmem
  have hpath : (pathAt mem).length ≤ p.length := by
    rw [pathAt_getNextChar hmem, cutAtDot_append hp]
    exact (List.takeWhile_prefix _).length_le
  have hsuffix : ((pathAt decoderSuffix).take 1).length = 1 := by decide
  rw [List.length_append, List.length_cons, List.length_cons] at hlen
  rw [decoderMemory, hmem, Option.bind_some]
  refine ⟨_, if_pos ?_⟩
  rw [hsuffix]
  omega

/-! ### The programs -/

section Programs

variable (prog opt : CString) (x : List Byte) (old : Option (List Byte)) {mem mem' : List Byte}

/-- The file that a run writes is the one at the path in memory. -/
theorem outfile_encode (h : encoderMemory mem = some mem') :
    ((Checksum.main [prog, mem] ⟨some x, some old⟩).outfile.map Prod.fst) =
      some (pathAt mem') := by
  rw [pathAt_encoderMemory h]
  rfl

theorem cutAtDot_takeWhile : (Checksum.cutAtDot mem).takeWhile (· ≠ 0) = Checksum.cutAtDot mem := by
  rw [List.takeWhile_eq_self_iff]
  intro b hb
  have hkept := List.mem_takeWhile_imp hb
  simp only [decide_eq_true_iff] at hkept ⊢
  exact hkept.2

theorem outfile_decode (h : decoderMemory mem = some mem') :
    ((Checksum.main [prog, opt, mem] ⟨some x, some old⟩).outfile.map Prod.fst) =
      some (pathAt mem') := by
  have hname : Checksum.strncat (Checksum.cutAtDot mem) (text ['2']) =
      Checksum.cutAtDot mem ++ text ['2'] := by
    rw [Checksum.strncat, cutAtDot_takeWhile]
  rw [pathAt_decoderMemory h, ← hname]
  rfl

end Programs

/-! ### Beside the original -/

/-- The argument `p` of the encoder, with `rest` behind it, leads to the path of
`p.out`; the argument `p.out` of the decoder, with `rest'` behind it, to `p2`. -/
def Beside (p : CString) (rest rest' : List Byte) : Prop :=
  (encoderMemory (p ++ 0 :: rest)).map pathAt = some (p ++ text ['.', 'o', 'u', 't']) ∧
    (decoderMemory (p ++ text ['.', 'o', 'u', 't'] ++ 0 :: rest')).map pathAt =
      some (p ++ text ['2'])

theorem takeWhile_append_iff {p : CString} (suffix : CString) :
    p.takeWhile (· ≠ 0x2e) ++ suffix = p ++ suffix ↔ 0x2e ∉ p := by
  rw [List.append_left_inj, List.takeWhile_eq_self_iff]
  constructor
  · intro hall hdot
    simpa using hall 0x2e hdot
  · intro hdot b hb
    rw [decide_eq_true_iff]
    rintro rfl
    exact hdot hb

/-- Where the decoder puts the copy. -/
theorem decoderMemory_out {p : CString} (hp : 0 ∉ p) (rest' : List Byte) :
    (decoderMemory (p ++ text ['.', 'o', 'u', 't'] ++ 0 :: rest')).map pathAt =
      some (p.takeWhile (· ≠ 0x2e) ++ text ['2']) := by
  have hout : p ++ text ['.', 'o', 'u', 't'] ++ 0 :: rest' =
      p ++ 0x2e :: 0x6f :: (text ['u', 't'] ++ 0 :: rest') := by
    rw [List.append_assoc]
    rfl
  rw [hout]
  obtain ⟨mem, hmem⟩ := exists_decoderMemory hp 0x6f (text ['u', 't'] ++ 0 :: rest')
  rw [hmem, Option.map_some, pathAt_decoderMemory hmem, cutAtDot_append hp]

/-- **When the decoded copy is beside the original**: when the path has no `.`. -/
theorem beside_iff {p : CString} (hp : 0 ∉ p) {rest : List Byte} (hrest : 4 ≤ rest.length)
    (rest' : List Byte) : Beside p rest rest' ↔ 0x2e ∉ p := by
  obtain ⟨mem, hmem⟩ := exists_encoderMemory hp hrest
  have hout : (encoderMemory (p ++ 0 :: rest)).map pathAt = some (p ++ text ['.', 'o', 'u', 't']) := by
    rw [hmem, Option.map_some, pathAt_encoderMemory hmem, pathAt_append hp]
  rw [Beside, decoderMemory_out hp, Option.some_inj, takeWhile_append_iff]
  exact and_iff_right hout

/-- The path of the test run, `file`. -/
theorem beside_file :
    Beside (text ['f', 'i', 'l', 'e']) [0, 0, 0, 0] [] ↔ 0x2e ∉ text ['f', 'i', 'l', 'e'] :=
  beside_iff (by decide) (by decide) []

/-- The path `a.txt`: its copy is `a2`. -/
theorem dotted_path_cut :
    ¬ ∀ p : CString, 0 ∉ p → ∀ rest : List Byte, 4 ≤ rest.length → ∀ rest', Beside p rest rest' := by
  intro h
  have hcopy := (h (text ['a', '.', 't', 'x', 't']) (by decide) [0, 0, 0, 0] (by decide) []).2
  rw [decoderMemory_out (by decide), Option.some_inj, takeWhile_append_iff] at hcopy
  exact hcopy (by decide)

end ChecksumNames
