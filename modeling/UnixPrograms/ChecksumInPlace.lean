/-
The program `170d/assembly-inclass/checksum.s`.

It works on the file itself: `-e` puts the sum of the 16-bit words behind the file, and
`-d` cuts it off, sums up the rest and puts it back where the sums differ.  The words
are read into two bytes of the stack that nothing clears, so the last byte of a file of
odd length comes with the byte that was there before:

* `doChecksum_eq` — the loop, over any file;
* `decode_eq` — what `-d` leaves of a file of at least two bytes;
* `round_trip_iff` — when a file comes back from `-e` and `-d`;
* `unchanged_iff` — when a file that is said not to have been changed was not;
* `set_accepted_iff` — which single wrong byte goes unnoticed.
-/
import Mathlib.Data.BitVec
import UnixPrograms.OpenFile

namespace ChecksumInPlace

open Bytes Files

def usage : String := "Usage: checksum <-d|-e> <file>\n"

def argInvalid : String := "Argument is invalid, use either -d for decode or -e for encode.\n"

def checksumAddedMsg : String :=
  "Checksum has been added to your file, rerun program with '-d' option to check remove it.\n"

def checksumGoodMsg : String := "Checksum is good, your file is now ready to use.\n"

def checksumBadMsg : String := "Checksum is bad, your file has not been changed.\n"

def fileInvalid : String := "Unable to open <file>.\n"

/-! ### The code -/

/-- What the frame holds before anything is written there. -/
structure Frame where
  checksum : BitVec 16
  buffer : BitVec 16
  errorCode : BitVec 64

/-- What a run leaves: what it printed, its exit status, and the file if it was opened. -/
structure Outcome where
  stdout : String
  status : BitVec 64
  file : Option (List Byte)
deriving DecidableEq

/-- The upper byte of a word in memory. -/
def high (x : BitVec 16) : Byte := x.extractLsb' 8 8

/-- A word in memory, after a `read` put these bytes there. -/
def readInto (x : BitVec 16) : List Byte → BitVec 16
  | [] => x
  | [b] => word (high x) b
  | b :: c :: _ => word c b

/-- A read that delivers something leaves less of the file. -/
theorem length_rest_read (f : OpenFile) (h : (f.read 2).1 ≠ []) :
    (f.read 2).2.rest.length < f.rest.length := by
  have hpos : 0 < ((f.rest).take 2).length := List.length_pos_iff.mpr h
  rw [OpenFile.read, OpenFile.rest, OpenFile.rest, List.length_drop, List.length_drop]
  rw [OpenFile.rest, List.length_take, List.length_drop] at hpos
  simp only [List.length_take, List.length_drop]
  omega

/-- `DOCHECKSUM`. -/
def doChecksum (f : OpenFile) (buffer r12w : BitVec 16) : OpenFile × BitVec 16 :=
  if (f.read 2).1 = [] then (f, r12w)
  else
    let buffer := readInto buffer (f.read 2).1
    doChecksum (f.read 2).2 buffer (r12w + buffer)
termination_by f.rest.length
decreasing_by exact length_rest_read f ‹_›

/-- `-e`. -/
def encode (frame : Frame) (content : List Byte) : Outcome :=
  let (f, r12w) := doChecksum ⟨content, 0⟩ frame.buffer 0
  let f := f.write (storeWord r12w)
  ⟨checksumAddedMsg, frame.errorCode, some f.content⟩

/-- `-d`. -/
def decode (frame : Frame) (content : List Byte) : Outcome :=
  let (fileSize, f) := OpenFile.lseekEnd ⟨content, 0⟩ (-2)
  let (bytes, f) := f.read 2
  let checksum := readInto frame.checksum bytes
  let f := f.lseekSet 0
  let f := f.ftruncate fileSize
  let (f, r12w) := doChecksum f frame.buffer 0
  if r12w = checksum then ⟨checksumGoodMsg, 0, some f.content⟩
  else
    let f := f.write (storeWord checksum)
    ⟨checksumBadMsg, frame.errorCode, some f.content⟩

/-- The program; `infile` is what `open` finds. -/
def main (frame : Frame) (argv : List CString) (infile : Option (List Byte)) : Outcome :=
  match argv with
  | [_, switch, _] =>
    let switch := switch.takeWhile (· ≠ 0)
    if switch = text ['-', 'd'] then
      match infile with
      | none => ⟨fileInvalid, 2, none⟩
      | some content => decode frame content
    else if switch = text ['-', 'e'] then
      match infile with
      | none => ⟨fileInvalid, 2, none⟩
      | some content => encode frame content
    else ⟨argInvalid, 2, infile⟩
  | _ => ⟨usage, 255, infile⟩

/-! ### The loop -/

/-- The sum of the words of a file, when the byte `h` is in the upper half of the buffer. -/
def sum (h : Byte) : List Byte → BitVec 16
  | [] => 0
  | [b] => word h b
  | b :: c :: s => word c b + sum c s

theorem high_word (h l : Byte) : high (word h l) = h := by
  rw [high, word]
  exact BitVec.extractLsb'_append_eq_left

/-- **The loop** reads to the end of the file, and adds up the words. -/
theorem doChecksum_eq (s p : List Byte) (buffer r12w : BitVec 16) :
    doChecksum ⟨p ++ s, p.length⟩ buffer r12w =
      (⟨p ++ s, (p ++ s).length⟩, r12w + sum (high buffer) s) := by
  have hrest : OpenFile.rest ⟨p ++ s, p.length⟩ = s := List.drop_left
  match s with
  | [] =>
    rw [doChecksum, if_pos (by rw [OpenFile.read, hrest]; rfl), sum, add_zero,
      List.append_nil]
  | [b] =>
    have hread : OpenFile.read ⟨p ++ [b], p.length⟩ 2 = ([b], ⟨p ++ [b], (p ++ [b]).length⟩) := by
      rw [OpenFile.read, hrest, List.length_append]
      rfl
    have hnext := doChecksum_eq [] (p ++ [b]) (readInto buffer [b]) (r12w + readInto buffer [b])
    rw [List.append_nil, sum, add_zero] at hnext
    rw [doChecksum, hread, if_neg (List.cons_ne_nil _ _)]
    exact hnext
  | b :: c :: s =>
    have hread : OpenFile.read ⟨p ++ b :: c :: s, p.length⟩ 2
        = ([b, c], ⟨p ++ b :: c :: s, (p ++ [b, c]).length⟩) := by
      rw [OpenFile.read, hrest, List.length_append]
      rfl
    have hsplit : p ++ b :: c :: s = p ++ [b, c] ++ s := (List.append_assoc p [b, c] s).symm
    have hnext := doChecksum_eq s (p ++ [b, c]) (word c b) (r12w + word c b)
    rw [doChecksum, hread, if_neg (List.cons_ne_nil _ _)]
    dsimp only [readInto]
    rw [hsplit, hnext, high_word, sum, BitVec.add_assoc]
termination_by s.length

/-- The loop, from the beginning of a file. -/
theorem doChecksum_start (content : List Byte) (buffer : BitVec 16) :
    doChecksum ⟨content, 0⟩ buffer 0 =
      (⟨content, content.length⟩, sum (high buffer) content) := by
  have hloop := doChecksum_eq content [] buffer 0
  rwa [List.nil_append, zero_add] at hloop

/-! ### The two switches -/

theorem readInto_storeWord (x c : BitVec 16) : readInto x (storeWord c) = c := by
  obtain ⟨h, l, rfl⟩ := exists_word c
  rw [storeWord_word]
  rfl

/-- What `-e` makes of a file. -/
def encoded (frame : Frame) (content : List Byte) : List Byte :=
  content ++ storeWord (sum (high frame.buffer) content)

theorem encode_eq (frame : Frame) (content : List Byte) :
    encode frame content = ⟨checksumAddedMsg, frame.errorCode, some (encoded frame content)⟩ := by
  rw [encode, doChecksum_start]
  dsimp only
  rw [OpenFile.write_append, encoded]

/-- **A file with two bytes to cut off.** -/
theorem decode_eq (frame : Frame) (p : List Byte) (c : BitVec 16) :
    decode frame (p ++ storeWord c) =
      if sum (high frame.buffer) p = c then ⟨checksumGoodMsg, 0, some p⟩
      else ⟨checksumBadMsg, frame.errorCode, some (p ++ storeWord c)⟩ := by
  have hseek : OpenFile.lseekEnd ⟨p ++ storeWord c, 0⟩ (-2)
      = ((p.length : ℤ), ⟨p ++ storeWord c, p.length⟩) :=
    OpenFile.lseekEnd_append p (storeWord c) 0
  have hread : OpenFile.read ⟨p ++ storeWord c, p.length⟩ 2
      = (storeWord c, ⟨p ++ storeWord c, p.length + 2⟩) := by
    rw [OpenFile.read, OpenFile.rest]
    dsimp only
    rw [List.drop_left]
    rfl
  rw [decode, hseek]
  dsimp only
  rw [hread]
  dsimp only
  rw [readInto_storeWord, OpenFile.lseekSet, OpenFile.ftruncate_append, doChecksum_start]
  dsimp only
  rw [OpenFile.write_append]

/-- A file with less than two bytes is not cut. -/
theorem decode_short (frame : Frame) {content : List Byte} (h : content.length < 2) :
    decode frame content =
      if sum (high frame.buffer) content = readInto frame.checksum content then
        ⟨checksumGoodMsg, 0, some content⟩
      else ⟨checksumBadMsg, frame.errorCode,
        some (content ++ storeWord (readInto frame.checksum content))⟩ := by
  have hseek : OpenFile.lseekEnd ⟨content, 0⟩ (-2) = (-22, ⟨content, 0⟩) := by
    rw [OpenFile.lseekEnd, if_pos]
    dsimp only
    omega
  have hread : (OpenFile.read ⟨content, 0⟩ 2).1 = content := List.take_of_length_le h.le
  rw [decode, hseek]
  dsimp only
  have hkept : OpenFile.ftruncate ⟨content, 0⟩ (-22) = ⟨content, 0⟩ := if_pos (by decide)
  rw [hread, OpenFile.lseekSet, OpenFile.content_read, hkept, doChecksum_start]
  dsimp only
  rw [OpenFile.write_append]

theorem exists_storeWord {content : List Byte} (h : 2 ≤ content.length) :
    ∃ p c, content = p ++ storeWord c := by
  have htwo : (content.drop (content.length - 2)).length = 2 := by
    rw [List.length_drop]
    omega
  obtain ⟨l, h', hlast⟩ := List.length_eq_two.mp htwo
  refine ⟨content.take (content.length - 2), word h' l, ?_⟩
  rw [storeWord_word, ← hlast, List.take_append_drop]

theorem main_decode (frame : Frame) (prog name : CString) (content : List Byte) :
    main frame [prog, text ['-', 'd'], name] (some content) = decode frame content := by
  rw [main]
  exact if_pos (by decide)

theorem main_encode (frame : Frame) (prog name : CString) (content : List Byte) :
    main frame [prog, text ['-', 'e'], name] (some content) = encode frame content := by
  rw [main]
  exact (if_neg (by decide)).trans (if_pos (by decide))

theorem good_ne_bad : checksumGoodMsg ≠ checksumBadMsg := by decide

/-! ### There and back -/

/-- Only the file of one byte has a sum that depends on the frame. -/
theorem sum_eq_iff (h h' : Byte) (content : List Byte) :
    sum h content = sum h' content ↔ content.length ≠ 1 ∨ h = h' := by
  match content with
  | [] => exact iff_of_true rfl (Or.inl (by decide))
  | [b] =>
    rw [sum, sum, word_inj, and_iff_left rfl]
    exact (or_iff_right fun hlen => hlen rfl).symm
  | b :: c :: s => exact iff_of_true rfl (Or.inl (by simp))

/-- **There and back**: a file that gets its sum behind it comes back, with the message
that it is good, except for the file of one byte, where both runs have to find the same
byte on the stack. -/
theorem round_trip_iff (frame frame' : Frame) (prog prog' name name' : CString)
    (content : List Byte) :
    main frame [prog, text ['-', 'e'], name] (some content) =
        ⟨checksumAddedMsg, frame.errorCode, some (encoded frame content)⟩ ∧
      (main frame' [prog', text ['-', 'd'], name'] (some (encoded frame content)) =
          ⟨checksumGoodMsg, 0, some content⟩ ↔
        content.length ≠ 1 ∨ high frame.buffer = high frame'.buffer) := by
  refine ⟨by rw [main_encode, encode_eq], ?_⟩
  rw [main_decode, encoded, decode_eq, eq_comm (a := high frame.buffer), ← sum_eq_iff]
  split_ifs with h
  · exact iff_of_true rfl h
  · refine iff_of_false (fun heq => ?_) h
    exact absurd (congrArg Outcome.stdout heq).symm good_ne_bad

/-! ### The file that was not changed -/

/-- Only `-d` says that the checksum is bad. -/
theorem eq_decode_of_bad {frame : Frame} {argv : List CString} {infile : Option (List Byte)}
    (h : (main frame argv infile).stdout = checksumBadMsg) :
    ∃ content, infile = some content ∧ main frame argv infile = decode frame content := by
  have hother : usage ≠ checksumBadMsg ∧ argInvalid ≠ checksumBadMsg ∧
      fileInvalid ≠ checksumBadMsg ∧ checksumAddedMsg ≠ checksumBadMsg := by decide
  obtain ⟨husage, hswitch, hfile, hadded⟩ := hother
  rcases argv with _ | ⟨prog, _ | ⟨switch, _ | ⟨name, _ | ⟨_, _⟩⟩⟩⟩
  case cons.cons.cons.nil =>
    have hmain : main frame [prog, switch, name] infile =
        if switch.takeWhile (· ≠ 0) = text ['-', 'd'] then
          infile.elim ⟨fileInvalid, 2, none⟩ (decode frame)
        else if switch.takeWhile (· ≠ 0) = text ['-', 'e'] then
          infile.elim ⟨fileInvalid, 2, none⟩ (encode frame)
        else ⟨argInvalid, 2, infile⟩ := by
      cases infile <;> rfl
    rw [hmain] at h ⊢
    rcases infile with _ | content
    · split_ifs at h
      · exact absurd h hfile
      · exact absurd h hfile
      · exact absurd h hswitch
    · refine ⟨content, rfl, ?_⟩
      split_ifs at h ⊢
      · rfl
      · rw [Option.elim_some, encode_eq] at h
        exact absurd h hadded
      · exact absurd h hswitch
  all_goals exact absurd h husage

theorem file_of_bad {frame : Frame} {content : List Byte} (hlen : 2 ≤ content.length)
    (h : (decode frame content).stdout = checksumBadMsg) :
    (decode frame content).file = some content := by
  obtain ⟨p, c, rfl⟩ := exists_storeWord hlen
  rw [decode_eq] at h ⊢
  split_ifs at h ⊢
  · exact absurd h good_ne_bad
  · rfl

/-- A short file cannot be cut, and the word is written behind it. -/
theorem file_of_bad_short {frame : Frame} {content : List Byte} (hlen : content.length < 2)
    (h : (decode frame content).stdout = checksumBadMsg) :
    (decode frame content).file =
      some (content ++ storeWord (readInto frame.checksum content)) := by
  rw [decode_short frame hlen] at h ⊢
  split_ifs at h ⊢
  · exact absurd h good_ne_bad
  · rfl

/-- **"Your file has not been changed"**: it is not, if it had two bytes to cut off; if
it had not, two bytes are written behind it, the word on the stack with what the file
had to put in there. -/
theorem unchanged_iff (frame : Frame) (argv : List CString) (infile : Option (List Byte))
    (h : (main frame argv infile).stdout = checksumBadMsg) :
    ((main frame argv infile).file = infile ↔
        ∃ content, infile = some content ∧ 2 ≤ content.length) ∧
      ∀ content, infile = some content → content.length < 2 →
        (main frame argv infile).file =
          some (content ++ storeWord (readInto frame.checksum content)) := by
  obtain ⟨content, rfl, hmain⟩ := eq_decode_of_bad h
  rw [hmain] at h ⊢
  constructor
  · constructor
    · intro hsame
      refine ⟨content, rfl, ?_⟩
      by_contra hlen
      -- the file would have to be as long as itself with two bytes behind it
      have hgrown := (file_of_bad_short (not_le.mp hlen) h).symm.trans hsame
      have hlength := congrArg List.length (Option.some.inj hgrown)
      rw [List.length_append, storeWord, List.length_cons] at hlength
      omega
    · rintro ⟨content', hcontent, hlen⟩
      obtain rfl := Option.some.inj hcontent
      exact file_of_bad hlen h
  · intro content' hcontent hlen
    obtain rfl := Option.some.inj hcontent
    exact file_of_bad_short hlen h

/-- A file of one byte: that byte and the upper one of the word on the stack. -/
theorem unchanged_one :
    (main ⟨0x0200, 0, 0⟩ [[], text ['-', 'd'], []] (some [0x41])).file =
      some [0x41, 0x41, 0x02] := by
  have hbad : (main ⟨0x0200, 0, 0⟩ [[], text ['-', 'd'], []] (some [0x41])).stdout =
      checksumBadMsg := by
    rw [main_decode, decode_short _ (by decide)]
    decide
  exact (unchanged_iff ⟨0x0200, 0, 0⟩ [[], text ['-', 'd'], []] (some [0x41]) hbad).2
    [0x41] rfl (by decide)

/-! ### One wrong byte -/

/-- The upper bytes of two words in a row, when the second one has it from the first. -/
theorem word_add_stale {v c b d : Byte} (hv : c ≠ v) :
    word v b + word v d = word c b + word c d ↔ c = v + 128 := by
  have hne : c.toNat ≠ v.toNat := fun heq => hv (BitVec.eq_of_toNat_eq heq)
  have hv := v.isLt
  have hc := c.isLt
  have hd := d.isLt
  have hb := b.isLt
  rw [← BitVec.toNat_inj, ← BitVec.toNat_inj, BitVec.toNat_add, BitVec.toNat_add, BitVec.toNat_add,
    toNat_word, toNat_word, toNat_word, toNat_word, show (128 : Byte).toNat = 128 from rfl]
  omega

/-- A byte of the file that is changed without a change of the sum: the upper one of the
last whole word, by half of its range, in front of a single byte. -/
theorem sum_set_iff (v : Byte) : ∀ (h : Byte) (p : List Byte) (i : ℕ), i < p.length →
    p[i]? ≠ some v →
    (sum h (p.set i v) = sum h p ↔ Odd p.length ∧ i + 2 = p.length ∧ p[i]? = some (v + 128))
  | _, [], i, hi, _ => absurd hi (by simp)
  | h, [b], i, hi, hv => by
    obtain rfl : i = 0 := by simpa using hi
    refine iff_of_false (fun heq => hv ?_) fun hlen =>
      absurd (show 2 = 1 from hlen.2.1) (by decide)
    exact congrArg some (word_inj.mp heq).2.symm
  | h, b :: c :: s, 0, _, hv => by
    refine iff_of_false (fun heq => hv ?_) fun hlen => ?_
    · exact congrArg some (word_inj.mp ((BitVec.add_left_inj _).mp heq)).2.symm
    · obtain ⟨hodd, htwo, -⟩ := hlen
      rw [← htwo] at hodd
      exact absurd hodd (by decide)
  | h, [b, c], 1, _, hv => by
    refine iff_of_false (fun heq => hv ?_) fun hlen =>
      absurd (show 3 = 2 from hlen.2.1) (by decide)
    exact congrArg some (word_inj.mp ((BitVec.add_left_inj _).mp heq)).1.symm
  | h, [b, c, d], 1, _, hv => by
    have hcv : c ≠ v := fun heq => hv (congrArg some heq)
    refine (word_add_stale hcv).trans ?_
    have hthree : Odd 3 := by decide
    refine ⟨fun heq => ⟨hthree, rfl, congrArg some heq⟩, fun hlen => Option.some.inj hlen.2.2⟩
  | h, b :: c :: d :: e :: s, 1, _, hv => by
    refine iff_of_false (fun heq => hv ?_) fun hlen => ?_
    · -- the byte is in one word only
      exact congrArg some (word_inj.mp ((BitVec.add_left_inj _).mp heq)).1.symm
    · have htwo := hlen.2.1
      simp at htwo
  | h, b :: c :: s, i + 2, hi, hv => by
    have ih := sum_set_iff v c s i (by simpa using hi) (by simpa using hv)
    have hodd : Odd (s.length + 2) ↔ Odd s.length := by
      simp [Nat.odd_add_one]
    rw [List.set_cons_succ, List.set_cons_succ, sum, sum, BitVec.add_right_inj, ih,
      List.length_cons, List.length_cons, hodd]
    simp

theorem decode_good_iff (frame : Frame) (p : List Byte) (c : BitVec 16) :
    (decode frame (p ++ storeWord c)).stdout = checksumGoodMsg ↔
      sum (high frame.buffer) p = c := by
  rw [decode_eq]
  split_ifs with h
  · exact iff_of_true rfl h
  · exact iff_of_false good_ne_bad.symm h

/-- **One wrong byte** in an encoded file goes unnoticed exactly if the file has an odd
number of bytes, and its last byte but one is off by 128. -/
theorem set_accepted_iff (frame frame' : Frame) (prog name : CString) (content : List Byte)
    (i : ℕ) (v : Byte) (hlen : content.length ≠ 1) (hi : i < (encoded frame content).length)
    (hv : (encoded frame content)[i]? ≠ some v) :
    (main frame' [prog, text ['-', 'd'], name] (some ((encoded frame content).set i v))).stdout
        = checksumGoodMsg ↔
      Odd content.length ∧ i + 2 = content.length ∧ content[i]? = some (v + 128) := by
  rw [main_decode]
  rw [encoded] at hi hv ⊢
  by_cases hfront : i < content.length
  · -- the wrong byte is one of the content
    rw [List.getElem?_append_left hfront] at hv
    have hframe : sum (high frame'.buffer) (content.set i v)
        = sum (high frame.buffer) (content.set i v) :=
      (sum_eq_iff _ _ _).mpr (Or.inl (by rwa [List.length_set]))
    rw [List.set_append_left _ _ hfront, decode_good_iff, hframe]
    exact sum_set_iff v _ content i hfront hv
  · -- the wrong byte is one of the sum
    have hback : content.length ≤ i := not_lt.mp hfront
    have hframe : sum (high frame'.buffer) content = sum (high frame.buffer) content :=
      (sum_eq_iff _ _ _).mpr (Or.inl hlen)
    generalize sum (high frame.buffer) content = c at hi hv hframe ⊢
    obtain ⟨p, c', hset⟩ : ∃ p c', (storeWord c).set (i - content.length) v = p ++ storeWord c' :=
      exists_storeWord (by rw [List.length_set]; exact le_refl 2)
    obtain rfl : p = [] := by
      have htwo := congrArg List.length hset
      rw [List.length_set, List.length_append] at htwo
      exact List.length_eq_zero_iff.mp (Nat.right_eq_add.mp htwo)
    rw [List.set_append_right _ _ hback, hset, List.nil_append, decode_good_iff, hframe]
    refine iff_of_false (fun heq => hv ?_) (by omega)
    rw [List.getElem?_append_right hback]
    have hin : i - content.length < (storeWord c).length := by
      rw [List.length_append] at hi
      omega
    rw [← heq, List.nil_append] at hset
    rw [← hset, List.getElem?_set_self hin]

/-- Three bytes, the second of them wrong. -/
theorem set_accepted_three :
    (main ⟨0, 0, 0⟩ [[], text ['-', 'd'], []]
      (some ((encoded ⟨0, 0, 0⟩ [1, 2, 3]).set 1 130))).stdout = checksumGoodMsg :=
  (set_accepted_iff ⟨0, 0, 0⟩ ⟨0, 0, 0⟩ [] [] [1, 2, 3] 1 130 (by decide) (by decide)
    (by decide)).mpr (by decide)

end ChecksumInPlace
