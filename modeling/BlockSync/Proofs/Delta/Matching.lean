import BlockSync.Delta.Encoder
import BlockSync.Proofs.Signature.Index

/-!
# Matching a whole file

The delta of a file that is at hand, without a window, a buffer or a queue. It is what an encoder has
to put out, however it gets to see the file.

* `Advance`, `Signature.advances`: the greedy way along a file, block by block where a block of the
  basis agrees and byte by byte elsewhere;
* `gather`: bytes that follow each other are inserted together, up to the limit;
* `join`: copies that continue each other are made one, unless its length cannot be written;
* `Signature.instructions`, `Signature.delta`: the delta of a file, and its bytes on the wire;
* `twoBlocks`, `mixedFile`: a signature, and a file along which all of this occurs.
-/

namespace BlockSync

/-! ## The way along a file -/

/-- A part of a new file. -/
inductive Advance where
  /-- A block of the basis. -/
  | block (offset : UInt64) (length : UInt32)
  /-- A byte at which no block agrees. -/
  | byte (b : UInt8)
  /-- What is left at the end, is shorter than a block and agrees with none. -/
  | tail (bytes : Bytes)
deriving DecidableEq

namespace Signature

variable (s : Signature)

/-- The block length as a number. -/
def blockLength : Nat := s.params.blockLength.toNat

/-- `length` bytes that agree with the block `b`. -/
def copied (b : BlockSum) (length : Nat) : Advance :=
  .block (UInt64.ofNat (b.index.toNat * s.blockLength)) (UInt32.ofNat length)

/-- The way along what is left at the end. -/
def lastAdvance (bs : Bytes) : List Advance :=
  if bs = [] then []
  else match s.find? bs with
    | some b => [s.copied b bs.length]
    | none => [.tail bs]

/-- The way along a file: over a whole block where the next bytes agree with one, over a byte where
they do not. -/
def advances : Bytes → List Advance
  | [] => []
  | b :: bs =>
    if 0 < s.blockLength ∧ s.blockLength ≤ bs.length + 1 then
      match s.find? ((b :: bs).take s.blockLength) with
      | some block => s.copied block s.blockLength :: advances (bs.drop (s.blockLength - 1))
      | none => .byte b :: advances bs
    else s.lastAdvance (b :: bs)
termination_by bs => bs.length
decreasing_by all_goals simp only [List.length_drop, List.length_cons]; omega

end Signature

/-! ## Instructions -/

/-- Insert bytes, if there are any. -/
def insertion (bs : Bytes) : List Instruction := if bs = [] then [] else [.insert bs]

/-- The instructions for the way along a file, behind a run of bytes that are still to be inserted. A
run that has become long is inserted, but what is left at the end joins it whatever its length. -/
def gather (run : Bytes) : List Advance → List Instruction
  | [] => insertion run
  | .block offset length :: way => insertion run ++ .copy offset length :: gather [] way
  | .byte b :: way =>
    if insertLimit ≤ run.length + 1 then .insert (run ++ [b]) :: gather [] way
    else gather (run ++ [b]) way
  | .tail bs :: way => gather (run ++ bs) way

/-- Copies that continue each other are made one, unless its length cannot be written. -/
def join : List Instruction → List Instruction
  | .copy offset length :: .copy offset' length' :: rest =>
    if offset.toNat + length.toNat = offset'.toNat ∧
        length.toNat + length'.toNat < UInt32.size then
      join (.copy offset (length + length') :: rest)
    else .copy offset length :: join (.copy offset' length' :: rest)
  | i :: rest => i :: join rest
  | [] => []
termination_by is => is.length

/-- The instructions of a delta but for its closing. -/
def Signature.body (s : Signature) (file : Bytes) : List Instruction :=
  join (gather [] (s.advances file))

/-- The delta of a file. -/
def Signature.instructions (s : Signature) (file : Bytes) : List Instruction :=
  s.body file ++ [.close (Blake3.hash file)]

/-- The delta of a file on the wire. -/
def Signature.delta (s : Signature) (file : Bytes) : Bytes :=
  deltaMark ++ (s.instructions file).flatMap Instruction.encode

/-! ## Equations -/

namespace Signature

variable {s : Signature}

theorem advances_of_some {block : BlockSum} {bs : Bytes} (hp : 0 < s.blockLength)
    (hl : s.blockLength ≤ bs.length) (hf : s.find? (bs.take s.blockLength) = some block) :
    s.advances bs = s.copied block s.blockLength :: s.advances (bs.drop s.blockLength) := by
  cases bs with
  | nil => simp only [List.length_nil] at hl; omega
  | cons b bs =>
    obtain ⟨n, hn⟩ : ∃ n, s.blockLength = n + 1 := ⟨s.blockLength - 1, by omega⟩
    rw [advances, if_pos ⟨hp, hl⟩, hf, hn]
    rfl

theorem advances_of_none {b : UInt8} {bs : Bytes} (hp : 0 < s.blockLength)
    (hl : s.blockLength ≤ bs.length + 1) (hf : s.find? ((b :: bs).take s.blockLength) = none) :
    s.advances (b :: bs) = .byte b :: s.advances bs := by
  rw [advances, if_pos ⟨hp, hl⟩, hf]

theorem advances_of_lt {bs : Bytes} (hl : bs.length < s.blockLength) :
    s.advances bs = s.lastAdvance bs := by
  cases bs with
  | nil => simp [advances, lastAdvance]
  | cons b bs =>
    simp only [List.length_cons] at hl
    rw [advances, if_neg (by omega)]

end Signature

theorem join_insert (bs : Bytes) (is : List Instruction) :
    join (.insert bs :: is) = .insert bs :: join is := by
  rw [join.eq_def]

theorem join_copy_insert (offset : UInt64) (length : UInt32) (bs : Bytes) (is : List Instruction) :
    join (.copy offset length :: .insert bs :: is) =
      .copy offset length :: .insert bs :: join is := by
  rw [join.eq_def]; simp only [join_insert]

theorem join_copy_copy (c d : PendingCopy) (is : List Instruction) :
    join (.copy c.offset c.length :: .copy d.offset d.length :: is) =
      match c.merge? d with
      | some m => join (.copy m.offset m.length :: is)
      | none => .copy c.offset c.length :: join (.copy d.offset d.length :: is) := by
  rw [join.eq_def]
  dsimp only [PendingCopy.merge?]
  split <;> rfl

theorem join_copy_nil (offset : UInt64) (length : UInt32) :
    join [.copy offset length] = [.copy offset length] := by
  rw [join.eq_def]; simp only [join]

/-! ## A small file -/

/-- The signature of a block of ones and a block of twos. -/
def twoBlocks : Signature :=
  ⟨⟨64, 4⟩, #[.ofBytes 0 (List.replicate 64 1) 4, .ofBytes 1 (List.replicate 64 2) 4]⟩

/-- A block, a byte that is in none, both blocks, and a rest that is none. -/
def mixedFile : Bytes :=
  List.replicate 64 1 ++ 9 :: (List.replicate 64 1 ++ (List.replicate 64 2 ++ [7, 7, 7]))

/-- Where the blocks follow each other they are copied at once. -/
theorem body_mixedFile :
    twoBlocks.body mixedFile = [.copy 0 64, .insert [9], .copy 0 128, .insert [7, 7, 7]] := by
  decide +kernel

end BlockSync
