import BlockSync.Bytes

/-!
# The compression function

BLAKE3 mixes eight chaining words with a block of sixteen message words. The sixteen words of the
mixing state form a square: a round mixes its four columns at once and then its four diagonals,
which become columns when the rows are turned.

* `Row`, `Square.mix`: four words side by side, and the mixing of four columns;
* `Square.round`: one round of columns and diagonals;
* `compress`: seven rounds under a permuted message, and the feed forward.
-/

namespace BlockSync.Blake3

/-- Four words side by side. -/
structure Row where
  (x y z w : UInt32)
deriving DecidableEq, Repr, Inhabited

namespace Row

/-- Combine two rows word by word. -/
@[inline] def zip (f : UInt32 → UInt32 → UInt32) (r s : Row) : Row :=
  ⟨f r.x s.x, f r.y s.y, f r.z s.z, f r.w s.w⟩

/-- Turn a word to the right. -/
@[inline] def turnRight (count : UInt32) (n : UInt32) : UInt32 :=
  (n >>> count) ||| (n <<< (32 - count))

/-- The sum, word by word. -/
@[inline] def add (r s : Row) : Row := zip (· + ·) r s

/-- The exclusive or, word by word, turned to the right. -/
@[inline] def xorTurn (count : UInt32) (r s : Row) : Row :=
  zip (fun a b => turnRight count (a ^^^ b)) r s

/-- The exclusive or, word by word. -/
@[inline] def xor (r s : Row) : Row := zip (· ^^^ ·) r s

/-- The words move one place to the left. -/
@[inline] def left1 (r : Row) : Row := ⟨r.y, r.z, r.w, r.x⟩

/-- The words move two places to the left. -/
@[inline] def left2 (r : Row) : Row := ⟨r.z, r.w, r.x, r.y⟩

/-- The words move three places to the left. -/
@[inline] def left3 (r : Row) : Row := ⟨r.w, r.x, r.y, r.z⟩

/-- The words in order. -/
def toList (r : Row) : List UInt32 := [r.x, r.y, r.z, r.w]

end Row

/-- Eight chaining words. -/
structure Chaining where
  (upper lower : Row)
deriving DecidableEq, Repr, Inhabited

/-- The eight words that an unkeyed hash starts from. -/
def startingWords : Chaining :=
  ⟨⟨0x6A09E667, 0xBB67AE85, 0x3C6EF372, 0xA54FF53A⟩,
    ⟨0x510E527F, 0x9B05688C, 0x1F83D9AB, 0x5BE0CD19⟩⟩

/-- The sixteen words of a message block. -/
structure Message where
  (a b c d : Row)
deriving DecidableEq, Repr, Inhabited

/-- The order in which the next round takes the message words. -/
@[inline] def Message.permute (m : Message) : Message :=
  ⟨⟨m.a.z, m.b.z, m.a.w, m.c.z⟩, ⟨m.b.w, m.a.x, m.b.x, m.d.y⟩,
   ⟨m.a.y, m.c.w, m.d.x, m.b.y⟩, ⟨m.c.y, m.d.z, m.d.w, m.c.x⟩⟩

/-- The sixteen words of the mixing state. -/
structure Square where
  (a b c d : Row)
deriving DecidableEq, Repr, Inhabited

namespace Square

/-- Mix the four columns, each with two message words. -/
@[inline] def mix (s : Square) (first second : Row) : Square :=
  let a := (s.a.add s.b).add first
  let d := Row.xorTurn 16 s.d a
  let c := s.c.add d
  let b := Row.xorTurn 12 s.b c
  let a := (a.add b).add second
  let d := Row.xorTurn 8 d a
  let c := c.add d
  ⟨a, Row.xorTurn 7 b c, c, d⟩

/-- One round: the columns take the first half of the message and the diagonals the second. -/
@[inline] def round (s : Square) (m : Message) : Square :=
  let s := s.mix ⟨m.a.x, m.a.z, m.b.x, m.b.z⟩ ⟨m.a.y, m.a.w, m.b.y, m.b.w⟩
  let s : Square := ⟨s.a, s.b.left1, s.c.left2, s.d.left3⟩
  let s := s.mix ⟨m.c.x, m.c.z, m.d.x, m.d.z⟩ ⟨m.c.y, m.c.w, m.d.y, m.d.w⟩
  ⟨s.a, s.b.left3, s.c.left2, s.d.left1⟩

/-- As many rounds as asked for, the message permuted between them. -/
def rounds : Nat → Square → Message → Square
  | 0, s, _ => s
  | n + 1, s, m => rounds n (s.round m) m.permute

end Square

/-- The square after the rounds: chaining words, constants, block counter, length and flags. -/
def compress (h : Chaining) (m : Message) (counter : UInt64) (length flags : UInt32) : Square :=
  Square.rounds 7
    ⟨h.upper, h.lower, startingWords.upper,
      ⟨counter.toUInt32, (counter >>> 32).toUInt32, length, flags⟩⟩ m

/-- The chaining words that a compression passes on. -/
def Square.chaining (s : Square) : Chaining := ⟨s.a.xor s.c, s.b.xor s.d⟩

/-- A word in four bytes, least significant first. -/
def wordBytes (n : UInt32) : Bytes := LittleEndian.encode 4 n.toNat

/-- Chaining words as bytes. -/
def Chaining.bytes (h : Chaining) : Bytes := (h.upper.toList ++ h.lower.toList).flatMap wordBytes

end BlockSync.Blake3
