import BlockSync.Failure

/-!
# Readers

A reader is given by what it will deliver: pieces of data and faults, in order. A read takes from
the first piece only, so the pieces are the ways in which a stream can be split into reads. A read
that delivers nothing is the sign that the data has ended.

* `Reader.read`: one read;
* `Reader.gather`: reads until a request is filled, the data ends or a read fails; an interrupted
  read is simply made again;
* `Reader.content`, `Reader.available`: the bytes that are still to come, and their number;
* `gatherFrom_succ`: gathering is made of reads;
* `content_gather`: gathering loses and reorders nothing.
-/

namespace BlockSync

/-- What one read meets. -/
inductive Piece where
  | data (bytes : Bytes)
  | fault (fault : Fault)
deriving DecidableEq, Repr

/-- The bytes of a piece. -/
def Piece.content : Piece → Bytes
  | .data bs => bs
  | .fault _ => []

/-- What is still to be read. -/
structure Reader where
  pieces : List Piece
deriving DecidableEq, Repr

/-- Why reading for a request stopped. -/
inductive Stop where
  /-- The request is filled. -/
  | full
  /-- A read delivered nothing. -/
  | ended
  | fault (fault : Fault)
deriving DecidableEq, Repr

namespace Reader

/-- The data is at hand in one piece. -/
def ofBytes (bs : Bytes) : Reader := ⟨[.data bs]⟩

/-- The bytes that are still to come. -/
def content (r : Reader) : Bytes := r.pieces.flatMap Piece.content

/-- How many bytes are still to come. -/
def available (r : Reader) : Nat := r.content.length

/-- One read of at most `count` bytes. -/
def read (count : Nat) : List Piece → Except Fault Bytes × List Piece
  | [] => (.ok [], [])
  | .fault f :: rest => (.error f, rest)
  | .data bs :: rest =>
    (.ok (bs.take count), if count < bs.length then .data (bs.drop count) :: rest else rest)

/-- Reads until `count` bytes are there, the data ends or a read fails, piece by piece. -/
def gatherFrom : Nat → List Piece → Bytes × Stop × List Piece
  | 0, pieces => ([], .full, pieces)
  | _ + 1, [] => ([], .ended, [])
  | count + 1, .fault f :: rest =>
    if f.kind = .interrupted then gatherFrom (count + 1) rest else ([], .fault f, rest)
  | _ + 1, .data [] :: rest => ([], .ended, rest)
  | count + 1, .data (b :: bs) :: rest =>
    match bs.drop count with
    | [] =>
      let (more, stop, rest) := gatherFrom (count - bs.length) rest
      ((b :: bs) ++ more, stop, rest)
    | left => (b :: bs.take count, .full, .data left :: rest)
termination_by structural _ pieces => pieces

/-- Reads until `count` bytes are there, the data ends or a read fails. -/
def gather (r : Reader) (count : Nat) : Bytes × Stop × Reader :=
  let (bs, stop, rest) := gatherFrom count r.pieces
  (bs, stop, ⟨rest⟩)

/-- A request is filled read by read. -/
theorem gatherFrom_succ (count : Nat) (pieces : List Piece) :
    gatherFrom (count + 1) pieces =
      match read (count + 1) pieces with
      | (.error f, rest) =>
        if f.kind = .interrupted then gatherFrom (count + 1) rest else ([], .fault f, rest)
      | (.ok [], rest) => ([], .ended, rest)
      | (.ok bs, rest) =>
        let (more, stop, rest) := gatherFrom (count + 1 - bs.length) rest
        (bs ++ more, stop, rest) := by
  rcases pieces with _ | ⟨⟨_ | ⟨b, bs⟩⟩ | f, rest⟩
  · rfl
  · rfl
  · rcases h : bs.drop count with _ | ⟨c, cs⟩
    · have hl := List.drop_eq_nil_iff.mp h
      simp [gatherFrom, read, h, List.take_of_length_le hl, Nat.not_lt.mpr hl]
    · have hl : count < bs.length := by
        rcases Nat.lt_or_ge count bs.length with hl | hl
        · exact hl
        · simp [List.drop_eq_nil_of_le hl] at h
      have hm : min count bs.length = count := by omega
      simp [gatherFrom, read, h, hl, hm]
  · rfl

theorem content_gatherFrom (count : Nat) (pieces : List Piece) :
    (gatherFrom count pieces).1 ++ (⟨(gatherFrom count pieces).2.2⟩ : Reader).content =
      (⟨pieces⟩ : Reader).content := by
  induction pieces generalizing count with
  | nil => cases count <;> simp [gatherFrom, content]
  | cons p pieces ih =>
    cases count with
    | zero => simp [gatherFrom]
    | succ count =>
      cases p with
      | fault f =>
        simp only [gatherFrom]
        split
        · rw [ih]; simp [content, Piece.content]
        · simp [content, Piece.content]
      | data bs =>
        cases bs with
        | nil => simp [gatherFrom, content, Piece.content]
        | cons b bs =>
          simp only [gatherFrom]
          split
          · have := ih (count - bs.length)
            simp only [content] at this
            simp [content, Piece.content, this]
          · simp [content, Piece.content, ← List.append_assoc]

theorem content_gather {r r' : Reader} {count : Nat} {bs : Bytes} {stop : Stop}
    (h : r.gather count = (bs, stop, r')) : bs ++ r'.content = r.content := by
  have := content_gatherFrom count r.pieces
  simp only [gather, Prod.mk.injEq] at h
  rw [← h.1, ← h.2.2]; exact this

theorem available_gather {r r' : Reader} {count : Nat} {bs : Bytes} {stop : Stop}
    (h : r.gather count = (bs, stop, r')) : bs.length + r'.available = r.available := by
  rw [available, available, ← List.length_append, content_gather h]

end Reader

end BlockSync
