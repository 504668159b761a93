import BlockSync.Queue

/-!
# Transducers

A transducer turns one stream into another step by step. A step takes bytes from the front of an
input queue and appends bytes at the back of an output queue; it neither waits nor reads nor writes.

* `Bench`: a transducer between its two queues;
* `Transducer`: what can be stepped;
* `Backlog`: output that waits for room, of which `pour_eq` says that nothing is lost or reordered;
* `Field`: a field of fixed length that may arrive in parts.
-/

namespace BlockSync

/-- What a transducer reports after a step. -/
inductive Status where
  /-- It needs more input, or room for output. -/
  | blocked
  /-- All output is made. -/
  | done
deriving DecidableEq, Repr

/-- A transducer between its two queues. -/
structure Bench (τ : Type) where
  state : τ
  input : Queue
  output : Queue

/-- What can be stepped. -/
class Transducer (τ : Type) where
  /-- One step; also one that fails leaves a state and queues behind. -/
  step : Bench τ → Except Failure Status × Bench τ

/-! ## Output that waits -/

/-- Output that waits for room. -/
structure Backlog where
  /-- The waiting output, and before it what has already been passed on. -/
  bytes : Array UInt8
  /-- How much has been passed on. -/
  sent : Nat
  sent_le : sent ≤ bytes.size

namespace Backlog

/-- Nothing waits. -/
def empty : Backlog := ⟨#[], 0, Nat.le_refl 0⟩

instance : Inhabited Backlog := ⟨empty⟩

/-- How much waits. -/
def length (b : Backlog) : Nat := b.bytes.size - b.sent

/-- Whether nothing waits. -/
def isEmpty (b : Backlog) : Bool := b.length == 0

/-- The waiting output. -/
def pending (b : Backlog) : Bytes := slice b.bytes b.sent b.length

/-- More output has to wait. -/
def append (b : Backlog) (bs : Bytes) : Backlog :=
  ⟨b.bytes ++ bs, b.sent, by have := b.sent_le; simp only [size_append_bytes]; omega⟩

/-- The first `count` bytes are passed on. -/
def drop (b : Backlog) (count : Nat) : Backlog :=
  if h : count < b.length then
    ⟨b.bytes, b.sent + count, by simp only [length] at h; omega⟩
  else empty

/-- Pass on as much as a queue has room for. -/
def pour (b : Backlog) (q : Queue) : Backlog × Queue :=
  let count := min b.length q.room
  (b.drop count, q.append (slice b.bytes b.sent count))

theorem pending_append (b : Backlog) (bs : Bytes) : (b.append bs).pending = b.pending ++ bs := by
  have hs := b.sent_le
  have hd : b.bytes.toList.length - b.sent ≤ b.bytes.size - b.sent := by simp
  simp only [pending, length, append, slice_eq, Array.toList_appendList]
  rw [List.drop_append_of_le_length (by simpa using hs), List.take_of_length_le (by simp; omega),
    List.take_of_length_le (by simp)]

theorem pending_drop (b : Backlog) (count : Nat) :
    (b.drop count).pending = b.pending.drop count := by
  simp only [pending, drop_slice]
  unfold drop; split
  · simp only [length, Nat.sub_sub]
  · rw [Nat.sub_eq_zero_of_le (by omega)]; simp [slice_eq, empty]

@[simp] theorem length_pending (b : Backlog) : b.pending.length = b.length := by
  simp only [pending, length_slice, length, Nat.min_self]

/-- What is poured is appended, and the rest still waits. -/
theorem pour_eq (b : Backlog) (q : Queue) :
    (b.pour q).2.content = q.content ++ b.pending.take q.room ∧
      (b.pour q).1.pending = b.pending.drop q.room := by
  have ht : slice b.bytes b.sent (min b.length q.room) = b.pending.take q.room := by
    rw [pending, slice_eq, slice_eq, List.take_take, Nat.min_comm]
  refine ⟨?_, ?_⟩
  · simp only [pour]
    rw [Queue.content_append, ht, List.take_take, Nat.min_self]
  · simp only [pour, pending_drop]
    rw [← length_pending b]
    rcases Nat.le_total b.pending.length q.room with h | h
    · rw [Nat.min_eq_left h, List.drop_length, List.drop_of_length_le h]
    · rw [Nat.min_eq_right h]

end Backlog

/-! ## Input that arrives in parts -/

/-- The part of a field that has arrived. -/
structure Field where
  bytes : Bytes
deriving DecidableEq, Repr

namespace Field

/-- Nothing has arrived. -/
def empty : Field := ⟨[]⟩

instance : Inhabited Field := ⟨empty⟩

/-- Take from a queue what is missing of a field of `length` bytes; the field is given once it is
complete. -/
def collect (f : Field) (q : Queue) (length : Nat) : Option Bytes × Field × Queue :=
  let count := min (length - f.bytes.length) q.length
  let bs := f.bytes ++ q.front count
  (if bs.length = length then some bs else none, ⟨bs⟩, q.drop count)

theorem length_collect {f f' : Field} {q q' : Queue} {length : Nat} {found : Option Bytes}
    (h : f.collect q length = (found, f', q')) : q'.length ≤ q.length := by
  simp only [collect, Prod.mk.injEq] at h
  rw [← h.2.2, Queue.length_drop]; omega

end Field

end BlockSync
