import BlockSync.Proofs.Machine.Word
import BlockSync.Transducer

/-!
# Buffers

On the machine a queue is a buffer: storage and three numbers, of which nothing is known unless the
program has seen to it. What is asked of a buffer asks for the words and ranges that it needs.

* `Buffer`, `Buffer.room`, `Buffer.data`, `Buffer.consume`, `Buffer.compact`, `Buffer.receive`,
  `Buffer.write`: buffers, and what is asked of them;
* `Queue.buffer`: a queue on the machine; `Queue.buffer_data` and the like: there nothing traps that
  its caller has a right to ask, and what happens is what happens to the queue;
* `Buffer.fill`: a field that arrives in parts;
* `Outbox`, `Outbox.drainInto`: output that waits.
-/

namespace BlockSync

/-- A buffer, in which bytes are held. -/
structure Buffer where
  storage : Array UInt8
  offset : Nat
  filled : Nat
  ended : Bool

namespace Buffer

open Machine

def ofCapacity (capacity : Nat) : Buffer := ⟨Array.replicate capacity 0, 0, 0, false⟩

def isEmpty (b : Buffer) : Bool := b.filled == 0

/-- The stream has ended, and all of it has left the buffer. -/
def isExhausted (b : Buffer) : Bool := b.ended && b.isEmpty

/-- How much storage is free behind the bytes that are held. -/
def room (b : Buffer) : Machine Nat := do
  let behind ← sub b.storage.size b.offset
  sub behind b.filled

/-- The position behind the bytes that are held. -/
def back (b : Buffer) : Machine Nat := add 64 b.offset b.filled

/-- The bytes that are held. -/
def data (b : Buffer) : Machine Bytes := do
  range b.storage b.offset (← b.back)

/-- Drop bytes from the front. -/
def consume (b : Buffer) (count : Nat) : Machine Buffer := do
  atMost count b.filled (.tooFewHeld count b.filled)
  let offset ← add 64 b.offset count
  let filled ← sub b.filled count
  return { b with offset := if filled = 0 then 0 else offset, filled := filled }

/-- Move the bytes that are held to the start of the storage. -/
def compact (b : Buffer) : Machine Buffer :=
  if 0 < b.offset then do
    let held ← range b.storage b.offset (← b.back)
    let storage ← put b.storage 0 held
    return { b with storage := storage, offset := 0 }
  else return b

/-- Hold the next bytes of the free storage, whatever they are. -/
def commit (b : Buffer) (count : Nat) : Machine Buffer := do
  let room ← b.room
  atMost count room (.tooLittleRoom count room)
  let filled ← add 64 b.filled count
  return { b with filled := filled }

/-- Bytes are put into the free storage, and as many are held as is said. -/
def receive (b : Buffer) (bs : Bytes) (count : Nat) : Machine Buffer := do
  let storage ← put b.storage (← b.back) bs
  { b with storage := storage }.commit count

/-- Append as many bytes as there is room for; their number is given. -/
def write (b : Buffer) (bs : Bytes) : Machine (Nat × Buffer) := do
  let count := min bs.length (← b.room)
  let front ← part bs 0 count
  let storage ← put b.storage (← b.back) front
  let filled ← add 64 b.filled count
  return (count, { b with storage := storage, filled := filled })

/-- Hold nothing. -/
def clear (b : Buffer) : Buffer := { b with offset := 0, filled := 0 }

/-- No more bytes will arrive. -/
def finish (b : Buffer) : Buffer := { b with ended := true }

/-- Take what is missing of a field of `length` bytes, which is given once it is complete. -/
def fill (b : Buffer) (field : Bytes) (length : Nat) : Machine (Option Bytes × Bytes × Buffer) := do
  let take := min (length - field.length) b.filled
  let bs ← part (← b.data) 0 take
  let b ← b.consume take
  let field := field ++ bs
  return (if field.length = length then some field else none, field, b)

end Buffer

/-! ## Queues on the machine -/

namespace Queue

open Machine

/-- A queue on the machine. -/
def buffer (q : Queue) : Buffer := ⟨q.storage, q.offset, q.length, q.ended⟩

variable (q : Queue)

@[simp] theorem storage_buffer : q.buffer.storage = q.storage := rfl

@[simp] theorem offset_buffer : q.buffer.offset = q.offset := rfl

@[simp] theorem filled_buffer : q.buffer.filled = q.length := rfl

@[simp] theorem ended_buffer : q.buffer.ended = q.ended := rfl

@[simp] theorem isEmpty_buffer : q.buffer.isEmpty = q.isEmpty := rfl

@[simp] theorem isExhausted_buffer : q.buffer.isExhausted = q.atEnd := rfl

@[simp] theorem buffer_clear : q.clear.buffer = q.buffer.clear := rfl

@[simp] theorem buffer_finish : q.finish.buffer = q.buffer.finish := rfl

theorem buffer_room : q.buffer.room = .ok q.room := by
  have hf := q.fits
  have ho : q.offset ≤ q.storage.size := by omega
  have hl : q.length ≤ q.storage.size - q.offset := by omega
  simp only [Buffer.room, storage_buffer, offset_buffer, filled_buffer, sub_of_le ho, bind_ok,
    sub_of_le hl]
  rfl

variable {q} (h : q.capacity < 2 ^ 64)

include h

theorem buffer_back : q.buffer.back = .ok (q.offset + q.length) := by
  have hf := q.fits
  have hlt : q.offset + q.length < 2 ^ 64 := Nat.lt_of_le_of_lt hf h
  exact add_of_lt hlt

theorem buffer_data : q.buffer.data = .ok q.content := by
  have hle : q.offset ≤ q.offset + q.length := Nat.le_add_right _ _
  simp only [Buffer.data, buffer_back h, bind_ok, storage_buffer, offset_buffer]
  rw [range_of_le hle q.fits, Nat.add_sub_cancel_left, content_eq]

theorem buffer_consume {count : Nat} (hc : count ≤ q.length) :
    q.buffer.consume count = .ok (q.drop count).buffer := by
  have hf := q.fits
  have ho : q.offset + count < 2 ^ 64 := by
    simp only [capacity] at h
    omega
  simp only [Buffer.consume, filled_buffer, offset_buffer, atMost_of_le _ hc, bind_ok, add_of_lt ho,
    sub_of_le hc, pure_eq]
  unfold drop
  by_cases hlt : count < q.length
  · rw [dif_pos hlt, if_neg (by omega)]
    rfl
  · have hz : q.length - count = 0 := by omega
    rw [dif_neg hlt, if_pos hz, hz]
    rfl

theorem buffer_compact : q.buffer.compact = .ok q.realign.buffer := by
  have hf := q.fits
  unfold Buffer.compact realign
  by_cases ho : q.offset = 0
  · rw [if_neg (by simp [ho]), if_pos ho]
    rfl
  · have hdata := buffer_data h
    rw [Buffer.data, buffer_back h, bind_ok] at hdata
    have hp : 0 + q.content.length ≤ q.storage.size := by
      rw [length_content]
      omega
    have hpos : 0 < q.buffer.offset := Nat.pos_of_ne_zero ho
    rw [if_pos hpos, if_neg ho, buffer_back h, bind_ok, hdata, bind_ok, storage_buffer, put_of_le hp]
    rfl

omit h in
/-- Bytes that are put into the free storage and then held have been appended. -/
theorem hold_preload_eq {bs : Bytes} (hb : bs.length ≤ q.room) :
    (q.preload bs).hold bs.length = (.ok (), q.append bs) := by
  have hr : (q.preload bs).room = q.room := by simp [room, preload]
  have hc : min bs.length q.room = bs.length := Nat.min_eq_left hb
  unfold hold append
  rw [dif_pos (by omega)]
  simp only [hc, List.take_length]
  rfl

theorem buffer_receive {bs : Bytes} (hb : bs.length ≤ q.room) :
    q.buffer.receive bs bs.length = .ok (q.append bs).buffer := by
  have hf := q.fits
  have hr : (q.preload bs).room = q.room := by simp [room, preload]
  have hp : q.offset + q.length + bs.length ≤ q.storage.size := by
    rw [room] at hb
    omega
  have hl : q.length + bs.length < 2 ^ 64 := by
    simp only [capacity] at h
    omega
  have hcommit : (q.preload bs).buffer.commit bs.length =
      .ok { (q.preload bs).buffer with filled := q.length + bs.length } := by
    simp only [Buffer.commit, buffer_room, bind_ok, hr, atMost_of_le _ hb, filled_buffer]
    change (do return { (q.preload bs).buffer with filled := ← add 64 q.length bs.length }) = _
    rw [add_of_lt hl]
    rfl
  rw [Buffer.receive, buffer_back h, bind_ok, storage_buffer, put_of_le hp, bind_ok]
  refine hcommit.trans ?_
  have hc : min bs.length q.room = bs.length := Nat.min_eq_left hb
  simp only [buffer, preload, append, hc, List.take_length]

theorem buffer_write (bs : Bytes) :
    q.buffer.write bs = .ok (min bs.length q.room, (q.append bs).buffer) := by
  have hf := q.fits
  have hc : min bs.length q.room ≤ bs.length := Nat.min_le_left _ _
  have hroom : min bs.length q.room ≤ q.storage.size - q.offset - q.length := Nat.min_le_right _ _
  have hp : q.offset + q.length + (bs.take (min bs.length q.room)).length ≤ q.storage.size := by
    rw [List.length_take]
    omega
  have hl : q.length + min bs.length q.room < 2 ^ 64 := by
    simp only [capacity] at h
    omega
  simp only [Buffer.write, buffer_room, bind_ok, part_zero hc, buffer_back h, filled_buffer,
    storage_buffer, put_of_le hp, add_of_lt hl]
  rfl

omit h in
theorem append_take (bs : Bytes) : q.append (bs.take q.room) = q.append bs := by
  have hc : min (bs.take q.room).length q.room = min bs.length q.room := by
    rw [List.length_take]
    omega
  have ht : (bs.take q.room).take (min bs.length q.room) = bs.take (min bs.length q.room) := by
    rw [List.take_take, Nat.min_eq_left (Nat.min_le_right _ _)]
  simp only [append, hc, ht]

/-- A field that arrives in parts. -/
theorem buffer_fill (f : Field) (length : Nat) :
    q.buffer.fill f.bytes length = .ok ((f.collect q length).1, (f.collect q length).2.1.bytes,
      (f.collect q length).2.2.buffer) := by
  have hle : min (length - f.bytes.length) q.length ≤ q.length := Nat.min_le_right _ _
  have hlen : min (length - f.bytes.length) q.length ≤ q.content.length := by
    rw [length_content]
    exact hle
  simp only [Buffer.fill, filled_buffer, buffer_data h, bind_ok, part_zero hlen, buffer_consume h hle,
    pure_eq, Field.collect, front_eq]

end Queue

/-! ## Output that waits -/

/-- Output that waits, on the machine. -/
structure Outbox where
  bytes : Array UInt8
  pos : Nat

namespace Outbox

open Machine

def isEmpty (o : Outbox) : Bool := o.pos == o.bytes.size

def append (o : Outbox) (bs : Bytes) : Outbox := { o with bytes := o.bytes ++ bs }

/-- What has all been passed on need not be kept. -/
def settle (o : Outbox) : Outbox := if o.isEmpty then ⟨#[], 0⟩ else o

/-- Move as many bytes as fit into a buffer. -/
def drainInto (o : Outbox) (w : Buffer) : Machine (Outbox × Buffer) := do
  let rest ← range o.bytes o.pos o.bytes.size
  let (count, w) ← w.write rest
  let pos ← add 64 o.pos count
  return (settle { o with pos := pos }, w)

end Outbox

namespace Backlog

open Machine

/-- Output that waits, on the machine. -/
def outbox (b : Backlog) : Outbox := ⟨b.bytes, b.sent⟩

@[simp] theorem isEmpty_outbox (b : Backlog) : b.outbox.isEmpty = b.isEmpty := by
  have hs := b.sent_le
  rw [Bool.eq_iff_iff]
  simp only [Outbox.isEmpty, outbox, isEmpty, length, beq_iff_eq]
  omega

@[simp] theorem outbox_append (b : Backlog) (bs : Bytes) :
    (b.append bs).outbox = b.outbox.append bs := rfl

theorem settle_outbox {b : Backlog} {count : Nat} (h : count ≤ b.length) :
    Outbox.settle ⟨b.bytes, b.sent + count⟩ = (b.drop count).outbox := by
  have hs := b.sent_le
  have hl : b.length = b.bytes.size - b.sent := rfl
  unfold Outbox.settle drop
  by_cases hlt : count < b.length
  · have hne : ¬ (Outbox.isEmpty ⟨b.bytes, b.sent + count⟩) = true := by
      simp only [Outbox.isEmpty, beq_iff_eq]
      omega
    rw [if_neg hne, dif_pos hlt]
    rfl
  · have heq : (Outbox.isEmpty ⟨b.bytes, b.sent + count⟩) = true := by
      simp only [Outbox.isEmpty, beq_iff_eq]
      omega
    rw [if_pos heq, dif_neg hlt]
    rfl

theorem outbox_drainInto {b : Backlog} {q : Queue} (h : q.capacity < 2 ^ 64)
    (hs : b.sent + min b.length q.room < 2 ^ 64) :
    b.outbox.drainInto q.buffer = .ok ((b.pour q).1.outbox, (b.pour q).2.buffer) := by
  have hrest : range b.bytes b.sent b.bytes.size = .ok b.pending :=
    range_of_le b.sent_le (Nat.le_refl _)
  have happend : q.append b.pending = (b.pour q).2 := by
    have ht : slice b.bytes b.sent (min b.length q.room) = b.pending.take q.room := by
      rw [pending, slice_eq, slice_eq, List.take_take, Nat.min_comm]
    rw [pour, ht, Queue.append_take]
  simp only [Outbox.drainInto, outbox, hrest, bind_ok, Queue.buffer_write h, length_pending,
    add_of_lt hs, pure_eq]
  rw [settle_outbox (Nat.min_le_left _ _), happend]
  rfl

end Backlog

end BlockSync
