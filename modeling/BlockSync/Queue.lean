import BlockSync.Failure
import BlockSync.Storage

/-!
# Byte queues

A queue of bytes lives inside storage of fixed size. Bytes are appended behind the ones it holds and
leave from their front; what is held can be moved to the start of the storage to make room behind
it. The storage is never erased.

* `Queue.content`: the bytes that a queue holds, in order;
* `Queue.append`, `Queue.preload`, `Queue.hold`: bytes arrive at the back;
* `Queue.release`, `Queue.drop`, `Queue.clear`: bytes leave from the front;
* `Queue.realign`: the bytes that are held move, so that all free storage is behind them;
* `Queue.finish`, `Queue.atEnd`: the end of the stream that passes through;
* `content_append`, `content_drop`, `content_realign`: what each of them does to the bytes that are
  held.
-/

namespace BlockSync

/-- A queue of bytes inside storage of fixed size. -/
structure Queue where
  storage : Array UInt8
  /-- Where the bytes that are held start. -/
  offset : Nat
  /-- How many bytes are held. -/
  length : Nat
  /-- No more bytes will arrive. -/
  ended : Bool
  fits : offset + length ≤ storage.size
  offset_of_empty : length = 0 → offset = 0

namespace Queue

/-- An empty queue over `capacity` zeros. -/
def ofCapacity (capacity : Nat) : Queue where
  storage := Array.replicate capacity 0
  offset := 0
  length := 0
  ended := false
  fits := by simp
  offset_of_empty := by simp

instance : Inhabited Queue := ⟨ofCapacity 0⟩

variable (q : Queue)

/-- The size of the storage. -/
def capacity : Nat := q.storage.size

/-- Whether no bytes are held. -/
def isEmpty : Bool := q.length == 0

/-- Whether the stream has ended and all of it has left the queue. -/
def atEnd : Bool := q.ended && q.isEmpty

/-- The free storage behind the bytes that are held. -/
def room : Nat := q.storage.size - q.offset - q.length

/-- The first bytes that are held, at most as many as asked for. -/
def front (count : Nat) : Bytes := slice q.storage q.offset (min count q.length)

/-- The bytes that are held. -/
def content : Bytes := q.front q.length

/-- Put bytes into the free storage without holding them; what exceeds it is dropped. -/
def preload (bs : Bytes) : Queue :=
  { q with
    storage := overwrite q.storage (q.offset + q.length) bs
    fits := by simpa using q.fits }

/-- Hold the next `count` bytes of the free storage, whatever they are; they have to fit. -/
def hold (count : Nat) : Except Breach Unit × Queue :=
  if h : count ≤ q.room then
    (.ok (), { q with
      length := q.length + count
      fits := by have := q.fits; simp only [room] at h; omega
      offset_of_empty := fun he => q.offset_of_empty (by omega) })
  else (.error (.tooLittleRoom count q.room), q)

/-- Append as many bytes as there is room for. -/
def append (bs : Bytes) : Queue :=
  let count := min bs.length q.room
  { q with
    storage := overwrite q.storage (q.offset + q.length) (bs.take count)
    length := q.length + count
    fits := by
      have := q.fits
      have : count ≤ q.room := Nat.min_le_right ..
      simp only [room] at this
      simp only [size_overwrite]; omega
    offset_of_empty := fun he => q.offset_of_empty (by omega) }

/-- How many of `bs` are appended. -/
def accepts (bs : Bytes) : Nat := min bs.length q.room

/-- Drop `count` bytes from the front, or all of fewer. -/
def drop (count : Nat) : Queue :=
  if h : count < q.length then
    { q with
      offset := q.offset + count
      length := q.length - count
      fits := by have := q.fits; omega
      offset_of_empty := fun he => by omega }
  else { q with offset := 0, length := 0, fits := by simp, offset_of_empty := fun _ => rfl }

/-- Drop `count` bytes from the front, which have to be there. -/
def release (count : Nat) : Except Breach Unit × Queue :=
  if count ≤ q.length then (.ok (), q.drop count) else (.error (.tooFewHeld count q.length), q)

/-- Move the bytes that are held to the start of the storage. -/
def realign : Queue :=
  if q.offset = 0 then q
  else
    { q with
      storage := overwrite q.storage 0 q.content
      offset := 0
      fits := by have := q.fits; simp only [size_overwrite]; omega
      offset_of_empty := fun _ => rfl }

/-- Hold nothing. -/
def clear : Queue :=
  { q with offset := 0, length := 0, fits := by simp, offset_of_empty := fun _ => rfl }

/-- No more bytes will arrive. -/
def finish : Queue := { q with ended := true }

@[simp] theorem length_drop (count : Nat) : (q.drop count).length = q.length - count := by
  unfold drop; split
  · rfl
  · simp only; omega

theorem room_append (bs : Bytes) : (q.append bs).room = q.room - min bs.length q.room := by
  have := q.fits
  simp only [room, append, size_overwrite]; omega

@[simp] theorem length_front (count : Nat) : (q.front count).length = min count q.length := by
  have := q.fits
  simp only [front, length_slice]; omega

@[simp] theorem length_content : q.content.length = q.length := by simp [content]

/-! ## What a queue holds -/

theorem content_eq : q.content = slice q.storage q.offset q.length := by
  simp [content, front]

theorem front_eq (count : Nat) : q.front count = q.content.take count := by
  rw [content_eq, front, slice_eq, slice_eq, List.take_take]

@[simp] theorem content_ofCapacity (capacity : Nat) : (ofCapacity capacity).content = [] := by
  simp [content_eq, ofCapacity, slice_eq]

theorem content_append (bs : Bytes) : (q.append bs).content = q.content ++ bs.take q.room := by
  have hf := q.fits
  have hl : (bs.take (min bs.length q.room)).length = min bs.length q.room := by
    rw [List.length_take]; omega
  have hb : q.offset + q.length + (bs.take (min bs.length q.room)).length ≤ q.storage.size := by
    rw [hl, room]; omega
  have ht : bs.take (min bs.length q.room) = bs.take q.room := by
    rw [List.take_eq_take_iff]; omega
  rw [content_eq, content_eq]
  simp only [append]
  rw [slice_append, slice_overwrite_of_le _ _ hb (Nat.le_refl _)]
  have hp := slice_overwrite q.storage (q.offset + q.length) _ hb
  rw [hl] at hp
  rw [hp, ht]

theorem content_drop (count : Nat) : (q.drop count).content = q.content.drop count := by
  rw [content_eq, content_eq, drop_slice]
  unfold drop; split
  · rfl
  · rw [Nat.sub_eq_zero_of_le (by omega)]; simp [slice_eq]

theorem content_realign : q.realign.content = q.content := by
  have hf := q.fits
  unfold realign; split
  · rfl
  · have hp := slice_overwrite q.storage 0 q.content (by rw [length_content]; omega)
    rw [length_content] at hp
    rw [content_eq]; exact hp

@[simp] theorem content_clear : q.clear.content = [] := by simp [content_eq, clear, slice_eq]

@[simp] theorem content_finish : q.finish.content = q.content := rfl

/-- The bytes put into the free storage are the ones that are held next. -/
theorem content_hold_preload {bs : Bytes} (h : bs.length ≤ q.room) :
    ∃ q', (q.preload bs).hold bs.length = (.ok (), q') ∧ q'.content = q.content ++ bs := by
  have hf := q.fits
  have hr : (q.preload bs).room = q.room := by simp [room, preload]
  have hb : q.offset + q.length + bs.length ≤ q.storage.size := by rw [room] at h; omega
  refine ⟨_, by unfold hold; exact dif_pos (by omega), ?_⟩
  rw [content_eq, content_eq]
  simp only [preload]
  rw [slice_append, slice_overwrite_of_le _ _ hb (Nat.le_refl _), slice_overwrite _ _ _ hb]

end Queue

end BlockSync
