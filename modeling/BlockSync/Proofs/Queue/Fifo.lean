import BlockSync.Proofs.Machine.Buffer
import BlockSync.Proofs.Orderly

/-!
# First in, first out

What a queue holds is told without its storage: it is what was appended since the queue was last
cleared, less what has left since then. The storage shows only where bytes are held that nobody put
there.

* `Queue.Request`, `Queue.serve`: what is asked of a queue, in any order;
* `Queue.Ledger`, `Queue.after`: what was appended and what has left, and a queue after some requests;
* **`Queue.Ledger.Balances.serve`**: every request keeps the ledger and the queue in balance;
* `Queue.Serves`, **`Queue.serves`**: what a request does, and when it is refused;
* `Buffer.serve`, **`Queue.buffer_serve`**: on the machine nothing traps but what is refused;
* **`Queue.first_in_first_out`**: all this of any sequence of requests to a new queue.
-/

namespace BlockSync

namespace Queue

/-! ## Requests -/

/-- What is asked of a queue. -/
inductive Request where
  /-- Append as many of the bytes as there is room for. -/
  | append (bs : Bytes)
  /-- Put the bytes into the free storage, as far as they fit there. -/
  | preload (bs : Bytes)
  /-- Hold the next bytes of the free storage. -/
  | hold (count : Nat)
  /-- Drop bytes from the front. -/
  | release (count : Nat)
  /-- Move the bytes that are held to the start of the storage. -/
  | realign
  /-- Hold nothing. -/
  | clear
  /-- No more bytes will arrive. -/
  | finish
deriving DecidableEq, Repr

/-- What a queue does when it is asked. Of bytes to append it is told how many were taken. -/
def serve (q : Queue) : Request → Except Breach Nat × Queue
  | .append bs => (.ok (q.accepts bs), q.append bs)
  | .preload bs => (.ok 0, q.preload bs)
  | .hold count => ((q.hold count).1.map fun _ => 0, (q.hold count).2)
  | .release count => ((q.release count).1.map fun _ => 0, (q.release count).2)
  | .realign => (.ok 0, q.realign)
  | .clear => (.ok 0, q.clear)
  | .finish => (.ok 0, q.finish)

/-- The free storage, whatever is in it. -/
def spare (q : Queue) : Bytes := slice q.storage (q.offset + q.length) q.room

/-- What has become of the bytes of a queue since it was last cleared. -/
structure Ledger where
  /-- What was appended. -/
  arrived : Bytes
  /-- How much of it has left. -/
  left : Nat
deriving DecidableEq, Repr

namespace Ledger

def empty : Ledger := ⟨[], 0⟩

/-- A request is entered before it is served. -/
def enter (l : Ledger) (q : Queue) : Request → Ledger
  | .append bs => { l with arrived := l.arrived ++ bs.take q.room }
  | .hold count =>
    if count ≤ q.room then { l with arrived := l.arrived ++ q.spare.take count } else l
  | .release count => if count ≤ q.length then { l with left := l.left + count } else l
  | .clear => .empty
  | .preload _ | .realign | .finish => l

/-- A queue holds what has arrived and not left. -/
structure Balances (l : Ledger) (q : Queue) : Prop where
  content : q.content = l.arrived.drop l.left
  left_le : l.left ≤ l.arrived.length

end Ledger

/-- A queue, and its ledger, after some requests to a new one. -/
def after (capacity : Nat) (requests : List Request) : Queue × Ledger :=
  requests.foldl (fun s request => ((s.1.serve request).2, s.2.enter s.1 request))
    (ofCapacity capacity, .empty)

/-! ## Free storage -/

variable {q : Queue}

theorem spare_eq (q : Queue) : q.spare = q.storage.toList.drop (q.offset + q.length) := by
  have hl : (q.storage.toList.drop (q.offset + q.length)).length ≤ q.room := by
    rw [List.length_drop, Array.length_toList, room]
    omega
  rw [spare, slice_eq, List.take_of_length_le hl]

/-- Bytes that are put into the free storage are put behind those that are held. -/
theorem content_preload (q : Queue) (bs : Bytes) : (q.preload bs).content = q.content := by
  have hf := q.fits
  rw [content_eq, content_eq]
  simp only [preload]
  rw [← overwrite_take, slice_overwrite_of_le _ _ (by rw [List.length_take]; omega) (Nat.le_refl _)]

/-- They are at its front then, as far as they fit, and what else is in it stays. -/
theorem spare_preload (q : Queue) (bs : Bytes) :
    (q.preload bs).spare = bs.take q.room ++ q.spare.drop bs.length := by
  have hf := q.fits
  have hroom : q.storage.size - (q.offset + q.length) = q.room := by
    rw [room]
    omega
  have hfront : (q.storage.toList.take (q.offset + q.length)).length = q.offset + q.length := by
    rw [List.length_take, Array.length_toList]
    omega
  have hstorage : (q.preload bs).storage =
      overwrite q.storage (q.offset + q.length) (bs.take q.room) := by
    rw [← hroom, overwrite_take]
    rfl
  have hrest : q.storage.toList.drop (q.offset + q.length + (bs.take q.room).length) =
      (q.storage.toList.drop (q.offset + q.length)).drop bs.length := by
    rw [List.drop_drop, List.length_take]
    rcases Nat.le_total bs.length q.room with h | h
    · rw [Nat.min_eq_right h]
    · rw [Nat.min_eq_left h, List.drop_of_length_le, List.drop_of_length_le] <;>
        rw [Array.length_toList] <;> omega
  rw [spare_eq, spare_eq, hstorage, toList_overwrite _ _ _ (by rw [List.length_take]; omega),
    List.append_assoc, hrest]
  exact List.drop_left' hfront

/-- Bytes of the free storage are held behind those that are held already. -/
theorem content_hold {count : Nat} (h : count ≤ q.room) :
    (q.hold count).1 = .ok () ∧ (q.hold count).2.content = q.content ++ q.spare.take count := by
  rw [hold, dif_pos h]
  refine ⟨rfl, ?_⟩
  rw [content_eq, content_eq, spare, slice_append, slice_eq _ _ q.room, List.take_take,
    Nat.min_eq_left h, ← slice_eq]

/-- More than the free storage is not held. -/
theorem hold_of_lt {count : Nat} (h : q.room < count) :
    q.hold count = (.error (.tooLittleRoom count q.room), q) := dif_neg (Nat.not_le.mpr h)

theorem release_of_le {count : Nat} (h : count ≤ q.length) : q.release count = (.ok (), q.drop count) :=
  if_pos h

/-- More than is held does not leave. -/
theorem release_of_lt {count : Nat} (h : q.length < count) :
    q.release count = (.error (.tooFewHeld count q.length), q) := if_neg (Nat.not_le.mpr h)

/-! ## The ledger -/

/-- **Every request keeps the ledger and the queue in balance.** -/
theorem Ledger.Balances.serve {l : Ledger} (h : l.Balances q) (request : Request) :
    (l.enter q request).Balances (q.serve request).2 := by
  obtain ⟨hc, hle⟩ := h
  cases request with
  | append bs =>
    refine ⟨?_, ?_⟩
    · change (q.append bs).content = (l.arrived ++ bs.take q.room).drop l.left
      rw [content_append, hc, List.drop_append_of_le_length hle]
    · change l.left ≤ (l.arrived ++ bs.take q.room).length
      rw [List.length_append]
      exact Nat.le_add_right_of_le hle
  | preload bs => exact ⟨(content_preload q bs).trans hc, hle⟩
  | hold count =>
    rcases Nat.lt_or_ge q.room count with hlt | hroom
    · simp only [Ledger.enter, Queue.serve, if_neg (Nat.not_le.mpr hlt), hold_of_lt hlt]
      exact ⟨hc, hle⟩
    · simp only [Ledger.enter, Queue.serve, if_pos hroom]
      refine ⟨?_, ?_⟩
      · rw [(content_hold hroom).2, hc, List.drop_append_of_le_length hle]
      · rw [List.length_append]
        exact Nat.le_add_right_of_le hle
  | release count =>
    rcases Nat.lt_or_ge q.length count with hlt | hheld
    · simp only [Ledger.enter, Queue.serve, if_neg (Nat.not_le.mpr hlt), release_of_lt hlt]
      exact ⟨hc, hle⟩
    · simp only [Ledger.enter, Queue.serve, if_pos hheld, release_of_le hheld]
      refine ⟨by rw [content_drop, hc, List.drop_drop], ?_⟩
      have hl := congrArg List.length hc
      rw [length_content, List.length_drop] at hl
      dsimp only
      omega
  | realign => exact ⟨(content_realign q).trans hc, hle⟩
  | clear => exact ⟨content_clear q, Nat.le_refl 0⟩
  | finish => exact ⟨hc, hle⟩

theorem after_concat (capacity : Nat) (requests : List Request) (request : Request) :
    after capacity (requests ++ [request]) =
      (((after capacity requests).1.serve request).2,
        (after capacity requests).2.enter (after capacity requests).1 request) := by
  rw [after, List.foldl_append]
  rfl

@[simp] theorem capacity_serve (q : Queue) (request : Request) :
    (q.serve request).2.capacity = q.capacity := by
  cases request with
  | append bs => exact q.capacity_append bs
  | preload bs => exact size_overwrite ..
  | hold count => simp only [serve, hold]; split <;> rfl
  | release count => simp only [serve, release]; split <;> simp
  | realign => exact q.capacity_realign
  | clear | finish => rfl

theorem ended_serve (q : Queue) (request : Request) :
    (q.serve request).2.ended = true ↔ q.ended = true ∨ request = .finish := by
  cases request with
  | append bs | preload bs | clear => simp [serve, append, preload, clear]
  | hold count => simp only [serve, hold]; split <;> simp
  | release count => simp only [serve, release]; split <;> simp
  | realign => simp [serve]
  | finish => simp [serve, finish]

/-- What a new queue has become. -/
structure Kept (capacity : Nat) (requests : List Request) (q : Queue) (l : Ledger) : Prop where
  balances : l.Balances q
  capacity : q.capacity = capacity
  ended : q.ended = true ↔ .finish ∈ requests

theorem kept_after (capacity : Nat) (requests : List Request) :
    Kept capacity requests (after capacity requests).1 (after capacity requests).2 := by
  induction requests using List.reverseRecOn with
  | nil => exact ⟨⟨content_ofCapacity capacity, Nat.le_refl 0⟩, capacity_ofCapacity capacity, by
      simp [after, ofCapacity]⟩
  | append_singleton requests request ih =>
    rw [after_concat]
    refine ⟨ih.balances.serve request, (capacity_serve _ _).trans ih.capacity, ?_⟩
    rw [ended_serve, ih.ended, List.mem_append, List.mem_singleton, eq_comm]

/-! ## What a request does -/

/-- What a request does to a queue, and how it is answered. -/
def Serves (q : Queue) : Request → Except Breach Nat × Queue → Prop
  | .append bs, (answer, q') => answer = .ok (min bs.length q.room) ∧
      q'.content = q.content ++ bs.take q.room ∧ q'.offset = q.offset
  | .preload bs, (answer, q') => answer = .ok 0 ∧ q'.content = q.content ∧ q'.offset = q.offset ∧
      q'.spare = bs.take q.room ++ q.spare.drop bs.length
  | .hold count, (answer, q') =>
    if count ≤ q.room then
      answer = .ok 0 ∧ q'.content = q.content ++ q.spare.take count ∧ q'.offset = q.offset
    else answer = .error (.tooLittleRoom count q.room) ∧ q' = q
  | .release count, (answer, q') =>
    if count ≤ q.length then answer = .ok 0 ∧ q'.content = q.content.drop count
    else answer = .error (.tooFewHeld count q.length) ∧ q' = q
  | .realign, (answer, q') => answer = .ok 0 ∧ q'.content = q.content ∧ q'.length = q.length ∧
      q'.offset = 0 ∧ q'.room = q.capacity - q.length
  | .clear, (answer, q') => answer = .ok 0 ∧ q'.content = [] ∧ q'.offset = 0
  | .finish, (answer, q') => answer = .ok 0 ∧ q' = { q with ended := true }

/-- **What a request does, and when it is refused.** A request that is refused changes nothing. -/
theorem serves (q : Queue) (request : Request) : q.Serves request (q.serve request) := by
  cases request with
  | append bs => exact ⟨rfl, content_append q bs, rfl⟩
  | preload bs => exact ⟨rfl, content_preload q bs, rfl, spare_preload q bs⟩
  | hold count =>
    rcases Nat.lt_or_ge q.room count with hlt | hroom
    · simp only [Serves, serve, if_neg (Nat.not_le.mpr hlt), hold_of_lt hlt]
      exact ⟨rfl, trivial⟩
    · have hoffset : (q.hold count).2.offset = q.offset := by rw [hold, dif_pos hroom]
      obtain ⟨hok, hc⟩ := content_hold hroom
      simp only [Serves, serve, if_pos hroom, hok]
      exact ⟨rfl, hc, hoffset⟩
  | release count =>
    rcases Nat.lt_or_ge q.length count with hlt | hheld
    · simp only [Serves, serve, if_neg (Nat.not_le.mpr hlt), release_of_lt hlt]
      exact ⟨rfl, trivial⟩
    · simp only [Serves, serve, if_pos hheld, release_of_le hheld]
      exact ⟨rfl, content_drop q count⟩
  | realign =>
    have hc := content_realign q
    have hl : q.realign.length = q.length := by rw [← length_content, hc, length_content]
    have hroom := q.room_realign
    rw [length_content] at hroom
    exact ⟨rfl, hc, hl, q.offset_realign, hroom⟩
  | clear => exact ⟨rfl, content_clear q, rfl⟩
  | finish => exact ⟨rfl, rfl⟩

theorem unchanged_of_refused {q q' : Queue} {request : Request} {cause : Breach}
    (h : q.serve request = (.error cause, q')) : q' = q := by
  have hs := q.serves request
  rw [h] at hs
  cases request with
  | hold count =>
    simp only [Serves] at hs
    split at hs
    · cases hs.1
    · exact hs.2
  | release count =>
    simp only [Serves] at hs
    split at hs
    · cases hs.1
    · exact hs.2
  | append bs | preload bs | realign | clear | finish => cases hs.1

end Queue

/-! ## On the machine -/

namespace Buffer

open Machine

/-- What a buffer does when it is asked. -/
def serve (b : Buffer) : Queue.Request → Machine (Nat × Buffer)
  | .append bs => b.write bs
  | .preload bs => do
    let back ← b.back
    let room ← sub b.storage.size back
    let storage ← put b.storage back (bs.take room)
    return (0, { b with storage := storage })
  | .hold count => do return (0, ← b.commit count)
  | .release count => do return (0, ← b.consume count)
  | .realign => do return (0, ← b.compact)
  | .clear => return (0, b.clear)
  | .finish => return (0, b.finish)

/-- What a buffer is after a request; one that traps finds it as it was. -/
def after (b : Buffer) (request : Queue.Request) : Buffer :=
  match b.serve request with
  | .ok (_, b') => b'
  | .error _ => b

end Buffer

namespace Queue

open Machine

variable {q : Queue}

/-- What a queue answers, on the machine. -/
def trapped : Except Breach Nat × Queue → Machine (Nat × Buffer)
  | (.ok n, q) => .ok (n, q.buffer)
  | (.error cause, _) => .error (.breach cause)

theorem buffer_preload (h : q.capacity < 2 ^ 64) (bs : Bytes) :
    q.buffer.serve (.preload bs) = .ok (0, (q.preload bs).buffer) := by
  have hf := q.fits
  have hroom : q.storage.size - (q.offset + q.length) = q.room := by
    rw [room]
    omega
  have hp : q.offset + q.length + (bs.take q.room).length ≤ q.storage.size := by
    rw [List.length_take]
    omega
  have hover : overwrite q.storage (q.offset + q.length) (bs.take q.room) =
      (q.preload bs).storage := by
    rw [← hroom, overwrite_take]
    rfl
  simp only [Buffer.serve, buffer_back h, bind_ok, storage_buffer, sub_of_le hf, hroom,
    put_of_le hp, hover]
  rfl

theorem buffer_commit (h : q.capacity < 2 ^ 64) (count : Nat) :
    q.buffer.serve (.hold count) = trapped (q.serve (.hold count)) := by
  have hf := q.fits
  rcases Nat.lt_or_ge q.room count with hlt | hroom
  · simp only [Buffer.serve, Buffer.commit, buffer_room, bind_ok, atMost_of_lt _ hlt, serve,
      hold_of_lt hlt]
    rfl
  · have hl : q.length + count < 2 ^ 64 := by
      simp only [capacity] at h
      rw [room] at hroom
      omega
    simp only [Buffer.serve, Buffer.commit, buffer_room, bind_ok, atMost_of_le _ hroom, filled_buffer,
      add_of_lt hl, serve, hold, dif_pos hroom]
    rfl

theorem buffer_release (h : q.capacity < 2 ^ 64) (count : Nat) :
    q.buffer.serve (.release count) = trapped (q.serve (.release count)) := by
  rcases Nat.lt_or_ge q.length count with hlt | hheld
  · simp only [Buffer.serve, Buffer.consume, filled_buffer, atMost_of_lt _ hlt, serve,
      release_of_lt hlt]
    rfl
  · simp only [Buffer.serve, buffer_consume h hheld, bind_ok, serve, release_of_le hheld]
    rfl

/-- **On the machine a queue does what it does here**, and nothing traps but what is refused. -/
theorem buffer_serve (h : q.capacity < 2 ^ 64) (request : Request) :
    q.buffer.serve request = trapped (q.serve request) := by
  cases request with
  | append bs => exact buffer_write h bs
  | preload bs => exact buffer_preload h bs
  | hold count => exact buffer_commit h count
  | release count => exact buffer_release h count
  | realign =>
    simp only [Buffer.serve, buffer_compact h, bind_ok]
    rfl
  | clear | finish => rfl

theorem buffer_after (h : q.capacity < 2 ^ 64) (request : Request) :
    q.buffer.after request = (q.serve request).2.buffer := by
  rw [Buffer.after, buffer_serve h]
  rcases hs : q.serve request with ⟨cause | n, q'⟩
  · obtain rfl := unchanged_of_refused hs
    rfl
  · rfl

theorem buffer_after_foldl {capacity : Nat} (h : capacity < 2 ^ 64) (requests : List Request) :
    requests.foldl Buffer.after (Buffer.ofCapacity capacity) =
      (after capacity requests).1.buffer := by
  induction requests using List.reverseRecOn with
  | nil => rfl
  | append_singleton requests request ih =>
    have hc := (kept_after capacity requests).capacity
    rw [List.foldl_concat, ih, after_concat, buffer_after (by rwa [hc])]

/-- **A queue is a list of bounded length, first in, first out.** Whatever has been asked of a new
queue, and in whatever order, it holds what was appended since it was last cleared, less what has
left; there is room for all that its storage does not hold or has in front, and when nothing is held
that is all of it. What is asked next does what it should, or is refused and changes nothing: more is
to leave than is held, or to be held than is free. On the machine it goes the same way, and nothing
traps but what is refused. -/
theorem first_in_first_out (capacity : Nat) (h : capacity < 2 ^ 64) (requests : List Request)
    (next : Request) :
    let q := (after capacity requests).1
    let l := (after capacity requests).2
    (q.capacity = capacity ∧ q.offset + q.length ≤ capacity ∧
      q.room = capacity - q.offset - q.length ∧
      (q.length = 0 → q.offset = 0 ∧ q.room = capacity)) ∧
    (q.content = l.arrived.drop l.left ∧ l.left ≤ l.arrived.length ∧ q.content.length = q.length) ∧
    (q.ended = true ↔ .finish ∈ requests) ∧
    q.Serves next (q.serve next) ∧
    requests.foldl Buffer.after (Buffer.ofCapacity capacity) = q.buffer ∧
    q.buffer.room = .ok q.room ∧ q.buffer.data = .ok q.content ∧
    q.buffer.serve next = trapped (q.serve next) := by
  intro q l
  have hkept := kept_after capacity requests
  have hword : q.capacity < 2 ^ 64 := by rwa [hkept.capacity]
  have hroom := q.room_add_length
  rw [hkept.capacity] at hroom
  refine ⟨⟨hkept.capacity, by omega, by omega, fun hl => ?_⟩,
    ⟨hkept.balances.content, hkept.balances.left_le, q.length_content⟩, hkept.ended, q.serves next,
    buffer_after_foldl h requests, q.buffer_room, buffer_data hword, buffer_serve hword next⟩
  have hoffset := q.offset_of_empty hl
  exact ⟨hoffset, by omega⟩

/-- A byte that had left is held a second time, when the free storage is held without anything having
been put there. -/
theorem first_in_first_out_stale :
    let requests : List Request :=
      [.append [1, 2, 3], .release 2, .preload [9], .realign, .hold 1, .release 5, .finish]
    let q := (after 4 requests).1
    (after 4 requests).2 = ⟨[1, 2, 3, 2], 2⟩ ∧ q.content = [3, 2] ∧ q.room = 2 ∧ q.ended = true ∧
      q.serve (.hold 3) = (.error (.tooLittleRoom 3 2), q) ∧
      requests.foldl Buffer.after (Buffer.ofCapacity 4) = q.buffer ∧
      q.buffer.serve (.hold 3) = .error (.breach (.tooLittleRoom 3 2)) := by
  intro requests q
  obtain ⟨-, ⟨hcontent, -⟩, hended, hserves, hbuffer, -, -, hmachine⟩ :=
    first_in_first_out 4 (by decide) requests (.hold 3)
  have hledger : (after 4 requests).2 = ⟨[1, 2, 3, 2], 2⟩ := by decide
  have hroom : q.room = 2 := by decide
  have hrefused : q.serve (.hold 3) = (.error (.tooLittleRoom 3 2), q) := by
    simp only [Serves] at hserves
    rw [if_neg (by rw [hroom]; decide), hroom] at hserves
    exact Prod.ext hserves.1 hserves.2
  refine ⟨hledger, ?_, hroom, hended.mpr (by decide), hrefused, hbuffer, ?_⟩
  · rw [hcontent, hledger]
    rfl
  · rw [hmachine, hrefused]
    rfl

end Queue

end BlockSync
