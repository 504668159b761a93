import BlockSync.Transducer

/-!
# Room and ends of queues

What the operations of a queue do to its storage, to the end of the stream and to the room behind the
bytes that are held; what makes two queues give the same; and what a queue gives to a field
(**`Field.collect_eq`**).
-/

namespace BlockSync

namespace Queue

variable (q : Queue)

/-! ## The storage keeps its size -/

@[simp] theorem capacity_ofCapacity (n : Nat) : (ofCapacity n).capacity = n := by
  simp [capacity, ofCapacity]

@[simp] theorem capacity_append (bs : Bytes) : (q.append bs).capacity = q.capacity := by
  simp [capacity, append]

@[simp] theorem capacity_drop (count : Nat) : (q.drop count).capacity = q.capacity := by
  unfold capacity drop; split <;> rfl

@[simp] theorem capacity_realign : q.realign.capacity = q.capacity := by
  unfold capacity realign; split <;> simp

/-! ## Dropping twice -/

theorem drop_zero : q.drop 0 = q := by
  unfold drop
  by_cases h : 0 < q.length
  · rw [dif_pos h]
    rfl
  · have hl : q.length = 0 := by omega
    have ho := q.offset_of_empty hl
    rw [dif_neg h]
    obtain ⟨storage, offset, length, ended, fits, hempty⟩ := q
    cases hl
    cases ho
    rfl

/-- No more can be dropped than is held. -/
theorem drop_min (count : Nat) : q.drop (min count q.length) = q.drop count := by
  rcases Nat.lt_or_ge count q.length with h | h
  · rw [Nat.min_eq_left (Nat.le_of_lt h)]
  · rw [Nat.min_eq_right h]
    unfold drop
    rw [dif_neg (Nat.lt_irrefl _), dif_neg (Nat.not_lt.mpr h)]

theorem drop_drop (m n : Nat) : (q.drop m).drop n = q.drop (m + n) := by
  by_cases hm : m < q.length
  · have hq : q.drop m = ⟨q.storage, q.offset + m, q.length - m, q.ended, _, _⟩ := dif_pos hm
    rw [hq]
    unfold drop
    by_cases hn : m + n < q.length
    · have hn' : n < q.length - m := by omega
      simp only [dif_pos hn, dif_pos hn', Nat.add_assoc, Nat.sub_sub]
    · have hn' : ¬ n < q.length - m := by omega
      simp only [dif_neg hn, dif_neg hn']
  · have hq : q.drop m = ⟨q.storage, 0, 0, q.ended, _, _⟩ := dif_neg hm
    have hn : ¬ m + n < q.length := by omega
    rw [hq]
    unfold drop
    simp only [dif_neg hn, Nat.not_lt_zero, dif_neg, not_false_eq_true]

/-! ## The end of the stream -/

@[simp] theorem ended_drop (count : Nat) : (q.drop count).ended = q.ended := by
  unfold drop; split <;> rfl

@[simp] theorem ended_realign : q.realign.ended = q.ended := by
  unfold realign; split <;> rfl

theorem isEmpty_iff : q.isEmpty = true ↔ q.content = [] := by
  rw [isEmpty, beq_iff_eq, ← length_content, List.length_eq_zero_iff]

theorem atEnd_iff : q.atEnd = true ↔ q.ended = true ∧ q.content = [] := by
  rw [atEnd, Bool.and_eq_true, isEmpty_iff]

theorem content_drop_length : (q.drop q.length).content = [] := by
  rw [content_drop, ← length_content, List.drop_length]

/-- With all its content dropped, a queue is at its end if the stream has ended. -/
theorem atEnd_drop_length (q : Queue) : (q.drop q.length).atEnd = q.ended := by
  rw [Bool.eq_iff_iff, atEnd_iff, ended_drop]
  exact ⟨And.left, fun h => ⟨h, q.content_drop_length⟩⟩

/-! ## Room -/

theorem room_add_length : q.room + q.length + q.offset = q.capacity := by
  have := q.fits
  simp only [room, capacity]; omega

theorem length_le_capacity : q.content.length ≤ q.capacity := by
  have := q.room_add_length
  rw [length_content]; omega

/-- In an empty queue there is room everywhere. -/
theorem room_of_empty (h : q.content = []) : q.room = q.capacity := by
  have hl : q.length = 0 := by rw [← length_content, h]; rfl
  have := q.room_add_length
  have := q.offset_of_empty hl
  omega

theorem offset_realign : q.realign.offset = 0 := by
  unfold realign; split
  · assumption
  · rfl

theorem room_realign : q.realign.room = q.capacity - q.content.length := by
  have h := q.realign.room_add_length
  rw [← length_content, content_realign, offset_realign, capacity_realign] at h
  omega

theorem room_append_content (bs : Bytes) :
    (q.append bs).room + (q.append bs).content.length = q.room + q.content.length := by
  have h := q.room_add_length
  have h' := (q.append bs).room_add_length
  have ho : (q.append bs).offset = q.offset := rfl
  rw [capacity_append, ho] at h'
  rw [length_content, length_content]
  omega

/-- Bytes that are read into the free storage and then held. -/
theorem hold_preload {bs : Bytes} (h : bs.length ≤ q.room) :
    ∃ q', (q.preload bs).hold bs.length = (.ok (), q') ∧ q'.content = q.content ++ bs ∧
      q'.ended = q.ended ∧ q'.capacity = q.capacity := by
  obtain ⟨q', hq, hc⟩ := q.content_hold_preload h
  refine ⟨q', hq, hc, ?_⟩
  unfold hold at hq
  split at hq
  · simp only [Prod.mk.injEq, true_and] at hq
    subst hq
    exact ⟨rfl, by simp [capacity, preload]⟩
  · simp at hq

/-! ## Queues that give the same -/

/-- A queue and its image give the same when bytes are taken from them. -/
structure Alike (g : Queue → Queue) : Prop where
  length : ∀ q, (g q).length = q.length
  front : ∀ q count, (g q).front count = q.front count
  drop : ∀ q count, (g q).drop count = g (q.drop count)

theorem Alike.id : Alike id := ⟨fun _ => rfl, fun _ _ => rfl, fun _ _ => rfl⟩

theorem Alike.isEmpty {g : Queue → Queue} (h : Alike g) (q : Queue) : (g q).isEmpty = q.isEmpty := by
  rw [Queue.isEmpty, h.length]
  rfl

theorem Alike.collect {g : Queue → Queue} (h : Alike g) (f : Field) (q : Queue) (length : Nat) :
    f.collect (g q) length =
      ((f.collect q length).1, (f.collect q length).2.1, g (f.collect q length).2.2) := by
  simp only [Field.collect, h.length, h.front, h.drop]

end Queue

namespace Backlog

theorem isEmpty_iff (b : Backlog) : b.isEmpty = true ↔ b.pending = [] := by
  rw [isEmpty, beq_iff_eq, ← length_pending, List.length_eq_zero_iff]

theorem waits_iff (b : Backlog) : (!b.isEmpty) = true ↔ b.pending ≠ [] := by
  rw [Bool.not_eq_true', ← Bool.not_eq_true, isEmpty_iff]

@[simp] theorem pending_empty : empty.pending = [] := by simp [pending, slice_eq, empty]

theorem capacity_pour (b : Backlog) (q : Queue) : (b.pour q).2.capacity = q.capacity :=
  q.capacity_append _

end Backlog

namespace Field

/-- Of a field that is not too long a queue gives what is missing, or all that it holds. -/
theorem collect_eq {f : Field} {n : Nat} (h : f.bytes.length ≤ n) (q : Queue) :
    f.collect q n =
      (if n ≤ (f.bytes ++ q.content).length then some ((f.bytes ++ q.content).take n) else none,
        ⟨(f.bytes ++ q.content).take n⟩, q.drop (n - f.bytes.length)) := by
  have hfront : q.front (min (n - f.bytes.length) q.length) = q.content.take (n - f.bytes.length) := by
    rw [Queue.front_eq, ← q.length_content, ← List.take_take, List.take_length]
  have hbytes : f.bytes ++ q.content.take (n - f.bytes.length) = (f.bytes ++ q.content).take n := by
    rw [List.take_append, List.take_of_length_le h]
  have hlen : ((f.bytes ++ q.content).take n).length = n ↔ n ≤ (f.bytes ++ q.content).length := by
    rw [List.length_take]
    omega
  simp only [collect, hfront, hbytes, hlen, q.drop_min]

end Field

end BlockSync
