import BlockSync.Bytes

/-!
# Storage

Buffers keep their bytes in arrays and show them as byte strings.

* `overwrite`: put bytes over those that are there;
* `slice`: the bytes between two positions;
* `slice_overwrite`, `slice_overwrite_of_le`: what is put over others is there, and what is in front
  of it stays.
-/

namespace BlockSync

/-- Overwrite storage from a position on; what reaches past its end is dropped. -/
def overwrite (storage : Array UInt8) (start : Nat) : Bytes → Array UInt8
  | [] => storage
  | b :: bs => overwrite (storage.setIfInBounds start b) (start + 1) bs

@[simp] theorem size_overwrite (storage : Array UInt8) (start : Nat) (bs : Bytes) :
    (overwrite storage start bs).size = storage.size := by
  induction bs generalizing storage start with
  | nil => rfl
  | cons b bs ih => simp [overwrite, ih]

@[simp] theorem size_append_bytes (storage : Array UInt8) (bs : Bytes) :
    (storage ++ bs).size = storage.size + bs.length := by
  simp [← Array.length_toList]

/-- The bytes of storage from a position on, at most as many as asked for. -/
def slice (storage : Array UInt8) (start count : Nat) : Bytes :=
  (storage.extract start (start + count)).toList

theorem length_slice (storage : Array UInt8) (start count : Nat) :
    (slice storage start count).length = min count (storage.size - start) := by
  simp only [slice, Array.length_toList, Array.size_extract]; omega

/-! ## What a slice shows -/

theorem slice_eq (storage : Array UInt8) (start count : Nat) :
    slice storage start count = (storage.toList.drop start).take count := by
  simp [slice, List.extract_eq_take_drop]

theorem toList_overwrite (storage : Array UInt8) (start : Nat) (bs : Bytes)
    (h : start + bs.length ≤ storage.size) :
    (overwrite storage start bs).toList =
      storage.toList.take start ++ bs ++ storage.toList.drop (start + bs.length) := by
  induction bs generalizing storage start with
  | nil => simp [overwrite]
  | cons b bs ih =>
    simp only [List.length_cons] at h
    have hs : start < storage.toList.length := by simp; omega
    have hl : start + 1 + bs.length = start + (bs.length + 1) := by omega
    have ht : (storage.toList.take start).length = start := by
      rw [List.length_take]; omega
    rw [overwrite, ih _ _ (by simp; omega), Array.toList_setIfInBounds, List.take_set,
      List.drop_set_of_lt (by omega), List.take_succ_eq_append_getElem hs,
      List.set_append_right _ _ (by omega)]
    simp [ht, hl]

/-- Bytes put over others are there. -/
theorem slice_overwrite (storage : Array UInt8) (start : Nat) (bs : Bytes)
    (h : start + bs.length ≤ storage.size) :
    slice (overwrite storage start bs) start bs.length = bs := by
  have ht : (storage.toList.take start).length = start := by
    rw [List.length_take, Array.length_toList]; omega
  rw [slice_eq, toList_overwrite _ _ _ h, List.append_assoc, List.drop_left' ht, List.take_left]

/-- Bytes in front of those that are put over others stay. -/
theorem slice_overwrite_of_le (storage : Array UInt8) {start first count : Nat} (bs : Bytes)
    (h : start + bs.length ≤ storage.size) (hf : first + count ≤ start) :
    slice (overwrite storage start bs) first count = slice storage first count := by
  have ht : (storage.toList.take start).length = start := by
    rw [List.length_take, Array.length_toList]; omega
  rw [slice_eq, slice_eq, toList_overwrite _ _ _ h, List.append_assoc,
    List.drop_append_of_le_length (by omega),
    List.take_append_of_le_length (by rw [List.length_drop, ht]; omega), List.drop_take,
    List.take_take, Nat.min_eq_left (by omega)]

theorem slice_append (storage : Array UInt8) (start m n : Nat) :
    slice storage start (m + n) = slice storage start m ++ slice storage (start + m) n := by
  rw [slice_eq, slice_eq, slice_eq, List.take_add, List.drop_drop]

theorem drop_slice (storage : Array UInt8) (start m n : Nat) :
    (slice storage start m).drop n = slice storage (start + n) (m - n) := by
  rw [slice_eq, slice_eq, List.drop_take, List.drop_drop]

end BlockSync
