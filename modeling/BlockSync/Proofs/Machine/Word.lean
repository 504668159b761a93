import Mathlib
import BlockSync.Failure
import BlockSync.Storage

/-!
# The machine

On a machine numbers are words, and what it is asked to do with them or with storage it may be unable
to do. Then it traps: the program is lost, whatever its error handling. A program written for the
machine asks for every sum, difference, product, narrowing and range that it needs.

* `Trap`: why a program is lost; `Machine`: what a program comes to, or its trap;
* `Machine.add`, `Machine.mul`, `Machine.sub`, `Machine.narrow`, `Machine.atMost`: words;
* `Machine.part`, `Machine.number`, `Machine.within`, `Machine.range`, `Machine.fetch`, `Machine.put`:
  byte strings and storage;
* `add_of_lt` and the like: what the machine gives if it does not trap.
-/

namespace BlockSync

/-- Why a program is lost. -/
inductive Trap where
  /-- A range is not within what it selects from. -/
  | outOfRange (first last size : Nat)
  /-- A sum or a product does not fit a word. -/
  | overflow (bits value : Nat)
  /-- A difference is below zero. -/
  | underflow (whole amount : Nat)
  /-- A number loses bits when it is narrowed. -/
  | lostBits (bits value : Nat)
  /-- An assertion fails. -/
  | breach (cause : Breach)
  /-- A loop goes on for longer than it could. -/
  | diverged
deriving DecidableEq, Repr

/-- What a program comes to, unless it is lost. -/
abbrev Machine (α : Type) : Type := Except Trap α

namespace Machine

variable {α β : Type}

@[simp] theorem bind_ok (a : α) (f : α → Machine β) : (Except.ok a >>= f) = f a := rfl

@[simp] theorem pure_eq (a : α) : (pure a : Machine α) = .ok a := rfl

/-! ## Words -/

/-- A number that has to fit a word. -/
def fit (bits n : Nat) : Machine Nat := if n < 2 ^ bits then .ok n else .error (.overflow bits n)

def add (bits a b : Nat) : Machine Nat := fit bits (a + b)

def mul (bits a b : Nat) : Machine Nat := fit bits (a * b)

def sub (a b : Nat) : Machine Nat := if b ≤ a then .ok (a - b) else .error (.underflow a b)

/-- A number in a narrower word. -/
def narrow (bits n : Nat) : Machine Nat :=
  if n < 2 ^ bits then .ok n else .error (.lostBits bits n)

/-- The assertion that a number is at most another one. -/
def atMost (n bound : Nat) (cause : Breach) : Machine Unit :=
  if n ≤ bound then .ok () else .error (.breach cause)

theorem add_of_lt {bits a b : Nat} (h : a + b < 2 ^ bits) : add bits a b = .ok (a + b) := if_pos h

theorem mul_of_lt {bits a b : Nat} (h : a * b < 2 ^ bits) : mul bits a b = .ok (a * b) := if_pos h

theorem sub_of_le {a b : Nat} (h : b ≤ a) : sub a b = .ok (a - b) := if_pos h

theorem narrow_of_lt {bits n : Nat} (h : n < 2 ^ bits) : narrow bits n = .ok n := if_pos h

theorem atMost_of_le {n bound : Nat} (cause : Breach) (h : n ≤ bound) : atMost n bound cause = .ok () :=
  if_pos h

theorem atMost_of_lt {n bound : Nat} (cause : Breach) (h : bound < n) :
    atMost n bound cause = .error (.breach cause) := if_neg (Nat.not_le.mpr h)

/-! ## Byte strings and storage -/

/-- The bytes between two positions. -/
def part (bs : Bytes) (first last : Nat) : Machine Bytes :=
  if first ≤ last ∧ last ≤ bs.length then .ok ((bs.drop first).take (last - first))
  else .error (.outOfRange first last bs.length)

/-- The number in the first bytes, most significant first. -/
def number (width : Nat) (bs : Bytes) : Machine Nat := do
  let front ← part bs 0 width
  return BigEndian.decode front

/-- The room up to a position is there. -/
def within (last size : Nat) : Machine Unit :=
  if last ≤ size then .ok () else .error (.outOfRange 0 last size)

/-- The bytes of storage between two positions. -/
def range (storage : Array UInt8) (first last : Nat) : Machine Bytes :=
  if first ≤ last ∧ last ≤ storage.size then .ok (slice storage first (last - first))
  else .error (.outOfRange first last storage.size)

/-- What is at a position. -/
def fetch (storage : Array α) (i : Nat) : Machine α :=
  if h : i < storage.size then .ok storage[i] else .error (.outOfRange i (i + 1) storage.size)

/-- Put bytes over all those between two positions. -/
def put (storage : Array UInt8) (first : Nat) (bs : Bytes) : Machine (Array UInt8) :=
  if first + bs.length ≤ storage.size then .ok (overwrite storage first bs)
  else .error (.outOfRange first (first + bs.length) storage.size)

theorem part_of_le {bs : Bytes} {first last : Nat} (h : first ≤ last) (hl : last ≤ bs.length) :
    part bs first last = .ok ((bs.drop first).take (last - first)) := if_pos ⟨h, hl⟩

/-- The front of a byte string. -/
theorem part_zero {bs : Bytes} {count : Nat} (h : count ≤ bs.length) :
    part bs 0 count = .ok (bs.take count) := by
  rw [part_of_le (Nat.zero_le _) h, List.drop_zero, Nat.sub_zero]

theorem number_of_le {width : Nat} {bs : Bytes} (h : width ≤ bs.length) :
    number width bs = .ok (BigEndian.decode (bs.take width)) := by
  rw [number, part_zero h]
  rfl

/-- The back of a byte string. -/
theorem part_length {bs : Bytes} {first : Nat} (h : first ≤ bs.length) :
    part bs first bs.length = .ok (bs.drop first) := by
  rw [part_of_le h (Nat.le_refl _), ← List.length_drop, List.take_length]

theorem within_of_le {last size : Nat} (h : last ≤ size) : within last size = .ok () := if_pos h

theorem range_of_le {storage : Array UInt8} {first last : Nat} (h : first ≤ last)
    (hl : last ≤ storage.size) :
    range storage first last = .ok (slice storage first (last - first)) := if_pos ⟨h, hl⟩

theorem fetch_of_lt {storage : Array α} {i : Nat} (h : i < storage.size) :
    fetch storage i = .ok storage[i] := dif_pos h

/-- Bytes that follow a position are between it and the position behind them. -/
theorem range_of_drop {storage : Array UInt8} {first : Nat} {bs rest : Bytes}
    (hle : first ≤ storage.size) (h : storage.toList.drop first = bs ++ rest) :
    range storage first (first + bs.length) = .ok bs := by
  have hl := congrArg List.length h
  rw [List.length_drop, Array.length_toList, List.length_append] at hl
  rw [range_of_le (Nat.le_add_right _ _) (by omega), slice_eq, h, Nat.add_sub_cancel_left,
    List.take_left]

theorem fetch_of_drop {storage : Array UInt8} {i : Nat} {b : UInt8} {rest : Bytes}
    (h : storage.toList.drop i = b :: rest) : fetch storage i = .ok b := by
  have hl := congrArg List.length h
  rw [List.length_drop, Array.length_toList, List.length_cons] at hl
  have hi : i < storage.toList.length := by
    rw [Array.length_toList]
    omega
  rw [List.drop_eq_getElem_cons hi, List.cons.injEq] at h
  rw [fetch_of_lt (by simpa using hi), ← h.1, Array.getElem_toList]

theorem put_of_le {storage : Array UInt8} {first : Nat} {bs : Bytes}
    (h : first + bs.length ≤ storage.size) : put storage first bs = .ok (overwrite storage first bs) :=
  if_pos h

end Machine

end BlockSync
