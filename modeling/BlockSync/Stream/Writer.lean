import BlockSync.Failure

/-!
# Writers

A writer collects what is written to it. It may have a limit: once that is reached every further
write fails, or takes nothing.

* `Writer.writeAll`: write a byte string completely, or as far as the writer takes it;
* `Writer.flush`: pass on what has been written.
-/

namespace BlockSync

/-- A writer and what it has taken. -/
structure Writer where
  written : Array UInt8 := #[]
  /-- How many times it was flushed. -/
  flushes : Nat := 0
  /-- How many bytes it takes in all, if there is a limit. -/
  limit : Option Nat := none
  /-- How a write fails when the limit is reached; without it such a write takes nothing. -/
  writeFault : Option Fault := none
  /-- How flushing fails. -/
  flushFault : Option Fault := none
deriving DecidableEq, Repr, Inhabited

namespace Writer

/-- How many of `count` bytes are still taken. -/
def takes (w : Writer) (count : Nat) : Nat :=
  match w.limit with
  | none => count
  | some limit => min count (limit - w.written.size)

/-- Write a byte string; what the writer does not take is lost. -/
def writeAll (w : Writer) (bs : Bytes) : Except Fault Unit × Writer :=
  let count := w.takes bs.length
  let ⟨written, flushes, limit, writeFault, flushFault⟩ := w
  (if count = bs.length then .ok () else .error (writeFault.getD .writeZero),
    ⟨written ++ bs.take count, flushes, limit, writeFault, flushFault⟩)

/-- Pass on what has been written. -/
def flush (w : Writer) : Except Fault Unit × Writer :=
  (match w.flushFault with
    | none => .ok ()
    | some fault => .error fault,
   { w with flushes := w.flushes + 1 })

end Writer

end BlockSync
