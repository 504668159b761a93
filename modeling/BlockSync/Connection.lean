import BlockSync.Failure

/-!
# Connections

What the two sides of a transfer have to know to meet. The connection itself belongs to the
environment.

* `ConnectionOptions`: how a connection is to behave;
* `listenFirst`: the addresses that a name stands for are tried in turn.
-/

namespace BlockSync

/-- The port that is used if none is given. -/
def standardPort : UInt16 := 5612

/-- How many connections may wait while one is served. -/
def waitingLimit : Nat := 1

/-- How a connection is to behave. -/
structure ConnectionOptions where
  /-- How many seconds a read or write may take, if there is a limit. -/
  timeout : Option Nat := none
  /-- Small writes are not held back. -/
  noDelay : Bool := true
deriving DecidableEq, Repr, Inhabited

/-- Try addresses in turn until one can be listened on; the last fault counts if none can. -/
def listenFirst {α β : Type} (listen : α → Except Fault β) : List α → Except TransferError β
  | [] => .error (.argument .noAddress)
  | [a] => (listen a).mapError .io
  | a :: as => match listen a with
    | .ok b => .ok b
    | .error _ => listenFirst listen as

end BlockSync
