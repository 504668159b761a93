import BlockSync.Transducer
import BlockSync.Stream.Sink
import BlockSync.Stream.Source

/-!
# The pipe

A pipe moves a stream from a source through a transducer to a sink, by way of two queues. In every
iteration it refills the input queue, unless the stream has ended, steps the transducer once, and
pushes what that has put out. The push after the step that makes the last output is marked as last.
Nothing is tried again: the first failure ends the run.

* `Pipe`: a capacity of queues whose content fits a frame;
* `Run`: a run between two iterations;
* `Run.iterate`: one iteration, made of `Run.refill`, `Run.step` and `Run.drain`;
* `Pipe.run`: iterations until the transducer is done or something fails, at most as many as
  allowed;
* `Event`, `Pipe.watch`: what a run does, for those who want to watch it.
-/

namespace BlockSync

/-- A capacity of queues whose content fits a frame. -/
structure Pipe where
  capacity : Nat
  capacity_pos : 0 < capacity
  capacity_le : capacity ≤ framePayloadLimit
deriving DecidableEq

/-- A pipe whose queues have this capacity. -/
def Pipe.ofCapacity (capacity : Nat) : Except TransferError Pipe :=
  if h : 0 < capacity ∧ capacity ≤ framePayloadLimit then .ok ⟨capacity, h.1, h.2⟩
  else .error (.argument (.capacityOutOfRange capacity))

/-- A pipe whose queues have the capacity of a frame. -/
def Pipe.standard : Pipe := ⟨framePayloadLimit, by decide, Nat.le_refl _⟩

instance : Inhabited Pipe := ⟨Pipe.standard⟩

/-- What a run has counted. -/
structure PipeTotals where
  iterations : Nat
  pulls : Nat
  /-- Bytes pulled from the source. -/
  pulled : Nat
  /-- Bytes pushed to the sink. -/
  pushed : Nat
deriving DecidableEq, Repr

/-- Nothing has been counted. -/
def PipeTotals.zero : PipeTotals := ⟨0, 0, 0, 0⟩

instance : Inhabited PipeTotals := ⟨PipeTotals.zero⟩

/-- What a run does. -/
inductive Event where
  /-- The source was asked for at most `room` bytes. -/
  | pulled (room : Nat) (result : Except TransferError Delivery)
  /-- The transducer is about to be stepped with these queues. -/
  | stepping (input output : Queue)
  /-- The transducer has been stepped and left these queues behind. -/
  | stepped (result : Except Failure Status) (input output : Queue)
  /-- A chunk was pushed. -/
  | pushed (chunk : Bytes) (last : Bool) (result : Except TransferError Unit)

/-- A run between two iterations, and what a watcher knows of it. -/
structure Run (σ τ κ ω : Type) where
  source : σ
  bench : Bench τ
  sink : κ
  totals : PipeTotals
  watcher : ω

namespace Run

variable {σ τ κ ω : Type} [Source σ] [Transducer τ] [Sink κ] (watch : ω → Event → ω)

/-- Ask the source for as much as there is room for, unless the stream has ended. -/
def refill (r : Run σ τ κ ω) : Except Failure Unit × Run σ τ κ ω :=
  let ⟨source, ⟨state, input, output⟩, sink, totals, watcher⟩ := r
  if input.ended then (.ok (), ⟨source, ⟨state, input, output⟩, sink, totals, watcher⟩)
  else
    let input := input.realign
    let room := input.room
    if room = 0 then (.ok (), ⟨source, ⟨state, input, output⟩, sink, totals, watcher⟩)
    else
      let (result, source) := Source.pull source room
      let watcher := watch watcher (.pulled room result)
      match result with
      | .error e => (.error e, ⟨source, ⟨state, input, output⟩, sink, totals, watcher⟩)
      | .ok pulled =>
        match (input.preload pulled.bytes).hold pulled.count with
        | (.error b, input) => (.error b, ⟨source, ⟨state, input, output⟩, sink, totals, watcher⟩)
        | (.ok (), input) =>
          let totals := { totals with
            pulls := totals.pulls + 1
            pulled := totals.pulled + pulled.count }
          let input := if pulled.ended || pulled.count == 0 then input.finish else input
          (.ok (), ⟨source, ⟨state, input, output⟩, sink, totals, watcher⟩)

/-- Step the transducer. -/
def step (r : Run σ τ κ ω) : Except Failure Status × Run σ τ κ ω :=
  let ⟨source, bench, sink, totals, watcher⟩ := r
  let watcher := watch watcher (.stepping bench.input bench.output)
  let (result, bench) := Transducer.step bench
  let watcher := watch watcher (.stepped result bench.input bench.output)
  (result, ⟨source, bench, sink, totals, watcher⟩)

/-- Push what has been put out, if there is a queue for output and something to tell the sink. Whether
the sink takes output is not asked again. -/
def drain (done : Bool) (r : Run σ τ κ ω) : Except Failure Unit × Run σ τ κ ω :=
  let ⟨source, ⟨state, input, output⟩, sink, totals, watcher⟩ := r
  if output.capacity != 0 && (done || !output.isEmpty) then
    let chunk := output.content
    let (result, sink) := Sink.push sink chunk done
    let watcher := watch watcher (.pushed chunk done result)
    match result with
    | .error e => (.error e, ⟨source, ⟨state, input, output⟩, sink, totals, watcher⟩)
    | .ok () =>
      let totals := { totals with pushed := totals.pushed + output.length }
      (.ok (), ⟨source, ⟨state, input, output.clear⟩, sink, totals, watcher⟩)
  else (.ok (), ⟨source, ⟨state, input, output⟩, sink, totals, watcher⟩)

/-- One iteration. -/
def iterate (r : Run σ τ κ ω) : Except Failure Status × Run σ τ κ ω :=
  let r := { r with totals := { r.totals with iterations := r.totals.iterations + 1 } }
  match r.refill watch with
  | (.error f, r) => (.error f, r)
  | (.ok (), r) =>
    match r.step watch with
    | (.error f, r) => (.error f, r)
    | (.ok status, r) =>
      match r.drain watch (status == .done) with
      | (.error f, r) => (.error f, r)
      | (.ok (), r) => (.ok status, r)

/-- Iterations until the transducer is done or something fails, at most `limit`. -/
def complete : Nat → Run σ τ κ ω → Except Failure PipeTotals × Run σ τ κ ω
  | 0, r => (.error .unfinished, r)
  | limit + 1, r =>
    match r.iterate watch with
    | (.error f, r) => (.error f, r)
    | (.ok .done, r) => (.ok r.totals, r)
    | (.ok .blocked, r) => complete limit r

end Run

namespace Pipe

/-- How many iterations suffice for a transducer that makes at most `output` bytes of `input` bytes:
each but the last pulls a byte, notices the end, or pushes a byte. -/
def iterationsFor (input output : Nat) : Nat := input + output + 2

variable {σ τ κ ω : Type} [Source σ] [Transducer τ] [Sink κ]

/-- A run before its first iteration. A sink that takes no output gets no output queue. -/
def begin (p : Pipe) (source : σ) (state : τ) (sink : κ) (watcher : ω) : Run σ τ κ ω where
  source := source
  bench :=
    { state := state
      input := .ofCapacity p.capacity
      output := .ofCapacity (if Sink.takesOutput sink then p.capacity else 0) }
  sink := sink
  totals := .zero
  watcher := watcher

/-- Run a transducer to its end, within `limit` iterations, under the eyes of a watcher. -/
def watch (p : Pipe) (look : ω → Event → ω) (watcher : ω) (limit : Nat)
    (source : σ) (state : τ) (sink : κ) : Except Failure PipeTotals × Run σ τ κ ω :=
  (p.begin source state sink watcher).complete look limit

/-- Run a transducer to its end, within `limit` iterations. -/
def run (p : Pipe) (limit : Nat) (source : σ) (state : τ) (sink : κ) :
    Except Failure PipeTotals × Run σ τ κ Unit :=
  p.watch (fun w _ => w) () limit source state sink

end Pipe

end BlockSync
