import BlockSync.Proofs.Machine.Buffer
import BlockSync.Proofs.Pipe.Finite
import BlockSync.Proofs.Pipe.Output

/-!
# Runs on the machine

An engine moves a stream from a source through a program to a sink, as a pipe does with a transducer,
and counts what it does in words.

* `Program`, `Inlet`, `Outlet`: what an engine is made of; `Engine.iterate`, `Engine.complete`: what
  it does;
* `Machine.Does`: the machine does not trap, and comes to what was to be expected;
* `Program.Implements`: a program does what a transducer does, however that is stepped, as long as
  the bytes that go through it can be counted in a word;
* `Run.refill_does`, `Run.step_does`, `Run.drain_does`, `Run.iterate_does`: then an engine does what a run
  does, part by part; **`Run.complete_does`**, **`Pipe.run_does`**: and as a whole, whatever its sink;
* `Pipe.run_does_of_outlook`: how much goes through a transducer whose future is known is known as well.
-/

namespace BlockSync

open Machine

/-! ## Parts -/

/-- A program that is stepped between two buffers. -/
class Program (μ : Type) where
  step : (program : μ) → (input output : Buffer) →
    Machine (Except TransferError Status × μ × Buffer × Buffer)

/-- Sources on the machine. -/
class Inlet (σ : Type) [Source σ] where
  /-- A pull. -/
  draw : (source : σ) → (room : Nat) → Machine (Except TransferError Delivery × σ)
  /-- A source of which nothing has been pulled. -/
  ofReader : Reader → σ
  flow : σ → Flow TransferError
  /-- The numbers that a source keeps are in order. -/
  Sound : σ → Prop
  faithful : Source.Faithful fun source f => flow source = f
  draw_eq : ∀ {source : σ} {room : Nat}, Sound source → room < 2 ^ 64 →
    draw source room = .ok (Source.pull source room)
  sound_pull : ∀ {source : σ} (room : Nat), Sound source → Sound (Source.pull source room).2
  sound_ofReader : ∀ {r : Reader}, r.available < 2 ^ 64 → Sound (ofReader r)
  available_ofReader : ∀ r : Reader, Source.available (ofReader r) = r.available

/-- A source on the machine delivers its flow. -/
theorem Inlet.delivers {σ : Type} [Source σ] [Inlet σ] (source : σ) :
    Source.Delivers source (Inlet.flow source) := ⟨_, Inlet.faithful, rfl⟩

/-- Sinks on the machine. -/
class Outlet (κ : Type) [Sink κ] where
  /-- A push. -/
  send : (sink : κ) → (chunk : Bytes) → (last : Bool) → Machine (Except TransferError Unit × κ)
  /-- A sink to which nothing has been pushed. -/
  ofWriter : Writer → κ
  /-- How many chunks are counted. -/
  sent : κ → Nat
  send_eq : ∀ {sink : κ} {chunk : Bytes} (last : Bool), sent sink + 1 < 2 ^ 64 →
    send sink chunk last = .ok (Sink.push sink chunk last)
  sent_push : ∀ (sink : κ) (chunk : Bytes) (last : Bool),
    sent (Sink.push sink chunk last).2 ≤ sent sink + 1
  sent_ofWriter : ∀ w : Writer, sent (ofWriter w) = 0

/-! ## Engines -/

/-- A run on the machine. -/
structure Engine (σ μ κ : Type) where
  source : σ
  program : μ
  input : Buffer
  output : Buffer
  sink : κ
  totals : PipeTotals

namespace Engine

variable {σ μ κ : Type} [Source σ] [Inlet σ] [Program μ] [Sink κ] [Outlet κ]

/-- Ask the source for as much as there is room for, unless the stream has ended. -/
def refill (e : Engine σ μ κ) : Machine (Except TransferError Unit × Engine σ μ κ) :=
  if e.input.ended then return (.ok (), e)
  else do
    let input ← e.input.compact
    let room ← input.room
    if room = 0 then return (.ok (), { e with input := input })
    else
      let (result, source) ← Inlet.draw e.source room
      match result with
      | .error f => return (.error f, { e with source := source, input := input })
      | .ok d =>
        let pulls ← add 64 e.totals.pulls 1
        let input ← input.receive d.bytes d.count
        let pulled ← add 64 e.totals.pulled d.count
        return (.ok (), { e with
          source := source
          input := if d.ended || d.count == 0 then input.finish else input
          totals := { e.totals with pulls := pulls, pulled := pulled } })

/-- Step the program. -/
def step (e : Engine σ μ κ) : Machine (Except TransferError Status × Engine σ μ κ) := do
  let (result, program, input, output) ← Program.step e.program e.input e.output
  return (result, { e with program := program, input := input, output := output })

/-- Push what has been put out. -/
def drain (done : Bool) (e : Engine σ μ κ) : Machine (Except TransferError Unit × Engine σ μ κ) :=
  if e.output.storage.size != 0 && (done || !e.output.isEmpty) then do
    let (result, sink) ← Outlet.send e.sink (← e.output.data) done
    match result with
    | .error f => return (.error f, { e with sink := sink })
    | .ok () =>
      let pushed ← add 64 e.totals.pushed e.output.filled
      return (.ok (), { e with
        sink := sink
        output := e.output.clear
        totals := { e.totals with pushed := pushed } })
  else return (.ok (), e)

def iterate (e : Engine σ μ κ) : Machine (Except TransferError Status × Engine σ μ κ) := do
  let iterations ← add 64 e.totals.iterations 1
  let counted : Engine σ μ κ := { e with totals := { e.totals with iterations := iterations } }
  match ← counted.refill with
  | (.error f, e) => return (.error f, e)
  | (.ok (), e) =>
    match ← e.step with
    | (.error f, e) => return (.error f, e)
    | (.ok status, e) =>
      match ← e.drain (status == .done) with
      | (.error f, e) => return (.error f, e)
      | (.ok (), e) => return (.ok status, e)

/-- Iterations until the program is done or something fails. -/
def complete : Nat → Engine σ μ κ → Machine (Except TransferError PipeTotals × Engine σ μ κ)
  | 0, _ => .error .diverged
  | limit + 1, e => do
    match ← e.iterate with
    | (.error f, e) => return (.error f, e)
    | (.ok .done, e) => return (.ok e.totals, e)
    | (.ok .blocked, e) => complete limit e

/-- A run from its start, within `limit` iterations. -/
def run (capacity limit : Nat) (source : σ) (program : μ) (sink : κ) :
    Machine (Except TransferError PipeTotals × Engine σ μ κ) :=
  complete limit
    { source := source
      program := program
      input := .ofCapacity capacity
      output := .ofCapacity (if Sink.takesOutput sink then capacity else 0)
      sink := sink
      totals := .zero }

/-- One more iteration is counted. -/
def counted (e : Engine σ μ κ) : Engine σ μ κ :=
  { e with totals := { e.totals with iterations := e.totals.iterations + 1 } }

variable {e e₁ e₂ e₃ : Engine σ μ κ} {f : TransferError} (hone : e.totals.iterations + 1 < 2 ^ 64)

include hone

theorem iterate_of_refill (h : e.counted.refill = .ok (.error f, e₁)) :
    e.iterate = .ok (.error f, e₁) := by
  rw [iterate, add_of_lt hone, bind_ok]
  change (e.counted.refill >>= _) = _
  rw [h, bind_ok]
  rfl

variable (h : e.counted.refill = .ok (.ok (), e₁))

include h

theorem iterate_of_step (hs : e₁.step = .ok (.error f, e₂)) : e.iterate = .ok (.error f, e₂) := by
  rw [iterate, add_of_lt hone, bind_ok]
  change (e.counted.refill >>= _) = _
  rw [h, bind_ok]
  change (e₁.step >>= _) = _
  rw [hs, bind_ok]
  rfl

theorem iterate_of_drain {status : Status} {result : Except TransferError Unit}
    (hs : e₁.step = .ok (.ok status, e₂)) (hd : e₂.drain (status == .done) = .ok (result, e₃)) :
    e.iterate = .ok (result.map fun _ => status, e₃) := by
  rw [iterate, add_of_lt hone, bind_ok]
  change (e.counted.refill >>= _) = _
  rw [h, bind_ok]
  change (e₁.step >>= _) = _
  rw [hs, bind_ok]
  change (e₂.drain (status == .done) >>= _) = _
  rw [hd, bind_ok]
  cases result <;> rfl

end Engine

/-! ## What was to be expected -/

/-- The machine does not trap, and comes to what was to be expected: to a transfer error where that
fails, and otherwise to the same; and what is left behind is on the machine what was to be left. -/
def Machine.Does {α γ δ : Type} (onto : γ → δ) (m : Machine (Except TransferError α × δ))
    (p : Except Failure α × γ) : Prop :=
  ∃ result, m = .ok (result, onto p.2) ∧ p.1 = result.mapError .error

namespace Machine.Does

variable {α γ δ : Type} {onto : γ → δ} {m : Machine (Except TransferError α × δ)} {c : γ}

theorem ok {a : α} (h : Does onto m (.ok a, c)) : m = .ok (.ok a, onto c) := by
  obtain ⟨error | a', rfl, heq⟩ := h
  · cases heq
  · cases heq
    rfl

theorem error {f : Failure} (h : Does onto m (.error f, c)) :
    ∃ e, m = .ok (.error e, onto c) ∧ f = .error e := by
  obtain ⟨error | a', rfl, heq⟩ := h
  · cases heq
    exact ⟨error, rfl, rfl⟩
  · cases heq

end Machine.Does

section

variable {σ τ μ κ ω ρ : Type} (repr : τ → μ) (watch : ω → Event → ω)

/-- A run on the machine, where a transducer is a program. -/
def Run.engine (r : Run σ τ κ ω) : Engine σ μ κ :=
  ⟨r.source, repr r.bench.state, r.bench.input.buffer, r.bench.output.buffer, r.sink, r.totals⟩

variable [Source σ] [Inlet σ] {r : Run σ τ κ ω}

theorem Run.refill_does (hcap : r.bench.input.capacity < 2 ^ 64) (hs : Inlet.Sound r.source)
    (hpulls : r.totals.pulls + 1 < 2 ^ 64)
    (hpulled : ∀ r', r.refill watch = (.ok (), r') → r'.totals.pulled < 2 ^ 64) :
    Does (Run.engine repr) (r.engine repr).refill (r.refill watch) := by
  obtain ⟨source, ⟨state, input, output⟩, sink, totals, watcher⟩ := r
  simp only [refill] at hpulled ⊢
  by_cases hend : input.ended = true
  · rw [if_pos hend]
    exact ⟨.ok (), if_pos hend, rfl⟩
  · have hcap' : input.realign.capacity < 2 ^ 64 := by
      rw [Queue.capacity_realign]
      exact hcap
    rw [if_neg hend] at hpulled ⊢
    have hrefill : (engine repr ⟨source, ⟨state, input, output⟩, sink, totals, watcher⟩).refill = _ :=
      if_neg hend
    simp only [engine, Queue.buffer_compact hcap, bind_ok, Queue.buffer_room] at hrefill
    unfold Does
    simp only [engine, hrefill]
    by_cases hroom : input.realign.room = 0
    · rw [if_pos hroom, if_pos hroom]
      exact ⟨.ok (), rfl, rfl⟩
    · rw [if_neg hroom] at hpulled
      rw [if_neg hroom, if_neg hroom]
      have hlt : input.realign.room < 2 ^ 64 := by
        have := input.realign.room_add_length
        omega
      have hpull := Inlet.faithful.pull (rfl : Inlet.flow source = _) (Nat.pos_of_ne_zero hroom)
      rw [Inlet.draw_eq hs hlt, bind_ok]
      rcases hp : Source.pull source input.realign.room with ⟨e | d, source'⟩ <;>
        rw [hp] at hpull hpulled
      · exact ⟨.error e, rfl, rfl⟩
      · obtain ⟨hcount, hle, -⟩ := hpull
        rw [hcount] at hle
        have hhold := Queue.hold_preload_eq hle
        have hreceive := Queue.buffer_receive hcap' hle
        rw [← hcount] at hhold hreceive
        simp only [hhold] at hpulled ⊢
        simp only [add_of_lt hpulls, hreceive, bind_ok, add_of_lt (hpulled _ rfl)]
        refine ⟨.ok (), ?_, rfl⟩
        cases d.ended || d.count == 0 <;> rfl

omit [Source σ] [Inlet σ] in
theorem Run.drain_does [Sink κ] [Outlet κ] (hcap : r.bench.output.capacity < 2 ^ 64)
    (hsent : Outlet.sent r.sink + 1 < 2 ^ 64)
    (hpushed : r.totals.pushed + r.bench.output.content.length < 2 ^ 64) (done : Bool) :
    Does (Run.engine repr) ((r.engine repr).drain done) (r.drain watch done) := by
  obtain ⟨source, ⟨state, input, output⟩, sink, totals, watcher⟩ := r
  rw [Queue.length_content] at hpushed
  simp only [drain]
  by_cases hc : (output.capacity != 0 && (done || !output.isEmpty)) = true
  · rw [if_pos hc]
    have hdrain : (engine repr ⟨source, ⟨state, input, output⟩, sink, totals, watcher⟩).drain done = _ :=
      if_pos hc
    simp only [engine, Queue.buffer_data hcap, bind_ok, Outlet.send_eq done hsent] at hdrain
    unfold Does
    simp only [engine, hdrain]
    rcases Sink.push sink output.content done with ⟨f | ⟨⟩, sink'⟩
    · exact ⟨.error f, rfl, rfl⟩
    · simp only [Queue.filled_buffer, add_of_lt hpushed]
      exact ⟨.ok (), rfl, rfl⟩
  · rw [if_neg hc]
    exact ⟨.ok (), if_neg hc, rfl⟩

omit [Source σ] [Inlet σ] in
theorem Run.step_does [Program μ] [Transducer τ]
    (h : Does (fun c : Bench τ => (repr c.state, c.input.buffer, c.output.buffer))
      (Program.step (repr r.bench.state) r.bench.input.buffer r.bench.output.buffer)
      (Transducer.step r.bench)) :
    Does (Run.engine repr) (r.engine repr).step (r.step watch) := by
  obtain ⟨result, hm, hr⟩ := h
  refine ⟨result, ?_, hr⟩
  rw [Engine.step]
  change (Program.step (repr r.bench.state) r.bench.input.buffer r.bench.output.buffer >>= _) = _
  rw [hm, bind_ok]
  rfl

/-! ## Iterations -/

/-- A program does what a transducer does in any step of any schedule, as long as the bytes that go
through it can be counted. -/
structure Program.Implements [Program μ] [Transducer τ] (start : τ) : Prop where
  step : ∀ {fed taken : Bytes} {b : Bench τ}, Schedule start fed taken (.ok .blocked) b →
    b.input.capacity ≤ framePayloadLimit → b.output.capacity ≤ framePayloadLimit →
    fed.length < 2 ^ 64 → (taken ++ (Transducer.step b).2.output.content).length < 2 ^ 64 →
    Does (fun c : Bench τ => (repr c.state, c.input.buffer, c.output.buffer))
      (Program.step (repr b.state) b.input.buffer b.output.buffer) (Transducer.step b)

namespace Run

variable [Transducer τ] [Sink κ] [Outlet κ] {start : τ} {takes : Bool} {whole : Flow TransferError}
  {fed taken : Bytes} {r' : Run σ τ κ ω}

/-- The numbers of a run are in order: no more was counted than there were iterations, and its queues
fit a frame. -/
structure Counted (r : Run σ τ κ ω) : Prop where
  pulls : r.totals.pulls ≤ r.totals.iterations
  sent : Outlet.sent r.sink ≤ r.totals.iterations
  sound : Inlet.Sound r.source
  inputFits : r.bench.input.capacity ≤ framePayloadLimit
  outputFits : r.bench.output.capacity ≤ framePayloadLimit

omit [Transducer τ] in
/-- At most one pull is counted in a refill. -/
theorem Counted.refill {result : Except Failure Unit} (h : r.Counted)
    (hr : r.counted.refill watch = (result, r')) :
    r'.Counted ∧ Outlet.sent r'.sink ≤ r.totals.iterations ∧
      r'.totals.iterations = r.totals.iterations + 1 := by
  obtain ⟨source, ⟨state, input, output⟩, sink, totals, watcher⟩ := r
  obtain ⟨hpulls, hsent, hs, hin, hout⟩ := h
  have hpulls' : totals.pulls ≤ totals.iterations + 1 := Nat.le_succ_of_le hpulls
  have hsent' : Outlet.sent sink ≤ totals.iterations + 1 := Nat.le_succ_of_le hsent
  have hcap : input.realign.capacity ≤ framePayloadLimit := by
    rw [Queue.capacity_realign]
    exact hin
  dsimp only [counted] at hr
  simp only [Run.refill] at hr
  by_cases hend : input.ended = true
  · rw [if_pos hend] at hr
    cases hr
    exact ⟨⟨hpulls', hsent', hs, hin, hout⟩, hsent, rfl⟩
  · rw [if_neg hend] at hr
    by_cases hroom : input.realign.room = 0
    · rw [if_pos hroom] at hr
      cases hr
      exact ⟨⟨hpulls', hsent', hs, hcap, hout⟩, hsent, rfl⟩
    · rw [if_neg hroom] at hr
      have hsound := Inlet.sound_pull input.realign.room hs
      have hpull := Inlet.faithful.pull (rfl : Inlet.flow source = _) (Nat.pos_of_ne_zero hroom)
      rcases hp : Source.pull source input.realign.room with ⟨e | d, source'⟩ <;>
        rw [hp] at hr hsound hpull
      · cases hr
        exact ⟨⟨hpulls', hsent', hsound, hcap, hout⟩, hsent, rfl⟩
      · obtain ⟨hcount, hle, -⟩ := hpull
        rw [hcount] at hle
        have hhold := Queue.hold_preload_eq hle
        rw [← hcount] at hhold
        simp only [hhold] at hr
        cases hr
        refine ⟨⟨Nat.succ_le_succ hpulls, hsent', hsound, ?_, hout⟩, hsent, rfl⟩
        rw [← Queue.capacity_append input.realign d.bytes] at hcap
        cases d.ended || d.count == 0 <;> exact hcap

omit [Source σ] [Inlet σ] [Transducer τ] in
/-- At most one push is counted behind a step. -/
theorem sent_drain (r : Run σ τ κ ω) (done : Bool) :
    Outlet.sent (r.drain watch done).2.sink ≤ Outlet.sent r.sink + 1 := by
  obtain ⟨source, ⟨state, input, output⟩, sink, totals, watcher⟩ := r
  simp only [drain]
  split
  · have hsent := Outlet.sent_push sink output.content done
    rcases hpush : Sink.push sink output.content done with ⟨f | ⟨⟩, sink'⟩ <;> rw [hpush] at hsent <;>
      exact hsent
  · exact Nat.le_succ _

/-- The numbers of a run stay in order. -/
theorem Counted.iterate (ho : Transducer.Orderly τ) (h : r.Counted)
    (hr : r.iterate watch = (.ok .blocked, r')) : r'.Counted := by
  rw [iterate_eq] at hr
  rcases hrefill : r.counted.refill watch with ⟨f | ⟨⟩, r₁⟩ <;> rw [hrefill] at hr
  · cases hr
  obtain ⟨h₁, hsent, hiterations⟩ := h.refill watch hrefill
  have hin := ho.input r₁.bench
  have hout := ho.output r₁.bench
  rcases hstep : Transducer.step r₁.bench with ⟨f | status, c⟩ <;> rw [hstep] at hin hout <;>
    simp only [step, hstep] at hr
  · cases hr
  generalize watch (watch r₁.watcher _) _ = watcher at hr
  let r₂ : Run σ τ κ ω := ⟨r₁.source, c, r₁.sink, r₁.totals, watcher⟩
  have hdrain := r₂.drain_drained watch (status == .done)
  have hpush := r₂.sent_drain watch (status == .done)
  rcases hd : r₂.drain watch (status == .done) with ⟨f | ⟨⟩, r₃⟩ <;> rw [hd] at hr hdrain hpush <;>
    cases hr
  refine ⟨?_, ?_, ?_, ?_, ?_⟩
  · rw [hdrain.totals]
    exact h₁.pulls
  · rw [hdrain.totals]
    exact Nat.le_trans hpush (Nat.le_trans (Nat.succ_le_succ hsent) (Nat.le_of_eq hiterations.symm))
  · rw [hdrain.source]
    exact h₁.sound
  · rw [hdrain.input]
    exact Nat.le_trans (Nat.le_of_eq hin.capacity) h₁.inputFits
  · rw [hdrain.outputCapacity]
    exact Nat.le_trans (Nat.le_of_eq hout.capacity) h₁.outputFits

variable {Due : Bench τ → Nat → Nat → Prop} {Owes : Bench τ → Prop} {n d : Nat}

/-- **An engine does in an iteration what a run does**, if the bytes that it has moved by then can be
counted, and two more. -/
theorem iterate_does (ho : Transducer.Orderly τ) [Program μ] (hi : Program.Implements repr start)
    (h : Tracked (fun source f => Inlet.flow source = f) takes start whole r fed taken)
    (hc : r.Counted) (hg : r.totals.iterations ≤ r.gained)
    (hfits : whole.bytes.length + (r.iterate watch).2.made + 2 < 2 ^ 64) :
    Does (engine repr) (r.engine repr).iterate (r.iterate watch) := by
  have hlimit : framePayloadLimit < 2 ^ 64 := by decide
  have hone : r.totals.iterations + 1 < 2 ^ 64 := by
    obtain ⟨rest, hwhole, -⟩ := h.exists_rest
    have hpulled : r.totals.pulled ≤ whole.bytes.length := by
      rw [h.pulled, hwhole]
      exact (List.prefix_append _ _).length_le
    have hpushed := Nat.le_trans (Nat.le_add_right _ _) (r.made_le_iterate watch ho)
    have hended := Bool.toNat_le r.bench.input.ended
    simp only [gained] at hg
    omega
  have hrefill : Does (engine repr) (r.counted.engine repr).refill (r.counted.refill watch) := by
    refine refill_does repr watch (Nat.lt_of_le_of_lt hc.inputFits hlimit) hc.sound ?_ fun r' hr => ?_
    · exact Nat.lt_of_le_of_lt (Nat.succ_le_succ hc.pulls) hone
    · obtain ⟨more, h₁⟩ := h.refill watch Inlet.faithful hr
      obtain ⟨rest, hwhole, -⟩ := h₁.exists_rest
      rw [hwhole, List.length_append] at hfits
      rw [h₁.pulled]
      omega
  rcases hr : r.counted.refill watch with ⟨f | ⟨⟩, r₁⟩ <;> rw [hr] at hrefill
  · rw [iterate_eq, hr]
    obtain ⟨e, hm, rfl⟩ := hrefill.error
    exact ⟨.error e, Engine.iterate_of_refill hone hm, rfl⟩
  · obtain ⟨more, h₁⟩ := h.refill watch Inlet.faithful hr
    obtain ⟨hc₁, hsent, -⟩ := hc.refill watch hr
    obtain ⟨rest, hwhole, -⟩ := h₁.exists_rest
    have hm := hrefill.ok
    have hcap := (ho.output r₁.bench).capacity
    rw [made_iterate_of_ok watch hr, hwhole, List.length_append] at hfits
    have hdoes : Does (engine repr) (r₁.engine repr).step (r₁.step watch) := by
      refine step_does repr watch (hi.step h₁.schedule hc₁.inputFits hc₁.outputFits ?_ ?_)
      · omega
      · rw [List.length_append, ← h₁.pushed]
        omega
    rw [iterate_eq, hr]
    rcases hstep : Transducer.step r₁.bench with ⟨result, c⟩
    rw [hstep] at hfits hcap
    simp only [step, hstep] at hdoes ⊢
    cases result with
    | error f =>
      obtain ⟨e, hs, rfl⟩ := hdoes.error
      exact ⟨.error e, Engine.iterate_of_step hone hm hs, rfl⟩
    | ok status =>
      generalize watch (watch r₁.watcher _) _ = watcher at hdoes ⊢
      have hs := hdoes.ok
      have hout : c.output.capacity < 2 ^ 64 := by
        rw [hcap]
        exact Nat.lt_of_le_of_lt hc₁.outputFits hlimit
      have hpushed : r₁.totals.pushed + c.output.content.length < 2 ^ 64 := by
        dsimp only at hfits
        omega
      have hdrain := drain_does repr watch (r := ⟨r₁.source, c, r₁.sink, r₁.totals, watcher⟩) hout
        (Nat.lt_of_le_of_lt (Nat.succ_le_succ hsent) hone) hpushed (status == .done)
      rcases hd : drain watch (status == .done) (⟨r₁.source, c, r₁.sink, r₁.totals, watcher⟩ :
        Run σ τ κ ω) with ⟨f | ⟨⟩, r₃⟩ <;> rw [hd] at hdrain
      · obtain ⟨e, hpush, rfl⟩ := hdrain.error
        have hiter := Engine.iterate_of_drain (e := r.engine repr) hone hm hs hpush
        simp only [hd]
        exact ⟨.error e, hiter, rfl⟩
      · have hiter := Engine.iterate_of_drain (e := r.engine repr) hone hm hs hdrain.ok
        simp only [hd]
        exact ⟨.ok status, hiter, rfl⟩

/-- **An engine does what a run does** that has only so much before it, if the bytes that it moves can
be counted in a word, and two more. -/
theorem complete_does (ht : Transducer.Thrifty Due Owes) (ho : Transducer.Orderly τ) [Program μ]
    (hi : Program.Implements repr start)
    (h : Tracked (fun source f => Inlet.flow source = f) takes start whole r fed taken)
    (hc : r.Counted) (ha : r.Awaits Due Owes n d) (hg : r.totals.iterations ≤ r.gained) {limit : Nat}
    (hl : n + d + (1 - r.bench.input.ended.toNat) < limit)
    (hfits : whole.bytes.length + (r.complete watch limit).2.made + 2 < 2 ^ 64) :
    Does (engine repr) ((r.engine repr).complete limit) (r.complete watch limit) := by
  -- on the iterations that are left: `hl` says that all that is before the run fits into them
  induction limit generalizing r fed taken n d with
  | zero => omega
  | succ limit ih =>
    have hmade := r.made_iterate_le_complete watch ho limit
    have hdoes := iterate_does repr watch ho hi h hc hg (by omega)
    have hleads := ha.iterate watch ht ho
    rw [complete] at hfits ⊢
    rw [Engine.complete]
    rcases hr : r.iterate watch with ⟨f | _ | _, s⟩ <;> rw [hr] at hdoes hleads hfits
    · obtain ⟨e, hm, rfl⟩ := hdoes.error
      rw [hm, bind_ok]
      exact ⟨.error e, rfl, rfl⟩
    · rw [hdoes.ok, bind_ok]
      obtain ⟨honward, hgained, n', d', hs, hsum⟩ := hleads
      obtain ⟨fed', taken', h'⟩ := h.iterate watch Inlet.faithful ho hr
      have hiterations := honward.iterations
      have hpulled := honward.pulled
      have hended := honward.toNat_le
      have hpushed := honward.pushed
      have hbool := Bool.toNat_le s.bench.input.ended
      refine ih h' (hc.iterate watch ho hr) hs (by omega) ?_ hfits
      simp only [gained] at hgained
      omega
    · rw [hdoes.ok, bind_ok]
      exact ⟨.ok s.totals, rfl, rfl⟩

end Run

namespace Pipe

variable [Transducer τ] [Program μ] [Sink κ] [Outlet κ] {Owes : Bench τ → Prop} {start : τ}
  {source : σ} {sink : κ} {bound : Nat}

/-- An engine does what a pipe does from its start, whatever comes of that. -/
theorem run_does {Due : Bench τ → Nat → Nat → Prop} (ht : Transducer.Thrifty Due Owes)
    (ho : Transducer.Orderly τ) (hi : Program.Implements repr start) (hsound : Inlet.Sound source)
    (hsent : Outlet.sent sink = 0) (htakes : Sink.takesOutput sink = true ∨ ∀ b, ¬ Owes b)
    (hd : ∀ input output : Queue, input.content = [] →
      Due ⟨start, input, output⟩ (Inlet.flow source).bytes.length bound) (p : Pipe)
    (hfits : Source.available source +
      (p.run (iterationsFor (Source.available source) bound) source start sink).2.made + 2 < 2 ^ 64) :
    Does (Run.engine repr)
      (Engine.run p.capacity (iterationsFor (Source.available source) bound) source (repr start) sink)
      (p.run (iterationsFor (Source.available source) bound) source start sink) := by
  have havail := (Inlet.delivers source).available
  have htracked : (p.begin source start sink ()).Tracked (fun source f => Inlet.flow source = f)
      (Sink.takesOutput sink) start (Inlet.flow source) [] [] :=
    p.tracked_begin (fun source f => Inlet.flow source = f) rfl sink ()
  have hcounted : (p.begin source start sink ()).Counted := by
    refine ⟨Nat.le_refl _, Nat.le_of_eq hsent, hsound, ?_, ?_⟩
    · exact Nat.le_trans (Nat.le_of_eq (Queue.capacity_ofCapacity _)) p.capacity_le
    · refine Nat.le_trans (Nat.le_of_eq (Queue.capacity_ofCapacity _)) ?_
      split
      · exact p.capacity_le
      · exact Nat.zero_le _
  have hawaits := p.awaits_begin (Inlet.delivers source).atMost hd htakes ()
  refine Run.complete_does repr _ ht ho hi htracked hcounted hawaits (Nat.zero_le _) ?_ ?_
  · simp only [iterationsFor]
    omega
  · exact Nat.lt_of_le_of_lt (Nat.add_le_add_right (Nat.add_le_add_right havail _) 2) hfits

/-- An engine does what a pipe does with a transducer whose future is known. -/
theorem run_does_of_outlook {o : Outlook τ ρ} (ho : o.Sound) (hp : o.Prompt Owes)
    (hr : ∀ t rest f, (o.future t rest).refused f → ∃ e, f = .error e) (ht : o.Tells start)
    (horderly : Transducer.Orderly τ) (hi : Program.Implements repr start)
    (hsound : Inlet.Sound source) (hsent : Outlet.sent sink = 0)
    (htakes : Sink.takesOutput sink = true ∨ ∀ b, ¬ Owes b)
    (hb : ∀ rest : Bytes, rest.length ≤ Source.available source →
      (o.future start rest).output.length ≤ bound)
    (hfits : Source.available source +
      (o.future start (Inlet.flow source).bytes).output.length + 2 < 2 ^ 64) (p : Pipe) :
    Does (Run.engine repr)
      (Engine.run p.capacity (iterationsFor (Source.available source) bound) source (repr start) sink)
      (p.run (iterationsFor (Source.available source) bound) source start sink) := by
  have havail := (Inlet.delivers source).available
  have hmade := ho.made_le ht (p.makes_of_run horderly (Inlet.delivers source)
    (iterationsFor (Source.available source) bound) sink)
  refine run_does repr (ho.thrifty hp hr) horderly hi hsound hsent htakes ?_ p (by omega)
  exact ht.due fun rest hrest => hb rest (Nat.le_trans hrest havail)

end Pipe

end

end BlockSync
