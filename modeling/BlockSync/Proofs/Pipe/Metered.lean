import BlockSync.Proofs.Pipe
import BlockSync.Proofs.Pipe.Alike

/-!
# What a run counts at its sink

A meter in front of a sink counts the bytes that pass. It changes nothing in a run, whose own count is
that of the meter.

* `Metered`: a sink behind a meter; `Metered.faithful`: it takes what the sink takes;
* `Run.Read`, `Run.read_complete`: the count of a run is the reading of the meter;
* **`Pipe.pushed_of_run`**: a run that succeeds has counted the bytes that its transducer puts out.
-/

namespace BlockSync

variable {σ τ κ ω ρ : Type}

/-- A sink behind a meter. -/
structure Metered (κ : Type) where
  sink : κ
  /-- The bytes that were pushed and taken. -/
  reading : Nat

namespace Metered

/-- A chunk passes the meter if the sink takes it. -/
def push [Sink κ] (m : Metered κ) (chunk : Bytes) (last : Bool) :
    Except TransferError Unit × Metered κ :=
  match Sink.push m.sink chunk last with
  | (.error e, sink) => (.error e, ⟨sink, m.reading⟩)
  | (.ok (), sink) => (.ok (), ⟨sink, m.reading + chunk.length⟩)

instance [Sink κ] : Sink (Metered κ) where
  push := Metered.push
  takesOutput m := Sink.takesOutput m.sink

variable [Sink κ]

/-- The sink does not notice the meter. -/
theorem alike : Sink.Alike (Metered.sink (κ := κ)) fun _ => True where
  takesOutput _ := rfl
  push m chunk last _ := by
    change _ = ((m.push chunk last).1, (m.push chunk last).2.sink)
    unfold Metered.push
    rcases Sink.push m.sink chunk last with ⟨e | ⟨⟩, sink⟩ <;> rfl

theorem faithful {Holds : κ → Bytes → Bool → Prop} {takes : Bool} {limit : Nat}
    (h : Sink.Faithful Holds takes limit) :
    Sink.Faithful (fun (m : Metered κ) bs ended => Holds m.sink bs ended ∧ m.reading = bs.length)
      takes limit where
  takesOutput hm := h.takesOutput hm.1
  push {m bs} htakes hm chunk hchunk last := by
    obtain ⟨sink, hpush, hsink⟩ := h.push htakes hm.1 hchunk last
    refine ⟨⟨sink, m.reading + chunk.length⟩, ?_, hsink, ?_⟩
    · change m.push chunk last = _
      rw [Metered.push, hpush]
    · rw [hm.2, List.length_append]

end Metered

/-! ## The meter of a run -/

namespace Run

variable [Sink κ] (watch : ω → Event → ω)

/-- The meter shows what the run has counted. -/
def Read (r : Run σ τ (Metered κ) ω) : Prop := r.sink.reading = r.totals.pushed

omit [Sink κ] in
theorem read_refill [Source σ] {r : Run σ τ (Metered κ) ω} (h : r.Read) : (r.refill watch).2.Read := by
  obtain ⟨source, ⟨state, input, output⟩, sink, totals, watcher⟩ := r
  simp only [refill]
  split
  · exact h
  · split
    · exact h
    · rcases Source.pull source input.realign.room with ⟨e | d, source'⟩
      · exact h
      · dsimp only
        rcases (input.realign.preload d.bytes).hold d.count with ⟨b | ⟨⟩, q⟩ <;> exact h

theorem read_drain {r : Run σ τ (Metered κ) ω} (h : r.Read) (done : Bool) :
    (r.drain watch done).2.Read := by
  obtain ⟨source, ⟨state, input, output⟩, ⟨sink, reading⟩, totals, watcher⟩ := r
  have hreading : reading = totals.pushed := h
  simp only [drain]
  split
  · have hpush : Sink.push (⟨sink, reading⟩ : Metered κ) output.content done =
        Metered.push ⟨sink, reading⟩ output.content done := rfl
    rw [hpush, Metered.push]
    rcases Sink.push sink output.content done with ⟨e | ⟨⟩, sink'⟩
    · exact h
    · change reading + output.content.length = totals.pushed + output.length
      rw [hreading, Queue.length_content]
  · exact h

variable [Source σ] [Transducer τ]

theorem read_iterate {r : Run σ τ (Metered κ) ω} (h : r.Read) : (r.iterate watch).2.Read := by
  have hrefill := read_refill watch (r := r.counted) h
  rw [iterate_eq]
  rcases hr₁ : r.counted.refill watch with ⟨e | ⟨⟩, r₁⟩ <;> rw [hr₁] at hrefill
  · exact hrefill
  have hstep : (r₁.step watch).2.Read := hrefill
  dsimp only
  rcases hr₂ : r₁.step watch with ⟨e | status, r₂⟩ <;> rw [hr₂] at hstep
  · exact hstep
  have hdrain := read_drain watch hstep (status == .done)
  dsimp only
  rcases hr₃ : r₂.drain watch (status == .done) with ⟨e | ⟨⟩, r₃⟩ <;> rw [hr₃] at hdrain <;>
    exact hdrain

/-- A run that succeeds has counted what the meter shows. -/
theorem read_complete {r r' : Run σ τ (Metered κ) ω} (h : r.Read) {limit : Nat} {totals : PipeTotals}
    (hr : r.complete watch limit = (.ok totals, r')) : r'.sink.reading = totals.pushed := by
  induction limit generalizing r with
  | zero => cases hr
  | succ limit ih =>
    have hit := read_iterate watch h
    rw [complete] at hr
    rcases hi : r.iterate watch with ⟨e | status, r₁⟩ <;> rw [hi] at hr hit
    · cases hr
    · cases status with
      | blocked => exact ih hit hr
      | done =>
        cases hr
        exact hit

end Run

/-- **A run that succeeds has counted the bytes that its transducer puts out**, if it may take enough
iterations. -/
theorem Pipe.pushed_of_run [Source σ] [Transducer τ] [Sink κ] {o : Outlook τ ρ}
    {Owes : Bench τ → Prop} {start : τ} {whole : Flow TransferError} {source : σ} {sink : κ}
    {Taken : κ → Bytes → Bool → Prop} (ho : o.Sound) (ht : o.Tells start) (hp : o.Prompt Owes)
    (hsink : Sink.Faithful Taken true framePayloadLimit) (hs : Source.Delivers source whole)
    (hk : Taken sink [] false) (p : Pipe) {limit : Nat}
    (hl : iterationsFor whole.bytes.length (o.future start whole.bytes).output.length ≤ limit)
    {totals : PipeTotals} {r : Run σ τ κ Unit}
    (hr : p.run limit source start sink = (.ok totals, r)) :
    totals.pushed = (o.future start whole.bytes).output.length := by
  let metered : Run σ τ (Metered κ) Unit := p.begin source start ⟨sink, 0⟩ ()
  have hstart : Taken metered.sink.sink [] false ∧ metered.sink.reading = ([] : Bytes).length := ⟨hk, rfl⟩
  have hresult := p.run_of_le ho ht hp (Metered.faithful hsink) nofun hs hstart hl
  have hmap := Run.complete_map (g := id) (fun (w : Unit) _ => w) (fun w _ => w) Metered.alike
    (fun _ _ => rfl) limit metered fun _ _ => trivial
  have hsame : (metered.complete (fun w _ => w) limit).1 = .ok totals :=
    (congrArg Prod.fst hmap).symm.trans (congrArg Prod.fst hr)
  change Run.Result _ true o start _ _ (metered.complete (fun w _ => w) limit) at hresult
  rcases hm : metered.complete (fun w _ => w) limit with ⟨e | totals', m⟩ <;>
    rw [hm] at hsame hresult
  · cases hsame
  · cases hsame
    obtain ⟨-, -, -, -, -, htaken⟩ := hresult
    rw [← Run.read_complete (fun w _ => w) (r := metered) rfl hm, (htaken rfl).2]

end BlockSync
