import BlockSync.Proofs.Orderly
import BlockSync.Proofs.Pipe

/-!
# How much a run puts out

What a run puts out is what its transducer makes, whether it reaches the sink or not. It is made in a
schedule of the transducer, whatever the sink does with its chunks and however the run ends: what holds
of all schedules over the bytes of a source holds of all runs from it.

* `Run.made`: how much a run has put out; `Run.made_le_complete`: nothing of that is taken back;
* `Run.Tracked`: a run whose counts are those of a schedule, with any sink;
* `Transducer.Makes`: what a schedule makes of some bytes;
* **`Pipe.makes_of_run`**: a run puts out what a schedule makes;
* `Outlook.Sound.made_le`: that is no more than was to be expected.
-/

namespace BlockSync

variable {σ τ κ ω ρ : Type}

/-! ## Output so far -/

namespace Run

/-- How much a run has put out: what was pushed, and what has still to be pushed. -/
def made (r : Run σ τ κ ω) : Nat := r.totals.pushed + r.bench.output.content.length

variable (watch : ω → Event → ω) {r r₁ : Run σ τ κ ω}

theorem made_refill [Source σ] (r : Run σ τ κ ω) : (r.refill watch).2.made = r.made := by
  obtain ⟨source, ⟨state, input, output⟩, sink, totals, watcher⟩ := r
  simp only [refill]
  split
  · rfl
  · split
    · rfl
    · rcases Source.pull source input.realign.room with ⟨e | d, source'⟩
      · rfl
      · dsimp only
        rcases (input.realign.preload d.bytes).hold d.count with ⟨b | ⟨⟩, q⟩ <;> rfl

/-- A push that fails leaves everything in the queue. -/
theorem made_drain [Sink κ] (r : Run σ τ κ ω) (done : Bool) : (r.drain watch done).2.made = r.made := by
  obtain ⟨source, ⟨state, input, output⟩, sink, totals, watcher⟩ := r
  simp only [drain]
  split
  · rcases Sink.push sink output.content done with ⟨e | ⟨⟩, sink'⟩
    · rfl
    · simp only [made, Queue.content_clear, Queue.length_content, List.length_nil, Nat.add_zero]
  · rfl

variable [Source σ] [Transducer τ] [Sink κ] {f : Failure}

theorem made_iterate_of_error (h : r.counted.refill watch = (.error f, r₁)) :
    (r.iterate watch).2.made = r.made := by
  have hmade := r.counted.made_refill watch
  rw [h] at hmade
  rw [iterate_eq, h]
  exact hmade

/-- If the refill does not fail, an iteration puts out what its step makes. -/
theorem made_iterate_of_ok (h : r.counted.refill watch = (.ok (), r₁)) :
    (r.iterate watch).2.made =
      r₁.totals.pushed + (Transducer.step r₁.bench).2.output.content.length := by
  have hstep : (r₁.step watch).2.made = _ :=
    Eq.refl (r₁.totals.pushed + (Transducer.step r₁.bench).2.output.content.length)
  rw [iterate_eq, h]
  dsimp only
  rcases hs : r₁.step watch with ⟨f | status, r₂⟩ <;> rw [hs] at hstep
  · exact hstep
  · have hdrain := r₂.made_drain watch (status == .done)
    dsimp only
    rcases hd : r₂.drain watch (status == .done) with ⟨f | ⟨⟩, r₃⟩ <;> rw [hd] at hdrain <;>
      exact hdrain.trans hstep

theorem made_le_iterate (ho : Transducer.Orderly τ) (r : Run σ τ κ ω) :
    r.made ≤ (r.iterate watch).2.made := by
  rcases h : r.counted.refill watch with ⟨f | ⟨⟩, r₁⟩
  · rw [made_iterate_of_error watch h]
  · have hmade := r.counted.made_refill watch
    have hgrows := (ho.output r₁.bench).content.length_le
    rw [h] at hmade
    change r₁.made = r.made at hmade
    rw [made_iterate_of_ok watch h, ← hmade, made]
    exact Nat.add_le_add_left hgrows _

theorem made_le_complete (ho : Transducer.Orderly τ) (r : Run σ τ κ ω) (limit : Nat) :
    r.made ≤ (r.complete watch limit).2.made := by
  induction limit generalizing r with
  | zero => exact Nat.le_refl _
  | succ limit ih =>
    have hle := r.made_le_iterate watch ho
    rw [complete]
    rcases hr : r.iterate watch with ⟨f | status, s⟩ <;> rw [hr] at hle
    · exact hle
    · cases status with
      | done => exact hle
      | blocked => exact Nat.le_trans hle (ih s)

/-- What the first iteration puts out is among what the run puts out. -/
theorem made_iterate_le_complete (ho : Transducer.Orderly τ) (r : Run σ τ κ ω) (limit : Nat) :
    (r.iterate watch).2.made ≤ (r.complete watch (limit + 1)).2.made := by
  rw [complete]
  rcases r.iterate watch with ⟨f | _ | _, s⟩
  · exact Nat.le_refl _
  · exact s.made_le_complete watch ho limit
  · exact Nat.le_refl _

end Run

/-! ## What is made in schedules -/

/-- In some schedule over bytes of `whole` so many bytes are made; if the end of the stream was told,
over all of them. -/
def Transducer.Makes [Transducer τ] (start : τ) (whole : Bytes) (count : Nat) : Prop :=
  ∃ fed taken result b rest, Schedule start fed taken result b ∧ whole = fed ++ rest ∧
    (b.input.ended = true → rest = []) ∧ (taken ++ b.output.content).length = count

/-- **No more is made than was to be expected.** -/
theorem Outlook.Sound.made_le [Transducer τ] {o : Outlook τ ρ} {start : τ} (ho : o.Sound)
    (ht : o.Tells start) {whole : Bytes} {count : Nat} (h : Transducer.Makes start whole count) :
    count ≤ (o.future start whole).output.length := by
  obtain ⟨fed, taken, result, b, rest, hsched, rfl, hrest, rfl⟩ := h
  cases result with
  | error f => exact (Schedule.refused_of_error ho ht hsched rest hrest).1.length_le
  | ok status =>
    rw [Schedule.future_eq ho ht hsched rest hrest, Future.after]
    exact (List.prefix_append _ _).length_le

/-! ## Runs with any sink -/

/-- The ends of a run whose sink may do with its chunks what it likes. -/
def Ends.loose (Delivering : σ → Flow TransferError → Prop) (takes : Bool) : Ends σ κ where
  Delivering := Delivering
  Taken _ _ _ := True
  takes := takes
  limit := framePayloadLimit

namespace Run

variable [Transducer τ] {Delivering : σ → Flow TransferError → Prop} {takes : Bool} {start : τ}
  {whole : Flow TransferError} {r r' : Run σ τ κ ω} {fed taken : Bytes}

/-- What a run has counted is what has gone through it in a schedule. -/
structure Tracked (Delivering : σ → Flow TransferError → Prop) (takes : Bool) (start : τ)
    (whole : Flow TransferError) (r : Run σ τ κ ω) (fed taken : Bytes) : Prop extends
    Follows (Ends.loose Delivering takes) start whole r fed taken where
  pulled : r.totals.pulled = fed.length
  pushed : r.totals.pushed = taken.length

/-- A run that goes on has put out what its schedule has made. -/
theorem Tracked.makes (h : Tracked Delivering takes start whole r fed taken) :
    Transducer.Makes start whole.bytes r.made := by
  obtain ⟨rest, hwhole, hrest⟩ := h.exists_rest
  refine ⟨fed, taken, _, r.bench, rest, h.schedule, hwhole, hrest, ?_⟩
  rw [made, h.pushed, List.length_append]

variable (watch : ω → Event → ω)

theorem Tracked.refill [Source σ] (hs : Source.Faithful Delivering)
    (h : Tracked Delivering takes start whole r fed taken)
    (hr : r.counted.refill watch = (.ok (), r')) :
    ∃ more, Tracked Delivering takes start whole r' (fed ++ more) taken := by
  have hrefill := h.counted.refill watch hs
  rw [hr] at hrefill
  obtain ⟨-, more, hfollows, -, hcount⟩ := hrefill
  refine ⟨more, hfollows, ?_, hcount.pushed.trans h.pushed⟩
  rw [hcount.pulled, List.length_append, ← h.pulled]
  rfl

omit [Transducer τ] in
/-- The sink is given what was put out, if it takes it. -/
theorem drains_of_drain [Sink κ] (Delivering : σ → Flow TransferError → Prop) (taken : Bytes)
    (hpos : takes = true → 0 < r.bench.output.capacity)
    (hno : takes = false → r.bench.output.capacity = 0) {done : Bool}
    (h : r.drain watch done = (.ok (), r')) :
    ∃ made, Drains (Ends.loose Delivering takes : Ends σ κ) done taken made r.bench r'.bench r.sink
        r'.sink ∧
      r'.source = r.source ∧ r'.totals = { r.totals with pushed := r.totals.pushed + made.length } := by
  obtain ⟨source, ⟨state, input, output⟩, sink, totals, watcher⟩ := r
  dsimp only at hpos hno
  simp only [drain] at h
  by_cases hc : (output.capacity != 0 && (done || !output.isEmpty)) = true
  · rw [if_pos hc] at h
    have ht : takes = true := by
      cases takes with
      | true => rfl
      | false => simp [hno rfl] at hc
    rcases hpush : Sink.push sink output.content done with ⟨f | ⟨⟩, sink'⟩ <;> rw [hpush] at h
    · cases h
    · cases h
      refine ⟨output.content, ⟨⟨rfl, by simp, fun he => ⟨rfl, he⟩, by simp⟩, rfl, rfl, ?_⟩, rfl,
        by rw [Queue.length_content]⟩
      rw [if_pos (show (Ends.loose Delivering takes : Ends σ κ).takes = true from ht)]
      exact ⟨rfl, Queue.content_clear _, trivial⟩
  · rw [if_neg hc] at h
    cases h
    refine ⟨[], ⟨⟨rfl, by simp, fun he => ⟨rfl, he⟩, rfl⟩, rfl, rfl, ?_⟩, rfl, rfl⟩
    by_cases ht : takes = true
    · have hne : (output.capacity != 0) = true := by simpa using Nat.ne_of_gt (hpos ht)
      obtain ⟨rfl, he⟩ : done = false ∧ output.isEmpty = true := by
        rw [hne] at hc
        simpa using hc
      have hnil := output.isEmpty_iff.mp he
      rw [if_pos (show (Ends.loose Delivering takes : Ends σ κ).takes = true from ht)]
      exact ⟨hnil.symm, hnil, trivial⟩
    · rw [if_neg (show ¬ (Ends.loose Delivering takes : Ends σ κ).takes = true from ht)]
      exact ⟨rfl, rfl⟩

/-- A step and what is pushed behind it. -/
theorem Tracked.emit [Sink κ] (ho : Transducer.Orderly τ)
    (h : Tracked Delivering takes start whole r fed taken) {c : Bench τ} {watcher : ω}
    (hstep : Transducer.step r.bench = (.ok .blocked, c))
    (hdrain : (⟨r.source, c, r.sink, r.totals, watcher⟩ : Run σ τ κ ω).drain watch false =
      (.ok (), r')) :
    ∃ made, Tracked Delivering takes start whole r' fed (taken ++ made) := by
  have hin := ho.input r.bench
  have hout := ho.output r.bench
  rw [hstep] at hin hout
  have hcap : takes = true → 0 < c.output.capacity := fun htk => by
    rw [hout.capacity]
    exact (h.outputCapacity htk).1
  have hno : takes = false → c.output.capacity = 0 := fun htk => by
    rw [hout.capacity]
    exact h.noOutput htk
  obtain ⟨made, hd, hsource, htotals⟩ :=
    drains_of_drain watch Delivering taken hcap hno hdrain
  refine ⟨made, h.toFollows.emit hstep hin.ended hin.capacity hout.capacity hd hsource, ?_, ?_⟩
  · rw [htotals]
    exact h.pulled
  · rw [htotals, List.length_append, ← h.pushed]

variable [Source σ] [Sink κ]

theorem Tracked.iterate (hs : Source.Faithful Delivering) (ho : Transducer.Orderly τ)
    (h : Tracked Delivering takes start whole r fed taken)
    (hr : r.iterate watch = (.ok .blocked, r')) :
    ∃ fed' taken', Tracked Delivering takes start whole r' fed' taken' := by
  rw [iterate_eq] at hr
  rcases hrefill : r.counted.refill watch with ⟨f | ⟨⟩, r₁⟩ <;> rw [hrefill] at hr
  · cases hr
  · obtain ⟨more, h₁⟩ := h.refill watch hs hrefill
    rcases hstep : Transducer.step r₁.bench with ⟨f | status, c⟩ <;> simp only [step, hstep] at hr
    · cases hr
    · generalize watch (watch r₁.watcher _) _ = watcher at hr
      rcases hdrain : drain watch (status == .done) (⟨r₁.source, c, r₁.sink, r₁.totals, watcher⟩ :
        Run σ τ κ ω) with ⟨f | ⟨⟩, r₃⟩ <;> rw [hdrain] at hr <;> cases hr
      obtain ⟨made, h₃⟩ := h₁.emit watch ho hstep hdrain
      exact ⟨fed ++ more, taken ++ made, h₃⟩

/-- What is put out by the end of an iteration was made in a schedule, also if the iteration fails. -/
theorem Tracked.makes_iterate (hs : Source.Faithful Delivering)
    (h : Tracked Delivering takes start whole r fed taken) (ho : Transducer.Orderly τ) :
    Transducer.Makes start whole.bytes (r.iterate watch).2.made := by
  rcases hr : r.counted.refill watch with ⟨f | ⟨⟩, r₁⟩
  · rw [made_iterate_of_error watch hr]
    exact h.makes
  · obtain ⟨more, h₁⟩ := h.refill watch hs hr
    obtain ⟨rest, hwhole, hrest⟩ := h₁.exists_rest
    have hended := (ho.input r₁.bench).ended
    rw [← hended] at hrest
    refine ⟨fed ++ more, taken, _, (Transducer.step r₁.bench).2, rest, h₁.schedule.stepped rfl,
      hwhole, hrest, ?_⟩
    rw [made_iterate_of_ok watch hr, h₁.pushed, List.length_append]

theorem Tracked.makes_complete (hs : Source.Faithful Delivering) (ho : Transducer.Orderly τ)
    (h : Tracked Delivering takes start whole r fed taken) (limit : Nat) :
    Transducer.Makes start whole.bytes (r.complete watch limit).2.made := by
  induction limit generalizing r fed taken with
  | zero => exact h.makes
  | succ limit ih =>
    have hmakes := h.makes_iterate watch hs ho
    rw [complete]
    rcases hr : r.iterate watch with ⟨f | status, s⟩ <;> rw [hr] at hmakes
    · exact hmakes
    · cases status with
      | done => exact hmakes
      | blocked =>
        obtain ⟨fed', taken', h'⟩ := h.iterate watch hs ho hr
        exact ih h'

end Run

namespace Pipe

variable [Transducer τ] [Sink κ] {start : τ} {source : σ} {whole : Flow TransferError}

/-- A run before its first iteration. -/
theorem tracked_begin (Delivering : σ → Flow TransferError → Prop) (h : Delivering source whole)
    (p : Pipe) (sink : κ) (watcher : ω) :
    (p.begin source start sink watcher).Tracked Delivering (Sink.takesOutput sink) start whole [] [] := by
  refine ⟨Run.follows_start (Queue.content_ofCapacity _) (Queue.content_ofCapacity _) rfl h trivial ?_
    (fun ht => ?_) fun ht => ?_, rfl, rfl⟩
  · rw [Queue.capacity_ofCapacity]
    exact p.capacity_pos
  · rw [Queue.capacity_ofCapacity, if_pos (show Sink.takesOutput sink = true from ht)]
    exact ⟨p.capacity_pos, p.capacity_le⟩
  · rw [Queue.capacity_ofCapacity, show Sink.takesOutput sink = false from ht]
    rfl

/-- **What a run puts out is made in a schedule**, whatever its sink, and however the run ends. -/
theorem makes_of_run [Source σ] (ho : Transducer.Orderly τ) (h : Source.Delivers source whole)
    (p : Pipe) (limit : Nat) (sink : κ) :
    Transducer.Makes start whole.bytes (p.run limit source start sink).2.made := by
  obtain ⟨Delivering, hs, hd⟩ := h
  exact (p.tracked_begin _ hd sink ()).makes_complete _ hs ho limit

end Pipe

end BlockSync
