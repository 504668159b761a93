import BlockSync.Pipe
import BlockSync.Proofs.Orderly
import BlockSync.Proofs.Stream.Sinks

/-!
# Runs that are alike

A run does not depend on who watches it, on its sink only through the failures of its pushes, and on
its source only through what the pulls are answered until the stream ends.

* `Sink.Alike`: two sinks take the same pushes;
* `Run.map`: a run with another sink and another watcher; `Run.complete_map`: it goes on in the same
  way, unless the one sink fails where the other does not;
* **`Pipe.run_eq_watch`**: watching a run does not change it;
* **`Pipe.run_of_ok`**: a run that succeeds would succeed with a sink that never fails;
* `Source.Alike`: two sources answer the same pulls alike;
* `Run.fedBy`: a run with another source; `Run.complete_fedBy`: it goes on in the same way;
* **`Pipe.watch_of_alike`**: runs over such sources differ in nothing else.
-/

namespace BlockSync

variable {σ σ' τ κ κ' ω ω' : Type}

/-- Pushes to a sink and to its image end alike, unless they fail with an error that is not among
some. -/
structure Sink.Alike [Sink κ] [Sink κ'] (f : κ → κ') (Q : TransferError → Prop) : Prop where
  takesOutput : ∀ sink, Sink.takesOutput (f sink) = Sink.takesOutput sink
  push : ∀ sink chunk last, (∀ e, (Sink.push sink chunk last).1 = .error e → Q e) →
    Sink.push (f sink) chunk last =
      ((Sink.push sink chunk last).1, f (Sink.push sink chunk last).2)

theorem Sink.Alike.refl [Sink κ] : Sink.Alike (id : κ → κ) fun _ => True := ⟨fun _ => rfl, fun _ _ _ _ => rfl⟩

namespace Run

/-- A run with another sink and another watcher. -/
def map (f : κ → κ') (g : ω → ω') (r : Run σ τ κ ω) : Run σ τ κ' ω' :=
  ⟨r.source, r.bench, f r.sink, r.totals, g r.watcher⟩

variable [Source σ] [Transducer τ] [Sink κ] [Sink κ'] {f : κ → κ'} {g : ω → ω'}
  {Q : TransferError → Prop} (watch : ω → Event → ω) (watch' : ω' → Event → ω')

omit [Transducer τ] [Sink κ] [Sink κ'] in
theorem refill_map (hg : ∀ w e, g (watch w e) = watch' (g w) e) (r : Run σ τ κ ω) :
    (r.map f g).refill watch' = ((r.refill watch).1, (r.refill watch).2.map f g) := by
  obtain ⟨source, ⟨state, input, output⟩, sink, totals, watcher⟩ := r
  simp only [map, refill, ← hg]
  split
  · rfl
  · split
    · rfl
    · rcases Source.pull source input.realign.room with ⟨e | d, source'⟩
      · rfl
      · dsimp only
        rcases (input.realign.preload d.bytes).hold d.count with ⟨b | ⟨⟩, q⟩ <;> rfl

omit [Source σ] [Sink κ] [Sink κ'] in
theorem step_map (hg : ∀ w e, g (watch w e) = watch' (g w) e) (r : Run σ τ κ ω) :
    (r.map f g).step watch' = ((r.step watch).1, (r.step watch).2.map f g) := by
  simp only [map, step, ← hg]

omit [Source σ] [Transducer τ] in
theorem drain_map (hf : Sink.Alike f Q) (hg : ∀ w e, g (watch w e) = watch' (g w) e)
    (r : Run σ τ κ ω) (done : Bool) (hr : ∀ e, (r.drain watch done).1 = .error (.error e) → Q e) :
    (r.map f g).drain watch' done =
      ((r.drain watch done).1, (r.drain watch done).2.map f g) := by
  obtain ⟨source, ⟨state, input, output⟩, sink, totals, watcher⟩ := r
  simp only [map, drain, ← hg] at hr ⊢
  split
  · next hc =>
    rw [if_pos hc] at hr
    have hpush := hf.push sink output.content done fun e he => hr e (by
      rcases hp : Sink.push sink output.content done with ⟨e' | ⟨⟩, sink'⟩ <;> rw [hp] at he
      · cases he
        rfl
      · cases he)
    rw [hpush]
    rcases Sink.push sink output.content done with ⟨e | ⟨⟩, sink'⟩ <;> rfl
  · rfl

theorem iterate_map (hf : Sink.Alike f Q) (hg : ∀ w e, g (watch w e) = watch' (g w) e)
    (r : Run σ τ κ ω) (hr : ∀ e, (r.iterate watch).1 = .error (.error e) → Q e) :
    (r.map f g).iterate watch' = ((r.iterate watch).1, (r.iterate watch).2.map f g) := by
  let r₀ : Run σ τ κ ω := { r with totals := { r.totals with iterations := r.totals.iterations + 1 } }
  have hrefill := refill_map (f := f) watch watch' hg r₀
  simp only [iterate] at hr ⊢
  have hr₀ : { r.map f g with totals := { (r.map f g).totals with
      iterations := (r.map f g).totals.iterations + 1 } } = r₀.map f g := rfl
  rw [hr₀, hrefill]
  rcases hr₁ : r₀.refill watch with ⟨e | ⟨⟩, r₁⟩
  · rfl
  rw [hr₁] at hr
  have hstep := step_map (f := f) watch watch' hg r₁
  dsimp only at hr ⊢
  rw [hstep]
  rcases hr₂ : r₁.step watch with ⟨e | status, r₂⟩
  · rfl
  rw [hr₂] at hr
  dsimp only at hr ⊢
  have hdrain := drain_map watch watch' hf hg r₂ (status == .done) fun e he => hr e (by
    rcases hd : r₂.drain watch (status == .done) with ⟨e' | ⟨⟩, r₃⟩ <;> rw [hd] at he <;> cases he
    rfl)
  rw [hdrain]
  rcases r₂.drain watch (status == .done) with ⟨e | ⟨⟩, r₃⟩ <;> rfl

/-- A run with a sink that fails only as its own does goes on in the same way. -/
theorem complete_map (hf : Sink.Alike f Q) (hg : ∀ w e, g (watch w e) = watch' (g w) e) (limit : Nat)
    (r : Run σ τ κ ω) (hr : ∀ e, (r.complete watch limit).1 = .error (.error e) → Q e) :
    (r.map f g).complete watch' limit =
      ((r.complete watch limit).1, (r.complete watch limit).2.map f g) := by
  induction limit generalizing r with
  | zero => rfl
  | succ limit ih =>
    have hit := iterate_map watch watch' hf hg r fun e he => hr e (by
      rcases hi : r.iterate watch with ⟨e' | status, r'⟩ <;> rw [hi] at he <;> cases he
      rw [complete, hi])
    rw [complete] at hr
    rw [complete, complete, hit]
    rcases hi : r.iterate watch with ⟨e | status, r'⟩
    · rfl
    · rw [hi] at hr
      cases status with
      | blocked => exact ih r' hr
      | done => rfl

end Run

namespace Pipe

variable [Source σ] [Transducer τ] [Sink κ] [Sink κ'] (p : Pipe) (limit : Nat) (source : σ) (state : τ)

/-- **Watching a run does not change it.** -/
theorem run_eq_watch (sink : κ) (look : ω → Event → ω) (watcher : ω) :
    p.run limit source state sink = ((p.watch look watcher limit source state sink).1,
      (p.watch look watcher limit source state sink).2.map id fun _ => ()) :=
  Run.complete_map (g := fun _ => ()) look (fun w _ => w) Sink.Alike.refl (fun _ _ => rfl) limit
    (p.begin source state sink watcher) fun _ _ => trivial

/-- **A run that succeeds would succeed with a sink that takes more.** -/
theorem run_of_ok {f : κ → κ'} (hf : Sink.Alike f fun _ => False) {sink : κ} {totals : PipeTotals}
    {r : Run σ τ κ Unit} (h : p.run limit source state sink = (.ok totals, r)) :
    p.run limit source state (f sink) = (.ok totals, r.map f id) := by
  have hbegin : p.begin source state (f sink) () = (p.begin source state sink ()).map f id := by
    simp only [begin, Run.map, hf.takesOutput, id]
  have hmap := Run.complete_map (g := id) (fun (w : Unit) _ => w) (fun w _ => w) hf
    (fun _ _ => rfl) limit (p.begin source state sink ()) fun e he => by
      change (p.run limit source state sink).1 = _ at he
      rw [h] at he
      cases he
  rw [← hbegin] at hmap
  change p.run limit source state (f sink) = ((p.run limit source state sink).1, _) at hmap
  rw [hmap, h]
  exact congrArg (fun r' => (Except.ok totals, Run.map f id r'))
    (congrArg Prod.snd h)

end Pipe

/-! ## Sources -/

/-- Related sources answer a pull alike, and stay related unless that ends the stream. -/
def Source.Alike [Source σ] [Source σ'] (R : σ → σ' → Prop) : Prop :=
  ∀ {source : σ} {source' : σ'}, R source source' → ∀ {room : Nat}, 0 < room →
    ∃ next', Source.pull source' room = ((Source.pull source room).1, next') ∧
      ∀ d, (Source.pull source room).1 = .ok d → (d.ended || d.count == 0) = false →
        R (Source.pull source room).2 next'

namespace Run

/-- A run with another source. -/
def fedBy (r : Run σ τ κ ω) (source : σ') : Run σ' τ κ ω :=
  ⟨source, r.bench, r.sink, r.totals, r.watcher⟩

/-- The other source is related to that of a run, if it is still to be asked. -/
def Swaps (R : σ → σ' → Prop) (r : Run σ τ κ ω) (source : σ') : Prop :=
  r.bench.input.ended = true ∨ R r.source source

variable [Source σ] [Source σ'] [Transducer τ] [Sink κ] {R : σ → σ' → Prop} {source' : σ'}
  (watch : ω → Event → ω)

omit [Transducer τ] [Sink κ] in
theorem refill_fedBy (h : Source.Alike R) {r : Run σ τ κ ω} (hr : r.Swaps R source') :
    ∃ next', (r.fedBy source').refill watch = ((r.refill watch).1, (r.refill watch).2.fedBy next') ∧
      ((r.refill watch).1 = .ok () → (r.refill watch).2.Swaps R next') := by
  obtain ⟨source, ⟨state, input, output⟩, sink, totals, watcher⟩ := r
  dsimp only [fedBy, refill]
  by_cases he : input.ended = true
  · simp only [if_pos he]
    exact ⟨source', rfl, fun _ => .inl he⟩
  simp only [if_neg he]
  by_cases hroom : input.realign.room = 0
  · simp only [if_pos hroom]
    exact ⟨source', rfl, fun _ => .inr (hr.resolve_left he)⟩
  simp only [if_neg hroom]
  obtain ⟨next', hpull, hnext⟩ := h (hr.resolve_left he) (Nat.pos_of_ne_zero hroom)
  simp only [hpull]
  rcases hp : Source.pull source input.realign.room with ⟨e | d, next⟩
  · exact ⟨next', rfl, nofun⟩
  · rw [hp] at hnext
    dsimp only
    rcases (input.realign.preload d.bytes).hold d.count with ⟨b | ⟨⟩, q⟩
    · exact ⟨next', rfl, nofun⟩
    · refine ⟨next', rfl, fun _ => ?_⟩
      cases hd : d.ended || d.count == 0 with
      | true => exact .inl rfl
      | false => exact .inr (hnext d rfl hd)

omit [Source σ] [Source σ'] [Transducer τ] in
/-- A push leaves the source, the transducer and its input as they are. -/
theorem drain_leaves (r : Run σ τ κ ω) (done : Bool) :
    (r.drain watch done).2.source = r.source ∧
      (r.drain watch done).2.bench.input = r.bench.input ∧
      (r.drain watch done).2.bench.state = r.bench.state := by
  obtain ⟨source, ⟨state, input, output⟩, sink, totals, watcher⟩ := r
  simp only [drain]
  split
  · rcases Sink.push sink output.content done with ⟨e | ⟨⟩, sink'⟩ <;> exact ⟨rfl, rfl, rfl⟩
  · exact ⟨rfl, rfl, rfl⟩

omit [Source σ] [Source σ'] [Transducer τ] in
theorem drain_fedBy (r : Run σ τ κ ω) (done : Bool) :
    (r.fedBy source').drain watch done =
      ((r.drain watch done).1, (r.drain watch done).2.fedBy source') := by
  obtain ⟨source, ⟨state, input, output⟩, sink, totals, watcher⟩ := r
  dsimp only [fedBy, drain]
  by_cases hc : (output.capacity != 0 && (done || !output.isEmpty)) = true
  · simp only [if_pos hc]
    rcases Sink.push sink output.content done with ⟨e | ⟨⟩, sink'⟩ <;> rfl
  · simp only [if_neg hc]

theorem iterate_fedBy (h : Source.Alike R) (ho : Transducer.Orderly τ) {r : Run σ τ κ ω}
    (hr : r.Swaps R source') :
    ∃ next', (r.fedBy source').iterate watch =
        ((r.iterate watch).1, (r.iterate watch).2.fedBy next') ∧
      ∀ status, (r.iterate watch).1 = .ok status → (r.iterate watch).2.Swaps R next' := by
  let r₀ : Run σ τ κ ω := { r with totals := { r.totals with iterations := r.totals.iterations + 1 } }
  obtain ⟨next', hrefill, hnext⟩ := refill_fedBy watch h (show r₀.Swaps R source' from hr)
  have hr₀ : { r.fedBy source' with totals := { (r.fedBy source').totals with
      iterations := (r.fedBy source').totals.iterations + 1 } } = r₀.fedBy source' := rfl
  refine ⟨next', ?_⟩
  simp only [iterate]
  rw [hr₀, hrefill]
  rcases hr₁ : r₀.refill watch with ⟨e | ⟨⟩, r₁⟩
  · exact ⟨rfl, nofun⟩
  rw [hr₁] at hnext
  have hended := (ho.input r₁.bench).ended
  have hstep : (r₁.fedBy next').step watch = ((r₁.step watch).1, (r₁.step watch).2.fedBy next') := rfl
  have hsource : (r₁.step watch).2.source = r₁.source := rfl
  have hinput : (r₁.step watch).2.bench.input.ended = r₁.bench.input.ended := hended
  dsimp only
  rw [hstep]
  rcases hr₂ : r₁.step watch with ⟨e | status, r₂⟩
  · exact ⟨rfl, nofun⟩
  rw [hr₂] at hsource hinput
  obtain ⟨hsource', hinput', -⟩ := drain_leaves watch r₂ (status == .done)
  dsimp only
  rw [drain_fedBy]
  rcases hr₃ : r₂.drain watch (status == .done) with ⟨e | ⟨⟩, r₃⟩
  · exact ⟨rfl, nofun⟩
  rw [hr₃] at hsource' hinput'
  refine ⟨rfl, fun _ _ => ?_⟩
  rw [Swaps, hsource', hinput', hsource, hinput]
  exact hnext rfl

/-- A run with a source that is asked in its place goes on in the same way. -/
theorem complete_fedBy (h : Source.Alike R) (ho : Transducer.Orderly τ) (limit : Nat)
    {r : Run σ τ κ ω} (hr : r.Swaps R source') :
    ∃ next', (r.fedBy source').complete watch limit =
      ((r.complete watch limit).1, (r.complete watch limit).2.fedBy next') := by
  induction limit generalizing r source' with
  | zero => exact ⟨source', rfl⟩
  | succ limit ih =>
    obtain ⟨next', hit, hnext⟩ := iterate_fedBy watch h ho hr
    rw [complete, complete, hit]
    rcases hi : r.iterate watch with ⟨e | status, r'⟩
    · exact ⟨next', rfl⟩
    · rw [hi] at hnext
      cases status with
      | blocked => exact ih (hnext .blocked rfl)
      | done => exact ⟨next', rfl⟩

end Run

/-- **Runs over sources that answer alike differ in nothing else.** -/
theorem Pipe.watch_of_alike [Source σ] [Source σ'] [Transducer τ] [Sink κ] {R : σ → σ' → Prop}
    (h : Source.Alike R) (ho : Transducer.Orderly τ) {source : σ} {source' : σ'} (hr : R source source')
    (p : Pipe) (look : ω → Event → ω) (watcher : ω) (limit : Nat) (state : τ) (sink : κ) :
    ∃ next', p.watch look watcher limit source' state sink =
      ((p.watch look watcher limit source state sink).1,
        (p.watch look watcher limit source state sink).2.fedBy next') :=
  Run.complete_fedBy look h ho limit (r := p.begin source state sink watcher) (.inr hr)

end BlockSync
