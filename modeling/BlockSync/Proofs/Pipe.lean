import BlockSync.Pipe
import BlockSync.Proofs.Queue
import BlockSync.Proofs.Schedule
import BlockSync.Proofs.Stream.Flow
import BlockSync.Proofs.Stream.Sinks

/-!
# Runs of a pipe

A run is one of the schedules of its transducer. Of a transducer whose future is known, fed by a
source that delivers a known flow, it is therefore known what reaches the sink, and how the run ends.

* `Outlook.Prompt`: a transducer that leaves input lie, or is not done at the end, owes output;
* `Run.Follows`: what a run has taken from the source and given to the sink is a schedule;
* `Run.iterate_spec`: an iteration that is not the last one pulls a byte, notices the end or pushes
  a byte;
* **`Run.complete_spec`**: how a run ends, and what its sink holds then.
-/

namespace BlockSync

variable {σ τ κ ω ρ : Type} [Transducer τ]

/-- When `Owes` holds of a bench, its transducer will put out a byte in the next step if there is room
for it, or come to its end. -/
structure Outlook.Prompt (o : Outlook τ ρ) (Owes : Bench τ → Prop) : Prop where
  served : ∀ {s t : Bench τ} {fed taken : Bytes}, Owes s → s.Served t fed taken → Owes t
  /-- A transducer that is blocked in spite of input, or of its end, owes output. -/
  owes : ∀ {s t : Bench τ}, o.Fit s → Transducer.step s = (.ok .blocked, t) →
    t.input.content ≠ [] ∨ t.input.ended = true → Owes t
  pays : ∀ {s t : Bench τ}, o.Fit s → Owes s → 0 < s.output.room →
    Transducer.step s = (.ok .blocked, t) → s.output.content.length < t.output.content.length

/-- A transducer that is blocked waits for input, or owes output. -/
theorem Outlook.Prompt.waits {o : Outlook τ ρ} {Owes : Bench τ → Prop} (h : o.Prompt Owes)
    {b c : Bench τ} (hf : o.Fit b) (hstep : Transducer.step b = (.ok .blocked, c)) :
    (c.input.content = [] ∧ c.input.ended = false) ∨ Owes c := by
  by_cases hc : c.input.content = [] ∧ c.input.ended = false
  · exact .inl hc
  · refine .inr (h.owes hf hstep ?_)
    by_cases hcont : c.input.content = []
    · exact .inr (by simpa [hcont] using hc)
    · exact .inl hcont

/-! ## A run and its schedule -/

/-- What is known of the two ends of a run: the flow that the source delivers, how much the sink takes
at once, and whether it takes output at all. -/
structure Ends (σ κ : Type) where
  Delivering : σ → Flow TransferError → Prop
  Taken : κ → Bytes → Bool → Prop
  takes : Bool
  limit : Nat

/-- The ends keep what they promise. -/
structure Ends.Faithful (x : Ends σ κ) [Source σ] [Sink κ] : Prop where
  source : Source.Faithful x.Delivering
  sink : Sink.Faithful x.Taken x.takes x.limit

namespace Run

variable {x : Ends σ κ} {o : Outlook τ ρ} {Owes : Bench τ → Prop} {start : τ}
  {whole : Flow TransferError} {r r' : Run σ τ κ ω} {fed taken : Bytes}

/-- The bytes `fed` of the flow were fed to the transducer, the bytes `taken` of its output are with
the sink, and the run goes on. -/
structure Follows (x : Ends σ κ) (start : τ) (whole : Flow TransferError) (r : Run σ τ κ ω)
    (fed taken : Bytes) : Prop where
  schedule : Schedule start fed taken (.ok .blocked) r.bench
  atEnd : r.bench.input.ended = true → whole = ⟨fed, .ok ()⟩
  flowing : r.bench.input.ended = false →
    ∃ rest : Flow TransferError, whole = rest.after fed ∧ x.Delivering r.source rest
  sink : x.Taken r.sink taken false
  drained : x.takes = true → r.bench.output.content = []
  inputCapacity : 0 < r.bench.input.capacity
  outputCapacity : x.takes = true →
    0 < r.bench.output.capacity ∧ r.bench.output.capacity ≤ x.limit
  noOutput : x.takes = false → r.bench.output.capacity = 0

/-- What a run has got done, in bytes pulled, notices of the end, and bytes pushed. -/
def progress (r : Run σ τ κ ω) (fed taken : Bytes) : Nat :=
  fed.length + r.bench.input.ended.toNat + taken.length

/-- All of the flow consists of what was fed and a rest, which is empty at the end. -/
theorem Follows.exists_rest (h : Follows x start whole r fed taken) :
    ∃ rest, whole.bytes = fed ++ rest ∧ (r.bench.input.ended = true → rest = []) := by
  cases he : r.bench.input.ended with
  | true => exact ⟨[], by rw [h.atEnd he, List.append_nil], fun _ => rfl⟩
  | false =>
    obtain ⟨rest, hw, -⟩ := h.flowing he
    exact ⟨rest.bytes, by rw [hw]; rfl, fun hc => nomatch hc⟩

/-- What is with the sink was to be expected. -/
theorem Follows.taken_prefix (ho : o.Sound) (ht : o.Tells start)
    (h : Follows x start whole r fed taken) : taken <+: (o.future start whole.bytes).output := by
  obtain ⟨rest, hw, hr⟩ := h.exists_rest
  rw [hw, Schedule.future_eq ho ht h.schedule rest hr]
  exact ⟨_, (List.append_assoc ..).symm⟩

/-- There is a bound to what can be got done. -/
theorem Follows.progress_le (ho : o.Sound) (ht : o.Tells start)
    (h : Follows x start whole r fed taken) :
    r.progress fed taken ≤ whole.bytes.length + 1 + (o.future start whole.bytes).output.length := by
  obtain ⟨rest, hw, hr⟩ := h.exists_rest
  have hf := congrArg (fun f => f.output.length) (Schedule.future_eq ho ht h.schedule rest hr)
  have hl := congrArg List.length hw
  have hb := Bool.toNat_le r.bench.input.ended
  simp only [Future.after, List.length_append] at hf hl
  rw [progress, hl, hw, hf]
  omega

/-! ## Parts of an iteration -/

/-- Bytes are pulled into the input queue. -/
theorem Follows.fill (h : Follows x start whole r fed taken) {more : Bytes} {b : Bench τ}
    {source : σ} (hv : r.bench.Served b more []) (hi : b.input.capacity = r.bench.input.capacity)
    (ho : b.output = r.bench.output)
    (he : b.input.ended = true → whole = ⟨fed ++ more, .ok ()⟩)
    (hf : b.input.ended = false → ∃ rest : Flow TransferError, whole = rest.after (fed ++ more) ∧
      x.Delivering source rest) {totals : PipeTotals} {watcher : ω} :
    Follows x start whole (⟨source, b, r.sink, totals, watcher⟩ : Run σ τ κ ω) (fed ++ more)
      taken where
  schedule := by
    have := h.schedule.served hv
    rwa [List.append_nil] at this
  atEnd := he
  flowing := hf
  sink := h.sink
  drained ht := by rw [ho]; exact h.drained ht
  inputCapacity := by rw [hi]; exact h.inputCapacity
  outputCapacity ht := by rw [ho]; exact h.outputCapacity ht
  noOutput ht := by rw [ho]; exact h.noOutput ht

variable [Source σ] [Sink κ] (watch : ω → Event → ω)

omit [Source σ] [Sink κ] in
/-- What was pulled is fed to the transducer, and the end if the stream ends there. -/
theorem Follows.pulled {source source' : σ} {state : τ} {input output q : Queue} {sink : κ}
    {totals totals' : PipeTotals} {watcher watcher' : ω} {rest : Flow TransferError} {p : Delivery}
    (h : Follows x start whole (⟨source, ⟨state, input, output⟩, sink, totals, watcher⟩ :
      Run σ τ κ ω) fed taken)
    (hend : input.ended = false) (hwhole : whole = rest.after fed) (hcount : p.count = p.bytes.length)
    (hnext : if (p.ended || p.count == 0) = true then rest = ⟨p.bytes, .ok ()⟩
      else ∃ rest' : Flow TransferError, rest = rest'.after p.bytes ∧ x.Delivering source' rest')
    (hcont : q.content = input.content ++ p.bytes) (hqe : q.ended = false)
    (hqc : q.capacity = input.capacity) :
    let r : Run σ τ κ ω := ⟨source', ⟨state, if p.ended || p.count == 0 then q.finish else q, output⟩,
      sink, totals', watcher'⟩
    Follows x start whole r (fed ++ p.bytes) taken ∧
      fed.length < (fed ++ p.bytes).length + r.bench.input.ended.toNat := by
  intro r
  by_cases hlast : (p.ended || p.count == 0) = true
  · -- the stream ends here
    rw [if_pos hlast] at hnext
    have hr : r.bench = ⟨state, q.finish, output⟩ := by simp only [r, if_pos hlast]
    have hv : Bench.Served ⟨state, input, output⟩ r.bench p.bytes [] := by
      rw [hr]
      exact ⟨rfl, hcont, fun he => by simp [hend] at he, rfl⟩
    refine ⟨h.fill hv (by rw [hr]; exact hqc) (by rw [hr]) (fun _ => ?_) (fun he => ?_), ?_⟩
    · rw [hwhole, hnext]
      rfl
    · rw [hr] at he
      cases he
    · rw [hr]
      simp only [List.length_append, Queue.finish, Bool.toNat_true]
      omega
  · rw [if_neg hlast] at hnext
    obtain ⟨rest', hrest, hdel⟩ := hnext
    have hr : r.bench = ⟨state, q, output⟩ := by simp only [r, if_neg hlast]
    have hpos : 0 < p.bytes.length := by
      rw [← hcount]
      refine Nat.pos_of_ne_zero fun h0 => hlast ?_
      simp [h0]
    have hv : Bench.Served ⟨state, input, output⟩ r.bench p.bytes [] := by
      rw [hr]
      exact ⟨rfl, hcont, fun he => by simp [hend] at he, rfl⟩
    refine ⟨h.fill hv (by rw [hr]; exact hqc) (by rw [hr]) (fun he => ?_) (fun _ => ?_), ?_⟩
    · rw [hr, hqe] at he
      cases he
    · exact ⟨rest', by rw [hwhole, hrest, Flow.after_after], hdel⟩
    · rw [List.length_append]
      omega

/-- What is counted when at most one pull brings `count` bytes. -/
structure Refilled (totals totals' : PipeTotals) (count : Nat) : Prop where
  iterations : totals'.iterations = totals.iterations
  pulls : totals'.pulls ≤ totals.pulls + 1
  pulled : totals'.pulled = totals.pulled + count
  pushed : totals'.pushed = totals.pushed

omit [Sink κ] in
/-- The queue is refilled, unless it is full or the stream has ended. -/
theorem Follows.refill (hx : Source.Faithful x.Delivering) (h : Follows x start whole r fed taken) :
    match r.refill watch with
    | (.error f, r') => (∃ e, f = .error e ∧ whole.ending = .error e) ∧ r'.sink = r.sink
    | (.ok (), r') => r'.sink = r.sink ∧ ∃ more, Follows x start whole r' (fed ++ more) taken ∧
        (r.progress fed taken < r'.progress (fed ++ more) taken ∨
          r.progress fed taken = r'.progress (fed ++ more) taken ∧ r.bench.Served r'.bench [] [] ∧
            ¬ (r.bench.input.content = [] ∧ r.bench.input.ended = false)) ∧
        Refilled r.totals r'.totals more.length := by
  obtain ⟨source, ⟨state, input, output⟩, sink, totals, watcher⟩ := r
  simp only [Run.refill]
  cases hend : input.ended with
  | true =>
    rw [if_pos rfl]
    have hv : Bench.Served ⟨state, input, output⟩ ⟨state, input, output⟩ [] [] :=
      ⟨rfl, (List.append_nil _).symm, fun he => ⟨rfl, he⟩, rfl⟩
    exact ⟨rfl, [], by simpa using h, .inr ⟨by simp, hv, by simp⟩, rfl, Nat.le_succ _, rfl, rfl⟩
  | false =>
    rw [if_neg (by decide)]
    obtain ⟨rest, hwhole, hdel⟩ := h.flowing hend
    by_cases hroom : input.realign.room = 0
    · -- the queue is full
      rw [if_pos hroom]
      have hne : input.content ≠ [] := fun hc => by
        have := h.inputCapacity
        rw [Queue.room_realign, hc] at hroom
        exact absurd hroom (Nat.ne_of_gt this)
      have hv : Bench.Served ⟨state, input, output⟩ ⟨state, input.realign, output⟩ [] [] :=
        ⟨rfl, by rw [Queue.content_realign, List.append_nil], fun he => by simp [hend] at he, rfl⟩
      refine ⟨rfl, [], h.fill hv (by simp) rfl (fun he => ?_) (fun _ => ?_),
        .inr ⟨by simp [progress], hv, fun hc => hne hc.1⟩, rfl, Nat.le_succ _, rfl, rfl⟩
      · simp [hend] at he
      · exact ⟨rest, by rw [List.append_nil]; exact hwhole, hdel⟩
    · rw [if_neg hroom]
      have hpull := hx.pull hdel (Nat.pos_of_ne_zero hroom)
      rcases hp : Source.pull source input.realign.room with ⟨e | pulled, source'⟩ <;>
        rw [hp] at hpull
      · exact ⟨⟨e, rfl, by rw [hwhole]; exact hpull⟩, rfl⟩
      · obtain ⟨hcount, hle, hnext⟩ := hpull
        have hroom' : pulled.bytes.length ≤ input.realign.room := by rw [← hcount]; exact hle
        obtain ⟨q, hhold, hcont, hqe, hqc⟩ := input.realign.hold_preload hroom'
        rw [← hcount] at hhold
        rw [Queue.content_realign] at hcont
        rw [Queue.ended_realign, hend] at hqe
        rw [Queue.capacity_realign] at hqc
        obtain ⟨hfollows, hgot⟩ := h.pulled hend hwhole hcount hnext hcont hqe hqc
        simp only [hhold]
        refine ⟨trivial, pulled.bytes, hfollows, .inl ?_, rfl, Nat.le_refl _, by rw [hcount], rfl⟩
        simp only [progress, hend, Bool.toNat_false] at hgot ⊢
        omega

omit [Sink κ] in
/-- If nothing was got done in a refill, output is owed. -/
theorem refill_spec (hx : Source.Faithful x.Delivering) (ho : o.Prompt Owes)
    (h : Follows x start whole r fed taken)
    (hw : (r.bench.input.content = [] ∧ r.bench.input.ended = false) ∨ Owes r.bench) :
    match r.refill watch with
    | (.error f, r') => (∃ e, f = .error e ∧ whole.ending = .error e) ∧ r'.sink = r.sink
    | (.ok (), r') => r'.sink = r.sink ∧ ∃ more, Follows x start whole r' (fed ++ more) taken ∧
        (r.progress fed taken < r'.progress (fed ++ more) taken ∨
          r.progress fed taken = r'.progress (fed ++ more) taken ∧ Owes r'.bench) ∧
        Refilled r.totals r'.totals more.length := by
  have hrefill := h.refill watch hx
  rcases hr : r.refill watch with ⟨f | ⟨⟩, r'⟩ <;> rw [hr] at hrefill
  · exact hrefill
  · obtain ⟨hsink, more, hfollows, hgot, hcount⟩ := hrefill
    refine ⟨hsink, more, hfollows, hgot.imp_right ?_, hcount⟩
    rintro ⟨heq, hv, hidle⟩
    exact ⟨heq, ho.served (hw.resolve_left hidle) hv⟩

omit [Source σ] [Sink κ] [Transducer τ] in
/-- The output `made` of a bench was given to the sink, if it takes any, and if `done` the sink was
told of the end. -/
structure Drains (x : Ends σ κ) (done : Bool) (taken made : Bytes) (b b' : Bench τ) (sink sink' : κ) :
    Prop where
  served : b.Served b' [] made
  input : b'.input = b.input
  outputCapacity : b'.output.capacity = b.output.capacity
  made : if x.takes = true then
      made = b.output.content ∧ b'.output.content = [] ∧ x.Taken sink' (taken ++ made) done
    else made = [] ∧ sink' = sink

omit [Transducer τ] in
/-- The sink is given what was put out, and told of the end. -/
theorem drain_spec (hx : x.Faithful) {b : Bench τ} {sink : κ} (source : σ) (totals : PipeTotals)
    (watcher : ω) (hs : x.Taken sink taken false)
    (hl : x.takes = true → 0 < b.output.capacity ∧ b.output.capacity ≤ x.limit)
    (hn : x.takes = false → b.output.capacity = 0) (done : Bool) :
    ∃ sink' b' made totals' watcher', (⟨source, b, sink, totals, watcher⟩ : Run σ τ κ ω).drain
        watch done = (.ok (), ⟨source, b', sink', totals', watcher'⟩) ∧
      Drains x done taken made b b' sink sink' := by
  obtain ⟨state, input, output⟩ := b
  have htakes : (output.capacity != 0) = x.takes := by
    cases ht : x.takes with
    | false => simpa using hn ht
    | true => simpa using Nat.ne_of_gt (hl ht).1
  simp only [drain]
  by_cases hc : (output.capacity != 0 && (done || !output.isEmpty)) = true
  · rw [if_pos hc]
    have ht : x.takes = true := by
      rw [htakes] at hc
      exact (Bool.and_eq_true_iff.mp hc).1
    obtain ⟨sink', hpush, htaken⟩ := hx.sink.push ht hs
      (Nat.le_trans output.length_le_capacity (hl ht).2) done
    refine ⟨sink', ⟨state, input, output.clear⟩, output.content, _, _, by simp only [hpush]; rfl,
      ⟨rfl, by simp, fun he => ⟨rfl, he⟩, by simp⟩, rfl, rfl, ?_⟩
    rw [if_pos ht]
    exact ⟨rfl, Queue.content_clear _, htaken⟩
  · rw [if_neg hc]
    refine ⟨sink, ⟨state, input, output⟩, [], _, _, rfl,
      ⟨rfl, by simp, fun he => ⟨rfl, he⟩, rfl⟩, rfl, rfl, ?_⟩
    by_cases ht : x.takes = true
    · rw [if_pos ht]
      obtain ⟨rfl, he⟩ : done = false ∧ output.isEmpty = true := by
        rw [htakes, ht] at hc; simpa using hc
      have hnil := output.isEmpty_iff.mp he
      exact ⟨hnil.symm, hnil, by rwa [List.append_nil]⟩
    · rw [if_neg ht]
      exact ⟨rfl, rfl⟩

variable {source : σ} {b c c' : Bench τ} {sink sink' : κ} {totals totals' : PipeTotals}
  {watcher watcher' : ω} {made : Bytes}

omit [Source σ] [Sink κ] in
/-- After a step and what was pushed behind it the run goes on. -/
theorem Follows.emit (h : Follows x start whole r fed taken)
    (hstep : Transducer.step r.bench = (.ok .blocked, c))
    (hended : c.input.ended = r.bench.input.ended)
    (hinput : c.input.capacity = r.bench.input.capacity)
    (houtput : c.output.capacity = r.bench.output.capacity)
    (hd : Drains x false taken made c r'.bench r.sink r'.sink) (hsource : r'.source = r.source) :
    Follows x start whole r' fed (taken ++ made) where
  schedule := by
    have := (h.schedule.stepped hstep).served hd.served
    rwa [List.append_nil] at this
  atEnd he := by
    rw [hd.input, hended] at he
    exact h.atEnd he
  flowing he := by
    rw [hd.input, hended] at he
    rw [hsource]
    exact h.flowing he
  sink := by
    have hmade := hd.made
    by_cases ht : x.takes = true
    · rw [if_pos ht] at hmade
      exact hmade.2.2
    · rw [if_neg ht] at hmade
      rw [hmade.1, hmade.2, List.append_nil]
      exact h.sink
  drained ht := by
    have hmade := hd.made
    rw [if_pos ht] at hmade
    exact hmade.2.1
  inputCapacity := by
    rw [hd.input, hinput]
    exact h.inputCapacity
  outputCapacity ht := by
    rw [hd.outputCapacity, houtput]
    exact h.outputCapacity ht
  noOutput ht := by
    rw [hd.outputCapacity, houtput]
    exact h.noOutput ht

omit [Source σ] [Sink κ] in
/-- What was owed is among what was made. -/
theorem Follows.made_of_owes (ho : o.Prompt Owes) (hf : o.Fit b)
    (htakes : x.takes = false → ∀ b, ¬ Owes b)
    (h : Follows x start whole (⟨source, b, sink, totals, watcher⟩ : Run σ τ κ ω) fed taken)
    (howes : Owes b) (hstep : Transducer.step b = (.ok .blocked, c))
    (hd : Drains x false taken made c c' sink sink') : 0 < made.length := by
  have ht : x.takes = true := by
    cases hf : x.takes with
    | true => rfl
    | false => exact absurd howes (htakes hf b)
  have hroom : 0 < b.output.room := by
    rw [Queue.room_of_empty _ (h.drained ht)]
    exact (h.outputCapacity ht).1
  have hmade := hd.made
  rw [if_pos ht] at hmade
  rw [hmade.1]
  exact Nat.lt_of_le_of_lt (Nat.zero_le _) (ho.pays hf howes hroom hstep)

/-! ## Iterations -/

omit [Source σ] [Transducer τ] [Sink κ] in
/-- One more iteration is counted. -/
def counted (r : Run σ τ κ ω) : Run σ τ κ ω :=
  { r with totals := { r.totals with iterations := r.totals.iterations + 1 } }

omit [Source σ] [Sink κ] in
theorem Follows.counted (h : Follows x start whole r fed taken) :
    Follows x start whole r.counted fed taken :=
  ⟨h.schedule, h.atEnd, h.flowing, h.sink, h.drained, h.inputCapacity, h.outputCapacity, h.noOutput⟩

theorem iterate_eq : r.iterate watch =
    (match r.counted.refill watch with
    | (.error f, r) => (.error f, r)
    | (.ok (), r) =>
      match r.step watch with
      | (.error f, r) => (.error f, r)
      | (.ok status, r) =>
        match r.drain watch (status == .done) with
        | (.error f, r) => (.error f, r)
        | (.ok (), r) => (.ok status, r)) := rfl

/-- The failure is that with which the flow ends, or it is to be expected of the bytes that have come,
whatever should follow them if the flow has been broken off. -/
def Expected (o : Outlook τ ρ) (start : τ) (whole : Flow TransferError) (f : Failure) : Prop :=
  (∃ e, f = .error e ∧ whole.ending = .error e) ∨ ∀ rest : Bytes, (whole.ending = .ok () → rest = []) →
    (o.future start (whole.bytes ++ rest)).refused f

/-- What an iteration leads to. -/
def Outcome (x : Ends σ κ) (o : Outlook τ ρ) (Owes : Bench τ → Prop) (start : τ)
    (whole : Flow TransferError) (got : Nat) : Except Failure Status × Run σ τ κ ω → Prop
  | (.ok .blocked, r) => ∃ fed taken, Follows x start whole r fed taken ∧
      got < r.progress fed taken ∧
      ((r.bench.input.content = [] ∧ r.bench.input.ended = false) ∨ Owes r.bench)
  | (.ok .done, r) => ∃ taken, Schedule start whole.bytes taken (.ok .done) r.bench ∧
      whole.ending = .ok () ∧
      (x.takes = true → r.bench.output.content = [] ∧ x.Taken r.sink taken true)
  | (.error f, r) => Expected o start whole f ∧
      ∃ taken, taken <+: (o.future start whole.bytes).output ∧ x.Taken r.sink taken false

/-- **An iteration that is not the last one pulls a byte, notices the end or pushes a byte.** -/
theorem iterate_spec (hx : x.Faithful) (ho : o.Sound) (ht : o.Tells start) (hp : o.Prompt Owes)
    (htakes : x.takes = false → ∀ b, ¬ Owes b) (h : Follows x start whole r fed taken)
    (hw : (r.bench.input.content = [] ∧ r.bench.input.ended = false) ∨ Owes r.bench) :
    Outcome x o Owes start whole (r.progress fed taken) (r.iterate watch) := by
  have hrefill := refill_spec watch hx.source hp h.counted hw
  rw [iterate_eq]
  rcases hr : r.counted.refill watch with ⟨f | ⟨⟩, r₁⟩ <;> rw [hr] at hrefill
  · obtain ⟨he, hsink⟩ := hrefill
    refine ⟨.inl he, taken, h.taken_prefix ho ht, ?_⟩
    rw [hsink]
    exact h.sink
  · obtain ⟨-, more, h₁, hgot, -⟩ := hrefill
    obtain ⟨source, b, sink, totals, watcher⟩ := r₁
    have hfit : o.Fit b := Schedule.fit ho ht h₁.schedule
    rcases hstep : Transducer.step b with ⟨result, c⟩
    have hresp := ho.step hfit hstep
    have hsched := h₁.schedule.stepped hstep
    simp only [step, hstep]
    cases result with
    | error f =>
      obtain ⟨rest, hwhole, hrest⟩ := h₁.exists_rest
      refine ⟨.inr fun more hmore => ?_, taken, h₁.taken_prefix ho ht, h₁.sink⟩
      rw [hwhole, List.append_assoc]
      refine (Schedule.refused_of_error ho ht hsched (rest ++ more) fun he => ?_).2
      rw [hresp.ended] at he
      rw [hrest he, hmore (by rw [h₁.atEnd he]), List.append_nil]
    | ok status =>
      generalize watch (watch watcher _) _ = watcher₁
      have hcap := h₁.outputCapacity
      have hno := h₁.noOutput
      rw [← hresp.outputCapacity] at hcap hno
      obtain ⟨sink', c', made, totals', watcher', hdrain, hd⟩ :=
        drain_spec watch hx source totals watcher₁ h₁.sink hcap hno (status == .done)
      simp only [hdrain]
      cases status with
      | done =>
        have hend := (hresp.done rfl).1
        rw [hresp.ended] at hend
        have hwhole := h₁.atEnd hend
        have hsched' := hsched.served hd.served
        rw [List.append_nil] at hsched'
        refine ⟨taken ++ made, by rw [hwhole]; exact hsched', by rw [hwhole], fun htk => ?_⟩
        have hmade := hd.made
        rw [if_pos htk] at hmade
        exact hmade.2
      | blocked =>
        refine ⟨fed ++ more, taken ++ made,
          h₁.emit hstep hresp.ended hresp.inputCapacity hresp.outputCapacity hd rfl, ?_, ?_⟩
        · have hended : c'.input.ended = b.input.ended := by rw [hd.input, hresp.ended]
          have hr₀ : r.counted.bench = r.bench := rfl
          simp only [progress, List.length_append, hended, hr₀] at hgot ⊢
          rcases hgot with hgot | ⟨hgot, howes⟩
          · omega
          · have := h₁.made_of_owes hp hfit htakes howes hstep hd
            omega
        · rw [hd.input]
          exact (hp.waits hfit hstep).imp id fun howes => hp.served howes hd.served

/-! ## Whole runs -/

/-- **A run ends as one of its iterations does that is the last one**, if it may take as many as there
are bytes to be pulled and to be pushed, and two. -/
theorem complete_outcome (hx : x.Faithful) (ho : o.Sound) (ht : o.Tells start) (hp : o.Prompt Owes)
    (htakes : x.takes = false → ∀ b, ¬ Owes b) (h : Follows x start whole r fed taken)
    (hw : (r.bench.input.content = [] ∧ r.bench.input.ended = false) ∨ Owes r.bench) {limit : Nat}
    (hl : whole.bytes.length + (o.future start whole.bytes).output.length + 2 ≤
      limit + r.progress fed taken) :
    Outcome x o Owes start whole 0
      ((r.complete watch limit).1.map fun _ => .done, (r.complete watch limit).2) := by
  -- on the iterations that are left: `hl` says that what can still be got done fits into them
  induction limit generalizing r fed taken with
  | zero =>
    have := h.progress_le ho ht
    omega
  | succ limit ih =>
    have hit := iterate_spec watch hx ho ht hp htakes h hw
    rw [complete]
    rcases hr : r.iterate watch with ⟨f | status, r'⟩ <;> rw [hr] at hit
    · exact hit
    · cases status with
      | blocked =>
        obtain ⟨fed', taken', h', hgot, hw'⟩ := hit
        exact ih h' hw' (by omega)
      | done => exact hit

/-- How a run ends, and what its sink holds then. -/
def Result (Taken : κ → Bytes → Bool → Prop) (takes : Bool) (o : Outlook τ ρ) (start : τ)
    (future : Future ρ) (ending : Except TransferError Unit) :
    Except Failure PipeTotals × Run σ τ κ ω → Prop
  | (.ok _, r) => ending = .ok () ∧ (∀ f, ¬ future.refused f) ∧
      (∃ fed taken, Schedule start fed taken (.ok .done) r.bench) ∧
      (o.ahead r.bench []).Settled ∧ (o.ahead r.bench []).result = future.result ∧
      (takes = true → Taken r.sink future.output true)
  | (.error f, r) =>
      ((∃ e, f = .error e ∧ ending = .error e) ∨ future.refused f) ∧
      ∃ taken, taken <+: future.output ∧ Taken r.sink taken false

/-- **A run of a transducer whose future is known ends as it was to be expected.** -/
theorem complete_spec (hx : x.Faithful) (ho : o.Sound) (ht : o.Tells start) (hp : o.Prompt Owes)
    (htakes : x.takes = false → ∀ b, ¬ Owes b) (h : Follows x start whole r fed taken)
    (hw : (r.bench.input.content = [] ∧ r.bench.input.ended = false) ∨ Owes r.bench) {limit : Nat}
    (hl : whole.bytes.length + (o.future start whole.bytes).output.length + 2 ≤
      limit + r.progress fed taken) :
    Result x.Taken x.takes o start (o.future start whole.bytes) whole.ending
      (r.complete watch limit) := by
  have hout := complete_outcome watch hx ho ht hp htakes h hw hl
  rcases hr : r.complete watch limit with ⟨f | totals, r'⟩ <;> rw [hr] at hout
  · obtain ⟨hexpected, htaken⟩ := hout
    refine ⟨hexpected.imp id fun hrefused => ?_, htaken⟩
    have := hrefused [] fun _ => rfl
    rwa [List.append_nil] at this
  · obtain ⟨taken', hsched, hend, hsink⟩ := hout
    have hf := Schedule.future_of_done ho ht hsched
    have hsettled := (Schedule.settled_of_done ho ht hsched).2
    refine ⟨hend, fun f => ?_, ⟨_, _, hsched⟩, hsettled, by rw [hf]; rfl, fun htk => ?_⟩
    · rw [hf]
      exact hsettled.2 f
    · obtain ⟨hnil, htaken⟩ := hsink htk
      have hout : (o.future start whole.bytes).output = taken' := by
        rw [hf, hnil, List.append_nil]
        simp only [Future.after, hsettled.1, List.append_nil]
      rw [hout]
      exact htaken

omit [Source σ] [Sink κ] in
/-- A run before its first iteration. -/
theorem follows_start {source : σ} {sink : κ} {input output : Queue} {totals : PipeTotals}
    {watcher : ω} (hi : input.content = []) (hout : output.content = []) (he : input.ended = false)
    (hs : x.Delivering source whole) (hk : x.Taken sink [] false) (hci : 0 < input.capacity)
    (hco : x.takes = true → 0 < output.capacity ∧ output.capacity ≤ x.limit)
    (hno : x.takes = false → output.capacity = 0 := by nofun) :
    Follows x start whole (⟨source, ⟨start, input, output⟩, sink, totals, watcher⟩ : Run σ τ κ ω)
      [] [] where
  schedule := .start hi hout
  atEnd h := by rw [he] at h; cases h
  flowing _ := ⟨whole, rfl, hs⟩
  sink := hk
  drained _ := hout
  inputCapacity := hci
  outputCapacity := hco
  noOutput := hno

end Run

section

variable [Source σ] [Sink κ] {x : Ends σ κ} {o : Outlook τ ρ} {Owes : Bench τ → Prop} {start : τ}
  {whole : Flow TransferError} {source : σ} {sink : κ}

theorem Pipe.follows_begin (hx : x.Faithful) (hs : x.Delivering source whole)
    (hk : x.Taken sink [] false) (p : Pipe) (hc : x.takes = true → p.capacity ≤ x.limit)
    (watcher : ω) : Run.Follows x start whole (p.begin source start sink watcher) [] [] := by
  have htk := hx.sink.takesOutput hk
  refine Run.follows_start (Queue.content_ofCapacity _) (Queue.content_ofCapacity _) rfl hs hk
    (by rw [Queue.capacity_ofCapacity]; exact p.capacity_pos) (fun h => ?_) fun h => ?_
  · rw [Queue.capacity_ofCapacity, htk, if_pos h]
    exact ⟨p.capacity_pos, hc h⟩
  · rw [Queue.capacity_ofCapacity, htk, h]
    rfl

/-- A run that is completed from its start. -/
theorem Pipe.watch_spec (hx : x.Faithful)
    (ho : o.Sound) (ht : o.Tells start) (hp : o.Prompt Owes)
    (htakes : x.takes = false → ∀ b, ¬ Owes b)
    (hs : x.Delivering source whole) (hk : x.Taken sink [] false) (p : Pipe)
    (hc : x.takes = true → p.capacity ≤ x.limit) (look : ω → Event → ω) (watcher : ω) {limit : Nat}
    (hl : whole.bytes.length + (o.future start whole.bytes).output.length + 2 ≤ limit) :
    Run.Result x.Taken x.takes o start (o.future start whole.bytes) whole.ending
      (p.watch look watcher limit source start sink) :=
  Run.complete_spec look hx ho ht hp htakes (p.follows_begin hx hs hk hc watcher)
    (.inl ⟨Queue.content_ofCapacity _, rfl⟩) (by simp only [Run.progress]; omega)

variable {Taken : κ → Bytes → Bool → Prop} {takes : Bool} {bound : Nat}

/-- The same of a run that nobody watches, from any source that delivers the flow. -/
theorem Pipe.run_of_le (ho : o.Sound) (ht : o.Tells start) (hp : o.Prompt Owes)
    (hsink : Sink.Faithful Taken takes framePayloadLimit) (htakes : takes = false → ∀ b, ¬ Owes b)
    (hs : Source.Delivers source whole) (hk : Taken sink [] false) (p : Pipe) {limit : Nat}
    (hl : iterationsFor whole.bytes.length (o.future start whole.bytes).output.length ≤ limit) :
    Run.Result Taken takes o start (o.future start whole.bytes) whole.ending
      (p.run limit source start sink) := by
  obtain ⟨Delivering, hsource, hdel⟩ := hs
  exact Pipe.watch_spec (x := ⟨Delivering, Taken, takes, framePayloadLimit⟩) ⟨hsource, hsink⟩ ho ht hp
    htakes hdel hk p (fun _ => p.capacity_le) _ () hl

/-- As many iterations are enough as the source has bytes and the output may have. -/
theorem Pipe.run_spec (ho : o.Sound) (ht : o.Tells start) (hp : o.Prompt Owes)
    (hsink : Sink.Faithful Taken takes framePayloadLimit) (htakes : takes = false → ∀ b, ¬ Owes b)
    (hs : Source.Delivers source whole) (hk : Taken sink [] false) (p : Pipe)
    (bound : Nat) (hb : whole.bytes.length ≤ Source.available source →
      (o.future start whole.bytes).output.length ≤ bound) :
    Run.Result Taken takes o start (o.future start whole.bytes) whole.ending
      (p.run (iterationsFor (Source.available source) bound) source start sink) := by
  have havail := hs.available
  exact p.run_of_le ho ht hp hsink htakes hs hk
    (Nat.add_le_add_right (Nat.add_le_add havail (hb havail)) 2)

/-- **A run fails only as its flow does, or as was to be expected** whatever should follow a flow that
has been broken off. -/
theorem Pipe.expected_of_error (ho : o.Sound) (ht : o.Tells start) (hp : o.Prompt Owes)
    (hsink : Sink.Faithful Taken takes framePayloadLimit) (htakes : takes = false → ∀ b, ¬ Owes b)
    (hs : Source.Delivers source whole) (hk : Taken sink [] false) {p : Pipe}
    (hb : whole.bytes.length ≤ Source.available source →
      (o.future start whole.bytes).output.length ≤ bound) {f : Failure}
    (hr : (p.run (iterationsFor (Source.available source) bound) source start sink).1 = .error f) :
    Run.Expected o start whole f := by
  obtain ⟨Delivering, hsource, hdel⟩ := hs
  have havail := hsource.available hdel
  let x : Ends σ κ := ⟨Delivering, Taken, takes, framePayloadLimit⟩
  have hx : x.Faithful := ⟨hsource, hsink⟩
  have hl : whole.bytes.length + (o.future start whole.bytes).output.length + 2 ≤
      iterationsFor (Source.available source) bound +
        (p.begin source start sink ()).progress [] [] :=
    Nat.le_trans (Nat.add_le_add_right (Nat.add_le_add havail (hb havail)) 2) (Nat.le_add_right _ _)
  have hout := Run.complete_outcome (fun (w : Unit) _ => w) hx ho ht hp htakes
    (p.follows_begin hx hdel hk (fun _ => p.capacity_le) ()) (.inl ⟨Queue.content_ofCapacity _, rfl⟩)
    hl
  change Run.Outcome x o Owes start whole 0 ((p.run _ source start sink).1.map _, _) at hout
  rw [hr] at hout
  exact hout.1

end

end BlockSync
