import BlockSync.Proofs.Orderly
import BlockSync.Proofs.Pipe

/-!
# Runs over finite streams

A run of a transducer that makes only so much of its input comes to an end when its source does,
whatever goes wrong at either of its ends.

* `Source.AtMost`: a source brings no more than so many bytes;
* `Transducer.Thrifty`: a transducer makes no more than is due of what it takes, and is blocked only
  for input or for room;
* `Run.Passes`, `Run.Advances`: iterations that are not the last one, and what they get done;
* `Run.Awaits`: what a run has still before it;
* **`Run.Awaits.finishes`**: every iteration but the last gets something done, so that the run ends.
-/

namespace BlockSync

variable {σ τ κ ω ρ : Type}

/-! ## Sources -/

namespace Source

variable [Source σ]

/-- What a pull leaves of `count` bytes. -/
def Leaves (Within : σ → Nat → Prop) (room count : Nat) : Except TransferError Delivery × σ → Prop
  | (.error _, _) => True
  | (.ok d, source) => d.count ≤ room ∧ d.count ≤ count ∧
      ((d.ended || d.count == 0) = false → Within source (count - d.count))

/-- A source brings at most `count` bytes, whatever the sizes of the pulls, until it ends or fails. -/
def AtMost (source : σ) (count : Nat) : Prop :=
  ∃ Within : σ → Nat → Prop, Within source count ∧
    ∀ {source : σ} {count room : Nat}, Within source count → 0 < room →
      Leaves Within room count (Source.pull source room)

theorem AtMost.pull {source : σ} {count room : Nat} (h : AtMost source count) (hr : 0 < room) :
    Leaves AtMost room count (Source.pull source room) := by
  obtain ⟨Within, hw, hpull⟩ := h
  have hl := hpull hw hr
  rcases hp : Source.pull source room with ⟨e | d, source'⟩ <;> rw [hp] at hl
  · trivial
  · exact ⟨hl.1, hl.2.1, fun hopen => ⟨Within, hl.2.2 hopen, hpull⟩⟩

/-- A source that delivers a flow brings at most the bytes of the flow. -/
theorem Delivers.atMost {source : σ} {f : Flow TransferError} (h : Delivers source f) :
    AtMost source f.bytes.length := by
  obtain ⟨Holds, hfaithful, hholds⟩ := h
  refine ⟨fun source count => ∃ f, Holds source f ∧ f.bytes.length ≤ count, ⟨f, hholds, Nat.le_refl _⟩,
    ?_⟩
  rintro source count room ⟨f, hf, hle⟩ hroom
  have hout := hfaithful.pull hf hroom
  rcases hp : Source.pull source room with ⟨e | d, source'⟩ <;> rw [hp] at hout
  · trivial
  obtain ⟨hcount, hle', hnext⟩ := hout
  cases hopen : d.ended || d.count == 0 with
  | true =>
    rw [hopen, if_pos rfl] at hnext
    rw [hnext] at hle
    exact ⟨hle', hcount ▸ hle, fun hc => by rw [hopen] at hc; cases hc⟩
  | false =>
    rw [hopen, if_neg (by decide)] at hnext
    obtain ⟨rest, hrest, hholds'⟩ := hnext
    rw [hrest, Flow.after, List.length_append, ← hcount] at hle
    exact ⟨hle', by omega, fun _ => ⟨rest, hholds', by omega⟩⟩

end Source

/-- However the bytes of its reader arrive, a raw source brings no more than those. -/
theorem RawSource.atMost (s : RawSource) : Source.AtMost s s.flow.bytes.length := s.delivers.atMost

/-! ## Transducers -/

/-- If `Due b n d` says that at most `d` bytes are to be put out when at most `n` more bytes are to
arrive, then that stays so; and `Owes b` says that a byte will be put out as soon as there is room. -/
structure Transducer.Thrifty [Transducer τ] (Due : Bench τ → Nat → Nat → Prop)
    (Owes : Bench τ → Prop) : Prop where
  served : ∀ {b c : Bench τ} {fed taken : Bytes} {n d : Nat}, Due b n d → b.Served c fed taken →
    fed.length ≤ n → Due c (n - fed.length) d
  step : ∀ {b c : Bench τ} {status : Status} {n d : Nat}, Due b n d →
    Transducer.step b = (.ok status, c) →
      ∃ made, c.output.content.length = b.output.content.length + made ∧ made ≤ d ∧ Due c n (d - made)
  /-- Steps fail only for a cause that can be told. -/
  error : ∀ {b c : Bench τ} {f : Failure} {n d : Nat}, Due b n d →
    Transducer.step b = (.error f, c) → ∃ e, f = .error e
  waits : ∀ {b c : Bench τ} {n d : Nat}, Due b n d → Transducer.step b = (.ok .blocked, c) →
    (c.input.content = [] ∧ c.input.ended = false) ∨ Owes c
  stays : ∀ {b c : Bench τ} {fed taken : Bytes}, Owes b → b.Served c fed taken → Owes c
  pays : ∀ {b c : Bench τ} {n d : Nat}, Due b n d → Owes b → 0 < b.output.room →
    Transducer.step b = (.ok .blocked, c) → b.output.content.length < c.output.content.length

namespace Outlook

variable (o : Outlook τ ρ)

/-- How much is to be expected of a bench when at most `n` more bytes are to arrive. -/
def Due (b : Bench τ) (n d : Nat) : Prop :=
  o.Fit b ∧ ∀ rest : Bytes, rest.length ≤ n → (b.input.ended = true → rest = []) →
    (o.ahead b rest).output.length ≤ d

variable {o} [Transducer τ] {Owes : Bench τ → Prop}

omit [Transducer τ] in
/-- How much is to be expected at the start. -/
theorem Tells.due {start : τ} {n d : Nat} (ht : o.Tells start)
    (hd : ∀ rest : Bytes, rest.length ≤ n → (o.future start rest).output.length ≤ d)
    (input output : Queue) (hnil : input.content = []) : o.Due ⟨start, input, output⟩ n d := by
  refine ⟨ht input output hnil, ?_⟩
  intro rest hrest _
  rw [ahead, hnil]
  exact hd rest hrest

/-- **A transducer whose future is known makes no more than was to be expected.** -/
theorem Sound.thrifty (ho : o.Sound) (hp : o.Prompt Owes)
    (hr : ∀ t rest f, (o.future t rest).refused f → ∃ e, f = .error e) :
    Transducer.Thrifty o.Due Owes where
  served {b c fed taken n d} h hv hn := by
    refine ⟨ho.served h.1 hv, fun rest hrest hend => ?_⟩
    have hahead : o.ahead c rest = o.ahead b (fed ++ rest) := by
      rw [ahead, ahead, hv.state, hv.input, List.append_assoc]
    rw [hahead]
    refine h.2 _ (by rw [List.length_append]; omega) fun he => ?_
    obtain ⟨rfl, he'⟩ := hv.ended he
    exact hend he'
  step {b c status n d} h hstep := by
    have hresp := ho.step h.1 hstep
    obtain ⟨made, hout, hkept⟩ := hresp.kept status rfl
    have hle : ∀ rest : Bytes, rest.length ≤ n → (b.input.ended = true → rest = []) →
        made.length + (o.ahead c rest).output.length ≤ d := fun rest hn hend => by
      have hd := h.2 rest hn hend
      rwa [hkept rest hend, Future.after, List.length_append] at hd
    refine ⟨made.length, by rw [hout, List.length_append], ?_, hresp.fit status rfl, ?_⟩
    · have := hle [] (Nat.zero_le n) fun _ => rfl
      omega
    · intro rest hn hend
      rw [hresp.ended] at hend
      have := hle rest hn hend
      omega
  error {b c f n d} h hstep := by
    obtain ⟨made, -, hbreaks⟩ := (ho.step h.1 hstep).error f rfl
    exact hr _ _ _ (hbreaks [] fun _ => rfl).2
  waits h hstep := hp.waits h.1 hstep
  stays := hp.served
  pays h := hp.pays h.1

end Outlook

/-! ## What iterations get done -/

namespace Run

/-- Between two states of a run a byte was pulled, the end was noticed, or a byte was pushed. -/
def Advances (r s : Run σ τ κ ω) : Prop :=
  r.totals.pulled < s.totals.pulled ∨ (r.bench.input.ended = false ∧ s.bench.input.ended = true) ∨
    r.totals.pushed < s.totals.pushed

/-- What a run has got done. -/
def gained (r : Run σ τ κ ω) : Nat := r.totals.pulled + r.bench.input.ended.toNat + r.totals.pushed

/-- Nothing that a run has got done is undone, and an iteration is counted. -/
structure Onward (r s : Run σ τ κ ω) : Prop where
  iterations : s.totals.iterations = r.totals.iterations + 1
  pulled : r.totals.pulled ≤ s.totals.pulled
  ended : r.bench.input.ended = true → s.bench.input.ended = true
  pushed : r.totals.pushed ≤ s.totals.pushed

variable {r s : Run σ τ κ ω}

theorem Onward.toNat_le (h : r.Onward s) : r.bench.input.ended.toNat ≤ s.bench.input.ended.toNat := by
  have he := h.ended
  cases hr : r.bench.input.ended with
  | false => exact Nat.zero_le _
  | true => rw [he hr]

theorem Onward.gained_le (h : r.Onward s) : r.gained ≤ s.gained :=
  Nat.add_le_add (Nat.add_le_add h.pulled h.toNat_le) h.pushed

/-- Whatever was got done is a byte pulled, the end noticed, or a byte pushed. -/
theorem Onward.advances (h : r.Onward s) (hlt : r.gained < s.gained) : r.Advances s := by
  have hp := h.pulled
  have hq := h.pushed
  simp only [gained] at hlt
  by_cases he : s.bench.input.ended.toNat ≤ r.bench.input.ended.toNat
  · rcases Nat.lt_or_ge r.totals.pulled s.totals.pulled with hlt' | hge
    · exact .inl hlt'
    · exact .inr (.inr (by omega))
  · refine .inr (.inl ?_)
    cases hr : r.bench.input.ended <;> cases hs : s.bench.input.ended <;> simp [hr, hs] at he ⊢

variable [Source σ] [Transducer τ] [Sink κ] (watch : ω → Event → ω)

/-- Iterations none of which is the last one lead from a run to another. -/
inductive Passes (r : Run σ τ κ ω) : Run σ τ κ ω → Prop
  | refl : Passes r r
  | iterate {s t : Run σ τ κ ω} : Passes r s → s.iterate watch = (.ok .blocked, t) → Passes r t

/-- A run has ended with success, in not too many iterations, or for a cause that can be told. -/
def Accounted : Except Failure PipeTotals → Prop
  | .ok totals => totals.iterations ≤ totals.pulled + totals.pushed + 2
  | .error f => ∃ e, f = .error e

/-- With as many iterations as it needs a run ends, and each of them but the last gets something
done. -/
structure Finishes (r : Run σ τ κ ω) : Prop where
  ends : ∃ enough result last, Accounted result ∧
    ∀ limit, enough ≤ limit → r.complete watch limit = (result, last)
  advances : ∀ {s t : Run σ τ κ ω}, r.Passes watch s → s.iterate watch = (.ok .blocked, t) →
    s.Advances t

/-! ## What a run has before it -/

variable {Due : Bench τ → Nat → Nat → Prop} {Owes : Bench τ → Prop} {n d : Nat}

omit [Transducer τ] [Sink κ] in
/-- At most `n` bytes are to be pulled by a run, and at most `d` bytes are to be put out. -/
structure Awaits (Due : Bench τ → Nat → Nat → Prop) (Owes : Bench τ → Prop) (r : Run σ τ κ ω)
    (n d : Nat) : Prop where
  source : r.bench.input.ended = false → Source.AtMost r.source n
  due : Due r.bench n d
  drained : r.bench.output.content = []
  inputCapacity : 0 < r.bench.input.capacity
  outputCapacity : 0 < r.bench.output.capacity ∨ ∀ b, ¬ Owes b
  waits : (r.bench.input.content = [] ∧ r.bench.input.ended = false) ∨ Owes r.bench

omit [Transducer τ] [Sink κ] in
/-- The input of the run `r` was refilled, which led to `s`, where at most `n` bytes are still to be
pulled. -/
structure Refills (Due : Bench τ → Nat → Nat → Prop) (Owes : Bench τ → Prop) (r s : Run σ τ κ ω)
    (n n' d : Nat) : Prop where
  source : s.bench.input.ended = false → Source.AtMost s.source n'
  due : Due s.bench n' d
  output : s.bench.output = r.bench.output
  inputCapacity : s.bench.input.capacity = r.bench.input.capacity
  ended : r.bench.input.ended = true → s.bench.input.ended = true
  iterations : s.totals.iterations = r.totals.iterations + 1
  pulled : s.totals.pulled + n' = r.totals.pulled + n
  le : n' ≤ n
  pushed : s.totals.pushed = r.totals.pushed
  /-- Something was got done, or output is owed. -/
  gained : r.gained < s.gained ∨ r.gained ≤ s.gained ∧ Owes s.bench

omit [Sink κ] in
/-- What a pull brings was among what was to be pulled. -/
theorem Awaits.pulled (ht : Transducer.Thrifty Due Owes) {source source' : σ} {state : τ}
    {input output q : Queue} {sink : κ} {totals : PipeTotals} {watcher watcher' : ω}
    (h : (⟨source, ⟨state, input, output⟩, sink, totals, watcher⟩ : Run σ τ κ ω).Awaits Due Owes n d)
    {p : Delivery} {bs : Bytes} (hend : input.ended = false) (hlen : bs.length = p.count)
    (hle : p.count ≤ n)
    (hnext : (p.ended || p.count == 0) = false → Source.AtMost source' (n - p.count))
    (hcont : q.content = input.content ++ bs) (hqe : q.ended = false)
    (hqc : q.capacity = input.capacity) (pulls : Nat) :
    (⟨source, ⟨state, input, output⟩, sink, totals, watcher⟩ : Run σ τ κ ω).Refills Due Owes
      ⟨source', ⟨state, if p.ended || p.count == 0 then q.finish else q, output⟩, sink,
        { totals with
          iterations := totals.iterations + 1, pulls := pulls, pulled := totals.pulled + p.count },
        watcher'⟩
      n (n - p.count) d := by
  let q' : Queue := if p.ended || p.count == 0 then q.finish else q
  have hq' : q'.content = q.content ∧ q'.capacity = q.capacity ∧
      q'.ended = (p.ended || p.count == 0) := by
    simp only [q']
    cases p.ended || p.count == 0 with
    | true => exact ⟨rfl, rfl, rfl⟩
    | false => exact ⟨rfl, rfl, hqe⟩
  have hv : Bench.Served ⟨state, input, output⟩ ⟨state, q', output⟩ bs [] :=
    ⟨rfl, hq'.1.trans hcont, fun he => by simp [hend] at he, rfl⟩
  have hdue := ht.served h.due hv (by omega)
  rw [hlen] at hdue
  refine ⟨fun he => hnext (hq'.2.2.symm.trans he), hdue, rfl, hq'.2.1.trans hqc,
    fun he => by simp [hend] at he, rfl, ?_, Nat.sub_le _ _, rfl, .inl ?_⟩
  · simp only
    omega
  · change totals.pulled + input.ended.toNat + totals.pushed <
      totals.pulled + p.count + q'.ended.toNat + totals.pushed
    rw [hend, hq'.2.2]
    by_cases hc : p.count = 0
    · simp [hc]
    · simp only [Bool.toNat_false]
      omega

omit [Sink κ] in
/-- The queue is refilled, or it need not be. -/
theorem Awaits.refill (ht : Transducer.Thrifty Due Owes) (h : r.Awaits Due Owes n d) :
    match r.counted.refill watch with
    | (.error f, _) => ∃ e, f = .error e
    | (.ok (), s) => ∃ n', r.Refills Due Owes s n n' d := by
  obtain ⟨source, ⟨state, input, output⟩, sink, totals, watcher⟩ := r
  dsimp only [counted]
  simp only [Run.refill]
  by_cases hend : input.ended = true
  · rw [if_pos hend]
    have howes : Owes ⟨state, input, output⟩ := h.waits.resolve_left fun hc => by simp [hend] at hc
    exact ⟨n, h.source, h.due, rfl, rfl, id, rfl, rfl, Nat.le_refl _, rfl, .inr ⟨Nat.le_refl _, howes⟩⟩
  rw [if_neg hend]
  have hend := Bool.eq_false_iff.mpr hend
  by_cases hroom : input.realign.room = 0
  · -- the queue is full
    rw [if_pos hroom]
    have hne : input.content ≠ [] := by
      intro hnil
      have := h.inputCapacity
      rw [Queue.room_realign, hnil] at hroom
      exact absurd hroom (Nat.ne_of_gt this)
    have howes : Owes ⟨state, input, output⟩ := h.waits.resolve_left fun hc => hne hc.1
    have hv : Bench.Served ⟨state, input, output⟩ ⟨state, input.realign, output⟩ [] [] :=
      ⟨rfl, by rw [Queue.content_realign, List.append_nil], fun he => by simp [hend] at he, rfl⟩
    refine ⟨n, fun _ => h.source hend, ht.served h.due hv (Nat.zero_le _), rfl,
      Queue.capacity_realign _, fun he => by simp [hend] at he, rfl, rfl, Nat.le_refl _, rfl,
      .inr ⟨?_, ht.stays howes hv⟩⟩
    simp [gained]
  · rw [if_neg hroom]
    have hpull := (h.source hend).pull (Nat.pos_of_ne_zero hroom)
    rcases hp : Source.pull source input.realign.room with ⟨e | p, source'⟩ <;> rw [hp] at hpull
    · exact ⟨e, rfl⟩
    · obtain ⟨hfits, hle, hnext⟩ := hpull
      obtain ⟨q, hhold, hcont, hlen, hqe, hqc⟩ := input.realign.hold_received hfits
      rw [Queue.content_realign] at hcont
      rw [Queue.ended_realign, hend] at hqe
      rw [Queue.capacity_realign] at hqc
      simp only [hhold]
      exact ⟨n - p.count, h.pulled ht hend hlen hle hnext hcont hqe hqc _⟩

omit [Source σ] [Transducer τ] in
/-- What was put out is given to the sink, and nothing is left of it. -/
structure Drained (r s : Run σ τ κ ω) : Prop where
  source : s.source = r.source
  served : r.bench.Served s.bench [] r.bench.output.content
  input : s.bench.input = r.bench.input
  empty : s.bench.output.content = []
  outputCapacity : s.bench.output.capacity = r.bench.output.capacity
  totals : s.totals = { r.totals with pushed := r.totals.pushed + r.bench.output.content.length }

omit [Source σ] [Transducer τ] in
/-- A push may fail, but if it does not, the sink has everything. -/
theorem drain_drained (r : Run σ τ κ ω) (done : Bool) :
    match r.drain watch done with
    | (.error f, _) => ∃ e, f = .error e
    | (.ok (), s) => r.Drained s := by
  obtain ⟨source, ⟨state, input, output⟩, sink, totals, watcher⟩ := r
  simp only [drain]
  by_cases hc : (output.capacity != 0 && (done || !output.isEmpty)) = true
  · rw [if_pos hc]
    rcases hpush : Sink.push sink output.content done with ⟨e | ⟨⟩, sink'⟩
    · exact ⟨e, rfl⟩
    · refine ⟨rfl, ⟨rfl, (List.append_nil _).symm, fun he => ⟨rfl, he⟩, ?_⟩, rfl,
        Queue.content_clear _, rfl, ?_⟩
      · rw [Queue.content_clear, List.append_nil]
      · rw [Queue.length_content]
  · rw [if_neg hc]
    have hnil : output.content = [] := by
      by_cases hz : output.capacity = 0
      · have hl := output.length_le_capacity
        rw [hz] at hl
        exact List.eq_nil_of_length_eq_zero (Nat.le_zero.mp hl)
      · apply output.isEmpty_iff.mp
        by_contra he
        simp [hz, he] at hc
    refine ⟨rfl, ⟨rfl, (List.append_nil _).symm, fun he => ⟨rfl, he⟩, ?_⟩, rfl, hnil, rfl, ?_⟩
    · rw [hnil, List.append_nil]
    · rw [hnil, List.length_nil, Nat.add_zero]

/-- A step of the run `r` and the push behind it, of `made` bytes, have led to `s`. -/
structure Emits (Due : Bench τ → Nat → Nat → Prop) (Owes : Bench τ → Prop) (r : Run σ τ κ ω)
    (status : Status) (s : Run σ τ κ ω) (n d made : Nat) : Prop where
  source : s.source = r.source
  due : Due s.bench n (d - made)
  made_le : made ≤ d
  drained : s.bench.output.content = []
  ended : s.bench.input.ended = r.bench.input.ended
  inputCapacity : s.bench.input.capacity = r.bench.input.capacity
  outputCapacity : s.bench.output.capacity = r.bench.output.capacity
  totals : s.totals = { r.totals with pushed := r.totals.pushed + made }
  waits : status = .blocked →
    (s.bench.input.content = [] ∧ s.bench.input.ended = false) ∨ Owes s.bench
  pays : status = .blocked → Owes r.bench → 0 < r.bench.output.capacity → 0 < made

omit [Source σ] [Sink κ] in
theorem emits_of_step (ht : Transducer.Thrifty Due Owes) (ho : Transducer.Orderly τ) {source : σ}
    {b c : Bench τ} {sink : κ} {totals : PipeTotals} {watcher watcher' : ω} {status : Status}
    (hdue : Due b n d) (hempty : b.output.content = [])
    (hstep : Transducer.step b = (.ok status, c))
    (hd : (⟨source, c, sink, totals, watcher'⟩ : Run σ τ κ ω).Drained s) :
    ∃ made, (⟨source, b, sink, totals, watcher⟩ : Run σ τ κ ω).Emits Due Owes status s n d made := by
  have hin := ho.input b
  have hout := ho.output b
  rw [hstep] at hin hout
  obtain ⟨made, hmade, hle, hnext⟩ := ht.step hdue hstep
  rw [hempty, List.length_nil, Nat.zero_add] at hmade
  refine ⟨made, hd.source, ht.served hnext hd.served (Nat.zero_le n), hle, hd.empty, ?_, ?_,
    hd.outputCapacity.trans hout.capacity, ?_, ?_, ?_⟩
  · rw [hd.input]
    exact hin.ended
  · rw [hd.input]
    exact hin.capacity
  · rw [hd.totals, ← hmade]
  · rintro rfl
    rw [hd.input]
    exact (ht.waits hdue hstep).imp_right fun howes => ht.stays howes hd.served
  · rintro rfl howes hcap
    have hpays := ht.pays hdue howes (by rwa [Queue.room_of_empty _ hempty]) hstep
    rwa [hempty, hmade] at hpays

/-! ## Iterations -/

section

variable {n' made : Nat} {status : Status} {r₁ : Run σ τ κ ω}

omit [Transducer τ] [Sink κ] in
/-- What an iteration gets done is what its refill and its step get done. -/
theorem Refills.onward (h : r.Refills Due Owes r₁ n n' d) (he : r₁.Emits Due Owes status s n' d made) :
    r.Onward s ∧ s.gained = r₁.gained + made ∧
      n' + (d - made) + s.totals.pulled + s.totals.pushed = n + d + r.totals.pulled + r.totals.pushed := by
  have hpulled := h.pulled
  have hpushed := h.pushed
  have hle := h.le
  have hmade := he.made_le
  have htp : s.totals.pulled = r₁.totals.pulled := by rw [he.totals]
  have htq : s.totals.pushed = r₁.totals.pushed + made := by rw [he.totals]
  refine ⟨⟨?_, by omega, fun hend => he.ended.trans (h.ended hend), by omega⟩, ?_, by omega⟩
  · rw [he.totals]
    exact h.iterations
  · simp only [Run.gained, htp, htq, he.ended]
    omega

omit [Transducer τ] [Sink κ] in
/-- After an iteration that is not the last one a run has less before it. -/
theorem Awaits.emitted (h : r.Awaits Due Owes n d) (hr : r.Refills Due Owes r₁ n n' d)
    (he : r₁.Emits Due Owes .blocked s n' d made) :
    s.Awaits Due Owes n' (d - made) ∧ r.gained < s.gained := by
  obtain ⟨-, hgained, -⟩ := hr.onward he
  have hcap := h.outputCapacity
  rw [← hr.output] at hcap
  refine ⟨⟨fun hend => ?_, he.due, he.drained, ?_, ?_, he.waits rfl⟩, ?_⟩
  · rw [he.source]
    exact hr.source (he.ended.symm.trans hend)
  · rw [he.inputCapacity, hr.inputCapacity]
    exact h.inputCapacity
  · rwa [he.outputCapacity]
  · rcases hr.gained with hlt | ⟨hge, howes⟩
    · omega
    · have := he.pays rfl howes (hcap.resolve_right fun hno => hno _ howes)
      omega

end

/-- What an iteration leads to. -/
def Leads (Due : Bench τ → Nat → Nat → Prop) (Owes : Bench τ → Prop) (r : Run σ τ κ ω) (n d : Nat) :
    Except Failure Status × Run σ τ κ ω → Prop
  | (.ok .blocked, s) => r.Onward s ∧ r.gained < s.gained ∧ ∃ n' d', s.Awaits Due Owes n' d' ∧
      n' + d' + s.totals.pulled + s.totals.pushed = n + d + r.totals.pulled + r.totals.pushed
  | (.ok .done, s) => r.Onward s
  | (.error f, _) => ∃ e, f = .error e

/-- **An iteration that is not the last one pulls a byte, notices the end or pushes a byte.** -/
theorem Awaits.iterate (ht : Transducer.Thrifty Due Owes) (ho : Transducer.Orderly τ)
    (h : r.Awaits Due Owes n d) : r.Leads Due Owes n d (r.iterate watch) := by
  have hrefill := h.refill watch ht
  rw [iterate_eq]
  rcases hr : r.counted.refill watch with ⟨f | ⟨⟩, r₁⟩ <;> rw [hr] at hrefill
  · exact hrefill
  obtain ⟨n', h₁⟩ := hrefill
  obtain ⟨source, b, sink, totals, watcher⟩ := r₁
  have hempty : b.output.content = [] := by
    rw [h₁.output]
    exact h.drained
  rcases hstep : Transducer.step b with ⟨f | status, c⟩ <;> simp only [step, hstep]
  · exact ht.error h₁.due hstep
  generalize watch (watch watcher _) _ = watcher₁
  have hdrain := drain_drained watch (⟨source, c, sink, totals, watcher₁⟩ : Run σ τ κ ω)
    (status == .done)
  rcases hd : (⟨source, c, sink, totals, watcher₁⟩ : Run σ τ κ ω).drain watch (status == .done) with
    ⟨f | ⟨⟩, s⟩ <;> rw [hd] at hdrain
  · exact hdrain
  have hemits : ∃ made, (⟨source, b, sink, totals, watcher⟩ : Run σ τ κ ω).Emits Due Owes status s n' d
      made := emits_of_step ht ho h₁.due hempty hstep hdrain
  obtain ⟨made, he⟩ := hemits
  have honward := h₁.onward he
  cases status with
  | done => exact honward.1
  | blocked =>
    have hawaits := h.emitted h₁ he
    exact ⟨honward.1, hawaits.2, n', d - made, hawaits.1, honward.2.2⟩

/-- What is awaited is awaited after every iteration but the last. -/
theorem Awaits.passes (ht : Transducer.Thrifty Due Owes) (ho : Transducer.Orderly τ)
    (h : r.Awaits Due Owes n d) (hp : r.Passes watch s) : ∃ n d, s.Awaits Due Owes n d := by
  induction hp with
  | refl => exact ⟨n, d, h⟩
  | iterate _ hit ih =>
    obtain ⟨n, d, hs⟩ := ih
    have hl := hs.iterate watch ht ho
    rw [hit] at hl
    obtain ⟨-, -, n', d', ht', -⟩ := hl
    exact ⟨n', d', ht'⟩

/-- A run whose iterations are within what it has got done ends so, too. -/
theorem Awaits.ends (ht : Transducer.Thrifty Due Owes) (ho : Transducer.Orderly τ)
    (h : r.Awaits Due Owes n d) (hi : r.totals.iterations ≤ r.gained) :
    ∃ enough result last, Accounted result ∧
      ∀ limit, enough ≤ limit → r.complete watch limit = (result, last) := by
  -- on all that is still before the run, the end of its source included
  induction hm : n + d + (1 - r.bench.input.ended.toNat) using Nat.strong_induction_on
    generalizing r n d with
  | _ m ih =>
    have hit := h.iterate watch ht ho
    rcases hr : r.iterate watch with ⟨f | _ | _, s⟩ <;> rw [hr] at hit
    · refine ⟨1, .error f, s, hit, fun limit hlimit => ?_⟩
      rw [← Nat.sub_add_cancel hlimit, complete, hr]
    · obtain ⟨honward, hgained, n', d', hs, hle⟩ := hit
      have hlt : n' + d' + (1 - s.bench.input.ended.toNat) < m := by
        have hb := Bool.toNat_le s.bench.input.ended
        have := honward.pulled
        have := honward.pushed
        have := honward.toNat_le
        simp only [gained] at hgained
        omega
      obtain ⟨enough, result, last, hresult, hends⟩ :=
        ih _ hlt hs (by rw [honward.iterations]; omega) rfl
      refine ⟨enough + 1, result, last, hresult, fun limit hlimit => ?_⟩
      obtain ⟨k, rfl⟩ : ∃ k, limit = k + 1 := ⟨limit - 1, by omega⟩
      rw [complete, hr]
      exact hends k (by omega)
    · refine ⟨1, .ok s.totals, s, ?_, fun limit hlimit => ?_⟩
      · have hb := Bool.toNat_le s.bench.input.ended
        have := hit.gained_le
        have := hit.iterations
        simp only [Accounted, gained] at *
        omega
      · rw [← Nat.sub_add_cancel hlimit, complete, hr]

/-- **A run that has only so much before it ends**, and gets something done until then. -/
theorem Awaits.finishes (ht : Transducer.Thrifty Due Owes) (ho : Transducer.Orderly τ)
    (h : r.Awaits Due Owes n d) (hi : r.totals.iterations ≤ r.gained) : r.Finishes watch where
  ends := h.ends watch ht ho hi
  advances hp hit := by
    obtain ⟨n, d, hs⟩ := h.passes watch ht ho hp
    have hl := hs.iterate watch ht ho
    rw [hit] at hl
    exact hl.1.advances hl.2.1

end Run

namespace Pipe

variable [Source σ] [Sink κ] {Due : Bench τ → Nat → Nat → Prop} {Owes : Bench τ → Prop} {source : σ}
  {start : τ} {sink : κ} {n d : Nat}

/-- What a run has before it at its start. -/
theorem awaits_begin (hs : Source.AtMost source n)
    (hd : ∀ input output : Queue, input.content = [] → Due ⟨start, input, output⟩ n d)
    (hk : Sink.takesOutput sink = true ∨ ∀ b, ¬ Owes b) (p : Pipe) (watcher : ω) :
    (p.begin source start sink watcher).Awaits Due Owes n d := by
  refine ⟨fun _ => hs, ?_, ?_, ?_, ?_, ?_⟩
  · exact hd _ _ (Queue.content_ofCapacity _)
  · exact Queue.content_ofCapacity _
  · simp only [begin, Queue.capacity_ofCapacity]
    exact p.capacity_pos
  · refine hk.imp_left fun htakes => ?_
    simp only [begin, Queue.capacity_ofCapacity, htakes, if_true]
    exact p.capacity_pos
  · exact .inl ⟨Queue.content_ofCapacity _, rfl⟩

/-- **A run of a thrifty transducer over a finite stream ends**, whatever goes wrong at either of its
ends. -/
theorem finishes_of_thrifty [Transducer τ] (ht : Transducer.Thrifty Due Owes)
    (ho : Transducer.Orderly τ) (hs : Source.AtMost source n)
    (hd : ∃ d, ∀ input output : Queue, input.content = [] → Due ⟨start, input, output⟩ n d)
    (hk : Sink.takesOutput sink = true ∨ ∀ b, ¬ Owes b) (p : Pipe) (look : ω → Event → ω)
    (watcher : ω) : (p.begin source start sink watcher).Finishes look := by
  obtain ⟨d, hd⟩ := hd
  exact (p.awaits_begin hs hd hk watcher).finishes look ht ho (Nat.zero_le _)

end Pipe

end BlockSync
