import BlockSync.Pipe
import BlockSync.Proofs.Orderly

/-!
# The log of a run

A run is watched by writing down what it does. The log shows every call that was made of the source,
the transducer and the sink, and the queues before and after each step; from it alone the books of the
run are kept. They are right at every moment of every run of an orderly transducer from a bounded
source, whatever the sink, and also in a run that fails.

* `Books`, `Pipe.books`: what the log tells of the bytes that went through the run;
* `Run.Kept`: what holds of a run at every moment; `Run.kept_refill`, `Run.kept_step`,
  `Run.kept_drain`: one lemma for each part of an iteration;
* `Run.Concluded`, `Run.kept_complete`: how a run ends;
* **`Pipe.transparent`**: the queues lose, repeat and reorder nothing;
* **`Pipe.disciplined`**: which calls are made, and of which is the last.
-/

namespace BlockSync

/-! ## Events -/

namespace Event

/-- A log with one more event. -/
def record (log : List Event) (e : Event) : List Event := log ++ [e]

/-- The failure of a call. -/
def failure : Event → Option Failure
  | .pulled _ (.error e) => some (.error e)
  | .stepped (.error f) _ _ => some f
  | .pushed _ _ (.error e) => some (.error e)
  | _ => none

/-- Whether a pull told the end of the stream, or brought nothing. -/
def endsStream : Event → Bool
  | .pulled _ (.ok d) => d.ended || d.count == 0
  | _ => false

/-- Whether a chunk was pushed. -/
def isPush : Event → Bool
  | .pushed _ _ _ => true
  | _ => false

/-- Whether a chunk was pushed and marked as the last one. -/
def isLastPush : Event → Bool
  | .pushed _ last _ => last
  | _ => false

theorem isLastPush_of_isPush {e : Event} (h : e.isPush = false) : e.isLastPush = false := by
  cases e with
  | pushed => cases h
  | _ => rfl

/-- A source after the call of an event, if that was one of the source. -/
def onSource {σ : Type} [Source σ] (source : σ) : Event → σ
  | .pulled room _ => (Source.pull source room).2
  | _ => source

/-- A sink after the call of an event, if that was one of the sink. -/
def onSink {κ : Type} [Sink κ] (sink : κ) : Event → κ
  | .pushed chunk last _ => (Sink.push sink chunk last).2
  | _ => sink

end Event

/-- Every event of a log stands in a relation to the events before it. -/
def Always (P : List Event → Event → Prop) (log : List Event) : Prop :=
  ∀ before e after, log = before ++ e :: after → P before e

theorem Always.nil {P : List Event → Event → Prop} : Always P [] := by
  intro before e after h
  simp at h

theorem Always.concat {P : List Event → Event → Prop} {log : List Event} {e : Event}
    (h : Always P log) (he : P log e) : Always P (log ++ [e]) := by
  intro before e' after heq
  rcases List.eq_nil_or_concat' after with rfl | ⟨after', x, rfl⟩
  · obtain ⟨rfl, hx⟩ := List.append_inj' heq rfl
    cases hx
    exact he
  · rw [← List.cons_append, ← List.append_assoc] at heq
    exact h _ _ _ (List.append_inj' heq rfl).1

theorem Always.of_concat {P : List Event → Event → Prop} {log : List Event} {e : Event}
    (h : Always P (log ++ [e])) : Always P log ∧ P log e :=
  ⟨fun before e' after heq => h before e' (after ++ [e]) (by rw [heq]; simp), h log e [] rfl⟩

/-- What is true of no event but the last. -/
theorem exists_last_of_concat {P : Event → Prop} {before before' after : List Event} {e e' : Event}
    (h : before ++ [e] = before' ++ e' :: after) (hb : ∀ e ∈ before, ¬ P e) (he : P e') :
    after = [] ∧ before' = before ∧ e' = e := by
  rcases List.eq_nil_or_concat' after with rfl | ⟨after', x, rfl⟩
  · obtain ⟨rfl, hx⟩ := List.append_inj' h rfl
    cases hx
    exact ⟨rfl, rfl, rfl⟩
  · rw [← List.cons_append, ← List.append_assoc] at h
    obtain ⟨rfl, -⟩ := List.append_inj' h rfl
    exact absurd he (hb e' (by simp))

theorem Always.imp {P Q : List Event → Event → Prop} {log : List Event} (h : Always P log)
    (hpq : ∀ before e, P before e → Q before e) : Always Q log :=
  fun before e after heq => hpq before e (h before e after heq)

/-! ## Books -/

/-- What a log tells of the bytes that went through a run. -/
structure Books where
  /-- The input queue as it was last shown. -/
  input : Queue
  /-- The output queue as it was last shown. -/
  output : Queue
  /-- What was pulled from the source. -/
  pulled : Bytes
  /-- What the transducer has taken. -/
  taken : Bytes
  /-- What the transducer has made. -/
  made : Bytes
  /-- What was pushed to the sink. -/
  pushed : Bytes

/-- An event is entered. -/
def Books.enter (s : Books) : Event → Books
  | .pulled _ (.ok d) => { s with pulled := s.pulled ++ s.input.realign.received d }
  | .pulled _ (.error _) => s
  | .stepping input output => { s with input := input, output := output }
  | .stepped _ input output =>
    { s with
      input := input
      output := output
      taken := s.taken ++ s.input.content.take (s.input.length - input.length)
      made := s.made ++ output.content.drop s.output.length }
  | .pushed chunk _ _ => { s with pushed := s.pushed ++ chunk }

theorem Books.pushed_enter {s : Books} {e : Event} (h : e.isPush = false) :
    (s.enter e).pushed = s.pushed := by
  cases e with
  | pulled room result => cases result <;> rfl
  | pushed => cases h
  | _ => rfl

namespace Pipe

variable (p : Pipe)

/-- The books of a run with this log. -/
def books (log : List Event) : Books :=
  log.foldl Books.enter ⟨.ofCapacity p.capacity, .ofCapacity 0, [], [], [], []⟩

@[simp] theorem books_concat (log : List Event) (e : Event) :
    p.books (log ++ [e]) = (p.books log).enter e := by
  simp [books]

end Pipe

section

variable {σ τ κ : Type} [Source σ] [Sink κ]

/-- The source of a run with this log. -/
def Source.replay (source : σ) (log : List Event) : σ := log.foldl Event.onSource source

/-- The sink of a run with this log. -/
def Sink.replay (sink : κ) (log : List Event) : κ := log.foldl Event.onSink sink

@[simp] theorem Source.replay_concat (source : σ) (log : List Event) (e : Event) :
    Source.replay source (log ++ [e]) = Event.onSource (Source.replay source log) e := by
  simp [replay]

@[simp] theorem Sink.replay_concat (sink : κ) (log : List Event) (e : Event) :
    Sink.replay sink (log ++ [e]) = Event.onSink (Sink.replay sink log) e := by
  simp [replay]

/-! ## What holds at every moment -/

namespace Run

variable (p : Pipe) (source : σ) (sink : κ)

/-- What an event has to be like behind those before it, in a run that has started with this source
and this sink. -/
def Allows (before : List Event) : Event → Prop
  | .pulled room result => result = (Source.pull (Source.replay source before) room).1 ∧ 0 < room ∧
      before.any Event.endsStream = false
  | .stepping input _ => (p.books before).pulled = (p.books before).taken ++ input.content ∧
      input.ended = before.any Event.endsStream ∧ (p.books before).pushed = (p.books before).made
  | .stepped result input output =>
      let s := (p.books before).enter (.stepped result input output)
      s.pulled = s.taken ++ input.content ∧ input.ended = before.any Event.endsStream
  | .pushed chunk last result => result = (Sink.push (Sink.replay sink before) chunk last).1 ∧
      Sink.takesOutput sink = true ∧ chunk.length ≤ p.capacity ∧ (chunk = [] → last = true)

/-- The log of a run shows all calls that were made. -/
structure Logged (r : Run σ τ κ (List Event)) : Prop where
  allowed : Always (Allows p source sink) r.watcher
  pulls : r.source = Source.replay source r.watcher
  pushes : r.sink = Sink.replay sink r.watcher

/-- The books of a run that goes on are right. Output that has been made and not been pushed is in the
output queue. -/
structure Kept (r : Run σ τ κ (List Event)) : Prop extends Logged p source sink r where
  unfailed : ∀ e ∈ r.watcher, e.failure = none
  unclosed : ∀ e ∈ r.watcher, e.isLastPush = false
  pulled : (p.books r.watcher).pulled = (p.books r.watcher).taken ++ r.bench.input.content
  ended : r.bench.input.ended = r.watcher.any Event.endsStream
  made : (p.books r.watcher).pushed ++ r.bench.output.content = (p.books r.watcher).made
  inputCapacity : r.bench.input.capacity = p.capacity
  outputCapacity : r.bench.output.capacity = if Sink.takesOutput sink then p.capacity else 0
  totalPulled : r.totals.pulled = (p.books r.watcher).pulled.length
  totalPushed : r.totals.pushed = (p.books r.watcher).pushed.length

/-- Between two iterations the output queue is empty, and the input queue is the one that was last
shown. -/
structure Resting (r : Run σ τ κ (List Event)) : Prop extends Kept p source sink r where
  drained : r.bench.output.content = []
  shown : (p.books r.watcher).input = r.bench.input

/-- A run has stopped with the failure of its last call. -/
structure Stopped (f : Failure) (r : Run σ τ κ (List Event)) : Prop extends Logged p source sink r where
  last : ∃ before e, r.watcher = before ++ [e] ∧ e.failure = some f ∧
    (∀ e ∈ before, e.failure = none) ∧ (∀ e ∈ before, e.isLastPush = false) ∧
    (e.isPush = false → (p.books before).pushed = (p.books before).made)

/-- A run has come to its end, and the last call was a push that was marked so, if the sink takes
output. -/
structure Closed (totals : PipeTotals) (r : Run σ τ κ (List Event)) : Prop
    extends Logged p source sink r where
  unfailed : ∀ e ∈ r.watcher, e.failure = none
  ended : r.bench.input.ended = r.watcher.any Event.endsStream
  made : (p.books r.watcher).pushed = (p.books r.watcher).made
  totalPulled : totals.pulled = (p.books r.watcher).pulled.length
  totalPushed : totals.pushed = (p.books r.watcher).pushed.length
  last : Sink.takesOutput sink = true → ∃ before chunk,
    r.watcher = before ++ [Event.pushed chunk true (.ok ())] ∧ ∀ e ∈ before, e.isLastPush = false

variable {p source sink} {src : σ} {snk : κ} {b b' : Bench τ} {totals totals' : PipeTotals}
  {log : List Event} {e : Event}

theorem Logged.concat (h : Logged p source sink (⟨src, b, snk, totals, log⟩ : Run σ τ κ (List Event)))
    (b' : Bench τ) (totals' : PipeTotals) (he : Allows p source sink log e) :
    Logged p source sink (⟨e.onSource src, b', e.onSink snk, totals', log ++ [e]⟩ :
      Run σ τ κ (List Event)) where
  allowed := h.allowed.concat he
  pulls := by
    have hp : src = Source.replay source log := h.pulls
    rw [hp, Source.replay_concat]
  pushes := by
    have hp : snk = Sink.replay sink log := h.pushes
    rw [hp, Sink.replay_concat]

theorem forall_mem_concat {P : Event → Prop} (h : ∀ e ∈ log, P e) (he : P e) :
    ∀ e' ∈ log ++ [e], P e' := by
  simpa [or_imp, forall_and] using ⟨h, he⟩

/-- If nothing waits in the output queue, all that was made has been pushed. -/
theorem Kept.pushed_of_drained {r : Run σ τ κ (List Event)} (h : Kept p source sink r)
    (hnil : r.bench.output.content = []) : (p.books r.watcher).pushed = (p.books r.watcher).made := by
  rw [← h.made, hnil, List.append_nil]

/-! ## Parts of an iteration -/

theorem kept_begin (p : Pipe) (source : σ) (state : τ) (sink : κ) :
    Resting p source sink (p.begin source state sink []) where
  allowed := .nil
  pulls := rfl
  pushes := rfl
  unfailed := List.forall_mem_nil _
  unclosed := List.forall_mem_nil _
  pulled := (Queue.content_ofCapacity _).symm
  ended := rfl
  made := Queue.content_ofCapacity _
  inputCapacity := Queue.capacity_ofCapacity _
  outputCapacity := Queue.capacity_ofCapacity _
  totalPulled := rfl
  totalPushed := rfl
  drained := Queue.content_ofCapacity _
  shown := rfl

/-- A pull that fails stops the run. -/
theorem Resting.pull_error {room : Nat} {f : TransferError}
    (h : Resting p source sink (⟨src, b, snk, totals, log⟩ : Run σ τ κ (List Event))) (b' : Bench τ)
    (he : Allows p source sink log (.pulled room (.error f))) :
    Stopped p source sink (.error f) (⟨(Source.pull src room).2, b', snk, totals,
      log ++ [Event.pulled room (.error f)]⟩ : Run σ τ κ (List Event)) where
  toLogged := h.toLogged.concat _ _ he
  last := ⟨log, _, rfl, rfl, h.unfailed, h.unclosed, fun _ => h.pushed_of_drained h.drained⟩

/-- The bytes of a pull come behind those that are held. -/
theorem Resting.pull_ok {room : Nat} {d : Delivery} {state : τ} {input output q : Queue}
    (h : Resting p source sink
      (⟨src, ⟨state, input, output⟩, snk, totals, log⟩ : Run σ τ κ (List Event)))
    (he : Allows p source sink log (.pulled room (.ok d)))
    (hcontent : q.content = input.realign.content ++ input.realign.received d)
    (hcount : (input.realign.received d).length = d.count) (hended : q.ended = false)
    (hcap : q.capacity = input.capacity) (pulls : Nat) :
    Kept p source sink (⟨(Source.pull src room).2,
      ⟨state, if d.ended || d.count == 0 then q.finish else q, output⟩, snk,
      { totals with pulls := pulls, pulled := totals.pulled + d.count },
      log ++ [Event.pulled room (.ok d)]⟩ : Run σ τ κ (List Event)) where
  toLogged := h.toLogged.concat _ _ he
  unfailed := forall_mem_concat h.unfailed rfl
  unclosed := forall_mem_concat h.unclosed rfl
  pulled := by
    have hshown : (p.books log).input = input := h.shown
    have hpulled : (p.books log).pulled = (p.books log).taken ++ input.content := h.pulled
    have hq : (if d.ended || d.count == 0 then q.finish else q).content = q.content := by
      split <;> rfl
    simp only [Pipe.books_concat, Books.enter]
    rw [hq, hcontent, Queue.content_realign, hshown, hpulled, List.append_assoc]
  ended := by
    have hopen : log.any Event.endsStream = false := he.2.2
    rw [List.any_append, hopen]
    cases hd : d.ended || d.count == 0 with
    | true => simp [Event.endsStream, hd, Queue.finish]
    | false => simpa [Event.endsStream, hd] using hended
  made := by
    rw [Pipe.books_concat]
    exact h.made
  inputCapacity := by
    have hi : input.capacity = p.capacity := h.inputCapacity
    rw [← hi, ← hcap]
    split <;> rfl
  outputCapacity := h.outputCapacity
  totalPulled := by
    have hshown : (p.books log).input = input := h.shown
    have htotal : totals.pulled = (p.books log).pulled.length := h.totalPulled
    simp only [Pipe.books_concat, Books.enter, List.length_append]
    rw [hshown, hcount, htotal]
  totalPushed := by
    rw [Pipe.books_concat]
    exact h.totalPushed

/-- A refill asks for no more than fits, and not again once the stream has ended. -/
theorem kept_refill (hsource : Source.Bounded σ) {r : Run σ τ κ (List Event)}
    (h : Resting p source sink r) :
    match r.refill Event.record with
    | (.error f, r') => Stopped p source sink f r'
    | (.ok (), r') => Kept p source sink r' ∧ r'.bench.output.content = [] := by
  obtain ⟨src, ⟨state, input, output⟩, snk, totals, log⟩ := r
  simp only [refill]
  by_cases hend : input.ended = true
  · rw [if_pos hend]
    exact ⟨h.toKept, h.drained⟩
  rw [if_neg hend]
  have hend := Bool.eq_false_iff.mpr hend
  by_cases hroom : input.realign.room = 0
  · rw [if_pos hroom]
    refine ⟨{ h.toKept with pulled := ?_, ended := ?_, inputCapacity := ?_ }, h.drained⟩
    · rw [Queue.content_realign]
      exact h.pulled
    · rw [Queue.ended_realign]
      exact h.ended
    · rw [Queue.capacity_realign]
      exact h.inputCapacity
  rw [if_neg hroom]
  have hallows : Allows p source sink log
      (.pulled input.realign.room (Source.pull src input.realign.room).1) := by
    have hpulls : src = Source.replay source log := h.pulls
    exact ⟨by rw [← hpulls], Nat.pos_of_ne_zero hroom, h.ended ▸ hend⟩
  rcases hpull : Source.pull src input.realign.room with ⟨e | d, src'⟩ <;> rw [hpull] at hallows
  · have := h.pull_error ⟨state, input.realign, output⟩ hallows
    rw [hpull] at this
    exact this
  · have hd : d.count ≤ input.realign.room :=
      hsource src (Nat.pos_of_ne_zero hroom) (by rw [hpull])
    obtain ⟨q, hhold, hcontent, hcount, hended, hcap⟩ := input.realign.hold_received hd
    rw [Queue.ended_realign, hend] at hended
    rw [Queue.capacity_realign] at hcap
    have := h.pull_ok hallows hcontent hcount hended hcap (totals.pulls + 1)
    rw [hpull] at this
    simp only [hhold]
    exact ⟨this, h.drained⟩

/-- The queues are shown before a step. -/
theorem Kept.stepping (h : Kept p source sink (⟨src, b, snk, totals, log⟩ : Run σ τ κ (List Event)))
    (hdrained : b.output.content = []) :
    Kept p source sink (⟨src, b, snk, totals, log ++ [Event.stepping b.input b.output]⟩ :
      Run σ τ κ (List Event)) where
  toLogged := h.toLogged.concat _ _ (e := .stepping b.input b.output)
    ⟨h.pulled, h.ended, h.pushed_of_drained hdrained⟩
  unfailed := forall_mem_concat h.unfailed rfl
  unclosed := forall_mem_concat h.unclosed rfl
  pulled := by
    rw [Pipe.books_concat]
    exact h.pulled
  ended := by
    simp only [List.any_append, List.any_cons, List.any_nil, Event.endsStream, Bool.or_false]
    exact h.ended
  made := by
    rw [Pipe.books_concat]
    exact h.made
  inputCapacity := h.inputCapacity
  outputCapacity := h.outputCapacity
  totalPulled := by
    rw [Pipe.books_concat]
    exact h.totalPulled
  totalPushed := by
    rw [Pipe.books_concat]
    exact h.totalPushed

/-- What has been taken in a step is what is no longer held behind it. -/
theorem Kept.pulled_stepped (result : Except Failure Status)
    (h : Kept p source sink (⟨src, b, snk, totals, log⟩ : Run σ τ κ (List Event)))
    (hshown : (p.books log).input = b.input) (hin : b.input.Shrinks b'.input) :
    let s := p.books (log ++ [Event.stepped result b'.input b'.output])
    s.pulled = s.taken ++ b'.input.content := by
  have hpulled : (p.books log).pulled = (p.books log).taken ++ b.input.content := h.pulled
  simp only [Pipe.books_concat, Books.enter]
  rw [hshown, hpulled, List.append_assoc, hin.take_append]

theorem Kept.allows_stepped (result : Except Failure Status)
    (h : Kept p source sink (⟨src, b, snk, totals, log⟩ : Run σ τ κ (List Event)))
    (hshown : (p.books log).input = b.input) (hin : b.input.Shrinks b'.input) :
    Allows p source sink log (.stepped result b'.input b'.output) := by
  have hp := h.pulled_stepped result hshown hin
  rw [Pipe.books_concat] at hp
  exact ⟨hp, hin.ended.trans h.ended⟩

/-- A step leaves the books right. -/
theorem Kept.stepped {status : Status}
    (h : Kept p source sink (⟨src, b, snk, totals, log⟩ : Run σ τ κ (List Event)))
    (hshown : (p.books log).input = b.input ∧ (p.books log).output = b.output)
    (hin : b.input.Shrinks b'.input) (hout : b.output.Grows b'.output) :
    Kept p source sink (⟨src, b', snk, totals, log ++ [Event.stepped (.ok status) b'.input b'.output]⟩ :
      Run σ τ κ (List Event)) where
  toLogged := h.toLogged.concat _ _ (h.allows_stepped (.ok status) hshown.1 hin)
  unfailed := forall_mem_concat h.unfailed rfl
  unclosed := forall_mem_concat h.unclosed rfl
  pulled := h.pulled_stepped _ hshown.1 hin
  ended := by
    simp only [List.any_append, List.any_cons, List.any_nil, Event.endsStream, Bool.or_false]
    exact hin.ended.trans h.ended
  made := by
    have hmade : (p.books log).pushed ++ b.output.content = (p.books log).made := h.made
    simp only [Pipe.books_concat, Books.enter]
    rw [hshown.2, ← hmade, List.append_assoc, hout.append_drop]
  inputCapacity := hin.capacity.trans h.inputCapacity
  outputCapacity := hout.capacity.trans h.outputCapacity
  totalPulled := by
    rw [Pipe.books_concat]
    exact h.totalPulled
  totalPushed := by
    rw [Pipe.books_concat]
    exact h.totalPushed

/-- A step that fails stops the run. What it has made is not pushed. -/
theorem Kept.step_error {f : Failure}
    (h : Kept p source sink (⟨src, b, snk, totals, log⟩ : Run σ τ κ (List Event)))
    (hdrained : b.output.content = []) (hshown : (p.books log).input = b.input)
    (hin : b.input.Shrinks b'.input) :
    Stopped p source sink f (⟨src, b', snk, totals,
      log ++ [Event.stepped (.error f) b'.input b'.output]⟩ : Run σ τ κ (List Event)) where
  toLogged := h.toLogged.concat _ _ (h.allows_stepped (.error f) hshown hin)
  last := ⟨log, _, rfl, rfl, h.unfailed, h.unclosed, fun _ => h.pushed_of_drained hdrained⟩

/-- What a step takes and makes is known from the queues before and behind it. -/
theorem kept_step [Transducer τ] (ho : Transducer.Orderly τ) {r : Run σ τ κ (List Event)}
    (h : Kept p source sink r) (hdrained : r.bench.output.content = []) :
    match r.step Event.record with
    | (.error f, r') => Stopped p source sink f r'
    | (.ok _, r') => Kept p source sink r' ∧ (p.books r'.watcher).input = r'.bench.input := by
  obtain ⟨src, b, snk, totals, log⟩ := r
  have hshown : (p.books (log ++ [Event.stepping b.input b.output])).input = b.input ∧
      (p.books (log ++ [Event.stepping b.input b.output])).output = b.output := by
    rw [Pipe.books_concat]
    exact ⟨rfl, rfl⟩
  have hin := ho.input b
  have hout := ho.output b
  simp only [step, Event.record]
  rcases hstep : Transducer.step b with ⟨f | status, c⟩ <;> rw [hstep] at hin hout
  · exact (h.stepping hdrained).step_error hdrained hshown.1 hin
  · refine ⟨(h.stepping hdrained).stepped hshown hin hout, ?_⟩
    rw [Pipe.books_concat]
    rfl

/-- What is pushed is all that was put out and not yet pushed. -/
theorem Kept.pushed_concat (last : Bool) (result : Except TransferError Unit)
    (h : Kept p source sink (⟨src, b, snk, totals, log⟩ : Run σ τ κ (List Event))) :
    let s := p.books (log ++ [Event.pushed b.output.content last result])
    s.pushed = s.made ∧ s.pushed.length = totals.pushed + b.output.length := by
  have htotal : totals.pushed = (p.books log).pushed.length := h.totalPushed
  simp only [Pipe.books_concat, Books.enter]
  exact ⟨h.made, by rw [List.length_append, Queue.length_content, htotal]⟩

/-- After a push that is not the last one the run goes on. -/
theorem Kept.push_ok {state : τ} {input output : Queue}
    (h : Kept p source sink
      (⟨src, ⟨state, input, output⟩, snk, totals, log⟩ : Run σ τ κ (List Event)))
    (hshown : (p.books log).input = input)
    (he : Allows p source sink log (.pushed output.content false (.ok ()))) :
    Resting p source sink (⟨src, ⟨state, input, output.clear⟩,
      (Sink.push snk output.content false).2,
      { totals with pushed := totals.pushed + output.length },
      log ++ [Event.pushed output.content false (.ok ())]⟩ : Run σ τ κ (List Event)) where
  toLogged := h.toLogged.concat _ _ he
  unfailed := forall_mem_concat h.unfailed rfl
  unclosed := forall_mem_concat h.unclosed rfl
  pulled := by
    rw [Pipe.books_concat]
    exact h.pulled
  ended := by
    simp only [List.any_append, List.any_cons, List.any_nil, Event.endsStream, Bool.or_false]
    exact h.ended
  made := by
    rw [Queue.content_clear, List.append_nil]
    exact (h.pushed_concat false (.ok ())).1
  inputCapacity := h.inputCapacity
  outputCapacity := h.outputCapacity
  totalPulled := by
    rw [Pipe.books_concat]
    exact h.totalPulled
  totalPushed := (h.pushed_concat false (.ok ())).2.symm
  drained := output.content_clear
  shown := by
    rw [Pipe.books_concat]
    exact hshown

/-- What was put out is pushed, and the last push is marked. -/
theorem kept_drain {r : Run σ τ κ (List Event)} (done : Bool) (h : Kept p source sink r)
    (hshown : (p.books r.watcher).input = r.bench.input) :
    match r.drain Event.record done with
    | (.error f, r') => Stopped p source sink f r'
    | (.ok (), r') => if done then Closed p source sink r'.totals r' else Resting p source sink r' := by
  obtain ⟨src, ⟨state, input, output⟩, snk, totals, log⟩ := r
  have hcap : output.capacity = if Sink.takesOutput sink then p.capacity else 0 := h.outputCapacity
  simp only [drain]
  by_cases hc : (output.capacity != 0 && (done || !output.isEmpty)) = true
  · rw [if_pos hc]
    obtain ⟨hpos, hsome⟩ := Bool.and_eq_true_iff.mp hc
    have htakes : Sink.takesOutput sink = true := by
      by_contra ht
      simp [hcap, ht] at hpos
    have hallows : Allows p source sink log
        (.pushed output.content done (Sink.push snk output.content done).1) := by
      have hpushes : snk = Sink.replay sink log := h.pushes
      refine ⟨by rw [← hpushes], htakes, ?_, fun hnil => ?_⟩
      · have hl := output.length_le_capacity
        rwa [hcap, if_pos htakes] at hl
      · rw [output.isEmpty_iff.mpr hnil] at hsome
        simpa using hsome
    rcases hpush : Sink.push snk output.content done with ⟨e | ⟨⟩, snk'⟩ <;> rw [hpush] at hallows
    · have hlogged := h.toLogged.concat ⟨state, input, output⟩ totals hallows
      simp only [Event.onSource, Event.onSink, hpush] at hlogged
      exact ⟨hlogged, log, _, rfl, rfl, h.unfailed, h.unclosed, nofun⟩
    · cases done with
      | false =>
        have := h.push_ok hshown hallows
        rw [hpush] at this
        exact this
      | true =>
        have hlogged := h.toLogged.concat ⟨state, input, output.clear⟩
          { totals with pushed := totals.pushed + output.length } hallows
        simp only [Event.onSource, Event.onSink, hpush] at hlogged
        obtain ⟨hmade, hlength⟩ := h.pushed_concat true (.ok ())
        refine ⟨hlogged, forall_mem_concat h.unfailed rfl, ?_, hmade, ?_, hlength.symm,
          fun _ => ⟨log, _, rfl, h.unclosed⟩⟩
        · simp only [Event.record, List.any_append, List.any_cons, List.any_nil, Event.endsStream,
            Bool.or_false]
          exact h.ended
        · simp only [Event.record, Pipe.books_concat]
          exact h.totalPulled
  · rw [if_neg hc]
    have hnil : output.content = [] := by
      by_cases hz : output.capacity = 0
      · have hl := output.length_le_capacity
        rw [hz] at hl
        exact List.eq_nil_of_length_eq_zero (Nat.le_zero.mp hl)
      · refine output.isEmpty_iff.mp ?_
        by_contra he
        simp [hz, he] at hc
    cases done with
    | false => exact ⟨h, hnil, hshown⟩
    | true =>
      refine ⟨h.toLogged, h.unfailed, h.ended, h.pushed_of_drained hnil, h.totalPulled,
        h.totalPushed, fun ht => ?_⟩
      -- a sink that takes output has room for it, so that something was to be pushed
      rw [if_pos ht] at hcap
      exact absurd hcap (by have := p.capacity_pos; simp at hc; omega)

/-! ## Whole runs -/

variable [Transducer τ]

theorem kept_iterate (hs : Source.Bounded σ) (ho : Transducer.Orderly τ)
    {r : Run σ τ κ (List Event)} (h : Resting p source sink r) :
    match r.iterate Event.record with
    | (.error f, r') => Stopped p source sink f r'
    | (.ok .blocked, r') => Resting p source sink r'
    | (.ok .done, r') => Closed p source sink r'.totals r' := by
  let r₀ : Run σ τ κ (List Event) :=
    { r with totals := { r.totals with iterations := r.totals.iterations + 1 } }
  have hrefill := kept_refill hs (show Resting p source sink r₀ from { h with })
  simp only [iterate]
  rcases hr : r₀.refill Event.record with ⟨f | ⟨⟩, r₁⟩ <;> rw [hr] at hrefill
  · exact hrefill
  have hstep := kept_step ho hrefill.1 hrefill.2
  dsimp only
  rcases hr : r₁.step Event.record with ⟨f | status, r₂⟩ <;> rw [hr] at hstep
  · exact hstep
  have hdrain := kept_drain (status == .done) hstep.1 hstep.2
  dsimp only
  rcases hr : r₂.drain Event.record (status == .done) with ⟨f | ⟨⟩, r₃⟩ <;> rw [hr] at hdrain
  · exact hdrain
  · cases status <;> exact hdrain

/-- How a run ends that may take a limited number of iterations. -/
def Concluded (p : Pipe) (source : σ) (sink : κ) :
    Except Failure PipeTotals × Run σ τ κ (List Event) → Prop
  | (.ok totals, r) => Closed p source sink totals r
  | (.error f, r) => Stopped p source sink f r ∨ f = .unfinished ∧ Resting p source sink r

theorem kept_complete (hs : Source.Bounded σ) (ho : Transducer.Orderly τ)
    {r : Run σ τ κ (List Event)} (h : Resting p source sink r) (limit : Nat) :
    Concluded p source sink (r.complete Event.record limit) := by
  induction limit generalizing r with
  | zero => exact .inr ⟨rfl, h⟩
  | succ limit ih =>
    have hit := kept_iterate hs ho h
    rw [complete]
    rcases hr : r.iterate Event.record with ⟨f | _ | _, r'⟩ <;> rw [hr] at hit
    · exact .inl hit
    · exact ih hit
    · exact hit

section

omit [Transducer τ]

variable {w : Except Failure PipeTotals × Run σ τ κ (List Event)}

theorem Concluded.of_ok (h : Concluded p source sink w) {totals : PipeTotals}
    (hr : w.1 = .ok totals) : Closed p source sink totals w.2 := by
  obtain ⟨result, r⟩ := w
  cases hr
  exact h

theorem Concluded.of_error (h : Concluded p source sink w) {f : Failure} (hr : w.1 = .error f) :
    Stopped p source sink f w.2 ∨ f = .unfinished ∧ Resting p source sink w.2 := by
  obtain ⟨result, r⟩ := w
  cases hr
  exact h

theorem Concluded.logged (h : Concluded p source sink w) : Logged p source sink w.2 := by
  rcases hr : w.1 with f | totals
  · rcases h.of_error hr with h | ⟨-, h⟩
    · exact h.toLogged
    · exact h.toLogged
  · exact (h.of_ok hr).toLogged

/-- As long as no call has failed all that was made has been pushed. -/
theorem Concluded.pushed (h : Concluded p source sink w)
    (hf : ∀ e ∈ w.2.watcher, e.failure = none) :
    (p.books w.2.watcher).pushed = (p.books w.2.watcher).made := by
  rcases hr : w.1 with f | totals
  · rcases h.of_error hr with h | ⟨-, h⟩
    · obtain ⟨before, e, hlog, he, -⟩ := h.last
      have := hf e (by rw [hlog]; exact List.mem_concat_self)
      rw [this] at he
      cases he
    · exact h.pushed_of_drained h.drained
  · exact (h.of_ok hr).made

/-- A push that is marked as the last one is the last call. -/
theorem Concluded.closed (h : Concluded p source sink w) {before after : List Event} {e : Event}
    (hlog : w.2.watcher = before ++ e :: after) (he : e.isLastPush = true) : after = [] := by
  have hlast : ∀ before' e', w.2.watcher = before' ++ [e'] →
      (∀ e ∈ before', e.isLastPush = false) → after = [] := fun before' e' hlog' hb =>
    (exists_last_of_concat (P := fun e => e.isLastPush = true) (hlog'.symm.trans hlog)
      (fun e hm => by rw [hb e hm]; nofun) he).1
  rcases hr : w.1 with f | totals
  · rcases h.of_error hr with h | ⟨-, h⟩
    · obtain ⟨before', e', hlog', -, -, hb, -⟩ := h.last
      exact hlast _ _ hlog' hb
    · rw [h.unclosed e (by rw [hlog]; simp)] at he
      cases he
  · have htakes : Sink.takesOutput sink = true := by
      have hallows := h.logged.allowed _ _ _ hlog
      cases e with
      | pushed => exact hallows.2.1
      | _ => cases he
    obtain ⟨before', chunk, hlog', hb⟩ := (h.of_ok hr).last htakes
    exact hlast _ _ hlog' hb

/-- A failure stops the run. -/
theorem Concluded.failed (h : Concluded p source sink w) :
    ∀ before e after f, w.2.watcher = before ++ e :: after → e.failure = some f →
      after = [] ∧ w.1 = .error f ∧ (e.isPush = false →
        (∀ e ∈ w.2.watcher, e.isLastPush = false) ∧
          (p.books w.2.watcher).pushed = (p.books before).made) := by
  intro before e after f hlog he
  have hsome : ¬ ∀ e ∈ w.2.watcher, e.failure = none := fun hall => by
    rw [hall e (by rw [hlog]; simp)] at he
    cases he
  rcases hr : w.1 with f' | totals
  · rcases h.of_error hr with h | ⟨-, h⟩
    · obtain ⟨before', e', hlog', he', hb, hopen, hmade⟩ := h.last
      obtain ⟨rfl, rfl, rfl⟩ := exists_last_of_concat (P := fun e => e.failure = some f)
        (hlog'.symm.trans hlog) (fun e hm => by rw [hb e hm]; nofun) he
      rw [he] at he'
      cases he'
      refine ⟨rfl, rfl, fun hp => ?_⟩
      rw [hlog, Pipe.books_concat, Books.pushed_enter hp]
      exact ⟨forall_mem_concat hopen (Event.isLastPush_of_isPush hp), hmade hp⟩
    · exact absurd h.unfailed hsome
  · exact absurd (h.of_ok hr).unfailed hsome

end

end Run

namespace Pipe

variable [Transducer τ] (p : Pipe) (limit : Nat) (source : σ) (state : τ) (sink : κ)

theorem concluded_watch (hs : Source.Bounded σ) (ho : Transducer.Orderly τ) :
    Run.Concluded p source sink (p.watch Event.record [] limit source state sink) :=
  Run.kept_complete hs ho (Run.kept_begin p source state sink) limit

/-- **The queues of a run lose, repeat and reorder nothing.** Whatever an orderly transducer does and
however long the run has lasted: before and behind every step the input queue holds what was pulled
and has not been taken, and it knows of the end if and only if a pull has told it; as long as no call
has failed, what was made has been pushed. A run that succeeds has counted right. -/
theorem transparent (hs : Source.Bounded σ) (ho : Transducer.Orderly τ) :
    let w := p.watch Event.record [] limit source state sink
    let log := w.2.watcher
    Always (fun before e => ∀ input output, e = .stepping input output →
      let s := p.books before
      s.pulled = s.taken ++ input.content ∧ s.pushed = s.made ∧
        (input.ended = true ↔ ∃ e ∈ before, e.endsStream = true)) log ∧
    Always (fun before e => ∀ result input output, e = .stepped result input output →
      let s := p.books (before ++ [e])
      s.pulled = s.taken ++ input.content ∧
        (input.ended = true ↔ ∃ e ∈ before, e.endsStream = true)) log ∧
    ((∀ e ∈ log, e.failure = none) → (p.books log).pushed = (p.books log).made) ∧
    ∀ totals, w.1 = .ok totals → (p.books log).pushed = (p.books log).made ∧
      totals.pulled = (p.books log).pulled.length ∧
      totals.pushed = (p.books log).pushed.length := by
  intro w log
  have h := p.concluded_watch limit source state sink hs ho
  refine ⟨h.logged.allowed.imp fun before e he => ?_, h.logged.allowed.imp fun before e he => ?_,
    h.pushed, fun totals hr => ?_⟩
  · rintro input output rfl
    obtain ⟨hp, hended, hmade⟩ := he
    exact ⟨hp, hmade, by rw [hended, List.any_eq_true]⟩
  · rintro result input output rfl
    obtain ⟨hp, hended⟩ := he
    rw [books_concat]
    exact ⟨hp, by rw [hended, List.any_eq_true]⟩
  · have hc := h.of_ok hr
    exact ⟨hc.made, hc.totalPulled, hc.totalPushed⟩

/-- A delta that copies seven bytes. -/
def copyDelta (rest : Bytes) : Bytes := deltaMark ++ 1 :: (List.replicate 11 0 ++ 7 :: rest)

/-- A patch of just those bytes. -/
def copier : Patcher StoredBasis :=
  ⟨⟨#[1, 2, 3, 4, 5, 6, 7]⟩, 7, false, .mark, .empty, .empty, 0⟩

/-- What a step leaves in the input queue, and whether the queue knows of the end. -/
def leftover : Event → Option (Bytes × Bool)
  | .stepped _ input _ => some (input.content, input.ended)
  | _ => none

/-- Three bytes stay in the input queue while there is no room for the rest of the copy. -/
theorem transparent_copy :
    let p : Pipe := ⟨5, by decide, by decide⟩
    let run := p.watch Event.record [] 99
      (⟨.ofBytes (copyDelta (0 :: .replicate 32 0))⟩ : RawSource) copier (⟨{}⟩ : RawSink)
    run.1 = .ok ⟨11, 11, 50, 7⟩ ∧
    (∃ before e after, run.2.watcher = before ++ e :: after ∧ leftover e = some ([0, 0, 0], false) ∧
      (p.books (before ++ [e])).pulled = (p.books (before ++ [e])).taken ++ [0, 0, 0] ∧
      ∀ e ∈ before, e.endsStream = false) ∧
    (p.books run.2.watcher).pulled.length = 50 ∧ (p.books run.2.watcher).pushed.length = 7 ∧
    (p.books run.2.watcher).pushed = (p.books run.2.watcher).made := by
  intro p run
  have hrun : run.1 = .ok ⟨11, 11, 50, 7⟩ := by decide +kernel
  have hany : run.2.watcher.any (fun e => leftover e == some ([0, 0, 0], false)) = true := by
    decide +kernel
  have hbooks := transparent p 99 (⟨.ofBytes (copyDelta (0 :: .replicate 32 0))⟩ : RawSource) copier
    (⟨{}⟩ : RawSink) RawSource.bounded Patcher.orderly
  rw [show Pipe.watch _ _ _ _ _ _ _ = run from rfl] at hbooks
  clear_value run
  obtain ⟨-, hstepped, -, hok⟩ := hbooks
  obtain ⟨hmade, hpulled, hpushed⟩ := hok _ hrun
  obtain ⟨e, he, hleft⟩ := List.any_eq_true.mp hany
  obtain ⟨before, after, hlog⟩ := List.append_of_mem he
  refine ⟨hrun, ⟨before, e, after, hlog, beq_iff_eq.mp hleft, ?_⟩, hpulled.symm, hpushed.symm, hmade⟩
  cases e with
  | stepped result input output =>
    obtain ⟨hcontent, hended⟩ : input.content = [0, 0, 0] ∧ input.ended = false :=
      Prod.ext_iff.mp (Option.some.inj (beq_iff_eq.mp hleft))
    obtain ⟨hp, hends⟩ := hstepped before _ after hlog result input output rfl
    rw [hcontent] at hp
    refine ⟨hp, fun e he => Bool.eq_false_iff.mpr fun h => ?_⟩
    have htold : input.ended = true := hends.mpr ⟨e, he, h⟩
    rw [hended] at htold
    cases htold
  | _ => cases hleft

/-- **Which calls a run makes, and which is its last.** The source is asked only for something, and not
again once its stream has ended. A chunk fits a frame, and is empty only if it is marked as the last
one. A run that succeeds makes just one such push, as its last call, if the sink takes output; a sink
that takes none is never pushed to. A failure stops the run: there is no call behind it, and if it was
not one of the sink, no push was marked and nothing of what the failing step has made was pushed. -/
theorem disciplined (hs : Source.Bounded σ) (ho : Transducer.Orderly τ) :
    let w := p.watch Event.record [] limit source state sink
    let log := w.2.watcher
    Always (fun before e => ∀ room result, e = .pulled room result →
      0 < room ∧ ∀ e ∈ before, e.endsStream = false) log ∧
    (∀ before chunk last result after, log = before ++ Event.pushed chunk last result :: after →
      chunk.length ≤ p.capacity ∧ chunk.length ≤ framePayloadLimit ∧ (chunk = [] → last = true) ∧
        (last = true → after = [])) ∧
    (Sink.takesOutput sink = false → ∀ e ∈ log, e.isPush = false) ∧
    (Sink.takesOutput sink = true → ∀ totals, w.1 = .ok totals → ∃ before chunk,
      log = before ++ [Event.pushed chunk true (.ok ())] ∧ ∀ e ∈ before, e.isLastPush = false) ∧
    (∀ f, w.1 = .error f →
      f = .unfinished ∧ (∀ e ∈ log, e.failure = none) ∨ ∃ e ∈ log, e.failure = some f) ∧
    (∀ before e after f, log = before ++ e :: after → e.failure = some f →
      after = [] ∧ w.1 = .error f ∧ (e.isPush = false →
        (∀ e ∈ log, e.isLastPush = false) ∧ (p.books log).pushed = (p.books before).made)) ∧
    w.2.source = Source.replay source log ∧ w.2.sink = Sink.replay sink log := by
  intro w log
  have h := p.concluded_watch limit source state sink hs ho
  refine ⟨h.logged.allowed.imp fun before e he => ?_, fun before chunk last result after hlog => ?_,
    fun ht => ?_, fun ht totals hr => ?_, fun f hr => ?_, h.failed, h.logged.pulls, h.logged.pushes⟩
  · rintro room result rfl
    obtain ⟨-, hroom, hopen⟩ := he
    exact ⟨hroom, by simpa using hopen⟩
  · obtain ⟨-, -, hlen, hnil⟩ := h.logged.allowed _ _ _ hlog
    exact ⟨hlen, Nat.le_trans hlen p.capacity_le, hnil, h.closed hlog⟩
  · intro e he
    obtain ⟨before, after, hlog⟩ := List.append_of_mem he
    cases e with
    | pushed chunk last result =>
      have htakes := (h.logged.allowed _ _ _ hlog).2.1
      rw [ht] at htakes
      cases htakes
    | _ => rfl
  · exact (h.of_ok hr).last ht
  · rcases h.of_error hr with h | ⟨hf, h⟩
    · obtain ⟨before, e, hlog, he, -⟩ := h.last
      have hm : e ∈ w.2.watcher := by
        change e ∈ (p.watch Event.record [] limit source state sink).2.watcher
        rw [hlog]
        exact List.mem_concat_self
      exact .inr ⟨e, hm, he⟩
    · exact .inl ⟨hf, h.unfailed⟩

/-- A run that succeeds, and one in which the step that copies the last two bytes meets an opcode that
is none. -/
theorem disciplined_copy :
    let p : Pipe := ⟨5, by decide, by decide⟩
    let run := p.watch Event.record [] 99
      (⟨.ofBytes (copyDelta (0 :: .replicate 32 0))⟩ : RawSource) copier (⟨{}⟩ : RawSink)
    let broken := p.watch Event.record [] 99 (⟨.ofBytes (copyDelta [7])⟩ : RawSource) copier
      (⟨{}⟩ : RawSink)
    run.1 = .ok ⟨11, 11, 50, 7⟩ ∧
    (∃ before chunk, run.2.watcher = before ++ [Event.pushed chunk true (.ok ())] ∧
      ∀ e ∈ before, e.isLastPush = false) ∧
    broken.1 = .error (.error (.corruptedDelta (.unknownOpcode 7))) ∧
    (∃ before e, broken.2.watcher = before ++ [e] ∧ (p.books before).made = [1, 2, 3, 4, 5] ∧
      (p.books (before ++ [e])).made = [1, 2, 3, 4, 5, 6, 7]) ∧
    (p.books broken.2.watcher).pushed = [1, 2, 3, 4, 5] ∧
    ∀ e ∈ broken.2.watcher, e.isLastPush = false := by
  intro p run broken
  have hrun : run.1 = .ok ⟨11, 11, 50, 7⟩ := by decide +kernel
  have hany : broken.2.watcher.any (fun e =>
      e.failure == some (.error (.corruptedDelta (.unknownOpcode 7))) && !e.isPush) = true := by
    decide +kernel
  have hmade : (p.books broken.2.watcher).made = [1, 2, 3, 4, 5, 6, 7] := by decide +kernel
  have hpushed : (p.books broken.2.watcher).pushed = [1, 2, 3, 4, 5] := by decide +kernel
  have hends := disciplined p 99 (⟨.ofBytes (copyDelta (0 :: .replicate 32 0))⟩ : RawSource) copier
    (⟨{}⟩ : RawSink) RawSource.bounded Patcher.orderly
  have hbreaks := disciplined p 99 (⟨.ofBytes (copyDelta [7])⟩ : RawSource) copier (⟨{}⟩ : RawSink)
    RawSource.bounded Patcher.orderly
  rw [show Pipe.watch _ _ _ _ _ _ _ = run from rfl] at hends
  rw [show Pipe.watch _ _ _ _ _ _ _ = broken from rfl] at hbreaks
  clear_value run broken
  obtain ⟨-, -, -, hlast, -⟩ := hends
  obtain ⟨-, -, -, -, -, hfailed, -⟩ := hbreaks
  obtain ⟨e, he, hfails⟩ := List.any_eq_true.mp hany
  rw [Bool.and_eq_true, beq_iff_eq, Bool.not_eq_true'] at hfails
  obtain ⟨before, after, hlog⟩ := List.append_of_mem he
  obtain ⟨rfl, herror, hstopped⟩ := hfailed before e after _ hlog hfails.1
  obtain ⟨hopen, hbefore⟩ := hstopped hfails.2
  exact ⟨hrun, hlast rfl _ hrun, herror, ⟨before, e, hlog, hbefore.symm.trans hpushed, hlog ▸ hmade⟩,
    hpushed, hopen⟩

end Pipe

end

end BlockSync
