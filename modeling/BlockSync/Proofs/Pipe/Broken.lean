import BlockSync.Proofs.Pipe.Alike
import BlockSync.Proofs.Pipe.Log
import BlockSync.Proofs.Stream.Cut

/-!
# Streams that break off

What becomes of runs at either end of a stream that is not complete.

* `Transducer.Patient`: a transducer is not done before its input has ended; **the transducers that
  read a signature or a delta are patient**;
* **`Pipe.not_ok_of_broken`**: a run of such a transducer over a stream that breaks off never succeeds;
  **`Pipe.run_of_nothing`**: nor does that of any other if the stream breaks off at once;
* `Pipe.holds_of_ok`, `Pipe.holds_of_error`: a sink is told of the end by a run that succeeds, and
  not by one that fails.
-/

namespace BlockSync

variable {σ τ κ : Type}

/-! ## Transducers that wait for the end -/

/-- A transducer is not done before its input has ended. -/
def Transducer.Patient (τ : Type) [Transducer τ] : Prop :=
  ∀ {b c : Bench τ}, Transducer.step b = (.ok .done, c) → c.input.ended = true

theorem SignatureLoader.patient : Transducer.Patient SignatureLoader := by
  intro b c h
  have hs : (step b).1.mapError Failure.error = .ok .done := congrArg Prod.fst h
  obtain rfl : (step b).2 = c := congrArg Prod.snd h
  unfold step at hs ⊢
  dsimp only at hs ⊢
  split
  · next he =>
    rw [he] at hs
    cases hs
  · next hok =>
    rw [hok] at hs
    split
    · next hend => exact ((Queue.atEnd_iff _).mp hend).1
    · next hend =>
      dsimp only at hs
      rw [if_neg hend] at hs
      cases hs

theorem Patcher.patient {β : Type} [Basis β] : Transducer.Patient (Patcher β) := by
  intro b c h
  have hs : (step b).1.mapError Failure.error = .ok .done := congrArg Prod.fst h
  obtain rfl : (step b).2 = c := congrArg Prod.snd h
  unfold step at hs ⊢
  rcases hm : moves b with ⟨e | reason, c⟩ <;> rw [hm] at hs
  · cases hs
  · dsimp only at hs ⊢
    split
    · next hd =>
      rw [if_pos hd] at hs
      by_contra hne
      rw [if_neg hne] at hs
      cases hs
    · next hd =>
      rw [if_neg hd] at hs
      split at hs <;> cases hs

namespace Run

variable {ω : Type} [Source σ] [Transducer τ] [Sink κ] (watch : ω → Event → ω)

/-- A run succeeds with a step after which the transducer is done. -/
theorem done_of_complete {limit : Nat} {r r' : Run σ τ κ ω} {totals : PipeTotals}
    (h : r.complete watch limit = (.ok totals, r')) :
    ∃ b c : Bench τ, Transducer.step b = (.ok .done, c) ∧ r'.bench.input = c.input ∧
      r'.bench.state = c.state := by
  induction limit generalizing r with
  | zero => cases h
  | succ limit ih =>
    rw [complete] at h
    rcases hit : r.iterate watch with ⟨f | status, r₃⟩ <;> rw [hit] at h
    · cases h
    · cases status with
      | blocked => exact ih h
      | done =>
        cases h
        simp only [iterate] at hit
        split at hit
        · cases hit
        · next r₁ _ =>
          split at hit
          · cases hit
          · next status r₂ hstep =>
            have hdrain := (drain_leaves watch r₂ (status == .done)).2
            split at hit
            · cases hit
            · next r₃ hd =>
              rw [hd] at hdrain
              obtain ⟨rfl, rfl⟩ : status = .done ∧ r₃ = r' := by simpa using hit
              simp only [step, Prod.mk.injEq] at hstep
              obtain ⟨hdone, rfl⟩ := hstep
              exact ⟨r₁.bench, _, Prod.ext hdone rfl, hdrain⟩

end Run

/-! ## Broken input -/

section

variable [Source σ] [Transducer τ] [Sink κ] {p : Pipe} {source : σ} {sink : κ}

omit [Transducer τ] in
/-- A source whose flow breaks off never tells the end. -/
theorem Source.Faithful.open_of_broken {Holds : σ → Flow TransferError → Prop}
    (h : Faithful Holds) {f : Flow TransferError} {e : TransferError} (hs : Holds source f)
    (he : f.ending = .error e) {log : List Event}
    (hlog : Always (Run.Allows p source sink) log) (hf : ∀ e ∈ log, e.failure = none) :
    (∃ rest : Flow TransferError, rest.ending = .error e ∧ Holds (Source.replay source log) rest) ∧
      log.any Event.endsStream = false := by
  induction log using List.reverseRecOn with
  | nil => exact ⟨⟨f, he, hs⟩, rfl⟩
  | append_singleton log event ih =>
    obtain ⟨hlog, hallows⟩ := hlog.of_concat
    obtain ⟨⟨rest, hrest, hholds⟩, hopen⟩ := ih hlog fun e hm => hf e (List.mem_append_left _ hm)
    have hfail := hf event List.mem_concat_self
    rw [Source.replay_concat, List.any_append, hopen]
    cases event with
    | pulled room result =>
      obtain ⟨hresult, hroom, -⟩ := hallows
      have hpull := h.pull hholds hroom
      rcases hp : Source.pull (Source.replay source log) room with ⟨e' | d, source'⟩ <;>
        rw [hp] at hpull hresult <;> subst hresult
      · cases hfail
      · obtain ⟨-, -, hnext⟩ := hpull
        by_cases hlast : (d.ended || d.count == 0) = true
        · rw [if_pos hlast] at hnext
          rw [hnext] at hrest
          cases hrest
        · rw [if_neg hlast] at hnext
          obtain ⟨rest', rfl, hholds'⟩ := hnext
          refine ⟨⟨rest', hrest, ?_⟩, ?_⟩
          · simpa only [Event.onSource, hp] using hholds'
          · simpa [Event.endsStream] using hlast
    | stepping => exact ⟨⟨rest, hrest, hholds⟩, rfl⟩
    | stepped => exact ⟨⟨rest, hrest, hholds⟩, rfl⟩
    | pushed => exact ⟨⟨rest, hrest, hholds⟩, rfl⟩

/-- **A run over a stream that breaks off never succeeds**, whatever the transducer does as long as it
waits for the end, and whatever the sink. -/
theorem Pipe.not_ok_of_broken (hb : Source.Bounded σ) (ho : Transducer.Orderly τ)
    (hp : Transducer.Patient τ) {f : Flow TransferError} {e : TransferError}
    (hs : Source.Delivers source f) (he : f.ending = .error e) (p : Pipe) (limit : Nat) (state : τ)
    (sink : κ) (totals : PipeTotals) : (p.run limit source state sink).1 ≠ .ok totals := by
  intro hok
  obtain ⟨Holds, hfaithful, hholds⟩ := hs
  rw [p.run_eq_watch limit source state sink Event.record []] at hok
  have hclosed := (p.concluded_watch limit source state sink hb ho).of_ok hok
  obtain ⟨-, hopen⟩ := hfaithful.open_of_broken hholds he hclosed.allowed hclosed.unfailed
  rcases hw : p.watch Event.record [] limit source state sink with ⟨result, r⟩
  rw [hw] at hok hclosed hopen
  cases hok
  obtain ⟨b, c, hstep, hinput, -⟩ := Run.done_of_complete _ hw
  have hended := hclosed.ended
  rw [hinput, hp hstep, hopen] at hended
  cases hended

omit [Transducer τ] [Sink κ] in
/-- Nothing can be pulled of a flow that breaks off before its first byte. -/
theorem Source.Delivers.pull_of_nothing {e : TransferError} (h : Source.Delivers source ⟨[], .error e⟩)
    {room : Nat} (hr : 0 < room) : ∃ source', Source.pull source room = (.error e, source') := by
  obtain ⟨Holds, hfaithful, hholds⟩ := h
  have hpull := hfaithful.pull hholds hr
  rcases hp : Source.pull source room with ⟨e' | ⟨bs, count, ended⟩, source'⟩ <;> rw [hp] at hpull
  · obtain rfl : e = e' := Except.error.inj hpull
    exact ⟨source', rfl⟩
  · obtain ⟨hcount, -, hnext⟩ := hpull
    split at hnext
    · cases hnext
    · next hlast =>
      -- a pull that brings nothing is the last one
      obtain ⟨rest, hrest, -⟩ := hnext
      have hnil : bs = [] := (List.append_eq_nil_iff.mp (congrArg Flow.bytes hrest).symm).1
      have hzero : count = 0 := hcount.trans (congrArg List.length hnil)
      simp [hzero] at hlast

omit [Transducer τ] [Sink κ] in
theorem Run.refill_of_pull_error {ω : Type} (watch : ω → Event → ω) {r : Run σ τ κ ω}
    (he : r.bench.input.ended = false) (hr : 0 < r.bench.input.realign.room) {e : TransferError}
    {source' : σ} (hp : Source.pull r.source r.bench.input.realign.room = (.error e, source')) :
    (r.refill watch).1 = .error (.error e) := by
  obtain ⟨source, ⟨state, input, output⟩, sink, totals, watcher⟩ := r
  dsimp only at he hr hp
  simp only [refill, he, Nat.ne_of_gt hr, hp, if_false, Bool.false_eq_true]

/-- **A run over a stream that breaks off before its first byte fails with that**, whatever the
transducer. -/
theorem Pipe.run_of_nothing {e : TransferError} (h : Source.Delivers source ⟨[], .error e⟩) (p : Pipe)
    (input output : Nat) (state : τ) (sink : κ) :
    ∃ r, p.run (iterationsFor input output) source state sink = (.error (.error e), r) := by
  have hroom : (Queue.ofCapacity p.capacity).realign.room = p.capacity := by
    rw [Queue.room_realign, Queue.content_ofCapacity, Queue.capacity_ofCapacity]
    rfl
  obtain ⟨source', hpull⟩ := h.pull_of_nothing p.capacity_pos
  let r : Run σ τ κ Unit := p.begin source state sink ()
  have hrefill := Run.refill_of_pull_error (fun (w : Unit) _ => w)
    (r := { r with totals := { r.totals with iterations := r.totals.iterations + 1 } }) rfl
    (hroom ▸ p.capacity_pos) (hroom.symm ▸ hpull)
  rw [run, watch, iterationsFor, Run.complete, Run.iterate]
  rcases hr : Run.refill (fun (w : Unit) _ => w)
    { r with totals := { r.totals with iterations := r.totals.iterations + 1 } } with ⟨result, r'⟩
  rw [hr] at hrefill
  obtain rfl : result = .error (.error e) := hrefill
  exact ⟨r', rfl⟩

/-! ## Sinks -/

omit [Transducer τ] in
/-- A sink has taken what was pushed to it. -/
theorem Sink.Honest.holds_replay {Holds : κ → Bytes → Bool → Prop} {limit : Nat}
    (h : Sink.Honest Holds limit) (hp : p.capacity ≤ limit) (hk : Holds sink [] false)
    {log : List Event} (hlog : Always (Run.Allows p source sink) log)
    (hf : ∀ e ∈ log, e.failure = none) (hopen : ∀ e ∈ log, e.isLastPush = false) :
    Holds (Sink.replay sink log) (p.books log).pushed false := by
  induction log using List.reverseRecOn with
  | nil => exact hk
  | append_singleton log event ih =>
    obtain ⟨hlog, hallows⟩ := hlog.of_concat
    have hholds := ih hlog (fun e hm => hf e (List.mem_append_left _ hm))
      fun e hm => hopen e (List.mem_append_left _ hm)
    rw [Sink.replay_concat, Pipe.books_concat]
    by_cases hkind : event.isPush = true
    · cases event with
      | pushed chunk last result =>
        obtain ⟨hresult, -, hl, -⟩ := hallows
        have hfail := hf _ List.mem_concat_self
        obtain rfl : last = false := hopen _ List.mem_concat_self
        rcases hpush : Sink.push (Sink.replay sink log) chunk false with ⟨e | ⟨⟩, sink'⟩ <;>
          rw [hpush] at hresult <;> subst hresult
        · cases hfail
        · have := h.push hholds (Nat.le_trans hl hp) hpush
          simpa only [Event.onSink, Books.enter, hpush] using this
      | _ => cases hkind
    · have hkind := Bool.eq_false_iff.mpr hkind
      rw [Books.pushed_enter hkind]
      cases event with
      | pushed => cases hkind
      | _ => exact hholds

omit [Source σ] [Transducer τ] in
theorem Sink.Faithful.honest {Holds : κ → Bytes → Bool → Prop} {limit : Nat}
    (h : Sink.Faithful Holds true limit) : Sink.Honest Holds limit where
  push {sink sink' bs chunk last} hk hl hpush := by
    obtain ⟨sink'', hpush', hholds⟩ := h.push rfl hk hl last
    rw [hpush] at hpush'
    cases hpush'
    exact hholds

/-- **A run that succeeds has told its sink of the end.** -/
theorem Pipe.holds_of_ok {Holds : κ → Bytes → Bool → Prop} (hb : Source.Bounded σ)
    (ho : Transducer.Orderly τ) (h : Sink.Honest Holds framePayloadLimit)
    (ht : Sink.takesOutput sink = true) (hk : Holds sink [] false) {limit : Nat} {state : τ}
    {totals : PipeTotals} {r : Run σ τ κ Unit}
    (hr : p.run limit source state sink = (.ok totals, r)) : ∃ bs, Holds r.sink bs true := by
  rw [p.run_eq_watch limit source state sink Event.record []] at hr
  obtain ⟨hok, rfl⟩ := Prod.mk.inj hr
  have hclosed := (p.concluded_watch limit source state sink hb ho).of_ok hok
  obtain ⟨before, chunk, hlog, hopen⟩ := hclosed.last ht
  have hall := hclosed.allowed
  have hunfailed := hclosed.unfailed
  have hpushes := hclosed.pushes
  rw [hlog] at hall hunfailed hpushes
  obtain ⟨hall, hresult, -, hl, -⟩ := hall.of_concat
  have hholds := h.holds_replay p.capacity_le hk hall
    (fun e hm => hunfailed e (List.mem_append_left _ hm)) hopen
  rcases hpush : Sink.push (Sink.replay sink before) chunk true with ⟨e | ⟨⟩, sink'⟩ <;>
    rw [hpush] at hresult
  · cases hresult
  · rw [Sink.replay_concat] at hpushes
    simp only [Event.onSink, hpush] at hpushes
    refine ⟨(p.books before).pushed ++ chunk, ?_⟩
    change Holds (p.watch Event.record [] limit source state sink).2.sink _ true
    rw [hpushes]
    exact h.push hholds (Nat.le_trans hl p.capacity_le) hpush

/-- **A run that fails has not told its sink of the end**, if that takes all chunks. -/
theorem Pipe.holds_of_error {Holds : κ → Bytes → Bool → Prop} (hb : Source.Bounded σ)
    (ho : Transducer.Orderly τ) (h : Sink.Faithful Holds true framePayloadLimit)
    (hk : Holds sink [] false) {limit : Nat} {state : τ} {f : Failure} {r : Run σ τ κ Unit}
    (hr : p.run limit source state sink = (.error f, r)) : ∃ bs, Holds r.sink bs false := by
  rw [p.run_eq_watch limit source state sink Event.record []] at hr
  obtain ⟨herr, rfl⟩ := Prod.mk.inj hr
  change ∃ bs, Holds (p.watch Event.record [] limit source state sink).2.sink bs false
  rcases (p.concluded_watch limit source state sink hb ho).of_error herr with hs | ⟨-, hs⟩
  · obtain ⟨before, e, hlog, hfail, hunfailed, hopen, -⟩ := hs.last
    have hall := hs.allowed
    have hpushes := hs.pushes
    rw [hlog] at hall hpushes
    obtain ⟨hall, hallows⟩ := hall.of_concat
    have hholds := h.honest.holds_replay p.capacity_le hk hall hunfailed hopen
    refine ⟨(p.books before).pushed, ?_⟩
    rw [hpushes, Sink.replay_concat]
    cases e with
    | pushed chunk last result =>
      -- no push fails
      obtain ⟨hresult, -, hl, -⟩ := hallows
      obtain ⟨sink', hpush, -⟩ := h.push rfl hholds (Nat.le_trans hl p.capacity_le) last
      rw [hpush] at hresult
      subst hresult
      cases hfail
    | _ => exact hholds
  · have hholds := h.honest.holds_replay p.capacity_le hk hs.allowed hs.unfailed hs.unclosed
    rw [hs.pushes]
    exact ⟨_, hholds⟩

end

end BlockSync
