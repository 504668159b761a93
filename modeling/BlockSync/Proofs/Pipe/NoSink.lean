import BlockSync.Proofs.Delta.Acceptance
import BlockSync.Proofs.Delta.Encoding
import BlockSync.Proofs.Delta.Faults
import BlockSync.Proofs.Delta.Meaning
import BlockSync.Proofs.Signature.Emitting

/-!
# Runs without a sink

A sink that takes no output gets no output queue, and is never pushed to. A transducer that has
something to put out waits for room that never comes. Nothing tells so, and such a run does not end.

* `Run.error_of_invariant`: a run of which no iteration is the last one uses up any number of them;
* `Run.stalls_iterate`: one iteration of a transducer that has something to put out;
* **`Pipe.unfinished_without_sink`**: how runs of the transducers that put something out end without a
  sink.
-/

namespace BlockSync

variable {σ τ κ β ω ρ : Type}

/-! ## Runs -/

namespace Run

section

variable [Source σ] [Transducer τ] [Sink κ] (watch : ω → Event → ω)

/-- A run of which no iteration is the last one uses up any number of them, or fails. -/
theorem error_of_invariant {I : Run σ τ κ ω → Prop} {Q : Failure → Prop}
    (hi : ∀ r, I r → match r.iterate watch with
      | (.error f, _) => Q f
      | (.ok .done, _) => False
      | (.ok .blocked, r') => I r')
    {r : Run σ τ κ ω} (h : I r) (limit : Nat) :
    ∃ f, (r.complete watch limit).1 = .error f ∧ (f = .unfinished ∨ Q f) := by
  induction limit generalizing r with
  | zero => exact ⟨.unfinished, rfl, .inl rfl⟩
  | succ limit ih =>
    have hit := hi r h
    rw [complete]
    rcases hr : r.iterate watch with ⟨f | _ | _, r'⟩ <;> rw [hr] at hit
    · exact ⟨f, rfl, .inr hit⟩
    · exact ih hit
    · exact hit.elim

end

variable [Transducer τ] {x : Ends σ κ} {o : Outlook τ ρ} {Owes : Bench τ → Prop} {start : τ}
  {whole : Flow TransferError}

/-- A transducer that has something to put out, and no room for it, is blocked. -/
theorem Follows.blocked (hno : x.takes = false) (ho : o.Sound) (ht : o.Tells start)
    (hth : o.Thorough) (hne : (o.future start whole.bytes).output ≠ []) {r : Run σ τ κ ω}
    {fed : Bytes} (h : Follows x start whole r fed []) {result : Except Failure Status} {c : Bench τ}
    (hstep : Transducer.step r.bench = (result, c)) : result = .ok .blocked := by
  have hresp := ho.step (Schedule.fit ho ht h.schedule) hstep
  have hsched := h.schedule.stepped hstep
  have hnil : c.output.content = [] := by
    have hle := c.output.length_le_capacity
    rw [hresp.outputCapacity, h.noOutput hno] at hle
    exact List.eq_nil_of_length_eq_zero (Nat.le_zero.mp hle)
  cases result with
  | error f =>
    obtain ⟨rest, hwhole, hrest⟩ := h.exists_rest
    have hall := Schedule.output_of_error ho ht hth hsched rest (by rwa [hresp.ended])
    rw [← hwhole, hnil] at hall
    exact absurd hall.symm hne
  | ok status =>
    cases status with
    | blocked => rfl
    | done =>
      obtain ⟨hended, hsettled⟩ := Schedule.settled_of_done ho ht hsched
      rw [hresp.ended] at hended
      have hall := congrArg Future.output (Schedule.future_of_done ho ht hsched)
      simp only [Future.after, hnil, hsettled.1, List.append_nil] at hall
      rw [h.atEnd hended] at hne
      exact absurd hall hne

/-- A run has put out nothing, and its transducer waits for input or for room. -/
def Stalls (x : Ends σ κ) (Owes : Bench τ → Prop) (start : τ) (whole : Flow TransferError)
    (r : Run σ τ κ ω) : Prop :=
  ∃ fed, Follows x start whole r fed [] ∧
    ((r.bench.input.content = [] ∧ r.bench.input.ended = false) ∨ Owes r.bench)

variable [Source σ] [Sink κ] (watch : ω → Event → ω)

/-- An iteration without an output queue is not the last one if there is something to be put out. -/
theorem stalls_iterate (hx : x.Faithful) (hno : x.takes = false) (ho : o.Sound) (ht : o.Tells start)
    (hp : o.Prompt Owes) (hth : o.Thorough) (hne : (o.future start whole.bytes).output ≠ [])
    {r : Run σ τ κ ω} (h : Stalls x Owes start whole r) :
    match r.iterate watch with
    | (.error f, _) => ∃ e, f = .error e ∧ whole.ending = .error e
    | (.ok .done, _) => False
    | (.ok .blocked, r') => Stalls x Owes start whole r' := by
  obtain ⟨fed, h, hw⟩ := h
  have hrefill := refill_spec watch hx.source hp h.counted hw
  rw [iterate_eq]
  rcases hr : r.counted.refill watch with ⟨f | ⟨⟩, r₁⟩ <;> rw [hr] at hrefill
  · exact hrefill.1
  obtain ⟨-, more, h₁, -, -⟩ := hrefill
  obtain ⟨source, b, sink, totals, watcher⟩ := r₁
  rcases hstep : Transducer.step b with ⟨result, c⟩
  obtain rfl : result = .ok .blocked := h₁.blocked hno ho ht hth hne hstep
  have hfit : o.Fit b := Schedule.fit ho ht h₁.schedule
  have hresp := ho.step hfit hstep
  simp only [step, hstep]
  generalize watch (watch watcher _) _ = watcher₁
  obtain ⟨sink', c', made, totals', watcher', hdrain, hd⟩ :=
    drain_spec watch hx source totals watcher₁ h₁.sink (fun htakes => by rw [hno] at htakes; cases htakes)
      (fun _ => hresp.outputCapacity.trans (h₁.noOutput hno)) false
  have hmade := hd.made
  rw [hno, if_neg Bool.false_ne_true] at hmade
  obtain ⟨rfl, -⟩ := hmade
  simp only [show (Status.blocked == Status.done) = false from rfl, hdrain]
  refine ⟨fed ++ more, h₁.emit hstep hresp.ended hresp.inputCapacity hresp.outputCapacity hd rfl,
    ?_⟩
  rw [hd.input]
  exact (hp.waits hfit hstep).imp id fun howes => hp.served howes hd.served

end Run

namespace Pipe

/-! ## Transducers with output -/

/-- A run is not finished, however many iterations it was allowed, unless the flow was broken off. -/
def Unfinished (whole : Flow TransferError) (result : Except Failure PipeTotals) : Prop :=
  result = .error .unfinished ∨ ∃ e, whole.ending = .error e ∧ result = .error (.error e)

variable [Source σ] {source : σ} {whole : Flow TransferError}

/-- A run of a transducer of which it is known that it has something to put out. -/
theorem unfinished_of_outlook [Transducer τ] {o : Outlook τ ρ} {Owes : Bench τ → Prop} {start : τ}
    (ho : o.Sound) (ht : o.Tells start) (hp : o.Prompt Owes) (hth : o.Thorough)
    (hs : Source.Delivers source whole) (hne : (o.future start whole.bytes).output ≠ []) (p : Pipe)
    (limit : Nat) : Unfinished whole (p.run limit source start NoSink.mk).1 := by
  obtain ⟨Delivering, hsource, hdel⟩ := hs
  let x : Ends σ NoSink := ⟨Delivering, NoSink.Holds, false, framePayloadLimit⟩
  have hx : x.Faithful := ⟨hsource, NoSink.faithful _⟩
  have hbegin : Run.Stalls x Owes start whole (p.begin source start NoSink.mk ()) :=
    ⟨[], p.follows_begin hx hdel NoSink.holds_new (fun _ => p.capacity_le) (),
      .inl ⟨Queue.content_ofCapacity _, rfl⟩⟩
  obtain ⟨f, hf, rfl | ⟨e, rfl, he⟩⟩ := Run.error_of_invariant (fun (w : Unit) _ => w)
    (fun _ => Run.stalls_iterate _ hx rfl ho ht hp hth hne) hbegin limit
  · exact .inl hf
  · exact .inr ⟨e, he, hf⟩

theorem unfinished_emitter {params : Params} {e : SignatureEmitter}
    (he : SignatureEmitter.start params = .ok e) (hs : Source.Delivers source whole) (p : Pipe)
    (limit : Nat) : Unfinished whole (p.run limit source e NoSink.mk).1 := by
  obtain ⟨e', he', htells, hfuture⟩ := SignatureEmitter.start_spec (SignatureEmitter.valid_of_start he)
  obtain rfl : e = e' := Except.ok.inj (he.symm.trans he')
  have hlaw := SignatureEmitter.lawful params
  refine unfinished_of_outlook hlaw.sound htells hlaw.prompt (hlaw.sound.thorough fun _ _ _ => id) hs
    ?_ p limit
  rw [hfuture]
  apply List.append_ne_nil_of_left_ne_nil
  exact List.ne_nil_of_length_pos (by rw [Params.length_header]; decide)

theorem unfinished_encoder {s : Signature} (hc : s.params.check = .ok ())
    (hs : Source.Delivers source whole) (p : Pipe) (limit : Nat) :
    Unfinished whole (p.run limit source (DeltaEncoder.start (.ofSignature s)) NoSink.mk).1 := by
  have hlaw := DeltaEncoder.lawful s
  refine unfinished_of_outlook hlaw.sound
    (DeltaEncoder.tells_start (s.blockLength_pos ((Params.check_iff _).mp hc))) hlaw.prompt
    (hlaw.sound.thorough fun _ _ _ => id) hs ?_ p limit
  rw [DeltaEncoder.future_start]
  exact List.append_ne_nil_of_left_ne_nil (by decide) _

theorem unfinished_patcher [Basis β] {stored : β} {basis : Bytes} {verify : Bool} {patcher : Patcher β}
    (hb : Basis.Shows stored basis) (hstart : Patcher.start stored verify = .ok patcher)
    (hs : Source.Delivers source whole) (hne : (readDelta basis whole.bytes).output ≠ []) (p : Pipe)
    (limit : Nat) : Unfinished whole (p.run limit source patcher NoSink.mk).1 := by
  obtain ⟨Holds, hfaithful, hholds⟩ := hb
  obtain ⟨patcher', hstart', htells, -, hfuture⟩ := Patcher.start_spec hfaithful hholds verify
  obtain rfl : patcher = patcher' := Except.ok.inj (hstart.symm.trans hstart')
  refine unfinished_of_outlook (Patcher.sound hfaithful) htells Patcher.prompt
    (Patcher.thorough hfaithful) hs ?_ p limit
  rw [hfuture]
  exact hne

/-- **Output without a sink is not reported, and the run does not end.** Whatever the capacity, and
however many iterations it may take, a run without a sink that is to write a signature, a delta, or
what a delta makes of a basis, if that is not empty, is still not finished; only a failure of its
source can end it. -/
theorem unfinished_without_sink (hs : Source.Delivers source whole) (p : Pipe) (limit : Nat) :
    (∀ params e, SignatureEmitter.start params = .ok e →
      Unfinished whole (p.run limit source e NoSink.mk).1) ∧
    (∀ s : Signature, s.params.check = .ok () →
      Unfinished whole (p.run limit source (DeltaEncoder.start (.ofSignature s)) NoSink.mk).1) ∧
    (∀ (β : Type) [Basis β] (stored : β) (basis : Bytes) (verify : Bool) (patcher : Patcher β),
      Basis.Shows stored basis → Patcher.start stored verify = .ok patcher →
        (readDelta basis whole.bytes).output ≠ [] →
          Unfinished whole (p.run limit source patcher NoSink.mk).1) := by
  refine ⟨?_, ?_, ?_⟩
  · intro params e he
    exact unfinished_emitter he hs p limit
  · intro s hc
    exact unfinished_encoder hc hs p limit
  · intro β _ stored basis verify patcher hb hstart hne
    exact unfinished_patcher hb hstart hs hne p limit

/-- A signature of three bytes, and a delta that inserts one byte, in queues of four bytes. -/
theorem unfinished_without_sink_bytes :
    let p : Pipe := ⟨4, by decide, by decide⟩
    let file : RawSource := ⟨.ofBytes [1, 2, 3]⟩
    let s : Signature := ⟨⟨64, 4⟩, #[.ofBytes 0 [7, 7] 4]⟩
    let delta : Bytes := deltaMark ++ (Instruction.insert [9]).encode ++ (Instruction.close .zero).encode
    (∃ e, SignatureEmitter.start s.params = .ok e ∧
      Unfinished ⟨[1, 2, 3], .ok ()⟩ (p.run 1000 file e NoSink.mk).1) ∧
    Unfinished ⟨[1, 2, 3], .ok ()⟩ (p.run 1000 file (DeltaEncoder.start (.ofSignature s)) NoSink.mk).1 ∧
    ∃ patcher, Patcher.start (⟨#[7, 7]⟩ : StoredBasis) false = .ok patcher ∧
      (readDelta [7, 7] delta).output ≠ [] ∧
      Unfinished ⟨delta, .ok ()⟩ (p.run 1000 (⟨.ofBytes delta⟩ : RawSource) patcher NoSink.mk).1 := by
  intro p file s delta
  obtain ⟨hemitter, hencoder, -⟩ :=
    unfinished_without_sink (RawSource.delivers_ofBytes [1, 2, 3]) p 1000
  obtain ⟨-, -, hpatcher⟩ := unfinished_without_sink (RawSource.delivers_ofBytes delta) p 1000
  have hne : (readDelta [7, 7] delta).output ≠ [] := by decide +kernel
  exact ⟨⟨_, rfl, hemitter s.params _ rfl⟩, hencoder s rfl,
    _, rfl, hne, hpatcher _ _ [7, 7] false _ (StoredBasis.shows [7, 7]) rfl hne⟩

/-- The header of a signature is not reported: over an empty file the run never ends, and over frames
of which the last one is missing it reads on until the connection is found closed. -/
theorem not_reported_without_sink :
    let e : SignatureEmitter :=
      ⟨⟨256, 8⟩, #[], 0, Backlog.empty.append (Params.header ⟨256, 8⟩), false⟩
    let frames : FramedSource := ⟨.ofBytes [0, 8, 1, 2, 3, 4, 0, 4, 5, 6], #[], 0, false, 0⟩
    SignatureEmitter.start ⟨256, 8⟩ = .ok e ∧
      (∀ limit, ((⟨16, by decide, by decide⟩ : Pipe).run limit (⟨.ofBytes []⟩ : RawSource) e
        NoSink.mk).1 = .error .unfinished) ∧
      ((⟨64, by decide, by decide⟩ : Pipe).run 9 frames e NoSink.mk).1 =
        .error (.error (.framing .closedInHeader)) := by
  intro e frames
  have hstart : SignatureEmitter.start ⟨256, 8⟩ = .ok e := rfl
  refine ⟨hstart, fun limit => ?_, by decide +kernel⟩
  rcases unfinished_emitter hstart (RawSource.delivers_ofBytes []) ⟨16, by decide, by decide⟩ limit with
    h | ⟨_, h, -⟩
  · exact h
  · cases h

end Pipe

end BlockSync
