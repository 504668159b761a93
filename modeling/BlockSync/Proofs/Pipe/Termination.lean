import BlockSync.Proofs.Delta.Encoding
import BlockSync.Proofs.Delta.Meaning
import BlockSync.Proofs.Delta.Moves
import BlockSync.Proofs.Signature.Emitting
import BlockSync.Proofs.Signature.Loading

/-!
# Every run ends

* `Pipe.finishes_of_outlook`: runs of a transducer whose future is known;
* `Pipe.finishes_emitter`, `Pipe.finishes_encoder`, `Pipe.finishes_patcher`, `Pipe.finishes_loader`:
  runs of each of the transducers;
* **`Pipe.every_run_finishes`**: whatever the capacity, the basis and the faults at either end, a run
  over a finite stream ends, and each of its iterations but the last gets something done.
-/

namespace BlockSync

namespace Pipe

variable {σ τ κ ω ρ : Type} [Source σ] [Sink κ] {source : σ} {sink : κ} {n : Nat}

/-- A run of a transducer of whose future it is known how much `n` bytes can make. -/
theorem finishes_of_outlook [Transducer τ] {o : Outlook τ ρ} {Owes : Bench τ → Prop} {start : τ}
    (horderly : Transducer.Orderly τ) (ho : o.Sound) (hp : o.Prompt Owes)
    (hr : ∀ t rest f, (o.future t rest).refused f → ∃ e, f = .error e) (ht : o.Tells start)
    (hd : ∃ d, ∀ rest : Bytes, rest.length ≤ n → (o.future start rest).output.length ≤ d)
    (hs : Source.AtMost source n) (hk : Sink.takesOutput sink = true ∨ ∀ b, ¬ Owes b) (p : Pipe)
    (look : ω → Event → ω) (watcher : ω) :
    (p.begin source start sink watcher).Finishes look := by
  obtain ⟨d, hd⟩ := hd
  exact finishes_of_thrifty (ho.thrifty hp hr) horderly hs ⟨d, ht.due hd⟩ hk p look watcher

/-! ## The transducers -/

theorem finishes_emitter {params : Params} {e : SignatureEmitter}
    (he : SignatureEmitter.start params = .ok e) (hs : Source.AtMost source n)
    (hk : Sink.takesOutput sink = true) (p : Pipe) (look : ω → Event → ω) (watcher : ω) :
    (p.begin source e sink watcher).Finishes look := by
  have hv := SignatureEmitter.valid_of_start he
  obtain ⟨e', he', htells, hfuture⟩ := SignatureEmitter.start_spec hv
  obtain rfl : e = e' := Except.ok.inj (he.symm.trans he')
  have hlaw := SignatureEmitter.lawful params
  refine finishes_of_outlook SignatureEmitter.orderly hlaw.sound hlaw.prompt
    (fun _ _ _ hf => hf.elim) htells ⟨SignatureEmitter.outputBound n, ?_⟩ hs (.inl hk) p look watcher
  intro rest hrest
  rw [hfuture]
  apply Nat.le_trans (SignatureEmitter.length_records_le hv rest)
  exact Nat.add_le_add_left (Nat.mul_le_mul_left _ (Nat.add_le_add_right hrest 1)) _

theorem finishes_encoder {s : Signature} (hc : s.params.check = .ok ()) (hs : Source.AtMost source n)
    (hk : Sink.takesOutput sink = true) (p : Pipe) (look : ω → Event → ω) (watcher : ω) :
    (p.begin source (DeltaEncoder.start (.ofSignature s)) sink watcher).Finishes look := by
  have hv := (Params.check_iff _).mp hc
  have hlaw := DeltaEncoder.lawful s
  exact finishes_of_outlook DeltaEncoder.orderly hlaw.sound hlaw.prompt (fun _ _ _ hf => hf.elim)
    (DeltaEncoder.tells_start (s.blockLength_pos hv))
    ⟨DeltaEncoder.outputBound n, fun _ => DeltaEncoder.length_future_le hv⟩ hs (.inl hk) p look watcher

/-- Of any basis, and of any delta: also of one that is refused, or that the basis fails to serve. -/
theorem finishes_patcher {β : Type} [Basis β] {basis : β} {verify : Bool} {patcher : Patcher β}
    (hstart : Patcher.start basis verify = .ok patcher) (hs : Source.AtMost source n)
    (hk : Sink.takesOutput sink = true) (p : Pipe) (look : ω → Event → ω) (watcher : ω) :
    (p.begin source patcher sink watcher).Finishes look := by
  exact finishes_of_thrifty Patcher.thrifty Patcher.orderly hs
    ⟨patcher.outputBound n, Patcher.due_of_start hstart (Nat.le_refl n)⟩ (.inl hk) p look watcher

theorem finishes_loader (hs : Source.AtMost source n) (p : Pipe) (look : ω → Event → ω)
    (watcher : ω) : (p.begin source SignatureLoader.start NoSink.mk watcher).Finishes look := by
  exact finishes_of_outlook SignatureLoader.orderly SignatureLoader.sound SignatureLoader.prompt
    SignatureLoader.error_of_refused SignatureLoader.tells_start ⟨0, fun _ _ => Nat.le_refl 0⟩ hs
    (.inr fun _ => id) p look watcher

/-- **A run over a finite stream ends.** Whatever the capacity, and whatever its sink does with what is
pushed, a run that writes a signature, a delta against any signature or what any delta makes of any
basis, or that reads a signature, ends with success or for a cause that can be told. Each of its
iterations but the last pulls a byte, notices the end or pushes a byte, and if it succeeds it took at
most two more of them than bytes have passed. -/
theorem every_run_finishes (hs : Source.AtMost source n) (hk : Sink.takesOutput sink = true) (p : Pipe)
    (look : ω → Event → ω) (watcher : ω) :
    (∀ params e, SignatureEmitter.start params = .ok e →
      (p.begin source e sink watcher).Finishes look) ∧
    (∀ s : Signature, s.params.check = .ok () →
      (p.begin source (DeltaEncoder.start (.ofSignature s)) sink watcher).Finishes look) ∧
    (∀ (β : Type) [Basis β] (basis : β) (verify : Bool) (patcher : Patcher β),
      Patcher.start basis verify = .ok patcher →
        (p.begin source patcher sink watcher).Finishes look) ∧
    (p.begin source SignatureLoader.start NoSink.mk watcher).Finishes look := by
  refine ⟨?_, ?_, ?_, ?_⟩
  · intro params e he
    exact finishes_emitter he hs hk p look watcher
  · intro s hc
    exact finishes_encoder hc hs hk p look watcher
  · intro β _ basis verify patcher hstart
    exact finishes_patcher hstart hs hk p look watcher
  · exact finishes_loader hs p look watcher

/-- Three bytes that pass through queues of one byte, in a run of each kind. -/
theorem every_run_finishes_bytes :
    let p : Pipe := ⟨1, by decide, by decide⟩
    let source : RawSource := ⟨.ofBytes [1, 2, 3]⟩
    let sink : RawSink := ⟨{}⟩
    let s : Signature := ⟨⟨64, 4⟩, #[.ofBytes 0 [7, 7] 4]⟩
    let look : Unit → Event → Unit := fun w _ => w
    Source.AtMost source 3 ∧
      (∃ e, SignatureEmitter.start s.params = .ok e ∧ (p.begin source e sink ()).Finishes look) ∧
      (p.begin source (DeltaEncoder.start (.ofSignature s)) sink ()).Finishes look ∧
      (∃ patcher, Patcher.start (⟨#[7, 7]⟩ : StoredBasis) true = .ok patcher ∧
        (p.begin source patcher sink ()).Finishes look) ∧
      (p.begin source SignatureLoader.start NoSink.mk ()).Finishes look := by
  intro p source sink s look
  have hs : Source.AtMost source 3 := source.atMost
  obtain ⟨hemitter, hencoder, hpatcher, hloader⟩ := every_run_finishes hs
    (show Sink.takesOutput sink = true from rfl) p look ()
  exact ⟨hs, ⟨_, rfl, hemitter s.params _ rfl⟩, hencoder s rfl, ⟨_, rfl, hpatcher _ _ _ _ rfl⟩, hloader⟩

end Pipe

end BlockSync
