import BlockSync.Proofs.Exchange.Whole
import BlockSync.Proofs.Machine.Encoder
import BlockSync.Proofs.Machine.Ends
import BlockSync.Proofs.Machine.Patcher

/-!
# Exchanges on the machine

The phases that read what a peer has sent, on the machine: a signature is read, the delta of a file
against it is written, and a delta is applied to a basis.

* `Exchange.load`, `Exchange.generate`, `Exchange.apply`: the phases on the machine;
* `Exchange.load_eq`, `Exchange.generate_does`, `Exchange.apply_does`: each does what the phase does;
* `Exchange.putOut`: how much is put out when a delta is applied; `Exchange.putOut_le`,
  `Exchange.putOut_le_of_shows`: at most a copy of the basis for each byte of the delta, and what the
  delta builds if the basis can be read;
* **`Exchange.received_never_traps`**: whatever a peer has sent, nothing traps.
-/

namespace BlockSync

open Machine

/-- What is reported of a run on the machine. -/
theorem Machine.Does.report {σ τ μ κ α : Type} {repr : τ → μ}
    {m : Machine (Except TransferError PipeTotals × Engine σ μ κ)}
    {p : Except Failure PipeTotals × Run σ τ κ Unit} (h : Does (Run.engine repr) m p) (f : μ → α) :
    Does id (do
        let (result, engine) ← m
        return (result.map fun _ => f engine.program, engine.sink))
      (p.1.map fun _ => f (repr p.2.bench.state), p.2.sink) := by
  obtain ⟨result, rfl, hp⟩ := h
  refine ⟨result.map fun _ => f (repr p.2.bench.state), rfl, ?_⟩
  dsimp only
  rw [hp]
  cases result <;> rfl

/-- What is reported on the machine tells all that was to be expected. -/
theorem Machine.Does.of_fst {α δ : Type} {m : Machine (Except TransferError α × δ)}
    {p : Except Failure α × δ} (h : Does id m p) {result : Except TransferError α}
    (hr : m.map Prod.fst = .ok result) : m = .ok (result, p.2) ∧ p = (result.mapError .error, p.2) := by
  obtain ⟨result', rfl, hp⟩ := h
  obtain rfl : result' = result := Except.ok.inj hr
  exact ⟨rfl, Prod.ext hp rfl⟩

namespace Exchange

variable {σ κ β : Type} [Source σ] [Inlet σ] [Sink κ] [Outlet κ] [Basis β] (x : Exchange)

/-! ## Phases -/

/-- Read a signature. -/
def load (source : σ) : Machine (Except TransferError Signature) := do
  let limit := Pipe.iterationsFor (Source.available source) 0
  let (result, engine) ← Engine.run x.pipe.capacity limit source SignatureLoader.start NoSink.mk
  match result with
  | .error e => return .error e
  | .ok _ => return engine.program.result

/-- Write the delta of a new file against a signature. -/
def generate (s : Signature) (source : σ) (sink : κ) :
    Machine (Except TransferError DeltaTotals × κ) := do
  let available := Source.available source
  let limit := Pipe.iterationsFor available (DeltaEncoder.outputBound available)
  let (result, engine) ← Engine.run x.pipe.capacity limit source (Scanner.start s) sink
  return (result.map fun _ => engine.program.issuer.totals, engine.sink)

/-- Apply a delta to a basis; the number of bytes written is given. -/
def apply (basis : β) (source : σ) (sink : κ) : Machine (Except TransferError Nat × κ) :=
  match Patcher.start basis x.settings.verify with
  | .error e => return (.error e, sink)
  | .ok start => do
    let available := Source.available source
    let limit := Pipe.iterationsFor available (start.outputBound available)
    let (result, engine) ← Engine.run x.pipe.capacity limit source start sink
    return (result.map fun _ => engine.program.written, engine.sink)

omit [Sink κ] [Outlet κ] [Basis β] in
/-- A signature is read, or refused. -/
theorem load_eq {peer : Reader} (h : peer.available + 2 < 2 ^ 64) :
    ∃ result, x.load (Inlet.ofReader peer : σ) = .ok result ∧
      x.readSignature (Inlet.ofReader peer : σ) = result.mapError .error ∧
      ∀ s, result = .ok s → s.params.Valid := by
  have hsound : Inlet.Sound (Inlet.ofReader peer : σ) := Inlet.sound_ofReader (by omega)
  have havail := Inlet.available_ofReader (σ := σ) peer
  have hresult := SignatureLoader.run_result (Inlet.delivers (Inlet.ofReader peer : σ)) x.pipe
  have hfits : Source.available (Inlet.ofReader peer : σ) + 0 + 2 < 2 ^ 64 := by
    rw [havail]
    exact h
  have hsent : Outlet.sent NoSink.mk = 0 := rfl
  obtain ⟨result, hm, hr⟩ := Pipe.run_does_of_outlook id SignatureLoader.sound SignatureLoader.prompt
    SignatureLoader.error_of_refused SignatureLoader.tells_start SignatureLoader.orderly
    SignatureLoader.implements hsound hsent (.inr fun _ => id) (fun _ _ => Nat.le_refl 0) hfits x.pipe
  rw [id] at hm
  unfold load readSignature
  dsimp only
  rw [hm, bind_ok]
  rcases hrun : x.pipe.run (Pipe.iterationsFor (Source.available (Inlet.ofReader peer : σ)) 0)
    (Inlet.ofReader peer : σ) SignatureLoader.start NoSink.mk with ⟨f | totals, run⟩ <;>
    rw [hrun] at hr hresult
  · obtain ⟨e, rfl⟩ : ∃ e, result = .error e := by
      cases result with
      | error e => exact ⟨e, rfl⟩
      | ok totals => cases hr
    exact ⟨.error e, rfl, congrArg _ (Except.error.inj hr), nofun⟩
  · obtain ⟨totals', rfl⟩ : ∃ totals', result = .ok totals' := by
      cases result with
      | error e => cases hr
      | ok totals' => exact ⟨totals', rfl⟩
    exact ⟨run.bench.state.result, rfl, rfl, fun s hs =>
      SignatureLoader.valid_of_conclude ((SignatureLoader.result_of_ok hresult).trans hs)⟩

omit [Basis β] in
/-- The delta of a file is written, unless the connection fails. -/
theorem generate_does {s : Signature} (hp : s.params.Valid) {file : Reader} {writer : Writer}
    (htakes : Sink.takesOutput (Outlet.ofWriter writer : κ) = true)
    (h : file.available + (s.delta (Inlet.flow (Inlet.ofReader file : σ)).bytes).length + 2 < 2 ^ 64) :
    Does id (x.generate s (Inlet.ofReader file : σ) (Outlet.ofWriter writer : κ))
      (x.writeDelta (.ofSignature s) (Inlet.ofReader file : σ) (Outlet.ofWriter writer)) := by
  have hsound : Inlet.Sound (Inlet.ofReader file : σ) := Inlet.sound_ofReader (by omega)
  have havail := Inlet.available_ofReader (σ := σ) file
  have hlaw := DeltaEncoder.lawful s
  have hfuture := congrArg Future.output
    (DeltaEncoder.future_start s (Inlet.flow (Inlet.ofReader file : σ)).bytes)
  dsimp only at hfuture
  rw [← havail, ← hfuture] at h
  exact (Pipe.run_does_of_outlook DeltaEncoder.scanner hlaw.sound hlaw.prompt
    (fun _ _ _ hf => hf.elim) (DeltaEncoder.tells_start (s.blockLength_pos hp)) DeltaEncoder.orderly
    (DeltaEncoder.implements hp) hsound (Outlet.sent_ofWriter writer) (.inl htakes)
    (fun _ => DeltaEncoder.length_future_le hp) h x.pipe).report fun m => m.issuer.totals

/-! ## What is put out -/

/-- How many bytes are put out when a delta is applied to a basis, whatever comes of it. -/
def putOut (basis : β) (source : σ) (sink : κ) : Nat :=
  match Patcher.start basis x.settings.verify with
  | .error _ => 0
  | .ok start =>
    let available := Source.available source
    let limit := Pipe.iterationsFor available (start.outputBound available)
    (x.pipe.run limit source start sink).2.made

variable {stored : β} (source : σ) (sink : κ)

omit [Outlet κ] in
/-- What is put out was made of the delta in a schedule. -/
theorem makes_putOut {p : Patcher β} (hp : Patcher.start stored x.settings.verify = .ok p) :
    Transducer.Makes p (Inlet.flow source).bytes (x.putOut stored source sink) := by
  unfold putOut
  rw [hp]
  exact x.pipe.makes_of_run Patcher.orderly (Inlet.delivers source) _ sink

omit [Outlet κ] in
/-- Whatever the basis gives, no more is put out than a copy of it for every byte of the delta. -/
theorem putOut_le {size : Nat} (hsize : (Basis.size stored).1 = .ok size) :
    x.putOut stored source sink ≤ (size + 1) * Source.available source := by
  cases hp : Patcher.start stored x.settings.verify with
  | error e =>
    unfold putOut
    rw [hp]
    exact Nat.zero_le _
  | ok p =>
    obtain ⟨fed, taken, result, b, rest, hsched, hwhole, -, hmade⟩ := x.makes_putOut source sink hp
    obtain ⟨size', hs, rfl⟩ := Patcher.start_eq hp
    obtain rfl : size = size' := Except.ok.inj (hsize.symm.trans hs)
    have hfed : fed.length ≤ Source.available source := by
      refine Nat.le_trans ?_ (Inlet.delivers source).available
      rw [hwhole]
      exact (List.prefix_append _ _).length_le
    rw [← hmade]
    exact Nat.le_trans (Patcher.length_le_of_schedule hp hsched) (Nat.mul_le_mul_left _ hfed)

omit [Outlet κ] in
/-- Of a basis that can be read no more is put out than the delta makes of it. -/
theorem putOut_le_of_shows {basis : Bytes} (hb : Basis.Shows stored basis) :
    x.putOut stored source sink ≤ (readDelta basis (Inlet.flow source).bytes).output.length := by
  obtain ⟨Holds, hb, hstored⟩ := hb
  obtain ⟨p, hp, htells, -, hfuture⟩ := Patcher.start_spec hb hstored x.settings.verify
  have hle := (Patcher.sound hb).made_le htells (x.makes_putOut source sink hp)
  rw [hfuture] at hle
  exact hle

/-- A delta is applied, or refused, or the basis fails. -/
theorem apply_does (hsize : ∀ size, (Basis.size stored).1 = .ok size → size < 2 ^ 64) {delta : Reader}
    {writer : Writer} (htakes : Sink.takesOutput (Outlet.ofWriter writer : κ) = true)
    (h : delta.available +
      x.putOut stored (Inlet.ofReader delta : σ) (Outlet.ofWriter writer : κ) + 2 < 2 ^ 64) :
    Does id (x.apply stored (Inlet.ofReader delta : σ) (Outlet.ofWriter writer : κ))
      (x.writePatched stored (Inlet.ofReader delta : σ) (Outlet.ofWriter writer)) := by
  have hsound : Inlet.Sound (Inlet.ofReader delta : σ) := Inlet.sound_ofReader (by omega)
  have havail := (Inlet.delivers (Inlet.ofReader delta : σ)).available
  rw [← Inlet.available_ofReader (σ := σ)] at h
  unfold putOut at h
  unfold apply writePatched
  cases hp : Patcher.start stored x.settings.verify with
  | error e => exact ⟨.error e, rfl, rfl⟩
  | ok p =>
    rw [hp] at h
    obtain ⟨size, hs, hp'⟩ := Patcher.start_eq hp
    have hbasis : p.basisSize < 2 ^ 64 := by
      rw [hp']
      exact hsize size hs
    exact (Pipe.run_does id Patcher.thrifty Patcher.orderly (Patcher.implements hp hbasis) hsound
      (Outlet.sent_ofWriter writer) (.inl htakes) (Patcher.due_of_start hp havail) x.pipe h).report
      fun p => p.written

/-! ## Whatever is received -/

/-- **Whatever a peer has sent, nothing traps.** A signature is read or refused; if one is read, the
delta of any file against it is written, unless the connection fails; and any delta is applied to any
basis or refused, unless the basis or the connection fails. What each of them comes to is what the phase
of the exchange comes to, down to the failure.

A phase counts its iterations in a word, and each but two of them moves at least a byte, with queues of
one byte often not more: hence the bytes that arrive and those that are put out, and two more, have to
be fewer than `2 ^ 64`. The basis may be anything whose size, if it tells one, is a word: it may fail
to tell its size, any read of it may fail, and what it gives may be of another length or other bytes
each time. -/
theorem received_never_traps (β : Type) [Basis β] (σ₁ σ₂ σ₃ κ₁ κ₂ : Type) [Source σ₁] [Inlet σ₁]
    [Source σ₂] [Inlet σ₂] [Source σ₃] [Inlet σ₃] [Sink κ₁] [Outlet κ₁] [Sink κ₂] [Outlet κ₂]
    (x y z : Exchange) {peer : Reader} (hpeer : peer.available + 2 < 2 ^ 64) :
    (∃ result, x.load (Inlet.ofReader peer : σ₁) = .ok result ∧
      x.readSignature (Inlet.ofReader peer : σ₁) = result.mapError .error ∧
      ∀ s, result = .ok s → ∀ (file : Reader) (writer : Writer),
        Sink.takesOutput (Outlet.ofWriter writer : κ₁) = true →
        file.available + (s.delta (Inlet.flow (Inlet.ofReader file : σ₂)).bytes).length + 2 < 2 ^ 64 →
        Does id (y.generate s (Inlet.ofReader file : σ₂) (Outlet.ofWriter writer : κ₁))
          (y.writeDelta (.ofSignature s) (Inlet.ofReader file : σ₂) (Outlet.ofWriter writer))) ∧
    ∀ (stored : β) (delta : Reader) (writer : Writer),
      (∀ size, (Basis.size stored).1 = .ok size → size < 2 ^ 64) →
      Sink.takesOutput (Outlet.ofWriter writer : κ₂) = true →
      delta.available +
        z.putOut stored (Inlet.ofReader delta : σ₃) (Outlet.ofWriter writer : κ₂) + 2 < 2 ^ 64 →
      Does id (z.apply stored (Inlet.ofReader delta : σ₃) (Outlet.ofWriter writer : κ₂))
        (z.writePatched stored (Inlet.ofReader delta : σ₃) (Outlet.ofWriter writer)) := by
  refine ⟨?_, fun stored delta writer hsize htakes h => z.apply_does hsize htakes h⟩
  obtain ⟨result, hload, hread, hvalid⟩ := x.load_eq (σ := σ₁) hpeer
  exact ⟨result, hload, hread, fun s hs file writer htakes h =>
    y.generate_does (hvalid s hs) htakes h⟩

/-- A signature without blocks; and a delta that copies from where the basis does not reach, one that
copies what cannot be read, and one for a basis whose size cannot be told. -/
theorem received_never_traps_edge :
    let peer : Reader := .ofBytes (signatureMark ++ [0, 0, 0, 64, 0, 0, 0, 4])
    let outside : Reader := .ofBytes ([0, 35] ++ deltaMark ++ copyOpcode :: List.replicate 12 255)
    let inside : Reader :=
      .ofBytes ([0, 35] ++ deltaMark ++ copyOpcode :: [0, 0, 0, 0, 0, 0, 0, 0, 0, 0, 0, 2])
    let lost : Fault := ⟨.timedOut, ""⟩
    let applied (β : Type) [Basis β] (stored : β) (delta : Reader) (e : TransferError) : Prop :=
      ∃ sink, standard.apply stored (Inlet.ofReader delta : FramedSource)
          (Outlet.ofWriter {} : RawSink) = .ok (.error e, sink) ∧
        standard.writePatched stored (Inlet.ofReader delta : FramedSource)
          (Outlet.ofWriter {} : RawSink) = (.error (.error e), sink)
    (∃ s totals sink, standard.load (Inlet.ofReader peer : RawSource) = .ok (.ok s) ∧
      standard.generate s (Inlet.ofReader (.ofBytes [7]) : RawSource)
        (Outlet.ofWriter {} : FramedSink) = .ok (totals, sink)) ∧
    applied Reluctant ⟨#[1, 2], 0⟩ outside (.copyOutOfBounds (2 ^ 64 - 1) (2 ^ 32 - 1) 2) ∧
    applied Reluctant ⟨#[1, 2], 1⟩ inside (.io lost) ∧ applied Withheld ⟨lost⟩ inside (.io lost) := by
  intro peer outside inside lost applied
  have hpeer : peer.available + 2 < 2 ^ 64 := by decide
  obtain ⟨⟨result, hload, hread, hgenerate⟩, hreluctant⟩ := received_never_traps Reluctant RawSource
    RawSource FramedSource FramedSink RawSink standard standard standard hpeer
  obtain ⟨-, hwithheld⟩ := received_never_traps Withheld RawSource RawSource FramedSource FramedSink
    RawSink standard standard standard hpeer
  have hconclude : SignatureLoader.start.conclude (signatureMark ++ [0, 0, 0, 64, 0, 0, 0, 4]) =
      .ok ⟨⟨64, 4⟩, #[]⟩ := rfl
  have happlied : ∀ (refusals : Nat) (delta : Reader) (e : TransferError), delta.available = 19 →
      standard.putOut (⟨#[1, 2], refusals⟩ : Reluctant) (Inlet.ofReader delta : FramedSource)
        (Outlet.ofWriter {} : RawSink) ≤ 57 →
      (standard.apply (⟨#[1, 2], refusals⟩ : Reluctant) (Inlet.ofReader delta : FramedSource)
        (Outlet.ofWriter {} : RawSink)).map Prod.fst = .ok (.error e) →
      applied Reluctant ⟨#[1, 2], refusals⟩ delta e := by
    intro refusals delta e hdelta hfew hfirst
    have hsize : (Basis.size (⟨#[1, 2], refusals⟩ : Reluctant)).1 = .ok 2 := rfl
    refine ⟨_, (hreluctant ⟨#[1, 2], refusals⟩ delta {} (fun size hs => ?_) rfl ?_).of_fst hfirst⟩
    · rw [← Except.ok.inj (hsize.symm.trans hs)]
      decide
    · rw [hdelta]
      omega
  refine ⟨⟨⟨⟨64, 4⟩, #[]⟩, ?_⟩, ?_, ?_, ?_⟩
  · have hspec := standard.readSignature_spec (RawSource.delivers_ofBytes
      (signatureMark ++ [0, 0, 0, 64, 0, 0, 0, 4]))
    rw [hconclude] at hspec
    obtain rfl : result = .ok ⟨⟨64, 4⟩, #[]⟩ := by
      have h := hread.symm.trans hspec
      cases result with
      | error e => cases h
      | ok s => exact congrArg _ (Except.ok.inj h)
    have hp : Params.Valid ⟨64, 4⟩ := (Params.check_iff _).mp rfl
    have hflow : (Inlet.flow (Inlet.ofReader (.ofBytes [7]) : RawSource)).bytes = [7] := by
      change (RawSource.flow ⟨.ofBytes [7]⟩).bytes = _
      rw [RawSource.flow, Reader.flow_ofBytes]
    have hdelta := Signature.length_delta_le (s := ⟨⟨64, 4⟩, #[]⟩) hp [7]
    have hfile : (Reader.ofBytes [7]).available = 1 := rfl
    obtain ⟨totals, h, -⟩ := hgenerate _ rfl (.ofBytes [7]) {} rfl (by
      rw [hflow, hfile]
      simp only [DeltaEncoder.outputBound, List.length_singleton] at hdelta
      omega)
    exact ⟨totals, _, hload, h⟩
  · -- what cannot be copied is not put out
    have hnone : (readDelta [1, 2] (Inlet.flow (Inlet.ofReader outside : FramedSource)).bytes).output =
        [] := by decide +kernel
    have hle := standard.putOut_le_of_shows (Inlet.ofReader outside : FramedSource)
      (Outlet.ofWriter {} : RawSink) (Reluctant.shows #[1, 2])
    rw [hnone] at hle
    exact happlied 0 outside _ rfl (Nat.le_trans hle (Nat.zero_le _)) (by decide +kernel)
  · -- a basis of two bytes stands for at most three for each byte of the delta
    have hsize : (Basis.size (⟨#[1, 2], 1⟩ : Reluctant)).1 = .ok 2 := rfl
    have hle := standard.putOut_le (Inlet.ofReader inside : FramedSource)
      (Outlet.ofWriter {} : RawSink) hsize
    exact happlied 1 inside _ rfl hle (by decide +kernel)
  · have hnone : inside.available + standard.putOut (⟨lost⟩ : Withheld)
        (Inlet.ofReader inside : FramedSource) (Outlet.ofWriter {} : RawSink) + 2 < 2 ^ 64 := by
      decide
    exact ⟨_, (hwithheld ⟨lost⟩ inside {} (fun size hs => by cases hs) rfl hnone).of_fst rfl⟩

end Exchange

end BlockSync
