import BlockSync.Proofs.Afterwards
import BlockSync.Proofs.Signature.Loading

/-!
# Loaders that have failed

A refused header stays where it is and is refused again; what else makes a loader fail is that its
stream ends too early, and of that it keeps no trace.

* `SignatureLoader.Stopped`: the header is complete and is refused;
* `SignatureLoader.stays_stopped`: whatever is fed, it stays so;
* `SignatureLoader.stays_closing`: a stream that ended too early stays so as long as nothing is fed;
* **`SignatureLoader.after_error`**: which of these a failure leaves behind.
-/

namespace BlockSync

namespace SignatureLoader

variable {l l' : SignatureLoader} {e : TransferError} {bs : Bytes} {b c : Bench SignatureLoader}

/-! ## A refused header -/

/-- The header is complete, and refused. -/
structure Stopped (e : TransferError) (l : SignatureLoader) : Prop where
  signature : l.signature = none
  length : l.field.length = signatureHeaderLength
  header : Params.ofHeader l.field = .error e

theorem Stopped.absorb_cons (h : Stopped e l) (x : UInt8) (bs : Bytes) :
    l.absorb (x :: bs) = (.error e, l, bs.length + 1) := by
  obtain ⟨field, signature, done⟩ := l
  obtain ⟨rfl, hl, hh⟩ := h
  rw [absorb, if_pos hl.ge, hh]
  rfl

theorem Stopped.result_eq (h : Stopped e l) :
    l.result = .error (.invalidSignature .incomplete) := by
  rw [result, h.signature]

/-- A header that is refused is the only thing that stops a loader within its stream. -/
theorem stopped_of_absorb {n : Nat} (h : Reads l) (ha : l.absorb bs = (.error e, l', n)) :
    Stopped e l' := by
  induction bs generalizing l with
  | nil => rw [absorb_nil] at ha; cases ha
  | cons x bs ih =>
    obtain ⟨field, _ | ⟨p, blocks⟩, done⟩ := l
    · have hlt : field.length < signatureHeaderLength := h rfl
      rw [absorb_header_cons hlt] at ha
      by_cases hc : (field ++ [x]).length = signatureHeaderLength
      · rw [if_pos hc] at ha
        cases hp : Params.ofHeader (field ++ [x]) with
        | error e' =>
          rw [hp] at ha
          cases ha
          exact ⟨rfl, hc, hp⟩
        | ok p =>
          rw [hp] at ha
          refine ih ?_ ha
          nofun
      · rw [if_neg hc] at ha
        refine ih (fun _ => ?_) ha
        rw [List.length_append, List.length_singleton] at hc ⊢
        omega
    · rw [absorb_record_cons] at ha
      split at ha <;> refine ih ?_ ha <;> nofun

/-- A step at a refused header changes nothing of the loader and is not the last one. -/
theorem step_stopped (h : Stopped e b.state) :
    (step b).2.state = b.state ∧ (step b).1 ≠ .ok .done := by
  cases hcontent : b.input.content with
  | nil =>
    have habsorb : b.state.absorb b.input.content = (.ok (), b.state, 0) := by
      rw [hcontent, absorb_nil]
    have hclose : b.state.close = (.error (.invalidSignature .endedInHeader), b.state) := by
      rw [close, h.signature]
      rfl
    rw [step_of_absorb habsorb, hclose]
    split <;> exact ⟨rfl, by simp⟩
  | cons x bs =>
    have habsorb := h.absorb_cons x bs
    rw [← hcontent] at habsorb
    rw [step_of_absorb_error habsorb]
    exact ⟨rfl, by simp⟩

theorem stays_stopped (Fed : Bytes → Prop) :
    Bench.Stays Fed fun b : Bench SignatureLoader => Stopped e b.state where
  tended h ht _ := by rwa [ht.state]
  step {c} h := by
    change Stopped e (step c).2.state
    rwa [(step_stopped h).1]

/-! ## What a loader can have come to -/

/-- A loader reads its stream, or is stopped at its header. -/
def Known (l : SignatureLoader) : Prop := Reads l ∨ ∃ e, Stopped e l

/-- After a step a loader reads on, or its header is refused. -/
theorem known_step (h : Known b.state) : Known (step b).2.state := by
  rcases h with h | ⟨e, h⟩
  · rcases absorb_append h b.input.content with ⟨l, hok, hl, -⟩ | ⟨e, l, n, herr, -⟩
    · rw [step_of_absorb hok]
      split
      · rcases close_cases l with ⟨e, hclose⟩ | ⟨hclose, -⟩ <;> rw [hclose] <;> exact .inl hl
      · exact .inl hl
    · rw [step_of_absorb_error herr]
      exact .inr ⟨e, stopped_of_absorb h herr⟩
  · rw [(step_stopped h).1]
    exact .inr ⟨e, h⟩

theorem stays_known (Fed : Bytes → Prop) :
    Bench.Stays Fed fun b : Bench SignatureLoader => Known b.state where
  tended h ht _ := by rwa [ht.state]
  step h := known_step h

/-! ## A stream that ends too early -/

/-- The stream has ended where it may not. -/
structure Closing (e : TransferError) (l : SignatureLoader) (b : Bench SignatureLoader) : Prop where
  state : b.state = l
  content : b.input.content = []
  ended : b.input.ended = true
  close : l.close = (.error e, l)

theorem Closing.step_eq (h : Closing e l b) :
    step b = (.error e, ⟨l, b.input.drop b.input.length, b.output⟩) := by
  have habsorb : b.state.absorb b.input.content = (.ok (), l, 0) := by
    rw [h.content, absorb_nil, h.state]
  rw [step_of_absorb habsorb, if_pos h.ended, h.close]

theorem stays_closing : Bench.Stays (· = []) (Closing e l) where
  tended h ht hfed := by
    subst hfed
    exact ⟨ht.state.trans h.state, by rw [ht.input, h.content]; rfl, ht.ended h.ended, h.close⟩
  step {c} h := by
    change Closing e l (step c).2
    rw [h.step_eq]
    exact ⟨rfl, c.input.content_drop_length, by simpa using h.ended, h.close⟩

/-- Only closing its stream makes a loader done. -/
theorem done_absorb (l : SignatureLoader) (bs : Bytes) : (l.absorb bs).2.1.done = l.done := by
  induction bs generalizing l with
  | nil => rw [absorb_nil]
  | cons x bs ih =>
    obtain ⟨field, _ | ⟨p, blocks⟩, done⟩ := l
    · simp only [absorb]
      split
      · rfl
      · split
        · split
          · rfl
          · exact ih _
        · exact ih _
    · rw [absorb_record_cons]
      split <;> exact ih _

theorem done_of_result {s : Signature} (h : l.result = .ok s) : l.done = true := by
  obtain ⟨field, _ | s', _ | _⟩ := l <;> first | rfl | cases h

theorem cause_of_close (h : l.close = (.error e, l')) :
    e = .invalidSignature .endedInHeader ∨ e = .invalidSignature .endedInRecord := by
  unfold close at h
  split at h
  · cases h
    exact .inl rfl
  · split at h <;> cases h
    exact .inr rfl

/-! ## After a failure -/

/-- A loader that has failed for good: whatever it is fed, it is not done, and it has no signature. -/
def Lost (c : Bench SignatureLoader) : Prop :=
  c.Final (fun _ => True) ∧
    ∀ d, c.Later (fun _ => True) d → d.state.result = .error (.invalidSignature .incomplete)

/-- A loader that has failed with `f` for the end of its stream alone. It is where it would be if the
end had not been marked, and fails again until it is fed; it has a signature only if it had been done
before. -/
structure CutOff (f : Failure) (b c : Bench SignatureLoader) : Prop where
  cause : f = .error (.invalidSignature .endedInHeader) ∨ f = .error (.invalidSignature .endedInRecord)
  resumes : Transducer.step b.reopen = (.ok .blocked, c.reopen)
  again : ∀ d, c.Later (· = []) d → (Transducer.step d).1 = .error f
  result : ∀ d, c.Later (· = []) d → ∀ s, d.state.result = .ok s → b.state.done = true

theorem lost_of_stopped (h : Stopped e c.state) : Lost c := by
  refine ⟨Bench.final_of_stays (stays_stopped _) (fun {d} hd hdone => ?_) h,
    fun d hd => (hd.keeps (stays_stopped _) h).result_eq⟩
  have hnot := (step_stopped hd).2
  rw [transducer_step] at hdone
  rcases hs : (step d).1 with e | status <;> rw [hs] at hdone hnot <;> cases hdone
  exact hnot rfl

theorem cutOff_of_close (hb : b.state.absorb b.input.content = (.ok (), l, 0))
    (he : b.input.ended = true) (hclose : l.close = (.error e, l)) :
    CutOff (.error e) b ⟨l, b.input.drop b.input.length, b.output⟩ := by
  have hclosing : Closing e l ⟨l, b.input.drop b.input.length, b.output⟩ :=
    ⟨rfl, b.input.content_drop_length, by simpa using he, hclose⟩
  refine ⟨?_, ?_, fun d hd => ?_, fun d hd s hs => ?_⟩
  · exact (cause_of_close hclose).imp (congrArg _) (congrArg _)
  · have hopen : b.reopen.state.absorb b.reopen.input.content = (.ok (), l, 0) := hb
    rw [transducer_step, step_of_absorb hopen]
    change ((Except.ok Status.blocked).mapError Failure.error, _) = _
    rw [Bench.reopen, Bench.reopen, Queue.alike_reopen.drop]
    rfl
  · rw [transducer_step, (hd.keeps stays_closing hclosing).step_eq]
    rfl
  · have hd' := (hd.keeps stays_closing hclosing).state
    have hdone := done_absorb b.state b.input.content
    rw [hb] at hdone
    rw [hd'] at hs
    rw [← hdone]
    exact done_of_result hs

/-- **What a failure of a loader leaves behind**, in whatever order it was fed and stepped before: a
header that is refused for ever, or a loader that only lacks the rest of its stream. -/
theorem after_error {first : Bench SignatureLoader} {f : Failure} (hfirst : first.state = start)
    (hb : first.Later (fun _ => True) b) (h : Transducer.step b = (.error f, c)) :
    Lost c ∨ CutOff f b c := by
  have hknown : Known b.state := hb.keeps (stays_known _) (by rw [hfirst]; exact .inl reads_start)
  obtain ⟨hs, rfl⟩ := eq_of_step h
  rcases hknown with hreads | ⟨e, hstopped⟩
  · rcases absorb_append hreads b.input.content with ⟨l, hok, -, -⟩ | ⟨e, l, n, herr, -⟩
    · rw [step_of_absorb hok] at hs ⊢
      by_cases he : b.input.ended = true
      · rw [if_pos he] at hs ⊢
        rcases close_cases l with ⟨e, hclose⟩ | ⟨hclose, -⟩
        · rw [hclose] at hs ⊢
          cases hs
          exact .inr (cutOff_of_close hok he hclose)
        · rw [hclose] at hs
          cases hs
      · rw [if_neg he] at hs
        cases hs
    · rw [step_of_absorb_error herr]
      exact .inl (lost_of_stopped (stopped_of_absorb hreads herr))
  · left
    apply lost_of_stopped
    rw [(step_stopped hstopped).1]
    exact hstopped

end SignatureLoader

end BlockSync
