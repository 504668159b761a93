import BlockSync.Proofs.Signature.Loading

/-!
# Which signature streams are accepted

* `SignatureLoader.Accepted`, `SignatureLoader.Refused`: how a byte string that is taken for a signature
  stream can end;
* **`SignatureLoader.loads_exactly`**: a loader accepts the signature streams and nothing else, however
  they arrive, what it gives is written as the stream that it has read, and every canonical signature
  is read from what it is written as.
-/

namespace BlockSync

namespace SignatureLoader

open Signature

variable {bs fed taken : Bytes} {status : Status} {result : Except Failure Status}
  {b c : Bench SignatureLoader} {f : Failure}

/-- The byte string is a signature stream, and the signature with a block for each of its records has been
read, which is written as the same byte string. -/
def Accepted (bs : Bytes) (l : SignatureLoader) : Prop :=
  ∃ s records, IsStream s.params records bs ∧ l.result = .ok s ∧ s.Canonical ∧
    s.blocks.toList.map (·.record s.params.strongLength) = records ∧ s.encode = bs

/-- The byte string is not a signature stream, and the failure tells what is wrong with it. -/
def Refused (bs : Bytes) (f : Failure) : Prop :=
  (¬ ∃ p records, IsStream p records bs) ∧ f = .error (refusal bs)

/-! ## How reading ends -/

theorem conclude_of_done (h : Schedule start fed taken (.ok .done) b) :
    start.conclude fed = b.state.result :=
  (congrArg Future.result (Schedule.future_of_done sound tells_start h)).trans (result_of_schedule h)

/-- A loader that is done has not refused its stream. -/
theorem conclude_ne_error (h : Schedule start fed taken (.ok .done) b) (e : TransferError) :
    start.conclude fed ≠ .error e := by
  intro he
  obtain ⟨-, -, hnone⟩ := Schedule.settled_of_done sound tells_start h
  have hresult : b.state.conclude (b.input.content ++ []) = start.conclude fed :=
    (result_of_schedule h).trans (conclude_of_done h).symm
  exact hnone (.error e) ⟨e, hresult.trans he, rfl⟩

theorem accepted_of_done (h : Schedule start fed taken (.ok .done) b) : Accepted fed b.state := by
  rcases conclude_cases fed with ⟨p, records, hstream⟩ | herror
  · refine ⟨ofRecords p records, records, hstream, ?_, canonical_ofRecords hstream,
      map_record_ofRecords hstream.valid hstream.length_record, encode_ofRecords hstream⟩
    rw [← conclude_of_done h, conclude_of_isStream hstream]
  · exact absurd herror (conclude_ne_error h _)

/-- Whatever is to follow, a failure is what there is to say about the whole. -/
theorem refused_of_error (h : Schedule start fed taken (.error f) b) (rest : Bytes)
    (hr : b.input.ended = true → rest = []) : Refused (fed ++ rest) f := by
  obtain ⟨-, e, he, rfl⟩ := Schedule.refused_of_error sound tells_start h rest hr
  change start.conclude (fed ++ rest) = .error e at he
  constructor
  · rintro ⟨p, records, hstream⟩
    rw [conclude_of_isStream hstream] at he
    cases he
  · rcases conclude_cases (fed ++ rest) with ⟨p, records, hstream⟩ | herror
    · rw [conclude_of_isStream hstream] at he
      cases he
    · rw [herror] at he
      rw [Except.error.inj he]

/-- When the whole stream has arrived one step decides. -/
theorem decided_of_ended (h : Schedule start fed taken (.ok status) b) (he : b.input.ended = true)
    (hstep : Transducer.step b = (result, c)) : result = .ok .done ∨ ∃ f, result = .error f := by
  have hreads : Reads b.state := Schedule.fit sound tells_start h
  obtain ⟨rfl, -⟩ := eq_of_step hstep
  rcases step_cases hreads with ⟨e, herror⟩ | ⟨-, -, ⟨-, hd, -⟩ | ⟨hopen, -⟩⟩
  · right
    rw [herror]
    exact ⟨.error e, rfl⟩
  · left
    rw [hd]
    rfl
  · rw [he] at hopen
    cases hopen

/-- **A loader accepts exactly the signature streams**, however they arrive. When it is done it has read a
stream and gives the signature with a block for each record, and when it fails that is what is to be
said of the whole byte string, whatever part of it has arrived; one of both happens in the first step
after all has arrived. Every signature that is canonical is read from what it is written as. -/
theorem loads_exactly (h : Schedule start fed taken result b) :
    (result = .ok .done → Accepted fed b.state) ∧
    (∀ f, result = .error f → ∀ rest, (b.input.ended = true → rest = []) → Refused (fed ++ rest) f) ∧
    (∀ status, result = .ok status → b.input.ended = true →
      ∀ {next c}, Transducer.step b = (next, c) →
        (next = .ok .done ∧ Accepted fed c.state) ∨ ∃ f, next = .error f ∧ Refused fed f) ∧
    ∀ s : Signature, s.Canonical → (∃ records, IsStream s.params records s.encode) ∧
      (fed = s.encode → result = .ok .done → b.state.result = .ok s) := by
  refine ⟨?_, ?_, ?_, ?_⟩
  · rintro rfl
    exact accepted_of_done h
  · rintro f rfl
    exact refused_of_error h
  · rintro status rfl he next c hstep
    rcases decided_of_ended h he hstep with rfl | ⟨f, rfl⟩
    · exact .inl ⟨rfl, accepted_of_done (h.stepped hstep)⟩
    · have hrefused := refused_of_error (h.stepped hstep) [] fun _ => rfl
      rw [List.append_nil] at hrefused
      exact .inr ⟨f, rfl, hrefused⟩
  · intro s hs
    refine ⟨⟨_, isStream_encode hs⟩, ?_⟩
    rintro rfl rfl
    rw [← conclude_of_done h, conclude_of_canonical hs]

/-- A stream of one record, cut behind its third byte. -/
theorem loads_exactly_cut :
    let front : Bytes := [0x44, 0x53, 0x49]
    let back : Bytes := [0x47, 0, 0, 0, 64, 0, 0, 0, 4, 1, 2, 3, 4, 5, 6, 7, 8]
    ∃ b s, Schedule start (front ++ back) [] (.ok .done) b ∧ b.state.result = .ok s ∧
      s.params = ⟨64, 4⟩ ∧ s.blocks.size = 1 ∧ s.encode = front ++ back := by
  intro front back
  have hstream : IsStream ⟨64, 4⟩ [[1, 2, 3, 4, 5, 6, 7, 8]] (front ++ back) :=
    ⟨(Params.check_iff _).mp rfl, by decide, by decide⟩
  let first : Bench SignatureLoader := ⟨start, (Queue.ofCapacity 3).append front, .ofCapacity 0⟩
  let second : Bench SignatureLoader := ⟨⟨front, none, false⟩, ((Queue.ofCapacity 20).append back).finish,
    .ofCapacity 0⟩
  have hfirst : Schedule start front [] (.ok .blocked) first :=
    .served (.start (Queue.content_ofCapacity 0) (Queue.content_ofCapacity 0)) ⟨rfl, rfl, nofun, rfl⟩
  have habsorb : first.state.absorb first.input.content = (.ok (), second.state, 0) :=
    absorb_of_short (by decide)
  have hstep : Transducer.step first =
      (.ok .blocked, ⟨second.state, first.input.drop first.input.length, .ofCapacity 0⟩) := by
    rw [transducer_step, step_of_absorb habsorb]
    rfl
  have hsecond : Schedule start (front ++ back) [] (.ok .blocked) second :=
    .served (hfirst.stepped hstep) ⟨rfl, by decide, nofun, rfl⟩
  rcases hlast : Transducer.step second with ⟨next, b⟩
  rcases (loads_exactly hsecond).2.2.1 .blocked rfl rfl hlast with ⟨rfl, -⟩ | ⟨f, -, hno, -⟩
  · have hdone := hsecond.stepped hlast
    have hresult := ((loads_exactly hdone).2.2.2 _ (canonical_ofRecords hstream)).2
      (encode_ofRecords hstream).symm rfl
    exact ⟨b, _, hdone, hresult, rfl, rfl, encode_ofRecords hstream⟩
  · exact absurd ⟨_, _, hstream⟩ hno

end SignatureLoader

end BlockSync
