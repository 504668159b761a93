import BlockSync.Proofs.Delta.Faults

/-!
# Patching again after a fault

A basis may fail at any read. A patcher that is stepped again after such a step ends as if the basis
had never failed.

* `Patcher.Outcome`, `Patcher.Concludes`: what a patch has come to when it has ended;
* `Patcher.concludes_spec`: that is what reading its delta comes to;
* **`Patcher.faults_leave_no_trace`**: a patcher counts and digests what it puts out, reads only within
  its basis, loses nothing when a read fails, and ends as it would without faults.
-/

namespace BlockSync

/-! ## What a delta deserves -/

/-- A delta is refused for one reason. How many bytes are said to trail is left open. -/
theorem Ending.eq_of_refuses {verify : Bool} {actual : Digest} {ending : Ending} {f g : Failure}
    (hf : ending.refuses verify actual f) (hg : ending.refuses verify actual g) :
    f = g ∨ ∃ m n, f = .error (.corruptedDelta (.trailingBytes m)) ∧
      g = .error (.corruptedDelta (.trailingBytes n)) := by
  cases ending with
  | closed checksum trailing =>
    simp only [refuses] at hf hg
    by_cases hd : (verify && checksum != actual) = true
    · rw [if_pos hd] at hf hg
      exact .inl (hf.trans hg.symm)
    · rw [if_neg hd] at hf hg
      obtain ⟨m, -, -, hm⟩ := hf
      obtain ⟨n, -, -, hn⟩ := hg
      exact .inr ⟨m, n, hm, hn⟩
  | compared trailing =>
    obtain ⟨m, -, -, hm⟩ := hf
    obtain ⟨n, -, -, hn⟩ := hg
    exact .inr ⟨m, n, hm, hn⟩
  | refused cause => exact .inl (hf.trans hg.symm)

/-- A delta that is read to its end deserves one result. -/
theorem Reading.eq_of_ends {r : Reading} {verify : Bool} {result result' : Except Failure Status}
    (h : (r.future verify).Ends result) (hne : result ≠ .ok .blocked)
    (h' : (r.future verify).Ends result') (hne' : result' ≠ .ok .blocked) :
    result = result' ∨ ∃ m n, result = .error (.error (.corruptedDelta (.trailingBytes m))) ∧
      result' = .error (.error (.corruptedDelta (.trailingBytes n))) := by
  rcases result with f | _ | _ <;> rcases result' with g | _ | _
  · rcases Ending.eq_of_refuses h h' with rfl | ⟨m, n, rfl, rfl⟩
    · exact .inl rfl
    · exact .inr ⟨m, n, rfl, rfl⟩
  · exact absurd rfl hne'
  · exact absurd h (h' f)
  · exact absurd rfl hne
  · exact absurd rfl hne
  · exact absurd rfl hne
  · exact absurd h' (h g)
  · exact absurd rfl hne'
  · exact .inl rfl

namespace Patcher

variable {β : Type} [Basis β] {Holds : β → Bytes → Prop} {basis : Bytes} {stored : β} {verify : Bool}
  {p : Patcher β}

/-! ## Patchers that are stepped again -/

/-- What is stepped again makes the steps of the patcher. -/
theorem drives_retrying : Drives (Retrying.inner : Retrying (Patcher β) → Patcher β) where
  step _ := rfl
  error _ _ h := (eq_of_forgive_error h).1

theorem thorough_retrying (hb : Basis.Flaky Holds) : (outlook Holds basis).retrying.Thorough :=
  Outlook.thorough_retrying fun hf hs hio => exhausts_of_step hb hf hs hio

/-! ## How a patch ends -/

/-- How a patch has ended. -/
structure Outcome where
  output : Bytes
  /-- How many bytes are said to be written. -/
  written : Nat
  result : Except Failure Status
  /-- How much of the input is left. -/
  left : Nat

/-- Two patches have ended alike. How many bytes are said to trail is how many had arrived. -/
structure Outcome.Agrees (e e' : Outcome) : Prop where
  output : e.output = e'.output
  written : e.written = e'.written
  result : e.result = e'.result ∨
    e.result = .error (.error (.corruptedDelta (.trailingBytes e.left))) ∧
      e'.result = .error (.error (.corruptedDelta (.trailingBytes e'.left)))

/-- A schedule of what steps a patcher has come to its end over a delta: there will be no other step,
and if its input has ended it was fed all of the delta. -/
def Concludes {τ : Type} [Transducer τ] (inner : τ → Patcher β) (first : τ) (delta : Bytes)
    (e : Outcome) : Prop :=
  ∃ fed taken s rest, Schedule first fed taken e.result s ∧ e.result ≠ .ok .blocked ∧
    fed ++ rest = delta ∧ (s.input.ended = true → rest = []) ∧
    e.output = taken ++ s.output.content ∧ e.written = (inner s.state).written ∧
    e.left = s.input.length

theorem length_of_trailing_schedule {τ : Type} [Transducer τ] {inner : τ → Patcher β}
    (hd : Drives inner) {first : τ} {fed taken : Bytes} {s : Bench τ} {n : Nat}
    (h : Schedule first fed taken (.error (.error (.corruptedDelta (.trailingBytes n)))) s) :
    n = s.input.length := by
  cases h with
  | @stepped _ _ _ _ t _ _ hstep =>
    have hr := hd.error t _ (by rw [hstep])
    have hs := hd.step t
    rw [hstep] at hs
    exact length_of_trailing (c := s.map inner) (Prod.ext hr hs.symm)

/-- **When a patch has ended, it has put out and counted all that its delta makes, and has ended as
the delta deserves.** -/
theorem concludes_spec {τ : Type} [Transducer τ] {inner : τ → Patcher β} (hd : Drives inner)
    {o : Outlook τ Nat} (ho : o.Sound) (hth : o.Thorough) {first : τ} (ht : o.Tells first)
    {delta : Bytes} {r : Reading} (hfuture : o.future first delta = r.future verify)
    (hw : (inner first).written = 0) {e : Outcome} (h : Concludes inner first delta e) :
    e.output = r.output ∧ e.written = r.output.length ∧ (r.future verify).Ends e.result ∧
      ∀ n, e.result = .error (.error (.corruptedDelta (.trailingBytes n))) → n = e.left := by
  obtain ⟨fed, taken, s, rest, hs, hne, rfl, hrest, hout, hwritten, hleft⟩ := h
  obtain ⟨houtput, hends⟩ := hs.conclusion ho ht hth hne rest hrest
  rw [hfuture] at houtput hends
  rw [hout, hwritten, hleft, (accounts_of_reach (reach_of_schedule hd hs)).2, hw, Nat.zero_add,
    houtput]
  refine ⟨rfl, rfl, hends, fun n hn => ?_⟩
  rw [hn] at hs
  exact length_of_trailing_schedule hd hs

/-- A patch from a basis that does not fail comes to an end. -/
theorem exists_concludes (hb : Basis.Shows stored basis) (h : start stored verify = .ok p)
    (delta : Bytes) : ∃ e, Concludes id p delta e := by
  obtain ⟨Holds, hfaithful, hh⟩ := hb
  obtain ⟨htells, -⟩ := tells_of_start hfaithful.flaky hh h
  let input := ((Queue.ofCapacity delta.length).append delta).finish
  have hinput : input.content = delta := by
    change ((Queue.ofCapacity delta.length).append delta).content = delta
    rw [Queue.content_append, Queue.content_ofCapacity, List.nil_append,
      Queue.room_of_empty _ (Queue.content_ofCapacity _), Queue.capacity_ofCapacity, List.take_length]
  have hempty : Schedule p [] [] (.ok .blocked) ⟨p, .ofCapacity 0, .ofCapacity 0⟩ :=
    .start (Queue.content_ofCapacity 0) (Queue.content_ofCapacity 0)
  have hserved : Bench.Served ⟨p, .ofCapacity 0, .ofCapacity 0⟩ ⟨p, input, .ofCapacity 0⟩ delta [] :=
    ⟨rfl, by rw [hinput, Queue.content_ofCapacity, List.nil_append], nofun, rfl⟩
  have hfed := hempty.served hserved
  have hfit := Schedule.fit (sound hfaithful) htells hfed
  obtain ⟨more, result, t, hs, hne⟩ :=
    Schedule.exists_conclusion (sound hfaithful) prompt hfit rfl hfed
  exact ⟨⟨_, _, result, _⟩, _, _, t, [], hs, hne, List.append_nil _, fun _ => rfl, rfl, rfl, rfl⟩

/-- Patches of the same delta that come to an end have ended alike. -/
theorem agrees_of_concludes {τ τ' γ : Type} [Transducer τ] [Transducer τ'] [Basis γ]
    {inner : τ → Patcher β} {inner' : τ' → Patcher γ} (hd : Drives inner) (hd' : Drives inner')
    {o : Outlook τ Nat} {o' : Outlook τ' Nat} (ho : o.Sound) (ho' : o'.Sound) (hth : o.Thorough)
    (hth' : o'.Thorough) {first : τ} {first' : τ'} (ht : o.Tells first) (ht' : o'.Tells first')
    {delta : Bytes} {r : Reading} (hf : o.future first delta = r.future verify)
    (hf' : o'.future first' delta = r.future verify) (hw : (inner first).written = 0)
    (hw' : (inner' first').written = 0) {e e' : Outcome} (h : Concludes inner first delta e)
    (h' : Concludes inner' first' delta e') : e.Agrees e' := by
  obtain ⟨hout, hwritten, hends, htrailing⟩ := concludes_spec hd ho hth ht hf hw h
  obtain ⟨hout', hwritten', hends', htrailing'⟩ := concludes_spec hd' ho' hth' ht' hf' hw' h'
  obtain ⟨-, -, -, -, -, hne, -⟩ := h
  obtain ⟨-, -, -, -, -, hne', -⟩ := h'
  refine ⟨hout.trans hout'.symm, hwritten.trans hwritten'.symm, ?_⟩
  rcases Reading.eq_of_ends hends hne hends' hne' with heq | ⟨m, n, hm, hn⟩
  · exact .inl heq
  · obtain rfl := htrailing m hm
    obtain rfl := htrailing' n hn
    exact .inr ⟨hm, hn⟩

/-! ## Once the basis works -/

/-- A patcher that does not meet faults waits only for input or for room, also if it is stepped again
after faults. -/
theorem prompt_retrying (hb : Basis.Faithful Holds) :
    (outlook Holds basis).retrying.Prompt fun b => Owes (b.map Retrying.inner) :=
  prompt.retrying fun hf f => no_fault hb hf f

section

variable (hb : Basis.Flaky Holds) (hh : Holds stored basis) (hstart : start stored verify = .ok p)
  {fed taken : Bytes} {s t : Bench (Retrying (Patcher β))}
  (h : Schedule ⟨p⟩ fed taken (.ok .blocked) s) (hworks : Basis.Shows s.state.inner.basis basis)

include hb hh hstart h hworks in
/-- A patcher whose basis has come to work goes on like one whose basis has always worked. -/
theorem exists_works : ∃ Holds', Basis.Faithful Holds' ∧ Works Holds' basis s.state.inner := by
  obtain ⟨htells, -⟩ := tells_of_start hb hh hstart
  have hfit : Works Holds basis s.state.inner := Schedule.fit (sturdy hb).sound htells h
  obtain ⟨Holds', hfaithful, hholds⟩ := hworks
  exact ⟨Holds', hfaithful, hholds, hfit.basisSize, hfit.stage⟩

include hb hh hstart h hworks in
/-- It comes to its end. -/
theorem exists_resumption (he : s.input.ended = true) : ∃ more result t,
    Schedule (Retrying.mk p) fed (taken ++ more) result t ∧ result ≠ .ok .blocked := by
  obtain ⟨Holds', hfaithful, hfit⟩ := exists_works hb hh hstart h hworks
  exact Schedule.exists_conclusion (o := (outlook Holds' basis).retrying)
    (sturdy hfaithful.flaky).sound (prompt_retrying hfaithful) hfit he h

include hb hh hstart h hworks in
/-- It is blocked only for lack of room, and each time that there is room it puts out a byte that was
still to come. -/
theorem lingers_le (he : s.input.ended = true) {n : Nat} (hl : Lingers s n t) :
    taken.length + s.output.content.length + n ≤ (readDelta basis fed).output.length + 1 := by
  obtain ⟨htells, hfuture⟩ := tells_of_start hb hh hstart
  have hahead := Schedule.future_eq (sturdy hb).sound htells h [] fun _ => rfl
  rw [List.append_nil] at hahead
  have hlength := congrArg (List.length ∘ Future.output) ((hfuture fed).symm.trans hahead)
  simp only [Function.comp, Reading.future, Future.after, List.length_append] at hlength
  obtain ⟨Holds', hfaithful, hfit⟩ := exists_works hb hh hstart h hworks
  have hle := hl.le (o := (outlook Holds' basis).retrying) (sturdy hfaithful.flaky).sound
    (prompt_retrying hfaithful) hfit he
  change n ≤ ((outlook Holds basis).retrying.ahead s []).output.length + 1 at hle
  omega

end

/-! ## Faults leave no trace -/

/-- **Faults of its basis leave no trace in what a patcher does.** In every state that it can be in,
whatever was before it in each step, and also after steps that failed, a patcher has counted and
digested what it has put out, and nothing else; keeping account of what it reads shows no part that
does not lie within its basis; and a step that fails for its basis leaves behind what the moves before
the failing read have done, with the basis read and nothing else changed. If it is stepped again
whenever its basis has failed, it ends with the output, the count and the result that it would have
had without faults, and it does end once its basis works. -/
theorem faults_leave_no_trace (hstart : start stored verify = .ok p) :
    (∀ committed q, Reach p committed q →
      q.written = committed.length ∧ q.hasher = Blake3.Hasher.empty.update committed ∧
        ∃ r, Reach p.recorded committed r ∧ r.rebase Recorder.basis = q) ∧
    (∀ committed r, Reach p.recorded committed r →
      ∀ request ∈ r.basis.requests, request.offset + request.count ≤ p.basisSize) ∧
    (∀ b f c, Transducer.step b = (.error (.error (.io f)), c) →
      ∃ d : Bench (Patcher β), MovesTo b d ∧ ReadFails f d c) ∧
    ∀ (Holds : β → Bytes → Prop) (basis : Bytes), Basis.Flaky Holds → Holds stored basis →
      (∀ delta e, Concludes Retrying.inner (Retrying.mk p) delta e →
        ∀ (γ : Type) [Basis γ] (stored₀ : γ) (p₀ : Patcher γ), Basis.Shows stored₀ basis →
          start stored₀ verify = .ok p₀ →
            (∃ e₀, Concludes id p₀ delta e₀) ∧
              ∀ e₀, Concludes id p₀ delta e₀ → e.Agrees e₀) ∧
      ∀ fed taken s, Schedule (Retrying.mk p) fed taken (.ok .blocked) s → s.input.ended = true →
        Basis.Shows s.state.inner.basis basis →
          (∃ more result t, Schedule (Retrying.mk p) fed (taken ++ more) result t ∧
            result ≠ .ok .blocked) ∧
          ∀ n t, Lingers s n t →
            taken.length + s.output.content.length + n ≤ (readDelta basis fed).output.length + 1 := by
  obtain ⟨size, -, hp⟩ := start_eq hstart
  refine ⟨fun committed q hq => ?_, fun committed r hr => ?_, fun b f c h => readFails_of_step h,
    fun Holds basis hb hh => ⟨fun delta e he γ _ stored₀ p₀ hshows hstart₀ => ?_,
      fun fed taken s h hended hworks =>
        ⟨exists_resumption hb hh hstart h hworks hended,
          fun n t hl => lingers_le hb hh hstart h hworks hended hl⟩⟩⟩
  · obtain ⟨hhasher, hwritten⟩ := accounts_of_reach hq
    rw [hp] at hhasher hwritten
    exact ⟨by rw [hwritten, Nat.zero_add], hhasher, reach_iff_recorded.mp hq⟩
  · exact requests_within (by rw [hp]) hr
  · refine ⟨exists_concludes hshows hstart₀ delta, fun e₀ he₀ => ?_⟩
    obtain ⟨Holds₀, hfaithful, hh₀⟩ := hshows
    obtain ⟨htells, hfuture⟩ := tells_of_start hb hh hstart
    obtain ⟨htells₀, hfuture₀⟩ := tells_of_start hfaithful.flaky hh₀ hstart₀
    obtain ⟨_, -, hp₀⟩ := start_eq hstart₀
    exact agrees_of_concludes drives_retrying .id (sturdy hb).sound (sound hfaithful)
      (thorough_retrying hb) (thorough hfaithful) htells htells₀ (hfuture delta) (hfuture₀ delta)
      (congrArg written hp) (congrArg written hp₀) he he₀

/-- The first read of a copy of two bytes fails. When the patcher is stepped again it ends as a patch
from a stored basis does. -/
theorem faults_leave_no_trace_copy :
    let delta := deltaMark ++ (Instruction.copy 0 2).encode ++ (Instruction.close .zero).encode
    let p : Patcher Reluctant := ⟨⟨#[7, 8], 1⟩, 2, false, .mark, .empty, .empty, 0⟩
    let p₀ : Patcher StoredBasis := ⟨⟨#[7, 8]⟩, 2, false, .mark, .empty, .empty, 0⟩
    let b : Bench (Patcher Reluctant) :=
      ⟨p, ((Queue.ofCapacity 64).append delta).finish, .ofCapacity 1⟩
    let c := (Transducer.step b).2
    start (⟨#[7, 8], 1⟩ : Reluctant) false = .ok p ∧
      (Transducer.step b).1 = .error (.error (.io ⟨.timedOut, ""⟩)) ∧
      c.state.stage = .copying 0 2 ∧ c.state.written = 0 ∧
      (∃ d, MovesTo b d ∧ ReadFails ⟨.timedOut, ""⟩ d c) ∧
      ∃ e e₀, Concludes Retrying.inner (Retrying.mk p) delta e ∧ e.output = [7, 8] ∧
        Concludes id p₀ delta e₀ ∧ e.Agrees e₀ := by
  intro delta p p₀ b c
  have hstart : start (⟨#[7, 8], 1⟩ : Reluctant) false = .ok p := rfl
  have hstart₀ : start (⟨#[7, 8]⟩ : StoredBasis) false = .ok p₀ := rfl
  have hfault : (Transducer.step b).1 = .error (.error (.io ⟨.timedOut, ""⟩)) := by decide +kernel
  have hstep : Transducer.step b = (.error (.error (.io ⟨.timedOut, ""⟩)), c) := Prod.ext hfault rfl
  have hinput : b.input.content = delta := by decide +kernel
  obtain ⟨haccounts, -, hfails, hagrees⟩ := faults_leave_no_trace hstart
  obtain ⟨hagrees, hresumes⟩ := hagrees _ [7, 8] Reluctant.flaky rfl
  have hreach : Reach p ([] ++ []) c.state := Reach.start.step hstep (by decide +kernel)
  -- after the step that failed, the basis works
  have hempty : Schedule (Retrying.mk p) [] [] (.ok .blocked) ⟨⟨p⟩, .ofCapacity 0, .ofCapacity 1⟩ :=
    .start (Queue.content_ofCapacity 0) (Queue.content_ofCapacity 1)
  have hserved : Bench.Served ⟨⟨p⟩, .ofCapacity 0, .ofCapacity 1⟩ (b.map Retrying.mk) delta [] :=
    ⟨rfl, by rw [Queue.content_ofCapacity]; exact hinput, nofun, rfl⟩
  have hretried : Transducer.step (b.map Retrying.mk) = (.ok .blocked, c.map Retrying.mk) :=
    Prod.ext (congrArg forgive hfault) rfl
  have hbasis : c.state.basis = ⟨#[7, 8], 0⟩ := by decide +kernel
  obtain ⟨⟨more, result, t, hs, hne⟩, -⟩ := hresumes _ _ _ ((hempty.served hserved).stepped hretried)
    (by decide +kernel) (by rw [show (c.map Retrying.mk).state.inner.basis = _ from hbasis]
                            exact Reluctant.shows #[7, 8])
  let e : Outcome := ⟨more ++ t.output.content, t.state.inner.written, result, t.input.length⟩
  have he : Concludes Retrying.inner (Retrying.mk p) delta e :=
    ⟨_, _, t, [], hs, hne, List.append_nil _, fun _ => rfl, rfl, rfl, rfl⟩
  obtain ⟨htells, hfuture⟩ := tells_of_start Reluctant.flaky rfl hstart
  obtain ⟨hout, -⟩ := concludes_spec drives_retrying (sturdy Reluctant.flaky).sound
    (thorough_retrying Reluctant.flaky) htells (hfuture delta) rfl he
  have hread : (readDelta [7, 8] delta).output = [7, 8] := by decide +kernel
  obtain ⟨⟨e₀, he₀⟩, hall⟩ :=
    hagrees delta e he StoredBasis ⟨#[7, 8]⟩ p₀ (StoredBasis.shows [7, 8]) hstart₀
  exact ⟨hstart, hfault, by decide +kernel, (haccounts _ _ hreach).1, hfails b _ c hstep, e, e₀, he,
    hout.trans hread, he₀, hall e₀ he₀⟩

end Patcher

end BlockSync
