import BlockSync.Proofs.Pipe

/-!
# Stepping again after a fault

A step that fails because a file could not be read is not the last one: when the fault is gone, the
transducer can be stepped again.

* `Retrying`: a transducer that is stepped again after such a step;
* `Outlook.Sturdy`: no step changes what was to be expected, not even one that fails for a fault;
* **`Outlook.Sturdy.sound`**: of what is stepped again the same is to be expected as if nothing had
  failed;
* **`Lingers.le`**, `Schedule.exists_conclusion`: a transducer that has room, and whose input has
  ended, comes to its end.
-/

namespace BlockSync

variable {τ ρ : Type}

/-! ## Faults that are passed over -/

/-- After a fault of the environment there will be another step, as if there had been no room. -/
def forgive : Except Failure Status → Except Failure Status
  | .error (.error (.io _)) => .ok .blocked
  | result => result

theorem forgive_eq {result : Except Failure Status}
    (h : ∀ f, result ≠ .error (.error (.io f))) : forgive result = result := by
  unfold forgive
  split
  · exact absurd rfl (h _)
  · rfl

/-- What is not forgiven is a failure, and no fault of the environment. -/
theorem eq_of_forgive_error {result : Except Failure Status} {c : Failure}
    (h : forgive result = .error c) : result = .error c ∧ ∀ f, c ≠ .error (.io f) := by
  unfold forgive at h
  split at h
  · cases h
  · next hne =>
    refine ⟨h, fun f hc => ?_⟩
    rw [hc] at h
    exact hne f h

/-- A transducer that is stepped again after a fault of the environment. -/
structure Retrying (τ : Type) where
  inner : τ

namespace Retrying

variable [Transducer τ]

instance : Transducer (Retrying τ) where
  step b := (forgive (Transducer.step (b.map inner)).1, (Transducer.step (b.map inner)).2.map mk)

theorem step_eq (b : Bench (Retrying τ)) : Transducer.step b =
    (forgive (Transducer.step (b.map inner)).1, (Transducer.step (b.map inner)).2.map mk) := rfl

end Retrying

/-! ## What is to be expected of it -/

theorem Bench.Served.map {τ' : Type} {s t : Bench τ} {fed taken : Bytes} (h : s.Served t fed taken)
    (f : τ → τ') : (s.map f).Served (t.map f) fed taken :=
  ⟨congrArg f h.state, h.input, h.ended, h.output⟩

namespace Outlook

variable (o : Outlook τ ρ)

/-- What is to be expected of a transducer that is stepped again. -/
def retrying : Outlook (Retrying τ) ρ where
  Fit b := o.Fit (b.map Retrying.inner)
  future t rest := o.future t.inner rest

/-- No step changes what was to be expected, not even one that fails for a fault of the
environment. -/
structure Sturdy [Transducer τ] : Prop where
  served : ∀ {s t : Bench τ} {fed taken : Bytes}, o.Fit s → s.Served t fed taken → o.Fit t
  step : ∀ {s t : Bench τ} {result : Except Failure Status}, o.Fit s →
    Transducer.step s = (result, t) → o.Respects s (forgive result) t

variable {o}

theorem Respects.retrying {s : Bench (Retrying τ)} {result : Except Failure Status} {c : Bench τ}
    (h : o.Respects (s.map Retrying.inner) result c) :
    o.retrying.Respects s result (c.map Retrying.mk) :=
  ⟨h.ended, h.inputCapacity, h.outputCapacity, h.fit, h.kept, h.done, h.error⟩

variable [Transducer τ] {Owes : Bench τ → Prop}

/-- **What is stepped again after faults does what was to be expected without them.** -/
theorem Sturdy.sound (h : o.Sturdy) : o.retrying.Sound where
  served hf hv := h.served hf (hv.map Retrying.inner)
  step {s t result} hf hstep := by
    rw [Retrying.step_eq] at hstep
    cases hstep
    exact (h.step hf rfl).retrying

/-- It fails only with the last of its output, if the transducer does apart from faults. -/
theorem thorough_retrying
    (h : ∀ {s t : Bench τ} {c : Failure}, o.Fit s → Transducer.step s = (.error c, t) →
      (∀ f, c ≠ .error (.io f)) → o.Exhausts s t) : o.retrying.Thorough := by
  intro s t c hf hstep
  rw [Retrying.step_eq] at hstep
  obtain ⟨hc, rfl⟩ := Prod.mk.inj hstep
  obtain ⟨hr, hne⟩ := eq_of_forgive_error hc
  exact h hf (Prod.ext hr rfl) hne

/-- Without faults it waits for what the transducer waits for. -/
theorem Prompt.retrying (h : o.Prompt Owes)
    (hno : ∀ {s : Bench τ}, o.Fit s → ∀ f, (Transducer.step s).1 ≠ .error (.error (.io f))) :
    o.retrying.Prompt fun b => Owes (b.map Retrying.inner) where
  served ho hv := h.served ho (hv.map Retrying.inner)
  owes {s t} hf hstep := by
    rw [Retrying.step_eq, forgive_eq (hno hf)] at hstep
    obtain ⟨hr, rfl⟩ := Prod.mk.inj hstep
    exact h.owes hf (Prod.ext hr rfl)
  pays {s t} hf ho hr hstep := by
    rw [Retrying.step_eq, forgive_eq (hno hf)] at hstep
    obtain ⟨hb, rfl⟩ := Prod.mk.inj hstep
    exact h.pays hf ho hr (Prod.ext hb rfl)

end Outlook

/-! ## Steps that end blocked -/

/-- A number of steps in a row that end blocked, each with room for output. -/
inductive Lingers [Transducer τ] (s : Bench τ) : Nat → Bench τ → Prop
  | start : Lingers s 0 s
  | step {n : Nat} {t u v : Bench τ} {drained : Bytes} :
      Lingers s n t → t.Served u [] drained → 0 < u.output.room →
        Transducer.step u = (.ok .blocked, v) → Lingers s (n + 1) v

/-- **When its input has ended, a transducer that has room comes to its end**: it is blocked no more
often than there are bytes to be put out, and once more. -/
theorem Lingers.le [Transducer τ] {o : Outlook τ ρ} {Owes : Bench τ → Prop} (ho : o.Sound)
    (hp : o.Prompt Owes) {s t : Bench τ} {n : Nat} (hf : o.Fit s) (he : s.input.ended = true)
    (h : Lingers s n t) : n ≤ (o.ahead s []).output.length + 1 := by
  -- on the number of steps: from the second one on, each puts out a byte that was owed
  suffices hall : o.Fit t ∧ t.input.ended = true ∧ (0 < n → Owes t) ∧
      (o.ahead t []).output.length + (n - 1) ≤ (o.ahead s []).output.length by omega
  induction h with
  | start => exact ⟨hf, he, nofun, Nat.le_refl _⟩
  | @step n t u v drained _ hv hr hstep ih =>
    obtain ⟨hft, het, howes, hle⟩ := ih
    have hfu := ho.served hft hv
    have hresp := ho.step hfu hstep
    have heu := (hv.ended het).2
    have hev : v.input.ended = true := hresp.ended.trans heu
    obtain ⟨made, hmade, hahead⟩ := hresp.kept _ rfl
    have hsame : o.ahead u [] = o.ahead t [] := by
      rw [Outlook.ahead, Outlook.ahead, hv.state, hv.input, List.append_nil]
    have hlen := congrArg (List.length ∘ Future.output) (hahead [] fun _ => rfl)
    simp only [Function.comp, hsame, Future.after, List.length_append] at hlen
    refine ⟨hresp.fit _ rfl, hev, fun _ => hp.owes hfu hstep (.inr hev), ?_⟩
    rcases Nat.eq_zero_or_pos n with rfl | hn
    · omega
    · have hpays := hp.pays hfu (hp.served (howes hn) hv) hr hstep
      rw [hmade, List.length_append] at hpays
      omega

/-- **A transducer whose input has ended can be brought to its end.** -/
theorem Schedule.exists_conclusion [Transducer τ] {o : Outlook τ ρ} {Owes : Bench τ → Prop}
    (ho : o.Sound) (hp : o.Prompt Owes) {start : τ} {fed taken : Bytes} {s : Bench τ} (hf : o.Fit s)
    (he : s.input.ended = true) (h : Schedule start fed taken (.ok .blocked) s) :
    ∃ more result t, Schedule start fed (taken ++ more) result t ∧ result ≠ .ok .blocked := by
  refine Classical.byContradiction fun hnone => ?_
  -- else steps with room for one byte would go on for ever
  have hall : ∀ n, ∃ more t, Schedule start fed (taken ++ more) (.ok .blocked) t ∧ Lingers s n t := by
    intro n
    induction n with
    | zero => exact ⟨[], s, by rwa [List.append_nil], .start⟩
    | succ n ih =>
      obtain ⟨more, t, hs, hl⟩ := ih
      let u : Bench τ := ⟨t.state, t.input, .ofCapacity 1⟩
      have hv : t.Served u [] t.output.content :=
        ⟨rfl, (List.append_nil _).symm, fun hended => ⟨rfl, hended⟩, by simp [u]⟩
      have hserved := hs.served hv
      rw [List.append_nil, List.append_assoc] at hserved
      rcases hstep : Transducer.step u with ⟨result, v⟩
      obtain rfl : result = .ok .blocked := Classical.byContradiction fun hne =>
        hnone ⟨_, result, v, hserved.stepped hstep, hne⟩
      exact ⟨_, v, hserved.stepped hstep, hl.step hv Nat.one_pos hstep⟩
  obtain ⟨-, t, -, hl⟩ := hall ((o.ahead s []).output.length + 2)
  have := hl.le ho hp hf he
  omega

end BlockSync
