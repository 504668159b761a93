import BlockSync.Transducer

/-!
# Schedules

A transducer does not know when it is stepped, how much has arrived since the last step, or how much
of its output was taken away. A schedule is one way in which all this happens.

* `Bench.Served`: what the surroundings of a transducer do between two steps;
* `Schedule`: steps, and what the surroundings do between them, in any order;
* `Future`, `Outlook`: what will become of a transducer, told from its state and the bytes that are
  still to be taken;
* `Outlook.Sound`: no step changes what was to be expected;
* `Outlook.Thorough`: a transducer fails only with the last of its output;
* **`Schedule.future_eq`**: after any schedule the output so far and the outlook of the state that is
  reached are together the outlook at the start;
* `Schedule.future_of_done`, `Schedule.refused_of_error`: what that says at the end;
* **`Schedule.conclusion`**: when a schedule has come to its end, all that was to be expected has been
  put out, and it has ended as was to be expected.
-/

namespace BlockSync

variable {τ ρ : Type}

/-- A bench with another transducer. -/
def Bench.map {τ' : Type} (f : τ → τ') (b : Bench τ) : Bench τ' := ⟨f b.state, b.input, b.output⟩

/-! ## Steps in any order -/

/-- Between two steps bytes arrive at the back of the input, unless the stream has ended, and output
is taken from the front. The storage of the queues does not matter. -/
structure Bench.Served (s t : Bench τ) (fed taken : Bytes) : Prop where
  state : t.state = s.state
  input : t.input.content = s.input.content ++ fed
  ended : s.input.ended = true → fed = [] ∧ t.input.ended = true
  output : s.output.content = taken ++ t.output.content

/-- What is fed to a transducer and taken from it in some order of steps, how the last step ended, and
what is left on the bench. A step that fails is the last one. -/
inductive Schedule [Transducer τ] (start : τ) :
    Bytes → Bytes → Except Failure Status → Bench τ → Prop
  | start {input output : Queue} (hi : input.content = []) (ho : output.content = []) :
    Schedule start [] [] (.ok .blocked) ⟨start, input, output⟩
  | served {fed taken more drained : Bytes} {status : Status} {s t : Bench τ} :
    Schedule start fed taken (.ok status) s → s.Served t more drained →
      Schedule start (fed ++ more) (taken ++ drained) (.ok status) t
  | stepped {fed taken : Bytes} {status : Status} {result : Except Failure Status} {s t : Bench τ} :
    Schedule start fed taken (.ok status) s → Transducer.step s = (result, t) →
      Schedule start fed taken result t

/-! ## Outlooks -/

/-- What will become of a transducer. -/
structure Future (ρ : Type) where
  /-- All output that is still to come. -/
  output : Bytes
  /-- The failures that it may end with; if there are none it will be done. -/
  refused : Failure → Prop
  /-- What is known in the end. -/
  result : ρ

namespace Future

/-- What was to come before some output. -/
def after (f : Future ρ) (bs : Bytes) : Future ρ := { f with output := bs ++ f.output }

@[simp] theorem after_nil (f : Future ρ) : f.after [] = f := rfl

theorem after_after (f : Future ρ) (bs cs : Bytes) : (f.after cs).after bs = f.after (bs ++ cs) := by
  simp [after]

/-- Nothing is to come and nothing is wrong. -/
def Settled (f : Future ρ) : Prop := f.output = [] ∧ ∀ c, ¬ f.refused c

/-- The last step was to be expected to end so. -/
def Ends (f : Future ρ) : Except Failure Status → Prop
  | .ok _ => ∀ c, ¬ f.refused c
  | .error c => f.refused c

end Future

/-- A way to tell the future of a transducer from its state and all bytes that it will still take. -/
structure Outlook (τ ρ : Type) where
  /-- The benches of which it tells the future. -/
  Fit : Bench τ → Prop
  future : τ → Bytes → Future ρ

namespace Outlook

variable (o : Outlook τ ρ)

/-- The future of a bench whose input is still to be followed by `rest`. -/
def ahead (s : Bench τ) (rest : Bytes) : Future ρ := o.future s.state (s.input.content ++ rest)

/-- The future of a transducer is told before anything has arrived. -/
def Tells (start : τ) : Prop :=
  ∀ input output : Queue, input.content = [] → o.Fit ⟨start, input, output⟩

/-- Between two benches some output was made, and nothing else has changed of what is to be
expected. -/
def Keeps (s t : Bench τ) : Prop :=
  ∃ made, t.output.content = s.output.content ++ made ∧
    ∀ rest, (s.input.ended = true → rest = []) → o.ahead s rest = (o.ahead t rest).after made

/-- Between two benches some of the output to be expected was made, and a failure to be expected
was met. -/
def Breaks (s t : Bench τ) (c : Failure) : Prop :=
  ∃ made, t.output.content = s.output.content ++ made ∧
    ∀ rest, (s.input.ended = true → rest = []) →
      made <+: (o.ahead s rest).output ∧ (o.ahead s rest).refused c

theorem Keeps.refl (s : Bench τ) : o.Keeps s s := ⟨[], by simp, fun _ _ => rfl⟩

variable {o}

theorem Keeps.trans {s t u : Bench τ} (h : o.Keeps s t) (he : t.input.ended = s.input.ended)
    (h' : o.Keeps t u) : o.Keeps s u := by
  obtain ⟨made, ho, hf⟩ := h
  obtain ⟨more, ho', hf'⟩ := h'
  refine ⟨made ++ more, by rw [ho', ho, List.append_assoc], fun rest hr => ?_⟩
  rw [hf rest hr, hf' rest (by rwa [he]), Future.after_after]

theorem Keeps.breaks {s t u : Bench τ} {c : Failure} (h : o.Keeps s t)
    (he : t.input.ended = s.input.ended) (h' : o.Breaks t u c) : o.Breaks s u c := by
  obtain ⟨made, ho, hf⟩ := h
  obtain ⟨more, ho', hf'⟩ := h'
  refine ⟨made ++ more, by rw [ho', ho, List.append_assoc], fun rest hr => ?_⟩
  obtain ⟨hp, hc⟩ := hf' rest (by rwa [he])
  rw [hf rest hr]
  exact ⟨(List.prefix_append_right_inj made).mpr hp, hc⟩

variable (o)

/-- A step respects what was to be expected. -/
structure Respects (s : Bench τ) (result : Except Failure Status) (t : Bench τ) : Prop where
  ended : t.input.ended = s.input.ended
  inputCapacity : t.input.capacity = s.input.capacity
  outputCapacity : t.output.capacity = s.output.capacity
  fit : ∀ status, result = .ok status → o.Fit t
  kept : ∀ status, result = .ok status → o.Keeps s t
  /-- A transducer is done when its input has ended and nothing is to come. -/
  done : result = .ok .done → t.input.ended = true ∧ (o.ahead t []).Settled
  error : ∀ c, result = .error c → o.Breaks s t c

variable {o}

theorem Respects.of_ok {s t : Bench τ} {status : Status} (hf : o.Fit t) (hk : o.Keeps s t)
    (he : t.input.ended = s.input.ended) (hi : t.input.capacity = s.input.capacity)
    (ho : t.output.capacity = s.output.capacity)
    (hd : status = .done → t.input.ended = true ∧ (o.ahead t []).Settled) :
    o.Respects s (.ok status) t where
  ended := he
  inputCapacity := hi
  outputCapacity := ho
  fit _ _ := hf
  kept _ _ := hk
  done h := hd (Except.ok.inj h)
  error _ h := nomatch h

theorem Respects.of_error {s t : Bench τ} {c : Failure} (hb : o.Breaks s t c)
    (he : t.input.ended = s.input.ended) (hi : t.input.capacity = s.input.capacity)
    (ho : t.output.capacity = s.output.capacity) : o.Respects s (.error c) t where
  ended := he
  inputCapacity := hi
  outputCapacity := ho
  fit _ h := nomatch h
  kept _ h := nomatch h
  done h := nomatch h
  error _ h := Except.error.inj h ▸ hb

variable (o)

/-- No step changes what was to be expected. -/
structure Sound [Transducer τ] : Prop where
  served : ∀ {s t : Bench τ} {fed taken : Bytes}, o.Fit s → s.Served t fed taken → o.Fit t
  step : ∀ {s t : Bench τ} {result : Except Failure Status}, o.Fit s →
    Transducer.step s = (result, t) → o.Respects s result t

/-! ## Failures after all output -/

/-- Between two benches all of the output to be expected was made. -/
def Exhausts (s t : Bench τ) : Prop :=
  ∀ rest, (s.input.ended = true → rest = []) →
    t.output.content = s.output.content ++ (o.ahead s rest).output

/-- A transducer fails only with the last of its output. -/
def Thorough [Transducer τ] : Prop :=
  ∀ {s t : Bench τ} {c : Failure}, o.Fit s → Transducer.step s = (.error c, t) → o.Exhausts s t

variable {o}

theorem Keeps.exhausts {s t u : Bench τ} (h : o.Keeps s t) (he : t.input.ended = s.input.ended)
    (h' : o.Exhausts t u) : o.Exhausts s u := by
  intro rest hr
  obtain ⟨made, ho, hf⟩ := h
  rw [h' rest (by rwa [he]), ho, hf rest hr, List.append_assoc]
  rfl

/-- A failure is met where nothing is to come. -/
theorem Breaks.exhausts {s t : Bench τ} {c : Failure} (h : o.Breaks s t c)
    (hnil : ∀ rest, (s.input.ended = true → rest = []) → (o.ahead s rest).output = []) :
    o.Exhausts s t := by
  intro rest hr
  obtain ⟨made, ho, hb⟩ := h
  have hprefix := (hb rest hr).1
  rw [hnil rest hr, List.prefix_nil] at hprefix
  rw [ho, hprefix, hnil rest hr]

/-- A transducer that never fails is thorough. -/
theorem Sound.thorough [Transducer τ] (ho : o.Sound) (hn : ∀ t rest c, ¬ (o.future t rest).refused c) :
    o.Thorough := by
  intro s t c hf hstep
  obtain ⟨made, -, hb⟩ := (ho.step hf hstep).error c rfl
  exact absurd (hb [] fun _ => rfl).2 (hn _ _ _)

end Outlook

/-! ## What a schedule leads to -/

namespace Schedule

variable [Transducer τ] {o : Outlook τ ρ} {start : τ} {fed taken : Bytes}
  {status : Status} {s : Bench τ}

/-- The benches that a schedule leads to are among those of which an outlook tells the future. -/
theorem fit (ho : o.Sound) (hs : o.Tells start) (h : Schedule start fed taken (.ok status) s) :
    o.Fit s := by
  generalize hr : Except.ok status = result at h
  induction h generalizing status with
  | start hi => exact hs _ _ hi
  | served _ hv ih => exact ho.served (ih rfl) hv
  | stepped _ ht ih => exact (ho.step (ih rfl) ht).fit _ hr.symm

/-- **Whatever the schedule, the output so far and what is ahead are together what was ahead at the
start.** -/
theorem future_eq (ho : o.Sound) (hs : o.Tells start)
    (h : Schedule start fed taken (.ok status) s) (rest : Bytes) (hr : s.input.ended = true → rest = []) :
    o.future start (fed ++ rest) = (o.ahead s rest).after (taken ++ s.output.content) := by
  generalize hq : Except.ok status = result at h
  induction h generalizing status rest with
  | start hi hout => simp [Outlook.ahead, hi, hout]
  | @served fed taken more drained status' s t h hv ih =>
    have hm : s.input.ended = true → more ++ rest = [] := fun he => by
      rw [(hv.ended he).1, hr (hv.ended he).2]; rfl
    rw [List.append_assoc, ih (more ++ rest) hm rfl, Outlook.ahead, Outlook.ahead, hv.state,
      hv.input, hv.output, List.append_assoc, List.append_assoc]
  | @stepped fed taken status' result s t h ht ih =>
    have hstep := ho.step (fit ho hs h) ht
    obtain ⟨made, hout, hk⟩ := hstep.kept _ hq.symm
    have hr' : s.input.ended = true → rest = [] := by rwa [← hstep.ended]
    rw [ih rest hr' rfl, hk rest hr', Future.after_after, hout, List.append_assoc]

/-- A schedule that ends with a transducer that is done. -/
theorem settled_of_done (ho : o.Sound) (hs : o.Tells start)
    (h : Schedule start fed taken (.ok .done) s) :
    s.input.ended = true ∧ (o.ahead s []).Settled := by
  generalize hq : Except.ok Status.done = result at h
  induction h with
  | start => cases hq
  | served h hv ih =>
    obtain ⟨he, hd⟩ := ih hq
    obtain ⟨rfl, he'⟩ := hv.ended he
    refine ⟨he', ?_⟩
    rwa [Outlook.ahead, hv.state, hv.input, List.append_nil]
  | stepped h ht => exact (ho.step (fit ho hs h) ht).done hq.symm

/-- **A transducer that is done has put out what was to be expected of all that it was fed.** -/
theorem future_of_done (ho : o.Sound) (hs : o.Tells start)
    (h : Schedule start fed taken (.ok .done) s) :
    o.future start fed = (o.ahead s []).after (taken ++ s.output.content) := by
  have := future_eq ho hs h [] fun _ => rfl
  rwa [List.append_nil] at this

/-- **A transducer that fails has put out some of what was to be expected, and its failure was to be
expected too.** -/
theorem refused_of_error {c : Failure} (ho : o.Sound) (hs : o.Tells start)
    (h : Schedule start fed taken (.error c) s) (rest : Bytes)
    (hr : s.input.ended = true → rest = []) :
    taken ++ s.output.content <+: (o.future start (fed ++ rest)).output ∧
      (o.future start (fed ++ rest)).refused c := by
  cases h with
  | stepped h ht =>
    rename_i t
    have hstep := ho.step (fit ho hs h) ht
    have hr' : t.input.ended = true → rest = [] := by rwa [← hstep.ended]
    obtain ⟨made, hout, hb⟩ := hstep.error c rfl
    obtain ⟨hp, hc⟩ := hb rest hr'
    rw [future_eq ho hs h rest hr', hout, ← List.append_assoc]
    exact ⟨(List.prefix_append_right_inj _).mpr hp, hc⟩

/-- **A transducer that fails has put out all that was to be expected.** -/
theorem output_of_error {c : Failure} (ho : o.Sound) (hs : o.Tells start) (hth : o.Thorough)
    (h : Schedule start fed taken (.error c) s) (rest : Bytes)
    (hr : s.input.ended = true → rest = []) :
    taken ++ s.output.content = (o.future start (fed ++ rest)).output := by
  cases h with
  | stepped h ht =>
    rename_i t
    have hfit := fit ho hs h
    have hr' : t.input.ended = true → rest = [] := by rwa [← (ho.step hfit ht).ended]
    rw [future_eq ho hs h rest hr', hth hfit ht rest hr']
    simp only [Future.after, List.append_assoc]

/-- **What has come to its end has put out all that was to be expected, and has ended as was to be
expected.** -/
theorem conclusion {result : Except Failure Status} (ho : o.Sound) (hs : o.Tells start)
    (hth : o.Thorough) (h : Schedule start fed taken result s) (hne : result ≠ .ok .blocked)
    (rest : Bytes) (hr : s.input.ended = true → rest = []) :
    taken ++ s.output.content = (o.future start (fed ++ rest)).output ∧
      (o.future start (fed ++ rest)).Ends result := by
  cases result with
  | error c => exact ⟨output_of_error ho hs hth h rest hr, (refused_of_error ho hs h rest hr).2⟩
  | ok status =>
    cases status with
    | blocked => exact absurd rfl hne
    | done =>
      obtain ⟨hended, hnil, hnone⟩ := settled_of_done ho hs h
      rw [hr hended, List.append_nil, future_of_done ho hs h]
      exact ⟨by rw [Future.after, hnil, List.append_nil], hnone⟩

end Schedule

end BlockSync
