import BlockSync.Proofs.Pipe

/-!
# Transducers whose output waits for room

A transducer that takes no input while output waits passes on what waits, takes all input if nothing
is left waiting, and passes on what that has made.

* `Backlogged`: where such a transducer keeps the output that waits;
* `Backlogged.Lawful`: its steps are as above, and taking input does not change what was to be
  expected;
* **`Lawful.sound`**, **`Lawful.prompt`**: then no step does, and output waits only for room;
* **`Lawful.exists_done`**: once the input has ended such a transducer can be stepped until it is
  done.
-/

namespace BlockSync

variable {τ ρ : Type}

/-- Where a transducer keeps the output that waits. -/
structure Backlogged (τ ρ : Type) where
  backlog : τ → Backlog
  put : τ → Backlog → τ
  /-- The end of the input has been taken. -/
  finished : τ → Bool
  /-- What is to come behind the output that waits. -/
  beyond : τ → Bytes → Future ρ

namespace Backlogged

variable (w : Backlogged τ ρ)

/-- The output that waits. -/
def pending (t : τ) : Bytes := (w.backlog t).pending

/-- Output that waits is passed on. -/
def poured (b : Bench τ) : Bench τ :=
  ⟨w.put b.state ((w.backlog b.state).pour b.output).1, b.input,
    ((w.backlog b.state).pour b.output).2⟩

/-- What is reported when nothing more can be done. -/
def status (t : τ) : Status :=
  if w.finished t && (w.backlog t).isEmpty then .done else .blocked

/-- All input of `b` was taken, which led to `c`. -/
structure Takes (o : Outlook τ ρ) (b c : Bench τ) : Prop where
  input : c.input.content = []
  ended : c.input.ended = b.input.ended
  inputCapacity : c.input.capacity = b.input.capacity
  output : c.output = b.output
  finished : c.input.ended = true → w.finished c.state = true
  fit : o.Fit c
  kept : o.Keeps b c

/-- The steps of a transducer pass on what waits, take all input if nothing is left waiting, and pass
on what that has made. -/
structure Lawful [Transducer τ] (o : Outlook τ ρ) : Prop where
  backlog_put : ∀ t b, w.backlog (w.put t b) = b
  finished_put : ∀ t b, w.finished (w.put t b) = w.finished t
  beyond_put : ∀ t b, w.beyond (w.put t b) = w.beyond t
  future : ∀ t bs, o.future t bs = (w.beyond t bs).after (w.pending t)
  fit_poured : ∀ {b : Bench τ}, o.Fit b → o.Fit (w.poured b)
  fit_served : ∀ {b c : Bench τ} {fed taken : Bytes}, o.Fit b → b.Served c fed taken → o.Fit c
  finished : ∀ {b : Bench τ}, o.Fit b → w.finished b.state = true →
    b.input.ended = true ∧ (w.beyond b.state b.input.content).Settled
  waits : ∀ {b : Bench τ}, o.Fit b → w.pending (w.poured b).state ≠ [] →
    Transducer.step b = (.ok .blocked, w.poured b)
  goes : ∀ {b : Bench τ}, o.Fit b → w.pending (w.poured b).state = [] →
    ∃ c, w.Takes o (w.poured b) c ∧
      Transducer.step b = (.ok (w.status (w.poured c).state), w.poured c)

namespace Lawful

variable {w} [Transducer τ] {o : Outlook τ ρ}

/-! ## Passing on what waits -/

theorem pending_poured (h : w.Lawful o) (b : Bench τ) :
    w.pending (w.poured b).state = (w.pending b.state).drop b.output.room ∧
      (w.poured b).output.content =
        b.output.content ++ (w.pending b.state).take b.output.room := by
  obtain ⟨hq, hb⟩ := (w.backlog b.state).pour_eq b.output
  refine ⟨?_, hq⟩
  rw [pending, poured, h.backlog_put]
  exact hb

theorem keeps_poured (h : w.Lawful o) (b : Bench τ) : o.Keeps b (w.poured b) := by
  obtain ⟨hb, hq⟩ := h.pending_poured b
  refine ⟨_, hq, fun rest _ => ?_⟩
  have hbeyond : w.beyond (w.poured b).state = w.beyond b.state := h.beyond_put ..
  rw [Outlook.ahead, Outlook.ahead, h.future, h.future, hb, hbeyond, Future.after_after,
    List.take_append_drop]
  rfl

omit [Transducer τ] in
theorem room_poured (b : Bench τ) :
    (w.poured b).output.room + (w.poured b).output.content.length =
      b.output.room + b.output.content.length :=
  b.output.room_append_content _

/-- Output waits only if there is no room for it. -/
theorem room_of_waiting (h : w.Lawful o) {b : Bench τ} (hp : w.pending (w.poured b).state ≠ []) :
    (w.poured b).output.room = 0 := by
  obtain ⟨hb, hq⟩ := h.pending_poured b
  have hlt : b.output.room < (w.pending b.state).length := by
    rcases Nat.lt_or_ge b.output.room (w.pending b.state).length with hl | hl
    · exact hl
    · exact absurd (hb.trans (List.drop_of_length_le hl)) hp
  have hr := room_poured (w := w) b
  have hc : (w.poured b).output.content.length = b.output.content.length + b.output.room := by
    rw [hq, List.length_append, List.length_take]
    omega
  omega

theorem status_eq_done (h : w.Lawful o) {c : Bench τ} (hf : w.finished c.state = true)
    (hp : w.pending (w.poured c).state = []) : w.status (w.poured c).state = .done := by
  have hf' : w.finished (w.poured c).state = true := by rw [poured, h.finished_put]; exact hf
  rw [status, hf', (Backlog.isEmpty_iff _).mpr hp]
  rfl

omit [Transducer τ] in
theorem of_status_done {t : τ} (h : w.status t = .done) :
    w.finished t = true ∧ w.pending t = [] := by
  unfold status at h
  split at h
  · next hc =>
    obtain ⟨hf, hp⟩ : w.finished t = true ∧ (w.backlog t).isEmpty = true := by simpa using hc
    exact ⟨hf, (Backlog.isEmpty_iff _).mp hp⟩
  · cases h

end Lawful

/-! ## Steps -/

/-- What a step from `b` to `c` does. -/
structure Steps (o : Outlook τ ρ) (b : Bench τ) (status : Status) (c : Bench τ) : Prop where
  fit : o.Fit c
  kept : o.Keeps b c
  ended : c.input.ended = b.input.ended
  inputCapacity : c.input.capacity = b.input.capacity
  outputCapacity : c.output.capacity = b.output.capacity
  room : c.output.room + c.output.content.length = b.output.room + b.output.content.length
  done : status = .done → w.finished c.state = true ∧ w.pending c.state = []
  /-- Output waits because there is no room for it. -/
  full : status = .blocked → c.input.content ≠ [] ∨ c.input.ended = true →
    w.pending c.state ≠ [] ∧ c.output.room = 0
  /-- Some of what was waiting is passed on. -/
  paid : w.pending b.state ≠ [] → 0 < b.output.room →
    b.output.content.length < c.output.content.length

namespace Lawful

variable {w} [Transducer τ] {o : Outlook τ ρ}

theorem paid_poured (h : w.Lawful o) {b : Bench τ} (hp : w.pending b.state ≠ [])
    (hr : 0 < b.output.room) : b.output.content.length < (w.poured b).output.content.length := by
  have hl := List.length_pos_iff.mpr hp
  rw [(h.pending_poured b).2, List.length_append, List.length_take]
  omega

theorem step_spec (h : w.Lawful o) {b : Bench τ} (hb : o.Fit b) :
    ∃ status c, Transducer.step b = (.ok status, c) ∧ w.Steps o b status c := by
  have hfit := h.fit_poured hb
  have hkept := h.keeps_poured b
  by_cases hp : w.pending (w.poured b).state = []
  · obtain ⟨c, ht, hstep⟩ := h.goes hb hp
    refine ⟨_, _, hstep, ?_⟩
    have hout : c.output = (w.poured b).output := ht.output
    exact {
      fit := h.fit_poured ht.fit
      kept := (hkept.trans rfl ht.kept).trans ht.ended (h.keeps_poured c)
      ended := ht.ended
      inputCapacity := ht.inputCapacity
      outputCapacity := by
        refine (Backlog.capacity_pour ..).trans ?_
        rw [hout]
        exact Backlog.capacity_pour ..
      room := by
        rw [room_poured, hout, room_poured]
      done := of_status_done
      full := fun hblocked hin => by
        have hended : c.input.ended = true := hin.resolve_left (· ht.input)
        have hpend : w.pending (w.poured c).state ≠ [] := fun hpend => by
          rw [h.status_eq_done (ht.finished hended) hpend] at hblocked
          cases hblocked
        exact ⟨hpend, h.room_of_waiting hpend⟩
      paid := fun hpend hr => by
        refine Nat.lt_of_lt_of_le (h.paid_poured hpend hr) ?_
        rw [(h.pending_poured c).2, hout, List.length_append]
        exact Nat.le_add_right _ _ }
  · refine ⟨_, _, h.waits hb hp, ?_⟩
    exact {
      fit := hfit
      kept := hkept
      ended := rfl
      inputCapacity := rfl
      outputCapacity := Backlog.capacity_pour ..
      room := room_poured b
      done := fun hd => nomatch hd
      full := fun _ _ => ⟨hp, h.room_of_waiting hp⟩
      paid := h.paid_poured }

/-- **No step changes what was to be expected.** -/
theorem sound (h : w.Lawful o) : o.Sound where
  served := h.fit_served
  step {b c result} hb hc := by
    obtain ⟨status, c', hstep, hs⟩ := h.step_spec hb
    obtain ⟨rfl, rfl⟩ : result = .ok status ∧ c = c' := by
      rw [← Prod.mk.injEq, ← hc, hstep]
    refine .of_ok hs.fit hs.kept hs.ended hs.inputCapacity hs.outputCapacity fun hd => ?_
    obtain ⟨hf, hp⟩ := hs.done hd
    obtain ⟨he, hsettled⟩ := h.finished hs.fit hf
    refine ⟨he, ?_⟩
    rwa [Outlook.ahead, h.future, hp, List.append_nil]

/-- **Output waits only for room.** -/
theorem prompt (h : w.Lawful o) : o.Prompt fun b => w.pending b.state ≠ [] where
  served hp hv := by rwa [hv.state]
  owes {b c} hb hc hin := by
    obtain ⟨status, c', hstep, hs⟩ := h.step_spec hb
    obtain ⟨rfl, rfl⟩ : status = .blocked ∧ c' = c := by simpa [hstep] using hc
    exact (hs.full rfl hin).1
  pays {b c} hb hp hr hc := by
    obtain ⟨status, c', hstep, hs⟩ := h.step_spec hb
    obtain ⟨rfl, rfl⟩ : status = .blocked ∧ c' = c := by simpa [hstep] using hc
    exact hs.paid hp hr

/-- **If there is room for everything, the step at the end of the input is the last one.** -/
theorem exists_done (h : w.Lawful o) {start : τ} (ht : o.Tells start) {fed taken : Bytes}
    {status : Status} {b : Bench τ} (hb : Schedule start fed taken (.ok status) b)
    (he : b.input.ended = true) :
    ∃ more c, Schedule start fed (taken ++ more) (.ok .done) c := by
  let roomy : Bench τ := { b with output := .ofCapacity ((o.ahead b []).output.length + 1) }
  have hv : b.Served roomy [] b.output.content :=
    ⟨rfl, (List.append_nil _).symm, fun _ => ⟨rfl, he⟩, by simp [roomy]⟩
  have hserved := hb.served hv
  rw [List.append_nil] at hserved
  obtain ⟨status', c, hstep, hs⟩ := h.step_spec (Schedule.fit h.sound ht hserved)
  have hnext := hserved.stepped hstep
  cases status' with
  | done => exact ⟨_, c, hnext⟩
  | blocked =>
    -- the queue would be full, but it has room for more than all that is to come
    obtain ⟨made, hout, hf⟩ := hs.kept
    have hmade := congrArg (fun f => f.output.length) (hf [] fun _ => rfl)
    have hfull := (hs.full rfl (.inr (hs.ended.trans he))).2
    have hroom := hs.room
    have hcap : roomy.output.room = (o.ahead b []).output.length + 1 := by
      rw [Queue.room_of_empty _ (by simp [roomy])]
      simp [roomy]
    have hempty : roomy.output.content = [] := by simp [roomy]
    have hahead : o.ahead roomy [] = o.ahead b [] := rfl
    rw [hfull, hout, hempty, hcap] at hroom
    simp only [hahead, Future.after, List.length_append] at hmade
    simp only [List.nil_append, List.length_nil] at hroom
    omega

end Lawful

end Backlogged

end BlockSync
