import BlockSync.Proofs.Orderly

/-!
# After a step

A transducer can be stepped again whatever its last step ended with. Nothing in the queues keeps
bytes from arriving behind the end of a stream either.

* `Bench.Tended`: what may happen to a bench between two steps;
* `Bench.Later`: what may become of a bench; `Bench.Stays`, `Bench.Later.keeps`: its invariants;
* `Bench.Final`: no later step is the one that is done;
* `Queue.reopen`, `Bench.reopen`: the same bench before the end of its stream was marked.
-/

namespace BlockSync

variable {τ : Type}

namespace Bench

/-- Between two steps bytes may arrive at the back of the input, also behind the end of the stream,
and the end may be marked. The output may be anything. -/
structure Tended (s t : Bench τ) (fed : Bytes) : Prop where
  state : t.state = s.state
  input : t.input.content = s.input.content ++ fed
  ended : s.input.ended = true → t.input.ended = true

variable [Transducer τ] {Fed : Bytes → Prop} {P : Bench τ → Prop} {b c : Bench τ}

/-- What may become of a bench, however its steps end. `Fed` holds of all that it may be fed. -/
inductive Later (Fed : Bytes → Prop) (b : Bench τ) : Bench τ → Prop
  | now : Later Fed b b
  | tended {c d : Bench τ} {fed : Bytes} : Later Fed b c → c.Tended d fed → Fed fed → Later Fed b d
  | stepped {c : Bench τ} : Later Fed b c → Later Fed b (Transducer.step c).2

/-- No later step is the one that is done. -/
def Final (Fed : Bytes → Prop) (b : Bench τ) : Prop :=
  ∀ c, b.Later Fed c → (Transducer.step c).1 ≠ .ok .done

/-- What nothing that may become of a bench breaks. -/
structure Stays (Fed : Bytes → Prop) (P : Bench τ → Prop) : Prop where
  tended : ∀ {c d : Bench τ} {fed : Bytes}, P c → c.Tended d fed → Fed fed → P d
  step : ∀ {c : Bench τ}, P c → P (Transducer.step c).2

theorem Later.keeps (hP : Stays Fed P) (h : b.Later Fed c) (hb : P b) : P c := by
  induction h with
  | now => exact hb
  | tended _ ht hf ih => exact hP.tended ih ht hf
  | stepped _ ih => exact hP.step ih

/-- A failure is final if something lasts from it on with which no step is done. -/
theorem final_of_stays (hP : Stays Fed P)
    (hdone : ∀ {c : Bench τ}, P c → (Transducer.step c).1 ≠ .ok .done) (hb : P b) : b.Final Fed :=
  fun _ h => hdone (h.keeps hP hb)

end Bench

/-! ## Before the end was marked -/

/-- The same queue before the end of the stream was marked. -/
def Queue.reopen (q : Queue) : Queue := { q with ended := false }

@[simp] theorem Queue.content_reopen (q : Queue) : q.reopen.content = q.content := rfl

/-- The end of the stream does not matter for what is taken from a queue. -/
theorem Queue.alike_reopen : Queue.Alike Queue.reopen where
  length _ := rfl
  front _ _ := rfl
  drop q count := by
    unfold drop reopen
    split <;> rfl

/-- The same bench before the end of its stream was marked. -/
def Bench.reopen (b : Bench τ) : Bench τ := ⟨b.state, b.input.reopen, b.output⟩

end BlockSync
