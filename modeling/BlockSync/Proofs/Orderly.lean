import BlockSync.Delta.Encoder
import BlockSync.Delta.Patcher
import BlockSync.Proofs.Queue
import BlockSync.Proofs.Stream.Frames
import BlockSync.Signature.Emitter
import BlockSync.Signature.Loader

/-!
# What may happen to queues

A transducer may only take bytes from the front of its input and append bytes to its output, and a
source may not claim to have put more into its room than fits there. Nothing else is asked of them
here, so what follows from this holds of every transducer and of every source.

* `Queue.Shrinks`, `Queue.Grows`: what a step may do to its two queues;
* `Transducer.Orderly`: steps do no more than that; **every transducer here is orderly**;
* `Source.Bounded`: pulls bring no more than there is room for;
* `Queue.received`, `Queue.hold_received`: the bytes that a pull brings, also of a source that is
  wrong about how many it has put there.
-/

namespace BlockSync

/-! ## Queues -/

namespace Queue

/-- Bytes may have left the front of a queue. -/
structure Shrinks (q q' : Queue) : Prop where
  content : q'.content <:+ q.content
  ended : q'.ended = q.ended
  capacity : q'.capacity = q.capacity

/-- Bytes may have been appended to a queue. -/
structure Grows (q q' : Queue) : Prop where
  content : q.content <+: q'.content
  capacity : q'.capacity = q.capacity

variable {p q r : Queue}

@[simp] theorem Shrinks.refl (q : Queue) : q.Shrinks q := ⟨List.suffix_refl _, rfl, rfl⟩

@[simp] theorem Grows.refl (q : Queue) : q.Grows q := ⟨List.prefix_refl _, rfl⟩

theorem Shrinks.trans (h : p.Shrinks q) (h' : q.Shrinks r) : p.Shrinks r :=
  ⟨h'.content.trans h.content, h'.ended.trans h.ended, h'.capacity.trans h.capacity⟩

theorem Grows.trans (h : p.Grows q) (h' : q.Grows r) : p.Grows r :=
  ⟨h.content.trans h'.content, h'.capacity.trans h.capacity⟩

@[simp] theorem shrinks_drop (q : Queue) (count : Nat) : q.Shrinks (q.drop count) where
  content := by
    rw [content_drop]
    exact List.drop_suffix count _
  ended := q.ended_drop count
  capacity := q.capacity_drop count

@[simp] theorem grows_append (q : Queue) (bs : Bytes) : q.Grows (q.append bs) where
  content := by
    rw [content_append]
    exact List.prefix_append _ _
  capacity := q.capacity_append bs

/-- What has left a queue and what it still holds are together what it held. -/
theorem Shrinks.take_append (h : p.Shrinks q) :
    p.content.take (p.length - q.length) ++ q.content = p.content := by
  obtain ⟨front, hc⟩ := h.content
  have hl : p.length - q.length = front.length := by
    rw [← length_content, ← length_content, ← hc, List.length_append]
    omega
  rw [hl, ← hc, List.take_left]

/-- What a queue held and what was appended are together what it holds. -/
theorem Grows.append_drop (h : p.Grows q) : p.content ++ q.content.drop p.length = q.content := by
  obtain ⟨back, hc⟩ := h.content
  rw [← length_content p, ← hc, List.drop_left]

end Queue

theorem Backlog.grows_pour (b : Backlog) (q : Queue) : q.Grows (b.pour q).2 := q.grows_append _

theorem Field.shrinks_collect {f f' : Field} {q q' : Queue} {length : Nat} {found : Option Bytes}
    (h : f.collect q length = (found, f', q')) : q.Shrinks q' := by
  simp only [collect, Prod.mk.injEq] at h
  rw [← h.2.2]
  exact q.shrinks_drop _

/-! ## Transducers -/

/-- Steps take bytes from the front of the input and append bytes to the output. -/
structure Transducer.Orderly (τ : Type) [Transducer τ] : Prop where
  input : ∀ b : Bench τ, b.input.Shrinks (Transducer.step b).2.input
  output : ∀ b : Bench τ, b.output.Grows (Transducer.step b).2.output

open Transducer (Orderly)

theorem SignatureEmitter.orderly : Orderly SignatureEmitter where
  input b := by
    change b.input.Shrinks (step b).input
    simp only [step]
    split
    · exact .refl _
    · exact b.input.shrinks_drop _
  output b := by
    change b.output.Grows (step b).output
    simp only [step]
    split
    · exact Backlog.grows_pour _ _
    · exact (Backlog.grows_pour _ _).trans (Backlog.grows_pour _ _)

theorem SignatureLoader.orderly : Orderly SignatureLoader where
  input b := by
    change b.input.Shrinks (step b).2.input
    simp only [step]
    split
    · exact b.input.shrinks_drop _
    · split <;> exact b.input.shrinks_drop _
  output b := by
    change b.output.Grows (step b).2.output
    simp only [step]
    split
    · exact .refl _
    · split <;> exact .refl _

theorem DeltaEncoder.shrinks_takeInput (e : DeltaEncoder) (input : Queue) :
    input.Shrinks (e.takeInput input).2.2 := by
  simp only [takeInput]
  split
  · exact .refl _
  · split
    · exact input.shrinks_drop _
    · split <;> exact input.shrinks_drop _

theorem DeltaEncoder.orderly : Orderly DeltaEncoder where
  input b := by
    change b.input.Shrinks (step b).2.input
    simp only [step]
    split
    · exact .refl _
    · split <;> exact shrinks_takeInput _ _
  output b := by
    change b.output.Grows (step b).2.output
    simp only [step]
    split
    · exact Backlog.grows_pour _ _
    · split
      · exact Backlog.grows_pour _ _
      · exact (Backlog.grows_pour _ _).trans (Backlog.grows_pour _ _)

/-- What a move leaves behind. -/
def Move.left {α : Type} : Move α → α
  | .next s | .halt _ s | .fail _ s => s

/-- The same move of something else. -/
def Move.map {α β : Type} (f : α → β) : Move α → Move β
  | .next s => .next (f s)
  | .halt reason s => .halt reason (f s)
  | .fail e s => .fail e (f s)

namespace Patcher

variable {β : Type} [Basis β]

/-- A move does to the queues what a step may do to them. -/
theorem move_left (s : Bench (Patcher β)) :
    s.input.Shrinks (move s).left.input ∧ s.output.Grows (move s).left.output := by
  obtain ⟨⟨basis, size, verify, stage, field, hasher, written⟩, input, output⟩ := s
  have hstay : input.Shrinks input ∧ output.Grows output := ⟨.refl input, .refl output⟩
  have hcollect {length : Nat} {found : Option Bytes} {f : Field} {q : Queue}
      (hf : field.collect input length = (found, f, q)) : input.Shrinks q ∧ output.Grows output :=
    ⟨Field.shrinks_collect hf, .refl output⟩
  cases stage with
  | mark =>
    simp only [move]
    split
    · next hf => exact hcollect hf
    · next hf => split <;> exact hcollect hf
  | opcode =>
    simp only [move]
    split
    · exact hstay
    · split <;> exact ⟨input.shrinks_drop 1, .refl output⟩
  | copyRange =>
    simp only [move]
    split
    · next hf => exact hcollect hf
    · next hf => split <;> exact hcollect hf
  | copying offset remaining =>
    simp only [move]
    split
    · exact hstay
    split
    · exact hstay
    split
    · exact hstay
    split
    · exact ⟨.refl input, output.grows_append _⟩
    · exact hstay
  | insertLength =>
    simp only [move]
    split <;> next hf => exact hcollect hf
  | inserting remaining =>
    simp only [move]
    split
    · exact hstay
    split
    · exact hstay
    · exact ⟨input.shrinks_drop _, output.grows_append _⟩
  | checksum =>
    simp only [move]
    split
    · next hf => exact hcollect hf
    · next hf => split <;> exact hcollect hf
  | done =>
    simp only [move]
    split <;> exact hstay

/-- What no move breaks is kept until something is lacking. -/
theorem moves_keeps {P : Bench (Patcher β) → Prop} (h : ∀ s, P s → P (move s).left)
    {s : Bench (Patcher β)} (hs : P s) : P (moves s).2 := by
  induction s using moves.induct with
  | case1 s s' hm hlt ih =>
    have hleft := h s hs
    rw [hm] at hleft
    rw [moves]
    split
    · next t ht =>
      obtain rfl : s' = t := by simpa [hm] using ht
      exact ih hleft
    · next ht => simp [hm] at ht
    · next ht => simp [hm] at ht
  | case2 s reason s' hm =>
    have hleft := h s hs
    rw [moves]
    split <;> next ht => simp_all [Move.left]
  | case3 s e s' hm =>
    have hleft := h s hs
    rw [moves]
    split <;> next ht => simp_all [Move.left]

theorem moves_left (s : Bench (Patcher β)) :
    s.input.Shrinks (moves s).2.input ∧ s.output.Grows (moves s).2.output :=
  moves_keeps (P := fun t => s.input.Shrinks t.input ∧ s.output.Grows t.output)
    (fun t ht => ⟨ht.1.trans (move_left t).1, ht.2.trans (move_left t).2⟩) ⟨.refl _, .refl _⟩

/-- A step leaves behind what its moves do. -/
theorem snd_step (b : Bench (Patcher β)) : (step b).2 = (moves b).2 := by
  unfold step
  split
  · next h => rw [h]
  · next h =>
    rw [h]
    split
    · rfl
    · split <;> rfl

theorem orderly : Orderly (Patcher β) where
  input b := by
    change b.input.Shrinks (step b).2.input
    rw [snd_step]
    exact (moves_left b).1
  output b := by
    change b.output.Grows (step b).2.output
    rw [snd_step]
    exact (moves_left b).2

end Patcher

/-! ## Sources -/

/-- A source says of no pull that it has put more into the room than fits there. -/
def Source.Bounded (σ : Type) [Source σ] : Prop :=
  ∀ (source : σ) {room : Nat}, 0 < room → ∀ {d : Delivery},
    (Source.pull source room).1 = .ok d → d.count ≤ room

/-- The pulls of a source that delivers some flow, whatever state it is in. -/
theorem Source.Faithful.bounded {σ : Type} [Source σ] {Holds : σ → Flow TransferError → Prop}
    (h : Faithful Holds) (hs : ∀ source, ∃ f, Holds source f) : Bounded σ := by
  intro source room hroom d hd
  obtain ⟨f, hf⟩ := hs source
  have hpull := h.pull hf hroom
  rcases hp : Source.pull source room with ⟨e | d', source'⟩ <;> rw [hp] at hpull hd
  · cases hd
  · cases hd
    exact hpull.2.1

theorem RawSource.bounded : Source.Bounded RawSource := faithful.bounded fun s => ⟨s.flow, rfl⟩

theorem FramedSource.bounded : Source.Bounded FramedSource := faithful.bounded fun s => ⟨s.flow, rfl⟩

/-! ## The bytes of a pull -/

theorem overwrite_of_le {storage : Array UInt8} {start : Nat} (h : storage.size ≤ start)
    (bs : Bytes) : overwrite storage start bs = storage := by
  induction bs generalizing start with
  | nil => rfl
  | cons b bs ih =>
    have hb : storage.setIfInBounds start b = storage := by
      rw [Array.setIfInBounds, dif_neg (Nat.not_lt.mpr h)]
    rw [overwrite, hb, ih (Nat.le_succ_of_le h)]

/-- What reaches past the end of storage is dropped. -/
theorem overwrite_take (storage : Array UInt8) (start : Nat) (bs : Bytes) :
    overwrite storage start (bs.take (storage.size - start)) = overwrite storage start bs := by
  induction bs generalizing storage start with
  | nil => rw [List.take_nil]
  | cons b bs ih =>
    rcases Nat.lt_or_ge start storage.size with hs | hs
    · have hn : storage.size - start = storage.size - (start + 1) + 1 := by omega
      have := ih (storage.setIfInBounds start b) (start + 1)
      rw [Array.size_setIfInBounds] at this
      rw [hn, List.take_succ_cons, overwrite, overwrite, this]
    · rw [overwrite_of_le hs, overwrite_of_le hs]

namespace Queue

/-- The bytes that a pull into the free storage of a queue brings: as many as the source says it has
put there, whatever they are. -/
def received (q : Queue) (d : Delivery) : Bytes :=
  slice (q.preload d.bytes).storage (q.offset + q.length) d.count

/-- The bytes that a pull brings come behind those that are held. -/
theorem hold_received (q : Queue) {d : Delivery} (h : d.count ≤ q.room) :
    ∃ q', (q.preload d.bytes).hold d.count = (.ok (), q') ∧
      q'.content = q.content ++ q.received d ∧ (q.received d).length = d.count ∧
      q'.ended = q.ended ∧ q'.capacity = q.capacity := by
  have hf := q.fits
  have hr : (q.preload d.bytes).room = q.room := by simp [room, preload]
  refine ⟨_, by unfold hold; exact dif_pos (by omega), ?_, ?_, ?_, ?_⟩
  · rw [content_eq, content_eq, received]
    simp only [preload]
    rw [slice_append, ← overwrite_take,
      slice_overwrite_of_le _ _ (by rw [List.length_take]; omega) (Nat.le_refl _)]
  · rw [received, length_slice]
    simp only [preload, size_overwrite]
    simp only [room] at h
    omega
  · rfl
  · simp [capacity, preload]

end Queue

end BlockSync
