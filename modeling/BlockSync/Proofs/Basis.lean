import BlockSync.Basis

/-!
# Bases that can be read

* `Basis.Faithful`, `Basis.Shows`: a basis shows a byte string of which any part can be read;
* `StoredBasis.shows`: a basis whose bytes are at hand does;
* `Basis.Flaky`: a basis shows a byte string, but any read of it may fail;
* `Basis.Mute`: a basis tells its size, and nothing else; **`Basis.Mute.flaky`**: it may hold any byte
  string of that size;
* `Recorder`: a basis that keeps account of what it is asked for;
* `Reluctant`: a basis of which the first reads fail; `Withheld`: one that does not even tell its size.
-/

namespace BlockSync

namespace Basis

variable {β : Type} [Basis β]

/-- Bases tell the length of the byte string that they hold, and any part of it. -/
structure Faithful (Holds : β → Bytes → Prop) : Prop where
  size : ∀ {basis : β} {bs : Bytes}, Holds basis bs →
    ∃ basis', Basis.size basis = (.ok bs.length, basis') ∧ Holds basis' bs
  readAt : ∀ {basis : β} {bs : Bytes}, Holds basis bs → ∀ {offset count : Nat},
    offset + count ≤ bs.length →
      ∃ basis', Basis.readAt basis offset count = (.ok ((bs.drop offset).take count), basis') ∧
        Holds basis' bs

/-- The basis shows the byte string. -/
def Shows (basis : β) (bs : Bytes) : Prop := ∃ Holds, Faithful Holds ∧ Holds basis bs

/-- Bases of which every read may fail, now or later. What they do give are the bytes of the byte
string that they hold. -/
structure Flaky (Holds : β → Bytes → Prop) : Prop where
  size : ∀ {basis : β} {bs : Bytes}, Holds basis bs →
    Holds (Basis.size basis).2 bs ∧ ∀ n, (Basis.size basis).1 = .ok n → n = bs.length
  readAt : ∀ {basis : β} {bs : Bytes}, Holds basis bs → ∀ {offset count : Nat},
    offset + count ≤ bs.length →
      Holds (Basis.readAt basis offset count).2 bs ∧
        ∀ cs, (Basis.readAt basis offset count).1 = .ok cs → cs.length = count →
          cs = (bs.drop offset).take count

/-- A basis of which any part can be read is not one that must fail. -/
theorem Faithful.flaky {Holds : β → Bytes → Prop} (h : Faithful Holds) : Flaky Holds where
  size hh := by
    obtain ⟨basis', hs, hh'⟩ := h.size hh
    rw [hs]
    exact ⟨hh', fun n hn => (Except.ok.inj hn).symm⟩
  readAt hh offset count hl := by
    obtain ⟨basis', hr, hh'⟩ := h.readAt hh hl
    rw [hr]
    exact ⟨hh', fun cs hc _ => (Except.ok.inj hc).symm⟩

/-- A read fails, or does not give what was asked for. -/
def Refuses (basis : β) (offset count : Nat) (f : Fault) : Prop :=
  (Basis.readAt basis offset count).1 = .error f ∨
    f = .unexpectedEof ∧
      ∃ bs, (Basis.readAt basis offset count).1 = .ok bs ∧ bs.length ≠ count

/-- A basis of which any part can be read refuses none. -/
theorem Faithful.not_refuses {Holds : β → Bytes → Prop} (h : Faithful Holds) {basis : β} {bs : Bytes}
    (hh : Holds basis bs) {offset count : Nat} (hl : offset + count ≤ bs.length) {f : Fault} :
    ¬ Refuses basis offset count f := by
  obtain ⟨basis', hr, -⟩ := h.readAt hh hl
  rintro (he | ⟨-, cs, he, hne⟩)
  · rw [hr] at he
    cases he
  · rw [hr] at he
    obtain rfl := Except.ok.inj he
    refine hne ?_
    rw [List.length_take, List.length_drop]
    omega

/-- Bases of which the size is told, and no part can be read. -/
structure Mute (Good : β → Prop) (size : Nat) : Prop where
  size : ∀ {basis : β}, Good basis → (Basis.size basis).1 = .ok size ∧ Good (Basis.size basis).2
  readAt : ∀ {basis : β}, Good basis → ∀ offset count,
    (∃ f, (Basis.readAt basis offset count).1 = .error f) ∧ Good (Basis.readAt basis offset count).2

/-- For all that a basis tells of itself, it holds the byte string. -/
def MayHold (Good : β → Prop) (size : Nat) (basis : β) (bs : Bytes) : Prop :=
  Good basis ∧ bs.length = size

/-- A basis that tells no more than its size may hold any byte string of that size. -/
theorem Mute.flaky {Good : β → Prop} {size : Nat} (h : Mute Good size) : Flaky (MayHold Good size) where
  size {basis bs} hh := by
    obtain ⟨hsize, hgood⟩ := h.size hh.1
    refine ⟨⟨hgood, hh.2⟩, fun n hn => ?_⟩
    rw [hsize] at hn
    exact (Except.ok.inj hn).symm.trans hh.2.symm
  readAt {basis bs} hh offset count _ := by
    obtain ⟨⟨f, hf⟩, hgood⟩ := h.readAt hh.1 offset count
    refine ⟨⟨hgood, hh.2⟩, fun cs hc => ?_⟩
    rw [hf] at hc
    cases hc

end Basis

/-! ## A basis whose bytes are at hand -/

namespace StoredBasis

theorem faithful : Basis.Faithful fun (b : StoredBasis) bs => b.bytes.toList = bs where
  size {b bs} h := ⟨b, by subst h; simp [Basis.size], h⟩
  readAt {b bs} h offset count hl := by
    subst h
    refine ⟨b, ?_, rfl⟩
    have hs : offset + count ≤ b.bytes.size := by simpa using hl
    simp only [Basis.readAt, StoredBasis.read, if_pos (Or.inr hs), slice_eq]

theorem shows (bs : Bytes) : Basis.Shows (⟨bs.toArray⟩ : StoredBasis) bs := ⟨_, faithful, by simp⟩

end StoredBasis

/-! ## Keeping account of what is read -/

/-- Reads within some size do not break what holds of a basis. -/
def Basis.Withstands {β : Type} [Basis β] (Good : β → Prop) (size : Nat) : Prop :=
  ∀ basis offset count, Good basis → offset + count ≤ size → Good (Basis.readAt basis offset count).2

/-- A basis and its image give the same when they are read. -/
def Basis.Alike {β γ : Type} [Basis β] [Basis γ] (f : β → γ) : Prop :=
  ∀ basis offset count, Basis.readAt (f basis) offset count =
    ((Basis.readAt basis offset count).1, f (Basis.readAt basis offset count).2)

theorem Basis.Alike.id {β : Type} [Basis β] : Basis.Alike (id : β → β) := fun _ _ _ => rfl

/-- What is to be read. -/
structure ReadRequest where
  offset : Nat
  count : Nat

/-- A basis, and all that it was asked for. -/
structure Recorder (β : Type) where
  basis : β
  requests : List ReadRequest

namespace Recorder

variable {β : Type} [Basis β]

instance : Basis (Recorder β) where
  size r := ((Basis.size r.basis).1, ⟨(Basis.size r.basis).2, r.requests⟩)
  readAt r offset count :=
    ((Basis.readAt r.basis offset count).1,
      ⟨(Basis.readAt r.basis offset count).2, r.requests ++ [⟨offset, count⟩]⟩)

/-- A recorder gives what its basis gives. -/
theorem alike : Basis.Alike (Recorder.basis : Recorder β → β) := fun _ _ _ => rfl

end Recorder

/-! ## A basis that fails at first -/

/-- A basis of which the first reads fail. -/
structure Reluctant where
  bytes : Array UInt8
  /-- How many reads are still to fail. -/
  refusals : Nat
deriving DecidableEq

namespace Reluctant

instance : Basis Reluctant where
  size b := (.ok b.bytes.size, b)
  readAt b offset count :=
    match b.refusals with
    | 0 => ((⟨b.bytes⟩ : StoredBasis).read offset count, b)
    | refusals + 1 => (.error ⟨.timedOut, ""⟩, ⟨b.bytes, refusals⟩)

theorem flaky : Basis.Flaky fun (b : Reluctant) bs => b.bytes.toList = bs where
  size {b bs} h := ⟨h, fun n hn => by rw [← h, ← Except.ok.inj hn, Array.length_toList]⟩
  readAt {b bs} h offset count hl := by
    obtain ⟨bytes, refusals⟩ := b
    have hs : (⟨bytes⟩ : StoredBasis).bytes.toList = bs := h
    obtain ⟨basis', hread, -⟩ := StoredBasis.faithful.readAt hs hl
    cases refusals with
    | zero =>
      refine ⟨h, fun cs hc _ => ?_⟩
      exact Except.ok.inj (hc.symm.trans (congrArg Prod.fst hread))
    | succ refusals => exact ⟨h, nofun⟩

/-- Once it has failed often enough, any part of it can be read. -/
theorem shows (bytes : Array UInt8) : Basis.Shows (⟨bytes, 0⟩ : Reluctant) bytes.toList := by
  refine ⟨fun b bs => b.bytes.toList = bs ∧ b.refusals = 0, ⟨?_, ?_⟩, rfl, rfl⟩
  · rintro b bs ⟨rfl, h⟩
    exact ⟨b, by rw [Array.length_toList]; rfl, rfl, h⟩
  · rintro ⟨bytes, refusals⟩ bs ⟨rfl, rfl⟩ offset count hl
    have hs : (⟨bytes⟩ : StoredBasis).bytes.toList = bytes.toList := rfl
    obtain ⟨basis', hread, -⟩ := StoredBasis.faithful.readAt hs hl
    have hgiven := congrArg Prod.fst hread
    exact ⟨⟨bytes, 0⟩, Prod.ext hgiven rfl, rfl, rfl⟩

end Reluctant

/-- A basis that fails whatever it is asked. -/
structure Withheld where
  fault : Fault

instance : Basis Withheld where
  size b := (.error b.fault, b)
  readAt b _ _ := (.error b.fault, b)

end BlockSync
