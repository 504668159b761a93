import BlockSync.Files.Store
import BlockSync.Proofs.Basis
import BlockSync.Proofs.Stream.Flow

/-!
# What is in a store

* `FileStore.entry?_put_of_ne`, `FileStore.entry?_put_self`: what is at a location after something was
  put somewhere;
* `FileStore.openFile_put`, `FileStore.create_put`: what is in a file does not matter to other paths, nor
  to what is made of it;
* `FileStore.ChangesOnly`: two stores differ at most where a path leads;
  **`FileStore.ChangesOnly.of_create`**: as they do after a file was made there;
* `FileStore.delivers_reader`, `FileStore.delivers_unreadable`, `FileStore.shows_basis`: what a file
  delivers, and what it shows; `FileStore.listed_basis`: what can be told of a directory.
-/

namespace BlockSync

namespace FileStore

variable {s t : FileStore} {l l' : Location} {path : String}

/-! ## Entries -/

theorem lookup_filter_ne (h : l' ≠ l) (entries : List (Location × Entry)) :
    (entries.filter (·.1 != l)).lookup l' = entries.lookup l' := by
  induction entries with
  | nil => rfl
  | cons entry entries ih =>
    obtain ⟨k, e⟩ := entry
    by_cases hk : k = l
    · subst hk
      rw [List.filter_cons_of_neg (by simp), ih, List.lookup_cons, beq_false_of_ne h]
    · rw [List.filter_cons_of_pos (by simpa using hk), List.lookup_cons, List.lookup_cons, ih]

theorem entry?_put_of_ne (s : FileStore) (e : Entry) (h : l' ≠ l) :
    FileStore.entry? (s.put l e) l' = s.entry? l' := by
  unfold entry? put
  simp only [List.lookup_cons, beq_false_of_ne h, lookup_filter_ne h]

theorem entry?_put_self (s : FileStore) (e : Entry) (h : l ≠ []) :
    FileStore.entry? (s.put l e) l = some e := by
  unfold entry? put
  simp only [List.lookup_cons, beq_self_eq_true, if_neg h]

/-- What was put somewhere before is gone. -/
theorem put_put (s : FileStore) (l : Location) (e e' : Entry) :
    FileStore.put (s.put l e) l e' = s.put l e' := by
  simp [put]

theorem content_put_of_ne (s : FileStore) (e : Entry) (h : l' ≠ l) :
    FileStore.content (s.put l e) l' = s.content l' := by
  rw [content, entry?_put_of_ne s e h, content]

/-! ## Paths -/

/-- No path leads through a file, so it does not matter to others what is in it. -/
theorem follow_put (hd : s.entry? l ≠ some .directory) (e : Entry) (making : Bool) {l₀ : Location}
    {names : List (List Char)} (h : s.follow making l₀ names = .ok l') :
    FileStore.follow (s.put l e) making l₀ names = .ok l' := by
  induction names generalizing l₀ with
  | nil => exact h
  | cons name names ih =>
    rw [follow] at h ⊢
    split at h
    · cases h
    · cases h
    · next hl₀ =>
      have hne : l₀ ≠ l := by
        rintro rfl
        exact hd hl₀
      rw [entry?_put_of_ne s e hne, hl₀]
      split at h
      · cases h
      · next hname =>
        exact ih h

theorem resolve_put (hd : s.entry? l ≠ some .directory) (e : Entry) (making : Bool)
    (h : s.resolve making path = .ok l') : FileStore.resolve (s.put l e) making path = .ok l' := by
  unfold resolve at h ⊢
  split at h
  · cases h
  · next hz =>
    rw [if_neg hz]
    split at h
    · cases h
    · next hl =>
      rw [if_neg hl]
      split at h
      · cases h
      · exact follow_put hd e making h
      · exact follow_put hd e making h

theorem openFile_put (hd : s.entry? l ≠ some .directory) (e : Entry)
    (h : s.openFile path = .ok l') (hne : l' ≠ l) : FileStore.openFile (s.put l e) path = .ok l' := by
  unfold openFile at h ⊢
  rcases hf : s.find path with f | l₀ <;> simp only [hf, bind, Except.bind] at h
  · cases h
  · split at h
    · next e' he =>
      cases h
      simp only [find, resolve_put hd e false hf, entry?_put_of_ne s e hne, he, bind, Except.bind]
      rfl
    · cases h

/-! ## Files that are made -/

/-- A file is made where its path leads, unless there is a directory. -/
theorem create_eq (h : s.create path = .ok (l, t)) :
    s.place path = .ok l ∧ t = s.put l (.file #[]) ∧ l ≠ [] := by
  unfold create at h
  rcases hp : s.place path with f | l₀ <;> rw [hp] at h
  · cases h
  · rcases he : s.entry? l₀ with _ | content | _ <;> simp only [bind, Except.bind, he] at h <;> cases h
    all_goals
      refine ⟨rfl, rfl, ?_⟩
      rintro rfl
      cases he

/-- Where there is a file one can be made. -/
theorem create_of_content {content : Array UInt8} (hp : s.place path = .ok l)
    (hc : s.content l = .ok content) : ∃ t, s.create path = .ok (l, t) := by
  refine ⟨s.put l (.file #[]), ?_⟩
  unfold FileStore.content at hc
  unfold create
  rcases he : s.entry? l with _ | bs | _ <;> rw [he] at hc
  · cases hc
  · simp only [hp, bind, Except.bind, he]
    rfl
  · cases hc

/-- What was made is empty, whatever was there before. -/
theorem content_of_create (h : s.create path = .ok (l, t)) : t.content l = .ok #[] := by
  obtain ⟨-, rfl, hne⟩ := create_eq h
  rw [content, entry?_put_self s _ hne]

/-- Everything else can be read as before. -/
theorem content_of_create_of_ne (h : s.create path = .ok (l, t)) (hne : l' ≠ l) :
    t.content l' = s.content l' := by
  obtain ⟨-, rfl, -⟩ := create_eq h
  exact content_put_of_ne s _ hne

theorem not_directory_of_create (h : s.create path = .ok (l, t)) : s.entry? l ≠ some .directory := by
  obtain ⟨hp, -, -⟩ := create_eq h
  intro he
  simp only [create, hp, bind, Except.bind, he] at h
  cases h

/-- What is in a file does not matter to what is made of it. -/
theorem create_put (h : s.create path = .ok (l, t)) (content : Array UInt8) :
    FileStore.create (s.put l (.file content)) path = .ok (l, t) := by
  obtain ⟨hp, rfl, hne⟩ := create_eq h
  have hplace : FileStore.place (s.put l (.file content)) path = .ok l :=
    resolve_put (not_directory_of_create h) _ true hp
  simp only [create, hplace, bind, Except.bind, entry?_put_self s _ hne, put_put]
  rfl

/-- What is written is what the file holds then. -/
theorem entry?_write_of_create (h : s.create path = .ok (l, t)) (content : Array UInt8) :
    FileStore.entry? (t.write l content) l = some (.file content) :=
  entry?_put_self t _ (create_eq h).2.2

/-- The stores differ at most where the path leads when a file is to be made. -/
def ChangesOnly (s t : FileStore) (path : String) : Prop :=
  ∀ l, s.place path ≠ .ok l → t.entry? l = s.entry? l

theorem ChangesOnly.refl (s : FileStore) (path : String) : s.ChangesOnly s path := fun _ _ => rfl

/-- **Nothing but the file that is made and written changes.** -/
theorem ChangesOnly.of_create (h : s.create path = .ok (l, t)) (content : Array UInt8) :
    s.ChangesOnly (t.write l content) path := by
  intro l' hl'
  obtain ⟨hplace, rfl, -⟩ := create_eq h
  have hne : l' ≠ l := by
    rintro rfl
    exact hl' hplace
  rw [write, entry?_put_of_ne _ _ hne, entry?_put_of_ne _ _ hne]

/-! ## Files that are read -/

theorem delivers_reader {content : Array UInt8} (h : s.content l = .ok content) :
    Source.Delivers (RawSource.mk (s.reader l)) ⟨content.toList, .ok ()⟩ := by
  have hr : s.reader l = .ofBytes content.toList := by simp only [reader, h]
  rw [hr]
  exact RawSource.delivers_ofBytes content.toList

/-- A file or directory that cannot be read delivers just that. -/
theorem delivers_unreadable {fault : Fault} (h : s.content l = .error fault) :
    Source.Delivers (RawSource.mk (s.reader l)) ⟨[], .error (.io fault)⟩ := by
  have hr : s.reader l = ⟨[.fault fault]⟩ := by simp only [reader, h]
  have hkind : fault.kind ≠ .interrupted := by
    unfold content at h
    split at h <;> cases h <;> decide
  have hflow : (RawSource.mk (s.reader l)).flow = ⟨[], .error (.io fault)⟩ := by
    rw [RawSource.flow, hr, Reader.flow, Reader.flowFrom, if_neg hkind]
    rfl
  rw [← hflow]
  exact RawSource.delivers _

theorem entry?_of_content {content : Array UInt8} (h : s.content l = .ok content) :
    s.entry? l = some (.file content) := by
  unfold FileStore.content at h
  split at h
  · next he =>
    cases h
    exact he
  · cases h
  · cases h

theorem shows_basis {content : Array UInt8} (h : s.content l = .ok content) :
    Basis.Shows (s.basis l) content.toList := by
  have hb : s.basis l = ⟨.ok content.size, .ok ⟨content⟩⟩ := by
    simp only [basis, extent, h, entry?_of_content h, Except.map]
  rw [hb]
  refine ⟨fun b bs => ∃ stored : StoredBasis, b = ⟨.ok stored.bytes.size, .ok stored⟩ ∧
    stored.bytes.toList = bs, ⟨?_, ?_⟩, ⟨content⟩, rfl, rfl⟩
  · rintro _ _ ⟨stored, rfl, rfl⟩
    exact ⟨⟨.ok stored.bytes.size, .ok stored⟩, by rw [Array.length_toList]; rfl, stored, rfl, rfl⟩
  · rintro _ bs ⟨stored, rfl, hbytes⟩ offset count hl
    obtain ⟨b', hread, -⟩ := StoredBasis.faithful.readAt hbytes hl
    have hread : stored.read offset count = .ok ((bs.drop offset).take count) := congrArg Prod.fst hread
    exact ⟨⟨.ok stored.bytes.size, .ok stored⟩, by simp only [Basis.readAt, Except.bind, hread], stored,
      rfl, hbytes⟩

/-- Of a directory the end is told, and nothing can be read. -/
def Listed (b : FileBasis) : Prop := ∃ fault, b = ⟨.ok directoryEnd, .error fault⟩

theorem mute_listed : Basis.Mute Listed directoryEnd where
  size h := by
    obtain ⟨fault, rfl⟩ := h
    exact ⟨rfl, fault, rfl⟩
  readAt h offset count := by
    obtain ⟨fault, rfl⟩ := h
    exact ⟨⟨fault, rfl⟩, fault, rfl⟩

theorem listed_basis (h : s.entry? l = some .directory) : Listed (s.basis l) :=
  ⟨.isADirectory, by simp only [basis, extent, content, h, Except.map]⟩

end FileStore

end BlockSync
