import BlockSync.Files.Path

/-!
# Paths of outputs

* `Path.Splits`: a path that ends with a name;
* `Path.toList_replaceExtension`: its name without what follows the last dot, and another extension;
* **`Path.replaceExtension_eq_self_iff`**: that is the same path just if its name has the extension
  already;
* `Path.withSuffix_ne_self`: a path with something appended is never the same.
-/

namespace BlockSync.Path

variable {path extension : String} {directory name : List Char}

/-- A path ends with a name, behind the slash of a directory if there is one. -/
structure Splits (path : String) (directory name : List Char) : Prop where
  path : path.toList = directory ++ name
  name_ne_nil : name ≠ []
  /-- The name is not one of those that stand for a directory. -/
  name_ne_dots : name ≠ ['.'] ∧ name ≠ ['.', '.']
  name_plain : '/' ∉ name
  directory : directory = [] ∨ ∃ before, directory = before ++ ['/']

/-- What is before the name does not reach into it. -/
theorem trimEnd_of_splits (h : Splits path directory name) :
    trimEnd (name.reverse ++ directory.reverse) = name.reverse ++ directory.reverse := by
  have hplain : '/' ∉ name.reverse := fun hm => h.name_plain (List.mem_reverse.mp hm)
  rcases hr : name.reverse with _ | ⟨c, cs⟩
  · exact absurd (List.reverse_eq_nil_iff.mp hr) h.name_ne_nil
  rw [hr] at hplain
  have hc : c ≠ '/' := fun hc => hplain (hc ▸ List.mem_cons_self)
  unfold trimEnd
  split
  · next heq =>
    cases heq
    exact absurd rfl hc
  · next rest heq =>
    -- a single dot before a slash is not the name
    rcases cs with _ | ⟨d, cs⟩
    · obtain ⟨rfl, -⟩ := List.cons.inj heq
      exact absurd (List.reverse_eq_iff.mp hr : name = ['.']) h.name_ne_dots.1
    · obtain ⟨-, heq⟩ := List.cons.inj heq
      obtain ⟨rfl, -⟩ := List.cons.inj heq
      exact absurd (by simp) hplain
  · rfl

theorem takeWhile_of_splits (h : Splits path directory name) :
    (name.reverse ++ directory.reverse).takeWhile (· != '/') = name.reverse ∧
      (name.reverse ++ directory.reverse).dropWhile (· != '/') = directory.reverse := by
  have hall : ∀ c ∈ name.reverse, (c != '/') = true := by
    intro c hc
    rw [bne_iff_ne]
    rintro rfl
    exact h.name_plain (List.mem_reverse.mp hc)
  rw [List.takeWhile_append_of_pos hall, List.dropWhile_append_of_pos hall]
  rcases h.directory with rfl | ⟨before, rfl⟩ <;> simp

/-- A name without its extension is not empty. -/
theorem stem_ne_nil {name : List Char} (h : name ≠ []) : stem name ≠ [] := by
  unfold stem
  split
  · exact h
  · exact h
  · next c before hne heq =>
    rintro rfl
    have hdot := List.head_dropWhile_not (· != '.') (by rw [heq]; exact List.cons_ne_nil _ _)
    simp only [heq, List.head_cons] at hdot
    exact hne (by simpa using hdot) rfl

/-- The extension is what follows the last dot, unless the name starts there. -/
theorem stem_of_extension {base extension : List Char} (hbase : base ≠ []) (hdot : '.' ∉ extension) :
    stem (base ++ '.' :: extension).reverse = base.reverse := by
  have hall : ∀ c ∈ extension.reverse, (c != '.') = true := by
    intro c hc
    rw [bne_iff_ne]
    rintro rfl
    exact hdot (List.mem_reverse.mp hc)
  have hrev : (base ++ '.' :: extension).reverse = extension.reverse ++ '.' :: base.reverse := by simp
  have hdrop : (extension.reverse ++ '.' :: base.reverse).dropWhile (· != '.') =
      '.' :: base.reverse := by
    rw [List.dropWhile_append_of_pos hall]
    simp
  rw [stem, hrev, hdrop]
  split
  · next heq => cases heq
  · next heq => exact absurd (by simpa using heq) hbase
  · next heq =>
    cases heq
    rfl

theorem toList_replaceExtension (h : Splits path directory name) (extension : String) :
    (replaceExtension path extension).toList =
      directory ++ (stem name.reverse).reverse ++ '.' :: extension.toList := by
  have hrev : path.toList.reverse = name.reverse ++ directory.reverse := by
    rw [h.path, List.reverse_append]
  obtain ⟨htake, hdrop⟩ := takeWhile_of_splits h
  unfold replaceExtension
  simp only [hrev, trimEnd_of_splits h, htake, hdrop]
  rw [if_neg]
  · simp [String.toList_append]
  · rintro (hc | hc | hc)
    · exact h.name_ne_nil (by simpa using hc)
    · exact h.name_ne_dots.1 (List.reverse_eq_iff.mp hc)
    · exact h.name_ne_dots.2 (List.reverse_eq_iff.mp hc)

/-- **The path with another extension is the path itself just if its name has that extension.** -/
theorem replaceExtension_eq_self_iff (h : Splits path directory name)
    (hdot : '.' ∉ extension.toList) : replaceExtension path extension = path ↔
      ∃ base, base ≠ [] ∧ name = base ++ '.' :: extension.toList := by
  rw [← String.toList_inj, toList_replaceExtension h, h.path, List.append_assoc,
    List.append_cancel_left_eq]
  constructor
  · intro heq
    refine ⟨(stem name.reverse).reverse, ?_, heq.symm⟩
    rw [ne_eq, List.reverse_eq_nil_iff]
    exact stem_ne_nil (by simpa using h.name_ne_nil)
  · rintro ⟨base, hbase, rfl⟩
    rw [stem_of_extension hbase hdot, List.reverse_reverse]

theorem withSuffix_ne_self {suffix : String} (h : suffix ≠ "") : withSuffix path suffix ≠ path := by
  intro heq
  have hlist := congrArg String.toList heq
  rw [withSuffix, String.toList_append, List.append_right_eq_self] at hlist
  exact h (String.toList_inj.mp hlist)

end BlockSync.Path
