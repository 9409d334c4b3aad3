import PlanarMath.CommandLine.Files

/-!
# Contents of files

Making directories and opening a file for adding to it leave the content of every file as it was.  All that
opening adds is an empty file where there was none, and what a file holds can then be replaced without touching
any other (`content?_insert`).

    makeDirectory       no content changes
    openToAdd           none changes, except from nothing to empty at the place that is opened
-/

namespace PlanarMath.CommandLine.Files

/-- The content of the file at a place, if there is a file. -/
def content? (files : Files) (place : Path) : Option String :=
  match files.find? place with
  | some (.file content) => some content
  | _ => none

/-- Two states of the files in which every file has the same content. -/
def SameContents (files files' : Files) : Prop := ∀ place, files'.content? place = files.content? place

variable {files files' : Files} {place : Path} {entry : Entry}

/-! ## Setting an entry -/

theorem lookup_filter_of_ne {other : Path} (h : other ≠ place) :
    (files.filter (·.1 != place)).lookup other = files.lookup other := by
  induction files with
  | nil => rfl
  | cons e files ih =>
    obtain ⟨path, entry⟩ := e
    by_cases hp : path = place
    · rw [List.filter_cons_of_neg (by simp [hp]), ih, List.lookup_cons, hp, beq_eq_false_iff_ne.2 h]
    · rw [List.filter_cons_of_pos (by simp [hp]), List.lookup_cons, List.lookup_cons, ih]

theorem find?_insert_self (h : place.isFixed = false) : (files.insert place entry).find? place = some entry := by
  simp [find?, insert, h]

theorem find?_insert_of_ne {other : Path} (h : other ≠ place) :
    (files.insert place entry).find? other = files.find? other := by
  unfold find? insert
  rw [List.lookup_cons, beq_eq_false_iff_ne.2 h, lookup_filter_of_ne h]

/-- A place that nothing stands at is not one of those that are directories in any case. -/
theorem not_isFixed_of_find? (h : files.find? place ≠ some .directory) : place.isFixed = false := by
  unfold find? at h
  cases hf : place.isFixed with
  | false => rfl
  | true =>
    rw [hf] at h
    exact absurd rfl h

theorem content?_eq_some_iff {content : String} :
    files.content? place = some content ↔ files.find? place = some (.file content) := by
  unfold content?
  split
  · next c h => simp [h]
  · next h =>
    constructor
    · intro hc
      cases hc
    · intro hc
      exact absurd hc (h content)

theorem content?_of_find?_eq_none (h : files.find? place = none) : files.content? place = none := by
  unfold content?
  rw [h]

theorem content?_insert_self (h : place.isFixed = false) (content : String) :
    (files.insert place (.file content)).content? place = some content :=
  content?_eq_some_iff.2 (find?_insert_self h)

theorem content?_insert_of_ne {other : Path} (h : other ≠ place) :
    (files.insert place entry).content? other = files.content? other := by
  unfold content?
  rw [find?_insert_of_ne h]

/-- A directory where there was nothing changes the content of no file. -/
theorem sameContents_insert_directory (h : files.find? place = none) :
    SameContents files (files.insert place .directory) := by
  intro other
  by_cases ho : other = place
  · subst ho
    have hnot : other.isFixed = false := not_isFixed_of_find? (by rw [h]; nofun)
    rw [content?_of_find?_eq_none h]
    unfold content?
    rw [find?_insert_self hnot]
  · exact content?_insert_of_ne ho

/-! ## Making directories and opening files -/

theorem SameContents.refl (files : Files) : SameContents files files := fun _ => rfl

theorem SameContents.trans {last : Files} (h : SameContents files files') (h' : SameContents files' last) :
    SameContents files last := fun place => (h' place).trans (h place)

/-- Making a directory changes the content of no file, whether it succeeds or fails on the way. -/
theorem sameContents_makeDirectory (files : Files) (reversed : List String) :
    SameContents files (files.makeDirectory reversed).1 := by
  induction reversed generalizing files with
  | nil => exact .refl files
  | cons name above ih =>
    unfold makeDirectory
    -- `make` makes the last directory of the path, once those above it are there
    extract_lets path make
    have hmake : ∀ files : Files, SameContents files (make files).1 := by
      intro files
      unfold make
      split
      · exact .refl files
      · split
        · exact .refl files
        · exact .refl files
        · next hnone => exact sameContents_insert_directory hnone
    split
    · have habove := ih files
      split
      · next heq =>
        rw [heq] at habove
        exact habove
      · next heq =>
        rw [heq] at habove
        exact habove.trans (hmake _)
    · exact hmake files

/-- What opening a file for adding to it does: when it fails, the content of every file is as it was; when it
succeeds, there is a file at the place, empty if there was none, and all others are as they were. -/
structure Opened (files files' : Files) (place : Path) (content : String) : Prop where
  not_isFixed : place.isFixed = false
  content_eq : content = (files.content? place).getD ""
  content?_place : files'.content? place = some content
  content?_of_ne : ∀ other, other ≠ place → files'.content? other = files.content? other

theorem openToAdd_error {s : String} {e : FileError} (h : files.openToAdd s = (files', .error e)) :
    SameContents files files' := by
  have hdirectory := sameContents_makeDirectory files (Path.ofText s).reverse.tail
  unfold openToAdd at h
  simp only at h
  split at h
  · cases h
    exact .refl files
  · split at h
    · next heq =>
      cases h
      rwa [heq] at hdirectory
    · next opened heq =>
      rw [heq] at hdirectory
      split at h
      · cases h
        exact hdirectory
      · split at h
        · cases h
          exact hdirectory
        · split at h <;> cases h
          exact hdirectory

theorem openToAdd_ok {s content : String} (h : files.openToAdd s = (files', .ok (place, content))) :
    Opened files files' place content := by
  have hdirectory := sameContents_makeDirectory files (Path.ofText s).reverse.tail
  unfold openToAdd at h
  simp only at h
  split at h
  · cases h
  · split at h
    · cases h
    · next opened heq =>
      rw [heq] at hdirectory
      split at h
      · cases h
      · split at h
        · cases h
        · split at h
          · next found hfile =>
            cases h
            have hcontent := content?_eq_some_iff.2 hfile
            exact ⟨not_isFixed_of_find? (by rw [hfile]; nofun), by rw [← hdirectory, hcontent]; rfl, hcontent,
              fun other _ => hdirectory other⟩
          · cases h
          · next hnone =>
            cases h
            have hnot : place.isFixed = false := not_isFixed_of_find? (by rw [hnone]; nofun)
            refine ⟨hnot, ?_, content?_insert_self hnot "", fun other ho => ?_⟩
            · rw [← hdirectory, content?_of_find?_eq_none hnone]
              rfl
            · rw [content?_insert_of_ne ho, hdirectory]

end PlanarMath.CommandLine.Files
