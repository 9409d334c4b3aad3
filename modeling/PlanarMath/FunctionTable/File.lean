import PlanarMath.FunctionTable.Basic
import PlanarMath.Json.Reader

/-!
# Function tables from files

A file gives a table as a JSON object from words to canonical names.  The words of one name are
gathered into one entry, which stands where the name came first; no inverses are known.

Words and names of a file are texts of code points.  For reading, only the words matter that are texts of
characters (`view`), since no row holds a half.  A name with a half can be the name of no symbol, as the empty
one, and is seen as that.
-/

namespace PlanarMath

namespace WordTable

open Text

/-- Why a file gives no table. -/
inductive FileError where
  /-- Its text is not JSON. -/
  | unreadable (e : Json.ReadError)
  /-- Its content is not an object. -/
  | notObject
  /-- The value of a word is no name. -/
  | badEntry (word : Points)
  deriving DecidableEq, Repr

/-- The wording of a fault of the content. -/
def FileError.message : FileError → String
  | .unreadable _ => "function table is not JSON"
  | .notObject => "function table must be a JSON object"
  | .badEntry word => "function table entry " ++ word.quoted ++ " must map to a non-empty string"

/-- The entries after a word was given a name. -/
def addWord {σ : Type} [DecidableEq σ] (word name : σ) : List (WordEntry σ) → List (WordEntry σ)
  | [] => [⟨name, [word], none⟩]
  | e :: es =>
    if e.name = name then ⟨e.name, e.surfaces ++ [word], e.inverse?⟩ :: es
    else e :: addWord word name es

/-- The entries after the words of an object were added, up to the first that has no name. -/
def addWords (entries : List (WordEntry Points)) :
    List (Points × Json.Raw) → Except FileError (List (WordEntry Points))
  | [] => .ok entries
  | (word, .text name) :: ms =>
    if name = ∅ then .error (.badEntry word) else addWords (addWord word name entries) ms
  | (word, _) :: _ => .error (.badEntry word)

/-- The table of a value as it is written; of the members under one key the last one counts. -/
def ofRaw : Json.Raw → Except FileError (WordTable Points)
  | .object ms => (addWords [] (Json.putAll [] ms)).map WordTable.mk
  | _ => .error .notObject

/-- The table of a file's content. -/
def ofText (s : String) : Except FileError (WordTable Points) :=
  match Json.Raw.ofText s with
  | .error e => .error (.unreadable e)
  | .ok v => ofRaw v

/-- A name as the name of a symbol. -/
def symbolName (name : Points) : String := name.toString?.getD ""

/-- A table as rows see it. -/
def view (t : WordTable Points) : FunctionTable where
  entries := t.entries.map fun e =>
    ⟨symbolName e.name, e.surfaces.filterMap Points.toString?, e.inverse?.map symbolName⟩

/-! ## Lemmas -/

/-- What is kept of a list holds what it is kept for. -/
theorem contains_filterMap {σ τ : Type} [DecidableEq σ] [DecidableEq τ] {f : σ → Option τ} {g : τ → σ}
    (h : ∀ {a b}, f a = some b ↔ a = g b) (xs : List σ) (b : τ) :
    (xs.filterMap f).contains b = xs.contains (g b) := by
  rw [Bool.eq_iff_iff, List.contains_iff_mem, List.contains_iff_mem, List.mem_filterMap]
  constructor
  · rintro ⟨a, ha, hb⟩
    rwa [← h.1 hb]
  · exact fun hb => ⟨g b, hb, h.2 rfl⟩

/-- A text of characters is looked up in a table as rows see it. -/
theorem lookup_view (t : WordTable Points) (word : String) :
    t.view.lookup word = (t.lookup (word : Points)).map symbolName := by
  have hempty : ((word : Points) = ∅) ↔ word = ∅ := by
    have h : (∅ : Points) = Points.ofString ∅ := rfl
    rw [h, Points.ofString_inj]
  rw [lookup_eq, lookup_eq, view, List.find?_map]
  by_cases h : word = ∅
  · rw [if_pos h, if_pos (hempty.2 h)]
    rfl
  · rw [if_neg h, if_neg (mt hempty.1 h)]
    simp only [Function.comp_def, contains_filterMap Points.toString?_eq_some_iff, Option.map_map]

end WordTable

/-- The table of a file's content, for reading. -/
def FunctionTable.ofText (s : String) : Except WordTable.FileError FunctionTable :=
  (WordTable.ofText s).map WordTable.view

end PlanarMath
