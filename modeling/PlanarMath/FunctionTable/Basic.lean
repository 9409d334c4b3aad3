/-!
# Function tables

Which words name functions.  An entry has a canonical name, the words that stand for it (its surfaces),
and perhaps the name of its inverse.  Words are looked up exactly, letter case included; of two entries
that claim a word, or a name, the first one has it.

    entries              f: "f", "F"      g: "g", "F", ""
    words                "f" of f         "F" of f         "g" of g

Words are texts of characters in a table that is used for reading (`FunctionTable`).  The words of a file
may be of another kind.
-/

namespace PlanarMath

/-- The empty text. -/
instance emptyText : EmptyCollection String := ⟨""⟩

/-- A function and the words that stand for it. -/
structure WordEntry (σ : Type) where
  name : σ
  surfaces : List σ
  inverse? : Option σ
  deriving DecidableEq, Repr

/-- A list of entries, in order of precedence. -/
structure WordTable (σ : Type) where
  entries : List (WordEntry σ)
  deriving DecidableEq, Repr

/-- A function and the texts that stand for it. -/
abbrev FunctionEntry := WordEntry String

/-- A table of the texts that stand for functions. -/
abbrev FunctionTable := WordTable String

namespace WordTable

variable {σ : Type} [DecidableEq σ]

/-! ## Dictionaries -/

/-- A dictionary of entries after an entry claimed a word, which it gets unless the word has an entry. -/
def claim (word : σ) (e : WordEntry σ) (d : List (σ × WordEntry σ)) : List (σ × WordEntry σ) :=
  match d.lookup word with
  | some _ => d
  | none => d ++ [(word, e)]

/-- A dictionary after an entry claimed all its words but the empty one. -/
def claimSurfaces [EmptyCollection σ] (d : List (σ × WordEntry σ)) (e : WordEntry σ) : List (σ × WordEntry σ) :=
  e.surfaces.foldl (fun d word => if word = ∅ then d else claim word e d) d

/-- The words of a table with the entries that have them. -/
def bySurface [EmptyCollection σ] (t : WordTable σ) : List (σ × WordEntry σ) := t.entries.foldl claimSurfaces []

/-- The canonical names of a table with the entries that have them. -/
def byName (t : WordTable σ) : List (σ × WordEntry σ) := t.entries.foldl (fun d e => claim e.name e d) []

/-! ## Looking up -/

/-- The canonical name of a word; the empty word names nothing. -/
def lookup [EmptyCollection σ] (t : WordTable σ) (word : σ) : Option σ := (t.bySurface.lookup word).map (·.name)

/-- The entry of a canonical name. -/
def canonical (t : WordTable σ) (name : σ) : Option (WordEntry σ) := t.byName.lookup name

/-- The name of the inverse of a function, when one is known. -/
def inverse (t : WordTable σ) (name : σ) : Option σ := (t.canonical name).bind (·.inverse?)

/-- The canonical names, each once. -/
def names (t : WordTable σ) : List σ := t.byName.map (·.1)

/-! ## Lemmas -/

section
variable {word name : σ} {e : WordEntry σ} {d : List (σ × WordEntry σ)} {entries : List (WordEntry σ)}

theorem lookup_claim (word other : σ) (e : WordEntry σ) (d : List (σ × WordEntry σ)) :
    (claim word e d).lookup other = (d.lookup other).or (if other = word then some e else none) := by
  unfold claim
  by_cases h : other = word
  · subst h
    cases hd : d.lookup other with
    | none => simp [hd, List.lookup_append]
    | some e' => simp [hd]
  · have hother : [(word, e)].lookup other = none := by
      simp [List.lookup_cons, beq_false_of_ne h]
    rw [if_neg h, Option.or_none]
    split
    · rfl
    · rw [List.lookup_append, hother, Option.or_none]

variable [EmptyCollection σ]

theorem lookup_claimSurfaces (word : σ) (e : WordEntry σ) (d : List (σ × WordEntry σ)) :
    (claimSurfaces d e).lookup word =
      (d.lookup word).or (if word ≠ ∅ ∧ word ∈ e.surfaces then some e else none) := by
  have key : ∀ (words : List σ) (d : List (σ × WordEntry σ)),
      (words.foldl (fun d word => if word = ∅ then d else claim word e d) d).lookup word =
        (d.lookup word).or (if word ≠ ∅ ∧ word ∈ words then some e else none) := by
    intro words
    induction words with
    | nil => simp
    | cons w words ih =>
      intro d
      rw [List.foldl_cons, ih]
      by_cases hw : w = ∅
      · subst hw
        by_cases hword : word = ∅ <;> simp [hword]
      · rw [if_neg hw, lookup_claim, Option.or_assoc]
        refine congrArg _ ?_
        by_cases h : word = w
        · simp [h, hw]
        · simp [h]
  exact key e.surfaces d

/-- A word has the entry that lists it first. -/
theorem lookup_bySurface (t : WordTable σ) (word : σ) : t.bySurface.lookup word =
    if word = ∅ then none else t.entries.find? (·.surfaces.contains word) := by
  have key : ∀ (entries : List (WordEntry σ)) (d : List (σ × WordEntry σ)),
      (entries.foldl claimSurfaces d).lookup word =
        (d.lookup word).or (if word = ∅ then none else entries.find? (·.surfaces.contains word)) := by
    intro entries
    induction entries with
    | nil => simp
    | cons e entries ih =>
      intro d
      rw [List.foldl_cons, ih, lookup_claimSurfaces, Option.or_assoc, List.find?_cons]
      refine congrArg _ ?_
      by_cases hne : word = ∅
      · simp [hne]
      · by_cases hmem : word ∈ e.surfaces
        · simp [hne, hmem]
        · simp [hne, hmem]
  exact key t.entries []

theorem lookup_eq (t : WordTable σ) (word : σ) : t.lookup word =
    if word = ∅ then none else (t.entries.find? (·.surfaces.contains word)).map (·.name) := by
  rw [lookup, lookup_bySurface]
  split <;> rfl

theorem lookup_empty (t : WordTable σ) : t.lookup ∅ = none := by rw [lookup_eq, if_pos rfl]

omit [EmptyCollection σ] in
/-- A name has the entry that has it first. -/
theorem canonical_eq (t : WordTable σ) (name : σ) : t.canonical name = t.entries.find? (·.name == name) := by
  have key : ∀ (entries : List (WordEntry σ)) (d : List (σ × WordEntry σ)),
      (entries.foldl (fun d e => claim e.name e d) d).lookup name =
        (d.lookup name).or (entries.find? (·.name == name)) := by
    intro entries
    induction entries with
    | nil => simp
    | cons e entries ih =>
      intro d
      rw [List.foldl_cons, ih, lookup_claim, Option.or_assoc, List.find?_cons]
      refine congrArg _ ?_
      by_cases h : name = e.name
      · simp [h]
      · simp [h, beq_false_of_ne (Ne.symm h)]
  exact key t.entries []

omit [EmptyCollection σ] in
theorem mem_names_iff {t : WordTable σ} : name ∈ t.names ↔ ∃ e ∈ t.entries, e.name = name := by
  have hlookup : ∀ d : List (σ × WordEntry σ), name ∈ d.map (·.1) ↔ (d.lookup name).isSome := by
    intro d
    induction d with
    | nil => simp
    | cons p d ih =>
      obtain ⟨k, e⟩ := p
      rw [List.map_cons, List.mem_cons, ih, List.lookup_cons]
      by_cases h : name = k
      · simp [h]
      · simp [h, beq_false_of_ne h]
  have hname : (t.byName.lookup name).isSome ↔ ∃ e ∈ t.entries, e.name = name := by
    change (t.canonical name).isSome ↔ _
    rw [canonical_eq, List.find?_isSome]
    simp
  rw [names, hlookup, hname]

end

end WordTable

namespace FunctionTable

/-! ## The longest word -/

/-- What is known of a text as far as it has been read (`text`): the longest word of a dictionary that it starts
with, as its length and canonical name.  The rest is read to its end, and a longer word replaces a shorter one. -/
def scan (d : List (String × FunctionEntry)) (text : List Char) (best : Option (Nat × String)) :
    List Char → Option (Nat × String)
  | [] => best
  | c :: cs =>
    let text := text ++ [c]
    match d.lookup (String.ofList text) with
    | some e => scan d text (some (text.length, e.name)) cs
    | none => scan d text best cs

/-- The longest word of the table that a text starts with, as its length and canonical name. -/
def longestWord? (t : FunctionTable) (cs : List Char) : Option (Nat × String) := scan t.bySurface [] none cs

/-! ## The standard table -/

/-- An entry whose name is one of its surfaces. -/
def entry (name : String) (aliases : List String) (inverse? : Option String) : FunctionEntry :=
  ⟨name, name :: aliases, inverse?⟩

/-- The elementary functions under their usual names. -/
def standard : FunctionTable where
  entries :=
    [entry "sin" [] (some "asin"),
     entry "cos" [] (some "acos"),
     entry "tan" [] (some "atan"),
     entry "sec" [] (some "asec"),
     entry "csc" ["cosec"] (some "acsc"),
     entry "cot" [] (some "acot"),
     entry "asin" ["arcsin"] (some "sin"),
     entry "acos" ["arccos"] (some "cos"),
     entry "atan" ["arctan"] (some "tan"),
     entry "asec" ["arcsec"] (some "sec"),
     entry "acsc" ["arccsc"] (some "csc"),
     entry "acot" ["arccot"] (some "cot"),
     entry "sinh" [] (some "asinh"),
     entry "cosh" [] (some "acosh"),
     entry "tanh" [] (some "atanh"),
     entry "asinh" ["arsinh", "arcsinh"] (some "sinh"),
     entry "acosh" ["arcosh", "arccosh"] (some "cosh"),
     entry "atanh" ["artanh", "arctanh"] (some "tanh"),
     entry "ln" [] (some "exp"),
     entry "log" [] none,
     entry "exp" [] (some "ln"),
     entry "sqrt" [] none,
     entry "abs" [] none,
     entry "ceil" [] none,
     entry "floor" [] none,
     entry "max" [] none,
     entry "min" [] none,
     entry "gcd" [] none,
     entry "lcm" [] none]

end FunctionTable

end PlanarMath
