import PlanarMath.FunctionTable.File
import PlanarMath.Proofs.Json.RoundTrip

/-!
# What function tables mean

A table is a list of entries of which the first has a word, and the first has a name.  A file gives the names
of words, from which the words of each name are gathered into one entry (`gather_eq`); since an object has a
key once, looking a word up gives back the name that the object has for it.

    {"f": "g", "h": "k", "i": "g"}      g: f, i      k: h

Which texts are objects is said by the grammar of JSON.  An integer of too many digits keeps the whole file from
being read, also where its key is written again behind it.
-/

namespace PlanarMath

open Json

/-- The first of some elements with a property. -/
def IsFirst {α : Type} (P : α → Prop) (xs : List α) (x : α) : Prop :=
  P x ∧ ∃ before after, xs = before ++ x :: after ∧ ∀ y ∈ before, ¬P y

namespace WordTable

/-! ## Looking up -/

section
variable {σ : Type} [DecidableEq σ] {t : WordTable σ} {s name : σ} {e : WordEntry σ}

theorem canonical_eq_some_iff : t.canonical s = some e ↔ IsFirst (fun e => e.name = s) t.entries e := by
  simp [canonical_eq, List.find?_eq_some_iff_append, IsFirst]

theorem canonical_eq_none_iff : t.canonical s = none ↔ ∀ e ∈ t.entries, e.name ≠ s := by
  simp [canonical_eq]

theorem inverse_eq_some_iff :
    t.inverse s = some name ↔ ∃ e, IsFirst (fun e => e.name = s) t.entries e ∧ e.inverse? = some name := by
  simp [inverse, Option.bind_eq_some_iff, canonical_eq_some_iff]

variable [EmptyCollection σ]

theorem lookup_eq_some_iff :
    t.lookup s = some name ↔ s ≠ ∅ ∧ ∃ e, IsFirst (fun e => s ∈ e.surfaces) t.entries e ∧ e.name = name := by
  rw [lookup_eq]
  split
  · next h => simp [h]
  · next h => simp [h, List.find?_eq_some_iff_append, IsFirst]

theorem lookup_eq_none_iff : t.lookup s = none ↔ s = ∅ ∨ ∀ e ∈ t.entries, s ∉ e.surfaces := by
  rw [lookup_eq]
  split
  · next h => simp [h]
  · next h => simp [h]

end

/-! ## Gathering words -/

section
variable {σ : Type} [DecidableEq σ]

/-- The entry of a name among words with their names. -/
def entryOf (pairs : List (σ × σ)) (name : σ) : WordEntry σ :=
  ⟨name, (pairs.filter (·.2 == name)).map (·.1), none⟩

theorem entryOf_name (pairs : List (σ × σ)) (name : σ) : (entryOf pairs name).name = name := rfl

variable {pairs : List (σ × σ)} {word name : σ} {names : List σ}

/-- A word goes to the entry of its name, -/
theorem entryOf_concat (pairs : List (σ × σ)) (word name : σ) :
    entryOf (pairs ++ [(word, name)]) name = ⟨name, (entryOf pairs name).surfaces ++ [word], none⟩ := by
  simp [entryOf]

/-- and to no other. -/
theorem entryOf_concat_of_ne {other : σ} (h : other ≠ name) (pairs : List (σ × σ)) (word : σ) :
    entryOf (pairs ++ [(word, name)]) other = entryOf pairs other := by
  simp [entryOf, List.filter_append, Ne.symm h]

/-- Adding a word adds it to the entry of its name, which may be a new one behind the others. -/
theorem addWord_map_entryOf (hnames : names.Nodup) (hnew : name ∉ names → ∀ p ∈ pairs, p.2 ≠ name) :
    addWord word name (names.map (entryOf pairs)) =
      (if name ∈ names then names else names ++ [name]).map (entryOf (pairs ++ [(word, name)])) := by
  induction names with
  | nil =>
    have hnone : pairs.filter (·.2 == name) = [] := by simpa using hnew List.not_mem_nil
    simp [addWord, entryOf, hnone]
  | cons other names ih =>
    obtain ⟨hother, hnames⟩ := List.nodup_cons.1 hnames
    rw [List.map_cons, addWord, entryOf_name]
    by_cases h : other = name
    · subst h
      have hrest : names.map (entryOf pairs) = names.map (entryOf (pairs ++ [(word, other)])) := by
        refine List.map_congr_left fun m hm => (entryOf_concat_of_ne ?_ pairs word).symm
        rintro rfl
        exact hother hm
      rw [if_pos rfl, if_pos List.mem_cons_self, List.map_cons, entryOf_concat, hrest]
      rfl
    · have hmem : name ∈ other :: names ↔ name ∈ names := by simp [Ne.symm h]
      rw [if_neg h, ih hnames fun hn => hnew (mt hmem.1 hn), ← entryOf_concat_of_ne h pairs word]
      simp only [hmem]
      split <;> rfl

/-- **Gathering.**  The entries that words with their names are gathered into, one for each name. -/
theorem gather_eq (pairs : List (σ × σ)) :
    pairs.foldl (fun es p => addWord p.1 p.2 es) [] = (pairs.map (·.2)).eraseDups.map (entryOf pairs) := by
  -- From the end: the last word goes to entries that are all there, or behind them.
  induction pairs using List.reverseRecOn with
  | nil => rfl
  | append_singleton pairs p ih =>
    have hnew : p.2 ∉ (pairs.map (·.2)).eraseDups → ∀ q ∈ pairs, q.2 ≠ p.2 := fun hnew q hq heq =>
      hnew (List.mem_eraseDups.2 (List.mem_map.2 ⟨q, hq, heq⟩))
    rw [List.foldl_concat, ih, addWord_map_entryOf (nodup_eraseDups _) hnew, List.map_append, List.map_singleton,
      eraseDups_concat]
    simp only [List.mem_eraseDups]

/-- The table of some words with their names. -/
def ofPairs (pairs : List (σ × σ)) : WordTable σ := ⟨(pairs.map (·.2)).eraseDups.map (entryOf pairs)⟩

theorem mem_surfaces_entryOf : word ∈ (entryOf pairs name).surfaces ↔ (word, name) ∈ pairs := by
  simp [entryOf]

theorem mem_entries_ofPairs {e : WordEntry σ} :
    e ∈ (ofPairs pairs).entries ↔ e.name ∈ pairs.map (·.2) ∧ e = entryOf pairs e.name := by
  rw [ofPairs, List.mem_map]
  simp only [List.mem_eraseDups]
  constructor
  · rintro ⟨name, hname, rfl⟩
    exact ⟨hname, rfl⟩
  · rintro ⟨hname, he⟩
    exact ⟨e.name, hname, he.symm⟩

theorem entryOf_mem (h : (word, name) ∈ pairs) : entryOf pairs name ∈ (ofPairs pairs).entries :=
  mem_entries_ofPairs.2 ⟨List.mem_map.2 ⟨_, h, rfl⟩, rfl⟩

/-- Where no word comes twice, looking one up gives its name back. -/
theorem lookup_ofPairs [EmptyCollection σ] (hwords : (pairs.map (·.1)).Nodup) :
    (ofPairs pairs).lookup word = some name ↔ word ≠ ∅ ∧ (word, name) ∈ pairs := by
  have hsound : ∀ {name}, (ofPairs pairs).lookup word = some name → word ≠ ∅ ∧ (word, name) ∈ pairs := by
    intro name h
    obtain ⟨hne, e, ⟨hword, before, after, hentries, -⟩, rfl⟩ := lookup_eq_some_iff.1 h
    have he : e ∈ (ofPairs pairs).entries := by simp [hentries]
    rw [(mem_entries_ofPairs.1 he).2, mem_surfaces_entryOf] at hword
    exact ⟨hne, hword⟩
  refine ⟨hsound, fun ⟨hne, hmem⟩ => ?_⟩
  cases hlookup : (ofPairs pairs).lookup word with
  | none =>
    have hnone := (lookup_eq_none_iff.1 hlookup).resolve_left hne _ (entryOf_mem hmem)
    exact absurd (mem_surfaces_entryOf.2 hmem) hnone
  | some other =>
    have heq : (word, other) = (word, name) := List.inj_on_of_nodup_map hwords (hsound hlookup).2 hmem rfl
    exact congrArg some (Prod.mk.inj heq).2

theorem canonical_ofPairs (h : (word, name) ∈ pairs) :
    (ofPairs pairs).canonical name = some (entryOf pairs name) := by
  cases hc : (ofPairs pairs).canonical name with
  | none => exact absurd rfl (canonical_eq_none_iff.1 hc _ (entryOf_mem h))
  | some e =>
    obtain ⟨rfl, before, after, hentries, -⟩ := canonical_eq_some_iff.1 hc
    have he : e ∈ (ofPairs pairs).entries := by simp [hentries]
    rw [← (mem_entries_ofPairs.1 he).2]

theorem inverse_ofPairs (pairs : List (σ × σ)) (name : σ) : (ofPairs pairs).inverse name = none := by
  refine Option.eq_none_iff_forall_ne_some.2 fun inverse h => ?_
  obtain ⟨e, ⟨-, before, after, hentries, -⟩, hinverse⟩ := inverse_eq_some_iff.1 h
  have he : e ∈ (ofPairs pairs).entries := by simp [hentries]
  rw [(mem_entries_ofPairs.1 he).2] at hinverse
  cases hinverse

theorem mem_names_ofPairs : name ∈ (ofPairs pairs).names ↔ ∃ word, (word, name) ∈ pairs := by
  rw [mem_names_iff]
  constructor
  · rintro ⟨e, he, rfl⟩
    obtain ⟨p, hp, hname⟩ := List.mem_map.1 (mem_entries_ofPairs.1 he).1
    exact ⟨p.1, hname ▸ hp⟩
  · rintro ⟨word, h⟩
    exact ⟨_, entryOf_mem h, rfl⟩

end

/-! ## Words and names of an object -/

open Text

/-- A key has a name: the value that is written last under it is a text, and not empty. -/
def IsNamed (raw : List (Points × Raw)) (key : Points) : Prop :=
  ∃ name, last? key raw = some (.text name) ∧ name ≠ ∅

/-- Adding the members of an object adds words with their names, or stops at the first that has none. -/
theorem addWords_cases (entries : List (WordEntry Points)) (ms : List (Points × Raw)) :
    (∃ pairs : List (Points × Points), ms = pairs.map (fun p => (p.1, .text p.2)) ∧ (∀ p ∈ pairs, p.2 ≠ ∅) ∧
      addWords entries ms = .ok (pairs.foldl (fun es p => addWord p.1 p.2 es) entries)) ∨
    ∃ before key v after, ms = before ++ (key, v) :: after ∧
      (∀ m ∈ before, ∃ name, m.2 = .text name ∧ name ≠ ∅) ∧ (∀ name, v = .text name → name = ∅) ∧
      addWords entries ms = .error (.badEntry key) := by
  fun_induction addWords entries ms with
  | case1 entries => exact .inl ⟨[], rfl, List.forall_mem_nil _, rfl⟩
  | case2 entries word ms =>
    refine .inr ⟨[], word, .text ∅, ms, rfl, List.forall_mem_nil _, ?_, rfl⟩
    rintro name ⟨⟩
    rfl
  | case3 entries word name ms hname ih =>
    obtain ⟨pairs, rfl, hpairs, h⟩ | ⟨before, key, v, after, rfl, hbefore, hv, h⟩ := ih
    · exact .inl ⟨(word, name) :: pairs, rfl, List.forall_mem_cons.2 ⟨hname, hpairs⟩, h⟩
    · exact .inr ⟨(word, .text name) :: before, key, v, after, rfl,
        List.forall_mem_cons.2 ⟨⟨name, rfl, hname⟩, hbefore⟩, hv, h⟩
  | case4 entries word v ms hv =>
    exact .inr ⟨[], word, v, ms, rfl, List.forall_mem_nil _, fun name h => absurd h (hv name), rfl⟩

/-- What a table means that comes from an object with the members `raw`, as they are written: each word has the
name that is written last for it, and each name the words that have it, in the order in which they come first. -/
structure Means (t : WordTable Points) (raw : List (Points × Raw)) : Prop where
  lookup : ∀ word name, t.lookup word = some name ↔ word ≠ ∅ ∧ last? word raw = some (.text name)
  names : ∀ name, name ∈ t.names ↔ ∃ word, last? word raw = some (.text name)
  canonical : ∀ name ∈ t.names, ∃ words, t.canonical name = some ⟨name, words, none⟩ ∧
    words.Sublist (keys raw) ∧ ∀ word, word ∈ words ↔ last? word raw = some (.text name)
  unknown : ∀ name, name ∉ t.names → t.canonical name = none
  inverse : ∀ name, t.inverse name = none

section
variable {raw : List (Points × Raw)} {pairs : List (Points × Points)}

theorem mem_pairs_iff (h : putAll [] raw = pairs.map fun p => (p.1, .text p.2)) {word name : Points} :
    (word, name) ∈ pairs ↔ last? word raw = some (.text name) := by
  rw [← mem_putAll, h]
  simp

theorem keys_eq_map_fst (h : putAll [] raw = pairs.map fun p => (p.1, .text p.2)) :
    keys raw = pairs.map (·.1) := by
  rw [← map_fst_putAll, h, List.map_map]
  rfl

theorem means_ofPairs (h : putAll [] raw = pairs.map fun p => (p.1, .text p.2)) : (ofPairs pairs).Means raw := by
  have hkeys := keys_eq_map_fst h
  have hwords : (pairs.map (·.1)).Nodup := hkeys ▸ nodup_keys raw
  refine ⟨fun word name => ?_, fun name => ?_, fun name hname => ?_, fun name hname => ?_, inverse_ofPairs pairs⟩
  · rw [lookup_ofPairs hwords, mem_pairs_iff h]
  · simp only [mem_names_ofPairs, mem_pairs_iff h]
  · obtain ⟨word, hword⟩ := mem_names_ofPairs.1 hname
    refine ⟨_, canonical_ofPairs hword, ?_, fun other => ?_⟩
    · rw [hkeys]
      exact List.filter_sublist.map _
    · rw [← mem_pairs_iff h]
      exact mem_surfaces_entryOf
  · refine canonical_eq_none_iff.2 fun e he hne => hname ?_
    exact mem_names_iff.2 ⟨e, he, hne⟩

/-- **Objects.**  The members of an object give the table of its words, or the first key without a name. -/
theorem ofRaw_object (raw : List (Points × Raw)) :
    (∃ t, ofRaw (.object raw) = .ok t ∧ t.Means raw ∧ ∀ key ∈ keys raw, IsNamed raw key) ∨
    ∃ before key after, keys raw = before ++ key :: after ∧ (∀ k ∈ before, IsNamed raw k) ∧ ¬IsNamed raw key ∧
      ofRaw (.object raw) = .error (.badEntry key) := by
  rw [ofRaw]
  obtain ⟨pairs, hms, hpairs, hadd⟩ | ⟨before, key, v, after, hms, hbefore, hv, hadd⟩ :=
    addWords_cases [] (putAll [] raw)
  · refine .inl ⟨ofPairs pairs, ?_, means_ofPairs hms, ?_⟩
    · rw [hadd, gather_eq]
      rfl
    · rw [keys_eq_map_fst hms]
      refine List.forall_mem_map.2 fun p hp => ⟨p.2, (mem_pairs_iff hms).1 hp, hpairs p hp⟩
  · refine .inr ⟨before.map (·.1), key, after.map (·.1), ?_, List.forall_mem_map.2 fun m hm => ?_, ?_, ?_⟩
    · rw [← map_fst_putAll, hms, List.map_append, List.map_cons]
    · obtain ⟨name, hname, hne⟩ := hbefore m hm
      refine ⟨name, mem_putAll.1 ?_, hne⟩
      rw [hms, ← hname]
      exact List.mem_append_left _ hm
    · rintro ⟨name, hlast, hne⟩
      have hvalue : last? key raw = some v := mem_putAll.1 (by rw [hms]; simp)
      exact hne (hv name (Option.some.inj (hvalue.symm.trans hlast)))
    · rw [hadd]
      rfl

/-- The content of a file with an object is read as the object, if all integers in it are short. -/
theorem ofText_of_denotes {content : String} (h : Denotes content (.object raw)) (hshort : Raw.membersAreShort raw) :
    ofText content = ofRaw (.object raw) := by
  rw [ofText, h.ofText_eq hshort]

theorem ofText_of_long {content : String} (h : Denotes content (.object raw))
    (hlong : Raw.membersAreShort raw = false) :
    ∃ count, ofText content = .error (.unreadable (.tooManyDigits count)) := by
  obtain ⟨count, he⟩ := h.tooManyDigits hlong
  exact ⟨count, by rw [ofText, he]⟩

end

/-- Only an object gives a table, and one with short integers. -/
theorem exists_denotes {content : String} {t : WordTable Points} (h : ofText content = .ok t) :
    ∃ raw, Denotes content (.object raw) ∧ Raw.membersAreShort raw := by
  unfold ofText at h
  split at h
  · cases h
  · next v hv =>
    cases v with
    | object raw => exact ⟨raw, ofText_eq_ok_iff.1 hv⟩
    | _ => cases h

/-- **Tables mean what they say.**  A word has the name of the first entry that lists it, unless it is empty, and a
name the entry that has it first, with its inverse.  The content of a file gives a table exactly if it is an object
without an integer that is too long, in which every key has a name; then words have the names that the object gives
them.  Otherwise, if it is an object, the complaint is about the first key without a name, unless an integer is too
long; then it is about that. -/
theorem tables_mean :
    (∀ {σ : Type} [DecidableEq σ] [EmptyCollection σ] (t : WordTable σ) (s : σ),
      (∀ name, t.lookup s = some name ↔
        s ≠ ∅ ∧ ∃ e, IsFirst (fun e => s ∈ e.surfaces) t.entries e ∧ e.name = name) ∧
      (t.lookup s = none ↔ s = ∅ ∨ ∀ e ∈ t.entries, s ∉ e.surfaces) ∧
      (∀ e, t.canonical s = some e ↔ IsFirst (fun e => e.name = s) t.entries e) ∧
      (t.canonical s = none ↔ ∀ e ∈ t.entries, e.name ≠ s) ∧
      ∀ name, t.inverse s = some name ↔
        ∃ e, IsFirst (fun e => e.name = s) t.entries e ∧ e.inverse? = some name) ∧
    ∀ content : String,
      ((∃ t, ofText content = .ok t) ↔ ∃ raw, Denotes content (.object raw) ∧ Raw.membersAreShort raw ∧
        ∀ key ∈ keys raw, IsNamed raw key) ∧
      ∀ raw, Denotes content (.object raw) →
        (∀ t, ofText content = .ok t → t.Means raw) ∧
        (Raw.membersAreShort raw → ∀ fault, ofText content = .error fault →
          ∃ before key after, keys raw = before ++ key :: after ∧ (∀ k ∈ before, IsNamed raw k) ∧
            ¬IsNamed raw key ∧ fault = .badEntry key ∧
            fault.message = "function table entry " ++ key.quoted ++ " must map to a non-empty string") ∧
        (Raw.membersAreShort raw = false →
          ∃ count, ofText content = .error (.unreadable (.tooManyDigits count))) := by
  refine ⟨fun t s => ⟨fun name => lookup_eq_some_iff, lookup_eq_none_iff, fun e => canonical_eq_some_iff,
    canonical_eq_none_iff, fun name => inverse_eq_some_iff⟩, fun content => ⟨?_, fun raw h => ⟨?_, ?_, ?_⟩⟩⟩
  · constructor
    · rintro ⟨t, ht⟩
      obtain ⟨raw, h, hshort⟩ := exists_denotes ht
      obtain ⟨-, -, -, hnamed⟩ | ⟨before, key, after, -, -, -, herror⟩ := ofRaw_object raw
      · exact ⟨raw, h, hshort, hnamed⟩
      · rw [ofText_of_denotes h hshort, herror] at ht
        cases ht
    · rintro ⟨raw, h, hshort, hnamed⟩
      rw [ofText_of_denotes h hshort]
      obtain ⟨t, ht, -⟩ | ⟨before, key, after, hkeys, -, hkey, -⟩ := ofRaw_object raw
      · exact ⟨t, ht⟩
      · exact absurd (hnamed key (by simp [hkeys])) hkey
  · intro t ht
    have hshort : Raw.membersAreShort raw := by
      cases hs : Raw.membersAreShort raw with
      | true => rfl
      | false =>
        obtain ⟨count, herror⟩ := ofText_of_long h hs
        rw [ht] at herror
        cases herror
    rw [ofText_of_denotes h hshort] at ht
    obtain ⟨t', ht', hmeans, -⟩ | ⟨before, key, after, -, -, -, herror⟩ := ofRaw_object raw
    · cases ht.symm.trans ht'
      exact hmeans
    · cases ht.symm.trans herror
  · intro hshort fault hfault
    rw [ofText_of_denotes h hshort] at hfault
    obtain ⟨t, ht, -⟩ | ⟨before, key, after, hkeys, hbefore, hkey, herror⟩ := ofRaw_object raw
    · cases hfault.symm.trans ht
    · cases hfault.symm.trans herror
      exact ⟨before, key, after, hkeys, hbefore, hkey, rfl, rfl⟩
  · exact ofText_of_long h

/-- Two words for one name, and a key that is written twice, the first time without a name. -/
theorem tables_mean_of_repeated :
    let members : List (String × Json) := [("f", .text "g"), ("h", .text ""), ("i", .text "g"), ("h", .text "k")]
    let raw := membersToRaw members
    let content := toText indented (.object members)
    Denotes content (.object raw) ∧ Raw.membersAreShort raw ∧ (∀ key ∈ keys raw, IsNamed raw key) ∧
      ∃ t, ofText content = .ok t ∧ t.Means raw ∧ t.lookup ("h" : String) = some ("k" : String) ∧
        ∃ words, t.canonical ("g" : String) = some ⟨("g" : String), words, none⟩ ∧
          words.Sublist (["f", "h", "i"].map Points.ofString) := by
  intro members raw content
  have hdenotes : Denotes content (.object raw) :=
    denotes_object isPlain_indented ⟨trivial, trivial, trivial, trivial, trivial⟩
  have hshort : Raw.membersAreShort raw := rfl
  have hkeys : keys raw = ["f", "h", "i"].map Points.ofString := by decide
  have hnamed : ∀ key ∈ keys raw, IsNamed raw key := by
    rw [hkeys]
    exact List.forall_mem_cons.2 ⟨⟨("g" : String), rfl, by decide⟩,
      List.forall_mem_cons.2 ⟨⟨("k" : String), rfl, by decide⟩,
        List.forall_mem_singleton.2 ⟨("g" : String), rfl, by decide⟩⟩⟩
  obtain ⟨hok, hfile⟩ := tables_mean.2 content
  obtain ⟨t, ht⟩ := hok.2 ⟨raw, hdenotes, hshort, hnamed⟩
  have hmeans := (hfile raw hdenotes).1 t ht
  have hg : Points.ofString "g" ∈ t.names := (hmeans.names _).2 ⟨("f" : String), rfl⟩
  obtain ⟨words, hcanonical, hsub, hwords⟩ := hmeans.canonical _ hg
  exact ⟨hdenotes, hshort, hnamed, t, ht, hmeans, (hmeans.lookup _ _).2 ⟨by decide, rfl⟩, words, hcanonical,
    hkeys ▸ hsub⟩

/-- An object in which every key has a name, but where an integer of too many digits is written first: it gives no
table. -/
theorem long_integer_hides_table :
    let digits := decimal (10 ^ Literal.digitLimit)
    let raw : List (Points × Raw) := [(("f" : String), .int (10 ^ Literal.digitLimit : Nat)),
      (("f" : String), .text ("g" : String))]
    let content := String.ofList ("\x7b\"f\": ".toList ++ digits ++ ", \"f\": \"g\"\x7d".toList)
    Denotes content (.object raw) ∧ (∀ key ∈ keys raw, IsNamed raw key) ∧
      ∃ count, ofText content = .error (.unreadable (.tooManyDigits count)) := by
  intro digits raw content
  have hblank : AreBlank [' '] := List.forall_mem_singleton.2 rfl
  have hf : IsString ['f'] (Points.ofString "f") := isString_flatMap ['f']
  have hlong : IsValue digits (.int (10 ^ Literal.digitLimit : Nat)) :=
    isValue_signedDecimal (10 ^ Literal.digitLimit : Nat)
  have hg : IsValue ['"', 'g', '"'] (.text (Points.ofString "g")) := isValue_writeText "g"
  have hmembers : AreMembers _ raw := .more areBlank_nil hf areBlank_nil hblank hlong areBlank_nil
    (.last hblank hf areBlank_nil hblank hg areBlank_nil)
  have hdenotes : Denotes content (.object raw) :=
    ⟨[], _, [], by simp [content], areBlank_nil, .members hmembers, areBlank_nil⟩
  refine ⟨hdenotes, ?_, ofText_of_long hdenotes ?_⟩
  · have hkeys : keys raw = [("f" : String)] := by decide
    rw [hkeys]
    exact List.forall_mem_singleton.2 ⟨("g" : String), rfl, by decide⟩
  · have hshort : Literal.isShort (10 ^ Literal.digitLimit : Nat) = false := Literal.isShort_power
    simp only [raw, Raw.membersAreShort, Raw.isShort, hshort, Bool.false_and]

end WordTable

end PlanarMath
