import PlanarMath.Proofs.Layout.RoundTrip
import PlanarMath.Proofs.Schema.Faults

/-!
# What is taken for a layout, and what is reported otherwise

The schema of layouts as two pairs of relations on JSON: `Described` relates a value to the layout that it
describes, `FaultAt` relates it to its faults, place by place.  Neither follows the order in which a value is
checked.  The check of a row accounts for both (`Row.accounts`): it takes what describes a row, and of
everything else it reports every fault once, in the order of the document (`Row.ofJson_reports`).

A rule about a construct as a whole, its number of containers, is a fault only where the kind and all
containers are sound; so `FaultAt` refers to `Described`, at any depth, and not the other way round.
-/

namespace PlanarMath.Layout

open Schema

/-! ## The schema -/

mutual

/-- The row that a value describes. -/
inductive Row.Described : Json → Row → Prop
  | bare {ms} : Json.member? "children" ms = none → Row.Described (.object ms) []
  | listed {ms items r} : Json.member? "children" ms = some (.array items) →
      List.Forall₂ Element.Described items r → Row.Described (.object ms) r

/-- The element that a value describes. -/
inductive Element.Described : Json → Element → Prop
  | glyph {ms c} : Json.member? "element" ms = some (.text "char") →
      Json.member? "code_point" ms = some (.text (String.singleton c)) → Element.Described (.object ms) (.glyph c)
  | construct {ms kind items e} : Json.member? "element" ms = some (.text "special") →
      Json.member? "kind" ms = some (.text (Kind.text kind)) →
      Json.member? "containers" ms = some (.array items) → items.length = kind.containerCount →
      e.kind? = some kind → List.Forall₂ Row.Described items e.containers → Element.Described (.object ms) e

end

/-- The fault of a value that is no single character, at the value itself. -/
def CodePointFault (v : Json) (path : List Step) (cause : Cause) : Prop := path = [] ∧ NotCharacter v cause

/-- The fault of a value that is the name of no kind, at the value itself. -/
def KindFault (v : Json) (path : List Step) (cause : Cause) : Prop :=
  path = [] ∧ cause = .unknownName ∧ ∀ kind : Kind, v ≠ .text kind.text

mutual

/-- The faults of a value that should describe a row. -/
inductive Row.FaultAt : Json → List Step → Cause → Prop
  | notRecord {v} : (∀ ms, v ≠ .object ms) → Row.FaultAt v [] .notRecord
  | children {ms v path cause} : Json.member? "children" ms = some v → InList Element.FaultAt v path cause →
      Row.FaultAt (.object ms) (.key "children" :: path) cause

/-- The faults of a value that should describe an element. -/
inductive Element.FaultAt : Json → List Step → Cause → Prop
  | notTagged {v} : (∀ ms, v ≠ .object ms) → Element.FaultAt v [] .notTagged
  | noTag {ms} : Json.member? "element" ms = none → Element.FaultAt (.object ms) [] .noTag
  | unknownTag {ms tag} : Json.member? "element" ms = some tag → tag ≠ .text "char" →
      tag ≠ .text "special" → Element.FaultAt (.object ms) [] .unknownTag
  | codePoint {ms path cause} : Json.member? "element" ms = some (.text "char") →
      InField "code_point" CodePointFault (.object ms) path cause →
      Element.FaultAt (.object ms) (.key "char" :: path) cause
  | kind {ms path cause} : Json.member? "element" ms = some (.text "special") →
      InField "kind" KindFault (.object ms) path cause →
      Element.FaultAt (.object ms) (.key "special" :: path) cause
  | containers {ms path cause} : Json.member? "element" ms = some (.text "special") →
      InField "containers" (InList Row.FaultAt) (.object ms) path cause →
      Element.FaultAt (.object ms) (.key "special" :: path) cause
  /-- The wrong number of containers, of a known kind and all sound. -/
  | containerCount {ms kind items rows} : Json.member? "element" ms = some (.text "special") →
      Json.member? "kind" ms = some (.text (Kind.text kind)) →
      Json.member? "containers" ms = some (.array items) → List.Forall₂ Row.Described items rows →
      items.length ≠ kind.containerCount →
      Element.FaultAt (.object ms) [.key "special"] (.broken (.containerCount kind items.length))

end

/-! ## The order of the document -/

/-- The fields of the records of a layout, those of one record in the order of their declaration. -/
def fieldOrder : List String := ["element", "code_point", "kind", "containers", "children"]

/-- Which of two steps from one place comes first. -/
inductive StepBefore : Step → Step → Prop
  | index {i j} : i < j → StepBefore (.index i) (.index j)
  | field {a b} : fieldOrder.idxOf a < fieldOrder.idxOf b → StepBefore (.key a) (.key b)

instance : Std.Asymm StepBefore where
  asymm := by
    rintro _ _ (h | h) (k | k) <;> omega

/-! ## The check of a record -/

theorem rowOfMembers_eq (ms : List (String × Json)) : rowOfMembers ms = match Json.member? "children" ms with
    | none => .ok []
    | some v => inside (.key "children") (childrenOfJson v) := by
  induction ms with
  | nil => rfl
  | cons m ms ih => grind [Json.member?, rowOfMembers]

theorem elementsOfJson_eq (i : Nat) (vs : List Json) : elementsOfJson i vs = each Element.ofJson i vs := by
  induction vs generalizing i with
  | nil => rw [elementsOfJson, each]
  | cons v vs ih => rw [elementsOfJson, each, ih]

theorem rowsOfJson_eq (i : Nat) (vs : List Json) : rowsOfJson i vs = each Row.ofJson i vs := by
  induction vs generalizing i with
  | nil => rw [rowsOfJson, each]
  | cons v vs ih => rw [rowsOfJson, each, ih]

theorem childrenOfJson_eq (v : Json) : childrenOfJson v = listOf Element.ofJson v := by
  cases v <;> simp only [childrenOfJson, listOf, elementsOfJson_eq]

theorem containersOfJson_eq (v : Json) : containersOfJson v = listOf Row.ofJson v := by
  cases v <;> simp only [containersOfJson, listOf, rowsOfJson_eq]

theorem containersOfMembers_of_missing {ms : List (String × Json)} (h : Json.member? "containers" ms = none) :
    containersOfMembers ms = fault .missing := by
  induction ms with
  | nil => rfl
  | cons m ms ih => grind [Json.member?, containersOfMembers]

/-- The containers are a field like any other. -/
theorem inside_containersOfMembers (ms : List (String × Json)) :
    inside (.key "containers") (containersOfMembers ms) = field "containers" (listOf Row.ofJson) ms := by
  unfold field
  cases h : Json.member? "containers" ms with
  | none => rw [containersOfMembers_of_missing h]
  | some v => rw [containersOfMembers_eq h, containersOfJson_eq]

theorem Kind.ofText?_eq_some_iff {s : String} {kind : Kind} : Kind.ofText? s = some kind ↔ s = kind.text := by
  constructor
  · intro h
    have hbeq : (kind.text == s) = true := List.find?_some (p := fun k : Kind => k.text == s) h
    exact (beq_iff_eq.1 hbeq).symm
  · rintro rfl
    exact kind.ofText?_text

variable {ms : List (String × Json)}

theorem accounts_kind (ms : List (String × Json)) : Accounts StepBefore (field "kind" (oneOf Kind.ofText?) ms)
    (fun kind => ∃ v, Json.member? "kind" ms = some v ∧ v = .text kind.text)
    (InField "kind" KindFault (.object ms)) :=
  .field fun v _ => .oneOf (fun _ _ => Kind.ofText?_eq_some_iff) v

theorem accounts_glyph (ms : List (String × Json)) : Accounts StepBefore (glyphOfMembers ms)
    (fun e => ∃ c, (∃ v, Json.member? "code_point" ms = some v ∧ v = .text (String.singleton c)) ∧ .glyph c = e)
    (InField "code_point" CodePointFault (.object ms)) :=
  (Accounts.field fun v _ => .character v).map _

theorem Kind.frame?_eq_none_iff {kind : Kind} : kind.frame? = none ↔ kind = .fraction := by
  cases kind <;> simp [Kind.frame?]

theorem Kind.frame?_eq_some_iff {kind : Kind} {frame : Frame} : kind.frame? = some frame ↔ frame.kind = kind := by
  constructor
  · intro h
    cases kind <;> cases h <;> rfl
  · rintro rfl
    exact frame.frame?_kind

theorem ofContainers_eq_ok_iff {kind : Kind} {rows : List Row} {e : Element} :
    Element.ofContainers kind rows = .ok e ↔ e.kind? = some kind ∧ e.containers = rows := by
  constructor
  · intro h
    unfold Element.ofContainers at h
    split at h
    · next hframe =>
      cases h
      exact ⟨congrArg some (Kind.frame?_eq_none_iff.1 hframe).symm, rfl⟩
    · next hframe =>
      cases h
      exact ⟨congrArg some (Kind.frame?_eq_some_iff.1 hframe), rfl⟩
    · cases h
  · rintro ⟨hkind, rfl⟩
    cases e with
    | glyph c => cases hkind
    | fraction above below =>
      cases hkind
      rfl
    | framed frame body =>
      cases hkind
      simp only [Element.ofContainers, frame.frame?_kind, Element.containers]

theorem exists_ofContainers_eq {kind : Kind} {rows : List Row} (h : rows.length = kind.containerCount) :
    ∃ e, Element.ofContainers kind rows = .ok e := by
  cases hframe : kind.frame? with
  | none =>
    obtain rfl := Kind.frame?_eq_none_iff.1 hframe
    obtain ⟨above, below, rfl⟩ := List.length_eq_two.1 h
    exact ⟨_, rfl⟩
  | some frame =>
    obtain rfl := Kind.frame?_eq_some_iff.1 hframe
    obtain ⟨body, rfl⟩ := List.length_eq_one_iff.1 (h.trans (by cases frame <;> rfl))
    exact ⟨.framed frame body, ofContainers_eq_ok_iff.2 ⟨rfl, rfl⟩⟩

theorem ofContainers_of_ne {kind : Kind} {rows : List Row} (h : rows.length ≠ kind.containerCount) :
    Element.ofContainers kind rows = fault (.broken (.containerCount kind rows.length)) := by
  unfold Element.ofContainers
  split
  · next hframe =>
    obtain rfl := Kind.frame?_eq_none_iff.1 hframe
    exact absurd rfl h
  · next frame _ hframe =>
    obtain rfl := Kind.frame?_eq_some_iff.1 hframe
    exact absurd (by cases frame <;> rfl) h
  · rfl

/-- A construct is made of as many containers as its kind asks for. -/
theorem accounts_ofContainers (kind : Kind) (rows : List Row) : Accounts StepBefore (Element.ofContainers kind rows)
    (fun e => e.kind? = some kind ∧ e.containers = rows)
    (fun path cause => path = [] ∧ cause = .broken (.containerCount kind rows.length) ∧
      rows.length ≠ kind.containerCount) := by
  by_cases hcount : rows.length = kind.containerCount
  · obtain ⟨e, he⟩ := exists_ofContainers_eq hcount
    rw [he]
    refine (Accounts.ok e).congr (fun e' => ?_) fun path cause => by simp [hcount]
    rw [← ofContainers_eq_ok_iff, he, Except.ok.injEq]
  · rw [ofContainers_of_ne hcount]
    refine (Accounts.fault _).congr (fun e => ?_) fun path cause => by simp [hcount]
    refine ⟨False.elim, ?_⟩
    rintro ⟨hkind, rfl⟩
    exact hcount (Element.length_containers hkind)

/-! ## What the check accounts for -/

theorem Row.accounts_of_children (h : ∀ items, Json.member? "children" ms = some (.array items) →
    ∀ item ∈ items, Accounts StepBefore (Element.ofJson item) (Element.Described item) (Element.FaultAt item)) :
    Accounts StepBefore (Row.ofJson (.object ms)) (Row.Described (.object ms)) (Row.FaultAt (.object ms)) := by
  rw [Row.ofJson, rowOfMembers_eq]
  cases hm : Json.member? "children" ms with
  | none =>
    refine (Accounts.ok []).congr (fun r => ?_) fun path cause => ⟨False.elim, fun hfault => ?_⟩
    · constructor
      · rintro rfl
        exact .bare hm
      · intro hr
        cases hr with
        | bare => rfl
        | listed hlist => rw [hm] at hlist; cases hlist
    · cases hfault with
      | notRecord hnot => exact hnot ms rfl
      | children hv => rw [hm] at hv; cases hv
  | some v =>
    simp only [childrenOfJson_eq]
    have hlist : Accounts StepBefore (listOf Element.ofJson v) _ _ :=
      .listOf (fun _ _ => .index) fun items heq => h items (heq ▸ hm)
    refine (hlist.inside (.key "children")).congr (fun r => ?_) fun path cause => ?_
    · constructor
      · rintro ⟨items, rfl, hitems⟩
        exact .listed hm hitems
      · intro hr
        cases hr with
        | bare hnone => rw [hm] at hnone; cases hnone
        | listed hlist hitems => exact ⟨_, Option.some.inj (hm.symm.trans hlist), hitems⟩
    · constructor
      · rintro ⟨rest, rfl, hrest⟩
        exact .children hm hrest
      · intro hfault
        cases hfault with
        | notRecord hnot => exact absurd rfl (hnot ms)
        | children hv hbad =>
          obtain rfl := Option.some.inj (hm.symm.trans hv)
          exact ⟨_, rfl, hbad⟩

section Tagged
variable {path : List Step} {cause : Cause} {e : Element}

theorem Element.described_char_iff (htag : Json.member? "element" ms = some (.text "char")) :
    Element.Described (.object ms) e ↔
      ∃ c, (∃ v, Json.member? "code_point" ms = some v ∧ v = .text (String.singleton c)) ∧ .glyph c = e := by
  constructor
  · intro he
    cases he with
    | glyph _ hc => exact ⟨_, ⟨_, hc, rfl⟩, rfl⟩
    | construct hspecial => simp [htag] at hspecial
  · rintro ⟨c, ⟨_, hc, rfl⟩, rfl⟩
    exact .glyph htag hc

theorem Element.faultAt_char_iff (htag : Json.member? "element" ms = some (.text "char")) :
    Element.FaultAt (.object ms) path cause ↔
      ∃ rest, path = .key "char" :: rest ∧ InField "code_point" CodePointFault (.object ms) rest cause := by
  constructor
  · intro hfault
    cases hfault with
    | notTagged hnot => exact absurd rfl (hnot ms)
    | noTag hnone => rw [htag] at hnone; cases hnone
    | unknownTag hother hchar => exact absurd (Option.some.inj (htag.symm.trans hother)).symm hchar
    | codePoint _ hbad => exact ⟨_, rfl, hbad⟩
    | kind hspecial => simp [htag] at hspecial
    | containers hspecial => simp [htag] at hspecial
    | containerCount hspecial => simp [htag] at hspecial
  · rintro ⟨rest, rfl, hbad⟩
    exact .codePoint htag hbad

/-- What a construct is made of: the kind and the rows that its record gives. -/
def Parts (ms : List (String × Json)) (kind : Kind) (rows : List Row) : Prop :=
  (∃ v, Json.member? "kind" ms = some v ∧ v = .text kind.text) ∧
    ∃ v, Json.member? "containers" ms = some v ∧ ∃ items, v = .array items ∧ List.Forall₂ Row.Described items rows

theorem Element.described_special_iff (htag : Json.member? "element" ms = some (.text "special")) :
    Element.Described (.object ms) e ↔
      ∃ p : Kind × List Row, Parts ms p.1 p.2 ∧ e.kind? = some p.1 ∧ e.containers = p.2 := by
  constructor
  · intro he
    cases he with
    | glyph hchar => simp [htag] at hchar
    | construct _ hkind hitems _ he hrows =>
      exact ⟨(_, _), ⟨⟨_, hkind, rfl⟩, _, hitems, _, rfl, hrows⟩, he, rfl⟩
  · rintro ⟨⟨kind, rows⟩, ⟨⟨_, hkind, rfl⟩, _, hitems, items, rfl, hrows⟩, he, rfl⟩
    exact .construct htag hkind hitems (hrows.length_eq.trans (Element.length_containers he)) he hrows

theorem Element.faultAt_special_iff (htag : Json.member? "element" ms = some (.text "special")) :
    Element.FaultAt (.object ms) path cause ↔ ∃ rest, path = .key "special" :: rest ∧
      ((InField "kind" KindFault (.object ms) rest cause ∨
        InField "containers" (InList Row.FaultAt) (.object ms) rest cause) ∨
      ∃ p : Kind × List Row, Parts ms p.1 p.2 ∧ rest = [] ∧
        cause = .broken (.containerCount p.1 p.2.length) ∧ p.2.length ≠ p.1.containerCount) := by
  constructor
  · intro hfault
    cases hfault with
    | notTagged hnot => exact absurd rfl (hnot ms)
    | noTag hnone => rw [htag] at hnone; cases hnone
    | unknownTag hother _ hspecial => exact absurd (Option.some.inj (htag.symm.trans hother)).symm hspecial
    | codePoint hchar => simp [htag] at hchar
    | kind _ hbad => exact ⟨_, rfl, .inl (.inl hbad)⟩
    | containers _ hbad => exact ⟨_, rfl, .inl (.inr hbad)⟩
    | containerCount _ hkind hitems hrows hcount =>
      rw [hrows.length_eq] at hcount ⊢
      exact ⟨[], rfl, .inr ⟨(_, _), ⟨⟨_, hkind, rfl⟩, _, hitems, _, rfl, hrows⟩, rfl, rfl, hcount⟩⟩
  · rintro ⟨rest, rfl, (hbad | hbad) | ⟨⟨kind, rows⟩, hparts, rfl, rfl, hcount⟩⟩
    · exact .kind htag hbad
    · exact .containers htag hbad
    · obtain ⟨⟨_, hkind, rfl⟩, _, hitems, items, rfl, hrows⟩ := hparts
      simp only [← hrows.length_eq] at hcount ⊢
      exact .containerCount htag hkind hitems hrows hcount

theorem Element.not_described (hchar : Json.member? "element" ms ≠ some (.text "char"))
    (hspecial : Json.member? "element" ms ≠ some (.text "special")) : ¬Element.Described (.object ms) e := by
  intro he
  cases he with
  | glyph htag => exact hchar htag
  | construct htag => exact hspecial htag

theorem Element.faultAt_untagged_iff (hchar : Json.member? "element" ms ≠ some (.text "char"))
    (hspecial : Json.member? "element" ms ≠ some (.text "special")) : Element.FaultAt (.object ms) path cause ↔
      path = [] ∧ cause = if (Json.member? "element" ms).isNone then .noTag else .unknownTag := by
  constructor
  · intro hfault
    cases hfault with
    | notTagged hnot => exact absurd rfl (hnot ms)
    | noTag hnone => simp [hnone]
    | unknownTag htag => simp [htag]
    | codePoint htag => exact absurd htag hchar
    | kind htag => exact absurd htag hspecial
    | containers htag => exact absurd htag hspecial
    | containerCount htag => exact absurd htag hspecial
  · rintro ⟨rfl, rfl⟩
    cases htag : Json.member? "element" ms with
    | none => exact .noTag htag
    | some tag =>
      rw [htag] at hchar hspecial
      exact .unknownTag htag (fun h => hchar (congrArg some h)) fun h => hspecial (congrArg some h)

end Tagged

theorem Element.accounts_of_containers (h : ∀ items, Json.member? "containers" ms = some (.array items) →
    ∀ item ∈ items, Accounts StepBefore (Row.ofJson item) (Row.Described item) (Row.FaultAt item)) :
    Accounts StepBefore (Element.ofJson (.object ms)) (Element.Described (.object ms))
      (Element.FaultAt (.object ms)) := by
  rw [Element.ofJson]
  split
  case h_1 htag =>
    refine (Accounts.fault .noTag).congr (fun e => ⟨False.elim, ?_⟩) fun path cause => ?_
    · exact Element.not_described (by simp [htag]) (by simp [htag])
    · rw [Element.faultAt_untagged_iff (by simp [htag]) (by simp [htag]), htag]
      rfl
  case h_2 htag =>
    exact ((accounts_glyph ms).inside (.key "char")).congr (fun e => (Element.described_char_iff htag).symm)
      fun path cause => (Element.faultAt_char_iff htag).symm
  case h_3 htag =>
    have hcontainers : Accounts StepBefore (field "containers" (listOf Row.ofJson) ms) _ _ :=
      .field fun v hv => .listOf (fun _ _ => .index) fun items heq => h items (heq ▸ hv)
    have horder : ∀ p c q d, InField "kind" KindFault (.object ms) p c →
        InField "containers" (InList Row.FaultAt) (.object ms) q d → List.Lex StepBefore p q := by
      rintro _ _ _ _ (_ | _) (_ | _) <;> exact .rel (.field (by decide))
    have hmake := ((accounts_kind ms).both hcontainers horder).bind fun p _ => accounts_ofContainers p.1 p.2
    rw [inside_containersOfMembers, constructOf]
    exact (hmake.inside (.key "special")).congr (fun e => (Element.described_special_iff htag).symm)
      fun path cause => (Element.faultAt_special_iff htag).symm
  case h_4 tag hchar hspecial htag =>
    have hnochar : Json.member? "element" ms ≠ some (.text "char") := fun h =>
      hchar (Option.some.inj (htag.symm.trans h))
    have hnospecial : Json.member? "element" ms ≠ some (.text "special") := fun h =>
      hspecial (Option.some.inj (htag.symm.trans h))
    refine (Accounts.fault .unknownTag).congr (fun e => ⟨False.elim, ?_⟩) fun path cause => ?_
    · exact Element.not_described hnochar hnospecial
    · rw [Element.faultAt_untagged_iff hnochar hnospecial, htag]
      rfl

theorem Row.accounts_of_notRecord {v : Json} (h : ∀ ms, v ≠ .object ms) :
    Accounts StepBefore (Row.ofJson v) (Row.Described v) (Row.FaultAt v) := by
  have hcheck : Row.ofJson v = fault .notRecord := by
    unfold Row.ofJson
    split
    · exact absurd rfl (h _)
    · rfl
  rw [hcheck]
  refine (Accounts.fault .notRecord).congr (fun r => ⟨False.elim, fun hr => ?_⟩) fun path cause => ?_
  · cases hr with
    | bare => exact h _ rfl
    | listed => exact h _ rfl
  · constructor
    · rintro ⟨rfl, rfl⟩
      exact .notRecord h
    · intro hfault
      cases hfault with
      | notRecord => exact ⟨rfl, rfl⟩
      | children => exact absurd rfl (h _)

theorem Element.accounts_of_notRecord {v : Json} (h : ∀ ms, v ≠ .object ms) :
    Accounts StepBefore (Element.ofJson v) (Element.Described v) (Element.FaultAt v) := by
  have hcheck : Element.ofJson v = fault .notTagged := by
    unfold Element.ofJson
    split
    · exact absurd rfl (h _)
    · rfl
  rw [hcheck]
  refine (Accounts.fault .notTagged).congr (fun e => ⟨False.elim, fun he => ?_⟩) fun path cause => ?_
  · cases he with
    | glyph => exact h _ rfl
    | construct => exact h _ rfl
  · constructor
    · rintro ⟨rfl, rfl⟩
      exact .notTagged h
    · intro hfault
      cases hfault with
      | notTagged => exact ⟨rfl, rfl⟩
      | _ => exact absurd rfl (h _)

/-! ## Every value -/

theorem sizeOf_le_of_member? {key : String} {v : Json} (h : Json.member? key ms = some v) :
    sizeOf v ≤ sizeOf ms := by
  induction ms with
  | nil => cases h
  | cons m ms ih =>
    obtain ⟨k, w⟩ := m
    rw [Json.member?] at h
    split at h
    · cases h
      simp only [List.cons.sizeOf_spec, Prod.mk.sizeOf_spec]
      omega
    · have := ih h
      simp only [List.cons.sizeOf_spec]
      omega

/-- An item of a list in a record is smaller than the record. -/
theorem sizeOf_lt_of_listed {key : String} {items : List Json} {item : Json}
    (hm : Json.member? key ms = some (.array items)) (hi : item ∈ items) :
    sizeOf item < sizeOf (Json.object ms) := by
  calc sizeOf item < sizeOf items := List.sizeOf_lt_of_mem hi
    _ < sizeOf (Json.array items) := by simp
    _ ≤ sizeOf ms := sizeOf_le_of_member? hm
    _ < sizeOf (Json.object ms) := by simp

mutual

/-- The check of a row accounts for every value, whatever is below it. -/
theorem Row.accounts : ∀ v : Json, Accounts StepBefore (Row.ofJson v) (Row.Described v) (Row.FaultAt v)
  | .object ms => Row.accounts_of_children fun items hitems item hitem => Element.accounts item
  | .null | .bool _ | .int _ | .real _ | .text _ | .array _ => Row.accounts_of_notRecord (by simp)
termination_by v => sizeOf v
decreasing_by exact sizeOf_lt_of_listed hitems hitem

/-- The check of an element accounts for every value, whatever is below it. -/
theorem Element.accounts : ∀ v : Json,
    Accounts StepBefore (Element.ofJson v) (Element.Described v) (Element.FaultAt v)
  | .object ms => Element.accounts_of_containers fun items hitems item hitem => Row.accounts item
  | .null | .bool _ | .int _ | .real _ | .text _ | .array _ => Element.accounts_of_notRecord (by simp)
termination_by v => sizeOf v
decreasing_by exact sizeOf_lt_of_listed hitems hitem

end

/-- **The check of a layout takes exactly what the schema describes**, and gives the row that is described; of
everything else **it reports every fault once**, in the order of the document. -/
theorem Row.ofJson_reports (v : Json) :
    (∀ r, Row.ofJson v = .ok r ↔ Row.Described v r) ∧
      ∀ issues, Row.ofJson v = .error issues ↔
        issues ≠ [] ∧ (issues.map (·.path)).Nodup ∧ issues.Pairwise (Issue.Before StepBefore) ∧
          ∀ issue, issue ∈ issues ↔ Row.FaultAt v issue.path issue.cause :=
  ⟨(Row.accounts v).passes, fun _ => (Row.accounts v).eq_error_iff⟩

-- The number of containers is looked at next to the faults of other elements, not next to those of its own.
example : Row.ofJson (.object [("children", .array [.null,
      .object [("element", .text "special"), ("kind", .text "radical"), ("containers", .array [])],
      .object [("element", .text "special"), ("kind", .text "over"), ("containers", .array [.null, .null])]])]) =
    .error [⟨[.key "children", .index 0], .notTagged⟩,
      ⟨[.key "children", .index 1, .key "special"], .broken (.containerCount .radical 0)⟩,
      ⟨[.key "children", .index 2, .key "special", .key "containers", .index 0], .notRecord⟩,
      ⟨[.key "children", .index 2, .key "special", .key "containers", .index 1], .notRecord⟩] := rfl

end PlanarMath.Layout
