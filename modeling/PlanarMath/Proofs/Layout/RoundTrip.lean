import PlanarMath.Layout.Record
import PlanarMath.Proofs.Json.Characters
import PlanarMath.Proofs.Schema.Checks

/-!
# Layout files read back

The record of a layout passes every check and gives the layout back, whatever its glyphs are and however
its constructs are nested, and the text of the record tells the record.
-/

namespace PlanarMath.Layout

open Schema

/-! ## Records -/

section
variable {i : Nat} {kind : Kind} {v : Json} {vs : List Json} {ms : List (String × Json)} {r : Row} {rs : List Row}
  {x : Element}

theorem Element.ofJson_glyph (c : Char) : Element.ofJson (Element.glyph c).toJson = .ok (.glyph c) := by
  obtain ⟨ms, hrecord, htag, htext⟩ : ∃ ms, (Element.glyph c).toJson = .object ms ∧
      Json.member? "element" ms = some (.text "char") ∧
      Json.member? "code_point" ms = some (.text (String.singleton c)) := ⟨_, rfl, rfl, rfl⟩
  have hread : glyphOfMembers ms = .ok (.glyph c) :=
    map_eq_ok_iff.2 ⟨c, field_eq_ok_iff.2 ⟨_, htext, character_text c⟩, rfl⟩
  simp [hrecord, Element.ofJson, htag, hread]

theorem Row.ofJson_of_children (h : elementsOfJson 0 (Row.childrenToJson r) = .ok r) :
    Row.ofJson r.toJson = .ok r := by
  simp [Row.toJson, Row.ofJson, rowOfMembers, childrenOfJson, h]

theorem rowsOfJson_cons (hr : Row.ofJson v = .ok r) (hrs : rowsOfJson (i + 1) vs = .ok rs) :
    rowsOfJson i (v :: vs) = .ok (r :: rs) := by
  simp [rowsOfJson, hr, hrs]

theorem containersOfMembers_eq (h : Json.member? "containers" ms = some v) :
    containersOfMembers ms = containersOfJson v := by
  induction ms with
  | nil => cases h
  | cons m ms ih => grind [Json.member?, containersOfMembers]

/-- A construct from a record that gives its kind and its containers. -/
theorem Element.ofJson_construct (htag : Json.member? "element" ms = some (.text "special"))
    (hkind : Json.member? "kind" ms = some (.text kind.text))
    (hcontainers : Json.member? "containers" ms = some (.array vs)) (hrows : rowsOfJson 0 vs = .ok rs)
    (hx : Element.ofContainers kind rs = .ok x) : Element.ofJson (.object ms) = .ok x := by
  have hname : field "kind" (oneOf Kind.ofText?) ms = .ok kind :=
    field_eq_ok_iff.2 ⟨_, hkind, oneOf_text kind.ofText?_text⟩
  have hread : constructOf (.ok kind) (.ok rs) = .ok x :=
    bind_eq_ok_iff.2 ⟨(kind, rs), both_eq_ok_iff.2 ⟨rfl, rfl⟩, hx⟩
  simp [Element.ofJson, htag, hname, containersOfMembers_eq hcontainers, containersOfJson, hrows, inside, hread]

end

mutual

/-- The record of an element passes every check, and gives the element. -/
theorem Element.ofJson_toJson : ∀ x : Element, Element.ofJson x.toJson = .ok x
  | .glyph c => Element.ofJson_glyph c
  | .fraction above below => by
    have habove := Row.ofJson_of_children (elementsOfJson_childrenToJson above 0)
    have hbelow := Row.ofJson_of_children (elementsOfJson_childrenToJson below 0)
    have hrows := rowsOfJson_cons (i := 0) habove (rowsOfJson_cons hbelow (by rw [rowsOfJson]))
    exact Element.ofJson_construct rfl rfl rfl hrows rfl
  | .framed frame body => by
    have hbody := Row.ofJson_of_children (elementsOfJson_childrenToJson body 0)
    have hrows := rowsOfJson_cons (i := 0) hbody (by rw [rowsOfJson])
    have hframed : Element.ofContainers frame.kind [body] = .ok (.framed frame body) := by
      unfold Element.ofContainers
      rw [frame.frame?_kind]
    exact Element.ofJson_construct rfl rfl rfl hrows hframed

theorem elementsOfJson_childrenToJson : ∀ (xs : List Element) (i : Nat),
    elementsOfJson i (Row.childrenToJson xs) = .ok xs
  | [], i => by rw [Row.childrenToJson, elementsOfJson]
  | x :: xs, i => by
    have hx := Element.ofJson_toJson x
    have hxs := elementsOfJson_childrenToJson xs (i + 1)
    simp [Row.childrenToJson, elementsOfJson, hx, hxs]

end

/-- The record of a row passes every check, and gives the row. -/
theorem Row.ofJson_toJson (r : Row) : Row.ofJson r.toJson = .ok r :=
  Row.ofJson_of_children (elementsOfJson_childrenToJson r 0)

/-! ## Texts of records -/

theorem Row.isTold_of_children {r : Row} (h : Json.AreTold (Row.childrenToJson r)) : (Row.toJson r).IsTold :=
  ⟨by simp, h, trivial⟩

mutual

theorem Element.isTold_toJson : ∀ x : Element, x.toJson.IsTold
  | .glyph c =>
    have hkeys : ["element", "code_point"].Nodup := by decide
    ⟨hkeys, trivial, trivial, trivial⟩
  | .fraction above below =>
    have habove := Row.isTold_of_children (areTold_childrenToJson above)
    have hbelow := Row.isTold_of_children (areTold_childrenToJson below)
    have hkeys : ["element", "kind", "containers"].Nodup := by decide
    ⟨hkeys, trivial, trivial, ⟨habove, hbelow, trivial⟩, trivial⟩
  | .framed frame body =>
    have hbody := Row.isTold_of_children (areTold_childrenToJson body)
    have hkeys : ["element", "kind", "containers"].Nodup := by decide
    ⟨hkeys, trivial, trivial, ⟨hbody, trivial⟩, trivial⟩

theorem areTold_childrenToJson : ∀ xs : List Element, Json.AreTold (Row.childrenToJson xs)
  | [] => trivial
  | x :: xs => ⟨Element.isTold_toJson x, areTold_childrenToJson xs⟩

end

theorem Row.isTold_toJson (r : Row) : (Row.toJson r).IsTold := Row.isTold_of_children (areTold_childrenToJson r)

theorem Row.ofText_toText (r : Row) : Row.ofText (Row.toText r) = .ok r := by
  have htext : Json.ofText (Row.toText r) = .ok (Row.toJson r) :=
    Json.ofText_toText Json.isPlain_indented (Row.isTold_toJson r)
  unfold Row.ofText
  rw [htext]
  simp only [Row.ofJson_toJson r]

/-! ## Files -/

/-- **Round trip.**  What is written of a layout is read as that layout.  Nothing in between depends on how
line breaks are kept: the text has no control character but the line feeds that end its lines. -/
theorem Row.file_roundTrip (r : Row) :
    Row.ofText (Row.toText r) = .ok r ∧
      ∀ c ∈ (Row.toText r).toList, c = '\n' ∨ Json.NoControl c := by
  exact ⟨Row.ofText_toText r, Json.forall_mem_indented (Row.toJson r)⟩

end PlanarMath.Layout
