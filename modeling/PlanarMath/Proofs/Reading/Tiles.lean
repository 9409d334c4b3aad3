import PlanarMath.Proofs.Reading.Constructs
import PlanarMath.Proofs.Reading.Geometry
import PlanarMath.Proofs.Reading.Numerals
import PlanarMath.Proofs.Token.Respaced

/-!
# The tokens of a row tile it

Every index of a row belongs to one token that the grammar sees, or to one blank that it does not.  Before
blanks are dropped, the tokens stand one behind the other from the first index to the last, whatever was
merged (`Merged.tile`); what is dropped then are the blanks of the row.

    s i n _ [a] 4 2 .      sin 0-3   blank 3-4   group 4-7   42. 7-10

A node lies within the range of its token.
-/

namespace PlanarMath

open Layout

namespace Layout

/-- Ranges one behind the other, none of them empty, from index `i` up to index `j`. -/
def Tiled (i : Nat) : List Range → Nat → Prop
  | [], j => i = j
  | r :: rs, j => r.start = i ∧ i < r.stop ∧ Tiled r.stop rs j

/-- The places of the blanks of a row that starts at an index, those of its containers aside. -/
def Row.blanks (i : Nat) : List Element → List Range
  | [] => []
  | .glyph c :: xs => if Text.isBlank c then .ofWidth i 1 :: blanks (i + 1) xs else blanks (i + 1) xs
  | x :: xs => blanks (i + x.width) xs

/-- Text without blanks in front of a row. -/
theorem Row.blanks_text {i : Nat} {text : List Char} (h : ∀ c ∈ text, Text.isBlank c = false)
    (xs : List Element) : Row.blanks i (text.map .glyph ++ xs) = Row.blanks (i + text.length) xs := by
  induction text generalizing i with
  | nil => rfl
  | cons c text ih =>
    obtain ⟨hc, htext⟩ := List.forall_mem_cons.1 h
    rw [List.map_cons, List.cons_append, Row.blanks, if_neg (by rw [hc]; exact Bool.false_ne_true), ih htext,
      List.length_cons]
    congr 1
    omega

end Layout

namespace Text

theorem isBlank_of_isLetter {c : Char} (h : isLetter c) : isBlank c = false := by
  cases hb : isBlank c with
  | false => rfl
  | true => rw [isLetter_of_isBlank hb] at h; cases h

theorem isBlank_of_isNumeral {c : Char} (h : isAsciiDigit c ∨ c = '.') : isBlank c = false := by
  cases hb : isBlank c with
  | false => rfl
  | true =>
    rcases h with h | h
    · rw [isAsciiDigit_of_isBlank hb] at h; cases h
    · exact absurd h (ne_point_of_isBlank hb)

end Text

/-- The node of a token lies within the range of the token. -/
def Token.Encloses (t : Token) : Prop :=
  ∀ e, t.mark.node? = some e → ∃ s, e.range? = some s ∧ t.range.contains s

theorem Token.Encloses.of_placed {t : Token} (node : Placed) (ht : t.mark.node? = some node.expr)
    (h : t.range.start ≤ node.range.start ∧ node.range.stop ≤ t.range.stop) : t.Encloses := by
  intro e he
  obtain rfl : node.expr = e := Option.some.inj (ht.symm.trans he)
  exact ⟨node.range, node.range?_expr, Range.contains_iff.2 h⟩

namespace Token

open Reading

/-- Tokens stand one behind the other where a row stands, and the blanks among them are those of the row. -/
def Tile (i : Nat) (xs : Row) (us : List Token) : Prop :=
  Tiled i (us.map Token.range) (i + Row.width xs) ∧ (us.filter isBlank).map Token.range = Row.blanks i xs

variable {i : Nat} {xs : Row} {t : Token} {ts us : List Token} {first : List Diagnostic}

/-- The token of an element, and tiles behind it. -/
theorem Tile.element {x : Element} (ht : t.Of i x) (h : Tile (i + x.width) xs us) :
    Tile i (x :: xs) (t :: us) := by
  have hpos := x.width_pos
  constructor
  · rw [List.map_cons, ht.range, Row.width, ← Nat.add_assoc]
    exact ⟨rfl, by simp only [Range.ofWidth]; omega, h.1⟩
  · rw [List.filter_cons]
    cases x with
    | glyph c =>
      obtain rfl : t = .glyph c (.ofWidth i 1) := ht
      rw [Row.blanks, isBlank]
      split
      · exact congrArg _ h.2
      · exact h.2
    | _ =>
      cases t with
      | glyph c r => exact absurd rfl (ht.1 c r)
      | _ => exact h.2

/-- A token for a run of glyphs without blanks, and tiles behind it. -/
theorem Tile.run {c : Char} {r : Range} {others : List (Char × Range)}
    (hts : Aligned InPlaces i xs first (glyphs ((c, r) :: others) ++ ts))
    (hrun : ∀ p ∈ (c, r) :: others, Text.isBlank p.1 = false) (ht : isBlank t = false)
    (hrange : t.range = spanOf r others)
    (h : ∀ {i xs first}, Aligned InPlaces i xs first ts → Tile i xs us) : Tile i xs (t :: us) := by
  obtain ⟨text, rest, more, htext, hlen, hspan, rfl, hrest⟩ := hts.run fun _ _ _ _ hof => hof
  obtain ⟨htiled, hblanks⟩ := h hrest
  have hnone : ∀ c ∈ text, Text.isBlank c = false := by
    rw [← htext]
    exact List.forall_mem_map.2 hrun
  constructor
  · rw [Row.width_append, Row.width_glyphs, ← Nat.add_assoc, List.map_cons, hrange, hspan]
    exact ⟨rfl, by simp only [Range.ofWidth]; omega, htiled⟩
  · rw [Row.blanks_text hnone, List.filter_cons_of_neg (by rw [ht]; exact Bool.false_ne_true)]
    exact hblanks

/-- **Tiles.**  The merged tokens of a row stand one behind the other, and the blanks among them are those
of the row. -/
theorem Merged.tile {table : FunctionTable} {value : String → Option Number} {found : List Diagnostic}
    (h : Merged table value ts found us) (hts : Aligned InPlaces i xs first ts) : Tile i xs us := by
  have numeral : ∀ ts p, p ∈ numeralRun false ts → Text.isBlank p.1 = false := fun ts p hp =>
    Text.isBlank_of_isNumeral (isNumeral_numeralRun ts false p hp)
  induction h generalizing i xs first with
  | nil =>
    cases hts
    exact ⟨rfl, rfl⟩
  | other _ _ _ ih =>
    cases hts with
    | cons ht hts => exact .element ht (ih hts)
  | @name ts found us c r others n s function hr hw _ _ ih =>
    obtain ⟨-, -, hglyphs⟩ := first_of_letterRun hr hw
    rw [hglyphs] at hts
    exact .run hts (fun p hp => Text.isBlank_of_isLetter (isLetter_of_letterRun hr n p hp)) rfl rfl ih
  | @number ts found us c r others v hr _ _ _ ih =>
    rw [eq_glyphs_of_numeralRun hr] at hts
    exact .run hts (hr ▸ numeral ts) rfl rfl ih
  | @rejected ts found us c r others hr _ _ _ ih =>
    rw [eq_glyphs_of_numeralRun hr] at hts
    exact .run hts (hr ▸ numeral ts) rfl rfl ih

end Token

namespace Reading

open Token

variable {o : Options} {level i : Nat} {found : List Diagnostic} {t : Token}

/-! ## Nodes within their tokens -/

/-- What is lowered would be raised just the same. -/
theorem elementToken_superscript {x : Element} {node : Placed} {r : Range}
    (h : elementToken o level i x = ⟨found, .ok (.subscript node r)⟩) :
    ∃ body, elementToken o level i (.framed .superscript body) = ⟨found, .ok (.superscript node r)⟩ := by
  cases hd : o.isTooDeep level with
  | some limit =>
    match x with
    | .glyph c =>
      rw [elementToken] at h
      cases h
    | .fraction above below =>
      rw [elementToken_deep hd rfl] at h
      cases h
    | .framed frame body =>
      refine ⟨body, ?_⟩
      rw [elementToken_deep hd rfl] at h ⊢
      cases frame <;> cases h
      rfl
  | none =>
    match x with
    | .glyph c =>
      rw [elementToken] at h
      cases h
    | .fraction above below =>
      rw [elementToken_fraction hd] at h
      obtain ⟨first, num, more, -, hmore, -⟩ := Report.andThen_eq_ok.1 h
      obtain ⟨den, -, hden⟩ := Report.map_eq_ok.1 hmore
      cases hden
    | .framed frame body =>
      rw [elementToken_framed hd] at h
      obtain ⟨content, hcontent, ht⟩ := Report.map_eq_ok.1 h
      refine ⟨body, ?_⟩
      rw [elementToken_framed hd]
      cases frame <;> cases ht
      exact Report.map_eq_ok.2 ⟨_, hcontent, rfl⟩

/-- The node of an element lies within the range of its token. -/
theorem encloses_elementToken {x : Element} (h : elementToken o level i x = ⟨found, .ok t⟩) : t.Encloses := by
  have located : ∀ x t, elementToken o level i x = ⟨found, .ok t⟩ →
      t.From o i [x] fun j k e => Expr.Arranged (Row.Raises o i [x]) j k e.expr := fun x t h =>
    ((located_arranged o i [x]).anchored.elementToken level i x h).2 Row.Ahead.whole.stands
  cases t with
  | glyph c r => exact fun e he => by cases he
  | operand node function r => exact .of_placed _ rfl (Placed.arranged_bounds (located x _ h))
  | superscript node r => exact .of_placed _ rfl (Placed.arranged_bounds (located x _ h).1)
  | subscript node r =>
    -- `From` says nothing of what is lowered, so the same row is looked at as if it were raised.
    obtain ⟨body, hbody⟩ := elementToken_superscript h
    exact .of_placed _ rfl (Placed.arranged_bounds (located _ _ hbody).1)

theorem encloses_rowTokens (xs : Row) {ts : List Token} (h : rowTokens o level i xs = ⟨found, .ok ts⟩) :
    ∀ t ∈ ts, t.Encloses := by
  induction xs generalizing i found ts with
  | nil =>
    rw [rowTokens] at h
    cases h
    exact List.forall_mem_nil _
  | cons x xs ih =>
    rw [rowTokens] at h
    obtain ⟨first, t, more, ht, hmore, -⟩ := Report.andThen_eq_ok.1 h
    obtain ⟨us, hus, rfl⟩ := Report.map_eq_ok.1 hmore
    exact List.forall_mem_cons.2 ⟨encloses_elementToken ht, ih hus⟩

/-! ## Marks of a row -/

/-- What the marks of a row that starts at index `b` are, those before the end of the input. -/
structure Tiling (b : Nat) (row : Row) (marks : List Mark) : Prop where
  /-- The marks and the blanks of the row, each in their order, are all that there is from `b` to the end. -/
  tiles : ∃ pieces, Tiled b pieces (b + Row.width row) ∧
    pieces.Perm (marks.map Mark.range ++ Row.blanks b row) ∧ (marks.map Mark.range).Sublist pieces
  proper : ∀ m ∈ marks, m.kind ≠ .endOfInput
  /-- Glyphs that are left are no blanks. -/
  visible : ∀ m ∈ marks, ∀ s, m.kind = .codePoint s → ∃ c, s = c.toString ∧ Text.isBlank c = false
  /-- All others carry a node, within their range. -/
  holds : ∀ m ∈ marks, m.kind.codePoint? = none →
    ∃ e s, m.node? = some e ∧ e.range? = some s ∧ m.range.contains s

/-- The tokens that the grammar sees of a row are a tiling of it, wherever the row is in a layout. -/
theorem tiling_of_tokens {b : Nat} {row : Row} {us : List Token}
    (h : (rowTokens o level b row).andThen (merge o) = ⟨found, .ok us⟩) :
    Tiling b row (us.map Token.mark) := by
  obtain ⟨first, ts, more, hts, hus, -⟩ := Report.andThen_eq_ok.1 h
  have haligned := (anchored_inPlaces o).rowTokens level b row hts
  have hencloses : ∀ t ∈ us, t.Encloses := by
    have self : ∀ node : Placed, (Token.ofNode node).Encloses := fun node =>
      .of_placed node rfl ⟨Nat.le_refl _, Nat.le_refl _⟩
    refine forall_mem_merge hus (fun _ s function range _ _ => ?_) (fun _ _ _ _ _ => self _)
      (fun range => self (.error range)) ?_
    · exact .of_placed (symbolIn s range) rfl ⟨Nat.le_refl _, Nat.le_refl _⟩
    · exact encloses_rowTokens row hts
  obtain ⟨vs, hmerged, rfl⟩ := exists_merged hus
  obtain ⟨htiled, hblanks⟩ := hmerged.tile haligned
  have hrange : ∀ ts : List Token, (ts.map Token.mark).map Mark.range = ts.map Token.range := fun ts => by
    rw [List.map_map]
    exact List.map_congr_left fun t _ => by cases t <;> rfl
  refine ⟨⟨vs.map Token.range, htiled, ?_, ?_⟩, ?_, ?_, ?_⟩
  · rw [hrange, ← hblanks, ← List.map_append]
    exact ((List.perm_append_comm.trans (List.filter_append_perm isBlank vs)).symm).map _
  · rw [hrange]
    exact List.filter_sublist.map _
  · refine List.forall_mem_map.2 fun t _ => ?_
    cases t <;> exact nofun
  · refine List.forall_mem_map.2 fun t ht s hs => ?_
    cases t <;> cases hs
    exact ⟨_, rfl, by simpa [isBlank] using (List.mem_filter.1 ht).2⟩
  · refine List.forall_mem_map.2 fun t ht hs => ?_
    have hrange : t.mark.range = t.range := by cases t <;> rfl
    have hnode : ∃ e, t.mark.node? = some e := by
      cases t with
      | glyph c r => cases hs
      | _ => exact ⟨_, rfl⟩
    obtain ⟨e, he⟩ := hnode
    obtain ⟨s, hs, hin⟩ := hencloses t ht e he
    exact ⟨e, s, he, hs, hrange ▸ hin⟩

/-- **Tiling.**  Under a table whose functions have names, any row that starts at an index has its marks, and
those before the end of the input, which is the last and the only one, are a tiling of the row.  So are the
tokens of a row inside any number of constructs. -/
theorem marks_tile {o : Options} (ho : o.functions.HasNames) (row : Row) (b : Nat) :
    (∀ level, ∃ found us, (rowTokens o level b row).andThen (merge o) = ⟨found, .ok us⟩ ∧
      Tiling b row (us.map Token.mark)) ∧
    ∃ found marks, marksAt o b row =
        ⟨found, .ok (marks ++ [Mark.stop (.ofWidth (b + Row.width row) 0)])⟩ ∧ Tiling b row marks := by
  constructor
  · intro level
    obtain ⟨found, us, h⟩ :=
      exists_of_isOk ((rowTokens_isOk ho level b row).andThen (merge_isOk ho))
    exact ⟨found, us, h, tiling_of_tokens h⟩
  · obtain ⟨found, marks, h⟩ := exists_of_isOk (marksAt_isOk ho b row)
    have hmarks := h
    unfold marksAt at hmarks
    rw [start_natural] at hmarks
    obtain ⟨us, hus, rfl⟩ := Report.map_eq_ok.1 ((Report.ok_andThen _ _).symm.trans hmarks)
    exact ⟨found, us.map Token.mark, h, tiling_of_tokens hus⟩

/-- A name, a blank, an index and a number; the blank at 5 has no mark. -/
theorem marks_tile_of_index :
    let row : Row := [.glyph 's', .glyph 'i', .glyph 'n', .glyph ' ', .framed .subscript [.glyph 'a'],
      .glyph '4', .glyph '2']
    let marks : List Mark := [⟨.operand true, .ofWidth 2 3, some (.symbol "sin" (some (.ofWidth 2 3)))⟩,
      ⟨.subscript, .ofWidth 6 3, some (.symbol "a" (some (.ofWidth 7 1)))⟩,
      ⟨.operand false, .ofWidth 9 2, some (.number (.int 42) (some (.ofWidth 9 2)))⟩]
    FunctionTable.standard.HasNames ∧ Row.blanks 2 row = [.ofWidth 5 1] ∧
      marksAt {} (2 : Nat) row = ⟨[], .ok (marks ++ [Mark.stop (.ofWidth 11 0)])⟩ ∧ Tiling 2 row marks := by
  intro row marks
  have hnames := FunctionTable.hasNames_standard
  have hrow : marksAt {} (2 : Nat) row = ⟨[], .ok (marks ++ [Mark.stop (.ofWidth 11 0)])⟩ := by cbv
  obtain ⟨-, found, marks', h, htiling⟩ := marks_tile (o := {}) hnames row 2
  rw [hrow] at h
  obtain rfl : marks = marks' := List.append_cancel_right (Except.ok.inj (congrArg Report.result h))
  exact ⟨hnames, rfl, hrow, htiling⟩

end Reading

end PlanarMath
