import PlanarMath.Proofs.Expr.Walk
import PlanarMath.Proofs.Grammar.Completeness
import PlanarMath.Proofs.Grammar.Halts
import PlanarMath.Proofs.Reading.Rows

/-!
# Errors and complaints

The errors of an expression and the complaints about a layout tell of the same regions: each error has a
complaint inside it, and each complaint lies inside an error.  A construct that cannot be read is an error
with a complaint of its own; when the row around it cannot be read either, its error goes, and its
complaints lie inside the error of the row.

    Matched errors found      each of the two has one of the other
    Inside region found       all complaints are about a region
-/

namespace PlanarMath

/-- Errors at some ranges, and complaints, each with one of the other: around a complaint there is an
error, and inside an error there is a complaint. -/
structure Matched (errors : List (Option Range)) (found : List Diagnostic) : Prop where
  complaint : ∀ r? ∈ errors, ∃ r, r? = some r ∧ ∃ d ∈ found, r.contains d.range
  error : ∀ d ∈ found, ∃ r, some r ∈ errors ∧ r.contains d.range

/-- All complaints are about a part of a region. -/
def Inside (region : Range) (found : List Diagnostic) : Prop := ∀ d ∈ found, region.contains d.range

theorem Inside.append {region : Range} {first more : List Diagnostic} (hf : Inside region first)
    (hm : Inside region more) : Inside region (first ++ more) := List.forall_mem_append.2 ⟨hf, hm⟩

theorem Inside.mono {outer region : Range} {found : List Diagnostic} (ho : outer.contains region)
    (h : Inside region found) : Inside outer found :=
  fun d hd => Range.contains_trans ho (h d hd)

namespace Matched

variable {errors more : List (Option Range)} {found new : List Diagnostic}

theorem nil : Matched [] [] := ⟨by simp, by simp⟩

theorem append (h : Matched errors found) (h' : Matched more new) :
    Matched (errors ++ more) (found ++ new) where
  complaint r? hr := by
    rcases List.mem_append.1 hr with hr | hr
    · obtain ⟨r, e, d, hd, hc⟩ := h.complaint r? hr
      exact ⟨r, e, d, List.mem_append_left _ hd, hc⟩
    · obtain ⟨r, e, d, hd, hc⟩ := h'.complaint r? hr
      exact ⟨r, e, d, List.mem_append_right _ hd, hc⟩
  error d hd := by
    rcases List.mem_append.1 hd with hd | hd
    · obtain ⟨r, hr, hc⟩ := h.error d hd
      exact ⟨r, List.mem_append_left _ hr, hc⟩
    · obtain ⟨r, hr, hc⟩ := h'.error d hd
      exact ⟨r, List.mem_append_right _ hr, hc⟩

theorem congr (h : Matched errors found) (he : ∀ r?, r? ∈ errors ↔ r? ∈ more) : Matched more found where
  complaint r? hr := h.complaint r? ((he r?).2 hr)
  error d hd := by
    obtain ⟨r, hr, hc⟩ := h.error d hd
    exact ⟨r, (he _).1 hr, hc⟩

/-- Errors in the places of complaints. -/
theorem at_ranges (found : List Diagnostic) : Matched (found.map fun d => some d.range) found where
  complaint r? hr := by
    obtain ⟨d, hd, rfl⟩ := List.mem_map.1 hr
    exact ⟨d.range, rfl, d, hd, d.range.contains_self⟩
  error d hd := ⟨d.range, List.mem_map.2 ⟨d, hd, rfl⟩, d.range.contains_self⟩

/-- One error for all complaints about a region. -/
theorem region {r : Range} (h : Inside r found) (hne : found ≠ []) : Matched [some r] found where
  complaint r? hr := by
    obtain ⟨d, hd⟩ := List.exists_mem_of_ne_nil found hne
    exact ⟨r, List.mem_singleton.1 hr, d, hd, h d hd⟩
  error d hd := ⟨r, List.mem_singleton.2 rfl, h d hd⟩

/-- There is an error exactly when there is a complaint. -/
theorem eq_nil_iff (h : Matched errors found) : found = [] ↔ errors = [] := by
  constructor
  · intro hf
    refine List.eq_nil_iff_forall_not_mem.2 fun r? hr => ?_
    obtain ⟨-, -, d, hd, -⟩ := h.complaint r? hr
    rw [hf] at hd
    cases hd
  · intro he
    refine List.eq_nil_iff_forall_not_mem.2 fun d hd => ?_
    obtain ⟨r, hr, -⟩ := h.error d hd
    rw [he] at hr
    cases hr

end Matched

/-- The errors of the node of a token. -/
def Token.errors : Token → List (Option Range)
  | .glyph .. => []
  | .operand node .. | .superscript node _ | .subscript node _ => node.expr.errors

/-! ## The grammar neither adds nor drops an error -/

namespace Grammar

theorem errors_of_isMinusOne {e : Expr} (h : e.isMinusOne) : e.errors = [] := by
  cases e <;> simp [Expr.isMinusOne] at h
  rfl

theorem Target.errors_eq {name : Placed} {named : Range} {ts us : List Token} {t : Placed}
    (h : Target name named ts us t) :
    ∃ used, ts = used ++ us ∧ t.expr.errors = name.expr.errors ++ used.flatMap Token.errors := by
  cases h with
  | itself => exact ⟨[], rfl, by simp⟩
  | @inverse exponent raised _ hx =>
    exact ⟨[.superscript exponent raised], rfl, by simp [Token.errors, errors_of_isMinusOne hx]⟩

/-- The errors of a phrase are those of its tokens, in their order. -/
theorem Derives.errors_eq {greedy : Bool} {p : Phrase} {ts us : List Token} {e : Placed}
    (h : Derives greedy p ts us e) :
    ∃ used, ts = used ++ us ∧ e.expr.errors = used.flatMap Token.errors := by
  -- two phrases with a sign between them, or none
  have join : ∀ {ts us vs : List Token} {l r : Placed} {e : Expr} (sign : List Token),
      e.errors = l.expr.errors ++ r.expr.errors → sign.flatMap Token.errors = [] →
      (∃ used, ts = used ++ (sign ++ us) ∧ l.expr.errors = used.flatMap Token.errors) →
      (∃ used, us = used ++ vs ∧ r.expr.errors = used.flatMap Token.errors) →
      ∃ used, ts = used ++ vs ∧ e.errors = used.flatMap Token.errors := by
    rintro _ _ vs l r e sign he hs ⟨first, rfl, hl⟩ ⟨last, rfl, hr⟩
    refine ⟨first ++ (sign ++ last), by simp, ?_⟩
    rw [he, hl, hr, List.flatMap_append, List.flatMap_append, hs, List.nil_append]
  induction h with
  | ofSum _ ih => exact ih
  | ofProduct _ ih => exact ih
  | ofFactor _ ih => exact ih
  | ofAtom _ ih => exact ih
  | ofFirst _ ih => exact ih
  | relation _ _ _ ihl ihr => exact join [_] (Placed.errors_pair ..) rfl ihl ihr
  | addition _ _ _ ihl ihr => exact join [_] (Placed.errors_join ..) rfl ihl ihr
  | subtraction _ _ _ ihl ihr =>
    exact join [_] ((Placed.errors_join ..).trans (by rw [Placed.errors_negate])) rfl ihl ihr
  | multiplication _ _ _ ihl ihr => exact join [_] (Placed.errors_join ..) rfl ihl ihr
  | division _ _ _ ihl ihr => exact join [_] (Placed.errors_pair ..) rfl ihl ihr
  | juxtaposition _ _ _ ihl ihr => exact join [] (Placed.errors_join ..) rfl ihl ihr
  | absorption _ _ _ ihl ihr => exact join [] (Placed.errors_join ..) rfl ihl ihr
  | positive _ _ ih =>
    obtain ⟨used, rfl, he⟩ := ih
    exact ⟨_ :: used, rfl, he⟩
  | negative _ _ ih =>
    obtain ⟨used, rfl, he⟩ := ih
    exact ⟨_ :: used, rfl, (Placed.errors_negate ..).trans he⟩
  | @call _ _ _ name named _ _ ht _ _ _ ih =>
    obtain ⟨raised, rfl, hte⟩ := ht.errors_eq
    obtain ⟨used, rfl, he⟩ := ih
    refine ⟨.operand name true named :: (raised ++ used), by simp, ?_⟩
    rw [Placed.errors_apply, hte, he, List.flatMap_cons, List.flatMap_append, List.append_assoc]
    rfl
  | operand => exact ⟨[_], rfl, by simp [Token.errors]⟩
  | @groupCall _ _ name named _ args function range ht =>
    obtain ⟨raised, rfl, hte⟩ := ht.errors_eq
    refine ⟨.operand name true named :: (raised ++ [.operand args function range]), by simp, ?_⟩
    rw [Placed.errors_apply, hte, List.flatMap_cons, List.flatMap_append, List.flatMap_singleton,
      List.append_assoc]
    rfl
  | @factorial _ _ _ c sign _ _ ih =>
    obtain ⟨used, rfl, he⟩ := ih
    exact ⟨used ++ [.glyph c sign], by simp, by simp [he, Token.errors]⟩
  | @power _ _ _ exponent raised _ ih =>
    obtain ⟨used, rfl, he⟩ := ih
    exact ⟨used ++ [.superscript exponent raised], by simp, by simp [he, Token.errors]⟩

theorem Derives.errors_row {greedy : Bool} {p : Phrase} {ts : List Token} {e : Placed}
    (h : Derives greedy p ts [] e) : e.expr.errors = ts.flatMap Token.errors := by
  obtain ⟨used, rfl, he⟩ := h.errors_eq
  rw [he, List.append_nil]

theorem Lists.errors_row {greedy : Bool} {ts : List Token} {es : List Placed} (h : Lists greedy ts es) :
    Expr.errorsAll (es.map (·.expr)) = ts.flatMap Token.errors := by
  induction h with
  | last h => simp [h.errors_row]
  | more h _ _ ih =>
    obtain ⟨used, rfl, he⟩ := h.errors_eq
    simp [he, ih, Token.errors]

end Grammar

/-! ## Names and numerals -/

namespace Token

theorem errors_glyphs (run : List (Char × Range)) : (glyphs run).flatMap Token.errors = [] := by
  induction run with
  | nil => rfl
  | cons p run ih => exact ih

theorem Named.errors_eq {table : FunctionTable} {ts us : List Token} (h : Named table ts us) :
    us.flatMap Token.errors = ts.flatMap Token.errors := by
  induction h with
  | nil => rfl
  | other _ ih => rw [List.flatMap_cons, List.flatMap_cons, ih]
  | name _ _ _ ih =>
    rw [List.flatMap_cons, List.flatMap_append, errors_glyphs, ih]
    rfl

/-- A numeral without a value is an error in the place of its complaint. -/
theorem Numbered.mem_errors {value : String → Option Number} {ts us : List Token}
    {found : List Diagnostic} (h : Numbered value ts found us) (r? : Option Range) :
    r? ∈ us.flatMap Token.errors ↔
      r? ∈ ts.flatMap Token.errors ++ found.map fun d => some d.range := by
  induction h with
  | nil => rfl
  | other _ ih =>
    rw [List.flatMap_cons, List.flatMap_cons, List.append_assoc, List.mem_append, List.mem_append, ih]
  | number _ _ _ ih =>
    rw [List.flatMap_cons, List.flatMap_append, errors_glyphs, List.nil_append, ← ih]
    rfl
  | @rejected c r others _ _ _ _ _ _ ih =>
    rw [List.flatMap_cons, List.flatMap_append, errors_glyphs, List.nil_append, List.map_cons,
      List.mem_append, ih, List.mem_append, List.mem_append, List.mem_cons]
    show r? ∈ [some (spanOf r others)] ∨ _ ↔ _
    rw [List.mem_singleton]
    constructor
    · rintro (h | h | h)
      · exact .inr (.inl h)
      · exact .inl h
      · exact .inr (.inr h)
    · rintro (h | h | h)
      · exact .inr (.inl h)
      · exact .inl h
      · exact .inr (.inr h)

variable {region : Range}

theorem contains_spanOf {r : Range} {others : List (Char × Range)} (hr : region.contains r)
    (ho : ∀ p ∈ others, region.contains p.2) : region.contains (spanOf r others) := by
  unfold spanOf
  cases hl : others.getLast? with
  | none => exact Range.contains_span hr hr
  | some p => exact Range.contains_span hr (ho p (List.mem_of_getLast? hl))

/-- A run lies where its glyphs are. -/
theorem contains_run {c : Char} {r : Range} {others : List (Char × Range)}
    (h : ∀ t ∈ glyphs ((c, r) :: others), region.contains t.range) :
    region.contains (spanOf r others) := by
  have hp : ∀ p ∈ (c, r) :: others, region.contains p.2 := by
    intro p hp
    exact h (.glyph p.1 p.2) (List.mem_map.2 ⟨p, hp, rfl⟩)
  exact contains_spanOf (hp _ List.mem_cons_self) fun p h => hp p (List.mem_cons_of_mem _ h)

theorem Named.contains {table : FunctionTable} {ts us : List Token} (h : Named table ts us)
    (hts : ∀ t ∈ ts, region.contains t.range) : ∀ t ∈ us, region.contains t.range := by
  induction h with
  | nil => exact hts
  | other _ ih =>
    obtain ⟨ht, hts⟩ := List.forall_mem_cons.1 hts
    exact List.forall_mem_cons.2 ⟨ht, ih hts⟩
  | name _ _ _ ih =>
    obtain ⟨hrun, hts⟩ := List.forall_mem_append.1 hts
    exact List.forall_mem_cons.2 ⟨contains_run hrun, ih hts⟩

theorem Numbered.contains {value : String → Option Number} {ts us : List Token}
    {found : List Diagnostic} (h : Numbered value ts found us)
    (hts : ∀ t ∈ ts, region.contains t.range) :
    (∀ t ∈ us, region.contains t.range) ∧ Inside region found := by
  induction h with
  | nil => exact ⟨hts, List.forall_mem_nil _⟩
  | other _ ih =>
    obtain ⟨ht, hts⟩ := List.forall_mem_cons.1 hts
    obtain ⟨hus, hf⟩ := ih hts
    exact ⟨List.forall_mem_cons.2 ⟨ht, hus⟩, hf⟩
  | number _ _ _ ih =>
    obtain ⟨hrun, hts⟩ := List.forall_mem_append.1 hts
    obtain ⟨hus, hf⟩ := ih hts
    exact ⟨List.forall_mem_cons.2 ⟨contains_run hrun, hus⟩, hf⟩
  | rejected _ _ _ ih =>
    obtain ⟨hrun, hts⟩ := List.forall_mem_append.1 hts
    obtain ⟨hus, hf⟩ := ih hts
    exact ⟨List.forall_mem_cons.2 ⟨contains_run hrun, hus⟩,
      List.forall_mem_cons.2 ⟨contains_run hrun, hf⟩⟩

end Token

/-! ## Rows -/

namespace Reading

open Grammar Layout Token

variable {o : Options} {region outer : Range} {ts us : List Token} {found merged last : List Diagnostic}

/-- Some tokens of a region, with what was found there. -/
structure TokensMatched (region : Range) (ts : List Token) (found : List Diagnostic) : Prop where
  contains : ∀ t ∈ ts, region.contains t.range
  matched : Matched (ts.flatMap Token.errors) found
  inside : Inside region found

theorem errors_of_isBlank {t : Token} (h : isBlank t) : t.errors = [] := by
  cases t <;> first | rfl | cases h

theorem flatMap_errors_filter (ts : List Token) :
    (ts.filter fun t => !isBlank t).flatMap Token.errors = ts.flatMap Token.errors := by
  induction ts with
  | nil => rfl
  | cons t ts ih =>
    rw [List.filter_cons, List.flatMap_cons]
    split
    · rw [List.flatMap_cons, ih]
    · next hb => rw [ih, errors_of_isBlank (by simpa using hb), List.nil_append]

/-- Merged tokens lie where the tokens lie, and so do the complaints about numerals. -/
theorem contains_of_merge (hm : merge o ts = ⟨merged, .ok us⟩) (hts : ∀ t ∈ ts, region.contains t.range) :
    (∀ t ∈ us, region.contains t.range) ∧ Inside region merged := by
  obtain ⟨named, numbered, hn, hd, rfl⟩ := merge_eq_ok hm
  obtain ⟨hc, hi⟩ := hd.contains (hn.contains hts)
  exact ⟨fun t ht => hc t (List.mem_filter.1 ht).1, hi⟩

theorem TokensMatched.merge (h : TokensMatched region ts found) (hm : merge o ts = ⟨merged, .ok us⟩) :
    TokensMatched region us (found ++ merged) := by
  obtain ⟨hc, hi⟩ := contains_of_merge hm h.contains
  obtain ⟨named, numbered, hn, hd, rfl⟩ := merge_eq_ok hm
  refine ⟨hc, ?_, h.inside.append hi⟩
  rw [flatMap_errors_filter]
  have hboth := h.matched.append (Matched.at_ranges merged)
  rw [← hn.errors_eq] at hboth
  exact hboth.congr fun r? => (hd.mem_errors r?).symm

/-- A halt is at a place of the region. -/
theorem contains_of_blames {h : Halt} (hts : ∀ t ∈ ts, region.contains t.range)
    (hb : Blames (endOf region) ts h) : region.contains h.diagnostic.range := by
  rcases hb.range with hr | ⟨t, ht, hr⟩
  · rw [hr, Range.contains_iff]
    exact ⟨region.start_le_stop, Nat.le_refl _⟩
  · rw [hr]
    exact hts t ht

/-- An expression has the errors of the complaints about it, which are about its region. -/
def ContentMatched (region : Range) (found : List Diagnostic) (e : Placed) : Prop :=
  Matched e.expr.errors found ∧ Inside region found

/-- What the grammar makes of a region, in an error of the region when it stops. -/
theorem TokensMatched.orError (h : TokensMatched region ts found) (ho : outer.contains region)
    {r : Except Halt Placed} (hok : ∀ e, r = .ok e → e.expr.errors = ts.flatMap Token.errors)
    (herror : ∀ h, r = .error h → Blames (endOf region) ts h) {e : Placed}
    (he : orError outer r = ⟨last, .ok e⟩) : ContentMatched outer (found ++ last) e := by
  cases r with
  | ok x =>
    cases he
    rw [List.append_nil]
    refine ⟨?_, h.inside.mono ho⟩
    rw [hok _ rfl]
    exact h.matched
  | error halt =>
    cases he
    have hin : Inside region [halt.diagnostic] :=
      List.forall_mem_singleton.2 (contains_of_blames h.contains (herror halt rfl))
    have hall := (h.inside.append hin).mono ho
    exact ⟨.region hall (by simp), hall⟩

theorem TokensMatched.asExpression (h : TokensMatched region ts found) {e : Placed}
    (he : asExpression region ts = ⟨last, .ok e⟩) : ContentMatched region (found ++ last) e := by
  refine h.orError region.contains_self ?_ (fun halt => whole_blames) he
  intro x hx
  exact (whole_eq_ok_iff.1 hx).errors_row

theorem TokensMatched.asGroup (h : TokensMatched region ts found) (ho : outer.contains region)
    {e : Placed} (he : asGroup region outer ts = ⟨last, .ok e⟩) :
    ContentMatched outer (found ++ last) e := by
  refine h.orError ho ?_ ?_ he
  · intro x hx
    obtain ⟨es, hl, rfl⟩ := map_group_eq_ok.1 hx
    rw [← hl.errors_row]
    exact Expr.errors_tuple ..
  · exact fun halt hx => group_blames (map_eq_error.1 hx)

/-- The token of an element has the range of the element, and the errors of the complaints about it. -/
def TokenMatched (range : Range) (found : List Diagnostic) (t : Token) : Prop :=
  t.range = range ∧ Matched t.errors found ∧ Inside range found

theorem tokensMatched_of_neighbours {i width : Nat} (h : Neighbours TokenMatched i (i + width) found ts) :
    TokensMatched (.ofWidth i width) ts found := by
  generalize hj : i + width = j at h
  induction h generalizing width with
  | nil => exact ⟨List.forall_mem_nil _, .nil, List.forall_mem_nil _⟩
  | @cons i w j first more t ts ht hts ih =>
    have hle : i + w ≤ j := by
      clear ht ih hj
      generalize i + w = k at hts
      induction hts with
      | nil => exact Nat.le_refl _
      | cons _ _ ih => omega
    obtain ⟨hrange, hm, hi⟩ := ht
    obtain ⟨hc, hms, his⟩ := @ih (j - (i + w)) (by omega)
    have hfirst : (Range.ofWidth i width).contains (.ofWidth i w) :=
      Range.ofWidth_contains (Nat.le_refl _) (by omega)
    have hrest : (Range.ofWidth i width).contains (.ofWidth (i + w) (j - (i + w))) :=
      Range.ofWidth_contains (by omega) (by omega)
    refine ⟨List.forall_mem_cons.2 ⟨?_, ?_⟩, hm.append hms, (hi.mono hfirst).append (his.mono hrest)⟩
    · rw [hrange]
      exact hfirst
    · exact fun t ht => Range.contains_trans hrest (hc t ht)

/-- **Errors and complaints**, at every element and every row of a layout. -/
theorem closed_matched (o : Options) : Closed o TokenMatched ContentMatched where
  glyph i c := ⟨rfl, .nil, List.forall_mem_nil _⟩
  deep limit frame? range t found h := by
    simp only [deepToken, Report.mk.injEq, Except.ok.injEq] at h
    obtain ⟨rfl, rfl⟩ := h
    have hin : Inside range [⟨.tooDeep limit, range⟩] := List.forall_mem_singleton.2 range.contains_self
    have hm : Matched [some range] [⟨.tooDeep limit, range⟩] := .region hin (by simp)
    split
    · exact ⟨rfl, hm, hin⟩
    · exact ⟨rfl, hm, hin⟩
    · exact ⟨rfl, hm, hin⟩
  expression i width first ts merged us last e hts hm he := by
    rw [← List.append_assoc]
    exact ((tokensMatched_of_neighbours hts).merge hm).asExpression he
  group i width first ts merged us last e hts hm he := by
    rw [← List.append_assoc]
    exact ((tokensMatched_of_neighbours hts).merge hm).asGroup
      (Range.ofWidth_contains (by omega) (by omega)) he
  fraction i above below first more num den hnum hden := by
    have habove : (Range.ofWidth i (above + below + 3)).contains (.ofWidth (i + 1) above) :=
      Range.ofWidth_contains (by omega) (by omega)
    have hbelow : (Range.ofWidth i (above + below + 3)).contains (.ofWidth (i + above + 2) below) :=
      Range.ofWidth_contains (by omega) (by omega)
    refine ⟨rfl, ?_, (hnum.2.mono habove).append (hden.2.mono hbelow)⟩
    rw [Token.errors, Placed.errors_pair]
    exact hnum.1.append hden.1
  framed i width frame found inner hf hinner := by
    have hin : (Range.ofWidth i (width + 2)).contains (.ofWidth (i + 1) width) :=
      Range.ofWidth_contains (by omega) (by omega)
    have key : ∀ t : Token, t.range = .ofWidth i (width + 2) → t.errors = inner.expr.errors →
        TokenMatched (.ofWidth i (width + 2)) found t := by
      intro t hr he
      refine ⟨hr, ?_, hinner.2.mono hin⟩
      rw [he]
      exact hinner.1
    cases frame with
    | parentheses => exact absurd rfl hf
    | superscript => exact key _ rfl rfl
    | subscript => exact key _ rfl rfl
    | brackets => exact key _ rfl rfl
    | radical => exact key _ rfl (by simp [frameToken, functionOf?, enclosed, Token.errors])
    | absoluteValue => exact key _ rfl (by simp [frameToken, functionOf?, enclosed, Token.errors])
    | ceiling => exact key _ rfl (by simp [frameToken, functionOf?, enclosed, Token.errors])
    | floor => exact key _ rfl (by simp [frameToken, functionOf?, enclosed, Token.errors])
  grouped i width found inner hinner := ⟨rfl, hinner.1, hinner.2⟩

end Reading

/-- The errors of what is read from a layout, and the complaints about it. -/
theorem readLayout_matched {o : Options} {r : Layout.Row} {found : List Diagnostic} {e : Placed}
    (h : readLayout o r = ⟨found, .ok e⟩) : Matched e.expr.errors found :=
  ((Reading.closed_matched o).rowExpression h).1

end PlanarMath
