import PlanarMath.Proofs.Transcriber.Count

/-!
# Counts and levels

Reading is told how deep it is, and a transcriber counts.  A transcriber by the method of options reports
what reading under these options reports: inside `level` constructs its count is `level`, and a reader of
literals that is never stopped lets all numerals be read.

    element i x  at count `level`    =    elementToken level i x
    call c       at count zero       =    c.report
-/

namespace PlanarMath

namespace Method

open Layout Reading Token Counting

variable (o : Options)

theorem numeral_method (text : List Char) (range : Range) :
    o.method.numeral text range =
      ⟨(ofNumeral o.number text range).1, .ok (ofNumeral o.number text range).2⟩ := rfl

theorem numerals_method (ts : List Token) :
    o.method.numerals ts = ⟨(mergeNumerals o.number ts).1, .ok (mergeNumerals o.number ts).2⟩ := by
  fun_induction mergeNumerals o.number ts with
  | case1 => rw [numerals]; rfl
  | case2 t rest hrun found ts' hrest ih =>
    rw [numerals, hrun]
    simp only [ih, hrest, Report.map, Except.map]
  | case3 t rest c r others hrun hpoint found ts' hrest ih =>
    rw [numerals, hrun]
    simp only [hpoint, and_self, if_true, ih, hrest, Report.map, Except.map]
  | case4 t rest c r others hrun hpoint complaints number hnumber found ts' hrest ih =>
    rw [numerals, hrun]
    simp only [hpoint, if_false, ih, hrest, hnumber, numeral_method, Report.andThen, Report.map, Except.map]

theorem merge_method (ts : List Token) : o.method.merge ts = Reading.merge o ts := by
  unfold merge Reading.merge
  have hfunctions : o.method.functions = o.functions := rfl
  rw [hfunctions]
  cases mergeWords o.functions ts with
  | error f => rfl
  | ok us =>
    simp only [numerals_method]
    rfl

theorem frameContent_method (frame : Frame) (region outer : Range) (ts : List Token) :
    o.method.frameContent frame region outer ts = Reading.frameContent o frame region outer ts := by
  have hmerge := merge_method o ts
  unfold frameContent Reading.frameContent
  cases frame <;> exact congrArg (Report.andThen · _) hmerge

/-- Inside `level` constructs, a construct is nested too deep by count where it is by level. -/
theorem isTooDeep_method (level : Nat) : o.method.isTooDeep level = o.isTooDeep level := rfl

theorem content_method {level i : Nat} {xs : List Element} (region : Range)
    (h : (o.method.elements i xs level).1 = rowTokens o level i xs) :
    (o.method.content region (o.method.elements i xs) level).1 =
      (rowTokens o level i xs).andThen fun ts => (Reading.merge o ts).andThen (asExpression region) := by
  rw [content_report _ _ (o.method.elements_restores i xs), h]
  simp only [merge_method]

theorem framedContent_method {level i : Nat} {xs : List Element} (frame : Frame) (region outer : Range)
    (h : (o.method.elements i xs level).1 = rowTokens o level i xs) :
    (o.method.framedContent frame region outer (o.method.elements i xs) level).1 =
      (rowTokens o level i xs).andThen (Reading.frameContent o frame region outer) := by
  rw [framedContent_report _ _ _ _ (o.method.elements_restores i xs), h]
  congr 1
  funext ts
  exact frameContent_method o frame region outer ts

mutual

theorem element_method (level i : Nat) :
    ∀ x : Element, (o.method.element i x level).1 = elementToken o level i x
  | .glyph c => rfl
  | .fraction above below => by
    rw [elementToken, ← isTooDeep_method]
    cases h : o.method.isTooDeep level with
    | some limit => rw [element, unlessDeep_deep h]
    | none =>
      have hnum := content_method o (.ofWidth (i + 1) (Row.width above)) (elements_method (level + 1) (i + 1) above)
      have hden := content_method o (.ofWidth (i + 1 + Row.width above + 1) (Row.width below))
        (elements_method (level + 1) (i + 1 + Row.width above + 1) below)
      rw [fraction_report h]
      push_cast at hnum hden
      rw [hnum, hden]
      rfl
  | .framed frame body => by
    rw [elementToken, ← isTooDeep_method]
    cases h : o.method.isTooDeep level with
    | some limit => rw [element, unlessDeep_deep h]
    | none =>
      have hbody := framedContent_method o frame (.ofWidth (i + 1) (Row.width body))
        (.ofWidth i (Row.width body + 2)) (elements_method (level + 1) (i + 1) body)
      rw [framed_report h]
      push_cast at hbody
      rw [hbody]
      rfl

theorem elements_method (level i : Nat) :
    ∀ xs : List Element, (o.method.elements i xs level).1 = rowTokens o level i xs
  | [] => rfl
  | x :: xs => by
    rw [elements_cons_report, rowTokens, element_method level i x, elements_method level _ xs]

end

theorem tokens_method (i : Nat) (r : Row) : (o.method.tokens i r 0).1 = Reading.tokens o i r := by
  have helements : (o.method.elements i r 0).1 = rowTokens o 0 i r := elements_method o 0 i r
  unfold Reading.tokens
  rw [tokens_report, helements]
  congr 1
  funext ts
  exact merge_method o ts

theorem expression_method (i : Nat) (r : Row) : (o.method.expression i r 0).1 = Reading.expression o i r := by
  have hcontent := content_method o (regionOf i r) (elements_method o 0 i r)
  unfold Reading.expression Reading.tokens
  rw [Report.andThen_assoc]
  exact hcontent

theorem group_method (i : Nat) (r : Row) : (o.method.group i r 0).1 = Reading.group o i r := by
  have htokens := tokens_method o i r
  unfold Reading.group
  rw [group_report]
  exact congrArg (Report.andThen · _) htokens

theorem perform_method (c : Call) : (o.method.perform c 0).1 = c.report o := by
  cases c with
  | layout r =>
    unfold perform Call.report readLayout
    rw [map_report, expression_method]
  | expression base r =>
    unfold perform Call.report expressionAt
    rw [map_report, startingAt_report]
    simp only [expression_method]
  | group base r =>
    unfold perform Call.report groupAt
    rw [map_report, startingAt_report]
    simp only [group_method]
  | tokens base r =>
    unfold perform Call.report marksAt
    rw [map_report, startingAt_report]
    simp only [map_report, tokens_method]

end Method

/-- A transcriber by the method of options reports what a session with these options is told. -/
theorem Transcriber.call_method (o : Options) (c : Call) :
    ({ method := o.method } : Transcriber).call c = (c.report o, { method := o.method }) := by
  have hreport : (({ method := o.method } : Transcriber).call c).1 = c.report o := Method.perform_method o c
  exact Prod.ext hreport (Transcriber.call_restores _ c)

end PlanarMath
