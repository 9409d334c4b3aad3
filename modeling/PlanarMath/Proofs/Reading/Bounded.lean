import PlanarMath.Proofs.Layout.Places
import PlanarMath.Proofs.Number.Decimal
import PlanarMath.Proofs.Reading.Complaints
import PlanarMath.Proofs.Reading.Numerals
import PlanarMath.Proofs.Session.Log

/-!
# What complaints are about

A complaint about a row lies in the region of the row, and a number in it is the limit of the reading or the length
of a numeral of the row.  This is so for all that is found, also where reading was stopped by a fault.  So every
complaint can be worded and traced as long as the limit, and the indices up to the end of the row, have no more digits
than can be written.

    unexpected, ambiguous exponent      no number
    nested too deep                     the limit
    numeral without a value             at most the width of the row
-/

namespace PlanarMath

open Layout Token

/-! ## Numerals lie in their row -/

/-- The digits in front of a row are its first elements. -/
theorem Layout.Row.exists_digits (pointed : Bool) (xs : Row) :
    ∃ rest, xs = (digits pointed xs).map .glyph ++ rest := by
  fun_induction digits pointed xs with
  | case1 pointed c xs hc ih =>
    obtain ⟨rest, hrest⟩ := ih
    exact ⟨rest, congrArg _ hrest⟩
  | case2 pointed c xs hc hpoint ih =>
    obtain ⟨rest, hrest⟩ := ih
    exact ⟨rest, congrArg _ hrest⟩
  | case3 => exact ⟨_, rfl⟩
  | case4 => exact ⟨_, rfl⟩

/-- A numeral of a row lies between the ends of the row. -/
theorem Layout.Row.bounds_of_mem_numerals {i j : Nat} {xs : Row} {text : List Char} (h : (j, text) ∈ numerals i xs) :
    i ≤ j ∧ j + text.length ≤ i + width xs := by
  fun_induction numerals i xs with
  | case1 => cases h
  | case2 i x xs text' hnone ih =>
    obtain ⟨hstart, hstop⟩ := ih h
    rw [Row.width]
    omega
  | case3 i x xs text' hsome ih =>
    obtain ⟨rest, hrest⟩ := exists_digits false (x :: xs)
    have hne : text' ≠ [] := fun h => hsome (.inl h)
    have hwidth : width (x :: xs) = text'.length + width rest := by
      rw [hrest, width_append, width_glyphs]
    have hdrop : xs.drop (text'.length - 1) = rest := by
      have hlength := List.length_pos_iff.2 hne
      have hsplit : (x :: xs).drop text'.length = rest := by
        conv_lhs => rw [hrest]
        exact List.drop_left' (List.length_map _)
      rwa [← Nat.sub_add_cancel hlength, List.drop_succ_cons] at hsplit
    obtain hfirst | hmore := List.mem_cons.1 h
    · obtain ⟨rfl, rfl⟩ := Prod.mk.inj hfirst
      omega
    · rw [hdrop] at ih hmore
      obtain ⟨hstart, hstop⟩ := ih hmore
      omega

/-! ## Complaints -/

/-- A complaint about a part of a region, and about no other number than the limit and a length in the region. -/
structure Diagnostic.IsAbout (o : Options) (region : Range) (d : Diagnostic) : Prop where
  contains : region.contains d.range
  tooDeep : ∀ n, d.complaint = .tooDeep n → o.limit? = some n
  invalidNumber : ∀ n, d.complaint = .invalidNumber n → 0 ≤ n ∧ region.start + n ≤ region.stop

namespace Diagnostic.IsAbout

variable {o : Options} {region : Range} {d : Diagnostic}

theorem mono {outer : Range} (houter : outer.contains region) (h : d.IsAbout o region) : d.IsAbout o outer where
  contains := Range.contains_trans houter h.contains
  tooDeep := h.tooDeep
  invalidNumber n hn := by
    obtain ⟨hpos, hstop⟩ := h.invalidNumber n hn
    rw [Range.contains_iff] at houter
    omega

/-- A complaint can be written if the limit and the indices of the region are not too long. -/
theorem isShort (h : d.IsAbout o region) (hlimit : ∀ n, o.limit? = some n → Literal.isShort n)
    (hstop : Literal.isShort region.stop) : d.toJson.isShort := by
  have hends := Range.contains_iff.1 h.contains
  have hle := d.range.start_le_stop
  have hfirst : Literal.isShort d.range.start := Literal.isShort_of_le (by omega) hstop
  have hlast : Literal.isShort d.range.stop := Literal.isShort_of_le (by omega) hstop
  obtain ⟨complaint, range⟩ := d
  have hdetails : (Json.ofOption id complaint.details?).isShort := by
    cases complaint with
    | unexpected found =>
      simp only [Complaint.details?, Json.ofOption, id, Json.isShort, Json.membersAreShort, Bool.true_and,
        Bool.and_true]
      cases found.codePoint? <;> rfl
    | ambiguousExponent => rfl
    | tooDeep n => exact Bool.and_eq_true_iff.2 ⟨hlimit n (h.tooDeep n rfl), rfl⟩
    | invalidNumber n =>
      obtain ⟨hpos, hn⟩ := h.invalidNumber n rfl
      have hlength : Literal.isShort n := Literal.isShort_of_le (by omega) hstop
      exact Bool.and_eq_true_iff.2 ⟨hlength, rfl⟩
  simp only [toJson, Range.toJson, Json.isShort, Json.membersAreShort, hfirst, hlast, hdetails, Bool.and_self]

end Diagnostic.IsAbout

/-! ## Reports -/

namespace Report

variable {α β : Type} {o : Options} {region : Range}

/-- All that an operation found is about a region. -/
def IsAbout (o : Options) (region : Range) (r : Report α) : Prop := ∀ d ∈ r.found, d.IsAbout o region

theorem isAbout_nil {result : Except Fault α} : IsAbout o region ⟨[], result⟩ := List.forall_mem_nil _

theorem IsAbout.mono {outer : Range} {r : Report α} (houter : outer.contains region) (h : r.IsAbout o region) :
    r.IsAbout o outer := fun d hd => (h d hd).mono houter

theorem IsAbout.map {r : Report α} (h : r.IsAbout o region) (f : α → β) : (r.map f).IsAbout o region := h

theorem IsAbout.andThen {r : Report α} {f : α → Report β} (h : r.IsAbout o region)
    (hf : ∀ found a, r = ⟨found, .ok a⟩ → (f a).IsAbout o region) : (r.andThen f).IsAbout o region := by
  obtain ⟨found, result⟩ := r
  cases result with
  | error e => exact h
  | ok a => exact List.forall_mem_append.2 ⟨h, hf found a rfl⟩

end Report

namespace Reading

open Grammar

variable {o : Options} {region : Range} {i : Nat} {xs : Row} {first : List Diagnostic} {ts : List Token}

theorem Aligned.contains (h : Aligned InPlaces i xs first ts) :
    ∀ t ∈ ts, (Range.ofWidth i (Row.width xs)).contains t.range := by
  induction h with
  | nil => exact List.forall_mem_nil _
  | @cons i x xs first more t ts ht _ ih =>
    refine List.forall_mem_cons.2 ⟨?_, fun u hu => Range.contains_trans ?_ (ih u hu)⟩
    · rw [Token.Of.range ht]
      exact Range.ofWidth_contains (Nat.le_refl _) (by rw [Row.width]; omega)
    · exact Range.ofWidth_contains (Nat.le_add_right _ _) (by rw [Row.width]; omega)

/-- What is found in merging is that numerals of the row have no value. -/
theorem merge_isAbout (hts : Aligned InPlaces i xs first ts) : (merge o ts).IsAbout o (.ofWidth i (Row.width xs)) := by
  unfold merge
  split
  · exact Report.isAbout_nil
  · next named hn =>
    intro d hd
    change d ∈ (mergeNumerals o.number named).1 at hd
    rw [(merged_of_mergeWords hn).found_eq hts] at hd
    obtain ⟨⟨j, text⟩, hmem, hsome⟩ := List.mem_filterMap.1 hd
    obtain ⟨-, ⟨⟩⟩ := Option.ite_none_right_eq_some.1 hsome
    obtain ⟨hstart, hstop⟩ := Row.bounds_of_mem_numerals hmem
    refine ⟨Range.ofWidth_contains hstart hstop, nofun, ?_⟩
    rintro n ⟨⟩
    simp only [Range.ofWidth]
    omega

/-- The complaint of a halt is about no number. -/
theorem isAbout_of_blames {h : Halt} (hts : ∀ t ∈ ts, region.contains t.range) (hb : Blames (endOf region) ts h) :
    h.diagnostic.IsAbout o region := by
  refine ⟨contains_of_blames hts hb, ?_, ?_⟩
  all_goals
    intro n hn
    cases hb with
    | unexpected used rest => cases rest <;> cases hn
    | exponent => cases hn

theorem orError_isAbout {outer : Range} {r : Except Halt Placed} (hts : ∀ t ∈ ts, region.contains t.range)
    (hr : ∀ h, r = .error h → Blames (endOf region) ts h) : (orError outer r).IsAbout o region := by
  cases r with
  | ok e => exact Report.isAbout_nil
  | error h => exact List.forall_mem_singleton.2 (isAbout_of_blames hts (hr h rfl))

theorem asExpression_isAbout (hts : ∀ t ∈ ts, region.contains t.range) :
    (asExpression region ts).IsAbout o region := orError_isAbout hts fun _ => whole_blames

theorem asGroup_isAbout {outer : Range} (hts : ∀ t ∈ ts, region.contains t.range) :
    (asGroup region outer ts).IsAbout o region :=
  orError_isAbout hts fun _ h => group_blames (map_eq_error.1 h)

/-- What is found in a row, from the tokens of its elements to its end. -/
theorem content_isAbout {x : Report (List Token)} {read : List Token → Report Placed}
    (hx : x.IsAbout o (.ofWidth i (Row.width xs)))
    (hts : ∀ first ts, x = ⟨first, .ok ts⟩ → Aligned InPlaces i xs first ts)
    (hread : ∀ us, (∀ t ∈ us, (Range.ofWidth i (Row.width xs)).contains t.range) →
      (read us).IsAbout o (.ofWidth i (Row.width xs))) :
    (x.andThen fun ts => (merge o ts).andThen read).IsAbout o (.ofWidth i (Row.width xs)) :=
  hx.andThen fun first ts h =>
    (merge_isAbout (hts first ts h)).andThen fun _ us hm =>
      hread us (contains_of_merge hm (hts first ts h).contains).1

theorem frameContent_isAbout {frame : Frame} {outer : Range} {x : Report (List Token)}
    (hx : x.IsAbout o (.ofWidth i (Row.width xs)))
    (hts : ∀ first ts, x = ⟨first, .ok ts⟩ → Aligned InPlaces i xs first ts) :
    (x.andThen (frameContent o frame (.ofWidth i (Row.width xs)) outer)).IsAbout o (.ofWidth i (Row.width xs)) := by
  refine content_isAbout hx hts fun us hus => ?_
  cases frame with
  | parentheses => exact asGroup_isAbout hus
  | _ => exact asExpression_isAbout hus

theorem deepToken_isAbout {limit : Int} (hlimit : o.limit? = some limit) (role : Option Frame) (range : Range) :
    (deepToken limit role range).IsAbout o range := by
  refine List.forall_mem_singleton.2 ⟨range.contains_self, ?_, nofun⟩
  rintro n ⟨⟩
  exact hlimit

theorem limit?_of_isTooDeep {level : Nat} {limit : Int} (h : o.isTooDeep level = some limit) :
    o.limit? = some limit := (Option.filter_eq_some_iff.1 h).1

mutual

theorem elementToken_isAbout (o : Options) (level i : Nat) :
    ∀ x : Element, (elementToken o level i x).IsAbout o (.ofWidth i x.width)
  | .glyph c => Report.isAbout_nil
  | .fraction above below => by
    rw [elementToken, Element.width_fraction]
    split
    · next limit hdeep => exact deepToken_isAbout (limit?_of_isTooDeep hdeep) _ _
    · refine Report.IsAbout.andThen ?_ fun _ num _ => Report.IsAbout.map ?_ _
      · refine (content_isAbout (rowTokens_isAbout o (level + 1) (i + 1) above) ?_ ?_).mono ?_
        · exact fun _ _ => (anchored_inPlaces o).rowTokens _ _ above
        · exact fun us => asExpression_isAbout
        · exact Range.ofWidth_contains (by omega) (by omega)
      · refine (content_isAbout (rowTokens_isAbout o (level + 1) _ below) ?_ ?_).mono ?_
        · exact fun _ _ => (anchored_inPlaces o).rowTokens _ _ below
        · exact fun us => asExpression_isAbout
        · exact Range.ofWidth_contains (by simp only [Range.ofWidth]; omega) (by simp only [Range.ofWidth]; omega)
  | .framed frame body => by
    rw [elementToken, Element.width_framed]
    split
    · next limit hdeep => exact deepToken_isAbout (limit?_of_isTooDeep hdeep) _ _
    · refine ((frameContent_isAbout (rowTokens_isAbout o (level + 1) (i + 1) body) ?_).mono ?_).map _
      · exact fun _ _ => (anchored_inPlaces o).rowTokens _ _ body
      · exact Range.ofWidth_contains (by omega) (by omega)

theorem rowTokens_isAbout (o : Options) (level i : Nat) :
    ∀ xs : List Element, (rowTokens o level i xs).IsAbout o (.ofWidth i (Row.width xs))
  | [] => Report.isAbout_nil
  | x :: xs => by
    rw [rowTokens, Row.width]
    refine ((elementToken_isAbout o level i x).mono ?_).andThen fun _ t _ =>
      ((rowTokens_isAbout o level (i + x.width) xs).mono ?_).map _
    · exact Range.ofWidth_contains (by omega) (by omega)
    · exact Range.ofWidth_contains (by omega) (by omega)

end

/-- **What complaints are about.**  All that is found in a row that starts at an index. -/
theorem expression_isAbout (o : Options) (i : Nat) (r : Row) : (expression o i r).IsAbout o (regionOf i r) := by
  unfold expression tokens
  rw [Report.andThen_assoc]
  exact content_isAbout (rowTokens_isAbout o 0 i r) (fun _ _ => (anchored_inPlaces o).rowTokens 0 i r)
    fun us => asExpression_isAbout

theorem group_isAbout (o : Options) (i : Nat) (r : Row) : (group o i r).IsAbout o (regionOf i r) := by
  unfold group tokens
  rw [Report.andThen_assoc]
  refine content_isAbout (rowTokens_isAbout o 0 i r) (fun _ _ => (anchored_inPlaces o).rowTokens 0 i r) fun us hus => ?_
  split
  · exact asGroup_isAbout hus
  · exact Report.isAbout_nil

/-- A root where nothing may be nested is complained of with the limit. -/
theorem expression_of_limit {o : Options} {limit : Int} (hlimit : o.limit? = some limit) (hdeep : limit ≤ 0) :
    expression o 0 [.framed .radical [.glyph 'x']] =
      ⟨[⟨.tooDeep limit, .ofWidth 0 3⟩], .ok (.error (.ofWidth 0 3))⟩ := by
  have htoken : elementToken o 0 0 (.framed .radical [.glyph 'x']) =
      ⟨[⟨.tooDeep limit, .ofWidth 0 3⟩], .ok (.operand (.error (.ofWidth 0 3)) false (.ofWidth 0 3))⟩ := by
    have hdeep' : o.isTooDeep 0 = some limit := by
      rw [Options.isTooDeep, hlimit]
      simp [hdeep]
    rw [elementToken]
    split
    · next h =>
      cases h.symm.trans hdeep'
      rfl
    · next h => cases h.symm.trans hdeep'
  have htokens : tokens o 0 [.framed .radical [.glyph 'x']] =
      ⟨[⟨.tooDeep limit, .ofWidth 0 3⟩], .ok [.operand (.error (.ofWidth 0 3)) false (.ofWidth 0 3)]⟩ := by
    rw [tokens, rowTokens, htoken, rowTokens]
    cbv
  rw [expression, htokens]
  cbv

end Reading

/-- A log takes all that is found in a region if the limit and the indices of the region are not too long, unless its
trace is closed. -/
theorem Session.takes_of_isAbout {s : Session} (hlog : s.log.IsOpen)
    (hlimit : ∀ n, s.options.limit? = some n → Literal.isShort n) {α : Type} {r : Report α} {region : Range}
    (hstop : Literal.isShort region.stop) (h : r.IsAbout s.options region) : ∀ d ∈ r.found, s.log.takes d :=
  fun d hd => Log.takes_of_isShort hlog ((h d hd).isShort hlimit hstop)

/-- All that is found in a layout can be written if the limit and the indices of the layout are not too long, -/
theorem isShort_of_mem_found {o : Options} {row : Layout.Row} (hlimit : ∀ n, o.limit? = some n → Literal.isShort n)
    (hwidth : Literal.isShort (Layout.Row.width row)) : ∀ d ∈ (readLayout o row).found, d.toJson.isShort := by
  intro d hd
  have hstop : Literal.isShort (Reading.regionOf 0 row).stop := by
    simpa only [Reading.regionOf, Range.ofWidth, Nat.zero_add] using hwidth
  exact (Reading.expression_isAbout o 0 row d hd).isShort hlimit hstop

/-- and is taken then. -/
theorem Session.takes_of_mem_found {s : Session} {row : Layout.Row} (hlog : s.log.IsOpen)
    (hlimit : ∀ n, s.options.limit? = some n → Literal.isShort n)
    (hwidth : Literal.isShort (Layout.Row.width row)) : ∀ d ∈ (readLayout s.options row).found, s.log.takes d :=
  fun d hd => Log.takes_of_isShort hlog (isShort_of_mem_found hlimit hwidth d hd)

end PlanarMath
