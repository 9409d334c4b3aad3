import Mathlib
import PlanarMath.FunctionTable.File
import PlanarMath.Proofs.Grammar.Greedy
import PlanarMath.Proofs.Grammar.Halts
import PlanarMath.Proofs.Reading.Acceptance
import PlanarMath.Proofs.Reading.Bounded
import PlanarMath.Proofs.Reading.Numerals
import PlanarMath.Proofs.Reading.Total
import PlanarMath.Proofs.Session.Log

/-!
# The account of complaints

All that is complained of in a row, in its order: first what is found in its elements, from left to right;
then its numerals without a value; and last the verdict of the grammar on the tokens of the row, which is
nothing when they can be read to their end and one complaint otherwise (`RowAccount`).  An element is
accounted for by its containers, one after the other, or by a single complaint when it is nested too deep.

    row         its elements  ++  its numerals without a value  ++  the verdict of the grammar
    construct   one complaint when it is nested too deep, and otherwise its containers
-/

namespace PlanarMath

namespace Grammar

/-- The complaints of the grammar about tokens that end at `stop`: none when they can be read to their end,
and otherwise one about an unexpected token or an ambiguous exponent among them. -/
inductive Verdict (grouped : Bool) (stop : Range) (ts : List Token) : List Diagnostic → Prop
  | read : Reads grouped ts → Verdict grouped stop ts []
  | halted {h} : ¬Reads grouped ts → Blames stop ts h → Verdict grouped stop ts [h.diagnostic]

variable {stop region : Range} {ts : List Token} {found : List Diagnostic} {e : Placed}

/-- A result of the grammar with the complaint about it, where it stopped. -/
theorem verdict_of_orError {grouped : Bool} {r : Except Halt Placed} (hr : (∃ e, r = .ok e) ↔ Reads grouped ts)
    (hb : ∀ h, r = .error h → Blames stop ts h) (h : Reading.orError region r = ⟨found, .ok e⟩) :
    Verdict grouped stop ts found := by
  cases r with
  | ok x =>
    cases h
    exact .read (hr.1 ⟨_, rfl⟩)
  | error halt =>
    cases h
    refine .halted (fun hread => ?_) (hb halt rfl)
    obtain ⟨x, hx⟩ := hr.2 hread
    cases hx

theorem verdict_asExpression (h : Reading.asExpression region ts = ⟨found, .ok e⟩) :
    Verdict false (Reading.endOf region) ts found :=
  verdict_of_orError whole_isOk_iff (fun _ => whole_blames) h

theorem verdict_asGroup {outer : Range} (h : Reading.asGroup region outer ts = ⟨found, .ok e⟩) :
    Verdict true (Reading.endOf region) ts found :=
  verdict_of_orError (map_isOk_iff.trans group_isOk_iff) (fun _ hx => group_blames (map_eq_error.1 hx)) h

end Grammar

namespace Reading

open Grammar Layout

mutual

/-- The complaints about an element that opens at index `i`, inside `level` constructs. -/
inductive ElementAccount (o : Options) : Nat → Nat → Element → List Diagnostic → Prop
  | glyph {level i c} : ElementAccount o level i (.glyph c) []
  | tooDeep {level i x limit} : x.isGlyph = false → o.isTooDeep level = some limit →
      ElementAccount o level i x [⟨.tooDeep limit, .ofWidth i x.width⟩]
  | fraction {level i above below first more} : o.isTooDeep level = none →
      RowAccount o false (level + 1) (i + 1) above first →
      RowAccount o false (level + 1) (i + Row.width above + 2) below more →
      ElementAccount o level i (.fraction above below) (first ++ more)
  | framed {level i frame body found} : o.isTooDeep level = none →
      RowAccount o (frame = .parentheses) (level + 1) (i + 1) body found →
      ElementAccount o level i (.framed frame body) found

/-- The complaints about the elements of a row, from left to right. -/
inductive ElementsAccount (o : Options) : Nat → Nat → List Element → List Diagnostic → Prop
  | nil {level i} : ElementsAccount o level i [] []
  | cons {level i x xs first more} : ElementAccount o level i x first →
      ElementsAccount o level (i + x.width) xs more →
      ElementsAccount o level i (x :: xs) (first ++ more)

/-- The complaints about a row from index `i` on, inside `level` constructs, that is read as one expression
or as a group. -/
inductive RowAccount (o : Options) : Bool → Nat → Nat → List Element → List Diagnostic → Prop
  | row {grouped level i xs found ts last} : ElementsAccount o level i xs found →
      ((rowTokens o level i xs).andThen (merge o)).result = .ok ts →
      Verdict grouped (endOf (.ofWidth i (Row.width xs))) ts last →
      RowAccount o grouped level i xs (found ++ Row.rejected o.number i xs ++ last)

end

variable {o : Options} {level i : Nat} {xs : List Element} {found : List Diagnostic} {e : Placed}

/-- A row whose elements are accounted for, from its tokens to its end. -/
theorem RowAccount.of_tokens {grouped : Bool} {read : List Token → Report Placed}
    (hxs : ∀ first ts, rowTokens o level i xs = ⟨first, .ok ts⟩ → ElementsAccount o level i xs first)
    (hread : ∀ us last, read us = ⟨last, .ok e⟩ →
      Verdict grouped (endOf (.ofWidth i (Row.width xs))) us last)
    (h : ((rowTokens o level i xs).andThen fun ts => (merge o ts).andThen read) = ⟨found, .ok e⟩) :
    RowAccount o grouped level i xs found := by
  obtain ⟨first, ts, more, hts, hmore, rfl⟩ := Report.andThen_eq_ok.1 h
  obtain ⟨merged, us, last, hus, hlast, rfl⟩ := Report.andThen_eq_ok.1 hmore
  obtain ⟨vs, hmerged, -⟩ := exists_merged hus
  have hrow : (rowTokens o level i xs).andThen (merge o) = ⟨first ++ merged, .ok us⟩ :=
    Report.andThen_eq_ok.2 ⟨first, ts, merged, hts, hus, rfl⟩
  rw [hmerged.found_eq ((anchored_inPlaces o).rowTokens level i xs hts), ← List.append_assoc]
  exact .row (hxs first ts hts) (by rw [hrow]) (hread us last hlast)

theorem RowAccount.of_expression
    (hxs : ∀ first ts, rowTokens o level i xs = ⟨first, .ok ts⟩ → ElementsAccount o level i xs first)
    (h : ((rowTokens o level i xs).andThen fun ts =>
      (merge o ts).andThen (asExpression (.ofWidth i (Row.width xs)))) = ⟨found, .ok e⟩) :
    RowAccount o false level i xs found :=
  .of_tokens hxs (fun _ _ => verdict_asExpression) h

theorem RowAccount.of_group {outer : Range}
    (hxs : ∀ first ts, rowTokens o level i xs = ⟨first, .ok ts⟩ → ElementsAccount o level i xs first)
    (h : ((rowTokens o level i xs).andThen fun ts =>
      (merge o ts).andThen (asGroup (.ofWidth i (Row.width xs)) outer)) = ⟨found, .ok e⟩) :
    RowAccount o true level i xs found :=
  .of_tokens hxs (fun _ _ => verdict_asGroup) h

mutual

theorem elementToken_account (o : Options) (level i : Nat) :
    ∀ (x : Element) (found : List Diagnostic) (t : Token),
      elementToken o level i x = ⟨found, .ok t⟩ → ElementAccount o level i x found
  | .glyph c, found, t, h => by
    rw [elementToken] at h
    cases h
    exact .glyph
  | .fraction above below, found, t, h => by
    rw [elementToken] at h
    split at h
    · next limit hdeep =>
      cases h
      exact .tooDeep rfl hdeep
    · next hnone =>
      obtain ⟨first, num, more, hnum, hmore, rfl⟩ := Report.andThen_eq_ok.1 h
      obtain ⟨den, hden, -⟩ := Report.map_eq_ok.1 hmore
      have hbelow : (Range.ofWidth (i + 1) (Row.width above)).stop + 1 = i + Row.width above + 2 := by
        simp only [Range.ofWidth]; omega
      rw [hbelow] at hden
      exact .fraction hnone (.of_expression (rowTokens_account o (level + 1) _ above) hnum)
        (.of_expression (rowTokens_account o (level + 1) _ below) hden)
  | .framed frame body, found, t, h => by
    rw [elementToken] at h
    split at h
    · next limit hdeep =>
      cases h
      exact .tooDeep rfl hdeep
    · next hnone =>
      obtain ⟨inner, hinner, -⟩ := Report.map_eq_ok.1 h
      have hbody := rowTokens_account o (level + 1) (i + 1) body
      cases frame with
      | parentheses => exact .framed hnone (.of_group hbody hinner)
      | _ => exact .framed hnone (.of_expression hbody hinner)

theorem rowTokens_account (o : Options) (level i : Nat) :
    ∀ (xs : List Element) (found : List Diagnostic) (ts : List Token),
      rowTokens o level i xs = ⟨found, .ok ts⟩ → ElementsAccount o level i xs found
  | [], found, ts, h => by
    rw [rowTokens] at h
    cases h
    exact .nil
  | x :: xs, found, ts, h => by
    rw [rowTokens] at h
    obtain ⟨first, t, more, ht, hmore, rfl⟩ := Report.andThen_eq_ok.1 h
    obtain ⟨us, hus, -⟩ := Report.map_eq_ok.1 hmore
    exact .cons (elementToken_account o level i x first t ht)
      (rowTokens_account o level (i + x.width) xs more us hus)

end

theorem expression_account {i : Nat} {row : Row} (h : expression o i row = ⟨found, .ok e⟩) :
    RowAccount o false 0 i row found := by
  unfold expression tokens at h
  rw [Report.andThen_assoc] at h
  exact .of_expression (rowTokens_account o 0 i row) h

theorem group_account {i : Nat} {row : Row} (h : group o (i + 1) row = ⟨found, .ok e⟩) :
    RowAccount o true 0 (i + 1) row found := by
  rw [group_succ, tokens, Report.andThen_assoc] at h
  exact .of_group (rowTokens_account o 0 (i + 1) row) h

end Reading

namespace Session

open Reading Layout

/-- A call that is accounted for: what the row is accounted for is added to the log as far as the log takes it, and
the answer is an expression if that is everything.  It is everything if the limit and the indices of the row are not
too long, unless the log has a trace that is closed. -/
structure Accounts (s : Session) (c : Call) (grouped : Bool) (b : Nat) (row : Row) (found : List Diagnostic)
    (e : Placed) : Prop where
  account : RowAccount s.options grouped 0 b row found
  enters : s.Enters found (.ok (.expression e.expr)) (s.call c)
  all : (∀ d ∈ found, s.log.takes d) → s.log.entered found = found
  takes : s.log.IsOpen → (∀ n, s.options.limit? = some n → Literal.isShort n) →
    Literal.isShort (b + Row.width row : Nat) → ∀ d ∈ found, s.log.takes d

/-- **The account of complaints.**  Under a table whose functions have names, reading a row from any index on
is accounted for as one expression; reading it as a group from any index but the first, as a group. -/
theorem call_account (s : Session) (ho : s.options.functions.HasNames) (row : Row) (b : Nat) :
    (∃ found e, s.Accounts (.expression b row) false b row found e) ∧
    (1 ≤ b → ∃ found e, s.Accounts (.group b row) true b row found e) := by
  constructor
  · obtain ⟨found, e, h⟩ := exists_of_isOk (expressionAt_isOk ho b row)
    have henters := enters_call (s := s) (c := .expression b row) rfl h
    rw [expressionAt_natural] at h
    refine ⟨found, e, expression_account h, henters, Log.entered_of_takes, fun hlog hlimit hstop => ?_⟩
    have habout := expression_isAbout s.options b row
    rw [h] at habout
    exact takes_of_isAbout hlog hlimit hstop habout
  · intro hb
    obtain ⟨i, rfl⟩ : ∃ i, b = i + 1 := ⟨b - 1, by omega⟩
    obtain ⟨found, e, h⟩ := exists_of_isOk (groupAt_isOk ho i row)
    have henters := enters_call (s := s) (c := .group (i + 1 : Nat) row) rfl h
    rw [groupAt_natural] at h
    refine ⟨found, e, group_account h, henters, Log.entered_of_takes, fun hlog hlimit hstop => ?_⟩
    have habout := group_isAbout s.options (i + 1) row
    rw [h] at habout
    exact takes_of_isAbout hlog hlimit hstop habout

/-- A row with a root that is nested too deep, in a root whose content ends early, before a numeral without
a value and a sign without an operand; and a group that ends in a comma. -/
theorem call_account_of_roots :
    let s : Session := ⟨⟨⟨[]⟩, fun _ => none, some 1⟩, {}, fun _ => ⟨"", ""⟩⟩
    let row : Row := [.framed .radical [.framed .radical [.glyph 'x'], .glyph '*'], .glyph '1', .glyph '2',
      .glyph '+']
    let found : List Diagnostic := [⟨.tooDeep 1, .ofWidth 1 3⟩, ⟨.unexpected .endOfInput, .ofWidth 5 0⟩,
      ⟨.invalidNumber 2, .ofWidth 6 2⟩, ⟨.unexpected .endOfInput, .ofWidth 9 0⟩]
    let list : Row := [.glyph 'x', .glyph ',']
    s.options.functions.HasNames ∧ 1 ≤ 3 ∧
      (s.call (.expression (0 : Nat) row)).1.log.entries = found ∧
      (∃ e, s.Accounts (.expression (0 : Nat) row) false 0 row found e) ∧
      (s.call (.group (3 : Nat) list)).1.log.entries = [⟨.unexpected .endOfInput, .ofWidth 5 0⟩] ∧
      ∃ e, s.Accounts (.group (3 : Nat) list) true 3 list [⟨.unexpected .endOfInput, .ofWidth 5 0⟩] e := by
  intro s row found list
  have hnames : s.options.functions.HasNames := List.forall_mem_nil _
  have hb : 1 ≤ 3 := by decide
  have hlog : s.log.IsOpen := nofun
  have hlimit : ∀ n, s.options.limit? = some n → Literal.isShort n := by
    rintro n ⟨⟩
    decide +kernel
  have hrow : (s.call (.expression (0 : Nat) row)).1.log.entries = found := by cbv
  have hlist : (s.call (.group (3 : Nat) list)).1.log.entries = [⟨.unexpected .endOfInput, .ofWidth 5 0⟩] := by
    cbv
  obtain ⟨more, e, h⟩ := (call_account s hnames row 0).1
  obtain ⟨more', e', h'⟩ := (call_account s hnames list 3).2 hb
  have hmore := h.enters.entries
  rw [h.all (h.takes hlog hlimit (by decide +kernel)), hrow] at hmore
  have hmore' := h'.enters.entries
  rw [h'.all (h'.takes hlog hlimit (by decide +kernel)), hlist] at hmore'
  obtain rfl : found = more := hmore
  obtain rfl : _ = more' := hmore'
  exact ⟨hnames, hb, hrow, ⟨e, h⟩, hlist, ⟨e', h'⟩⟩

/-- A complaint about a limit that is too long is not entered although the row is accounted for with it; and under a
table that names a function with a half, a row that begins with it and a sign has no complaint at all. -/
theorem long_limit_is_not_entered :
    let limit : Int := -(10 ^ Literal.digitLimit : Nat)
    let s : Session := ⟨{ limit? := some limit }, {}, fun _ => ⟨"", ""⟩⟩
    let row : Row := [.framed .radical [.glyph 'x']]
    let table : WordTable Text.Points := ⟨[⟨[0xD800], [("f" : String)], none⟩]⟩
    let s' : Session := ⟨{ functions := table.view }, {}, fun _ => ⟨"", ""⟩⟩
    RowAccount s.options false 0 0 row [⟨.tooDeep limit, .ofWidth 0 3⟩] ∧
      s.call (.expression (0 : Nat) row) = (s, .error .tooManyDigits) ∧ (∀ e ∈ table.entries, e.name ≠ ∅) ∧
      (s'.call (.expression (0 : Nat) [.glyph 'f', .glyph '+'])).1.log.entries = [] := by
  intro limit s row table s'
  have hlong : Literal.isShort limit = false := (Literal.isShort_neg _).trans Literal.isShort_power
  have hread : expression s.options 0 row = ⟨[⟨.tooDeep limit, .ofWidth 0 3⟩], .ok (.error (.ofWidth 0 3))⟩ :=
    expression_of_limit rfl (Int.neg_nonpos_of_nonneg (Int.natCast_nonneg _))
  have hfound : ((Call.expression (0 : Nat) row).report s.options).found = [⟨.tooDeep limit, .ofWidth 0 3⟩] := by
    rw [Call.report, expressionAt_natural, hread]
    rfl
  exact ⟨expression_account hread, record_of_not_isWordable hfound hlong, List.forall_mem_singleton.2 (by decide),
    by cbv⟩

end Session

end PlanarMath
