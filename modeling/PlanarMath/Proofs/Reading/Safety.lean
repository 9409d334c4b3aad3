import PlanarMath.Cursor
import PlanarMath.FunctionTable.File
import PlanarMath.Proofs.Expr.WellFormed
import PlanarMath.Proofs.Grammar.Calls
import PlanarMath.Proofs.Reading.Bounded
import PlanarMath.Proofs.Reading.Kept
import PlanarMath.Proofs.Reading.Total

/-!
# Reading is safe

Reading a layout never ends in a fault, and nothing that it puts together on the way breaks a rule: the
nodes of all tokens of all rows, what every call of a reader is given, and what it returns are well-formed
and carry a range.  A suffix is read only where a token is left.  What was found can be reported unless the limit,
or an index of the layout, is too long to be written.

    rows       give tokens with well-formed nodes          (Kept.rowTokens)
    readers    keep that at every call                     (Grammar.Kept.callsFrom)
    checks     are passed by well-formed operands          (Placed.join?_eq_ok)
-/

namespace PlanarMath

/-- The node of a token, if it has one, is well-formed. -/
def Token.WellFormed (t : Token) : Prop := t.Holds Placed.WellFormed Placed.WellFormed

/-- Applying a suffix to an expression in its place is not refused. -/
theorem Grammar.Suffix.extend?_eq_ok (s : Suffix) (l : Placed) :
    s.extend? l.expr = .ok (s.apply l).expr := by
  unfold extend?
  rw [Placed.placed?_expr]

/-- The places of a row end in an end of input, so there is a cursor at the first. -/
theorem Cursor.exists_ofMarks? (stop : Range) (ts : List Token) :
    ∃ c, ofMarks? (Mark.all stop ts) = some c := by
  unfold ofMarks?
  rw [dif_pos]
  · exact ⟨_, rfl⟩
  · simp [Mark.all, Mark.stop]

namespace Reading

open Grammar Layout

/-- The constructions of the grammar keep expressions well-formed. -/
theorem kept_wellFormed_grammar : Grammar.Kept Token.WellFormed Placed.WellFormed where
  operand node range h := h
  group node function range h _ := by cases function <;> exact h
  call name named args hn ha := hn.apply ha
  inverseCall name named raised args hn ha := (Placed.WellFormed.inverse hn named raised).apply ha
  join op l r sign? hop hl hr := hl.join hop hr sign?
  pair op l r sign _ hl hr := hl.pair op hr sign
  negate e sign h := h.negate sign
  power e exponent raised hx h := h.power hx raised
  factorial e sign h := h.factorial sign

/-- All constructions of reading do. -/
theorem kept_wellFormed (o : Options) : Kept o Placed.WellFormed Placed.WellFormed where
  toKept := kept_wellFormed_grammar
  function run s range _ hs := Expr.wellFormed_symbol hs range
  letter c range _ := Expr.wellFormed_symbol (by simp) range
  number run v range _ _ := Expr.wellFormed_number v range
  error range := Expr.wellFormed_error range
  enclosed frame s range inner hs hinner := by
    have hne : s ≠ "" := by
      rintro rfl
      cases frame <;> simp [functionOf?] at hs
    exact Expr.wellFormed_call.2 ⟨rfl, Expr.wellFormed_symbol hne range,
      Expr.wellFormed_tuple.2 ⟨List.cons_ne_nil _ _, rfl, List.forall_mem_singleton.2 hinner⟩⟩
  tuple range items hne hitems := by
    refine Expr.wellFormed_tuple.2 ⟨by simpa using hne, rfl, ?_⟩
    intro e he
    obtain ⟨x, hx, rfl⟩ := List.mem_map.1 he
    exact hitems x hx

variable {o : Options}

theorem exists_expressionAt (ho : o.functions.HasNames) (i : Nat) (r : Row) :
    ∃ found e, expressionAt o i r = ⟨found, .ok e⟩ ∧ e.WellFormed := by
  obtain ⟨found, e, h⟩ := exists_of_isOk (expressionAt_isOk ho i r)
  refine ⟨found, e, h, ?_⟩
  rw [expressionAt_natural] at h
  exact (kept_wellFormed o).closed.rowExpression h

theorem exists_groupAt (ho : o.functions.HasNames) (i : Nat) (r : Row) :
    ∃ found e, groupAt o (i + 1 : Nat) r = ⟨found, .ok e⟩ ∧ e.WellFormed := by
  obtain ⟨found, e, h⟩ := exists_of_isOk (groupAt_isOk ho i r)
  refine ⟨found, e, h, ?_⟩
  rw [groupAt_natural] at h
  exact (kept_wellFormed o).closed.anchored.rowGroup h

theorem exists_cursor (ho : o.functions.HasNames) (i : Nat) (r : Row) :
    ∃ found marks c, marksAt o i r = ⟨found, .ok marks⟩ ∧ Cursor.ofMarks? marks = some c := by
  obtain ⟨found, marks, h⟩ := exists_of_isOk (marksAt_isOk ho i r)
  have hm := h
  unfold marksAt at hm
  rw [start_natural] at hm
  obtain ⟨_, j, more, -, hj, -⟩ := Report.andThen_eq_ok.1 hm
  obtain ⟨ts, -, rfl⟩ := Report.map_eq_ok.1 hj
  obtain ⟨c, hc⟩ := Cursor.exists_ofMarks? (endOf (regionOf j r)) ts
  exact ⟨found, _, c, h, hc⟩

/-- What holds at a call of a reader, whatever row it is in: the nodes of its tokens and what it is given
are well-formed, a suffix has a token to start with, and what is returned is well-formed and has a range. -/
structure SafeCall (stop : Range) (r : Reader) (ts : List Token) : Prop where
  tokens : ∀ t ∈ ts, t.WellFormed
  given : r.Given Placed.WellFormed
  suffix : r = .suffix → ts ≠ []
  returns : ∀ e, Returns stop r ts e → e.WellFormed ∧ e.expr.range? = some e.range

theorem safeCall {stop : Range} {start r : Reader} {ts us : List Token} (hts : ∀ t ∈ ts, t.WellFormed)
    (h : CallsFrom stop start ts r us) (hgiven : start.Given Placed.WellFormed)
    (hs : start ≠ .suffix) : SafeCall stop r us := by
  obtain ⟨htokens, hr, hreturns⟩ := kept_wellFormed_grammar.callsFrom hts hgiven h
  refine ⟨htokens, hr, ?_, fun e he => ⟨hreturns e he, e.range?_expr⟩⟩
  rintro rfl
  cases h with
  | itself => exact absurd rfl hs
  | step _ hc => exact hc.suffix_ne_nil

/-- **Safety.**  Under a table whose functions have names, reading a layout gives a well-formed expression with a range,
whatever the layout, the limit and the reader of numbers; and a session answers with it if the limit and the indices
of the layout are not too long to be written, unless its log has a trace that is closed.  Reading a row from any index
on, or a group from any index but the first, gives one as well.  Every row anywhere in a layout gives tokens, at which
every call of a reader is safe; and no construction from well-formed parts is refused. -/
theorem reading_safe (ho : o.functions.HasNames) :
    (∀ row, ∃ found e, readLayout o row = ⟨found, .ok e⟩ ∧ e.WellFormed ∧ e.expr.range? = some e.range ∧
      ∀ s : Session, s.options = o → s.log.IsOpen → (∀ n, o.limit? = some n → Literal.isShort n) →
        Literal.isShort (Row.width row) → (s.call (.layout row)).2 = .ok (.expression e.expr)) ∧
    (∀ (i : Nat) row,
      (∃ found e, expressionAt o i row = ⟨found, .ok e⟩ ∧ e.WellFormed) ∧
      (∃ found e, groupAt o (i + 1 : Nat) row = ⟨found, .ok e⟩ ∧ e.WellFormed) ∧
      ∃ found marks c, marksAt o i row = ⟨found, .ok marks⟩ ∧ Cursor.ofMarks? marks = some c) ∧
    (∀ level i row stop, ∃ found ts, (rowTokens o level i row).andThen (merge o) = ⟨found, .ok ts⟩ ∧
      ∀ r us, CallsFrom stop (.expression lowest) ts r us ∨ CallsFrom stop .items ts r us →
        SafeCall stop r us) ∧
    ∀ l r : Placed, l.WellFormed → r.WellFormed →
      (∀ op sign?, op = .add ∨ op = .multiply →
        Expr.join? op l.expr r.expr sign? = .ok (l.join op r sign?).expr) ∧
      (∀ minus, Expr.negate? minus l.expr = .ok (l.negate minus).expr) ∧
      ∀ s : Suffix, s.extend? l.expr = .ok (s.apply l).expr := by
  refine ⟨?_, ?_, ?_, ?_⟩
  · intro row
    obtain ⟨found, e, h⟩ := exists_of_isOk (readLayout_isOk ho row)
    refine ⟨found, e, h, (kept_wellFormed o).readLayout h, e.range?_expr, ?_⟩
    rintro s rfl hlog hlimit hwidth
    have htakes := Session.takes_of_mem_found hlog hlimit hwidth
    rw [h] at htakes
    exact (Session.enters_call (s := s) (c := .layout row) rfl h).taken htakes
  · intro i row
    exact ⟨exists_expressionAt ho i row, exists_groupAt ho i row, exists_cursor ho i row⟩
  · intro level i row stop
    obtain ⟨found, ts, h⟩ := exists_of_isOk ((rowTokens_isOk ho level i row).andThen (merge_isOk ho))
    have hts : ∀ t ∈ ts, t.WellFormed := (kept_wellFormed o).rowTokens h
    refine ⟨found, ts, h, ?_⟩
    rintro r us (hc | hc)
    · exact safeCall hts hc trivial Reader.noConfusion
    · exact safeCall hts hc trivial Reader.noConfusion
  · intro l r hl hr
    exact ⟨fun op sign? hop => Placed.join?_eq_ok hop hl hr sign?, Placed.negate?_eq_ok l,
      fun s => s.extend?_eq_ok l⟩

/-- A group of nothing, where nothing may be nested. -/
theorem reading_safe_of_empty_group :
    let o : Options := ⟨.standard, Number.ofText?, some 0⟩
    let s : Session := ⟨o, {}, fun _ => ⟨"", ""⟩⟩
    let row : Row := [.framed .parentheses []]
    o.functions.HasNames ∧ s.log.IsOpen ∧ (∀ n, o.limit? = some n → Literal.isShort n) ∧
      Literal.isShort (Row.width row) ∧ ∃ found e, readLayout o row = ⟨found, .ok e⟩ ∧ e.WellFormed ∧
        e.expr.range? = some e.range ∧ (s.call (.layout row)).2 = .ok (.expression e.expr) := by
  intro o s row
  have hnames : o.functions.HasNames := FunctionTable.hasNames_standard
  have hlog : s.log.IsOpen := nofun
  have hlimit : ∀ n, o.limit? = some n → Literal.isShort n := by
    rintro n ⟨⟩
    decide +kernel
  have hwidth : Literal.isShort (Row.width row) := by decide +kernel
  obtain ⟨found, e, h, hwell, hrange, hcall⟩ := (reading_safe (o := o) hnames).1 row
  exact ⟨hnames, hlog, hlimit, hwidth, found, e, h, hwell, hrange, hcall s rfl hlog hlimit hwidth⟩

/-- A session answers with no expression where it has to complain of a limit that is too long, or where a function has
a name with a half. -/
theorem call_fails_at_long_limit :
    let limit : Int := -(10 ^ Literal.digitLimit : Nat)
    let s : Session := ⟨{ limit? := some limit }, {}, fun _ => ⟨"", ""⟩⟩
    let table : WordTable Text.Points := ⟨[⟨[0xD800], [("f" : String)], none⟩]⟩
    let s' : Session := ⟨{ functions := table.view }, {}, fun _ => ⟨"", ""⟩⟩
    s.options.functions.HasNames ∧ (s.call (.layout [.framed .radical [.glyph 'x']])).2 = .error .tooManyDigits ∧
      (∀ e ∈ table.entries, e.name ≠ ∅) ∧
      (s'.call (.layout [.glyph 'f'])).2 = .error (.invalid [⟨[.key "name"], .emptyText⟩]) := by
  intro limit s table s'
  have hlong : Literal.isShort limit = false := (Literal.isShort_neg _).trans Literal.isShort_power
  have hread : expression s.options 0 [.framed .radical [.glyph 'x']] =
      ⟨[⟨.tooDeep limit, .ofWidth 0 3⟩], .ok (.error (.ofWidth 0 3))⟩ :=
    expression_of_limit rfl (Int.neg_nonpos_of_nonneg (Int.natCast_nonneg _))
  have hfound : ((Call.layout [.framed .radical [.glyph 'x']]).report s.options).found =
      [⟨.tooDeep limit, .ofWidth 0 3⟩] := by
    rw [Call.report, readLayout, hread]
    rfl
  have hcall : s.call (.layout [.framed .radical [.glyph 'x']]) = (s, .error .tooManyDigits) :=
    Session.record_of_not_isWordable hfound hlong
  exact ⟨FunctionTable.hasNames_standard, by rw [hcall], List.forall_mem_singleton.2 (by decide), by cbv⟩

end Reading

end PlanarMath
