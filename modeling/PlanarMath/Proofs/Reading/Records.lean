import Mathlib
import PlanarMath.Proofs.Expr.RoundTrip
import PlanarMath.Proofs.Reading.Safety

/-!
# Records of what was read

Two ways lead to an expression, reading a layout and reading a record, and both give expressions that keep
the rules of their nodes.  Those are the ones that can be written as records and read back.
-/

namespace PlanarMath.Reading

open Layout

/-- **Records and expressions.**  The expressions whose nodes keep all rules are those that are read from
some record, and those that are read from their own record.  What is read from a layout is among them.  The
range of a record has the two ends that the record gives, which have to be natural numbers in order. -/
theorem record_roundTrip (o : Options) :
    (∀ e : Expr, (e.Valid ↔ ∃ v, Expr.ofJson v = .ok e) ∧ (e.Valid ↔ Expr.ofJson e.toJson = .ok e)) ∧
    (∀ row found e, readLayout o row = ⟨found, .ok e⟩ →
      e.expr.Valid ∧ Expr.ofJson e.expr.toJson = .ok e.expr) ∧
    ∀ v r, Range.ofJson v = .ok r ↔
      ∃ ms start stop, v = .object ms ∧ Json.member? "start" ms = some start ∧
        Json.member? "end" ms = some stop ∧ Schema.integer start = .ok (r.start : Int) ∧
        Schema.integer stop = .ok (r.stop : Int) := by
  refine ⟨fun e => ⟨Expr.valid_iff_exists_record, Expr.valid_iff_ofJson⟩, ?_, fun v r => Range.ofJson_eq_ok_iff⟩
  intro row found e h
  have hvalid := Expr.WellFormed.valid ((kept_wellFormed o).readLayout h)
  exact ⟨hvalid, Expr.ofJson_toJson hvalid⟩

/-- A sum of a number that is given as text and a symbol whose range is given loosely, and a power. -/
theorem record_roundTrip_of_loose_sum :
    ∃ e f, Expr.ofJson (.object [("node", .text "Binary"), ("op", .text "add"), ("args", .array
        [.object [("node", .text "Number"), ("value", .text "7.0")],
         .object [("range", .object [("end", .text "2"), ("start", .bool true)]), ("name", .text "x"),
           ("node", .text "Symbol")]])]) = .ok e ∧
      e.Valid ∧ Expr.ofJson e.toJson = .ok e ∧
      readLayout {} [.glyph 'x', .framed .superscript [.glyph '2']] = ⟨[], .ok f⟩ ∧
      f.expr.Valid ∧ Expr.ofJson f.expr.toJson = .ok f.expr := by
  let e : Expr := .binary .add [.number (.int 7) none, .symbol "x" (some (.ofWidth 1 1))] none none
  let f : Placed := ⟨.binary .exponent [.symbol "x" (some (.ofWidth 0 1)), .number (.int 2) (some (.ofWidth 2 1))]
    (some (.ofWidth 1 3)) none, .ofWidth 1 3, rfl⟩
  have he : Expr.ofJson (.object [("node", .text "Binary"), ("op", .text "add"), ("args", .array
      [.object [("node", .text "Number"), ("value", .text "7.0")],
       .object [("range", .object [("end", .text "2"), ("start", .bool true)]), ("name", .text "x"),
         ("node", .text "Symbol")]])]) = .ok e := rfl
  have hf : readLayout {} [.glyph 'x', .framed .superscript [.glyph '2']] = ⟨[], .ok f⟩ := by cbv
  obtain ⟨hexpr, hread, -⟩ := record_roundTrip {}
  have hvalid := (hexpr e).1.2 ⟨_, he⟩
  obtain ⟨hfvalid, hfrecord⟩ := hread _ _ _ hf
  exact ⟨e, f, he, hvalid, (hexpr e).2.1 hvalid, hf, hfvalid, hfrecord⟩

end PlanarMath.Reading
