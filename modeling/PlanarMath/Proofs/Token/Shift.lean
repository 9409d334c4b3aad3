import PlanarMath.Proofs.Expr.Shift
import PlanarMath.Proofs.Token.Relabel

/-!
# Tokens further on

Tokens, places and complaints `k` indices further on.  Only their ranges change, so this is the relabelling of
tokens and complaints by the shift of ranges.
-/

namespace PlanarMath

/-- The token `k` indices further on. -/
def Token.shift (k : Nat) : Token → Token
  | glyph c r => glyph c (r.shift k)
  | operand node function r => operand (node.shift k) function (r.shift k)
  | superscript node r => superscript (node.shift k) (r.shift k)
  | subscript node r => subscript (node.shift k) (r.shift k)

/-- The place `k` indices further on. -/
def Mark.shift (k : Nat) (m : Mark) : Mark where
  kind := m.kind
  range := m.range.shift k
  node? := m.node?.map (Expr.shift k)

/-- The complaint `k` indices further on. -/
def Diagnostic.shift (k : Nat) (d : Diagnostic) : Diagnostic := ⟨d.complaint, d.range.shift k⟩

theorem Token.mark_shift (k : Nat) (t : Token) : (t.shift k).mark = t.mark.shift k := by
  cases t <;> rfl

theorem Mark.all_shift (k : Nat) (stop : Range) (ts : List Token) :
    Mark.all (stop.shift k) (ts.map (Token.shift k)) = (Mark.all stop ts).map (Mark.shift k) := by
  simp only [all, List.map_append, List.map_map, List.map_singleton]
  congr 1
  apply List.map_congr_left
  intro t _
  exact Token.mark_shift k t

theorem Token.shift_eq_relabel (k : Nat) : shift k = relabel (.shift k) := by
  funext t
  cases t <;> simp only [shift, relabel, Placed.shift_eq_relabel] <;> rfl

theorem Diagnostic.shift_eq_relabel (k : Nat) : shift k = relabel (.shift k) := by
  funext d
  rw [shift, relabel, Complaint.relabel_of_id rfl]
  rfl

end PlanarMath
