import PlanarMath.Proofs.Grammar.Completeness
import PlanarMath.Proofs.Grammar.Kept
import PlanarMath.Proofs.Reading.Rows

/-!
# What reading keeps

A property of expressions that the grammar keeps, and that holds of all that the elements of a row are
read as, holds of everything that is read from a layout: of the nodes of all tokens of all rows in it, and
of the expressions of all these rows, whether they could be read or not.
-/

namespace PlanarMath

namespace Token

/-- What the node of a token has to be: of any kind when it is the name of a function, and otherwise so
that it has a property. -/
def Holds (name : Placed → Prop) (Q : Placed → Prop) : Token → Prop
  | .glyph .. => True
  | .operand node true _ => name node
  | .operand node false _ | .superscript node _ | .subscript node _ => Q node

end Token

namespace Reading

open Grammar Layout Token

/-- A property of names of functions, and one of expressions that is kept by reading. -/
structure Kept (o : Options) (name : Placed → Prop) (Q : Placed → Prop) : Prop
    extends Grammar.Kept (Token.Holds name Q) Q where
  function : ∀ run s range, Names o.functions run s true → s ≠ "" → name (symbolIn s range)
  letter : ∀ c range, Text.isLetter c → Q (symbolIn c.toString range)
  number : ∀ run v range, IsNumeral run → o.number (textOf run) = some v → Q (numberIn v range)
  error : ∀ range, Q (.error range)
  enclosed : ∀ frame s range inner, functionOf? frame = some s → Q inner → Q (enclosed s range inner)
  tuple : ∀ range items, items ≠ [] → (∀ e ∈ items, Q e) → Q (tuple range items)

namespace Kept

variable {o : Options} {name Q : Placed → Prop}

theorem merge (hk : Kept o name Q) {ts us : List Token} {found : List Diagnostic}
    (h : merge o ts = ⟨found, .ok us⟩) (hts : ∀ t ∈ ts, t.Holds name Q) :
    ∀ t ∈ us, t.Holds name Q := by
  refine forall_mem_merge h ?_ ?_ ?_ hts
  · intro run s function range hn hne
    cases hn with
    | function hl => exact hk.function run s range (.function hl) hne
    | letter hc => exact hk.letter _ range hc
  · intro run v range hr hv
    exact hk.number run v range hr hv
  · intro range
    exact hk.error range

theorem orError (hk : Kept o name Q) {region : Range} {r : Except Halt Placed} {found : List Diagnostic}
    {e : Placed} (hr : ∀ x, r = .ok x → Q x) (h : orError region r = ⟨found, .ok e⟩) : Q e := by
  cases r with
  | ok x =>
    cases h
    exact hr _ rfl
  | error halt =>
    cases h
    exact hk.error region

theorem asExpression (hk : Kept o name Q) {region : Range} {ts : List Token} {found : List Diagnostic}
    {e : Placed} (hts : ∀ t ∈ ts, t.Holds name Q) (h : asExpression region ts = ⟨found, .ok e⟩) :
    Q e :=
  hk.orError (fun _ hx => hk.derives (whole_eq_ok_iff.1 hx) hts) h

theorem asGroup (hk : Kept o name Q) {region outer : Range} {ts : List Token} {found : List Diagnostic}
    {e : Placed} (hts : ∀ t ∈ ts, t.Holds name Q) (h : asGroup region outer ts = ⟨found, .ok e⟩) :
    Q e := by
  refine hk.orError ?_ h
  intro x hx
  obtain ⟨es, hl, rfl⟩ := map_group_eq_ok.1 hx
  exact hk.tuple outer es hl.ne_nil (hk.lists hl hts)

/-- **What reading keeps** holds of all tokens and expressions of a layout. -/
theorem closed (hk : Kept o name Q) :
    Closed o (fun _ _ t => t.Holds name Q) (fun _ _ e => Q e) where
  glyph i c := trivial
  deep limit frame? range t found h := by
    simp only [deepToken, Report.mk.injEq, Except.ok.injEq] at h
    obtain ⟨-, rfl⟩ := h
    split <;> exact hk.error range
  expression i width first ts merged us last e hts hm he := by
    have hrow := Neighbours.forall_mem hts
    exact hk.asExpression (hk.merge hm hrow) he
  group i width first ts merged us last e hts hm he := by
    have hrow := Neighbours.forall_mem hts
    exact hk.asGroup (hk.merge hm hrow) he
  fraction i above below first more num den hnum hden :=
    hk.pair _ _ _ _ (.inl rfl) hnum hden
  framed i width frame found inner hf hinner := by
    cases frame with
    | parentheses => exact absurd rfl hf
    | superscript => exact hinner
    | subscript => exact hinner
    | brackets => exact hinner
    | radical => exact hk.enclosed .radical _ _ _ rfl hinner
    | absoluteValue => exact hk.enclosed .absoluteValue _ _ _ rfl hinner
    | ceiling => exact hk.enclosed .ceiling _ _ _ rfl hinner
    | floor => exact hk.enclosed .floor _ _ _ rfl hinner
  grouped i width found inner hinner := hinner

/-- The tokens of a row, wherever it is in a layout. -/
theorem rowTokens (hk : Kept o name Q) {level i : Nat} {xs : List Element} {found : List Diagnostic}
    {us : List Token}
    (h : (Reading.rowTokens o level i xs).andThen (Reading.merge o) = ⟨found, .ok us⟩) :
    ∀ t ∈ us, t.Holds name Q := by
  obtain ⟨first, ts, more, hts, hus, -⟩ := Report.andThen_eq_ok.1 h
  have hrow := Neighbours.forall_mem (hk.closed.rowTokens level i xs hts)
  exact hk.merge hus hrow

theorem readLayout (hk : Kept o name Q) {r : Row} {found : List Diagnostic} {e : Placed}
    (h : readLayout o r = ⟨found, .ok e⟩) : Q e := hk.closed.rowExpression h

end Kept

end Reading

end PlanarMath
