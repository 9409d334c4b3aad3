import Mathlib
import PlanarMath.Proofs.Expr.Sexpr
import PlanarMath.Proofs.Reading.Safety

/-!
# What s-expressions tell of what was read

All symbols of what was read are names of the table, names of functions that frames stand for, or single
letters.  In the standard table none of them has the text of a number, so the s-expressions of what was
read under it tell everything but ranges.
-/

namespace PlanarMath

open Text

namespace Expr

/-- The name of a symbol. -/
def asSymbol? : Expr → Option String
  | symbol name _ => some name
  | _ => none

theorem atomic_asSymbol? : Atomic asSymbol? where
  unary _ _ _ _ := rfl
  binary _ _ _ _ := rfl
  tuple _ _ := rfl
  call _ _ _ _ := rfl
  negate _ _ _ := rfl

theorem mem_gather_asSymbol? {e : Expr} {name : String} {r : Option Range} (h : symbol name r ∈ e.walk) :
    name ∈ gather asSymbol? e := List.mem_filterMap.2 ⟨_, h, rfl⟩

end Expr

namespace Reading

open Grammar Layout Placed PlanarMath.Expr

section
variable {α : Type} {f : Expr → Option α} {P : α → Prop} {e l r : Placed}

/-- All that is found in an expression has a property. -/
def Finds (f : Expr → Option α) (P : α → Prop) (e : Placed) : Prop := ∀ a ∈ gather f e.expr, P a

theorem Finds.of_eq (h : gather f e.expr = gather f l.expr) (hl : Finds f P l) : Finds f P e := by
  unfold Finds
  rw [h]
  exact hl

theorem Finds.of_append (h : gather f e.expr = gather f l.expr ++ gather f r.expr) (hl : Finds f P l)
    (hr : Finds f P r) : Finds f P e := by
  unfold Finds
  rw [h]
  exact List.forall_mem_append.2 ⟨hl, hr⟩

/-- The constructions of the grammar lose and add nothing of what is found where nothing is below. -/
theorem kept_finds (hf : Atomic f) : Grammar.Kept (Token.Holds (Finds f P) (Finds f P)) (Finds f P) where
  operand node range h := h
  group node function range h _ := by cases function <;> exact h
  call name named args hn ha := .of_append (gather_apply hf name args) hn ha
  inverseCall name named raised args hn ha :=
    .of_append (gather_apply hf _ args) (.of_eq (gather_inverse hf name named raised) hn) ha
  join op l r sign? _ hl hr := .of_append (gather_join hf op l r sign?) hl hr
  pair op l r sign _ hl hr := .of_append (gather_pair hf op l r sign) hl hr
  negate e sign h := .of_eq (gather_negate hf sign e) h
  power e exponent raised hx h := .of_append (gather_power hf e exponent raised) h hx
  factorial e sign h := .of_eq (gather_factorial hf e sign) h

theorem finds_tuple (hf : Atomic f) (range : Range) (items : List Placed) (h : ∀ e ∈ items, Finds f P e) :
    Finds f P (tuple range items) := by
  unfold Finds Reading.tuple
  rw [gather_tuple hf, gatherAll]
  intro a ha
  obtain ⟨n, hn, hfound⟩ := List.mem_filterMap.1 ha
  obtain ⟨x, hx, hn⟩ := mem_walkAll.1 hn
  obtain ⟨e, he, rfl⟩ := List.mem_map.1 hx
  exact h e he a (List.mem_filterMap.2 ⟨n, hn, hfound⟩)

end

/-- All constructions of reading keep a property of symbols that the names of the table, the functions of
frames and all letters have. -/
theorem kept_symbols {P : String → Prop} {o : Options} (htable : ∀ e ∈ o.functions.entries, P e.name)
    (hframe : ∀ frame s, functionOf? frame = some s → P s) (hletter : ∀ c, isLetter c → P c.toString) :
    Kept o (Finds asSymbol? P) (Finds asSymbol? P) where
  toKept := kept_finds atomic_asSymbol?
  function run s range hn _ := by
    cases hn with
    | function hl =>
      obtain ⟨entry, hentry, rfl⟩ := Token.lookup_mem hl
      exact List.forall_mem_singleton.2 (htable entry hentry)
  letter c range hc := List.forall_mem_singleton.2 (hletter c hc)
  number run v range _ _ := List.forall_mem_nil _
  error range := List.forall_mem_nil _
  enclosed frame s range inner hs hinner := by
    have hcall : gather asSymbol? (enclosed s range inner).expr = s :: gather asSymbol? inner.expr := by
      unfold enclosed
      rw [gather_call atomic_asSymbol?, gatherAll_singleton]
      rfl
    unfold Finds
    rw [hcall]
    exact List.forall_mem_cons.2 ⟨hframe frame s hs, hinner⟩
  tuple range items _ hitems := finds_tuple atomic_asSymbol? range items hitems

end Reading

theorem FunctionTable.isIdentifier_standard : ∀ e ∈ standard.entries, IsIdentifier e.name.toList := by decide

namespace Reading

open Layout PlanarMath.Expr

theorem isIdentifier_functionOf (frame : Frame) (s : String) (h : functionOf? frame = some s) :
    IsIdentifier s.toList := by
  cases frame <;> cases h <;> decide

/-- What is read under the standard table can be told from its s-expression. -/
theorem spelled_readLayout {o : Options} (ho : o.functions = .standard) {row : Row} {found : List Diagnostic}
    {e : Placed} {told : List Number} (h : readLayout o row = ⟨found, .ok e⟩)
    (htold : ∀ v ∈ e.expr.numbers, v ∈ told) : e.expr.Spelled told where
  valid := ((kept_wellFormed o).readLayout h).valid
  names s r hs := by
    have htable : ∀ entry ∈ o.functions.entries, IsIdentifier entry.name.toList := by
      rw [ho]
      exact FunctionTable.isIdentifier_standard
    have hkept := kept_symbols (P := fun name => IsIdentifier name.toList) htable isIdentifier_functionOf
      fun c => isIdentifier_letter
    exact hkept.readLayout h s (mem_gather_asSymbol? hs)
  numbers v r hv := htold v (mem_numbers _ hv)

/-- **Faithfulness.**  Two expressions that are read under the standard table, from whatever layouts, with
whatever limits and complaints, have the same s-expression exactly when they are the same but for ranges.
The texts of numbers are taken to tell the numbers. -/
theorem sexpr_faithful {o o' : Options} (ho : o.functions = .standard) (ho' : o'.functions = .standard)
    {row row' : Row} {found found' : List Diagnostic} {e f : Placed}
    (he : readLayout o row = ⟨found, .ok e⟩) (hf : readLayout o' row' = ⟨found', .ok f⟩)
    (hnum : ToldByText (e.expr.numbers ++ f.expr.numbers)) :
    e.expr.sexpr = f.expr.sexpr ↔ e.expr.bare = f.expr.bare :=
  sexpr_eq_iff hnum (spelled_readLayout ho he fun _ => List.mem_append_left _)
    (spelled_readLayout ho' hf fun _ => List.mem_append_right _)

/-- A root of a product with an error in it, once because the floor is nested too deep, and once because
there is nothing in the brackets. -/
theorem sexpr_faithful_of_errors :
    ∃ found e found' f,
      readLayout ⟨.standard, Number.ofText?, some 1⟩
        [.framed .radical [.glyph '-', .glyph '2', .framed .floor []]] = ⟨found, .ok e⟩ ∧
      readLayout {} [.framed .radical [.glyph '-', .glyph ' ', .glyph '2', .framed .brackets []]] =
        ⟨found', .ok f⟩ ∧
      found ≠ found' ∧ e.expr ≠ f.expr ∧ e.expr.sexpr = f.expr.sexpr ∧ e.expr.bare = f.expr.bare := by
  let e : Placed := ⟨.call (.symbol "sqrt" (some (.ofWidth 0 6))) [.binary .multiply
    [.number (.int (-2)) (some (.ofWidth 1 2)), .error (some (.ofWidth 3 2))] (some (.ofWidth 1 4)) none]
    (some (.ofWidth 1 4)) (some (.ofWidth 0 6)), .ofWidth 0 6, rfl⟩
  let f : Placed := ⟨.call (.symbol "sqrt" (some (.ofWidth 0 7))) [.binary .multiply
    [.number (.int (-2)) (some (.ofWidth 1 3)), .error (some (.ofWidth 5 0))] (some (.ofWidth 1 4)) none]
    (some (.ofWidth 1 4)) (some (.ofWidth 0 7)), .ofWidth 0 7, rfl⟩
  have he : readLayout ⟨.standard, Number.ofText?, some 1⟩
      [.framed .radical [.glyph '-', .glyph '2', .framed .floor []]] =
      ⟨[⟨.tooDeep 1, .ofWidth 3 2⟩], .ok e⟩ := by cbv
  have hf : readLayout {} [.framed .radical [.glyph '-', .glyph ' ', .glyph '2', .framed .brackets []]] =
      ⟨[⟨.unexpected .endOfInput, .ofWidth 5 0⟩], .ok f⟩ := by cbv
  have htwo : ∀ v ∈ e.expr.numbers ++ f.expr.numbers, v = .int (-2) := by decide
  have hnum : ToldByText (e.expr.numbers ++ f.expr.numbers) :=
    fun v hv w hw _ => (htwo v hv).trans (htwo w hw).symm
  have hsame : e.expr.sexpr = f.expr.sexpr := rfl
  exact ⟨_, e, _, f, he, hf, by decide, by decide, hsame, (sexpr_faithful rfl rfl he hf hnum).1 hsame⟩

end Reading

end PlanarMath
