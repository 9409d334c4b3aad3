import PlanarMath.Proofs.Expr.Sexpr
import PlanarMath.Proofs.Reading.Meaning
import PlanarMath.Proofs.Token.Respaced
import PlanarMath.Proofs.Transcriber.Relabel

/-!
# White space only separates

Blanks may be put in at the start of a row, at its end and between two of its chunks, in every container of a
layout: a name, a numeral, a construct or a single character is a chunk.  All that changes is where things
stand.  Ranges apart, the same expression is read with the same complaints.

    s i n x 2 . 5 / [a b]     _ s i n _ x 2 . 5 / _ [_ a _ _ b]

Taking all ranges to one is a relabelling, after which the tokens of the two rows are the same but for blanks
between chunks, and merging does not see those.
-/

namespace PlanarMath

namespace Layout

/-- How many elements in front of a row are read as one: those of a name or of a numeral, or else one. -/
def Row.chunk (table : FunctionTable) (xs : List Element) : Nat :=
  match Row.letters xs with
  | c :: cs => (Token.Word.first table c cs).length
  | [] =>
    let text := Row.digits false xs
    if text = [] ∨ text = ['.'] then 1 else text.length

mutual

/-- An element, and the same with blanks put in where no chunk of its containers is cut. -/
inductive Element.Respaced (table : FunctionTable) : Element → Element → Prop
  | fraction {above above' below below'} : Row.Respaced table above above' → Row.Respaced table below below' →
      Element.Respaced table (.fraction above below) (.fraction above' below')
  | framed {frame body body'} : Row.Respaced table body body' →
      Element.Respaced table (.framed frame body) (.framed frame body')

/-- A row, and the same with blanks put in where no chunk is cut, of its own and of all containers in it. -/
inductive Row.Respaced (table : FunctionTable) : List Element → List Element → Prop
  | nil : Row.Respaced table [] []
  | blank {c xs ys} : Text.isBlank c → Row.Respaced table xs ys → Row.Respaced table xs (.glyph c :: ys)
  | construct {x y xs ys} : Element.Respaced table x y → Row.Respaced table xs ys →
      Row.Respaced table (x :: xs) (y :: ys)
  | chunk {c cs xs ys} : Row.chunk table ((c :: cs).map .glyph ++ xs) = cs.length + 1 →
      Row.Respaced table xs ys →
      Row.Respaced table ((c :: cs).map .glyph ++ xs) ((c :: cs).map .glyph ++ ys)

end

end Layout

/-! ## Ranges taken to one -/

/-- All ranges taken to the empty range at the start. -/
def Relabelling.collapse : Relabelling :=
  .ofRange (fun _ => .ofWidth 0 0) (fun _ _ => rfl) fun _ => rfl

namespace Expr

mutual

theorem bare_relabel (ρ : Relabelling) : ∀ e : Expr, (e.relabel ρ).bare = e.bare
  | number v r | symbol v r | error r => rfl
  | unary op arg r sign => by rw [relabel, bare, bare_relabel ρ arg, bare]
  | binary op args r sign => by rw [relabel, bare, bareAll_relabelAll ρ args, bare]
  | tuple items r => by rw [relabel, bare, bareAll_relabelAll ρ items, bare]
  | call target args argsRange r => by
    rw [relabel, bare, bare_relabel ρ target, bareAll_relabelAll ρ args, bare]

theorem bareAll_relabelAll (ρ : Relabelling) : ∀ es : List Expr, bareAll (relabelAll ρ es) = bareAll es
  | [] => rfl
  | e :: es => by rw [relabelAll, bareAll, bare_relabel ρ e, bareAll_relabelAll ρ es, bareAll]

end

end Expr

namespace Report

variable {α β : Type} {R : α → α → Prop} {S : β → β → Prop} {r r' : Report α}

/-- Reports with the same complaints that are stopped by the same fault, or have results that are related. -/
inductive Linked (R : α → α → Prop) : Report α → Report α → Prop
  | fault {found f} : Linked R ⟨found, .error f⟩ ⟨found, .error f⟩
  | ok {found a b} : R a b → Linked R ⟨found, .ok a⟩ ⟨found, .ok b⟩

theorem Linked.of_results (h : ∀ found a, r = ⟨found, .ok a⟩ → R a a) : Linked R r r := by
  obtain ⟨found, result⟩ := r
  cases result with
  | error f => exact .fault
  | ok a => exact .ok (h found a rfl)

theorem Linked.andThen_eq (h : Linked R r r') {f g : α → Report β} (hf : ∀ a b, R a b → g b = f a) :
    r'.andThen g = r.andThen f := by
  cases h with
  | fault => rfl
  | @ok found a b hab =>
    unfold Report.andThen
    simp only [hf a b hab]

theorem Linked.andThen (h : Linked R r r') {f g : α → Report β} (hf : ∀ a b, R a b → Linked S (f a) (g b)) :
    Linked S (r.andThen f) (r'.andThen g) := by
  cases h with
  | fault => exact .fault
  | @ok found a b hab =>
    unfold Report.andThen
    simp only
    generalize f a = s, g b = s', hf a b hab = hs
    cases hs with
    | fault => exact .fault
    | ok hcd => exact .ok hcd

theorem Linked.map (h : Linked R r r') {f g : α → β} (hf : ∀ a b, R a b → S (f a) (g b)) :
    Linked S (r.map f) (r'.map g) := by
  cases h with
  | fault => exact .fault
  | ok hab => exact .ok (hf _ _ hab)

theorem Linked.map_right (h : Linked R r r') {g : α → α}
    (hg : ∀ a b, R a b → R a (g b)) : Linked R r (r'.map g) := by
  cases h with
  | fault => exact .fault
  | ok hab => exact .ok (hg _ _ hab)

end Report

namespace Reading

open Layout Token

/-! ## Chunks of rows and of tokens -/

/-- The letters and the digits in front of some tokens are those in front of a row. -/
structure SameFront (xs : Row) (ts : List Token) : Prop where
  letters : (letterRun ts).map (·.1) = Row.letters xs
  digits : ∀ pointed, (numeralRun pointed ts).map (·.1) = Row.digits pointed xs

namespace SameFront

variable {xs : Row} {ts : List Token}

theorem nil : SameFront [] [] := ⟨rfl, fun _ => rfl⟩

theorem glyph (h : SameFront xs ts) (c : Char) (r : Range) : SameFront (.glyph c :: xs) (.glyph c r :: ts) where
  letters := by
    rw [letterRun, Row.letters, ← h.letters]
    split <;> rfl
  digits pointed := by
    rw [numeralRun, Row.digits, ← h.digits, ← h.digits]
    split
    · rfl
    · split <;> rfl

theorem glyphs (h : SameFront xs ts) (cs : List Char) (r : Range) :
    SameFront (cs.map .glyph ++ xs) (cs.map (Token.glyph · r) ++ ts) := by
  induction cs with
  | nil => exact h
  | cons c cs ih => exact ih.glyph c r

theorem construct {x : Element} (hx : x.isGlyph = false) {t : Token} (ht : ∀ c r, t ≠ .glyph c r) :
    SameFront (x :: xs) (t :: ts) := by
  cases t with
  | glyph c r => exact absurd rfl (ht c r)
  | _ =>
    cases x with
    | glyph c => cases hx
    | _ => exact ⟨rfl, fun _ => rfl⟩

theorem chunk_eq (h : SameFront xs ts) (table : FunctionTable) : chunk table ts = Row.chunk table xs := by
  have hletters := h.letters
  unfold chunk Row.chunk
  cases hr : letterRun ts with
  | cons p others =>
    rw [hr] at hletters
    rw [← hletters]
    rfl
  | nil =>
    rw [hr] at hletters
    rw [← hletters]
    simp only [List.map_nil, ← h.digits, numeralChunk, List.length_map, ← startsNumeral_eq_false_iff]
    cases startsNumeral ts <;> rfl

end SameFront

end Reading

namespace Method

open Layout Reading Token Counting

variable {m : Method}

/-- Tokens of a row, and those of the row with blanks put in. -/
def Spread (table : FunctionTable) (xs : Row) (ts us : List Token) : Prop :=
  SameFront xs ts ∧ Respaced (chunk table) ts us

theorem elements_glyphs (i : Nat) (cs : List Char) (xs : Row) (count : Int) :
    (m.elements i (cs.map .glyph ++ xs) count).1.relabel .collapse (List.map (Token.relabel .collapse)) =
      ((m.elements (i + cs.length) xs count).1.relabel .collapse (List.map (Token.relabel .collapse))).map
        (cs.map (Token.glyph · (.ofWidth 0 0)) ++ ·) := by
  induction cs generalizing i with
  | nil => exact (Report.map_id _).symm
  | cons c cs ih =>
    have hnext : i + 1 + cs.length = i + (c :: cs).length := by
      rw [List.length_cons]
      omega
    rw [List.map_cons, List.cons_append, elements_cons_relabel, Element.width_glyph, ih, hnext]
    have hglyph : (m.element i (.glyph c) count).1.relabel .collapse (Token.relabel .collapse) =
        .ok (.glyph c (.ofWidth 0 0)) := rfl
    rw [hglyph, Report.ok_andThen, Report.map_map]
    rfl

section
variable {x y : Counting (List Token)} {count : Int} {xs : Row} (hx : x.Restores) (hy : y.Restores)
  (h : ((x count).1.relabel .collapse (List.map (Token.relabel .collapse))).Linked (Spread m.functions xs)
    ((y count).1.relabel .collapse (List.map (Token.relabel .collapse))))
include hx hy h

theorem content_respaced (region region' : Range) :
    (m.content region' y count).1.relabel .collapse (Placed.relabel .collapse) =
      (m.content region x count).1.relabel .collapse (Placed.relabel .collapse) := by
  rw [content_relabel _ m hx, content_relabel _ m hy]
  apply h.andThen_eq
  intro ts us hspread
  rw [m.merge_respaced hspread.2]
  rfl

theorem framedContent_respaced (frame : Frame) (region region' outer outer' : Range) :
    (m.framedContent frame region' outer' y count).1.relabel .collapse (Placed.relabel .collapse) =
      (m.framedContent frame region outer x count).1.relabel .collapse (Placed.relabel .collapse) := by
  rw [framedContent_relabel _ m hx, framedContent_relabel _ m hy]
  apply h.andThen_eq
  intro ts us hspread
  unfold frameContent
  rw [m.merge_respaced hspread.2]
  rfl

end

/-- The same token, which is no glyph. -/
def SameConstruct (t u : Token) : Prop := t = u ∧ ∀ c r, t ≠ .glyph c r

mutual

theorem element_respaced (count : Int) (i j : Nat) : ∀ {x y : Element}, x.Respaced m.functions y →
    ((m.element i x count).1.relabel .collapse (Token.relabel .collapse)).Linked SameConstruct
      ((m.element j y count).1.relabel .collapse (Token.relabel .collapse))
  | .fraction above below, .fraction above' below', .fraction habove hbelow => by
    cases h : m.isTooDeep count with
    | some limit =>
      rw [element, element, unlessDeep_deep h, unlessDeep_deep h, ← deepToken_relabel, ← deepToken_relabel]
      exact .ok ⟨rfl, nofun⟩
    | none =>
      have hnum := content_respaced (m.elements_restores _ above) (m.elements_restores _ above')
        (elements_respaced (count + 1) (i + 1) (j + 1) habove) (.ofWidth (i + 1) (Row.width above))
        (.ofWidth (j + 1) (Row.width above'))
      have hden := content_respaced (m.elements_restores _ below) (m.elements_restores _ below')
        (elements_respaced (count + 1) (i + 1 + Row.width above + 1) (j + 1 + Row.width above' + 1) hbelow)
        (.ofWidth (i + 1 + Row.width above + 1) (Row.width below))
        (.ofWidth (j + 1 + Row.width above' + 1) (Row.width below'))
      rw [fraction_relabel _ h, fraction_relabel _ h, hnum, hden]
      apply Report.Linked.of_results
      intro found t ht
      obtain ⟨-, num, more, -, hmore, -⟩ := Report.andThen_eq_ok.1 ht
      obtain ⟨den, -, rfl⟩ := Report.map_eq_ok.1 hmore
      exact ⟨rfl, nofun⟩
  | .framed frame body, .framed _ body', .framed hbody => by
    cases h : m.isTooDeep count with
    | some limit =>
      rw [element, element, unlessDeep_deep h, unlessDeep_deep h, ← deepToken_relabel, ← deepToken_relabel]
      cases frame <;> exact .ok ⟨rfl, nofun⟩
    | none =>
      have hinner := framedContent_respaced (m.elements_restores _ body) (m.elements_restores _ body')
        (elements_respaced (count + 1) (i + 1) (j + 1) hbody) frame (.ofWidth (i + 1) (Row.width body))
        (.ofWidth (j + 1) (Row.width body')) (.ofWidth i (Row.width body + 2)) (.ofWidth j (Row.width body' + 2))
      rw [framed_relabel _ h, framed_relabel _ h, hinner]
      apply Report.Linked.of_results
      intro found t ht
      obtain ⟨inner, -, rfl⟩ := Report.map_eq_ok.1 ht
      cases frame <;> exact ⟨rfl, nofun⟩

theorem elements_respaced (count : Int) (i j : Nat) : ∀ {xs ys : List Element}, Row.Respaced m.functions xs ys →
    ((m.elements i xs count).1.relabel .collapse (List.map (Token.relabel .collapse))).Linked
      (Spread m.functions xs)
      ((m.elements j ys count).1.relabel .collapse (List.map (Token.relabel .collapse)))
  | _, _, .nil => .ok ⟨.nil, .nil⟩
  | _, _, @Row.Respaced.blank _ c xs ys hc hxs => by
    have hglyph := elements_glyphs (m := m) j [c] ys count
    rw [List.map_singleton, List.singleton_append] at hglyph
    rw [hglyph]
    exact (elements_respaced count i (j + 1) hxs).map_right fun ts us h => ⟨h.1, .blank hc h.2⟩
  | _, _, @Row.Respaced.construct _ x y xs ys hx hxs => by
    have hconstruct : x.isGlyph = false := by cases hx <;> rfl
    have hone : Row.chunk m.functions (x :: xs) = 1 := by cases hx <;> rfl
    rw [elements_cons_relabel, elements_cons_relabel]
    apply (element_respaced count i j hx).andThen
    rintro t _ ⟨rfl, ht⟩
    apply (elements_respaced count (i + x.width) (j + y.width) hxs).map
    rintro ts us ⟨-, hspaced⟩
    have hfront' : SameFront (x :: xs) (t :: ts) := .construct hconstruct ht
    exact ⟨hfront', .chunk (p := []) ((hfront'.chunk_eq m.functions).trans hone) hspaced⟩
  | _, _, @Row.Respaced.chunk _ c cs xs ys hchunk hxs => by
    rw [elements_glyphs, elements_glyphs]
    apply (elements_respaced count (i + (c :: cs).length) (j + (c :: cs).length) hxs).map
    rintro ts us ⟨hfront, hspaced⟩
    have hfront' := hfront.glyphs (c :: cs) (.ofWidth 0 0)
    refine ⟨hfront', .chunk ?_ hspaced⟩
    rw [List.length_map]
    exact (hfront'.chunk_eq m.functions).trans hchunk

end

theorem expression_respaced (count : Int) (i j : Nat) {r r' : Row} (h : Row.Respaced m.functions r r') :
    (m.expression j r' count).1.relabel .collapse (Placed.relabel .collapse) =
      (m.expression i r count).1.relabel .collapse (Placed.relabel .collapse) :=
  content_respaced (m.elements_restores i r) (m.elements_restores j r') (elements_respaced count i j h) _ _

end Method

/-! ## Layouts -/

/-- The place without its range and those of its node. -/
def Mark.bare (m : Mark) : Mark := ⟨m.kind, .ofWidth 0 0, m.node?.map Expr.bare⟩

/-- The answer without ranges. -/
def Answer.bare : Answer → Answer
  | expression e => expression e.bare
  | tokens marks => tokens (marks.map Mark.bare)

/-- What a report says, ranges apart: the complaints in their order, and the answer or the fault. -/
def Report.bare (r : Report Answer) : List Complaint × Except Fault Answer :=
  (r.found.map (·.complaint), r.result.map Answer.bare)

/-- Taking all ranges to one changes nothing of what a report says apart from ranges. -/
theorem Report.bare_collapse (r : Report Placed) :
    ((r.relabel .collapse (Placed.relabel .collapse)).map fun e => Answer.expression e.expr).bare =
      (r.map fun e => Answer.expression e.expr).bare := by
  obtain ⟨found, result⟩ := r
  have hfound : (found.map (Diagnostic.relabel .collapse)).map (·.complaint) = found.map (·.complaint) := by
    rw [List.map_map]
    apply List.map_congr_left
    intro d _
    exact Complaint.relabel_of_id rfl d.complaint
  cases result with
  | error f => exact congrArg (Prod.mk · (Except.error f)) hfound
  | ok e =>
    have hexpr : (e.relabel .collapse).expr.bare = e.expr.bare := Expr.bare_relabel .collapse e.expr
    exact congrArg₂ Prod.mk hfound (congrArg (fun e => Except.ok (Answer.expression e)) hexpr)

/-- **White space only separates.**  With any number of blanks put into any containers of a layout, at the start,
at the end or between two chunks, a transcriber gives the same expression, ranges apart, or is stopped by the same
fault, and has the same complaints in the same order, ranges apart. -/
theorem Transcriber.call_respaced (t : Transcriber) {r r' : Layout.Row}
    (h : Layout.Row.Respaced t.method.functions r r') :
    (t.call (.layout r')).1.bare = (t.call (.layout r)).1.bare := by
  have hcall : ∀ r, (t.call (.layout r)).1.bare =
      (((t.method.expression 0 r t.count).1.relabel .collapse (Placed.relabel .collapse)).map fun e =>
        Answer.expression e.expr).bare := fun r => (Report.bare_collapse _).symm
  rw [hcall, hcall, t.method.expression_respaced t.count 0 0 h]

/-- A root of a sine beside a numeral, and the same with blanks around the root, the sine and the numeral. -/
theorem Transcriber.call_respaced_of_root :
    let r : Layout.Row := [.framed .radical [.glyph 's', .glyph 'i', .glyph 'n', .glyph 'x'],
      .glyph '2', .glyph '5', .glyph '*']
    let r' : Layout.Row := [.glyph ' ',
      .framed .radical [.glyph ' ', .glyph 's', .glyph 'i', .glyph 'n', .glyph '\t', .glyph ' ', .glyph 'x'],
      .glyph '2', .glyph '5', .glyph ' ', .glyph '*', .glyph ' ']
    let t : Transcriber := { method := { functions := ⟨[⟨"sin", ["sin"], none⟩]⟩ } }
    Layout.Row.Respaced t.method.functions r r' ∧
      (t.call (.layout r)).1.found = [⟨.unexpected .endOfInput, .ofWidth 9 0⟩] ∧
      (t.call (.layout r')).1.found = [⟨.unexpected .endOfInput, .ofWidth 15 0⟩] ∧
      (t.call (.layout r')).1.bare = (t.call (.layout r)).1.bare := by
  intro r r' t
  have hx : Layout.Row.Respaced t.method.functions [.glyph 'x'] [.glyph '\t', .glyph ' ', .glyph 'x'] :=
    .blank rfl (.blank rfl (@Layout.Row.Respaced.chunk _ 'x' [] _ _ (by cbv) .nil))
  have hsine : Layout.Row.Respaced t.method.functions [.glyph 's', .glyph 'i', .glyph 'n', .glyph 'x']
      [.glyph ' ', .glyph 's', .glyph 'i', .glyph 'n', .glyph '\t', .glyph ' ', .glyph 'x'] :=
    .blank rfl (@Layout.Row.Respaced.chunk _ 's' ['i', 'n'] _ _ (by cbv) hx)
  have hsign : Layout.Row.Respaced t.method.functions [.glyph '*'] [.glyph ' ', .glyph '*', .glyph ' '] :=
    .blank rfl (@Layout.Row.Respaced.chunk _ '*' [] _ _ (by cbv) (.blank rfl .nil))
  have hrow : Layout.Row.Respaced t.method.functions r r' :=
    .blank rfl (.construct (.framed hsine) (@Layout.Row.Respaced.chunk _ '2' ['5'] _ _ (by cbv) hsign))
  exact ⟨hrow, by cbv, by cbv, t.call_respaced hrow⟩

end PlanarMath
