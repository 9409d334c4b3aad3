import Mathlib
import PlanarMath.Proofs.Grammar.Leaves
import PlanarMath.Proofs.Reading.Acceptance
import PlanarMath.Proofs.Reading.Runs
import PlanarMath.Proofs.Token.Longest

/-!
# Leaves of layouts

The names and numbers of a layout in the order of the document, said of the layout alone: from left to
right, the longest word that the table knows or else a letter, a run of digits with its value, and the
leaves of a construct (`Row.leaves`).  A construct that applies a function starts with its name, a fraction
goes on below its bar, and a superscript behind the name of a function has none.

A layout that is read without a complaint has these leaves, each once and in this order.

    2 s i n  |x|/3        2  sin  abs  x  3
-/

namespace PlanarMath

open Layout

/-! ## The order of the document -/

/-- An element of a row with the leaves of its content: a character, a superscript or another construct. -/
inductive Piece where
  | character (c : Char)
  | raised (leaves : List Leaf)
  | construct (leaves : List Leaf)

namespace Piece

/-- The letters in front of a row. -/
def letters : List Piece → List Char
  | .character c :: ps => if Text.isLetter c then c :: letters ps else []
  | _ => []

/-- The digits in front of a row, with at most one point unless there was one. -/
def digits (pointed : Bool) : List Piece → List Char
  | .character c :: ps =>
    if Text.isAsciiDigit c then c :: digits pointed ps
    else if c = '.' ∧ !pointed then c :: digits true ps
    else []
  | _ => []

/-- The leaves of an element alone, behind the name of a function or not (`named`). -/
def leaves (named : Bool) : Piece → List Leaf
  | .character _ => []
  | .raised leaves => if named then [] else leaves
  | .construct leaves => leaves

/-- A character that only separates others. -/
def isBlank : Piece → Bool
  | .character c => Text.isBlank c
  | _ => false

/-- The leaves of a row, behind the name of a function or not (`named`). -/
def sequence (table : FunctionTable) (named : Bool) (ps : List Piece) : List Leaf :=
  match ps with
  | [] => []
  | p :: rest =>
    match letters (p :: rest) with
    | c :: cs =>
      match table.knownPrefix? (c :: cs) with
      | some (length, name) => .name name :: sequence table true (rest.drop (length - 1))
      | none => .name c.toString :: sequence table false rest
    | [] =>
      let text := digits false (p :: rest)
      if text = [] ∨ text = ['.'] then p.leaves named ++ sequence table (named && p.isBlank) rest
      else (Number.ofText? (String.ofList text)).toList.map .number ++
        sequence table false (rest.drop (text.length - 1))
termination_by ps.length
decreasing_by all_goals simp only [List.length_drop, List.length_cons]; omega

/-- A frame with the leaves of its content, behind the name of the function that it applies. -/
def ofFrame : Frame → List Leaf → Piece
  | .superscript, leaves => .raised leaves
  | frame, leaves => .construct ((Reading.functionOf? frame).toList.map .name ++ leaves)

end Piece

mutual

/-- An element with the leaves of its content. -/
def Layout.Element.piece (table : FunctionTable) : Element → Piece
  | .glyph c => .character c
  | .fraction above below =>
    .construct (Piece.sequence table false (Row.pieces table above) ++
      Piece.sequence table false (Row.pieces table below))
  | .framed frame body => .ofFrame frame (Piece.sequence table false (Row.pieces table body))

/-- The elements of a row. -/
def Layout.Row.pieces (table : FunctionTable) : List Element → List Piece
  | [] => []
  | x :: xs => x.piece table :: Row.pieces table xs

end

/-- The leaves of a row, in the order of the document. -/
def Layout.Row.leaves (table : FunctionTable) (r : Row) : List Leaf :=
  Piece.sequence table false (Row.pieces table r)

/-! ## Tokens as pieces -/

namespace Token

/-- A token with the leaves of its node. -/
def piece : Token → Piece
  | .glyph c _ => .character c
  | .operand node _ _ | .subscript node _ => .construct node.expr.leaves
  | .superscript node _ => .raised node.expr.leaves

/-- The name of a function. -/
def isName : Token → Bool
  | .operand _ function _ => function
  | _ => false

theorem letters_piece (ts : List Token) : Piece.letters (ts.map piece) = (letterRun ts).map (·.1) := by
  induction ts with
  | nil => rfl
  | cons t ts ih =>
    cases t with
    | glyph c r =>
      rw [List.map_cons, piece, Piece.letters, letterRun, ih]
      split <;> rfl
    | operand => rfl
    | superscript => rfl
    | subscript => rfl

theorem digits_piece (ts : List Token) (pointed : Bool) :
    Piece.digits pointed (ts.map piece) = (numeralRun pointed ts).map (·.1) := by
  induction ts generalizing pointed with
  | nil => rfl
  | cons t ts ih =>
    cases t with
    | glyph c r =>
      rw [List.map_cons, piece, Piece.digits, numeralRun, ih, ih]
      split
      · rfl
      · split <;> rfl
    | operand => rfl
    | superscript => rfl
    | subscript => rfl

end Token

namespace Piece

variable {table : FunctionTable} {named : Bool} {ps rest : List Piece}

/-- A word in front of a row. -/
theorem sequence_word {c : Char} {cs : List Char} (h : letters ps = c :: cs) {n : Nat} {name : String}
    {function : Bool} (hw : Token.Word.first table c cs = ⟨n + 1, name, function⟩) :
    sequence table named ps = .name name :: sequence table function (ps.drop (n + 1)) := by
  match ps with
  | [] => cases h
  | p :: rest =>
    rw [Token.Word.first_eq] at hw
    rw [sequence, h]
    split at hw
    · next length name' hk =>
      cases hw
      simp only [hk]
      rfl
    · next hk =>
      cases hw
      simp only [hk]
      rfl

/-- Digits in front of a row, which are no letters and more than a point. -/
theorem sequence_number (hl : letters ps = []) {text : List Char} (h : digits false ps = text)
    (hne : text ≠ []) (hpoint : text ≠ ['.']) :
    sequence table named ps = (Number.ofText? (String.ofList text)).toList.map .number ++
      sequence table false (ps.drop text.length) := by
  match ps with
  | [] => exact absurd h.symm hne
  | p :: rest =>
    obtain ⟨n, hn⟩ : ∃ n, text.length = n + 1 :=
      ⟨_, (Nat.sub_add_cancel (List.length_pos_iff.2 hne)).symm⟩
    rw [sequence, hl]
    simp only [h]
    rw [if_neg (by simp [hne, hpoint]), hn]
    rfl

/-- Anything else in front of a row. -/
theorem sequence_other {p : Piece} (hl : letters (p :: rest) = [])
    (h : digits false (p :: rest) = [] ∨ digits false (p :: rest) = ['.']) :
    sequence table named (p :: rest) = p.leaves named ++ sequence table (named && p.isBlank) rest := by
  rw [sequence, hl]
  exact if_pos h

end Piece

namespace Token

theorem startsNumeral_piece {ts : List Token} :
    startsNumeral ts = false ↔
      Piece.digits false (ts.map piece) = [] ∨ Piece.digits false (ts.map piece) = ['.'] := by
  rw [digits_piece]
  exact startsNumeral_eq_false_iff

/-- The tokens of a row, merged without a complaint, have the leaves of the row. -/
theorem Merged.leaves_eq {table : FunctionTable} {ts us : List Token}
    (h : Merged table Number.ofText? ts [] us) (hts : ∀ t ∈ ts, t.isName = false) (named : Bool) :
    leaves named (us.filter fun t => !Reading.isBlank t) = Piece.sequence table named (ts.map piece) := by
  generalize hfound : ([] : List Diagnostic) = found at h
  induction h generalizing named with
  | nil => rw [List.map_nil, Piece.sequence]; rfl
  | @other t ts found us hl hn _ ih =>
    obtain ⟨ht, hts⟩ := List.forall_mem_cons.1 hts
    have hletters : Piece.letters (t.piece :: ts.map piece) = [] := by
      rw [← List.map_cons, letters_piece, hl]
      rfl
    rw [List.map_cons, Piece.sequence_other hletters (startsNumeral_piece.1 hn), ← ih hts _ hfound]
    cases t with
    | glyph c r =>
      by_cases hb : Text.isBlank c
      · simp [Reading.isBlank, Piece.leaves, Piece.isBlank, piece, hb]
      · simp [Reading.isBlank, Piece.leaves, Piece.isBlank, piece, hb, leaves]
    | operand node function r =>
      obtain rfl : function = false := ht
      simp [Reading.isBlank, Piece.leaves, Piece.isBlank, piece, leaves]
    | superscript node r => simp [Reading.isBlank, Piece.leaves, Piece.isBlank, piece, leaves]
    | subscript node r => simp [Reading.isBlank, Piece.leaves, Piece.isBlank, piece, leaves]
  | @name ts found us c r others n name function hr hw hname _ ih =>
    have hletters : Piece.letters (ts.map piece) = c :: others.map (·.1) := by
      rw [letters_piece, hr]
      rfl
    have hrest := ih (fun t ht => hts t (List.mem_of_mem_drop ht)) function hfound
    rw [Piece.sequence_word hletters hw, ← List.map_drop, ← hrest]
    rfl
  | @number ts found us c r others v hr hn hv _ ih =>
    have hletters : Piece.letters (ts.map piece) = [] := by
      rw [letters_piece, letterRun_of_numeralRun hr]
      rfl
    have hdigits : Piece.digits false (ts.map piece) = ((c, r) :: others).map (·.1) := by
      rw [digits_piece, hr]
    have hpoint : ((c, r) :: others).map (·.1) ≠ ['.'] := by
      rw [← hdigits]
      intro hp
      have := startsNumeral_piece.2 (.inr hp)
      rw [hn] at this
      cases this
    have hmagnitude : v.abs = v := by
      refine Number.abs_of_ofText? (fun d hd => ?_) hv
      obtain ⟨p, hp, rfl⟩ := List.mem_map.1 hd
      exact isNumeral_numeralRun ts false p (hr ▸ hp)
    have hrest := ih (fun t ht => hts t (List.mem_of_mem_drop ht)) false hfound
    have hvalue : Number.ofText? (String.ofList (((c, r) :: others).map (·.1))) = some v := hv
    rw [Piece.sequence_number hletters hdigits (List.cons_ne_nil _ _) hpoint, hvalue, List.length_map,
      List.length_cons, ← List.map_drop, ← hrest]
    show Leaf.number v.abs :: _ = _
    rw [hmagnitude]
    rfl
  | rejected => cases hfound

end Token

/-! ## Rows -/

namespace Reading

open Grammar Token

/-- The token of an element that is read without a complaint has the leaves of the element. -/
def Shows (table : FunctionTable) (_ : Nat) (x : Element) (found : List Diagnostic) (t : Token) : Prop :=
  t.isName = false ∧ (found = [] → t.piece = x.piece table)

theorem Aligned.pieces {table : FunctionTable} {i : Nat} {xs : Row} {found : List Diagnostic}
    {ts : List Token} (h : Aligned (Shows table) i xs found ts) :
    (∀ t ∈ ts, t.isName = false) ∧ (found = [] → ts.map piece = Row.pieces table xs) := by
  induction h with
  | nil => exact ⟨List.forall_mem_nil _, fun _ => by rw [Row.pieces]; rfl⟩
  | cons ht _ ih =>
    refine ⟨List.forall_mem_cons.2 ⟨ht.1, ih.1⟩, fun hfound => ?_⟩
    obtain ⟨hfirst, hmore⟩ := List.append_eq_nil_iff.1 hfound
    rw [List.map_cons, Row.pieces, ht.2 hfirst, ih.2 hmore]

theorem plain_of_isName {t : Token} (h : t.isName = false) : isUnambiguous t := by
  cases t with
  | operand node function r =>
    obtain rfl : function = false := h
    simp [isUnambiguous, isPlainOperand]
  | _ => rfl

theorem piece_frameToken (frame : Frame) (range : Range) (inner : Placed) :
    (frameToken frame range inner).piece = .ofFrame frame inner.expr.leaves := by
  have hcall : ∀ s, (enclosed s range inner).expr.leaves = .name s :: inner.expr.leaves := by
    intro s
    show Expr.gather Expr.asLeaf? (.call _ [inner.expr] _ _) = _
    rw [Expr.gather_call Expr.atomic_asLeaf?, Expr.gatherAll_singleton]
    rfl
  cases frame with
  | radical => exact congrArg Piece.construct (hcall "sqrt")
  | absoluteValue => exact congrArg Piece.construct (hcall "abs")
  | ceiling => exact congrArg Piece.construct (hcall "ceil")
  | floor => exact congrArg Piece.construct (hcall "floor")
  | _ => rfl

variable {table : FunctionTable} {limit? : Option Int}

/-- The tokens that the grammar sees of a row without a complaint have the leaves of the row, and every
group among them is a plain operand. -/
theorem leaves_of_aligned {i : Nat} {xs : Row} {ts us : List Token}
    (hm : merge { functions := table, limit? := limit? } ts = ⟨[], .ok us⟩)
    (hts : Aligned (Shows table) i xs [] ts) :
    Token.leaves false us = Row.leaves table xs ∧ ∀ t ∈ us, isGroup t → t.isPlainOperand := by
  obtain ⟨hnames, hpieces⟩ := hts.pieces
  constructor
  · obtain ⟨vs, hmerged, rfl⟩ := exists_merged hm
    rw [hmerged.leaves_eq hnames false, hpieces rfl, Row.leaves]
  · intro t ht hg
    have hplain := isUnambiguous_merge hm (fun t ht => plain_of_isName (hnames t ht)) t ht
    simpa [isUnambiguous, hg] using hplain

/-- **Leaves**, at every element and every row that is read without a complaint. -/
theorem anchored_leaves (table : FunctionTable) (limit? : Option Int) :
    Anchored { functions := table, limit? := limit? } (Shows table)
      (fun _ xs found e => found = [] → e.expr.leaves = Row.leaves table xs)
      (fun _ xs found e => found = [] → e.expr.leaves = Row.leaves table xs) where
  glyph i c := ⟨rfl, fun _ => by rw [Element.piece]; rfl⟩
  deepFraction limit i above below t found h := by
    simp only [deepToken, Report.mk.injEq, Except.ok.injEq] at h
    obtain ⟨rfl, rfl⟩ := h
    exact ⟨rfl, fun hfound => absurd hfound (List.cons_ne_nil _ _)⟩
  deepFrame limit i frame body t found _ h := by
    simp only [deepToken, Report.mk.injEq, Except.ok.injEq] at h
    obtain ⟨rfl, rfl⟩ := h
    refine ⟨?_, fun hfound => absurd hfound (List.cons_ne_nil _ _)⟩
    cases frame <;> rfl
  expression i xs first ts merged us last e hts hm he hfound := by
    simp only [List.append_eq_nil_iff] at hfound
    obtain ⟨rfl, rfl, rfl⟩ := hfound
    obtain ⟨hleaves, hplain⟩ := leaves_of_aligned hm hts
    have hd : Derives true .relation us [] e := whole_eq_ok_iff.1 (orError_eq_ok.1 he)
    rw [← hleaves, hd.leaves_eq hplain, Token.leaves, List.append_nil]
  group i xs first ts merged us last e hts hm he hfound := by
    simp only [List.append_eq_nil_iff] at hfound
    obtain ⟨rfl, rfl, rfl⟩ := hfound
    obtain ⟨hleaves, hplain⟩ := leaves_of_aligned hm hts
    obtain ⟨es, hl, rfl⟩ := map_group_eq_ok.1 (orError_eq_ok.1 he)
    rw [← hleaves, hl.leaves_eq hplain]
    exact Expr.gather_tuple Expr.atomic_asLeaf? _ _
  fraction i above below first more num den hnum hden := by
    refine ⟨rfl, fun hfound => ?_⟩
    obtain ⟨hfirst, hmore⟩ := List.append_eq_nil_iff.1 hfound
    have hpair : (num.pair .divide den (.ofWidth (i + 1 + Row.width above) 1)).expr.leaves =
        num.expr.leaves ++ den.expr.leaves := Placed.gather_pair Expr.atomic_asLeaf? ..
    rw [piece, Element.piece, hpair, hnum hfirst, hden hmore]
    rfl
  framed i frame body found inner hf _ hinner := by
    refine ⟨by cases frame <;> rfl, fun hfound => ?_⟩
    rw [piece_frameToken, Element.piece, hinner hfound]
    rfl
  grouped i body found inner hinner := by
    refine ⟨rfl, fun hfound => ?_⟩
    rw [piece, Element.piece, hinner hfound]
    rfl

end Reading

/-- **Leaves.**  A layout that is read without a complaint has the names and numbers of the layout, in the
order of the document and each once. -/
theorem readLayout_leaves {table : FunctionTable} {limit? : Option Int} {row : Row} {e : Placed}
    (h : readLayout { functions := table, limit? := limit? } row = .ok e) :
    e.expr.leaves = row.leaves table :=
  (Reading.anchored_leaves table limit?).rowExpression h rfl

/-- A sign, the inverse of a function, an absolute value and a fraction. -/
theorem readLayout_leaves_of_inverse :
    let row : Row := [.glyph '-', .glyph '2', .glyph 's', .glyph 'i', .glyph 'n', .glyph ' ',
      .framed .superscript [.glyph '-', .glyph '1'], .framed .absoluteValue [.glyph 'x'],
      .fraction [.glyph 'y'] [.glyph '3']]
    ∃ e, readLayout {} row = .ok e ∧ e.expr.leaves = row.leaves .standard ∧
      row.leaves .standard =
        [.number (.int 2), .name "sin", .name "abs", .name "x", .name "y", .number (.int 3)] := by
  intro row
  let two : Expr := .number (.int (-2)) (some (.ofWidth 0 2))
  let inverse : Expr := .unary .inverse (.symbol "sin" (some (.ofWidth 2 3))) (some (.ofWidth 2 8)) none
  let value : Expr := .call (.symbol "abs" (some (.ofWidth 10 3))) [.symbol "x" (some (.ofWidth 11 1))]
    (some (.ofWidth 11 1)) (some (.ofWidth 10 3))
  let quotient : Expr := .binary .divide [.symbol "y" (some (.ofWidth 14 1)),
    .number (.int 3) (some (.ofWidth 16 1))] (some (.ofWidth 14 3)) (some (.ofWidth 15 1))
  let call : Expr := .call inverse [.binary .multiply [value, quotient] (some (.ofWidth 10 7)) none]
    (some (.ofWidth 10 7)) (some (.ofWidth 2 15))
  let e : Placed := ⟨.binary .multiply [two, call] (some (.ofWidth 0 17)) none, .ofWidth 0 17, rfl⟩
  have hrow : readLayout {} row = .ok e := by cbv
  have hleaves : e.expr.leaves = row.leaves .standard := readLayout_leaves hrow
  exact ⟨e, hrow, hleaves, hleaves.symm⟩

end PlanarMath
