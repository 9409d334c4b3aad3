import PlanarMath.Proofs.Expr.Relabel
import PlanarMath.Token.Numerals
import PlanarMath.Text.Blank

/-!
# Relabelled tokens

Letters, digits, points and blanks mean nothing to the grammar, so a relabelling leaves them alone.  Relabelled
tokens therefore have the same letters and digits in front, and the same names and numerals are read from them,
in other ranges.

    s i n 2 × x     to     s i n 2 * x        sin, 2 and x in both
-/

namespace PlanarMath

variable (ρ : Relabelling)

/-- The token with other ranges and glyphs. -/
def Token.relabel (ρ : Relabelling) : Token → Token
  | glyph c r => glyph (ρ.glyph c) (ρ.range r)
  | operand node function r => operand (node.relabel ρ) function (ρ.range r)
  | superscript node r => superscript (node.relabel ρ) (ρ.range r)
  | subscript node r => subscript (node.relabel ρ) (ρ.range r)

/-- What stands at a place, with another glyph where it is one. -/
def Mark.Kind.relabel (ρ : Relabelling) : Mark.Kind → Mark.Kind
  | codePoint s => match s.toList with
    | [c] => codePoint (ρ.glyph c).toString
    | _ => codePoint s
  | kind => kind

/-- The complaint, with the glyph it shows replaced. -/
def Complaint.relabel (ρ : Relabelling) : Complaint → Complaint
  | unexpected found => unexpected (found.relabel ρ)
  | complaint => complaint

/-- The complaint in another range. -/
def Diagnostic.relabel (ρ : Relabelling) (d : Diagnostic) : Diagnostic :=
  ⟨d.complaint.relabel ρ, ρ.range d.range⟩

/-- What stands at a relabelled token is not expected where what stands at the token is not. -/
theorem Diagnostic.unexpected_relabel (t : Token) :
    unexpected (t.relabel ρ).mark = (unexpected t.mark).relabel ρ := by
  cases t with
  | glyph c r => simp [unexpected, relabel, Token.relabel, Token.mark, Complaint.relabel, Mark.Kind.relabel]
  | _ => rfl

/-! ## What a relabelling leaves alone -/

/-- A relabelling that leaves glyphs alone leaves what is complained of alone. -/
theorem Complaint.relabel_of_id {ρ : Relabelling} (h : ρ.glyph = id) (c : Complaint) : c.relabel ρ = c := by
  have hkind : ∀ kind : Mark.Kind, kind.relabel ρ = kind := by
    intro kind
    cases kind with
    | codePoint s =>
      simp only [Mark.Kind.relabel, h]
      split
      · next c hs => rw [← String.ofList_toList (s := s), hs]; rfl
      · rfl
    | _ => rfl
  cases c with
  | unexpected found => exact congrArg unexpected (hkind found)
  | _ => rfl

/-- The meaning of a glyph tells letters, digits, points and blanks from signs. -/
theorem Grammar.plain_of_isLetter {c : Char} (h : Text.isLetter c) : roleOf c = .plain := by
  unfold roleOf
  split <;> first | rfl | exact absurd h (by decide)

theorem Grammar.plain_of_isAsciiDigit {c : Char} (h : Text.isAsciiDigit c) : roleOf c = .plain := by
  unfold roleOf
  split <;> first | rfl | exact absurd h (by decide)

theorem Grammar.plain_of_isBlank {c : Char} (h : Text.isBlank c) : roleOf c = .plain := by
  unfold roleOf
  split <;> first | rfl | exact absurd h (by decide)

namespace Relabelling

/-- A property of characters without a meaning of their own is kept. -/
theorem property_glyph {P : Char → Bool} (hP : ∀ c, P c → Grammar.roleOf c = .plain) (c : Char) :
    P (ρ.glyph c) = P c := by
  by_cases hc : Grammar.roleOf c = .plain
  · rw [ρ.glyph_of_plain c hc]
  · have hsign : Grammar.roleOf (ρ.glyph c) ≠ .plain := by rwa [ρ.roleOf_glyph]
    rw [Bool.eq_false_iff.2 fun h => hc (hP c h), Bool.eq_false_iff.2 fun h => hsign (hP _ h)]

theorem isLetter_glyph (c : Char) : Text.isLetter (ρ.glyph c) = Text.isLetter c :=
  ρ.property_glyph (fun _ => Grammar.plain_of_isLetter) c

theorem isAsciiDigit_glyph (c : Char) : Text.isAsciiDigit (ρ.glyph c) = Text.isAsciiDigit c :=
  ρ.property_glyph (fun _ => Grammar.plain_of_isAsciiDigit) c

theorem isBlank_glyph (c : Char) : Text.isBlank (ρ.glyph c) = Text.isBlank c :=
  ρ.property_glyph (fun _ => Grammar.plain_of_isBlank) c

theorem glyph_eq_point_iff (c : Char) : ρ.glyph c = '.' ↔ c = '.' := by
  have hpoint := ρ.property_glyph (P := (· == '.')) (fun c hc => by rw [beq_iff_eq.1 hc]; rfl) c
  rw [← beq_iff_eq, hpoint, beq_iff_eq]

end Relabelling

namespace Token

/-! ## Runs -/

/-- Characters with other ranges. -/
def relabelRun (ρ : Relabelling) (run : List (Char × Range)) : List (Char × Range) :=
  run.map fun p => (p.1, ρ.range p.2)

theorem chars_relabelRun (run : List (Char × Range)) : (relabelRun ρ run).map (·.1) = run.map (·.1) := by
  simp only [relabelRun, List.map_map]
  rfl

theorem spanOf_relabel (first : Range) (others : List (Char × Range)) :
    spanOf (ρ.range first) (relabelRun ρ others) = ρ.range (spanOf first others) := by
  unfold spanOf relabelRun
  rw [ρ.range_span, List.getLast?_map]
  cases others.getLast? <;> rfl

theorem letterRun_relabel (ts : List Token) :
    letterRun (ts.map (relabel ρ)) = relabelRun ρ (letterRun ts) := by
  induction ts with
  | nil => rfl
  | cons t ts ih =>
    cases t with
    | glyph c r =>
      simp only [List.map_cons, relabel, letterRun, ih, ρ.isLetter_glyph]
      split
      · next hc =>
        rw [ρ.glyph_of_plain c (Grammar.plain_of_isLetter hc)]
        rfl
      · rfl
    | _ => rfl

theorem numeralRun_relabel (pointed : Bool) (ts : List Token) :
    numeralRun pointed (ts.map (relabel ρ)) = relabelRun ρ (numeralRun pointed ts) := by
  induction ts generalizing pointed with
  | nil => rfl
  | cons t ts ih =>
    cases t with
    | glyph c r =>
      simp only [List.map_cons, relabel, numeralRun, ih, ρ.isAsciiDigit_glyph, ρ.glyph_eq_point_iff]
      split
      · next hc =>
        rw [ρ.glyph_of_plain c (Grammar.plain_of_isAsciiDigit hc)]
        rfl
      · split
        · next hc =>
          rw [(ρ.glyph_eq_point_iff c).2 hc.1, hc.1]
          rfl
        · rfl
    | _ => rfl

/-! ## Names and numerals -/

theorem ofName_relabel (w : Word) (range : Range) :
    ofName w (ρ.range range) = (ofName w range).map (relabel ρ) := by
  unfold ofName
  split <;> rfl

theorem ofNumeral_relabel (value : String → Option Number) (text : List Char) (range : Range) :
    ofNumeral value text (ρ.range range) =
      ((ofNumeral value text range).1.map (Diagnostic.relabel ρ), (ofNumeral value text range).2.relabel ρ) := by
  unfold ofNumeral
  cases value (String.ofList text) <;> rfl

theorem take_relabelRun (n : Nat) (run : List (Char × Range)) :
    (relabelRun ρ run).take n = relabelRun ρ (run.take n) :=
  List.map_take.symm

theorem drop_map_relabel (n : Nat) (ts : List Token) :
    (ts.map (relabel ρ)).drop n = (ts.drop n).map (relabel ρ) :=
  List.map_drop.symm

theorem mergeWords_relabel (table : FunctionTable) (ts : List Token) :
    mergeWords table (ts.map (relabel ρ)) = (mergeWords table ts).map (List.map (relabel ρ)) := by
  induction hn : ts.length using Nat.strongRecOn generalizing ts with
  | _ n ih =>
    match ts with
    | [] =>
      rw [List.map_nil, mergeWords]
      rfl
    | t :: rest =>
      have hrun := letterRun_relabel ρ (t :: rest)
      rw [List.map_cons] at hrun ⊢
      rw [mergeWords, mergeWords, hrun]
      rw [List.length_cons] at hn
      cases letterRun (t :: rest) with
      | nil =>
        have hrest := ih rest.length (by omega) rest rfl
        simp only [relabelRun, List.map_nil, hrest]
        cases mergeWords table rest <;> rfl
      | cons p others =>
        obtain ⟨c, r⟩ := p
        have hrest : ∀ n, _ := fun n => ih (rest.drop n).length (by rw [List.length_drop]; omega) _ rfl
        simp only [relabelRun, List.map_cons]
        rw [← relabelRun, chars_relabelRun]
        generalize Word.first table c (others.map (·.1)) = w
        simp only [take_relabelRun, spanOf_relabel, ofName_relabel, drop_map_relabel, hrest]
        cases ofName w (spanOf r (others.take (w.length - 1))) with
        | error f => rfl
        | ok name => cases mergeWords table (rest.drop (w.length - 1)) <;> rfl

end Token

end PlanarMath
