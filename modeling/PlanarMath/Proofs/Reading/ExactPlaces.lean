import Mathlib
import PlanarMath.Proofs.Grammar.Halts
import PlanarMath.Proofs.Reading.Acceptance

/-!
# Complaints are in their places

Tokens that cannot be read have one complaint of the grammar, and it names the one position at which they
cannot go on: what is before it is the start of tokens that can be read, and what goes up to it and includes
it is not.  The end of the input is a position as well.

    sin ^ 2 x      the complaint is about the superscript, which could have been a minus one
    ( x , )        in the group it is about the end: an item could follow
-/

namespace PlanarMath

/-! ## Tokens with a complaint -/

/-- A complaint of the grammar names what stands at a position of some tokens, their end included. -/
def Diagnostic.Names (d : Diagnostic) (stop : Range) (ts : List Token) (k : Nat) : Prop :=
  ∃ m, (Mark.all stop ts)[k]? = some m ∧
    (d = .unexpected m ∨ m.kind = .superscript ∧ d = ⟨.ambiguousExponent, m.range⟩)

theorem Diagnostic.Names.range {d : Diagnostic} {stop : Range} {ts : List Token} {k : Nat}
    (h : d.Names stop ts k) : ((Mark.all stop ts).map Mark.range)[k]? = some d.range := by
  obtain ⟨m, hm, rfl | ⟨-, rfl⟩⟩ := h
  · rw [List.getElem?_map, hm]; rfl
  · rw [List.getElem?_map, hm]; rfl

/-- Where no two places have the same range, a complaint names one place. -/
theorem Diagnostic.Names.unique {d : Diagnostic} {stop : Range} {ts : List Token} {j k : Nat}
    (hn : ((Mark.all stop ts).map Mark.range).Nodup) (hj : d.Names stop ts j) (hk : d.Names stop ts k) :
    j = k := by
  have hlt := (List.getElem?_eq_some_iff.1 hj.range).1
  exact (List.getElem?_inj hlt hn).1 (hj.range.trans hk.range.symm)

theorem Grammar.StopsAt.names {stop : Range} {rest : List Token} {h : Halt} (hs : StopsAt stop rest h)
    (before : List Token) : h.diagnostic.Names stop (before ++ rest) before.length := by
  have hmark : (Mark.all stop (before ++ rest))[before.length]? = some (Mark.first stop rest) := by
    unfold Mark.all
    rw [List.map_append, List.append_assoc, List.getElem?_append_right (by simp)]
    cases rest <;> simp [Mark.first]
  cases hs with
  | unexpected => exact ⟨_, hmark, .inl rfl⟩
  | exponent x raised us => exact ⟨_, hmark, .inr ⟨rfl, rfl⟩⟩

namespace Reading

open Grammar Token

/-- The report on tokens of a region, read as one expression or, with the glyphs around it, as a group. -/
def readTokens (grouped : Bool) (region outer : Range) (ts : List Token) : Report Placed :=
  if grouped then asGroup region outer ts else asExpression region ts

variable {grouped : Bool} {region outer : Range} {ts : List Token}

theorem found_readTokens : (readTokens grouped region outer ts).found = [] ↔ Reads grouped ts := by
  cases grouped with
  | false => exact found_orError.trans whole_isOk_iff
  | true => exact found_orError.trans (map_isOk_iff.trans group_isOk_iff)

/-- Tokens that cannot be read to their end have one complaint, in its place. -/
theorem readTokens_place (region outer : Range) (h : ¬Reads grouped ts) :
    ∃ halt before rest, (readTokens grouped region outer ts).found = [halt.diagnostic] ∧
      ts = before ++ rest ∧ Place (endOf region) (Reads grouped) before rest halt := by
  cases grouped with
  | false =>
    cases hw : whole (endOf region) ts with
    | ok e => exact absurd (whole_isOk_iff.1 ⟨e, hw⟩) h
    | error halt =>
      obtain ⟨before, rest, hts, hp⟩ := whole_place hw
      refine ⟨halt, before, rest, ?_, hts, hp.congr fun _ => whole_isOk_iff⟩
      show (orError region (whole (endOf region) ts)).found = _
      rw [hw]
      rfl
  | true =>
    cases hg : Grammar.group (endOf region) ts with
    | ok es => exact absurd (group_isOk_iff.1 ⟨es, hg⟩) h
    | error halt =>
      obtain ⟨before, rest, hts, hp⟩ := group_place hg
      refine ⟨halt, before, rest, ?_, hts, hp.congr fun _ => group_isOk_iff⟩
      show (orError outer ((Grammar.group (endOf region) ts).map (tuple outer))).found = _
      rw [hg]
      rfl

/-- **Exact places.**  Tokens that are read with a complaint of the grammar have one, which names a position
of theirs: with the tokens before it some row is read without a complaint, and no row that starts with the
tokens up to and including it.  At the end of the input all tokens are before it, and they are no such row
themselves.  Where the ranges of the places are all different, there is no other position that it names. -/
theorem complaint_place (h : (readTokens grouped region outer ts).found ≠ []) :
    ∃ d k, (readTokens grouped region outer ts).found = [d] ∧ d.Names (endOf region) ts k ∧
      (∃ more, ∀ region outer, (readTokens grouped region outer (ts.take k ++ more)).found = []) ∧
      (k < ts.length → ∀ more region outer,
        (readTokens grouped region outer (ts.take (k + 1) ++ more)).found ≠ []) ∧
      (k = ts.length → ∀ region outer, (readTokens grouped region outer ts).found ≠ []) ∧
      (((Mark.all (endOf region) ts).map Mark.range).Nodup →
        ∀ j, d.Names (endOf region) ts j → j = k) := by
  rw [Ne, found_readTokens] at h
  obtain ⟨halt, before, rest, hfound, rfl, hp⟩ := readTokens_place region outer h
  have hnames := hp.stopsAt.names before
  refine ⟨halt.diagnostic, before.length, hfound, hnames, ?_, ?_, ?_, fun hn j hj => hj.unique hn hnames⟩
  · obtain ⟨more, hmore⟩ := hp.hopeful
    refine ⟨more, fun region outer => ?_⟩
    rwa [List.take_left, found_readTokens]
  · intro hk more region outer
    cases rest with
    | nil => simp at hk
    | cons t us =>
      have htake : (before ++ t :: us).take (before.length + 1) = before ++ [t] := by
        simp [List.take_append]
      rw [htake, List.append_assoc, Ne, found_readTokens]
      exact hp.hopeless t us rfl more
  · intro _ region outer
    rwa [Ne, found_readTokens]

/-- The square of a function: the complaint names the superscript, which could have been another one. -/
theorem complaint_place_of_square :
    let region : Range := .ofWidth 0 7
    let ts : List Token := [.operand (symbolIn "sin" (.ofWidth 0 3)) true (.ofWidth 0 3),
      .superscript (numberIn (.int 2) (.ofWidth 4 1)) (.ofWidth 3 3), .ofNode (symbolIn "x" (.ofWidth 6 1))]
    let d : Diagnostic := ⟨.ambiguousExponent, .ofWidth 3 3⟩
    (readTokens false region region ts).found = [d] ∧ (readTokens false region region ts).found ≠ [] ∧
      d.Names (endOf region) ts 1 ∧
      (∃ more, ∀ region outer, (readTokens false region outer (ts.take 1 ++ more)).found = []) ∧
      ∀ more region outer, (readTokens false region outer (ts.take 2 ++ more)).found ≠ [] := by
  intro region ts d
  have hfound : (readTokens false region region ts).found = [d] := by cbv
  have hne : (readTokens false region region ts).found ≠ [] := by
    rw [hfound]
    exact List.cons_ne_nil _ _
  have hnames : d.Names (endOf region) ts 1 := ⟨_, rfl, .inr ⟨rfl, rfl⟩⟩
  have hdistinct : ((Mark.all (endOf region) ts).map Mark.range).Nodup := by decide
  obtain ⟨d', k, hd, -, hopeful, hopeless, -, hunique⟩ := complaint_place hne
  obtain rfl : d = d' := List.head_eq_of_cons_eq (hfound.symm.trans hd)
  obtain rfl : 1 = k := hunique hdistinct 1 hnames
  exact ⟨hfound, hne, hnames, hopeful, hopeless (by decide)⟩

end Reading

end PlanarMath
