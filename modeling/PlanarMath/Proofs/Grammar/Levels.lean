import PlanarMath.Proofs.Grammar.Completeness
import PlanarMath.Proofs.Grammar.Lookahead

/-!
# Levels compose

An expression at a level begins with the expression at any higher level, and goes on from where that one
ended.

    0 ! = 0 + 0      above the level of sums  0 !  is read; at the lowest level  = 0 + 0  comes after it

There are two reasons: what goes on at a level goes on at every lower one, and a suffix is read without regard
to the level of the expression before it.  So levels differ in the tokens that they go on with and in nothing
else; the levels of products and of signs do not differ at all, since no token binds between them.
-/

namespace PlanarMath.Grammar

section
variable {stop : Range} {low high : Int}

/-! ## A loop in two parts -/

/-- A loop over suffixes that goes on wherever another does begins with that one. -/
theorem loop_compose {loop first : Placed → List Token → Except Halt (Placed × List Token)}
    {goes goesFirst : List Token → Bool}
    (hloop : ∀ l ts, loop l ts =
      if goes ts then andThen (suffix stop ts).view fun s us => loop (s.apply l) us else .ok (l, ts))
    (hfirst : ∀ l ts, first l ts =
      if goesFirst ts then andThen (suffix stop ts).view fun s us => first (s.apply l) us else .ok (l, ts))
    (hgoes : ∀ ts, goesFirst ts = true → goes ts = true) (l : Placed) (ts : List Token) :
    loop l ts = andThen (first l ts) loop := by
  -- the tokens get fewer with each suffix; the loops part where the first one ends
  induction hn : ts.length using Nat.strongRecOn generalizing l ts with
  | _ n ih =>
    cases hg : goesFirst ts with
    | false =>
      have hstop : first l ts = .ok (l, ts) := by rw [hfirst, hg]; rfl
      rw [hstop, andThen_ok]
    | true =>
      rw [hloop, if_pos (hgoes ts hg), hfirst, if_pos hg]
      cases hs : (suffix stop ts).view with
      | error halt => rfl
      | ok p =>
        obtain ⟨s, us⟩ := p
        have := length_lt_of_view hs
        exact ih us.length (by omega) (s.apply l) us rfl

theorem goesOnWith_of_le (h : low ≤ high) {ts : List Token} (ht : goesOnWith high ts = true) :
    goesOnWith low ts = true := by
  cases ts with
  | nil => exact ht
  | cons t ts => exact goesOn_mono h ht

/-- The suffixes at a level are those at a higher one, and those that come after them. -/
theorem suffixes_compose (h : low ≤ high) (l : Placed) (ts : List Token) :
    (suffixes stop low l ts).view =
      andThen (suffixes stop high l ts).view fun e us => (suffixes stop low e us).view :=
  loop_compose (view_suffixes stop low) (view_suffixes stop high) (fun _ => goesOnWith_of_le h) l ts

/-- An expression at a level is the one at a higher level, with the suffixes that come after it. -/
theorem expression_compose (h : low ≤ high) (ts : List Token) :
    (expression stop low ts).view =
      andThen (expression stop high ts).view fun e us => (suffixes stop low e us).view := by
  rw [view_expression, view_expression]
  cases (operand stop ts).view with
  | error halt => rfl
  | ok first => exact suffixes_compose h first.1 first.2

/-! ## What tells levels apart -/

/-- A level reads like a lower one that goes on with the same tokens. -/
theorem expression_eq_of_le (h : low ≤ high) (hgoes : ∀ us, goesOnWith low us = goesOnWith high us)
    (ts : List Token) : (expression stop low ts).view = (expression stop high ts).view := by
  rw [expression_compose h]
  cases hread : (expression stop high ts).view with
  | error halt => rfl
  | ok p =>
    obtain ⟨e, us⟩ := p
    have hend : goesOnWith low us = false := (hgoes us).trans (expression_derives hread).2
    rw [andThen_ok, view_suffixes_of_not_goesOn hend]

/-- An operand is an expression by itself exactly where nothing goes on with it. -/
theorem view_expression_filler_cons (stop : Range) (level : Int) (us : List Token) :
    (expression stop level (filler :: us)).view = .ok (zero, us) ↔ goesOnWith level us = false := by
  constructor
  · intro h
    exact (expression_derives h).2
  · intro h
    exact (Reaches.of_operand (view_operand_filler us) level).view h

/-- Levels read alike exactly if they go on with the same tokens. -/
theorem expression_eq_iff (k l : Int) :
    (∀ ts, (expression stop k ts).view = (expression stop l ts).view) ↔
      ∀ us, goesOnWith k us = goesOnWith l us := by
  constructor
  · intro h us
    have hends : goesOnWith k us = false ↔ goesOnWith l us = false := by
      rw [← view_expression_filler_cons stop k, ← view_expression_filler_cons stop l, h]
    exact Bool.not_inj (Bool.coe_false_iff_false.1 hends)
  · intro h ts
    rcases Int.le_total k l with hle | hle
    · exact expression_eq_of_le hle h ts
    · exact (expression_eq_of_le hle (fun us => (h us).symm) ts).symm

end

/-- **Levels compose.**  From any mark of any row, reading an expression at a level is reading one at a higher
level and, if that succeeds, going on at the lower level from the mark where it ended: both give the same
expression and the same tokens left, or the same complaint at the same mark.  The levels of products and of signs
read every row alike; in general two levels do exactly if they go on with the same tokens. -/
theorem levels_compose (stop : Range) {low high : Int} (h : low ≤ high) (ts : List Token) (n : Nat) :
    ((expression stop low (ts.drop n)).view =
      andThen (expression stop high (ts.drop n)).view fun e us => (suffixes stop low e us).view) ∧
    (expression stop productLevel (ts.drop n)).view = (expression stop signLevel (ts.drop n)).view ∧
    ((∀ us, (expression stop low us).view = (expression stop high us).view) ↔
      ∀ us, goesOnWith low us = goesOnWith high us) := by
  refine ⟨expression_compose h _, ?_, expression_eq_iff low high⟩
  exact (expression_eq_iff productLevel signLevel).2 (fun us => (goesOnWith_signLevel us).symm) _

/-- Of `0 ! = 0 + 0` an expression above the level of sums takes two tokens, and one at the lowest level, which
goes on with the relation from there, takes all. -/
theorem levels_compose_of_relation :
    let ts : List Token := [filler, .glyph '!' (.ofWidth 1 1), .glyph '=' (.ofWidth 2 1), filler,
      .glyph '+' (.ofWidth 4 1), filler]
    let stop : Range := .ofWidth 6 0
    let part := zero.factorial (.ofWidth 1 1)
    lowest ≤ sumLevel ∧ (expression stop sumLevel (ts.drop 0)).view = .ok (part, ts.drop 2) ∧
      (expression stop lowest (ts.drop 0)).view = (suffixes stop lowest part (ts.drop 2)).view ∧
      (suffixes stop lowest part (ts.drop 2)).view =
        .ok (part.pair .equal (zero.join .add zero (some (.ofWidth 4 1))) (.ofWidth 2 1), []) := by
  intro ts stop part
  have hle : lowest ≤ sumLevel := by decide
  have hpart : (expression stop sumLevel (ts.drop 0)).view = .ok (part, ts.drop 2) := by cbv
  have hwhole := (levels_compose stop hle ts 0).1
  rw [hpart, andThen_ok] at hwhole
  exact ⟨hle, hpart, hwhole, by cbv⟩

end PlanarMath.Grammar
