import PlanarMath.Expr.Sexpr
import PlanarMath.Proofs.Display.Outline
import PlanarMath.Proofs.Display.Regular
import PlanarMath.Proofs.Expr.RoundTrip
import PlanarMath.Proofs.Number.Text

/-!
# S-expressions are legible

The s-expression of an expression is a word, or a word in front of the s-expressions of its parts.  Which
it is, and where each part ends, can be read off its first characters, so the s-expression tells the whole
expression but for its ranges.  What it takes is that no symbol has the text of a number.

    (Call sin 2)     head Call, parts sin and 2
    (Tuple x ?)      head Tuple, parts x and ?
    -2.5             a word
-/

namespace PlanarMath

open Text

/-- A word of letters that is not the text of a number. -/
structure Text.IsIdentifier (w : List Char) : Prop where
  letters : IsLetters w
  ne_nan : w ≠ ['n', 'a', 'n']
  ne_inf : w ≠ ['i', 'n', 'f']

instance (w : List Char) : Decidable (IsIdentifier w) :=
  decidable_of_iff ((w ≠ [] ∧ w.all isLetter) ∧ w ≠ ['n', 'a', 'n'] ∧ w ≠ ['i', 'n', 'f'])
    ⟨fun ⟨⟨hne, hall⟩, hnan, hinf⟩ => ⟨⟨hne, List.all_eq_true.1 hall⟩, hnan, hinf⟩,
      fun ⟨⟨hne, hall⟩, hnan, hinf⟩ => ⟨⟨hne, List.all_eq_true.2 hall⟩, hnan, hinf⟩⟩

namespace Text

theorem isIdentifier_letter {c : Char} (h : isLetter c) : IsIdentifier c.toString.toList := by
  have hlist : c.toString.toList = [c] := by simp
  rw [hlist]
  exact ⟨⟨List.cons_ne_nil c [], List.forall_mem_singleton.2 h⟩, nofun, nofun⟩

theorem IsIdentifier.word {w : List Char} (h : IsIdentifier w) : IsWord w := fun c hc =>
  (isPlain_of_isLetter (h.letters.2 c hc)).1

/-- Numbers and identifiers have different texts. -/
theorem IsIdentifier.not_isSigned {w : List Char} (h : IsIdentifier w) : ¬IsSigned w := by
  have unsigned : ¬IsUnsigned w := by
    intro hu
    obtain ⟨c, rest, rfl, hc⟩ | hw | hw := hu.shape
    · have hletter := h.letters.2 c List.mem_cons_self
      rw [isLetter_of_isAsciiDigit hc] at hletter
      cases hletter
    · exact h.ne_nan hw
    · exact h.ne_inf hw
  intro hs
  cases hs with
  | plain hu => exact unsigned hu
  | minus hu => exact (isPlain_of_isLetter (h.letters.2 '-' List.mem_cons_self)).2.1 rfl

theorem IsSigned.ne_nil {w : List Char} (h : IsSigned w) : w ≠ [] := by
  cases h with
  | plain h =>
    obtain ⟨c, rest, rfl, -⟩ | rfl | rfl := h.shape
    · exact List.cons_ne_nil c rest
    · nofun
    · nofun
  | minus h => exact List.cons_ne_nil '-' _

end Text

namespace Expr

/-! ## Expressions without ranges -/

mutual

/-- The expression without its ranges. -/
def bare : Expr → Expr
  | number v _ => number v none
  | symbol name _ => symbol name none
  | unary op arg _ _ => unary op (bare arg) none none
  | binary op args _ _ => binary op (bareAll args) none none
  | tuple items _ => tuple (bareAll items) none
  | call target args _ _ => call (bare target) (bareAll args) none none
  | error _ => error none

/-- The expressions of a list without their ranges. -/
def bareAll : List Expr → List Expr
  | [] => []
  | e :: es => bare e :: bareAll es

end

theorem bareAll_eq_map (es : List Expr) : bareAll es = es.map bare := by
  induction es with
  | nil => rfl
  | cons e es ih => rw [bareAll, List.map_cons, ih]

mutual

theorem sexpr_bare : ∀ e : Expr, e.bare.sexpr = e.sexpr
  | number .. | symbol .. | error _ => rfl
  | unary op arg _ _ => by rw [bare, sexpr, sexpr_bare arg, sexpr]
  | binary op args _ _ => by rw [bare, sexpr, sexprs_bareAll args, sexpr]
  | tuple items _ => by rw [bare, sexpr, sexprs_bareAll items, sexpr]
  | call target args _ _ => by rw [bare, sexpr, sexpr_bare target, sexprs_bareAll args, sexpr]

theorem sexprs_bareAll : ∀ es : List Expr, sexprs (bareAll es) = sexprs es
  | [] => rfl
  | [e] => by rw [bareAll, bareAll, sexprs, sexpr_bare e, sexprs]
  | e :: f :: es => by
    have hrest := sexprs_bareAll (f :: es)
    simp only [bareAll, sexprs] at hrest ⊢
    rw [sexpr_bare e, hrest]

end

end Expr

/-! ## Heads -/

/-- What stands in front of the parts of an expression. -/
inductive Head where
  | unary (op : UnaryOp)
  | binary (op : BinaryOp)
  | tuple
  | call
  deriving DecidableEq

namespace Head

/-- Every head. -/
def all : List Head := UnaryOp.all.map unary ++ BinaryOp.all.map binary ++ [tuple, call]

/-- The word of a head. -/
def text : Head → String
  | unary op => op.head
  | binary op => op.head
  | tuple => "Tuple"
  | call => "Call"

/-- The head of a word. -/
def ofText? (s : String) : Option Head := all.find? (·.text == s)

theorem ofText?_text (h : Head) : ofText? h.text = some h := by
  cases h with
  | unary op => cases op <;> rfl
  | binary op => cases op <;> rfl
  | _ => rfl

theorem text_injective {g h : Head} (e : g.text = h.text) : g = h := by
  have hg := ofText?_text g
  rw [e, ofText?_text] at hg
  exact (Option.some.inj hg).symm

theorem isWord_text (h : Head) : IsWord h.text.toList := by
  cases h with
  | unary op => cases op <;> decide
  | binary op => cases op <;> decide
  | _ => decide

/-- The expression without ranges that has a head and parts. -/
def build : Head → List Expr → Expr
  | unary op, [arg] => .unary op arg none none
  | binary op, args => .binary op args none none
  | tuple, items => .tuple items none
  | call, target :: args => .call target args none none
  | _, _ => .error none

end Head

namespace Expr

/-- The head of an expression that has parts. -/
def head? : Expr → Option Head
  | unary op .. => some (.unary op)
  | binary op .. => some (.binary op)
  | tuple .. => some .tuple
  | call .. => some .call
  | number .. | symbol .. | error _ => none

/-- The parts of an expression, the function of a call first. -/
def parts : Expr → List Expr
  | unary _ arg _ _ => [arg]
  | binary _ args _ _ => args
  | tuple items _ => items
  | call target args _ _ => target :: args
  | number .. | symbol .. | error _ => []

variable {e p : Expr} {h : Head}

theorem bare_eq_build (he : e.head? = some h) : e.bare = h.build (e.parts.map bare) := by
  cases e <;> cases he <;> simp [bare, bareAll_eq_map, parts, Head.build]

theorem sizeOf_lt_of_mem_parts (hp : p ∈ e.parts) : sizeOf p < sizeOf e := by
  have hsize := List.sizeOf_lt_of_mem hp
  cases e with
  | number | symbol | error => cases hp
  | unary op arg r s =>
    obtain rfl := List.mem_singleton.1 hp
    simp
    omega
  | binary | tuple | call =>
    simp [parts] at hsize ⊢
    omega

/-- The nodes below an expression, those of its parts among them. -/
theorem walk_part (hp : p ∈ e.parts) : ∀ n ∈ p.walk, n ∈ e.walk := by
  intro n hn
  have hparts : n ∈ walkAll e.parts := mem_walkAll.2 ⟨p, hp, hn⟩
  cases e with
  | number | symbol | error => cases hp
  | unary op arg r s =>
    obtain rfl := List.mem_singleton.1 hp
    exact List.mem_cons_of_mem _ hn
  | binary | tuple => exact List.mem_cons_of_mem _ hparts
  | call target args i r =>
    rw [parts, walkAll_cons, List.mem_append] at hparts
    rw [walk_call, walk_tuple, List.cons_append, List.mem_cons, List.mem_append, List.mem_cons]
    rcases hparts with ht | ha
    · exact .inr (.inl ht)
    · exact .inr (.inr (.inr ha))

/-- The s-expression of an expression as characters. -/
def spelling (e : Expr) : List Char := e.sexpr.toList

/-- The spellings of expressions with a space before each. -/
def spaced (es : List Expr) : List Char :=
  Joined.textAfter spelling (fun _ : Unit => [' ']) (es.map fun e => ((), e))

theorem spaced_cons (e : Expr) (es : List Expr) : spaced (e :: es) = ' ' :: (e.spelling ++ spaced es) := rfl

theorem spaced_eq {es : List Expr} (h : es ≠ []) : spaced es = ' ' :: (sexprs es).toList := by
  induction es with
  | nil => exact absurd rfl h
  | cons e es ih =>
    cases es with
    | nil =>
      rw [spaced_cons, sexprs]
      exact congrArg (' ' :: ·) (List.append_nil _)
    | cons f es =>
      have htext : sexprs (e :: f :: es) = e.sexpr ++ " " ++ sexprs (f :: es) := by
        rw [sexprs]
        exact List.cons_ne_nil f es
      rw [spaced_cons, ih (List.cons_ne_nil f es), htext]
      simp [spelling]

/-- The spelling of a valid expression with parts. -/
theorem spelling_of_head (hv : e.Valid) (he : e.head? = some h) :
    e.spelling = '(' :: (h.text.toList ++ (spaced e.parts ++ [')'])) := by
  cases e with
  | number | symbol | error => cases he
  | unary op arg r s =>
    cases he
    simp [spelling, sexpr, parts, spaced_eq, sexprs, Head.text]
  | binary op args r s =>
    cases he
    have hne : args ≠ [] := by
      rintro rfl
      exact absurd (valid_binary.1 hv).1 (by cases op <;> decide)
    simp [spelling, sexpr, parts, spaced_eq hne, Head.text]
  | tuple items r =>
    cases he
    have hne := (valid_tuple.1 hv).1
    simp [spelling, sexpr, parts, spaced_eq hne, Head.text]
  | call target args i r =>
    cases he
    have hne := (valid_call.1 hv).2.1
    simp [spelling, sexpr, parts, spaced_cons, spaced_eq hne, Head.text]

/-! ## Expressions that can be spelled -/

/-- Valid expressions whose symbols are identifiers and whose numbers are among given ones. -/
structure Spelled (told : List Number) (e : Expr) : Prop where
  valid : e.Valid
  names : ∀ s r, symbol s r ∈ e.walk → IsIdentifier s.toList
  numbers : ∀ v r, number v r ∈ e.walk → v ∈ told

variable {told : List Number} {f : Expr}

theorem Spelled.part (he : e.Spelled told) (hp : p ∈ e.parts) : p.Spelled told where
  valid n hn := he.valid n (walk_part hp n hn)
  names s r hn := he.names s r (walk_part hp _ hn)
  numbers v r hn := he.numbers v r (walk_part hp _ hn)

/-- What has no parts is written as a word. -/
theorem Spelled.leaf (he : e.Spelled told) (hleaf : e.head? = none) : IsWord e.spelling ∧ e.spelling ≠ [] := by
  cases e with
  | unary | binary | tuple | call => cases hleaf
  | number v r =>
    have hsigned := Number.isSigned_text v
    exact ⟨hsigned.word, hsigned.ne_nil⟩
  | symbol name r =>
    have hname := he.names name r (mem_walk_self _)
    exact ⟨hname.word, hname.letters.1⟩
  | error r =>
    have htext : (error r).spelling = ['?'] := by simp [spelling, sexpr]
    rw [htext]
    exact ⟨by decide, nofun⟩

/-- Words tell what has no parts. -/
theorem bare_eq_of_leaves (htold : ToldByText told) (he : e.Spelled told) (hf : f.Spelled told)
    (hle : e.head? = none) (hlf : f.head? = none) (h : e.sexpr = f.sexpr) : e.bare = f.bare := by
  have number_symbol : ∀ {v r s q}, IsIdentifier s.toList → (number v r).sexpr ≠ (symbol s q).sexpr := by
    intro v r s q hs htext
    have hv : v.text = s := htext
    exact hs.not_isSigned (hv ▸ Number.isSigned_text v)
  have number_error : ∀ {v r q}, (number v r).sexpr ≠ (error q).sexpr := by
    intro v r q htext
    have hv : v.text = "?" := htext
    have hname := (Number.isSigned_text v).not_name
    rw [hv] at hname
    cases hname
  have symbol_error : ∀ {s r q}, IsIdentifier s.toList → (symbol s r).sexpr ≠ (error q).sexpr := by
    intro s r q hs htext
    have hs' : s = "?" := htext
    subst hs'
    exact (isPlain_of_isLetter (hs.letters.2 '?' (by decide))).2.2 rfl
  cases e with
  | unary | binary | tuple | call => cases hle
  | number v r =>
    cases f with
    | unary | binary | tuple | call => cases hlf
    | number w q =>
      have hv := he.numbers v r (mem_walk_self _)
      have hw := hf.numbers w q (mem_walk_self _)
      rw [bare, bare, htold v hv w hw h]
    | symbol s q => exact absurd h (number_symbol (hf.names s q (mem_walk_self _)))
    | error q => exact absurd h number_error
  | symbol s r =>
    have hs := he.names s r (mem_walk_self _)
    cases f with
    | unary | binary | tuple | call => cases hlf
    | number w q => exact absurd h.symm (number_symbol hs)
    | symbol t q => rw [bare, bare, show s = t from h]
    | error q => exact absurd h (symbol_error hs)
  | error r =>
    cases f with
    | unary | binary | tuple | call => cases hlf
    | number w q => exact absurd h.symm number_error
    | symbol t q => exact absurd h.symm (symbol_error (hf.names t q (mem_walk_self _)))
    | error q => rfl

mutual

theorem mem_numbers : ∀ (e : Expr) {v : Number} {r : Option Range}, number v r ∈ e.walk → v ∈ e.numbers
  | number .., v, r, h => by
    cases List.mem_singleton.1 h
    exact List.mem_singleton_self _
  | symbol .., v, r, h | error _, v, r, h => nomatch List.mem_singleton.1 h
  | unary op arg q s, v, r, h => by
    rw [walk_unary] at h
    obtain h | h := List.mem_cons.1 h
    · cases h
    · exact mem_numbers arg h
  | binary op args q s, v, r, h => by
    rw [walk_binary] at h
    obtain h | h := List.mem_cons.1 h
    · cases h
    · exact mem_numbersAll args h
  | tuple items q, v, r, h => by
    rw [walk_tuple] at h
    obtain h | h := List.mem_cons.1 h
    · cases h
    · exact mem_numbersAll items h
  | call target args i q, v, r, h => by
    rw [walk_call, walk_tuple, List.cons_append] at h
    obtain h | h := List.mem_cons.1 h
    · cases h
    obtain h | h := List.mem_append.1 h
    · exact List.mem_append_left _ (mem_numbers target h)
    obtain h | h := List.mem_cons.1 h
    · cases h
    · exact List.mem_append_right _ (mem_numbersAll args h)

theorem mem_numbersAll : ∀ (es : List Expr) {v : Number} {r : Option Range},
    number v r ∈ walkAll es → v ∈ numbersAll es
  | [], v, r, h => nomatch h
  | e :: es, v, r, h => by
    rw [walkAll_cons] at h
    obtain h | h := List.mem_append.1 h
    · exact List.mem_append_left _ (mem_numbers e h)
    · exact List.mem_append_right _ (mem_numbersAll es h)

end

/-! ## Legibility -/

/-- A rest that closes the parts of an expression. -/
def Closes (r : List Char) : Prop := ∃ s, r = ')' :: s

theorem stopsWord_continues {r : List Char}
    (h : Joined.Continues (fun _ => True) (fun _ : Unit => [' ']) Closes r) : StopsWord r := by
  obtain ⟨s, rfl⟩ | ⟨i, s, -, rfl⟩ := h
  · rintro c ⟨⟩
    rfl
  · rintro c ⟨⟩
    rfl

/-- The parts of an expression are legible when expressions of their size are. -/
theorem legible_parts {S : Expr → Prop} (h : Legible S spelling bare StopsWord) :
    Legible (fun es => ∀ e ∈ es, S e) spaced (List.map bare) Closes := by
  have hone : Legible S spelling bare
      (Joined.Continues (fun _ => True) (fun _ : Unit => [' ']) Closes) :=
    fun a b r s ha hb hr hs => h ha hb (stopsWord_continues hr) (stopsWord_continues hs)
  have hclosed : ∀ (i : Unit) (r : List Char), True → ¬Closes ([' '] ++ r) := by
    rintro i r - ⟨s, hs⟩
    cases hs
  have hspace : ∀ (i j : Unit) (r s : List Char), True → True → [' '] ++ r = [' '] ++ s → i = j ∧ r = s :=
    fun i j r s _ _ hs => ⟨rfl, (List.cons.inj hs).2⟩
  intro es fs r s hes hfs hr hs he
  obtain ⟨hmap, hrs⟩ := Joined.legible_textAfter hone hclosed hspace (a := es.map fun e => ((), e))
    (b := fs.map fun e => ((), e)) (by simpa using hes) (by simpa using hfs) hr hs he
  refine ⟨?_, hrs⟩
  have hbares := congrArg (List.map Prod.snd) hmap
  simp only [List.map_map] at hbares
  exact hbares

/-- A word does not start like an expression with parts. -/
theorem word_append_ne {w r s : List Char} (hw : IsWord w ∧ w ≠ []) : w ++ r ≠ '(' :: s := by
  obtain ⟨c, v, rfl⟩ := List.exists_cons_of_ne_nil hw.2
  intro he
  obtain ⟨rfl, -⟩ := List.cons.inj he
  exact absurd (hw.1 '(' List.mem_cons_self) (by decide)

theorem stopsWord_spaced (es : List Expr) (r : List Char) : StopsWord (spaced es ++ (')' :: r)) := by
  cases es with
  | nil =>
    rintro c ⟨⟩
    rfl
  | cons e es =>
    rw [spaced_cons]
    rintro c ⟨⟩
    rfl

/-- **S-expressions** are legible: each tells its expression but for the ranges, whatever follows. -/
theorem legible_sexpr (htold : ToldByText told) (n : Nat) :
    Legible (fun e => e.Spelled told ∧ sizeOf e < n) spelling bare StopsWord := by
  induction n with
  | zero => exact fun a b r s ha => absurd ha.2 (Nat.not_lt_zero _)
  | succ n ih =>
    intro a b r s ⟨ha, han⟩ ⟨hb, hbn⟩ hr hs he
    cases hheada : a.head? with
    | none =>
      have hworda := ha.leaf hheada
      cases hheadb : b.head? with
      | none =>
        obtain ⟨htext, hrs⟩ := legible_word hworda.1 (hb.leaf hheadb).1 hr hs he
        exact ⟨bare_eq_of_leaves htold ha hb hheada hheadb (String.toList_inj.1 htext), hrs⟩
      | some h =>
        rw [spelling_of_head hb.valid hheadb] at he
        exact absurd he (word_append_ne hworda)
    | some g =>
      rw [spelling_of_head ha.valid hheada] at he
      cases hheadb : b.head? with
      | none => exact absurd he.symm (word_append_ne (hb.leaf hheadb))
      | some h =>
        rw [spelling_of_head hb.valid hheadb] at he
        simp only [List.cons_append, List.append_assoc, List.nil_append, List.cons.injEq, true_and] at he
        obtain ⟨hhead, htail⟩ := legible_word g.isWord_text h.isWord_text (stopsWord_spaced _ _)
          (stopsWord_spaced _ _) he
        obtain rfl := Head.text_injective (String.toList_inj.1 hhead)
        have hsmall : ∀ {e : Expr}, e.Spelled told → sizeOf e < n + 1 →
            ∀ p ∈ e.parts, p.Spelled told ∧ sizeOf p < n := by
          intro e hes hen p hp
          have hsize := sizeOf_lt_of_mem_parts hp
          exact ⟨hes.part hp, by omega⟩
        obtain ⟨hparts, hrest⟩ := legible_parts ih (hsmall ha han) (hsmall hb hbn) ⟨r, rfl⟩ ⟨s, rfl⟩ htail
        refine ⟨?_, (List.cons.inj hrest).2⟩
        rw [bare_eq_build hheada, bare_eq_build hheadb, hparts]

/-- S-expressions tell expressions but for their ranges. -/
theorem sexpr_eq_iff (htold : ToldByText told) (he : e.Spelled told) (hf : f.Spelled told) :
    e.sexpr = f.sexpr ↔ e.bare = f.bare := by
  constructor
  · intro h
    have hstop : StopsWord [] := fun c hc => absurd hc (Option.not_mem_none c)
    have htext : e.spelling ++ [] = f.spelling ++ [] := by rw [spelling, spelling, h]
    exact (legible_sexpr htold (sizeOf e + sizeOf f + 1) ⟨he, by omega⟩ ⟨hf, by omega⟩ hstop hstop htext).1
  · intro h
    rw [← sexpr_bare e, ← sexpr_bare f, h]

end Expr

end PlanarMath
