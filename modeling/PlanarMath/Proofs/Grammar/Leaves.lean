import PlanarMath.Proofs.Expr.Walk
import PlanarMath.Proofs.Grammar.Completeness
import PlanarMath.Proofs.Grammar.Kept
import PlanarMath.Proofs.Number.Magnitude

/-!
# Leaves of phrases

The leaves of a tree are its names and its numbers, without their signs, in the order of the document.  A
phrase has the leaves of its tokens in their order: the grammar neither loses nor repeats nor moves an
operand.  The one token that it drops is the superscript behind the name of a function, which says that the
inverse is meant.

    leaves (sum or product of l and r)   =  leaves l ++ leaves r
    leaves (function of an argument)     =  name :: leaves of the argument
-/

namespace PlanarMath

/-- A name, or the magnitude of a number. -/
inductive Leaf where
  | name (s : String)
  | number (v : Number)
  deriving DecidableEq, Repr

namespace Expr

/-- The leaf that an expression is. -/
def asLeaf? : Expr → Option Leaf
  | symbol s _ => some (.name s)
  | number v _ => some (.number v.abs)
  | _ => none

theorem atomic_asLeaf? : Atomic asLeaf? where
  unary _ _ _ _ := rfl
  binary _ _ _ _ := rfl
  tuple _ _ := rfl
  call _ _ _ _ := rfl
  negate v _ _ := congrArg (some ∘ Leaf.number) v.abs_neg

/-- The leaves of an expression, in the order of the document. -/
def leaves (e : Expr) : List Leaf := e.gather asLeaf?

end Expr

/-- The leaves of some tokens, behind the name of a function or not (`named`). -/
def Token.leaves (named : Bool) : List Token → List Leaf
  | [] => []
  | .glyph _ _ :: ts => leaves false ts
  | .operand node function _ :: ts => node.expr.leaves ++ leaves function ts
  | .superscript node _ :: ts => (if named then [] else node.expr.leaves) ++ leaves false ts
  | .subscript node _ :: ts => node.expr.leaves ++ leaves false ts

namespace Grammar

open PlanarMath.Expr Token

/-- Only a superscript is told apart behind the name of a function. -/
theorem leaves_named {ts : List Token} (h : startsWith isSuperscript ts = false) (named : Bool) :
    Token.leaves named ts = Token.leaves false ts := by
  match ts with
  | [] => rfl
  | .glyph .. :: _ => rfl
  | .operand .. :: _ => rfl
  | .superscript .. :: _ => cases h
  | .subscript .. :: _ => rfl

/-- What a name and the superscript behind it call has the leaves of the name. -/
theorem Target.leaves_eq {name : Placed} {named : Range} {ts us : List Token} {t : Placed}
    (h : Target name named ts us t) (hu : startsWith isSuperscript us = false) :
    Token.leaves true ts = Token.leaves false us ∧ t.expr.leaves = name.expr.leaves := by
  cases h with
  | itself => exact ⟨leaves_named hu true, rfl⟩
  | inverse => exact ⟨rfl, Placed.gather_inverse atomic_asLeaf? ..⟩

/-- **Leaves of phrases.**  A phrase of tokens among which every group is a plain operand has the leaves of
its tokens, in their order. -/
theorem Derives.leaves_eq {greedy : Bool} {p : Phrase} {ts us : List Token} {e : Placed}
    (h : Derives greedy p ts us e) (hts : ∀ t ∈ ts, isGroup t → t.isPlainOperand) :
    Token.leaves false ts = e.expr.leaves ++ Token.leaves false us := by
  have hleaf := atomic_asLeaf?
  -- two phrases, one behind the other
  have join : ∀ {ts us vs : List Token} {l r : Placed} {e : Expr},
      e.leaves = l.expr.leaves ++ r.expr.leaves →
      Token.leaves false ts = l.expr.leaves ++ Token.leaves false us →
      Token.leaves false us = r.expr.leaves ++ Token.leaves false vs →
      Token.leaves false ts = e.leaves ++ Token.leaves false vs := by
    intro ts us vs l r e he hl hr
    rw [hl, hr, he, List.append_assoc]
  induction h with
  | ofSum _ ih => exact ih hts
  | ofProduct _ ih => exact ih hts
  | ofFactor _ ih => exact ih hts
  | ofAtom _ ih => exact ih hts
  | ofFirst _ ih => exact ih hts
  | relation hd _ _ ihl ihr =>
    exact join (Placed.gather_pair hleaf ..) (ihl hts) (ihr (hd.forall_mem_behind hts))
  | addition hd _ _ ihl ihr =>
    exact join (Placed.gather_join hleaf ..) (ihl hts) (ihr (hd.forall_mem_behind hts))
  | @subtraction ts us vs l r c sign hd _ _ ihl ihr =>
    have hnegated : (r.negate sign).expr.leaves = r.expr.leaves := Placed.gather_negate hleaf sign r
    refine join (Placed.gather_join hleaf ..) (ihl hts) ?_
    show Token.leaves false us = (r.negate sign).expr.leaves ++ _
    rw [hnegated]
    exact ihr (hd.forall_mem_behind hts)
  | multiplication hd _ _ ihl ihr =>
    exact join (Placed.gather_join hleaf ..) (ihl hts) (ihr (hd.forall_mem_behind hts))
  | division hd _ _ ihl ihr =>
    exact join (Placed.gather_pair hleaf ..) (ihl hts) (ihr (hd.forall_mem_behind hts))
  | juxtaposition hd _ _ ihl ihr =>
    exact join (Placed.gather_join hleaf ..) (ihl hts) (ihr (hd.forall_mem hts))
  | absorption hd _ _ ihl ihr =>
    exact join (Placed.gather_join hleaf ..) (ihl hts) (ihr (hd.forall_mem hts))
  | positive _ _ ih => exact ih (List.forall_mem_cons.1 hts).2
  | @negative ts us e c sign _ _ ih =>
    have hnegated : (e.negate sign).expr.leaves = e.expr.leaves := Placed.gather_negate hleaf sign e
    rw [hnegated]
    exact ih (List.forall_mem_cons.1 hts).2
  | @call ts us vs name named t args ht _ hd _ ih =>
    have hts := (List.forall_mem_cons.1 hts).2
    obtain ⟨hrest, htarget⟩ := ht.leaves_eq hd.not_superscript
    have hcall : (t.apply args).expr.leaves = t.expr.leaves ++ args.expr.leaves :=
      Placed.gather_apply hleaf t args
    rw [hcall, htarget, List.append_assoc, ← ih (ht.forall_mem hts), ← hrest, Token.leaves]
  | operand => rfl
  | @groupCall ts us name named t args function range ht hg =>
    have hts := (List.forall_mem_cons.1 hts).2
    obtain ⟨hrest, htarget⟩ := ht.leaves_eq rfl
    -- the group is no name of a function, so a superscript behind it counts
    have hplain := (List.forall_mem_cons.1 (ht.forall_mem hts)).1 hg
    obtain rfl : function = false := by simpa [isPlainOperand] using hplain
    have hcall : (t.apply args).expr.leaves = t.expr.leaves ++ args.expr.leaves :=
      Placed.gather_apply hleaf t args
    rw [hcall, htarget, List.append_assoc, Token.leaves, hrest, Token.leaves]
  | @factorial ts us e c sign hd _ ih =>
    have hfactorial : (e.factorial sign).expr.leaves = e.expr.leaves := Placed.gather_factorial hleaf e sign
    rw [hfactorial]
    exact ih hts
  | @power ts us e exponent raised hd ih =>
    have hpower : (e.power exponent raised).expr.leaves = e.expr.leaves ++ exponent.expr.leaves :=
      Placed.gather_power hleaf e exponent raised
    rw [hpower, List.append_assoc]
    exact ih hts

/-- The items of a list of phrases have the leaves of its tokens. -/
theorem Lists.leaves_eq {greedy : Bool} {ts : List Token} {es : List Placed} (h : Lists greedy ts es)
    (hts : ∀ t ∈ ts, isGroup t → t.isPlainOperand) :
    Token.leaves false ts = gatherAll asLeaf? (es.map (·.expr)) := by
  induction h with
  | last h =>
    rw [h.leaves_eq hts, Token.leaves, List.append_nil, List.map_singleton, gatherAll_singleton, Expr.leaves]
  | more h _ _ ih =>
    rw [h.leaves_eq hts, Token.leaves, ih (h.forall_mem_behind hts), List.map_cons, gatherAll_cons,
      Expr.leaves]

end Grammar

end PlanarMath
