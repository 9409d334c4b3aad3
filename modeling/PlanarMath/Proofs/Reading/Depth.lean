import PlanarMath.Proofs.Grammar.Halts
import PlanarMath.Proofs.Layout.Levels
import PlanarMath.Proofs.Reading.Constructs
import PlanarMath.Proofs.Reading.Rows
import PlanarMath.Proofs.Reading.Total

/-!
# The limit of depth

Under a limit `n`, the constructs that are complained of for their depth are those at level `n + 1`, one by
one and from left to right, wherever in the layout they are and whatever else is wrong with it.  Nothing else
in reading depends on the limit: a layout without a construct at that level is read as without a limit.

    limit 1     √ [ √x + ⌊y⌋ ]     complaints about √x and ⌊y⌋, which are at level 2
-/

namespace PlanarMath

namespace Options

/-- The options with a limit. -/
def upTo (o : Options) (n : Nat) : Options := { o with limit? := some n }

/-- The options without a limit. -/
def unlimited (o : Options) : Options := { o with limit? := none }

theorem isTooDeep_upTo (o : Options) (n : Nat) : (o.upTo n).isTooDeep n = some (n : Int) := by
  simp [isTooDeep, upTo, Option.filter]

theorem isTooDeep_upTo_of_lt (o : Options) {n level : Nat} (h : level < n) :
    (o.upTo n).isTooDeep level = none := by
  simp [isTooDeep, upTo, Option.filter, h]

theorem isTooDeep_unlimited (o : Options) (level : Nat) : o.unlimited.isTooDeep level = none := rfl

end Options

/-- A complaint about the depth of a construct. -/
def Diagnostic.isAboutDepth (d : Diagnostic) : Bool := d.complaint.code == "nesting_too_deep"

theorem Diagnostic.isAboutDepth_iff {d : Diagnostic} :
    d.isAboutDepth ↔ ∃ limit, d.complaint = .tooDeep limit := by
  unfold isAboutDepth
  cases d.complaint <;> simp [Complaint.code]

namespace Reading

open Grammar Layout Token

variable {o : Options} {n level i : Nat}

/-! ## What never complains of depth -/

/-- No complaint is about depth. -/
def Shallow (found : List Diagnostic) : Prop := found.filter Diagnostic.isAboutDepth = []

theorem Numbered.shallow {value : String → Option Number} {ts us : List Token} {found : List Diagnostic}
    (h : Numbered value ts found us) : Shallow found := by
  induction h with
  | nil => rfl
  | other _ ih => exact ih
  | number _ _ _ ih => exact ih
  | rejected _ _ _ ih =>
    rw [Shallow, List.filter_cons_of_neg (by simp [Diagnostic.isAboutDepth_iff])]
    exact ih

theorem shallow_merge {ts us : List Token} {found : List Diagnostic}
    (h : merge o ts = ⟨found, .ok us⟩) : Shallow found := by
  obtain ⟨named, numbered, -, hnumbered, -⟩ := merge_eq_ok h
  exact Numbered.shallow hnumbered

theorem shallow_of_blames {stop : Range} {ts : List Token} {h : Halt} (hb : Blames stop ts h) :
    Shallow [h.diagnostic] := by
  cases hb <;> rfl

theorem shallow_orError {stop region : Range} {ts : List Token} {r : Except Halt Placed}
    {found : List Diagnostic} {e : Placed} (hr : ∀ h, r = .error h → Blames stop ts h)
    (h : orError region r = ⟨found, .ok e⟩) : Shallow found := by
  cases r with
  | error halt =>
    cases h
    exact shallow_of_blames (hr halt rfl)
  | ok x =>
    cases h
    rfl

theorem shallow_asExpression {region : Range} {ts : List Token} {found : List Diagnostic} {e : Placed}
    (h : asExpression region ts = ⟨found, .ok e⟩) : Shallow found :=
  shallow_orError (fun _ => whole_blames) h

theorem shallow_asGroup {region outer : Range} {ts : List Token} {found : List Diagnostic} {e : Placed}
    (h : asGroup region outer ts = ⟨found, .ok e⟩) : Shallow found :=
  shallow_orError (fun _ hx => group_blames (map_eq_error.1 hx)) h

/-! ## Complaints about depth -/

/-- The complaints about depth among those about some sites are about the ones at level `n + 1`. -/
def DepthExact (n : Nat) (found : List Diagnostic) (sites : List Site) : Prop :=
  found.filter Diagnostic.isAboutDepth =
    (sites.filter (·.level = n + 1)).map fun s => ⟨.tooDeep n, s.range⟩

namespace DepthExact

variable {first more : List Diagnostic} {sites others : List Site}

theorem append (hfirst : DepthExact n first sites) (hmore : DepthExact n more others) :
    DepthExact n (first ++ more) (sites ++ others) := by
  unfold DepthExact at *
  rw [List.filter_append, hfirst, hmore, List.filter_append, List.map_append]

/-- Complaints about other things do not matter. -/
theorem behind (hfirst : DepthExact n first sites) (hmore : Shallow more) :
    DepthExact n (first ++ more) sites := by
  unfold DepthExact at *
  rw [List.filter_append, hmore, List.append_nil, hfirst]

/-- A construct above the limit. -/
theorem above {s : Site} (hs : s.level ≤ n) (h : DepthExact n first sites) : DepthExact n first (s :: sites) := by
  unfold DepthExact at *
  rw [List.filter_cons_of_neg (by simp; omega), h]

/-- A construct at the limit stands for all that is inside it. -/
theorem atLimit {s : Site} (hs : s.level = n + 1) (hsites : ∀ t ∈ sites, s.level < t.level) :
    DepthExact n [⟨.tooDeep n, s.range⟩] (s :: sites) := by
  have hinside : sites.filter (·.level = n + 1) = [] := by
    rw [List.filter_eq_nil_iff]
    intro t ht
    have := hsites t ht
    simp only [decide_eq_true_eq]
    omega
  have hself : Diagnostic.isAboutDepth ⟨.tooDeep n, s.range⟩ := Diagnostic.isAboutDepth_iff.2 ⟨n, rfl⟩
  unfold DepthExact
  rw [List.filter_cons_of_pos hself, List.filter_cons_of_pos (by simpa using hs), hinside]
  rfl

end DepthExact

/-- The complaints about the tokens of a row and about what is read from them. -/
theorem depthExact_content {xs : List Element} {read : List Token → Report Placed} {sites : List Site}
    (hxs : ∀ first ts, rowTokens o level i xs = ⟨first, .ok ts⟩ → DepthExact n first sites)
    (hread : ∀ us last e, read us = ⟨last, .ok e⟩ → Shallow last) {found : List Diagnostic} {e : Placed}
    (h : ((rowTokens o level i xs).andThen fun ts => (merge o ts).andThen read) = ⟨found, .ok e⟩) :
    DepthExact n found sites := by
  obtain ⟨first, ts, more, hts, hmore, rfl⟩ := Report.andThen_eq_ok.1 h
  obtain ⟨merged, us, last, hus, hlast, rfl⟩ := Report.andThen_eq_ok.1 hmore
  rw [← List.append_assoc]
  exact ((hxs first ts hts).behind (shallow_merge hus)).behind (hread us last e hlast)

/-- A construct at the limit is complained of, and nothing inside it. -/
theorem depthExact_deep (o : Options) (i : Nat) {path : List Nat} (hpath : path.length = 2 * n + 1)
    {x : Element} (hx : x.isGlyph = false) {found : List Diagnostic} {t : Token}
    (h : elementToken (o.upTo n) n i x = ⟨found, .ok t⟩) : DepthExact n found (x.sites path i) := by
  obtain ⟨s, inside, hsites, rfl, hrange, hinside⟩ := Element.exists_site path i hx
  rw [elementToken_deep (o.isTooDeep_upTo n) hx, ← hrange] at h
  cases h
  rw [hsites]
  exact .atLimit (Site.level_of_length hpath) hinside

mutual

theorem elementToken_depthExact (o : Options) (level : Nat) (hlevel : level ≤ n) (i : Nat) (path : List Nat)
    (hpath : path.length = 2 * level + 1) :
    ∀ (x : Element) (found : List Diagnostic) (t : Token),
      elementToken (o.upTo n) level i x = ⟨found, .ok t⟩ → DepthExact n found (x.sites path i)
  | .glyph c, found, t, h => by
    rw [elementToken] at h
    cases h
    rfl
  | .fraction above below, found, t, h => by
    obtain rfl | hlt := Nat.eq_or_lt_of_le hlevel
    · exact depthExact_deep o i hpath rfl h
    · rw [elementToken_fraction (o.isTooDeep_upTo_of_lt hlt)] at h
      obtain ⟨first, num, more, hnum, hmore, rfl⟩ := Report.andThen_eq_ok.1 h
      obtain ⟨den, hden, -⟩ := Report.map_eq_ok.1 hmore
      have hpath' : ∀ k, (path ++ [k]).length = 2 * (level + 1) := by
        intro k
        rw [List.length_append, hpath]
        rfl
      have habove := rowTokens_depthExact o (level + 1) hlt (i + 1) _ 0 (hpath' 0) above
      have hbelow := rowTokens_depthExact o (level + 1) hlt (i + Row.width above + 2) _ 0 (hpath' 1) below
      rw [Element.sites, List.cons_append]
      refine DepthExact.above ?_ (DepthExact.append ?_ ?_)
      · exact Nat.le_trans (Nat.le_of_eq (Site.level_of_length hpath)) hlt
      · exact depthExact_content habove (fun _ _ _ => shallow_asExpression) hnum
      · exact depthExact_content hbelow (fun _ _ _ => shallow_asExpression) hden
  | .framed frame body, found, t, h => by
    obtain rfl | hlt := Nat.eq_or_lt_of_le hlevel
    · exact depthExact_deep o i hpath rfl h
    · rw [elementToken_framed (o.isTooDeep_upTo_of_lt hlt)] at h
      obtain ⟨inner, hinner, -⟩ := Report.map_eq_ok.1 h
      have hpath' : (path ++ [0]).length = 2 * (level + 1) := by
        rw [List.length_append, hpath]
        rfl
      have hbody := rowTokens_depthExact o (level + 1) hlt (i + 1) _ 0 hpath' body
      rw [Element.sites]
      refine DepthExact.above ?_ ?_
      · exact Nat.le_trans (Nat.le_of_eq (Site.level_of_length hpath)) hlt
      · cases frame with
        | parentheses => exact depthExact_content hbody (fun _ _ _ => shallow_asGroup) hinner
        | _ => exact depthExact_content hbody (fun _ _ _ => shallow_asExpression) hinner

theorem rowTokens_depthExact (o : Options) (level : Nat) (hlevel : level ≤ n) (i : Nat) (path : List Nat)
    (position : Nat) (hpath : path.length = 2 * level) :
    ∀ (xs : List Element) (found : List Diagnostic) (ts : List Token),
      rowTokens (o.upTo n) level i xs = ⟨found, .ok ts⟩ → DepthExact n found (Row.sites path position i xs)
  | [], found, ts, h => by
    rw [rowTokens] at h
    cases h
    rfl
  | x :: xs, found, ts, h => by
    rw [rowTokens] at h
    obtain ⟨first, t, more, ht, hmore, rfl⟩ := Report.andThen_eq_ok.1 h
    obtain ⟨us, hus, -⟩ := Report.map_eq_ok.1 hmore
    have hfirst := elementToken_depthExact o level hlevel i (path ++ [position]) (by simp [hpath]) x first t ht
    have hrest := rowTokens_depthExact o level hlevel (i + x.width) path (position + 1) hpath xs more us hus
    rw [Row.sites]
    exact hfirst.append hrest

end

/-! ## Layouts that stay above the limit -/

theorem contentOf_unlimited (o : Options) {xs : List Element}
    (h : rowTokens (o.upTo n) level i xs = rowTokens o.unlimited level i xs) :
    contentOf (o.upTo n) level i xs = contentOf o.unlimited level i xs := by
  unfold contentOf
  rw [h]
  rfl

theorem framedContentOf_unlimited (o : Options) (frame : Frame) {xs : List Element}
    (h : rowTokens (o.upTo n) level (i + 1) xs = rowTokens o.unlimited level (i + 1) xs) :
    framedContentOf (o.upTo n) level i frame xs = framedContentOf o.unlimited level i frame xs := by
  unfold framedContentOf
  rw [h]
  rfl

/-- A construct that is not one level below the limit is above it. -/
theorem lt_of_level_ne {s : Site} (hs : s.level ≠ n + 1) (hlength : s.path.length = 2 * level + 1)
    (hlevel : level ≤ n) : level < n := by
  rw [Site.level_of_length hlength] at hs
  omega

mutual

theorem elementToken_unlimited (o : Options) (level : Nat) (hlevel : level ≤ n) (i : Nat) (path : List Nat)
    (hpath : path.length = 2 * level + 1) :
    ∀ x : Element, (∀ s ∈ x.sites path i, s.level ≠ n + 1) →
      elementToken (o.upTo n) level i x = elementToken o.unlimited level i x
  | .glyph c, h => by rw [elementToken, elementToken]
  | .fraction above below, h => by
    rw [Element.sites, List.cons_append, List.forall_mem_cons, List.forall_mem_append] at h
    obtain ⟨hself, habove, hbelow⟩ := h
    have hlt := lt_of_level_ne hself hpath hlevel
    have hnum := rowTokens_unlimited o (level + 1) hlt (i + 1) _ 0 (by simp [hpath]; omega) above habove
    have hden := rowTokens_unlimited o (level + 1) hlt (i + Row.width above + 2) _ 0 (by simp [hpath]; omega)
      below hbelow
    rw [elementToken_fraction (o.isTooDeep_upTo_of_lt hlt), elementToken_fraction (o.isTooDeep_unlimited level),
      contentOf_unlimited o hnum, contentOf_unlimited o hden]
  | .framed frame body, h => by
    rw [Element.sites, List.forall_mem_cons] at h
    have hlt := lt_of_level_ne h.1 hpath hlevel
    have hbody := rowTokens_unlimited o (level + 1) hlt (i + 1) _ 0 (by simp [hpath]; omega) body h.2
    rw [elementToken_framed (o.isTooDeep_upTo_of_lt hlt), elementToken_framed (o.isTooDeep_unlimited level),
      framedContentOf_unlimited o frame hbody]

theorem rowTokens_unlimited (o : Options) (level : Nat) (hlevel : level ≤ n) (i : Nat) (path : List Nat)
    (position : Nat) (hpath : path.length = 2 * level) :
    ∀ xs : List Element, (∀ s ∈ Row.sites path position i xs, s.level ≠ n + 1) →
      rowTokens (o.upTo n) level i xs = rowTokens o.unlimited level i xs
  | [], h => by rw [rowTokens, rowTokens]
  | x :: xs, h => by
    rw [Row.sites, List.forall_mem_append] at h
    rw [rowTokens, rowTokens,
      elementToken_unlimited o level hlevel i (path ++ [position]) (by simp [hpath]) x h.1,
      rowTokens_unlimited o level hlevel (i + x.width) path (position + 1) hpath xs h.2]

end

end Reading

end PlanarMath
