import PlanarMath.Proofs.Json.RoundTrip

/-!
# The characters of written JSON

No control character stands in the text of a value as it is, so all line breaks of a text are those of its
style: an indented text has a line break where a line of it ends, a compact text has none at all.
-/

namespace PlanarMath.Json

/-- A character that is no control character below U+0020. -/
def NoControl (c : Char) : Prop := 0x20 ≤ c.toNat

instance (c : Char) : Decidable (NoControl c) := inferInstanceAs (Decidable (0x20 ≤ c.toNat))

theorem forall_noControl {w : List Char} (h : w.all fun c => decide (NoControl c)) : ∀ c ∈ w, NoControl c := by
  simpa using h

theorem noControl_of_isAsciiDigit {c : Char} (h : Text.isAsciiDigit c) : NoControl c := by
  unfold NoControl
  simp only [Text.isAsciiDigit, Bool.and_eq_true, decide_eq_true_eq, Char.le_def] at h
  have hlow : (0x30 : Nat) ≤ c.toNat := h.1
  omega

theorem noControl_hexDigit : ∀ n < 16, NoControl (Text.hexDigit n) := by decide

theorem noControl_hexDigits (width n : Nat) : ∀ c ∈ Text.hexDigits width n, NoControl c := by
  induction width generalizing n with
  | zero => exact List.forall_mem_nil _
  | succ width ih =>
    rw [Text.hexDigits]
    exact List.forall_mem_append.2
      ⟨ih _, List.forall_mem_singleton.2 (noControl_hexDigit _ (Nat.mod_lt _ (by decide)))⟩

/-- Control characters are written as something else. -/
theorem noControl_escapedChar (c : Char) : ∀ d ∈ escapedChar c, NoControl d := by
  unfold escapedChar
  split_ifs with _ _ _ _ _ _ _ hlow
  iterate 7 exact forall_noControl rfl
  · intro d hd
    rw [List.mem_cons, List.mem_cons] at hd
    rcases hd with rfl | rfl | hd
    · decide
    · decide
    · exact noControl_hexDigits 4 c.toNat d hd
  · exact List.forall_mem_singleton.2 (Nat.le_of_not_lt hlow)

theorem noControl_writeText (s : String) : ∀ c ∈ writeText s, NoControl c := by
  unfold writeText
  simp only [List.cons_append, List.mem_cons, List.mem_append, List.mem_flatMap]
  rintro c (rfl | ⟨d, -, hc⟩ | rfl | hc)
  · decide
  · exact noControl_escapedChar d c hc
  · decide
  · cases hc

theorem noControl_signedDecimal (n : Int) : ∀ c ∈ Text.signedDecimal n, NoControl c := by
  have digits : ∀ m, ∀ c ∈ Text.decimal m, NoControl c := fun m c hc =>
    noControl_of_isAsciiDigit ((Text.decimal_digits m).2 c hc)
  cases n with
  | ofNat m => exact digits m
  | negSucc m => exact List.forall_mem_cons.2 ⟨by decide, digits (m + 1)⟩

theorem noControl_of_isVisible {c : Char} (h : Text.IsVisible c) : NoControl c := by
  have hlow := h.1
  unfold NoControl
  omega

theorem noControl_writeReal (x : Binary64) : ∀ c ∈ writeReal x, NoControl c := by
  match x with
  | .nan | .infinite true | .infinite false => exact forall_noControl rfl
  | .finite negative m q =>
    exact fun c hc => noControl_of_isVisible ((Number.isSigned_text (.real (.finite negative m q))).visible c hc)

/-- A property of all but the control characters, and of those that a style sets values off by. -/
structure Style.Forall (P : Char → Prop) (style : Style) : Prop where
  plain : ∀ c, NoControl c → P c
  colon : ∀ c ∈ style.colon, P c
  first : ∀ level, ∀ c ∈ style.first level, P c
  next : ∀ level, ∀ c ∈ style.next level, P c
  last : ∀ level, ∀ c ∈ style.last level, P c

section
variable {P : Char → Prop} {style : Style} (hs : style.Forall P)
include hs

theorem forall_mem_plain_append {w tail : List Char} (hw : ∀ c ∈ w, NoControl c) (ht : ∀ c ∈ tail, P c) :
    ∀ c ∈ w ++ tail, P c :=
  List.forall_mem_append.2 ⟨fun c hc => hs.plain c (hw c hc), ht⟩

theorem forall_mem_key (key : String) {b v : List Char} (hb : ∀ c ∈ b, P c) (hv : ∀ c ∈ v, P c) :
    ∀ c ∈ b ++ writeText key ++ style.colon ++ v, P c := by
  rw [List.append_assoc, List.append_assoc]
  refine List.forall_mem_append.2 ⟨hb, forall_mem_plain_append hs (noControl_writeText key) ?_⟩
  exact List.forall_mem_append.2 ⟨hs.colon, hv⟩

mutual

/-- A property of the characters of a style and of all that follows holds of a written value. -/
theorem forall_mem_write : ∀ (v : Json) (level : Nat) (tail : List Char),
    (∀ c ∈ tail, P c) → ∀ c ∈ write style level v tail, P c
  | .null, level, tail, ht | .bool true, level, tail, ht | .bool false, level, tail, ht => by
    rw [write]
    exact forall_mem_plain_append hs (forall_noControl rfl) ht
  | .array [], level, tail, ht => by
    rw [write]
    exact forall_mem_plain_append hs (w := ['[', ']']) (forall_noControl rfl) ht
  | .object [], level, tail, ht => by
    rw [write]
    exact forall_mem_plain_append hs (w := ['{', '}']) (forall_noControl rfl) ht
  | .int n, level, tail, ht => by
    rw [write]
    exact forall_mem_plain_append hs (noControl_signedDecimal n) ht
  | .real x, level, tail, ht => by
    rw [write]
    exact forall_mem_plain_append hs (noControl_writeReal x) ht
  | .text s, level, tail, ht => by
    rw [write]
    exact forall_mem_plain_append hs (noControl_writeText s) ht
  | .array (v :: vs), level, tail, ht => by
    have hend : ∀ c ∈ style.last level ++ ']' :: tail, P c :=
      List.forall_mem_append.2 ⟨hs.last level, forall_mem_plain_append hs (w := [']']) (forall_noControl rfl) ht⟩
    have hitems := forall_mem_write v (level + 1) _ (forall_mem_writeItems vs level _ hend)
    rw [write]
    exact forall_mem_plain_append hs (w := ['[']) (forall_noControl rfl)
      (List.forall_mem_append.2 ⟨hs.first level, hitems⟩)
  | .object ((k, v) :: ms), level, tail, ht => by
    have hend : ∀ c ∈ style.last level ++ '}' :: tail, P c :=
      List.forall_mem_append.2 ⟨hs.last level, forall_mem_plain_append hs (w := ['}']) (forall_noControl rfl) ht⟩
    have hmembers := forall_mem_write v (level + 1) _ (forall_mem_writeMembers ms level _ hend)
    rw [write]
    exact forall_mem_key hs k (b := '{' :: style.first level)
      (forall_mem_plain_append hs (w := ['{']) (forall_noControl rfl) (hs.first level)) hmembers

theorem forall_mem_writeItems : ∀ (vs : List Json) (level : Nat) (tail : List Char),
    (∀ c ∈ tail, P c) → ∀ c ∈ writeItems style level vs tail, P c
  | [], level, tail, ht => ht
  | v :: vs, level, tail, ht => by
    rw [writeItems]
    exact List.forall_mem_append.2
      ⟨hs.next level, forall_mem_write v (level + 1) _ (forall_mem_writeItems vs level tail ht)⟩

theorem forall_mem_writeMembers : ∀ (ms : List (String × Json)) (level : Nat) (tail : List Char),
    (∀ c ∈ tail, P c) → ∀ c ∈ writeMembers style level ms tail, P c
  | [], level, tail, ht => ht
  | (k, v) :: ms, level, tail, ht => by
    rw [writeMembers]
    exact forall_mem_key hs k (hs.next level)
      (forall_mem_write v (level + 1) _ (forall_mem_writeMembers ms level tail ht))

end

end

theorem forall_newline (level : Nat) : ∀ c ∈ newline level, c = '\n' ∨ NoControl c := by
  refine List.forall_mem_cons.2 ⟨.inl rfl, ?_⟩
  intro c hc
  obtain rfl := List.eq_of_mem_replicate hc
  exact .inr (by decide)

theorem forall_indented : indented.Forall fun c => c = '\n' ∨ NoControl c where
  plain _ h := .inr h
  colon c hc := .inr (forall_noControl (w := [':', ' ']) rfl c hc)
  first level := forall_newline (level + 1)
  next level := List.forall_mem_cons.2 ⟨.inr (by decide), forall_newline (level + 1)⟩
  last := forall_newline

/-- An indented text has line breaks between its lines, and no other control character. -/
theorem forall_mem_indented (v : Json) :
    ∀ c ∈ (toText indented v).toList, c = '\n' ∨ NoControl c := by
  rw [toText, String.toList_ofList]
  exact forall_mem_write forall_indented v 0 [] (List.forall_mem_nil _)

end PlanarMath.Json
