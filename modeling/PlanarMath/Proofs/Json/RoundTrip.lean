import PlanarMath.Json.Writer
import PlanarMath.Proofs.Json.Completeness
import PlanarMath.Proofs.Json.Members

/-!
# Values read back

The text of a value is written as that value, in every style that sets its parts off by blanks only, so it is read
as that value.  Three things are not told by a text: a real number that is not in its only form, the digits of an
integer with too many, and the first of two members under one key; a value without them is told.

    {"a": [1, "b"]}    →    one line, or one item a line    →    {"a": [1, "b"]}
-/

namespace PlanarMath.Json

open Text

/-! ## Values that are told -/

mutual

/-- A value that its text tells: real numbers of the format, no integer that is too long, and no key twice. -/
def IsTold : Json → Prop
  | .null | .bool _ | .text _ => True
  | .int n => Literal.isShort n
  | .real x => x.IsCanonical
  | .array items => AreTold items
  | .object members => (members.map (·.1)).Nodup ∧ MembersAreTold members

/-- All values of a list are told by their texts. -/
def AreTold : List Json → Prop
  | [] => True
  | v :: vs => v.IsTold ∧ AreTold vs

/-- The values of all members are told by their texts. -/
def MembersAreTold : List (String × Json) → Prop
  | [] => True
  | (_, v) :: ms => v.IsTold ∧ MembersAreTold ms

end

/-- A style that sets the parts of a value off by nothing but blanks. -/
structure Style.IsPlain (style : Style) : Prop where
  colon : ∃ blanks, style.colon = ':' :: blanks ∧ AreBlank blanks
  first : ∀ level, AreBlank (style.first level)
  next : ∀ level, ∃ blanks, style.next level = ',' :: blanks ∧ AreBlank blanks
  last : ∀ level, AreBlank (style.last level)

theorem areBlank_nil : AreBlank [] := List.forall_mem_nil _

theorem areBlank_newline (level : Nat) : AreBlank (newline level) := by
  refine List.forall_mem_cons.2 ⟨rfl, fun c hc => ?_⟩
  rw [List.eq_of_mem_replicate hc]
  rfl

theorem isPlain_indented : indented.IsPlain where
  colon := ⟨[' '], rfl, List.forall_mem_singleton.2 rfl⟩
  first level := areBlank_newline (level + 1)
  next level := ⟨_, rfl, areBlank_newline (level + 1)⟩
  last := areBlank_newline

/-! ## Values as they are written -/

mutual

/-- A value as it is written. -/
def toRaw : Json → Raw
  | .null => .null
  | .bool b => .bool b
  | .int n => .int n
  | .real x => .real x
  | .text s => .text s
  | .array items => .array (itemsToRaw items)
  | .object members => .object (membersToRaw members)

/-- The values of a list as they are written. -/
def itemsToRaw : List Json → List Raw
  | [] => []
  | v :: vs => v.toRaw :: itemsToRaw vs

/-- The members of an object as they are written. -/
def membersToRaw : List (String × Json) → List (Points × Raw)
  | [] => []
  | (k, v) :: ms => (↑k, v.toRaw) :: membersToRaw ms

end

mutual

theorem isShort_toRaw : ∀ v : Json, v.IsTold → v.toRaw.isShort
  | .null, _ | .bool _, _ | .text _, _ | .real _, _ => rfl
  | .int _, h => h
  | .array items, h => areShort_itemsToRaw items h
  | .object members, h => membersAreShort_membersToRaw members h.2

theorem areShort_itemsToRaw : ∀ vs : List Json, AreTold vs → Raw.areShort (itemsToRaw vs)
  | [], _ => rfl
  | v :: vs, h => by
    rw [itemsToRaw, Raw.areShort, isShort_toRaw v h.1, areShort_itemsToRaw vs h.2]
    rfl

theorem membersAreShort_membersToRaw : ∀ ms : List (String × Json), MembersAreTold ms →
    Raw.membersAreShort (membersToRaw ms)
  | [], _ => rfl
  | (k, v) :: ms, h => by
    rw [membersToRaw, Raw.membersAreShort, isShort_toRaw v h.1, membersAreShort_membersToRaw ms h.2]
    rfl

end

mutual

/-- A value that is told is the value that it is written as. -/
theorem toJson_toRaw : ∀ v : Json, v.IsTold → v.toRaw.toJson = v
  | .null, _ | .bool _, _ | .int _, _ | .real _, _ => rfl
  | .text s, _ => by
    rw [toRaw, Raw.toJson, Points.toString?_ofString]
    rfl
  | .array items, h => by rw [toRaw, Raw.toJson, itemsToJson_itemsToRaw items h]
  | .object members, h => by
    have hput : putAll [] members = members := putAll_of_nodup h.1
    rw [toRaw, Raw.toJson, membersToJson_membersToRaw members h.2, hput]

theorem itemsToJson_itemsToRaw : ∀ vs : List Json, AreTold vs → Raw.itemsToJson (itemsToRaw vs) = vs
  | [], _ => rfl
  | v :: vs, h => by rw [itemsToRaw, Raw.itemsToJson, toJson_toRaw v h.1, itemsToJson_itemsToRaw vs h.2]

theorem membersToJson_membersToRaw : ∀ (ms : List (String × Json)) {known : List (String × Json)},
    MembersAreTold ms → Raw.membersToJson known (membersToRaw ms) = putAll known ms
  | [], known, _ => rfl
  | (k, v) :: ms, known, h => by
    rw [membersToRaw, Raw.membersToJson, Points.toString?_ofString]
    simp only
    rw [toJson_toRaw v h.1, membersToJson_membersToRaw ms h.2]
    rfl

end

/-! ## Written strings -/

theorem hexValue?_hexDigit : ∀ n < 16, hexValue? (hexDigit n) = some n := by decide

/-- Four hexadecimal digits tell a code point that has no more. -/
theorem unit?_hexDigits {c : Char} (h : c.toNat < 0x10000) : unit? (hexDigits 4 c.toNat) = some (.ofChar c) := by
  have hdigit : ∀ m, hexValue? (hexDigit (m % 16)) = some (m % 16) :=
    fun m => hexValue?_hexDigit _ (Nat.mod_lt _ (by decide))
  simp only [hexDigits, List.nil_append, List.cons_append, unit?, hdigit, Option.bind_eq_bind, Option.bind_some,
    Option.pure_def, Option.some.injEq]
  refine Fin.ext ?_
  simp only [Point.ofNat, Point.ofChar]
  omega

section
variable {c : Char} {cs : List Char} {ps : Points}

/-- A character as it is written is one code point of a string. -/
theorem isString_escapedChar (h : IsString cs ps) : IsString (escapedChar c ++ cs) (.ofChar c :: ps) := by
  have short : ∀ {e}, escape? e = some c → IsString (['\\', e] ++ cs) (.ofChar c :: ps) := fun hc => .escape hc h
  unfold escapedChar
  split_ifs with hquote hslash hn hr ht hb hf hlow
  · exact short (by rw [hquote]; rfl)
  · exact short (by rw [hslash]; rfl)
  · exact short (by rw [hn]; rfl)
  · exact short (by rw [hr]; rfl)
  · exact short (by rw [ht]; rfl)
  · exact short (by rw [hb]; rfl)
  · exact short (by rw [hf]; rfl)
  · exact .unit (unit?_hexDigits (by omega)) h
  · exact .plain hquote hslash (Nat.not_lt.1 hlow) h

/-- What stands between the quotes of a written string. -/
theorem isString_flatMap (cs : List Char) : IsString (cs.flatMap escapedChar) (cs.map Point.ofChar) := by
  induction cs with
  | nil => exact .nil
  | cons c cs ih => exact isString_escapedChar ih

end

theorem isValue_writeText (s : String) : IsValue (writeText s) (.text s) := by
  have hpair : Points.pair (s.toList.map Point.ofChar) = s := Points.pair_map_ofChar s.toList
  have h := IsValue.text (isString_flatMap s.toList)
  rwa [hpair] at h

/-! ## Written numbers -/

namespace Numeral

/-- A decimal with a sign, or none, as a numeral. -/
def ofDecimal (negative : Bool) (d : Decimal) : Numeral :=
  ⟨negative, digitChars d.whole, d.fractionChars, d.exponentChars⟩

theorem chars_ofDecimal (negative : Bool) (d : Decimal) :
    (ofDecimal negative d).chars = (if negative then ['-'] else []) ++ d.chars := by
  rw [chars_eq, Decimal.chars]
  rfl

theorem areDigits_digitChars {ds : List Nat} (hne : ds ≠ []) (hlt : ∀ d ∈ ds, d < 10) : AreDigits (digitChars ds) :=
  ⟨by simpa [digitChars] using hne, isAsciiDigit_digitChars hlt⟩

theorem isWritten_ofDecimal {d : Decimal} (h : d.IsWritten) (negative : Bool) : (ofDecimal negative d).IsWritten where
  whole := areDigits_digitChars h.whole_ne_nil h.whole_lt
  zero hzero := by
    obtain hone | ⟨n, ns, hn, hne⟩ := h.whole_start
    · rw [ofDecimal, hone]
      rfl
    · have hlt : n < 10 := h.whole_lt n (by rw [hn]; exact List.mem_cons_self)
      have all : ∀ n < 10, n ≠ 0 → digitChar n ≠ '0' := by decide
      simp only [ofDecimal, hn] at hzero
      exact absurd (Option.some.inj hzero) (all n hlt hne)
  fraction := by
    unfold ofDecimal Decimal.fractionChars
    simp only
    split_ifs with hf
    · exact .inl rfl
    · exact .inr ⟨_, rfl, areDigits_digitChars hf h.fraction_lt⟩
  exponent := by
    unfold ofDecimal Decimal.exponentChars
    simp only
    cases d.exponent? with
    | none => exact .inl rfl
    | some e =>
      refine .inr ⟨'e', [if e < 0 then '-' else '+'], _, rfl, .inl rfl, .inr ?_,
        areDigits_digitChars (Decimal.exponentDigits_ne_nil e) (Decimal.exponentDigits_lt e)⟩
      split
      · exact .inr rfl
      · exact .inl rfl

end Numeral

/-- Integers are written in decimal. -/
theorem isValue_signedDecimal (n : Int) : IsValue (signedDecimal n) (.int n) := by
  have hwritten : Decimal.IsWritten ⟨toDigits n.natAbs, [], none⟩ := by
    refine ⟨toDigits_lt _, List.forall_mem_nil _, ?_⟩
    rcases Nat.eq_zero_or_pos n.natAbs with hzero | hpos
    · exact .inl (by rw [hzero]; exact toDigits_of_lt (by decide))
    · exact .inr (head_toDigits hpos)
  have htext : signedDecimal n = (Numeral.ofDecimal (decide (n < 0)) ⟨toDigits n.natAbs, [], none⟩).chars := by
    have hchars : ∀ m, Decimal.chars ⟨toDigits m, [], none⟩ = decimal m := fun m => List.append_nil _
    rw [Numeral.chars_ofDecimal, hchars]
    cases n with
    | ofNat m => simp [signedDecimal]
    | negSucc m => simp [signedDecimal, Int.negSucc_lt_zero]
  have hnumeral := Numeral.isWritten_ofDecimal hwritten (decide (n < 0))
  have hvalue : (Numeral.ofDecimal (decide (n < 0)) ⟨toDigits n.natAbs, [], none⟩).integer = n := by
    have hleading := Literal.leadingDigits_digitChars (toDigits_lt n.natAbs) stopsDigits_nil
    rw [List.append_nil] at hleading
    rw [Numeral.integer, ← Numeral.leadingDigits_whole hnumeral]
    simp only [Numeral.ofDecimal, hleading, ofDigits_toDigits, Literal.ofSign_natAbs]
  have h := IsValue.int hnumeral ⟨rfl, rfl⟩
  rwa [hvalue, ← htext] at h

/-- The values that are not finite are written by name. -/
theorem writeReal_mem_names {x : Binary64} (hx : x.isFinite = false) : (writeReal x, .real x) ∈ names := by
  unfold names
  match x with
  | .nan => exact .tail _ (.tail _ (.tail _ (.head _)))
  | .infinite false => exact .tail _ (.tail _ (.tail _ (.tail _ (.head _))))
  | .infinite true => exact .tail _ (.tail _ (.tail _ (.tail _ (.tail _ (.head _)))))

theorem writeReal_finite (negative : Bool) (m : Nat) (q : Int) :
    writeReal (.finite negative m q) = (if negative then ['-'] else []) ++ Binary64.magnitude m q := by
  change (Binary64.text (.finite negative m q)).toList = _
  rw [Binary64.text, String.toList_ofList]
  cases negative <;> rfl

/-- Real numbers of the format are written by name, or with a point or an exponent. -/
theorem isValue_writeReal {x : Binary64} (h : x.IsCanonical) : IsValue (writeReal x) (.real x) := by
  cases x with
  | nan => exact .name (writeReal_mem_names rfl)
  | infinite negative => exact .name (writeReal_mem_names rfl)
  | finite negative m q =>
    obtain ⟨d, hwritten, hreal, htext, hvalue⟩ := Binary64.exists_decimal h
    rw [writeReal_finite, htext, ← Numeral.chars_ofDecimal]
    refine .real (Numeral.isWritten_ofDecimal hwritten negative) ?_ ?_
    · rintro ⟨hfraction, hexponent⟩
      rcases hreal with hf | he
      · rw [Numeral.ofDecimal, Decimal.fractionChars, if_neg hf] at hfraction
        cases hfraction
      · obtain ⟨e, he⟩ := Option.ne_none_iff_exists'.1 he
        rw [Numeral.ofDecimal, Decimal.exponentChars, he] at hexponent
        cases hexponent
    · rw [Numeral.chars_ofDecimal, Decimal.binary64?_chars hwritten, hvalue]

/-! ## Written values -/

section
variable (style : Style)

mutual

/-- What stands behind a value in a text is written there as it is. -/
theorem write_append : ∀ (v : Json) (level : Nat) (tail : List Char),
    write style level v tail = write style level v [] ++ tail
  | .null, level, tail | .bool true, level, tail | .bool false, level, tail | .int _, level, tail
  | .real _, level, tail | .text _, level, tail | .array [], level, tail | .object [], level, tail => by
    simp [write]
  | .array (v :: vs), level, tail => by
    rw [write, write, write_append v (level + 1) (writeItems style level vs (style.last level ++ ']' :: tail)),
      write_append v (level + 1) (writeItems style level vs (style.last level ++ [']'])),
      writeItems_append vs level (style.last level ++ ']' :: tail),
      writeItems_append vs level (style.last level ++ [']'])]
    simp
  | .object ((k, v) :: ms), level, tail => by
    rw [write, write, write_append v (level + 1) (writeMembers style level ms (style.last level ++ '}' :: tail)),
      write_append v (level + 1) (writeMembers style level ms (style.last level ++ ['}'])),
      writeMembers_append ms level (style.last level ++ '}' :: tail),
      writeMembers_append ms level (style.last level ++ ['}'])]
    simp

theorem writeItems_append : ∀ (vs : List Json) (level : Nat) (tail : List Char),
    writeItems style level vs tail = writeItems style level vs [] ++ tail
  | [], level, tail => by simp [writeItems]
  | v :: vs, level, tail => by
    rw [writeItems, writeItems, write_append v (level + 1) (writeItems style level vs tail),
      write_append v (level + 1) (writeItems style level vs []), writeItems_append vs level tail]
    simp

theorem writeMembers_append : ∀ (ms : List (String × Json)) (level : Nat) (tail : List Char),
    writeMembers style level ms tail = writeMembers style level ms [] ++ tail
  | [], level, tail => by simp [writeMembers]
  | (k, v) :: ms, level, tail => by
    rw [writeMembers, writeMembers, write_append v (level + 1) (writeMembers style level ms tail),
      write_append v (level + 1) (writeMembers style level ms []), writeMembers_append ms level tail]
    simp

end

end

theorem write_array (style : Style) (level : Nat) (v : Json) (vs : List Json) :
    write style level (.array (v :: vs)) [] = '[' :: ((style.first level ++ (write style (level + 1) v [] ++
      (writeItems style level vs [] ++ style.last level))) ++ [']']) := by
  rw [write, write_append, writeItems_append]
  simp

theorem write_object (style : Style) (level : Nat) (k : String) (v : Json) (ms : List (String × Json)) :
    write style level (.object ((k, v) :: ms)) [] = '{' :: ((style.first level ++ (writeText k ++ (style.colon ++
      (write style (level + 1) v [] ++ (writeMembers style level ms [] ++ style.last level))))) ++ ['}']) := by
  rw [write, write_append, writeMembers_append]
  simp

section
variable {style : Style} (hs : style.IsPlain)
include hs

mutual

/-- A value is written as itself, with nothing behind it. -/
theorem isValue_write : ∀ (v : Json) (level : Nat), v.IsTold → IsValue (write style level v []) v.toRaw
  | .null, level, _ => .name (by simp [names, write, toRaw])
  | .bool true, level, _ => .name (by simp [names, write, toRaw])
  | .bool false, level, _ => .name (by simp [names, write, toRaw])
  | .int n, level, _ => by
    rw [write, List.append_nil]
    exact isValue_signedDecimal n
  | .real x, level, hx => by
    rw [write, List.append_nil]
    exact isValue_writeReal hx
  | .text s, level, _ => by
    rw [write, List.append_nil]
    exact isValue_writeText s
  | .array [], level, _ => .noItems areBlank_nil
  | .array (v :: vs), level, h => by
    rw [write_array]
    exact .items (areItems_write vs level (hs.first level) (isValue_write v (level + 1) h.1) h.2)
  | .object [], level, _ => .noMembers areBlank_nil
  | .object ((k, v) :: ms), level, h => by
    rw [write_object]
    exact .members (areMembers_write ms k level (hs.first level) (isValue_write v (level + 1) h.2.1) h.2.2)

theorem areItems_write : ∀ (vs : List Json) (level : Nat) {before cs : List Char} {w : Raw}, AreBlank before →
    IsValue cs w → AreTold vs →
    AreItems (before ++ (cs ++ (writeItems style level vs [] ++ style.last level))) (w :: itemsToRaw vs)
  | [], level, before, cs, w, hbefore, hw, _ => .last hbefore hw (hs.last level)
  | v :: vs, level, before, cs, w, hbefore, hw, h => by
    obtain ⟨blanks, hnext, hblanks⟩ := hs.next level
    have hitems := areItems_write vs level hblanks (isValue_write v (level + 1) h.1) h.2
    have htext : writeItems style level (v :: vs) [] ++ style.last level = [] ++ ',' :: (blanks ++
        (write style (level + 1) v [] ++ (writeItems style level vs [] ++ style.last level))) := by
      rw [writeItems, write_append, hnext]
      simp
    rw [htext]
    exact .more hbefore hw areBlank_nil hitems

theorem areMembers_write : ∀ (ms : List (String × Json)) (k : String) (level : Nat) {before cs : List Char}
    {w : Raw}, AreBlank before → IsValue cs w → MembersAreTold ms →
    AreMembers (before ++ (writeText k ++ (style.colon ++ (cs ++
      (writeMembers style level ms [] ++ style.last level))))) ((↑k, w) :: membersToRaw ms)
  | [], k, level, before, cs, w, hbefore, hw, _ => by
    obtain ⟨spaces, hcolon, hspaces⟩ := hs.colon
    have hpair : Points.pair (k.toList.map Point.ofChar) = k := Points.pair_map_ofChar k.toList
    have hmember := AreMembers.last hbefore (isString_flatMap k.toList) areBlank_nil hspaces hw (hs.last level)
    rw [hpair] at hmember
    simpa [writeText, hcolon, writeMembers, membersToRaw] using hmember
  | (k', v) :: ms, k, level, before, cs, w, hbefore, hw, h => by
    obtain ⟨spaces, hcolon, hspaces⟩ := hs.colon
    obtain ⟨blanks, hnext, hblanks⟩ := hs.next level
    have hpair : Points.pair (k.toList.map Point.ofChar) = k := Points.pair_map_ofChar k.toList
    have hmembers := areMembers_write ms k' level hblanks (isValue_write v (level + 1) h.1) h.2
    have hmember := AreMembers.more hbefore (isString_flatMap k.toList) areBlank_nil hspaces hw areBlank_nil hmembers
    rw [hpair] at hmember
    have htext : writeMembers style level ((k', v) :: ms) [] ++ style.last level = ',' :: (blanks ++ (writeText k' ++
        (style.colon ++ (write style (level + 1) v [] ++ (writeMembers style level ms [] ++ style.last level))))) := by
      rw [writeMembers, write_append, hnext]
      simp
    rw [htext]
    simpa [writeText, hcolon, membersToRaw] using hmember

end

theorem denotes_toText {v : Json} (hv : v.IsTold) : Denotes (toText style v) v.toRaw :=
  ⟨[], write style 0 v [], [], by simp [toText], areBlank_nil, isValue_write hs v 0 hv, areBlank_nil⟩

/-- The text of an object is written with its members, also where a key comes twice. -/
theorem denotes_object {ms : List (String × Json)} (hms : MembersAreTold ms) :
    Denotes (toText style (.object ms)) (.object (membersToRaw ms)) := by
  refine ⟨[], write style 0 (.object ms) [], [], by simp [toText], areBlank_nil, ?_, areBlank_nil⟩
  match ms, hms with
  | [], _ => exact .noMembers areBlank_nil
  | (k, v) :: ms, h =>
    rw [write_object]
    exact .members (areMembers_write hs ms k 0 (hs.first 0) (isValue_write hs v 1 h.1) h.2)

/-- **Round trip.**  The text of a value that is told is read as the value, in every plain style. -/
theorem ofText_toText {v : Json} (hv : v.IsTold) : ofText (toText style v) = .ok v := by
  rw [ofText, (denotes_toText hs hv).ofText_eq (isShort_toRaw v hv)]
  exact congrArg _ (toJson_toRaw v hv)

end

end PlanarMath.Json
