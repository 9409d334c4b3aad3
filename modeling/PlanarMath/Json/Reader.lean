import PlanarMath.Json.Raw

/-!
# Reading JSON

A text is one value with blanks around it.  Besides the standard's values the names `NaN`, `Infinity`
and `-Infinity` are read as numbers.  Control characters have to be escaped, a byte-order mark is no
blank, and an integer has at most `Literal.digitLimit` digits.  What is read is the value as it is written
(`Raw`), from which the value is made (`ofText`).

Every part of the reader returns what it has not read, with a proof that this is shorter than what it
was given; that is what its recursion ends by.
-/

namespace PlanarMath.Json

/-- Why a text cannot be read. -/
inductive ReadError where
  /-- The text is not JSON. -/
  | malformed
  /-- An integer has too many digits, namely so many. -/
  | tooManyDigits (count : Nat)
  deriving DecidableEq, Repr

/-- Something read from a text, and the rest, which is shorter than the bound. -/
structure Part (α : Type) (bound : Nat) where
  value : α
  rest : List Char
  shorter : rest.length < bound

/-- The outcome of reading a part of a text. -/
abbrev Reading (α : Type) (bound : Nat) := Except ReadError (Part α bound)

/-! ## Blanks -/

/-- The four blanks between the parts of a text. -/
def isBlank (c : Char) : Bool := c == ' ' || c == '\t' || c == '\n' || c == '\r'

/-- The text from the first character that is not blank. -/
def skipBlanks : List Char → List Char
  | [] => []
  | c :: cs => if isBlank c then skipBlanks cs else c :: cs

theorem length_skipBlanks_le (cs : List Char) : (skipBlanks cs).length ≤ cs.length := by
  induction cs with
  | nil => simp [skipBlanks]
  | cons c cs ih =>
    rw [skipBlanks]
    split
    · simp only [List.length_cons]; omega
    · exact Nat.le_refl _

/-! ## Numbers -/

/-- The digits of an integer: a lone zero, or digits that do not start with one. -/
def wholeDigits : List Char → List Char
  | [] => []
  | c :: cs => if c = '0' then [c] else (c :: cs).takeWhile Text.isAsciiDigit

/-- A point with the digits after it, when there are any. -/
def fractionPart : List Char → List Char
  | '.' :: cs =>
    let ds := cs.takeWhile Text.isAsciiDigit
    if ds.isEmpty then [] else '.' :: ds
  | _ => []

/-- The sign at the start of a text, when there is one. -/
def signPart : List Char → List Char
  | '+' :: _ => ['+']
  | '-' :: _ => ['-']
  | _ => []

/-- An exponent mark with its sign and digits, when there are any. -/
def exponentPart : List Char → List Char
  | [] => []
  | c :: cs =>
    if c = 'e' ∨ c = 'E' then
      let sign := signPart cs
      let ds := (cs.drop sign.length).takeWhile Text.isAsciiDigit
      if ds.isEmpty then [] else c :: (sign ++ ds)
    else []

/-- The parts of a number as they are written. -/
structure Numeral where
  negative : Bool
  whole : List Char
  fraction : List Char
  exponent : List Char

namespace Numeral

/-- The longest numeral at the start of a text behind its sign. -/
def ofUnsigned (negative : Bool) (cs : List Char) : Numeral :=
  let whole := wholeDigits cs
  let behind := cs.drop whole.length
  let fraction := fractionPart behind
  ⟨negative, whole, fraction, exponentPart (behind.drop fraction.length)⟩

/-- The longest numeral at the start of a text; it has no digits when the text starts with none. -/
def ofStart : List Char → Numeral
  | '-' :: cs => ofUnsigned true cs
  | cs => ofUnsigned false cs

/-- The characters of a numeral. -/
def chars (n : Numeral) : List Char :=
  (if n.negative then ['-'] else []) ++ n.whole ++ n.fraction ++ n.exponent

/-- The value of a numeral: an integer unless it has a fraction or an exponent. -/
def value (n : Numeral) : Except ReadError Raw :=
  if n.whole.isEmpty then .error .malformed
  else if n.fraction.isEmpty && n.exponent.isEmpty then
    if Literal.digitLimit < n.whole.length then .error (.tooManyDigits n.whole.length)
    else .ok (.int (Literal.ofSign n.negative (Text.ofDigits (Literal.leadingDigits n.whole))))
  else match Literal.binary64? n.chars with
    | some x => .ok (.real x)
    | none => .error .malformed

end Numeral

/-- The number at the start of a text. -/
def readNumber (cs : List Char) : Reading Raw cs.length :=
  let n := Numeral.ofStart cs
  match n.value with
  | .error e => .error e
  | .ok v =>
    if h : (cs.drop n.chars.length).length < cs.length then .ok ⟨v, cs.drop n.chars.length, h⟩
    else .error .malformed

/-! ## Strings -/

/-- The value of a hexadecimal digit in either case. -/
def hexValue? (c : Char) : Option Nat :=
  if '0' ≤ c ∧ c ≤ '9' then some (c.toNat - '0'.toNat)
  else if 'a' ≤ c ∧ c ≤ 'f' then some (c.toNat - 'a'.toNat + 10)
  else if 'A' ≤ c ∧ c ≤ 'F' then some (c.toNat - 'A'.toNat + 10)
  else none

/-- The code point of the four hexadecimal digits at the start of a text. -/
def unit? : List Char → Option Text.Point
  | a :: b :: c :: d :: _ => do
    let a ← hexValue? a
    let b ← hexValue? b
    let c ← hexValue? c
    let d ← hexValue? d
    return .ofNat (((a * 16 + b) * 16 + c) * 16 + d)
  | _ => none

/-- The character of an escape of one letter. -/
def escape? (c : Char) : Option Char :=
  if c = '"' ∨ c = '\\' ∨ c = '/' then some c
  else if c = 'b' then some '\x08'
  else if c = 'f' then some '\x0c'
  else if c = 'n' then some '\n'
  else if c = 'r' then some '\r'
  else if c = 't' then some '\t'
  else none

/-- The code points of a string up to its closing quote, one for each character or escape. -/
def readPoints (cs : List Char) : Reading Text.Points cs.length :=
  match cs with
  | [] => .error .malformed
  | '"' :: rest => .ok ⟨[], rest, Nat.lt_succ_self _⟩
  | '\\' :: 'u' :: rest =>
    match unit? rest with
    | none => .error .malformed
    | some point =>
      match readPoints (rest.drop 4) with
      | .error e => .error e
      | .ok p => .ok ⟨point :: p.value, p.rest, by
          have := p.shorter
          simp only [List.length_drop] at this
          simp only [List.length_cons]; omega⟩
  | '\\' :: c :: rest =>
    match escape? c with
    | none => .error .malformed
    | some c =>
      match readPoints rest with
      | .error e => .error e
      | .ok p => .ok ⟨.ofChar c :: p.value, p.rest, Nat.lt_succ_of_lt (Nat.lt_succ_of_lt p.shorter)⟩
  | c :: rest =>
    if c = '\\' ∨ c.toNat < 0x20 then .error .malformed
    else match readPoints rest with
      | .error e => .error e
      | .ok p => .ok ⟨.ofChar c :: p.value, p.rest, Nat.lt_succ_of_lt p.shorter⟩
termination_by cs.length
decreasing_by all_goals simp only [List.length_drop, List.length_cons]; omega

/-- The string up to its closing quote: halves of a pair that are written side by side are joined. -/
def readString (cs : List Char) : Reading Text.Points cs.length :=
  match readPoints cs with
  | .error e => .error e
  | .ok p => .ok ⟨p.value.pair, p.rest, p.shorter⟩

/-! ## Values -/

/-- The text after a given beginning. -/
def after? : (beginning cs : List Char) → Option (List Char)
  | [], cs => some cs
  | b :: bs, c :: cs => if b = c then after? bs cs else none
  | _ :: _, [] => none

theorem length_after? {bs cs rest : List Char} (h : after? bs cs = some rest) :
    rest.length + bs.length = cs.length := by
  induction bs generalizing cs with
  | nil => simp only [after?, Option.some.injEq] at h; simp [h]
  | cons b bs ih =>
    cases cs with
    | nil => simp [after?] at h
    | cons c cs =>
      rw [after?] at h
      split at h
      · have := ih h; simp only [List.length_cons]; omega
      · simp at h

/-- The values that are written by name. -/
def names : List (List Char × Raw) :=
  [("null".toList, .null), ("true".toList, .bool true), ("false".toList, .bool false),
   ("NaN".toList, .real .nan), ("Infinity".toList, .real (.infinite false)),
   ("-Infinity".toList, .real (.infinite true))]

/-- The named value at the start of a text. -/
def readName? : (table : List (List Char × Raw)) → (cs : List Char) → Option (Part Raw cs.length)
  | [], _ => none
  | (name, v) :: table, cs =>
    match h : after? name cs with
    | some rest =>
      if hn : name = [] then readName? table cs
      else some ⟨v, rest, by
        have := length_after? h
        have := List.length_pos_iff.2 hn
        omega⟩
    | none => readName? table cs

mutual

/-- The value at the start of a text. -/
def readValue (cs : List Char) : Reading Raw cs.length :=
  match cs with
  | [] => .error .malformed
  | '"' :: rest =>
    match readString rest with
    | .error e => .error e
    | .ok p => .ok ⟨.text p.value, p.rest, Nat.lt_succ_of_lt p.shorter⟩
  | '[' :: rest =>
    match h : skipBlanks rest with
    | ']' :: after => .ok ⟨.array [], after, by
        have := length_skipBlanks_le rest
        simp only [h, List.length_cons] at this ⊢; omega⟩
    | start =>
      match readItems start with
      | .error e => .error e
      | .ok p => .ok ⟨.array p.value, p.rest, by
          have := length_skipBlanks_le rest
          have := p.shorter
          simp only [h, List.length_cons] at *; omega⟩
  | '{' :: rest =>
    match h : skipBlanks rest with
    | '}' :: after => .ok ⟨.object [], after, by
        have := length_skipBlanks_le rest
        simp only [h, List.length_cons] at this ⊢; omega⟩
    | start =>
      match readMembers start with
      | .error e => .error e
      | .ok p => .ok ⟨.object p.value, p.rest, by
          have := length_skipBlanks_le rest
          have := p.shorter
          simp only [h, List.length_cons] at *; omega⟩
  | c :: rest =>
    match readName? names (c :: rest) with
    | some p => .ok p
    | none => readNumber (c :: rest)
termination_by 2 * cs.length
decreasing_by
  all_goals
    have := length_skipBlanks_le rest
    simp only [h, List.length_cons] at *
    omega

/-- The items of an array, one at least, up to the closing bracket. -/
def readItems (cs : List Char) : Reading (List Raw) cs.length :=
  match readValue cs with
  | .error e => .error e
  | .ok p =>
    match h : skipBlanks p.rest with
    | ']' :: rest => .ok ⟨[p.value], rest, by
        have := length_skipBlanks_le p.rest
        have := p.shorter
        simp only [h, List.length_cons] at *; omega⟩
    | ',' :: rest =>
      match readItems (skipBlanks rest) with
      | .error e => .error e
      | .ok q => .ok ⟨p.value :: q.value, q.rest, by
          have := length_skipBlanks_le p.rest
          have := length_skipBlanks_le rest
          have := p.shorter
          have := q.shorter
          simp only [h, List.length_cons] at *; omega⟩
    | _ => .error .malformed
termination_by 2 * cs.length + 1
decreasing_by
  · omega
  · have := length_skipBlanks_le p.rest
    have := length_skipBlanks_le rest
    have := p.shorter
    simp only [h, List.length_cons] at *
    omega

/-- The members of an object, one at least, up to the closing brace. -/
def readMembers (cs : List Char) : Reading (List (Text.Points × Raw)) cs.length :=
  match cs with
  | '"' :: rest =>
    match readString rest with
    | .error e => .error e
    | .ok k =>
      match hk : skipBlanks k.rest with
      | ':' :: value =>
        match readValue (skipBlanks value) with
        | .error e => .error e
        | .ok v =>
          match hv : skipBlanks v.rest with
          | '}' :: rest => .ok ⟨[(k.value, v.value)], rest, by
              have := length_skipBlanks_le k.rest
              have := length_skipBlanks_le value
              have := length_skipBlanks_le v.rest
              have := k.shorter
              have := v.shorter
              simp only [hk, hv, List.length_cons] at *; omega⟩
          | ',' :: rest =>
            match readMembers (skipBlanks rest) with
            | .error e => .error e
            | .ok q => .ok ⟨(k.value, v.value) :: q.value, q.rest, by
                have := length_skipBlanks_le k.rest
                have := length_skipBlanks_le value
                have := length_skipBlanks_le v.rest
                have := length_skipBlanks_le rest
                have := k.shorter
                have := v.shorter
                have := q.shorter
                simp only [hk, hv, List.length_cons] at *; omega⟩
          | _ => .error .malformed
      | _ => .error .malformed
  | _ => .error .malformed
termination_by 2 * cs.length + 1
decreasing_by
  · have := length_skipBlanks_le k.rest
    have := length_skipBlanks_le value
    have := k.shorter
    simp only [hk, List.length_cons] at *
    omega
  · have := length_skipBlanks_le k.rest
    have := length_skipBlanks_le value
    have := length_skipBlanks_le v.rest
    have := length_skipBlanks_le rest
    have := k.shorter
    have := v.shorter
    simp only [hk, hv, List.length_cons] at *
    omega

end

/-- The value that a whole text is written as. -/
def Raw.ofText (s : String) : Except ReadError Raw :=
  match readValue (skipBlanks s.toList) with
  | .error e => .error e
  | .ok p => if (skipBlanks p.rest).isEmpty then .ok p.value else .error .malformed

/-- The value that a whole text stands for. -/
def ofText (s : String) : Except ReadError Json := (Raw.ofText s).map Raw.toJson

end PlanarMath.Json
