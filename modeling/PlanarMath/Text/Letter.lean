/-!
# Letters of words

Words are written in the letters of the Latin and the Greek alphabet, in both cases, without accents.
-/

namespace PlanarMath.Text

/-- Whether a text comes, code point by code point, no earlier than the text `low` and no later than the
text `high`, each of one letter. -/
def isBetween (low high : Char) : List Char → Bool
  | [] => false
  | c :: rest => low ≤ c && (c < high || (c == high && rest.isEmpty))

/-- Whether a text stands in one of the four alphabets. -/
def isLetters (cs : List Char) : Bool :=
  isBetween 'a' 'z' cs || isBetween 'A' 'Z' cs || isBetween 'α' 'ω' cs || isBetween 'Α' 'Ω' cs

/-- A letter that words are written in. -/
def isLetter (c : Char) : Bool := isLetters [c]

end PlanarMath.Text
