/-!
# Blank characters

The characters that Unicode counts as white space, and texts without them at their ends.
-/

namespace JsonTemplate

/-- The first and last character of each run of white space in Unicode. -/
def blankRanges : List (Char × Char) :=
  [('\u0009', '\u000d'), ('\u0020', '\u0020'), ('\u0085', '\u0085'), ('\u00a0', '\u00a0'),
    ('\u1680', '\u1680'), ('\u2000', '\u200a'), ('\u2028', '\u2029'), ('\u202f', '\u202f'),
    ('\u205f', '\u205f'), ('\u3000', '\u3000')]

/-- Whether a character is white space in Unicode. -/
def isBlank (c : Char) : Bool :=
  blankRanges.any fun (first, last) => first ≤ c && c ≤ last

/-- A text without the blanks at its two ends. -/
def trimBlanks (text : List Char) : List Char :=
  ((text.dropWhile isBlank).reverse.dropWhile isBlank).reverse

end JsonTemplate
