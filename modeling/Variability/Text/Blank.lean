/-
  White space as the character standard counts it.

  Main definitions:
    * `isBlank`
    * `trimEnd`
    * `words`
-/

namespace Variability

namespace Text

/- The characters with the property of white space. -/
def isBlank (c : Char) : Bool :=
  let n := c.toNat
  (9 ≤ n && n ≤ 13) || n == 0x20 || n == 0x85 || n == 0xa0 ||
    n == 0x1680 || (0x2000 ≤ n && n ≤ 0x200a) ||
    n == 0x2028 || n == 0x2029 || n == 0x202f ||
    n == 0x205f || n == 0x3000

/- A text without the white space at its end. -/
def trimEnd (s : List Char) : List Char :=
  (s.reverse.dropWhile isBlank).reverse

/- The words of a text, `word` being the one under way. -/
def wordsFrom (word : List Char) : List Char → List (List Char)
  | [] => if word.isEmpty then [] else [word.reverse]
  | c :: rest =>
      if isBlank c then
        if word.isEmpty then
          wordsFrom [] rest
        else
          word.reverse :: wordsFrom [] rest
      else
        wordsFrom (c :: word) rest

/- The longest pieces of a text that hold no white space. -/
def words (s : List Char) : List (List Char) :=
  wordsFrom [] s

end Text

end Variability
