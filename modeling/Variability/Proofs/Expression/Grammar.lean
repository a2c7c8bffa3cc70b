import Variability.Expression
import Variability.Proofs.Token.Lexer

/-
  The expressions of conditional directives as the language has
  them.

  A tree can be written with tokens in many ways; which ones
  follows from one production for each kind of tree. An operand
  is written at the level of its operator or a tighter one, on
  the right at a tighter one only, and in parentheses at any.

  Main declarations:
    * `Grammar.Literal`
    * `Grammar.Tree`
    * `Grammar.Writes`
-/

namespace Variability

namespace Grammar

------------------------------------------------------------
-- Integers
------------------------------------------------------------

/- The ways to write integers. -/
inductive Radix where
  | decimal
  | octal
  | hexadecimal
  | binary
  deriving DecidableEq, Repr

namespace Radix

def base : Radix → Nat
  | decimal => 10
  | octal => 8
  | hexadecimal => 16
  | binary => 2

/- What stands before the digits. -/
def mark (capital : Bool) : Radix → List Char
  | decimal | octal => []
  | hexadecimal => ['0', if capital then 'X' else 'x']
  | binary => ['0', if capital then 'B' else 'b']

/- Whether an integer may begin with a digit of this value. -/
def Opens (d : Nat) : Radix → Prop
  | decimal => d ≠ 0
  | octal => d = 0
  | hexadecimal | binary => True

end Radix

/- A digit, as a capital or a small letter from 10 on. -/
structure Digit (base : Nat) where
  value : Fin base
  capital : Bool

def Digit.char {base : Nat} (d : Digit base) : Char :=
  let digits :=
    if d.capital then "0123456789ABCDEF" else "0123456789abcdef"
  digits.toList.getD d.value '0'

/- The letters behind an integer: unsigned, long, or both. -/
def suffixes : List String :=
  ["", "u", "U", "l", "L", "ll", "LL",
   "ul", "uL", "Ul", "UL", "ull", "uLL", "Ull", "ULL",
   "lu", "lU", "Lu", "LU", "llu", "llU", "LLu", "LLU"]

/- An integer as it is written. -/
structure Literal where
  radix : Radix
  /- Whether the mark before the digits is a capital letter. -/
  capital : Bool
  first : Digit radix.base
  /- Further digits, and whether a separator stands before each. -/
  more : List (Bool × Digit radix.base)
  suffix : String
  opens : radix.Opens first.value
  suffix_mem : suffix ∈ suffixes

namespace Literal

/- The digits of an integer, the first one counting most. -/
def value (l : Literal) : Nat :=
  (l.first :: l.more.map (·.2)).foldl
    (fun n d => l.radix.base * n + d.value) 0

/- The characters of the digits. -/
def digits (l : Literal) : List Char :=
  l.first.char :: l.more.flatMap fun d =>
    if d.1 then ['\'', d.2.char] else [d.2.char]

def text (l : Literal) : String :=
  String.ofList
    (l.radix.mark l.capital ++ l.digits ++ l.suffix.toList)

end Literal

------------------------------------------------------------
-- Operators
------------------------------------------------------------

end Grammar

def Sign.mark : Sign → String
  | .not => "!"
  | .minus => "-"
  | .plus => "+"
  | .complement => "~"

namespace Operator

def mark : Operator → String
  | .bitOr => "|"
  | .bitXor => "^"
  | .bitAnd => "&"
  | .equal => "=="
  | .unequal => "!="
  | .less => "<"
  | .greater => ">"
  | .lessEqual => "<="
  | .greaterEqual => ">="
  | .shiftLeft => "<<"
  | .shiftRight => ">>"
  | .plus => "+"
  | .minus => "-"
  | .times => "*"
  | .divide => "/"
  | .remainder => "%"

/- How tightly an operator binds. -/
def level : Operator → Nat
  | .bitOr => 3
  | .bitXor => 4
  | .bitAnd => 5
  | .equal | .unequal => 6
  | .less | .greater | .lessEqual | .greaterEqual => 7
  | .shiftLeft | .shiftRight => 8
  | .plus | .minus => 9
  | .times | .divide | .remainder => 10

end Operator

namespace Connective

def mark : Connective → String
  | .or => "||"
  | .and => "&&"

/- How tightly a connective binds. -/
def level : Connective → Nat
  | .or => 1
  | .and => 2

end Connective

namespace Grammar

------------------------------------------------------------
-- Trees
------------------------------------------------------------

/- An expression without the way in which it is written. -/
inductive Tree where
  | literal (l : Literal)
  | character (text : String)
  | defined (name : String)
  | reference (name : String)
  | sign (op : Sign) (t : Tree)
  | operation (op : Operator) (l r : Tree)
  | connective (op : Connective) (l r : Tree)
  | conditional (test yes no : Tree)

/- A token is a certain mark. -/
structure IsMark (text : String) (t : Token) : Prop where
  kind_eq : t.kind = .punctuation
  text_eq : t.text = text

/- A token is a certain name. -/
structure IsName (name : String) (t : Token) : Prop where
  kind_eq : t.kind = .identifier
  text_eq : t.text = name
  isIdentifier : Lexer.isIdentifier name = true

/- A token is a certain integer. -/
structure IsLiteral (l : Literal) (t : Token) : Prop where
  kind_eq : t.kind = .number
  text_eq : t.text = l.text

/- A token is a certain character between quotes. -/
structure IsCharacter (text : String) (t : Token) : Prop where
  kind_eq : t.kind = .character
  text_eq : t.text = text

/-
  The ways to write a tree at a level: 0 for choices, 1 to 10
  for connectives and operators, 11 for signs, and 12 for what
  needs no parentheses anywhere.
-/
inductive Writes : Nat → Tree → List Token → Prop where
  | literal {l : Literal} {t : Token}
      (ht : IsLiteral l t) :
      Writes 12 (.literal l) [t]
  | character {text : String} {t : Token}
      (ht : IsCharacter text t) :
      Writes 12 (.character text) [t]
  | defined {name : String} {word t : Token}
      (hWord : IsName "defined" word)
      (ht : IsName name t) :
      Writes 12 (.defined name) [word, t]
  | definedWithin {name : String} {word opening t closing : Token}
      (hWord : IsName "defined" word)
      (hOpen : IsMark "(" opening)
      (ht : IsName name t)
      (hClose : IsMark ")" closing) :
      Writes 12 (.defined name) [word, opening, t, closing]
  | reference {name : String} {t : Token}
      (ht : IsName name t) :
      Writes 12 (.reference name) [t]
  | parentheses {tree : Tree} {ts : List Token}
      {opening closing : Token}
      (hOpen : IsMark "(" opening)
      (hInside : Writes 0 tree ts)
      (hClose : IsMark ")" closing) :
      Writes 12 tree (opening :: (ts ++ [closing]))
  | sign {op : Sign} {tree : Tree} {ts : List Token}
      {mark : Token}
      (hMark : IsMark op.mark mark)
      (hOperand : Writes 11 tree ts) :
      Writes 11 (.sign op tree) (mark :: ts)
  | operation {op : Operator} {l r : Tree}
      {ts us : List Token} {mark : Token}
      (hLeft : Writes op.level l ts)
      (hMark : IsMark op.mark mark)
      (hRight : Writes (op.level + 1) r us) :
      Writes op.level (.operation op l r) (ts ++ mark :: us)
  | connective {op : Connective} {l r : Tree}
      {ts us : List Token} {mark : Token}
      (hLeft : Writes op.level l ts)
      (hMark : IsMark op.mark mark)
      (hRight : Writes (op.level + 1) r us) :
      Writes op.level (.connective op l r) (ts ++ mark :: us)
  | conditional {test yes no : Tree}
      {ts us vs : List Token} {question colon : Token}
      (hTest : Writes 1 test ts)
      (hQuestion : IsMark "?" question)
      (hYes : Writes 0 yes us)
      (hColon : IsMark ":" colon)
      (hNo : Writes 0 no vs) :
      Writes 0 (.conditional test yes no)
        (ts ++ question :: (us ++ colon :: vs))
  | tighter {level : Nat} {tree : Tree} {ts : List Token}
      (hTighter : Writes (level + 1) tree ts) :
      Writes level tree ts

/- What is written at a level can stand at any looser one. -/
theorem Writes.of_le
    {p q : Nat}
    {tree : Tree}
    {ts : List Token}
    (hWrites : Writes p tree ts)
    (hLe : q ≤ p) :
    Writes q tree ts := by
  induction p, hLe using Nat.le_induction with
  | base => exact hWrites
  | succ p _ ih => exact ih (.tighter hWrites)

end Grammar

end Variability
