import Variability.Token

/-
  The directives of a preprocessor.

  Main definitions:
    * `Directive`
    * `Directive.ofLine`
    * `IncludeName`
-/

namespace Variability

/- A directive with the tokens behind its word. -/
inductive Directive where
  /- `#if`, `#ifdef` or `#ifndef`. -/
  | opening (word : String) (arguments : List Token)
  /- `#elif`, `#elifdef` or `#elifndef`. -/
  | alternative (word : String) (arguments : List Token)
  | otherwise
  | closing
  | define (arguments : List Token)
  | undefine (arguments : List Token)
  | inclusion (arguments : List Token)
  /- The file is to be read once only. -/
  | once
  /- A directive that no condition depends on. -/
  | other
  deriving DecidableEq, Repr, Inhabited

namespace Directive

/- The directive of a word and the tokens behind it. -/
def ofWord (word : String) (arguments : List Token) : Directive :=
  match word with
  | "if" | "ifdef" | "ifndef" => .opening word arguments
  | "elif" | "elifdef" | "elifndef" => .alternative word arguments
  | "else" => .otherwise
  | "endif" => .closing
  | "define" => .define arguments
  | "undef" => .undefine arguments
  | "include" | "include_next" | "import" => .inclusion arguments
  | "pragma" =>
      if arguments.head?.any (·.is "once") then .once else .other
  | _ => .other

/- The directive of a logical line, if it is one. -/
def ofLine : List Token → Option Directive
  | [] => none
  | t :: rest =>
      if t.is "#" then
        match rest with
        | [] => some .other
        | word :: arguments => some (ofWord word.text arguments)
      else
        none

end Directive

------------------------------------------------------------
-- Tests
------------------------------------------------------------

/- What an opening or an alternative asks. -/
inductive Test where
  | expression (tokens : List Token)
  | definedness (name : String) (positive : Bool)
  /- A question without a name in it, by its text. -/
  | unnamed (text : String)
  deriving DecidableEq, Repr

namespace Test

/- What the word of a directive asks about the tokens behind it. -/
def ofWord (word : String) (arguments : List Token) : Test :=
  if word = "if" ∨ word = "elif" then
    .expression arguments
  else
    match arguments.head?.filter (·.kind = .identifier) with
    | some t =>
        .definedness t.text
          (decide (word ≠ "ifndef" ∧ word ≠ "elifndef"))
    | none => .unnamed ("#" ++ word ++ " " ++ Token.spell arguments)

end Test

------------------------------------------------------------
-- Names of Included Files
------------------------------------------------------------

/- The file that an inclusion names. -/
structure IncludeName where
  name : String
  /- Whether it is looked for beside the including file, too. -/
  beside : Bool
  deriving DecidableEq, Repr

namespace IncludeName

/- A text without the quotes at its ends. -/
def unquote (text : String) : String :=
  let isQuote (c : Char) : Bool := c == '"'
  String.ofList
    ((text.toList.dropWhile isQuote).reverse.dropWhile
      isQuote).reverse

/- The name between two quotes or between `<` and `>`, if there is one. -/
def ofTokens? (tokens : List Token) : Option IncludeName :=
  match tokens with
  | [] => none
  | [t] =>
      if t.kind = .string then
        some ⟨unquote t.text, true⟩
      else
        none
  | t :: rest =>
      if t.is "<" ∧ rest.getLast?.any (·.is ">") then
        some ⟨String.join (rest.dropLast.map (·.text)), false⟩
      else
        none

end IncludeName

end Variability
