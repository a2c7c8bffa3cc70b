import Variability.Smt.Token

/-
  Reading the commands of SMT-LIB scripts.

  A script is read as nested lists first. A list may be cut off
  by the end of the script; the place where it is cut, like the
  parenthesis that closes it, is part of the list. So the first
  token that cannot go on with a command is found by walking
  over the list from left to right.

  Main definitions:
    * `Smt.Items`
    * `Smt.Term`
    * `Smt.Command`
    * `Smt.Script.read`
-/

namespace Variability

namespace Smt

------------------------------------------------------------
-- Nested Lists
------------------------------------------------------------

/- What is left of a list, with the offsets behind its tokens. -/
inductive Items where
  | close (stop : Nat)
  /- The script ends before the list is closed. -/
  | cut (last : Nat)
  | atom (t : Token) (stop : Nat) (rest : Items)
  | list (start : Nat) (inner rest : Items)
  deriving DecidableEq, Repr, Inhabited

namespace Items

/-
  Put a token in front of the lists that are not opened yet, the
  innermost one first.
-/
def push
    (last : Nat)
    (l : Lexeme)
    (open_ : List Items) :
    List Items :=
  match l.token, open_ with
  | .rightParen, _ => .close l.stop :: open_
  | .leftParen, [] => [.list l.stop (.cut last) (.cut last)]
  | .leftParen, [inner] => [.list l.stop inner (.cut last)]
  | .leftParen, inner :: rest :: outer =>
      .list l.stop inner rest :: outer
  | t, [] => [.atom t l.stop (.cut last)]
  | t, rest :: outer => .atom t l.stop rest :: outer

/- The nested lists of a script. -/
def ofLexemes (s : List Lexeme) : Items :=
  let last := (s.getLast?.map (·.stop)).getD 0
  ((s.foldr (push last) []).head?).getD (.cut last)

end Items

------------------------------------------------------------
-- Mistakes
------------------------------------------------------------

/- Why a script cannot be read. -/
inductive Mistake where
  | unexpected (t : Token)
  | ended
  /- A literal that is neither a symbol nor a negated one. -/
  | literal (word : String)
  /- A declaration with too few or too many parts. -/
  | count (parts command : String) (found expected : Nat)
  deriving DecidableEq, Repr

/- A mistake with the offset behind the token that shows it. -/
structure ReadError where
  offset : Nat
  mistake : Mistake
  deriving DecidableEq, Repr

/- The message of a mistake. -/
def Mistake.message : Mistake → String
  | .unexpected t => "unexpected token: " ++ t.text
  | .ended => "unexpected end of input"
  | .literal word =>
      "invalid prop_literal: found " ++ word ++
        " instead of \x60not\x60"
  | .count parts command found expected =>
      "wrong number of " ++ parts ++ " in \x60" ++ command ++ "\x60: " ++
        toString found ++ " instead of " ++ toString expected

/- A result of reading. -/
abbrev Reading := Except ReadError

namespace Items

/- The mistake that lies in what comes next. -/
def mistake : Items → ReadError
  | .close stop => ⟨stop, .unexpected .rightParen⟩
  | .cut last => ⟨last, .ended⟩
  | .atom t stop _ => ⟨stop, .unexpected t⟩
  | .list start _ _ => ⟨start, .unexpected .leftParen⟩

/- What comes next is a mistake. -/
def fail {α : Type} (s : Items) : Reading α :=
  .error s.mistake

/- The list ends here. -/
def finish : Items → Reading Unit
  | .close _ => .ok ()
  | s => s.fail

/- The list does not end here. -/
def more : Items → Reading Unit
  | .close stop => fail (.close stop)
  | _ => .ok ()

/- A token of some kind comes next. -/
def token (accept : Token → Bool) : Items → Reading Items
  | .atom t stop rest =>
      if accept t then .ok rest else fail (.atom t stop rest)
  | s => s.fail

/- A symbol comes next. -/
def symbol : Items → Reading (String × Items)
  | .atom (.symbol name) _ rest => .ok (name, rest)
  | s => s.fail

/- A list comes next. -/
def nested {α : Type} (read : Items → Reading α) :
    Items → Reading (α × Items)
  | .list _ inner rest => do return (← read inner, rest)
  | s => s.fail

/- Tokens of some kind up to the end of the list. -/
def tokens (accept : Token → Bool) : Items → Reading Unit
  | .close _ => .ok ()
  | .atom t stop rest =>
      if accept t then tokens accept rest else fail (.atom t stop rest)
  | s => s.fail

/- Lists of some kind up to the end of the list, and their number. -/
def lists (read : Items → Reading Unit) : Items → Reading Nat
  | .close _ => .ok 0
  | .list _ inner rest => do
      read inner
      return (← lists read rest) + 1
  | s => s.fail

end Items

------------------------------------------------------------
-- Identifiers, Sorts and Attributes
------------------------------------------------------------

open Items

/- Whether a token is an index. -/
def isIndex (t : Token) : Bool :=
  t == .numeral || t.isSymbol

/- A symbol with its indices, inside its list. -/
def indexed (s : Items) : Reading Unit := do
  let (_, rest) ← s.symbol
  rest.more
  rest.tokens isIndex

/- An identifier comes next. -/
def identifier : Items → Reading Items
  | .atom (.symbol _) _ rest => .ok rest
  | .list _ (.atom (.word .underscore) _ inner) rest => do
      indexed inner
      return rest
  | .list _ inner _ => inner.fail
  | s => s.fail

mutual

/- A sort inside its parentheses. -/
def sortInside : Items → Reading Unit
  | .atom (.word .underscore) _ rest => indexed rest
  | .atom (.symbol _) _ rest => do
      rest.more
      sorts rest
  | .list _ (.atom (.word .underscore) _ inner) rest => do
      indexed inner
      rest.more
      sorts rest
  | .list _ inner _ => inner.fail
  | s => s.fail

/- Sorts up to the end of the list. -/
def sorts : Items → Reading Unit
  | .close _ => .ok ()
  | .atom (.symbol _) _ rest => sorts rest
  | .list _ inner rest => do
      sortInside inner
      sorts rest
  | s => s.fail

end

/- A sort comes next. -/
def sort : Items → Reading Items
  | .atom (.symbol _) _ rest => .ok rest
  | .list _ inner rest => do
      sortInside inner
      return rest
  | s => s.fail

/- An identifier with its sort, inside its list. -/
def sorted (s : Items) : Reading Unit := do
  (← sort (← identifier s)).finish

/- A name with its sort, inside its list. -/
def sortedName (s : Items) : Reading Unit := do
  let (_, rest) ← s.symbol
  (← sort rest).finish

/- Any nested lists of atoms up to the end of the list. -/
def expressions : Items → Reading Unit
  | .close _ => .ok ()
  | .cut last => fail (.cut last)
  | .atom (.keyword _) _ rest => expressions rest
  | .atom t stop rest =>
      if t.isConstant || t.isSymbol then
        expressions rest
      else
        fail (.atom t stop rest)
  | .list _ inner rest => do
      expressions inner
      expressions rest

/- The value of an attribute, if one comes next. -/
def attributeValue : Items → Reading Items
  | .atom t stop rest =>
      if t.isConstant || t.isSymbol then
        .ok rest
      else
        .ok (.atom t stop rest)
  | .list _ inner rest => do
      expressions inner
      return rest
  | s => .ok s

/- Attributes up to the end of the list. -/
def attributes : Items → Reading Unit
  | .close _ => .ok ()
  | .atom (.keyword _) _ (.list _ inner rest) => do
      expressions inner
      attributes rest
  | .atom (.keyword _) _ (.atom t stop rest) =>
      if t.isConstant || t.isSymbol then
        attributes rest
      else
        attributes (.atom t stop rest)
  | .atom (.keyword _) _ rest => attributes rest
  | s => s.fail

------------------------------------------------------------
-- Terms
------------------------------------------------------------

/-
  A term. An identifier has a name unless it is indexed or has
  a sort.
-/
inductive Term where
  | identifier (name : Option String)
  | application (head : Option String) (arguments : List Term)
  | binding (bindings : List (String × Term)) (body : Term)
  /- A constant, a quantifier, a match or an annotation. -/
  | other
  deriving Repr, Inhabited

/- The term that a token is. -/
def atomTerm (t : Token) (stop : Nat) : Reading Term :=
  match t with
  | .symbol name => .ok (.identifier (some name))
  | t =>
      if t.isConstant then
        .ok .other
      else
        .error ⟨stop, .unexpected t⟩

/- The names of a pattern, inside its list. -/
def pattern (s : Items) : Reading Unit := do
  s.more
  s.tokens Token.isSymbol

mutual

/- A term inside its parentheses. -/
def termInside : Items → Reading Term
  | .atom (.word .underscore) _ rest => do
      indexed rest
      return .identifier none
  | .atom (.word .as) _ rest => do
      sorted rest
      return .identifier none
  | .atom (.word .let) _ (.list _ inner rest) => do
      inner.more
      let bindings ← bindingsInside inner
      return .binding bindings (← lastTerm rest)
  | .atom (.word .let) _ rest => rest.fail
  | .atom (.word .forall) _ (.list _ inner rest)
  | .atom (.word .exists) _ (.list _ inner rest) => do
      inner.more
      let _ ← inner.lists sortedName
      let _ ← lastTerm rest
      return .other
  | .atom (.word .forall) _ rest => rest.fail
  | .atom (.word .exists) _ rest => rest.fail
  | .atom (.word .match) _ (.atom t stop (.list _ inner rest)) => do
      let _ ← atomTerm t stop
      inner.more
      casesInside inner
      rest.finish
      return .other
  | .atom (.word .match) _ (.list _ term (.list _ inner rest)) => do
      let _ ← termInside term
      inner.more
      casesInside inner
      rest.finish
      return .other
  | .atom (.word .match) _ (.atom t stop rest) => do
      let _ ← atomTerm t stop
      rest.fail
  | .atom (.word .match) _ (.list _ term rest) => do
      let _ ← termInside term
      rest.fail
  | .atom (.word .match) _ rest => rest.fail
  | .atom (.word .exclam) _ (.atom t stop rest) => do
      let _ ← atomTerm t stop
      rest.more
      attributes rest
      return .other
  | .atom (.word .exclam) _ (.list _ inner rest) => do
      let _ ← termInside inner
      rest.more
      attributes rest
      return .other
  | .atom (.word .exclam) _ rest => rest.fail
  | .atom (.symbol head) _ rest => do
      rest.more
      return .application (some head) (← terms rest)
  | .list _ (.atom (.word .underscore) _ inner) rest => do
      indexed inner
      rest.more
      return .application none (← terms rest)
  | .list _ (.atom (.word .as) _ inner) rest => do
      sorted inner
      rest.more
      return .application none (← terms rest)
  | .list _ inner _ => inner.fail
  | s => s.fail

/- Terms up to the end of the list. -/
def terms : Items → Reading (List Term)
  | .close _ => .ok []
  | .cut last => fail (.cut last)
  | .atom t stop rest => do
      let term ← atomTerm t stop
      return term :: (← terms rest)
  | .list _ inner rest => do
      let term ← termInside inner
      return term :: (← terms rest)

/- One term, with which the list ends. -/
def lastTerm : Items → Reading Term
  | .atom t stop rest => do
      let term ← atomTerm t stop
      rest.finish
      return term
  | .list _ inner rest => do
      let term ← termInside inner
      rest.finish
      return term
  | s => s.fail

/- Names with their values up to the end of the list. -/
def bindingsInside : Items → Reading (List (String × Term))
  | .close _ => .ok []
  | .list _ (.atom (.symbol name) _ value) rest => do
      let term ← lastTerm value
      return (name, term) :: (← bindingsInside rest)
  | .list _ inner _ => inner.fail
  | s => s.fail

/- Patterns with their terms up to the end of the list. -/
def casesInside : Items → Reading Unit
  | .close _ => .ok ()
  | .list _ (.atom (.symbol _) _ term) rest => do
      let _ ← lastTerm term
      casesInside rest
  | .list _ (.list _ names term) rest => do
      pattern names
      let _ ← lastTerm term
      casesInside rest
  | .list _ inner _ => inner.fail
  | s => s.fail

end

/- A term comes next. -/
def term : Items → Reading (Term × Items)
  | .atom t stop rest => do return (← atomTerm t stop, rest)
  | .list _ inner rest => do return (← termInside inner, rest)
  | s => s.fail

------------------------------------------------------------
-- Commands
------------------------------------------------------------

/- A command, as far as formulas depend on it. -/
inductive Command where
  | assert (term : Term)
  | other
  deriving Repr, Inhabited

/- A literal that is not a symbol is the negation of one. -/
def checkLiteral (word : String) (rest : Items) : Reading Unit :=
  match rest with
  | .cut last => fail (.cut last)
  | rest =>
      if word = "not" then
        .ok ()
      else
        .error ⟨rest.mistake.offset, .literal word⟩

/- Literals up to the end of the list. -/
def literals : Items → Reading Unit
  | .close _ => .ok ()
  | .atom (.symbol _) _ rest => literals rest
  | .list _ inner rest => do
      let (word, inner) ← inner.symbol
      let (_, inner) ← inner.symbol
      inner.finish
      checkLiteral word rest
      literals rest
  | s => s.fail

/- A constructor with its selectors, inside its list. -/
def constructor (s : Items) : Reading Unit := do
  let (_, rest) ← s.symbol
  let _ ← rest.lists sortedName

/- The constructors of a datatype, inside their list. -/
def constructors (s : Items) : Reading Unit := do
  s.more
  let _ ← s.lists constructor

/- A datatype, inside its list. -/
def datatype : Items → Reading Unit
  | .atom (.word .par) _ rest => do
      let (_, rest) ← rest.nested pattern
      let (_, rest) ← rest.nested constructors
      rest.finish
  | s => constructors s

/- A sort with the number of its parameters, inside its list. -/
def sortArity (s : Items) : Reading Unit := do
  let (_, rest) ← s.symbol
  (← rest.token (· == .numeral)).finish

/- Parameters, a result and what follows come next. -/
def signature (s : Items) : Reading Items := do
  let (_, rest) ← s.nested fun inner => inner.lists sortedName
  sort rest

/- Functions up to the end of the list, `left` of them at most. -/
def functions : (left : Nat) → Items → Reading Nat
  | _, .close _ => .ok 0
  | 0, s => s.fail
  | left + 1, s => do
      let (_, rest) ← s.symbol
      return (← functions left (← signature rest)) + 1

/- How many atoms and lists are left. -/
def Items.size : Items → Nat
  | .close _ | .cut _ => 0
  | .atom _ _ rest => rest.size + 1
  | .list _ inner rest => inner.size + rest.size + 1

/- At least one list of some kind, up to the end of the list. -/
def someLists (read : Items → Reading Unit) (s : Items) : Reading Nat := do
  s.more
  s.lists read

/- At least one term, up to the end of the list. -/
def someTerms (s : Items) : Reading Nat := do
  s.more
  return (← terms s).length

/- A declaration has as many parts as were announced. -/
def checkCount
    (parts command : String)
    (found expected : Nat)
    (rest : Items) :
    Reading Unit := do
  rest.finish
  if found = expected then
    .ok ()
  else
    .error ⟨rest.mistake.offset, .count parts command found expected⟩

/- The inside of a command that asserts nothing, behind its name. -/
def commandInside (name : String) (s : Items) : Reading Unit := do
  match name with
  | "check-sat-assuming" => do
      let (_, rest) ← s.nested literals
      rest.finish
  | "declare-const" => do
      let (_, rest) ← s.symbol
      (← sort rest).finish
  | "declare-datatype" => do
      let (_, rest) ← s.symbol
      let (_, rest) ← rest.nested datatype
      rest.finish
  | "declare-datatypes" => do
      let (expected, rest) ← s.nested (someLists sortArity)
      let (found, rest) ← rest.nested (someLists datatype)
      checkCount "types" name found expected rest
  | "declare-fun" => do
      let (_, rest) ← s.symbol
      let (_, rest) ← rest.nested sorts
      (← sort rest).finish
  | "declare-sort" => sortArity s
  | "define-fun" | "define-fun-rec" => do
      let (_, rest) ← s.symbol
      let _ ← lastTerm (← signature rest)
  | "define-funs-rec" => do
      let (expected, rest) ← s.nested fun inner => do
        inner.more
        functions inner.size inner
      let (found, rest) ← rest.nested someTerms
      checkCount "function bodies" name found expected rest
  | "define-sort" => do
      let (_, rest) ← s.symbol
      let (_, rest) ← rest.nested (·.tokens Token.isSymbol)
      (← sort rest).finish
  | "echo" =>
      (← s.token fun t => t matches .string _).finish
  | "get-info" | "get-option" =>
      (← s.token fun t => t matches .keyword _).finish
  | "get-value" => do
      let (_, rest) ← s.nested someTerms
      rest.finish
  | "pop" | "push" => (← s.token (· == .numeral)).finish
  | "set-info" | "set-option" =>
      let rest ← s.token fun t => t matches .keyword _
      (← attributeValue rest).finish
  | "set-logic" => (← s.token Token.isSymbol).finish
  | _ => s.finish

/- A command, inside its list. -/
def command : Items → Reading Command
  | .atom (.command name) _ rest =>
      if name = "assert" then
        .assert <$> lastTerm rest
      else do
        commandInside name rest
        return .other
  | s => s.fail

------------------------------------------------------------
-- Scripts
------------------------------------------------------------

/- A script: its commands up to the first mistake, if there is one. -/
structure Script where
  commands : List Command
  mistake : Option ReadError
  deriving Repr, Inhabited

namespace Script

/- The script that nested lists are. -/
def ofItems : Items → Script
  | .cut _ => ⟨[], none⟩
  | .list _ inner rest =>
      match command inner with
      | .ok c =>
          let script := ofItems rest
          ⟨c :: script.commands, script.mistake⟩
      | .error e => ⟨[], some e⟩
  | s => ⟨[], some s.mistake⟩

/- The script that a text is. -/
def read (text : String) : Script :=
  ofItems (Items.ofLexemes (tokenize text))

end Script

end Smt

end Variability
