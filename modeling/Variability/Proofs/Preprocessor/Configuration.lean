import Variability.Preprocessor
import Variability.Proofs.Macro.Definitions

/-
  Reading a file in a single configuration.

  A configuration fixes the truth of every atom. It keeps a
  stack of truth values and one status for every macro, and
  knows at each line whether it reaches it. What an expression
  evaluates to is not its business: it is told the truth of the
  condition that was built for the expression.

  Main declarations:
    * `Configuration`
    * `Configuration.step`
    * `Configuration.read`
    * `Configuration.reaches?`
-/

namespace Variability

/- What is fixed in a single configuration. -/
structure Configuration where
  /- The values of the atoms. -/
  atom : Atom → Bool
  /- Macros that stay open, whatever directives say. -/
  isFree : String → Bool
  /- Macros that were decided about before the file. -/
  isKnown : String → Bool

namespace Configuration

------------------------------------------------------------
-- Branches
------------------------------------------------------------

/- An open group of branches. -/
structure Branch where
  /- Whether the group is reached. -/
  outer : Bool
  /- Whether one of the tests so far held. -/
  taken : Bool
  /- Whether the branch that is read is reached. -/
  active : Bool
  deriving DecidableEq, Repr

/- What is kept from line to line. -/
structure State where
  stack : List Branch
  status : String → Status

/- Whether the branch that is read is reached. -/
def State.isReached (base : Bool) (s : State) : Bool :=
  match s.stack with
  | [] => base
  | branch :: _ => branch.active

------------------------------------------------------------
-- Tests
------------------------------------------------------------

/- Whether a macro is defined. -/
def isDefined
    (x : Configuration)
    (status : String → Status)
    (name : String) :
    Bool :=
  match status name with
  | .defined => true
  | .undefined => false
  | .undecided => x.atom (.defined name)

/-
  Whether a test holds, given the truth of its expression. A
  test for definedness that names no macro is an atom, and then
  it does not matter whether it is negated.
-/
def test
    (x : Configuration)
    (status : String → Status)
    (truth : Bool)
    (word : String)
    (arguments : List Token) :
    Bool :=
  if word = "if" ∨ word = "elif" then
    truth
  else
    let unnamed :=
      x.atom (.verbatim
        ("#" ++ word ++ " " ++ Token.spell arguments))
    match arguments with
    | [] => unnamed
    | t :: _ =>
        if t.kind = .identifier then
          if word = "ifndef" ∨ word = "elifndef" then
            !x.isDefined status t.text
          else
            x.isDefined status t.text
        else
          unnamed

/-
  Whether the test of an opening holds. On the first line,
  `#ifndef` holds if nothing is known about its operand.
-/
def openingTest
    (x : Configuration)
    (first : Bool)
    (status : String → Status)
    (truth : Bool)
    (word : String)
    (arguments : List Token) :
    Bool :=
  match first && word == "ifndef", arguments with
  | true, guard :: _ =>
      if x.isFree guard.text || x.isKnown guard.text then
        x.test status truth word arguments
      else
        true
  | _, _ => x.test status truth word arguments

------------------------------------------------------------
-- Lines
------------------------------------------------------------

/- Decide about a macro unless it stays open. -/
def decide
    (x : Configuration)
    (status : String → Status)
    (name : String)
    (decision : Status) :
    String → Status :=
  if x.isFree name then status
  else Function.update status name decision

/- Follow a directive that is reached. -/
def effect
    (x : Configuration)
    (status : String → Status) :
    Directive → String → Status
  | .define arguments =>
      match Macro.parse arguments with
      | some (name, _) => x.decide status name .defined
      | none => status
  | .undefine (t :: _) => x.decide status t.text .undefined
  | _ => status

/- Follow a directive, given the truth of its expression. -/
def step
    (x : Configuration)
    (base first : Bool)
    (s : State)
    (truth : Bool) :
    Directive → State
  | .opening word arguments =>
      let outer := s.isReached base
      let holds :=
        x.openingTest first s.status truth word arguments
      { s with stack := ⟨outer, holds, outer && holds⟩ :: s.stack }
  | .alternative word arguments =>
      match s.stack with
      | [] => s
      | branch :: rest =>
          let holds := x.test s.status truth word arguments
          { s with
            stack :=
              ⟨branch.outer, branch.taken || holds,
                branch.outer && !branch.taken && holds⟩ ::
                rest }
  | .otherwise =>
      match s.stack with
      | [] => s
      | branch :: rest =>
          { s with
            stack :=
              ⟨branch.outer, true,
                branch.outer && !branch.taken⟩ ::
                rest }
  | .closing => { s with stack := s.stack.tail }
  | d =>
      if s.isReached base then
        { s with status := x.effect s.status d }
      else
        s

/-
  Read logical lines, each with the truth of its expression, and
  give for each its last physical line and whether it is reached.
-/
def read
    (x : Configuration)
    (base first : Bool)
    (s : State) :
    List (List Token) → List Bool → List (Nat × Bool)
  | [], _ => []
  | line :: rest, truths =>
      let next :=
        match Directive.ofLine line with
        | some d =>
            x.step base first s (truths.headD false) d
        | none => s
      ((line.getLast?.map (·.endLine)).getD 0,
          s.isReached base) ::
        read x base false next rest truths.tail

/-
  Whether a physical line is reached, counting from 0, if any
  logical line ends behind it.
-/
def reaches? (lines : List (Nat × Bool)) (l : Nat) : Option Bool :=
  (lines.find? fun line => l < line.1).map (·.2)

end Configuration

end Variability
