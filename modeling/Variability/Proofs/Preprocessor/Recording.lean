import Variability.Proofs.Preprocessor.Coupling
import Variability.Proofs.Preprocessor.Directives
import Variability.Proofs.Preprocessor.Inclusions

/-
  What happens to files that are read once.

  A run over conditions keeps a single list of the files that are
  not read again. Its record says under which conditions files
  are put on the list, and are left out as they are on it. It is
  fair to a configuration if the files that are left out there
  were marked there.

  Main declarations:
    * `Preprocessor.KeepsOnce`
    * `Preprocessor.record`
    * `Preprocessor.events`
    * `Preprocessor.IsFair`
-/

namespace Variability

namespace Preprocessor

open Variability.Configuration (Notes)

------------------------------------------------------------
-- Files Not Read Again
------------------------------------------------------------

/- A computation that marks no file. -/
def KeepsOnce {α : Type} (f : Run α) : Prop :=
  ∀ st : State, (f st).2.once = st.once

namespace KeepsOnce

variable {α β : Type}
variable {s : Settings}

theorem pure (y : α) : KeepsOnce (Pure.pure y) :=
  fun _ => rfl

theorem bind
    {f : Run α}
    {g : α → Run β}
    (hFirst : KeepsOnce f)
    (hRest : ∀ y, KeepsOnce (g y)) :
    KeepsOnce (f >>= g) :=
  fun st => (hRest _ _).trans (hFirst st)

theorem ite
    {c : Prop}
    [Decidable c]
    {f g : Run α}
    (hThen : KeepsOnce f)
    (hElse : KeepsOnce g) :
    KeepsOnce (if c then f else g) := by
  split
  · exact hThen
  · exact hElse

theorem build (f : Definitions → InSpace α) :
    KeepsOnce (Preprocessor.build f) :=
  fun _ => rfl

theorem warn (text : String) :
    KeepsOnce (Preprocessor.warn text) :=
  fun _ => rfl

theorem decide
    (name : String)
    (definition : Option Macro)
    (c : Condition) :
    KeepsOnce (Preprocessor.decide name definition c) :=
  fun _ => rfl

theorem testCondition
    (word : String)
    (arguments : List Token) :
    KeepsOnce (Preprocessor.testCondition s word arguments) := by
  unfold Preprocessor.testCondition
  cases Test.ofWord word arguments <;> exact build _

theorem openGroup
    (first : Bool)
    (outer : Condition)
    (word : String)
    (arguments : List Token) :
    KeepsOnce
      (Preprocessor.openGroup s first outer word arguments) := by
  have hOpening :
      KeepsOnce (openingCondition s first word arguments) := by
    unfold openingCondition
    split
    · exact
        (build _).bind fun _ =>
          (pure _).ite (testCondition word _)
    · exact testCondition word arguments
  exact
    (pure _).ite
      (hOpening.bind fun _ => (build _).bind fun _ => pure _)

theorem nextBranch
    (frame : Frame)
    (word : String)
    (arguments : List Token) :
    KeepsOnce
      (Preprocessor.nextBranch s frame word arguments) :=
  (build _).bind fun _ =>
    (pure _).ite
      ((testCondition word arguments).bind fun _ =>
        (build _).bind fun _ => (build _).bind fun _ => pure _)

theorem lastBranch (frame : Frame) :
    KeepsOnce (Preprocessor.lastBranch frame) :=
  (build _).bind fun _ => pure _

/- Defining and undefining macros. -/
theorem effect
    {x : Context}
    {d : Directive}
    (hInclusion : ∀ arguments, d ≠ .inclusion arguments)
    (hOnce : d ≠ .once)
    (c : Condition) :
    KeepsOnce (Preprocessor.effect x c d) := by
  cases d with
  | define arguments =>
      change KeepsOnce (define x.settings arguments c)
      unfold Preprocessor.define
      split
      · exact (pure _).ite (decide _ _ _)
      · exact pure _
  | undefine arguments =>
      change KeepsOnce (undefine x.settings arguments c)
      unfold Preprocessor.undefine
      split
      · exact (pure _).ite (decide _ _ _)
      · exact pure _
  | inclusion arguments => exact absurd rfl (hInclusion _)
  | once => exact absurd rfl hOnce
  | _ => exact pure ()

/- Any directive but `#include` and `#pragma once`. -/
theorem directive
    {x : Context}
    {d : Directive}
    (hInclusion : ∀ arguments, d ≠ .inclusion arguments)
    (hOnce : d ≠ .once)
    (first : Bool)
    (stack : List Frame) :
    KeepsOnce (Preprocessor.directive x first stack d) := by
  have hPlain :
      KeepsOnce (do
        if current x.base stack ≠ .zero then
          Preprocessor.effect x (current x.base stack) d
        return stack) :=
    ((effect hInclusion hOnce _).bind fun _ => pure _).ite
      (pure _)
  cases d with
  | opening word arguments =>
      exact (openGroup first _ word arguments).bind fun _ =>
        pure _
  | alternative word arguments =>
      cases stack with
      | nil => exact (warn _).bind fun _ => pure _
      | cons frame outer =>
          exact (nextBranch frame word arguments).bind fun _ =>
            pure _
  | otherwise =>
      cases stack with
      | nil => exact (warn _).bind fun _ => pure _
      | cons frame outer =>
          exact (lastBranch frame).bind fun _ => pure _
  | closing =>
      cases stack with
      | nil => exact (warn _).bind fun _ => pure _
      | cons frame outer => exact pure _
  | _ => exact hPlain

end KeepsOnce

------------------------------------------------------------
-- Records
------------------------------------------------------------

/- What happens to a file that is read once. -/
inductive Event where
  /- Its `#pragma once` is read. -/
  | marked (file : Path)
  /- It is included, but not read again. -/
  | skipped (file : Path)

/- What a run over conditions does on a line. -/
structure Note where
  /- What the evaluator gives, if it is asked. -/
  asked : Option Condition := none
  event : Option (Event × Condition) := none

/- What is recorded of a file that an inclusion asks for. -/
abbrev Recording :=
  List Token → Condition → State →
    Option (Event × Condition) × Notes Note

/- What happens on a directive and in the file that it includes. -/
def happening
    (x : Context)
    (inside : Recording)
    (stack : List Frame)
    (st : State)
    (d : Directive) :
    Option (Event × Condition) × Notes Note :=
  let c := current x.base stack
  match d with
  | .inclusion arguments =>
      if c = .zero then (none, .done) else inside arguments c st
  | .once =>
      ( if c = .zero then none
        else some (.marked x.path.normalize, c),
        .done )
  | _ => (none, .done)

/- What reading lines records. -/
def recordLines
    (x : Context)
    (inside : Recording)
    (first : Bool)
    (stack : List Frame) :
    List (List Token) → State → Notes Note
  | [], _ => .done
  | line :: rest, st =>
      let out := followLine x first stack line st
      let behind := recordLines x inside false out.1 rest out.2
      match Directive.ofLine line with
      | none => .line {} .done behind
      | some d =>
          let here := happening x inside stack st d
          .line
            ⟨consultedAt x.settings x.base stack d st, here.1⟩
            here.2 behind

/- The record of a file that is read by `record`. -/
def recordIncluded
    (s : Settings)
    (path : Path)
    (record :
      Path → String → Condition → State → Notes Note) :
    Recording :=
  fun arguments c st =>
    match IncludeName.ofTokens? arguments with
    | none => (none, .done)
    | some i =>
        match find? s path i with
        | none => (none, .done)
        | some file =>
            if st.once.any file.same then
              (some (.skipped file, c), .done)
            else
              match s.tree.readLossy file with
              | .ok text => (none, record file text c st)
              | .error _ => (none, .done)

/- What preprocessing a file records. -/
def record
    (s : Settings)
    (depth : Nat)
    (path : Path)
    (text : String)
    (base : Condition)
    (st : State) :
    Notes Note :=
  let inside : Recording :=
    match depth with
    | 0 => fun _ _ _ => (none, .done)
    | depth + 1 =>
        recordIncluded s path fun file text c st =>
          record s depth file text c st
  recordLines ⟨s, path, base, follow s depth path⟩ inside true []
    (Token.logicalLines (Token.tokenize text)) st

/- What is recorded of inclusions with `depth` files below them. -/
def recordBelow
    (s : Settings)
    (depth : Nat)
    (path : Path) :
    Recording :=
  match depth with
  | 0 => fun _ _ _ => (none, .done)
  | depth + 1 =>
      recordIncluded s path fun file text c st =>
        record s depth file text c st

theorem record_eq
    (s : Settings)
    (depth : Nat)
    (path : Path)
    (text : String)
    (base : Condition)
    (st : State) :
    record s depth path text base st =
      recordLines ⟨s, path, base, follow s depth path⟩
        (recordBelow s depth path) true []
        (Token.logicalLines (Token.tokenize text)) st := by
  cases depth <;> rfl

/- The events of a run, in their order. -/
def events : Notes Note → List (Event × Condition)
  | .done => []
  | .line note inside rest =>
      note.event.toList ++ events inside ++ events rest

/- All events on a line. -/
def eventsOf
    (here : Option (Event × Condition) × Notes Note) :
    List (Event × Condition) :=
  here.1.toList ++ events here.2

theorem events_recordLines_text
    {x : Context}
    {line : List Token}
    (hDirective : Directive.ofLine line = none)
    (inside : Recording)
    (first : Bool)
    (stack : List Frame)
    (rest : List (List Token))
    (st : State) :
    events (recordLines x inside first stack (line :: rest) st) =
      events (recordLines x inside false stack rest st) := by
  rw [recordLines, followLine, hDirective]
  rfl

theorem events_recordLines_directive
    {x : Context}
    {line : List Token}
    {d : Directive}
    (hDirective : Directive.ofLine line = some d)
    (inside : Recording)
    (first : Bool)
    (stack : List Frame)
    (rest : List (List Token))
    (st : State) :
    events (recordLines x inside first stack (line :: rest) st) =
      eventsOf (happening x inside stack st d) ++
        events
          (recordLines x inside false
            (directive x first stack d st).1 rest
            (directive x first stack d st).2) := by
  rw [recordLines, followLine, hDirective]
  rfl

variable {s' : Space}
variable {a : Nat → Bool}
variable {once : List Path}

/- The truth of what the evaluator gives on a line. -/
def tell
    (s' : Space)
    (a : Nat → Bool)
    (note : Note) :
    Bool :=
  truth s' a note.asked

/- The files that are marked under an assignment. -/
def marked
    (s' : Space)
    (a : Nat → Bool)
    (once : List Path)
    (es : List (Event × Condition)) :
    List Path :=
  es.foldl
    (fun once e =>
      match e with
      | (.marked file, c) =>
          if s'.manager.eval c a then file :: once else once
      | (.skipped _, _) => once)
    once

/-
  Under an assignment no file is left out that was not marked
  before, under the same assignment.
-/
def IsFair
    (s' : Space)
    (a : Nat → Bool)
    (once : List Path)
    (es : List (Event × Condition)) :
    Prop :=
  ∀ before file c behind,
    es = before ++ (.skipped file, c) :: behind →
    s'.manager.eval c a = true →
    (marked s' a once before).any file.same = true

theorem marked_append
    (es es' : List (Event × Condition)) :
    marked s' a once (es ++ es') =
      marked s' a (marked s' a once es) es' :=
  List.foldl_append

theorem IsFair.of_append_left
    {es es' : List (Event × Condition)}
    (hFair : IsFair s' a once (es ++ es')) :
    IsFair s' a once es := by
  intro before file c behind hEq
  apply hFair before file c (behind ++ es')
  rw [hEq, List.append_assoc, List.cons_append]

theorem IsFair.of_append_right
    {es es' : List (Event × Condition)}
    (hFair : IsFair s' a once (es ++ es')) :
    IsFair s' a (marked s' a once es) es' := by
  intro before file c behind hEq
  rw [← marked_append]
  apply hFair _ file c behind
  rw [hEq, List.append_assoc]

end Preprocessor

end Variability
