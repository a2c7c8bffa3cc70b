import Variability.Proofs.Expression.Evaluation
import Variability.Proofs.Macro.Definitions
import Variability.Proofs.Preprocessor.Coupling

/-
  Macros that stay open.

  No directive says anything about a macro that stays open, at
  whatever point of a run: not on the command line, not in an
  included file and not in the main file. So whether it is
  defined is asked of its own atom, in every kind of test.

  Main declarations:
    * `Evaluator.IsAtom`
    * `Preprocessor.State.LeavesOpen`
    * `Preprocessor.Visits`
    * `Preprocessor.Visits.leavesOpen`
    * `Preprocessor.State.IsOpen`
-/

namespace Variability

------------------------------------------------------------
-- Nothing Decided
------------------------------------------------------------

namespace Definitions

variable {table : Definitions}
variable {name : String}

theorem find?_of_not_contains
    (hNone : table.contains name = false) :
    Dict.find? name table = none := by
  simpa [contains] using hNone

/- A macro that nothing was said about is defined where its atom holds. -/
theorem whetherDefined_of_not_contains
    (hNone : table.contains name = false) :
    table.whetherDefined name = Condition.defined name := by
  unfold whetherDefined
  rw [find?_of_not_contains hNone]
  funext s
  rfl

/- A decision about one macro says nothing about another one. -/
theorem contains_record
    {other : String}
    (hOther : other ≠ name)
    (definition : Option Macro)
    (c : Condition)
    (s : Space) :
    (table.record other definition c s).1.contains name =
      table.contains name := by
  change
    (Dict.find? name (Dict.insert other _ table)).isSome =
      (Dict.find? name table).isSome
  rw [Dict.find?_insert, if_neg hOther.symm]

end Definitions

------------------------------------------------------------
-- Occurrences
------------------------------------------------------------

namespace Evaluator

/-
  A macro is its own atom wherever it occurs in an expression:
  by itself, in the bodies of other macros, or behind `defined`.
-/
structure IsAtom (e : Evaluator) (name : String) : Prop where
  /- A parenthesis behind it opens no argument list. -/
  takesArguments_eq (expanding : List String) :
    e.takesArguments expanding name = false
  evaluates
    (depth : Nat)
    (expanding : List String)
    (tokens : List Token) :
    ∃ m : Meanings,
      e.valueWithin (depth + 1) expanding tokens =
        (Expression.read (e.takesArguments expanding)
          tokens).evaluate m ∧
      m.reference name =
        .condition <$> Condition.defined name ∧
      m.whetherDefined name = Condition.defined name

theorem isAtom_of_isFree
    {e : Evaluator}
    {name : String}
    (hFree : e.isFree name = true)
    (hNone : e.definitions.contains name = false) :
    e.IsAtom name := by
  have hAtomic expanding : e.isAtomic expanding name = true := by
    unfold isAtomic
    rw [hFree]
    rfl
  refine ⟨fun expanding => ?_, fun depth expanding tokens => ?_⟩
  · unfold takesArguments
    rw [hAtomic]
    rfl
  · exact
      ⟨e.meanings depth expanding,
        e.valueWithin_succ depth expanding tokens,
        if_pos (hAtomic expanding),
        Definitions.whetherDefined_of_not_contains hNone⟩

end Evaluator

namespace Preprocessor

variable {α β : Type}
variable {s : Settings}
variable {st : State}
variable {x : Context}

------------------------------------------------------------
-- One Step
------------------------------------------------------------

/- Nothing was said about a macro that stays open. -/
def State.LeavesOpen (st : State) (s : Settings) : Prop :=
  ∀ name, s.isFree name = true →
    st.definitions.contains name = false

/- A computation that says nothing about macros that stay open. -/
def KeepsOpen (s : Settings) (f : Run α) : Prop :=
  ∀ st : State, st.LeavesOpen s → (f st).2.LeavesOpen s

namespace KeepsOpen

theorem pure (y : α) : KeepsOpen s (Pure.pure y) :=
  fun _ hOpen => hOpen

theorem bind
    {f : Run α}
    {g : α → Run β}
    (hFirst : KeepsOpen s f)
    (hRest : ∀ y, KeepsOpen s (g y)) :
    KeepsOpen s (f >>= g) :=
  fun st hOpen => hRest _ _ (hFirst st hOpen)

theorem ite
    {c : Prop}
    [Decidable c]
    {f g : Run α}
    (hThen : KeepsOpen s f)
    (hElse : KeepsOpen s g) :
    KeepsOpen s (if c then f else g) := by
  split
  · exact hThen
  · exact hElse

/- Building conditions says nothing about macros. -/
theorem build (f : Definitions → InSpace α) :
    KeepsOpen s (Preprocessor.build f) :=
  fun _ hOpen => hOpen

theorem warn (text : String) :
    KeepsOpen s (Preprocessor.warn text) :=
  fun _ hOpen => hOpen

theorem markOnce (path : Path) :
    KeepsOpen s (Preprocessor.markOnce path) :=
  fun _ hOpen => hOpen

/- A decision is about a macro that does not stay open. -/
theorem decide
    {name : String}
    (hDecided : s.isFree name = false)
    (definition : Option Macro)
    (c : Condition) :
    KeepsOpen s (Preprocessor.decide name definition c) := by
  intro st hOpen other hFree
  have hOther : name ≠ other := by
    rintro rfl
    rw [hDecided] at hFree
    cases hFree
  exact
    (Definitions.contains_record hOther definition c
      st.space).trans (hOpen other hFree)

theorem define
    (arguments : List Token)
    (c : Condition) :
    KeepsOpen s (Preprocessor.define s arguments c) := by
  unfold Preprocessor.define
  cases Macro.parse arguments with
  | none => exact .pure ()
  | some parsed =>
      rcases parsed with ⟨name, m⟩
      dsimp only
      cases hFree : s.isFree name with
      | true => exact .pure ()
      | false => exact decide hFree (some m) c

theorem undefine
    (arguments : List Token)
    (c : Condition) :
    KeepsOpen s (Preprocessor.undefine s arguments c) := by
  unfold Preprocessor.undefine
  cases arguments with
  | nil => exact .pure ()
  | cons t rest =>
      dsimp only
      cases hFree : s.isFree t.text with
      | true => exact .pure ()
      | false => exact decide hFree none c

/- Tests only build conditions. -/
theorem testCondition
    (word : String)
    (arguments : List Token) :
    KeepsOpen s
      (Preprocessor.testCondition s word arguments) := by
  unfold Preprocessor.testCondition
  cases Test.ofWord word arguments <;> exact build _

theorem openGroup
    (first : Bool)
    (outer : Condition)
    (word : String)
    (arguments : List Token) :
    KeepsOpen s
      (Preprocessor.openGroup s first outer word
        arguments) := by
  have hOpening :
      KeepsOpen s
        (openingCondition s first word arguments) := by
    unfold openingCondition
    split
    · exact
        (build _).bind fun _ =>
          (pure _).ite (testCondition word _)
    · exact testCondition word arguments
  exact
    (pure _).ite
      (hOpening.bind fun _ => (build _).bind fun _ => pure _)

theorem nextBranch
    (frame : Frame)
    (word : String)
    (arguments : List Token) :
    KeepsOpen s
      (Preprocessor.nextBranch s frame word arguments) :=
  (build _).bind fun _ =>
    (pure _).ite
      ((testCondition word arguments).bind fun _ =>
        (build _).bind fun _ => (build _).bind fun _ => pure _)

theorem lastBranch (frame : Frame) :
    KeepsOpen s (Preprocessor.lastBranch frame) :=
  (build _).bind fun _ => pure _

/- A directive decides about no macro that stays open. -/
theorem directive
    (hFollow :
      ∀ arguments c,
        KeepsOpen x.settings (x.follow arguments c))
    (first : Bool)
    (stack : List Frame)
    (d : Directive) :
    KeepsOpen x.settings
      (Preprocessor.directive x first stack d) := by
  have hEffect c d : KeepsOpen x.settings (effect x c d) := by
    cases d with
    | define arguments => exact define arguments c
    | undefine arguments => exact undefine arguments c
    | inclusion arguments => exact hFollow arguments c
    | once => exact markOnce x.path
    | _ => exact pure ()
  have hPlain d :
      KeepsOpen x.settings (do
        if current x.base stack ≠ .zero then
          effect x (current x.base stack) d
        return stack) :=
    ((hEffect _ d).bind fun _ => pure _).ite (pure _)
  have hAlone text :
      KeepsOpen x.settings (do
        Preprocessor.warn text
        return ([] : List Frame)) :=
    (warn text).bind fun _ => pure _
  cases d with
  | opening word arguments =>
      exact (openGroup first _ word arguments).bind fun _ =>
        pure _
  | alternative word arguments =>
      cases stack with
      | nil => exact hAlone _
      | cons frame outer =>
          exact (nextBranch frame word arguments).bind fun _ =>
            pure _
  | otherwise =>
      cases stack with
      | nil => exact hAlone _
      | cons frame outer =>
          exact (lastBranch frame).bind fun _ => pure _
  | closing =>
      cases stack with
      | nil => exact hAlone _
      | cons frame outer => exact pure _
  | _ => exact hPlain _

theorem followLine
    (hFollow :
      ∀ arguments c,
        KeepsOpen x.settings (x.follow arguments c))
    (first : Bool)
    (stack : List Frame)
    (line : List Token) :
    KeepsOpen x.settings
      (Preprocessor.followLine x first stack line) := by
  unfold Preprocessor.followLine
  cases Directive.ofLine line with
  | none => exact pure stack
  | some d => exact directive hFollow first stack d

------------------------------------------------------------
-- Whole Files
------------------------------------------------------------

/- Lines decide about no macro that stays open. -/
theorem readLines
    (hFollow :
      ∀ arguments c,
        KeepsOpen x.settings (x.follow arguments c))
    (first : Bool)
    (stack : List Frame)
    (lines : List (List Token)) :
    KeepsOpen x.settings
      (Preprocessor.readLines x first stack lines) := by
  induction lines generalizing first stack with
  | nil =>
      unfold Preprocessor.readLines
      exact ((warn _).bind fun _ => pure _).ite (pure _)
  | cons line rest ih =>
      rw [readLines_cons]
      exact
        (followLine hFollow first stack line).bind fun _ =>
          (ih false _).bind fun _ => pure _

/- An included file is read if it is there and not done. -/
theorem readIncluded
    {process : Path → String → Condition → Run Unit}
    (hProcess :
      ∀ file text c, KeepsOpen s (process file text c))
    (path : Path)
    (i : IncludeName)
    (c : Condition) :
    KeepsOpen s
      (Preprocessor.readIncluded s process path i c) := by
  unfold Preprocessor.readIncluded
  cases find? s path i with
  | none => exact pure ()
  | some file =>
      have hDone : KeepsOpen s (isDone file) :=
        fun _ hOpen => hOpen
      apply hDone.bind
      intro done
      apply (pure ()).ite
      cases s.tree.readLossy file with
      | ok text => exact hProcess file text c
      | error e => exact warn _

theorem follow
    {depth : Nat}
    (hBelow :
      ∀ below, depth = below + 1 → ∀ file text c,
        KeepsOpen s (process s below file text c))
    (path : Path)
    (arguments : List Token)
    (c : Condition) :
    KeepsOpen s
      (Preprocessor.follow s depth path arguments c) := by
  unfold Preprocessor.follow
  cases IncludeName.ofTokens? arguments with
  | none => exact pure ()
  | some i =>
      cases depth with
      | zero => exact warn _
      | succ depth =>
          exact
            readIncluded
              (fun file text c =>
                (hBelow depth rfl file text c).bind fun _ =>
                  pure ())
              path i c

/-
  A file decides about no macro that stays open, by induction
  on how many files may be inside each other below it.
-/
theorem process
    (depth : Nat)
    (path : Path)
    (text : String)
    (base : Condition) :
    KeepsOpen s
      (Preprocessor.process s depth path text base) := by
  induction depth generalizing path text base with
  | zero =>
      rw [process_eq]
      exact
        readLines
          (x := ⟨s, path, base, Preprocessor.follow s 0 path⟩)
          (follow (by simp) path) true [] _
  | succ depth ih =>
      have hBelow below (hEq : depth + 1 = below + 1) :
          ∀ file text c,
            KeepsOpen s
              (Preprocessor.process s below file text c) :=
        Nat.succ.inj hEq ▸ ih
      rw [process_eq]
      exact
        readLines
          (x :=
            ⟨s, path, base,
              Preprocessor.follow s (depth + 1) path⟩)
          (follow hBelow path) true [] _

end KeepsOpen

------------------------------------------------------------
-- Points of a Run
------------------------------------------------------------

/-
  The states that reading some lines passes through: before
  each line, behind the last one, and likewise inside each file
  that is read for an inclusion on the way.
-/
inductive Visits (s : Settings) :
    (depth : Nat) →
    (path : Path) →
    (base : Condition) →
    (first : Bool) →
    (stack : List Frame) →
    (lines : List (List Token)) →
    (start visited : State) →
    Prop where
  | here {depth path base first stack lines st} :
      Visits s depth path base first stack lines st st
  | next {depth path base first stack line rest st visited}
      (hRest :
        let after :=
          followLine ⟨s, path, base, follow s depth path⟩
            first stack line st
        Visits s depth path base false after.1 rest after.2
          visited) :
      Visits s depth path base first stack (line :: rest) st
        visited
  | inside
      {depth path base first stack line rest st visited}
      {arguments : List Token}
      {i : IncludeName}
      {file : Path}
      {text : String}
      (hLine :
        Directive.ofLine line = some (.inclusion arguments))
      (hActive : current base stack ≠ .zero)
      (hName : IncludeName.ofTokens? arguments = some i)
      (hFile : find? s path i = some file)
      (hFresh : (isDone file st).1 = false)
      (hText : s.tree.readLossy file = .ok text)
      (hInside :
        Visits s depth file (current base stack) true []
          (Token.logicalLines (Token.tokenize text)) st
          visited) :
      Visits s (depth + 1) path base first stack (line :: rest)
        st visited

/- At no point of a run something was said about an open macro. -/
theorem Visits.leavesOpen
    {depth : Nat}
    {path : Path}
    {base : Condition}
    {first : Bool}
    {stack : List Frame}
    {lines : List (List Token)}
    {visited : State}
    (hVisits :
      Visits s depth path base first stack lines st visited)
    (hOpen : st.LeavesOpen s) :
    visited.LeavesOpen s := by
  induction hVisits with
  | here => exact hOpen
  | @next depth path base first stack line _ _ _ _ ih =>
      have hFollow arguments c :
          KeepsOpen s (follow s depth path arguments c) :=
        .follow (fun below _ => .process below) path
          arguments c
      exact
        ih
          (KeepsOpen.followLine
            (x := ⟨s, path, base, follow s depth path⟩)
            hFollow first stack line _ hOpen)
  | inside _ _ _ _ _ _ _ ih => exact ih hOpen

------------------------------------------------------------
-- Tests
------------------------------------------------------------

/- What is built depends on the definitions in force only. -/
theorem build_congr
    {f g : Definitions → InSpace α}
    (hSame : f st.definitions = g st.definitions) :
    build f st = build g st := by
  cases st
  dsimp only at hSame
  simp only [build, hSame]

/- What `#ifdef`, `#ifndef` and the like ask about a macro. -/
theorem testCondition_definedness
    {word : String}
    (hWord : ¬ (word = "if" ∨ word = "elif"))
    {t : Token}
    (hKind : t.kind = .identifier)
    (rest : List Token) :
    testCondition s word (t :: rest) =
      build fun definitions => do
        let c ← definitions.whetherDefined t.text
        return if word ≠ "ifndef" ∧ word ≠ "elifndef" then c
          else -c := by
  have hTest :
      Test.ofWord word (t :: rest) =
        .definedness t.text
          (Decidable.decide
            (word ≠ "ifndef" ∧ word ≠ "elifndef")) := by
    simp [Test.ofWord, hWord, Option.filter, hKind]
  unfold testCondition
  rw [hTest]
  simp only [decide_eq_true_eq]

/- A macro that every kind of test asks for by its own atom. -/
structure State.IsOpen
    (st : State)
    (s : Settings)
    (name : String) : Prop where
  noEntry : st.definitions.contains name = false
  /- In the expression of an `#if` or `#elif` it is an atom. -/
  isAtom : Evaluator.IsAtom ⟨st.definitions, s.isFree⟩ name
  /- The other tests ask for the atom or for its opposite. -/
  test_eq
    {word : String}
    (hWord : ¬ (word = "if" ∨ word = "elif"))
    {t : Token}
    (hKind : t.kind = .identifier)
    (hText : t.text = name)
    (rest : List Token) :
    testCondition s word (t :: rest) st =
      build
        (fun _ => do
          let c ← Condition.defined name
          return if word ≠ "ifndef" ∧ word ≠ "elifndef" then c
            else -c)
        st
  /- It guards no file, so that a file may start with its test. -/
  noGuard : isGuard s st.definitions name = false

theorem State.LeavesOpen.isOpen
    (hOpen : st.LeavesOpen s)
    {name : String}
    (hFree : s.isFree name = true) :
    st.IsOpen s name where
  noEntry := hOpen name hFree
  isAtom := Evaluator.isAtom_of_isFree hFree (hOpen name hFree)
  test_eq := by
    rintro word hWord t hKind rfl rest
    have hDefined :=
      Definitions.whetherDefined_of_not_contains
        (hOpen t.text hFree)
    rw [testCondition_definedness hWord hKind]
    apply build_congr
    rw [hDefined]
  noGuard := by
    unfold isGuard
    rw [hFree]
    rfl

end Preprocessor

end Variability
