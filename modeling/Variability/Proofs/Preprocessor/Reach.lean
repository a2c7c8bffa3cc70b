import Mathlib
import Variability.Proofs.Preprocessor.Tracking

/-
  Conditions of lines in an environment.

  If the uses that are kept as they are written have one truth
  each on the way through a file, there is one answer to all of
  them, and with it the condition of a line holds exactly if the
  environment reaches the line. A use is known by its text only,
  so the premise is needed: a macro in it may be defined anew
  between two of its occurrences, and then a line that is
  reached may be given the condition that never holds.

  Main declarations:
    * `Preprocessor.ToldThroughout`
    * `Preprocessor.process_environment`
    * `Preprocessor.process_eq_zero`
    * `Preprocessor.process_reaches_environment`
    * `Preprocessor.process_misses_redefinedText`
-/

namespace Variability

namespace Preprocessor

variable {s : Settings}
variable {st : State}
variable {a : Nat → Bool}
variable {x : Context}
variable {first : Bool}
variable {stack : List Frame}
variable {env : Environment}
variable {answer : String → Bool}
variable {m : Environment.State}
variable {lines : List (List Token)}

------------------------------------------------------------
-- Files
------------------------------------------------------------

/- The uses in all tests that an environment makes in a file. -/
def askedIn
    (s : Settings)
    (path : Path)
    (text : String)
    (space : Space)
    (env : Environment) :
    List (String × Bool) :=
  asked (.closed s path .one) true []
    (Token.logicalLines (Token.tokenize text)) (.start space)
    ⟨[], env.value⟩

/- Consistent uses can all be told their truth at once. -/
theorem told_of_consistent
    {uses : List (String × Bool)}
    (hConsistent : Consistent uses) :
    Told (env.atom fun text => (text, true) ∈ uses) uses := by
  rintro ⟨text, holds⟩ hUse
  change Decidable.decide ((text, true) ∈ uses) = holds
  cases holds with
  | true => exact decide_eq_true hUse
  | false =>
      apply decide_eq_false
      intro hTrue
      exact hConsistent text hTrue hUse

/-
  Whether an environment's uses in some lines are told their
  truth whatever else is known of macros.
-/
def ToldThroughout
    (value : Atom → Bool) :
    Environment.State → List (List Token) → Prop
  | _, [] => True
  | m, line :: rest =>
      (∀ d, Directive.ofLine line = some d →
        ∀ definitions, Told value (askedAt definitions m d)) ∧
      ToldThroughout value (Environment.followLine m line) rest

theorem ToldThroughout.told
    {value : Atom → Bool}
    (hTold : ToldThroughout value m lines) :
    Told value (asked x first stack lines st m) := by
  induction lines generalizing first stack st m with
  | nil =>
      intro use hUse
      cases hUse
  | cons line rest ih =>
      rcases hTold with ⟨hHere, hRest⟩
      intro use hUse
      rcases List.mem_append.mp hUse with hUse | hUse
      · rcases List.mem_flatMap.mp hUse with ⟨d, hd, hAsked⟩
        exact
          hHere d (Option.mem_toList.mp hd) st.definitions use
            hAsked
      · exact ih hRest use hUse

/- Before the first line both runs are at their beginnings. -/
theorem tracks_start
    {space : Space}
    (hSound : space.Sound)
    (s : Settings)
    (path : Path)
    (env : Environment)
    (answer : String → Bool) :
    Tracks (.closed s path .one) env answer [] (.start space)
      ⟨[], env.value⟩ := by
  have hNone : Definitions.IsLive space [] := by
    intro name d hd
    cases hd
  exact
    ⟨⟨hSound, hNone⟩, .nil, hNone, Definitions.isPlain_nil,
      fun s' _ _ a _ => Definitions.gives_nil s' a env.value⟩

/- Ordinary lines include nothing. -/
theorem AllOrdinary.ne_inclusion
    {isFree : String → Bool}
    (hOrdinary : AllOrdinary isFree lines) :
    ∀ line ∈ lines, ∀ arguments,
      Directive.ofLine line ≠ some (.inclusion arguments) := by
  intro line hLine arguments hInclusion
  cases hOrdinary line hLine _ hInclusion

/-
  The condition of a physical line says whether an environment
  reaches the line, under every assignment that agrees with the
  environment and tells its uses their truth.
-/
theorem process_environment
    (depth : Nat)
    (path : Path)
    {text : String}
    {space : Space}
    (hReached : space.Reached)
    (env : Environment)
    (answer : String → Bool)
    (hOrdinary :
      AllOrdinary s.isFree
        (Token.logicalLines (Token.tokenize text)))
    (hNoGuard :
      HasNoGuard (Token.logicalLines (Token.tokenize text)))
    (hTold :
      Told (env.atom answer) (askedIn s path text space env))
    (ha :
      Coupling.Assigns
        (process s depth path text .one (.start space)).2.space
        (env.atom answer) a)
    (l : Nat) :
    let out := process s depth path text .one (.start space)
    ((perLine 0 out.1)[l]?).map
        (out.2.space.manager.eval · a) =
      Configuration.reaches?
        (Environment.read ⟨[], env.value⟩
          (Token.logicalLines (Token.tokenize text)))
        l := by
  intro out
  have hOut :
      out =
        readLines (.closed s path .one) true []
          (Token.logicalLines (Token.tokenize text))
          (.start space) :=
    congrFun
      (process_eq_readLines depth path hOrdinary.ne_inclusion)
      _
  have hTracks :=
    tracks_start hReached.sound s path env answer
  have hReads := hTracks.reads rfl hOrdinary true
  have hLines :
      out.1.map
          (fun line =>
            (line.1, out.2.space.manager.eval line.2 a)) =
        Environment.read ⟨[], env.value⟩
          (Token.logicalLines (Token.tokenize text)) := by
    rw [hOut]
    apply
      readLines_environment hTracks rfl hOrdinary
        (fun _ => hNoGuard) hTold hReads.sound.space (.refl _)
    rwa [← hOut]
  rw [getElem?_perLine, ← hLines]
  unfold Configuration.reaches?
  rw [List.find?_map, Option.map_map, Option.map_map,
    Nat.zero_add]
  rfl

/-
  A physical line whose condition holds under no assignment has
  the condition that never holds.
-/
theorem process_eq_zero
    (depth : Nat)
    (path : Path)
    {text : String}
    {space : Space}
    (hReached : space.Reached)
    (hInclusion :
      ∀ line ∈ Token.logicalLines (Token.tokenize text),
        ∀ arguments,
          Directive.ofLine line ≠
            some (.inclusion arguments))
    {l : Nat}
    {out : List (Nat × Condition) × State}
    (hOut :
      out = process s depth path text .one (.start space))
    (hFalse :
      ∀ a, ((perLine 0 out.1)[l]?).map
          (out.2.space.manager.eval · a) =
        some false) :
    (perLine 0 out.1)[l]? = some .zero := by
  have hNone : Definitions.IsLive space [] := by
    intro name d hd
    cases hd
  have hSound : (State.start space).Sound :=
    ⟨hReached.sound, hNone⟩
  have hOne : space.manager.IsLive .one :=
    hSound.space.manager.reduced.isLive_one
  rw [process_eq_readLines depth path hInclusion] at hOut
  have hReads :
      Reads (.closed s path .one) [] true []
        (Token.logicalLines (Token.tokenize text))
        (.start space) out := by
    rw [hOut]
    exact
      readLines_projects _ hSound (fun _ => rfl) hOne
        (List.forall_mem_nil _) hInclusion
  have hLive :
      ∀ line ∈ out.1, out.2.space.manager.IsLive line.2 := by
    rw [hOut]
    exact
      readLines_isLive true _ hSound hOne
        (List.forall_mem_nil _) hInclusion
  rw [getElem?_perLine] at hFalse ⊢
  cases hFind :
      out.1.find? fun line =>
        Decidable.decide (0 + l < line.1) with
  | none =>
      rw [hFind] at hFalse
      cases hFalse fun _ => false
  | some line =>
      rw [hFind] at hFalse
      have hZero : line.2 = .zero := by
        rw [hReads.sound.space.manager.eq_zero_iff
          (hLive line (List.mem_of_find?_eq_some hFind))]
        intro a
        exact Option.some_inj.mp (hFalse a)
      rw [Option.map_some, hZero]

/-
  If the uses that an environment asks for are consistent, one
  answer to them makes the condition of every line say whether
  the environment reaches the line; so no line that it reaches
  has the condition that never holds.
-/
theorem process_reaches_environment
    (depth : Nat)
    (path : Path)
    {text : String}
    {space : Space}
    (hReached : space.Reached)
    (env : Environment)
    (hOrdinary :
      AllOrdinary s.isFree
        (Token.logicalLines (Token.tokenize text)))
    (hNoGuard :
      HasNoGuard (Token.logicalLines (Token.tokenize text)))
    (hConsistent :
      Consistent (askedIn s path text space env)) :
    ∃ answer : String → Bool, ∀ l,
      let lines := Token.logicalLines (Token.tokenize text)
      let out := process s depth path text .one (.start space)
      let a :=
        Coupling.assignment out.2.space (env.atom answer)
      let reached :=
        Configuration.reaches?
          (Environment.read ⟨[], env.value⟩ lines) l
      ((perLine 0 out.1)[l]?).map
            (out.2.space.manager.eval · a) =
          reached ∧
        (reached = some true →
          (perLine 0 out.1)[l]? ≠ some .zero) := by
  refine
    ⟨fun text' => (text', true) ∈ askedIn s path text space env,
      fun l => ?_⟩
  intro lines out a reached
  have hEval :
      ((perLine 0 out.1)[l]?).map
          (out.2.space.manager.eval · a) =
        reached :=
    process_environment depth path hReached env _ hOrdinary
      hNoGuard (told_of_consistent hConsistent)
      (Coupling.assigns_assignment out.2.space _) l
  refine ⟨hEval, ?_⟩
  intro hHere hZero
  rw [hZero, hHere] at hEval
  simp at hEval

/- A group whose test compares integers. -/
def integerText : String :=
  "#define N 2\n#if N + X == 3\nx\n#else\ny\n#endif\n"

/- The tokens of its test. -/
def integerTest : List Token :=
  [⟨.identifier, "N", 2, 2, false⟩,
    ⟨.punctuation, "+", 2, 2, false⟩,
    ⟨.identifier, "X", 2, 2, false⟩,
    ⟨.punctuation, "==", 2, 2, false⟩,
    ⟨.number, "3", 2, 2, false⟩]

/- The tokens of all its lines. -/
def integerLines : List (List Token) :=
  [ [⟨.punctuation, "#", 1, 1, true⟩,
      ⟨.identifier, "define", 1, 1, false⟩,
      ⟨.identifier, "N", 1, 1, false⟩,
      ⟨.number, "2", 1, 1, false⟩],
    ⟨.punctuation, "#", 2, 2, true⟩ ::
      ⟨.identifier, "if", 2, 2, false⟩ :: integerTest,
    [⟨.identifier, "x", 3, 3, true⟩],
    [⟨.punctuation, "#", 4, 4, true⟩,
      ⟨.identifier, "else", 4, 4, false⟩],
    [⟨.identifier, "y", 5, 5, true⟩],
    [⟨.punctuation, "#", 6, 6, true⟩,
      ⟨.identifier, "endif", 6, 6, false⟩] ]

theorem logicalLines_integerText :
    Token.logicalLines (Token.tokenize integerText) =
      integerLines := by
  cbv

theorem tree_integerTest :
    Test.tree integerTest =
      .operation .equal
        (.operation .plus (.reference "N") (.reference "X")
          "N + X")
        (.number 3) "N + X == 3" := by
  have hNumber : Expression.numberValue? "3" = some 3 := rfl
  simp [Test.tree, integerTest, Expression.read,
    Expression.readWhole, Expression.levels,
    Expression.readOperation, Expression.readFurther,
    Expression.readSigned, Expression.readPrimary,
    Expression.readReference, Expression.signOf,
    Expression.Reading.weaken, Expression.Level.join?,
    Expression.builtins, Expression.textBefore, List.lookup_cons,
    Token.is, Token.spell, hNumber]

/- An environment in which a single macro is defined. -/
def single (v : Int64) (hNe : v ≠ 0) : Environment where
  value name := if name = "X" then some v else none
  ne_zero name := by simp [hNe]

/- Settings with which nothing stays open and nothing is found. -/
def closedSettings : Settings :=
  ⟨default, [], [], 0, fun _ => false⟩

/- There is a single use, so it has a single truth. -/
theorem consistent_integerText :
    Consistent
      (askedIn closedSettings ⟨"a"⟩ integerText .empty
        (single 1 (by decide))) := by
  intro text hTrue hFalse
  unfold askedIn at hTrue hFalse
  rw [logicalLines_integerText] at hTrue hFalse
  simp [asked, askedAt, integerLines, Directive.ofLine,
    Directive.ofWord, Token.is, Test.ofWord, Test.uses,
    tree_integerTest, Expression.uses,
    Expression.use] at hTrue hFalse
  exact hTrue.2.2.2 hFalse.2.2.2

theorem process_reaches_environment_integerText :
    let lines :=
      Token.logicalLines (Token.tokenize integerText)
    Space.empty.Reached ∧
      AllOrdinary closedSettings.isFree lines ∧
      HasNoGuard lines ∧
      Consistent
        (askedIn closedSettings ⟨"a"⟩ integerText .empty
          (single 1 (by decide))) ∧
      ∃ answer : String → Bool, ∀ l,
        let out :=
          process closedSettings 0 ⟨"a"⟩ integerText .one
            (.start .empty)
        let a :=
          Coupling.assignment out.2.space
            ((single 1 (by decide)).atom answer)
        let reached :=
          Configuration.reaches?
            (Environment.read
              ⟨[], (single 1 (by decide)).value⟩ lines)
            l
        ((perLine 0 out.1)[l]?).map
              (out.2.space.manager.eval · a) =
            reached ∧
          (reached = some true →
            (perLine 0 out.1)[l]? ≠ some .zero) := by
  intro lines
  have hLines : lines = integerLines :=
    logicalLines_integerText
  have hNumber : Expression.numberValue? "2" = some 2 := by
    decide +kernel
  have hOrdinary : AllOrdinary closedSettings.isFree lines := by
    intro line hLine d hd
    rw [hLines] at hLine
    simp only [integerLines, List.mem_cons, List.not_mem_nil,
      or_false] at hLine
    rcases hLine with rfl | rfl | rfl | rfl | rfl | rfl <;>
      simp [Directive.ofLine, Directive.ofWord, Token.is] at hd <;>
      subst hd <;>
      simp [Directive.isOrdinary, Test.ofWord, Test.isOrdinary,
        tree_integerTest, Expression.isOrdinary, closedSettings,
        Operator.isTotal, hNumber]
  have hNoGuard : HasNoGuard lines := by
    intro line hLine arguments
    rw [hLines] at hLine
    cases hLine
    simp [Directive.ofLine, Directive.ofWord, Token.is]
  exact
    ⟨.empty, hOrdinary, hNoGuard, consistent_integerText,
      process_reaches_environment 0 ⟨"a"⟩ .empty
        (single 1 (by decide)) hOrdinary hNoGuard consistent_integerText⟩

------------------------------------------------------------
-- A Use with Two Truths
------------------------------------------------------------

/- A macro is defined anew between two tests of one spelling. -/
def redefinedText : String :=
  "#define N 1\n#ifdef X\n#if X > N\n#undef N\n" ++
    "#define N 5\n#if X > N\nx\n#else\ny\n" ++
    "#endif\n#endif\n#endif\n"

/- The tokens of a test on a line. -/
def redefinedTest (l : Nat) : List Token :=
  [⟨.identifier, "X", l, l, false⟩,
    ⟨.punctuation, ">", l, l, false⟩,
    ⟨.identifier, "N", l, l, false⟩]

/- The tokens of a directive on a line. -/
def directiveLine
    (l : Nat)
    (word : String)
    (arguments : List Token) :
    List Token :=
  ⟨.punctuation, "#", l, l, true⟩ ::
    ⟨.identifier, word, l, l, false⟩ :: arguments

/- The tokens of all lines. -/
def redefinedLines : List (List Token) :=
  [ directiveLine 1 "define"
      [⟨.identifier, "N", 1, 1, false⟩,
        ⟨.number, "1", 1, 1, false⟩],
    directiveLine 2 "ifdef" [⟨.identifier, "X", 2, 2, false⟩],
    directiveLine 3 "if" (redefinedTest 3),
    directiveLine 4 "undef" [⟨.identifier, "N", 4, 4, false⟩],
    directiveLine 5 "define"
      [⟨.identifier, "N", 5, 5, false⟩,
        ⟨.number, "5", 5, 5, false⟩],
    directiveLine 6 "if" (redefinedTest 6),
    [⟨.identifier, "x", 7, 7, true⟩],
    directiveLine 8 "else" [],
    [⟨.identifier, "y", 9, 9, true⟩],
    directiveLine 10 "endif" [],
    directiveLine 11 "endif" [],
    directiveLine 12 "endif" [] ]

theorem logicalLines_redefinedText :
    Token.logicalLines (Token.tokenize redefinedText) =
      redefinedLines := by
  cbv

theorem tree_redefinedTest (l : Nat) :
    Test.tree
        [⟨.identifier, "X", l, l, false⟩,
          ⟨.punctuation, ">", l, l, false⟩,
          ⟨.identifier, "N", l, l, false⟩] =
      .operation .greater (.reference "X") (.reference "N")
        "X > N" := by
  simp [Test.tree, Expression.read, Expression.readWhole,
    Expression.levels, Expression.readOperation,
    Expression.readFurther, Expression.readSigned,
    Expression.readPrimary, Expression.readReference,
    Expression.signOf, Expression.Reading.weaken,
    Expression.Level.join?, Expression.builtins,
    Expression.textBefore, List.lookup_cons, Token.is,
    Token.spell]

theorem numberValue?_one :
    Expression.numberValue? "1" = some 1 :=
  rfl

theorem numberValue?_five :
    Expression.numberValue? "5" = some 5 :=
  rfl

/- The second branch is reached where the tests disagree. -/
theorem read_redefinedLines (env : Environment) :
    Configuration.reaches?
        (Environment.read ⟨[], env.value⟩ redefinedLines) 8 =
      some
        ((env.value "X").any fun v =>
          Decidable.decide (1 < v) &&
            !Decidable.decide (5 < v)) := by
  cases hX : env.value "X" with
  | none =>
      simp [Environment.read, Environment.followLine,
        Environment.step, Environment.effect,
        Environment.State.isReached, redefinedLines,
        redefinedTest, directiveLine, Directive.ofLine,
        Directive.ofWord, Token.is, Option.filter_some,
        Test.ofWord, Test.holds, numberValue?_one, hX,
        Configuration.reaches?]
  | some v =>
      by_cases hFirst : 1 < v <;> by_cases hSecond : 5 < v <;>
        simp [Environment.read, Environment.followLine,
          Environment.step, Environment.effect,
          Environment.State.isReached, redefinedLines,
          redefinedTest, directiveLine, Directive.ofLine,
          Directive.ofWord, Token.is, Option.filter_some,
          Test.ofWord, Test.holds, tree_redefinedTest,
          Expression.valueIn, Operator.apply,
          Operator.compute?, numberValue?_one,
          numberValue?_five, hX, hFirst, hSecond,
          Configuration.reaches?]

/- Where they agree, one answer tells both their truth. -/
theorem told_redefinedText
    (env : Environment)
    (hAnswer :
      ∀ v, env.value "X" = some v →
        (1 < v ↔ answer "X > N" = true) ∧
          (5 < v ↔ answer "X > N" = true)) :
    Told (env.atom answer)
      (askedIn closedSettings ⟨"a"⟩ redefinedText .empty
        env) := by
  unfold askedIn
  rw [logicalLines_redefinedText]
  apply ToldThroughout.told
  have hNone : Told (env.atom answer) [] := by
    intro use hUse
    cases hUse
  have hUse :
      env.atom answer (.verbatim "X > N") = answer "X > N" :=
    rfl
  cases hX : env.value "X" with
  | none =>
      simp [ToldThroughout, hNone, askedAt,
        Environment.followLine, Environment.step,
        Environment.effect, Environment.State.isReached,
        redefinedLines, redefinedTest, directiveLine,
        Directive.ofLine, Directive.ofWord, Token.is,
        Option.filter_some, Test.ofWord, Test.holds,
        Test.uses, numberValue?_one, hX]
  | some v =>
      rcases hAnswer v hX with ⟨hFirst, hSecond⟩
      cases hAnswered : answer "X > N" <;>
        simp only [hAnswered, Bool.false_eq_true, iff_false,
          iff_true] at hFirst hSecond <;>
        simp [ToldThroughout, hNone, askedAt,
          Environment.followLine, Environment.step,
          Environment.effect, Environment.State.isReached,
          redefinedLines, redefinedTest, directiveLine,
          Directive.ofLine, Directive.ofWord, Token.is,
          Option.filter_some, Test.ofWord, Test.holds,
          Test.uses, tree_redefinedTest,
          Expression.told_operation, hUse, hAnswered,
          Expression.valueIn, Operator.apply,
          Operator.compute?, numberValue?_one,
          numberValue?_five, hX, hFirst, hSecond]

/-
  An environment with the truth that an assignment gives to
  definedness, in which the tests agree on the answer that it
  gives to their use.
-/
def agreeing (space : Space) (a : Nat → Bool) : Environment where
  value name :=
    if space.atomValue a (.defined name) then
      some (if space.atomValue a (.verbatim "X > N") then 6 else 1)
    else
      none
  ne_zero name := by
    by_cases hDefined :
        space.atomValue a (.defined name) = true <;>
      by_cases hUse :
          space.atomValue a (.verbatim "X > N") = true <;>
      simp [hDefined, hUse]

theorem assigns_agreeing (space : Space) (a : Nat → Bool) :
    Coupling.Assigns space
      ((agreeing space a).atom fun text =>
        space.atomValue a (.verbatim text))
      a := by
  intro atom _
  cases atom with
  | verbatim text => rfl
  | defined name =>
      by_cases hDefined :
          space.atomValue a (.defined name) = true <;>
        simp [agreeing, Environment.atom, hDefined]

theorem agreeing_agrees
    {space : Space}
    {v : Int64}
    (hX : (agreeing space a).value "X" = some v) :
    (1 < v ↔ space.atomValue a (.verbatim "X > N") = true) ∧
      (5 < v ↔
        space.atomValue a (.verbatim "X > N") = true) := by
  unfold agreeing at hX
  by_cases hDefined :
      space.atomValue a (.defined "X") = true <;>
    by_cases hUse :
        space.atomValue a (.verbatim "X > N") = true <;>
    simp [hDefined, hUse] at hX
  · simp [← hX, hUse]
  · simp [← hX, hUse]

/-
  The uses of a text may have two truths in an environment, and
  then a line that is reached there may be given the condition
  that never holds.
-/
theorem process_misses_redefinedText :
    let lines :=
      Token.logicalLines (Token.tokenize redefinedText)
    let out :=
      process closedSettings 0 ⟨"a"⟩ redefinedText .one
        (.start .empty)
    let env := single 2 (by decide)
    AllOrdinary closedSettings.isFree lines ∧
      HasNoGuard lines ∧
      Configuration.reaches?
          (Environment.read ⟨[], env.value⟩ lines) 8 =
        some true ∧
      (perLine 0 out.1)[8]? = some .zero := by
  intro lines out env
  have hLines : lines = redefinedLines :=
    logicalLines_redefinedText
  have hOrdinary : AllOrdinary closedSettings.isFree lines := by
    intro line hLine d hd
    rw [hLines] at hLine
    simp only [redefinedLines, directiveLine, redefinedTest,
      List.mem_cons, List.not_mem_nil, or_false] at hLine
    rcases hLine with
      rfl | rfl | rfl | rfl | rfl | rfl | rfl | rfl | rfl |
        rfl | rfl | rfl <;>
      simp [Directive.ofLine, Directive.ofWord,
        Token.is] at hd <;>
      subst hd <;>
      simp [Directive.isOrdinary, Test.ofWord,
        Option.filter_some, Test.isOrdinary,
        tree_redefinedTest, Expression.isOrdinary,
        closedSettings, Operator.isTotal, numberValue?_one,
        numberValue?_five]
  have hNoGuard : HasNoGuard lines := by
    intro line hLine arguments
    rw [hLines] at hLine
    cases hLine
    simp [directiveLine, Directive.ofLine, Directive.ofWord,
      Token.is]
  refine ⟨hOrdinary, hNoGuard, ?_, ?_⟩
  · rw [hLines, read_redefinedLines]
    decide
  · apply process_eq_zero 0 ⟨"a"⟩ .empty hOrdinary.ne_inclusion
      (s := closedSettings) rfl
    intro a
    -- No environment in which the tests agree reaches the line.
    have hTold :
        Told
          ((agreeing out.2.space a).atom fun text =>
            out.2.space.atomValue a (.verbatim text))
          (askedIn closedSettings ⟨"a"⟩ redefinedText .empty
            (agreeing out.2.space a)) :=
      told_redefinedText _ fun v hX => agreeing_agrees hX
    have hMissed :
        Configuration.reaches?
            (Environment.read
              ⟨[], (agreeing out.2.space a).value⟩ lines)
            8 =
          some false := by
      rw [hLines, read_redefinedLines, Option.some_inj,
        Option.any_eq_false]
      intro v hX
      rcases agreeing_agrees hX with ⟨hFirst, hSecond⟩
      simp [hFirst, hSecond]
    exact
      (process_environment 0 ⟨"a"⟩ .empty
        (agreeing out.2.space a) _ hOrdinary hNoGuard hTold
        (assigns_agreeing out.2.space a) 8).trans
        hMissed

end Preprocessor

end Variability
