import Mathlib
import Variability.Proofs.Condition.Alike
import Variability.Proofs.LineConditions.Sampling
import Variability.Proofs.Preprocessor.Builtins
import Variability.Proofs.Preprocessor.Reach

/-
  What the literals of line conditions stand for.

  The formula of a line is the expansion of the condition that
  the line is reached under, so each of its literals is the new
  name of a macro of that condition. A macro without a feature
  keeps its name, and if this happens to be the name of a known
  feature, the literal says more than the macro does.

  Main declarations:
    * `LineConditions.HasFormula`
    * `LineConditions.find?_extract`
    * `LineConditions.OnlyFeatures`
    * `LineConditions.literals_denote_iff`
    * `LineConditions.not_onlyFeatures_plainName`
-/

namespace Variability

------------------------------------------------------------
-- Files That Ask for One Macro
------------------------------------------------------------

namespace Preprocessor

variable {x : Context}
variable {name : String}

/- The arguments of a test for a macro. -/
def askedName (name : String) : List Token :=
  [⟨.identifier, name, 1, 1, false⟩]

/- The lines of a file that asks whether a macro is defined. -/
def askingLines (name : String) : List (List Token) :=
  [ directiveLine 1 "ifdef" (askedName name),
    [⟨.identifier, "x", 2, 2, true⟩],
    directiveLine 3 "endif" [] ]

/- The condition that a branch is reached under. -/
def askingCondition (name : String) : InSpace Condition := do
  Condition.and .one (← Condition.defined name)

/- It has the value of the macro's own atom. -/
theorem ensures_askingCondition (name : String) (s₀ : Space) :
    InSpace.Ensures s₀ (askingCondition name) fun s c =>
      s.Means (fun s' a => s'.atomValue a (.defined name))
        c := by
  apply (Condition.ensures_atom (.defined name)).bind
  intro s c hSound _ hMeans
  have hOne :=
    Space.means_self hSound.manager.reduced.isLive_one
  apply (Condition.ensures_and hOne hMeans).imp
  intro s' c' _ _ hBoth
  apply hBoth.congr
  intro s'' _ _ a
  rw [s''.manager.eval_one, Bool.true_and]

theorem mem_atoms_askingCondition
    (name : String)
    (s : Space) :
    .defined name ∈ (askingCondition name s).2.atoms :=
  Coupling.mem_atoms_atom s (.defined name)

/- A test for a macro that nothing was said about opens a group. -/
theorem followLine_asking
    (hBase : x.base = .one)
    (first : Bool)
    {st : State}
    (hNone : st.definitions.contains name = false) :
    let asked := Condition.defined name st.space
    let out := askingCondition name st.space
    followLine x first []
        (directiveLine 1 "ifdef" (askedName name)) st =
      ([⟨.one, asked.1, out.1⟩], { st with space := out.2 }) := by
  intro asked out
  rcases st with ⟨space, definitions, once, log⟩
  have hTest :
      testCondition x.settings "ifdef" (askedName name)
          ⟨space, definitions, once, log⟩ =
        (asked.1, ⟨asked.2, definitions, once, log⟩) := by
    unfold askedName
    rw [testCondition_definedness (by decide) rfl]
    simp only [build,
      Definitions.whetherDefined_of_not_contains hNone]
    rfl
  have hCondition :
      openingCondition x.settings first "ifdef"
          (askedName name) =
        testCondition x.settings "ifdef" (askedName name) := by
    cases first <;> rfl
  have hOpen :
      openGroup x.settings first .one "ifdef" (askedName name)
          ⟨space, definitions, once, log⟩ =
        (⟨.one, asked.1, out.1⟩,
          ⟨out.2, definitions, once, log⟩) := by
    unfold openGroup
    rw [if_neg (by decide), hCondition]
    simp only [bind, StateT.bind, hTest]
    rfl
  have hLine :
      Directive.ofLine
          (directiveLine 1 "ifdef" (askedName name)) =
        some (.opening "ifdef" (askedName name)) :=
    rfl
  unfold followLine
  rw [hLine]
  simp only [directive, current, hBase]
  simp only [bind, StateT.bind, hOpen]
  rfl

/- Its lines are reached where the macro is defined. -/
theorem readLines_asking
    (hBase : x.base = .one)
    (first : Bool)
    {st : State}
    (hNone : st.definitions.contains name = false) :
    let out := askingCondition name st.space
    readLines x first [] (askingLines name) st =
      ([(1, .one), (2, out.1), (3, out.1)],
        { st with space := out.2 }) := by
  intro out
  unfold askingLines
  rw [readLines_cons]
  simp only [bind, StateT.bind, followLine_asking hBase first hNone]
  simp only [current, hBase]
  rfl

/- A file with these lines and no others. -/
theorem run_asking
    {s : Settings}
    {path : Path}
    {text : String}
    (hText : s.tree.readLossy path = .ok text)
    (hLines :
      Token.logicalLines (Token.tokenize text) =
        askingLines name)
    {st : State}
    (hNone : st.definitions.contains name = false) :
    let out := askingCondition name st.space
    run s path st =
      (.ok [.one, out.1, out.1],
        { st with space := out.2 }) := by
  intro out
  have hReads :=
    readLines_asking
      (x := ⟨s, path, .one, follow s s.maxDepth path⟩) rfl true
      hNone
  unfold run
  rw [hText]
  dsimp only
  rw [process_eq, hLines]
  simp only [bind, StateT.bind, hReads]
  rfl

/- Nothing is read in an empty text. -/
theorem inject_empty
    (s : Settings)
    (path : Path) :
    inject s path "" = pure () := by
  have hNoLines :
      Token.logicalLines (Token.tokenize "") = [] := by
    cbv
  unfold inject
  rw [process_eq, hNoLines]
  rfl

end Preprocessor

namespace LineConditions

variable {x : LineContext}
variable {i : Inclusion}
variable {s : Space}
variable {line : Nat}
variable {st : Preprocessor.State}
variable {c : Condition}
variable {f g : Formula}
variable {conditions : LineConditions}

------------------------------------------------------------
-- Formulas of Lines
------------------------------------------------------------

/-
  A line is reached under a condition, and this has a formula in
  the state that the file leaves.
-/
structure HasFormula
    (x : LineContext)
    (i : Inclusion)
    (s : Space)
    (line : Nat)
    (st : Preprocessor.State)
    (c : Condition)
    (f : Formula) : Prop where
  reached :
    ∃ n cs, line = n + 1 ∧
      x.preprocess i (.start s) = (.ok cs, st) ∧
      cs[n]? = some c
  formula : st.space.toFormula x.rename c = some f

/- Lines are counted from the first one. -/
theorem find?_ofFormulas_of_lt
    (model : FeatureModel)
    (file : Path)
    {first line : Nat}
    (hBefore : line < first)
    (formulas : List (Option Formula)) :
    find? (ofFormulas model file first formulas).1 line =
      none := by
  induction formulas generalizing first with
  | nil => rfl
  | cons formula rest ih =>
      have hRest := ih (Nat.lt_succ_of_lt hBefore)
      cases formula with
      | none => exact hRest
      | some f =>
          have hOther : compare line first ≠ .eq := by
            rw [Ne, compare_eq_iff_eq]
            omega
          simpa [ofFormulas, find?, Dict.find?, hOther]
            using hRest

/- The condition of a line is its own formula over known features. -/
theorem find?_ofFormulas
    (model : FeatureModel)
    (file : Path)
    (first n : Nat)
    (formulas : List (Option Formula)) :
    find? (ofFormulas model file first formulas).1
        (first + n) =
      formulas[n]?.join.map fun f =>
        (model.sanitize (placeText file (first + n)) f).1 := by
  induction formulas generalizing first n with
  | nil => rfl
  | cons formula rest ih =>
      cases n with
      | zero =>
          cases formula with
          | none =>
              exact
                find?_ofFormulas_of_lt model file
                  (Nat.lt_succ_self first) rest
          | some f =>
              simp [ofFormulas, find?, Dict.find?]
      | succ n =>
          have hRest := ih (first + 1) n
          rw [Nat.succ_add_eq_add_succ] at hRest
          cases formula with
          | none => exact hRest
          | some f =>
              have hOther :
                  compare (first + (n + 1)) first ≠ .eq := by
                rw [Ne, compare_eq_iff_eq]
                omega
              simpa [ofFormulas, find?, Dict.find?, hOther]
                using hRest

/- The conditions of a file that is preprocessed without failure. -/
theorem exists_conditions
    {cs : List Condition}
    (hRun : x.preprocess i (.start s) = (.ok cs, st)) :
    ∃ conditions, (extract x i s).1.1 = .ok conditions ∧
      find? conditions 0 = none ∧
      ∀ n, find? conditions (n + 1) =
        (cs[n]?.bind (st.space.toFormula x.rename)).map fun f =>
          (x.model.sanitize (placeText i.file (n + 1)) f).1 := by
  refine
    ⟨(ofFormulas x.model i.file 1
        (withFormulas (st.space.toFormula x.rename) none cs)).1,
      ?_, find?_ofFormulas_of_lt x.model i.file Nat.one_pos _,
      fun n => ?_⟩
  · unfold extract
    rw [hRun]
  · rw [Nat.add_comm, find?_ofFormulas,
      withFormulas_eq _ none (by simp), List.getElem?_map]
    cases cs[n]? <;> rfl

/-
  The lines of a file that have a condition are those with a
  formula, and their conditions are what sanitizing leaves of it.
-/
theorem find?_extract
    (hAnswer : (extract x i s).1.1 = .ok conditions) :
    find? conditions line = some g ↔
      ∃ st c f, HasFormula x i s line st c f ∧
        (x.model.sanitize (placeText i.file line) f).1 = g := by
  cases hRun : x.preprocess i (.start s) with
  | mk result st =>
      cases result with
      | error e =>
          unfold extract at hAnswer
          rw [hRun] at hAnswer
          cases hAnswer
      | ok cs =>
          rcases exists_conditions hRun with
            ⟨found, hFound, hNone, hLines⟩
          rw [hAnswer] at hFound
          cases hFound
          constructor
          · intro hLine
            cases line with
            | zero =>
                rw [hNone] at hLine
                cases hLine
            | succ n =>
                rw [hLines, Option.map_eq_some_iff] at hLine
                rcases hLine with ⟨f, hFormula, hSanitized⟩
                rcases Option.bind_eq_some_iff.mp hFormula with
                  ⟨c, hReached, hFormula⟩
                exact
                  ⟨st, c, f,
                    ⟨⟨n, cs, rfl, hRun, hReached⟩, hFormula⟩,
                    hSanitized⟩
          · rintro ⟨st', c, f, ⟨⟨n, cs', rfl, hRun', hReached⟩,
              hFormula⟩, hSanitized⟩
            rw [hRun] at hRun'
            cases hRun'
            rw [hLines, hReached, Option.bind_some, hFormula,
              Option.map_some, hSanitized]

/- A file that has the formula of a line has line conditions. -/
theorem HasFormula.exists_answer
    (hFormula : HasFormula x i s line st c f) :
    ∃ conditions, (extract x i s).1.1 = .ok conditions := by
  rcases hFormula.reached with ⟨n, cs, -, hRun, -⟩
  rcases exists_conditions hRun with ⟨conditions, hAnswer, -⟩
  exact ⟨conditions, hAnswer⟩

/- A line has one formula. -/
theorem HasFormula.unique
    {st' : Preprocessor.State}
    {c' : Condition}
    {f' : Formula}
    (hFormula : HasFormula x i s line st c f)
    (hOther : HasFormula x i s line st' c' f') :
    st = st' ∧ c = c' ∧ f = f' := by
  rcases hFormula with ⟨⟨n, cs, rfl, hRun, hReached⟩, hFormula⟩
  rcases hOther with ⟨⟨n', cs', hLine, hRun', hReached'⟩,
    hFormula'⟩
  cases Nat.succ.inj hLine
  rw [hRun] at hRun'
  cases hRun'
  rw [hReached] at hReached'
  cases hReached'
  rw [hFormula] at hFormula'
  cases hFormula'
  exact ⟨rfl, rfl, rfl⟩

/- The formula of a line is right for a condition that lasts. -/
theorem HasFormula.expands
    (hFormula : HasFormula x i s line st c f)
    (hReached : s.Reached) :
    st.space.Expands x.rename c (some f) := by
  rcases hFormula.reached with ⟨n, cs, -, hRun, hCondition⟩
  have hCouples :=
    x.couples_preprocess Coupling.lawful_reached i
      (LineContext.start_alike ⟨rfl, hReached⟩)
  have hSpaces := hCouples.later.spaces
  have hResults := hCouples.post
  rw [hRun] at hSpaces hResults
  cases hResults with
  | ok hEach =>
      have hLive : st.space.manager.IsLive c :=
        List.forall₂_same.mp
          (hEach.imp fun _ _ hConditions => hConditions.2) c
          (List.mem_of_getElem? hCondition)
      rw [← hFormula.formula]
      exact hSpaces.2.expands_toFormula hLive x.rename

------------------------------------------------------------
-- One Macro in a File
------------------------------------------------------------

open Preprocessor in
/-
  What a file is preprocessed to that asks whether a macro is
  defined, behind no flags.
-/
theorem preprocess_asking
    {name text : String}
    (hDefines : i.defines = [])
    (hForced : i.forced = [])
    (hText : x.tree.readLossy (x.absolute i.file) = .ok text)
    (hLines :
      Token.logicalLines (Token.tokenize text) =
        askingLines name)
    (hOther : ∀ e ∈ builtinDefines, e.1 ≠ name)
    (s : Space) :
    let before := (injectBuiltins (x.settings i) (.start s)).2
    let out := askingCondition name before.space
    x.preprocess i (.start s) =
      (.ok [.one, out.1, out.1],
        { before with space := out.2 }) := by
  intro before out
  have hNone : before.definitions.contains name = false :=
    contains_injectBuiltins hOther _ s
  have hNoFlags : x.commandLine i = "" := by
    unfold LineContext.commandLine
    rw [hDefines, hForced]
    rfl
  unfold LineContext.preprocess
  rw [hNoFlags, inject_empty]
  exact run_asking (s := x.settings i) hText hLines hNone

/-
  The condition of its second line is about this macro only, and
  the formula about the macro's new name.
-/
theorem exists_formula_asking
    {name text : String}
    (hDefines : i.defines = [])
    (hForced : i.forced = [])
    (hText : x.tree.readLossy (x.absolute i.file) = .ok text)
    (hLines :
      Token.logicalLines (Token.tokenize text) =
        Preprocessor.askingLines name)
    (hOther : ∀ e ∈ Preprocessor.builtinDefines, e.1 ≠ name)
    (hReached : s.Reached) :
    ∃ st c f, HasFormula x i s 2 st c f ∧
      st.space.macros c = {name} ∧
      ∀ literal,
        literal ∈ f.literals ↔ literal = x.rename name := by
  have hRun :=
    preprocess_asking hDefines hForced hText hLines hOther s
  have hBuiltins :=
    Preprocessor.couples_inject Coupling.lawful_reached
      (LineContext.start_alike ⟨rfl, hReached⟩)
      (s := x.settings i) ⟨"<builtin>"⟩
      Preprocessor.builtinMacros
  have hSound := hBuiltins.later.spaces.2.sound
  change
    (Preprocessor.injectBuiltins (x.settings i)
      (.start s)).2.space.Sound at hSound
  generalize
    (Preprocessor.injectBuiltins (x.settings i)
      (.start s)).2 = before at hRun hSound
  rcases
    Preprocessor.ensures_askingCondition name before.space
      before.space hSound (.refl _) with
    ⟨hSoundOut, _, hMeans⟩
  have hAtom :=
    Preprocessor.mem_atoms_askingCondition name before.space
  rcases
    hMeans.exists_toFormula hSoundOut hAtom x.rename with
    ⟨f, hFormula, hLiterals⟩
  exact
    ⟨_, _, f, ⟨⟨1, _, rfl, hRun, rfl⟩, hFormula⟩,
      hMeans.macros_eq hSoundOut hAtom, hLiterals⟩

/- The file asks for a macro, and `FOO` is the only feature. -/
def askingContext (name : String) : LineContext where
  tree :=
    { entries :=
        [(["a.c"],
          .file ("#ifdef " ++ name ++
            "\nx\n#endif\n").toUTF8.toList)] }
  sourceDir := ⟨"/"⟩
  naming := .beginnings ["CONFIG_"]
  model := .ofList ["FOO"]
  maxIncludeDepth := 10

/- The file without flags. -/
def askingInclusion : Inclusion where
  file := ⟨"a.c"⟩

theorem readLossy_askingContext
    {name text : String}
    (hText :
      Utf8.decodeLossy
          ("#ifdef " ++ name ++ "\nx\n#endif\n").toUTF8.toList =
        text) :
    (askingContext name).tree.readLossy
        ((askingContext name).absolute askingInclusion.file) =
      .ok text := by
  have hRelative : (⟨"a.c"⟩ : Path).isAbsolute = false := by
    decide
  have hJoined : (⟨"/"⟩ : Path).join ⟨"a.c"⟩ = ⟨"/a.c"⟩ := by
    decide
  have hPath :
      (askingContext name).absolute askingInclusion.file =
        ⟨"/a.c"⟩ := by
    simp [LineContext.absolute, askingContext,
      askingInclusion, hRelative, hJoined]
  have hSteps : FileTree.stepsOf "/a.c" = ["a.c"] := by
    decide
  rw [hPath]
  simpa [FileTree.readLossy, FileTree.read, FileTree.status,
    FileTree.resolve, hSteps, FileTree.walk, FileTree.entry?,
    Dict.find?, askingContext] using hText

/-
  The file has a formula about a macro of any name that is read
  as one.
-/
theorem exists_formula_askingContext
    {name text : String}
    (hText :
      Utf8.decodeLossy
          ("#ifdef " ++ name ++ "\nx\n#endif\n").toUTF8.toList =
        text)
    (hLines :
      Token.logicalLines (Token.tokenize text) =
        Preprocessor.askingLines name)
    (hOther : ∀ e ∈ Preprocessor.builtinDefines, e.1 ≠ name) :
    ∃ st c f,
      HasFormula (askingContext name) askingInclusion .empty 2
          st c f ∧
        st.space.macros c = {name} ∧
        ∀ literal,
          literal ∈ f.literals ↔
            literal = (askingContext name).rename name :=
  exists_formula_asking rfl rfl (readLossy_askingContext hText)
    hLines hOther .empty

------------------------------------------------------------
-- Features among the Literals
------------------------------------------------------------

/-
  A known feature among some literals is only said of macros
  that stand for this feature.
-/
def OnlyFeatures
    (x : LineContext)
    (macros : Set String)
    (literals : List String) : Prop :=
  ∀ literal ∈ literals, x.model.contains literal = true →
    ∀ name ∈ macros, x.rename name = literal →
      x.isFree name = true ∧
        x.naming.feature? name = some literal

/- A macro without a feature keeps its name. -/
theorem rename_eq_self
    {name : String}
    (hNone : x.naming.feature? name = none) :
    x.rename name = name := by
  unfold LineContext.rename
  rw [hNone, Option.getD_none]

/- Only macros without a feature are taken for other features. -/
theorem onlyFeatures_iff
    {macros : Set String}
    {literals : List String} :
    OnlyFeatures x macros literals ↔
      ∀ name ∈ macros, name ∈ literals →
        x.model.contains name = true →
          x.naming.feature? name ≠ none := by
  constructor
  · intro hOnly name hMacro hLiteral hKnown hNone
    have hFeature :=
      hOnly name hLiteral hKnown name hMacro
        (rename_eq_self hNone)
    rw [hNone] at hFeature
    cases hFeature.2
  · rintro hNamed literal hLiteral hKnown name hMacro rfl
    cases hFeature : x.naming.feature? name with
    | none =>
        rw [rename_eq_self hFeature] at hLiteral hKnown
        exact absurd hFeature
          (hNamed name hMacro hLiteral hKnown)
    | some feature =>
        have hRename : x.rename name = feature := by
          unfold LineContext.rename
          rw [hFeature, Option.getD_some]
        rw [hRename] at hKnown ⊢
        refine ⟨?_, rfl⟩
        unfold LineContext.isFree
        rw [hFeature, Option.any_some, hKnown]

/-
  The condition of a line has no other literals than the formula
  that it was made from, and this none but the new names of the
  macros that the line depends on. A known feature among them is
  only said of its own macros exactly if no macro that the line
  depends on has the name of a known feature, but no feature.
-/
theorem literals_denote_iff
    (hReached : s.Reached)
    (hAnswer : (extract x i s).1.1 = .ok conditions)
    (hLine : find? conditions line = some g) :
    ∃ st c f, HasFormula x i s line st c f ∧
      (∀ literal ∈ g.literals,
        literal ∈ f.literals ∧
          x.model.contains literal = true) ∧
      (∀ literal ∈ f.literals,
        ∃ name ∈ st.space.macros c,
          x.rename name = literal) ∧
      (OnlyFeatures x (st.space.macros c)
          (f.literals ++ g.literals) ↔
        ∀ name ∈ st.space.macros c, name ∈ f.literals →
          x.model.contains name = true →
            x.naming.feature? name ≠ none) := by
  rcases (find?_extract hAnswer).mp hLine with
    ⟨st, c, f, hFormula, rfl⟩
  have hExpands := hFormula.expands hReached
  have hKept literal
      (hLiteral :
        literal ∈
          (x.model.sanitize (placeText i.file line)
            f).1.literals) :
      literal ∈ f.literals ∧
        x.model.contains literal = true :=
    FeatureModel.mem_literals_of_sanitize hLiteral
  refine
    ⟨st, c, f, hFormula, hKept, hExpands.literals f rfl, ?_⟩
  rw [onlyFeatures_iff]
  have hSame name :
      name ∈ f.literals ++
          (x.model.sanitize (placeText i.file line) f).1.literals ↔
        name ∈ f.literals := by
    rw [List.mem_append]
    exact
      ⟨fun hName => hName.elim id fun h => (hKept name h).1,
        Or.inl⟩
  simp only [hSame]

theorem literals_denote_iff_prefixedName :
    let x := askingContext "CONFIG_FOO"
    Space.empty.Reached ∧
      ∃ conditions g,
        (extract x askingInclusion .empty).1.1 =
            .ok conditions ∧
          find? conditions 2 = some g ∧
          ∃ st c f,
            HasFormula x askingInclusion .empty 2 st c f ∧
              "FOO" ∈ f.literals ∧
              OnlyFeatures x (st.space.macros c)
                (f.literals ++ g.literals) := by
  intro x
  have hText :
      Utf8.decodeLossy
          ("#ifdef " ++ "CONFIG_FOO" ++
            "\nx\n#endif\n").toUTF8.toList =
        "#ifdef CONFIG_FOO\nx\n#endif\n" := by
    cbv
  have hLines :
      Token.logicalLines
          (Token.tokenize "#ifdef CONFIG_FOO\nx\n#endif\n") =
        Preprocessor.askingLines "CONFIG_FOO" := by
    cbv
  have hOther :
      ∀ e ∈ Preprocessor.builtinDefines,
        e.1 ≠ "CONFIG_FOO" := by
    decide
  have hRename : x.rename "CONFIG_FOO" = "FOO" := by
    decide
  have hNamed : x.naming.feature? "CONFIG_FOO" ≠ none := by
    decide
  rcases exists_formula_askingContext hText hLines hOther with
    ⟨st, c, f, hFormula, hMacros, hLiterals⟩
  rcases hFormula.exists_answer with ⟨conditions, hAnswer⟩
  have hFound :=
    (find?_extract hAnswer).mpr ⟨st, c, f, hFormula, rfl⟩
  rcases literals_denote_iff .empty hAnswer hFound with
    ⟨st', c', f', hFormula', _, _, hIff⟩
  rcases hFormula.unique hFormula' with ⟨rfl, rfl, rfl⟩
  refine
    ⟨.empty, conditions, _, hAnswer, hFound, st, c, f, hFormula,
      (hLiterals "FOO").mpr hRename.symm, hIff.mpr ?_⟩
  intro name hMacro _ _
  rw [hMacros] at hMacro
  rw [Set.mem_singleton_iff.mp hMacro]
  exact hNamed

/-
  A macro `FOO` is no feature where features begin with
  `CONFIG_`. Its lines are nevertheless given the condition that
  the feature `FOO` is chosen.
-/
theorem not_onlyFeatures_plainName :
    let x := askingContext "FOO"
    ∃ conditions st c f g,
      (extract x askingInclusion .empty).1.1 = .ok conditions ∧
        find? conditions 2 = some g ∧
        HasFormula x askingInclusion .empty 2 st c f ∧
        x.model.contains "FOO" = true ∧
        "FOO" ∈ f.literals ∧ "FOO" ∈ g.literals ∧
        "FOO" ∈ st.space.macros c ∧
        x.rename "FOO" = "FOO" ∧
        x.isFree "FOO" = false ∧
        ¬ OnlyFeatures x (st.space.macros c)
          (f.literals ++ g.literals) := by
  intro x
  have hText :
      Utf8.decodeLossy
          ("#ifdef " ++ "FOO" ++ "\nx\n#endif\n").toUTF8.toList =
        "#ifdef FOO\nx\n#endif\n" := by
    cbv
  have hLines :
      Token.logicalLines
          (Token.tokenize "#ifdef FOO\nx\n#endif\n") =
        Preprocessor.askingLines "FOO" := by
    cbv
  have hOther :
      ∀ e ∈ Preprocessor.builtinDefines, e.1 ≠ "FOO" := by
    decide
  have hKnown : x.model.contains "FOO" = true := by decide
  have hRename : x.rename "FOO" = "FOO" := by decide
  have hFree : x.isFree "FOO" = false := by decide
  rcases exists_formula_askingContext hText hLines hOther with
    ⟨st, c, f, hFormula, hMacros, hLiterals⟩
  rcases hFormula.exists_answer with ⟨conditions, hAnswer⟩
  have hFound :=
    (find?_extract hAnswer).mpr ⟨st, c, f, hFormula, rfl⟩
  have hMacro : "FOO" ∈ st.space.macros c := by
    rw [hMacros]
    rfl
  have hBefore : "FOO" ∈ f.literals :=
    (hLiterals "FOO").mpr hRename.symm
  have hKept :
      (x.model.sanitize (placeText askingInclusion.file 2)
        f).1 = f := by
    apply FeatureModel.sanitize_eq_self
    intro literal hLiteral
    rw [(hLiterals literal).mp hLiteral, hRename]
    exact hKnown
  rw [hKept] at hFound
  refine
    ⟨conditions, st, c, f, f, hAnswer, hFound, hFormula, hKnown,
      hBefore, hBefore, hMacro, hRename, hFree, ?_⟩
  intro hOnly
  have hFeature :=
    hOnly "FOO" (List.mem_append_left _ hBefore) hKnown "FOO"
      hMacro hRename
  rw [hFree] at hFeature
  cases hFeature.1

end LineConditions

end Variability
