import Variability.Proofs.Dict.Ordered
import Variability.Proofs.LineConditions.Independence
import Variability.Proofs.Preprocessor.CommandLine
import Variability.Proofs.Preprocessor.OpenMacros
import Variability.Proofs.Text.Utf8

/-
  Conditions do not depend on the features that were chosen.

  The flags of a file define macros for the chosen features.
  These definitions have no effect, so two inclusions that
  differ in nothing else have the same conditions for the same
  lines; and in every state on the way the macro of a feature
  has no definition and is asked for by its own atom.

  Main declarations:
    * `Inclusion.HasPlainFlags`
    * `LineContext.Agree`
    * `LineContext.Visits`
    * `LineContext.extract_unsampled`
-/

namespace Variability

------------------------------------------------------------
-- Flags
------------------------------------------------------------

/-
  The definitions among the flags of a file are a map from
  identifiers to values that stay on their lines.
-/
structure Inclusion.HasPlainFlags (i : Inclusion) : Prop where
  ordered : i.defines.IsOrdered
  names : ∀ e ∈ i.defines, Lexer.isIdentifier e.1 = true
  values : ∀ e ∈ i.defines, Inclusion.IsPlainValue e.2

namespace LineContext

open Preprocessor

variable {x : LineContext}
variable {i j : Inclusion}

/-
  Two inclusions that differ at most in what they define macros
  of known features to be.
-/
structure Agree (x : LineContext) (i j : Inclusion) : Prop where
  file_eq : i.file = j.file
  forced_eq : i.forced = j.forced
  includePaths_eq : i.includePaths = j.includePaths
  systemIncludePaths_eq :
    i.systemIncludePaths = j.systemIncludePaths
  defines_eq :
    ∀ name, x.isFree name = false →
      Dict.find? name i.defines = Dict.find? name j.defines

theorem Agree.settings_eq (hAgree : x.Agree i j) :
    x.settings i = x.settings j := by
  unfold settings
  rw [hAgree.includePaths_eq, hAgree.systemIncludePaths_eq]

/- The place that the flags of a file are read at. -/
def commandLinePath (x : LineContext) (i : Inclusion) : Path :=
  (x.absolute i.file).withFileName "<command-line>"

/- How the flags of a file are read. -/
def commandLineContext
    (x : LineContext)
    (i : Inclusion) :
    Context :=
  let s := x.settings i
  let path := x.commandLinePath i
  ⟨s, path, .one, follow s s.maxDepth path⟩

/- The lines of those flags that have an effect. -/
def effectiveLines
    (x : LineContext)
    (i : Inclusion) :
    List (List Token) :=
  (i.defines.filter (!x.isFree ·.1)).map
      (fun e => Inclusion.definingLine e.1 e.2) ++
    Inclusion.bareLines
      (String.join
        ((i.forced.map x.absolute).map
          Inclusion.includeLine)).toList

/- Read those flags of a file that have an effect. -/
def readEffective
    (x : LineContext)
    (i : Inclusion) :
    Run Unit := do
  let _ ← readLines (x.commandLineContext i) true []
    (x.effectiveLines i)
  return ()

/- What differs between two inclusions has no effect. -/
theorem Agree.readEffective_eq
    (hAgree : x.Agree i j)
    (hi : i.HasPlainFlags)
    (hj : j.HasPlainFlags) :
    x.readEffective i = x.readEffective j := by
  have hDefines :
      i.defines.filter (!x.isFree ·.1) =
        j.defines.filter (!x.isFree ·.1) :=
    Dict.filter_eq (p := (!x.isFree ·)) hi.ordered hj.ordered
      fun name hOther =>
        hAgree.defines_eq name (by simpa using hOther)
  unfold readEffective commandLineContext commandLinePath
    effectiveLines
  rw [hAgree.settings_eq, hDefines, hAgree.file_eq,
    hAgree.forced_eq]

------------------------------------------------------------
-- The Command Line
------------------------------------------------------------

/- The logical lines of the flags of a file. -/
theorem logicalLines_commandLine
    (hPlain : i.HasPlainFlags)
    (x : LineContext) :
    (Token.logicalLines
        (Token.tokenize (x.commandLine i))).map
        (·.map Token.bare) =
      i.defines.map
          (fun e => Inclusion.definingLine e.1 e.2) ++
        Inclusion.bareLines
          (String.join
            ((i.forced.map x.absolute).map
              Inclusion.includeLine)).toList := by
  have hText :
      (x.commandLine i).toList =
        i.defines.flatMap
            (fun e => (Inclusion.defineLine e.1 e.2).toList) ++
          (String.join
            ((i.forced.map x.absolute).map
              Inclusion.includeLine)).toList := by
    unfold commandLine
    rw [String.toList_append, String.toList_join,
      List.flatMap_map, List.map_map]
    rfl
  unfold Token.tokenize
  rw [hText]
  exact
    Inclusion.logicalLines_defining
      (fun e he => ⟨hPlain.names e he, hPlain.values e he⟩) 1 _

/- The flags of a file say as much as those that have an effect. -/
theorem couples_commandLine
    {R : Coupling}
    (hLawful : R.Lawful)
    (hPlain : i.HasPlainFlags)
    (x : LineContext)
    {st tt : State}
    (hAlike : st.Alike R tt) :
    Couples R
      (inject (x.settings i) (x.commandLinePath i)
        (x.commandLine i))
      (x.readEffective i) st tt anything := by
  have hLines :=
    forall₂_alike_map_bare
      (Token.logicalLines (Token.tokenize (x.commandLine i)))
  rw [logicalLines_commandLine hPlain] at hLines
  have hContext :
      Context.Alike R st.space tt.space
        (x.commandLineContext i) (x.commandLineContext i) :=
    context_alike
      (fun below _ =>
        couples_process hLawful (x.settings i) below)
      (hLawful.one hAlike.spaces) _
  have hRun :=
    couples_readLines hLawful hLines hAlike hContext .nil true
  have hFirst line
      (hMem :
        line ∈
          (Inclusion.bareLines
            (String.join
              ((i.forced.map x.absolute).map
                Inclusion.includeLine)).toList).head?) :
      ∀ word arguments,
        Directive.ofLine line ≠ some (.opening word arguments) := by
    rcases Inclusion.ofLine_forced _ hMem with
      ⟨arguments, hLine⟩
    simp [hLine]
  have hEffective :=
    readLines_defining (x := x.commandLineContext i)
      hPlain.names hFirst true true tt
  have hLater := hRun.later
  have hAfter := hRun.alike
  rw [hEffective] at hLater hAfter
  unfold inject
  rw [process_eq]
  exact ⟨hLater, hAfter, trivial⟩

/- Preprocess a file behind those of its flags that have an effect. -/
def preprocessEffective
    (x : LineContext)
    (i : Inclusion) :
    Run (Except FileError (List Condition)) := do
  injectBuiltins (x.settings i)
  x.readEffective i
  run (x.settings i) (x.absolute i.file)

/- Flags without effect do not change what a file is preprocessed to. -/
theorem couples_effective
    {R : Coupling}
    (hLawful : R.Lawful)
    (hPlain : i.HasPlainFlags)
    (x : LineContext)
    {st tt : State}
    (hAlike : st.Alike R tt) :
    Couples R (x.preprocess i) (x.preprocessEffective i) st tt
      (ResultsAlike R) := by
  unfold preprocess preprocessEffective injectBuiltins
  apply (couples_inject hLawful hAlike _ _).bind
  intro st' tt' _ _ hAlike' _ _
  apply (couples_commandLine hLawful hPlain x hAlike').bind
  intro st'' tt'' _ _ hAlike'' _ _
  exact couples_run hLawful hAlike'' _

/- Two runs that agree in all that extraction looks at. -/
structure SameRun
    (out out' : Except FileError (List Condition) × State) :
    Prop where
  result_eq : out.1 = out'.1
  space_eq : out.2.space = out'.2.space
  log_eq : out.2.log = out'.2.log

theorem sameRun_of_couples
    {f g : Run (Except FileError (List Condition))}
    {st tt : State}
    (hCouples :
      Couples Coupling.same f g st tt
        (ResultsAlike Coupling.same)) :
    SameRun (f st) (g tt) where
  result_eq := by
    have hResults := hCouples.post
    generalize (f st).1 = result at hResults ⊢
    generalize (g tt).1 = result' at hResults ⊢
    cases hResults with
    | error e => rfl
    | ok hEach =>
        have hSame := List.forall₂_eq_eq_eq ▸ hEach
        rw [hSame]
  space_eq := hCouples.alike.spaces
  log_eq := hCouples.alike.log_eq

/- A file is preprocessed the same behind flags that agree. -/
theorem Agree.preprocess_same
    (hAgree : x.Agree i j)
    (hi : i.HasPlainFlags)
    (hj : j.HasPlainFlags)
    (s : Space) :
    SameRun (x.preprocess i (.start s))
      (x.preprocess j (.start s)) := by
  have hEffective :
      x.preprocessEffective i = x.preprocessEffective j := by
    unfold preprocessEffective
    rw [hAgree.settings_eq, hAgree.readEffective_eq hi hj,
      hAgree.file_eq]
  have hStart : State.Alike Coupling.same (.start s) (.start s) :=
    start_alike rfl
  have hFirst :=
    sameRun_of_couples
      (couples_effective Coupling.lawful_same hi x hStart)
  have hSecond :=
    sameRun_of_couples
      (couples_effective Coupling.lawful_same hj x hStart)
  rw [hEffective] at hFirst
  exact
    ⟨hFirst.result_eq.trans hSecond.result_eq.symm,
      hFirst.space_eq.trans hSecond.space_eq.symm,
      hFirst.log_eq.trans hSecond.log_eq.symm⟩

/- Inclusions that agree have the same conditions, log and space. -/
theorem Agree.extract_eq
    (hAgree : x.Agree i j)
    (hi : i.HasPlainFlags)
    (hj : j.HasPlainFlags)
    (s : Space) :
    LineConditions.extract x i s =
      LineConditions.extract x j s := by
  have hSame := hAgree.preprocess_same hi hj s
  unfold LineConditions.extract
  rw [hAgree.file_eq]
  generalize x.preprocess i (.start s) = out at hSame ⊢
  generalize x.preprocess j (.start s) = out' at hSame ⊢
  rcases out with ⟨result, st⟩
  rcases out' with ⟨result', st'⟩
  rcases hSame with ⟨hResult, hSpace, hLog⟩
  dsimp only at hResult hSpace hLog ⊢
  rw [hResult, hSpace, hLog]

------------------------------------------------------------
-- Points of a Run
------------------------------------------------------------

/-
  The states that the preprocessing of a file passes through:
  in the definitions of the compiler, in the flags of the file,
  in its own text, and in all files included by these.
-/
inductive Visits
    (x : LineContext)
    (i : Inclusion)
    (s : Space) :
    (visited : State) → Prop where
  | builtins {visited : State}
      (hInside :
        Preprocessor.Visits (x.settings i)
          (x.settings i).maxDepth ⟨"<builtin>"⟩ .one true []
          (Token.logicalLines (Token.tokenize builtinMacros))
          (.start s) visited) :
      Visits x i s visited
  | commandLine {st visited : State}
      (hBefore :
        st = (injectBuiltins (x.settings i) (.start s)).2)
      (hInside :
        Preprocessor.Visits (x.settings i)
          (x.settings i).maxDepth (x.commandLinePath i) .one
          true []
          (Token.logicalLines
            (Token.tokenize (x.commandLine i)))
          st visited) :
      Visits x i s visited
  | mainFile {st visited : State} {text : String}
      (hBefore :
        st =
          ((do
            injectBuiltins (x.settings i)
            inject (x.settings i) (x.commandLinePath i)
              (x.commandLine i)) (.start s)).2)
      (hText :
        x.tree.readLossy (x.absolute i.file) = .ok text)
      (hInside :
        Preprocessor.Visits (x.settings i)
          (x.settings i).maxDepth (x.absolute i.file) .one
          true [] (Token.logicalLines (Token.tokenize text))
          st visited) :
      Visits x i s visited

/- In no state on the way something was said about a feature. -/
theorem Visits.leavesOpen
    {s : Space}
    {visited : State}
    (hVisits : x.Visits i s visited) :
    visited.LeavesOpen (x.settings i) := by
  have hStart : (State.start s).LeavesOpen (x.settings i) :=
    fun _ _ => rfl
  have hInject path text :
      KeepsOpen (x.settings i)
        (inject (x.settings i) path text) :=
    (KeepsOpen.process _ path text .one).bind fun _ => .pure ()
  cases hVisits with
  | builtins hInside => exact hInside.leavesOpen hStart
  | commandLine hBefore hInside =>
      subst hBefore
      exact hInside.leavesOpen (hInject _ _ _ hStart)
  | mainFile hBefore _ hInside =>
      subst hBefore
      exact
        hInside.leavesOpen
          (((hInject _ _).bind fun _ => hInject _ _) _ hStart)

------------------------------------------------------------
-- Sampled Configurations
------------------------------------------------------------

/-
  The conditions of a file do not depend on what its flags
  define macros of known features to be, and in every state on
  the way such a macro is asked for by its own atom.
-/
theorem extract_unsampled (x : LineContext) :
    (∀ (i j : Inclusion) (s : Space),
      x.Agree i j → i.HasPlainFlags → j.HasPlainFlags →
        LineConditions.extract x i s =
          LineConditions.extract x j s) ∧
    (∀ (i : Inclusion) (s : Space) (visited : State)
      (name : String),
      x.Visits i s visited → x.isFree name = true →
        visited.IsOpen (x.settings i) name) :=
  ⟨fun _ _ s hAgree hi hj => hAgree.extract_eq hi hj s,
    fun _ _ _ _ hVisits hFree =>
      hVisits.leavesOpen.isOpen hFree⟩

/- A file that asks for a feature and for a number. -/
def sampledText : String :=
  "#ifdef A\nx\n#elif N > 1\ny\n#endif\n"

/- A project with one feature and one file. -/
def sampledContext : LineContext where
  tree :=
    { entries := [(["a.c"], .file sampledText.toUTF8.toList)] }
  sourceDir := ⟨"/"⟩
  naming := .identity
  model := .ofList ["A"]
  maxIncludeDepth := 10

/- The file where the feature was chosen. -/
def withFeature : Inclusion where
  file := ⟨"a.c"⟩
  defines := [("A", "1"), ("N", "2")]

/- The file where it was not. -/
def withoutFeature : Inclusion where
  file := ⟨"a.c"⟩
  defines := [("N", "2")]

theorem readLossy_sampledContext :
    sampledContext.tree.readLossy
        (sampledContext.absolute withFeature.file) =
      .ok sampledText := by
  have hPath :
      sampledContext.absolute withFeature.file = ⟨"/a.c"⟩ := by
    decide
  have hSteps : FileTree.stepsOf "/a.c" = ["a.c"] := by
    decide
  have hDecoded :
      Utf8.decodeLossy sampledText.toUTF8.toList =
        sampledText :=
    Utf8.decodeLossy_encode sampledText
  rw [hPath]
  simpa [FileTree.readLossy, FileTree.read, FileTree.status,
    FileTree.resolve, hSteps, FileTree.walk, FileTree.entry?,
    Dict.find?, sampledContext] using hDecoded

theorem extract_unsampled_oneFeature :
    sampledContext.Agree withFeature withoutFeature ∧
      withFeature.HasPlainFlags ∧
      withoutFeature.HasPlainFlags ∧
      LineConditions.extract sampledContext withFeature .empty =
        LineConditions.extract sampledContext withoutFeature
          .empty ∧
      sampledContext.isFree "A" = true ∧
      ∃ visited,
        sampledContext.Visits withFeature .empty visited ∧
        visited.IsOpen (sampledContext.settings withFeature)
          "A" := by
  have hUnsampled := extract_unsampled sampledContext
  have hFree : sampledContext.isFree "A" = true := by decide
  have hAgree :
      sampledContext.Agree withFeature withoutFeature := by
    refine ⟨rfl, rfl, rfl, rfl, ?_⟩
    intro name hOther
    have hNe : name ≠ "A" := by
      rintro rfl
      rw [hFree] at hOther
      cases hOther
    simp [withFeature, withoutFeature, Dict.find?, hNe]
  have hTwo : Inclusion.IsPlainValue "2" :=
    ⟨by simp, by decide, by decide⟩
  have hOne : Inclusion.IsPlainValue "1" :=
    ⟨by simp, by decide, by decide⟩
  have hOrder : compare "A" "N" = .lt := by decide +kernel
  have hWith : withFeature.HasPlainFlags :=
    ⟨by simpa [Dict.IsOrdered, withFeature] using hOrder,
      by decide, by simp [withFeature, hOne, hTwo]⟩
  have hWithout : withoutFeature.HasPlainFlags :=
    ⟨by simp [Dict.IsOrdered, withoutFeature], by decide,
      by simp [withoutFeature, hTwo]⟩
  have hVisits :
      sampledContext.Visits withFeature .empty _ :=
    .mainFile rfl readLossy_sampledContext .here
  exact
    ⟨hAgree, hWith, hWithout,
      hUnsampled.1 _ _ _ hAgree hWith hWithout, hFree, _,
      hVisits, hUnsampled.2 _ _ _ _ hVisits hFree⟩

end LineContext

end Variability
