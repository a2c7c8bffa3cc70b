import Variability.FileConditions
import Variability.Proofs.Dict.Entries
import Variability.Proofs.Feature.Sanitizing
import Variability.Proofs.LineConditions.Literals

/-
  Conditions that are about known features only.

  A sanitized formula has no other literals than known features,
  so sanitizing it again changes nothing. All conditions of files
  and of lines are sanitized before they are kept, whatever they
  are read from.

  Main declarations:
    * `FeatureModel.Covers`, `FeatureModel.CoversAll`
    * `FileConditions.coversAll_ofJson`
    * `LineConditions.coversAll_extract`
    * `FeatureModel.sanitize_leaves_features`
-/

namespace Variability

------------------------------------------------------------
-- Formulas
------------------------------------------------------------

namespace FeatureModel

variable {m : FeatureModel}

/- All literals of a formula are known features. -/
def Covers (m : FeatureModel) (f : Formula) : Prop :=
  ∀ literal ∈ f.literals, m.contains literal = true

theorem covers_sanitize
    (m : FeatureModel)
    (context : String)
    (f : Formula) :
    m.Covers (m.sanitize context f).1 :=
  fun _ hLiteral => (mem_literals_of_sanitize hLiteral).2

/- Nothing is left to sanitize, in whatever context it is tried. -/
theorem sanitize_sanitize
    (m : FeatureModel)
    (context context' : String)
    (f : Formula) :
    (m.sanitize context' (m.sanitize context f).1).1 =
      (m.sanitize context f).1 :=
  sanitize_eq_self (m.covers_sanitize context f) context'

------------------------------------------------------------
-- Maps
------------------------------------------------------------

variable {κ : Type}
variable {d : Dict κ Formula}

/- All formulas that a map holds are about known features. -/
def CoversAll (m : FeatureModel) (d : Dict κ Formula) : Prop :=
  ∀ entry ∈ d, m.Covers entry.2

theorem CoversAll.nil : m.CoversAll ([] : Dict κ Formula) :=
  List.forall_mem_nil _

theorem CoversAll.insert
    [Ord κ]
    {f : Formula}
    (hAll : m.CoversAll d)
    (key : κ)
    (hCovers : m.Covers f) :
    m.CoversAll (Dict.insert key f d) := by
  rintro ⟨key', g⟩ hMem
  rcases Dict.mem_insert hMem with ⟨rfl, -⟩ | hOld
  · exact hCovers
  · exact hAll _ hOld

end FeatureModel

------------------------------------------------------------
-- Conditions of Files
------------------------------------------------------------

namespace FileConditions

variable {m : FeatureModel}
variable {conditions conditions' : FileConditions}
variable {sourceDir : Path}
variable {start : Option String}

theorem coversAll_addScript
    {file script : String}
    (hAll : m.CoversAll conditions)
    (hAdd :
      (addScript sourceDir start m conditions file script).1 =
        .ok conditions') :
    m.CoversAll conditions' := by
  unfold addScript at hAdd
  cases hScript : Smt.parse script with
  | error e =>
      rw [hScript] at hAdd
      cases hAdd
  | ok f =>
      rw [hScript] at hAdd
      cases hAdd
      exact hAll.insert _ (m.covers_sanitize file _)

/- By induction on the scripts: each one keeps what was there. -/
theorem coversAll_addScripts
    {scripts : Dict String String}
    (hAll : m.CoversAll conditions)
    (hAdd :
      (addScripts sourceDir start m conditions scripts).1 =
        .ok conditions') :
    m.CoversAll conditions' := by
  induction scripts generalizing conditions with
  | nil =>
      cases hAdd
      exact hAll
  | cons entry scripts ih =>
      rcases entry with ⟨file, script⟩
      rw [addScripts] at hAdd
      rcases hFirst :
        addScript sourceDir start m conditions file script with
        ⟨e | between, log⟩
      · rw [hFirst] at hAdd
        cases hAdd
      · rw [hFirst] at hAdd
        have hBetween :=
          coversAll_addScript hAll (congrArg Prod.fst hFirst)
        exact ih hBetween hAdd

theorem coversAll_ofJson
    {text : String}
    (hAnswer :
      (ofJson sourceDir start m text).1 = .ok conditions) :
    m.CoversAll conditions := by
  unfold ofJson at hAnswer
  cases hScripts : JsonText.readWhole readScripts text with
  | error flaw =>
      rw [hScripts] at hAnswer
      cases hAnswer
  | ok scripts =>
      rw [hScripts] at hAnswer
      exact coversAll_addScripts .nil hAnswer

end FileConditions

------------------------------------------------------------
-- Conditions of Lines
------------------------------------------------------------

namespace LineConditions

variable {x : LineContext}
variable {i : Inclusion}
variable {s : Space}
variable {conditions : LineConditions}

theorem coversAll_ofFormulas
    (m : FeatureModel)
    (file : Path)
    (line : Nat)
    (formulas : List (Option Formula)) :
    m.CoversAll (ofFormulas m file line formulas).1 := by
  induction formulas generalizing line with
  | nil => exact .nil
  | cons formula formulas ih =>
      cases formula with
      | none => exact ih (line + 1)
      | some f =>
          exact
            List.forall_mem_cons.mpr
              ⟨m.covers_sanitize _ f, ih (line + 1)⟩

theorem coversAll_extract
    (hAnswer : (extract x i s).1.1 = .ok conditions) :
    x.model.CoversAll conditions := by
  unfold extract at hAnswer
  rcases hRun : x.preprocess i (.start s) with ⟨e | cs, st⟩
  · rw [hRun] at hAnswer
    cases hAnswer
  · rw [hRun] at hAnswer
    cases hAnswer
    exact coversAll_ofFormulas x.model i.file 1 _

end LineConditions

------------------------------------------------------------
-- Models
------------------------------------------------------------

namespace FeatureModel

/-
  A sanitized formula is about known features only. It has the
  value that the formula has where nothing but features can be
  chosen, it is the formula itself if that is about known
  features, and it stays the same if it is sanitized again. So
  all conditions that are read for files and extracted for lines
  are about known features only.
-/
theorem sanitize_leaves_features (m : FeatureModel) :
    (∀ context f,
      m.Covers (m.sanitize context f).1 ∧
        (∀ a, (m.sanitize context f).1.eval a =
          f.eval (m.restricted a)) ∧
        (m.Covers f → (m.sanitize context f).1 = f) ∧
        ∀ context',
          (m.sanitize context' (m.sanitize context f).1).1 =
            (m.sanitize context f).1) ∧
      (∀ sourceDir start text conditions,
        (FileConditions.ofJson sourceDir start m text).1 =
            .ok conditions →
          m.CoversAll conditions) ∧
      ∀ (x : LineContext) (i : Inclusion) (s : Space) conditions,
        x.model = m →
          (LineConditions.extract x i s).1.1 = .ok conditions →
            m.CoversAll conditions := by
  refine ⟨fun context f => ⟨?_, ?_, ?_, ?_⟩, ?_, ?_⟩
  · exact m.covers_sanitize context f
  · exact m.eval_sanitize context f
  · exact fun hCovers => sanitize_eq_self hCovers context
  · exact fun context' => m.sanitize_sanitize context context' f
  · exact fun _ _ _ _ => FileConditions.coversAll_ofJson
  · rintro x i s conditions rfl hAnswer
    exact LineConditions.coversAll_extract hAnswer

/-
  Where `FOO` is the only feature, nothing is left of a `GONE`
  that has to be unset, of a file whose script asks for it, or of
  a line that does.
-/
theorem sanitize_leaves_features_oneFeature :
    let m : FeatureModel := .ofList ["FOO"]
    let x := LineConditions.askingContext "GONE"
    let f : Formula :=
      .and (.literal "FOO") (.negation (.literal "GONE"))
    m.Covers (.literal "FOO") ∧
      (m.sanitize "a.c" (.literal "FOO")).1 = .literal "FOO" ∧
      (m.sanitize "a.c" f).1 = .literal "FOO" ∧
      (m.sanitize "b.c" (m.sanitize "a.c" f).1).1 =
        .literal "FOO" ∧
      f.eval (m.restricted fun _ => true) = true ∧
      (∃ conditions,
        (FileConditions.ofJson ⟨"/"⟩ none m
            "\x7b\"a.o\": \"(assert (and FOO (not GONE)))\"\x7d").1 =
            .ok conditions ∧
          conditions ≠ [] ∧ m.CoversAll conditions) ∧
      ∃ conditions g,
        (LineConditions.extract x LineConditions.askingInclusion
            .empty).1.1 = .ok conditions ∧
          LineConditions.find? conditions 2 = some g ∧
          m.CoversAll conditions := by
  intro m x f
  rcases sanitize_leaves_features m with
    ⟨hSanitize, hFiles, hLines⟩
  have hCovers : m.Covers (.literal "FOO") := by
    intro literal hLiteral
    rw [List.mem_singleton.mp hLiteral]
    decide
  have hSimple : (m.sanitize "a.c" f).1 = .literal "FOO" := by
    decide +kernel
  have hRead :
      (FileConditions.ofJson ⟨"/"⟩ none m
          "\x7b\"a.o\": \"(assert (and FOO (not GONE)))\"\x7d").1 =
        .ok [(⟨"a.o"⟩, .literal "FOO")] := by
    decide +kernel
  have hText :
      Utf8.decodeLossy
          ("#ifdef " ++ "GONE" ++ "\nx\n#endif\n").toUTF8.toList =
        "#ifdef GONE\nx\n#endif\n" := by
    cbv
  have hAsking :
      Token.logicalLines
          (Token.tokenize "#ifdef GONE\nx\n#endif\n") =
        Preprocessor.askingLines "GONE" := by
    cbv
  have hOther :
      ∀ e ∈ Preprocessor.builtinDefines, e.1 ≠ "GONE" := by
    decide
  rcases
    LineConditions.exists_formula_askingContext hText hAsking
      hOther with
    ⟨st, c, g, hFormula, -, -⟩
  rcases hFormula.exists_answer with ⟨conditions, hAnswer⟩
  have hFound :=
    (LineConditions.find?_extract hAnswer).mpr
      ⟨st, c, g, hFormula, rfl⟩
  refine ⟨hCovers, (hSanitize "a.c" _).2.2.1 hCovers, hSimple, ?_,
    ?_, ?_, ?_⟩
  · rw [(hSanitize "a.c" f).2.2.2 "b.c", hSimple]
  · rw [← (hSanitize "a.c" f).2.1, hSimple]
    rfl
  · exact
      ⟨_, hRead, List.cons_ne_nil _ _, hFiles _ _ _ _ hRead⟩
  · exact
      ⟨conditions, _, hAnswer, hFound,
        hLines x _ _ conditions rfl hAnswer⟩

end FeatureModel

end Variability
