import Variability.Proofs.Formula.Simplification
import Variability.Proofs.Job.Running
import Variability.Proofs.Smt.Scopes

/-
  Terms mean what their formulas say.

  In the standard semantics a term is evaluated in an environment
  that tells what names are bound to. The values of a `let` are
  found outside of it, and its body in the environment with all
  of them; a name that is not bound is a literal. The conversion
  finds a formula for exactly the terms that are built of names,
  connectives and `let`. The formula has the value of the term,
  and the conversion leaves the scopes as they were, also if it
  finds none.

  Main declarations:
    * `Smt.Term.IsSupported`
    * `Smt.Term.truth`
    * `Smt.Term.converts`
    * `Smt.Script.formula_respects_scoping`
-/

namespace Variability

namespace Smt

------------------------------------------------------------
-- Standard Semantics
------------------------------------------------------------

/- What names are bound to. -/
abbrev Environment := String → Option Bool

namespace Environment

/- Bind one more name. -/
def bind
    (env : Environment)
    (name : String)
    (value : Bool) : Environment :=
  fun other => if other = name then some value else env other

/- Bind the names of a group, of a repeated name the last one. -/
def bindAll
    (env : Environment)
    (values : List (String × Bool)) : Environment :=
  values.foldl (fun env (name, value) => env.bind name value) env

/- The value of a name; constants are never bound. -/
def truth
    (a : String → Bool)
    (env : Environment)
    (name : String) : Bool :=
  if name = "true" then true
  else if name = "false" then false
  else (env name).getD (a name)

end Environment

namespace Term

/- The terms that are built of names, connectives and `let`. -/
inductive IsSupported : Term → Prop where
  | name (name : String) : IsSupported (.identifier (some name))
  | application {head : String} {arguments : List Term}
      (hHead :
        head ∈ ["and", "or"] ∨
          head = "not" ∧ arguments.length = 1)
      (hArguments : ∀ t ∈ arguments, IsSupported t) :
      IsSupported (.application (some head) arguments)
  | binding {bindings : List (String × Term)} {body : Term}
      (hValues : ∀ b ∈ bindings, IsSupported b.2)
      (hBody : IsSupported body) :
      IsSupported (.binding bindings body)

mutual

/- The value of a supported term. -/
def truth (a : String → Bool) (env : Environment) : Term → Bool
  | .identifier name => (name.map (env.truth a)).getD false
  | .application head arguments =>
      match head with
      | some "and" => (truths a env arguments).all id
      | some "or" => (truths a env arguments).any id
      | some "not" => (truths a env arguments).all (!·)
      | _ => false
  | .binding bindings body =>
      truth a (env.bindAll (boundTruths a env bindings)) body
  | .other => false

/- The values of some terms. -/
def truths (a : String → Bool) (env : Environment) :
    List Term → List Bool
  | [] => []
  | t :: rest => truth a env t :: truths a env rest

/- The values of names, none of which is bound yet. -/
def boundTruths (a : String → Bool) (env : Environment) :
    List (String × Term) → List (String × Bool)
  | [] => []
  | (name, t) :: rest =>
      (name, truth a env t) :: boundTruths a env rest

end

/- Induction over a term and the terms inside it. -/
theorem induction
    {motive : Term → Prop}
    (identifier : ∀ name, motive (.identifier name))
    (application :
      ∀ head arguments, (∀ t ∈ arguments, motive t) →
        motive (.application head arguments))
    (binding :
      ∀ bindings body, (∀ b ∈ bindings, motive b.2) →
        motive body → motive (.binding bindings body))
    (other : motive .other)
    (t : Term) :
    motive t :=
  @Term.rec motive (fun ts => ∀ t ∈ ts, motive t)
    (fun bs => ∀ b ∈ bs, motive b.2) (fun b => motive b.2)
    identifier application binding other
    nofun
    (fun _ _ ih ihs => List.forall_mem_cons.mpr ⟨ih, ihs⟩)
    nofun
    (fun _ _ ih ihs => List.forall_mem_cons.mpr ⟨ih, ihs⟩)
    (fun _ _ ih => ih)
    t

end Term

------------------------------------------------------------
-- Conversions That Leave Scopes Alone
------------------------------------------------------------

section Yields

variable {α β : Type}
variable {scopes : Scopes}
variable {c : Conversion α}
variable {possible possible' : Prop}
variable {means means' : α → Prop}

/-
  In some scopes a conversion succeeds exactly if something is
  so, what it gives has a meaning, and in any case the scopes are
  as before.
-/
structure Yields
    (c : Conversion α)
    (scopes : Scopes)
    (possible : Prop)
    (means : α → Prop) : Prop where
  unchanged : (c scopes).2 = scopes
  succeeds : (∃ x, (c scopes).1 = .ok x) ↔ possible
  sound : ∀ x, (c scopes).1 = .ok x → means x

namespace Yields

theorem pure
    {x : α}
    (hMeans : means x) :
    Yields (Pure.pure x : Conversion α) scopes True means :=
  ⟨rfl, ⟨fun _ => trivial, fun _ => ⟨x, rfl⟩⟩, by
    rintro _ ⟨⟩
    exact hMeans⟩

theorem throw
    (e : Unsupported) :
    Yields (MonadExcept.throw e : Conversion α) scopes False
      means :=
  ⟨rfl, ⟨nofun, nofun⟩, nofun⟩

theorem imp
    (hYields : Yields c scopes possible means)
    (hPossible : possible ↔ possible')
    (hMeans : ∀ x, means x → means' x) :
    Yields c scopes possible' means' :=
  ⟨hYields.unchanged, hYields.succeeds.trans hPossible,
    fun x hx => hMeans x (hYields.sound x hx)⟩

/- A second conversion begins in the same scopes as the first one. -/
theorem bind
    {next : α → Conversion β}
    {means' : β → Prop}
    (hFirst : Yields c scopes possible means)
    (hNext :
      ∀ x, means x → Yields (next x) scopes possible' means') :
    Yields (c >>= next) scopes (possible ∧ possible') means' := by
  rcases hFirst with ⟨hUnchanged, hSucceeds, hSound⟩
  rcases hRun : c scopes with ⟨result, left⟩
  rw [hRun] at hUnchanged hSucceeds hSound
  dsimp only at hUnchanged
  subst hUnchanged
  cases result with
  | error e =>
      have hNone : ¬ possible := by
        rw [← hSucceeds]
        rintro ⟨x, ⟨⟩⟩
      constructor <;> rw [Job.bind_apply, hRun]
      · exact ⟨nofun, fun hBoth => absurd hBoth.1 hNone⟩
      · nofun
  | ok x =>
      have hFound : possible := hSucceeds.mp ⟨x, rfl⟩
      have hRest := hNext x (hSound x rfl)
      constructor <;> rw [Job.bind_apply, hRun]
      · exact hRest.unchanged
      · rw [and_iff_right hFound]
        exact hRest.succeeds
      · exact hRest.sound

/- Names that are bound meanwhile are taken back. -/
theorem within
    (hProper : scopes.IsProper)
    {values : List (String × Formula)}
    (hInner : Yields c (scopes.pushAll values) possible means) :
    Yields (Conversion.within values c) scopes possible means := by
  refine ⟨?_, hInner.succeeds, hInner.sound⟩
  change (c (scopes.pushAll values)).2.popAll _ = scopes
  rw [hInner.unchanged, Scopes.popAll_pushAll hProper]

end Yields

end Yields

------------------------------------------------------------
-- Environments of Scopes
------------------------------------------------------------

/- What names are bound to, by the values of their formulas. -/
def Scopes.environment
    (a : String → Bool)
    (scopes : Scopes) : Environment :=
  fun name => (scopes.lookup name).map (Formula.eval a)

theorem Scopes.environment_push
    (a : String → Bool)
    (scopes : Scopes)
    (name : String)
    (value : Formula) :
    (scopes.push name value).environment a =
      (scopes.environment a).bind name (value.eval a) := by
  funext other
  unfold environment Environment.bind
  dsimp only
  rw [lookup_eq, lookup_eq, stack_push]
  split <;> rfl

theorem Scopes.environment_pushAll
    (a : String → Bool)
    (scopes : Scopes)
    (values : List (String × Formula)) :
    (scopes.pushAll values).environment a =
      (scopes.environment a).bindAll
        (values.map fun v => (v.1, v.2.eval a)) := by
  induction values generalizing scopes with
  | nil => rfl
  | cons entry values ih =>
      rw [pushAll, List.foldl_cons, ← pushAll, ih,
        environment_push]
      rfl

theorem eval_nameFormula
    (a : String → Bool)
    (name : String)
    (scopes : Scopes) :
    (nameFormula name scopes).eval a =
      (scopes.environment a).truth a name := by
  unfold nameFormula Environment.truth Scopes.environment
  split
  · rfl
  · rfl
  · rename_i hTrue hFalse
    rw [if_neg hTrue, if_neg hFalse]
    cases scopes.lookup name <;> rfl

------------------------------------------------------------
-- Terms
------------------------------------------------------------

namespace Term

/- The formula of a term has its value, and there is one if it is supported. -/
def Converts (t : Term) : Prop :=
  ∀ scopes : Scopes, scopes.IsProper →
    Yields t.convert scopes t.IsSupported fun f =>
      ∀ a, f.eval a = t.truth a (scopes.environment a)

theorem yields_convertEach
    {ts : List Term}
    (hEach : ∀ t ∈ ts, t.Converts)
    {scopes : Scopes}
    (hProper : scopes.IsProper) :
    Yields (convertEach ts) scopes (∀ t ∈ ts, t.IsSupported)
      fun fs => ∀ a,
        fs.map (Formula.eval a) =
          truths a (scopes.environment a) ts := by
  induction ts with
  | nil =>
      rw [convertEach]
      exact (Yields.pure fun _ => rfl).imp (by simp) fun _ h => h
  | cons t ts ih =>
      rw [List.forall_mem_cons] at hEach
      rw [convertEach, List.forall_mem_cons]
      refine (hEach.1 scopes hProper).bind fun f hf => ?_
      refine ((ih hEach.2).bind fun fs hfs => Yields.pure ?_).imp
        (iff_of_eq (and_true _)) fun _ h => h
      intro a
      rw [List.map_cons, hf, hfs, truths]

theorem yields_convertValues
    {bindings : List (String × Term)}
    (hEach : ∀ b ∈ bindings, b.2.Converts)
    {scopes : Scopes}
    (hProper : scopes.IsProper) :
    Yields (convertValues bindings) scopes
      (∀ b ∈ bindings, b.2.IsSupported)
      fun values => ∀ a,
        values.map (fun v => (v.1, v.2.eval a)) =
          boundTruths a (scopes.environment a) bindings := by
  induction bindings with
  | nil =>
      rw [convertValues]
      exact (Yields.pure fun _ => rfl).imp (by simp) fun _ h => h
  | cons b bindings ih =>
      rw [List.forall_mem_cons] at hEach
      rw [convertValues, List.forall_mem_cons]
      refine (hEach.1 scopes hProper).bind fun f hf => ?_
      refine
        ((ih hEach.2).bind fun values hValues =>
          Yields.pure ?_).imp
          (iff_of_eq (and_true _)) fun _ h => h
      intro a
      rw [List.map_cons, hf, hValues, boundTruths]

/- An application of a connective is supported if its arguments are. -/
theorem isSupported_application_iff
    {head : String}
    {arguments : List Term}
    (hHead :
      head ∈ ["and", "or"] ∨
        head = "not" ∧ arguments.length = 1) :
    (application (some head) arguments).IsSupported ↔
      ∀ t ∈ arguments, t.IsSupported := by
  constructor
  · intro hSupported
    cases hSupported with
    | application _ hArguments => exact hArguments
  · exact .application hHead

theorem converts_application
    {head : Option String}
    {arguments : List Term}
    (hEach : ∀ t ∈ arguments, t.Converts) :
    (application head arguments).Converts := by
  intro scopes hProper
  have hArguments := yields_convertEach hEach hProper
  cases head with
  | none =>
      rw [convert]
      exact (Yields.throw _).imp ⟨nofun, nofun⟩ fun _ h => h
  | some head =>
      unfold convert
      split
      case h_1 =>
        rw [isSupported_application_iff (by simp), ← and_true
          (∀ t ∈ arguments, t.IsSupported)]
        refine hArguments.bind fun fs hfs => Yields.pure fun a => ?_
        rw [Formula.eval, Formula.evalAll_eq, truth, ← hfs a,
          List.all_map]
        rfl
      case h_2 =>
        rw [isSupported_application_iff (by simp), ← and_true
          (∀ t ∈ arguments, t.IsSupported)]
        refine hArguments.bind fun fs hfs => Yields.pure fun a => ?_
        rw [Formula.eval, Formula.evalAny_eq, truth, ← hfs a,
          List.any_map]
        rfl
      case h_3 argument =>
        have hArgument :=
          hEach argument List.mem_cons_self scopes hProper
        rw [isSupported_application_iff (by simp),
          List.forall_mem_singleton, ← and_true
            argument.IsSupported]
        refine hArgument.bind fun f hf => Yields.pure fun a => ?_
        rw [Formula.eval_not, hf]
        simp [truth, truths]
      case h_4 hOther =>
        refine
          (Yields.throw _).imp
            ⟨nofun, fun hSupported => ?_⟩ fun _ h => h
        cases hSupported with
        | application hHead hArguments =>
            have hOne : arguments.length = 1 := by simpa using hHead
            rcases List.length_eq_one_iff.mp hOne with
              ⟨argument, hArgument⟩
            exact hOther argument hArgument
      case h_5 hConj hDisj hNegation _ =>
        refine
          (Yields.throw _).imp
            ⟨nofun, fun hSupported => ?_⟩ fun _ h => h
        cases hSupported with
        | application hHead hArguments =>
            rw [List.mem_pair] at hHead
            rcases hHead with (hHead | hHead) | ⟨hHead, -⟩
            · exact hConj hHead
            · exact hDisj hHead
            · exact hNegation hHead

/- By induction on the term. Every part is read in the scopes of the whole. -/
theorem converts (t : Term) : t.Converts := by
  induction t using Term.induction with
  | identifier name =>
      intro scopes hProper
      cases name with
      | none =>
          rw [convert]
          exact (Yields.throw _).imp
            ⟨nofun, nofun⟩ fun _ h => h
      | some name =>
          rw [convert]
          refine ⟨rfl, ⟨fun _ => .name name, fun _ => ⟨_, rfl⟩⟩, ?_⟩
          rintro _ ⟨⟩ a
          exact eval_nameFormula a name scopes
  | application head arguments ih => exact converts_application ih
  | binding bindings body ihValues ihBody =>
      intro scopes hProper
      rw [convert]
      refine
        ((yields_convertValues ihValues hProper).bind
          fun values hValues =>
            ((ihBody _ (hProper.pushAll values)).within
              hProper).imp Iff.rfl ?_).imp ?_ fun _ h => h
      · intro f hf a
        rw [hf, Scopes.environment_pushAll, hValues, truth]
      · constructor
        · rintro ⟨hValues, hBody⟩
          exact .binding hValues hBody
        · intro hSupported
          cases hSupported with
          | binding hValues hBody => exact ⟨hValues, hBody⟩
  | other =>
      intro scopes hProper
      rw [convert]
      exact (Yields.throw _).imp ⟨nofun, nofun⟩ fun _ h => h

end Term

------------------------------------------------------------
-- Scripts
------------------------------------------------------------

/- The terms that commands assert. -/
def asserted : List Command → List Term
  | [] => []
  | .other :: rest => asserted rest
  | .assert t :: rest => t :: asserted rest

theorem yields_assertions
    (commands : List Command)
    {scopes : Scopes}
    (hProper : scopes.IsProper) :
    Yields (assertions commands) scopes
      (∀ t ∈ asserted commands, t.IsSupported)
      fun fs => ∀ a,
        fs.map (Formula.eval a) =
          (asserted commands).map
            (Term.truth a (scopes.environment a)) := by
  induction commands with
  | nil =>
      rw [assertions]
      exact
        (Yields.pure fun _ => rfl).imp (by simp [asserted])
          fun _ h => h
  | cons command commands ih =>
      cases command with
      | other => exact ih
      | assert t =>
          rw [assertions, asserted, List.forall_mem_cons]
          refine (t.converts scopes hProper).bind fun f hf => ?_
          refine ((ih.bind fun fs hfs => Yields.pure ?_).imp
            (iff_of_eq (and_true _)) fun _ h => h)
          intro a
          rw [List.map_cons, hf, hfs, List.map_cons]

theorem eval_conjunction
    (a : String → Bool)
    (fs : List Formula) :
    (conjunction fs).eval a = (fs.map (Formula.eval a)).all id := by
  unfold conjunction
  split
  · simp
  · rw [Formula.eval, Formula.evalAll_eq, List.all_map]
    rfl

theorem mem_asserted_iff
    {commands : List Command}
    {t : Term} :
    t ∈ asserted commands ↔ .assert t ∈ commands := by
  induction commands with
  | nil => simp [asserted]
  | cons command commands ih =>
      cases command <;> simp [asserted, ih]

/- A script has a formula if its terms have, and it has no mistake. -/
theorem Script.formula_eq_ok_iff
    (script : Script)
    (f : Formula) :
    script.formula = .ok f ↔
      script.mistake = none ∧
        ∃ fs, (assertions script.commands []).1 = .ok fs ∧
          f = conjunction fs := by
  unfold formula
  cases (assertions script.commands []).1 <;>
    cases script.mistake <;>
    simp [eq_comm]

/-
  A script has a formula if and only if it is read to its end and
  every term that it asserts is supported. The formula is true
  exactly where all these terms are, names that are not bound
  being literals. What a term is converted in is left as it was,
  whether or not the term has a formula.
-/
theorem Script.formula_respects_scoping
    (script : Script) :
    ((∃ f, script.formula = .ok f) ↔
        script.mistake = none ∧
          ∀ t, .assert t ∈ script.commands → t.IsSupported) ∧
      (∀ f, script.formula = .ok f → ∀ a,
        f.eval a = true ↔
          ∀ t, .assert t ∈ script.commands →
            t.truth a (fun _ => none) = true) ∧
      ∀ (t : Term) (bound : List (String × Formula)),
        (t.convert (Scopes.pushAll bound [])).2 =
          Scopes.pushAll bound [] := by
  have hAssertions :=
    yields_assertions script.commands Scopes.isProper_nil
  simp only [← mem_asserted_iff, formula_eq_ok_iff]
  refine ⟨?_, ?_, fun t bound => ?_⟩
  · rw [← hAssertions.succeeds]
    constructor
    · rintro ⟨f, hMistake, fs, hFs, -⟩
      exact ⟨hMistake, fs, hFs⟩
    · rintro ⟨hMistake, fs, hFs⟩
      exact ⟨_, hMistake, fs, hFs, rfl⟩
  · rintro f ⟨-, fs, hFs, rfl⟩ a
    have hNone :
        Scopes.environment a [] = fun _ => none := rfl
    rw [eval_conjunction, hAssertions.sound fs hFs, hNone,
      List.all_map, List.all_eq_true]
    rfl
  · exact
      (t.converts _
        (Scopes.isProper_nil.pushAll bound)).unchanged

/-
  A value of a group is read outside of it, and a value that is
  not used changes nothing.
-/
def parallelScript : Script :=
  { commands :=
      [.other,
        .assert
          (.binding [("x", .identifier (some "A"))]
            (.binding
              [("x", .identifier (some "B")),
                ("y", .identifier (some "x")),
                ("z", .application (some "or") [])]
              (.application (some "and")
                [.identifier (some "x"),
                  .application (some "not")
                    [.identifier (some "y")]])))]
    mistake := none }

theorem Script.formula_respects_scoping_parallel :
    ∃ f, parallelScript.formula = .ok f ∧
      f.eval (· == "B") = true ∧ f.eval (· != "C") = false := by
  have hScoping := formula_respects_scoping parallelScript
  have hSupported (t : Term)
      (hMem : .assert t ∈ parallelScript.commands) :
      t.IsSupported := by
    have hTerm := mem_asserted_iff.mpr hMem
    rw [parallelScript, asserted, asserted, asserted,
      List.mem_singleton] at hTerm
    subst hTerm
    refine .binding (by simp [Term.IsSupported.name]) ?_
    refine .binding ?_ ?_
    · have hOr : (Term.application (some "or") []).IsSupported :=
        .application (by simp) nofun
      simp [Term.IsSupported.name, hOr]
    · refine .application (by simp) ?_
      have hNot :
          (Term.application (some "not")
            [.identifier (some "y")]).IsSupported :=
        .application (by simp) (by simp [Term.IsSupported.name])
      simp [Term.IsSupported.name, hNot]
  rcases hScoping.1.mpr ⟨rfl, hSupported⟩ with ⟨f, hFormula⟩
  have hTruth := hScoping.2.1 f hFormula
  simp only [← mem_asserted_iff] at hTruth
  refine ⟨f, hFormula, (hTruth _).mpr ?_, ?_⟩
  · decide
  · rw [← Bool.not_eq_true, hTruth]
    decide

end Smt

end Variability
