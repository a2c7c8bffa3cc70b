import Variability.Proofs.Expression.Literals
import Variability.Proofs.Preprocessor.Coupling
import Variability.Proofs.Preprocessor.Lifting

/-
  Reading a file in an environment.

  An environment has no atoms: it knows the integers that macros
  are, and computes with them what expressions are worth. A test
  of an ordinary expression builds a condition that tells what
  the test is worth, and a group of branches follows its tests.

  Main declarations:
    * `Environment.step`
    * `Environment.read`
    * `Preprocessor.asked`
    * `Preprocessor.openGroup_tells`
    * `Preprocessor.nextBranch_tells`
-/

namespace Variability

------------------------------------------------------------
-- Tests
------------------------------------------------------------

namespace Test

/- The expression of some tokens in which no macro takes arguments. -/
def tree (tokens : List Token) : Expression :=
  Expression.read (fun _ => false) tokens

/- Whether a test holds where macros have values. -/
def holds (macros : MacroValues) : Test → Bool
  | .expression tokens => (tree tokens).valueIn macros ≠ 0
  | .definedness name positive =>
      (macros name).isSome == positive
  | .unnamed _ => false

/- The uses that the truth of a test depends on. -/
def uses (known macros : MacroValues) :
    Test → List (String × Bool)
  | .expression tokens => (tree tokens).uses known macros
  | _ => []

/- Whether a test is about integers and names only. -/
def isOrdinary : Test → Bool
  | .expression tokens => (tree tokens).isOrdinary
  | .definedness _ _ => true
  | .unnamed _ => false

end Test

/-
  Whether a directive includes nothing, asks an ordinary test,
  and decides about macros that do not stay open, with a single
  number for each that it defines.
-/
def Directive.isOrdinary
    (isFree : String → Bool) :
    Directive → Bool
  | .opening word arguments | .alternative word arguments =>
      (Test.ofWord word arguments).isOrdinary
  | .define [name, t] =>
      !isFree name.text && t.kind == .number &&
        (Expression.numberValue? t.text).isSome
  | .define _ => false
  | .undefine arguments =>
      !arguments.head?.any fun t => isFree t.text
  | .inclusion _ => false
  | .otherwise | .closing | .once | .other => true

------------------------------------------------------------
-- Runs
------------------------------------------------------------

namespace Environment

/- What is kept from line to line. -/
structure State where
  stack : List Configuration.Branch
  macros : MacroValues

/- Whether the branch that is read is reached. -/
def State.isReached (m : State) : Bool :=
  match m.stack with
  | [] => true
  | branch :: _ => branch.active

/- Follow a directive that is reached. -/
def effect (macros : MacroValues) : Directive → MacroValues
  | .define [name, t] =>
      Function.update macros name.text
        (Expression.numberValue? t.text)
  | .undefine (t :: _) => Function.update macros t.text none
  | _ => macros

/-
  Follow a directive. A test is made where its group is reached
  and no test of the group held before.
-/
def step (m : State) : Directive → State
  | .opening word arguments =>
      let holds :=
        m.isReached && (Test.ofWord word arguments).holds m.macros
      { m with stack := ⟨m.isReached, holds, holds⟩ :: m.stack }
  | .alternative word arguments =>
      match m.stack with
      | [] => m
      | branch :: rest =>
          let holds :=
            branch.outer && !branch.taken &&
              (Test.ofWord word arguments).holds m.macros
          { m with
            stack :=
              ⟨branch.outer, branch.taken || holds, holds⟩ ::
                rest }
  | .otherwise =>
      match m.stack with
      | [] => m
      | branch :: rest =>
          { m with
            stack :=
              ⟨branch.outer, true,
                branch.outer && !branch.taken⟩ ::
                rest }
  | .closing => { m with stack := m.stack.tail }
  | d =>
      if m.isReached then
        { m with macros := effect m.macros d }
      else
        m

/- Follow a logical line. -/
def followLine (m : State) (line : List Token) : State :=
  match Directive.ofLine line with
  | some d => step m d
  | none => m

/-
  Read logical lines, and give for each its last physical line
  and whether it is reached.
-/
def read (m : State) : List (List Token) → List (Nat × Bool)
  | [] => []
  | line :: rest =>
      ((line.getLast?.map (·.endLine)).getD 0, m.isReached) ::
        read (followLine m line) rest

end Environment

namespace Preprocessor

open InSpace

variable {s : Settings}
variable {st : State}
variable {s' : Space}
variable {a : Nat → Bool}
variable {x : Context}
variable {first : Bool}
variable {stack : List Frame}
variable {d : Directive}
variable {env : Environment}
variable {answer : String → Bool}
variable {m : Environment.State}

------------------------------------------------------------
-- Uses
------------------------------------------------------------

/- The uses in the test that an environment makes at a directive. -/
def askedAt
    (definitions : Definitions)
    (m : Environment.State) :
    Directive → List (String × Bool)
  | .opening word arguments =>
      if m.isReached then
        (Test.ofWord word arguments).uses
          definitions.constant? m.macros
      else
        []
  | .alternative word arguments =>
      if m.stack.head?.any fun b => b.outer && !b.taken then
        (Test.ofWord word arguments).uses
          definitions.constant? m.macros
      else
        []
  | _ => []

/- The uses in all tests that an environment makes in some lines. -/
def asked
    (x : Context)
    (first : Bool)
    (stack : List Frame) :
    List (List Token) → State → Environment.State →
    List (String × Bool)
  | [], _, _ => []
  | line :: rest, st, m =>
      let out := followLine x first stack line st
      ((Directive.ofLine line).toList.flatMap
          (askedAt st.definitions m)) ++
        asked x false out.1 rest out.2
          (Environment.followLine m line)

/- No use is asked for with one truth here and another one there. -/
def Consistent (uses : List (String × Bool)) : Prop :=
  ∀ text, (text, true) ∈ uses → (text, false) ∉ uses

------------------------------------------------------------
-- Tests
------------------------------------------------------------

variable {word : String}
variable {arguments : List Token}

/- The condition of a test tells whether the test holds. -/
theorem testCondition_tells
    (hSound : st.Sound)
    (hTells :
      st.definitions.Tells st.space env answer s.isFree
        m.macros)
    (hOrdinary :
      (Test.ofWord word arguments).isOrdinary = true) :
    Builds st (testCondition s word arguments)
      fun space c =>
        space.Tells (env.atom answer)
          (Told (env.atom answer)
            ((Test.ofWord word arguments).uses
              st.definitions.constant? m.macros))
          ((Test.ofWord word arguments).holds m.macros) c := by
  unfold testCondition
  cases hTest : Test.ofWord word arguments with
  | expression tokens =>
      rw [hTest] at hOrdinary
      apply Builds.of_ensures hSound.space
      exact
        Evaluator.ensures_condition_tells
          (e := ⟨st.definitions, s.isFree⟩) hTells rfl
          hOrdinary
  | definedness name positive =>
      apply Builds.of_ensures hSound.space
      apply
        (Definitions.ensures_whetherDefined_tells hTells
          name).bind
      intro s' c _ _ hDefined
      apply Ensures.pure
      intro s'' _ hGrows
      have hDefined' :
          s''.Tells (env.atom answer)
            (Told (env.atom answer)
              ((Test.definedness name positive).uses
                st.definitions.constant? m.macros))
            (m.macros name).isSome c :=
        ⟨hGrows.isLive hDefined.isLive,
          fun _ => (hDefined.grows hGrows).eval_eq trivial⟩
      cases positive with
      | true => simpa [Test.holds] using hDefined'
      | false => simpa [Test.holds] using hDefined'.neg
  | unnamed text =>
      rw [hTest] at hOrdinary
      cases hOrdinary

------------------------------------------------------------
-- Groups
------------------------------------------------------------

/- A frame projects to every branch that cannot be told apart. -/
theorem Frame.Projects.congr
    {frame : Frame}
    {branch branch' : Configuration.Branch}
    (hProjects : frame.Projects s' a branch)
    (hOuter : branch.outer = branch'.outer)
    (hTaken :
      branch'.outer = true → branch.taken = branch'.taken)
    (hActive : branch.active = branch'.active) :
    frame.Projects s' a branch' where
  outer_eq := hProjects.outer_eq.trans hOuter
  taken_eq := fun hReached =>
    (hProjects.taken_eq (hOuter.trans hReached)).trans
      (hTaken hReached)
  active_eq := hProjects.active_eq.trans hActive

/- A decided group stays as it is, whatever a further test says. -/
theorem Frame.Projects.decided
    {frame : Frame}
    {branch : Configuration.Branch}
    (hProjects : frame.Projects s' a branch)
    (hNone : (branch.outer && !branch.taken) = false)
    (holds : Bool) :
    let reached := branch.outer && !branch.taken && holds
    Frame.Projects s' a { frame with active := .zero }
      ⟨branch.outer, branch.taken || reached, reached⟩ := by
  apply (hProjects.skip hNone false).congr
  · rfl
  · intro _
    simp [hNone]
  · simp [hNone]

/-
  The truth of a test is told apart only where the group is not
  decided.
-/
theorem Frame.Projects.retest
    {frame : Frame}
    {branch : Configuration.Branch}
    {truth holds : Bool}
    (hProjects :
      frame.Projects s' a
        ⟨branch.outer, branch.taken || truth,
          branch.outer && !branch.taken && truth⟩)
    (hAgrees :
      (branch.outer && !branch.taken) = true →
        truth = holds) :
    let reached := branch.outer && !branch.taken && holds
    frame.Projects s' a
      ⟨branch.outer, branch.taken || reached, reached⟩ := by
  apply hProjects.congr
  · rfl
  · intro hReached
    have hOuter : branch.outer = true := hReached
    cases hTakenHere : branch.taken with
    | true => rfl
    | false =>
        simpa [hOuter, hTakenHere] using hAgrees
  · cases hSome : branch.outer && !branch.taken with
    | false => rfl
    | true => simpa [hSome] using hAgrees hSome

/- A frame that projects to a branch wherever atoms have their values. -/
structure Frame.Tells
    (space : Space)
    (value : Atom → Bool)
    (branch : Configuration.Branch)
    (frame : Frame) : Prop where
  isLive : frame.IsLive space
  projects :
    ∀ s', s'.Sound → space.Grows s' → ∀ a,
      Coupling.Assigns s' value a →
        frame.Projects s' a branch

theorem Frame.Tells.grows
    {space : Space}
    {value : Atom → Bool}
    {branch : Configuration.Branch}
    {frame : Frame}
    (hTells : frame.Tells space value branch)
    (hGrows : space.Grows s') :
    frame.Tells s' value branch where
  isLive := hTells.isLive.grows hGrows
  projects := fun s'' hSound hGrows' =>
    hTells.projects s'' hSound (hGrows.trans hGrows')

/- A new group is reached where the code around it is. -/
theorem openGroup_tells
    (hSound : st.Sound)
    (hTells :
      st.definitions.Tells st.space env answer s.isFree
        m.macros)
    (hNoGuard : (first && word == "ifndef") = false)
    (hOrdinary :
      (Test.ofWord word arguments).isOrdinary = true)
    {outer : Condition}
    {reached : Bool}
    (hOuter :
      st.space.Tells (env.atom answer) True reached outer)
    (hTold :
      reached = true →
        Told (env.atom answer)
          ((Test.ofWord word arguments).uses
            st.definitions.constant? m.macros)) :
    Builds st (openGroup s first outer word arguments)
      fun space frame =>
        let holds :=
          reached &&
            (Test.ofWord word arguments).holds m.macros
        frame.Tells space (env.atom answer)
          ⟨reached, holds, holds⟩ := by
  have hReduced := hSound.space.manager.reduced
  unfold openGroup
  by_cases hZero : outer = .zero
  · rw [if_pos hZero]
    have hDead : reached = false := by
      rw [← Bool.not_eq_true]
      rintro rfl
      exact hOuter.ne_zero hSound.space hZero
    apply Builds.pure hSound.space
    refine
      ⟨⟨hOuter.isLive, hReduced.isLive_one,
          hReduced.isLive_zero⟩,
        ?_⟩
    intro s' _ _ a _
    constructor
    · rw [hZero, hDead]
      exact s'.manager.eval_zero a
    · intro hReached
      rw [hDead] at hReached
      cases hReached
    · rw [hDead]
      exact s'.manager.eval_zero a
  · rw [if_neg hZero]
    have hOpening :
        openingCondition s first word arguments =
          testCondition s word arguments := by
      unfold openingCondition
      rw [hNoGuard]
    rw [hOpening]
    have hTest :=
      testCondition_tells (s := s) hSound hTells hOrdinary
    apply hTest.bind
    intro hc
    have hOuter' := hOuter.grows hTest.grows
    have hAnd :=
      Builds.of_space hTest.sound
        (Condition.ensures_tells_and hOuter' hc
          (fun _ : True => trivial)
          fun hReached _ => hTold hReached)
    apply hAnd.bind
    intro hActive
    apply Builds.pure hAnd.sound
    have hc' := hc.grows hAnd.grows
    refine
      ⟨⟨(hOuter'.grows hAnd.grows).isLive, hc'.isLive,
          hActive.isLive⟩,
        ?_⟩
    intro s' hSound' hGrows a ha
    constructor
    · exact
        (hOuter'.grows hAnd.grows).eval_eq trivial s' hSound'
          hGrows a ha
    · intro hReached
      have hReached' : reached = true := hReached
      rw [hReached', Bool.true_and]
      exact
        hc'.eval_eq (hTold hReached') s' hSound' hGrows a ha
    · exact hActive.eval_eq trivial s' hSound' hGrows a ha

/-
  The next branch of a group is reached where its test holds and
  no test before it did. Where the group is decided already the
  test may have any truth.
-/
theorem nextBranch_tells
    (hSound : st.Sound)
    (hTells :
      st.definitions.Tells st.space env answer s.isFree
        m.macros)
    (hOrdinary :
      (Test.ofWord word arguments).isOrdinary = true)
    {frame : Frame}
    {branch : Configuration.Branch}
    (hFrame :
      frame.Tells st.space (env.atom answer) branch)
    (hTold :
      (branch.outer && !branch.taken) = true →
        Told (env.atom answer)
          ((Test.ofWord word arguments).uses
            st.definitions.constant? m.macros)) :
    Builds st (nextBranch s frame word arguments)
      fun space frame' =>
        let holds :=
          branch.outer && !branch.taken &&
            (Test.ofWord word arguments).holds m.macros
        frame'.Tells space (env.atom answer)
          ⟨branch.outer, branch.taken || holds, holds⟩ := by
  let left :=
    Condition.and frame.outer (-frame.taken) st.space
  have hLeft :=
    Builds.of_space hSound.space
      (Condition.ensures_and
        (Space.means_self hFrame.isLive.outer)
        (Space.means_self hFrame.isLive.taken).neg)
  have hFrame' := hFrame.grows hLeft.grows
  -- What is left of the group is told by its branch.
  have hLeftTells :
      left.2.Tells (env.atom answer) True
        (branch.outer && !branch.taken) left.1 :=
    hLeft.post.tells fun _ s' hSound' hGrows a ha =>
      (hFrame'.projects s' hSound' hGrows a ha).left_eq
  apply hLeft.nextBranch
  · intro _ hZero
    have hNone : (branch.outer && !branch.taken) = false := by
      rw [← Bool.not_eq_true]
      intro hSome
      rw [hSome] at hLeftTells
      exact hLeftTells.ne_zero hLeft.sound hZero
    apply Builds.pure hLeft.sound
    refine
      ⟨⟨hFrame'.isLive.outer, hFrame'.isLive.taken,
          hLeft.sound.manager.reduced.isLive_zero⟩,
        ?_⟩
    intro s' hSound' hGrows a ha
    exact
      (hFrame'.projects s' hSound' hGrows a ha).decided hNone
        _
  · intro _ _
    have hSoundLeft : (st.within left.2).Sound :=
      ⟨hLeft.sound, hSound.isLive.grows hLeft.grows⟩
    have hTest :=
      testCondition_tells (s := s) hSoundLeft
        (hTells.grows hLeft.grows) hOrdinary
    apply hTest.bind
    intro hc
    have hNext :=
      advance_projects hTest.sound
        (hFrame'.isLive.grows hTest.grows)
        (hLeft.post.grows hTest.grows)
        (Space.means_self hc.isLive)
    apply hNext.imp
    rintro space frame' hGrowsNext ⟨hLive, hProjects⟩
    refine ⟨hLive, ?_⟩
    intro s' hSound' hGrows a ha
    have hGrowsTest := hGrowsNext.trans hGrows
    have hBranch :=
      hFrame'.projects s' hSound'
        (hTest.grows.trans hGrowsTest) a ha
    apply
      (hProjects s' hSound' hGrows a branch hBranch).retest
    intro hSome
    exact
      hc.eval_eq (hTold hSome) s' hSound' hGrowsTest a ha

end Preprocessor

end Variability
