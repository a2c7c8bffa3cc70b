import Variability.Proofs.Expression.Evaluation
import Variability.Proofs.Preprocessor.Configuration

/-
  Groups of branches in all configurations at once.

  A test builds a condition that holds in the configurations in
  which the test holds. A frame of conditions projects to a
  branch of truth values in each of them, and opening a group or
  going on to its next branch keeps this.

  Main declarations:
    * `Preprocessor.Builds`
    * `Preprocessor.testCondition_means`
    * `Preprocessor.Frame.Projects`
    * `Preprocessor.openGroup_projects`
    * `Preprocessor.nextBranch_projects`
-/

namespace Variability

namespace Preprocessor

open InSpace

variable {s : Settings}
variable {st st' : State}
variable {s' s'' : Space}
variable {a : Nat → Bool}

------------------------------------------------------------
-- Sound States
------------------------------------------------------------

/- A sound space in which all definitions are live. -/
structure State.Sound (st : State) : Prop where
  space : st.space.Sound
  isLive : Definitions.IsLive st.space st.definitions

/- Building a condition leaves the definitions alone. -/
structure Builds
    {α : Type}
    (st : State)
    (f : Run α)
    (post : Space → α → Prop) : Prop where
  definitions_eq : (f st).2.definitions = st.definitions
  sound : (f st).2.space.Sound
  grows : st.space.Grows (f st).2.space
  post : post (f st).2.space (f st).1

namespace Builds

variable {α β : Type}
variable {post : Space → α → Prop}
variable {post' : Space → β → Prop}

theorem of_ensures
    {f : Definitions → InSpace α}
    (hSound : st.space.Sound)
    (hEnsures :
      Ensures st.space (f st.definitions) post) :
    Builds st (build f) post := by
  rcases hEnsures st.space hSound (.refl _) with
    ⟨hSound', hGrows, hPost⟩
  exact ⟨rfl, hSound', hGrows, hPost⟩

theorem of_space
    {f : InSpace α}
    (hSound : st.space.Sound)
    (hEnsures : Ensures st.space f post) :
    Builds st (build fun _ => f) post :=
  of_ensures hSound hEnsures

theorem pure
    {x : α}
    (hSound : st.space.Sound)
    (hPost : post st.space x) :
    Builds st (Pure.pure x) post :=
  ⟨rfl, hSound, .refl _, hPost⟩

theorem imp
    {f : Run α}
    {post'' : Space → α → Prop}
    (hBuilds : Builds st f post)
    (hPost :
      ∀ s x, st.space.Grows s → post s x → post'' s x) :
    Builds st f post'' :=
  ⟨hBuilds.definitions_eq, hBuilds.sound, hBuilds.grows,
    hPost _ _ hBuilds.grows hBuilds.post⟩

theorem bind
    {f : Run α}
    {g : α → Run β}
    (hFirst : Builds st f post)
    (hRest :
      post (f st).2.space (f st).1 →
        Builds (f st).2 (g (f st).1) post') :
    Builds st (f >>= g) post' := by
  have hNext := hRest hFirst.post
  exact
    ⟨hNext.definitions_eq.trans hFirst.definitions_eq,
      hNext.sound, hFirst.grows.trans hNext.grows,
      hNext.post⟩

end Builds

theorem State.Sound.of_builds
    {α : Type}
    {f : Run α}
    {post : Space → α → Prop}
    (hSound : st.Sound)
    (hBuilds : Builds st f post) :
    (f st).2.Sound where
  space := hBuilds.sound
  isLive := by
    rw [hBuilds.definitions_eq]
    exact hSound.isLive.grows hBuilds.grows

------------------------------------------------------------
-- Tests
------------------------------------------------------------

/- The single configuration of an assignment. -/
def configuration
    (s : Settings)
    (known : Definitions)
    (s' : Space)
    (a : Nat → Bool) :
    Configuration where
  atom := s'.atomValue a
  isFree := s.isFree
  isKnown := known.contains

/- What the evaluator makes of the expression of a test. -/
def evaluated?
    (s : Settings)
    (word : String)
    (arguments : List Token)
    (st : State) :
    Option Condition :=
  if word = "if" ∨ word = "elif" then
    some
      (Evaluator.condition ⟨st.definitions, s.isFree⟩
        arguments st.space).1
  else
    none

/- Whether a condition that was asked for holds. -/
def truth
    (s' : Space)
    (a : Nat → Bool)
    (c? : Option Condition) :
    Bool :=
  c?.any (s'.manager.eval · a)

variable {word : String}
variable {arguments : List Token}

/- An expression has the value that it is told to have. -/
theorem expression_means
    (hSound : st.Sound)
    (hWord : word = "if" ∨ word = "elif")
    (known : Definitions) :
    Builds st
      (build fun definitions =>
        Evaluator.condition ⟨definitions, s.isFree⟩
          arguments)
      fun space c =>
        space.Means
          (fun s' a =>
            (configuration s known s' a).test
              (Definitions.status s' a st.definitions)
              (truth s' a (evaluated? s word arguments st))
              word arguments)
          c := by
  have hCondition :=
    Evaluator.ensures_condition
      (e := ⟨st.definitions, s.isFree⟩) hSound.isLive
      arguments
  rcases hCondition st.space hSound.space (.refl _) with
    ⟨hSound', hGrows, hLive⟩
  refine ⟨rfl, hSound', hGrows, hLive, ?_⟩
  intro s' _ _ a
  simp only [Configuration.test, evaluated?, hWord, if_true,
    truth, Option.any_some]
  rfl

/- A test for definedness asks whether the macro is defined. -/
theorem definedness_means
    (hSound : st.Sound)
    {t : Token}
    {rest : List Token}
    (hWord : ¬ (word = "if" ∨ word = "elif"))
    (hKind : t.kind = .identifier)
    (known : Definitions)
    (holds : Bool) :
    Builds st
      (build fun definitions => do
        let c ← definitions.whetherDefined t.text
        return if
          Decidable.decide
            (word ≠ "ifndef" ∧ word ≠ "elifndef") then c
        else -c)
      fun space c =>
        space.Means
          (fun s' a =>
            (configuration s known s' a).test
              (Definitions.status s' a st.definitions)
              holds word (t :: rest))
          c := by
  apply Builds.of_ensures hSound.space
  apply
    (Definitions.ensures_whetherDefined hSound.isLive
      t.text).bind
  intro s' c _ _ hDefined
  apply Ensures.pure
  intro s'' _ hGrows
  have hDefined' := hDefined.grows hGrows
  by_cases hNegated : word = "ifndef" ∨ word = "elifndef"
  · have hNot :
        ¬ (word ≠ "ifndef" ∧ word ≠ "elifndef") := by
      rintro ⟨hFirst, hSecond⟩
      exact hNegated.elim hFirst hSecond
    rw [decide_eq_false hNot]
    apply hDefined'.neg.congr
    intro s₃ _ _ a
    simp only [Configuration.test, hWord, hKind, hNegated,
      if_true, if_false]
    rfl
  · rw [decide_eq_true (not_or.mp hNegated)]
    apply hDefined'.congr
    intro s₃ _ _ a
    simp only [Configuration.test, hWord, hKind, hNegated,
      if_true, if_false]
    rfl

/- A test that names no macro has the value of its atom. -/
theorem unnamed_means
    (hSound : st.Sound)
    (hWord : ¬ (word = "if" ∨ word = "elif"))
    (hUnnamed :
      ∀ t ∈ arguments.head?, t.kind ≠ .identifier)
    (known : Definitions)
    (holds : Bool) :
    Builds st
      (build fun _ => Condition.verbatim
        ("#" ++ word ++ " " ++ Token.spell arguments))
      fun space c =>
        space.Means
          (fun s' a =>
            (configuration s known s' a).test
              (Definitions.status s' a st.definitions)
              holds word arguments)
          c := by
  have hVerbatim :
      Builds st
        (build fun _ => Condition.verbatim
          ("#" ++ word ++ " " ++ Token.spell arguments))
        fun space c =>
          space.Means
            (fun s' a => s'.atomValue a
              (.verbatim ("#" ++ word ++ " " ++
                Token.spell arguments)))
            c :=
    .of_ensures hSound.space (Condition.ensures_atom _)
  apply hVerbatim.imp
  intro s' c _ hMeans
  apply hMeans.congr
  intro s'' _ _ a
  cases arguments with
  | nil => simp [Configuration.test, hWord, configuration]
  | cons t rest =>
      have hKind := hUnnamed t rfl
      simp [Configuration.test, hWord, configuration, hKind]

/- A test has the value it has in each configuration. -/
theorem testCondition_means
    (hSound : st.Sound)
    (known : Definitions)
    (word : String)
    (arguments : List Token) :
    Builds st (testCondition s word arguments)
      fun space c =>
        space.Means
          (fun s' a =>
            (configuration s known s' a).test
              (Definitions.status s' a st.definitions)
              (truth s' a (evaluated? s word arguments st))
              word arguments)
          c := by
  unfold testCondition Test.ofWord
  by_cases hWord : word = "if" ∨ word = "elif"
  · rw [if_pos hWord]
    exact expression_means hSound hWord known
  rw [if_neg hWord]
  have hNone : evaluated? s word arguments st = none :=
    if_neg hWord
  rw [hNone]
  cases arguments with
  | nil =>
      apply unnamed_means hSound hWord _ known
      intro t ht
      cases ht
  | cons t rest =>
      by_cases hKind : t.kind = .identifier
      · have hNamed :
            (t :: rest).head?.filter
                (·.kind = .identifier) =
              some t := by
          simp [Option.filter, hKind]
        rw [hNamed]
        exact definedness_means hSound hWord hKind known _
      · have hUnnamed :
            (t :: rest).head?.filter
                (·.kind = .identifier) =
              none := by
          simp [Option.filter, hKind]
        rw [hUnnamed]
        apply unnamed_means hSound hWord _ known
        intro t' ht'
        cases ht'
        exact hKind

/- The test of an opening, on the first line and elsewhere. -/
theorem openingCondition_means
    (hSound : st.Sound)
    {known : Definitions}
    {first : Bool}
    (hFirst : first = true → known = st.definitions)
    (word : String)
    (arguments : List Token) :
    Builds st (openingCondition s first word arguments)
      fun space c =>
        space.Means
          (fun s' a =>
            (configuration s known s' a).openingTest first
              (Definitions.status s' a st.definitions)
              (truth s' a (evaluated? s word arguments st))
              word arguments)
          c := by
  have hTest :=
    testCondition_means (s := s) hSound known word arguments
  unfold openingCondition Configuration.openingTest
  cases hGuard : first && word == "ifndef" with
  | false => exact hTest
  | true =>
      cases arguments with
      | nil => exact hTest
      | cons t rest =>
          have hKnown : known = st.definitions := by
            apply hFirst
            rw [Bool.and_eq_true] at hGuard
            exact hGuard.1
          have hAsk :
              Builds st
                (build fun definitions =>
                  pure (isGuard s definitions t.text))
                fun _ b =>
                  b = isGuard s st.definitions t.text :=
            ⟨rfl, hSound.space, .refl _, rfl⟩
          apply hAsk.bind
          intro _
          change
            Builds st
              (if isGuard s st.definitions t.text then
                  pure .one
                else
                  testCondition s word (t :: rest)) _
          cases hFree : s.isFree t.text <;>
            cases hContains :
              st.definitions.contains t.text <;>
            simp only [isGuard, hFree, hContains, hKnown,
              configuration, Bool.not_true, Bool.not_false,
              Bool.and_true, Bool.and_false,
              Bool.or_true, Bool.or_false, if_true,
              Bool.false_eq_true, if_false] at hTest ⊢
          · apply Builds.pure hSound.space
            exact
              ⟨hSound.space.manager.reduced.isLive_one,
                fun s' _ _ a =>
                  s'.manager.eval_one a⟩
          · exact hTest
          · exact hTest
          · exact hTest

------------------------------------------------------------
-- Frames
------------------------------------------------------------

/- A frame whose conditions are live. -/
structure Frame.IsLive (s' : Space) (frame : Frame) : Prop where
  outer : s'.manager.IsLive frame.outer
  taken : s'.manager.IsLive frame.taken
  active : s'.manager.IsLive frame.active

theorem Frame.IsLive.grows
    {frame : Frame}
    (hLive : frame.IsLive s')
    (hGrows : s'.Grows s'') :
    frame.IsLive s'' :=
  ⟨hGrows.isLive hLive.outer, hGrows.isLive hLive.taken,
    hGrows.isLive hLive.active⟩

/-
  A frame has the truth values of a branch under an assignment.
  Where the group is not reached, nothing is said about the
  tests so far: no test is made in code that is dead everywhere.
-/
structure Frame.Projects
    (s' : Space)
    (a : Nat → Bool)
    (frame : Frame)
    (branch : Configuration.Branch) : Prop where
  outer_eq : s'.manager.eval frame.outer a = branch.outer
  taken_eq :
    branch.outer = true →
      s'.manager.eval frame.taken a = branch.taken
  active_eq : s'.manager.eval frame.active a = branch.active

/- What is left of a group is where it is reached and no test held. -/
theorem Frame.Projects.left_eq
    {frame : Frame}
    {branch : Configuration.Branch}
    (hProjects : frame.Projects s' a branch) :
    (s'.manager.eval frame.outer a &&
        !s'.manager.eval frame.taken a) =
      (branch.outer && !branch.taken) := by
  rw [hProjects.outer_eq]
  cases hOuter : branch.outer with
  | false => rfl
  | true => rw [hProjects.taken_eq hOuter]

/- A group stays as it is where no configuration is left. -/
theorem Frame.Projects.skip
    {frame : Frame}
    {branch : Configuration.Branch}
    (hProjects : frame.Projects s' a branch)
    (hNone : (branch.outer && !branch.taken) = false)
    (holds : Bool) :
    Frame.Projects s' a { frame with active := .zero }
      ⟨branch.outer, branch.taken || holds,
        branch.outer && !branch.taken && holds⟩ := by
  constructor
  · exact hProjects.outer_eq
  · intro hReached
    have hOuter : branch.outer = true := hReached
    rw [hOuter, Bool.true_and, Bool.not_eq_false'] at hNone
    rw [hProjects.taken_eq hOuter, hNone, Bool.true_or]
  · change s'.manager.eval .zero a = _
    rw [Diagram.Manager.eval_zero, hNone, Bool.false_and]

/- A group goes on to a branch whose test holds somewhere. -/
theorem Frame.Projects.next
    {frame : Frame}
    {branch : Configuration.Branch}
    {taken active : Condition}
    {holds : Bool}
    (hProjects : frame.Projects s' a branch)
    (hTaken :
      s'.manager.eval taken a =
        (s'.manager.eval frame.taken a || holds))
    (hActive :
      s'.manager.eval active a =
        (s'.manager.eval frame.outer a &&
            !s'.manager.eval frame.taken a &&
          holds)) :
    Frame.Projects s' a { frame with taken, active }
      ⟨branch.outer, branch.taken || holds,
        branch.outer && !branch.taken && holds⟩ := by
  constructor
  · exact hProjects.outer_eq
  · intro hReached
    exact
      hTaken.trans
        (congrArg (· || holds) (hProjects.taken_eq hReached))
  · exact
      hActive.trans
        (congrArg (· && holds) hProjects.left_eq)

/- A new group is reached where the code around it is. -/
theorem openGroup_projects
    (hSound : st.Sound)
    {known : Definitions}
    {first : Bool}
    (hFirst : first = true → known = st.definitions)
    {outer : Condition}
    (hOuter : st.space.manager.IsLive outer)
    (word : String)
    (arguments : List Token) :
    Builds st (openGroup s first outer word arguments)
      fun space frame =>
        frame.IsLive space ∧
          ∀ s', s'.Sound → space.Grows s' → ∀ a t,
            (outer ≠ .zero →
              t = truth s' a
                (evaluated? s word arguments st)) →
            let holds :=
              (configuration s known s' a).openingTest first
                (Definitions.status s' a st.definitions) t
                word arguments
            frame.Projects s' a
              ⟨s'.manager.eval outer a, holds,
                s'.manager.eval outer a && holds⟩ := by
  have hReduced := hSound.space.manager.reduced
  unfold openGroup
  by_cases hZero : outer = .zero
  · rw [if_pos hZero]
    apply Builds.pure hSound.space
    refine
      ⟨⟨hOuter, hReduced.isLive_one, hReduced.isLive_zero⟩,
        ?_⟩
    intro s' _ _ a t _
    constructor
    · rfl
    · intro hReached
      simp [hZero] at hReached
    · simp [hZero]
  · rw [if_neg hZero]
    have hOpening :=
      openingCondition_means (s := s) hSound hFirst word
        arguments
    apply hOpening.bind
    intro hTest
    have hOuter' := hOpening.grows.isLive hOuter
    have hAnd :=
      Builds.of_space hOpening.sound
        (Condition.ensures_and (Space.means_self hOuter')
          hTest)
    apply hAnd.bind
    intro hActive
    apply Builds.pure hAnd.sound
    have hTest' := hTest.grows hAnd.grows
    refine
      ⟨⟨hAnd.grows.isLive hOuter', hTest'.isLive,
          hActive.isLive⟩,
        ?_⟩
    intro s' hSound' hGrows a t ht
    rw [ht hZero]
    constructor
    · rfl
    · intro _
      exact hTest'.eval_eq s' hSound' hGrows a
    · exact hActive.eval_eq s' hSound' hGrows a

/-
  A group goes on to a branch by what is left of it and by a
  test: the branch is where both hold, and from there on one of
  the tests has held.
-/
theorem advance_projects
    (hSound : st.space.Sound)
    {frame : Frame}
    (hFrame : frame.IsLive st.space)
    {left c : Condition}
    (hLeft :
      st.space.Means
        (fun s' a =>
          s'.manager.eval frame.outer a &&
            !s'.manager.eval frame.taken a)
        left)
    {holds : Space → (Nat → Bool) → Bool}
    (hTest : st.space.Means holds c) :
    Builds st
      (do
        let active ← build fun _ => Condition.and left c
        let taken ← build fun _ => Condition.or frame.taken c
        return { frame with taken, active })
      fun space frame' =>
        frame'.IsLive space ∧
          ∀ s', s'.Sound → space.Grows s' → ∀ a branch,
            frame.Projects s' a branch →
            frame'.Projects s' a
              ⟨branch.outer, branch.taken || holds s' a,
                branch.outer && !branch.taken &&
                  holds s' a⟩ := by
  have hActive :=
    Builds.of_space hSound
      (Condition.ensures_and hLeft hTest)
  apply hActive.bind
  intro hActiveMeans
  have hTaken := Space.means_self hFrame.taken
  have hTakenNext :=
    Builds.of_space hActive.sound
      (Condition.ensures_or (hTaken.grows hActive.grows)
        (hTest.grows hActive.grows))
  apply hTakenNext.bind
  intro hTakenMeans
  apply Builds.pure hTakenNext.sound
  have hActiveMeans' := hActiveMeans.grows hTakenNext.grows
  have hGrowsAll := hActive.grows.trans hTakenNext.grows
  refine
    ⟨⟨hGrowsAll.isLive hFrame.outer, hTakenMeans.isLive,
        hActiveMeans'.isLive⟩,
      ?_⟩
  intro s' hSound' hGrows a branch hProjects
  apply hProjects.next
  · exact hTakenMeans.eval_eq s' hSound' hGrows a
  · exact hActiveMeans'.eval_eq s' hSound' hGrows a

/- A state in a space that has grown from its own. -/
def State.within (st : State) (s' : Space) : State :=
  { st with space := s' }

/-
  A group goes on to its next branch by what is left of it: where
  that is nothing no test is made.
-/
theorem Builds.nextBranch
    {frame : Frame}
    {kept : Space → Condition → Prop}
    {post : Space → Frame → Prop}
    (hLeft :
      Builds st
        (build fun _ =>
          Condition.and frame.outer (-frame.taken))
        kept)
    (hDecided :
      let left :=
        Condition.and frame.outer (-frame.taken) st.space
      left.1 = .zero →
        Builds (st.within left.2)
          (Pure.pure { frame with active := .zero }) post)
    (hOpen :
      let left :=
        Condition.and frame.outer (-frame.taken) st.space
      left.1 ≠ .zero →
        Builds (st.within left.2)
          (do
            let c ← testCondition s word arguments
            let active ← build fun _ => Condition.and left.1 c
            let taken ←
              build fun _ => Condition.or frame.taken c
            return { frame with taken, active })
          post) :
    Builds st (nextBranch s frame word arguments) post := by
  let left :=
    Condition.and frame.outer (-frame.taken) st.space
  unfold Preprocessor.nextBranch
  apply hLeft.bind
  intro _
  change
    Builds (st.within left.2)
      (if left.1 = .zero then
          Pure.pure { frame with active := .zero }
        else do
          let c ← testCondition s word arguments
          let active ← build fun _ => Condition.and left.1 c
          let taken ←
            build fun _ => Condition.or frame.taken c
          return { frame with taken, active }) post
  by_cases hZero : left.1 = .zero
  · rw [if_pos hZero]
    exact hDecided hZero
  · rw [if_neg hZero]
    exact hOpen hZero

/-
  The next branch of a group is reached where no branch before
  it was. Where no such configuration is left its test is not
  made, and that one of the tests held is true already.
-/
theorem nextBranch_projects
    (hSound : st.Sound)
    (known : Definitions)
    {frame : Frame}
    (hFrame : frame.IsLive st.space)
    (word : String)
    (arguments : List Token) :
    let left :=
      Condition.and frame.outer (-frame.taken) st.space
    Builds st (nextBranch s frame word arguments)
      fun space frame' =>
        frame'.IsLive space ∧
          ∀ s', s'.Sound → space.Grows s' → ∀ a t branch,
            frame.Projects s' a branch →
            (left.1 ≠ .zero →
              t = truth s' a
                (evaluated? s word arguments
                  (st.within left.2))) →
            let holds :=
              (configuration s known s' a).test
                (Definitions.status s' a st.definitions) t
                word arguments
            frame'.Projects s' a
              ⟨branch.outer, branch.taken || holds,
                branch.outer && !branch.taken && holds⟩ := by
  intro left
  have hOuter := Space.means_self hFrame.outer
  have hTaken := Space.means_self hFrame.taken
  have hLeft :=
    Builds.of_space hSound.space
      (Condition.ensures_and hOuter hTaken.neg)
  have hLeftMeans := hLeft.post
  have hFrame' : frame.IsLive left.2 :=
    hFrame.grows hLeft.grows
  apply hLeft.nextBranch
  · intro _ hZero
    apply Builds.pure hLeft.sound
    have hReduced := hLeft.sound.manager.reduced
    refine
      ⟨⟨hFrame'.outer, hFrame'.taken,
          hReduced.isLive_zero⟩,
        ?_⟩
    intro s' hSound' hGrows a t branch hProjects _
    apply hProjects.skip
    rw [← hProjects.left_eq,
      ← hLeftMeans.eval_eq s' hSound' hGrows]
    change s'.manager.eval left.1 a = false
    rw [hZero, Diagram.Manager.eval_zero]
  · intro _ hOpen
    have hSoundLeft : (st.within left.2).Sound :=
      ⟨hLeft.sound, hSound.isLive.grows hLeft.grows⟩
    have hTest :=
      testCondition_means (s := s) hSoundLeft known word
        arguments
    apply hTest.bind
    intro hTestMeans
    have hNext :=
      advance_projects hTest.sound
        (hFrame'.grows hTest.grows)
        (hLeftMeans.grows hTest.grows) hTestMeans
    apply hNext.imp
    rintro space frame' - ⟨hLive, hProjects⟩
    refine ⟨hLive, ?_⟩
    intro s' hSound' hGrows a t branch hBranch ht
    rw [ht hOpen]
    exact hProjects s' hSound' hGrows a branch hBranch

/- The last branch is reached where no branch before it was. -/
theorem lastBranch_projects
    (hSound : st.Sound)
    {frame : Frame}
    (hFrame : frame.IsLive st.space) :
    Builds st (lastBranch frame) fun space frame' =>
      frame'.IsLive space ∧
        ∀ s', s'.Sound → space.Grows s' → ∀ a branch,
          frame.Projects s' a branch →
          frame'.Projects s' a
            ⟨branch.outer, true,
              branch.outer && !branch.taken⟩ := by
  have hLeft :=
    Builds.of_space hSound.space
      (Condition.ensures_and (Space.means_self hFrame.outer)
        (Space.means_self hFrame.taken).neg)
  unfold lastBranch
  apply hLeft.bind
  intro hActive
  apply Builds.pure hLeft.sound
  have hReduced := hLeft.sound.manager.reduced
  refine
    ⟨⟨hLeft.grows.isLive hFrame.outer,
        hReduced.isLive_one, hActive.isLive⟩,
      ?_⟩
  intro s' hSound' hGrows a branch hProjects
  constructor
  · exact hProjects.outer_eq
  · intro _
    exact s'.manager.eval_one a
  · rw [hActive.eval_eq s' hSound' hGrows,
      hProjects.left_eq]

end Preprocessor

end Variability
