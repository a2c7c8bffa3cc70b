import Variability.Proofs.Preprocessor.Branches

/-
  Directives in all configurations at once.

  Recording what a directive says under a condition changes the
  statuses of the configurations in which the condition holds. A
  directive leaves frames and definitions that project to what
  each configuration has after the same directive.

  Main declarations:
    * `Preprocessor.Effects`
    * `Preprocessor.Projects`
    * `Preprocessor.consultedAt`
    * `Preprocessor.Follows`
    * `Preprocessor.directive_projects`
-/

namespace Variability

namespace Preprocessor

open InSpace

variable {s : Settings}
variable {st st' : State}
variable {s' s'' : Space}
variable {a : Nat → Bool}
variable {x : Context}
variable {c : Condition}
variable {base : Condition}
variable {stack : List Frame}
variable {d : Directive}

------------------------------------------------------------
-- Effects
------------------------------------------------------------

/-
  A state after the effect of a directive: where its condition
  holds it has the effect in a single configuration, elsewhere
  no status changes.
-/
structure Effects
    (s : Settings)
    (known : Definitions)
    (c : Condition)
    (d : Directive)
    (st st' : State) : Prop where
  sound : st'.Sound
  grows : st.space.Grows st'.space
  status_eq :
    ∀ s', s'.Sound → st'.space.Grows s' → ∀ a,
      Definitions.status s' a st'.definitions =
        if s'.manager.eval c a then
          (configuration s known s' a).effect
            (Definitions.status s' a st.definitions) d
        else
          Definitions.status s' a st.definitions

/- Recording a decision has the effect of the decision. -/
theorem effects_decide
    (hSound : st.Sound)
    (hc : st.space.manager.IsLive c)
    {known : Definitions}
    {name : String}
    {definition : Option Macro}
    (hEffect :
      ∀ s' a status,
        (configuration s known s' a).effect status d =
          Function.update status name
            (Status.ofDefinition definition)) :
    Effects s known c d st
      (decide name definition c st).2 := by
  have hRecord :
      Ensures st.space
        (st.definitions.record name definition c) _ :=
    Definitions.ensures_record hSound.isLive hc definition
  rcases hRecord st.space hSound.space (.refl _) with
    ⟨hSound', hGrows, hRecorded⟩
  refine ⟨⟨hSound', hRecorded.isLive⟩, hGrows, ?_⟩
  intro s' hSound'' hGrows' a
  funext name'
  refine
    (hRecorded.status_eq s' hSound'' hGrows' a name').trans
      ?_
  rw [hEffect]
  cases s'.manager.eval c a with
  | false => simp
  | true => simp [Function.update_apply]

/- A directive without effect changes nothing. -/
theorem effects_self
    (hSound : st.Sound)
    {known : Definitions}
    (hEffect :
      ∀ s' a status,
        (configuration s known s' a).effect status d =
          status) :
    Effects s known c d st st := by
  refine ⟨hSound, .refl _, ?_⟩
  intro s' _ _ a
  rw [hEffect, ite_self]

/- A decision is recorded unless its macro stays open. -/
theorem effects_unlessFree
    (hSound : st.Sound)
    (hc : st.space.manager.IsLive c)
    (known : Definitions)
    {name : String}
    {definition : Option Macro}
    (hRun :
      effect x c d =
        if x.settings.isFree name then pure ()
        else decide name definition c)
    (hEffect :
      ∀ (y : Configuration) status,
        y.effect status d =
          y.decide status name
            (Status.ofDefinition definition)) :
    Effects x.settings known c d st (effect x c d st).2 := by
  rw [hRun]
  cases hFree : x.settings.isFree name with
  | true =>
      apply effects_self hSound
      intro s' a status
      rw [hEffect]
      exact if_pos hFree
  | false =>
      apply effects_decide hSound hc
      intro s' a status
      rw [hEffect]
      apply if_neg
      simp [configuration, hFree]

theorem effects_effect
    (hSound : st.Sound)
    (hc : st.space.manager.IsLive c)
    (known : Definitions)
    (hInclusion : ∀ arguments, d ≠ .inclusion arguments) :
    Effects x.settings known c d st (effect x c d st).2 := by
  cases d with
  | define arguments =>
      cases hParse : Macro.parse arguments with
      | none =>
          have hRun :
              effect x c (.define arguments) = pure () := by
            simp only [effect, define, hParse]
          rw [hRun]
          apply effects_self hSound
          intro s' a status
          simp only [Configuration.effect, hParse]
      | some parsed =>
          rcases parsed with ⟨name, m⟩
          have hRun :
              effect x c (.define arguments) =
                if x.settings.isFree name then pure ()
                else decide name (some m) c := by
            simp only [effect, define, hParse]
          apply effects_unlessFree hSound hc known hRun
          intro y status
          simp only [Configuration.effect, hParse]
          rfl
  | undefine arguments =>
      cases arguments with
      | nil =>
          exact
            effects_self hSound fun _ _ _ => rfl
      | cons t rest =>
          apply effects_unlessFree hSound hc known
          · rfl
          · intro y status
            rfl
  | inclusion arguments =>
      exact absurd rfl (hInclusion arguments)
  | once =>
      have hSame :
          Effects x.settings known c .once st st :=
        effects_self hSound fun _ _ _ => rfl
      exact
        ⟨⟨hSame.sound.space, hSame.sound.isLive⟩,
          hSame.grows, hSame.status_eq⟩
  | opening | alternative | otherwise | closing | other =>
      exact effects_self hSound fun _ _ _ => rfl

------------------------------------------------------------
-- Directives
------------------------------------------------------------

/- The frames and statuses of a single configuration. -/
structure Projects
    (s' : Space)
    (a : Nat → Bool)
    (stack : List Frame)
    (definitions : Definitions)
    (k : Configuration.State) : Prop where
  stack :
    List.Forall₂ (Frame.Projects s' a) stack k.stack
  status_eq :
    Definitions.status s' a definitions = k.status

/- The branch that is read is reached where its condition holds. -/
theorem Projects.eval_current
    {definitions : Definitions}
    {k : Configuration.State}
    (hProjects : Projects s' a stack definitions k)
    (base : Condition) :
    s'.manager.eval (current base stack) a =
      k.isReached (s'.manager.eval base a) := by
  have hStack := hProjects.stack
  unfold Configuration.State.isReached
  cases hBranches : k.stack with
  | nil =>
      rw [hBranches] at hStack
      cases hStack
      rfl
  | cons branch rest =>
      rw [hBranches] at hStack
      cases hStack with
      | cons hFrame _ => exact hFrame.active_eq

theorem isLive_current
    (hBase : s'.manager.IsLive base)
    (hStack : ∀ frame ∈ stack, frame.IsLive s') :
    s'.manager.IsLive (current base stack) := by
  cases stack with
  | nil => exact hBase
  | cons frame rest =>
      exact (hStack frame List.mem_cons_self).active

/-
  The condition that the evaluator gives at a directive, if it
  is asked: tests in dead code are not made, nor tests that no
  configuration is left for.
-/
def consultedAt
    (s : Settings)
    (base : Condition)
    (stack : List Frame)
    (d : Directive)
    (st : State) :
    Option Condition :=
  match d, stack with
  | .opening word arguments, _ =>
      if current base stack = .zero then none
      else evaluated? s word arguments st
  | .alternative word arguments, frame :: _ =>
      let left :=
        Condition.and frame.outer (-frame.taken) st.space
      if left.1 = .zero then none
      else evaluated? s word arguments (st.within left.2)
  | _, _ => none

/- What a directive leaves for the lines behind it. -/
structure Follows
    (x : Context)
    (known : Definitions)
    (first : Bool)
    (stack : List Frame)
    (d : Directive)
    (st : State)
    (out : List Frame × State) : Prop where
  sound : out.2.Sound
  grows : st.space.Grows out.2.space
  isLive : ∀ frame ∈ out.1, frame.IsLive out.2.space
  projects :
    ∀ s', s'.Sound → out.2.space.Grows s' → ∀ a k,
      Projects s' a stack st.definitions k →
      Projects s' a out.1 out.2.definitions
        ((configuration x.settings known s' a).step
          (s'.manager.eval x.base a) first k
          (truth s' a
            (consultedAt x.settings x.base stack d st)) d)

/- A directive that builds the top frame of a stack. -/
theorem Follows.of_builds
    {known : Definitions}
    {first : Bool}
    {f : Run Frame}
    {rest : List Frame}
    {post : Space → Frame → Prop}
    (hSound : st.Sound)
    (hBuilds : Builds st f post)
    (hRest : ∀ frame ∈ rest, frame.IsLive st.space)
    (hFrame : (f st).1.IsLive (f st).2.space)
    (hProjects :
      ∀ s', s'.Sound → (f st).2.space.Grows s' → ∀ a k,
        Projects s' a stack st.definitions k →
        Projects s' a ((f st).1 :: rest) st.definitions
          ((configuration x.settings known s' a).step
            (s'.manager.eval x.base a) first k
            (truth s' a
              (consultedAt x.settings x.base stack d st))
            d)) :
    Follows x known first stack d st
      ((f st).1 :: rest, (f st).2) := by
  refine
    ⟨hSound.of_builds hBuilds, hBuilds.grows, ?_, ?_⟩
  · intro frame hMem
    rcases List.mem_cons.mp hMem with rfl | hMem
    · exact hFrame
    · exact (hRest frame hMem).grows hBuilds.grows
  · intro s' hSound' hGrows a k hRelated
    rw [hBuilds.definitions_eq]
    exact hProjects s' hSound' hGrows a k hRelated

/- A directive that opens or closes no branch. -/
theorem follows_effect
    (hSound : st.Sound)
    {known : Definitions}
    {first : Bool}
    (hBase : st.space.manager.IsLive x.base)
    (hStack : ∀ frame ∈ stack, frame.IsLive st.space)
    (hInclusion : ∀ arguments, d ≠ .inclusion arguments)
    (hRun :
      directive x first stack d st =
        (stack,
          if current x.base stack = .zero then st
          else (effect x (current x.base stack) d st).2))
    (hStep :
      ∀ (y : Configuration) base k t,
        y.step base first k t d =
          if k.isReached base then
            { k with status := y.effect k.status d }
          else k) :
    Follows x known first stack d st
      (directive x first stack d st) := by
  have hCurrent := isLive_current hBase hStack
  have hEffects :
      Effects x.settings known (current x.base stack) d st
        (directive x first stack d st).2 := by
    rw [hRun]
    by_cases hZero : current x.base stack = .zero
    · rw [if_pos hZero]
      refine ⟨hSound, .refl _, ?_⟩
      intro s' _ _ a
      rw [hZero, Diagram.Manager.eval_zero]
      rfl
    · rw [if_neg hZero]
      exact effects_effect hSound hCurrent known hInclusion
  have hSame : (directive x first stack d st).1 = stack := by
    rw [hRun]
  refine ⟨hEffects.sound, hEffects.grows, ?_, ?_⟩
  · rw [hSame]
    intro frame hMem
    exact (hStack frame hMem).grows hEffects.grows
  · intro s' hSound' hGrows a k hRelated
    rw [hSame, hStep]
    have hStatus :=
      hEffects.status_eq s' hSound' hGrows a
    rw [hRelated.eval_current, hRelated.status_eq] at hStatus
    by_cases hReached :
        k.isReached (s'.manager.eval x.base a) = true
    · rw [if_pos hReached] at hStatus ⊢
      exact ⟨hRelated.stack, hStatus⟩
    · rw [if_neg hReached] at hStatus ⊢
      exact ⟨hRelated.stack, hStatus⟩

theorem run_effect
    (x : Context)
    (c : Condition)
    (stack : List Frame)
    (d : Directive)
    (st : State) :
    (do
      if c ≠ .zero then
        effect x c d
      return stack : Run (List Frame)) st =
      (stack, if c = .zero then st else (effect x c d st).2) := by
  by_cases hZero : c = .zero
  · simp only [hZero, ne_eq, not_true_eq_false, if_false,
      if_true]
    rfl
  · simp only [hZero, ne_eq, not_false_eq_true, if_false,
      if_true]
    rfl

/- A directive that only changes the stack. -/
theorem follows_stack
    (hSound : st.Sound)
    {known : Definitions}
    {first : Bool}
    {out : List Frame × State}
    (hSpace : out.2.space = st.space)
    (hDefinitions : out.2.definitions = st.definitions)
    (hStack : ∀ frame ∈ out.1, frame.IsLive st.space)
    (hProjects :
      ∀ s' a k,
        Projects s' a stack st.definitions k →
        Projects s' a out.1 st.definitions
          ((configuration x.settings known s' a).step
            (s'.manager.eval x.base a) first k
            (truth s' a
              (consultedAt x.settings x.base stack d st))
            d)) :
    Follows x known first stack d st out := by
  rcases out with ⟨frames, ⟨space, definitions, once, log⟩⟩
  cases hSpace
  cases hDefinitions
  exact
    ⟨⟨hSound.space, hSound.isLive⟩, .refl _, hStack,
      fun s' _ _ a k => hProjects s' a k⟩

/- A directive that needs an open group does nothing without one. -/
theorem follows_alone
    (hSound : st.Sound)
    {known : Definitions}
    {first : Bool}
    {out : List Frame × State}
    (hSpace : out.2.space = st.space)
    (hDefinitions : out.2.definitions = st.definitions)
    (hNone : out.1 = [])
    (hStep :
      ∀ (y : Configuration) base status t,
        y.step base first ⟨[], status⟩ t d = ⟨[], status⟩) :
    Follows x known first [] d st out := by
  apply follows_stack hSound hSpace hDefinitions
  · rw [hNone]
    intro frame hMem
    cases hMem
  · intro s' a k hRelated
    rcases k with ⟨branches, status⟩
    rw [hNone]
    rcases hRelated with ⟨hBranches, hStatus⟩
    cases hBranches
    rw [hStep]
    exact ⟨.nil, hStatus⟩

/- A directive that builds another frame for the top of a stack. -/
theorem follows_branch
    (hSound : st.Sound)
    {known : Definitions}
    {first : Bool}
    {f : Run Frame}
    {frame : Frame}
    {rest : List Frame}
    {post : Space → Frame → Prop}
    (hBuilds : Builds st f post)
    (hStack :
      ∀ frame' ∈ frame :: rest, frame'.IsLive st.space)
    (hFrame : (f st).1.IsLive (f st).2.space)
    (hProjects :
      ∀ s', s'.Sound → (f st).2.space.Grows s' →
        ∀ a branch branches status,
          frame.Projects s' a branch →
          Definitions.status s' a st.definitions = status →
          ∃ branch',
            (f st).1.Projects s' a branch' ∧
              (configuration x.settings known s' a).step
                  (s'.manager.eval x.base a) first
                  ⟨branch :: branches, status⟩
                  (truth s' a
                    (consultedAt x.settings x.base
                      (frame :: rest) d st))
                  d =
                ⟨branch' :: branches, status⟩) :
    Follows x known first (frame :: rest) d st
      ((f st).1 :: rest, (f st).2) := by
  apply Follows.of_builds hSound hBuilds _ hFrame
  · intro s' hSound' hGrows a k hRelated
    rcases k with ⟨branches, status⟩
    rcases hRelated with ⟨hBranches, hStatus⟩
    cases hBranches with
    | @cons _ branch _ branches hTop hBelow =>
        rcases
            hProjects s' hSound' hGrows a branch branches
              status hTop hStatus with
          ⟨branch', hBranch, hStep⟩
        rw [hStep]
        exact ⟨.cons hBranch hBelow, hStatus⟩
  · intro frame' hMem
    exact hStack frame' (List.mem_cons_of_mem _ hMem)

/- Every directive is followed as in each configuration. -/
theorem directive_projects
    (hSound : st.Sound)
    {known : Definitions}
    {first : Bool}
    (hFirst : first = true → known = st.definitions)
    (hBase : st.space.manager.IsLive x.base)
    (hStack : ∀ frame ∈ stack, frame.IsLive st.space)
    (hInclusion : ∀ arguments, d ≠ .inclusion arguments) :
    Follows x known first stack d st
      (directive x first stack d st) := by
  have hCurrent := isLive_current hBase hStack
  cases d with
  | opening word arguments =>
      have hOpen :=
        openGroup_projects (s := x.settings) hSound hFirst
          hCurrent word arguments
      apply Follows.of_builds hSound hOpen hStack hOpen.post.1
      intro s' hSound' hGrows a k hRelated
      have hFrame :=
        hOpen.post.2 s' hSound' hGrows a
          (truth s' a
            (consultedAt x.settings x.base stack
              (.opening word arguments) st))
          (fun hLive => by
            rw [consultedAt, if_neg hLive])
      rw [hRelated.status_eq, hRelated.eval_current] at hFrame
      exact ⟨.cons hFrame hRelated.stack, hRelated.status_eq⟩
  | alternative word arguments =>
      cases stack with
      | nil =>
          exact
            follows_alone hSound rfl rfl rfl
              fun _ _ _ _ => rfl
      | cons frame rest =>
          have hNext :=
            nextBranch_projects (s := x.settings) hSound known
              (hStack frame List.mem_cons_self) word
              arguments
          apply
            follows_branch hSound hNext hStack hNext.post.1
          intro s' hSound' hGrows a branch _ status hTop
            hStatus
          have hFrame :=
            hNext.post.2 s' hSound' hGrows a
              (truth s' a
                (consultedAt x.settings x.base
                  (frame :: rest)
                  (.alternative word arguments) st))
              branch hTop
              (fun hLeft => by
                rw [consultedAt]
                exact congrArg (truth s' a) (if_neg hLeft))
          rw [hStatus] at hFrame
          exact ⟨_, hFrame, rfl⟩
  | otherwise =>
      cases stack with
      | nil =>
          exact
            follows_alone hSound rfl rfl rfl
              fun _ _ _ _ => rfl
      | cons frame rest =>
          have hLast :=
            lastBranch_projects hSound
              (hStack frame List.mem_cons_self)
          apply
            follows_branch hSound hLast hStack hLast.post.1
          intro s' hSound' hGrows a branch _ _ hTop _
          have hFrame :=
            hLast.post.2 s' hSound' hGrows a branch hTop
          exact ⟨_, hFrame, rfl⟩
  | closing =>
      cases stack with
      | nil =>
          exact
            follows_alone hSound rfl rfl rfl
              fun _ _ _ _ => rfl
      | cons frame rest =>
          apply follows_stack hSound rfl rfl
          · intro frame' hMem
            exact hStack frame' (List.mem_cons_of_mem _ hMem)
          · intro s' a k hRelated
            rcases k with ⟨branches, status⟩
            rcases hRelated with ⟨hBranches, hStatus⟩
            cases hBranches with
            | cons _ hBelow => exact ⟨hBelow, hStatus⟩
  | inclusion arguments =>
      exact absurd rfl (hInclusion arguments)
  | define | undefine | once | other =>
      apply follows_effect hSound hBase hStack hInclusion
      · exact run_effect x _ stack _ st
      · intro y base k t
        rfl

end Preprocessor

end Variability
