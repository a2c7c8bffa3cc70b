import Variability.Proofs.Preprocessor.Recording
import Variability.Proofs.Preprocessor.Tracking

/-
  Lines beside the same lines in each configuration.

  If the files that some lines include are read as in each
  configuration, then so are the lines: the frames project to the
  branches, the definitions to the statuses, and the files that a
  configuration has marked are among those that are not read
  again.

  Main declarations:
    * `Preprocessor.Accompanies`
    * `Preprocessor.directive_beside`
    * `Preprocessor.ReadsBeside`
    * `Preprocessor.readLines_beside`
-/

namespace Variability

namespace Preprocessor

open Variability.Configuration (Branch Entering Memory Notes)

variable {s : Settings}
variable {st st' : State}
variable {s' : Space}
variable {a : Nat → Bool}
variable {x : Context}
variable {c : Condition}
variable {stack : List Frame}
variable {d : Directive}
variable {m : Memory}
variable {first : Bool}

------------------------------------------------------------
-- Directives
------------------------------------------------------------

/- A memory that a configuration has in a state of the run. -/
structure State.Agrees
    (st : State)
    (s' : Space)
    (a : Nat → Bool)
    (m : Memory) : Prop where
  status_eq : Definitions.status s' a st.definitions = m.status
  once_subset : m.once ⊆ st.once

/-
  A step of the run beside a step of each configuration, with
  what happens on the way to files that are read once.
-/
structure Accompanies
    (st st' : State)
    (es : List (Event × Condition))
    (next : Space → (Nat → Bool) → Memory → Memory) :
    Prop where
  sound : st'.Sound
  grows : st.space.Grows st'.space
  agrees :
    ∀ s', s'.Sound → st'.space.Grows s' → ∀ a m,
      st.Agrees s' a m →
      IsFair s' a m.once es →
      st'.Agrees s' a (next s' a m) ∧
        (next s' a m).once = marked s' a m.once es

/- A directive of the run beside the directive in a configuration. -/
structure FollowsBeside
    (x : Context)
    (enter : Space → (Nat → Bool) → Entering)
    (here : Option (Event × Condition) × Notes Note)
    (stack : List Frame)
    (d : Directive)
    (st : State)
    (out : List Frame × State) : Prop where
  sound : out.2.Sound
  grows : st.space.Grows out.2.space
  isLive : ∀ frame ∈ out.1, frame.IsLive out.2.space
  agrees :
    ∀ s', s'.Sound → out.2.space.Grows s' →
      ∀ a branches m behind,
        List.Forall₂ (Frame.Projects s' a) stack branches →
        st.Agrees s' a m →
        IsFair s' a m.once (eventsOf here) →
        let next :=
          (configuration x.settings [] s' a).follow x.path
            (enter s' a) (s'.manager.eval x.base a)
            (.line
              (truth s' a
                (consultedAt x.settings x.base stack d st))
              (here.2.map (tell s' a)) behind)
            branches m d
        List.Forall₂ (Frame.Projects s' a) out.1 next.1 ∧
          out.2.Agrees s' a next.2 ∧
          next.2.once = marked s' a m.once (eventsOf here)

/- Only an opening with `#ifndef` depends on what was known. -/
theorem step_first
    (hGuard :
      first = true → ∀ arguments, d ≠ .opening "ifndef" arguments)
    (known : Definitions)
    (base : Bool)
    (k : Configuration.State)
    (t : Bool) :
    (configuration s known s' a).step base first k t d =
      (configuration s [] s' a).step base false k t d := by
  cases d with
  | opening word arguments =>
      have hNot : (first && word == "ifndef") = false := by
        rw [Bool.and_eq_false_imp]
        rintro hFirst
        rw [beq_eq_false_iff_ne]
        rintro rfl
        exact hGuard hFirst arguments rfl
      simp only [Configuration.step, Configuration.openingTest,
        hNot, Bool.false_and]
      rfl
  | _ => rfl

/- A file is marked in the configurations that reach its mark. -/
theorem State.Agrees.markOnce
    (hAgrees : st.Agrees s' a m)
    (path : Path)
    (c : Condition) :
    let next : Memory :=
      if s'.manager.eval c a then
        { m with once := path.normalize :: m.once }
      else m
    (Preprocessor.markOnce path st).2.Agrees s' a next ∧
      next.once =
        marked s' a m.once [(.marked path.normalize, c)] := by
  intro next
  have hMarked :
      marked s' a m.once [(.marked path.normalize, c)] =
        if s'.manager.eval c a then path.normalize :: m.once
        else m.once :=
    rfl
  rw [hMarked]
  by_cases hReached : s'.manager.eval c a = true
  · have hNext :
        next = { m with once := path.normalize :: m.once } :=
      if_pos hReached
    rw [hNext, if_pos hReached]
    exact
      ⟨⟨hAgrees.status_eq,
          List.cons_subset_cons _ hAgrees.once_subset⟩,
        rfl⟩
  · have hNext : next = m := if_neg hReached
    rw [hNext, if_neg hReached]
    exact
      ⟨⟨hAgrees.status_eq,
          fun file hFile =>
            List.mem_cons_of_mem _
              (hAgrees.once_subset hFile)⟩,
        rfl⟩

theorem accompanies_markOnce
    (hSound : st.Sound)
    (path : Path)
    (c : Condition) :
    Accompanies st (Preprocessor.markOnce path st).2
      [(.marked path.normalize, c)]
      fun s' a m =>
        if s'.manager.eval c a then
          { m with once := path.normalize :: m.once }
        else m :=
  ⟨⟨hSound.space, hSound.isLive⟩, .refl _,
    fun _ _ _ _ _ hAgrees _ => hAgrees.markOnce path c⟩

/- A directive that leaves all branches as they are. -/
theorem followsBeside_of_accompanies
    {here : Option (Event × Condition) × Notes Note}
    {enter : Space → (Nat → Bool) → Entering}
    (effectOf : Space → (Nat → Bool) → Memory → Memory)
    (hSound : st.Sound)
    (hStack : ∀ frame ∈ stack, frame.IsLive st.space)
    (hRun :
      directive x first stack d st =
        (stack,
          if current x.base stack = .zero then st
          else (effect x (current x.base stack) d st).2))
    (hNone :
      current x.base stack = .zero → here = (none, .done))
    (hEffect :
      current x.base stack ≠ .zero →
        Accompanies st (effect x (current x.base stack) d st).2
          (eventsOf here)
          fun s' a m =>
            if s'.manager.eval (current x.base stack) a then
              effectOf s' a m
            else m)
    (hFollow :
      ∀ s' a base t behind branches m,
        (configuration x.settings [] s' a).follow x.path
            (enter s' a) base
            (.line t (here.2.map (tell s' a)) behind) branches
            m d =
          (branches,
            if Configuration.State.isReached base
                ⟨branches, m.status⟩ then
              effectOf s' a m
            else m)) :
    FollowsBeside x enter here stack d st
      (directive x first stack d st) := by
  rw [hRun]
  by_cases hZero : current x.base stack = .zero
  · rw [if_pos hZero, hNone hZero]
    refine ⟨hSound, .refl _, hStack, ?_⟩
    intro s' _ _ a branches m behind hBranches hAgrees _ next
    have hCurrent :=
      (Projects.mk (k := ⟨branches, m.status⟩) hBranches
        hAgrees.status_eq).eval_current x.base
    have hNext : next = (branches, m) := by
      rw [hZero, Diagram.Manager.eval_zero] at hCurrent
      change Configuration.follow _ _ _ _ _ _ _ _ = _
      rw [← hNone hZero, hFollow, ← hCurrent]
      rfl
    rw [hNext]
    exact ⟨hBranches, hAgrees, rfl⟩
  · rw [if_neg hZero]
    have hBeside := hEffect hZero
    refine
      ⟨hBeside.sound, hBeside.grows,
        fun frame hMem =>
          (hStack frame hMem).grows hBeside.grows, ?_⟩
    intro s' hSound' hGrows a branches m behind hBranches hAgrees
      hFair next
    have hCurrent :=
      (Projects.mk (k := ⟨branches, m.status⟩) hBranches
        hAgrees.status_eq).eval_current x.base
    have hNext : next = (branches, _) :=
      hFollow s' a _ _ _ _ _
    rw [hNext, ← hCurrent]
    exact
      ⟨hBranches,
        hBeside.agrees s' hSound' hGrows a m hAgrees hFair⟩

/- A directive that asks for no file and marks none. -/
theorem directive_followsBeside
    (hSound : st.Sound)
    (hGuard :
      first = true → ∀ arguments, d ≠ .opening "ifndef" arguments)
    (hBase : st.space.manager.IsLive x.base)
    (hStack : ∀ frame ∈ stack, frame.IsLive st.space)
    (hInclusion : ∀ arguments, d ≠ .inclusion arguments)
    (hOnce : d ≠ .once)
    (inside : Recording)
    (enter : Space → (Nat → Bool) → Entering) :
    FollowsBeside x enter (happening x inside stack st d) stack d
      st (directive x first stack d st) := by
  have hFollows :
      Follows x st.definitions first stack d st _ :=
    directive_projects hSound (fun _ => rfl) hBase hStack
      hInclusion
  have hKeeps :=
    KeepsOnce.directive (x := x) hInclusion hOnce first stack st
  have hNone : happening x inside stack st d = (none, .done) := by
    cases d with
    | inclusion arguments => exact absurd rfl (hInclusion _)
    | once => exact absurd rfl hOnce
    | _ => rfl
  refine
    ⟨hFollows.sound, hFollows.grows, hFollows.isLive, ?_⟩
  intro s' hSound' hGrows a branches m behind hBranches hAgrees
    _ next
  have hStep :=
    hFollows.projects s' hSound' hGrows a
      ⟨branches, m.status⟩ ⟨hBranches, hAgrees.status_eq⟩
  rw [step_first hGuard] at hStep
  have hNext : next.2 = { m with status := _ } :=
    Configuration.snd_follow hInclusion hOnce _
  rw [hNext, hNone]
  refine ⟨hStep.stack, ⟨hStep.status_eq, ?_⟩, rfl⟩
  rw [hKeeps]
  exact hAgrees.once_subset

/- An inclusion of the run beside the inclusion in a configuration. -/
def EntersBeside
    (x : Context)
    (inside : Recording)
    (enter : Space → (Nat → Bool) → Entering)
    (arguments : List Token) : Prop :=
  ∀ c st, st.Sound → st.space.manager.IsLive c →
    Accompanies st (x.follow arguments c st).2
      (eventsOf (inside arguments c st))
      fun s' a m =>
        if s'.manager.eval c a then
          enter s' a arguments
            ((inside arguments c st).2.map (tell s' a)) m
        else m

/-
  Every directive is followed as in each configuration, if the
  files that it includes are.
-/
theorem directive_beside
    (hSound : st.Sound)
    (hGuard :
      first = true → ∀ arguments, d ≠ .opening "ifndef" arguments)
    (hBase : st.space.manager.IsLive x.base)
    (hStack : ∀ frame ∈ stack, frame.IsLive st.space)
    {inside : Recording}
    {enter : Space → (Nat → Bool) → Entering}
    (hInside :
      ∀ arguments, d = .inclusion arguments →
        EntersBeside x inside enter arguments) :
    FollowsBeside x enter (happening x inside stack st d) stack d
      st (directive x first stack d st) := by
  by_cases hInclusion : ∃ arguments, d = .inclusion arguments
  · rcases hInclusion with ⟨arguments, rfl⟩
    apply
      followsBeside_of_accompanies
        (fun s' a m =>
          enter s' a arguments
            ((happening x inside stack st
              (.inclusion arguments)).2.map (tell s' a)) m)
        hSound hStack
    · exact run_effect x _ stack _ st
    · exact fun hZero => if_pos hZero
    · intro hZero
      have hHere :
          happening x inside stack st (.inclusion arguments) =
            inside arguments (current x.base stack) st :=
        if_neg hZero
      rw [hHere]
      exact
        hInside arguments rfl _ st hSound
          (isLive_current hBase hStack)
    · intro s' a base t behind branches m
      exact Configuration.follow_inclusion base arguments
  · by_cases hOnce : d = .once
    · subst hOnce
      apply
        followsBeside_of_accompanies
          (fun _ _ m =>
            { m with once := x.path.normalize :: m.once })
          hSound hStack
      · exact run_effect x _ stack _ st
      · exact fun hZero => congrArg (·, _) (if_pos hZero)
      · intro hZero
        have hEvents :
            eventsOf (happening x inside stack st .once) =
              [(.marked x.path.normalize,
                current x.base stack)] := by
          simp [eventsOf, happening, hZero, events]
        rw [hEvents]
        exact accompanies_markOnce hSound x.path _
      · intro s' a base t behind branches m
        exact Configuration.follow_once base
    · exact
        directive_followsBeside hSound hGuard hBase hStack
          (not_exists.mp hInclusion) hOnce inside enter

------------------------------------------------------------
-- Lines
------------------------------------------------------------

variable {lines : List (List Token)}
variable {inside : Recording}
variable {enter : Space → (Nat → Bool) → Entering}

/- Lines of the run beside the lines in a configuration. -/
structure ReadsBeside
    (x : Context)
    (enter : Space → (Nat → Bool) → Entering)
    (notes : Notes Note)
    (stack : List Frame)
    (lines : List (List Token))
    (st : State)
    (out : List (Nat × Condition) × State) : Prop where
  sound : out.2.Sound
  grows : st.space.Grows out.2.space
  agrees :
    ∀ s', s'.Sound → out.2.space.Grows s' → ∀ a branches m,
      List.Forall₂ (Frame.Projects s' a) stack branches →
      st.Agrees s' a m →
      IsFair s' a m.once (events notes) →
      let out' :=
        (configuration x.settings [] s' a).readFile x.path
          (enter s' a) (s'.manager.eval x.base a) branches m
          lines (notes.map (tell s' a))
      out.1.map
          (fun line => (line.1, s'.manager.eval line.2 a)) =
        out'.1 ∧
      out.2.Agrees s' a out'.2 ∧
      out'.2.once = marked s' a m.once (events notes)

/- The end of a file only warns of open groups. -/
theorem readsBeside_nil
    (hSound : st.Sound) :
    ReadsBeside x enter .done stack [] st
      (readLines x first stack [] st) := by
  have hRun :
      (readLines x first stack [] st).1 = [] ∧
        (readLines x first stack [] st).2.space = st.space ∧
        (readLines x first stack [] st).2.definitions =
          st.definitions ∧
        (readLines x first stack [] st).2.once = st.once := by
    cases stack <;> exact ⟨rfl, rfl, rfl, rfl⟩
  generalize readLines x first stack [] st = out at hRun ⊢
  rcases out with ⟨reached, ⟨space, definitions, marks, log⟩⟩
  rcases hRun with ⟨rfl, rfl, rfl, rfl⟩
  exact
    ⟨⟨hSound.space, hSound.isLive⟩, .refl _,
      fun _ _ _ _ _ _ _ hAgrees _ =>
        ⟨rfl, ⟨hAgrees.status_eq, hAgrees.once_subset⟩, rfl⟩⟩

/- A line that is no directive is only recorded. -/
theorem readsBeside_text
    {line : List Token}
    {rest : List (List Token)}
    {behind : Notes Note}
    (hDirective : Directive.ofLine line = none)
    (hRest :
      ReadsBeside x enter behind stack rest st
        (readLines x false stack rest st)) :
    ReadsBeside x enter (.line {} .done behind) stack
      (line :: rest) st
      (readLines x first stack (line :: rest) st) := by
  have hRun :
      readLines x first stack (line :: rest) st =
        (((line.getLast?.map (·.endLine)).getD 0,
            current x.base stack) ::
          (readLines x false stack rest st).1,
          (readLines x false stack rest st).2) := by
    rw [readLines, hDirective]
    rfl
  rw [hRun]
  refine ⟨hRest.sound, hRest.grows, ?_⟩
  intro s' hSound' hGrows a branches m hBranches hAgrees hFair
    out'
  rcases hRest.agrees s' hSound' hGrows a branches m hBranches
      hAgrees hFair with
    ⟨hLines, hAfter⟩
  have hCurrent :=
    (Projects.mk (k := ⟨branches, m.status⟩) hBranches
      hAgrees.status_eq).eval_current x.base
  have hOut : out' = _ :=
    Configuration.readFile_text hDirective _ rest
  rw [hOut, List.map_cons, hCurrent, hLines]
  exact ⟨rfl, hAfter⟩

/- A directive is followed before the lines behind it are read. -/
theorem readsBeside_directive
    {line : List Token}
    {rest : List (List Token)}
    {here : Option (Event × Condition) × Notes Note}
    {behind : Notes Note}
    (hDirective : Directive.ofLine line = some d)
    (hFollows :
      FollowsBeside x enter here stack d st
        (directive x first stack d st))
    (hRest :
      ReadsBeside x enter behind (directive x first stack d st).1
        rest (directive x first stack d st).2
        (readLines x false (directive x first stack d st).1 rest
          (directive x first stack d st).2)) :
    ReadsBeside x enter
      (.line ⟨consultedAt x.settings x.base stack d st, here.1⟩
        here.2 behind)
      stack (line :: rest) st
      (readLines x first stack (line :: rest) st) := by
  have hRun :
      readLines x first stack (line :: rest) st =
        (((line.getLast?.map (·.endLine)).getD 0,
            current x.base stack) ::
          (readLines x false (directive x first stack d st).1
            rest (directive x first stack d st).2).1,
          (readLines x false (directive x first stack d st).1
            rest (directive x first stack d st).2).2) := by
    rw [readLines, hDirective]
    rfl
  rw [hRun]
  refine
    ⟨hRest.sound, hFollows.grows.trans hRest.grows, ?_⟩
  intro s' hSound' hGrows a branches m hBranches hAgrees hFair
    out'
  rcases hFollows.agrees s' hSound' (hRest.grows.trans hGrows) a
      branches m (behind.map (tell s' a)) hBranches hAgrees
      (IsFair.of_append_left hFair) with
    ⟨hStack', hAgrees', hOnce⟩
  have hFair' := IsFair.of_append_right hFair
  rw [← eventsOf, ← hOnce] at hFair'
  rcases hRest.agrees s' hSound' hGrows a _ _ hStack' hAgrees'
      hFair' with
    ⟨hLines, hAfter, hMarked⟩
  have hCurrent :=
    (Projects.mk (k := ⟨branches, m.status⟩) hBranches
      hAgrees.status_eq).eval_current x.base
  have hOut : out' = _ :=
    Configuration.readFile_directive hDirective _ rest
  rw [hOut, List.map_cons, hCurrent, hLines]
  refine ⟨rfl, hAfter, ?_⟩
  rw [events, marked_append, ← eventsOf, ← hOnce]
  exact hMarked

/-
  Lines are read as in each configuration, if the files that they
  include are, by induction over the lines.
-/
theorem readLines_beside
    (hSound : st.Sound)
    (hNoGuard : first = true → HasNoGuard lines)
    (hBase : st.space.manager.IsLive x.base)
    (hStack : ∀ frame ∈ stack, frame.IsLive st.space)
    (hInside :
      ∀ line ∈ lines, ∀ arguments,
        Directive.ofLine line = some (.inclusion arguments) →
        EntersBeside x inside enter arguments) :
    ReadsBeside x enter
      (recordLines x inside first stack lines st) stack lines st
      (readLines x first stack lines st) := by
  induction lines generalizing first stack st with
  | nil => exact readsBeside_nil hSound
  | cons line rest ih =>
      have hRest :
          ∀ line ∈ rest, ∀ arguments,
            Directive.ofLine line = some (.inclusion arguments) →
            EntersBeside x inside enter arguments :=
        fun line' hMem =>
          hInside line' (List.mem_cons_of_mem line hMem)
      have hLater : false = true → HasNoGuard rest :=
        fun hFirst => absurd hFirst Bool.false_ne_true
      unfold recordLines followLine
      cases hDirective : Directive.ofLine line with
      | none =>
          apply readsBeside_text hDirective
          exact ih hSound hLater hBase hStack hRest
      | some d =>
          have hGuard :
              first = true →
                ∀ arguments, d ≠ .opening "ifndef" arguments := by
            rintro hFirst arguments rfl
            exact hNoGuard hFirst line rfl arguments hDirective
          have hFollows :=
            directive_beside hSound hGuard hBase hStack
              fun arguments hEq =>
                hInside line List.mem_cons_self arguments
                  (hEq ▸ hDirective)
          apply readsBeside_directive hDirective hFollows
          exact
            ih hFollows.sound hLater (hFollows.grows.isLive hBase)
              hFollows.isLive hRest

end Preprocessor

end Variability
