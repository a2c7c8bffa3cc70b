import Variability.Proofs.Preprocessor.Environment

/-
  A run over conditions and a run in an environment.

  A run over conditions tracks a run in an environment, line by
  line: the frames project to the branches, and the definitions
  give macros their values. Each directive keeps the two runs
  together, if the uses in the test that the environment makes
  there are told their truth.

  Main declarations:
    * `Preprocessor.Tracks`
    * `Preprocessor.tracks_directive`
    * `Preprocessor.readLines_environment`
-/

namespace Variability

namespace Preprocessor

open InSpace

variable {s : Settings}
variable {st : State}
variable {s' : Space}
variable {a : Nat → Bool}
variable {x : Context}
variable {first : Bool}
variable {stack : List Frame}
variable {d : Directive}
variable {env : Environment}
variable {answer : String → Bool}
variable {m : Environment.State}

------------------------------------------------------------
-- Effects
------------------------------------------------------------

variable {isFree : String → Bool}
variable {macros : MacroValues}
variable {c : Condition}
variable {reached : Bool}

/- A state after an effect, with the values that macros have then. -/
structure Leaves
    (st : State)
    (env : Environment)
    (answer : String → Bool)
    (isFree : String → Bool)
    (macros : MacroValues)
    (out : State) : Prop where
  sound : out.Sound
  grows : st.space.Grows out.space
  tells :
    out.definitions.Tells out.space env answer isFree macros

/- A decision gives its macro a value where it is reached. -/
theorem leaves_decide
    (hSound : st.Sound)
    (hTells :
      st.definitions.Tells st.space env answer isFree macros)
    (hCurrent :
      st.space.Tells (env.atom answer) True reached c)
    {name : String}
    (hFree : isFree name = false)
    (definition : Option Macro)
    (hLiteral :
      ∀ m, definition = some m → m.literal?.isSome = true) :
    Leaves st env answer isFree
      (if reached then
          Function.update macros name
            (definition.bind Macro.literal?)
        else macros)
      (decide name definition c st).2 := by
  have hLive := hSound.isLive
  have hc := hCurrent.isLive
  have hRecord :
      Ensures st.space
        (st.definitions.record name definition c) _ :=
    Definitions.ensures_record_replaces hLive hc definition
  rcases hRecord st.space hSound.space (.refl _) with
    ⟨hSound', hGrows, hReplaces⟩
  have hLive' :=
    hReplaces.isLive (hLive.grows hGrows) (hGrows.isLive hc)
  refine
    ⟨⟨hSound', hLive'⟩, hGrows, hLive',
      hTells.isPlain.record hFree hLiteral hReplaces, ?_⟩
  intro s' hSound'' hGrows' a ha
  have hGrowsAll := hGrows.trans hGrows'
  have hGives :=
    (hTells.gives s' hSound'' hGrowsAll a ha).record
      hSound'' hGrows' hReplaces
  rwa [hCurrent.eval_eq trivial s' hSound'' hGrowsAll a ha]
    at hGives

/- A directive without effect. -/
theorem leaves_self
    (hSound : st.Sound)
    (hTells :
      st.definitions.Tells st.space env answer isFree macros)
    (hEffect : Environment.effect macros d = macros) :
    Leaves st env answer isFree
      (if reached then Environment.effect macros d
        else macros)
      st := by
  rw [hEffect, ite_self]
  exact ⟨hSound, .refl _, hTells⟩

/- A macro that is a single number is defined as such. -/
theorem define_number
    {name t : Token}
    (hFree : s.isFree name.text = false)
    (hNumber :
      (Expression.numberValue? t.text).isSome = true) :
    define s [name, t] c =
      decide name.text (some ⟨none, false, [t]⟩) c := by
  have hNoList : t.is "(" = false := by
    unfold Token.is
    rw [beq_eq_false_iff_ne]
    intro hText
    rw [hText] at hNumber
    cases hNumber
  have hParse :
      Macro.parse [name, t] =
        some (name.text, ⟨none, false, [t]⟩) := by
    unfold Macro.parse
    simp only [hNoList, Bool.false_eq_true, if_false]
  unfold define
  simp only [hParse, hFree, Bool.false_eq_true, if_false]

theorem leaves_effect
    (hSound : st.Sound)
    (hTells :
      st.definitions.Tells st.space env answer
        x.settings.isFree macros)
    (hCurrent :
      st.space.Tells (env.atom answer) True reached c)
    (hOrdinary : d.isOrdinary x.settings.isFree = true) :
    Leaves st env answer x.settings.isFree
      (if reached then Environment.effect macros d
        else macros)
      (effect x c d st).2 := by
  cases d with
  | define arguments =>
      match arguments with
      | [] => cases hOrdinary
      | [_] => cases hOrdinary
      | _ :: _ :: _ :: _ => cases hOrdinary
      | [name, t] =>
          simp only [Directive.isOrdinary, Bool.and_eq_true,
            Bool.not_eq_true', beq_iff_eq] at hOrdinary
          rcases hOrdinary with ⟨⟨hFree, hKind⟩, hNumber⟩
          rw [effect, define_number hFree hNumber]
          have hLiteral :
              Macro.literal? ⟨none, false, [t]⟩ =
                Expression.numberValue? t.text :=
            if_pos hKind
          have hLeaves :=
            leaves_decide hSound hTells hCurrent hFree
              (some ⟨none, false, [t]⟩)
              fun m hm => by
                rw [← Option.some_inj.mp hm, hLiteral]
                exact hNumber
          rwa [Option.bind_some, hLiteral] at hLeaves
  | undefine arguments =>
      cases arguments with
      | nil => exact leaves_self hSound hTells rfl
      | cons t rest =>
          have hFree : x.settings.isFree t.text = false := by
            simpa [Directive.isOrdinary] using hOrdinary
          have hRun :
              effect x c (.undefine (t :: rest)) =
                decide t.text none c := by
            simp only [effect, undefine, hFree,
              Bool.false_eq_true, if_false]
          rw [hRun]
          exact
            leaves_decide hSound hTells hCurrent hFree none
              fun _ hSome => by cases hSome
  | once =>
      have hSame :
          Leaves st env answer x.settings.isFree
            (if reached then
                Environment.effect macros .once
              else macros)
            st :=
        leaves_self hSound hTells rfl
      exact
        ⟨⟨hSame.sound.space, hSame.sound.isLive⟩,
          hSame.grows, hSame.tells⟩
  | inclusion => cases hOrdinary
  | opening | alternative | otherwise | closing | other =>
      exact leaves_self hSound hTells rfl

------------------------------------------------------------
-- Directives
------------------------------------------------------------

/-
  A run over conditions tracks one in an environment: wherever
  atoms have their values, frames project to branches, and the
  definitions give macros their values.
-/
structure Tracks
    (x : Context)
    (env : Environment)
    (answer : String → Bool)
    (stack : List Frame)
    (st : State)
    (m : Environment.State) : Prop where
  sound : st.Sound
  stack :
    List.Forall₂
      (fun branch frame =>
        Frame.Tells st.space (env.atom answer) branch frame)
      m.stack stack
  table :
    st.definitions.Tells st.space env answer
      x.settings.isFree m.macros

/- The branch that is read is reached where its condition holds. -/
theorem Tracks.current_tells
    (hTracks : Tracks x env answer stack st m)
    (hBase : x.base = .one) :
    st.space.Tells (env.atom answer) True m.isReached
      (current x.base stack) := by
  rcases m with ⟨branches, macros⟩
  rcases hTracks with ⟨hSound, hStack, -⟩
  cases hStack with
  | nil =>
      change st.space.Tells _ True true x.base
      rw [hBase]
      exact Space.tells_one hSound.space
  | cons hTop _ =>
      exact
        ⟨hTop.isLive.active,
          fun _ s' hSound' hGrows a ha =>
            (hTop.projects s' hSound' hGrows a ha).active_eq⟩

/- Building a frame for the top of a stack leaves macros alone. -/
theorem Tracks.of_builds
    (hTracks : Tracks x env answer stack st m)
    {f : Run Frame}
    {branch : Configuration.Branch}
    {branches : List Configuration.Branch}
    {rest : List Frame}
    (hBuilds :
      Builds st f fun space frame =>
        frame.Tells space (env.atom answer) branch)
    (hRest :
      List.Forall₂
        (fun branch frame =>
          Frame.Tells st.space (env.atom answer) branch frame)
        branches rest) :
    Tracks x env answer ((f st).1 :: rest) (f st).2
      ⟨branch :: branches, m.macros⟩ where
  sound := hTracks.sound.of_builds hBuilds
  stack :=
    .cons hBuilds.post
      (hRest.imp fun _ _ hTells => hTells.grows hBuilds.grows)
  table := by
    rw [hBuilds.definitions_eq]
    exact hTracks.table.grows hBuilds.grows

/- A directive that opens or closes no branch. -/
theorem Tracks.of_effect
    (hTracks : Tracks x env answer stack st m)
    (first : Bool)
    (hBase : x.base = .one)
    (hOrdinary : d.isOrdinary x.settings.isFree = true)
    (hRun :
      directive x first stack d st =
        (stack,
          if current x.base stack = .zero then st
          else (effect x (current x.base stack) d st).2)) :
    Tracks x env answer (directive x first stack d st).1
      (directive x first stack d st).2
      ⟨m.stack,
        if m.isReached then Environment.effect m.macros d
        else m.macros⟩ := by
  have hCurrent := hTracks.current_tells hBase
  have hLeaves :
      Leaves st env answer x.settings.isFree
        (if m.isReached then Environment.effect m.macros d
          else m.macros)
        (directive x first stack d st).2 := by
    rw [hRun]
    by_cases hZero : current x.base stack = .zero
    · have hDead : m.isReached = false := by
        rw [← Bool.not_eq_true]
        intro hReached
        rw [hReached] at hCurrent
        exact hCurrent.ne_zero hTracks.sound.space hZero
      rw [if_pos hZero, hDead]
      exact ⟨hTracks.sound, .refl _, hTracks.table⟩
    · rw [if_neg hZero]
      exact
        leaves_effect hTracks.sound hTracks.table hCurrent
          hOrdinary
  refine ⟨hLeaves.sound, ?_, hLeaves.tells⟩
  have hSame : (directive x first stack d st).1 = stack := by
    rw [hRun]
  rw [hSame]
  exact
    hTracks.stack.imp fun _ _ hTells =>
      hTells.grows hLeaves.grows

/-
  A directive keeps the two runs together, if the uses in the
  test that the environment makes there are told their truth.
-/
theorem tracks_directive
    (hTracks : Tracks x env answer stack st m)
    (hBase : x.base = .one)
    (hOrdinary : d.isOrdinary x.settings.isFree = true)
    (hNoGuard :
      first = true → ∀ arguments, d ≠ .opening "ifndef" arguments)
    (hTold :
      Told (env.atom answer) (askedAt st.definitions m d)) :
    Tracks x env answer (directive x first stack d st).1
      (directive x first stack d st).2
      (Environment.step m d) := by
  have hSound := hTracks.sound
  have hTable := hTracks.table
  cases d with
  | opening word arguments =>
      have hPlain : (first && word == "ifndef") = false := by
        rw [Bool.and_eq_false_iff, beq_eq_false_iff_ne]
        by_cases hFirst : first = true
        · right
          rintro rfl
          exact hNoGuard hFirst arguments rfl
        · left
          exact Bool.not_eq_true _ ▸ hFirst
      have hOpen :=
        openGroup_tells hSound hTable hPlain hOrdinary
          (hTracks.current_tells hBase) fun hReached => by
            rwa [askedAt, if_pos hReached] at hTold
      exact hTracks.of_builds hOpen hTracks.stack
  | alternative word arguments =>
      rcases m with ⟨branches, macros⟩
      rcases hStack : hTracks.stack with _ | ⟨hTop, hRest⟩
      · exact ⟨⟨hSound.space, hSound.isLive⟩, .nil, hTable⟩
      · have hNext :=
          nextBranch_tells hSound hTable hOrdinary hTop
            fun hLeft => by
              rwa [askedAt, List.head?_cons, Option.any_some,
                if_pos hLeft] at hTold
        exact hTracks.of_builds hNext hRest
  | otherwise =>
      rcases m with ⟨branches, macros⟩
      rcases hStack : hTracks.stack with _ | ⟨hTop, hRest⟩
      · exact ⟨⟨hSound.space, hSound.isLive⟩, .nil, hTable⟩
      · have hLast :=
          (lastBranch_projects hSound hTop.isLive).imp
            fun space frame' hGrows hPost =>
              Frame.Tells.mk hPost.1
                fun s' hSound' hGrows' a ha =>
                  hPost.2 s' hSound' hGrows' a _
                    (hTop.projects s' hSound'
                      (hGrows.trans hGrows') a ha)
        exact hTracks.of_builds hLast hRest
  | closing =>
      rcases m with ⟨branches, macros⟩
      rcases hStack : hTracks.stack with _ | ⟨hTop, hRest⟩
      · exact ⟨⟨hSound.space, hSound.isLive⟩, .nil, hTable⟩
      · exact ⟨hSound, hRest, hTable⟩
  | inclusion arguments => cases hOrdinary
  | define | undefine | once | other =>
      have hEffect :=
        hTracks.of_effect first hBase hOrdinary
          (run_effect x _ stack _ st)
      unfold Environment.step
      cases hReached : m.isReached <;>
        rw [hReached] at hEffect <;>
        exact hEffect

------------------------------------------------------------
-- Lines
------------------------------------------------------------

variable {line : List Token}
variable {lines : List (List Token)}

/- Whether every directive in some lines is ordinary. -/
def AllOrdinary
    (isFree : String → Bool)
    (lines : List (List Token)) : Prop :=
  ∀ line ∈ lines, ∀ d, Directive.ofLine line = some d →
    d.isOrdinary isFree = true

/- Whether some lines do not begin like a file with a guard. -/
def HasNoGuard (lines : List (List Token)) : Prop :=
  ∀ line ∈ lines.head?, ∀ arguments,
    Directive.ofLine line ≠ some (.opening "ifndef" arguments)

theorem tracks_followLine
    (hTracks : Tracks x env answer stack st m)
    (hBase : x.base = .one)
    (hOrdinary : AllOrdinary x.settings.isFree (line :: lines))
    (hNoGuard : first = true → HasNoGuard (line :: lines))
    (hTold :
      Told (env.atom answer)
        (asked x first stack (line :: lines) st m)) :
    Tracks x env answer (followLine x first stack line st).1
      (followLine x first stack line st).2
      (Environment.followLine m line) := by
  unfold followLine Environment.followLine
  cases hDirective : Directive.ofLine line with
  | none => exact hTracks
  | some d =>
      apply tracks_directive hTracks hBase
      · exact hOrdinary line List.mem_cons_self d hDirective
      · rintro hFirst arguments rfl
        exact hNoGuard hFirst line rfl arguments hDirective
      · intro use hUse
        apply hTold use
        unfold asked
        rw [hDirective]
        apply List.mem_append_left
        simpa using hUse

theorem isLive_of_tells
    {space : Space}
    {value : Atom → Bool}
    {branches : List Configuration.Branch}
    (hStack :
      List.Forall₂
        (fun branch frame => Frame.Tells space value branch frame)
        branches stack) :
    ∀ frame ∈ stack, frame.IsLive space := by
  induction hStack with
  | nil => simp
  | cons hTop _ ih =>
      exact List.forall_mem_cons.mpr ⟨hTop.isLive, ih⟩

/- Ordinary lines include nothing, and leave a space that has grown. -/
theorem Tracks.reads
    (hTracks : Tracks x env answer stack st m)
    (hBase : x.base = .one)
    (hOrdinary : AllOrdinary x.settings.isFree lines)
    (first : Bool) :
    Reads x st.definitions first stack lines st
      (readLines x first stack lines st) := by
  have hSound := hTracks.sound
  apply readLines_projects lines hSound fun _ => rfl
  · rw [hBase]
    exact hSound.space.manager.reduced.isLive_one
  · exact isLive_of_tells hTracks.stack
  · intro line hLine arguments hInclusion
    cases hOrdinary line hLine _ hInclusion

/- A line leaves a space that has grown, and frames in it. -/
theorem followLine_isLive
    (first : Bool)
    (hSound : st.Sound)
    (hBase : st.space.manager.IsLive x.base)
    (hStack : ∀ frame ∈ stack, frame.IsLive st.space)
    (hInclusion :
      ∀ arguments,
        Directive.ofLine line ≠ some (.inclusion arguments)) :
    let out := followLine x first stack line st
    out.2.Sound ∧ st.space.Grows out.2.space ∧
      ∀ frame ∈ out.1, frame.IsLive out.2.space := by
  unfold followLine
  cases hDirective : Directive.ofLine line with
  | none => exact ⟨hSound, .refl _, hStack⟩
  | some d =>
      have hFollows :
          Follows x st.definitions first stack d st
            (directive x first stack d st) :=
        directive_projects hSound (fun _ => rfl) hBase hStack
          fun arguments hEq =>
            hInclusion arguments
              (hDirective.trans (congrArg some hEq))
      exact ⟨hFollows.sound, hFollows.grows, hFollows.isLive⟩

/- The conditions of lines are live in the space that is left. -/
theorem readLines_isLive
    (first : Bool)
    (lines : List (List Token))
    (hSound : st.Sound)
    (hBase : st.space.manager.IsLive x.base)
    (hStack : ∀ frame ∈ stack, frame.IsLive st.space)
    (hInclusion :
      ∀ line ∈ lines, ∀ arguments,
        Directive.ofLine line ≠ some (.inclusion arguments)) :
    let out := readLines x first stack lines st
    ∀ line ∈ out.1, out.2.space.manager.IsLive line.2 := by
  induction lines generalizing first stack st with
  | nil =>
      have hNone : (readLines x first stack [] st).1 = [] := by
        cases stack <;> rfl
      intro out line hMem
      rw [hNone] at hMem
      cases hMem
  | cons line rest ih =>
      have hReads :
          Reads x st.definitions first stack (line :: rest) st
            (readLines x first stack (line :: rest) st) :=
        readLines_projects (line :: rest) hSound
          (fun _ => rfl) hBase hStack hInclusion
      have hHere :=
        hReads.grows.isLive (isLive_current hBase hStack)
      rcases List.forall_mem_cons.mp hInclusion with
        ⟨hLine, hRest⟩
      rcases followLine_isLive first hSound hBase hStack
          hLine with
        ⟨hSound', hGrows, hStack'⟩
      have hLater :=
        ih false hSound' (hGrows.isLive hBase) hStack' hRest
      rw [readLines_cons] at hHere ⊢
      intro out line' hMem
      rcases List.mem_cons.mp hMem with rfl | hMem'
      · exact hHere
      · exact hLater line' hMem'

/-
  Lines are read as in the environment, by induction over them:
  what is tracked at a line is tracked behind it.
-/
theorem readLines_environment
    (hTracks : Tracks x env answer stack st m)
    (hBase : x.base = .one)
    (hOrdinary : AllOrdinary x.settings.isFree lines)
    (hNoGuard : first = true → HasNoGuard lines)
    (hTold :
      Told (env.atom answer)
        (asked x first stack lines st m))
    (hSound' : s'.Sound)
    (hGrows :
      (readLines x first stack lines st).2.space.Grows s')
    (ha : Coupling.Assigns s' (env.atom answer) a) :
    (readLines x first stack lines st).1.map
        (fun line => (line.1, s'.manager.eval line.2 a)) =
      Environment.read m lines := by
  induction lines generalizing first stack st m with
  | nil =>
      unfold readLines
      cases stack <;> rfl
  | cons line rest ih =>
      have hGrowsAll :=
        (hTracks.reads hBase hOrdinary first).grows.trans
          hGrows
      have hReached :=
        (hTracks.current_tells hBase).eval_eq trivial s'
          hSound' hGrowsAll a ha
      rw [readLines_cons] at hGrows ⊢
      have hRest :=
        ih
          (tracks_followLine hTracks hBase hOrdinary hNoGuard
            hTold)
          (fun line' hLine =>
            hOrdinary line' (List.mem_cons_of_mem line hLine))
          (by simp)
          (fun use hUse =>
            hTold use (List.mem_append_right _ hUse))
          hGrows
      unfold Environment.read
      rw [← hReached, ← hRest]
      rfl

end Preprocessor

end Variability
