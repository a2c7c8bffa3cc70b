import Variability.Preprocessor
import Variability.Proofs.Expression.Coupling

/-
  Preprocessing in two runs.

  Two states are alike if their spaces belong together and their
  definitions say the same. A line that differs at most in where
  it stands takes alike states to alike states, whatever files
  it includes; so a whole file does, and gives for its lines
  conditions that belong together.

  Main declarations:
    * `Preprocessor.State.Alike`
    * `Preprocessor.Couples`
    * `Preprocessor.couples_directive`
    * `Preprocessor.couples_readLines`
    * `Preprocessor.couples_process`
-/

namespace Variability

namespace Preprocessor

variable {α β α' β' : Type}
variable {R : Coupling}
variable {s : Settings}
variable {st tt : State}
variable {s₀ t₀ s' t' s'' t'' : Space}
variable {c c' : Condition}
variable {stack stack' : List Frame}

------------------------------------------------------------
-- Two Runs
------------------------------------------------------------

/- Two states that say the same in two runs. -/
structure State.Alike (R : Coupling) (st tt : State) : Prop where
  spaces : R.spaces st.space tt.space
  definitions :
    Definitions.Alike R st.space tt.space st.definitions
      tt.definitions
  once_eq : st.once = tt.once
  log_eq : st.log = tt.log

/- Two computations run alike from two states. -/
structure Couples
    (R : Coupling)
    (f : Run α)
    (g : Run β)
    (st tt : State)
    (post : Space → Space → α → β → Prop) : Prop where
  later :
    R.Later st.space tt.space (f st).2.space (g tt).2.space
  alike : (f st).2.Alike R (g tt).2
  post : post (f st).2.space (g tt).2.space (f st).1 (g tt).1

namespace Couples

variable {f : Run α}
variable {g : Run β}
variable {post : Space → Space → α → β → Prop}
variable {post' : Space → Space → α' → β' → Prop}

theorem pure
    {x : α}
    {y : β}
    (hAlike : st.Alike R tt)
    (hPost : post st.space tt.space x y) :
    Couples R (Pure.pure x) (Pure.pure y) st tt post :=
  ⟨.refl hAlike.spaces, hAlike, hPost⟩

theorem bind
    {f' : α → Run α'}
    {g' : β → Run β'}
    (hFirst : Couples R f g st tt post)
    (hRest :
      ∀ st' tt' x y, st'.Alike R tt' →
        R.Later st.space tt.space st'.space tt'.space →
          post st'.space tt'.space x y →
            Couples R (f' x) (g' y) st' tt' post') :
    Couples R (f >>= f') (g >>= g') st tt post' := by
  have hNext :=
    hRest (f st).2 (g tt).2 (f st).1 (g tt).1 hFirst.alike
      hFirst.later hFirst.post
  exact
    ⟨hFirst.later.trans hNext.later, hNext.alike,
      hNext.post⟩

/- Building conditions leaves all but the spaces as it is. -/
theorem build
    {f : Definitions → InSpace α}
    {g : Definitions → InSpace β}
    (hAlike : st.Alike R tt)
    (hCouples :
      R.Couples st.space tt.space (f st.definitions)
        (g tt.definitions) post) :
    Couples R (Preprocessor.build f) (Preprocessor.build g)
      st tt post := by
  rcases hCouples st.space tt.space (.refl hAlike.spaces) with
    ⟨hLater, hPost⟩
  exact
    ⟨hLater,
      ⟨hLater.spaces, hAlike.definitions.later hLater,
        hAlike.once_eq, hAlike.log_eq⟩,
      hPost⟩

end Couples

/- Nothing is said about the results. -/
def anything (_ _ : Space) (_ : α) (_ : β) : Prop := True

theorem couples_warn
    (hAlike : st.Alike R tt)
    (text : String) :
    Couples R (warn text) (warn text) st tt anything := by
  have hLog :
      st.log ++ [Record.warning text] =
        tt.log ++ [Record.warning text] := by
    rw [hAlike.log_eq]
  exact
    ⟨.refl hAlike.spaces,
      ⟨hAlike.spaces, hAlike.definitions, hAlike.once_eq,
        hLog⟩,
      trivial⟩

theorem couples_markOnce
    (hAlike : st.Alike R tt)
    (path : Path) :
    Couples R (markOnce path) (markOnce path) st tt
      anything :=
  ⟨.refl hAlike.spaces,
    ⟨hAlike.spaces, hAlike.definitions,
      congrArg (path.normalize :: ·) hAlike.once_eq,
      hAlike.log_eq⟩,
    trivial⟩

theorem couples_isDone
    (hAlike : st.Alike R tt)
    (path : Path) :
    Couples R (isDone path) (isDone path) st tt
      fun _ _ => Eq :=
  ⟨.refl hAlike.spaces, hAlike,
    congrArg (List.any · path.same) hAlike.once_eq⟩

theorem couples_decide
    (hLawful : R.Lawful)
    (hAlike : st.Alike R tt)
    {definition definition' : Option Macro}
    (hDefinition :
      Option.Rel Macro.Alike definition definition')
    (hc : R.conditions st.space tt.space c c')
    (name : String) :
    Couples R (decide name definition c)
      (decide name definition' c') st tt anything := by
  have hRecord :=
    Definitions.couples_record hLawful hAlike.spaces
      hAlike.definitions hc hDefinition name
  rcases hRecord st.space tt.space
      (.refl hAlike.spaces) with
    ⟨hLater, hTable⟩
  exact
    ⟨hLater,
      ⟨hLater.spaces, hTable, hAlike.once_eq,
        hAlike.log_eq⟩,
      trivial⟩

------------------------------------------------------------
-- Tests
------------------------------------------------------------

variable {arguments arguments' : List Token}

theorem couples_testCondition
    (hLawful : R.Lawful)
    (hAlike : st.Alike R tt)
    (hArguments : Token.Alike arguments arguments')
    (word : String) :
    Couples R (testCondition s word arguments)
      (testCondition s word arguments') st tt
      R.conditions := by
  have hBare :
      (Test.ofWord word arguments).bare =
        (Test.ofWord word arguments').bare := by
    rw [← Test.ofWord_bare, ← Test.ofWord_bare, hArguments]
  unfold testCondition
  generalize Test.ofWord word arguments = test at hBare ⊢
  generalize Test.ofWord word arguments' = test' at hBare ⊢
  cases test with
  | expression tokens =>
      cases test' with
      | expression tokens' =>
          have hTokens : Token.Alike tokens tokens' :=
            Test.expression.inj hBare
          let e : Evaluator := ⟨st.definitions, s.isFree⟩
          let e' : Evaluator := ⟨tt.definitions, s.isFree⟩
          have hTable :
              Definitions.Alike R st.space tt.space
                e.definitions e'.definitions :=
            hAlike.definitions
          exact
            .build hAlike
              (Evaluator.couples_condition hLawful hTable rfl
                hTokens)
      | _ => cases hBare
  | definedness name positive =>
      cases test' with
      | definedness name' positive' =>
          cases hBare
          apply Couples.build hAlike
          apply
            (Definitions.couples_whetherDefined hLawful
              hAlike.definitions name).bind
          intro s t c d _ hAlike
          apply Coupling.Couples.pure
          intro s' t' hLater
          cases positive with
          | true => exact hLater.keeps hAlike
          | false =>
              exact
                hLawful.neg hLater.spaces
                  (hLater.keeps hAlike)
      | _ => cases hBare
  | unnamed text =>
      cases test' with
      | unnamed text' =>
          cases hBare
          exact .build hAlike (hLawful.atom _ _ _)
      | _ => cases hBare

/- What is a guard in one run is a guard in the other. -/
theorem isGuard_eq
    (hAlike : st.Alike R tt)
    (name : String) :
    isGuard s st.definitions name =
      isGuard s tt.definitions name := by
  unfold isGuard
  rw [hAlike.definitions.contains_eq]

theorem couples_openingCondition
    (hLawful : R.Lawful)
    (hAlike : st.Alike R tt)
    (hArguments : Token.Alike arguments arguments')
    (first : Bool)
    (word : String) :
    Couples R (openingCondition s first word arguments)
      (openingCondition s first word arguments') st tt
      R.conditions := by
  have hTest {st tt : State} (hAlike : st.Alike R tt) :=
    couples_testCondition (s := s) hLawful hAlike hArguments
      word
  unfold openingCondition
  cases first && word == "ifndef" with
  | false => exact hTest hAlike
  | true =>
      cases arguments with
      | nil =>
          cases arguments' with
          | nil => exact hTest hAlike
          | cons => cases hArguments
      | cons t rest =>
          cases arguments' with
          | nil => cases hArguments
          | cons t' rest' =>
              have hText := hArguments.text_eq
              have hAsk :
                  Couples R
                    (build fun definitions =>
                      pure (isGuard s definitions t.text))
                    (build fun definitions =>
                      pure (isGuard s definitions t'.text))
                    st tt fun _ _ => Eq := by
                rw [hText]
                exact
                  .build hAlike
                    (.pure fun _ _ _ =>
                      isGuard_eq hAlike t'.text)
              apply hAsk.bind
              rintro st' tt' b _ hAlike' _ rfl
              cases b with
              | true =>
                  exact
                    .pure hAlike'
                      (hLawful.one hAlike'.spaces)
              | false => exact hTest hAlike'

------------------------------------------------------------
-- Branches
------------------------------------------------------------

/- Frames whose conditions belong together. -/
structure Frame.Alike
    (R : Coupling)
    (s t : Space)
    (frame frame' : Frame) : Prop where
  outer : R.conditions s t frame.outer frame'.outer
  taken : R.conditions s t frame.taken frame'.taken
  active : R.conditions s t frame.active frame'.active

theorem Frame.Alike.later
    {frame frame' : Frame}
    (hFrame : frame.Alike R s' t' frame')
    (hLater : R.Later s' t' s'' t'') :
    frame.Alike R s'' t'' frame' :=
  ⟨hLater.keeps hFrame.outer, hLater.keeps hFrame.taken,
    hLater.keeps hFrame.active⟩

theorem current_alike
    {base base' : Condition}
    (hBase : R.conditions s' t' base base')
    (hStack : List.Forall₂ (Frame.Alike R s' t') stack stack') :
    R.conditions s' t' (current base stack)
      (current base' stack') := by
  cases hStack with
  | nil => exact hBase
  | cons hFrame _ => exact hFrame.active

theorem couples_openGroup
    (hLawful : R.Lawful)
    (hAlike : st.Alike R tt)
    (hArguments : Token.Alike arguments arguments')
    (hc : R.conditions st.space tt.space c c')
    (first : Bool)
    (word : String) :
    Couples R (openGroup s first c word arguments)
      (openGroup s first c' word arguments') st tt
      (Frame.Alike R) := by
  have hZero := hLawful.eq_zero_iff hAlike.spaces hc
  unfold openGroup
  by_cases hDead : c = .zero
  · rw [if_pos hDead, if_pos (hZero.mp hDead)]
    apply Couples.pure hAlike
    exact
      ⟨hc, hLawful.one hAlike.spaces,
        hLawful.zero hAlike.spaces⟩
  rw [if_neg hDead, if_neg (hZero.not.mp hDead)]
  apply
    (couples_openingCondition hLawful hAlike hArguments
      first word).bind
  intro st' tt' d d' hAlike' hLater hd
  have hAnd := hLawful.and (hLater.keeps hc) hd
  apply (Couples.build hAlike' hAnd).bind
  intro st'' tt'' active active' hAlike'' hLater' hActive
  exact
    .pure hAlike''
      ⟨(hLater.trans hLater').keeps hc, hLater'.keeps hd,
        hActive⟩

theorem couples_left
    (hLawful : R.Lawful)
    (hAlike : st.Alike R tt)
    {frame frame' : Frame}
    (hFrame : frame.Alike R st.space tt.space frame') :
    Couples R
      (build fun _ => Condition.and frame.outer (-frame.taken))
      (build fun _ =>
        Condition.and frame'.outer (-frame'.taken))
      st tt R.conditions :=
  .build hAlike
    (hLawful.and hFrame.outer
      (hLawful.neg hAlike.spaces hFrame.taken))

theorem couples_nextBranch
    (hLawful : R.Lawful)
    (hAlike : st.Alike R tt)
    {frame frame' : Frame}
    (hFrame : frame.Alike R st.space tt.space frame')
    (hArguments : Token.Alike arguments arguments')
    (word : String) :
    Couples R (nextBranch s frame word arguments)
      (nextBranch s frame' word arguments') st tt
      (Frame.Alike R) := by
  unfold nextBranch
  apply (couples_left hLawful hAlike hFrame).bind
  intro st' tt' left left' hAlike' hLater hLeft
  have hFrame' := hFrame.later hLater
  have hZero := hLawful.eq_zero_iff hAlike'.spaces hLeft
  by_cases hDead : left = .zero
  · rw [if_pos hDead, if_pos (hZero.mp hDead)]
    apply Couples.pure hAlike'
    exact
      ⟨hFrame'.outer, hFrame'.taken,
        hLawful.zero hAlike'.spaces⟩
  rw [if_neg hDead, if_neg (hZero.not.mp hDead)]
  apply
    (couples_testCondition hLawful hAlike' hArguments
      word).bind
  intro st₁ tt₁ d d' hAlike₁ hLater₁ hd
  have hAnd := hLawful.and (hLater₁.keeps hLeft) hd
  apply (Couples.build hAlike₁ hAnd).bind
  intro st₂ tt₂ active active' hAlike₂ hLater₂ hActive
  have hFrame₂ := hFrame'.later (hLater₁.trans hLater₂)
  have hOr := hLawful.or hFrame₂.taken (hLater₂.keeps hd)
  apply (Couples.build hAlike₂ hOr).bind
  intro st₃ tt₃ taken taken' hAlike₃ hLater₃ hTaken
  exact
    .pure hAlike₃
      ⟨(hFrame₂.later hLater₃).outer, hTaken,
        hLater₃.keeps hActive⟩

theorem couples_lastBranch
    (hLawful : R.Lawful)
    (hAlike : st.Alike R tt)
    {frame frame' : Frame}
    (hFrame : frame.Alike R st.space tt.space frame') :
    Couples R (lastBranch frame) (lastBranch frame') st tt
      (Frame.Alike R) := by
  unfold lastBranch
  apply (couples_left hLawful hAlike hFrame).bind
  intro st' tt' active active' hAlike' hLater hActive
  exact
    .pure hAlike'
      ⟨(hFrame.later hLater).outer,
        hLawful.one hAlike'.spaces, hActive⟩

------------------------------------------------------------
-- Directives
------------------------------------------------------------

theorem couples_define
    (hLawful : R.Lawful)
    (hAlike : st.Alike R tt)
    (hArguments : Token.Alike arguments arguments')
    (hc : R.conditions st.space tt.space c c') :
    Couples R (define s arguments c)
      (define s arguments' c') st tt anything := by
  have hBare := congrArg Macro.parse hArguments
  rw [Macro.parse_bare, Macro.parse_bare] at hBare
  unfold define
  generalize Macro.parse arguments = parsed at hBare ⊢
  generalize Macro.parse arguments' = parsed' at hBare ⊢
  cases parsed with
  | none =>
      cases parsed' with
      | none => exact .pure hAlike trivial
      | some => cases hBare
  | some parsed =>
      cases parsed' with
      | none => cases hBare
      | some parsed' =>
          rcases parsed with ⟨name, m⟩
          rcases parsed' with ⟨name', m'⟩
          simp only [Option.map_some, Option.some.injEq,
            Prod.mk.injEq] at hBare
          rcases hBare with ⟨rfl, hMacro⟩
          dsimp only
          cases s.isFree name with
          | true => exact .pure hAlike trivial
          | false =>
              exact
                couples_decide hLawful hAlike
                  (.some ⟨hMacro⟩) hc name

theorem couples_undefine
    (hLawful : R.Lawful)
    (hAlike : st.Alike R tt)
    (hArguments : Token.Alike arguments arguments')
    (hc : R.conditions st.space tt.space c c') :
    Couples R (undefine s arguments c)
      (undefine s arguments' c') st tt anything := by
  cases arguments with
  | nil =>
      cases arguments' with
      | nil => exact .pure hAlike trivial
      | cons => cases hArguments
  | cons t rest =>
      cases arguments' with
      | nil => cases hArguments
      | cons t' rest' =>
          have hText := hArguments.text_eq
          simp only [undefine, hText]
          cases s.isFree t'.text with
          | true => exact .pure hAlike trivial
          | false =>
              exact
                couples_decide hLawful hAlike .none hc _

/- Contexts of one file in two runs. -/
structure Context.Alike
    (R : Coupling)
    (s₀ t₀ : Space)
    (x y : Context) : Prop where
  settings_eq : x.settings = y.settings
  path_eq : x.path = y.path
  base : R.conditions s₀ t₀ x.base y.base
  follow :
    ∀ {st tt arguments arguments' c c'}, st.Alike R tt →
      Token.Alike arguments arguments' →
        R.conditions st.space tt.space c c' →
          Couples R (x.follow arguments c)
            (y.follow arguments' c') st tt anything

theorem Context.Alike.later
    {x y : Context}
    (hContext : x.Alike R s₀ t₀ y)
    (hLater : R.Later s₀ t₀ s' t') :
    x.Alike R s' t' y :=
  { hContext with base := hLater.keeps hContext.base }

variable {x y : Context}
variable {d d' : Directive}

theorem couples_effect
    (hLawful : R.Lawful)
    (hAlike : st.Alike R tt)
    (hContext : x.Alike R s₀ t₀ y)
    (hc : R.conditions st.space tt.space c c')
    (hBare : d.bare = d'.bare) :
    Couples R (effect x c d) (effect y c' d') st tt
      anything := by
  have hNothing :
      Couples R (Pure.pure () : Run Unit)
        (Pure.pure () : Run Unit) st tt anything :=
    .pure hAlike trivial
  have hSettings := hContext.settings_eq
  cases d <;> cases d' <;>
    first
      | cases hBare
      | skip
  case define.define arguments arguments' =>
    simp only [effect, hSettings]
    exact
      couples_define hLawful hAlike
        (Directive.define.inj hBare) hc
  case undefine.undefine arguments arguments' =>
    simp only [effect, hSettings]
    exact
      couples_undefine hLawful hAlike
        (Directive.undefine.inj hBare) hc
  case inclusion.inclusion arguments arguments' =>
    exact
      hContext.follow hAlike (Directive.inclusion.inj hBare)
        hc
  case once.once =>
    simp only [effect, hContext.path_eq]
    exact couples_markOnce hAlike y.path
  all_goals exact hNothing

/- The frames of two runs belong together pairwise. -/
def StacksAlike
    (R : Coupling)
    (s t : Space)
    (stack stack' : List Frame) : Prop :=
  List.Forall₂ (Frame.Alike R s t) stack stack'

theorem StacksAlike.later
    (hStack : StacksAlike R s' t' stack stack')
    (hLater : R.Later s' t' s'' t'') :
    StacksAlike R s'' t'' stack stack' :=
  hStack.imp fun _ _ h => h.later hLater

/- A directive that puts a frame on top of a stack. -/
theorem Couples.push
    {f g : Run Frame}
    (hFrame : Couples R f g st tt (Frame.Alike R))
    (hStack : StacksAlike R st.space tt.space stack stack') :
    Couples R
      (do return (← f) :: stack) (do return (← g) :: stack')
      st tt (StacksAlike R) := by
  apply hFrame.bind
  intro st' tt' frame frame' hAlike hLater hFrame
  exact
    .pure hAlike (.cons hFrame (hStack.later hLater))

/- A directive that has no group to go on with. -/
theorem couples_alone
    (hAlike : st.Alike R tt)
    (text : String) :
    Couples R
      (do warn text; return []) (do warn text; return [])
      st tt (StacksAlike R) := by
  apply (couples_warn hAlike text).bind
  intro st' tt' _ _ hAlike' _ _
  exact .pure hAlike' .nil

/- A directive that opens and closes no branch. -/
theorem couples_plain
    (hLawful : R.Lawful)
    (hAlike : st.Alike R tt)
    (hContext : x.Alike R st.space tt.space y)
    (hStack : StacksAlike R st.space tt.space stack stack')
    (hBare : d.bare = d'.bare) :
    Couples R
      (do
        if current x.base stack ≠ .zero then
          effect x (current x.base stack) d
        return stack)
      (do
        if current y.base stack' ≠ .zero then
          effect y (current y.base stack') d'
        return stack')
      st tt (StacksAlike R) := by
  have hCurrent := current_alike hContext.base hStack
  have hZero := hLawful.eq_zero_iff hAlike.spaces hCurrent
  by_cases hDead : current x.base stack = .zero
  · simp only [hDead, hZero.mp hDead, ne_eq,
      not_true_eq_false, if_false]
    exact .pure hAlike hStack
  · simp only [ne_eq, hDead, hZero.not.mp hDead,
      not_false_eq_true, if_true]
    apply
      (couples_effect hLawful hAlike hContext hCurrent
        hBare).bind
    intro st' tt' _ _ hAlike' hLater _
    exact .pure hAlike' (hStack.later hLater)

/- A directive takes alike states to alike states. -/
theorem couples_directive
    (hLawful : R.Lawful)
    (hAlike : st.Alike R tt)
    (hContext : x.Alike R st.space tt.space y)
    (hStack : StacksAlike R st.space tt.space stack stack')
    (hBare : d.bare = d'.bare)
    (first : Bool) :
    Couples R (directive x first stack d)
      (directive y first stack' d') st tt
      (StacksAlike R) := by
  have hCurrent := current_alike hContext.base hStack
  have hPlain :=
    couples_plain hLawful hAlike hContext hStack hBare
  have hSettings := hContext.settings_eq
  have hPath := hContext.path_eq
  cases d <;> cases d' <;>
    first
      | cases hBare
      | skip
  case opening.opening word arguments word' arguments' =>
    rcases Directive.opening.inj hBare with
      ⟨rfl, hArguments⟩
    simp only [directive, hSettings]
    exact
      (couples_openGroup hLawful hAlike hArguments hCurrent
        first word).push hStack
  case alternative.alternative word arguments word' arguments' =>
    rcases Directive.alternative.inj hBare with
      ⟨rfl, hArguments⟩
    cases hStack with
    | nil =>
        simp only [directive, hPath]
        exact couples_alone hAlike _
    | cons hFrame hRest =>
        simp only [directive, hSettings]
        exact
          (couples_nextBranch hLawful hAlike hFrame
            hArguments word).push hRest
  case otherwise.otherwise =>
    cases hStack with
    | nil =>
        simp only [directive, hPath]
        exact couples_alone hAlike _
    | cons hFrame hRest =>
        exact
          (couples_lastBranch hLawful hAlike hFrame).push
            hRest
  case closing.closing =>
    cases hStack with
    | nil =>
        simp only [directive, hPath]
        exact couples_alone hAlike _
    | cons _ hRest => exact .pure hAlike hRest
  all_goals exact hPlain

------------------------------------------------------------
-- Lines
------------------------------------------------------------

/- Conditions of lines that belong together. -/
def ReachedAlike
    (R : Coupling)
    (s t : Space)
    (reached reached' : List (Nat × Condition)) : Prop :=
  List.Forall₂ (fun p q => R.conditions s t p.2 q.2)
    reached reached'

/- What a logical line leaves of the groups that are open. -/
def followLine
    (x : Context)
    (first : Bool)
    (stack : List Frame)
    (line : List Token) :
    Run (List Frame) :=
  match Directive.ofLine line with
  | some d => directive x first stack d
  | none => pure stack

/- Lines are read one after the other. -/
theorem readLines_cons
    (x : Context)
    (first : Bool)
    (stack : List Frame)
    (line : List Token)
    (rest : List (List Token)) :
    readLines x first stack (line :: rest) =
      followLine x first stack line >>= fun stack' => do
        let reached ← readLines x false stack' rest
        return ((line.getLast?.map (·.endLine)).getD 0,
          current x.base stack) :: reached := by
  rw [readLines]
  unfold followLine
  cases Directive.ofLine line <;> rfl

theorem couples_followLine
    (hLawful : R.Lawful)
    {line line' : List Token}
    (hLine : Token.Alike line line')
    (hAlike : st.Alike R tt)
    (hContext : x.Alike R st.space tt.space y)
    (hStack : StacksAlike R st.space tt.space stack stack')
    (first : Bool) :
    Couples R (followLine x first stack line)
      (followLine y first stack' line') st tt
      (StacksAlike R) := by
  have hBare :
      (Directive.ofLine line).map Directive.bare =
        (Directive.ofLine line').map Directive.bare := by
    rw [← Directive.ofLine_bare, ← Directive.ofLine_bare,
      hLine]
  unfold followLine
  generalize Directive.ofLine line = d? at hBare ⊢
  generalize Directive.ofLine line' = d?' at hBare ⊢
  cases d? with
  | none =>
      cases d?' with
      | none => exact .pure hAlike hStack
      | some => cases hBare
  | some d =>
      cases d?' with
      | none => cases hBare
      | some d' =>
          exact
            couples_directive hLawful hAlike hContext hStack
              (Option.some.inj hBare) first

/- Lines that differ at most in where they stand are read alike. -/
theorem couples_readLines
    (hLawful : R.Lawful)
    {lines lines' : List (List Token)}
    (hLines : List.Forall₂ Token.Alike lines lines')
    (hAlike : st.Alike R tt)
    (hContext : x.Alike R st.space tt.space y)
    (hStack : StacksAlike R st.space tt.space stack stack')
    (first : Bool) :
    Couples R (readLines x first stack lines)
      (readLines y first stack' lines') st tt
      (ReachedAlike R) := by
  induction hLines generalizing st tt stack stack' first with
  | nil =>
      have hLength := hStack.length_eq
      unfold readLines
      cases hStack with
      | nil => exact .pure hAlike .nil
      | cons =>
          rw [hLength, hContext.path_eq]
          apply (couples_warn hAlike _).bind
          intro st' tt' _ _ hAlike' _ _
          exact .pure hAlike' .nil
  | @cons line line' rest rest' hLine _ ih =>
      have hCurrent := current_alike hContext.base hStack
      rw [readLines_cons, readLines_cons]
      apply
        (couples_followLine hLawful hLine hAlike hContext
          hStack first).bind
      intro st' tt' stack stack' hAlike' hLater hStack'
      have hRest :=
        ih hAlike' (hContext.later hLater) hStack' false
      apply hRest.bind
      intro st'' tt'' reached reached' hAlike'' hLater'
        hReached
      have hLaterAll := hLater.trans hLater'
      exact
        .pure hAlike''
          (.cons (hLaterAll.keeps hCurrent) hReached)

/- The last physical lines do not depend on the run. -/
theorem map_fst_readLines
    (x : Context)
    (first : Bool)
    (stack : List Frame)
    (lines : List (List Token))
    (st : State) :
    (readLines x first stack lines st).1.map (·.1) =
      lines.map fun line =>
        (line.getLast?.map (·.endLine)).getD 0 := by
  induction lines generalizing first stack st with
  | nil =>
      unfold readLines
      cases stack <;> rfl
  | cons line rest ih =>
      rw [readLines_cons]
      exact congrArg (_ :: ·) (ih false _ _)

------------------------------------------------------------
-- Files
------------------------------------------------------------

/- How a file with at most `depth` files below it follows others. -/
def follow
    (s : Settings)
    (depth : Nat)
    (path : Path)
    (arguments : List Token)
    (c : Condition) :
    Run Unit :=
  match IncludeName.ofTokens? arguments with
  | none => pure ()
  | some i =>
      match depth with
      | 0 => tooDeep s path i
      | depth + 1 =>
          readIncluded s
            (fun file text c => do
              let _ ← process s depth file text c)
            path i c

theorem process_eq
    (s : Settings)
    (depth : Nat)
    (path : Path)
    (text : String)
    (base : Condition) :
    process s depth path text base =
      readLines ⟨s, path, base, follow s depth path⟩ true []
        (Token.logicalLines (Token.tokenize text)) := by
  rw [process]
  rfl

theorem couples_readIncluded
    {process : Path → String → Condition → Run Unit}
    (hProcess :
      ∀ {st tt c c'} file text, st.Alike R tt →
        R.conditions st.space tt.space c c' →
          Couples R (process file text c)
            (process file text c') st tt anything)
    (hAlike : st.Alike R tt)
    (hc : R.conditions st.space tt.space c c')
    (path : Path)
    (i : IncludeName) :
    Couples R (readIncluded s process path i c)
      (readIncluded s process path i c') st tt anything := by
  unfold readIncluded
  cases find? s path i with
  | none => exact .pure hAlike trivial
  | some file =>
      dsimp only
      apply (couples_isDone hAlike file).bind
      rintro st' tt' done _ hAlike' hLater rfl
      cases done with
      | true => exact .pure hAlike' trivial
      | false =>
          simp only [Bool.false_eq_true, if_false]
          cases s.tree.readLossy file with
          | ok text =>
              exact hProcess file text hAlike' (hLater.keeps hc)
          | error e => exact couples_warn hAlike' _

/- A file is preprocessed alike from alike states. -/
def ProcessCouples
    (R : Coupling)
    (s : Settings)
    (depth : Nat) : Prop :=
  ∀ {st tt c c'} path text, st.Alike R tt →
    R.conditions st.space tt.space c c' →
      Couples R (process s depth path text c)
        (process s depth path text c') st tt
        (ReachedAlike R)

/- A context follows inclusions as the processing below it does. -/
theorem context_alike
    {depth : Nat}
    (hBelow :
      ∀ below, depth = below + 1 → ProcessCouples R s below)
    (hBase : R.conditions s' t' c c')
    (path : Path) :
    Context.Alike R s' t' ⟨s, path, c, follow s depth path⟩
      ⟨s, path, c', follow s depth path⟩ where
  settings_eq := rfl
  path_eq := rfl
  base := hBase
  follow := by
    intro st tt arguments arguments' c c' hAlike hArguments hc
    dsimp only
    unfold Preprocessor.follow
    rw [← IncludeName.ofTokens?_bare arguments,
      ← IncludeName.ofTokens?_bare arguments', hArguments]
    cases IncludeName.ofTokens?
        (arguments'.map Token.bare) with
    | none => exact .pure hAlike trivial
    | some i =>
        cases depth with
        | zero => exact couples_warn hAlike _
        | succ below =>
            apply couples_readIncluded _ hAlike hc
            intro st tt c c' file text hAlike hc
            apply
              (hBelow below rfl file text hAlike hc).bind
            intro st' tt' _ _ hAlike' _ _
            exact .pure hAlike' trivial

/-
  A file is preprocessed alike from alike states, by induction
  on how many files may be inside each other below it.
-/
theorem couples_process
    (hLawful : R.Lawful)
    (s : Settings)
    (depth : Nat) :
    ProcessCouples R s depth := by
  induction depth with
  | zero =>
      intro st tt c c' path text hAlike hc
      have hBelow below (hEq : 0 = below + 1) :
          ProcessCouples R s below := by
        cases hEq
      have hContext := context_alike hBelow hc path
      rw [process_eq, process_eq]
      exact
        couples_readLines hLawful
          (List.forall₂_same.mpr fun _ _ => rfl) hAlike
          hContext .nil true
  | succ depth ih =>
      intro st tt c c' path text hAlike hc
      have hBelow below (hEq : depth + 1 = below + 1) :
          ProcessCouples R s below :=
        Nat.succ.inj hEq ▸ ih
      have hContext := context_alike hBelow hc path
      rw [process_eq, process_eq]
      exact
        couples_readLines hLawful
          (List.forall₂_same.mpr fun _ _ => rfl) hAlike
          hContext .nil true

------------------------------------------------------------
-- Main Files
------------------------------------------------------------

theorem couples_inject
    (hLawful : R.Lawful)
    (hAlike : st.Alike R tt)
    (path : Path)
    (text : String) :
    Couples R (inject s path text) (inject s path text) st tt
      anything := by
  unfold inject
  have hOne := hLawful.one hAlike.spaces
  apply
    (couples_process hLawful s s.maxDepth path text hAlike
      hOne).bind
  intro st' tt' _ _ hAlike' _ _
  exact .pure hAlike' trivial

/- Conditions of physical lines that belong together. -/
theorem perLine_alike
    {reached reached' : List (Nat × Condition)}
    (hReached : ReachedAlike R s' t' reached reached')
    (hLines : reached.map (·.1) = reached'.map (·.1))
    (done : Nat) :
    List.Forall₂ (R.conditions s' t') (perLine done reached)
      (perLine done reached') := by
  induction hReached generalizing done with
  | nil => exact .nil
  | @cons line line' rest rest' hFirst _ ih =>
      rcases line with ⟨last, c⟩
      rcases line' with ⟨last', c'⟩
      simp only [List.map_cons, List.cons.injEq] at hLines
      rcases hLines with ⟨rfl, hRest⟩
      have hCopies :
          List.Forall₂ (R.conditions s' t')
            (List.replicate (last - done) c)
            (List.replicate (last - done) c') := by
        generalize last - done = n
        induction n with
        | zero => exact .nil
        | succ n ih => exact .cons hFirst ih
      exact List.rel_append hCopies (ih hRest _)

/- Results that are the same failure or conditions that belong together. -/
inductive ResultsAlike
    (R : Coupling)
    (s t : Space) :
    Except FileError (List Condition) →
    Except FileError (List Condition) → Prop where
  | error (e : FileError) :
      ResultsAlike R s t (.error e) (.error e)
  | ok {cs ds : List Condition}
      (hEach : List.Forall₂ (R.conditions s t) cs ds) :
      ResultsAlike R s t (.ok cs) (.ok ds)

/- The lines of a file have conditions that belong together. -/
theorem couples_run
    (hLawful : R.Lawful)
    (hAlike : st.Alike R tt)
    (path : Path) :
    Couples R (run s path) (run s path) st tt
      (ResultsAlike R) := by
  unfold run
  cases s.tree.readLossy path with
  | error e => exact .pure hAlike (.error e)
  | ok text =>
      dsimp only
      have hOne := hLawful.one hAlike.spaces
      have hProcess :=
        couples_process hLawful s s.maxDepth path text hAlike
          hOne
      have hLines :
          (process s s.maxDepth path text .one st).1.map
              (·.1) =
            (process s s.maxDepth path text .one tt).1.map
              (·.1) := by
        rw [process_eq, map_fst_readLines,
          map_fst_readLines]
      exact
        ⟨hProcess.later, hProcess.alike,
          .ok (perLine_alike hProcess.post hLines 0)⟩

end Preprocessor

end Variability
