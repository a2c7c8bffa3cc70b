import Variability.Proofs.Expression.Nesting
import Variability.Proofs.Preprocessor.Coupling
import Variability.Proofs.Preprocessor.Lifting
import Variability.Proofs.Token.LineOrder

/-
  Preprocessing ends.

  A machine preprocesses files by calling itself for the files
  they include, and counts how many files are inside each other.
  Expressions are evaluated by walkers, of which each starts with
  an empty stack. Nothing bounds how often the machine or its
  walkers call themselves but their fuel, and there is no answer
  where it is used up. Every inclusion is noted when it is over.

  For every file tree and in every state there is enough fuel,
  and then the machine does what the preprocessor does.

  Main declarations:
    * `Preprocessor.Steps.process`
    * `Preprocessor.Ending.InBounds`
    * `Preprocessor.Steps.settles_process`
    * `Preprocessor.run_terminates`
-/

namespace Variability

namespace Preprocessor

------------------------------------------------------------
-- Machines
------------------------------------------------------------

/- What is noted when it is over. -/
inductive Ending where
  | expansion (x : Expansion)
  /- How many files were inside each other before and after. -/
  | inclusion (before after : Nat)

/-
  The count of files is as before, and one more did not exceed
  the limit; for the names on a stack, see there.
-/
def Ending.InBounds (s : Settings) : Ending → Prop
  | .expansion x => x.InBounds
  | .inclusion before after =>
      after = before ∧ before < s.maxDepth

/- What changes while files are preprocessed. -/
structure Machine where
  state : State
  /- How many files are inside each other. -/
  depth : Nat
  /- What is over, the last one at the end. -/
  ended : List Ending

/- A computation of a machine, none where its fuel is used up. -/
abbrev Steps := StateT Machine Option

namespace Steps

variable {α β : Type}

/- A computation that calls nothing again. -/
def ofRun (f : Run α) : Steps α := fun w =>
  some ((f w.state).1, { w with state := (f w.state).2 })

/- The condition of an expression, by a walker of its own. -/
def condition
    (s : Settings)
    (fuel : Nat)
    (tokens : List Token) :
    Steps Condition := fun w =>
  let e : Evaluator := ⟨w.state.definitions, s.isFree⟩
  (Walk.condition e fuel tokens ⟨w.state.space, [], []⟩).map
    fun (c, walker) =>
      (c, { w with
        state := { w.state with space := walker.space }
        ended := w.ended ++ walker.ended.map .expansion })

/- The condition that a test asks for. -/
def testCondition
    (s : Settings)
    (fuel : Nat)
    (word : String)
    (arguments : List Token) :
    Steps Condition :=
  match Test.ofWord word arguments with
  | .expression tokens => condition s fuel tokens
  | _ => ofRun (Preprocessor.testCondition s word arguments)

/- The test of an opening; `first` on the first line of its file. -/
def openingCondition
    (s : Settings)
    (fuel : Nat)
    (first : Bool)
    (word : String)
    (arguments : List Token) :
    Steps Condition := do
  match first && word == "ifndef", arguments.head? with
  | true, some guard =>
      if ← ofRun (build fun definitions =>
          pure (isGuard s definitions guard.text)) then
        return .one
      else
        testCondition s fuel word arguments
  | _, _ => testCondition s fuel word arguments

/- Open a group of branches. -/
def openGroup
    (s : Settings)
    (fuel : Nat)
    (first : Bool)
    (outer : Condition)
    (word : String)
    (arguments : List Token) :
    Steps Frame := do
  if outer = .zero then
    return ⟨outer, .one, .zero⟩
  else
    let c ← openingCondition s fuel first word arguments
    let active ← ofRun (build fun _ => Condition.and outer c)
    return ⟨outer, c, active⟩

/- The next branch of a group. -/
def nextBranch
    (s : Settings)
    (fuel : Nat)
    (frame : Frame)
    (word : String)
    (arguments : List Token) :
    Steps Frame := do
  let left ← ofRun (build fun _ =>
    Condition.and frame.outer (-frame.taken))
  if left = .zero then
    return { frame with active := .zero }
  else
    let c ← testCondition s fuel word arguments
    let active ← ofRun (build fun _ => Condition.and left c)
    let taken ← ofRun (build fun _ => Condition.or frame.taken c)
    return { frame with taken, active }

/- Do something with one more file inside the others. -/
def inside (f : Steps Unit) : Steps Unit := do
  let before ← get
  modify fun w => { w with depth := w.depth + 1 }
  f
  modify fun w => { w with depth := w.depth - 1 }
  let after ← get
  modify fun w =>
    { w with
      ended := w.ended ++ [.inclusion before.depth after.depth] }

/- Read the file that an inclusion leads to by `process`. -/
def readIncluded
    (s : Settings)
    (process : Path → String → Condition → Steps Unit)
    (path : Path)
    (i : IncludeName)
    (c : Condition) :
    Steps Unit := do
  match find? s path i with
  | none => pure ()
  | some file =>
      if ← ofRun (isDone file) then
        pure ()
      else
        match s.tree.readLossy file with
        | .ok text => inside (process file text c)
        | .error e =>
            ofRun (warn
              ("Could not read " ++ file.text ++ ": " ++
                e.message))

/- Read a file if the limit is not reached. -/
def readInLimit
    (s : Settings)
    (process : Path → String → Condition → Steps Unit)
    (path : Path)
    (i : IncludeName)
    (c : Condition) :
    Steps Unit := do
  let w ← get
  if s.maxDepth ≤ w.depth then
    ofRun (tooDeep s path i)
  else
    readIncluded s process path i c

/- Follow an inclusion. -/
def follow
    (s : Settings)
    (process : Path → String → Condition → Steps Unit)
    (path : Path)
    (arguments : List Token)
    (c : Condition) :
    Steps Unit :=
  match IncludeName.ofTokens? arguments with
  | none => pure ()
  | some i => readInLimit s process path i c

/- Follow a directive, and give the groups that are open then. -/
def directive
    (x : Context)
    (fuel : Nat)
    (follow : List Token → Condition → Steps Unit)
    (first : Bool)
    (stack : List Frame)
    (d : Directive) :
    Steps (List Frame) := do
  let c := current x.base stack
  match d, stack with
  | .opening word arguments, _ =>
      return (← openGroup x.settings fuel first c word
        arguments) :: stack
  | .alternative word arguments, frame :: outer =>
      return (← nextBranch x.settings fuel frame word
        arguments) :: outer
  | .inclusion arguments, stack =>
      if c ≠ .zero then
        follow arguments c
      return stack
  | d, stack => ofRun (Preprocessor.directive x first stack d)

/- What a logical line leaves of the groups that are open. -/
def followLine
    (x : Context)
    (fuel : Nat)
    (follow : List Token → Condition → Steps Unit)
    (first : Bool)
    (stack : List Frame)
    (line : List Token) :
    Steps (List Frame) :=
  match Directive.ofLine line with
  | some d => directive x fuel follow first stack d
  | none => pure stack

/- Read logical lines one after the other. -/
def readLines
    (x : Context)
    (fuel : Nat)
    (follow : List Token → Condition → Steps Unit)
    (first : Bool)
    (stack : List Frame) :
    List (List Token) → Steps (List (Nat × Condition))
  | [] => ofRun (Preprocessor.readLines x first stack [])
  | line :: rest => do
      let stack' ← followLine x fuel follow first stack line
      let reached ← readLines x fuel follow false stack' rest
      return (Token.lastLine line, current x.base stack) :: reached

/- Preprocess the text of a file, if the fuel is enough. -/
def process (s : Settings) :
    (fuel : Nat) →
    Path →
    String →
    Condition →
    Steps (List (Nat × Condition))
  | 0, _, _, _ => fun _ => none
  | fuel + 1, path, text, base =>
      let follow :=
        follow s
          (fun file text c => do
            let _ ← process s fuel file text c)
          path
      readLines (.closed s path base) fuel follow true []
        (Token.logicalLines (Token.tokenize text))

/- The conditions of the lines of a file. -/
def run
    (s : Settings)
    (fuel : Nat)
    (path : Path) :
    Steps (Except FileError (List Condition)) := do
  match s.tree.readLossy path with
  | .error e => return .error e
  | .ok text =>
      let reached ← process s fuel path text .one
      return .ok (perLine 0 reached)

------------------------------------------------------------
-- Settling
------------------------------------------------------------

/- A machine that has this many files inside each other. -/
def withDepth
    (depth : Nat)
    (st : State)
    (ended : List Ending) :
    Machine :=
  ⟨st, depth, ended⟩

/-
  With enough fuel a machine at this depth has an answer: it does
  what `g` does, leaves the depth as it was, and notes endings
  that are in bounds.
-/
abbrev SettlesAt
    (s : Settings)
    (depth : Nat)
    (f : Nat → Steps α)
    (g : Run α) : Prop :=
  Settles (withDepth depth) (Ending.InBounds s) f g

variable {s : Settings}
variable {depth : Nat}

theorem settles_ofRun (g : Run α) :
    SettlesAt s depth (fun _ => ofRun g) g :=
  .ofStep fun _ _ _ => rfl

/- Walkers settle with the empty stack that they start with. -/
theorem settles_condition (tokens : List Token) :
    SettlesAt s depth (fun fuel => condition s fuel tokens)
      (build fun definitions =>
        Evaluator.condition ⟨definitions, s.isFree⟩ tokens) := by
  intro st ended
  rcases st with ⟨space, definitions, once, log⟩
  let e : Evaluator := ⟨definitions, s.isFree⟩
  rcases Walk.settles_condition (e := e) tokens space [] with
    ⟨least, more, hMore, hRun⟩
  refine ⟨least, more.map .expansion, ?_, fun fuel hFuel => ?_⟩
  · intro ending hMem
    rcases List.mem_map.mp hMem with ⟨x, hx, rfl⟩
    exact hMore x hx
  · have hWalker :
        Walk.condition e fuel tokens ⟨space, [], []⟩ = _ :=
      hRun fuel hFuel
    change
      Option.map _
          (Walk.condition e fuel tokens ⟨space, [], []⟩) =
        _
    rw [hWalker]
    rfl

------------------------------------------------------------
-- Branches
------------------------------------------------------------

theorem settles_testCondition
    (word : String)
    (arguments : List Token) :
    SettlesAt s depth
      (fun fuel => testCondition s fuel word arguments)
      (Preprocessor.testCondition s word arguments) := by
  unfold testCondition
  cases hTest : Test.ofWord word arguments with
  | expression tokens =>
      unfold Preprocessor.testCondition
      rw [hTest]
      exact settles_condition tokens
  | definedness | unnamed => exact settles_ofRun _

theorem settles_openingCondition
    (first : Bool)
    (word : String)
    (arguments : List Token) :
    SettlesAt s depth
      (fun fuel => openingCondition s fuel first word arguments)
      (Preprocessor.openingCondition s first word arguments) := by
  have hTest :
      SettlesAt s depth
        (fun fuel => testCondition s fuel word arguments)
        (Preprocessor.testCondition s word arguments) :=
    settles_testCondition word arguments
  unfold openingCondition Preprocessor.openingCondition
  cases first && word == "ifndef" with
  | false => exact hTest
  | true =>
      cases hHead : arguments.head? with
      | none => exact hTest
      | some guard =>
          apply (settles_ofRun _).bind
          intro st
          split
          · exact .pure _
          · exact hTest

theorem settles_openGroup
    (first : Bool)
    (outer : Condition)
    (word : String)
    (arguments : List Token) :
    SettlesAt s depth
      (fun fuel => openGroup s fuel first outer word arguments)
      (Preprocessor.openGroup s first outer word arguments) := by
  unfold openGroup Preprocessor.openGroup
  by_cases hZero : outer = .zero
  · simp only [hZero, if_true]
    exact .pure _
  · simp only [hZero, if_false]
    apply (settles_openingCondition first word arguments).bind
    intro _
    apply (settles_ofRun _).bind
    intro _
    exact .pure _

theorem settles_nextBranch
    (frame : Frame)
    (word : String)
    (arguments : List Token) :
    SettlesAt s depth
      (fun fuel => nextBranch s fuel frame word arguments)
      (Preprocessor.nextBranch s frame word arguments) := by
  unfold nextBranch Preprocessor.nextBranch
  apply (settles_ofRun _).bind
  intro st
  split
  · exact .pure _
  · apply (settles_testCondition word arguments).bind
    intro _
    apply (settles_ofRun _).bind
    intro _
    apply (settles_ofRun _).bind
    intro _
    exact .pure _

------------------------------------------------------------
-- Lines
------------------------------------------------------------

variable {path : Path}
variable {base : Condition}
variable {stack : List Frame}
variable {follow : Nat → List Token → Condition → Steps Unit}
variable {follow' : List Token → Condition → Run Unit}

/- A directive settles if what it may include does. -/
theorem settles_directive
    (hFollow :
      ∀ arguments c,
        SettlesAt s depth (fun fuel => follow fuel arguments c)
          (follow' arguments c))
    (first : Bool)
    (d : Directive) :
    SettlesAt s depth
      (fun fuel =>
        directive (.closed s path base) fuel (follow fuel) first
          stack d)
      (Preprocessor.directive ⟨s, path, base, follow'⟩ first
        stack d) := by
  have hOther
      (hInclusion : ∀ arguments, d ≠ .inclusion arguments) :
      SettlesAt s depth
        (fun _ =>
          ofRun (Preprocessor.directive (.closed s path base)
            first stack d))
        (Preprocessor.directive ⟨s, path, base, follow'⟩ first
          stack d) := by
    have hSame :
        Preprocessor.directive ⟨s, path, base, follow'⟩ first
            stack d =
          Preprocessor.directive (.closed s path base) first
            stack d :=
      directive_follow (x := .closed s path base) follow' first
        hInclusion
    rw [hSame]
    exact settles_ofRun _
  cases d with
  | opening word arguments =>
      exact
        (settles_openGroup first (current base stack) word
          arguments).map (· :: stack)
  | alternative word arguments =>
      cases stack with
      | nil => exact hOther (by simp)
      | cons frame outer =>
          exact
            (settles_nextBranch frame word arguments).map
              (· :: outer)
  | inclusion arguments =>
      by_cases hZero : current base stack = .zero
      · simp only [directive, Preprocessor.directive,
          Context.closed, hZero]
        exact .pure _
      · simp only [directive, Preprocessor.directive,
          Context.closed, ne_eq, hZero, not_false_eq_true,
          if_true]
        exact
          (hFollow arguments (current base stack)).bind
            fun _ => .pure _
  | otherwise | closing | define | undefine | once | other =>
      exact hOther (by simp)

theorem settles_readLines
    (hFollow :
      ∀ arguments c,
        SettlesAt s depth (fun fuel => follow fuel arguments c)
          (follow' arguments c))
    (first : Bool)
    (stack : List Frame)
    (lines : List (List Token)) :
    SettlesAt s depth
      (fun fuel =>
        readLines (.closed s path base) fuel (follow fuel) first
          stack lines)
      (Preprocessor.readLines ⟨s, path, base, follow'⟩ first
        stack lines) := by
  induction lines generalizing first stack with
  | nil => exact settles_ofRun _
  | cons line rest ih =>
      have hLine :
          SettlesAt s depth
            (fun fuel =>
              followLine (.closed s path base) fuel
                (follow fuel) first stack line)
            (Preprocessor.followLine ⟨s, path, base, follow'⟩
              first stack line) := by
        unfold followLine Preprocessor.followLine
        cases Directive.ofLine line with
        | some d => exact settles_directive hFollow first d
        | none => exact .pure stack
      rw [readLines_cons]
      unfold readLines
      apply hLine.bind
      intro _
      apply (ih false _).bind
      intro _
      exact .pure _

------------------------------------------------------------
-- Files
------------------------------------------------------------

/- What settles one file deeper does so around it. -/
theorem settles_inside
    {f : Nat → Steps Unit}
    {g : Run Unit}
    (hRoom : depth < s.maxDepth)
    (hInside : SettlesAt s (depth + 1) f g) :
    SettlesAt s depth (fun fuel => inside (f fuel)) g := by
  let back (out : Unit × Machine) : Option (Unit × Machine) :=
    some ((),
      ⟨out.2.state, out.2.depth - 1,
        out.2.ended ++ [.inclusion depth (out.2.depth - 1)]⟩)
  have hNote : Ending.InBounds s (.inclusion depth depth) :=
    ⟨rfl, hRoom⟩
  exact
    Settles.within back hInside hNote (fun _ _ _ => rfl)
      fun _ _ _ => rfl

/- A file that is found settles if reading it does. -/
theorem settles_readIncluded
    {f : Nat → Path → String → Condition → Steps Unit}
    {g : Path → String → Condition → Run Unit}
    (hRoom : depth < s.maxDepth)
    (hBelow :
      ∀ file text c,
        SettlesAt s (depth + 1) (fun fuel => f fuel file text c)
          (g file text c))
    (i : IncludeName)
    (c : Condition) :
    SettlesAt s depth
      (fun fuel => Steps.readIncluded s (f fuel) path i c)
      (Preprocessor.readIncluded s g path i c) := by
  unfold Steps.readIncluded Preprocessor.readIncluded
  cases find? s path i with
  | none => exact .pure ()
  | some file =>
      apply (settles_ofRun _).bind
      intro st
      split
      · exact .pure ()
      · cases s.tree.readLossy file with
        | ok text =>
            exact settles_inside hRoom (hBelow file text c)
        | error e => exact settles_ofRun _

/- An inclusion settles if the files below it do. -/
theorem settles_follow
    {f : Nat → Path → String → Condition → Steps Unit}
    {below : Nat}
    (hDepth : below + depth = s.maxDepth)
    (hBelow :
      ∀ k, below = k + 1 → ∀ file text c,
        SettlesAt s (depth + 1) (fun fuel => f fuel file text c)
          (do let _ ← Preprocessor.process s k file text c))
    (arguments : List Token)
    (c : Condition) :
    SettlesAt s depth
      (fun fuel => Steps.follow s (f fuel) path arguments c)
      (Preprocessor.follow s below path arguments c) := by
  unfold Steps.follow Preprocessor.follow
  cases IncludeName.ofTokens? arguments with
  | none => exact .pure ()
  | some i =>
      have hRun (fuel : Nat) (st : State) (ended : List Ending) :
          readInLimit s (f fuel) path i c
              (withDepth depth st ended) =
            (if s.maxDepth ≤ depth then
              ofRun (tooDeep s path i)
            else
              Steps.readIncluded s (f fuel) path i c)
              (withDepth depth st ended) := rfl
      cases below with
      | zero =>
          have hLimit : s.maxDepth ≤ depth := by omega
          simp only [hLimit, if_true] at hRun
          exact (settles_ofRun _).congr hRun
      | succ below =>
          have hRoom : depth < s.maxDepth := by omega
          simp only [Nat.not_le.mpr hRoom, if_false] at hRun
          exact
            (settles_readIncluded hRoom (hBelow below rfl) i
              c).congr hRun

/- A file settles if those do that it may include. -/
theorem settles_process_of_below
    {below : Nat}
    (hDepth : below + depth = s.maxDepth)
    (hBelow :
      ∀ k, below = k + 1 → ∀ file text c,
        SettlesAt s (depth + 1)
          (fun fuel => process s fuel file text c)
          (Preprocessor.process s k file text c))
    (path : Path)
    (text : String)
    (base : Condition) :
    SettlesAt s depth
      (fun fuel => process s fuel path text base)
      (Preprocessor.process s below path text base) := by
  have hFollow (arguments : List Token) (c : Condition) :
      SettlesAt s depth
        (fun fuel =>
          Steps.follow s
            (fun file text c => do
              let _ ← process s fuel file text c)
            path arguments c)
        (Preprocessor.follow s below path arguments c) :=
    settles_follow hDepth
      (fun k hk file text c =>
        (hBelow k hk file text c).bind fun _ => .pure ())
      arguments c
  rw [process_eq]
  exact
    Settles.succ (settles_readLines hFollow true [] _)
      fun _ _ _ => rfl

/-
  Every file settles, by induction on how many more files may
  be inside it.
-/
theorem settles_process
    (below depth : Nat)
    (hDepth : below + depth = s.maxDepth)
    (path : Path)
    (text : String)
    (base : Condition) :
    SettlesAt s depth
      (fun fuel => process s fuel path text base)
      (Preprocessor.process s below path text base) := by
  induction below generalizing depth path text base with
  | zero =>
      apply settles_process_of_below hDepth
      intro k hk
      omega
  | succ below ih =>
      apply settles_process_of_below hDepth
      intro k hk
      rw [← Nat.succ.inj hk]
      exact ih (depth + 1) (by omega)

theorem settles_run
    (s : Settings)
    (path : Path) :
    SettlesAt s 0 (fun fuel => run s fuel path)
      (Preprocessor.run s path) := by
  unfold run Preprocessor.run
  cases s.tree.readLossy path with
  | error e => exact .pure _
  | ok text =>
      exact
        (settles_process s.maxDepth 0 rfl path text .one).bind
          fun _ => .pure _

end Steps

/-
  For every file tree, file and state there is enough fuel: with
  it the machine does what the preprocessor does and is at depth
  zero again, and all expansions and inclusions left the stack
  and the depth as they were and within their limits.
-/
theorem run_terminates
    (s : Settings)
    (path : Path)
    (st : State) :
    ∃ least ended,
      (∀ x ∈ ended, Ending.InBounds s x) ∧
        ∀ fuel, least ≤ fuel →
          Steps.run s fuel path ⟨st, 0, []⟩ =
            some ((run s path st).1,
              ⟨(run s path st).2, 0, ended⟩) := by
  rcases Steps.settles_run s path st [] with
    ⟨least, ended, hBounds, hRun⟩
  exact ⟨least, ended, hBounds, hRun⟩

end Preprocessor

end Variability
