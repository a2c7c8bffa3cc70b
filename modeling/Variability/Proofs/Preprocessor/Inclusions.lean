import Variability.Proofs.Preprocessor.Configuration

/-
  Reading files that include each other in a single configuration.

  A configuration follows the inclusions that it reaches. It
  leaves a file out if `#pragma once` was reached in that file
  before, in this configuration. Code that is not reached changes
  nothing, however deep it is.

  Main declarations:
    * `Configuration.Notes`
    * `Configuration.Memory`
    * `Configuration.process`
    * `Configuration.readFile_unreached`
-/

namespace Variability

namespace Configuration

------------------------------------------------------------
-- What Is Told
------------------------------------------------------------

/-
  A note on every logical line of a file and, below it, of the
  file that the line includes.
-/
inductive Notes (α : Type) where
  | done
  | line (note : α) (inside rest : Notes α)

namespace Notes

variable {α β : Type}

def map (f : α → β) : Notes α → Notes β
  | .done => .done
  | .line note inside rest =>
      .line (f note) (inside.map f) (rest.map f)

/- The note on the first line. -/
def note? : Notes α → Option α
  | .done => none
  | .line note _ _ => some note

/- The notes on the file that the first line includes. -/
def inside : Notes α → Notes α
  | .done => .done
  | .line _ inside _ => inside

/- The notes behind the first line. -/
def rest : Notes α → Notes α
  | .done => .done
  | .line _ _ rest => rest

end Notes

/- What one file leaves for those that follow. -/
structure Memory where
  status : String → Status
  /- The files that are not read again. -/
  once : List Path

/- How a file is read that an inclusion asks for. -/
abbrev Entering := List Token → Notes Bool → Memory → Memory

------------------------------------------------------------
-- Files
------------------------------------------------------------

/-
  Follow a directive, given the truth of its expression and what
  is told of the file that it includes.
-/
def follow
    (x : Configuration)
    (path : Path)
    (enter : Entering)
    (base : Bool)
    (told : Notes Bool)
    (stack : List Branch)
    (m : Memory)
    (d : Directive) :
    List Branch × Memory :=
  let s : State := ⟨stack, m.status⟩
  let next := x.step base false s (told.note?.getD false) d
  ( next.stack,
    if s.isReached base then
      match d with
      | .inclusion arguments => enter arguments told.inside m
      | .once => { m with once := path.normalize :: m.once }
      | _ => { m with status := next.status }
    else m )

/-
  Read logical lines, and give for each its last physical line
  and whether it is reached.
-/
def readFile
    (x : Configuration)
    (path : Path)
    (enter : Entering)
    (base : Bool)
    (stack : List Branch)
    (m : Memory) :
    List (List Token) →
    Notes Bool →
    List (Nat × Bool) × Memory
  | [], _ => ([], m)
  | line :: rest, told =>
      let next :=
        match Directive.ofLine line with
        | some d => x.follow path enter base told stack m d
        | none => (stack, m)
      let out :=
        readFile x path enter base next.1 next.2 rest told.rest
      ( ((line.getLast?.map (·.endLine)).getD 0,
          State.isReached base ⟨stack, m.status⟩) :: out.1,
        out.2 )

/-
  Read the file that an inclusion leads to by `read`, unless it
  is not to be read again.
-/
def enter
    (s : Preprocessor.Settings)
    (path : Path)
    (read : Path → String → Notes Bool → Memory → Memory) :
    Entering :=
  fun arguments told m =>
    match IncludeName.ofTokens? arguments with
    | none => m
    | some i =>
        match Preprocessor.find? s path i with
        | none => m
        | some file =>
            if m.once.any file.same then m
            else
              match s.tree.readLossy file with
              | .ok text => read file text told m
              | .error _ => m

/-
  Read the text of a file that is reached or not, with at most
  `depth` files inside each other below it.
-/
def process
    (x : Configuration)
    (s : Preprocessor.Settings)
    (depth : Nat)
    (path : Path)
    (text : String)
    (base : Bool)
    (told : Notes Bool)
    (m : Memory) :
    List (Nat × Bool) × Memory :=
  let below : Entering :=
    match depth with
    | 0 => fun _ _ m => m
    | depth + 1 =>
        enter s path fun file text told m =>
          (process x s depth file text true told m).2
  x.readFile path below base [] m
    (Token.logicalLines (Token.tokenize text)) told

/- How a file with at most `depth` files below it includes others. -/
def below
    (x : Configuration)
    (s : Preprocessor.Settings)
    (depth : Nat)
    (path : Path) :
    Entering :=
  match depth with
  | 0 => fun _ _ m => m
  | depth + 1 =>
      enter s path fun file text told m =>
        (process x s depth file text true told m).2

theorem process_eq
    (x : Configuration)
    (s : Preprocessor.Settings)
    (depth : Nat)
    (path : Path)
    (text : String)
    (base : Bool)
    (told : Notes Bool)
    (m : Memory) :
    x.process s depth path text base told m =
      x.readFile path (x.below s depth path) base [] m
        (Token.logicalLines (Token.tokenize text)) told := by
  cases depth <;> rfl

------------------------------------------------------------
-- Code That Is Not Reached
------------------------------------------------------------

variable {x : Configuration}
variable {path : Path}
variable {inside : Entering}
variable {told : Notes Bool}
variable {stack : List Branch}
variable {m : Memory}
variable {d : Directive}

/- Where code is not reached no directive decides anything. -/
theorem status_step_of_not_isReached
    {base : Bool}
    {s : State}
    (hReached : s.isReached base = false)
    (truth : Bool)
    (d : Directive) :
    (x.step base false s truth d).status = s.status := by
  cases d with
  | opening | closing => rfl
  | alternative | otherwise =>
      unfold Configuration.step
      cases s.stack <;> rfl
  | define | undefine | inclusion | once | other =>
      unfold Configuration.step
      rw [hReached]
      rfl

/- A directive that asks for no file and marks none. -/
theorem snd_follow
    (hInclusion : ∀ arguments, d ≠ .inclusion arguments)
    (hOnce : d ≠ .once)
    (base : Bool) :
    (x.follow path inside base told stack m d).2 =
      { m with
        status :=
          (x.step base false ⟨stack, m.status⟩
            (told.note?.getD false) d).status } := by
  unfold follow
  dsimp only
  by_cases hReached :
      State.isReached base ⟨stack, m.status⟩ = true
  · rw [if_pos hReached]
    cases d with
    | inclusion arguments => exact absurd rfl (hInclusion _)
    | once => exact absurd rfl hOnce
    | _ => rfl
  · rw [if_neg hReached,
      status_step_of_not_isReached
        (Bool.eq_false_iff.mpr hReached)]

/- Directives about other files leave all branches as they are. -/
theorem follow_inclusion
    (base : Bool)
    (arguments : List Token) :
    x.follow path inside base told stack m (.inclusion arguments) =
      (stack,
        if State.isReached base ⟨stack, m.status⟩ then
          inside arguments told.inside m
        else m) := by
  refine Prod.ext ?_ rfl
  unfold follow Configuration.step
  dsimp only
  split <;> rfl

theorem follow_once
    (base : Bool) :
    x.follow path inside base told stack m .once =
      (stack,
        if State.isReached base ⟨stack, m.status⟩ then
          { m with once := path.normalize :: m.once }
        else m) := by
  refine Prod.ext ?_ rfl
  unfold follow Configuration.step
  dsimp only
  split <;> rfl

theorem readFile_text
    {line : List Token}
    (hDirective : Directive.ofLine line = none)
    (base : Bool)
    (rest : List (List Token)) :
    x.readFile path inside base stack m (line :: rest) told =
      let out :=
        x.readFile path inside base stack m rest told.rest
      (((line.getLast?.map (·.endLine)).getD 0,
          State.isReached base ⟨stack, m.status⟩) :: out.1,
        out.2) := by
  rw [readFile, hDirective]

theorem readFile_directive
    {line : List Token}
    (hDirective : Directive.ofLine line = some d)
    (base : Bool)
    (rest : List (List Token)) :
    x.readFile path inside base stack m (line :: rest) told =
      let next := x.follow path inside base told stack m d
      let out :=
        x.readFile path inside base next.1 next.2 rest told.rest
      (((line.getLast?.map (·.endLine)).getD 0,
          State.isReached base ⟨stack, m.status⟩) :: out.1,
        out.2) := by
  rw [readFile, hDirective]

/- Groups that are not reached. -/
def AreUnreached (stack : List Branch) : Prop :=
  ∀ branch ∈ stack,
    branch.outer = false ∧ branch.active = false

theorem AreUnreached.isReached_eq
    (hStack : AreUnreached stack)
    (status : String → Status) :
    State.isReached false ⟨stack, status⟩ = false := by
  unfold State.isReached
  cases stack with
  | nil => rfl
  | cons branch rest =>
      exact (hStack branch List.mem_cons_self).2

/- A directive in them opens none that is reached. -/
theorem AreUnreached.step
    (hStack : AreUnreached stack)
    (status : String → Status)
    (truth : Bool)
    (d : Directive) :
    AreUnreached
      (x.step false false ⟨stack, status⟩ truth d).stack := by
  have hReached := hStack.isReached_eq status
  cases d with
  | opening word arguments =>
      intro branch hMem
      rcases List.mem_cons.mp hMem with rfl | hMem
      · exact ⟨hReached, by rw [hReached, Bool.false_and]⟩
      · exact hStack branch hMem
  | alternative | otherwise =>
      cases stack with
      | nil => exact hStack
      | cons top rest =>
          have hTop := (hStack top List.mem_cons_self).1
          intro branch hMem
          rcases List.mem_cons.mp hMem with rfl | hMem
          · exact ⟨hTop, by simp [hTop]⟩
          · exact hStack branch (List.mem_cons_of_mem _ hMem)
  | closing =>
      intro branch hMem
      exact hStack branch (List.mem_of_mem_tail hMem)
  | define | undefine | inclusion | once | other =>
      unfold Configuration.step
      rw [hReached]
      exact hStack

theorem AreUnreached.follow
    (hStack : AreUnreached stack) :
    AreUnreached
        (x.follow path inside false told stack m d).1 ∧
      (x.follow path inside false told stack m d).2 = m := by
  refine ⟨hStack.step m.status _ d, ?_⟩
  unfold Configuration.follow
  dsimp only
  rw [hStack.isReached_eq]
  rfl

/- Lines that are not reached change nothing. -/
theorem readFile_unreached
    (hStack : AreUnreached stack)
    (lines : List (List Token)) :
    (x.readFile path inside false stack m lines told).2 = m := by
  induction lines generalizing stack told with
  | nil => rfl
  | cons line rest ih =>
      cases hDirective : Directive.ofLine line with
      | none =>
          rw [readFile_text hDirective]
          exact ih hStack
      | some d =>
          rw [readFile_directive hDirective]
          dsimp only
          rw [hStack.follow.2]
          exact ih hStack.follow.1

/- Nor does a whole file. -/
theorem process_unreached
    (x : Configuration)
    (s : Preprocessor.Settings)
    (depth : Nat)
    (path : Path)
    (text : String)
    (told : Notes Bool)
    (m : Memory) :
    (x.process s depth path text false told m).2 = m := by
  rw [process_eq]
  exact readFile_unreached (List.forall_mem_nil _) _

end Configuration

end Variability
