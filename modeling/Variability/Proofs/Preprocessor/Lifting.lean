import Variability.Proofs.Preprocessor.Directives

/-
  Reading a file for all configurations at once reads it in each.

  The conditions of frames and definitions project to the truth
  values and statuses of a single configuration. Each directive
  keeps this, and from it follows that the condition of a line
  holds exactly in the configurations that reach the line.

  Main declarations:
    * `Preprocessor.consulted`
    * `Preprocessor.Reads`
    * `Preprocessor.readLines_projects`
    * `Preprocessor.process_reaches`
-/

namespace Variability

namespace Preprocessor

variable {s : Settings}
variable {st : State}
variable {s' s'' : Space}
variable {a : Nat → Bool}
variable {x : Context}
variable {base : Condition}
variable {stack : List Frame}
variable {d : Directive}

------------------------------------------------------------
-- Lines
------------------------------------------------------------

/-
  The conditions that the evaluator gives while lines are read,
  one place for each line.
-/
def consulted
    (x : Context)
    (first : Bool)
    (stack : List Frame) :
    List (List Token) → State → List (Option Condition)
  | [], _ => []
  | line :: rest, st =>
      match Directive.ofLine line with
      | none => none :: consulted x false stack rest st
      | some d =>
          let out := directive x first stack d st
          consultedAt x.settings x.base stack d st ::
            consulted x false out.1 rest out.2

/- What reading lines leaves, and what it says of each. -/
structure Reads
    (x : Context)
    (known : Definitions)
    (first : Bool)
    (stack : List Frame)
    (lines : List (List Token))
    (st : State)
    (out : List (Nat × Condition) × State) : Prop where
  sound : out.2.Sound
  grows : st.space.Grows out.2.space
  projects :
    ∀ s', s'.Sound → out.2.space.Grows s' → ∀ a k,
      Projects s' a stack st.definitions k →
      out.1.map
          (fun line => (line.1, s'.manager.eval line.2 a)) =
        (configuration x.settings known s' a).read
          (s'.manager.eval x.base a) first k lines
          ((consulted x first stack lines st).map
            (truth s' a))

variable {known : Definitions}
variable {first : Bool}
variable {line : List Token}
variable {rest : List (List Token)}

/- The end of a file says nothing of further lines. -/
theorem reads_nil
    (hSound : st.Sound) :
    Reads x known first stack [] st
      (readLines x first stack [] st) := by
  have hRun :
      (readLines x first stack [] st).1 = [] ∧
        (readLines x first stack [] st).2.space = st.space ∧
        (readLines x first stack [] st).2.definitions =
          st.definitions := by
    cases stack <;> exact ⟨rfl, rfl, rfl⟩
  rcases hRun with ⟨hNone, hSpace, hDefinitions⟩
  refine ⟨⟨?_, ?_⟩, ?_, ?_⟩
  · rw [hSpace]
    exact hSound.space
  · rw [hSpace, hDefinitions]
    exact hSound.isLive
  · rw [hSpace]
    exact .refl _
  · intro s' _ _ a k _
    rw [hNone]
    rfl

/- A line that is no directive is only recorded. -/
theorem reads_text
    (hDirective : Directive.ofLine line = none)
    (hRest :
      Reads x known false stack rest st
        (readLines x false stack rest st)) :
    Reads x known first stack (line :: rest) st
      (readLines x first stack (line :: rest) st) := by
  have hRun :
      readLines x first stack (line :: rest) st =
        (((line.getLast?.map (·.endLine)).getD 0,
            current x.base stack) ::
          (readLines x false stack rest st).1,
          (readLines x false stack rest st).2) := by
    rw [readLines, hDirective]
    rfl
  rw [hRun]
  refine ⟨hRest.sound, hRest.grows, ?_⟩
  intro s' hSound' hGrows a k hRelated
  have hLines :=
    hRest.projects s' hSound' hGrows a k hRelated
  have hEval := hRelated.eval_current x.base
  simp only [List.map_cons, Configuration.read, consulted,
    hDirective, List.tail_cons, hEval]
  rw [hLines]

/- A directive is followed before the lines behind it are read. -/
theorem reads_directive
    (hDirective : Directive.ofLine line = some d)
    (hFollows :
      Follows x known first stack d st
        (directive x first stack d st))
    (hRest :
      Reads x known false (directive x first stack d st).1
        rest (directive x first stack d st).2
        (readLines x false (directive x first stack d st).1
          rest (directive x first stack d st).2)) :
    Reads x known first stack (line :: rest) st
      (readLines x first stack (line :: rest) st) := by
  have hRun :
      readLines x first stack (line :: rest) st =
        (((line.getLast?.map (·.endLine)).getD 0,
            current x.base stack) ::
          (readLines x false
            (directive x first stack d st).1 rest
            (directive x first stack d st).2).1,
          (readLines x false
            (directive x first stack d st).1 rest
            (directive x first stack d st).2).2) := by
    rw [readLines, hDirective]
    rfl
  rw [hRun]
  refine
    ⟨hRest.sound, hFollows.grows.trans hRest.grows, ?_⟩
  intro s' hSound' hGrows a k hRelated
  have hStep :=
    hFollows.projects s' hSound'
      (hRest.grows.trans hGrows) a k hRelated
  have hLines :=
    hRest.projects s' hSound' hGrows a _ hStep
  have hEval := hRelated.eval_current x.base
  simp only [List.map_cons, Configuration.read, consulted,
    hDirective, List.tail_cons, List.headD_cons, hEval]
  rw [hLines]

/- Lines are read as in each configuration, by induction over them. -/
theorem readLines_projects
    (lines : List (List Token))
    (hSound : st.Sound)
    (hFirst : first = true → known = st.definitions)
    (hBase : st.space.manager.IsLive x.base)
    (hStack : ∀ frame ∈ stack, frame.IsLive st.space)
    (hInclusion :
      ∀ line ∈ lines, ∀ arguments,
        Directive.ofLine line ≠ some (.inclusion arguments)) :
    Reads x known first stack lines st
      (readLines x first stack lines st) := by
  induction lines generalizing first stack st with
  | nil => exact reads_nil hSound
  | cons line rest ih =>
      have hRest :
          ∀ line ∈ rest, ∀ arguments,
            Directive.ofLine line ≠
              some (.inclusion arguments) :=
        fun line' hMem =>
          hInclusion line' (List.mem_cons_of_mem line hMem)
      cases hDirective : Directive.ofLine line with
      | none =>
          apply reads_text hDirective
          exact ih hSound (by simp) hBase hStack hRest
      | some d =>
          have hOther :
              ∀ arguments, d ≠ .inclusion arguments :=
            fun arguments hEq =>
              hInclusion line List.mem_cons_self arguments
                (hDirective.trans (congrArg some hEq))
          have hFollows :=
            directive_projects hSound hFirst hBase hStack
              hOther
          apply reads_directive hDirective hFollows
          exact
            ih hFollows.sound (by simp)
              (hFollows.grows.isLive hBase) hFollows.isLive
              hRest

------------------------------------------------------------
-- Files
------------------------------------------------------------

/- A context in which no file is included. -/
def Context.closed
    (s : Settings)
    (path : Path)
    (base : Condition) :
    Context :=
  ⟨s, path, base, fun _ _ => pure ()⟩

/- Only inclusions depend on how files are included. -/
theorem directive_follow
    (follow : List Token → Condition → Run Unit)
    (first : Bool)
    (hInclusion : ∀ arguments, d ≠ .inclusion arguments) :
    directive { x with follow } first stack d =
      directive x first stack d := by
  cases d with
  | inclusion arguments =>
      exact absurd rfl (hInclusion arguments)
  | alternative | otherwise | closing =>
      cases stack <;> rfl
  | opening | define | undefine | once | other => rfl

theorem readLines_follow
    (follow : List Token → Condition → Run Unit)
    (first : Bool)
    {lines : List (List Token)}
    (hInclusion :
      ∀ line ∈ lines, ∀ arguments,
        Directive.ofLine line ≠ some (.inclusion arguments)) :
    readLines { x with follow } first stack lines =
      readLines x first stack lines := by
  induction lines generalizing first stack with
  | nil => rfl
  | cons line rest ih =>
      have ih' (first : Bool) (stack : List Frame) :
          readLines { x with follow } first stack rest =
            readLines x first stack rest :=
        ih first fun line' hMem =>
          hInclusion line' (List.mem_cons_of_mem line hMem)
      have hLine := hInclusion line List.mem_cons_self
      unfold readLines
      cases hDirective : Directive.ofLine line with
      | none => simp only [ih']
      | some d =>
          have hStep :
              directive { x with follow } first stack d =
                directive x first stack d :=
            directive_follow follow first
              fun arguments hEq =>
                hLine arguments
                  (hDirective.trans (congrArg some hEq))
          simp only [ih', hStep]

theorem process_eq_readLines
    (depth : Nat)
    (path : Path)
    {text : String}
    (hInclusion :
      ∀ line ∈ Token.logicalLines (Token.tokenize text),
        ∀ arguments,
          Directive.ofLine line ≠
            some (.inclusion arguments)) :
    process s depth path text base =
      readLines (.closed s path base) true []
        (Token.logicalLines (Token.tokenize text)) := by
  rw [process]
  exact
    readLines_follow (x := .closed s path base) _ true
      hInclusion

/-
  A physical line has the condition of the first logical line
  that does not end before it.
-/
theorem getElem?_perLine
    (done l : Nat)
    (lines : List (Nat × Condition)) :
    (perLine done lines)[l]? =
      (lines.find? fun line => done + l < line.1).map
        (·.2) := by
  induction lines generalizing done l with
  | nil => simp [perLine]
  | cons line rest ih =>
      rcases line with ⟨last, c⟩
      rw [perLine]
      by_cases hLess : done + l < last
      · have hHere : l < last - done := by omega
        rw [List.getElem?_append_left (by simpa),
          List.getElem?_replicate, if_pos hHere]
        simp [hLess]
      · have hPast : last - done ≤ l := by omega
        have hSame :
            max done last + (l - (last - done)) =
              done + l := by
          omega
        have hLength :
            (List.replicate (last - done) c).length ≤ l := by
          rwa [List.length_replicate]
        rw [List.getElem?_append_right hLength,
          List.length_replicate, ih, hSame]
        simp [hLess]

/- The statuses of a table last. -/
theorem status_grows
    {table : Definitions}
    (hSound : s'.Sound)
    (hSound' : s''.Sound)
    (hGrows : s'.Grows s'')
    (hTable : Definitions.IsLive s' table) :
    Definitions.status s'' a table =
      Definitions.status s' a table := by
  have hHolds (p : Decision → Bool) (name : String) :
      Definitions.holds s'' a p (table.decisions name) =
        Definitions.holds s' a p (table.decisions name) := by
    apply any_congr
    intro d hd
    rw [hGrows.eval_eq hSound hSound' (hTable name d hd)]
  funext name
  unfold Definitions.status
  rw [hHolds, hHolds]

/-
  The condition of a physical line holds under an assignment
  exactly if the configuration of the assignment reaches it. The
  configuration begins with what the table says under the
  assignment, and is told the truth of what the evaluator gave.
-/
theorem process_reaches
    (depth : Nat)
    (path : Path)
    {text : String}
    (hReached : st.space.Reached)
    (hTable : Definitions.IsLive st.space st.definitions)
    (hBase : st.space.manager.IsLive base)
    (hInclusion :
      ∀ line ∈ Token.logicalLines (Token.tokenize text),
        ∀ arguments,
          Directive.ofLine line ≠
            some (.inclusion arguments))
    (a : Nat → Bool)
    (l : Nat) :
    let lines := Token.logicalLines (Token.tokenize text)
    let out := process s depth path text base st
    let space := out.2.space
    let truths :=
      (consulted (.closed s path base) true [] lines st).map
        (truth space a)
    let reached :=
      (configuration s st.definitions space a).read
        (st.space.manager.eval base a) true
        ⟨[], Definitions.status st.space a st.definitions⟩
        lines truths
    ((perLine 0 out.1)[l]?).map (space.manager.eval · a) =
      Configuration.reaches? reached l := by
  intro lines out space truths reached
  have hSound : st.Sound := ⟨hReached.sound, hTable⟩
  have hReads :
      Reads (.closed s path base) st.definitions true []
        lines st out := by
    have hOut :
        out =
          readLines (.closed s path base) true [] lines st :=
      congrFun (process_eq_readLines depth path hInclusion) st
    rw [hOut]
    exact
      readLines_projects lines hSound (fun _ => rfl) hBase
        (by simp) hInclusion
  have hSpace : space.Sound := hReads.sound.space
  have hGrows : st.space.Grows space := hReads.grows
  have hStart :
      Projects space a [] st.definitions
        ⟨[], Definitions.status st.space a
          st.definitions⟩ :=
    ⟨.nil, status_grows hSound.space hSpace hGrows hTable⟩
  have hLines :=
    hReads.projects space hSpace (.refl space) a _ hStart
  have hEval :
      space.manager.eval base a =
        st.space.manager.eval base a :=
    hGrows.eval_eq hSound.space hSpace hBase
  have hReadsEq :
      out.1.map
          (fun line =>
            (line.1, space.manager.eval line.2 a)) =
        reached := by
    rw [hLines]
    change Configuration.read _ (space.manager.eval base a)
      _ _ _ _ = _
    rw [hEval]
    rfl
  rw [getElem?_perLine, ← hReadsEq]
  unfold Configuration.reaches?
  rw [List.find?_map, Option.map_map, Option.map_map,
    Nat.zero_add]
  rfl

/- A macro that is defined in one branch decides about another. -/
def guardedText : String :=
  "#ifdef A\n#define B\n#endif\n#ifndef B\nx\n#endif\n"

/- Whether a line is no directive that asks for a file. -/
def asksNoFile (line : List Token) : Bool :=
  match Directive.ofLine line with
  | some (.inclusion _) => false
  | _ => true

theorem process_reaches_guardedText :
    (State.start .empty).space.Reached ∧
      ∀ s a,
        let lines :=
          Token.logicalLines (Token.tokenize guardedText)
        let st := State.start .empty
        let out := process s 0 ⟨"a"⟩ guardedText .one st
        let space := out.2.space
        let truths :=
          (consulted (.closed s ⟨"a"⟩ .one) true [] lines
            st).map (truth space a)
        let reached :=
          (configuration s [] space a).read
            (st.space.manager.eval .one a) true
            ⟨[], Definitions.status st.space a []⟩ lines
            truths
        ((perLine 0 out.1)[4]?).map
            (space.manager.eval · a) =
          Configuration.reaches? reached 4 := by
  have hReached : (State.start .empty).space.Reached :=
    .empty
  have hTable :
      Definitions.IsLive (State.start .empty).space
        (State.start .empty).definitions := by
    intro name d hd
    cases hd
  have hNone :
      (Token.logicalLines (Token.tokenize guardedText)).all
          asksNoFile =
        true := by
    decide +kernel
  refine ⟨hReached, ?_⟩
  intro s a
  apply
    process_reaches 0 ⟨"a"⟩ hReached hTable
      hReached.sound.manager.reduced.isLive_one
  intro line hMem arguments hEq
  have hLine := List.all_eq_true.mp hNone line hMem
  rw [asksNoFile, hEq] at hLine
  cases hLine

end Preprocessor

end Variability
