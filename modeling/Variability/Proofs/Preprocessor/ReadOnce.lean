import Mathlib
import Variability.Proofs.FileTree.Writing
import Variability.Proofs.Preprocessor.Beside
import Variability.Proofs.Preprocessor.Reach

/-
  Files that include each other in all configurations at once.

  A file that is read under a condition is read in the
  configurations in which the condition holds, and changes
  nothing in the others. So each line of the main file has the
  condition under which a single configuration reaches it, all
  inclusions followed, where the run is fair. It is not where it
  leaves a file out that only other configurations have read.

  Main declarations:
    * `Preprocessor.HaveNoGuard`
    * `Preprocessor.process_beside`
    * `Preprocessor.process_reads_once`
    * `Preprocessor.process_misses_reread`
-/

namespace Variability

namespace Preprocessor

open Variability.Configuration (Entering Memory Notes)

variable {s : Settings}
variable {st st' : State}
variable {s' : Space}
variable {a : Nat → Bool}
variable {x : Context}
variable {c : Condition}
variable {inside : Recording}
variable {enter : Space → (Nat → Bool) → Entering}

------------------------------------------------------------
-- Files
------------------------------------------------------------

/- A file, as its path and its text, and a file that it includes. -/
def Includes
    (s : Settings)
    (f g : Path × String) : Prop :=
  ∃ line ∈ Token.logicalLines (Token.tokenize f.2),
    ∃ arguments i,
      Directive.ofLine line = some (.inclusion arguments) ∧
        IncludeName.ofTokens? arguments = some i ∧
        find? s f.1 i = some g.1 ∧
        s.tree.readLossy g.1 = .ok g.2

/- No file that a file includes, or they in turn, has a guard. -/
def HaveNoGuard
    (s : Settings)
    (f : Path × String) : Prop :=
  ∀ g, Relation.ReflTransGen (Includes s) f g →
    HasNoGuard (Token.logicalLines (Token.tokenize g.2))

/- An inclusion that reads nothing, but may log. -/
theorem accompanies_nothing
    {es : List (Event × Condition)}
    {next : Space → (Nat → Bool) → Memory → Memory}
    (hSound : st.Sound)
    (hSame : st' = { st with log := st'.log })
    (hNext :
      ∀ s' a m, IsFair s' a m.once es → next s' a m = m)
    (hMarked : ∀ s' a once, marked s' a once es = once) :
    Accompanies st st' es next := by
  rw [hSame]
  refine ⟨⟨hSound.space, hSound.isLive⟩, .refl _, ?_⟩
  intro s' _ _ a m hAgrees hFair
  rw [hNext s' a m hFair, hMarked]
  exact ⟨⟨hAgrees.status_eq, hAgrees.once_subset⟩, rfl⟩

/- A file in a run beside the file in a configuration. -/
def ProcessesBeside
    (s : Settings)
    (depth : Nat)
    (f : Path × String) : Prop :=
  ∀ base st, st.Sound → st.space.manager.IsLive base →
    ReadsBeside ⟨s, f.1, base, follow s depth f.1⟩
      (fun s' a => (configuration s [] s' a).below s depth f.1)
      (record s depth f.1 f.2 base st) []
      (Token.logicalLines (Token.tokenize f.2)) st
      (process s depth f.1 f.2 base st)

/-
  A file that is read is read in the configurations that reach
  its inclusion, and changes nothing in the others.
-/
theorem ProcessesBeside.accompanies
    {depth : Nat}
    {f : Path × String}
    (hBeside : ProcessesBeside s depth f)
    (hSound : st.Sound)
    (hc : st.space.manager.IsLive c) :
    Accompanies st (process s depth f.1 f.2 c st).2
      (events (record s depth f.1 f.2 c st))
      fun s' a m =>
        if s'.manager.eval c a then
          ((configuration s [] s' a).process s depth f.1 f.2 true
            ((record s depth f.1 f.2 c st).map (tell s' a)) m).2
        else m := by
  have hReads := hBeside c st hSound hc
  refine ⟨hReads.sound, hReads.grows, ?_⟩
  intro s' hSound' hGrows a m hAgrees hFair
  have hFile :=
    (hReads.agrees s' hSound' hGrows a [] m .nil hAgrees
      hFair).2
  dsimp only at hFile
  rw [← Configuration.process_eq] at hFile
  by_cases hReached : s'.manager.eval c a = true
  · rw [hReached] at hFile
    rw [if_pos hReached]
    exact hFile
  · rw [Bool.eq_false_iff.mpr hReached,
      Configuration.process_unreached] at hFile
    rw [if_neg hReached]
    exact hFile

/- The state that the run has after a file was asked for. -/
theorem snd_readIncluded
    {process : Path → String → Condition → Run Unit}
    {path file : Path}
    {i : IncludeName}
    (hFind : find? s path i = some file)
    (c : Condition)
    (st : State) :
    (readIncluded s process path i c st).2 =
      if st.once.any file.same then st
      else
        match s.tree.readLossy file with
        | .ok text => (process file text c st).2
        | .error e =>
            (warn ("Could not read " ++ file.text ++ ": " ++
              e.message) st).2 := by
  unfold readIncluded
  rw [hFind]
  change
    ((if st.once.any file.same = true then pure ()
      else
        match s.tree.readLossy file with
        | .ok text => process file text c
        | .error e =>
            warn ("Could not read " ++ file.text ++ ": " ++
              e.message) : Run Unit) st).2 = _
  split
  · rfl
  · cases s.tree.readLossy file <;> rfl

/- An inclusion below which a file may be read. -/
theorem entersBeside_find
    {depth : Nat}
    {path file : Path}
    {arguments : List Token}
    {i : IncludeName}
    (hName : IncludeName.ofTokens? arguments = some i)
    (hFind : find? s path i = some file)
    (hBelow :
      ∀ text, s.tree.readLossy file = .ok text →
        ProcessesBeside s depth (file, text))
    (base : Condition) :
    EntersBeside
      ⟨s, path, base, follow s (depth + 1) path⟩
      (recordBelow s (depth + 1) path)
      (fun s' a =>
        (configuration s [] s' a).below s (depth + 1) path)
      arguments := by
  intro c st hSound hc
  simp only [follow, recordBelow, recordIncluded,
    Configuration.below, Configuration.enter, hName, hFind,
    snd_readIncluded hFind]
  cases hDone : st.once.any file.same with
  | true =>
      rw [if_pos rfl, if_pos rfl]
      refine accompanies_nothing hSound rfl ?_ ?_
      · intro s' a m hFair
        -- A file that is skipped here was marked here before.
        by_cases hReached : s'.manager.eval c a = true
        · have hMarked : m.once.any file.same = true :=
            hFair [] file c [] rfl hReached
          rw [if_pos hReached, if_pos hMarked]
        · rw [if_neg hReached]
      · exact fun _ _ _ => rfl
  | false =>
      rw [if_neg Bool.false_ne_true, if_neg Bool.false_ne_true]
      cases hRead : s.tree.readLossy file with
      | error e =>
          dsimp only
          refine accompanies_nothing hSound rfl ?_ ?_
          · intro s' a m _
            rw [ite_self, ite_self]
          · exact fun _ _ _ => rfl
      | ok text =>
          have hBeside :=
            (hBelow text hRead).accompanies hSound hc
          refine ⟨hBeside.sound, hBeside.grows, ?_⟩
          intro s' hSound' hGrows a m hAgrees hFair
          have hAgain : m.once.any file.same = false := by
            rw [Bool.eq_false_iff, ne_eq, List.any_eq_true]
            rintro ⟨marked, hMem, hSame⟩
            rw [List.any_eq_false] at hDone
            exact
              hDone marked (hAgrees.once_subset hMem) hSame
          rw [hAgain]
          exact
            hBeside.agrees s' hSound' hGrows a m hAgrees hFair

/- An inclusion that leads to no file. -/
theorem entersBeside_nothing
    {arguments : List Token}
    (hFollow :
      ∀ c (st : State),
        (x.follow arguments c st).2 =
          { st with log := (x.follow arguments c st).2.log })
    (hInside :
      ∀ c st, inside arguments c st = (none, .done))
    (hEnter :
      ∀ s' a told m, enter s' a arguments told m = m) :
    EntersBeside x inside enter arguments := by
  intro c st hSound _
  rw [hInside]
  refine accompanies_nothing hSound (hFollow c st) ?_ ?_
  · intro s' a m _
    rw [hEnter, ite_self]
  · exact fun _ _ _ => rfl

/- Every inclusion of a file, if the files that it includes are. -/
theorem entersBeside
    {depth : Nat}
    {path : Path}
    {arguments : List Token}
    (hBelow :
      ∀ below i file text,
        depth = below + 1 →
        IncludeName.ofTokens? arguments = some i →
        find? s path i = some file →
        s.tree.readLossy file = .ok text →
        ProcessesBeside s below (file, text))
    (base : Condition) :
    EntersBeside ⟨s, path, base, follow s depth path⟩
      (recordBelow s depth path)
      (fun s' a =>
        (configuration s [] s' a).below s depth path)
      arguments := by
  cases depth with
  | zero =>
      apply entersBeside_nothing
      · intro c st
        unfold follow
        dsimp only
        cases IncludeName.ofTokens? arguments <;> rfl
      · exact fun _ _ => rfl
      · exact fun _ _ _ _ => rfl
  | succ depth =>
      cases hName : IncludeName.ofTokens? arguments with
      | none =>
          apply entersBeside_nothing
          · intro c st
            simp only [follow, hName]
            rfl
          · intro c st
            simp only [recordBelow, recordIncluded, hName]
          · intro s' a told m
            simp only [Configuration.below, Configuration.enter,
              hName]
      | some i =>
          cases hFind : find? s path i with
          | none =>
              apply entersBeside_nothing
              · intro c st
                simp only [follow, readIncluded, hName, hFind]
                rfl
              · intro c st
                simp only [recordBelow, recordIncluded, hName,
                  hFind]
              · intro s' a told m
                simp only [Configuration.below,
                  Configuration.enter, hName, hFind]
          | some file =>
              exact
                entersBeside_find hName hFind
                  (hBelow depth i file · rfl hName hFind) base

/-
  A file is read as in each configuration, by induction on how
  many files may be inside each other below it.
-/
theorem process_beside
    (depth : Nat)
    {f : Path × String}
    (hNoGuard : HaveNoGuard s f) :
    ProcessesBeside s depth f := by
  induction depth generalizing f with
  | zero =>
      intro base st hSound hBase
      rw [process_eq, record_eq]
      apply
        readLines_beside hSound (fun _ => hNoGuard f .refl) hBase
          (List.forall_mem_nil _)
      intro line hLine arguments hDirective
      apply entersBeside
      intro below _ _ _ hDepth
      cases hDepth
  | succ depth ih =>
      intro base st hSound hBase
      rw [process_eq, record_eq]
      apply
        readLines_beside hSound (fun _ => hNoGuard f .refl) hBase
          (List.forall_mem_nil _)
      intro line hLine arguments hDirective
      apply entersBeside
      intro below i file text hDepth hName hFind hRead
      cases hDepth
      apply ih
      intro g hConnected
      apply hNoGuard g
      exact
        .head
          ⟨line, hLine, arguments, i, hDirective, hName, hFind, hRead⟩
          hConnected

/- Only the inclusions in some lines depend on how they are followed. -/
theorem readLines_congr
    {lines : List (List Token)}
    {stack : List Frame}
    {first : Bool}
    (follow : List Token → Condition → Run Unit)
    (hFollow :
      ∀ line ∈ lines, ∀ arguments,
        Directive.ofLine line = some (.inclusion arguments) →
        x.follow arguments = follow arguments) :
    readLines { x with follow } first stack lines =
      readLines x first stack lines := by
  induction lines generalizing first stack with
  | nil => rfl
  | cons line rest ih =>
      have hLine :
          followLine { x with follow } first stack line =
            followLine x first stack line := by
        unfold followLine
        cases hDirective : Directive.ofLine line with
        | none => rfl
        | some d =>
            dsimp only
            by_cases hInclusion :
                ∃ arguments, d = .inclusion arguments
            · rcases hInclusion with ⟨arguments, rfl⟩
              have hSame :=
                hFollow line List.mem_cons_self arguments
                  hDirective
              unfold directive effect
              dsimp only
              rw [hSame]
            · exact
                directive_follow follow first
                  (not_exists.mp hInclusion)
      rw [readLines_cons, readLines_cons, hLine]
      congr 1
      funext stack'
      rw [ih fun line' hMem =>
        hFollow line' (List.mem_cons_of_mem line hMem)]

------------------------------------------------------------
-- Main Files
------------------------------------------------------------

/-
  Where a run is fair to an assignment, the condition of a
  physical line holds under the assignment exactly if the
  configuration of the assignment reaches the line. It reads all
  files that it includes, and leaves a file out only if it has
  reached its `#pragma once` itself.
-/
theorem process_reads_once
    (depth : Nat)
    (path : Path)
    {text : String}
    {base : Condition}
    (hReached : st.space.Reached)
    (hTable : Definitions.IsLive st.space st.definitions)
    (hBase : st.space.manager.IsLive base)
    (hNoGuard : HaveNoGuard s (path, text))
    (a : Nat → Bool)
    (hFair :
      IsFair (process s depth path text base st).2.space a st.once
        (events (record s depth path text base st)))
    (l : Nat) :
    let out := process s depth path text base st
    let space := out.2.space
    let told :=
      (record s depth path text base st).map (tell space a)
    let reached :=
      (configuration s [] space a).process s depth path text
        (st.space.manager.eval base a) told
        ⟨Definitions.status st.space a st.definitions, st.once⟩
    ((perLine 0 out.1)[l]?).map (space.manager.eval · a) =
      Configuration.reaches? reached.1 l := by
  intro out space told reached
  have hSound : st.Sound := ⟨hReached.sound, hTable⟩
  have hReads := process_beside depth hNoGuard base st hSound hBase
  have hSpace : space.Sound := hReads.sound.space
  have hGrows : st.space.Grows space := hReads.grows
  have hAgrees :
      st.Agrees space a
        ⟨Definitions.status st.space a st.definitions,
          st.once⟩ :=
    ⟨status_grows hSound.space hSpace hGrows hTable,
      List.Subset.refl _⟩
  have hEval :
      space.manager.eval base a = st.space.manager.eval base a :=
    hGrows.eval_eq hSound.space hSpace hBase
  have hLines :
      out.1.map
          (fun line =>
            (line.1, space.manager.eval line.2 a)) =
        reached.1 := by
    have hFile :=
      (hReads.agrees space hSpace (.refl space) a [] _ .nil
        hAgrees hFair).1
    dsimp only at hFile
    rw [← Configuration.process_eq, hEval] at hFile
    exact hFile
  rw [getElem?_perLine, ← hLines]
  unfold Configuration.reaches?
  rw [List.find?_map, Option.map_map, Option.map_map,
    Nat.zero_add]
  rfl

/-
  The conditions of lines hold for the same values of the atoms,
  whatever the spaces are in which they are built.
-/
theorem eval_process_eq
    {tt : State}
    (hAlike : st.Alike Coupling.byAtoms tt)
    (depth : Nat)
    (path : Path)
    (text : String)
    (b : Bool)
    (l : Nat) :
    let out := process s depth path text .one st
    let out' := process s depth path text .one tt
    ((perLine 0 out.1)[l]?).map
        (out.2.space.manager.eval · fun _ => b) =
      ((perLine 0 out'.1)[l]?).map
        (out'.2.space.manager.eval · fun _ => b) := by
  intro out out'
  have hOne :=
    Coupling.lawful_byAtoms.one hAlike.spaces
  have hProcess :=
    couples_process Coupling.lawful_byAtoms s depth path text
      hAlike hOne
  have hEnds : out.1.map (·.1) = out'.1.map (·.1) := by
    rw [show out = _ from congrFun (process_eq ..) st,
      show out' = _ from congrFun (process_eq ..) tt,
      map_fst_readLines, map_fst_readLines]
  have hLines := perLine_alike hProcess.post hEnds 0
  have hValues :
      (perLine 0 out.1).map
          (out.2.space.manager.eval · fun _ => b) =
        (perLine 0 out'.1).map
          (out'.2.space.manager.eval · fun _ => b) := by
    rw [← List.forall₂_eq_eq_eq, List.forall₂_map_left_iff,
      List.forall₂_map_right_iff]
    -- All atoms have the same value in both spaces.
    exact
      hLines.imp fun c d hConditions =>
        hConditions.eval_eq (fun _ => b) _ _ (fun _ _ => rfl)
          (fun _ _ => rfl)
  rw [← List.getElem?_map, ← List.getElem?_map, hValues]

------------------------------------------------------------
-- A Header That Is Included Twice
------------------------------------------------------------

def onceHeader : String := "#pragma once\n#define H 1\n"

def headerLines : List (List Token) :=
  [ directiveLine 1 "pragma"
      [⟨.identifier, "once", 1, 1, false⟩],
    directiveLine 2 "define"
      [⟨.identifier, "H", 2, 2, false⟩,
        ⟨.number, "1", 2, 2, false⟩] ]

theorem logicalLines_onceHeader :
    Token.logicalLines (Token.tokenize onceHeader) =
      headerLines := by
  cbv

/- A tree in which the header lies beside other files. -/
def onceTree : FileTree where
  entries :=
    [(["src"], .directory),
      (["src", "h.h"], .file (Utf8.encode onceHeader))]

def onceSettings : Settings :=
  ⟨onceTree, [], [], 1, fun _ => false⟩

/- The tokens behind the word of an inclusion of the header. -/
abbrev headerName (l : Nat) : List Token :=
  [⟨.string, "\"h.h\"", l, l, false⟩]

def includeLine (l : Nat) : List Token :=
  directiveLine l "include" (headerName l)

theorem ofLine_includeLine (l : Nat) :
    Directive.ofLine (includeLine l) =
      some (.inclusion (headerName l)) :=
  rfl

theorem ofTokens?_header (l : Nat) :
    IncludeName.ofTokens?
        [⟨.string, "\"h.h\"", l, l, false⟩] =
      some ⟨"h.h", true⟩ := by
  have hQuoted : IncludeName.unquote "\"h.h\"" = "h.h" := by
    cbv
  rw [IncludeName.ofTokens?, if_pos rfl, hQuoted]

theorem ofTokens?_headerName (l : Nat) :
    IncludeName.ofTokens? (headerName l) =
      some ⟨"h.h", true⟩ :=
  ofTokens?_header l

theorem status_onceTree :
    onceTree.status ⟨"/src/h.h"⟩ =
      .ok (.file (Utf8.encode onceHeader)) := by
  have hPair : FileTree.IsPair ⟨"/src/h.h"⟩ "src" "h.h" := by
    constructor <;> decide
  exact hPair.status_file rfl rfl

theorem find?_onceSettings :
    find? onceSettings ⟨"/src/a.c"⟩ ⟨"h.h", true⟩ =
      some ⟨"/src/h.h"⟩ := by
  have hRelative : (⟨"h.h"⟩ : Path).isAbsolute = false := by
    cbv
  have hParent :
      (⟨"/src/a.c"⟩ : Path).parent? = some ⟨"/src"⟩ := by
    cbv
  have hJoin :
      (⟨"/src"⟩ : Path).join ⟨"h.h"⟩ = ⟨"/src/h.h"⟩ := by
    cbv
  have hNormal :
      (⟨"/src/h.h"⟩ : Path).normalize = ⟨"/src/h.h"⟩ := by
    cbv
  have hFile : onceTree.isFile ⟨"/src/h.h"⟩ = true := by
    rw [FileTree.isFile, status_onceTree]
  simp [find?, onceSettings, hRelative, hParent, hJoin, hFile,
    hNormal]

theorem readLossy_onceSettings :
    onceSettings.tree.readLossy ⟨"/src/h.h"⟩ =
      .ok onceHeader := by
  change onceTree.readLossy ⟨"/src/h.h"⟩ = .ok onceHeader
  rw [FileTree.readLossy, FileTree.read, status_onceTree]
  exact congrArg Except.ok (Utf8.decodeLossy_encode onceHeader)

/- Whether all files that lines ask for are the header. -/
def asksForHeader (lines : List (List Token)) : Bool :=
  lines.all fun line =>
    match Directive.ofLine line with
    | some (.inclusion arguments) =>
        IncludeName.ofTokens? arguments == some ⟨"h.h", true⟩
    | _ => true

theorem ofTokens?_of_asksForHeader
    {lines : List (List Token)}
    (hAsks : asksForHeader lines = true)
    {line : List Token}
    (hLine : line ∈ lines)
    {arguments : List Token}
    (hDirective :
      Directive.ofLine line = some (.inclusion arguments)) :
    IncludeName.ofTokens? arguments = some ⟨"h.h", true⟩ := by
  have hHere := List.all_eq_true.mp hAsks line hLine
  rw [hDirective] at hHere
  exact eq_of_beq hHere

theorem ne_inclusion_of_mem_headerLines
    {line : List Token}
    (hLine : line ∈ headerLines)
    (arguments : List Token) :
    Directive.ofLine line ≠ some (.inclusion arguments) := by
  have hAll : headerLines.all asksNoFile = true := by decide
  have hNone := List.all_eq_true.mp hAll line hLine
  intro hInclusion
  simp [asksNoFile, hInclusion] at hNone

/- A file that includes only the header, which has no guard. -/
theorem haveNoGuard_onceSettings
    {text : String}
    (hAsks :
      asksForHeader (Token.logicalLines (Token.tokenize text)) =
        true)
    (hNoGuard :
      HasNoGuard (Token.logicalLines (Token.tokenize text))) :
    HaveNoGuard onceSettings (⟨"/src/a.c"⟩, text) := by
  have hHeader :
      HaveNoGuard onceSettings (⟨"/src/h.h"⟩, onceHeader) := by
    intro g hConnected
    cases hConnected.cases_head with
    | inl hSame =>
        rw [← hSame]
        rw [logicalLines_onceHeader]
        intro line hLine arguments
        cases hLine
        exact nofun
    | inr hFurther =>
        rcases hFurther with
          ⟨f, ⟨line, hLine, arguments, _, hDirective, -⟩, -⟩
        rw [logicalLines_onceHeader] at hLine
        exact
          absurd hDirective
            (ne_inclusion_of_mem_headerLines hLine arguments)
  intro g hConnected
  cases hConnected.cases_head with
  | inl hSame =>
      rw [← hSame]
      exact hNoGuard
  | inr hFurther =>
      rcases hFurther with
        ⟨⟨file, content⟩,
          ⟨line, hLine, arguments, i, hDirective, hName, hFind,
            hRead⟩,
          hRest⟩
      rw [ofTokens?_of_asksForHeader hAsks hLine hDirective]
        at hName
      cases hName
      rw [find?_onceSettings] at hFind
      cases hFind
      rw [readLossy_onceSettings] at hRead
      cases hRead
      exact hHeader g hRest

/- A file that includes the header in all configurations. -/
def fairText : String :=
  "#include \"h.h\"\n#include \"h.h\"\nx\n"

theorem logicalLines_fairText :
    Token.logicalLines (Token.tokenize fairText) =
      [includeLine 1, includeLine 2,
        [⟨.identifier, "x", 3, 3, true⟩]] := by
  cbv

/- The header is marked and skipped everywhere. -/
theorem events_fairText
    (hOnce : st.once = []) :
    events (record onceSettings 1 ⟨"/src/a.c"⟩ fairText .one st) =
      [(.marked ⟨"/src/h.h"⟩, .one),
        (.skipped ⟨"/src/h.h"⟩, .one)] := by
  have hOne : ¬ Diagram.Handle.one = .zero := by decide
  have hSame :
      (⟨"/src/h.h"⟩ : Path).same ⟨"/src/h.h"⟩ = true := by
    cbv
  have hMarked (st : State) :
      (process onceSettings 0 ⟨"/src/h.h"⟩ onceHeader .one
          st).2.once =
        ⟨"/src/h.h"⟩ :: st.once := by
    rw [process_eq, logicalLines_onceHeader]
    rfl
  have hInside (st : State) :
      events
          (record onceSettings 0 ⟨"/src/h.h"⟩ onceHeader .one
            st) =
        [(.marked ⟨"/src/h.h"⟩, .one)] := by
    rw [record_eq, logicalLines_onceHeader]
    rfl
  have hFirst :
      directive
          ⟨onceSettings, ⟨"/src/a.c"⟩, .one,
            follow onceSettings 1 ⟨"/src/a.c"⟩⟩
          true [] (.inclusion (headerName 1)) st =
        ([],
          (process onceSettings 0 ⟨"/src/h.h"⟩ onceHeader .one
            st).2) := by
    refine
      (run_effect
        ⟨onceSettings, ⟨"/src/a.c"⟩, .one,
          follow onceSettings 1 ⟨"/src/a.c"⟩⟩
        .one [] (.inclusion (headerName 1)) st).trans ?_
    simp only [hOne, if_false, effect, follow,
      ofTokens?_headerName, snd_readIncluded find?_onceSettings,
      hOnce, readLossy_onceSettings, List.any_nil,
      Bool.false_eq_true]
    rfl
  rw [record_eq, logicalLines_fairText,
    events_recordLines_directive (ofLine_includeLine 1),
    events_recordLines_directive (ofLine_includeLine 2),
    events_recordLines_text rfl, hFirst]
  simp [happening, current, eventsOf, recordBelow,
    recordIncluded, recordLines, events, ofTokens?_headerName,
    find?_onceSettings, readLossy_onceSettings, hOnce, hMarked,
    hInside, hSame, hOne]

/- So the second inclusion is right to leave the header out. -/
theorem isFair_fairText
    (hOnce : st.once = [])
    (s' : Space)
    (a : Nat → Bool) :
    IsFair s' a st.once
      (events
        (record onceSettings 1 ⟨"/src/a.c"⟩ fairText .one st)) := by
  have hSame :
      (⟨"/src/h.h"⟩ : Path).same ⟨"/src/h.h"⟩ = true := by
    cbv
  rw [events_fairText hOnce]
  intro before file c behind hEq _
  cases before with
  | nil => cases hEq
  | cons e before =>
      cases before with
      | nil =>
          cases hEq
          simp [marked, hSame]
      | cons e' before => simp at hEq

theorem process_reads_once_fairText :
    let st := State.start .empty
    st.space.Reached ∧
      HaveNoGuard onceSettings (⟨"/src/a.c"⟩, fairText) ∧
      ∀ a l,
        let out :=
          process onceSettings 1 ⟨"/src/a.c"⟩ fairText .one st
        let space := out.2.space
        let notes :=
          record onceSettings 1 ⟨"/src/a.c"⟩ fairText .one st
        let reached :=
          (configuration onceSettings [] space a).process
            onceSettings 1 ⟨"/src/a.c"⟩ fairText
            (st.space.manager.eval .one a)
            (notes.map (tell space a))
            ⟨Definitions.status st.space a [], []⟩
        IsFair space a [] (events notes) ∧
          ((perLine 0 out.1)[l]?).map (space.manager.eval · a) =
            Configuration.reaches? reached.1 l := by
  intro st
  have hReached : st.space.Reached := .empty
  have hTable : Definitions.IsLive st.space st.definitions := by
    intro name d hd
    cases hd
  have hAsks :
      asksForHeader
          (Token.logicalLines (Token.tokenize fairText)) =
        true := by
    decide +kernel
  have hNoGuard :
      HaveNoGuard onceSettings (⟨"/src/a.c"⟩, fairText) := by
    apply haveNoGuard_onceSettings hAsks
    rw [logicalLines_fairText]
    intro line hLine arguments
    cases hLine
    exact nofun
  refine ⟨hReached, hNoGuard, fun a l => ?_⟩
  have hOnce : st.once = [] := rfl
  have hFair := isFair_fairText hOnce
  exact
    ⟨hFair _ a,
      process_reads_once 1 ⟨"/src/a.c"⟩ hReached hTable
        hReached.sound.manager.reduced.isLive_one hNoGuard a
        (hFair _ a) l⟩

------------------------------------------------------------
-- A Header That Other Configurations Have Read
------------------------------------------------------------

/- A file that includes the header in some configurations first. -/
def rereadText : String :=
  "#ifdef A\n#include \"h.h\"\n#endif\n#include \"h.h\"\n" ++
    "#ifdef H\nx\n#endif\n"

def rereadLines : List (List Token) :=
  [ directiveLine 1 "ifdef" [⟨.identifier, "A", 1, 1, false⟩],
    includeLine 2,
    directiveLine 3 "endif" [],
    includeLine 4,
    directiveLine 5 "ifdef" [⟨.identifier, "H", 5, 5, false⟩],
    [⟨.identifier, "x", 6, 6, true⟩],
    directiveLine 7 "endif" [] ]

theorem logicalLines_rereadText :
    Token.logicalLines (Token.tokenize rereadText) =
      rereadLines := by
  cbv

theorem asksForHeader_rereadLines :
    asksForHeader rereadLines = true := by
  cbv

/- Include the header. -/
def enterHeader (c : Condition) : Run Unit := do
  if ← isDone ⟨"/src/h.h"⟩ then
    pure ()
  else
    let _ ←
      readLines (.closed onceSettings ⟨"/src/h.h"⟩ c) true []
        headerLines

theorem follow_onceSettings
    {arguments : List Token}
    (hName :
      IncludeName.ofTokens? arguments = some ⟨"h.h", true⟩) :
    follow onceSettings 1 ⟨"/src/a.c"⟩ arguments =
      enterHeader := by
  have hHeader (c : Condition) :
      process onceSettings 0 ⟨"/src/h.h"⟩ onceHeader c =
        readLines (.closed onceSettings ⟨"/src/h.h"⟩ c) true []
          headerLines := by
    rw [process_eq_readLines, logicalLines_onceHeader]
    rw [logicalLines_onceHeader]
    exact fun line => ne_inclusion_of_mem_headerLines
  funext c
  simp only [follow, hName, readIncluded, find?_onceSettings,
    readLossy_onceSettings, hHeader]
  rfl

/- Reading the file, the header known. -/
theorem process_rereadText (base : Condition) :
    process onceSettings 1 ⟨"/src/a.c"⟩ rereadText base =
      readLines
        ⟨onceSettings, ⟨"/src/a.c"⟩, base, fun _ => enterHeader⟩
        true [] rereadLines := by
  rw [process_eq, logicalLines_rereadText]
  refine
    (readLines_congr
      (x :=
        ⟨onceSettings, ⟨"/src/a.c"⟩, base,
          follow onceSettings 1 ⟨"/src/a.c"⟩⟩)
      (fun _ => enterHeader) ?_).symm
  intro line hLine arguments hDirective
  exact
    follow_onceSettings
      (ofTokens?_of_asksForHeader asksForHeader_rereadLines hLine
        hDirective)

/- In a small space it is found that no line asks for the header. -/
theorem eval_rereadText_small :
    let out :=
      process onceSettings 1 ⟨"/src/a.c"⟩ rereadText .one
        (.start ⟨.empty 3, []⟩)
    ((perLine 0 out.1)[5]?).map
        (out.2.space.manager.eval · fun _ => false) =
      some false := by
  rw [process_rereadText]
  cbv

theorem reached_small : (Diagram.Manager.empty 3).Reached :=
  .create (if_pos (by decide))

/- The condition of the sixth line fails where no atom holds. -/
theorem eval_rereadText
    {space : Space}
    (hSound : space.Sound) :
    let out :=
      process onceSettings 1 ⟨"/src/a.c"⟩ rereadText .one
        (.start space)
    ((perLine 0 out.1)[5]?).map
        (out.2.space.manager.eval · fun _ => false) =
      some false := by
  have hSmall : (⟨.empty 3, []⟩ : Space).Sound :=
    ⟨reached_small.sound, .nil⟩
  have hAlike :
      State.Alike Coupling.byAtoms (.start space)
        (.start ⟨.empty 3, []⟩) :=
    ⟨⟨hSound, hSmall⟩, .nil, rfl, rfl⟩
  intro out
  rw [← eval_rereadText_small]
  exact eval_process_eq hAlike 1 ⟨"/src/a.c"⟩ rereadText _ 5

/- A configuration without atoms that hold reaches that line. -/
theorem reaches?_rereadText
    (space : Space)
    (told : Notes Bool) :
    Configuration.reaches?
        ((configuration onceSettings [] space
            fun _ => false).process
          onceSettings 1 ⟨"/src/a.c"⟩ rereadText true told
          ⟨fun _ => .undecided, []⟩).1
        5 =
      some true := by
  have hFree (name : String) : onceSettings.isFree name = false :=
    rfl
  have hParse :
      Macro.parse
          [⟨.identifier, "H", 2, 2, false⟩,
            ⟨.number, "1", 2, 2, false⟩] =
        some
          ("H", ⟨none, false, [⟨.number, "1", 2, 2, false⟩]⟩) := by
    cbv
  rw [Configuration.process_eq, logicalLines_rereadText]
  simp [Configuration.readFile, Configuration.follow,
    Configuration.step, Configuration.openingTest,
    Configuration.test, Configuration.isDefined,
    Configuration.State.isReached, Configuration.below,
    Configuration.enter, Configuration.effect,
    Configuration.decide, Configuration.process_eq,
    Configuration.reaches?, configuration, Space.atomValue,
    rereadLines, includeLine, directiveLine,
    headerLines, Directive.ofLine, Directive.ofWord, Token.is,
    find?_onceSettings, readLossy_onceSettings,
    logicalLines_onceHeader, ofTokens?_header, hFree, hParse]

/-
  Where neither `A` nor `H` is defined from outside, the header
  is read at its second inclusion and defines `H`. The run over
  conditions leaves the header out there, as configurations with
  `A` have read it, so the line that asks for `H` is given a
  condition that fails.
-/
theorem process_misses_reread :
    let st := State.start .empty
    let out :=
      process onceSettings 1 ⟨"/src/a.c"⟩ rereadText .one st
    let space := out.2.space
    let a : Nat → Bool := fun _ => false
    HaveNoGuard onceSettings (⟨"/src/a.c"⟩, rereadText) ∧
      ((perLine 0 out.1)[5]?).map (space.manager.eval · a) =
        some false ∧
      ∀ told,
        Configuration.reaches?
            ((configuration onceSettings [] space a).process
              onceSettings 1 ⟨"/src/a.c"⟩ rereadText true told
              ⟨Definitions.status st.space a [], []⟩).1
            5 =
          some true := by
  have hNoGuard :
      HaveNoGuard onceSettings (⟨"/src/a.c"⟩, rereadText) := by
    apply haveNoGuard_onceSettings
    · rw [logicalLines_rereadText]
      exact asksForHeader_rereadLines
    · rw [logicalLines_rereadText]
      intro line hLine arguments
      cases hLine
      simp [directiveLine, Directive.ofLine, Directive.ofWord,
        Token.is]
  exact
    ⟨hNoGuard, eval_rereadText Space.Reached.empty.sound,
      reaches?_rereadText _⟩

end Preprocessor

end Variability
