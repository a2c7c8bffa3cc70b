import Variability.Proofs.DotConfig.Overlaying
import Variability.Proofs.FileTree.Writing

/-
  What is read back from a configuration that was written.

  Only the first line about a feature is overlaid, but the last
  one counts when the text is read. So a feature has the value
  that was asked for, unless a line below its first one says
  otherwise. The text is split into lines once more, and a line
  that had two carriage returns at its end is read without both,
  so it may be about an option only then.

  Main declarations:
    * `DotConfig.overruling`
    * `DotConfig.find?_options_overlay`
    * `DotConfig.mismatches_overlay`
    * `DotConfig.verify_overlay_iff`
    * `DotConfig.not_verify_repeatedLine`
-/

namespace Variability

namespace DotConfig

variable {name : String}
variable {enabled : Bool}
variable {features : Features}
variable {ls : List (List Char)}
variable {out : List String}

------------------------------------------------------------
-- Reading
------------------------------------------------------------

theorem findSome?_ruling?_eq
    (name : String)
    (ls : List (List Char)) :
    ls.findSome? (ruling? name) =
      ((ls.filterMap readOption?).find? (·.1 = name)).map (·.2) := by
  induction ls with
  | nil => rfl
  | cons line ls ih =>
      rw [List.findSome?_cons, ih, List.filterMap_cons, ruling?]
      cases readOption? line with
      | none => rfl
      | some found =>
          by_cases hSame : found.1 = name <;>
            simp [hSame]

/- Of several lines for an option the last one counts. -/
theorem find?_options
    (name text : String) :
    Dict.find? name (options text) =
      lastRuling name (Text.lines text.toList) := by
  rw [options, Dict.find?_ofList, lastRuling, findSome?_ruling?_eq,
    List.filterMap_reverse]

------------------------------------------------------------
-- Overruling Lines
------------------------------------------------------------

/- The lines below the first one about an option. -/
def belowFirst (name : String) : List (List Char) → List (List Char)
  | [] => []
  | line :: rest =>
      if ruling? name line = none then belowFirst name rest
      else rest

/-
  What the lines below the first one say about an option when
  they are read once more.
-/
def overruling (name : String) (ls : List (List Char)) :
    Option Bool :=
  lastRuling name ((belowFirst name ls).map Text.dropReturn)

/- The lines that are written, as they are read again. -/
def reread (out : List String) : List (List Char) :=
  (out.map String.toList).map Text.dropReturn

theorem reread_cons
    (line : String)
    (out : List String) :
    reread (line :: out) =
      Text.dropReturn line.toList :: reread out :=
  rfl

theorem IsRequest.reread_added
    (hRequest : IsRequest features) :
    reread (features.map fun e => optionLine e.1 e.2) =
      features.map featureLine := by
  rw [reread, List.map_map, List.map_map]
  apply List.map_congr_left
  intro e he
  exact
    Text.dropReturn_of_not_mem
      (isUnbroken_optionLine (hRequest.isName e he) e.2).not_mem.2

/- Lines about other features say the same as before. -/
theorem Overlays.lastRuling_of_not_mem
    (hOverlays : Overlays features ls out)
    (hRequest : IsRequest features)
    (hOther : ∀ e ∈ features, name ≠ e.1) :
    lastRuling name (reread out) =
      lastRuling name (ls.map Text.dropReturn) := by
  induction hOverlays with
  | added features =>
      rw [hRequest.reread_added, lastRuling,
        List.findSome?_eq_none_iff.mpr]
      · rfl
      · intro line hLine
        rw [List.mem_reverse] at hLine
        rcases List.mem_map.mp hLine with ⟨e, he, rfl⟩
        exact
          ruling?_eq_none
            (readOption?_optionLine (hRequest.isName e he) e.2)
            (hOther e he)
  | kept _ _ ih =>
      rw [reread_cons, String.toList_ofList, List.map_cons,
        lastRuling_cons, lastRuling_cons, ih hRequest hOther]
  | @settled features line rest out other set value hRead hMem _
      ih =>
      have hNe := hOther _ hMem
      have hAnswer :=
        readOption?_answer hRead (hRequest.isName _ hMem) value
      rw [reread_cons, List.map_cons, lastRuling_cons,
        lastRuling_cons,
        ruling?_eq_none (readOption?_dropReturn hAnswer) hNe,
        ruling?_eq_none (readOption?_dropReturn hRead) hNe,
        ih (hRequest.filter _) fun e he =>
          hOther e (List.mem_of_mem_filter he)]

/-
  A feature has the value that was asked for, if it is not
  overruled. By induction on the steps.
-/
theorem Overlays.lastRuling_eq
    (hOverlays : Overlays features ls out)
    (hRequest : IsRequest features)
    (hMem : (name, enabled) ∈ features) :
    lastRuling name (reread out) =
      some ((overruling name ls).getD enabled) := by
  induction hOverlays with
  | added features =>
      rw [hRequest.reread_added]
      exact hRequest.lastRuling_featureLines hMem
  | kept hOther _ ih =>
      rw [reread_cons, lastRuling_cons, ih hRequest hMem,
        overruling, overruling, belowFirst, if_pos (hOther _ hMem)]
      rfl
  | @settled features line rest out other set value hRead hValue
      hRest ih =>
      have hAnswer :=
        readOption?_dropReturn
          (readOption?_answer hRead (hRequest.isName _ hValue)
            value)
      rw [reread_cons, lastRuling_cons, overruling, belowFirst]
      by_cases hSame : name = other
      · -- This line settles the feature, so only lines below count.
        subst hSame
        have hBelow :=
          hRest.lastRuling_of_not_mem (hRequest.filter _)
            fun e he => (mem_filter_ne_iff.mp he).2.symm
        rw [hBelow, ruling?_eq_some_iff.mpr hAnswer,
          ruling?_eq_some_iff.mpr hRead, if_neg (by simp),
          hRequest.unique hMem hValue]
        cases lastRuling name (rest.map Text.dropReturn) <;> rfl
      · rw [ih (hRequest.filter _)
            (mem_filter_ne_iff.mpr ⟨hMem, hSame⟩),
          ruling?_eq_none hRead hSame, if_pos rfl, overruling]
        rfl

/- The value that a feature is read back with. -/
theorem find?_options_overlay
    (hRequest : IsRequest features)
    (ignore : String → Bool)
    (text : String)
    (hMem : (name, enabled) ∈ relevant ignore features) :
    Dict.find? name (options (overlay features ignore text)) =
      some
        ((overruling name (Text.lines text.toList)).getD
          enabled) := by
  have hRelevant := hRequest.relevant ignore
  have hLast :=
    (hRelevant.overlays (Text.lines text.toList)).lastRuling_eq
      hRelevant hMem
  rw [find?_options, lines_overlay hRequest, ← hLast, orEmptyLine]
  split
  · rename_i hNone
    rw [reread, hNone]
    rfl
  · rfl

------------------------------------------------------------
-- Checking
------------------------------------------------------------

/- The features that are not set as they should be are overruled. -/
theorem mismatches_overlay
    (hRequest : IsRequest features)
    (ignore : String → Bool)
    (text : String) :
    mismatches features ignore (overlay features ignore text) =
      (relevant ignore features).filter fun e =>
        overruling e.1 (Text.lines text.toList) = some !e.2 := by
  apply List.filter_congr
  rintro ⟨name, enabled⟩ hMem
  dsimp only
  rw [find?_options_overlay hRequest ignore text hMem,
    Option.getD_some, decide_eq_decide]
  cases overruling name (Text.lines text.toList) with
  | none => simp
  | some set => cases set <;> cases enabled <;> simp

/- Nothing is reported if no feature is overruled. -/
theorem mismatches_overlay_eq_nil_iff
    (hRequest : IsRequest features)
    (ignore : String → Bool)
    (text : String) :
    mismatches features ignore (overlay features ignore text) =
        [] ↔
      ∀ e ∈ relevant ignore features, ∀ set,
        overruling e.1 (Text.lines text.toList) = some set →
          set = e.2 := by
  rw [mismatches_overlay hRequest, List.filter_eq_nil_iff]
  apply forall₂_congr
  rintro ⟨name, enabled⟩ _
  dsimp only
  rw [decide_eq_true_iff]
  cases overruling name (Text.lines text.toList) with
  | none => simp
  | some set => cases set <;> cases enabled <;> simp

/- Checking a file reports what is wrong with its text. -/
theorem verify_apply
    {p : Path}
    {w : Workspace}
    {text : String}
    (hText : w.files.readText p = .ok text)
    (features : Features)
    (ignore : String → Bool) :
    verify p features ignore w =
      (.ok (mismatches features ignore text).keys,
        { w with
          log := w.log ++ (mismatches features ignore text).map
            fun e => mismatch e.1 e.2 }) := by
  rw [verify, Job.bind_of_ok (Job.look_of_ok hText)]
  rfl

/-
  A feature is read back from the text that was written with the
  value that was asked for, unless the lines below its first one
  say otherwise. So a check of this text reports nothing if and
  only if no feature is overruled by these lines.
-/
theorem verify_overlay_iff
    (hRequest : IsRequest features)
    (ignore : String → Bool)
    (text : String)
    {p : Path}
    {w : Workspace}
    (hText :
      w.files.readText p = .ok (overlay features ignore text)) :
    let ls := Text.lines text.toList
    let asked := relevant ignore features
    (∀ e ∈ asked,
      Dict.find? e.1 (options (overlay features ignore text)) =
        some ((overruling e.1 ls).getD e.2)) ∧
      ((∃ w', verify p features ignore w = (.ok [], w')) ↔
        ∀ e ∈ asked, ∀ set,
          overruling e.1 ls = some set → set = e.2) := by
  intro ls asked
  refine
    ⟨fun e he => find?_options_overlay hRequest ignore text he, ?_⟩
  rw [← mismatches_overlay_eq_nil_iff hRequest,
    verify_apply hText]
  constructor
  · rintro ⟨w', hNothing⟩
    have hKeys := Except.ok.inj (congrArg Prod.fst hNothing)
    exact List.map_eq_nil_iff.mp hKeys
  · intro hNothing
    rw [hNothing]
    exact ⟨_, rfl⟩

/- A workspace with one file, the configuration. -/
def workspaceWith (text : String) : Workspace where
  files :=
    { entries := [(["config"], .file (Utf8.encode text))] }

theorem readText_workspaceWith
    (text : String) :
    (workspaceWith text).files.readText ⟨"/config"⟩ =
      .ok text := by
  have hSteps : FileTree.stepsOf "/config" = ["config"] := by
    decide
  have hRead :
      (workspaceWith text).files.read ⟨"/config"⟩ =
        .ok (Utf8.encode text) := by
    simp [FileTree.read, FileTree.status, FileTree.resolve, hSteps,
      FileTree.walk, FileTree.entry?, Dict.find?, workspaceWith]
  exact FileTree.readText_of_read hRead

/- Both lines about `A` say what is asked for. -/
def agreedRequest : Features :=
  [("A", true), ("B", false)]

/- The text that is written then, without the carriage return. -/
def agreedResult : String :=
  "CONFIG_A=m\n# CONFIG_B is not set\nCONFIG_A=y\n"

theorem isRequest_agreed : IsRequest agreedRequest := by
  constructor
  · unfold Dict.IsOrdered
    decide
  · decide +kernel

theorem relevant_agreed :
    relevant repeatedIgnore agreedRequest =
      [("A", true), ("B", false)] := by
  decide

theorem overlay_agreed :
    overlay agreedRequest repeatedIgnore repeatedText =
      agreedResult := by
  rcases lines_repeatedText with
    ⟨a, b, c, hText, hA, ha, hB, hb, hC, hc⟩
  have hOverlaid :
      overlaidLines (relevant repeatedIgnore agreedRequest)
          [a, b, c] =
        [a, b, c] := by
    rw [relevant_agreed]
    simp [overlaidLines, overlaid, unmentioned, ruling?, ha, hb, hc]
  apply String.toList_inj.mp
  rw [toList_overlay,
    map_toList_overlayLines
      (isRequest_agreed.relevant repeatedIgnore),
    hText, hOverlaid, hA, hB, hC]
  decide

/- Only `A` has a line below its first one. -/
theorem overruling_repeated
    {a b c : List Char}
    (ha : readOption? a = some ("A", true))
    (hb : readOption? b = some ("B", false))
    (hc : readOption? c = some ("A", true)) :
    overruling "A" [a, b, c] = some true ∧
      overruling "B" [a, b, c] = none ∧
      overruling "C" [a, b, c] = none := by
  have hc' := readOption?_dropReturn hc
  refine ⟨?_, ?_, ?_⟩ <;>
    simp [overruling, belowFirst, lastRuling, ruling?, ha, hb, hc,
      hc']

/- A line below the first one is no matter where it agrees. -/
theorem verify_overlay_iff_agreedLine :
    IsRequest agreedRequest ∧
      (workspaceWith agreedResult).files.readText ⟨"/config"⟩ =
        .ok (overlay agreedRequest repeatedIgnore repeatedText) ∧
      ∃ w', verify ⟨"/config"⟩ agreedRequest repeatedIgnore
        (workspaceWith agreedResult) = (.ok [], w') := by
  have hText :
      (workspaceWith agreedResult).files.readText ⟨"/config"⟩ =
        .ok (overlay agreedRequest repeatedIgnore
          repeatedText) := by
    rw [overlay_agreed]
    exact readText_workspaceWith _
  refine ⟨isRequest_agreed, hText, ?_⟩
  rw [(verify_overlay_iff isRequest_agreed repeatedIgnore
    repeatedText hText).2]
  rcases lines_repeatedText with
    ⟨a, b, c, hLines, -, ha, -, hb, -, hc⟩
  rw [hLines, relevant_agreed]
  simp [overruling_repeated ha hb hc]

/- The text that is written where one feature has two lines. -/
def repeatedResult : String :=
  "# CONFIG_A is not set\n# CONFIG_B is not set\n" ++
    "CONFIG_A=y\nCONFIG_C=y\n"

theorem overlay_repeatedText :
    overlay repeatedRequest repeatedIgnore repeatedText =
      repeatedResult := by
  rcases lines_repeatedText with
    ⟨a, b, c, hText, -, ha, hB, hb, hC, hc⟩
  have hOverlaid := overlaidLines_repeated ha hb hc
  apply String.toList_inj.mp
  rw [toList_overlay,
    map_toList_overlayLines
      (isRequest_repeated.relevant repeatedIgnore),
    hText, hOverlaid, hB, hC]
  decide

theorem readText_repeated :
    (workspaceWith repeatedResult).files.readText ⟨"/config"⟩ =
      .ok (overlay repeatedRequest repeatedIgnore
        repeatedText) := by
  rw [overlay_repeatedText]
  exact readText_workspaceWith _

/- What the second line about `A` says is not what was asked for. -/
theorem mismatches_repeated :
    mismatches repeatedRequest repeatedIgnore
        (overlay repeatedRequest repeatedIgnore repeatedText) =
      [("A", false)] := by
  rcases lines_repeatedText with
    ⟨a, b, c, hText, -, ha, -, hb, -, hc⟩
  rw [mismatches_overlay isRequest_repeated, hText,
    relevant_repeated]
  simp [overruling_repeated ha hb hc]

/-
  The second line about `A` stays and counts, so that `A` is
  reported although it was asked for just before.
-/
theorem not_verify_repeatedLine :
    IsRequest repeatedRequest ∧
      (workspaceWith repeatedResult).files.readText ⟨"/config"⟩ =
        .ok (overlay repeatedRequest repeatedIgnore
          repeatedText) ∧
      (∃ w', verify ⟨"/config"⟩ repeatedRequest repeatedIgnore
        (workspaceWith repeatedResult) = (.ok ["A"], w')) ∧
      ¬ ∃ w', verify ⟨"/config"⟩ repeatedRequest repeatedIgnore
        (workspaceWith repeatedResult) = (.ok [], w') := by
  have hVerify :=
    verify_apply readText_repeated repeatedRequest repeatedIgnore
  rw [mismatches_repeated] at hVerify
  refine
    ⟨isRequest_repeated, readText_repeated, ⟨_, hVerify⟩, ?_⟩
  rintro ⟨w', hNothing⟩
  rw [hVerify] at hNothing
  cases hNothing

end DotConfig

end Variability
