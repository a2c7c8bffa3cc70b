import Variability.Proofs.Dict.Ordered
import Variability.Proofs.DotConfig.Options

/-
  What overlaying features makes of a configuration.

  The first line about a feature is replaced if it says otherwise,
  and a feature without a line is added at the end. After that the
  first line about each feature says what was asked for, and
  nothing is left to replace or to add. Further lines about a
  feature stay as they are.

  Main declarations:
    * `DotConfig.IsRequest`
    * `DotConfig.Overlays`
    * `DotConfig.Overlays.firstRuling_eq`
    * `DotConfig.Overlays.eq_self`
    * `DotConfig.overlaidLines`
    * `DotConfig.map_toList_overlayLines`
    * `DotConfig.lines_overlay`
    * `DotConfig.overlay_settles`
-/

namespace Variability

namespace DotConfig

variable {name : String}
variable {enabled : Bool}
variable {features : Features}
variable {ls : List (List Char)}
variable {text : String}

------------------------------------------------------------
-- Requests
------------------------------------------------------------

/- What can be asked for: a value for each of some names, in order. -/
structure IsRequest (features : Features) : Prop where
  isOrdered : Dict.IsOrdered features
  isName : ∀ e ∈ features, IsName e.1

theorem IsRequest.filter
    (hRequest : IsRequest features)
    (p : String × Bool → Bool) :
    IsRequest (features.filter p) :=
  ⟨hRequest.isOrdered.filter p,
    fun e he => hRequest.isName e (List.mem_of_mem_filter he)⟩

theorem IsRequest.relevant
    (hRequest : IsRequest features)
    (ignore : String → Bool) :
    IsRequest (relevant ignore features) :=
  hRequest.filter _

theorem IsRequest.find?_eq_some_iff
    (hRequest : IsRequest features) :
    Dict.find? name features = some enabled ↔
      (name, enabled) ∈ features :=
  Dict.find?_eq_some_iff hRequest.isOrdered name enabled

/- A feature is asked to have one value. -/
theorem IsRequest.unique
    {enabled' : Bool}
    (hRequest : IsRequest features)
    (hMem : (name, enabled) ∈ features)
    (hMem' : (name, enabled') ∈ features) :
    enabled = enabled' := by
  rw [← hRequest.find?_eq_some_iff] at hMem hMem'
  rw [hMem] at hMem'
  exact Option.some.inj hMem'

/- The line that sets or unsets a feature as it is asked for. -/
def featureLine (e : String × Bool) : List Char :=
  (optionLine e.1 e.2).toList

/- Among the lines for all features one is about a feature. -/
theorem IsRequest.findSome?_ruling?
    (hRequest : IsRequest features)
    (hMem : (name, enabled) ∈ features)
    {lines : List (List Char)}
    (hLines :
      ∀ line, line ∈ lines ↔ ∃ e ∈ features, featureLine e = line) :
    lines.findSome? (ruling? name) = some enabled := by
  have hOwn :=
    ruling?_optionLine (hRequest.isName _ hMem) enabled
  cases hFound : lines.findSome? (ruling? name) with
  | none =>
      have hNone :=
        List.findSome?_eq_none_iff.mp hFound _
          ((hLines _).mpr ⟨_, hMem, rfl⟩)
      rw [featureLine, hOwn] at hNone
      cases hNone
  | some set =>
      rcases List.exists_of_findSome?_eq_some hFound with
        ⟨line, hLine, hRuling⟩
      rcases (hLines line).mp hLine with ⟨⟨other, value⟩, hE, rfl⟩
      have hRead :=
        readOption?_optionLine (hRequest.isName _ hE) value
      rw [ruling?_eq_some_iff, featureLine, hRead] at hRuling
      cases hRuling
      rw [hRequest.unique hMem hE]

theorem IsRequest.firstRuling_featureLines
    (hRequest : IsRequest features)
    (hMem : (name, enabled) ∈ features) :
    firstRuling name (features.map featureLine) = some enabled :=
  hRequest.findSome?_ruling? hMem fun _ => List.mem_map

theorem IsRequest.lastRuling_featureLines
    (hRequest : IsRequest features)
    (hMem : (name, enabled) ∈ features) :
    lastRuling name (features.map featureLine) = some enabled :=
  hRequest.findSome?_ruling? hMem fun _ => by
    rw [List.mem_reverse, List.mem_map]

------------------------------------------------------------
-- Steps
------------------------------------------------------------

/- What stands for a feature that a line sets or unsets. -/
def answer
    (line : List Char)
    (name : String)
    (set enabled : Bool) : String :=
  if set = enabled then String.ofList line
  else optionLine name enabled

theorem readOption?_answer
    {line : List Char}
    {set : Bool}
    (hRead : readOption? line = some (name, set))
    (hName : IsName name)
    (enabled : Bool) :
    readOption? (answer line name set enabled).toList =
      some (name, enabled) := by
  unfold answer
  split
  · rename_i hAgree
    rw [String.toList_ofList, hRead, hAgree]
  · exact readOption?_optionLine hName enabled

/-
  How lines are overlaid: a line about none of the features stays,
  one about a feature is the only one to settle it, and the
  features that are left at the end have a line added.
-/
inductive Overlays :
    Features → List (List Char) → List String → Prop
  | added (features : Features) :
      Overlays features []
        (features.map fun e => optionLine e.1 e.2)
  | kept
      {features : Features}
      {line : List Char}
      {rest : List (List Char)}
      {out : List String}
      (hOther : ∀ e ∈ features, ruling? e.1 line = none)
      (hRest : Overlays features rest out) :
      Overlays features (line :: rest) (String.ofList line :: out)
  | settled
      {features : Features}
      {line : List Char}
      {rest : List (List Char)}
      {out : List String}
      {name : String}
      {set enabled : Bool}
      (hRead : readOption? line = some (name, set))
      (hMem : (name, enabled) ∈ features)
      (hRest : Overlays (features.filter (·.1 ≠ name)) rest out) :
      Overlays features (line :: rest)
        (answer line name set enabled :: out)

theorem IsRequest.overlays
    (hRequest : IsRequest features)
    (ls : List (List Char)) :
    Overlays features ls (overlayLines features ls) := by
  fun_induction overlayLines features ls with
  | case1 features => exact .added features
  | case2 features line rest hRead ih =>
      refine .kept (fun e _ => ?_) (ih hRequest)
      rw [ruling?, hRead]
  | case3 features line rest name set hRead hNone ih =>
      refine .kept (fun e he => ?_) (ih hRequest)
      apply ruling?_eq_none hRead
      rintro rfl
      rw [hRequest.find?_eq_some_iff.mpr he] at hNone
      cases hNone
  | case4 features line rest name set hRead enabled hFound ih =>
      exact
        .settled hRead (hRequest.find?_eq_some_iff.mp hFound)
          (ih (hRequest.filter _))

theorem mem_filter_ne_iff
    {other : String} :
    (name, enabled) ∈ features.filter (·.1 ≠ other) ↔
      (name, enabled) ∈ features ∧ name ≠ other := by
  simp [List.mem_filter]

/- What is so of all lines and of all additions is so afterwards. -/
theorem Overlays.forall_mem
    {out : List String}
    {P : List Char → Prop}
    (hOverlays : Overlays features ls out)
    (hLines : ∀ line ∈ ls, P line)
    (hFeatures :
      ∀ e ∈ features, P (optionLine e.1 e.2).toList) :
    ∀ line ∈ out, P line.toList := by
  induction hOverlays with
  | added features =>
      intro line hLine
      rcases List.mem_map.mp hLine with ⟨e, he, rfl⟩
      exact hFeatures e he
  | kept _ _ ih =>
      rw [List.forall_mem_cons] at hLines
      rw [List.forall_mem_cons, String.toList_ofList]
      exact ⟨hLines.1, ih hLines.2 hFeatures⟩
  | settled hRead hMem _ ih =>
      rw [List.forall_mem_cons] at hLines
      rw [List.forall_mem_cons]
      constructor
      · unfold answer
        split
        · rw [String.toList_ofList]
          exact hLines.1
        · exact hFeatures _ hMem
      · exact
          ih hLines.2 fun e he =>
            hFeatures e (List.mem_of_mem_filter he)

------------------------------------------------------------
-- Lines That Agree
------------------------------------------------------------

/- Afterwards each feature has a line, and the first one sets it. -/
theorem Overlays.firstRuling_eq
    {out : List String}
    (hOverlays : Overlays features ls out)
    (hRequest : IsRequest features)
    (hMem : (name, enabled) ∈ features) :
    firstRuling name (out.map String.toList) = some enabled := by
  induction hOverlays with
  | added features =>
      rw [List.map_map]
      exact hRequest.firstRuling_featureLines hMem
  | kept hOther _ ih =>
      rw [List.map_cons, firstRuling_cons, String.toList_ofList,
        hOther _ hMem]
      exact ih hRequest hMem
  | @settled features line rest out other set value hRead hValue _
      ih =>
      have hAnswer :=
        readOption?_answer hRead (hRequest.isName _ hValue) value
      rw [List.map_cons, firstRuling_cons]
      by_cases hOther : name = other
      · subst hOther
        rw [ruling?_eq_some_iff.mpr hAnswer,
          hRequest.unique hMem hValue]
        rfl
      · rw [ruling?_eq_none hAnswer hOther]
        exact
          ih (hRequest.filter _)
            (mem_filter_ne_iff.mpr ⟨hMem, hOther⟩)

/- Lines stay as they are if each feature has one and is set by it. -/
theorem Overlays.eq_self
    {out : List String}
    (hOverlays : Overlays features ls out)
    (hRequest : IsRequest features)
    (hAgree :
      ∀ name enabled, (name, enabled) ∈ features →
        firstRuling name ls = some enabled) :
    out = ls.map String.ofList := by
  induction hOverlays with
  | added features =>
      cases features with
      | nil => rfl
      | cons e features =>
          cases hAgree e.1 e.2 List.mem_cons_self
  | kept hOther _ ih =>
      rw [List.map_cons, ih hRequest]
      intro name enabled hMem
      have hFirst := hAgree name enabled hMem
      rwa [firstRuling_cons, hOther _ hMem] at hFirst
  | settled hRead hMem _ ih =>
      have hFirst := hAgree _ _ hMem
      rw [firstRuling_cons, ruling?_eq_some_iff.mpr hRead] at hFirst
      cases hFirst
      rw [List.map_cons, answer, if_pos rfl,
        ih (hRequest.filter _)]
      intro name enabled hMem'
      rw [mem_filter_ne_iff] at hMem'
      have hFirst := hAgree name enabled hMem'.1
      rwa [firstRuling_cons, ruling?_eq_none hRead hMem'.2]
        at hFirst

/- Overlaying once more changes nothing. -/
theorem overlayLines_overlayLines
    (hRequest : IsRequest features)
    (ls : List (List Char)) :
    overlayLines features
        ((overlayLines features ls).map String.toList) =
      overlayLines features ls := by
  have hAgain :=
    (hRequest.overlays _).eq_self hRequest fun _ _ hMem =>
      (hRequest.overlays ls).firstRuling_eq hRequest hMem
  rw [hAgain, List.map_map]
  simp

------------------------------------------------------------
-- Lines in Their Places
------------------------------------------------------------

/-
  What becomes of a line below others. The first line about a
  feature is replaced if it sets the feature otherwise.
-/
def overlaid
    (features : Features)
    (above : List (List Char))
    (line : List Char) : List Char :=
  match readOption? line with
  | none => line
  | some (name, set) =>
      if (name, !set) ∈ features ∧
          ∀ other ∈ above, ruling? name other = none then
        featureLine (name, !set)
      else
        line

/- The features that no line is about. -/
def unmentioned
    (features : Features)
    (ls : List (List Char)) : Features :=
  features.filter fun e => ∀ line ∈ ls, ruling? e.1 line = none

/- Every line in its place, and behind them lines that are missing. -/
def overlaidLines
    (features : Features)
    (ls : List (List Char)) : List (List Char) :=
  ls.mapIdx (fun i line => overlaid features (ls.take i) line) ++
    (unmentioned features ls).map featureLine

theorem mem_unmentioned_iff
    {e : String × Bool} :
    e ∈ unmentioned features ls ↔
      e ∈ features ∧ ∀ line ∈ ls, ruling? e.1 line = none := by
  rw [unmentioned, List.mem_filter, decide_eq_true_iff]

theorem unmentioned_concat
    (features : Features)
    (above : List (List Char))
    (line : List Char) :
    unmentioned features (above ++ [line]) =
      (unmentioned features above).filter
        fun e => ruling? e.1 line = none := by
  rw [unmentioned, unmentioned, List.filter_filter]
  apply List.filter_congr
  intro e _
  rw [← Bool.decide_and, decide_eq_decide, List.forall_mem_append,
    List.forall_mem_singleton, and_comm]

/- A line about none of the features that are left stays. -/
theorem overlaid_kept
    {above : List (List Char)}
    {line : List Char}
    (hOther :
      ∀ e ∈ unmentioned features above, ruling? e.1 line = none) :
    unmentioned features above =
        unmentioned features (above ++ [line]) ∧
      overlaid features above line = line := by
  constructor
  · rw [unmentioned_concat, eq_comm, List.filter_eq_self]
    intro e he
    exact decide_eq_true (hOther e he)
  · unfold overlaid
    split
    · rfl
    · rename_i name set hRead
      apply if_neg
      rintro ⟨hMem, hAbove⟩
      have hNone :=
        hOther _ (mem_unmentioned_iff.mpr ⟨hMem, hAbove⟩)
      rw [ruling?_eq_some_iff.mpr hRead] at hNone
      cases hNone

/- A line about one of them answers for it. -/
theorem overlaid_settled
    {above : List (List Char)}
    {line : List Char}
    {name : String}
    {set enabled : Bool}
    (hRequest : IsRequest features)
    (hRead : readOption? line = some (name, set))
    (hMem : (name, enabled) ∈ unmentioned features above) :
    (unmentioned features above).filter (·.1 ≠ name) =
        unmentioned features (above ++ [line]) ∧
      (answer line name set enabled).toList =
        overlaid features above line := by
  constructor
  · rw [unmentioned_concat]
    apply List.filter_congr
    intro e _
    rw [decide_eq_decide, ruling?, hRead]
    by_cases hSame : name = e.1 <;> simp [hSame, eq_comm]
  · rw [mem_unmentioned_iff] at hMem
    unfold answer overlaid
    rw [hRead]
    dsimp only
    by_cases hAgree : set = enabled
    · rw [if_pos hAgree, String.toList_ofList, if_neg]
      rintro ⟨hOther, -⟩
      have hSame := hRequest.unique hMem.1 hOther
      rw [hAgree] at hSame
      cases enabled <;> cases hSame
    · have hOther : enabled = !set := by
        cases set <;> cases enabled <;> simp_all
      subst hOther
      rw [if_neg hAgree, if_pos hMem]
      rfl

/-
  The features that are left are those that no line above is
  about. By induction on the steps, for any lines above.
-/
theorem Overlays.map_toList_eq
    {left : Features}
    {out : List String}
    (hOverlays : Overlays left ls out)
    (hRequest : IsRequest features)
    (above : List (List Char))
    (hLeft : left = unmentioned features above) :
    out.map String.toList =
      ls.mapIdx (fun i line =>
          overlaid features (above ++ ls.take i) line) ++
        (unmentioned features (above ++ ls)).map featureLine := by
  induction hOverlays generalizing above with
  | added left =>
      rw [hLeft, List.append_nil, List.map_map]
      rfl
  | @kept left line rest out hOther _ ih =>
      subst hLeft
      rcases overlaid_kept hOther with ⟨hLeft, hHere⟩
      rw [List.map_cons, ih _ hLeft, List.mapIdx_cons,
        List.take_zero, List.append_nil, hHere,
        String.toList_ofList, List.cons_append]
      simp only [List.take_succ_cons, List.append_assoc,
        List.singleton_append]
  | @settled left line rest out name set enabled hRead hMem _ ih =>
      subst hLeft
      rcases overlaid_settled hRequest hRead hMem with
        ⟨hLeft, hHere⟩
      rw [List.map_cons, ih _ hLeft, List.mapIdx_cons,
        List.take_zero, List.append_nil, hHere, List.cons_append]
      simp only [List.take_succ_cons, List.append_assoc,
        List.singleton_append]

theorem map_toList_overlayLines
    (hRequest : IsRequest features)
    (ls : List (List Char)) :
    (overlayLines features ls).map String.toList =
      overlaidLines features ls := by
  have hNone : features = unmentioned features [] := by
    rw [unmentioned, eq_comm, List.filter_eq_self]
    simp
  exact (hRequest.overlays ls).map_toList_eq hRequest [] hNone

------------------------------------------------------------
-- Texts
------------------------------------------------------------

/- Some lines, an empty one if there are none. -/
def orEmptyLine (ls : List (List Char)) : List (List Char) :=
  if ls = [] then [[]] else ls

theorem toList_overlay
    (features : Features)
    (ignore : String → Bool)
    (text : String) :
    (overlay features ignore text).toList =
      ['\n'].intercalate
          ((overlayLines (relevant ignore features)
            (Text.lines text.toList)).map String.toList) ++
        ['\n'] := by
  rw [overlay, String.toList_append, String.toList_intercalate]
  rfl

/- The lines of the text that is written, as they are read again. -/
theorem lines_overlay
    (hRequest : IsRequest features)
    (ignore : String → Bool)
    (text : String) :
    Text.lines (overlay features ignore text).toList =
      orEmptyLine
        (((overlayLines (relevant ignore features)
          (Text.lines text.toList)).map String.toList).map
            Text.dropReturn) := by
  have hRelevant := hRequest.relevant ignore
  have hFeeds :=
    (hRelevant.overlays (Text.lines text.toList)).forall_mem
      (P := fun line => '\n' ∉ line)
      (fun _ hLine => Text.not_mem_of_mem_lines hLine)
      fun e he =>
        (isUnbroken_optionLine (hRelevant.isName e he)
          e.2).not_mem.1
  rw [toList_overlay]
  generalize overlayLines (relevant ignore features)
    (Text.lines text.toList) = out at hFeeds ⊢
  cases out with
  | nil => rfl
  | cons first rest =>
      rw [Text.lines_intercalate (by simp)
        (List.forall_mem_map.mpr hFeeds)]
      rfl

/- No carriage return is left where they all end lines. -/
theorem lines_overlay_of_pairsReturns
    (hRequest : IsRequest features)
    (ignore : String → Bool)
    (hReturns : Text.PairsReturns text.toList) :
    Text.lines (overlay features ignore text).toList =
      orEmptyLine
        ((overlayLines (relevant ignore features)
          (Text.lines text.toList)).map String.toList) := by
  have hRelevant := hRequest.relevant ignore
  have hUnbroken :=
    (hRelevant.overlays (Text.lines text.toList)).forall_mem
      (Text.isUnbroken_of_mem_lines hReturns)
      fun e he => isUnbroken_optionLine (hRelevant.isName e he) e.2
  rw [lines_overlay hRequest, List.map_map]
  congr 1
  apply List.map_congr_left
  intro line hLine
  exact
    Text.dropReturn_of_not_mem (hUnbroken line hLine).not_mem.2

/- There are no lines afterwards only if no feature is asked for. -/
theorem eq_nil_of_overlayLines
    (hRequest : IsRequest features)
    (hNone : overlayLines features ls = []) :
    features = [] := by
  cases features with
  | nil => rfl
  | cons e features =>
      have hFirst :=
        (hRequest.overlays ls).firstRuling_eq hRequest
          (List.mem_cons_self (a := e))
      rw [hNone] at hFirst
      cases hFirst

/- Overlaying the text that was written changes nothing. -/
theorem overlay_overlay
    (hRequest : IsRequest features)
    (ignore : String → Bool)
    (hReturns : Text.PairsReturns text.toList) :
    overlay features ignore (overlay features ignore text) =
      overlay features ignore text := by
  have hRelevant := hRequest.relevant ignore
  have hLines :=
    lines_overlay_of_pairsReturns hRequest ignore hReturns
  have hSame :
      "\n".intercalate
          (overlayLines (relevant ignore features)
            (Text.lines (overlay features ignore text).toList)) =
        "\n".intercalate
          (overlayLines (relevant ignore features)
            (Text.lines text.toList)) := by
    rw [hLines, orEmptyLine]
    split
    · rename_i hNone
      rw [List.map_eq_nil_iff] at hNone
      rw [hNone, eq_nil_of_overlayLines hRelevant hNone]
      rfl
    · rw [overlayLines_overlayLines hRelevant]
  exact congrArg (· ++ "\n") hSame

/-
  Where all carriage returns end lines, overlaying twice is
  overlaying once. The lines of the text that is written are
  those of the text, each in its place and only replaced if it is
  the first one about a feature and sets it otherwise, and then
  the lines of the features without one, in the order of names.
-/
theorem overlay_settles
    (hRequest : IsRequest features)
    (ignore : String → Bool)
    (hReturns : Text.PairsReturns text.toList) :
    let asked := relevant ignore features
    let ls := Text.lines text.toList
    let written := overlay features ignore text
    overlay features ignore written = written ∧
      Text.lines written.toList =
        orEmptyLine
          (ls.mapIdx
              (fun i line => overlaid asked (ls.take i) line) ++
            (unmentioned asked ls).map featureLine) ∧
      Dict.IsOrdered (unmentioned asked ls) := by
  intro asked ls written
  have hRelevant := hRequest.relevant ignore
  refine ⟨overlay_overlay hRequest ignore hReturns, ?_, ?_⟩
  · rw [lines_overlay_of_pairsReturns hRequest ignore hReturns,
      map_toList_overlayLines hRelevant]
    rfl
  · exact hRelevant.isOrdered.filter _

/- The feature `A` has two lines, `C` has none, and `D` is ignored. -/
def repeatedText : String :=
  "CONFIG_A=m\r\n# CONFIG_B is not set\nCONFIG_A=y\n"

def repeatedRequest : Features :=
  [("A", false), ("B", false), ("C", true), ("D", true)]

def repeatedIgnore (name : String) : Bool :=
  name == "D"

theorem isRequest_repeated : IsRequest repeatedRequest := by
  constructor
  · unfold Dict.IsOrdered
    decide
  · decide +kernel

theorem isName_repeated : IsName "A" ∧ IsName "B" :=
  ⟨isRequest_repeated.isName ("A", false) (by decide),
    isRequest_repeated.isName ("B", false) (by decide)⟩

/- The lines of the text, and what they are about. -/
theorem lines_repeatedText :
    ∃ a b c,
      Text.lines repeatedText.toList = [a, b, c] ∧
        a = "CONFIG_A=m".toList ∧
        readOption? a = some ("A", true) ∧
        b = "# CONFIG_B is not set".toList ∧
        readOption? b = some ("B", false) ∧
        c = "CONFIG_A=y".toList ∧
        readOption? c = some ("A", true) := by
  refine
    ⟨_, _, _, by decide, rfl, ?_, rfl, ?_, rfl, ?_⟩
  · exact
      readOption?_eq_some_iff.mpr
        (@IsWritten.valued "A" ['m'] isName_repeated.1 (by decide))
  · exact readOption?_optionLine isName_repeated.2 false
  · exact readOption?_optionLine isName_repeated.1 true

theorem relevant_repeated :
    relevant repeatedIgnore repeatedRequest =
      [("A", false), ("B", false), ("C", true)] := by
  decide

theorem overlaidLines_repeated
    {a b c : List Char}
    (ha : readOption? a = some ("A", true))
    (hb : readOption? b = some ("B", false))
    (hc : readOption? c = some ("A", true)) :
    overlaidLines (relevant repeatedIgnore repeatedRequest)
        [a, b, c] =
      [featureLine ("A", false), b, c,
        featureLine ("C", true)] := by
  rw [relevant_repeated]
  simp [overlaidLines, overlaid, unmentioned, ruling?, ha, hb, hc]

theorem overlay_settles_repeatedLine :
    IsRequest repeatedRequest ∧
      Text.PairsReturns repeatedText.toList ∧
      let written :=
        overlay repeatedRequest repeatedIgnore repeatedText
      overlay repeatedRequest repeatedIgnore written = written ∧
        Text.lines written.toList =
          ["# CONFIG_A is not set".toList,
            "# CONFIG_B is not set".toList,
            "CONFIG_A=y".toList, "CONFIG_C=y".toList] := by
  have hReturns : Text.PairsReturns repeatedText.toList := by
    decide
  rcases
    overlay_settles isRequest_repeated repeatedIgnore hReturns with
    ⟨hAgain, hLines, -⟩
  refine ⟨isRequest_repeated, hReturns, hAgain, ?_⟩
  rcases lines_repeatedText with
    ⟨a, b, c, hText, -, ha, hB, hb, hC, hc⟩
  have hOverlaid := overlaidLines_repeated ha hb hc
  rw [overlaidLines] at hOverlaid
  rw [hLines, hText, hOverlaid, hB, hC]
  decide

end DotConfig

end Variability
