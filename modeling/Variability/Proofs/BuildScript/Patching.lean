import Mathlib
import Variability.Proofs.FileTree.Writing
import Variability.Proofs.Job.Running
import Variability.Proofs.Text.Pieces
import Variability.Strategy

/-
  Patching a script twice is patching it once.

  A pattern can only occur behind a replacement pass where it
  occurred before, if no end of it is comparable with the start of
  the replacement, nor an end of the replacement with its start.
  For the patterns and replacements of the patch this is so, each
  with each. So no pattern is left, and there is nothing to do in
  a second pass.

  Main declarations:
    * `BuildScript.Replaces`
    * `BuildScript.IsApart`
    * `BuildScript.Replaces.exists_suffix`
    * `BuildScript.applyAll_applyAll`
    * `BuildScript.splitOn_applyAll`
    * `BuildScript.patch_settles`
-/

namespace Variability

namespace BuildScript

variable {pattern replacement q r s out line : List Char}
variable {whole : Bool}
variable {c : Char}

------------------------------------------------------------
-- One Replacement
------------------------------------------------------------

/- What is still to be read behind a pattern that was replaced. -/
def behind (whole : Bool) (s : List Char) : List Char :=
  if whole then s.dropWhile (· ≠ '\n') else s

theorem behind_suffix
    (whole : Bool)
    (s : List Char) :
    behind whole s <:+ s := by
  unfold behind
  split
  · exact List.dropWhile_suffix _
  · exact List.suffix_rfl

/-
  A text and what becomes of it: each pattern that is met from the
  left is replaced, and everything else is kept.
-/
inductive Replaces
    (pattern replacement : List Char)
    (whole : Bool) :
    List Char → List Char → Prop where
  | nil : Replaces pattern replacement whole [] []
  | hit {s out : List Char}
      (hRest :
        Replaces pattern replacement whole (behind whole s) out) :
      Replaces pattern replacement whole (pattern ++ s)
        (replacement ++ out)
  | miss {c : Char} {s out : List Char}
      (hAbsent : ¬ pattern <+: c :: s)
      (hRest : Replaces pattern replacement whole s out) :
      Replaces pattern replacement whole (c :: s) (c :: out)

theorem replaceFrom_skip
    (pattern replacement : List Char)
    (whole inLine : Bool)
    (n : Nat)
    (s : List Char) :
    replaceFrom pattern replacement whole n inLine s =
      replaceFrom pattern replacement whole 0 inLine
        (s.drop n) := by
  induction s generalizing n with
  | nil => simp [replaceFrom]
  | cons c s ih =>
      cases n with
      | zero => rfl
      | succ n =>
          rw [replaceFrom, List.drop_succ_cons]
          exact ih n

theorem replaceFrom_inLine
    (pattern replacement : List Char)
    (whole : Bool)
    (s : List Char) :
    replaceFrom pattern replacement whole 0 true s =
      replaceFrom pattern replacement whole 0 false
        (s.dropWhile (· ≠ '\n')) := by
  induction s with
  | nil => rfl
  | cons c s ih =>
      by_cases hFeed : c = '\n'
      · subst hFeed
        rfl
      · rw [replaceFrom, if_pos ⟨rfl, hFeed⟩, ih,
          List.dropWhile_cons_of_pos (by simpa using hFeed)]

theorem replaceFrom_behind
    (pattern replacement : List Char)
    (whole : Bool)
    (s : List Char) :
    replaceFrom pattern replacement whole 0 whole s =
      replaceFrom pattern replacement whole 0 false
        (behind whole s) := by
  cases whole with
  | false => rfl
  | true => exact replaceFrom_inLine pattern replacement true s

theorem replaceFrom_hit
    (hPattern : pattern ≠ [])
    (s : List Char) :
    replaceFrom pattern replacement whole 0 false
        (pattern ++ s) =
      replacement ++
        replaceFrom pattern replacement whole 0 false
          (behind whole s) := by
  rcases List.exists_cons_of_ne_nil hPattern with
    ⟨c, pattern', rfl⟩
  have hMet :
      (c :: pattern').isPrefixOf (c :: (pattern' ++ s)) =
        true :=
    List.isPrefixOf_iff_prefix.mpr (List.prefix_append _ s)
  rw [List.cons_append, replaceFrom, if_neg (by simp),
    if_pos hMet, replaceFrom_skip, List.length_cons,
    Nat.add_sub_cancel, List.drop_left, replaceFrom_behind]

theorem replaceFrom_miss
    (hAbsent : ¬ pattern <+: c :: s) :
    replaceFrom pattern replacement whole 0 false (c :: s) =
      c ::
        replaceFrom pattern replacement whole 0 false s := by
  rw [replaceFrom, if_neg (by simp), if_neg]
  exact fun hMet => hAbsent (List.isPrefixOf_iff_prefix.mp hMet)

/- What becomes of a text is what reading it from the left gives. -/
theorem replaces_replaceFrom
    (hPattern : pattern ≠ [])
    (replacement : List Char)
    (whole : Bool)
    (s : List Char) :
    Replaces pattern replacement whole s
      (replaceFrom pattern replacement whole 0 false s) := by
  induction hLength : s.length using Nat.strong_induction_on
      generalizing s with
  | _ length ih =>
      subst hLength
      by_cases hMet : pattern <+: s
      · rcases hMet with ⟨rest, rfl⟩
        have hPos := List.length_pos_iff.mpr hPattern
        have hLess :
            (behind whole rest).length <
              (pattern ++ rest).length := by
          have hLe := (behind_suffix whole rest).length_le
          rw [List.length_append]
          omega
        rw [replaceFrom_hit hPattern]
        exact .hit (ih _ hLess _ rfl)
      · cases s with
        | nil => exact .nil
        | cons c s =>
            rw [replaceFrom_miss hMet]
            exact .miss hMet (ih _ (by simp) s rfl)

theorem Replaces.eq
    (hReplaces : Replaces pattern replacement whole s out)
    (hPattern : pattern ≠ []) :
    out = replaceFrom pattern replacement whole 0 false s := by
  induction hReplaces with
  | nil => rfl
  | hit _ ih => rw [replaceFrom_hit hPattern, ih]
  | miss hAbsent _ ih => rw [replaceFrom_miss hAbsent, ih]

/- A text without the pattern is kept. -/
theorem Replaces.eq_self
    (hReplaces : Replaces pattern replacement whole s out)
    (hAbsent : ¬ pattern <:+: s) :
    out = s := by
  induction hReplaces with
  | nil => rfl
  | hit _ _ =>
      exact absurd (List.prefix_append _ _).isInfix hAbsent
  | @miss c s out _ _ ih =>
      have hRest : ¬ pattern <:+: s := fun hMet =>
        hAbsent (hMet.trans (List.suffix_cons c s).isInfix)
      rw [ih hRest]

------------------------------------------------------------
-- Texts That Cannot Overlap
------------------------------------------------------------

/- No end of a text is comparable with the start of another one. -/
def IsApart (s t : List Char) : Prop :=
  ∀ u ∈ s.tails, u ≠ [] → ¬ u <+: t ∧ ¬ t <+: u

instance (s t : List Char) : Decidable (IsApart s t) := by
  unfold IsApart
  infer_instance

namespace IsApart

variable {t u : List Char}
variable (hApart : IsApart s t)
include hApart

theorem not_prefix
    (hEnd : u <:+ s)
    (hNonempty : u ≠ []) :
    ¬ u <+: t ∧ ¬ t <+: u :=
  hApart u ((List.mem_tails u s).mpr hEnd) hNonempty

theorem of_suffix
    (hEnd : u <:+ s) :
    IsApart u t := fun v hv =>
  hApart.not_prefix (((List.mem_tails v u).mp hv).trans hEnd)

/- No text starts with both. -/
theorem not_both
    (hNonempty : s ≠ [])
    (hPrefix : s <+: out) :
    ¬ t <+: out := fun hOther => by
  have hBoth := hApart.not_prefix List.suffix_rfl hNonempty
  rcases List.prefix_or_prefix_of_prefix hPrefix hOther with
    hLess | hMore
  · exact hBoth.1 hLess
  · exact hBoth.2 hMore

/- The other text is not inside, nor does it go on behind an end. -/
theorem infix_append
    (hNonempty : t ≠ [])
    (hOccurs : t <:+: s ++ out) :
    t <:+: out := by
  rcases List.infix_append_iff.mp hOccurs with
    hHere | hThere | ⟨u, v, rfl, hu, hv⟩
  · rcases List.infix_iff_prefix_suffix.mp hHere with
      ⟨u, hMore, hu⟩
    have hEnd : u ≠ [] := by
      rintro rfl
      exact hNonempty (List.prefix_nil.mp hMore)
    exact absurd hMore (hApart.not_prefix hu hEnd).2
  · exact hThere
  · by_cases hEnd : u = []
    · subst hEnd
      exact hv.isInfix
    · exact
        absurd (List.prefix_append u v)
          (hApart.not_prefix hu hEnd).1

end IsApart

namespace Replaces

variable (hReplaces : Replaces pattern replacement whole s out)
include hReplaces

/- A text that starts the result and is kept started the text. -/
theorem starts_text
    (hApart : IsApart q replacement)
    (hPrefix : q <+: out) :
    q <+: s := by
  induction hReplaces generalizing q with
  | nil => exact hPrefix
  | hit _ _ =>
      by_cases hEmpty : q = []
      · exact hEmpty ▸ List.nil_prefix
      · exact
          absurd (List.prefix_append _ _)
            (hApart.not_both hEmpty hPrefix)
  | @miss c s out _ _ ih =>
      cases q with
      | nil => exact List.nil_prefix
      | cons d q =>
          rw [List.cons_prefix_cons] at hPrefix ⊢
          exact
            ⟨hPrefix.1,
              ih (hApart.of_suffix (List.suffix_cons d q))
                hPrefix.2⟩

/-
  What occurs in the result occurred in the text, at a place where
  the pattern was not met.
-/
theorem exists_suffix
    (hApart : IsApart q replacement)
    (hApart' : IsApart replacement q)
    (hStart : q ≠ [])
    (hOccurs : q <:+: out) :
    ∃ t, t <:+ s ∧ q <+: t ∧ ¬ pattern <+: t := by
  induction hReplaces with
  | nil => exact absurd (List.infix_nil.mp hOccurs) hStart
  | @hit s out _ ih =>
      have hBehind := hApart'.infix_append hStart hOccurs
      rcases ih hBehind with ⟨t, ht, hMet⟩
      have hEnd : t <:+ pattern ++ s :=
        (ht.trans (behind_suffix whole s)).trans
          (List.suffix_append pattern s)
      exact ⟨t, hEnd, hMet⟩
  | @miss c s out hAbsent hRest ih =>
      rcases List.infix_cons_iff.mp hOccurs with hHere | hThere
      · have hWhole :=
          (Replaces.miss hAbsent hRest).starts_text hApart
            hHere
        exact ⟨c :: s, List.suffix_rfl, hWhole, hAbsent⟩
      · rcases ih hThere with ⟨t, ht, hMet⟩
        exact ⟨t, ht.trans (List.suffix_cons c s), hMet⟩

end Replaces

------------------------------------------------------------
-- Lines
------------------------------------------------------------

section Lines

variable {rest out' : List Char}

/- What has no line feed starts no later than the line ends. -/
theorem starts_line
    (hFeed : '\n' ∉ q)
    (hPrefix : q <+: line ++ '\n' :: rest) :
    q <+: line := by
  rcases List.prefix_or_prefix_of_prefix hPrefix
      (List.prefix_append line _) with
    hInside | ⟨u, rfl⟩
  · exact hInside
  · rw [List.prefix_append_right_inj] at hPrefix
    rcases List.prefix_cons_iff.mp hPrefix with
      rfl | ⟨v, rfl, -⟩
    · rw [List.append_nil]
    · exact absurd (by simp) hFeed

theorem behind_lineFeed
    (hLine : '\n' ∉ line)
    (whole : Bool)
    (rest : List Char) :
    behind whole (line ++ '\n' :: rest) =
      behind whole line ++ '\n' :: rest := by
  cases whole with
  | false => rfl
  | true =>
      have hAll :
          ∀ c ∈ line, decide (c ≠ '\n') = true := fun c hMem =>
        decide_eq_true fun hFeed => hLine (hFeed ▸ hMem)
      change List.dropWhile _ _ = List.dropWhile _ _ ++ _
      rw [List.dropWhile_append_of_pos hAll,
        List.dropWhile_eq_nil_iff.mpr hAll]
      rfl

namespace Replaces

variable (hReplaces : Replaces pattern replacement whole line out)
variable (hLine : '\n' ∉ line)
include hReplaces hLine

theorem not_mem_lineFeed
    (hReplacement : '\n' ∉ replacement) :
    '\n' ∉ out := by
  induction hReplaces with
  | nil => exact hLine
  | @hit s out _ ih =>
      have hBehind : '\n' ∉ behind whole s := fun hMem =>
        hLine
          (List.mem_append_right _
            ((behind_suffix whole s).subset hMem))
      rw [List.mem_append, not_or]
      exact ⟨hReplacement, ih hBehind⟩
  | miss _ _ ih =>
      rw [List.mem_cons, not_or] at hLine ⊢
      exact ⟨hLine.1, ih hLine.2⟩

/- A finished line is read apart from the lines behind it. -/
theorem append_line
    (hPattern : pattern ≠ [])
    (hFeed : '\n' ∉ pattern)
    (hRest : Replaces pattern replacement whole rest out') :
    Replaces pattern replacement whole (line ++ '\n' :: rest)
      (out ++ '\n' :: out') := by
  induction hReplaces with
  | nil =>
      refine .miss (fun hMet => hPattern ?_) hRest
      exact
        List.prefix_nil.mp (starts_line hFeed hMet)
  | @hit s out _ ih =>
      rw [List.mem_append, not_or] at hLine
      have hBehind : '\n' ∉ behind whole s := fun hMem =>
        hLine.2 ((behind_suffix whole s).subset hMem)
      rw [List.append_assoc, List.append_assoc]
      refine .hit ?_
      rw [behind_lineFeed hLine.2]
      exact ih hBehind
  | @miss c s out hAbsent _ ih =>
      rw [List.mem_cons, not_or] at hLine
      refine .miss (fun hMet => hAbsent ?_) (ih hLine.2)
      exact
        starts_line hFeed hMet

end Replaces

end Lines

------------------------------------------------------------
-- Rules
------------------------------------------------------------

/- What is replaced, by what, and whether up to the end of the line. -/
structure Rule where
  pattern : List Char
  replacement : List Char
  whole : Bool
  deriving DecidableEq, Repr

namespace Rule

/- A text in which a rule was carried out. -/
def apply (rule : Rule) (s : List Char) : List Char :=
  replaceFrom rule.pattern rule.replacement rule.whole 0 false s

/- A text that a rule has nothing to do with. -/
def IsAbsent (rule : Rule) (s : List Char) : Prop :=
  ¬ rule.pattern <:+: s

instance (rule : Rule) (s : List Char) :
    Decidable (rule.IsAbsent s) := by
  unfold IsAbsent
  infer_instance

/- A rule for patterns inside of lines. -/
structure IsForLines (rule : Rule) : Prop where
  nonempty : rule.pattern ≠ []
  pattern_line : '\n' ∉ rule.pattern
  replacement_line : '\n' ∉ rule.replacement

instance (rule : Rule) : Decidable rule.IsForLines :=
  decidable_of_iff
    (rule.pattern ≠ [] ∧ '\n' ∉ rule.pattern ∧
      '\n' ∉ rule.replacement)
    ⟨fun h => ⟨h.1, h.2.1, h.2.2⟩,
      fun h => ⟨h.nonempty, h.pattern_line, h.replacement_line⟩⟩

/- A rule that makes no pattern of another rule. -/
def LeavesOut (rule other : Rule) : Prop :=
  IsApart other.pattern rule.replacement ∧
    IsApart rule.replacement other.pattern

instance (rule other : Rule) :
    Decidable (rule.LeavesOut other) := by
  unfold LeavesOut
  infer_instance

variable {rule other : Rule}

namespace IsForLines

variable (hRule : rule.IsForLines)
include hRule

theorem replaces_apply
    (s : List Char) :
    Replaces rule.pattern rule.replacement rule.whole s
      (rule.apply s) :=
  replaces_replaceFrom hRule.nonempty _ _ s

theorem apply_eq_self
    (hAbsent : rule.IsAbsent s) :
    rule.apply s = s :=
  (hRule.replaces_apply s).eq_self hAbsent

/- The pattern of another rule stays absent. -/
theorem isAbsent_apply
    (hOther : other.IsForLines)
    (hLeaves : rule.LeavesOut other)
    (hAbsent : other.IsAbsent s) :
    other.IsAbsent (rule.apply s) := fun hOccurs => by
  rcases (hRule.replaces_apply s).exists_suffix hLeaves.1
      hLeaves.2 hOther.nonempty hOccurs with
    ⟨t, ht, hMet, -⟩
  exact
    hAbsent (List.infix_iff_prefix_suffix.mpr ⟨t, hMet, ht⟩)

/- The rule's own pattern is absent afterwards. -/
theorem isAbsent_apply_self
    (hLeaves : rule.LeavesOut rule)
    (s : List Char) :
    rule.IsAbsent (rule.apply s) := fun hOccurs => by
  rcases (hRule.replaces_apply s).exists_suffix hLeaves.1
      hLeaves.2 hRule.nonempty hOccurs with
    ⟨t, -, hMet, hMissed⟩
  exact hMissed hMet

theorem not_mem_apply
    (hLine : '\n' ∉ line) :
    '\n' ∉ rule.apply line :=
  (hRule.replaces_apply line).not_mem_lineFeed hLine
    hRule.replacement_line

theorem apply_line
    (hLine : '\n' ∉ line)
    (s : List Char) :
    rule.apply (line ++ '\n' :: s) =
      rule.apply line ++ '\n' :: rule.apply s :=
  ((hRule.replaces_apply line).append_line hLine hRule.nonempty
    hRule.pattern_line (hRule.replaces_apply s)).eq
    hRule.nonempty |>.symm

/- A rule is carried out in each line for itself. -/
theorem splitOn_apply
    (s : List Char) :
    Text.splitOn '\n' (rule.apply s) =
      (Text.splitOn '\n' s).map rule.apply := by
  induction hLength : s.length using Nat.strong_induction_on
      generalizing s with
  | _ length ih =>
      subst hLength
      by_cases hMem : '\n' ∈ s
      · rcases List.eq_append_cons_of_mem hMem with
          ⟨line, rest, rfl, hLine⟩
        have hLess :
            rest.length < (line ++ '\n' :: rest).length := by
          rw [List.length_append, List.length_cons]
          omega
        rw [hRule.apply_line hLine,
          Text.splitOn_line (hRule.not_mem_apply hLine),
          Text.splitOn_line hLine, List.map_cons,
          ih _ hLess rest rfl]
      · rw [Text.splitOn_of_not_mem (hRule.not_mem_apply hMem),
          Text.splitOn_of_not_mem hMem, List.map_singleton]

end IsForLines

end Rule

------------------------------------------------------------
-- Lists of Rules
------------------------------------------------------------

/- A text in which rules were carried out one after the other. -/
def applyAll (rules : List Rule) (s : List Char) : List Char :=
  rules.foldl (fun s rule => rule.apply s) s

/- Rules for lines that make none of their patterns. -/
structure AreSettled (rules : List Rule) : Prop where
  forLines : ∀ rule ∈ rules, rule.IsForLines
  leavesOut :
    ∀ rule ∈ rules, ∀ other ∈ rules, rule.LeavesOut other

variable {rules : List Rule}

theorem AreSettled.tail
    {rule : Rule}
    (hSettled : AreSettled (rule :: rules)) :
    AreSettled rules where
  forLines := fun other hOther =>
    hSettled.forLines other (List.mem_cons_of_mem _ hOther)
  leavesOut := fun one hOne other hOther =>
    hSettled.leavesOut one (List.mem_cons_of_mem _ hOne) other
      (List.mem_cons_of_mem _ hOther)

theorem applyAll_eq_self
    (hRules : ∀ rule ∈ rules, rule.IsForLines)
    (hAbsent : ∀ rule ∈ rules, rule.IsAbsent s) :
    applyAll rules s = s := by
  induction rules with
  | nil => rfl
  | cons rule rules ih =>
      rw [List.forall_mem_cons] at hRules hAbsent
      rw [applyAll, List.foldl_cons,
        hRules.1.apply_eq_self hAbsent.1]
      exact ih hRules.2 hAbsent.2

/- A pattern that is absent stays absent. -/
theorem isAbsent_applyAll
    {other : Rule}
    (hOther : other.IsForLines)
    (hRules : ∀ rule ∈ rules, rule.IsForLines)
    (hLeaves : ∀ rule ∈ rules, rule.LeavesOut other)
    (hAbsent : other.IsAbsent s) :
    other.IsAbsent (applyAll rules s) := by
  induction rules generalizing s with
  | nil => exact hAbsent
  | cons rule rules ih =>
      rw [List.forall_mem_cons] at hRules hLeaves
      exact
        ih hRules.2 hLeaves.2
          (hRules.1.isAbsent_apply hOther hLeaves.1 hAbsent)

/- No pattern of settled rules is left. -/
theorem AreSettled.isAbsent
    (hSettled : AreSettled rules)
    (s : List Char) :
    ∀ rule ∈ rules, rule.IsAbsent (applyAll rules s) := by
  induction rules generalizing s with
  | nil => nofun
  | cons rule rules ih =>
      refine
        List.forall_mem_cons.mpr
          ⟨?_, ih hSettled.tail (rule.apply s)⟩
      have hRule := hSettled.forLines rule List.mem_cons_self
      have hSelf :=
        hSettled.leavesOut rule List.mem_cons_self rule
          List.mem_cons_self
      change rule.IsAbsent (applyAll rules (rule.apply s))
      exact
        isAbsent_applyAll hRule hSettled.tail.forLines
          (fun other hOther =>
            hSettled.leavesOut other
              (List.mem_cons_of_mem _ hOther) rule
              List.mem_cons_self)
          (hRule.isAbsent_apply_self hSelf s)

/- Settled rules have nothing to do a second time. -/
theorem AreSettled.applyAll_applyAll
    (hSettled : AreSettled rules)
    (s : List Char) :
    applyAll rules (applyAll rules s) = applyAll rules s :=
  applyAll_eq_self hSettled.forLines (hSettled.isAbsent s)

/- Rules are carried out in each line for itself. -/
theorem splitOn_applyAll
    (hRules : ∀ rule ∈ rules, rule.IsForLines)
    (s : List Char) :
    Text.splitOn '\n' (applyAll rules s) =
      (Text.splitOn '\n' s).map (applyAll rules) := by
  induction rules generalizing s with
  | nil => exact (List.map_id _).symm
  | cons rule rules ih =>
      rw [List.forall_mem_cons] at hRules
      rw [applyAll, List.foldl_cons]
      refine (ih hRules.2 (rule.apply s)).trans ?_
      rw [hRules.1.splitOn_apply, List.map_map]
      rfl

------------------------------------------------------------
-- The Patch
------------------------------------------------------------

/- What the patch of a script replaces. -/
def patchRules : List Rule :=
  [⟨"do_loudly $BUILD -c $i -o $OUT &".toList,
      "echo $BUILD -c $i -o $OUT".toList, false⟩,
    ⟨"ratelimit ".toList, ":".toList, true⟩,
    ⟨"do_loudly $BUILD $LNKFILES".toList, "exit 0".toList, true⟩]

theorem toList_patch
    (script : String) :
    (patch script).toList = applyAll patchRules script.toList := by
  rw [patch, String.toList_ofList]
  rfl

theorem areSettled_patchRules : AreSettled patchRules where
  forLines := by decide
  leavesOut := by decide

theorem patch_patch
    (script : String) :
    patch (patch script) = patch script := by
  rw [← String.toList_inj, toList_patch, toList_patch]
  exact
    areSettled_patchRules.applyAll_applyAll script.toList

/- The lines of a script with their carriage returns. -/
def linesOf (script : String) : List (List Char) :=
  Text.splitOn '\n' script.toList

theorem linesOf_patch
    (script : String) :
    linesOf (patch script) =
      (linesOf script).map (applyAll patchRules) := by
  rw [linesOf, toList_patch]
  exact
    splitOn_applyAll areSettled_patchRules.forLines script.toList

------------------------------------------------------------
-- Patched Source Trees
------------------------------------------------------------

section Jobs

variable {program script : String}
variable {sourceDir : Path}
variable {w w' : Workspace}

/- The build script of a source tree. -/
def scriptPath (sourceDir : Path) : Path :=
  sourceDir.join ⟨"scripts/make.sh"⟩

/- What preparing a build does, if the script can be read. -/
theorem prepare_apply
    (hText :
      w.files.readText (scriptPath sourceDir) = .ok script) :
    (Strategy.toybox program).prepare sourceDir w =
      if patch script ≠ script then
        Job.edit (scriptPath sourceDir)
          (FileTree.write (scriptPath sourceDir)
            (Utf8.encode (patch script))) w
      else
        (.ok (), w) := by
  refine (Job.bind_of_ok (Job.look_of_ok hText) _).trans ?_
  by_cases hPatched : patch script ≠ script
  · rw [if_pos hPatched, if_pos hPatched]
    rfl
  · rw [if_neg hPatched, if_neg hPatched]
    rfl

/- Preparing a build leaves the patched script. -/
theorem readText_prepare
    (hRun :
      (Strategy.toybox program).prepare sourceDir w =
        (.ok (), w')) :
    ∃ script,
      w.files.readText (scriptPath sourceDir) = .ok script ∧
        w'.files.readText (scriptPath sourceDir) =
          .ok (patch script) := by
  rcases Job.bind_eq_ok hRun with ⟨script, _, hLook, -⟩
  have hText := (Job.look_eq_ok hLook).1
  refine ⟨script, hText, ?_⟩
  rw [prepare_apply hText] at hRun
  by_cases hPatched : patch script ≠ script
  · rw [if_pos hPatched] at hRun
    exact
      FileTree.readText_of_read
        (FileTree.read_write (Job.edit_eq_ok hRun).1)
  · rw [if_neg hPatched] at hRun
    cases hRun
    rw [not_not.mp hPatched]
    exact hText

/- A patched script is left as it is. -/
theorem prepare_of_patched
    (hText :
      w.files.readText (scriptPath sourceDir) =
        .ok (patch script)) :
    (Strategy.toybox program).prepare sourceDir w =
      (.ok (), w) := by
  rw [prepare_apply hText, patch_patch, if_neg (not_not.mpr rfl)]

end Jobs

/-
  A script that is patched again stays as it is. The patch works on
  each line for itself, and a line without any of the patterns
  stays as it is. So a build that is prepared patches the script of
  its source tree; as long as the script has this text, it is not
  touched when the build is prepared again.
-/
theorem patch_settles :
    (∀ script, patch (patch script) = patch script) ∧
      (∀ script,
        (linesOf (patch script)).length =
            (linesOf script).length ∧
          ∀ (n : Nat) (line : List Char),
            (linesOf script)[n]? = some line →
              (∀ rule ∈ patchRules, rule.IsAbsent line) →
                (linesOf (patch script))[n]? = some line) ∧
      ∀ program sourceDir (w w' : Workspace),
        (Strategy.toybox program).prepare sourceDir w =
            (.ok (), w') →
          ∃ script,
            w.files.readText (scriptPath sourceDir) =
                .ok script ∧
              w'.files.readText (scriptPath sourceDir) =
                .ok (patch script) ∧
              ∀ later : Workspace,
                later.files.readText (scriptPath sourceDir) =
                    .ok (patch script) →
                  (Strategy.toybox program).prepare sourceDir
                      later =
                    (.ok (), later) := by
  refine
    ⟨patch_patch, fun script => ⟨?_, ?_⟩,
      fun program sourceDir w w' hRun => ?_⟩
  · rw [linesOf_patch, List.length_map]
  · intro n line hLine hAbsent
    rw [linesOf_patch, List.getElem?_map, hLine,
      Option.map_some,
      applyAll_eq_self areSettled_patchRules.forLines hAbsent]
  · rcases readText_prepare hRun with
      ⟨script, hText, hPatched⟩
    exact
      ⟨script, hText, hPatched, fun later hLater =>
        prepare_of_patched hLater⟩

/- A script with a line that is patched and one that is not. -/
def toyScript : String :=
  "  ratelimit $CPUS\ndone\n"

/- A source tree with this script. -/
def toyWorkspace : Workspace where
  files :=
    { entries :=
        [(["src"], .directory), (["src", "scripts"], .directory),
          (["src", "scripts", "make.sh"],
            .file (Utf8.encode toyScript))] }

/- The script of this tree can be patched. -/
theorem prepare_toyWorkspace :
    ∃ w',
      (Strategy.toybox "make").prepare ⟨"/src"⟩ toyWorkspace =
        (.ok (), w') := by
  have hPath :
      scriptPath ⟨"/src"⟩ = ⟨"/src/scripts/make.sh"⟩ := by
    decide
  have hSteps :
      FileTree.stepsOf "/src/scripts/make.sh" =
        ["src", "scripts", "make.sh"] := by
    decide
  have hResolve :
      toyWorkspace.files.resolve true (scriptPath ⟨"/src"⟩) =
        .ok (.found ["src", "scripts", "make.sh"]
          (.file (Utf8.encode toyScript))) := by
    simp [hPath, FileTree.resolve, hSteps, FileTree.walk,
      FileTree.entry?, Dict.find?, toyWorkspace]
  have hRead :
      toyWorkspace.files.read (scriptPath ⟨"/src"⟩) =
        .ok (Utf8.encode toyScript) := by
    rw [FileTree.read, FileTree.status, hResolve]
  have hPatched : patch toyScript ≠ toyScript := by decide_cbv
  have hTarget :
      toyWorkspace.files.fileToWrite (scriptPath ⟨"/src"⟩) =
        .ok ["src", "scripts", "make.sh"] := by
    rw [FileTree.fileToWrite, hResolve]
  rw [prepare_apply (FileTree.readText_of_read hRead),
    if_pos hPatched, Job.edit, FileTree.write_apply, hTarget]
  exact ⟨_, rfl⟩

theorem patch_settles_toyScript :
    patch toyScript = "  :\ndone\n" ∧
      (linesOf (patch toyScript))[1]? = some "done".toList ∧
      ∃ w', (Strategy.toybox "make").prepare ⟨"/src"⟩
            toyWorkspace =
          (.ok (), w') ∧
        (Strategy.toybox "make").prepare ⟨"/src"⟩ w' =
          (.ok (), w') := by
  have hLine :
      (linesOf toyScript)[1]? = some "done".toList := by
    decide_cbv
  have hAbsent :
      ∀ rule ∈ patchRules, rule.IsAbsent "done".toList := by
    decide
  rcases prepare_toyWorkspace with ⟨w', hRun⟩
  rcases patch_settles with ⟨-, hLines, hPrepare⟩
  rcases hPrepare "make" ⟨"/src"⟩ _ _ hRun with
    ⟨script, -, hPatched, hLater⟩
  exact
    ⟨by decide_cbv, (hLines toyScript).2 1 _ hLine hAbsent, w',
      hRun, hLater w' hPatched⟩

end BuildScript

end Variability
