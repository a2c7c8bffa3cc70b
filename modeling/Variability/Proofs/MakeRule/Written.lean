import Mathlib.Data.List.Basic
import Variability.MakeRule
import Variability.Proofs.Text.Pieces

/-
  Make rules as compilers write them.

  A compiler writes the paths behind a colon, with blanks and
  continued lines between them and a backslash in front of each
  blank that belongs to a path. Reading drops the backslashes
  before it looks for blanks. So the paths without blanks are read
  back, and all others fall apart.

  Main declarations:
    * `MakeRule.IsWritten`
    * `MakeRule.words_of_isList`
    * `MakeRule.prerequisites_of_isWritten`
-/

namespace Variability

namespace MakeRule

variable {target rule : String}
variable {paths : List String}
variable {gap text rest : List Char}

------------------------------------------------------------
-- Written Rules
------------------------------------------------------------

/- A path in a rule, with a backslash in front of each blank. -/
def escaped (path : String) : List Char :=
  path.toList.flatMap fun c =>
    if Text.isBlank c then ['\\', c] else [c]

/- Blanks, and ends of lines that are continued behind a blank. -/
inductive IsGap : List Char → Prop
  | blank
      {c : Char}
      (hBlank : Text.isBlank c = true) :
      IsGap [c]
  | continued : IsGap ['\\', '\n', ' ']
  | append
      {gap rest : List Char}
      (hGap : IsGap gap)
      (hRest : IsGap rest) :
      IsGap (gap ++ rest)

/- Paths with gaps between them, and perhaps behind the last one. -/
inductive IsList : List Char → List String → Prop
  | nil : IsList [] []
  | last (path : String) : IsList (escaped path) [path]
  | cons
      {gap rest : List Char}
      {paths : List String}
      (path : String)
      (hGap : IsGap gap)
      (hRest : IsList rest paths) :
      IsList (escaped path ++ (gap ++ rest)) (path :: paths)

/- A rule that says which paths a target needs. -/
def IsWritten
    (target : String)
    (paths : List String)
    (rule : String) :
    Prop :=
  ∃ lead text,
    rule.toList = target.toList ++ ':' :: (lead ++ text) ∧
      (lead = [] ∨ IsGap lead) ∧ IsList text paths

/- A path as it stands between its blanks. -/
def pieces (path : String) : List String :=
  ((path.toList.splitOnP Text.isBlank).filter (!·.isEmpty)).map
    String.ofList

------------------------------------------------------------
-- Dropped Backslashes
------------------------------------------------------------

/- A text without its backslashes. -/
def unescaped (text : List Char) : List Char :=
  text.filter (· ≠ '\\')

theorem unescaped_append
    (text rest : List Char) :
    unescaped (text ++ rest) = unescaped text ++ unescaped rest :=
  List.filter_append text rest

theorem unescaped_escaped
    {path : String}
    (hPath : '\\' ∉ path.toList) :
    unescaped (escaped path) = path.toList := by
  rw [escaped]
  generalize path.toList = cs at hPath ⊢
  induction cs with
  | nil => rfl
  | cons c cs ih =>
      rw [List.mem_cons, not_or] at hPath
      have hHere : c ≠ '\\' := Ne.symm hPath.1
      rw [List.flatMap_cons, unescaped_append, ih hPath.2]
      split <;> simp [unescaped, hHere]

/- A blank is left of every gap, and nothing but blanks. -/
theorem IsGap.unescaped
    (hGap : IsGap gap) :
    unescaped gap ≠ [] ∧
      ∀ c ∈ unescaped gap, Text.isBlank c = true := by
  induction hGap with
  | @blank c hBlank =>
      have hOther : c ≠ '\\' := by
        rintro rfl
        exact absurd hBlank (by decide)
      simp [MakeRule.unescaped, hOther, hBlank]
  | continued =>
      have hLeft :
          MakeRule.unescaped ['\\', '\n', ' '] = ['\n', ' '] := by
        decide
      rw [hLeft]
      refine ⟨List.cons_ne_nil _ _, fun c hMem => ?_⟩
      rcases List.mem_pair.mp hMem with rfl | rfl <;> decide
  | append _ _ ihGap ihRest =>
      rw [unescaped_append]
      exact
        ⟨List.append_ne_nil_of_left_ne_nil ihGap.1 _,
          fun c hMem =>
            (List.mem_append.mp hMem).elim (ihGap.2 c)
              (ihRest.2 c)⟩

/- The words of some paths are those of each. -/
theorem words_of_isList
    (hList : IsList text paths)
    (hPaths : ∀ path ∈ paths, '\\' ∉ path.toList) :
    Text.words (unescaped text) =
      paths.flatMap fun path => Text.words path.toList := by
  induction hList with
  | nil => rfl
  | last path =>
      rw [unescaped_escaped (hPaths path List.mem_cons_self)]
      simp
  | cons path hGap _ ih =>
      rw [List.forall_mem_cons] at hPaths
      rcases hGap.unescaped with ⟨hSome, hBlanks⟩
      rcases List.exists_cons_of_ne_nil hSome with
        ⟨c, more, hMore⟩
      rw [hMore, List.forall_mem_cons] at hBlanks
      rw [unescaped_append, unescaped_append, hMore,
        unescaped_escaped hPaths.1, List.cons_append,
        Text.words_append_blank hBlanks.1,
        Text.words_blanks_append hBlanks.2, ih hPaths.2]
      rfl

------------------------------------------------------------
-- Read Rules
------------------------------------------------------------

theorem behindColon_append
    {target : List Char}
    (hTarget : ':' ∉ target)
    (rest : List Char) :
    behindColon (target ++ ':' :: rest) = rest := by
  have hOthers : ∀ c ∈ target, decide (c ≠ ':') = true := by
    intro c hMem
    apply decide_eq_true
    rintro rfl
    exact hTarget hMem
  rw [behindColon, List.dropWhile_append_of_pos hOthers]
  rfl

theorem prerequisites_eq
    (hTarget : ':' ∉ target.toList)
    (hPaths : ∀ path ∈ paths, '\\' ∉ path.toList)
    (hWritten : IsWritten target paths rule) :
    prerequisites rule = paths.flatMap pieces := by
  rcases hWritten with ⟨lead, text, hRule, hLead, hText⟩
  have hWords :
      Text.words (unescaped (lead ++ text)) =
        Text.words (unescaped text) := by
    rcases hLead with rfl | hLead
    · rfl
    · rw [unescaped_append,
        Text.words_blanks_append hLead.unescaped.2]
  rw [prerequisites, hRule, behindColon_append hTarget]
  change (Text.words (unescaped (lead ++ text))).map _ = _
  rw [hWords, words_of_isList hText hPaths, List.map_flatMap]
  congr 1
  funext path
  rw [Text.words_eq, pieces]

theorem mem_pieces
    {path piece : String}
    (hMem : piece ∈ pieces path) :
    piece ≠ "" ∧ ∀ c ∈ piece.toList, Text.isBlank c = false := by
  rw [pieces, ← Text.words_eq] at hMem
  rcases List.mem_map.mp hMem with ⟨word, hWord, rfl⟩
  simpa using Text.mem_words hWord

theorem pieces_eq_singleton
    {path : String}
    (hSome : path ≠ "")
    (hPlain : ∀ c ∈ path.toList, Text.isBlank c = false) :
    pieces path = [path] := by
  have hWord : Text.words path.toList = [path.toList] :=
    Text.words_eq_singleton_iff.mpr ⟨by simpa using hSome, hPlain⟩
  rw [pieces, ← Text.words_eq, hWord]
  simp

/-
  What a rule lists is read as the pieces of its paths between
  their blanks. So the paths are read back exactly if none of them
  has a blank or is empty.
-/
theorem prerequisites_of_isWritten
    (hTarget : ':' ∉ target.toList)
    (hPaths : ∀ path ∈ paths, '\\' ∉ path.toList)
    (hWritten : IsWritten target paths rule) :
    prerequisites rule = paths.flatMap pieces ∧
      (prerequisites rule = paths ↔
        ∀ path ∈ paths,
          path ≠ "" ∧
            ∀ c ∈ path.toList, Text.isBlank c = false) := by
  have hPieces := prerequisites_eq hTarget hPaths hWritten
  refine ⟨hPieces, fun hSame path hMem => ?_, fun hPlain => ?_⟩
  · rw [← hSame, hPieces] at hMem
    rcases List.mem_flatMap.mp hMem with ⟨whole, -, hPiece⟩
    exact mem_pieces hPiece
  · calc
      prerequisites rule = paths.flatMap pieces := hPieces
      _ = paths.flatMap fun path => [path] :=
        List.flatMap_congr fun path hMem =>
          pieces_eq_singleton (hPlain path hMem).1
            (hPlain path hMem).2
      _ = paths := List.flatMap_singleton' paths

/- A rule over two lines, with a directory that has a blank. -/
def wrappedRule : String :=
  "main.o: main.c my\\ inc/a.h \\\n b.h\n"

theorem isWritten_wrappedRule :
    IsWritten "main.o" ["main.c", "my inc/a.h", "b.h"]
      wrappedRule := by
  have hBlank : Text.isBlank ' ' = true := by decide
  have hFeed : Text.isBlank '\n' = true := by decide
  have hWrap : IsGap ([' '] ++ ['\\', '\n', ' ']) :=
    .append (.blank hBlank) .continued
  have hList :=
    IsList.cons "main.c" (.blank hBlank)
      (.cons "my inc/a.h" hWrap
        (.cons "b.h" (.blank hFeed) .nil))
  exact ⟨[' '], _, by decide, Or.inr (.blank hBlank), hList⟩

theorem prerequisites_wrappedRule :
    IsWritten "main.o" ["main.c", "my inc/a.h", "b.h"]
        wrappedRule ∧
      prerequisites wrappedRule =
        ["main.c", "my", "inc/a.h", "b.h"] := by
  have hPieces :=
    prerequisites_of_isWritten (by decide) (by decide)
      isWritten_wrappedRule
  exact ⟨isWritten_wrappedRule, hPieces.1.trans (by decide)⟩

/-
  A header whose name has a blank is written with a backslash in
  front of it, and read as two files that nobody asked for.
-/
theorem prerequisites_escapedBlank :
    IsWritten "a.o" ["my file.h"] "a.o: my\\ file.h" ∧
      prerequisites "a.o: my\\ file.h" = ["my", "file.h"] ∧
      prerequisites "a.o: my\\ file.h" ≠ ["my file.h"] := by
  refine ⟨⟨[' '], _, ?_, Or.inr (.blank ?_), .last "my file.h"⟩, ?_⟩
  all_goals decide

end MakeRule

end Variability
