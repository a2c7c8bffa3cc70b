import Variability.Proofs.Dict.Entries
import Variability.Proofs.Preprocessor.Lifting
import Variability.Proofs.Preprocessor.Coupling
import Variability.Proofs.Token.LineOrder
import Variability.Proofs.Text.Utf8

/-
  The conditions of all lines of a file.

  Conditions are captured line by line, from the line behind the
  last one that was captured to the end of a logical line. No
  line is left out, and each one has the condition that is in
  effect before the first logical line that does not end before
  it. The lines that a logical line spans have one condition.

  Main declarations:
    * `Preprocessor.find?_capture`
    * `Preprocessor.Captures`
    * `Preprocessor.run_captures`
-/

namespace Variability

namespace Preprocessor

------------------------------------------------------------
-- Captures as a Map
------------------------------------------------------------

/- Capture a condition behind the line `done`, up to the last one. -/
def captureTo
    (done last : Nat)
    (c : Condition)
    (m : Dict Nat Condition) :
    Dict Nat Condition :=
  (List.range' (done + 1) (last - done)).foldl
    (fun m l => m.insert l c) m

/- Capture the conditions of logical lines in turn. -/
def capture
    (done : Nat)
    (m : Dict Nat Condition) :
    List (Nat × Condition) → Dict Nat Condition
  | [] => m
  | (last, c) :: rest =>
      capture (max done last) (captureTo done last c m) rest

/- The condition of a physical line, which are counted from one. -/
def conditionOn
    (conditions : List Condition)
    (l : Nat) :
    Option Condition :=
  if l = 0 then none else conditions[l - 1]?

theorem find?_captureTo
    (done last : Nat)
    (c : Condition)
    (m : Dict Nat Condition)
    (l : Nat) :
    (captureTo done last c m).find? l =
      if done < l ∧ l ≤ last then some c else m.find? l := by
  unfold captureTo
  generalize hCount : last - done = count
  induction count generalizing done m with
  | zero =>
      rw [if_neg (by omega)]
      rfl
  | succ count ih =>
      rw [List.range'_succ, List.foldl_cons,
        ih (done + 1) _ (by omega), Dict.find?_insert]
      by_cases hHere : l = done + 1
      · rw [if_neg (by omega), if_pos hHere,
          if_pos ⟨by omega, by omega⟩]
      · rw [if_neg hHere]
        congr 1
        simp only [eq_iff_iff]
        omega

/- Later captures leave lines alone that are done. -/
theorem find?_capture
    (reached : List (Nat × Condition))
    (done : Nat)
    (m : Dict Nat Condition)
    (l : Nat) :
    (capture done m reached).find? l =
      if done < l then
        ((reached.find? fun line => l ≤ line.1).map (·.2)).or
          (m.find? l)
      else
        m.find? l := by
  induction reached generalizing done m with
  | nil => simp [capture]
  | cons line rest ih =>
      rcases line with ⟨last, c⟩
      rw [capture, ih, find?_captureTo]
      by_cases hDone : done < l
      · by_cases hLast : l ≤ last
        · rw [if_neg (by omega), if_pos ⟨hDone, hLast⟩,
            if_pos hDone, List.find?_cons_of_pos (by simpa)]
          rfl
        · rw [if_pos (by omega), if_neg (by omega),
            if_pos hDone,
            List.find?_cons_of_neg (by simpa using hLast)]
      · rw [if_neg (by omega), if_neg (by omega),
          if_neg hDone]

/- A line has the condition of the first logical line up to it. -/
theorem conditionOn_perLine
    (reached : List (Nat × Condition))
    {l : Nat}
    (hPositive : 1 ≤ l) :
    conditionOn (perLine 0 reached) l =
      (reached.find? fun line => l ≤ line.1).map (·.2) := by
  have hLine : 0 + (l - 1) + 1 = l := by omega
  rw [conditionOn, if_neg (by omega), getElem?_perLine]
  simp only [Nat.lt_iff_add_one_le, hLine]

/- Capturing into a map gives what the list of conditions tells. -/
theorem find?_capture_eq_conditionOn
    (reached : List (Nat × Condition))
    (l : Nat) :
    (capture 0 [] reached).find? l =
      conditionOn (perLine 0 reached) l := by
  rw [find?_capture]
  by_cases hPositive : 0 < l
  · rw [if_pos hPositive, conditionOn_perLine reached hPositive]
    exact Option.or_none
  · rw [if_neg hPositive, conditionOn, if_pos (by omega)]
    rfl

------------------------------------------------------------
-- Conditions in Effect
------------------------------------------------------------

/- Follow logical lines; the groups that are open behind them. -/
def followLines
    (x : Context)
    (first : Bool)
    (stack : List Frame) :
    List (List Token) → Run (List Frame)
  | [] => pure stack
  | line :: rest => do
      let stack ← followLine x first stack line
      followLines x false stack rest

/- The condition in effect behind the first lines of a file. -/
def effectBehind
    (x : Context)
    (st : State)
    (before : List (List Token)) :
    Condition :=
  current x.base (followLines x true [] before st).1

/-
  What is captured for the physical lines of some tokens: every
  line up to the last one has a condition, the one in effect
  before the first logical line that does not end before it, and
  one condition has a logical line wherever it stands.
-/
structure Captures
    (x : Context)
    (st : State)
    (tokens : List Token)
    (captured : Nat → Option Condition) : Prop where
  isSome_iff :
    ∀ l, (captured l).isSome ↔
      1 ≤ l ∧ l ≤ Token.lastLine tokens
  eq_effect :
    ∀ before line after,
      Token.logicalLines tokens = before ++ line :: after →
        ∀ l, 1 ≤ l →
          (∀ earlier ∈ before, Token.lastLine earlier < l) →
          l ≤ Token.lastLine line →
            captured l = some (effectBehind x st before)
  eq_effect_of_spans :
    ∀ before line after,
      Token.logicalLines tokens = before ++ line :: after →
        ∀ first ∈ line.head?, ∀ l, first.line ≤ l →
          l ≤ Token.lastLine line →
            captured l = some (effectBehind x st before)

/- Reading gives a line what is in effect behind those before it. -/
theorem readLines_append
    (x : Context)
    (first : Bool)
    (stack : List Frame)
    (before after : List (List Token))
    (line : List Token)
    (st : State) :
    ∃ front back,
      (readLines x first stack (before ++ line :: after) st).1 =
          front ++
            (Token.lastLine line,
              current x.base
                (followLines x first stack before st).1) ::
            back ∧
        front.map (·.1) = before.map Token.lastLine := by
  induction before generalizing first stack st with
  | nil =>
      rw [List.nil_append, readLines_cons]
      exact ⟨[], _, rfl, rfl⟩
  | cons earlier before ih =>
      have hStep :=
        ih false (followLine x first stack earlier st).1
          (followLine x first stack earlier st).2
      rcases hStep with ⟨front, back, hRest, hEnds⟩
      rw [List.cons_append, readLines_cons]
      refine
        ⟨(Token.lastLine earlier, current x.base stack) :: front,
          back, ?_, ?_⟩
      · exact congrArg (_ :: ·) hRest
      · exact congrArg (_ :: ·) hEnds

/- The condition that is captured up to the end of a logical line. -/
theorem conditionOn_readLines
    (x : Context)
    (st : State)
    (before after : List (List Token))
    (line : List Token)
    {l : Nat}
    (hPositive : 1 ≤ l)
    (hEarlier : ∀ earlier ∈ before, Token.lastLine earlier < l)
    (hLe : l ≤ Token.lastLine line) :
    conditionOn (perLine 0 (readLines x true []
        (before ++ line :: after) st).1) l =
      some (effectBehind x st before) := by
  rw [conditionOn_perLine _ hPositive]
  rcases readLines_append x true [] before after line st with
    ⟨front, back, hReached, hEnds⟩
  have hFront : ∀ p ∈ front, ¬ l ≤ p.1 := by
    intro p hp
    have hMem : p.1 ∈ before.map Token.lastLine :=
      hEnds ▸ List.mem_map_of_mem hp
    rcases List.mem_map.mp hMem with ⟨earlier, hBefore, hEnd⟩
    have hLess := hEarlier earlier hBefore
    omega
  have hNone :
      front.find? (fun p => l ≤ p.1) = none := by
    simpa using hFront
  rw [hReached, List.find?_append, hNone, Option.none_or,
    List.find?_cons_of_pos (by simpa using hLe)]
  rfl

/- What is captured at all does not depend on the run. -/
theorem isSome_conditionOn_readLines
    (x : Context)
    (st : State)
    (lines : List (List Token))
    (l : Nat) :
    (conditionOn (perLine 0
        (readLines x true [] lines st).1) l).isSome ↔
      1 ≤ l ∧ ∃ line ∈ lines, l ≤ Token.lastLine line := by
  by_cases hPositive : 1 ≤ l
  · have hEnds := map_fst_readLines x true [] lines st
    change _ = lines.map Token.lastLine at hEnds
    have hMem (last : Nat) :
        (∃ p ∈ (readLines x true [] lines st).1, p.1 = last) ↔
          ∃ line ∈ lines, Token.lastLine line = last := by
      rw [← List.mem_map, hEnds, List.mem_map]
    rw [conditionOn_perLine _ hPositive, Option.isSome_map,
      List.find?_isSome]
    simp only [decide_eq_true_eq, hPositive, true_and]
    constructor
    · rintro ⟨p, hp, hLe⟩
      rcases (hMem p.1).mp ⟨p, hp, rfl⟩ with
        ⟨line, hLine, hEnd⟩
      exact ⟨line, hLine, hEnd ▸ hLe⟩
    · rintro ⟨line, hLine, hLe⟩
      rcases (hMem _).mpr ⟨line, hLine, rfl⟩ with
        ⟨p, hp, hEnd⟩
      exact ⟨p, hp, hEnd ▸ hLe⟩
  · rw [conditionOn, if_pos (by omega)]
    simp [hPositive]

/- Reading the lines of a text captures the conditions in effect. -/
theorem captures_readLines
    (x : Context)
    (st : State)
    (text : String) :
    Captures x st (Token.tokenize text)
      (conditionOn (perLine 0 (readLines x true []
        (Token.logicalLines (Token.tokenize text)) st).1)) := by
  have hOrder := Token.pairwise_tokenize text
  have hForward := Token.line_le_of_mem_tokenize text
  refine ⟨fun l => ?_, ?_, ?_⟩
  · rw [isSome_conditionOn_readLines]
    apply and_congr_right
    intro hPositive
    exact (Token.le_lastLine_iff hOrder hForward hPositive).symm
  · intro before line after hSplit l hPositive hEarlier hLe
    rw [hSplit]
    exact
      conditionOn_readLines x st before after line hPositive
        hEarlier hLe
  · intro before line after hSplit first hFirst l hBegins hLe
    have hMem :
        line ∈ Token.logicalLines (Token.tokenize text) := by
      simp [hSplit]
    have hPositive :=
      Token.one_le_of_mem_tokenize text first
        ((Token.sublist_of_mem_logicalLines hMem).mem
          (List.mem_of_mem_head? hFirst))
    have hLines := Token.pairwise_logicalLines hOrder hForward
    rw [hSplit] at hLines ⊢
    apply
      conditionOn_readLines x st before after line
        (hPositive.trans hBegins) _ hLe
    intro earlier hEarlier
    have hEarlierMem :
        earlier ∈ Token.logicalLines (Token.tokenize text) := by
      simp [hSplit, hEarlier]
    have hSome := Token.ne_nil_of_mem_logicalLines hEarlierMem
    rcases Token.exists_endLine_eq_lastLine hSome with
      ⟨t, ht, hEnd⟩
    have hLess :=
      (List.pairwise_append.mp hLines).2.2 earlier hEarlier line
        List.mem_cons_self t ht first
        (List.mem_of_mem_head? hFirst)
    omega

/- The captures of a file, put into a map while it is read. -/
def captures
    (s : Settings)
    (path : Path)
    (text : String)
    (st : State) :
    Dict Nat Condition :=
  capture 0 [] (process s s.maxDepth path text .one st).1

/-
  Where a file can be read its captures have no gaps. What they
  say of physical lines is said of the tokens, which stand on
  the lines that the line feeds of the text count.
-/
theorem run_captures
    {s : Settings}
    {path : Path}
    {text : String}
    (hText : s.tree.readLossy path = .ok text)
    (hJoins : Lexer.JoinsWholeLines text.toList)
    (st : State) :
    Lexer.Renders true (Lexer.remaining [] text.toList)
        (Token.tokenize text) ∧
      Captures ⟨s, path, .one, follow s s.maxDepth path⟩ st
        (Token.tokenize text)
        (fun l => (captures s path text st).find? l) ∧
      ∃ conditions,
        (run s path st).1 = .ok conditions ∧
          ∀ l, (captures s path text st).find? l =
            conditionOn conditions l := by
  have hSame := find?_capture_eq_conditionOn
    (process s s.maxDepth path text .one st).1
  refine ⟨?_, ?_, _, ?_, hSame⟩
  · unfold Token.tokenize
    rw [Lexer.splice_eq_remaining hJoins]
    exact Lexer.renders_tokens true _
  · unfold captures
    rw [funext hSame, process_eq]
    exact captures_readLines _ st text
  · unfold run
    rw [hText]
    rfl

/-
  A file whose second line goes on over a line end and whose
  first one is inside a comment.
-/
def joinedText : String :=
  "/* a\n b */ x \\\n y\n\n#ifdef A\nz\n#endif\n"

/- A project with that file. -/
def joinedSettings : Settings where
  tree :=
    { entries := [(["a.c"], .file joinedText.toUTF8.toList)] }
  includePaths := []
  systemIncludePaths := []
  maxDepth := 1
  isFree := fun _ => false

theorem readLossy_joinedSettings :
    joinedSettings.tree.readLossy ⟨"/a.c"⟩ = .ok joinedText := by
  have hSteps : FileTree.stepsOf "/a.c" = ["a.c"] := by
    decide
  have hDecoded :
      Utf8.decodeLossy joinedText.toUTF8.toList = joinedText :=
    Utf8.decodeLossy_encode joinedText
  simpa [FileTree.readLossy, FileTree.read, FileTree.status,
    FileTree.resolve, hSteps, FileTree.walk, FileTree.entry?,
    Dict.find?, joinedSettings] using hDecoded

theorem run_captures_joinedText :
    joinedSettings.tree.readLossy ⟨"/a.c"⟩ = .ok joinedText ∧
      Lexer.JoinsWholeLines joinedText.toList ∧
      (Token.logicalLines (Token.tokenize joinedText)).map
        (fun line => (line.map (·.text), Token.lastLine line)) =
        [(["x", "y"], 3), (["#", "ifdef", "A"], 5), (["z"], 6),
          (["#", "endif"], 7)] ∧
      ∀ st,
        Captures
            ⟨joinedSettings, ⟨"/a.c"⟩, .one,
              follow joinedSettings 1 ⟨"/a.c"⟩⟩ st
            (Token.tokenize joinedText)
            (fun l =>
              (captures joinedSettings ⟨"/a.c"⟩ joinedText
                st).find? l) ∧
          ∃ conditions,
            (run joinedSettings ⟨"/a.c"⟩ st).1 =
              .ok conditions := by
  have hJoins :
      Lexer.JoinsWholeLines joinedText.toList := by decide
  refine
    ⟨readLossy_joinedSettings, hJoins, by cbv, fun st => ?_⟩
  rcases run_captures readLossy_joinedSettings hJoins st
    with ⟨-, hCaptures, conditions, hRun, -⟩
  exact ⟨hCaptures, conditions, hRun⟩

end Preprocessor

end Variability
