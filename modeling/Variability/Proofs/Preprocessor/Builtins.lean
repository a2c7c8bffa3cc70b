import Variability.Proofs.Preprocessor.CommandLine
import Variability.Proofs.Preprocessor.OpenMacros

/-
  Texts that define macros say nothing about others.

  Each line of such a text records a decision about its own name
  only. So after the definitions of the compiler nothing is known
  of a macro that is not among them. A test that such a macro is
  not defined guards its file on the first line; if the flags
  define the macro, the test does not hold.

  Main declarations:
    * `Preprocessor.contains_inject`
    * `Preprocessor.toList_builtinMacros`
    * `Preprocessor.contains_injectBuiltins`
    * `Preprocessor.openGroup_guard`
    * `Preprocessor.openGroup_defined`
-/

namespace Variability

namespace Inclusion

open Lexer

variable {value : String}

/- A value of letters and digits is plain. -/
theorem isPlainValue_of_continues
    (hValue :
      value.toList.all continuesIdentifier = true) :
    IsPlainValue value := by
  have hEach := List.all_eq_true.mp hValue
  have hNoSlash : '/' ∉ value.toList := by
    intro hSlash
    cases hEach _ hSlash
  refine ⟨?_, ?_, ?_⟩
  · intro c hc
    refine ⟨?_, ?_, ?_⟩ <;> rintro rfl <;> cases hEach _ hc
  · exact fun hIn => hNoSlash (hIn.subset List.mem_cons_self)
  · exact fun hIn => hNoSlash (hIn.subset List.mem_cons_self)

/- An empty text has no lines. -/
theorem bareLines_nil : bareLines [] = [] := by
  simp [bareLines, splice, tokens_eq, skipGap,
    Token.logicalLines]

end Inclusion

namespace Preprocessor

open Inclusion

variable {s : Settings}
variable {x : Context}
variable {name : String}

------------------------------------------------------------
-- Texts of Definitions
------------------------------------------------------------

/- A directive about one macro says nothing about another one. -/
theorem contains_decide
    {other : String}
    (hOther : other ≠ name)
    (definition : Option Macro)
    (c : Condition)
    (st : State) :
    (decide other definition c st).2.definitions.contains
        name =
      st.definitions.contains name :=
  Definitions.contains_record hOther definition c st.space

theorem contains_define
    {t : Token}
    (hOther : t.text ≠ name)
    (rest : List Token)
    (c : Condition)
    (st : State) :
    (define s (t :: rest) c st).2.definitions.contains name =
      st.definitions.contains name := by
  unfold define
  cases hParse : Macro.parse (t :: rest) with
  | none => rfl
  | some parsed =>
      rcases parsed with ⟨other, m⟩
      rw [← Macro.parse_name hParse] at hOther
      dsimp only
      split
      · rfl
      · exact contains_decide hOther _ c st

/-
  Lines that define macros say nothing about others, by induction
  on the lines.
-/
theorem contains_readLines_defining
    {defines : List (String × String)}
    (hNames :
      ∀ e ∈ defines,
        Lexer.isIdentifier e.1 = true ∧ e.1 ≠ name)
    (first : Bool)
    (st : State) :
    (readLines x first []
        (defines.map fun e => definingLine e.1 e.2)
        st).2.definitions.contains name =
      st.definitions.contains name := by
  induction defines generalizing first st with
  | nil => rfl
  | cons e es ih =>
      rcases e with ⟨defined, value⟩
      rcases hNames _ List.mem_cons_self with ⟨hName, hOther⟩
      rw [List.map_cons, snd_readLines_cons,
        followLine_definingLine hName,
        ih fun e he => hNames e (List.mem_cons_of_mem _ he)]
      rcases ofLine_definingLine hName value with
        ⟨t, rest, hLine, hText⟩
      rw [followLine_define hLine]
      split
      · exact contains_define (hText ▸ hOther) rest _ st
      · rfl

/- A text of definitions says nothing about other macros. -/
theorem contains_inject
    {text : String}
    {defines : List (String × String)}
    (hText :
      text.toList =
        defines.flatMap fun e => (defineLine e.1 e.2).toList)
    (hNames :
      ∀ e ∈ defines,
        Lexer.isIdentifier e.1 = true ∧ e.1 ≠ name)
    (hValues : ∀ e ∈ defines, IsPlainValue e.2)
    (s : Settings)
    (path : Path)
    (space : Space) :
    (inject s path text (.start space)).2.definitions.contains
        name =
      false := by
  have hBare :
      (Token.logicalLines (Token.tokenize text)).map
          (·.map Token.bare) =
        defines.map fun e => definingLine e.1 e.2 := by
    have hLines :=
      logicalLines_defining
        (fun e he => ⟨(hNames e he).1, hValues e he⟩) 1 []
    rw [List.append_nil, ← hText, bareLines_nil,
      List.append_nil] at hLines
    exact hLines
  have hLines :=
    forall₂_alike_map_bare
      (Token.logicalLines (Token.tokenize text))
  rw [hBare] at hLines
  have hAlike :
      State.Alike Coupling.same (.start space)
        (.start space) :=
    ⟨rfl, .nil, rfl, rfl⟩
  have hContext :
      Context.Alike Coupling.same space space
        ⟨s, path, .one, follow s s.maxDepth path⟩
        ⟨s, path, .one, follow s s.maxDepth path⟩ :=
    context_alike
      (fun below _ =>
        couples_process Coupling.lawful_same s below)
      rfl path
  have hRun :=
    couples_readLines Coupling.lawful_same hLines hAlike
      hContext .nil true
  have hSame := hRun.alike.definitions.contains_eq name
  unfold inject
  rw [process_eq]
  exact
    hSame.trans
      (contains_readLines_defining hNames true (.start space))

------------------------------------------------------------
-- Definitions of the Compiler
------------------------------------------------------------

/- The macros that compilers define, with their values. -/
def builtinDefines : List (String × String) :=
  [("__STDC__", "1"), ("__STDC_VERSION__", "201112L"),
    ("__STDC_HOSTED__", "1"), ("__GNUC__", "4"),
    ("__GNUC_MINOR__", "2"), ("__GNUC_PATCHLEVEL__", "1"),
    ("__CHAR_BIT__", "8"), ("__SIZEOF_INT__", "4"),
    ("__SIZEOF_LONG__", "8"), ("__SIZEOF_POINTER__", "8"),
    ("__LP64__", "1"), ("__x86_64__", "1"),
    ("__linux__", "1"), ("__linux", "1"), ("__unix__", "1"),
    ("__ORDER_LITTLE_ENDIAN__", "1234"),
    ("__ORDER_BIG_ENDIAN__", "4321"),
    ("__BYTE_ORDER__", "__ORDER_LITTLE_ENDIAN__")]

/-
  The text is compared as a list of characters: to evaluate its
  own would decode it once for each of them.
-/
set_option maxRecDepth 4000 in
theorem toList_builtinMacros :
    builtinMacros.toList =
      builtinDefines.flatMap
        fun e => (defineLine e.1 e.2).toList := by
  simp only [toList_defineLine]
  unfold builtinMacros
  refine String.toList_ofList.trans ?_
  rfl

theorem builtinDefines_plain :
    ∀ e ∈ builtinDefines,
      Lexer.isIdentifier e.1 = true ∧
        e.2.toList.all Lexer.continuesIdentifier = true := by
  decide

/- The compiler says nothing about macros that are not its own. -/
theorem contains_injectBuiltins
    (hOther : ∀ e ∈ builtinDefines, e.1 ≠ name)
    (s : Settings)
    (space : Space) :
    (injectBuiltins s (.start space)).2.definitions.contains
        name =
      false :=
  contains_inject toList_builtinMacros
    (fun e he => ⟨(builtinDefines_plain e he).1, hOther e he⟩)
    (fun e he =>
      isPlainValue_of_continues (builtinDefines_plain e he).2)
    s _ space

------------------------------------------------------------
-- Flags
------------------------------------------------------------

variable {st : State}
variable {t : Token}
variable {rest : List Token}

/- The first definition of a macro is the only one then. -/
theorem define_of_not_contains
    {m : Macro}
    (hParse : Macro.parse (t :: rest) = some (t.text, m))
    (hFree : s.isFree t.text = false)
    (hNone : st.definitions.contains t.text = false) :
    define s (t :: rest) .one st =
      ((), { st with
        definitions :=
          Dict.insert t.text [⟨.one, some m⟩] st.definitions }) := by
  rcases st with ⟨space, definitions, once, log⟩
  have hFind : Dict.find? t.text definitions = none := by
    simpa [Definitions.contains] using hNone
  have hRecord :
      definitions.record t.text (some m) .one space =
        (Dict.insert t.text [⟨.one, some m⟩] definitions,
          space) := by
    unfold Definitions.record
    rw [hFind]
    rfl
  unfold define
  rw [hParse]
  dsimp only
  rw [hFree, if_neg Bool.false_ne_true]
  change
    ((),
      (⟨(definitions.record t.text (some m) .one space).2,
        (definitions.record t.text (some m) .one space).1, once,
        log⟩ : State)) =
      _
  rw [hRecord]

/- It is in force everywhere. -/
theorem whetherDefined_insert
    (name : String)
    (m : Macro)
    (definitions : Definitions)
    (space : Space) :
    Definitions.whetherDefined
        (Dict.insert name [⟨.one, some m⟩] definitions) name
        space =
      (.one, space) := by
  unfold Definitions.whetherDefined
  rw [Dict.find?_insert, if_pos rfl]
  rfl

/- An inclusion on a line of its own changes what its file does. -/
theorem followLine_inclusion
    {line arguments : List Token}
    (hLine :
      Directive.ofLine line = some (.inclusion arguments))
    (first : Bool) :
    followLine x first [] line = do
      if x.base ≠ .zero then
        x.follow arguments x.base
      return [] := by
  unfold followLine
  rw [hLine]
  rfl

/- Nothing changes if there is no such file. -/
theorem follow_of_find?_eq_none
    (arguments : List Token)
    {i : IncludeName}
    {path : Path}
    {depth : Nat}
    (hName : IncludeName.ofTokens? arguments = some i)
    (hDepth : depth ≠ 0)
    (hNone : find? s path i = none)
    (c : Condition) :
    follow s depth path arguments c = pure () := by
  unfold follow
  rw [hName]
  cases depth with
  | zero => exact absurd rfl hDepth
  | succ depth => simp only [readIncluded, hNone]

------------------------------------------------------------
-- Guards
------------------------------------------------------------

/- A guard opens a group that is read everywhere. -/
theorem openGroup_guard
    (hGuard : isGuard s st.definitions t.text = true) :
    openGroup s true .one "ifndef" (t :: rest) st =
      (⟨.one, .one, .one⟩, st) := by
  have hOpening :
      openingCondition s true "ifndef" (t :: rest) st =
        (.one, st) := by
    change
      (if isGuard s st.definitions t.text = true then
          pure Diagram.Handle.one
        else
          testCondition s "ifndef" (t :: rest)) st =
        _
    rw [if_pos hGuard]
    rfl
  unfold openGroup
  rw [if_neg (by decide)]
  simp only [bind, StateT.bind, hOpening]
  rfl

/- A test that a macro is not defined opens no group if it is. -/
theorem openGroup_defined
    (hKind : t.kind = .identifier)
    (hThere : st.definitions.contains t.text = true)
    (hDefined :
      st.definitions.whetherDefined t.text st.space =
        (.one, st.space)) :
    openGroup s true .one "ifndef" (t :: rest) st =
      (⟨.one, .zero, .zero⟩, st) := by
  have hGuard : ¬ isGuard s st.definitions t.text = true := by
    simp [isGuard, hThere]
  have hOpening :
      openingCondition s true "ifndef" (t :: rest) st =
        (.zero, st) := by
    change
      (if isGuard s st.definitions t.text = true then
          pure Diagram.Handle.one
        else
          testCondition s "ifndef" (t :: rest)) st =
        _
    rw [if_neg hGuard, testCondition_definedness (by decide) hKind]
    rcases st with ⟨space, definitions, once, log⟩
    simp only [build]
    simp only [bind, StateT.bind, hDefined]
    rfl
  unfold openGroup
  rw [if_neg (by decide)]
  simp only [bind, StateT.bind, hOpening]
  rfl

end Preprocessor

end Variability
