import Variability.Token

/-
  The expressions of conditional directives.

  An expression that cannot be read is still a tree: it holds
  what was read before, in the order of reading, and the place
  where reading stopped. A node that may turn out not to have a
  value carries the text that stands for it.

  Main definitions:
    * `Expression`
    * `Expression.read`
-/

namespace Variability

/- Operators with one operand. -/
inductive Sign where
  | not
  | minus
  | plus
  | complement
  deriving DecidableEq, Repr

/- Operators with two operands that need the values of both. -/
inductive Operator where
  | bitOr
  | bitXor
  | bitAnd
  | equal
  | unequal
  | less
  | greater
  | lessEqual
  | greaterEqual
  | shiftLeft
  | shiftRight
  | plus
  | minus
  | times
  | divide
  | remainder
  deriving DecidableEq, Repr

/- Operators that need no more than truth. -/
inductive Connective where
  | or
  | and
  deriving DecidableEq, Repr

/- The expression of a conditional directive. -/
inductive Expression where
  | number (value : Int64)
  /- Whether a macro is defined. -/
  | defined (name : String)
  /- A question to the compiler. -/
  | builtin (text : String)
  /- A macro without an argument list. -/
  | reference (name : String)
  /- A macro with its arguments, if their list is closed. -/
  | call (name : String) (arguments : Option (List (List Token)))
      (text : String)
  | sign (op : Sign) (e : Expression) (text : String)
  | operation (op : Operator) (l r : Expression) (text : String)
  | connective (op : Connective) (l r : Expression)
  | conditional (test yes no : Expression)
  /- An expression with further tokens behind it. -/
  | excess (e : Expression)
  /- Nothing that can be read. -/
  | malformed
  deriving Inhabited

namespace Expression

------------------------------------------------------------
-- Numbers
------------------------------------------------------------

/- The value of a digit, letters counting on from 10. -/
def digitValue (c : Char) : Nat :=
  if c.isDigit then c.toNat - '0'.toNat
  else if c.isLower then c.toNat - 'a'.toNat + 10
  else if c.isUpper then c.toNat - 'A'.toNat + 10
  else 36

/- The value of some digits in a base, if all belong to it. -/
def natOfDigits? (base : Nat) (digits : List Char) : Option Nat :=
  digits.foldlM
    (fun n c =>
      if digitValue c < base then
        some (base * n + digitValue c)
      else
        none)
    0

/- The base of a number and its digits. -/
def baseOf : List Char → Nat × List Char
  | '0' :: 'x' :: digits | '0' :: 'X' :: digits => (16, digits)
  | '0' :: 'b' :: digits | '0' :: 'B' :: digits => (2, digits)
  | '0' :: c :: digits => (8, c :: digits)
  | digits => (10, digits)

/- The letters that may end a number without changing it. -/
def isSizeLetter (c : Char) : Bool :=
  c == 'u' || c == 'U' || c == 'l' || c == 'L'

/- The value of a number, as a word of 64 bits. -/
def numberValue? (text : String) : Option Int64 :=
  let digits := text.toList.filter (· ≠ '\'')
  let digits := (digits.reverse.dropWhile isSizeLetter).reverse
  let (base, digits) := baseOf digits
  if digits.isEmpty then
    none
  else
    (natOfDigits? base digits).bind fun n =>
      if n < Nat.pow 2 64 then some (Int64.ofNat n) else none

/- The value of the character that an escape stands for. -/
def escapeValue? : Char → Option Int64
  | 'n' => some 10
  | 't' => some 9
  | 'r' => some 13
  | '0' => some 0
  | '\\' => some 92
  | '\'' => some 39
  | '"' => some 34
  | _ => none

/- The value of what stands between two quotes. -/
def quotedValue? : List Char → Option Int64
  | ['\\', c] => escapeValue? c
  | [c] => if c.toNat < 128 then some (Int64.ofNat c.toNat) else none
  | _ => none

/- The value of a character constant with its quotes. -/
def characterValue? (text : String) : Option Int64 :=
  match text.toList with
  | '\'' :: rest =>
      if rest.getLast? = some '\'' then
        quotedValue? rest.dropLast
      else
        none
  | _ => none

------------------------------------------------------------
-- Operators
------------------------------------------------------------

/- The operator with one operand that a token is. -/
def signOf (t : Token) : Option Sign :=
  match t.text with
  | "!" => some .not
  | "-" => some .minus
  | "+" => some .plus
  | "~" => some .complement
  | _ => none

/- How tightly a connective or an operator binds. -/
inductive Level where
  | connective (op : Connective) (sign : String)
  | operators (table : List (String × Operator))

/- All levels from the loosest to the tightest. -/
def levels : List Level :=
  [ .connective .or "||",
    .connective .and "&&",
    .operators [("|", .bitOr)],
    .operators [("^", .bitXor)],
    .operators [("&", .bitAnd)],
    .operators [("==", .equal), ("!=", .unequal)],
    .operators
      [("<", .less), (">", .greater), ("<=", .lessEqual),
       (">=", .greaterEqual)],
    .operators [("<<", .shiftLeft), (">>", .shiftRight)],
    .operators [("+", .plus), ("-", .minus)],
    .operators
      [("*", .times), ("/", .divide), ("%", .remainder)] ]

/- Join two operands by a sign, if the sign belongs to a level. -/
def Level.join?
    (level : Level)
    (sign : String) :
    Option (Expression → Expression → String → Expression) :=
  match level with
  | .connective op sign' =>
      if sign = sign' then
        some fun l r _ => .connective op l r
      else
        none
  | .operators table => (table.lookup sign).map .operation

/- The questions to the compiler, which take an argument list. -/
def builtins : List String :=
  ["__has_include", "__has_include_next", "__has_attribute",
   "__has_builtin", "__has_feature", "__has_extension",
   "__has_cpp_attribute"]

------------------------------------------------------------
-- Argument Lists
------------------------------------------------------------

/- Put a token in front of the first argument. -/
def consToken (t : Token) :
    List (List Token) → List (List Token)
  | [] => [[t]]
  | a :: as => (t :: a) :: as

/-
  The arguments up to the parenthesis that closes their list,
  `depth` parentheses being open inside it, and what follows.
-/
def argumentsWithin :
    (depth : Nat) →
    List Token →
    Option (List (List Token) × List Token)
  | _, [] => none
  | depth, t :: rest =>
      if t.is ")" then
        match depth with
        | 0 => some ([[]], rest)
        | depth + 1 =>
            (argumentsWithin depth rest).map fun (as, rest) =>
              (consToken t as, rest)
      else if t.is "," ∧ depth = 0 then
        (argumentsWithin depth rest).map fun (as, rest) =>
          ([] :: as, rest)
      else
        let depth' := if t.is "(" then depth + 1 else depth
        (argumentsWithin depth' rest).map fun (as, rest) =>
          (consToken t as, rest)

/- An argument list, and what follows it. -/
def argumentList :
    List Token → Option (List (List Token) × List Token)
  | [] => none
  | t :: rest =>
      if t.is "(" then
        (argumentsWithin 0 rest).map fun (as, rest) =>
          (if as = [[]] then [] else as, rest)
      else
        none

/- What follows an argument list is shorter than its tokens. -/
theorem length_argumentsWithin
    {depth : Nat}
    {s rest : List Token}
    {as : List (List Token)}
    (h : argumentsWithin depth s = some (as, rest)) :
    rest.length < s.length := by
  induction s generalizing depth as rest with
  | nil => simp [argumentsWithin] at h
  | cons t s ih =>
    have step {d : Nat} {f : List (List Token) → List (List Token)}
        (h : (argumentsWithin d s).map (fun (as, rest) => (f as, rest)) =
          some (as, rest)) :
        rest.length < (t :: s).length := by
      obtain ⟨⟨as', rest'⟩, h', e⟩ := Option.map_eq_some_iff.1 h
      have := ih h'
      grind
    unfold argumentsWithin at h
    split at h
    · split at h
      · simp only [Option.some.injEq, Prod.mk.injEq] at h
        simp [← h.2]
      · exact step h
    · split at h
      · exact step h
      · exact step h

/- What follows an argument list is shorter than the list. -/
theorem length_argumentList
    {s rest : List Token}
    {as : List (List Token)}
    (h : argumentList s = some (as, rest)) :
    rest.length < s.length := by
  unfold argumentList at h
  split at h
  · simp at h
  · split at h
    · obtain ⟨⟨as', rest'⟩, h', e⟩ := Option.map_eq_some_iff.1 h
      have := length_argumentsWithin h'
      simp only [Prod.mk.injEq] at e
      simp only [← e.2, List.length_cons]
      omega
    · simp at h

------------------------------------------------------------
-- Reading
------------------------------------------------------------

/- An expression, and the tokens behind it. -/
structure Reading (s : List Token) where
  expression : Expression
  rest : List Token
  length_rest : rest.length ≤ s.length

/- Reading that stops for good. -/
def stop (s : List Token) : Reading s :=
  ⟨.malformed, [], by simp⟩

/- The same reading for more tokens in front. -/
def Reading.weaken
    {s s' : List Token}
    (r : Reading s)
    (h : s.length ≤ s'.length) :
    Reading s' :=
  ⟨r.expression, r.rest, Nat.le_trans r.length_rest h⟩

/- The text of the tokens in front of a rest. -/
def textBefore (s rest : List Token) : String :=
  Token.spell (s.take (s.length - rest.length))

/- The macro that a question after its definition names. -/
def readDefined (s : List Token) : Reading s :=
  match s with
  | [] => stop _
  | t :: rest =>
      if t.is "(" then
        match rest with
        | t :: close :: rest =>
            if t.kind = .identifier ∧ close.is ")" then
              ⟨.defined t.text, rest, by
                simp only [List.length_cons]; omega⟩
            else
              stop _
        | _ => stop _
      else if t.kind = .identifier then
        ⟨.defined t.text, rest, by simp⟩
      else
        stop _

/- A question to the compiler, of which `t` is the name. -/
def readBuiltin (t : Token) (s : List Token) : Reading s :=
  match h : argumentList s with
  | some (_, rest) =>
      ⟨.builtin (t.text ++ " " ++ textBefore s rest), rest,
        Nat.le_of_lt (length_argumentList h)⟩
  | none => stop s

/-
  A macro, of which `t` is the name. It has arguments if it
  takes any and a parenthesis follows.
-/
def readReference
    (takesArguments : String → Bool)
    (t : Token)
    (s : List Token) :
    Reading s :=
  if takesArguments t.text ∧ s.head?.any (·.is "(") then
    match h : argumentList s with
    | some (as, rest) =>
        ⟨.call t.text (some as) (t.text ++ " " ++ textBefore s rest),
          rest, Nat.le_of_lt (length_argumentList h)⟩
    | none => ⟨.call t.text none "", [], by simp⟩
  else
    ⟨.reference t.text, s, Nat.le_refl _⟩

mutual

/- A number, a macro, or an expression in parentheses. -/
def readPrimary
    (takesArguments : String → Bool)
    (s : List Token) :
    Reading s :=
  match s with
  | [] => stop []
  | t :: rest =>
      match t.kind with
      | .number =>
          match numberValue? t.text with
          | some v => ⟨.number v, rest, by simp⟩
          | none => stop _
      | .character =>
          match characterValue? t.text with
          | some v => ⟨.number v, rest, by simp⟩
          | none => stop _
      | .identifier =>
          if t.is "defined" then
            (readDefined rest).weaken (by simp)
          else if builtins.contains t.text then
            (readBuiltin t rest).weaken (by simp)
          else
            (readReference takesArguments t rest).weaken (by simp)
      | .punctuation =>
          if t.is "(" then
            match readWhole takesArguments rest with
            | ⟨e, close :: rest', h⟩ =>
                if close.is ")" then
                  ⟨e, rest', by grind⟩
                else
                  ⟨.excess e, [], by simp⟩
            | ⟨e, [], _⟩ => ⟨.excess e, [], by simp⟩
          else
            stop _
      | .string | .other => stop _
  termination_by (s.length, 0)

/- An operand with the operators in front of it. -/
def readSigned
    (takesArguments : String → Bool)
    (s : List Token) :
    Reading s :=
  match s with
  | [] => stop []
  | t :: rest =>
      match signOf t with
      | some op =>
          match readSigned takesArguments rest with
          | ⟨e, rest', h⟩ =>
              ⟨.sign op e (textBefore (t :: rest) rest'), rest',
                by grind⟩
      | none => readPrimary takesArguments (t :: rest)
  termination_by (s.length, 1)

/- An operation of some levels, the loosest of them first. -/
def readOperation
    (takesArguments : String → Bool)
    (levels : List Level)
    (s : List Token) :
    Reading s :=
  match levels with
  | [] => readSigned takesArguments s
  | level :: tighter =>
      match readOperation takesArguments tighter s with
      | ⟨e, rest, h⟩ =>
          readFurther takesArguments level tighter s e rest h
  termination_by (s.length, 2 * levels.length + 2)
  decreasing_by
    · exact Prod.Lex.right _ (by simp)
    · exact Prod.Lex.right _ (by simp only [List.length_cons]; omega)
    · rcases Nat.lt_or_eq_of_le h with hlt | heq
      · exact Prod.Lex.left _ _ hlt
      · rw [heq]
        exact Prod.Lex.right _ (by simp only [List.length_cons]; omega)

/-
  Further operands of a level. `e` was read from the start of
  `s`, and `rest` follows it.
-/
def readFurther
    (takesArguments : String → Bool)
    (level : Level)
    (tighter : List Level)
    (s : List Token)
    (e : Expression)
    (rest : List Token)
    (h : rest.length ≤ s.length) :
    Reading s :=
  match rest with
  | [] => ⟨e, [], h⟩
  | t :: rest =>
      match level.join? t.text with
      | none => ⟨e, t :: rest, h⟩
      | some join =>
          match readOperation takesArguments tighter rest with
          | ⟨e', rest', h'⟩ =>
              readFurther takesArguments level tighter s
                (join e e' (textBefore s rest')) rest'
                (by grind)
  termination_by (rest.length, 2 * tighter.length + 3)

/- A whole expression, which may choose between two others. -/
def readWhole
    (takesArguments : String → Bool)
    (s : List Token) :
    Reading s :=
  match readOperation takesArguments levels s with
  | ⟨test, [], h⟩ => ⟨test, [], h⟩
  | ⟨test, t :: rest, h⟩ =>
      if t.is "?" then
        match readWhole takesArguments rest with
        | ⟨yes, [], _⟩ =>
            ⟨.conditional test yes .malformed, [], by simp⟩
        | ⟨yes, colon :: rest', h'⟩ =>
            if colon.is ":" then
              match readWhole takesArguments rest' with
              | ⟨no, rest'', h''⟩ =>
                  ⟨.conditional test yes no, rest'', by grind⟩
            else
              ⟨.conditional test yes .malformed, [], by simp⟩
      else
        ⟨test, t :: rest, h⟩
  termination_by (s.length, 2 * levels.length + 3)
  decreasing_by
    · exact Prod.Lex.right _ (by simp)
    · exact Prod.Lex.left _ _ (by grind)
    · exact Prod.Lex.left _ _ (by grind)

end

/- The expression of all the given tokens. -/
def read
    (takesArguments : String → Bool)
    (s : List Token) :
    Expression :=
  match readWhole takesArguments s with
  | ⟨e, [], _⟩ => e
  | ⟨e, _ :: _, _⟩ => .excess e

end Expression

end Variability
