import Variability.JsonText.Token

/-
  Values of JSON texts.

  A text is read as nested tokens first. An object is taken
  apart into its members up to the first mistake, so that a
  reader can look at a member before it meets a mistake behind.

  Main definitions:
    * `Items`
    * `Value`
    * `members`, `elements`
    * `Value.string`, `Value.natural`, `Value.boolean`
    * `readWhole`
-/

namespace Variability

namespace JsonText

------------------------------------------------------------
-- Nesting
------------------------------------------------------------

/- What is left of an object or an array. -/
inductive Items where
  | close (brace : Bool)
  /- The text ends here. -/
  | cut
  | atom (t : Token) (rest : Items)
  | nest (brace : Bool) (inner rest : Items)
  deriving Repr, Inhabited

namespace Items

/-
  Put a token in front of what is not opened yet, the innermost
  first.
-/
def push (t : Token) (open_ : List Items) : List Items :=
  match t, open_ with
  | .closing brace, _ => .close brace :: open_
  | .opening brace, [] => [.nest brace .cut .cut]
  | .opening brace, [inner] => [.nest brace inner .cut]
  | .opening brace, inner :: rest :: outer =>
      .nest brace inner rest :: outer
  | t, [] => [.atom t .cut]
  | t, rest :: outer => .atom t rest :: outer

/- The nested tokens of a text. -/
def ofText (text : String) : Items :=
  (((tokenize text.toList).foldr push []).head?).getD .cut

/- What is wrong if nothing that comes next fits. -/
def flaw : Items → Flaw
  | .cut => .truncated
  | _ => .malformed

end Items

------------------------------------------------------------
-- Skipping
------------------------------------------------------------

/- A result of reading. -/
abbrev Reading := Except Flaw

/- Skip a token where a value stands. -/
def skipToken : Token → Reading Unit
  | .string _ skip => (fun _ => ()) <$> skip
  | .number _ skip => (fun _ => ()) <$> skip
  | .word w => (fun _ => ()) <$> w
  | _ => .error .malformed

mutual

/- Skip the inside of an object or array, at its start. -/
def skipInside (brace : Bool) : Items → Reading Unit
  | .close brace' =>
      if brace = brace' then .ok () else .error .malformed
  | .cut => .error .truncated
  | .atom t rest =>
      if brace then
        skipKey t rest
      else do
        skipToken t
        skipFurther false rest
  | .nest brace' inner rest =>
      if brace then
        .error .malformed
      else do
        skipInside brace' inner
        skipFurther false rest

/- Skip a member behind the token of its key. -/
def skipKey (key : Token) : Items → Reading Unit
  | .atom .colon (.atom t rest) => do
      checkKey key
      skipToken t
      skipFurther true rest
  | .atom .colon (.nest brace inner rest) => do
      checkKey key
      skipInside brace inner
      skipFurther true rest
  | .atom .colon rest => do
      checkKey key
      .error rest.flaw
  | rest => do
      checkKey key
      .error rest.flaw

/- Skip what stands behind a value. -/
def skipFurther (brace : Bool) : Items → Reading Unit
  | .close brace' =>
      if brace = brace' then .ok () else .error .malformed
  | .atom .comma (.atom t rest) =>
      if brace then
        skipKey t rest
      else do
        skipToken t
        skipFurther false rest
  | .atom .comma (.nest brace' inner rest) =>
      if brace then
        .error .malformed
      else do
        skipInside brace' inner
        skipFurther false rest
  | .atom .comma rest => .error rest.flaw
  | rest => .error rest.flaw

/- A key that is skipped is a string. -/
def checkKey : Token → Reading Unit
  | .string _ skip => (fun _ => ()) <$> skip
  | _ => .error .malformed

end

------------------------------------------------------------
-- Values
------------------------------------------------------------

/- A value, or the flaw that stands in its place. -/
inductive Value where
  | token (t : Token)
  | nest (brace : Bool) (inner : Items)
  | missing (f : Flaw)
  deriving Repr, Inhabited

namespace Value

/- Skip a value. -/
def skip : Value → Reading Unit
  | .token t => skipToken t
  | .nest brace inner => skipInside brace inner
  | .missing f => .error f

/- The flaw of a value that has another form than it should. -/
def otherForm : Value → Flaw
  | .token (.string (.ok _) _) => .mismatched
  | .token (.string (.error f) _) => f
  | .token (.number (.ok _) _) => .mismatched
  | .token (.number (.error f) _) => f
  | .token (.word (.ok _)) => .mismatched
  | .token (.word (.error f)) => f
  | .token _ => .malformed
  | .nest _ _ => .mismatched
  | .missing f => f

/- A string. -/
def string : Value → Reading String
  | .token (.string read _) => read
  | v => .error v.otherForm

/- A natural number of 64 bits. -/
def natural : Value → Reading Nat
  | .token (.number (.ok (some n)) _) => .ok n
  | v => .error v.otherForm

/- A truth value. -/
def boolean : Value → Reading Bool
  | .token (.word (.ok .true)) => .ok true
  | .token (.word (.ok .false)) => .ok false
  | v => .error v.otherForm

/- A value or null. -/
def optional {α : Type} (read : Value → Reading α) :
    Value → Reading (Option α)
  | .token (.word (.ok .null)) => .ok none
  | v => some <$> read v

end Value

------------------------------------------------------------
-- Objects
------------------------------------------------------------

/- A member of an object. -/
structure Member where
  key : Reading String
  value : Value
  deriving Repr

/- The key that a token is. -/
def keyOf : Token → Reading String
  | .string read _ => read
  | _ => .error .malformed

mutual

/- The members from the start of an object on, and how they end. -/
def members : Items → List Member × Reading Unit
  | .close true => ([], .ok ())
  | .close false => ([], .error .malformed)
  | .cut => ([], .error .truncated)
  | .atom t rest => memberOf t rest
  | .nest _ _ _ => ([], .error .malformed)

/- The members from one on, whose key is read. -/
def memberOf (key : Token) : Items → List Member × Reading Unit
  | .atom .colon (.atom t rest) =>
      let (further, finish) := furtherMembers rest
      (⟨keyOf key, .token t⟩ :: further, finish)
  | .atom .colon (.nest brace inner rest) =>
      let (further, finish) := furtherMembers rest
      (⟨keyOf key, .nest brace inner⟩ :: further, finish)
  | .atom .colon rest => ([⟨keyOf key, .missing rest.flaw⟩], .ok ())
  | rest => ([⟨keyOf key, .missing rest.flaw⟩], .ok ())

/- The members behind a value. -/
def furtherMembers : Items → List Member × Reading Unit
  | .close true => ([], .ok ())
  | .atom .comma (.atom t rest) => memberOf t rest
  | .atom .comma .cut => ([], .error .truncated)
  | .cut => ([], .error .truncated)
  | _ => ([], .error .malformed)

end

/-
  Read an object member by member, `add` taking a key and its
  value.
-/
def foldMembers
    {α : Type}
    (add : α → String → Value → Reading α)
    (start : α)
    (inner : Items) :
    Reading α := do
  let (all, finish) := members inner
  let result ← all.foldlM (fun a m => do add a (← m.key) m.value) start
  finish
  return result

------------------------------------------------------------
-- Arrays
------------------------------------------------------------

mutual

/-
  At most `limit` elements from the start of an array on, and
  what is left behind them, or the flaw there.
-/
def elements (limit : Nat) : Items → List Value × Reading Items
  | .close false => ([], .ok (.close false))
  | .close true =>
      if limit = 0 then
        ([], .ok (.close true))
      else
        ([.missing .malformed], .ok .cut)
  | .cut => ([], .error .truncated)
  | .atom t rest =>
      if limit = 0 then
        ([], .ok (.atom t rest))
      else
        let (further, left) := furtherElements (limit - 1) rest
        (.token t :: further, left)
  | .nest brace inner rest =>
      if limit = 0 then
        ([], .ok (.nest brace inner rest))
      else
        let (further, left) := furtherElements (limit - 1) rest
        (.nest brace inner :: further, left)

/- The elements behind one. -/
def furtherElements (limit : Nat) : Items → List Value × Reading Items
  | .close false => ([], .ok (.close false))
  | .atom .comma (.atom t rest) =>
      if limit = 0 then
        ([], .ok (.atom .comma (.atom t rest)))
      else
        let (further, left) := furtherElements (limit - 1) rest
        (.token t :: further, left)
  | .atom .comma (.nest brace inner rest) =>
      if limit = 0 then
        ([], .ok (.atom .comma (.nest brace inner rest)))
      else
        let (further, left) := furtherElements (limit - 1) rest
        (.nest brace inner :: further, left)
  | rest =>
      if limit = 0 then
        ([], .ok rest)
      else
        match rest with
        | .atom .comma .cut => ([], .error .truncated)
        | .cut => ([], .error .truncated)
        | _ => ([], .error .malformed)

end

/- An array ends where its elements end. -/
def finishArray : Items → Reading Unit
  | .close false => .ok ()
  | rest => .error rest.flaw

/- How many values an array can hold at most. -/
def Items.size : Items → Nat
  | .close _ | .cut => 0
  | .atom _ rest => rest.size + 1
  | .nest _ inner rest => inner.size + rest.size + 1

/- An array of values that are read alike. -/
def Value.array
    {α : Type}
    (read : Value → Reading α) :
    Value → Reading (List α)
  | .nest false inner => do
      let (all, left) := elements inner.size inner
      let result ← all.mapM read
      finishArray (← left)
      return result
  | v => .error v.otherForm

------------------------------------------------------------
-- Texts
------------------------------------------------------------

/- Read the one value that a text holds. -/
def readWhole {α : Type} (read : Value → Reading α) (text : String) :
    Reading α :=
  let last (a : α) (rest : Items) : Reading α :=
    match rest with
    | .cut => .ok a
    | _ => .error .malformed
  match Items.ofText text with
  | .cut => .error .truncated
  | .close _ => .error .malformed
  | .atom t rest => do last (← read (.token t)) rest
  | .nest brace inner rest => do last (← read (.nest brace inner)) rest

end JsonText

end Variability
