/-
  Patching a build script, so that it prints what it would
  compile.

  Main definitions:
    * `BuildScript.replace`
    * `BuildScript.replaceLine`
    * `BuildScript.patch`
-/

namespace Variability

namespace BuildScript

/-
  Replace a text wherever it occurs, reading from the left. If
  `whole`, the rest of the line behind it is replaced as well.
  While `skip` is positive, characters are dropped; while
  `inLine`, they are dropped up to the end of the line.
-/
def replaceFrom
    (pattern replacement : List Char)
    (whole : Bool)
    (skip : Nat)
    (inLine : Bool) :
    List Char → List Char
  | [] => []
  | c :: rest =>
      match skip with
      | n + 1 => replaceFrom pattern replacement whole n inLine rest
      | 0 =>
          if inLine ∧ c ≠ '\n' then
            replaceFrom pattern replacement whole 0 true rest
          else if pattern.isPrefixOf (c :: rest) then
            replacement ++
              replaceFrom pattern replacement whole
                (pattern.length - 1) whole rest
          else
            c :: replaceFrom pattern replacement whole 0 false rest

/- Replace all occurrences of a text. -/
def replace (pattern replacement s : List Char) : List Char :=
  replaceFrom pattern replacement false 0 false s

/- Replace all occurrences of a text up to the ends of their lines. -/
def replaceLine (pattern replacement s : List Char) : List Char :=
  replaceFrom pattern replacement true 0 false s

/-
  Make a script print its compiler calls instead of making them,
  and stop it before it links. Nothing then runs in the
  background, so it does not have to wait for anything either.
-/
def patch (script : String) : String :=
  let s := script.toList
  let s := replace "do_loudly $BUILD -c $i -o $OUT &".toList
    "echo $BUILD -c $i -o $OUT".toList s
  let s := replaceLine "ratelimit ".toList ":".toList s
  let s := replaceLine "do_loudly $BUILD $LNKFILES".toList
    "exit 0".toList s
  String.ofList s

end BuildScript

end Variability
