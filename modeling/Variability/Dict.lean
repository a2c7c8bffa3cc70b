/-
  Finite maps as lists of entries ordered by their keys.

  Main definitions:
    * `Dict`
    * `Dict.insert`
    * `Dict.find?`
    * `Dict.runs`
-/

namespace Variability

/- The entries of a map, in the order of their keys. -/
abbrev Dict (κ ν : Type) := List (κ × ν)

namespace Dict

variable {κ ν : Type} [Ord κ]

/- Set the value of a key; a key that is there keeps its spelling. -/
def insert (key : κ) (value : ν) : Dict κ ν → Dict κ ν
  | [] => [(key, value)]
  | (key', value') :: rest =>
      match compare key key' with
      | .lt => (key, value) :: (key', value') :: rest
      | .eq => (key', value) :: rest
      | .gt => (key', value') :: insert key value rest

/- The value of a key. -/
def find? (key : κ) (d : Dict κ ν) : Option ν :=
  (List.find? (fun e => compare key e.1 == .eq) d).map (·.2)

/- The map of some entries; of equal keys the last value stays. -/
def ofList (entries : List (κ × ν)) : Dict κ ν :=
  entries.foldl (fun d (key, value) => insert key value d) []

/- The keys in order. -/
def keys (d : Dict κ ν) : List κ :=
  d.map (·.1)

/- Put an entry in front of runs; it may be the start of the first one. -/
def addRun [DecidableEq ν] (key : Nat) (value : ν) :
    List (Nat × Nat × ν) → List (Nat × Nat × ν)
  | [] => [(key, key, value)]
  | (start, last, value') :: rest =>
      if key + 1 = start ∧ value = value' then
        (key, last, value) :: rest
      else
        (key, key, value) :: (start, last, value') :: rest

/-
  The runs of keys that follow each other and have one value,
  each with its first and its last key.
-/
def runs [DecidableEq ν] (d : Dict Nat ν) : List (Nat × Nat × ν) :=
  d.foldr (fun (key, value) rest => addRun key value rest) []

end Dict

end Variability
