import Mathlib.Data.List.Basic
import Variability.Proofs.Dict.Ordered
import Variability.Smt.Formula

/-
  Bindings that are made and taken back.

  The values of a name are a stack. Binding a name puts a value
  on its stack, and taking a binding back drops one, so what a
  group of bindings put on the stacks is gone when each of its
  names was taken back, in whichever order and however often a
  name is repeated. No stack that was emptied stays behind.

  Main declarations:
    * `Smt.Scopes.stack`
    * `Smt.Scopes.IsProper`
    * `Smt.Scopes.stack_pushAll`
    * `Smt.Scopes.popAll_pushAll`
-/

namespace Variability

namespace Smt

namespace Scopes

------------------------------------------------------------
-- Stacks
------------------------------------------------------------

variable {scopes scopes' : Scopes}
variable {name name' : String}

/- The values of a name, none if it is not bound. -/
def stack (scopes : Scopes) (name : String) : List Formula :=
  (Dict.find? name scopes).getD []

/- The names are in order, and each one has a value. -/
structure IsProper (scopes : Scopes) : Prop where
  ordered : Dict.IsOrdered scopes
  nonempty : ∀ entry ∈ scopes, entry.2 ≠ []

theorem isProper_nil : IsProper [] :=
  ⟨List.Pairwise.nil, nofun⟩

theorem lookup_eq
    (scopes : Scopes)
    (name : String) :
    scopes.lookup name = (stack scopes name).head? := by
  rw [lookup, stack]
  cases Dict.find? name scopes <;> rfl

/- Proper scopes are known by their stacks. -/
theorem IsProper.eq_of_stack_eq
    (hProper : scopes.IsProper)
    (hProper' : scopes'.IsProper)
    (hStack : ∀ name, stack scopes name = stack scopes' name) :
    scopes = scopes' := by
  have hFind (scopes : Scopes) (hProper : scopes.IsProper)
      (entry : String × List Formula) :
      entry ∈ scopes ↔
        entry.2 ≠ [] ∧ stack scopes entry.1 = entry.2 := by
    rw [stack, ← Dict.find?_eq_some_iff hProper.ordered]
    constructor
    · intro hFound
      rw [hFound]
      rw [Dict.find?_eq_some_iff hProper.ordered] at hFound
      exact ⟨hProper.nonempty _ hFound, rfl⟩
    · rintro ⟨hNonempty, hStack⟩
      cases hFound : Dict.find? entry.1 scopes with
      | none =>
          rw [hFound] at hStack
          exact absurd hStack.symm hNonempty
      | some values =>
          rw [hFound] at hStack
          exact congrArg some hStack
  apply hProper.ordered.eq_of_mem_iff hProper'.ordered
  intro entry
  rw [hFind scopes hProper, hFind scopes' hProper', hStack]

------------------------------------------------------------
-- One Binding
------------------------------------------------------------

/- A value that is set is the one of its name, and it is not empty. -/
theorem IsProper.insert
    (hProper : scopes.IsProper)
    (name : String)
    {values : List Formula}
    (hValues : values ≠ []) :
    IsProper (Dict.insert name values scopes) := by
  refine ⟨hProper.ordered.insert name values, ?_⟩
  rintro ⟨name', values'⟩ hMem
  rcases Dict.mem_insert hMem with ⟨rfl, -⟩ | hOld
  · exact hValues
  · exact hProper.nonempty _ hOld

theorem stack_insert
    (scopes : Scopes)
    (name name' : String)
    (values : List Formula) :
    stack (Dict.insert name values scopes) name' =
      if name' = name then values else stack scopes name' := by
  rw [stack, Dict.find?_insert]
  split <;> rfl

theorem IsProper.push
    (hProper : scopes.IsProper)
    (name : String)
    (value : Formula) :
    (scopes.push name value).IsProper :=
  hProper.insert name (List.cons_ne_nil _ _)

theorem stack_push
    (scopes : Scopes)
    (name name' : String)
    (value : Formula) :
    stack (scopes.push name value) name' =
      if name' = name then
        value :: stack scopes name
      else
        stack scopes name' :=
  stack_insert scopes name name' _

theorem IsProper.pop
    (hProper : scopes.IsProper)
    (name : String) :
    (scopes.pop name).IsProper := by
  unfold Scopes.pop
  split
  · exact hProper
  · split
    · refine ⟨hProper.ordered.filter _, fun entry hMem => ?_⟩
      exact hProper.nonempty entry (List.mem_of_mem_filter hMem)
    · rename_i hRest
      refine hProper.insert name fun hEmpty => hRest ?_
      rw [hEmpty]
      rfl

theorem find?_filter_ne
    (scopes : Scopes)
    (name name' : String) :
    Dict.find? name' (scopes.filter (·.1 ≠ name)) =
      if name' = name then none else Dict.find? name' scopes := by
  induction scopes with
  | nil => simp [Dict.find?]
  | cons entry rest ih =>
      unfold Dict.find? at ih ⊢
      have hCompare :
          (compare name' entry.1 == .eq) =
            decide (name' = entry.1) := by
        by_cases hEntry : name' = entry.1 <;> simp [hEntry]
      by_cases hName : entry.1 = name
      · rw [List.filter_cons_of_neg (by simpa using hName), ih,
          List.find?_cons, hCompare, hName]
        by_cases hSame : name' = name <;> simp [hSame]
      · rw [List.filter_cons_of_pos (by simpa using hName),
          List.find?_cons, List.find?_cons, hCompare]
        by_cases hEntry : name' = entry.1
        · simp [hEntry, hName]
        · simpa [hEntry] using ih

theorem stack_pop
    (scopes : Scopes)
    (name name' : String) :
    stack (scopes.pop name) name' =
      if name' = name then
        (stack scopes name).drop 1
      else
        stack scopes name' := by
  unfold Scopes.pop
  split
  · rename_i hNone
    split
    · rename_i hSame
      rw [hSame, stack, hNone]
      rfl
    · rfl
  · rename_i values hFound
    have hValues : stack scopes name = values := by
      rw [stack, hFound]
      rfl
    rw [hValues]
    split
    · rename_i hRest
      rw [List.isEmpty_iff.mp hRest, stack, find?_filter_ne]
      split <;> rfl
    · exact stack_insert scopes name name' _

------------------------------------------------------------
-- Groups of Bindings
------------------------------------------------------------

theorem IsProper.pushAll
    (hProper : scopes.IsProper)
    (values : List (String × Formula)) :
    (scopes.pushAll values).IsProper := by
  induction values generalizing scopes with
  | nil => exact hProper
  | cons entry values ih => exact ih (hProper.push entry.1 entry.2)

theorem IsProper.popAll
    (hProper : scopes.IsProper)
    (names : List String) :
    (scopes.popAll names).IsProper := by
  induction names generalizing scopes with
  | nil => exact hProper
  | cons name names ih => exact ih (hProper.pop name)

/- The values that a group gives to a name. -/
def valuesOf
    (values : List (String × Formula))
    (name : String) : List Formula :=
  (values.filter (·.1 = name)).map (·.2)

/- The values of a group are put on the stacks, the last one on top. -/
theorem stack_pushAll
    (scopes : Scopes)
    (values : List (String × Formula))
    (name : String) :
    stack (scopes.pushAll values) name =
      (valuesOf values name).reverse ++ stack scopes name := by
  induction values generalizing scopes with
  | nil => rfl
  | cons entry values ih =>
      rw [pushAll, List.foldl_cons, ← pushAll, ih, stack_push]
      unfold valuesOf
      by_cases hName : name = entry.1
      · simp [hName]
      · have hOther : ¬ entry.1 = name := fun h => hName h.symm
        simp [hName, hOther]

/- A stack loses as many values as its name is taken back. -/
theorem stack_popAll
    (scopes : Scopes)
    (names : List String)
    (name : String) :
    stack (scopes.popAll names) name =
      (stack scopes name).drop (names.count name) := by
  induction names generalizing scopes with
  | nil => rfl
  | cons other names ih =>
      rw [popAll, List.foldl_cons, ← popAll, ih, stack_pop,
        List.count_cons]
      by_cases hName : name = other
      · simp [hName]
      · have hOther : ¬ other = name := fun h => hName h.symm
        simp [hName, hOther]

theorem length_valuesOf
    (values : List (String × Formula))
    (name : String) :
    (valuesOf values name).length =
      (values.map (·.1)).count name := by
  rw [valuesOf, List.length_map, List.count, List.countP_map,
    List.countP_eq_length_filter]
  rfl

/- Taking all names of a group back leaves what was there before it. -/
theorem popAll_pushAll
    (hProper : scopes.IsProper)
    (values : List (String × Formula)) :
    (scopes.pushAll values).popAll (values.map (·.1)) =
      scopes := by
  apply ((hProper.pushAll values).popAll _).eq_of_stack_eq hProper
  intro name
  rw [stack_popAll, stack_pushAll, ← length_valuesOf,
    ← List.length_reverse, List.drop_left]

end Scopes

end Smt

end Variability
