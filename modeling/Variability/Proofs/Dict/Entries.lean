import Mathlib.Data.List.Forall2
import Mathlib.Data.List.Induction
import Variability.Dict

/-
  Entries of maps.

  A map whose keys are equal if they compare so has the last value
  that was set. In every map an entry was put in or its value was
  set.

  Main declarations:
    * `Dict.find?_insert`, `Dict.find?_ofList`
    * `Dict.mem_insert`
    * `Dict.mem_of_find?_eq`
    * `Dict.mem_ofList_iff`
    * `Dict.Related.find?`
-/

namespace Variability

namespace Dict

variable {κ ν : Type}
variable [Ord κ]

/- A key that was set has its value, and no other key changes. -/
theorem find?_insert
    [Std.LawfulEqOrd κ] [DecidableEq κ]
    (d : Dict κ ν)
    (key key' : κ)
    (value : ν) :
    find? key' (insert key value d) =
      if key' = key then some value else find? key' d := by
  induction d with
  | nil =>
      by_cases hEq : key' = key <;>
        simp [insert, find?, hEq]
  | cons entry rest ih =>
      rcases entry with ⟨other, old⟩
      simp only [find?] at ih ⊢
      unfold insert
      cases hOrder : compare key other with
      | lt =>
          by_cases hEq : key' = key <;>
            simp [hEq]
      | eq =>
          have hSame : key = other :=
            Std.LawfulEqOrd.eq_of_compare hOrder
          by_cases hEq : key' = key
          · simp [hEq, hSame]
          · have hOther : key' ≠ other := hSame ▸ hEq
            simp [hEq, hOther]
      | gt =>
          have hNe : key ≠ other := by
            rintro rfl
            simp at hOrder
          by_cases hOther : key' = other
          · have hKey : key' ≠ key := by
              rintro rfl
              exact hNe hOther
            simp [hOther, hNe.symm]
          · simp [hOther, ih]

/- Where an entry comes from: it is new, or its value is, or it was there. -/
theorem mem_insert
    {d : Dict κ ν}
    {key key' : κ}
    {value value' : ν}
    (hMem : (key', value') ∈ insert key value d) :
    value' = value ∧
        (key' = key ∨
          compare key key' = .eq ∧ ∃ old, (key', old) ∈ d) ∨
      (key', value') ∈ d := by
  induction d with
  | nil =>
      cases List.mem_singleton.mp hMem
      exact Or.inl ⟨rfl, Or.inl rfl⟩
  | cons entry rest ih =>
      rcases entry with ⟨other, old⟩
      unfold insert at hMem
      cases hOrder : compare key other with
      | lt =>
          rw [hOrder] at hMem
          rcases List.mem_cons.mp hMem with hNew | hMem
          · cases hNew
            exact Or.inl ⟨rfl, Or.inl rfl⟩
          · exact Or.inr hMem
      | eq =>
          rw [hOrder] at hMem
          rcases List.mem_cons.mp hMem with hNew | hMem
          · cases hNew
            exact
              Or.inl ⟨rfl, Or.inr
                ⟨hOrder, old, List.mem_cons_self⟩⟩
          · exact Or.inr (List.mem_cons_of_mem _ hMem)
      | gt =>
          rw [hOrder] at hMem
          rcases List.mem_cons.mp hMem with hSame | hMem
          · cases hSame
            exact Or.inr List.mem_cons_self
          · rcases ih hMem with
              ⟨hValue, hKey | ⟨hEq, before, hOld⟩⟩ | hOld
            · exact Or.inl ⟨hValue, Or.inl hKey⟩
            · exact
                Or.inl ⟨hValue, Or.inr
                  ⟨hEq, before, List.mem_cons_of_mem _ hOld⟩⟩
            · exact Or.inr (List.mem_cons_of_mem _ hOld)

/- What is found is in the map, under a key that compares as equal. -/
theorem mem_of_find?_eq
    {d : Dict κ ν}
    {key : κ}
    {value : ν}
    (hFound : find? key d = some value) :
    ∃ key', compare key key' = .eq ∧ (key', value) ∈ d := by
  rcases Option.map_eq_some_iff.mp hFound with
    ⟨⟨key', other⟩, hEntry, rfl⟩
  have hEq := List.find?_some hEntry
  exact
    ⟨key', beq_iff_eq.mp hEq,
      List.mem_of_find?_eq_some hEntry⟩

/- The value that is set is in the map, under an old key or a new one. -/
theorem exists_mem_insert
    (key : κ)
    (value : ν)
    (d : Dict κ ν) :
    ∃ key', (key', value) ∈ insert key value d ∧
      (key' = key ∨
        compare key key' = .eq ∧ ∃ old, (key', old) ∈ d) := by
  induction d with
  | nil => exact ⟨key, List.mem_cons_self, Or.inl rfl⟩
  | cons entry rest ih =>
      rcases entry with ⟨other, old⟩
      unfold insert
      cases hOrder : compare key other with
      | lt => exact ⟨key, List.mem_cons_self, Or.inl rfl⟩
      | eq =>
          exact
            ⟨other, List.mem_cons_self,
              Or.inr ⟨hOrder, old, List.mem_cons_self⟩⟩
      | gt =>
          rcases ih with ⟨key', hMem, hKey⟩
          refine ⟨key', List.mem_cons_of_mem _ hMem, ?_⟩
          rcases hKey with hKey | ⟨hEq, before, hOld⟩
          · exact Or.inl hKey
          · exact
              Or.inr ⟨hEq, before, List.mem_cons_of_mem _ hOld⟩

/- An entry stays, or it is the one whose value is set. -/
theorem mem_insert_of_mem
    {d : Dict κ ν}
    {key : κ}
    {entry : κ × ν}
    (hMem : entry ∈ d)
    (value : ν) :
    entry ∈ insert key value d ∨
      find? key d = some entry.2 ∧
        (entry.1, value) ∈ insert key value d := by
  induction d with
  | nil => cases hMem
  | cons first rest ih =>
      rcases first with ⟨other, old⟩
      unfold insert find?
      rw [List.find?_cons]
      cases hOrder : compare key other with
      | lt => exact Or.inl (List.mem_cons_of_mem _ hMem)
      | eq =>
          rcases List.mem_cons.mp hMem with rfl | hRest
          · exact Or.inr ⟨rfl, List.mem_cons_self⟩
          · exact Or.inl (List.mem_cons_of_mem _ hRest)
      | gt =>
          rcases List.mem_cons.mp hMem with rfl | hRest
          · exact Or.inl List.mem_cons_self
          · rcases ih hRest with hStays | ⟨hFound, hSet⟩
            · exact Or.inl (List.mem_cons_of_mem _ hStays)
            · exact
                Or.inr ⟨hFound, List.mem_cons_of_mem _ hSet⟩

/- The entries are set one after the other. -/
theorem ofList_eq
    (entries : List (κ × ν)) :
    ofList entries =
      entries.foldl (fun d e => insert e.1 e.2 d) [] :=
  rfl

/- The values of a map were all set for some key. -/
theorem exists_of_mem_ofList
    {entries : List (κ × ν)}
    {entry : κ × ν}
    (hMem : entry ∈ ofList entries) :
    ∃ e ∈ entries, e.2 = entry.2 := by
  rw [ofList_eq] at hMem
  induction entries using List.reverseRecOn generalizing entry with
  | nil => cases hMem
  | append_singleton before last ih =>
      rw [List.foldl_append, List.foldl_cons, List.foldl_nil] at hMem
      rcases entry with ⟨key, value⟩
      rcases mem_insert hMem with ⟨rfl, -⟩ | hOld
      · exact ⟨last, by simp, rfl⟩
      · rcases ih hOld with ⟨e, he, hValue⟩
        exact ⟨e, List.mem_append_left _ he, hValue⟩

/- Of several values of a key the last one is found. -/
theorem find?_ofList
    [Std.LawfulEqOrd κ] [DecidableEq κ]
    (entries : List (κ × ν))
    (key : κ) :
    find? key (ofList entries) =
      (entries.reverse.find? (·.1 = key)).map (·.2) := by
  rw [ofList_eq]
  induction entries using List.reverseRecOn with
  | nil => rfl
  | append_singleton before last ih =>
      rw [List.foldl_append, List.foldl_cons, List.foldl_nil,
        find?_insert, ih, List.reverse_append,
        List.reverse_singleton, List.singleton_append,
        List.find?_cons]
      by_cases hSame : last.1 = key
      · simp [hSame]
      · simp [hSame, Ne.symm hSame]

/- Entries whose keys are told apart by comparing are all kept. -/
theorem mem_ofList_iff
    {entries : List (κ × ν)}
    (hApart :
      ∀ e ∈ entries, ∀ e' ∈ entries,
        compare e.1 e'.1 = .eq → e = e')
    (entry : κ × ν) :
    entry ∈ ofList entries ↔ entry ∈ entries := by
  rw [ofList_eq]
  induction entries using List.reverseRecOn generalizing entry with
  | nil => exact Iff.rfl
  | append_singleton before last ih =>
      rcases last with ⟨key, value⟩
      have hBefore :=
        ih fun e he e' he' =>
          hApart e (List.mem_append_left _ he) e'
            (List.mem_append_left _ he')
      rw [List.foldl_append, List.foldl_cons, List.foldl_nil]
      dsimp only
      generalize
        before.foldl (fun d e => insert e.1 e.2 d) [] = d
        at hBefore ⊢
      -- An entry with the key that is set is the one that is set.
      have hSame {other : κ × ν}
          (hOther : other ∈ d)
          (hEq : compare key other.1 = .eq) :
          (key, value) = other :=
        hApart _ (by simp) _
          (List.mem_append_left _ ((hBefore other).mp hOther)) hEq
      rw [List.mem_append, List.mem_singleton, ← hBefore]
      constructor
      · intro hMem
        rcases entry with ⟨key', value'⟩
        rcases mem_insert hMem with
          ⟨rfl, rfl | ⟨hEq, old, hOld⟩⟩ | hOld
        · exact Or.inr rfl
        · cases hSame hOld hEq
          exact Or.inr rfl
        · exact Or.inl hOld
      · rcases entry with ⟨key', value'⟩
        rintro (hOld | hNew)
        · rcases mem_insert_of_mem hOld value with
            hStays | ⟨hFound, hSet⟩
          · exact hStays
          · rcases mem_of_find?_eq hFound with
              ⟨other, hEq, hOther⟩
            cases hSame hOther hEq
            exact hSet
        · cases hNew
          rcases exists_mem_insert key value d with
            ⟨other, hMem, rfl | ⟨hEq, old, hOld⟩⟩
          · exact hMem
          · cases hSame hOld hEq
            exact hMem

------------------------------------------------------------
-- Related Maps
------------------------------------------------------------

variable {μ : Type}
variable {R : ν → μ → Prop}
variable {d : Dict κ ν}
variable {e : Dict κ μ}

/- Maps with the same keys and related values. -/
def Related (R : ν → μ → Prop) (d : Dict κ ν) (e : Dict κ μ) :
    Prop :=
  List.Forall₂ (fun p q => p.1 = q.1 ∧ R p.2 q.2) d e

namespace Related

theorem insert
    (hRelated : Related R d e)
    (key : κ)
    {value : ν}
    {value' : μ}
    (hValue : R value value') :
    Related R (Dict.insert key value d)
      (Dict.insert key value' e) := by
  induction hRelated with
  | nil => exact .cons ⟨rfl, hValue⟩ .nil
  | @cons p q rest rest' hFirst hRest ih =>
      rcases p with ⟨other, old⟩
      rcases q with ⟨other', old'⟩
      rcases hFirst with ⟨hKey, hOld⟩
      dsimp only at hKey hOld
      subst hKey
      unfold Dict.insert
      cases compare key other with
      | lt => exact .cons ⟨rfl, hValue⟩ (.cons ⟨rfl, hOld⟩ hRest)
      | eq => exact .cons ⟨rfl, hValue⟩ hRest
      | gt => exact .cons ⟨rfl, hOld⟩ ih

theorem find?
    (hRelated : Related R d e)
    (key : κ) :
    Option.Rel R (Dict.find? key d) (Dict.find? key e) := by
  induction hRelated with
  | nil => exact .none
  | @cons p q rest rest' hFirst _ ih =>
      unfold Dict.find? at ih ⊢
      rw [List.find?_cons, List.find?_cons, ← hFirst.1]
      cases compare key p.1 == .eq with
      | true => exact .some hFirst.2
      | false => exact ih

end Related

end Dict

end Variability
