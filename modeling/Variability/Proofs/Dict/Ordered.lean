import Mathlib.Data.List.Sort
import Variability.Proofs.Dict.Entries
import Variability.Proofs.Path.Components

/-
  Maps ordered by their keys.

  Setting values keeps a map in the order of its keys, so each key
  is there once, and maps that have the same entries are the same.
  Paths are ordered like their lists of components.

  Main declarations:
    * `Dict.IsOrdered`
    * `Dict.isOrdered_ofList`
    * `Dict.IsOrdered.eq_of_mem_iff`
    * `Dict.ofList_eq_of_perm`
    * `Dict.find?_eq_some_iff`
    * `Dict.find?_ofList_congr`
-/

namespace Variability

------------------------------------------------------------
-- Maps
------------------------------------------------------------

namespace Dict

variable {κ ν : Type}
variable [Ord κ]
variable {d d' : Dict κ ν}

/- The entries stand in the order of their keys, each key once. -/
def IsOrdered (d : Dict κ ν) : Prop :=
  d.Pairwise fun e e' => compare e.1 e'.1 = .lt

theorem IsOrdered.insert
    [Std.TransOrd κ]
    (hOrdered : IsOrdered d)
    (key : κ)
    (value : ν) :
    IsOrdered (Dict.insert key value d) := by
  induction d with
  | nil => exact List.pairwise_singleton _ _
  | cons entry rest ih =>
      rcases entry with ⟨other, old⟩
      rcases List.pairwise_cons.mp hOrdered with ⟨hFirst, hRest⟩
      unfold Dict.insert
      cases hOrder : compare key other with
      | lt =>
          refine List.pairwise_cons.mpr ⟨fun e he => ?_, hOrdered⟩
          rcases List.mem_cons.mp he with rfl | he
          · exact hOrder
          · exact Std.TransCmp.lt_trans hOrder (hFirst e he)
      | eq => exact List.pairwise_cons.mpr ⟨hFirst, hRest⟩
      | gt =>
          refine
            List.pairwise_cons.mpr ⟨fun e he => ?_, ih hRest⟩
          rcases e with ⟨key', value'⟩
          rcases mem_insert he with
            ⟨-, rfl | ⟨-, before, hOld⟩⟩ | hOld
          · exact Std.OrientedCmp.gt_iff_lt.mp hOrder
          · exact hFirst (key', before) hOld
          · exact hFirst _ hOld

theorem isOrdered_ofList
    [Std.TransOrd κ]
    (entries : List (κ × ν)) :
    IsOrdered (ofList entries) := by
  suffices hFold : ∀ d : Dict κ ν, IsOrdered d →
      IsOrdered
        (entries.foldl
          (fun d e => Dict.insert e.1 e.2 d) d) by
    rw [ofList_eq]
    exact hFold [] .nil
  induction entries with
  | nil => exact fun d hOrdered => hOrdered
  | cons entry entries ih =>
      exact fun d hOrdered => ih _ (hOrdered.insert _ _)

theorem IsOrdered.filter
    (hOrdered : d.IsOrdered)
    (p : κ × ν → Bool) :
    IsOrdered (d.filter p) :=
  List.Pairwise.filter p hOrdered

/- Ordered maps are known by their entries. -/
theorem IsOrdered.eq_of_mem_iff
    [Std.OrientedOrd κ]
    (hOrdered : d.IsOrdered)
    (hOrdered' : d'.IsOrdered)
    (hSame : ∀ entry, entry ∈ d ↔ entry ∈ d') :
    d = d' := by
  let less (e e' : κ × ν) : Prop := compare e.1 e'.1 = .lt
  have : Std.Irrefl less := ⟨fun e hLess => by
    have hSelf : compare e.1 e.1 = .eq := Std.ReflCmp.compare_self
    cases hSelf.symm.trans hLess⟩
  have : Std.Antisymm less := ⟨fun e e' hLess hLess' => by
    have hGreater := Std.OrientedCmp.gt_of_lt hLess
    cases hGreater.symm.trans hLess'⟩
  exact List.Pairwise.eq_of_mem_iff hOrdered hOrdered' hSame

/- Keys that are told apart can be set in any order. -/
theorem ofList_eq_of_perm
    [Std.TransOrd κ]
    {es es' : List (κ × ν)}
    (hApart :
      ∀ e ∈ es, ∀ e' ∈ es, compare e.1 e'.1 = .eq → e = e')
    (hPerm : es.Perm es') :
    ofList es = ofList es' := by
  have hApart' :
      ∀ e ∈ es', ∀ e' ∈ es', compare e.1 e'.1 = .eq → e = e' :=
    fun e he e' he' =>
      hApart e (hPerm.mem_iff.mpr he) e' (hPerm.mem_iff.mpr he')
  apply (isOrdered_ofList es).eq_of_mem_iff (isOrdered_ofList es')
  intro entry
  rw [mem_ofList_iff hApart, mem_ofList_iff hApart']
  exact hPerm.mem_iff

section Lawful

variable [Std.LawfulEqOrd κ]

/- An ordered map holds the entries that are found. -/
theorem find?_eq_some_iff
    (hOrdered : d.IsOrdered)
    (key : κ)
    (value : ν) :
    find? key d = some value ↔ (key, value) ∈ d := by
  induction d with
  | nil => simp [find?]
  | cons e rest ih =>
      rcases e with ⟨key', value'⟩
      have hRest := ih hOrdered.tail
      have hBehind := (List.pairwise_cons.mp hOrdered).1
      by_cases hSame : key = key'
      · subst hSame
        have hOnce : (key, value) ∉ rest := by
          intro hMem
          have hLess := hBehind _ hMem
          simp at hLess
        simp [find?, hOnce, eq_comm]
      · have hOther : (compare key key' == .eq) = false := by
          simp [hSame]
        unfold find? at hRest ⊢
        rw [List.find?_cons, hOther, hRest]
        simp [hSame]

/- The map of the entries of an ordered map is that map. -/
theorem IsOrdered.ofList_eq
    [Std.TransOrd κ]
    (hOrdered : d.IsOrdered) :
    ofList d = d := by
  apply (isOrdered_ofList d).eq_of_mem_iff hOrdered
  apply mem_ofList_iff
  rintro ⟨key, value⟩ hMem ⟨key', value'⟩ hMem' hEq
  cases Std.LawfulEqOrd.eq_of_compare hEq
  have hFound := (find?_eq_some_iff hOrdered _ _).mpr hMem
  have hFound' := (find?_eq_some_iff hOrdered _ _).mpr hMem'
  rw [hFound] at hFound'
  cases hFound'
  rfl

/-
  Ordered maps that agree on some keys have the same entries
  for them.
-/
theorem filter_eq
    [Std.OrientedOrd κ]
    (hOrdered : d.IsOrdered)
    (hOrdered' : d'.IsOrdered)
    {p : κ → Bool}
    (hAgree : ∀ key, p key = true → find? key d = find? key d') :
    d.filter (p ·.1) = d'.filter (p ·.1) := by
  apply (hOrdered.filter fun e => p e.1).eq_of_mem_iff
    (hOrdered'.filter fun e => p e.1)
  rintro ⟨key, value⟩
  rw [List.mem_filter, List.mem_filter,
    ← find?_eq_some_iff hOrdered, ← find?_eq_some_iff hOrdered']
  constructor
  · rintro ⟨hFound, hKey⟩
    exact ⟨hAgree key hKey ▸ hFound, hKey⟩
  · rintro ⟨hFound, hKey⟩
    exact ⟨(hAgree key hKey).symm ▸ hFound, hKey⟩

end Lawful

section Transitive

variable [Std.TransOrd κ]

/- The last value of a key is the one that counts. -/
theorem insert_insert
    (key : κ)
    (value value' : ν)
    (d : Dict κ ν) :
    insert key value (insert key value' d) = insert key value d := by
  induction d with
  | nil => simp [insert]
  | cons entry rest ih =>
      rcases entry with ⟨other, old⟩
      rw [insert, insert]
      cases hOrder : compare key other with
      | lt => simp [insert]
      | eq => simp [insert, hOrder]
      | gt => simp [insert, hOrder, ih]

/- Different keys can be set in any order. -/
theorem insert_comm
    {key key' : κ}
    (hOther : compare key key' ≠ .eq)
    (value value' : ν)
    (d : Dict κ ν) :
    insert key value (insert key' value' d) =
      insert key' value' (insert key value d) := by
  have hBoth :
      compare key key' = .lt ∧ compare key' key = .gt ∨
        compare key key' = .gt ∧ compare key' key = .lt := by
    have hSwap : compare key' key = (compare key key').swap :=
      Std.OrientedCmp.eq_swap
    rw [hSwap]
    cases hKeys : compare key key' <;> simp_all
  have hLess {a b c : κ}
      (hBefore : compare a c = .lt)
      (hBehind : compare b c ≠ .lt) :
      compare a b = .lt ∧ compare b a = .gt := by
    have hSwap : compare c b = (compare b c).swap :=
      Std.OrientedCmp.eq_swap
    have hLast : (compare c b).isLE = true := by
      rw [hSwap]
      cases hCompare : compare b c <;> simp_all
    have hKeys := Std.TransCmp.lt_of_lt_of_isLE hBefore hLast
    exact ⟨hKeys, Std.OrientedCmp.gt_of_lt hKeys⟩
  induction d with
  | nil =>
      rcases hBoth with ⟨hKeys, hKeys'⟩ | ⟨hKeys, hKeys'⟩ <;>
        simp [insert, hKeys, hKeys']
  | cons entry rest ih =>
      rcases entry with ⟨other, old⟩
      cases hOrder : compare key other <;>
        cases hOrder' : compare key' other
      case lt.lt =>
        rcases hBoth with ⟨hKeys, hKeys'⟩ | ⟨hKeys, hKeys'⟩ <;>
          simp [insert, hOrder, hOrder', hKeys, hKeys']
      case gt.gt => simp [insert, hOrder, hOrder', ih]
      case eq.eq =>
        rw [Std.TransCmp.congr_right
          (Std.OrientedCmp.eq_symm hOrder')] at hOrder
        exact absurd hOrder hOther
      case lt.eq | lt.gt =>
        have hKeys := hLess hOrder (b := key') (by simp [hOrder'])
        simp [insert, hOrder, hOrder', hKeys]
      case eq.lt | gt.lt =>
        have hKeys := hLess hOrder' (b := key) (by simp [hOrder])
        simp [insert, hOrder, hOrder', hKeys]
      case eq.gt | gt.eq => simp [insert, hOrder, hOrder']

/- A value is found under each key that compares as equal to its own. -/
theorem find?_insert_of_trans
    (d : Dict κ ν)
    (key key' : κ)
    (value : ν) :
    find? key' (Dict.insert key value d) =
      if compare key' key = .eq then
        some value
      else
        find? key' d := by
  induction d with
  | nil =>
      by_cases hEq : compare key' key = .eq <;>
        simp [Dict.insert, find?, hEq]
  | cons entry rest ih =>
      rcases entry with ⟨other, old⟩
      simp only [find?] at ih ⊢
      unfold Dict.insert
      cases hOrder : compare key other with
      | lt =>
          by_cases hEq : compare key' key = .eq <;> simp [hEq]
      | eq =>
          have hSame : compare key' other = compare key' key :=
            (Std.TransCmp.congr_right hOrder).symm
          by_cases hEq : compare key' key = .eq <;>
            simp [hEq, hSame]
      | gt =>
          by_cases hOther : compare key' other = .eq
          · have hLess : compare key' key = .lt := by
              rw [← Std.OrientedCmp.gt_iff_lt]
              rwa [← Std.TransCmp.congr_right hOther] at hOrder
            simp [hOther, hLess]
          · simp [hOther, ih]

/- Of the values of keys that compare as equal the last one is found. -/
theorem find?_ofList_of_trans
    (entries : List (κ × ν))
    (key : κ) :
    find? key (ofList entries) =
      (entries.reverse.find? fun e => compare key e.1 == .eq).map
        (·.2) := by
  rw [ofList_eq]
  induction entries using List.reverseRecOn with
  | nil => rfl
  | append_singleton before last ih =>
      rw [List.foldl_append, List.foldl_cons, List.foldl_nil,
        find?_insert_of_trans, ih, List.reverse_append,
        List.reverse_singleton, List.singleton_append,
        List.find?_cons]
      cases hSame : compare key last.1 <;> rfl

theorem find?_ofList_eq_none_iff
    (entries : List (κ × ν))
    (key : κ) :
    find? key (ofList entries) = none ↔
      ¬ ∃ e ∈ entries, compare key e.1 = .eq := by
  rw [find?_ofList_of_trans, Option.map_eq_none_iff,
    List.find?_eq_none]
  simp

/- What is found is the value of some entry with such a key. -/
theorem exists_of_find?_ofList
    {entries : List (κ × ν)}
    {key : κ}
    {value : ν}
    (hFound : find? key (ofList entries) = some value) :
    ∃ e ∈ entries, compare key e.1 = .eq ∧ e.2 = value := by
  rw [find?_ofList_of_trans] at hFound
  rcases Option.map_eq_some_iff.mp hFound with ⟨e, hEntry, hValue⟩
  have hKey := List.find?_some hEntry
  have hMem := List.mem_of_find?_eq_some hEntry
  exact
    ⟨e, List.mem_reverse.mp hMem, beq_iff_eq.mp hKey, hValue⟩

/-
  The same is found under a key in two maps, if both or none have
  entries for it and all of these have the same value.
-/
theorem find?_ofList_congr
    {es es' : List (κ × ν)}
    {key : κ}
    (hSome :
      (∃ e ∈ es, compare key e.1 = .eq) ↔
        ∃ e ∈ es', compare key e.1 = .eq)
    (hValue :
      ∀ e ∈ es, ∀ e' ∈ es', compare key e.1 = .eq →
        compare key e'.1 = .eq → e.2 = e'.2) :
    find? key (ofList es) = find? key (ofList es') := by
  cases hFound : find? key (ofList es) with
  | none =>
      have hNone := (find?_ofList_eq_none_iff es key).mp hFound
      rw [hSome, ← find?_ofList_eq_none_iff] at hNone
      exact hNone.symm
  | some value =>
      rcases exists_of_find?_ofList hFound with ⟨e, he, hKey, rfl⟩
      cases hFound' : find? key (ofList es') with
      | none =>
          have hNone := (find?_ofList_eq_none_iff es' key).mp hFound'
          exact absurd (hSome.mp ⟨e, he, hKey⟩) hNone
      | some value' =>
          rcases exists_of_find?_ofList hFound' with
            ⟨e', he', hKey', rfl⟩
          rw [hValue e he e' he' hKey hKey']

end Transitive

end Dict

------------------------------------------------------------
-- Paths
------------------------------------------------------------

namespace Component

/- The text of a name; other components have none. -/
def nameText : Component → String
  | .name text => text
  | _ => ""

theorem compare_eq (c d : Component) :
    c.compare d =
      compareLex (compareOn rank) (compareOn nameText) c d := by
  cases c <;> cases d <;> rfl

instance : Std.TransCmp Component.compare := by
  have hEq :
      Component.compare =
        compareLex (compareOn rank) (compareOn nameText) := by
    funext c d
    exact compare_eq c d
  rw [hEq]
  infer_instance

end Component

namespace Path

theorem compareComponents_eq
    (cs ds : List Component) :
    compareComponents cs ds =
      List.compareLex Component.compare cs ds := by
  induction cs generalizing ds with
  | nil => cases ds <;> rfl
  | cons c cs ih =>
      cases ds with
      | nil => rfl
      | cons d ds =>
          rw [compareComponents, List.compareLex_cons_cons, ih]
          cases c.compare d <;> rfl

instance : Std.TransOrd Path where
  eq_swap := by
    intro p q
    change compareComponents _ _ = (compareComponents _ _).swap
    rw [compareComponents_eq, compareComponents_eq]
    exact Std.OrientedCmp.eq_swap
  isLE_trans := by
    intro p q r hpq hqr
    change (compareComponents _ _).isLE = true at hpq hqr ⊢
    rw [compareComponents_eq] at hpq hqr ⊢
    exact Std.TransCmp.isLE_trans hpq hqr

end Path

end Variability
