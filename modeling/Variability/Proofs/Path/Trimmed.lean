import Variability.Proofs.Path.Locations
import Variability.Proofs.Path.Parents

/-
  Paths that end in a component.

  No slash and no `.` is written behind the last component of such
  a path. Paths of names end so, as do their parents, and whatever
  they are joined to.

  Main declarations:
    * `Path.IsTrimmed`
    * `Path.parent?_cases`
    * `Path.isTrimmed_join`
    * `Path.mem_text_iff`
-/

namespace Variability

namespace Path

variable {p q : Path}
variable {s : List Char}
variable {cs : List Component}

------------------------------------------------------------
-- Characters
------------------------------------------------------------

/- What is between slashes is all of a text but the slashes. -/
theorem exists_mem_splitSlash_iff
    {c : Char}
    (hc : c ≠ '/') :
    (∃ part ∈ splitSlash s, c ∈ part) ↔ c ∈ s := by
  induction s with
  | nil => simp [splitSlash]
  | cons d s ih =>
      by_cases hd : d = '/'
      · simp [splitSlash, hd, hc, ← ih]
      · rcases exists_splitSlash_eq s with ⟨part, parts, hParts⟩
        rw [hParts] at ih
        rw [splitSlash_cons hd, hParts, List.mem_cons, ← ih]
        simp [or_assoc]

/- What stands between two slashes. -/
theorem component?_cases
    (part : List Char) :
    part = [] ∨ part = ['.'] ∨ part = ['.', '.'] ∨
      part ≠ [] ∧ part ≠ ['.'] ∧
        component? part = some (.name (String.ofList part)) := by
  fun_cases component? part <;> simp_all

/- Other characters than slashes and dots are those of the names. -/
theorem mem_text_iff
    {c : Char}
    (hSlash : c ≠ '/')
    (hDot : c ≠ '.') :
    c ∈ p.text.toList ↔
      ∃ name, .name name ∈ p.components ∧ c ∈ name.toList := by
  have hLead (name : String) :
      Component.name name ∉ leadOf p.text.toList := by
    unfold leadOf
    split_ifs <;> simp
  rw [components, componentsOf_eq,
    ← exists_mem_splitSlash_iff hSlash]
  simp only [List.mem_append, hLead, false_or, partsOf,
    List.mem_filterMap]
  constructor
  · rintro ⟨part, hPart, hMem⟩
    refine ⟨String.ofList part, ⟨part, hPart, ?_⟩, by simpa⟩
    rcases component?_cases part with
      rfl | rfl | rfl | ⟨-, -, hName⟩
    · cases hMem
    · simp [hDot] at hMem
    · simp [hDot] at hMem
    · exact hName
  · rintro ⟨name, ⟨part, hPart, hComponent⟩, hMem⟩
    refine ⟨part, hPart, ?_⟩
    unfold component? at hComponent
    split at hComponent <;> cases hComponent
    simpa using hMem

------------------------------------------------------------
-- Ends
------------------------------------------------------------

/- A path whose last part between slashes is a component. -/
def IsTrimmed (p : Path) : Prop :=
  ∃ part,
    (splitSlash p.text.toList).getLast? = some part ∧
      (component? part).isSome = true

theorem IsTrimmed.text_ne
    (hTrimmed : p.IsTrimmed) :
    p.text ≠ "" := by
  rcases hTrimmed with ⟨part, hLast, hSome⟩
  intro hText
  rw [hText] at hLast
  cases hLast
  cases hSome

theorem IsTrimmed.getLast?_ne
    (hTrimmed : p.IsTrimmed) :
    p.text.toList.getLast? ≠ some '/' := by
  rcases hTrimmed with ⟨part, hLast, hSome⟩
  intro hSlash
  rcases List.getLast?_eq_some_iff.mp hSlash with ⟨before, hText⟩
  rw [hText, splitSlash_append, List.getLast?_append] at hLast
  cases hLast
  cases hSome

/- What the end of a text is, if the rest is behind a slash. -/
theorem isTrimmed_of_text_eq
    {before : List Char}
    (hText : p.text.toList = before ++ '/' :: q.text.toList)
    (hTrimmed : q.IsTrimmed) :
    p.IsTrimmed := by
  rcases hTrimmed with ⟨part, hLast, hSome⟩
  refine ⟨part, ?_, hSome⟩
  rw [hText, splitSlash_append, List.getLast?_append, hLast]
  rfl

/- A relative path is written behind nothing or behind a slash. -/
theorem exists_text_join
    (p : Path)
    (hRelative : q.isAbsolute = false) :
    ∃ front, (p.join q).text.toList = front ++ q.text.toList ∧
      (front = [] ∨ ∃ before, front = before ++ ['/']) := by
  rcases List.eq_nil_or_concat p.text.toList with
    hEmpty | ⟨before, last, hText⟩
  · refine ⟨[], ?_, Or.inl rfl⟩
    simp [join, hRelative, String.toList_eq_nil_iff.mp hEmpty]
  · rw [List.concat_eq_append] at hText
    by_cases hSlash : last = '/'
    · refine ⟨before ++ ['/'], ?_, Or.inr ⟨before, rfl⟩⟩
      simp [join, hRelative, hText, hSlash]
    · refine
        ⟨p.text.toList ++ ['/'], ?_,
          Or.inr ⟨p.text.toList, rfl⟩⟩
      simp [join, hRelative, hText]

/- A path ends as the relative path that is joined to it. -/
theorem isTrimmed_join
    (p : Path)
    (hRelative : q.isAbsolute = false)
    (hTrimmed : q.IsTrimmed) :
    (p.join q).IsTrimmed := by
  rcases exists_text_join p hRelative with
    ⟨front, hText, rfl | ⟨before, rfl⟩⟩
  · rw [IsTrimmed, hText]
    exact hTrimmed
  · rw [List.append_assoc] at hText
    exact isTrimmed_of_text_eq hText hTrimmed

theorem isTrimmed_of_isPlain
    {c : Component}
    (hPlain : c.IsPlain) :
    (⟨c.text⟩ : Path).IsTrimmed := by
  cases c with
  | root => exact hPlain.elim
  | here => exact hPlain.elim
  | up => exact ⟨['.', '.'], rfl, rfl⟩
  | name text =>
      refine ⟨text.toList, ?_, ?_⟩
      · rw [Component.text, splitSlash_of_not_mem hPlain.2]
        rfl
      · rw [hPlain.1]
        rfl

/- A path that is written as its names are ends in the last one. -/
theorem isTrimmed_of_names
    (hSpelled : p = ofComponents p.components)
    (hNames : AreNames p.components)
    (hNonempty : p.components ≠ []) :
    p.IsTrimmed := by
  rcases List.eq_nil_or_concat p.components with
    hEmpty | ⟨before, last, hLast⟩
  · exact absurd hEmpty hNonempty
  · rw [List.concat_eq_append] at hLast
    rcases hNames last (by simp [hLast]) with ⟨text, rfl, hPlain⟩
    rw [hSpelled, hLast, ofComponents_append]
    exact
      isTrimmed_join _ (components_of_isPlain hPlain).1
        (isTrimmed_of_isPlain hPlain)

/- A path that is written from parts ends in the last of them. -/
theorem isTrimmed_ofParts
    {lead part : List Char}
    {before : List (List Char)}
    (hWritten : Written lead (before ++ [part]))
    (hSome : (component? part).isSome = true) :
    (ofParts lead (before ++ [part])).IsTrimmed := by
  have hNonempty : before ++ [part] ≠ [] := by simp
  have hSplit := splitSlash_intercalate hWritten.not_mem hNonempty
  refine ⟨part, ?_, hSome⟩
  rcases hWritten.lead_eq with rfl | rfl | rfl
  · have hText :
        (ofParts ['/'] (before ++ [part])).text.toList =
          '/' :: ['/'].intercalate (before ++ [part]) := by
      simp [ofParts]
    rw [hText, splitSlash, if_pos rfl, hSplit,
      List.getLast?_cons, List.getLast?_concat]
    rfl
  · have hText :
        (ofParts ['.'] (before ++ [part])).text.toList =
          ['.'] ++ '/' :: ['/'].intercalate (before ++ [part]) := by
      simp [ofParts]
    rw [hText, splitSlash_append, hSplit, ← List.append_assoc,
      List.getLast?_concat]
  · have hText :
        (ofParts [] (before ++ [part])).text.toList =
          ['/'].intercalate (before ++ [part]) := by
      simp [ofParts]
    rw [hText, hSplit, List.getLast?_concat]

/- How the parent of a path ends, if it does not only begin. -/
theorem parent?_cases
    {directory : Path}
    (hParent : p.parent? = some directory) :
    directory.IsTrimmed ∨ directory.text = "" ∨
      directory.text = "/" ∨ directory.text = "." := by
  rcases p.written_leadAndParts with ⟨hWritten, -⟩
  unfold parent? at hParent
  generalize p.leadAndParts = taken at hParent hWritten
  rcases taken with ⟨lead, parts⟩
  simp only at hParent hWritten
  rcases List.eq_nil_or_concat (trimParts parts) with
    hNone | ⟨before, last, hParts⟩
  · rw [hNone] at hParent
    simp only [List.reverse_nil] at hParent
    split at hParent
    · cases hParent
      exact Or.inr (Or.inl rfl)
    · cases hParent
  · rw [List.concat_eq_append] at hParts
    rw [hParts, List.reverse_append] at hParent
    simp only [List.reverse_cons, List.reverse_nil,
      List.nil_append, List.singleton_append,
      List.reverse_reverse, Option.some.injEq] at hParent
    rw [hParts] at hWritten
    have hBefore : Written lead (trimParts before) :=
      hWritten.of_prefix
        ((isPrefix_trimParts before).trans
          (List.prefix_append before [last]))
    rw [← hParent]
    rcases List.eq_nil_or_concat (trimParts before) with
      hEmpty | ⟨front, part, hFront⟩
    · right
      rw [hEmpty]
      rcases hBefore.lead_eq with rfl | rfl | rfl
      · exact Or.inr (Or.inl rfl)
      · exact Or.inr (Or.inr rfl)
      · exact Or.inl rfl
    · rw [List.concat_eq_append] at hFront
      have hSome := isSome_of_trimParts_eq hFront
      rw [hFront] at hBefore ⊢
      exact Or.inl (isTrimmed_ofParts hBefore hSome)

/- A parent that has a name at its end ends in it. -/
theorem isTrimmed_of_parent?
    {directory : Path}
    {name : String}
    (hParent : p.parent? = some directory)
    (hName : directory.components = cs ++ [.name name]) :
    directory.IsTrimmed := by
  have hLast : .name name ∈ directory.components := by
    simp [hName]
  rcases parent?_cases hParent with
    hTrimmed | hText | hText | hText
  · exact hTrimmed
  all_goals
    rw [components, hText] at hLast
    revert hLast
    simp [componentsOf, splitSlash, component?]

/- A path with a name at its end has a parent. -/
theorem exists_parent?
    {name : String}
    (hName : p.components = cs ++ [.name name]) :
    ∃ directory, p.parent? = some directory := by
  have hLast : .name name ∈ p.components := by
    simp [hName]
  rcases p.written_leadAndParts with ⟨-, hComponents⟩
  rw [hComponents, ← filterMap_trimParts] at hLast
  unfold parent?
  generalize p.leadAndParts = taken at hLast ⊢
  rcases taken with ⟨lead, parts⟩
  simp only at hLast ⊢
  rcases List.eq_nil_or_concat (trimParts parts) with
    hNone | ⟨before, last, hParts⟩
  · rw [hNone, List.filterMap_nil, List.append_nil] at hLast
    unfold leadComponents at hLast
    split_ifs at hLast <;> simp at hLast
  · rw [hParts]
    simp

end Path

end Variability
