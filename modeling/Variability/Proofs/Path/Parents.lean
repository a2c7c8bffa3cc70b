import Variability.Proofs.Path.Components
import Mathlib.Data.List.Induction

/-
  Parents of paths.

  A path is taken apart into what it begins with and the parts
  between its slashes, and its parent is written from all of them
  but the last one that is a component.

  Main declarations:
    * `Path.Written`
    * `Path.components_ofParts`
    * `Path.components_parent?`
-/

namespace Variability

namespace Path

variable {p : Path}
variable {s : List Char}
variable {lead : List Char}
variable {parts : List (List Char)}

theorem splitSlash_intercalate
    (hSlash : ∀ part ∈ parts, '/' ∉ part)
    (hNonempty : parts ≠ []) :
    splitSlash (['/'].intercalate parts) = parts := by
  induction parts with
  | nil => exact absurd rfl hNonempty
  | cons part parts ih =>
      have hHere := hSlash part List.mem_cons_self
      cases parts with
      | nil => simp [List.intercalate, splitSlash_of_not_mem hHere]
      | cons next parts =>
          have hRest :
              ['/'].intercalate (part :: next :: parts) =
                part ++ '/' ::
                  ['/'].intercalate (next :: parts) := by
            simp [List.intercalate]
          rw [hRest, splitSlash_append,
            splitSlash_of_not_mem hHere,
            ih (fun p hp => hSlash p (List.mem_cons_of_mem _ hp))
              (List.cons_ne_nil next parts)]
          rfl

theorem partsOf_intercalate
    (hSlash : ∀ part ∈ parts, '/' ∉ part) :
    partsOf (['/'].intercalate parts) =
      parts.filterMap component? := by
  cases parts with
  | nil => rfl
  | cons part parts =>
      rw [partsOf,
        splitSlash_intercalate hSlash (List.cons_ne_nil _ _)]

/- The component that a written lead stands for. -/
def leadComponents (lead : List Char) : List Component :=
  if lead = ['/'] then
    [.root]
  else if lead = ['.'] then
    [.here]
  else
    []

/-
  A lead with the parts that may follow it: those behind nothing
  begin with a part that is no lead.
-/
structure Written
    (lead : List Char)
    (parts : List (List Char)) : Prop where
  lead_eq : lead = ['/'] ∨ lead = ['.'] ∨ lead = []
  not_mem : ∀ part ∈ parts, '/' ∉ part
  first_ne :
    lead = [] → ∀ part ∈ parts.head?, part ≠ [] ∧ part ≠ ['.']

theorem Written.of_prefix
    {parts' : List (List Char)}
    (hWritten : Written lead parts)
    (hPrefix : parts' <+: parts) :
    Written lead parts' where
  lead_eq := hWritten.lead_eq
  not_mem := fun part hPart =>
    hWritten.not_mem part (hPrefix.subset hPart)
  first_ne := fun hLead part hPart => by
    rcases hPrefix with ⟨rest, rfl⟩
    exact
      hWritten.first_ne hLead part
        (List.mem_head?_append_of_mem_head? hPart)

theorem components_ofParts
    (hWritten : Written lead parts) :
    (ofParts lead parts).components =
      leadComponents lead ++ parts.filterMap component? := by
  rcases hWritten with ⟨rfl | rfl | rfl, hSlash, hFirst⟩
  · have hText :
        (ofParts ['/'] parts).text.toList =
          '/' :: ['/'].intercalate parts := by
      simp [ofParts]
    rw [components, hText, ← partsOf_intercalate hSlash]
    rfl
  · cases parts with
    | nil => rfl
    | cons part rest =>
        have hText :
            (ofParts ['.'] (part :: rest)).text.toList =
              ['.'] ++ '/' ::
                ['/'].intercalate (part :: rest) := by
          simp [ofParts]
        rw [components, hText, componentsOf_eq,
          leadOf_append (List.cons_ne_nil _ _),
          partsOf_append, partsOf_intercalate hSlash]
        rfl
  · have hText :
        (ofParts [] parts).text.toList =
          ['/'].intercalate parts := by
      simp [ofParts]
    have hLead : leadOf (['/'].intercalate parts) = [] := by
      cases parts with
      | nil => rfl
      | cons part rest =>
          rcases hFirst rfl part rfl with ⟨hEmpty, hHere⟩
          have hRoot :
              (['/'].intercalate (part :: rest)).head? ≠
                some '/' := by
            cases part with
            | nil => exact absurd rfl hEmpty
            | cons d part =>
                have hMem := hSlash _ List.mem_cons_self
                rw [List.mem_cons, not_or] at hMem
                cases rest <;>
                  simpa [List.intercalate] using Ne.symm hMem.1
          rw [leadOf, if_neg hRoot,
            splitSlash_intercalate hSlash (List.cons_ne_nil _ _),
            if_neg (by simpa using hHere)]
    rw [components, hText, componentsOf_eq, hLead,
      partsOf_intercalate hSlash]
    rfl

/- The last part is kept if and only if it is a component. -/
theorem trimParts_concat
    (parts : List (List Char))
    (part : List Char) :
    trimParts (parts ++ [part]) =
      if (component? part).isNone then
        trimParts parts
      else
        parts ++ [part] := by
  unfold trimParts
  rw [List.reverse_append, List.reverse_singleton,
    List.singleton_append, List.dropWhile_cons]
  split <;> simp

theorem isPrefix_trimParts
    (parts : List (List Char)) :
    trimParts parts <+: parts := by
  induction parts using List.reverseRecOn with
  | nil => exact List.prefix_refl []
  | append_singleton parts part ih =>
      rw [trimParts_concat]
      split
      · exact ih.trans (List.prefix_append parts [part])
      · exact List.prefix_refl _

theorem filterMap_trimParts
    (parts : List (List Char)) :
    (trimParts parts).filterMap component? =
      parts.filterMap component? := by
  induction parts using List.reverseRecOn with
  | nil => rfl
  | append_singleton parts part ih =>
      rw [trimParts_concat]
      split
      · rename_i hNone
        rw [ih, List.filterMap_append]
        simp [Option.isNone_iff_eq_none.mp hNone]
      · rfl

/- What is left of the parts ends in a component. -/
theorem isSome_of_trimParts_eq
    {before : List (List Char)}
    {part : List Char}
    (hParts : trimParts parts = before ++ [part]) :
    (component? part).isSome = true := by
  induction parts using List.reverseRecOn with
  | nil => simp [trimParts] at hParts
  | append_singleton rest last ih =>
      rw [trimParts_concat] at hParts
      split at hParts
      · exact ih hParts
      · rename_i hSome
        have hLast := (List.append_inj' hParts rfl).2
        rw [← (List.cons.inj hLast).1]
        simpa [Option.isSome_iff_ne_none] using hSome

/- A text behind no slash begins with a part that is not empty. -/
theorem ne_nil_of_mem_head?_splitSlash
    {part : List Char}
    (hText : s ≠ [])
    (hRoot : s.head? ≠ some '/')
    (hPart : part ∈ (splitSlash s).head?) :
    part ≠ [] := by
  cases s with
  | nil => exact absurd rfl hText
  | cons c s =>
      have hc : c ≠ '/' := by simpa using hRoot
      rcases exists_splitSlash_eq s with ⟨first, rest, hParts⟩
      rw [splitSlash_cons hc, hParts] at hPart
      simp only [List.modifyHead_cons, List.head?_cons,
        Option.mem_def, Option.some.injEq] at hPart
      rw [← hPart]
      exact List.cons_ne_nil _ _

/- How a path is taken apart: at the root, at `.`, or at nothing. -/
theorem leadAndParts_cases (p : Path) :
    (∃ rest, p.text.toList = '/' :: rest ∧
        p.leadAndParts = (['/'], splitSlash rest)) ∨
      (∃ parts, splitSlash p.text.toList = ['.'] :: parts ∧
        p.leadAndParts = (['.'], parts)) ∨
      p.text.toList.head? ≠ some '/' ∧
        (splitSlash p.text.toList).head? ≠ some ['.'] ∧
        p.leadAndParts = ([], splitSlash p.text.toList) := by
  unfold leadAndParts
  split
  · rename_i rest hText
    exact Or.inl ⟨rest, hText, rfl⟩
  rename_i hRelative
  right
  split
  · rename_i parts hParts
    exact Or.inl ⟨parts, hParts, rfl⟩
  rename_i hParts
  refine Or.inr ⟨?_, ?_, rfl⟩
  · intro hHead
    rcases List.head?_eq_some_iff.mp hHead with ⟨rest, hRest⟩
    exact hRelative rest hRest
  · intro hHead
    rcases List.head?_eq_some_iff.mp hHead with ⟨parts, hSplit⟩
    exact hParts parts hSplit

theorem written_leadAndParts (p : Path) :
    Written p.leadAndParts.1 (trimParts p.leadAndParts.2) ∧
      p.components =
        leadComponents p.leadAndParts.1 ++
          p.leadAndParts.2.filterMap component? := by
  rw [components]
  rcases p.leadAndParts_cases with
    ⟨rest, hText, hTaken⟩ | ⟨parts, hSplit, hTaken⟩ |
      ⟨hRoot, hHere, hTaken⟩
  · rw [hTaken, hText]
    have hLead : ['/'] ≠ [] := List.cons_ne_nil _ _
    refine ⟨⟨Or.inl rfl, ?_, fun hNone => absurd hNone hLead⟩, rfl⟩
    intro part hPart
    exact
      not_mem_of_mem_splitSlash
        ((isPrefix_trimParts _).subset hPart)
  · have hText : p.text.toList.head? ≠ some '/' := by
      intro hHead
      rcases List.head?_eq_some_iff.mp hHead with ⟨rest, hRest⟩
      rw [hRest] at hSplit
      simp [splitSlash] at hSplit
    rw [hTaken, componentsOf_eq, leadOf, if_neg hText, partsOf,
      hSplit]
    have hLead : ['.'] ≠ [] := List.cons_ne_nil _ _
    refine
      ⟨⟨Or.inr (Or.inl rfl), ?_,
        fun hNone => absurd hNone hLead⟩, rfl⟩
    intro part hPart
    apply not_mem_of_mem_splitSlash
    rw [hSplit]
    exact
      List.mem_cons_of_mem _ ((isPrefix_trimParts _).subset hPart)
  · rw [hTaken, componentsOf_eq, leadOf, if_neg hRoot,
      if_neg hHere]
    refine ⟨⟨Or.inr (Or.inr rfl), ?_, ?_⟩, rfl⟩
    · intro part hPart
      exact
        not_mem_of_mem_splitSlash
          ((isPrefix_trimParts _).subset hPart)
    · intro _ part hPart
      rcases isPrefix_trimParts (splitSlash p.text.toList) with
        ⟨rest, hRest⟩
      have hFirst : part ∈ (splitSlash p.text.toList).head? := by
        rw [← hRest]
        exact List.mem_head?_append_of_mem_head? hPart
      have hText : p.text.toList ≠ [] := by
        intro hEmpty
        rw [hEmpty] at hPart
        cases hPart
      refine
        ⟨ne_nil_of_mem_head?_splitSlash hText hRoot hFirst, ?_⟩
      rintro rfl
      exact hHere hFirst

/- The parent of a path lacks its last component. -/
theorem components_parent?
    {directory : Path}
    (hParent : p.parent? = some directory) :
    directory.components = p.components.dropLast := by
  rcases p.written_leadAndParts with ⟨hWritten, hComponents⟩
  unfold parent? at hParent
  rw [hComponents, ← filterMap_trimParts]
  generalize p.leadAndParts = taken at hParent hWritten ⊢
  rcases taken with ⟨lead, parts⟩
  simp only at hParent hWritten ⊢
  rcases List.eq_nil_or_concat (trimParts parts) with
    hNone | ⟨before, last, hParts⟩
  · rw [hNone] at hParent ⊢
    simp only [List.reverse_nil] at hParent
    split at hParent
    · rename_i hHere
      cases hParent
      rw [hHere]
      rfl
    · cases hParent
  · rw [List.concat_eq_append] at hParts
    rw [hParts, List.reverse_append] at hParent
    simp only [List.reverse_cons, List.reverse_nil,
      List.nil_append, List.singleton_append,
      List.reverse_reverse, Option.some.injEq] at hParent
    rcases
        Option.isSome_iff_exists.mp
          (isSome_of_trimParts_eq hParts) with
      ⟨c, hc⟩
    rw [hParts] at hWritten
    have hBefore : Written lead (trimParts before) :=
      hWritten.of_prefix
        ((isPrefix_trimParts before).trans
          (List.prefix_append before [last]))
    rw [← hParent, components_ofParts hBefore, hParts,
      filterMap_trimParts, List.filterMap_append,
      List.filterMap_cons_some hc, List.filterMap_nil,
      ← List.append_assoc, List.dropLast_concat]

end Path

end Variability
