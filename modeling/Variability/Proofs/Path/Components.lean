import Variability.Dict
import Variability.Path
import Mathlib.Data.List.Basic

/-
  Components of built paths.

  A path has the components that its text begins with and those of
  its parts between slashes. So joining a relative path appends its
  components, the components of a normal path are those that it was
  written from, and normal paths are their own normal forms.

  Main declarations:
    * `Path.components_join`
    * `Path.IsStack`
    * `Path.components_normalize`
    * `Path.normalize_normalize`
    * `Path.compare_eq_iff`
-/

namespace Variability

/- A component that is written between slashes. -/
def Component.IsPlain : Component → Prop
  | .root => False
  | .here => False
  | .up => True
  | .name text =>
      Path.component? text.toList = some (.name text) ∧
        '/' ∉ text.toList

theorem Component.compare_eq_iff
    (c d : Component) :
    c.compare d = .eq ↔ c = d := by
  cases c <;> cases d <;> simp [Component.compare, Component.rank]

namespace Path

variable {p q : Path}
variable {s t : List Char}
variable {c : Component}
variable {cs stack : List Component}

------------------------------------------------------------
-- Parts between Slashes
------------------------------------------------------------

theorem splitSlash_ne_nil
    (s : List Char) :
    splitSlash s ≠ [] := by
  cases s with
  | nil => simp [splitSlash]
  | cons c s =>
      unfold splitSlash
      split
      · simp
      · split <;> simp

theorem exists_splitSlash_eq
    (s : List Char) :
    ∃ part parts, splitSlash s = part :: parts :=
  List.exists_cons_of_ne_nil (splitSlash_ne_nil s)

theorem splitSlash_cons
    {c : Char}
    (hc : c ≠ '/')
    (s : List Char) :
    splitSlash (c :: s) =
      (splitSlash s).modifyHead (c :: ·) := by
  rcases exists_splitSlash_eq s with ⟨part, parts, hParts⟩
  rw [splitSlash, if_neg hc, hParts]
  rfl

theorem splitSlash_append
    (s t : List Char) :
    splitSlash (s ++ '/' :: t) =
      splitSlash s ++ splitSlash t := by
  induction s with
  | nil => simp [splitSlash]
  | cons c s ih =>
      by_cases hc : c = '/'
      · simp [splitSlash, hc, ih]
      · rcases exists_splitSlash_eq s with ⟨part, parts, hParts⟩
        rw [List.cons_append, splitSlash_cons hc,
          splitSlash_cons hc, ih, hParts]
        rfl

theorem splitSlash_of_not_mem
    (hSlash : '/' ∉ s) :
    splitSlash s = [s] := by
  induction s with
  | nil => rfl
  | cons c s ih =>
      rw [List.mem_cons, not_or] at hSlash
      rw [splitSlash_cons (Ne.symm hSlash.1), ih hSlash.2]
      rfl

theorem not_mem_of_mem_splitSlash
    {part : List Char}
    (hPart : part ∈ splitSlash s) :
    '/' ∉ part := by
  induction s generalizing part with
  | nil =>
      rw [List.mem_singleton.mp hPart]
      exact List.not_mem_nil
  | cons c s ih =>
      by_cases hc : c = '/'
      · rw [splitSlash, if_pos hc] at hPart
        rcases List.mem_cons.mp hPart with rfl | hPart
        · exact List.not_mem_nil
        · exact ih hPart
      · rcases exists_splitSlash_eq s with ⟨first, parts, hParts⟩
        rw [splitSlash_cons hc, hParts] at hPart
        rw [hParts] at ih
        rcases List.mem_cons.mp hPart with rfl | hPart
        · intro hMem
          rcases List.mem_cons.mp hMem with hEq | hMem
          · exact hc hEq.symm
          · exact ih List.mem_cons_self hMem
        · exact ih (List.mem_cons_of_mem first hPart)

------------------------------------------------------------
-- Leads and Names
------------------------------------------------------------

/- What a text begins with: the root, the same place, or neither. -/
def leadOf (s : List Char) : List Component :=
  if s.head? = some '/' then
    [.root]
  else if (splitSlash s).head? = some ['.'] then
    [.here]
  else
    []

/- The components of the parts between slashes. -/
def partsOf (s : List Char) : List Component :=
  (splitSlash s).filterMap component?

theorem componentsOf_eq
    (s : List Char) :
    componentsOf s = leadOf s ++ partsOf s := by
  unfold componentsOf
  split
  · rename_i rest
    have hNone : component? [] = none := rfl
    have hLead : leadOf ('/' :: rest) = [.root] := if_pos rfl
    rw [hLead, partsOf, splitSlash, if_pos rfl,
      List.filterMap_cons_none hNone]
    rfl
  · rename_i hRelative
    have hHead : s.head? ≠ some '/' := by
      intro hHead
      cases s with
      | nil => cases hHead
      | cons c s =>
          cases hHead
          exact hRelative s rfl
    rw [leadOf, if_neg hHead, partsOf]
    split
    · rename_i parts hParts
      simp [hParts, component?]
    · rename_i hParts
      have hFirst : (splitSlash s).head? ≠ some ['.'] := by
        intro hFirst
        rcases List.head?_eq_some_iff.mp hFirst with
          ⟨parts, hSplit⟩
        exact hParts parts hSplit
      rw [if_neg hFirst, List.nil_append]

/- What stands behind a slash does not change how a text begins. -/
theorem leadOf_append
    (hText : s ≠ [])
    (t : List Char) :
    leadOf (s ++ '/' :: t) = leadOf s := by
  have hHead : (s ++ '/' :: t).head? = s.head? :=
    List.head?_append_of_ne_nil s hText
  have hFirst :
      (splitSlash s ++ splitSlash t).head? =
        (splitSlash s).head? :=
    List.head?_append_of_ne_nil _ (splitSlash_ne_nil s)
  rw [leadOf, leadOf, splitSlash_append, hHead, hFirst]

theorem partsOf_append
    (s t : List Char) :
    partsOf (s ++ '/' :: t) = partsOf s ++ partsOf t := by
  rw [partsOf, splitSlash_append, List.filterMap_append]
  rfl

/- The components of a text between two slashes are one or none. -/
theorem isPlain_of_component?_eq
    (hSlash : '/' ∉ s)
    (hComponent : component? s = some c) :
    c.IsPlain := by
  unfold component? at hComponent
  split at hComponent
  · cases hComponent
  · cases hComponent
  · cases hComponent
    trivial
  · rename_i hEmpty hHere hUp
    cases hComponent
    refine ⟨?_, by simpa using hSlash⟩
    rw [String.toList_ofList]
    unfold component?
    split
    · exact absurd rfl hEmpty
    · exact absurd rfl hHere
    · exact absurd rfl hUp
    · rfl

theorem isPlain_of_mem_partsOf
    (hMem : c ∈ partsOf s) :
    c.IsPlain := by
  rcases List.mem_filterMap.mp hMem with
    ⟨part, hPart, hComponent⟩
  exact
    isPlain_of_component?_eq
      (not_mem_of_mem_splitSlash hPart) hComponent

/- A path is absolute if its components begin with the root. -/
theorem isAbsolute_iff
    (p : Path) :
    p.isAbsolute = true ↔ p.components.head? = some .root := by
  rw [isAbsolute, beq_iff_eq, components, componentsOf_eq,
    leadOf]
  split
  · simp_all
  · rename_i hRelative
    simp only [hRelative, false_iff]
    split
    · simp
    · rw [List.nil_append]
      intro hRoot
      have hMem : Component.root ∈ partsOf p.text.toList :=
        List.mem_of_head? hRoot
      exact isPlain_of_mem_partsOf hMem

/- What is left of a relative path that begins with a part. -/
theorem leadOf_eq_nil
    (hRelative : q.isAbsolute = false)
    (hHere : q.components.head? ≠ some .here) :
    leadOf q.text.toList = [] := by
  rw [components, componentsOf_eq] at hHere
  rw [isAbsolute, beq_eq_false_iff_ne] at hRelative
  unfold leadOf at hHere ⊢
  rw [if_neg hRelative] at hHere ⊢
  split
  · rename_i hFirst
    rw [if_pos hFirst] at hHere
    exact absurd rfl hHere
  · rfl

/- A relative path begins with a part, or with the same place. -/
theorem components_eq_partsOf_or
    (hRelative : q.isAbsolute = false) :
    q.components = partsOf q.text.toList ∨
      q.components = .here :: partsOf q.text.toList := by
  rw [isAbsolute, beq_eq_false_iff_ne] at hRelative
  rw [components, componentsOf_eq, leadOf, if_neg hRelative]
  split
  · exact Or.inr rfl
  · exact Or.inl rfl

/- What a text begins with before a slash does not count behind it. -/
theorem leadOf_append_slash
    (s t : List Char) :
    leadOf (s ++ '/' :: t) = leadOf (s ++ ['/']) := by
  cases s with
  | nil => rfl
  | cons c s =>
      rw [leadOf_append (List.cons_ne_nil c s),
        leadOf_append (List.cons_ne_nil c s)]

/- A relative path that is joined to a text adds its parts. -/
theorem components_join_parts
    (hText : p.text.toList ≠ [])
    (hRelative : q.isAbsolute = false) :
    (p.join q).components =
      p.components ++ partsOf q.text.toList := by
  have hNone : partsOf ([] : List Char) = [] := rfl
  rcases List.eq_nil_or_concat p.text.toList with
    hEmpty | ⟨before, last, hLast⟩
  · exact absurd hEmpty hText
  rw [List.concat_eq_append] at hLast
  by_cases hSlash : last = '/'
  · have hJoined :
        (p.join q).text.toList = before ++ '/' :: q.text.toList := by
      simp [join, hRelative, hLast, hSlash]
    rw [components, components, hJoined, hLast, hSlash,
      componentsOf_eq, componentsOf_eq, leadOf_append_slash,
      partsOf_append, partsOf_append, hNone, List.append_nil,
      List.append_assoc]
  · have hJoined :
        (p.join q).text.toList =
          p.text.toList ++ '/' :: q.text.toList := by
      simp [join, hRelative, hLast]
    rw [components, components, hJoined, componentsOf_eq,
      leadOf_append hText, partsOf_append, componentsOf_eq,
      List.append_assoc]

/- Joining a path appends its components. -/
theorem components_join
    (p : Path)
    (hRelative : q.isAbsolute = false)
    (hHere : q.components.head? ≠ some .here) :
    (p.join q).components = p.components ++ q.components := by
  have hParts : q.components = partsOf q.text.toList := by
    rw [components, componentsOf_eq, leadOf_eq_nil hRelative hHere,
      List.nil_append]
  by_cases hText : p.text.toList = []
  · have hEmpty : p.components = [] := by
      rw [components, hText]
      rfl
    have hJoined : p.join q = q := by
      rw [String.toList_eq_nil_iff] at hText
      simp [join, hRelative, hText]
    rw [hJoined, hEmpty, List.nil_append]
  · rw [components_join_parts hText hRelative, hParts]

------------------------------------------------------------
-- Normal Paths
------------------------------------------------------------

/-
  The components of a normal path, last first: names behind
  nothing, behind the root or behind steps up.
-/
def IsStack : List Component → Prop
  | [] => True
  | .root :: rest => rest = []
  | .here :: _ => False
  | .up :: rest => ∀ c ∈ rest, c = .up
  | .name text :: rest =>
      (Component.name text).IsPlain ∧ IsStack rest

/- Components in the order and the form of a normal path. -/
structure IsNormal (cs : List Component) : Prop where
  isStack : IsStack cs.reverse

theorem IsStack.of_all_up
    (hUp : ∀ c ∈ stack, c = .up) :
    IsStack stack := by
  cases stack with
  | nil => trivial
  | cons c rest =>
      rw [hUp c List.mem_cons_self]
      exact fun d hd => hUp d (List.mem_cons_of_mem c hd)

theorem IsStack.tail
    (hStack : IsStack (c :: stack)) :
    IsStack stack := by
  cases c with
  | root =>
      have hNone : stack = [] := hStack
      rw [hNone]
      trivial
  | here => exact hStack.elim
  | up => exact .of_all_up hStack
  | name text => exact hStack.2

/- Components may follow: the root comes first, `.` may come anywhere. -/
def Follows (stack : List Component) (c : Component) : Prop :=
  c.IsPlain ∨ c = .here ∨ c = .root ∧ stack = []

theorem IsStack.pushComponent
    (hStack : IsStack stack)
    (hFollows : Follows stack c) :
    IsStack (Path.pushComponent stack c) := by
  rcases hFollows with hPlain | rfl | ⟨rfl, rfl⟩
  · cases c with
    | root => exact hPlain.elim
    | here => exact hPlain.elim
    | name text =>
        cases stack <;> exact ⟨hPlain, hStack⟩
    | up =>
        cases stack with
        | nil => simp [Path.pushComponent, IsStack]
        | cons d rest =>
            cases d with
            | root => exact hStack
            | here => exact hStack.elim
            | up =>
                intro e he
                rcases List.mem_cons.mp he with rfl | he
                · rfl
                · exact hStack e he
            | name text => exact hStack.2
  · cases stack <;> exact hStack
  · rfl

/- Pushing the components of a path leaves those of a normal one. -/
theorem isStack_foldl
    {stack : List Component}
    (hStack : IsStack stack)
    (hPlain : ∀ c ∈ cs, c.IsPlain) :
    IsStack (cs.foldl pushComponent stack) := by
  induction cs generalizing stack with
  | nil => exact hStack
  | cons c cs ih =>
      have hHere := hPlain c List.mem_cons_self
      exact
        ih (hStack.pushComponent (Or.inl hHere))
          fun d hd => hPlain d (List.mem_cons_of_mem c hd)

theorem isNormal_normalizeComponents (p : Path) :
    IsNormal (normalizeComponents p.components) := by
  constructor
  rw [normalizeComponents, List.reverse_reverse,
    components, componentsOf_eq, List.foldl_append]
  apply isStack_foldl _ fun c hMem => isPlain_of_mem_partsOf hMem
  unfold leadOf
  split
  · rfl
  split
  · trivial
  · trivial

/- The components of a normal path are pushed one upon the other. -/
theorem foldl_pushComponent
    (hStack : IsStack stack) :
    stack.reverse.foldl pushComponent [] = stack := by
  induction stack with
  | nil => rfl
  | cons c rest ih =>
      rw [List.reverse_cons, List.foldl_append,
        ih hStack.tail]
      cases c with
      | root =>
          have hNone : rest = [] := hStack
          rw [hNone]
          rfl
      | here => exact hStack.elim
      | name text => cases rest <;> rfl
      | up =>
          cases rest with
          | nil => rfl
          | cons d rest =>
              have hUp : d = .up := hStack d List.mem_cons_self
              rw [hUp]
              rfl

theorem normalizeComponents_eq
    (hNormal : IsNormal cs) :
    normalizeComponents cs = cs := by
  have hPushed := foldl_pushComponent hNormal.isStack
  rw [List.reverse_reverse] at hPushed
  rw [normalizeComponents, hPushed, List.reverse_reverse]

------------------------------------------------------------
-- Written Paths
------------------------------------------------------------

/- A plain component is the only one of its text. -/
theorem components_of_isPlain
    (hPlain : c.IsPlain) :
    (⟨c.text⟩ : Path).isAbsolute = false ∧
      (⟨c.text⟩ : Path).components = [c] := by
  cases c with
  | root => exact hPlain.elim
  | here => exact hPlain.elim
  | up => decide
  | name text =>
      rcases hPlain with ⟨hComponent, hSlash⟩
      have hParts : partsOf text.toList = [.name text] := by
        simp [partsOf, splitSlash_of_not_mem hSlash, hComponent]
      have hRoot : text.toList.head? ≠ some '/' := fun hHead =>
        hSlash (List.mem_of_head? hHead)
      have hHere : text.toList ≠ ['.'] := by
        intro hText
        rw [hText] at hComponent
        cases hComponent
      have hLead : leadOf text.toList = [] := by
        simp [leadOf, hRoot, splitSlash_of_not_mem hSlash,
          hHere]
      refine ⟨by simpa [isAbsolute, Component.text], ?_⟩
      rw [components, Component.text, componentsOf_eq, hLead,
        hParts, List.nil_append]

theorem ofComponents_append
    (cs : List Component)
    (c : Component) :
    ofComponents (cs ++ [c]) =
      (ofComponents cs).join ⟨c.text⟩ := by
  rw [ofComponents, List.foldl_append]
  rfl

/- A plain component is written behind the others. -/
theorem components_join_of_isPlain
    (p : Path)
    (hPlain : c.IsPlain) :
    (p.join ⟨c.text⟩).components = p.components ++ [c] := by
  rcases components_of_isPlain hPlain with
    ⟨hRelative, hComponents⟩
  rw [components_join p hRelative, hComponents]
  rw [hComponents]
  rintro ⟨⟩
  exact hPlain

theorem components_join_name
    (p : Path)
    {text : String}
    (hPlain : (Component.name text).IsPlain) :
    (p.join ⟨text⟩).components =
      p.components ++ [.name text] := by
  have hJoin := components_join_of_isPlain p hPlain
  exact hJoin

/- The components of a normal path are those it was written from. -/
theorem components_ofComponents
    (hNormal : IsNormal cs) :
    (ofComponents cs).components = cs := by
  suffices hEvery : ∀ stack, IsStack stack →
      (ofComponents stack.reverse).components =
        stack.reverse by
    simpa using hEvery cs.reverse hNormal.isStack
  intro stack hStack
  induction stack with
  | nil => decide
  | cons c rest ih =>
      have hRest := ih hStack.tail
      rw [List.reverse_cons, ofComponents_append]
      cases c with
      | root =>
          have hNone : rest = [] := hStack
          rw [hNone]
          decide
      | here => exact hStack.elim
      | up =>
          have hPlain : Component.up.IsPlain := trivial
          rw [components_join_of_isPlain _ hPlain, hRest]
      | name text =>
          rw [components_join_of_isPlain _ hStack.1, hRest]

theorem components_normalize (p : Path) :
    p.normalize.components =
      normalizeComponents p.components :=
  components_ofComponents (isNormal_normalizeComponents p)

theorem isNormal_components_normalize (p : Path) :
    IsNormal p.normalize.components := by
  rw [components_normalize]
  exact isNormal_normalizeComponents p

/- A path is normal if it is its own normal form. -/
theorem isNormal_of_normalize_eq
    (hSelf : p.normalize = p) :
    IsNormal p.components :=
  hSelf ▸ p.isNormal_components_normalize

theorem components_normalize_eq
    (hNormal : IsNormal p.components) :
    p.normalize.components = p.components := by
  rw [components_normalize, normalizeComponents_eq hNormal]

/- A normal form is its own normal form. -/
theorem normalize_normalize (p : Path) :
    p.normalize.normalize = p.normalize := by
  rw [normalize, components_normalize,
    normalizeComponents_eq (isNormal_normalizeComponents p)]
  rfl

------------------------------------------------------------
-- Orders
------------------------------------------------------------

theorem compareComponents_eq_iff
    (cs ds : List Component) :
    compareComponents cs ds = .eq ↔ cs = ds := by
  induction cs generalizing ds with
  | nil => cases ds <;> simp [compareComponents]
  | cons c cs ih =>
      cases ds with
      | nil => simp [compareComponents]
      | cons d ds =>
          rw [compareComponents, List.cons_eq_cons,
            ← Component.compare_eq_iff, ← ih]
          cases c.compare d <;> simp

/- Paths that compare as equal have the same components. -/
theorem compare_eq_iff
    (p q : Path) :
    Ord.compare p q = .eq ↔ p.components = q.components :=
  compareComponents_eq_iff p.components q.components

theorem find?_singleton
    {ν : Type}
    (p : Path)
    (value : ν) :
    Dict.find? p [(p, value)] = some value := by
  simp [Dict.find?, compare_eq_iff]

/- What is found in a map depends on the components of the key. -/
theorem find?_congr
    {ν : Type}
    (hComponents : p.components = q.components)
    (d : Dict Path ν) :
    Dict.find? p d = Dict.find? q d := by
  have hCompare (r : Path) : Ord.compare p r = Ord.compare q r :=
    congrArg (compareComponents · r.components) hComponents
  simp only [Dict.find?, hCompare]

end Path

end Variability
