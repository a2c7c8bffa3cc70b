import Variability.Proofs.Path.Locations

/-
  The places that paths lead to.

  A path is walked component by component, from the place of the
  directory that it is seen from. Its normal form leads to the same
  place, and two normal forms that do so from every directory which
  is deep enough are one.

  Main declarations:
    * `Path.walk`, `Path.place`
    * `Path.place_join`
    * `Path.walk_normalizeComponents`
    * `Path.IsNormal.eq_of_walk_eq`
    * `Path.normalize_isCanonical`
-/

namespace Variability

namespace Path

variable {p q directory : Path}
variable {cs ds : List Component}
variable {names names' : List String}

------------------------------------------------------------
-- Walking
------------------------------------------------------------

/-
  Where a component leads to. A place is given by the names that
  lead from the root to it, the last one first; there is nothing
  above the root.
-/
def walk (place : List String) : Component → List String
  | .root => []
  | .here => place
  | .up => place.tail
  | .name text => text :: place

/- Where a path leads to from the root. -/
def place (p : Path) : List String :=
  p.components.foldl walk []

/- An absolute path leads to one place from everywhere. -/
theorem foldl_walk_of_isAbsolute
    (hAbsolute : p.isAbsolute = true)
    (place : List String) :
    p.components.foldl walk place = p.place := by
  rcases List.head?_eq_some_iff.mp ((isAbsolute_iff p).mp hAbsolute)
    with ⟨rest, hRest⟩
  rw [Path.place, hRest]
  rfl

/- A path is walked from the directory that it is joined to. -/
theorem place_join
    (hAbsolute : directory.isAbsolute = true)
    (p : Path) :
    (directory.join p).place =
      p.components.foldl walk directory.place := by
  cases hKind : p.isAbsolute with
  | true =>
      rw [foldl_walk_of_isAbsolute hKind, join, if_pos hKind]
  | false =>
      have hText : directory.text.toList ≠ [] := by
        intro hEmpty
        rw [isAbsolute, hEmpty] at hAbsolute
        cases hAbsolute
      rw [Path.place, components_join_parts hText hKind,
        List.foldl_append]
      rcases components_eq_partsOf_or hKind with hSame | hHere
      · rw [hSame]
        rfl
      · rw [hHere]
        rfl

/- A component that is pushed leads on from where the stack leads. -/
theorem foldl_walk_pushComponent
    (stack : List Component)
    (c : Component)
    (place : List String) :
    (pushComponent stack c).reverse.foldl walk place =
      walk (stack.reverse.foldl walk place) c := by
  unfold pushComponent
  split
  · rfl
  · simp [walk]
  · simp [walk]
  · rw [List.reverse_cons, List.foldl_append]
    rfl

/- A normal form leads to where the path does, from everywhere. -/
theorem walk_normalizeComponents
    (cs : List Component)
    (place : List String) :
    (normalizeComponents cs).foldl walk place =
      cs.foldl walk place := by
  suffices hEvery : ∀ stack : List Component,
      (cs.foldl pushComponent stack).reverse.foldl walk place =
        cs.foldl walk (stack.reverse.foldl walk place) from
    hEvery []
  induction cs with
  | nil => exact fun stack => rfl
  | cons c cs ih =>
      intro stack
      rw [List.foldl_cons, ih, foldl_walk_pushComponent]
      rfl

/- No steps up are added on the way to a normal form. -/
theorem count_normalizeComponents_le
    (cs : List Component) :
    (normalizeComponents cs).count .up ≤ cs.count .up := by
  suffices hEvery : ∀ stack : List Component,
      (cs.foldl pushComponent stack).count .up ≤
        stack.count .up + cs.count .up by
    simpa [normalizeComponents] using hEvery []
  induction cs with
  | nil => exact fun stack => Nat.le_refl _
  | cons c cs ih =>
      intro stack
      have hHere :
          (pushComponent stack c).count .up ≤
            stack.count .up + [c].count .up := by
        unfold pushComponent
        split
        · exact Nat.le_add_right _ _
        · exact Nat.le_add_right_of_le List.count_le_count_cons
        · exact Nat.le_add_right _ _
        · apply Nat.le_of_eq
          rw [List.count_cons, List.count_singleton]
      have hRest := ih (pushComponent stack c)
      rw [List.foldl_cons, ← List.singleton_append,
        List.count_append]
      omega

------------------------------------------------------------
-- Normal Paths
------------------------------------------------------------

theorem AreNames.exists_eq_map
    (hNames : AreNames cs) :
    ∃ names : List String, cs = names.map .name := by
  induction cs with
  | nil => exact ⟨[], rfl⟩
  | cons c cs ih =>
      rcases hNames c List.mem_cons_self with ⟨text, rfl, -⟩
      rcases ih fun d hd => hNames d (List.mem_cons_of_mem _ hd)
        with ⟨names, rfl⟩
      exact ⟨text :: names, rfl⟩

/- Normal components are names behind the root or behind steps up. -/
theorem IsNormal.exists_names
    (hNormal : IsNormal cs) :
    ∃ names : List String,
      cs = .root :: names.map .name ∨
        ∃ n, cs = List.replicate n .up ++ names.map .name := by
  rcases hNormal.isStack.eq_append with
    ⟨behind, lead, hEq, hNames, hLead⟩
  have hReversed : AreNames behind.reverse := fun c hMem =>
    hNames c (List.mem_reverse.mp hMem)
  rcases hReversed.exists_eq_map with ⟨names, hMap⟩
  have hcs : cs = lead.reverse ++ names.map .name := by
    rw [← hMap, ← List.reverse_append, ← hEq, List.reverse_reverse]
  refine ⟨names, ?_⟩
  rcases hLead with rfl | rfl | ⟨-, hUp⟩
  · exact Or.inr ⟨0, hcs⟩
  · exact Or.inl hcs
  · refine Or.inr ⟨lead.length, ?_⟩
    rw [hcs, List.eq_replicate_of_mem hUp, List.reverse_replicate,
      List.length_replicate]

theorem foldl_walk_map_name
    (names place : List String) :
    (names.map .name).foldl walk place = names.reverse ++ place := by
  induction names generalizing place with
  | nil => rfl
  | cons text names ih => simp [ih, walk]

theorem foldl_walk_replicate_up
    (n : Nat)
    (place : List String) :
    (List.replicate n Component.up).foldl walk place =
      place.drop n := by
  induction n generalizing place with
  | zero => rfl
  | succ n ih =>
      rw [List.replicate_succ, List.foldl_cons, ih]
      exact List.drop_tail

/-
  What is left of a directory whose names are all alike shows how
  many of them are left, if two kinds of directories are tried.
-/
theorem replicate_eq_of_append_eq
    {n m : Nat}
    {a b : String}
    (hApart : a ≠ b)
    (ha :
      names ++ List.replicate n a = names' ++ List.replicate m a)
    (hb :
      names ++ List.replicate n b =
        names' ++ List.replicate m b) :
    n = m ∧ names = names' := by
  have hCount :
      names.count a + n = names'.count a + m := by
    simpa using congrArg (List.count a) ha
  have hOthers : names.count a = names'.count a := by
    simpa [List.count_replicate, Ne.symm hApart] using
      congrArg (List.count a) hb
  have hLeft : n = m := by omega
  subst hLeft
  exact ⟨rfl, List.append_cancel_right ha⟩

/-
  Normal components are known by where they lead, from directories
  that are deeper than they have steps up.
-/
theorem IsNormal.eq_of_walk_eq
    {depth : Nat}
    {a b : String}
    (hNormal : IsNormal cs)
    (hNormal' : IsNormal ds)
    (hDepth : cs.count .up < depth)
    (hDepth' : ds.count .up < depth)
    (hApart : a ≠ b)
    (ha :
      cs.foldl walk (List.replicate depth a) =
        ds.foldl walk (List.replicate depth a))
    (hb :
      cs.foldl walk (List.replicate depth b) =
        ds.foldl walk (List.replicate depth b)) :
    cs = ds := by
  have hRoot (names : List String) (text : String) :
      (Component.root :: names.map .name).foldl walk
          (List.replicate depth text) =
        names.reverse ++ List.replicate 0 text := by
    rw [List.foldl_cons, foldl_walk_map_name]
    rfl
  have hUp (n : Nat) (names : List String) (text : String) :
      (List.replicate n Component.up ++
            names.map Component.name).foldl walk
          (List.replicate depth text) =
        names.reverse ++ List.replicate (depth - n) text := by
    rw [List.foldl_append, foldl_walk_replicate_up,
      foldl_walk_map_name, List.drop_replicate]
  have hCount (n : Nat) (names : List String) :
      n ≤ (List.replicate n Component.up ++
        names.map Component.name).count .up := by
    simp
  rcases hNormal.exists_names with ⟨names, rfl | ⟨n, rfl⟩⟩ <;>
    rcases hNormal'.exists_names with ⟨names', rfl | ⟨m, rfl⟩⟩ <;>
    simp only [hRoot, hUp] at ha hb <;>
    rcases replicate_eq_of_append_eq hApart ha hb with
      ⟨hLeft, hNames⟩ <;>
    rw [List.reverse_inj] at hNames <;>
    subst hNames
  · rfl
  · have := hCount m names
    omega
  · have := hCount n names
    omega
  · have := hCount n names
    have := hCount m names
    have hSteps : n = m := by omega
    rw [hSteps]

------------------------------------------------------------
-- Canonical Forms
------------------------------------------------------------

theorem normalize_eq_iff
    (p q : Path) :
    p.normalize = q.normalize ↔
      normalizeComponents p.components =
        normalizeComponents q.components := by
  refine ⟨fun hEq => ?_, congrArg ofComponents⟩
  rw [← components_normalize, hEq, components_normalize]

/- Normal forms with the same components are written alike. -/
theorem same_normalize_iff
    (p q : Path) :
    p.normalize.same q.normalize = true ↔
      p.normalize = q.normalize := by
  rw [same, beq_iff_eq, normalize_eq_iff, components_normalize,
    components_normalize]

theorem IsNormal.here_not_mem
    (hNormal : IsNormal cs) :
    .here ∉ cs := by
  rcases hNormal.exists_names with ⟨names, rfl | ⟨n, rfl⟩⟩ <;>
    simp

/- Steps up stand before all names, and in relative paths only. -/
theorem IsNormal.exists_steps
    (hNormal : IsNormal cs) :
    ∃ n rest,
      cs = List.replicate n .up ++ rest ∧ .up ∉ rest ∧
        (n ≠ 0 → .root ∉ cs) := by
  rcases hNormal.exists_names with ⟨names, rfl | ⟨n, rfl⟩⟩
  · exact ⟨0, _, rfl, by simp, fun hNone => absurd rfl hNone⟩
  · exact ⟨n, _, rfl, by simp, fun _ => by simp⟩

/- A directory as deep as asked for, of names that are alike. -/
def deepDirectory (depth : Nat) (text : String) : Path :=
  ofComponents (.root :: List.replicate depth (.name text))

theorem deepDirectory_leads
    {text : String}
    (hPlain : (Component.name text).IsPlain)
    (depth : Nat) :
    (deepDirectory depth text).isAbsolute = true ∧
      (deepDirectory depth text).place =
        List.replicate depth text := by
  have hRoot : IsNormal [.root] := ⟨rfl⟩
  have hNames : AreNames (List.replicate depth (.name text)) := by
    intro c hMem
    exact ⟨text, List.eq_of_mem_replicate hMem,
      List.eq_of_mem_replicate hMem ▸ hPlain⟩
  have hComponents :
      (deepDirectory depth text).components =
        .root :: List.replicate depth (.name text) :=
    components_ofComponents (hRoot.append_names hNames)
  constructor
  · rw [isAbsolute_iff, hComponents]
    rfl
  · rw [Path.place, hComponents, ← List.map_replicate, List.foldl_cons,
      foldl_walk_map_name, List.reverse_replicate]
    exact List.append_nil _

/- Paths with one normal form lead to one place from everywhere. -/
theorem place_join_eq_of_normalize_eq
    (hEq : p.normalize = q.normalize)
    (hAbsolute : directory.isAbsolute = true) :
    (directory.join p).place = (directory.join q).place := by
  rw [place_join hAbsolute, place_join hAbsolute,
    ← walk_normalizeComponents p.components,
    (normalize_eq_iff p q).mp hEq, walk_normalizeComponents]

/-
  Paths have one normal form if they lead to one place from each
  directory that is as deep as either has steps up. Two kinds of
  directories tell all normal forms apart.
-/
theorem normalize_eq_of_place_join_eq
    (hPlaces :
      ∀ directory : Path, directory.isAbsolute = true →
        p.components.count .up ≤ directory.place.length →
        q.components.count .up ≤ directory.place.length →
        (directory.join p).place = (directory.join q).place) :
    p.normalize = q.normalize := by
  let depth :=
    max (p.components.count .up) (q.components.count .up) + 1
  have hLeads
      (text : String)
      (hPlain : (Component.name text).IsPlain) :
      (normalizeComponents p.components).foldl walk
          (List.replicate depth text) =
        (normalizeComponents q.components).foldl walk
          (List.replicate depth text) := by
    rcases deepDirectory_leads hPlain depth with
      ⟨hAbsolute, hPlace⟩
    have hJoined :=
      hPlaces (deepDirectory depth text) hAbsolute
        (by rw [hPlace, List.length_replicate]; omega)
        (by rw [hPlace, List.length_replicate]; omega)
    rwa [place_join hAbsolute, place_join hAbsolute, hPlace,
      ← walk_normalizeComponents p.components,
      ← walk_normalizeComponents q.components] at hJoined
  have hDepth := count_normalizeComponents_le p.components
  have hDepth' := count_normalizeComponents_le q.components
  rw [normalize_eq_iff]
  exact
    (isNormal_normalizeComponents p).eq_of_walk_eq
      (isNormal_normalizeComponents q) (by omega) (by omega)
      (by decide : "a" ≠ "b")
      (hLeads "a" ⟨by decide, by decide⟩)
      (hLeads "b" ⟨by decide, by decide⟩)

/-
  Normal forms are canonical. They are their own normal forms,
  without `.` and with `..` only where a relative path starts; and
  two paths have the same one exactly if they lead to the same
  place from every directory that is as deep as either has steps
  up. Then they do so from the other directories, too.
-/
theorem normalize_isCanonical
    (p q : Path) :
    p.normalize.normalize = p.normalize ∧
      .here ∉ p.normalize.components ∧
      (∃ n rest,
        p.normalize.components = List.replicate n .up ++ rest ∧
          .up ∉ rest ∧
          (n ≠ 0 → p.normalize.isAbsolute = false)) ∧
      (p.normalize.same q.normalize = true ↔
        p.normalize = q.normalize) ∧
      (p.normalize = q.normalize ↔
        ∀ directory : Path, directory.isAbsolute = true →
          p.components.count .up ≤ directory.place.length →
          q.components.count .up ≤ directory.place.length →
          (directory.join p).place = (directory.join q).place) ∧
      (p.normalize = q.normalize →
        ∀ directory : Path, directory.isAbsolute = true →
          (directory.join p).place =
            (directory.join q).place) := by
  have hNormal := p.isNormal_components_normalize
  refine
    ⟨normalize_normalize p, hNormal.here_not_mem, ?_,
      same_normalize_iff p q,
      ⟨?_, normalize_eq_of_place_join_eq⟩, ?_⟩
  · rcases hNormal.exists_steps with
      ⟨n, rest, hEq, hRest, hRelative⟩
    refine ⟨n, rest, hEq, hRest, fun hSome => ?_⟩
    rw [Bool.eq_false_iff, ne_eq, isAbsolute_iff_mem]
    exact hRelative hSome
  · exact fun hEq directory hAbsolute _ _ =>
      place_join_eq_of_normalize_eq hEq hAbsolute
  · exact fun hEq directory hAbsolute =>
      place_join_eq_of_normalize_eq hEq hAbsolute

end Path

end Variability
