import Variability.Proofs.Dict.Ordered
import Variability.Proofs.FileTree.Laying

/-
  What a directory holds, and what can be put into it.

  In a tree as directories make them each entry lies in a
  directory, so a directory is listed before what it holds. Under
  a name that is free in a directory an entry of any kind can be
  put, and nothing else changes then.

  Main declarations:
    * `FileTree.IsWellFormed`
    * `FileTree.isWellFormed_of_mem`
    * `FileTree.mem_below_iff`
    * `FileTree.pairwise_below`
    * `FileTree.Puts`
    * `FileTree.makeDirectories_free`
-/

namespace Variability

------------------------------------------------------------
-- Paths of Names
------------------------------------------------------------

namespace Path

variable {rel : Names}

/- The path that is written from names. -/
theorem components_intercalate
    (hNames : AreNames (rel.map .name)) :
    (⟨"/".intercalate rel⟩ : Path).components =
        rel.map .name ∧
      (rel ≠ [] → (⟨"/".intercalate rel⟩ : Path).IsTrimmed) := by
  have hPlain : ∀ name ∈ rel, (Component.name name).IsPlain := by
    intro name hName
    rcases hNames _ (List.mem_map_of_mem hName) with ⟨_, -, h⟩
    exact h
  have hText :
      (⟨"/".intercalate rel⟩ : Path) =
        ofParts [] (rel.map String.toList) := by
    simp [ofParts, ← String.toList_inj, String.toList_intercalate]
  have hWritten : Written [] (rel.map String.toList) := by
    refine ⟨Or.inr (Or.inr rfl), ?_, ?_⟩
    · intro part hPart
      rcases List.mem_map.mp hPart with ⟨name, hName, rfl⟩
      exact (hPlain name hName).2
    · intro _ part hPart
      have hMem := List.mem_of_head? hPart
      rcases List.mem_map.mp hMem with ⟨name, hName, rfl⟩
      have hSome := (hPlain name hName).1
      constructor <;> intro hEq <;> rw [hEq] at hSome <;>
        cases hSome
  have hComponents :
      (rel.map String.toList).filterMap component? =
        rel.map .name := by
    rw [List.filterMap_map, ← List.filterMap_eq_map]
    exact List.filterMap_congr fun name hName =>
      (hPlain name hName).1
  rw [hText]
  refine ⟨?_, fun hRel => ?_⟩
  · rw [components_ofParts hWritten, hComponents]
    rfl
  · rcases List.eq_nil_or_concat rel with hNone | ⟨before, name, rfl⟩
    · exact absurd hNone hRel
    · rw [List.concat_eq_append, List.map_append, List.map_singleton] at hWritten ⊢
      apply isTrimmed_ofParts hWritten
      rw [(hPlain name (by simp)).1]
      rfl

/- A path that is joined from names goes on by them. -/
theorem goesOn_intercalate
    (root : Path)
    (hNames : AreNames (rel.map .name))
    (hZero : ∀ name ∈ rel, '\x00' ∉ name.toList)
    (hRel : rel ≠ []) :
    root.GoesOn (root.join ⟨"/".intercalate rel⟩) rel := by
  rcases components_intercalate hNames with
    ⟨hComponents, hTrimmed⟩
  have hBelow :
      AreNames
        (⟨"/".intercalate rel⟩ : Path).components := by
    rwa [hComponents]
  refine
    ⟨?_, isTrimmed_join root hBelow.isAbsolute_eq
      (hTrimmed hRel), hNames, hZero, hRel⟩
  rw [components_join_names root hBelow, hComponents]

end Path

namespace FileTree

variable {t t' : FileTree}
variable {directory names rel : Names}
variable {entry : Entry}
variable {root p : Path}
variable {content : List UInt8}

------------------------------------------------------------
-- Well-Formed Trees
------------------------------------------------------------

/-
  A tree whose entries lie in directories, each under a name that
  can be written into a path.
-/
structure IsWellFormed (t : FileTree) : Prop where
  ordered : t.entries.IsOrdered
  parent :
    ∀ {names name entry},
      t.entry? (names ++ [name]) = some entry →
        t.entry? names = some .directory
  areNames :
    ∀ {names entry}, t.entry? names = some entry →
      Path.AreNames (names.map .name)
  not_mem_zero :
    ∀ {names entry}, t.entry? names = some entry →
      ∀ name ∈ names, '\x00' ∉ name.toList

theorem entry?_eq_some_iff
    (hOrdered : t.entries.IsOrdered)
    (hNames : names ≠ []) :
    t.entry? names = some entry ↔ (names, entry) ∈ t.entries := by
  rw [ entry?, if_neg hNames, Dict.find?_eq_some_iff hOrdered]

/- A tree is well-formed if each of its entries is at its place. -/
theorem isWellFormed_of_mem
    (hOrdered : t.entries.IsOrdered)
    (hEach :
      ∀ e ∈ t.entries,
        t.entry? e.1.dropLast = some .directory ∧
          Path.AreNames (e.1.map .name) ∧
          ∀ name ∈ e.1, '\x00' ∉ name.toList) :
    t.IsWellFormed where
  ordered := hOrdered
  parent := by
    intro names name entry hEntry
    rw [entry?_eq_some_iff hOrdered (by simp)] at hEntry
    simpa using (hEach _ hEntry).1
  areNames := by
    intro names entry hEntry
    by_cases hNames : names = []
    · rw [hNames]
      exact nofun
    · rw [entry?_eq_some_iff hOrdered hNames] at hEntry
      exact (hEach _ hEntry).2.1
  not_mem_zero := by
    intro names entry hEntry
    by_cases hNames : names = []
    · rw [hNames]
      exact nofun
    · rw [entry?_eq_some_iff hOrdered hNames] at hEntry
      exact (hEach _ hEntry).2.2

namespace IsWellFormed

/- What names lead to an entry lead through directories. -/
theorem directory_of_prefix
    (hTree : t.IsWellFormed)
    (hRel : rel ≠ [])
    (hEntry : t.entry? (names ++ rel) = some entry) :
    t.entry? names = some .directory := by
  induction rel using List.reverseRecOn generalizing entry with
  | nil => exact absurd rfl hRel
  | append_singleton before name ih =>
      rw [← List.append_assoc] at hEntry
      have hParent := hTree.parent hEntry
      by_cases hBefore : before = []
      · rwa [hBefore, List.append_nil] at hParent
      · exact ih hBefore hParent

theorem isOpen
    (hTree : t.IsWellFormed)
    (hRel : rel ≠ [])
    (hEntry : t.entry? (directory ++ rel) = some entry) :
    t.IsOpen directory rel.dropLast := by
  rintro before - ⟨after, hDrop⟩
  have hSplit :
      before ++ (after ++ [rel.getLast hRel]) = rel := by
    rw [← List.append_assoc, hDrop,
      List.dropLast_append_getLast]
  rw [← hSplit, ← List.append_assoc] at hEntry
  exact hTree.directory_of_prefix (by simp) hEntry

end IsWellFormed

/- A list of names does not come before one that it starts with. -/
theorem compare_append_ne
    (names rest : Names) :
    compare (names ++ rest) names ≠ .lt := by
  induction names with
  | nil => cases rest <;> exact nofun
  | cons name names ih =>
      intro hOrder
      change
        List.compareLex compare (name :: (names ++ rest))
          (name :: names) = .lt at hOrder
      have hSame : compare name name = .eq :=
        Std.ReflCmp.compare_self
      rw [List.compareLex_cons_cons, hSame] at hOrder
      exact ih hOrder

/- How an entry is seen from a directory. -/
theorem seen_eq_some_iff
    {found : Names × Entry} :
    (if directory.isPrefixOf names ∧ names ≠ directory then
        some (names.drop directory.length, entry)
      else
        none) = some found ↔
      found.1 ≠ [] ∧ names = directory ++ found.1 ∧
        entry = found.2 := by
  rcases found with ⟨rel, entry'⟩
  constructor
  · intro hFound
    split at hFound
    · rename_i hBelow
      rcases hBelow with ⟨hPrefix, hNe⟩
      rcases List.isPrefixOf_iff_prefix.mp hPrefix with
        ⟨rest, rfl⟩
      rw [List.drop_left] at hFound
      cases hFound
      refine ⟨?_, rfl, rfl⟩
      rintro rfl
      exact hNe (List.append_nil _)
    · cases hFound
  · rintro ⟨hRel, rfl, rfl⟩
    simp [hRel]

/- What is below a directory. -/
theorem mem_below_iff
    (hOrdered : t.entries.IsOrdered) :
    (rel, entry) ∈ t.below directory ↔
      rel ≠ [] ∧ t.entry? (directory ++ rel) = some entry := by
  have hFound (hRel : rel ≠ []) :
      t.entry? (directory ++ rel) = some entry ↔
        (directory ++ rel, entry) ∈ t.entries :=
    entry?_eq_some_iff hOrdered
      (List.append_ne_nil_of_right_ne_nil directory hRel)
  unfold below
  rw [List.mem_filterMap]
  constructor
  · rintro ⟨⟨names, old⟩, hMem, hSeen⟩
    rcases seen_eq_some_iff.mp hSeen with ⟨hRel, rfl, rfl⟩
    exact ⟨hRel, (hFound hRel).mpr hMem⟩
  · rintro ⟨hRel, hEntry⟩
    exact
      ⟨_, (hFound hRel).mp hEntry,
        seen_eq_some_iff.mpr ⟨hRel, rfl, rfl⟩⟩

/- A directory is listed before what it holds. -/
theorem pairwise_below
    (hOrdered : t.entries.IsOrdered)
    (directory : Names) :
    (t.below directory).Pairwise
      fun e e' => ¬ e'.1 <+: e.1 := by
  unfold below
  apply List.Pairwise.filterMap _ _ hOrdered
  rintro ⟨names, entry⟩ ⟨names', entry'⟩ hLess found hFound
    found' hFound' ⟨rest, hPrefix⟩
  rcases seen_eq_some_iff.mp hFound with ⟨-, rfl, -⟩
  rcases seen_eq_some_iff.mp hFound' with ⟨-, rfl, -⟩
  rw [← hPrefix, ← List.append_assoc] at hLess
  exact compare_append_ne _ rest hLess

------------------------------------------------------------
-- Free Names
------------------------------------------------------------

/- An entry was put under some names, and nothing else was done. -/
structure Puts
    (names : Names)
    (entry : Entry)
    (t t' : FileTree) : Prop where
  current_eq : t'.current = t.current
  entry?_eq :
    ∀ other,
      t'.entry? other =
        if other = names then some entry else t.entry? other

theorem Puts.grows
    (hPuts : Puts names entry t t')
    (hFree : t.entry? names = none) :
    Grows t t' := by
  refine ⟨hPuts.current_eq, fun other old hOld => ?_⟩
  rw [hPuts.entry?_eq, if_neg, hOld]
  rintro rfl
  rw [hFree] at hOld
  cases hOld

/- An entry that was put replaces the one that was put before. -/
theorem Puts.trans
    {t'' : FileTree}
    {entry' : Entry}
    (hFirst : Puts names entry t t')
    (hSecond : Puts names entry' t' t'') :
    Puts names entry' t t'' := by
  refine
    ⟨hSecond.current_eq.trans hFirst.current_eq, fun other => ?_⟩
  rw [hSecond.entry?_eq, hFirst.entry?_eq]
  split_ifs <;> rfl

theorem puts_put
    (hNames : names ≠ [])
    (entry : Entry)
    (t : FileTree) :
    put names entry t = (.ok (), (put names entry t).2) ∧
      Puts names entry t (put names entry t).2 :=
  ⟨rfl, rfl, entry?_insert hNames t entry⟩

theorem puts_withFile
    (hEnd : t.IsEnd names)
    (content : List UInt8) :
    Puts names (.file content) t (t.withFile names content) :=
  ⟨rfl, entry?_withFile hEnd content⟩

/- A path that leads to a directory without links leads there. -/
theorem resolve_true_of_directory
    (hResolve :
      t.resolve false p = .ok (.found names .directory)) :
    t.resolve true p = .ok (.found names .directory) := by
  rcases resolve_eq_ok hResolve with ⟨hZero, hWalk⟩
  have hText : p.text ≠ "" := by
    intro hEmpty
    rw [resolve, hEmpty] at hResolve
    cases hResolve
  rw [resolve_eq_walk hText hZero]
  rcases walk_false_cases (t := t) with hSame | ⟨_, _, hLink⟩
  · exact hSame.symm.trans hWalk
  · cases hLink.symm.trans hWalk

/- A way through directories goes on behind them. -/
theorem walk_open
    (hNames : Path.AreNames (rel.map .name))
    (hOpen : t.IsOpen directory rel)
    (follow : Bool)
    (links : Nat)
    (rest : List String) :
    t.walk follow links directory (rel ++ rest) =
      t.walk follow links (directory ++ rel) rest := by
  induction rel generalizing directory with
  | nil => rw [List.nil_append, List.append_nil]
  | cons name rel ih =>
      rcases hNames (.name name) (by simp) with ⟨_, -, hPlain⟩
      rcases ne_dots_of_isPlain hPlain with ⟨hHere, hUp⟩
      have hFirst : t.entry? (directory ++ [name]) = some .directory :=
        hOpen [name] (List.cons_ne_nil _ _) (List.prefix_append [name] rel)
      have hRest : t.IsOpen (directory ++ [name]) rel := by
        intro before hNonempty hBefore
        rw [List.append_assoc]
        exact hOpen _ (List.cons_ne_nil _ _) (List.cons_prefix_cons.mpr ⟨rfl, hBefore⟩)
      rw [List.cons_append, walk_directory hHere hUp hFirst,
        ih (fun c hc => hNames c (List.mem_cons_of_mem _ hc)) hRest,
        List.append_assoc]
      rfl

/- A path goes on by a name where the directory before it is there. -/
theorem resolve_open
    (hRoot :
      t.resolve true root = .ok (.found directory .directory))
    (hPath : root.GoesOn p rel)
    (hOpen : t.IsOpen directory rel.dropLast) :
    ∃ links name,
      (name ≠ "." ∧ name ≠ "..") ∧
        directory ++ rel = directory ++ rel.dropLast ++ [name] ∧
        ∀ follow,
          t.resolve follow p =
            t.walk follow links (directory ++ rel.dropLast)
              [name] := by
  have hSplit := List.dropLast_append_getLast hPath.ne_nil
  have hLast := List.getLast_mem hPath.ne_nil
  rcases hPath.areNames _ (List.mem_map_of_mem hLast) with
    ⟨_, -, hPlain⟩
  have hBefore : Path.AreNames (rel.dropLast.map .name) := by
    rw [List.map_dropLast]
    exact hPath.areNames.dropLast
  rcases resolve_below hRoot hPath.components_eq hPath.isTrimmed
      hPath.ne_nil hPath.not_mem_zero with
    ⟨links, hResolve⟩
  refine
    ⟨links, _, ne_dots_of_isPlain hPlain, ?_, fun follow => ?_⟩
  · rw [List.append_assoc, hSplit]
  · rw [hResolve, ← walk_open hBefore hOpen, hSplit]

/- A free name in a directory is a vacant place. -/
theorem resolve_free
    (hRoot :
      t.resolve true root = .ok (.found directory .directory))
    (hPath : root.GoesOn p rel)
    (hOpen : t.IsOpen directory rel.dropLast)
    (hFree : t.entry? (directory ++ rel) = none)
    (follow : Bool) :
    t.resolve follow p = .ok (.vacant (directory ++ rel)) := by
  rcases resolve_open hRoot hPath hOpen with
    ⟨links, name, ⟨hHere, hUp⟩, hNames, hResolve⟩
  rw [hNames] at hFree ⊢
  rw [hResolve, walk_vacant hHere hUp hFree]

/- A path leads nowhere on which a directory is missing. -/
theorem resolve_missing
    (hRoot :
      t.resolve true root = .ok (.found directory .directory))
    (hPath : root.GoesOn p rel)
    (hRel : rel.dropLast ≠ [])
    (hFree :
      ∀ before, before ≠ [] → before <+: rel →
        t.entry? (directory ++ before) = none)
    (follow : Bool) :
    t.resolve follow p = .error .notFound := by
  rcases resolve_below hRoot hPath.components_eq hPath.isTrimmed
      hPath.ne_nil hPath.not_mem_zero with
    ⟨links, hResolve⟩
  rw [hResolve]
  rcases List.exists_cons_of_ne_nil hPath.ne_nil with
    ⟨name, rest, rfl⟩
  rcases hPath.areNames (.name name) (by simp) with
    ⟨_, -, hPlain⟩
  rcases ne_dots_of_isPlain hPlain with ⟨hHere, hUp⟩
  have hRest : rest ≠ [] := by
    rintro rfl
    exact hRel rfl
  have hFirst :=
    hFree [name] (List.cons_ne_nil _ _)
      (List.prefix_append [name] rest)
  exact walk_missing hHere hUp hRest hFirst

/- A file in a directory is found. -/
theorem status_open
    (hRoot :
      t.resolve true root = .ok (.found directory .directory))
    (hPath : root.GoesOn p rel)
    (hOpen : t.IsOpen directory rel.dropLast)
    (hFile : t.entry? (directory ++ rel) = some (.file content)) :
    t.status p = .ok (.file content) := by
  rcases resolve_open hRoot hPath hOpen with
    ⟨links, name, ⟨hHere, hUp⟩, hNames, hResolve⟩
  rw [hNames] at hFile
  rw [status, hResolve, walk_file hHere hUp hFile]

/- So is a directory. -/
theorem resolve_directory
    (hRoot :
      t.resolve true root = .ok (.found directory .directory))
    (hPath : root.GoesOn p rel)
    (hOpen : t.IsOpen directory rel) :
    t.resolve true p =
      .ok (.found (directory ++ rel) .directory) := by
  rcases resolve_below hRoot hPath.components_eq hPath.isTrimmed
      hPath.ne_nil hPath.not_mem_zero with
    ⟨links, hResolve⟩
  have hWalk := walk_open hPath.areNames hOpen true links []
  rw [List.append_nil] at hWalk
  rw [hResolve, hWalk, walk]

------------------------------------------------------------
-- Putting Entries
------------------------------------------------------------

/- A file is written under a free name. -/
theorem write_free
    (hFree : t.entry? names = none)
    (hResolve : t.resolve true p = .ok (.vacant names))
    (content : List UInt8) :
    ∃ t', write p content t = (.ok (), t') ∧
      Puts names (.file content) t t' := by
  have hEnd : t.IsEnd names := by
    intro entry hEntry
    rw [hFree] at hEntry
    cases hEntry
  refine ⟨_, ?_, puts_withFile hEnd content⟩
  rw [write_apply, fileToWrite, hResolve]

/-
  A file is copied to a free name. It is still there when the
  target was emptied.
-/
theorem copyFile_free
    {source : Path}
    (hSource : t.status source = .ok (.file content))
    (hFree : t.entry? names = none)
    (hResolve : t.resolve true p = .ok (.vacant names)) :
    ∃ t', copyFile source p t = (.ok (), t') ∧
      Puts names (.file content) t t' := by
  have hEnd : t.IsEnd names := by
    intro entry hEntry
    rw [hFree] at hEntry
    cases hEntry
  have hNames : t.fileToWrite p = .ok names := by
    rw [fileToWrite, hResolve]
  have hEmptied := puts_withFile hEnd []
  have hRead :
      (t.withFile names []).read source = .ok content :=
    read_eq_ok_iff.mpr
      ((hEmptied.grows hFree).status_eq hSource)
  have hEnd' : (t.withFile names []).IsEnd names := by
    intro entry hEntry
    rw [hEnd.entry?_withFile_self] at hEntry
    exact ⟨[], (Option.some.inj hEntry).symm⟩
  exact
    ⟨_, copyFile_apply hSource hNames hRead,
      hEmptied.trans (puts_withFile hEnd' content)⟩

/- A link is made under a free name. -/
theorem makeLink_free
    (hTrimmed : p.IsTrimmed)
    (hNames : names ≠ [])
    (hResolve : t.resolve false p = .ok (.vacant names))
    (target : String) :
    ∃ t', makeLink p target t = (.ok (), t') ∧
      Puts names (.link target) t t' := by
  have hSlash : endsInSlash p = false := by
    simpa [endsInSlash] using hTrimmed.getLast?_ne
  refine ⟨_, ?_, (puts_put hNames (.link target) t).2⟩
  rw [makeLink, Job.get_bind_apply, withoutSlash_eq hTrimmed,
    hResolve]
  dsimp only
  rw [hSlash]
  rfl

/- A directory is made under a free name. -/
theorem makeDirectory_free
    {q : Path}
    (hSlash : withoutSlash p = q)
    (hNames : names ≠ [])
    (hResolve : t.resolve false q = .ok (.vacant names)) :
    ∃ t', makeDirectory p t = (.ok (), t') ∧
      Puts names .directory t t' := by
  refine ⟨_, ?_, (puts_put hNames .directory t).2⟩
  rw [makeDirectory, Job.get_bind_apply, hSlash, hResolve]
  rfl

/- It is not if the directory before it is missing. -/
theorem makeDirectory_missing
    {q : Path}
    (hSlash : withoutSlash p = q)
    (hResolve : t.resolve false q = .error .notFound) :
    makeDirectory p t = (.error .notFound, t) := by
  rw [makeDirectory, Job.get_bind_apply, hSlash, hResolve]
  rfl

/- Directories were made by the names of a way that were all free. -/
structure MakesWay
    (directory rel : Names)
    (t t' : FileTree) : Prop where
  current_eq : t'.current = t.current
  isOpen : t'.IsOpen directory rel
  entry?_eq :
    ∀ names,
      (∀ before, before ≠ [] → before <+: rel →
        names ≠ directory ++ before) →
        t'.entry? names = t.entry? names

theorem MakesWay.grows
    (hMakes : MakesWay directory rel t t')
    (hFree :
      ∀ before, before ≠ [] → before <+: rel →
        t.entry? (directory ++ before) = none) :
    Grows t t' := by
  refine ⟨hMakes.current_eq, fun names entry hEntry => ?_⟩
  rw [hMakes.entry?_eq names, hEntry]
  rintro before hNonempty hBefore rfl
  rw [hFree before hNonempty hBefore] at hEntry
  cases hEntry

theorem MakesWay.nil
    (directory : Names)
    (t : FileTree) :
    MakesWay directory [] t t where
  current_eq := rfl
  isOpen := fun _ hNonempty hBefore =>
    absurd (List.prefix_nil.mp hBefore) hNonempty
  entry?_eq _ _ := rfl

/- A way through directories becomes longer by a directory. -/
theorem MakesWay.concat
    {t'' : FileTree}
    (hRel : rel ≠ [])
    (hMakes : MakesWay directory rel.dropLast t t')
    (hPuts : Puts (directory ++ rel) .directory t' t'') :
    MakesWay directory rel t t'' where
  current_eq := hPuts.current_eq.trans hMakes.current_eq
  isOpen := by
    have hBefore : t''.IsOpen directory rel.dropLast := by
      intro before hNonempty hPrefix
      rw [hPuts.entry?_eq]
      split
      · rfl
      · exact hMakes.isOpen before hNonempty hPrefix
    refine hBefore.of_dropLast hRel ?_
    rw [hPuts.entry?_eq, if_pos rfl]
  entry?_eq := by
    intro names hOther
    rw [hPuts.entry?_eq,
      if_neg (hOther rel hRel List.prefix_rfl),
      hMakes.entry?_eq]
    exact fun before hNonempty hBefore =>
      hOther before hNonempty
        (hBefore.trans (List.dropLast_prefix rel))

/-
  All directories on a way are made if its first name is free, by
  induction on how many there are.
-/
theorem makeDirectoriesWithin_free
    {depth : Nat}
    {q : Path}
    (hRoot :
      t.resolve true root = .ok (.found directory .directory))
    (hPath : root.GoesOn q rel)
    (hSlash : withoutSlash p = q)
    (hSame : p.components = q.components)
    (hFree :
      ∀ before, before ≠ [] → before <+: rel →
        t.entry? (directory ++ before) = none)
    (hDepth : rel.length ≤ depth) :
    ∃ t', makeDirectoriesWithin depth p t = (.ok (), t') ∧
      MakesWay directory rel t t' := by
  induction depth generalizing p q rel with
  | zero =>
      have hNone : rel = [] := by simpa using hDepth
      exact absurd hNone hPath.ne_nil
  | succ depth ih =>
      have hNames : directory ++ rel ≠ [] := by
        simp [hPath.ne_nil]
      have hText : p.text ≠ "" := by
        intro hText
        apply hPath.isTrimmed.text_ne
        rw [← hSlash, withoutSlash, hText]
        rfl
      rw [makeDirectoriesWithin, if_neg (by simpa using hText)]
      by_cases hDrop : rel.dropLast = []
      · have hWay := MakesWay.nil directory t
        rw [← hDrop] at hWay
        have hResolve :=
          resolve_free hRoot hPath hWay.isOpen
            (hFree rel hPath.ne_nil List.prefix_rfl) false
        rcases makeDirectory_free hSlash hNames hResolve with
          ⟨t', hMake, hPuts⟩
        refine ⟨t', ?_, hWay.concat hPath.ne_nil hPuts⟩
        rw [Job.tryCatch_apply, hMake]
      · have hMissing : t.resolve false q = .error .notFound :=
          resolve_missing hRoot hPath hDrop hFree false
        have hComponents := hSame.trans hPath.components_eq
        rcases goesOn_parent_of_components hComponents
            hPath.areNames hPath.not_mem_zero hPath.ne_nil with
          ⟨above, hParent, -, hAbove⟩
        have hGoesOn := hAbove hDrop
        have hFreeAbove before (hNonempty : before ≠ [])
            (hBefore : before <+: rel.dropLast) :
            t.entry? (directory ++ before) = none :=
          hFree before hNonempty
            (hBefore.trans (List.dropLast_prefix rel))
        rcases ih hGoesOn (withoutSlash_eq hGoesOn.isTrimmed) rfl
            hFreeAbove
            (by rw [List.length_dropLast]; omega) with
          ⟨t', hRun, hWay⟩
        -- The parent is there now, and the last name is still free.
        have hStill : t'.entry? (directory ++ rel) = none := by
          rw [hWay.entry?_eq, hFree rel hPath.ne_nil List.prefix_rfl]
          intro before _ hBefore hEq
          have hLength := hBefore.length_le
          rw [← List.append_cancel_left hEq,
            List.length_dropLast] at hLength
          have hPositive := List.length_pos_of_ne_nil hPath.ne_nil
          omega
        have hResolve :=
          resolve_free
            ((hWay.grows hFreeAbove).resolve_found hRoot) hPath
            hWay.isOpen hStill false
        rcases makeDirectory_free hSlash hNames hResolve with
          ⟨t'', hMake, hPuts⟩
        refine ⟨t'', ?_, hWay.concat hPath.ne_nil hPuts⟩
        rw [Job.tryCatch_apply, makeDirectory_missing hSlash hMissing, hParent]
        dsimp only
        rw [Job.bind_of_ok hRun, Job.tryCatch_apply, hMake]

/- A directory is made where the one before it is there. -/
theorem makeDirectories_free
    (hTrimmed : p.IsTrimmed)
    (hNames : names ≠ [])
    (hResolve : t.resolve false p = .ok (.vacant names)) :
    ∃ t', makeDirectories p t = (.ok (), t') ∧
      Puts names .directory t t' := by
  rcases makeDirectory_free (withoutSlash_eq hTrimmed) hNames
      hResolve with
    ⟨t', hMake, hPuts⟩
  refine ⟨t', ?_, hPuts⟩
  rw [makeDirectories, makeDirectoriesWithin,
    if_neg (by simpa using hTrimmed.text_ne),
    Job.tryCatch_apply, hMake]

end FileTree

end Variability
