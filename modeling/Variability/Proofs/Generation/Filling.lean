import Variability.Generation
import Variability.Proofs.Dict.Entries
import Variability.Proofs.FileTree.Writing
import Variability.Proofs.Inclusion.ComposedPath
import Variability.Proofs.Path.Locations

/-
  What generating changes.

  Apart from directories, files are written at the ends of paths
  that lead down from the output tree, and the text they get is
  that of a file of the source tree, perhaps behind a preamble.

  Main declarations:
    * `Generation.Fills`
    * `Generation.mem_targets`
    * `Generation.exists_mem_targets`
    * `Generation.fillsOnly_generate`
-/

namespace Variability

/- A path that goes on behind a directory, by names alone. -/
def Path.LeadsDown (directory p : Path) : Prop :=
  ∃ names, Path.AreNames names ∧
    p.components = directory.components ++ names

/- A path that leads down to something else than the directory. -/
def Path.LiesBelow (directory p : Path) : Prop :=
  ∃ names, names ≠ [] ∧ Path.AreNames names ∧
    p.components = directory.components ++ names

namespace Generation

------------------------------------------------------------
-- Changes
------------------------------------------------------------

/-
  The changes of a tree into which files are generated from a
  source tree: directories are made, files below the output tree
  are emptied, or they get the text of a file of the source tree
  behind some other text.
-/
inductive Fills
    (source destination : Path) :
    FileTree → FileTree → Prop where
  | refl (t : FileTree) : Fills source destination t t
  | directories
      {t t' t'' : FileTree}
      (hBefore : Fills source destination t t')
      (hAdds : FileTree.AddsDirectories t' t'') :
      Fills source destination t t''
  | empty
      {t t' : FileTree}
      {target : Path}
      {names : Names}
      (hBefore : Fills source destination t t')
      (hBelow : destination.LiesBelow target)
      (hNames : t'.fileToWrite target = .ok names) :
      Fills source destination t (t'.withFile names [])
  | file
      {t t' : FileTree}
      {origin target : Path}
      {names : Names}
      {content : List UInt8}
      (hBefore : Fills source destination t t')
      (hInside : source.LeadsDown origin)
      (hContent : t'.read origin = .ok content)
      (hBelow : destination.LiesBelow target)
      (hNames : t'.fileToWrite target = .ok names)
      (lead : List UInt8) :
      Fills source destination t
        (t'.withFile names (lead ++ content))

variable {source destination : Path}
variable {t t' t'' : FileTree}
variable {deps : List Dependency}
variable {α β : Type}

theorem Fills.trans
    (hFirst : Fills source destination t t')
    (hSecond : Fills source destination t' t'') :
    Fills source destination t t'' := by
  induction hSecond with
  | refl => exact hFirst
  | directories _ hAdds ih => exact .directories ih hAdds
  | empty _ hBelow hNames ih => exact .empty ih hBelow hNames
  | file _ hInside hContent hBelow hNames lead ih =>
      exact .file ih hInside hContent hBelow hNames lead

/- A job that changes the files in this way, failed or not. -/
def FillsOnly
    (source destination : Path)
    (job : Job α) : Prop :=
  Job.Moves
    (fun w w' => Fills source destination w.files w'.files) job

namespace FillsOnly

variable {job : Job α}

theorem pure (a : α) :
    FillsOnly source destination (Pure.pure a : Job α) :=
  Job.Moves.pure (fun w => .refl w.files) a

theorem bind
    {rest : α → Job β}
    (hJob : FillsOnly source destination job)
    (hRest : ∀ a, FillsOnly source destination (rest a)) :
    FillsOnly source destination (job >>= rest) :=
  Job.Moves.bind Fills.trans hJob hRest

theorem get :
    FillsOnly source destination (MonadState.get : Job Workspace) :=
  fun w => .refl w.files

theorem record (records : Log) :
    FillsOnly source destination (Job.record records) :=
  fun w => .refl w.files

theorem edit
    {p : Path}
    {change : InTree α}
    (hChange : ∀ t, Fills source destination t (change t).2) :
    FillsOnly source destination (Job.edit p change) := by
  intro w
  have hFiles := hChange w.files
  unfold Job.edit
  generalize change w.files = changed at hFiles ⊢
  rcases changed with ⟨_ | _, files⟩ <;> exact hFiles

end FillsOnly

------------------------------------------------------------
-- Single Files
------------------------------------------------------------

theorem fills_write
    {origin target : Path}
    {content : List UInt8}
    (hInside : source.LeadsDown origin)
    (hContent : t.read origin = .ok content)
    (hBelow : destination.LiesBelow target)
    (lead : List UInt8) :
    Fills source destination t
      (FileTree.write target (lead ++ content) t).2 := by
  rcases FileTree.write_cases target (lead ++ content) t with
    ⟨names, hNames, hWrite⟩ | ⟨e, hWrite⟩
  · rw [hWrite]
    exact .file (.refl t) hInside hContent hBelow hNames lead
  · rw [hWrite]
    exact .refl t

theorem fills_copyFile
    {origin target : Path}
    (hInside : source.LeadsDown origin)
    (hBelow : destination.LiesBelow target)
    (t : FileTree) :
    Fills source destination t
      (FileTree.copyFile origin target t).2 := by
  rw [FileTree.copyFile, Job.get_bind_apply]
  rcases t.status origin with e | (content | _ | link)
  · exact .refl t
  · dsimp only
    rw [Job.bind_apply]
    rcases FileTree.write_cases target [] t with
      ⟨names, hNames, hWrite⟩ | ⟨e, hWrite⟩
    · -- The origin is read after the target was emptied.
      rw [hWrite]
      dsimp only
      have hEmpty :
          Fills source destination t (t.withFile names []) :=
        .empty (.refl t) hBelow hNames
      rw [Job.get_bind_apply]
      cases hContent : (t.withFile names []).read origin with
      | error e => exact hEmpty
      | ok content =>
          exact
            hEmpty.trans (fills_write hInside hContent hBelow [])
    · rw [hWrite]
      exact .refl t
  · exact .refl t
  · exact .refl t

theorem fillsOnly_writeCompiled
    {origin : Path}
    {i : Inclusion}
    (hInside : source.LeadsDown origin)
    (hBelow :
      destination.LiesBelow (destination.join i.composedPath)) :
    FillsOnly source destination
      (writeCompiled origin destination i) := by
  intro w
  rw [writeCompiled, Job.bind_apply, Job.look,
    Job.get_bind_apply]
  cases hContent : w.files.read origin with
  | error e => exact .refl w.files
  | ok content =>
      have hWrite :=
        fills_write hInside hContent hBelow
          (Utf8.encode i.preamble)
      dsimp only [Pure.pure, ExceptT.pure, ExceptT.mk,
        StateT.pure]
      rw [Job.bind_apply, Job.edit]
      generalize
        FileTree.write (destination.join i.composedPath)
          (Utf8.encode i.preamble ++ content) w.files = written
        at hWrite ⊢
      rcases written with ⟨_ | _, files⟩ <;> exact hWrite

theorem fillsOnly_copyHeader
    {origin file : Path}
    (hInside : source.LeadsDown origin)
    (hBelow : destination.LiesBelow (destination.join file)) :
    FillsOnly source destination
      (copyHeader origin destination file) :=
  .bind (.edit fun t => fills_copyFile hInside hBelow t)
    fun _ => .pure _

------------------------------------------------------------
-- All Files
------------------------------------------------------------

/- A dependency whose file can be generated below the output tree. -/
def IsPlaced : Dependency → Prop
  | .compiled i => Path.AreNames i.file.components
  | .header p => Path.AreNames p.components ∧ p.components ≠ []

theorem IsPlaced.names
    {d : Dependency}
    (hPlaced : IsPlaced d) :
    Path.AreNames d.file.components := by
  cases d with
  | compiled i => exact hPlaced
  | header p => exact hPlaced.1

theorem leadsDown_join
    {file : Path}
    (directory : Path)
    (hNames : Path.AreNames file.components) :
    directory.LeadsDown (directory.join file) :=
  ⟨file.components, hNames,
    Path.components_join_names directory hNames⟩

/- The generated file of a file inside lies below the output tree. -/
theorem liesBelow_composedPath
    {i : Inclusion}
    (hNames : Path.AreNames i.file.components) :
    destination.LiesBelow (destination.join i.composedPath) := by
  have hDirectory : Path.AreNames i.directoryComponents := by
    rcases i.directoryComponents_eq with hEq | hEq
    · rw [hEq]
      exact hNames.dropLast
    · rw [hEq]
      exact nofun
  have hName : Path.AreNames [.name i.composedName] := by
    intro c hMem
    rw [List.mem_singleton.mp hMem]
    exact ⟨_, rfl, i.isPlain_composedName⟩
  have hComposed : Path.AreNames i.composedPath.components := by
    rw [i.components_composedPath]
    exact hDirectory.append hName
  refine
    ⟨i.composedPath.components, ?_, hComposed,
      Path.components_join_names destination hComposed⟩
  rw [i.components_composedPath]
  simp

/- A group of dependencies of one file. -/
structure IsGroup
    (deps : List Dependency)
    (file : Path)
    (group : List Dependency) : Prop where
  file_mem :
    ∃ d ∈ deps, d.isExternal = false ∧ d.file = file
  mem : ∀ d ∈ group, d ∈ deps ∧ d.isExternal = false
  components_eq :
    ∀ d ∈ group, d.file.components = file.components

variable {groups : Dict Path (List Dependency)}

/- What has been found for a file belongs to its group. -/
theorem mem_group
    (hGroups : ∀ entry ∈ groups, IsGroup deps entry.1 entry.2)
    {file : Path}
    {d : Dependency}
    (hMem : d ∈ (Dict.find? file groups).getD []) :
    (d ∈ deps ∧ d.isExternal = false) ∧
      d.file.components = file.components := by
  cases hFound : Dict.find? file groups with
  | none =>
      rw [hFound] at hMem
      cases hMem
  | some group =>
      rw [hFound] at hMem
      rcases Dict.mem_of_find?_eq hFound with
        ⟨key, hKey, hEntry⟩
      have hGroup := hGroups _ hEntry
      have hComponents := (Path.compare_eq_iff _ _).mp hKey
      exact
        ⟨hGroup.mem d hMem,
          (hGroup.components_eq d hMem).trans
            hComponents.symm⟩

/- A dependency is put into the group of its file. -/
theorem isGroup_insert
    (hGroups : ∀ entry ∈ groups, IsGroup deps entry.1 entry.2)
    {d : Dependency}
    (hd : d ∈ deps ∧ d.isExternal = false)
    {entry : Path × List Dependency}
    (hEntry :
      entry ∈
        Dict.insert d.file
          ((Dict.find? d.file groups).getD [] ++ [d]) groups) :
    IsGroup deps entry.1 entry.2 := by
  rcases entry with ⟨key, group⟩
  rcases Dict.mem_insert hEntry with ⟨rfl, hKey⟩ | hBefore
  · have hComponents : d.file.components = key.components := by
      rcases hKey with rfl | ⟨hEq, -⟩
      · rfl
      · exact (Path.compare_eq_iff _ _).mp hEq
    refine ⟨?_, fun e he => ?_, fun e he => ?_⟩
    · rcases hKey with rfl | ⟨-, old, hOld⟩
      · exact ⟨d, hd.1, hd.2, rfl⟩
      · exact (hGroups _ hOld).file_mem
    · rcases List.mem_append.mp he with he | he
      · exact (mem_group hGroups he).1
      · rw [List.mem_singleton.mp he]
        exact hd
    · rcases List.mem_append.mp he with he | he
      · exact (mem_group hGroups he).2.trans hComponents
      · rw [List.mem_singleton.mp he]
        exact hComponents
  · exact hGroups _ hBefore

/- The dependencies inside the source tree are grouped by file. -/
theorem mem_targets
    {entry : Path × List Dependency}
    (hMem : entry ∈ targets deps) :
    IsGroup deps entry.1 entry.2 := by
  have hKept : ∀ d ∈ deps.filter (!·.isExternal),
      d ∈ deps ∧ d.isExternal = false := by
    simp
  unfold targets at hMem
  generalize deps.filter (!·.isExternal) = kept at hKept hMem
  suffices hFold : ∀ groups,
      (∀ entry ∈ groups, IsGroup deps entry.1 entry.2) →
      entry ∈ kept.foldl
        (fun groups d =>
          Dict.insert d.file
            ((Dict.find? d.file groups).getD [] ++ [d]) groups)
        groups → IsGroup deps entry.1 entry.2 by
    exact hFold [] nofun hMem
  clear hMem
  induction kept with
  | nil => exact fun groups hGroups hEntry => hGroups _ hEntry
  | cons d kept ih =>
      intro groups hGroups hEntry
      have hHere := hKept d List.mem_cons_self
      exact
        ih (fun e he => hKept e (List.mem_cons_of_mem d he)) _
          (fun _ hPut => isGroup_insert hGroups hHere hPut)
          hEntry

theorem ne_nil_of_mem_targets
    {entry : Path × List Dependency}
    (hMem : entry ∈ targets deps) :
    entry.2 ≠ [] := by
  unfold targets at hMem
  suffices hFold : ∀ groups : Dict Path (List Dependency),
      (∀ entry ∈ groups, entry.2 ≠ []) →
      entry ∈ (deps.filter (!·.isExternal)).foldl
        (fun groups d =>
          Dict.insert d.file
            ((Dict.find? d.file groups).getD [] ++ [d]) groups)
        groups → entry.2 ≠ [] by
    exact hFold [] nofun hMem
  clear hMem
  induction deps.filter (!·.isExternal) with
  | nil => exact fun groups hGroups hEntry => hGroups _ hEntry
  | cons d kept ih =>
      intro groups hGroups
      refine ih _ fun put hPut => ?_
      rcases Dict.mem_insert hPut with ⟨hValue, -⟩ | hOld
      · rw [hValue]
        simp
      · exact hGroups _ hOld

/- Every dependency inside the source tree is in a group. -/
theorem exists_mem_targets
    {d : Dependency}
    (hMem : d ∈ deps)
    (hHere : d.isExternal = false) :
    ∃ entry ∈ targets deps, d ∈ entry.2 := by
  have hKept : d ∈ deps.filter (!·.isExternal) := by
    simp [hMem, hHere]
  unfold targets
  generalize deps.filter (!·.isExternal) = kept at hKept
  suffices hFold : ∀ groups : Dict Path (List Dependency),
      (d ∈ kept ∨ ∃ entry ∈ groups, d ∈ entry.2) →
      ∃ entry ∈ kept.foldl
        (fun groups d =>
          Dict.insert d.file
            ((Dict.find? d.file groups).getD [] ++ [d]) groups)
        groups, d ∈ entry.2 by
    exact hFold [] (Or.inl hKept)
  clear hKept
  induction kept with
  | nil =>
      rintro groups (hNone | hGroups)
      · cases hNone
      · exact hGroups
  | cons e kept ih =>
      intro groups hWhere
      rw [List.foldl_cons]
      apply ih
      rcases hWhere with hHere | ⟨entry, hEntry, hGroup⟩
      · rcases List.mem_cons.mp hHere with rfl | hRest
        · rcases Dict.exists_mem_insert d.file
              ((Dict.find? d.file groups).getD [] ++ [d]) groups with
            ⟨key, hPut, -⟩
          exact Or.inr ⟨_, hPut, by simp⟩
        · exact Or.inl hRest
      · right
        rcases Dict.mem_insert_of_mem hEntry
            ((Dict.find? e.file groups).getD [] ++ [e]) with
          hStays | ⟨hFound, hSet⟩
        · exact ⟨entry, hStays, hGroup⟩
        · refine ⟨_, hSet, ?_⟩
          simp [hFound, hGroup]

/- One file is generated below the output tree, in each of its ways. -/
theorem fillsOnly_writeEach
    {origin file : Path}
    (hInside : source.LeadsDown origin)
    {group : List Dependency}
    (hPlaced : ∀ d ∈ group, IsPlaced d)
    (hFile :
      ∀ d ∈ group, d.file.components = file.components)
    (copied : Bool) :
    FillsOnly source destination
      (writeEach origin destination file copied group) := by
  induction group generalizing copied with
  | nil => exact .pure []
  | cons d group ih =>
      have hHere := hPlaced d List.mem_cons_self
      have hRest (copied : Bool) :=
        ih (fun e he => hPlaced e (List.mem_cons_of_mem d he))
          (fun e he => hFile e (List.mem_cons_of_mem d he))
          copied
      cases d with
      | compiled i =>
          exact
            .bind
              (fillsOnly_writeCompiled hInside
                (liesBelow_composedPath hHere))
              fun _ => .bind (hRest copied) fun _ => .pure _
      | header p =>
          rw [writeEach]
          split
          · exact hRest copied
          · have hSame := hFile _ List.mem_cons_self
            have hNames : Path.AreNames file.components :=
              hSame ▸ hHere.1
            have hBelow :
                destination.LiesBelow (destination.join file) :=
              ⟨file.components, hSame ▸ hHere.2, hNames,
                Path.components_join_names _ hNames⟩
            exact
              .bind (fillsOnly_copyHeader hInside hBelow)
                fun _ => .bind (hRest true) fun _ => .pure _

theorem fillsOnly_writeFile
    {file : Path}
    {group : List Dependency}
    (hGroup : IsGroup deps file group)
    (hPlaced :
      ∀ d ∈ deps, d.isExternal = false → IsPlaced d) :
    FillsOnly source destination
      (writeFile source destination file group) := by
  have hNames : Path.AreNames file.components := by
    rcases hGroup.file_mem with ⟨d, hMem, hHere, rfl⟩
    exact (hPlaced d hMem hHere).names
  have hEach :
      FillsOnly source destination
        (writeEach (source.join file) destination file false
          group) :=
    fillsOnly_writeEach (leadsDown_join source hNames)
      (fun d hd =>
        hPlaced d (hGroup.mem d hd).1 (hGroup.mem d hd).2)
      hGroup.components_eq false
  unfold writeFile
  refine .bind .get fun w => ?_
  split
  · split
    · rename_i directory _
      refine .bind (.edit fun t => ?_) fun _ => hEach
      exact
        .directories (.refl t)
          (FileTree.addsDirectories_makeDirectories directory t)
    · exact hEach
  · exact .bind (.record _) fun _ => .pure []

theorem fillsOnly_writeAll
    {entries : Dict Path (List Dependency)}
    (hGroups :
      ∀ entry ∈ entries, IsGroup deps entry.1 entry.2)
    (hPlaced :
      ∀ d ∈ deps, d.isExternal = false → IsPlaced d) :
    FillsOnly source destination
      (writeAll source destination entries) := by
  induction entries with
  | nil => exact .pure []
  | cons entry entries ih =>
      have hHere := hGroups entry List.mem_cons_self
      have hRest :=
        ih fun e he => hGroups e (List.mem_cons_of_mem entry he)
      exact
        .bind (fillsOnly_writeFile hHere hPlaced) fun _ =>
          .bind hRest fun _ => .pure _

/-
  Generating dependencies whose files are placed in the source
  tree only fills the output tree.
-/
theorem fillsOnly_generate
    (hPlaced :
      ∀ d ∈ deps, d.isExternal = false → IsPlaced d) :
    FillsOnly source destination
      (generate deps source destination) :=
  .bind
    (fillsOnly_writeAll (fun _ hMem => mem_targets hMem) hPlaced)
    fun _ => .pure _

end Generation

end Variability
