import Variability.Proofs.Generation.Laying

/-
  Dependencies in another order.

  Dependencies are generated by the files they are about, so only
  the order within a group can be another one. What is generated
  for one file is the same in every order, if it goes to different
  places and never over the file itself.

  Nothing is removed. A generated file that is there already, but
  is not recorded now, stays as it is. What is recorded is told by
  the originals that are there, and by nothing else in the tree.

  Main declarations:
    * `Generation.related_targets`
    * `Generation.Lays`
    * `Generation.Leaves`, `Generation.leaves_generate`
    * `Generation.generate_of_succeeds`
    * `Generation.SameOriginals`, `Generation.generate_records`
    * `Generation.Apart`
    * `Generation.writeEach_of_perm`
    * `Generation.generate_of_perm`
-/

namespace Variability

namespace Generation

open FileTree

variable {source destination file : Path}
variable {t t' : FileTree}
variable {deps deps' group group' : List Dependency}
variable {d e : Dependency}
variable {made : List (Path × Origin)}
variable {x y : Path × Origin}
variable {w w' w₁ w₂ : Workspace}

------------------------------------------------------------
-- Groups
------------------------------------------------------------

/- Put a dependency to the others of its file. -/
def addTarget
    (groups : Dict Path (List Dependency))
    (d : Dependency) :
    Dict Path (List Dependency) :=
  Dict.insert d.file
    ((Dict.find? d.file groups).getD [] ++ [d]) groups

theorem targets_eq (deps : List Dependency) :
    targets deps =
      (deps.filter (!·.isExternal)).foldl addTarget [] :=
  rfl

theorem find?_addTarget
    (groups : Dict Path (List Dependency))
    (d : Dependency)
    (p : Path) :
    Dict.find? p (addTarget groups d) =
      if compare p d.file = .eq then
        some ((Dict.find? d.file groups).getD [] ++ [d])
      else
        Dict.find? p groups :=
  Dict.find?_insert_of_trans _ _ _ _

theorem related_addTarget
    {groups groups' : Dict Path (List Dependency)}
    (hRelated : Dict.Related List.Perm groups groups')
    (d : Dependency) :
    Dict.Related List.Perm (addTarget groups d)
      (addTarget groups' d) := by
  refine hRelated.insert d.file (.append_right [d] ?_)
  have hFound := hRelated.find? d.file
  generalize Dict.find? d.file groups = found at hFound
  generalize Dict.find? d.file groups' = found' at hFound
  cases hFound with
  | none => exact .refl []
  | some hPerm => exact hPerm

theorem related_refl
    (groups : Dict Path (List Dependency)) :
    Dict.Related List.Perm groups groups :=
  List.forall₂_same.mpr fun entry _ => ⟨rfl, .refl entry.2⟩

theorem related_trans
    {groups mid groups' : Dict Path (List Dependency)}
    (hFirst : Dict.Related List.Perm groups mid)
    (hSecond : Dict.Related List.Perm mid groups') :
    Dict.Related List.Perm groups groups' := by
  induction hFirst generalizing groups' with
  | nil => exact hSecond
  | cons hHere _ ih =>
      cases hSecond with
      | cons hNext hRest =>
          exact
            .cons
              ⟨hHere.1.trans hNext.1, hHere.2.trans hNext.2⟩
              (ih hRest)

/- Two dependencies can be put to their groups in any order. -/
theorem related_addTarget_addTarget
    (hd : d.file.IsSpelled)
    (he : e.file.IsSpelled)
    (groups : Dict Path (List Dependency)) :
    Dict.Related List.Perm (addTarget (addTarget groups d) e)
      (addTarget (addTarget groups e) d) := by
  by_cases hSame : compare d.file e.file = .eq
  · have hFile : d.file = e.file :=
      ((he.same_iff hd).mp (Path.compare_eq_iff_same.mp hSame)).symm
    have hSelf : compare e.file e.file = .eq :=
      (Path.compare_eq_iff _ _).mpr rfl
    unfold addTarget
    rw [hFile, Dict.find?_insert_of_trans, if_pos hSelf,
      Dict.find?_insert_of_trans, if_pos hSelf,
      Dict.insert_insert, Dict.insert_insert]
    refine (related_refl groups).insert e.file ?_
    rw [Option.getD_some, Option.getD_some, List.append_assoc,
      List.append_assoc]
    exact .append_left _ (.swap e d [])
  · have hSame' : compare e.file d.file ≠ .eq := by
      simp only [ne_eq, Path.compare_eq_iff] at hSame ⊢
      exact fun hEq => hSame hEq.symm
    have hComm :
        addTarget (addTarget groups d) e =
          addTarget (addTarget groups e) d := by
      rw [addTarget, find?_addTarget, if_neg hSame', addTarget,
        Dict.insert_comm hSame', addTarget, find?_addTarget,
        if_neg hSame]
      rfl
    rw [hComm]
    exact related_refl _

/- What is put to groups in another order gives groups in another one. -/
theorem related_foldl
    {ds ds' : List Dependency}
    (hPerm : ds.Perm ds')
    (hSpelled : ∀ d ∈ ds, d.file.IsSpelled)
    {groups groups' : Dict Path (List Dependency)}
    (hRelated : Dict.Related List.Perm groups groups') :
    Dict.Related List.Perm (ds.foldl addTarget groups)
      (ds'.foldl addTarget groups') := by
  induction hPerm generalizing groups groups' with
  | nil => exact hRelated
  | cons d _ ih =>
      exact
        ih (fun e he => hSpelled e (List.mem_cons_of_mem d he))
          (related_addTarget hRelated d)
  | swap d e rest =>
      have hBoth :=
        related_addTarget_addTarget (hSpelled e (by simp))
          (hSpelled d (by simp)) groups
      have hStart :=
        related_trans hBoth
          (related_addTarget (related_addTarget hRelated d) e)
      simp only [List.foldl_cons]
      generalize addTarget (addTarget groups e) d = before
        at hStart ⊢
      generalize addTarget (addTarget groups' d) e = before'
        at hStart ⊢
      clear hBoth hSpelled
      induction rest generalizing before before' with
      | nil => exact hStart
      | cons r rest ih =>
          exact ih _ _ (related_addTarget hStart r)
  | trans hFirst _ ih₁ ih₂ =>
      have hMid := ih₁ hSpelled (related_refl groups)
      have hLast :=
        ih₂ (fun d hd => hSpelled d (hFirst.mem_iff.mpr hd))
          hRelated
      exact related_trans hMid hLast

/- Groups are formed in any order, with their members in another one. -/
theorem related_targets
    (hPerm : deps.Perm deps')
    (hSpelled : ∀ d ∈ deps, d.file.IsSpelled) :
    Dict.Related List.Perm (targets deps) (targets deps') := by
  rw [targets_eq, targets_eq]
  exact
    related_foldl (hPerm.filter _)
      (fun d hd => hSpelled d (List.mem_filter.mp hd).1) .nil

------------------------------------------------------------
-- Single Files
------------------------------------------------------------

/- Generate a file of which the original is known. -/
def writeOne
    (source destination file : Path) :
    Dependency → Job (Path × Origin)
  | .compiled i => writeCompiled source destination i
  | .header _ => copyHeader source destination file

/- The dependencies of a file in turn, headers once. -/
theorem writeEach_cons
    (source destination file : Path)
    (copied : Bool)
    (d : Dependency)
    (rest : List Dependency) :
    writeEach source destination file copied (d :: rest) =
      if copied && d.inclusion?.isNone then
        writeEach source destination file copied rest
      else do
        let made ← writeOne source destination file d
        return made ::
          (← writeEach source destination file
            (copied || d.inclusion?.isNone) rest) := by
  cases d with
  | compiled i => cases copied <;> rfl
  | header p => cases copied <;> rfl

/- How a group is generated: its first member is, or it is skipped. -/
theorem writeEach_cons_eq_ok_iff
    {copied : Bool}
    {rest : List Dependency} :
    writeEach source destination file copied (d :: rest) w =
        (.ok made, w') ↔
      (copied && d.inclusion?.isNone) = true ∧
          writeEach source destination file copied rest w =
            (.ok made, w') ∨
        (copied && d.inclusion?.isNone) = false ∧
          ∃ x v made₁,
            writeOne source destination file d w = (.ok x, v) ∧
            writeEach source destination file
                (copied || d.inclusion?.isNone) rest v =
              (.ok made₁, w') ∧
            made = x :: made₁ := by
  rw [writeEach_cons]
  cases copied && d.inclusion?.isNone with
  | true => simp
  | false =>
      rw [if_neg Bool.false_ne_true]
      constructor
      · intro hRun
        rcases Job.bind_eq_ok hRun with ⟨x, v, hOne, hMore⟩
        rcases Job.bind_eq_ok hMore with ⟨made₁, _, hEach, hPure⟩
        cases hPure
        exact Or.inr ⟨rfl, x, v, made₁, hOne, hEach, rfl⟩
      · rintro (⟨hNever, -⟩ | ⟨-, x, v, made₁, hOne, hEach, rfl⟩)
        · cases hNever
        · rw [Job.bind_of_ok hOne, Job.bind_of_ok hEach]
          rfl

/-
  How a file is generated: it is written where its path leads,
  and it is known what is written unless that is the original.
-/
structure Writes
    (source destination : Path)
    (d : Dependency)
    (names origin : Names)
    (content : List UInt8)
    (w w' : Workspace) : Prop where
  fileToWrite_eq :
    w.files.fileToWrite (destination.join d.target) = .ok names
  resolve_eq :
    w.files.resolve true source =
      .ok (.found origin (.file content))
  exists_eq :
    ∃ text,
      w' = { w with files := w.files.withFile names text } ∧
        (names ≠ origin → text = d.generated content)

namespace Writes

variable {names origin : Names}
variable {content : List UInt8}

theorem isEnd
    (hWrites :
      Writes source destination d names origin content w w') :
    w.files.IsEnd names :=
  isEnd_of_fileToWrite hWrites.fileToWrite_eq

theorem hasFile
    (hWrites :
      Writes source destination d names origin content w w') :
    w'.files.HasFile (destination.join d.target) names := by
  rcases hWrites.exists_eq with ⟨text, rfl, -⟩
  exact hasFile_withFile hWrites.fileToWrite_eq text

theorem retains
    (hWrites :
      Writes source destination d names origin content w w') :
    w.files.Retains w'.files := by
  rcases hWrites.exists_eq with ⟨text, rfl, -⟩
  exact retains_withFile hWrites.isEnd text

theorem eq_of_ne
    (hWrites :
      Writes source destination d names origin content w w')
    (hOther : names ≠ origin) :
    w' = { w with
      files := w.files.withFile names (d.generated content) } := by
  rcases hWrites.exists_eq with ⟨text, hFiles, hText⟩
  rw [hFiles, hText hOther]

end Writes

theorem resolve_of_read
    {p : Path}
    {content : List UInt8}
    (hRead : t.read p = .ok content) :
    ∃ names, t.resolve true p = .ok (.found names (.file content)) := by
  rw [read_eq_ok_iff, status] at hRead
  split at hRead
  · rename_i names entry hResolve
    cases hRead
    exact ⟨names, hResolve⟩
  · cases hRead
  · cases hRead

theorem read_of_resolve
    {p : Path}
    {names : Names}
    {content : List UInt8}
    (hResolve : t.resolve true p = .ok (.found names (.file content))) :
    t.read p = .ok content := by
  rw [FileTree.read, status, hResolve]

theorem writes_writeCompiled
    {i : Inclusion}
    (hRun :
      writeCompiled source destination i w = (.ok x, w')) :
    x = (i.composedPath, ⟨i.file, i.addedLines⟩) ∧
      ∃ names origin content,
        Writes source destination (.compiled i) names origin content
          w w' := by
  rcases Job.bind_eq_ok hRun with ⟨content, _, hLook, hRest⟩
  rcases Job.look_eq_ok hLook with ⟨hRead, rfl⟩
  rcases Job.bind_eq_ok hRest with ⟨_, v, hEdit, hPure⟩
  cases hPure
  rcases Job.edit_eq_ok hEdit with ⟨hWrite, hFiles⟩
  rcases write_eq_ok hWrite with ⟨names, hNames, hTree⟩
  rcases resolve_of_read hRead with ⟨origin, hResolve⟩
  refine
    ⟨rfl, names, origin, content, hNames, hResolve,
      Utf8.encode i.preamble ++ content, ?_, fun _ => rfl⟩
  rw [hFiles, hTree]

/- A source that is elsewhere is the same after a file was written. -/
theorem resolve_source
    {names origin : Names}
    {content : List UInt8}
    (hEnd : t.IsEnd names)
    (hOther : names ≠ origin)
    (hResolve :
      t.resolve true source = .ok (.found origin (.file content)))
    (text : List UInt8) :
    (t.withFile names text).resolve true source =
      .ok (.found origin (.file content)) :=
  (differAt_withFile hEnd text).resolve hResolve rfl hOther.symm

theorem writes_copyHeader
    (hRun :
      copyHeader source destination file w = (.ok x, w')) :
    x = (file, ⟨file, 0⟩) ∧
      ∃ names origin content,
        Writes source destination (.header file) names origin
          content w w' := by
  rcases Job.bind_eq_ok hRun with ⟨_, v, hEdit, hPure⟩
  cases hPure
  rcases Job.edit_eq_ok hEdit with ⟨hCopy, hFiles⟩
  refine ⟨rfl, ?_⟩
  rw [copyFile, Job.get_bind_apply] at hCopy
  cases hStatus : w.files.status source with
  | error e =>
      rw [hStatus] at hCopy
      cases hCopy
  | ok entry =>
      rw [hStatus] at hCopy
      cases entry with
      | directory => cases hCopy
      | link target => cases hCopy
      | file content =>
          rcases Job.bind_eq_ok hCopy with
            ⟨_, t₁, hEmpty, hRest⟩
          rcases write_eq_ok hEmpty with ⟨names, hNames, rfl⟩
          have hEnd := isEnd_of_fileToWrite hNames
          rw [Job.get_bind_apply] at hRest
          rcases resolve_of_read (read_eq_ok_iff.mpr hStatus) with
            ⟨origin, hResolve⟩
          cases hRead :
            (w.files.withFile names []).read source with
          | error e =>
              rw [hRead] at hRest
              cases hRest
          | ok text =>
              rw [hRead] at hRest
              rcases write_eq_ok hRest with
                ⟨names', hNames', hTree⟩
              rw [fileToWrite_withFile hNames] at hNames'
              cases hNames'
              rw [withFile_withFile] at hTree
              refine
                ⟨names, origin, content, hNames, hResolve, text,
                  ?_, fun hOther => ?_⟩
              · rw [hFiles, hTree]
              · have hSame :=
                  read_of_resolve
                    (resolve_source hEnd hOther hResolve [])
                rw [hRead, Except.ok.injEq] at hSame
                exact hSame

/- What is known of a file that was generated. -/
theorem writes_writeOne
    (hFile : d.file = file)
    (hRun :
      writeOne source destination file d w = (.ok x, w')) :
    x = (d.target, d.origin) ∧
      ∃ names origin content,
        Writes source destination d names origin content w w' := by
  cases d with
  | compiled i => exact writes_writeCompiled hRun
  | header p =>
      have hp : p = file := hFile
      subst hp
      exact writes_copyHeader hRun

/- A file can be generated where a path leads to another place. -/
theorem writeOne_of_resolve
    {names origin : Names}
    {content : List UInt8}
    (hFile : d.file = file)
    (hNames :
      w.files.fileToWrite (destination.join d.target) = .ok names)
    (hResolve :
      w.files.resolve true source =
        .ok (.found origin (.file content)))
    (hOther : names ≠ origin) :
    writeOne source destination file d w =
      (.ok (d.target, d.origin), { w with
        files := w.files.withFile names (d.generated content) }) := by
  have hRead := read_of_resolve hResolve
  cases d with
  | compiled i =>
      have hWrite :
          write (destination.join i.composedPath)
              (Utf8.encode i.preamble ++ content) w.files =
            (.ok (), w.files.withFile names
              (Utf8.encode i.preamble ++ content)) := by
        rw [write_apply]
        rw [Dependency.target] at hNames
        rw [hNames]
      rw [writeOne, writeCompiled,
        Job.bind_of_ok (Job.look_of_ok hRead), Job.bind_apply,
        Job.edit, hWrite]
      rfl
  | header p =>
      have hp : p = file := hFile
      subst hp
      have hEnd := isEnd_of_fileToWrite hNames
      have hCopy :=
        copyFile_apply (read_eq_ok_iff.mp hRead) hNames
          (read_of_resolve
            (resolve_source hEnd hOther hResolve []))
      rw [withFile_withFile] at hCopy
      rw [Dependency.target] at hCopy
      rw [writeOne, copyHeader, Job.bind_apply, Job.edit, hCopy]
      rfl

------------------------------------------------------------
-- What Is Laid
------------------------------------------------------------

/-
  What generating does to a tree, and what it records. Apart from
  new directories only the files change that are recorded. All
  others stay, whoever put them there.
-/
structure Lays
    (deps : List Dependency)
    (destination : Path)
    (made : List (Path × Origin))
    (t t' : FileTree) : Prop where
  retains : t.Retains t'
  recorded :
    ∀ entry ∈ made, ∃ d ∈ deps, d.isExternal = false ∧
      entry = (d.target, d.origin)
  hasFile :
    ∀ entry ∈ made, ∃ names,
      t'.HasFile (destination.join entry.1) names
  entry? :
    ∀ names, t'.entry? names = t.entry? names ∨
      t.entry? names = none ∧
          t'.entry? names = some .directory ∨
        ∃ entry ∈ made,
          t'.HasFile (destination.join entry.1) names

namespace Lays

variable {t'' : FileTree}
variable {made' : List (Path × Origin)}

theorem refl (t : FileTree) : Lays deps destination [] t t :=
  ⟨.refl t, nofun, nofun, fun _ => Or.inl rfl⟩

theorem append
    (hFirst : Lays deps destination made t t')
    (hSecond : Lays deps destination made' t' t'') :
    Lays deps destination (made ++ made') t t'' where
  retains := hFirst.retains.trans hSecond.retains
  recorded entry hEntry := by
    rcases List.mem_append.mp hEntry with hEntry | hEntry
    · exact hFirst.recorded entry hEntry
    · exact hSecond.recorded entry hEntry
  hasFile entry hEntry := by
    rcases List.mem_append.mp hEntry with hEntry | hEntry
    · rcases hFirst.hasFile entry hEntry with ⟨names, hFile⟩
      exact ⟨names, hSecond.retains.hasFile hFile⟩
    · exact hSecond.hasFile entry hEntry
  entry? names := by
    have hBefore :
        (∃ entry ∈ made,
          t'.HasFile (destination.join entry.1) names) →
          ∃ entry ∈ made ++ made',
            t''.HasFile (destination.join entry.1) names := by
      rintro ⟨entry, hEntry, hFile⟩
      exact
        ⟨entry, List.mem_append_left _ hEntry,
          hSecond.retains.hasFile hFile⟩
    rcases hSecond.entry? names with
      hSame | ⟨hFree, hMade⟩ | ⟨entry, hEntry, hFile⟩
    · rw [hSame]
      exact (hFirst.entry? names).imp_right (Or.imp_right hBefore)
    · rcases hFirst.entry? names with hSame | ⟨_, hMade'⟩ | hLaid
      · exact Or.inr (Or.inl ⟨hSame.symm.trans hFree, hMade⟩)
      · rw [hFree] at hMade'
        cases hMade'
      · exact Or.inr (Or.inr (hBefore hLaid))
    · exact
        Or.inr (Or.inr
          ⟨entry, List.mem_append_right _ hEntry, hFile⟩)

theorem put
    (t : FileTree)
    (names : Names)
    (hFree : t.entry? names = none) :
    Lays deps destination [] t
      (FileTree.put names .directory t).2 where
  retains := retains_put hFree
  recorded := nofun
  hasFile := nofun
  entry? other := by
    rcases addsDirectories_put hFree other with hSame | hMade
    · exact Or.inl hSame
    · exact Or.inr (Or.inl hMade)

/- Directories that are made are recorded nowhere. -/
theorem of_makeDirectories
    {p above : Path}
    (hRun :
      Job.edit p (FileTree.makeDirectories above) w =
        (.ok (), w')) :
    Lays deps destination [] w.files w'.files := by
  have hMade :
      Lays deps destination [] w.files
        (FileTree.makeDirectories above w.files).2 :=
    moves_makeDirectories .refl .put .append above w.files
  rw [(Job.edit_eq_ok hRun).1] at hMade
  exact hMade

end Lays

/- The dependencies of one file, which is inside. -/
def AreOf
    (deps : List Dependency)
    (file : Path)
    (group : List Dependency) : Prop :=
  ∀ d ∈ group, d ∈ deps ∧ d.isExternal = false ∧ d.file = file

theorem AreOf.perm
    (hGroup : AreOf deps file group)
    (hPerm : group.Perm group') :
    AreOf deps file group' :=
  fun d hd => hGroup d (hPerm.mem_iff.mpr hd)

theorem AreOf.tail
    (hGroup : AreOf deps file (d :: group)) :
    AreOf deps file group :=
  fun e he => hGroup e (List.mem_cons_of_mem d he)

theorem lays_writeOne
    (hd : d ∈ deps)
    (hHere : d.isExternal = false)
    (hFile : d.file = file)
    (hRun :
      writeOne source destination file d w = (.ok x, w')) :
    Lays deps destination [x] w.files w'.files := by
  rcases writes_writeOne hFile hRun with
    ⟨rfl, names, origin, content, hWrites⟩
  refine ⟨hWrites.retains, ?_, ?_, fun other => ?_⟩
  · intro entry hEntry
    exact ⟨d, hd, hHere, List.mem_singleton.mp hEntry⟩
  · intro entry hEntry
    cases List.mem_singleton.mp hEntry
    exact ⟨names, hWrites.hasFile⟩
  · by_cases hOther : other = names
    · subst hOther
      exact
        Or.inr (Or.inr ⟨_, List.mem_cons_self, hWrites.hasFile⟩)
    · rcases hWrites.exists_eq with ⟨text, rfl, -⟩
      left
      rw [entry?_withFile hWrites.isEnd, if_neg hOther]

theorem lays_writeEach
    (hGroup : AreOf deps file group)
    {copied : Bool}
    (hRun :
      writeEach source destination file copied group w =
        (.ok made, w')) :
    Lays deps destination made w.files w'.files := by
  induction group generalizing copied w made with
  | nil =>
      cases hRun
      exact .refl _
  | cons d rest ih =>
      rcases writeEach_cons_eq_ok_iff.mp hRun with
        ⟨-, hNext⟩ | ⟨-, x, v, made₁, hOne, hNext, rfl⟩
      · exact ih hGroup.tail hNext
      · rcases hGroup d List.mem_cons_self with
          ⟨hd, hHere, hFile⟩
        exact
          (lays_writeOne hd hHere hFile hOne).append
            (ih hGroup.tail hNext)

theorem lays_writeFile
    (hGroup : AreOf deps file group)
    (hRun :
      writeFile source destination file group w =
        (.ok made, w')) :
    Lays deps destination made w.files w'.files := by
  unfold writeFile at hRun
  rw [Job.get_bind_apply] at hRun
  split at hRun
  · split at hRun
    · rcases Job.bind_eq_ok hRun with ⟨_, v, hMake, hEach⟩
      exact
        (Lays.of_makeDirectories hMake).append
          (lays_writeEach hGroup hEach)
    · exact lays_writeEach hGroup hRun
  · cases hRun
    exact .refl w.files

theorem lays_writeAll
    {entries : Dict Path (List Dependency)}
    (hGroups : ∀ entry ∈ entries, AreOf deps entry.1 entry.2)
    (hRun :
      writeAll source destination entries w = (.ok made, w')) :
    Lays deps destination made w.files w'.files := by
  induction entries generalizing w made with
  | nil =>
      cases hRun
      exact .refl _
  | cons entry entries ih =>
      rcases Job.bind_eq_ok hRun with ⟨made₁, v, hOne, hMore⟩
      rcases Job.bind_eq_ok hMore with ⟨made₂, _, hAll, hPure⟩
      cases hPure
      exact
        (lays_writeFile (hGroups entry List.mem_cons_self)
          hOne).append
          (ih (fun e he => hGroups e (List.mem_cons_of_mem entry he))
            hAll)

/- Dependencies that are spelled alike are grouped by their files. -/
theorem areOf_of_mem_targets
    (hSpelled : ∀ d ∈ deps, d.file.IsSpelled)
    {entry : Path × List Dependency}
    (hMem : entry ∈ targets deps) :
    AreOf deps entry.1 entry.2 := by
  have hGroup := mem_targets hMem
  intro d hd
  rcases hGroup.mem d hd with ⟨hDeps, hHere⟩
  rcases hGroup.file_mem with ⟨e, he, -, hFile⟩
  have hSame : d.file.same e.file = true := by
    rw [Path.same_iff, hFile]
    exact hGroup.components_eq d hd
  refine ⟨hDeps, hHere, ?_⟩
  rw [← hFile]
  exact
    ((hSpelled d hDeps).same_iff (hSpelled e he)).mp hSame

/-
  What is left behind. All that is recorded is about one of the
  dependencies and is there. Apart from new directories only
  recorded files have changed, so that what else was at the
  destination is still there, also if it was generated before.
-/
structure Leaves
    (deps : List Dependency)
    (destination : Path)
    (generation : Generation)
    (t t' : FileTree) : Prop where
  recorded :
    ∀ p origin, Dict.find? p generation = some origin →
      ∃ d ∈ deps, d.isExternal = false ∧
        d.target.same p = true ∧ origin = d.origin ∧
        ∃ names, t'.HasFile (destination.join d.target) names
  entry? :
    ∀ names, t'.entry? names = t.entry? names ∨
      t.entry? names = none ∧
          t'.entry? names = some .directory ∨
        ∃ d ∈ deps, d.isExternal = false ∧
          (Dict.find? d.target generation).isSome ∧
          t'.HasFile (destination.join d.target) names

theorem Lays.leaves
    (hLays : Lays deps destination made t t') :
    Leaves deps destination (Dict.ofList made) t t' where
  recorded p origin hFound := by
    rcases Dict.exists_of_find?_ofList hFound with
      ⟨entry, hEntry, hSame, rfl⟩
    have hFile := hLays.hasFile entry hEntry
    rcases hLays.recorded entry hEntry with ⟨d, hd, hHere, rfl⟩
    exact
      ⟨d, hd, hHere, Path.compare_eq_iff_same.mp hSame, rfl, hFile⟩
  entry? names := by
    refine (hLays.entry? names).imp_right (Or.imp_right ?_)
    rintro ⟨entry, hEntry, hFile⟩
    rcases hLays.recorded entry hEntry with ⟨d, hd, hHere, rfl⟩
    refine ⟨d, hd, hHere, ?_, hFile⟩
    rw [Option.isSome_iff_ne_none, ne_eq,
      Dict.find?_ofList_eq_none_iff, not_not]
    exact ⟨_, hEntry, Std.ReflCmp.compare_self⟩

/- Generating leaves what it records, besides new directories. -/
theorem leaves_generate
    {generation : Generation}
    {before : Workspace}
    {above p : Path}
    (hSpelled : ∀ d ∈ deps, d.file.IsSpelled)
    (hMake :
      Job.edit p (FileTree.makeDirectories above) before =
        (.ok (), w))
    (hRun :
      generate deps source destination w = (.ok generation, w')) :
    Leaves deps destination generation before.files w'.files := by
  rcases Job.bind_eq_ok hRun with ⟨made, _, hAll, hPure⟩
  cases hPure
  have hLays :=
    lays_writeAll
      (fun _ hEntry => areOf_of_mem_targets hSpelled hEntry) hAll
  exact ((Lays.of_makeDirectories hMake).append hLays).leaves

------------------------------------------------------------
-- What Is Recorded
------------------------------------------------------------

/- What is recorded for one file, of which a header is copied once. -/
def recordEach : Bool → List Dependency → List (Path × Origin)
  | _, [] => []
  | copied, d :: rest =>
      if copied && d.inclusion?.isNone then
        recordEach copied rest
      else
        (d.target, d.origin) ::
          recordEach (copied || d.inclusion?.isNone) rest

/- What is recorded where some originals are there. -/
def recordAll
    (isThere : Path → Bool)
    (deps : List Dependency) :
    List (Path × Origin) :=
  (targets deps).flatMap fun entry =>
    if isThere entry.1 then recordEach false entry.2 else []

/-
  Each dependency can be generated as long as something holds of
  the space, and it holds afterwards.
-/
structure Succeeds
    (Kept : Workspace → Prop)
    (source destination : Path)
    (d : Dependency) : Prop where
  exists_eq :
    ∀ v, Kept v → v.files.exists? (source.join d.file) = true
  makeDirectories :
    ∀ directory, (destination.join d.file).parent? = some directory →
      ∀ v, Kept v →
        ∃ v',
          Job.edit directory (FileTree.makeDirectories directory) v =
            (.ok (), v') ∧
          Kept v'
  writeOne :
    ∀ v, Kept v →
      ∃ v',
        writeOne (source.join d.file) destination d.file d v =
          (.ok (d.target, d.origin), v') ∧
        Kept v'

section

variable {Kept : Workspace → Prop}

theorem writeEach_of_succeeds
    (hGroup :
      ∀ d ∈ group, d.file = file ∧ Succeeds Kept source destination d)
    (hKept : Kept w)
    (copied : Bool) :
    ∃ w',
      writeEach (source.join file) destination file copied group w =
        (.ok (recordEach copied group), w') ∧
      Kept w' := by
  induction group generalizing copied w with
  | nil => exact ⟨w, rfl, hKept⟩
  | cons d rest ih =>
      have hRest :
          ∀ e ∈ rest,
            e.file = file ∧ Succeeds Kept source destination e :=
        fun e he => hGroup e (List.mem_cons_of_mem d he)
      rcases hGroup d List.mem_cons_self with ⟨rfl, hSucceeds⟩
      rw [writeEach_cons, recordEach]
      cases copied && d.inclusion?.isNone with
      | true => exact ih hRest hKept copied
      | false =>
          rcases hSucceeds.writeOne w hKept with
            ⟨w₁, hOne, hKept₁⟩
          rcases ih hRest hKept₁ (copied || d.inclusion?.isNone) with
            ⟨w', hEach, hKept'⟩
          refine ⟨w', ?_, hKept'⟩
          rw [if_neg Bool.false_ne_true, if_neg Bool.false_ne_true,
            Job.bind_of_ok hOne, Job.bind_of_ok hEach]
          rfl

theorem writeFile_of_succeeds
    (hNonempty : group ≠ [])
    (hGroup :
      ∀ d ∈ group, d.file = file ∧ Succeeds Kept source destination d)
    (hKept : Kept w) :
    ∃ w',
      writeFile source destination file group w =
        (.ok (recordEach false group), w') ∧
      Kept w' := by
  rcases List.exists_mem_of_ne_nil group hNonempty with ⟨d, hd⟩
  rcases hGroup d hd with ⟨rfl, hSucceeds⟩
  rw [writeFile, Job.get_bind_apply,
    if_pos (hSucceeds.exists_eq w hKept)]
  cases hParent : (destination.join d.file).parent? with
  | none => exact writeEach_of_succeeds hGroup hKept false
  | some directory =>
      rcases hSucceeds.makeDirectories directory hParent w hKept with
        ⟨w₁, hMake, hKept₁⟩
      dsimp only
      rw [Job.bind_of_ok hMake]
      exact writeEach_of_succeeds hGroup hKept₁ false

theorem writeAll_of_succeeds
    {entries : Dict Path (List Dependency)}
    (hNonempty : ∀ entry ∈ entries, entry.2 ≠ [])
    (hGroups :
      ∀ entry ∈ entries, ∀ d ∈ entry.2,
        d.file = entry.1 ∧ Succeeds Kept source destination d)
    (hKept : Kept w) :
    ∃ w',
      writeAll source destination entries w =
        (.ok (entries.flatMap fun entry =>
          recordEach false entry.2), w') ∧
      Kept w' := by
  induction entries generalizing w with
  | nil => exact ⟨w, rfl, hKept⟩
  | cons entry entries ih =>
      rcases writeFile_of_succeeds (hNonempty _ List.mem_cons_self)
        (hGroups _ List.mem_cons_self) hKept with
        ⟨w₁, hOne, hKept₁⟩
      rcases ih
        (fun e he => hNonempty e (List.mem_cons_of_mem _ he))
        (fun e he => hGroups e (List.mem_cons_of_mem _ he)) hKept₁
        with ⟨w', hAll, hKept'⟩
      refine ⟨w', ?_, hKept'⟩
      rw [writeAll, Job.bind_of_ok hOne, Job.bind_of_ok hAll]
      rfl

/- Where every dependency can be generated, all of them are recorded. -/
theorem generate_of_succeeds
    (hSpelled : ∀ d ∈ deps, d.file.IsSpelled)
    (hSucceeds : ∀ d ∈ deps, Succeeds Kept source destination d)
    (hKept : Kept w) :
    ∃ w',
      generate deps source destination w =
        (.ok (Dict.ofList (recordAll (fun _ => true) deps)), w') ∧
      Kept w' := by
  have hGroups :
      ∀ entry ∈ targets deps, ∀ d ∈ entry.2,
        d.file = entry.1 ∧ Succeeds Kept source destination d := by
    intro entry hEntry d hd
    rcases areOf_of_mem_targets hSpelled hEntry d hd with
      ⟨hMem, -, hFile⟩
    exact ⟨hFile, hSucceeds d hMem⟩
  rcases writeAll_of_succeeds (fun _ => ne_nil_of_mem_targets)
    hGroups hKept with ⟨w', hAll, hKept'⟩
  refine ⟨w', ?_, hKept'⟩
  rw [generate, Job.bind_of_ok hAll]
  rfl

end

------------------------------------------------------------
-- The Same Originals
------------------------------------------------------------

/- What is recorded for a group does not depend on where it is put. -/
theorem writeEach_records
    (hGroup : ∀ d ∈ group, d.file = file)
    {copied : Bool}
    (hRun :
      writeEach (source.join file) destination file copied group w =
        (.ok made, w')) :
    made = recordEach copied group := by
  induction group generalizing copied w made with
  | nil =>
      cases hRun
      rfl
  | cons d rest ih =>
      have hRest : ∀ e ∈ rest, e.file = file :=
        fun e he => hGroup e (List.mem_cons_of_mem d he)
      rcases writeEach_cons_eq_ok_iff.mp hRun with
        ⟨hSkipped, hNext⟩ | ⟨hTaken, x, v, made₁, hOne, hNext, rfl⟩
      · rw [recordEach, if_pos hSkipped]
        exact ih hRest hNext
      · rcases writes_writeOne (hGroup d List.mem_cons_self) hOne
          with ⟨rfl, -⟩
        rw [recordEach, if_neg (by simp [hTaken]),
          ← ih hRest hNext]

theorem writeFile_records
    (hGroup : ∀ d ∈ group, d.file = file)
    (hRun :
      writeFile source destination file group w = (.ok made, w')) :
    made =
      if w.files.exists? (source.join file) then
        recordEach false group
      else
        [] := by
  unfold writeFile at hRun
  rw [Job.get_bind_apply] at hRun
  split at hRun
  · rename_i hThere
    rw [if_pos hThere]
    split at hRun
    · rcases Job.bind_eq_ok hRun with ⟨_, v, -, hEach⟩
      exact writeEach_records hGroup hEach
    · exact writeEach_records hGroup hRun
  · rename_i hMissing
    rw [if_neg hMissing]
    cases hRun
    rfl

/- As long as no original is made, those count that are there. -/
theorem writeAll_records
    {entries : Dict Path (List Dependency)}
    (hGroups : ∀ entry ∈ entries, AreOf deps entry.1 entry.2)
    (hSteady :
      ∀ entry ∈ entries,
        w'.files.exists? (source.join entry.1) = true →
          w.files.exists? (source.join entry.1) = true)
    (hRun :
      writeAll source destination entries w = (.ok made, w')) :
    made =
      entries.flatMap fun entry =>
        if w'.files.exists? (source.join entry.1) then
          recordEach false entry.2
        else
          [] := by
  induction entries generalizing w made with
  | nil =>
      cases hRun
      rfl
  | cons entry entries ih =>
      rcases Job.bind_eq_ok hRun with ⟨made₁, v, hOne, hMore⟩
      rcases Job.bind_eq_ok hMore with ⟨made₂, _, hAll, hPure⟩
      cases hPure
      have hRest : ∀ e ∈ entries, AreOf deps e.1 e.2 :=
        fun e he => hGroups e (List.mem_cons_of_mem entry he)
      have hHere := hGroups entry List.mem_cons_self
      have hFirst := (lays_writeFile hHere hOne).retains
      have hLater := (lays_writeAll hRest hAll).retains
      have hSteady' :
          ∀ e ∈ entries,
            w'.files.exists? (source.join e.1) = true →
              v.files.exists? (source.join e.1) = true :=
        fun e he hThere =>
          hFirst.exists?
            (hSteady e (List.mem_cons_of_mem entry he) hThere)
      have hSame :
          w.files.exists? (source.join entry.1) =
            w'.files.exists? (source.join entry.1) :=
        Bool.eq_iff_iff.mpr
          ⟨fun hThere => hLater.exists? (hFirst.exists? hThere),
            hSteady entry List.mem_cons_self⟩
      rw [writeFile_records (fun d hd => (hHere d hd).2.2) hOne,
        ih hRest hSteady' hAll, hSame, List.flatMap_cons]

/- The originals in two trees are the same. -/
def SameOriginals
    (source : Path)
    (deps : List Dependency)
    (t t' : FileTree) : Prop :=
  ∀ d ∈ deps, d.isExternal = false →
    t.status (source.join d.file) = t'.status (source.join d.file)

namespace SameOriginals

theorem perm
    (hSame : SameOriginals source deps t t')
    (hPerm : deps.Perm deps') :
    SameOriginals source deps' t t' :=
  fun d hd => hSame d (hPerm.mem_iff.mpr hd)

theorem exists?_eq
    (hSame : SameOriginals source deps t t')
    (hd : d ∈ deps)
    (hHere : d.isExternal = false) :
    t.exists? (source.join d.file) =
      t'.exists? (source.join d.file) := by
  rw [FileTree.exists?, hSame d hd hHere, FileTree.exists?]

end SameOriginals

theorem exists_of_mem_targets
    (hSpelled : ∀ d ∈ deps, d.file.IsSpelled)
    {entry : Path × List Dependency}
    (hMem : entry ∈ targets deps) :
    ∃ d ∈ deps, d.isExternal = false ∧ d.file = entry.1 := by
  rcases List.exists_mem_of_ne_nil _ (ne_nil_of_mem_targets hMem)
    with ⟨d, hd⟩
  exact ⟨d, areOf_of_mem_targets hSpelled hMem d hd⟩

/- The same is recorded where the same originals are there. -/
theorem SameOriginals.recordAll_eq
    (hSame : SameOriginals source deps t t')
    (hSpelled : ∀ d ∈ deps, d.file.IsSpelled) :
    recordAll (fun p => t.exists? (source.join p)) deps =
      recordAll (fun p => t'.exists? (source.join p)) deps := by
  refine List.flatMap_congr fun entry hEntry => ?_
  rcases exists_of_mem_targets hSpelled hEntry with
    ⟨d, hd, hHere, hFile⟩
  simp only [← hFile, hSame.exists?_eq hd hHere]

/- What is recorded where the originals stay what they are. -/
theorem generate_records
    {generation : Generation}
    {before : Workspace}
    {above p : Path}
    (hSpelled : ∀ d ∈ deps, d.file.IsSpelled)
    (hMake :
      Job.edit p (FileTree.makeDirectories above) before =
        (.ok (), w))
    (hKept : SameOriginals source deps before.files w'.files)
    (hRun :
      generate deps source destination w = (.ok generation, w')) :
    generation =
      Dict.ofList
        (recordAll (fun p => w'.files.exists? (source.join p))
          deps) := by
  have hMade : Lays deps destination [] before.files w.files :=
    .of_makeDirectories hMake
  rcases Job.bind_eq_ok hRun with ⟨made, _, hAll, hPure⟩
  cases hPure
  have hSteady :
      ∀ entry ∈ targets deps,
        w'.files.exists? (source.join entry.1) = true →
          w.files.exists? (source.join entry.1) = true := by
    intro entry hEntry hThere
    rcases exists_of_mem_targets hSpelled hEntry with
      ⟨d, hd, hHere, hFile⟩
    rw [← hFile, ← hKept.exists?_eq hd hHere] at hThere
    rw [← hFile]
    exact hMade.retains.exists? hThere
  rw [writeAll_records
    (fun _ hEntry => areOf_of_mem_targets hSpelled hEntry) hSteady
    hAll, recordAll]

/- What is recorded is about the originals of dependencies. -/
theorem origin_eq_of_mem
    {generation : Generation}
    (hSpelled : ∀ d ∈ deps, d.file.IsSpelled)
    (hRun :
      generate deps source destination w = (.ok generation, w'))
    {entry : Path × Origin}
    (hEntry : entry ∈ generation) :
    ∃ d ∈ deps, d.isExternal = false ∧ entry.2 = d.origin := by
  rcases Job.bind_eq_ok hRun with ⟨made, _, hAll, hPure⟩
  cases hPure
  have hLays :=
    lays_writeAll
      (fun _ hEntry => areOf_of_mem_targets hSpelled hEntry) hAll
  rcases Dict.exists_of_mem_ofList hEntry with ⟨e, he, hOrigin⟩
  rcases hLays.recorded e he with ⟨d, hd, hHere, rfl⟩
  exact ⟨d, hd, hHere, hOrigin.symm⟩

------------------------------------------------------------
-- Places
------------------------------------------------------------

/-
  What the places of generated files must be like for the order
  not to show. No two dependencies have one target. Of one file
  nothing is generated over something else, nor over the file.
-/
structure Apart
    (t : FileTree)
    (source destination : Path)
    (deps : List Dependency) : Prop where
  targets :
    ∀ d ∈ deps, ∀ e ∈ deps, d.target.same e.target = true → d = e
  places :
    ∀ d ∈ deps, ∀ e ∈ deps, d.file = e.file →
      isWritten t source d = true → isWritten t source e = true →
      ∀ names, t.HasFile (destination.join d.target) names →
        t.HasFile (destination.join e.target) names → d = e
  originals :
    ∀ d ∈ deps, isWritten t source d = true →
      ∀ names, t.HasFile (destination.join d.target) names →
        ¬ t.HasFile (source.join d.file) names

theorem isWritten_of_hasFile
    {names : Names}
    (hHere : d.isExternal = false)
    (hSource : t.HasFile (source.join d.file) names) :
    isWritten t source d = true := by
  rcases hSource with ⟨content, hResolve⟩
  refine isWritten_iff.mpr ⟨hHere, ?_⟩
  rw [FileTree.exists?, status, hResolve]
  rfl

namespace Writes

variable {names origin : Names}
variable {content : List UInt8}

/- The original is not written over. -/
theorem names_ne
    (hWrites :
      Writes (source.join file) destination d names origin content
        w w')
    (hRetains : w'.files.Retains t)
    (hApart : Apart t source destination deps)
    (hd : d ∈ deps)
    (hHere : d.isExternal = false)
    (hFile : d.file = file) :
    names ≠ origin := by
  have hSource : t.HasFile (source.join d.file) origin := by
    rw [hFile]
    exact
      (hWrites.retains.trans hRetains).hasFile
        ⟨content, hWrites.resolve_eq⟩
  rintro rfl
  exact
    hApart.originals d hd (isWritten_of_hasFile hHere hSource) _
      (hRetains.hasFile hWrites.hasFile) hSource

end Writes

/- Two files of one original can be generated in any order. -/
theorem writeOne_swap
    (hApart : Apart t source destination deps)
    (hGroup : AreOf deps file [d, e])
    (hOther : d ≠ e)
    (hFirst :
      writeOne (source.join file) destination file d w =
        (.ok x, w₁))
    (hSecond :
      writeOne (source.join file) destination file e w₁ =
        (.ok y, w₂))
    (hRetains : w₂.files.Retains t) :
    ∃ v,
      writeOne (source.join file) destination file e w =
          (.ok y, v) ∧
        writeOne (source.join file) destination file d v =
          (.ok x, w₂) := by
  rcases hGroup d (by simp) with ⟨hd, hdHere, hdFile⟩
  rcases hGroup e (by simp) with ⟨he, heHere, heFile⟩
  rcases writes_writeOne hdFile hFirst with
    ⟨rfl, names, origin, content, hWrites⟩
  rcases writes_writeOne heFile hSecond with
    ⟨rfl, names', origin', content', hWrites'⟩
  have hRetains₁ := hWrites'.retains.trans hRetains
  have hdPlace :=
    hWrites.names_ne hRetains₁ hApart hd hdHere hdFile
  have hePlace :=
    hWrites'.names_ne hRetains hApart he heHere heFile
  have hFiles := hWrites.eq_of_ne hdPlace
  subst hFiles
  have hEnd := isEnd_of_fileToWrite hWrites.fileToWrite_eq
  -- The original is where it was.
  have hSource :=
    resolve_source hEnd hdPlace hWrites.resolve_eq
      (d.generated content)
  have hSame := hWrites'.resolve_eq
  rw [hSource] at hSame
  cases hSame
  -- The places are different.
  have hPlaces : names' ≠ names := by
    rintro rfl
    have hdWritten : isWritten t source d = true :=
      isWritten_of_hasFile hdHere
        ((hWrites.retains.trans hRetains₁).hasFile
          ⟨content, hdFile ▸ hWrites.resolve_eq⟩)
    have heWritten : isWritten t source e = true :=
      isWritten_of_hasFile heHere
        ((hWrites.retains.trans hRetains₁).hasFile
          ⟨content, heFile ▸ hWrites.resolve_eq⟩)
    exact
      hOther
        (hApart.places d hd e he (hdFile.trans heFile.symm)
          hdWritten heWritten _ (hRetains₁.hasFile hWrites.hasFile)
          (hRetains.hasFile hWrites'.hasFile))
  have hNames' :
      w.files.fileToWrite (destination.join e.target) =
        .ok names' :=
    (differAt_withFile hEnd _).symm.fileToWrite
      hWrites'.fileToWrite_eq hPlaces
  have hEnd' := isEnd_of_fileToWrite hNames'
  have hNames :=
    (differAt_withFile hEnd' (e.generated content)).fileToWrite
      hWrites.fileToWrite_eq hPlaces.symm
  refine
    ⟨_, writeOne_of_resolve heFile hNames' hWrites.resolve_eq
      hePlace, ?_⟩
  rw [writeOne_of_resolve hdFile hNames
    (resolve_source hEnd' hePlace hWrites.resolve_eq _) hdPlace,
    hWrites'.eq_of_ne hePlace, withFile_comm hPlaces]

------------------------------------------------------------
-- Groups in Another Order
------------------------------------------------------------

/- Of two headers of one file the second is the first. -/
theorem compiled_of_ne
    (hOther : d ≠ e)
    (hFile : d.file = e.file) :
    d.inclusion?.isNone = false ∨ e.inclusion?.isNone = false := by
  cases d with
  | compiled i => exact Or.inl rfl
  | header p =>
      cases e with
      | compiled i => exact Or.inr rfl
      | header q =>
          exact absurd (congrArg Dependency.header hFile) hOther

/- Two members of a group can be exchanged. -/
theorem writeEach_swap
    {rest : List Dependency}
    (hApart : Apart t source destination deps)
    (hGroup : AreOf deps file (d :: e :: rest))
    {copied : Bool}
    (hRun :
      writeEach (source.join file) destination file copied
          (d :: e :: rest) w =
        (.ok made, w'))
    (hRetains : w'.files.Retains t) :
    ∃ made',
      writeEach (source.join file) destination file copied
          (e :: d :: rest) w =
        (.ok made', w') ∧
      made.Perm made' := by
  by_cases hOther : d = e
  · subst hOther
    exact ⟨made, hRun, .refl made⟩
  have hFile : d.file = e.file :=
    (hGroup d (by simp)).2.2.trans (hGroup e (by simp)).2.2.symm
  have hRest : AreOf deps file rest :=
    fun r hr => hGroup r (by simp [hr])
  have hCompiled := compiled_of_ne hOther hFile
  rcases writeEach_cons_eq_ok_iff.mp hRun with
    ⟨hdSkipped, hNext⟩ | ⟨hdTaken, x, w₁, made₁, hOne, hNext, rfl⟩
  · rcases writeEach_cons_eq_ok_iff.mp hNext with
      ⟨heSkipped, _⟩ | ⟨heTaken, y, w₂, made₂, hTwo, hLast, rfl⟩
    · grind
    · refine
        ⟨y :: made₂, writeEach_cons_eq_ok_iff.mpr (Or.inr
          ⟨heTaken, y, w₂, made₂, hTwo,
            writeEach_cons_eq_ok_iff.mpr (Or.inl ⟨?_, hLast⟩), rfl⟩),
          .refl _⟩
      grind
  · rcases writeEach_cons_eq_ok_iff.mp hNext with
      ⟨heSkipped, hLast⟩ |
        ⟨heTaken, y, w₂, made₂, hTwo, hLast, rfl⟩
    · refine
        ⟨x :: made₁, writeEach_cons_eq_ok_iff.mpr (Or.inl
          ⟨?_, writeEach_cons_eq_ok_iff.mpr (Or.inr
            ⟨hdTaken, x, w₁, made₁, hOne, hLast, rfl⟩)⟩),
          .refl _⟩
      grind
    · have hPair : AreOf deps file [d, e] :=
        fun r hr => hGroup r ((List.prefix_append _ rest).subset hr)
      have hLays := lays_writeEach hRest hLast
      rcases writeOne_swap hApart hPair hOther hOne hTwo
        (hLays.retains.trans hRetains) with ⟨v, hTwo', hOne'⟩
      rw [Bool.or_right_comm] at hLast
      refine
        ⟨y :: x :: made₂, writeEach_cons_eq_ok_iff.mpr (Or.inr
          ⟨?_, y, v, x :: made₂, hTwo',
            writeEach_cons_eq_ok_iff.mpr (Or.inr
              ⟨?_, x, w₂, made₂, hOne', hLast, rfl⟩), rfl⟩),
          .swap y x made₂⟩
      · grind
      · grind

/- The order within a group does not count. -/
theorem writeEach_of_perm
    (hPerm : group.Perm group')
    (hApart : Apart t source destination deps)
    (hGroup : AreOf deps file group)
    {copied : Bool}
    (hRun :
      writeEach (source.join file) destination file copied group
          w =
        (.ok made, w'))
    (hRetains : w'.files.Retains t) :
    ∃ made',
      writeEach (source.join file) destination file copied group'
          w =
        (.ok made', w') ∧
      made.Perm made' := by
  induction hPerm generalizing copied w made with
  | nil => exact ⟨made, hRun, .refl made⟩
  | cons d _ ih =>
      have hRest : AreOf deps file _ :=
        fun e he => hGroup e (List.mem_cons_of_mem d he)
      rcases writeEach_cons_eq_ok_iff.mp hRun with
        ⟨hSkipped, hNext⟩ | ⟨hTaken, x, v, _, hOne, hNext, rfl⟩
      · rcases ih hRest hNext with ⟨made', hRun', hMade⟩
        exact
          ⟨made',
            writeEach_cons_eq_ok_iff.mpr (Or.inl ⟨hSkipped, hRun'⟩),
            hMade⟩
      · rcases ih hRest hNext with ⟨made', hRun', hMade⟩
        exact
          ⟨x :: made',
            writeEach_cons_eq_ok_iff.mpr (Or.inr
              ⟨hTaken, x, v, made', hOne, hRun', rfl⟩),
            hMade.cons x⟩
  | swap d e rest => exact writeEach_swap hApart hGroup hRun hRetains
  | trans hFirst _ ih₁ ih₂ =>
      rcases ih₁ hGroup hRun with ⟨made₁, hRun₁, hMade₁⟩
      rcases ih₂ (hGroup.perm hFirst) hRun₁ with
        ⟨made₂, hRun₂, hMade₂⟩
      exact ⟨made₂, hRun₂, hMade₁.trans hMade₂⟩

theorem writeFile_of_perm
    (hPerm : group.Perm group')
    (hApart : Apart t source destination deps)
    (hGroup : AreOf deps file group)
    (hRun :
      writeFile source destination file group w =
        (.ok made, w'))
    (hRetains : w'.files.Retains t) :
    ∃ made',
      writeFile source destination file group' w =
        (.ok made', w') ∧
      made.Perm made' := by
  unfold writeFile at hRun ⊢
  rw [Job.get_bind_apply] at hRun ⊢
  split at hRun
  · rename_i hExists
    rw [if_pos hExists]
    cases hParent : (destination.join file).parent? with
    | none =>
        rw [hParent] at hRun
        exact writeEach_of_perm hPerm hApart hGroup hRun hRetains
    | some above =>
        rw [hParent] at hRun
        rcases Job.bind_eq_ok hRun with ⟨_, v, hMake, hEach⟩
        rcases writeEach_of_perm hPerm hApart hGroup hEach hRetains
          with ⟨made', hEach', hMade⟩
        exact ⟨made', (Job.bind_of_ok hMake _).trans hEach', hMade⟩
  · rename_i hMissing
    rw [if_neg hMissing]
    exact ⟨made, hRun, .refl made⟩

/- Groups in which the order differs generate the same. -/
theorem writeAll_of_related
    {entries entries' : Dict Path (List Dependency)}
    (hRelated : Dict.Related List.Perm entries entries')
    (hApart : Apart t source destination deps)
    (hGroups : ∀ entry ∈ entries, AreOf deps entry.1 entry.2)
    (hRun :
      writeAll source destination entries w = (.ok made, w'))
    (hRetains : w'.files.Retains t) :
    ∃ made',
      writeAll source destination entries' w = (.ok made', w') ∧
        made.Perm made' := by
  induction hRelated generalizing w made with
  | nil => exact ⟨made, hRun, .refl made⟩
  | @cons entry entry' entries entries' hHere _ ih =>
      rcases entry with ⟨file, group⟩
      rcases entry' with ⟨file', group'⟩
      rcases hHere with ⟨hFile, hPerm⟩
      dsimp only at hFile hPerm
      subst hFile
      have hRest : ∀ entry ∈ entries, AreOf deps entry.1 entry.2 :=
        fun entry hEntry =>
          hGroups entry (List.mem_cons_of_mem _ hEntry)
      rcases Job.bind_eq_ok hRun with ⟨made₁, v, hOne, hMore⟩
      rcases Job.bind_eq_ok hMore with ⟨made₂, _, hAll, hPure⟩
      cases hPure
      have hLays := lays_writeAll hRest hAll
      rcases writeFile_of_perm hPerm hApart
        (hGroups _ List.mem_cons_self) hOne
        (hLays.retains.trans hRetains) with
        ⟨made₁', hOne', hMade₁⟩
      rcases ih hRest hAll with ⟨made₂', hAll', hMade₂⟩
      refine ⟨made₁' ++ made₂', ?_, hMade₁.append hMade₂⟩
      rw [writeAll, Job.bind_of_ok hOne', Job.bind_of_ok hAll']
      rfl

/- What is recorded is told apart by the targets. -/
theorem eq_of_recorded
    (hRecorded :
      ∀ entry ∈ made, ∃ d ∈ deps, d.isExternal = false ∧
        entry = (d.target, d.origin))
    (hApart : Apart t source destination deps)
    {entry entry' : Path × Origin}
    (hEntry : entry ∈ made)
    (hEntry' : entry' ∈ made)
    (hSame : compare entry.1 entry'.1 = .eq) :
    entry = entry' := by
  rcases hRecorded entry hEntry with ⟨d, hd, -, rfl⟩
  rcases hRecorded entry' hEntry' with ⟨d', hd', -, rfl⟩
  rw [Path.compare_eq_iff_same] at hSame
  rw [hApart.targets d' hd' d hd hSame]

/-
  Dependencies in another order generate the same files, and the
  same is recorded.
-/
theorem generate_of_perm
    {generation : Generation}
    (hPerm : deps.Perm deps')
    (hSpelled : ∀ d ∈ deps, d.file.IsSpelled)
    (hApart : Apart w'.files source destination deps)
    (hRun :
      generate deps source destination w = (.ok generation, w')) :
    generate deps' source destination w = (.ok generation, w') := by
  rcases Job.bind_eq_ok hRun with ⟨made, _, hAll, hPure⟩
  cases hPure
  have hGroups :=
    fun entry (hEntry : entry ∈ targets deps) =>
      areOf_of_mem_targets hSpelled hEntry
  rcases writeAll_of_related (related_targets hPerm hSpelled)
    hApart hGroups hAll (.refl _) with ⟨made', hAll', hMade⟩
  have hRecorded := (lays_writeAll hGroups hAll).recorded
  have hSame : Dict.ofList made = Dict.ofList made' :=
    Dict.ofList_eq_of_perm
      (fun _ he _ he' => eq_of_recorded hRecorded hApart he he')
      hMade
  rw [generate, Job.bind_of_ok hAll', hSame]
  rfl

end Generation

end Variability
