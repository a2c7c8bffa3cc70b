import Variability.Proofs.FileTree.Writing
import Variability.Proofs.FileTree.Layouts

/-
  Laying out a directory.

  Making directories and writing files of a layout keeps to it and
  changes nothing else, and it fails only if the layout has one
  name for a directory and for a file.

  Main declarations:
    * `FileTree.endsIn_makeDirectories`
    * `FileTree.endsIn_write`
    * `FileTree.endsIn_copyFile`
-/

namespace Variability

namespace FileTree

variable {t t' t'' : FileTree}
variable {directory rel : Names}
variable {root p : Path}
variable {l : Layout}
variable {content : List UInt8}

------------------------------------------------------------
-- Making Directories
------------------------------------------------------------

/- What is made if all goes well: the directories on a way. -/
structure OpensTo
    (l : Layout)
    (root : Path)
    (directory rel : Names)
    (t t' : FileTree) : Prop where
  laidOut : LaidOut l root directory t'
  grows : GrowsBelow directory t t'
  isOpen : t'.IsOpen directory rel

theorem withoutSlash_eq
    (hTrimmed : p.IsTrimmed) :
    withoutSlash p = p := by
  rcases p with ⟨text⟩
  have hLast : text.toList.reverse.head? ≠ some '/' := by
    rw [List.head?_reverse]
    exact hTrimmed.getLast?_ne
  have hKeep :
      text.toList.reverse.dropWhile (· = '/') =
        text.toList.reverse := by
    generalize text.toList.reverse = s at hLast
    cases s with
    | nil => rfl
    | cons c s =>
        have hc : c ≠ '/' := by simpa using hLast
        rw [List.dropWhile_cons, if_neg (by simpa using hc)]
  rw [withoutSlash, hKeep, List.reverse_reverse,
    String.ofList_toList]

/- What happens when a directory is made where a way leads. -/
theorem makeDirectory_apply
    (hSlash : withoutSlash p = p)
    (t : FileTree) :
    makeDirectory p t =
      match t.resolve false p with
      | .ok (.vacant names) => put names .directory t
      | .ok (.found _ _) => (.error .alreadyExists, t)
      | .error e => (.error e, t) := by
  rw [makeDirectory, Job.get_bind_apply, hSlash]
  rcases t.resolve false p with e | (⟨names, entry⟩ | names) <;> rfl

theorem unlessDirectory_apply
    (p : Path)
    (e : FileError)
    (t : FileTree) :
    unlessDirectory p e t =
      match t.resolve true p with
      | .ok (.found _ .directory) => (.ok (), t)
      | _ => (.error e, t) := by
  rw [unlessDirectory, Job.get_bind_apply, isDirectory, status]
  rcases t.resolve true p with
    e | (⟨names, _ | _ | _⟩ | names) <;> rfl

/-
  A directory whose parent is there is made, or it is there, or
  a file is in its place.
-/
theorem endsIn_makeDirectory
    (hLaid : LaidOut l root directory t)
    (hPath : root.GoesOn p rel)
    (hDirectories :
      ∀ before, before ≠ [] → before <+: rel →
        l.directories before)
    {handle : FileError → InTree Unit}
    (hHandle :
      ∀ e, e ≠ .notFound → handle e = unlessDirectory p e)
    (hThere : t.resolve false p ≠ .error .notFound) :
    Job.EndsIn
      (fun _ t' => OpensTo l root directory rel t t')
      l.IsObstructed
      (tryCatch (makeDirectory p) handle t) := by
  rcases hLaid.exists_leads hPath with ⟨result, hLeads, hResolve⟩
  have hMake :=
    makeDirectory_apply (withoutSlash_eq hPath.isTrimmed) t
  have hUnless (e : FileError) := unlessDirectory_apply p e t
  rw [hResolve] at hMake hThere
  simp only [hResolve] at hUnless
  have hAllowed : l.Allows rel .directory :=
    hDirectories rel hPath.ne_nil List.prefix_rfl
  rw [Job.tryCatch_apply, hMake]
  cases hLeads with
  | vacant hOpen hFree =>
      have hNames : directory ++ rel ≠ [] := by
        simp [hPath.ne_nil]
      have hPut :=
        hLaid.put hPath.ne_nil hAllowed
          (fun old hOld => by rw [hFree] at hOld; cases hOld)
          (entry?_insert hNames t .directory) rfl
      exact
        .ok ⟨hPut.1, hPut.2.1,
          (hOpen.grows hPut.2.1.toGrows).of_dropLast hPath.ne_nil
            hPut.2.2⟩
  | @found entry hOpen hEntry =>
      dsimp only
      rw [hHandle _ (by decide), hUnless]
      cases entry with
      | directory =>
          exact
            .ok ⟨hLaid, .refl directory t,
              hOpen.of_dropLast hPath.ne_nil hEntry⟩
      | file content =>
          exact
            .error ⟨rel, content, hAllowed,
              hLaid.file_of_entry?_eq hPath.ne_nil hEntry⟩
      | link target =>
          exact absurd hEntry (hLaid.hasNoLinks _ _ hPath.ne_nil)
  | @blocked before content hNonempty hBefore hFile =>
      dsimp only
      rw [hHandle _ (by decide), hUnless]
      exact
        .error ⟨before, content,
          hDirectories before hNonempty
            (hBefore.trans (List.dropLast_prefix rel)),
          hLaid.file_of_entry?_eq hNonempty hFile⟩
  | missing hNonempty hBefore hFree => exact absurd rfl hThere

/- The parent of a path that ends in names lies one name above it. -/
theorem goesOn_parent_of_components
    (hComponents :
      p.components = root.components ++ rel.map .name)
    (hNames : Path.AreNames (rel.map .name))
    (hZero : ∀ name ∈ rel, '\x00' ∉ name.toList)
    (hNonempty : rel ≠ []) :
    ∃ above, p.parent? = some above ∧
      above.components =
        root.components ++ rel.dropLast.map .name ∧
      (rel.dropLast ≠ [] → root.GoesOn above rel.dropLast) := by
  have hSplit :
      p.components =
        (root.components ++ rel.dropLast.map .name) ++
          [.name (rel.getLast hNonempty)] := by
    rw [hComponents, List.append_assoc]
    congr 1
    conv_lhs =>
      rw [← List.dropLast_append_getLast hNonempty]
    simp
  rcases Path.exists_parent? hSplit with ⟨above, hParent⟩
  have hAbove :
      above.components =
        root.components ++ rel.dropLast.map .name := by
    rw [Path.components_parent? hParent, hSplit,
      List.dropLast_concat]
  refine ⟨above, hParent, hAbove, fun hRel => ?_⟩
  have hBefore : Path.AreNames (rel.dropLast.map .name) := by
    rw [List.map_dropLast]
    exact hNames.dropLast
  refine
    ⟨hAbove, ?_, hBefore, fun name hMem =>
      hZero name (List.dropLast_subset rel hMem), hRel⟩
  rcases List.eq_nil_or_concat rel.dropLast with
    hNone | ⟨before, name, hLast⟩
  · exact absurd hNone hRel
  · apply Path.isTrimmed_of_parent? hParent
    rw [hAbove, hLast, List.concat_eq_append, List.map_append,
      List.map_singleton, ← List.append_assoc]

/- The parent of a path that goes on lies one name above it. -/
theorem goesOn_parent
    (hPath : root.GoesOn p rel) :
    ∃ above, p.parent? = some above ∧
      above.components =
        root.components ++ rel.dropLast.map .name ∧
      (rel.dropLast ≠ [] → root.GoesOn above rel.dropLast) :=
  goesOn_parent_of_components hPath.components_eq hPath.areNames
    hPath.not_mem_zero hPath.ne_nil

/- A way is made as far as it is not there. -/
theorem endsIn_makeDirectoriesWithin
    {depth : Nat}
    (hLaid : LaidOut l root directory t)
    (hPath : root.GoesOn p rel)
    (hDirectories :
      ∀ before, before ≠ [] → before <+: rel →
        l.directories before)
    (hDepth : rel.length ≤ depth) :
    Job.EndsIn
      (fun _ t' => OpensTo l root directory rel t t')
      l.IsObstructed
      (makeDirectoriesWithin depth p t) := by
  induction depth generalizing p rel t with
  | zero =>
      have hNone : rel = [] := by simpa using hDepth
      exact absurd hNone hPath.ne_nil
  | succ depth ih =>
      rw [makeDirectoriesWithin,
        if_neg (by simpa using hPath.isTrimmed.text_ne)]
      by_cases hMissing : t.resolve false p = .error .notFound
      · rcases hLaid.missing_of_resolve_eq hPath hMissing with
          ⟨before, hNonempty, hBefore, -⟩
        have hDrop : rel.dropLast ≠ [] := by
          intro hNone
          rw [hNone] at hBefore
          exact hNonempty (List.prefix_nil.mp hBefore)
        rcases goesOn_parent hPath with
          ⟨above, hParent, -, hAbove⟩
        have hEnds :=
          ih hLaid (hAbove hDrop)
            (fun other hOther hPrefix =>
              hDirectories other hOther
                (hPrefix.trans (List.dropLast_prefix rel)))
            (by rw [List.length_dropLast]; omega)
        rw [Job.tryCatch_apply,
          makeDirectory_apply (withoutSlash_eq hPath.isTrimmed),
          hMissing, hParent]
        refine
          Job.EndsIn.bind
            (f := makeDirectoriesWithin depth above)
            (hEnds.imp fun _ t' hOpens => ?_)
        -- The parent is there now.
        have hThere : t'.resolve false p ≠ .error .notFound := by
          intro hResolve
          rcases hOpens.laidOut.missing_of_resolve_eq hPath
              hResolve with
            ⟨other, hOther, hPrefix, hFree⟩
          rw [hOpens.isOpen other hOther hPrefix] at hFree
          cases hFree
        have hLast :=
          endsIn_makeDirectory hOpens.laidOut hPath hDirectories
            (fun _ _ => rfl) hThere
        exact
          hLast.imp fun _ t'' h =>
            ⟨h.laidOut, hOpens.grows.trans h.grows, h.isOpen⟩
      · apply endsIn_makeDirectory hLaid hPath hDirectories _ hMissing
        intro e he
        cases e <;> first | rfl | exact absurd rfl he

/- The directory that is there already cannot be made again. -/
theorem exists_makeDirectory_eq
    {q : Path}
    (hParent : q.parent? = some p)
    (hResolve :
      t.resolve true p = .ok (.found directory .directory)) :
    ∃ e, makeDirectory p t = (.error e, t) ∧
      (e = .notFound → p.parent? = none) := by
  have hHere (hSlash : withoutSlash p = p) :
      makeDirectory p t = (.error .alreadyExists, t) := by
    rcases resolve_false_of_directory hResolve with
      ⟨names, entry, hFound⟩
    rw [makeDirectory_apply hSlash, hFound]
  rcases Path.parent?_cases hParent with
    hTrimmed | hText | hText | hText
  · exact ⟨_, hHere (withoutSlash_eq hTrimmed), nofun⟩
  · rw [resolve, hText] at hResolve
    cases hResolve
  · -- The root has no name that it could be made under.
    rcases p with ⟨text⟩
    cases hText
    exact ⟨.notFound, rfl, fun _ => rfl⟩
  · rcases p with ⟨text⟩
    cases hText
    exact ⟨_, hHere rfl, nofun⟩

/- Nothing is made of it. -/
theorem makeDirectories_same
    {q : Path}
    (hRoot :
      t.resolve true root = .ok (.found directory .directory))
    (hParent : q.parent? = some p)
    (hComponents : p.components = root.components) :
    makeDirectories p t = (.ok (), t) := by
  rw [makeDirectories, makeDirectoriesWithin]
  by_cases hText : p.text = ""
  · rw [if_pos (by simpa using hText)]
    rfl
  rw [if_neg (by simpa using hText)]
  have hResolve :=
    resolve_same hRoot hComponents hText
  have hUnless (e : FileError) :
      unlessDirectory p e t = (.ok (), t) := by
    rw [unlessDirectory_apply, hResolve]
  rcases exists_makeDirectory_eq hParent hResolve with
    ⟨e, hMake, hNone⟩
  rw [Job.tryCatch_apply, hMake]
  by_cases hMissing : e = .notFound
  · rw [hMissing, hNone hMissing]
    exact hUnless _
  · cases e <;> first | exact hUnless _ | exact absurd rfl hMissing

/- The directories on the way to a path are made. -/
theorem endsIn_makeDirectories
    (hLaid : LaidOut l root directory t)
    (hPath : root.GoesOn p rel)
    (hDirectories :
      ∀ before, before ≠ [] → before <+: rel.dropLast →
        l.directories before) :
    ∃ above, p.parent? = some above ∧
      Job.EndsIn
        (fun _ t' => OpensTo l root directory rel.dropLast t t')
        l.IsObstructed
        (makeDirectories above t) := by
  rcases goesOn_parent hPath with
    ⟨above, hParent, hComponents, hAbove⟩
  refine ⟨above, hParent, ?_⟩
  by_cases hRel : rel.dropLast = []
  · rw [hRel, List.map_nil, List.append_nil] at hComponents
    rw [makeDirectories_same hLaid.resolve_eq hParent hComponents,
      hRel]
    exact
      .ok ⟨hLaid, .refl directory t, fun before hNonempty hBefore =>
        absurd (List.prefix_nil.mp hBefore) hNonempty⟩
  · apply endsIn_makeDirectoriesWithin hLaid (hAbove hRel)
      hDirectories
    rw [hComponents, List.length_append, List.length_map]
    omega

------------------------------------------------------------
-- Writing Files
------------------------------------------------------------

/- What is written if all goes well: a file in its place. -/
structure PutsFile
    (l : Layout)
    (root : Path)
    (directory rel : Names)
    (content : List UInt8)
    (t t' : FileTree) : Prop where
  laidOut : LaidOut l root directory t'
  grows : GrowsBelow directory t t'
  entry?_eq : t'.entry? (directory ++ rel) = some (.file content)

/- A file can be written whose parent is there, or a directory is. -/
theorem fileToWrite_cases
    (hLaid : LaidOut l root directory t)
    (hPath : root.GoesOn p rel)
    (hOpen : t.IsOpen directory rel.dropLast) :
    t.entry? (directory ++ rel) = some .directory ∧
        t.fileToWrite p = .error .isADirectory ∨
      t.IsEnd (directory ++ rel) ∧
        t.fileToWrite p = .ok (directory ++ rel) := by
  rcases hLaid.exists_leads hPath with ⟨result, hLeads, hResolve⟩
  rw [fileToWrite, hResolve]
  cases hLeads with
  | @found entry _ hEntry =>
      cases entry with
      | directory => exact Or.inl ⟨hEntry, rfl⟩
      | link target =>
          exact absurd hEntry (hLaid.hasNoLinks _ _ hPath.ne_nil)
      | file content =>
          refine Or.inr ⟨fun other hOther => ⟨content, ?_⟩, rfl⟩
          rw [hEntry] at hOther
          exact (Option.some.inj hOther).symm
  | vacant _ hFree =>
      refine Or.inr ⟨fun other hOther => ?_, rfl⟩
      rw [hFree] at hOther
      cases hOther
  | blocked hNonempty hBefore hFile =>
      rw [hOpen _ hNonempty hBefore] at hFile
      cases hFile
  | missing hNonempty hBefore hFree =>
      rw [hOpen _ hNonempty hBefore] at hFree
      cases hFree

/- A tree that has a file in its place is one where it was written. -/
theorem putsFile_of_entry?_eq
    (hLaid : LaidOut l root directory t)
    (hRel : rel ≠ [])
    (hFiles : l.files rel content)
    (hEnd : t.IsEnd (directory ++ rel))
    (hEntry :
      ∀ names, t'.entry? names =
        if names = directory ++ rel then
          some (.file content)
        else
          t.entry? names)
    (hCurrent : t'.current = t.current) :
    PutsFile l root directory rel content t t' := by
  have hFree :
      ∀ old, t.entry? (directory ++ rel) = some old →
        old = .file content := by
    intro old hOld
    rcases hEnd old hOld with ⟨before, rfl⟩
    rw [l.content_eq (hLaid.file_of_entry?_eq hRel hOld) hFiles]
  have hAllowed : l.Allows rel (.file content) := hFiles
  rcases hLaid.put hRel hAllowed hFree hEntry hCurrent with
    ⟨hLaid', hGrows, hHere⟩
  exact ⟨hLaid', hGrows, hHere⟩

/- A file of the layout is written where its parent is there. -/
theorem endsIn_write
    (hLaid : LaidOut l root directory t)
    (hPath : root.GoesOn p rel)
    (hFiles : l.files rel content)
    (hOpen : t.IsOpen directory rel.dropLast) :
    Job.EndsIn
      (fun _ t' => PutsFile l root directory rel content t t')
      l.IsObstructed
      (write p content t) := by
  rcases fileToWrite_cases hLaid hPath hOpen with
    ⟨hEntry, hNames⟩ | ⟨hEnd, hNames⟩
  · rw [write_apply, hNames]
    exact .error (hLaid.isObstructed hPath.ne_nil hFiles hEntry)
  · rw [write_apply, hNames]
    exact
      .ok (putsFile_of_entry?_eq hLaid hPath.ne_nil hFiles hEnd
        (entry?_withFile hEnd content) rfl)

/- What was written can be written again. -/
theorem fileToWrite_withFile
    {names : Names}
    (hNames : t.fileToWrite p = .ok names) :
    (t.withFile names content).fileToWrite p = .ok names := by
  rcases resolve_of_fileToWrite hNames with
    ⟨place, hResolve, hFile⟩
  rw [fileToWrite, resolve_withFile hResolve hFile]

/- A copy is written to its target after that was emptied. -/
theorem copyFile_apply
    {source : Path}
    {names : Names}
    (hSource : t.status source = .ok (.file content))
    (hNames : t.fileToWrite p = .ok names)
    (hRead : (t.withFile names []).read source = .ok content) :
    copyFile source p t =
      (.ok (), (t.withFile names []).withFile names content) := by
  have hEmpty : write p [] t = (.ok (), t.withFile names []) := by
    rw [write_apply, hNames]
  rw [copyFile, Job.get_bind_apply, hSource]
  dsimp only
  rw [Job.bind_of_ok hEmpty, Job.get_bind_apply, hRead]
  dsimp only
  rw [write_apply, fileToWrite_withFile hNames]

/-
  So is a copy of a file that is there before. It lies outside, so
  it is still there when the target was emptied.
-/
theorem endsIn_copyFile
    {t₀ : FileTree}
    {source : Path}
    (hGrows : Grows t₀ t)
    (hSource : t₀.status source = .ok (.file content))
    (hFree : t₀.entry? (directory ++ rel) = none)
    (hLaid : LaidOut l root directory t)
    (hPath : root.GoesOn p rel)
    (hFiles : l.files rel content)
    (hOpen : t.IsOpen directory rel.dropLast) :
    Job.EndsIn
      (fun _ t' => PutsFile l root directory rel content t t')
      l.IsObstructed
      (copyFile source p t) := by
  have hStatus := hGrows.status_eq hSource
  rcases fileToWrite_cases hLaid hPath hOpen with
    ⟨hEntry, hNames⟩ | ⟨hEnd, hNames⟩
  · rw [copyFile, Job.get_bind_apply, hStatus]
    dsimp only
    rw [Job.bind_apply, write_apply, hNames]
    exact .error (hLaid.isObstructed hPath.ne_nil hFiles hEntry)
  have hEmptied : Grows t₀ (t.withFile (directory ++ rel) []) := by
    refine ⟨hGrows.current_eq, fun names entry hEntry => ?_⟩
    rw [entry?_withFile hEnd, if_neg]
    · exact hGrows.entry? names entry hEntry
    · rintro rfl
      rw [hFree] at hEntry
      cases hEntry
  have hRead := read_eq_ok_iff.mpr (hEmptied.status_eq hSource)
  have hEnd' : (t.withFile (directory ++ rel) []).IsEnd
      (directory ++ rel) := by
    intro entry hEntry
    rw [hEnd.entry?_withFile_self] at hEntry
    exact ⟨[], (Option.some.inj hEntry).symm⟩
  rw [copyFile_apply hStatus hNames hRead]
  refine
    .ok (putsFile_of_entry?_eq hLaid hPath.ne_nil hFiles hEnd
      (fun names => ?_) rfl)
  rw [entry?_withFile hEnd', entry?_withFile hEnd]
  split_ifs <;> rfl

end FileTree

end Variability
