import Variability.Proofs.Generation.Filling
import Variability.Proofs.Generation.Targets

/-
  Generating lays out the output tree.

  The layout of a project has the generated file of every
  dependency whose original is there, and the directories above
  it. Each step of generating puts files of the layout in their
  places, or it fails since the layout is obstructed or an
  original cannot be read.

  Main declarations:
    * `Generation.Starts`
    * `Generation.Starts.layout`
    * `Generation.Generates`
    * `Generation.Starts.endsIn_writeAll`
-/

namespace Variability

namespace Generation

open FileTree

variable {source destination origin : Path}
variable {output : Names}
variable {t t' t'' : FileTree}
variable {deps ds ds' group : List Dependency}
variable {d e : Dependency}
variable {i : Inclusion}
variable {w : Workspace}

------------------------------------------------------------
-- Layouts of Projects
------------------------------------------------------------

/- A file is generated if it lies inside and is there. -/
def isWritten (t : FileTree) (source : Path) (d : Dependency) : Bool :=
  !d.isExternal && t.exists? (source.join d.file)

theorem isWritten_iff :
    isWritten t source d = true ↔
      d.isExternal = false ∧
        t.exists? (source.join d.file) = true := by
  simp [isWritten]

/-
  What generating starts from: a project and an empty directory.
  Originals that are missing are so whatever is put below it.
-/
structure Starts
    (deps : List Dependency)
    (source destination : Path)
    (output : Names)
    (t : FileTree) : Prop where
  project : IsProject deps
  apart : TellsApart deps
  resolve_eq :
    t.resolve true destination = .ok (.found output .directory)
  entry?_eq_none :
    ∀ rel, rel ≠ [] → t.entry? (output ++ rel) = none
  missing :
    ∀ d ∈ deps, d.isExternal = false →
      t.exists? (source.join d.file) = false →
        ∀ t', GrowsBelow output t t' →
          t'.exists? (source.join d.file) = false

namespace Starts

/- The order of the dependencies does not count. -/
theorem congr
    {deps' : List Dependency}
    (hStarts : Starts deps source destination output t)
    (hSame : ∀ d, d ∈ deps' ↔ d ∈ deps) :
    Starts deps' source destination output t where
  project := hStarts.project.congr hSame
  apart := hStarts.apart.congr hSame
  resolve_eq := hStarts.resolve_eq
  entry?_eq_none := hStarts.entry?_eq_none
  missing d hd := hStarts.missing d ((hSame d).mp hd)

/- Generated files with the same names are those of one dependency. -/
theorem eq_of_names_eq
    (hStarts : Starts deps source destination output t)
    (hd : d ∈ deps)
    (he : e ∈ deps)
    (hdHere : d.isExternal = false)
    (heHere : e.isExternal = false)
    (hEq : d.target.names = e.target.names) :
    d = e := by
  have hdNames :=
    areNames_target (hStarts.project.areNames hd hdHere)
  have heNames :=
    areNames_target (hStarts.project.areNames he heHere)
  exact
    target_inj hStarts.project hStarts.apart hd he hdHere heHere
      (Path.components_eq_of_names_eq hdNames heNames hEq)

/- The generated files and the directories above them. -/
def layout
    (hStarts : Starts deps source destination output t) :
    Layout where
  directories names :=
    ∃ d ∈ deps, isWritten t source d = true ∧
      names <+: d.target.names.dropLast
  files names content :=
    ∃ d ∈ deps, isWritten t source d = true ∧
      d.target.names = names ∧
      ∃ original,
        t.read (source.join d.file) = .ok original ∧
          d.generated original = content
  content_eq := by
    rintro names _ _
      ⟨d, hd, hdWritten, rfl, original, hRead, rfl⟩
      ⟨e, he, heWritten, hNames, other, hOther, rfl⟩
    have hSame :=
      hStarts.eq_of_names_eq he hd (isWritten_iff.mp heWritten).1
        (isWritten_iff.mp hdWritten).1 hNames
    subst hSame
    rw [hRead] at hOther
    cases hOther
    rfl

/- Why generating fails. -/
def IsHindered
    (hStarts : Starts deps source destination output t) : Prop :=
  hStarts.layout.IsObstructed ∨
    ∃ d ∈ deps, isWritten t source d = true ∧
      ∀ original, t.read (source.join d.file) ≠ .ok original

end Starts

------------------------------------------------------------
-- States on the Way
------------------------------------------------------------

variable {hStarts : Starts deps source destination output t}
variable {made made' : List (Path × Origin)}
variable {before between after : FileTree}

/- A state on the way: the start, and what was laid out. -/
structure Reached
    (hStarts : Starts deps source destination output t)
    (before : FileTree) : Prop where
  laidOut : LaidOut hStarts.layout destination output before
  grows : GrowsBelow output t before

/- What generating some dependencies leaves and records. -/
structure Generates
    (hStarts : Starts deps source destination output t)
    (ds : List Dependency)
    (made : List (Path × Origin))
    (before after : FileTree) : Prop where
  reached : Reached hStarts after
  grows : GrowsBelow output before after
  mem_made_iff :
    ∀ entry, entry ∈ made ↔ ∃ d ∈ ds, (d.target, d.origin) = entry
  written :
    ∀ d ∈ ds, after.IsOpen output d.target.names.dropLast ∧
      ∃ original,
        t.read (source.join d.file) = .ok original ∧
          after.entry? (output ++ d.target.names) =
            some (.file (d.generated original))

namespace Generates

theorem nil
    (hReached : Reached hStarts before) :
    Generates hStarts [] [] before before where
  reached := hReached
  grows := .refl output before
  mem_made_iff := by simp
  written := nofun

theorem append
    (hFirst : Generates hStarts ds made before between)
    (hSecond : Generates hStarts ds' made' between after) :
    Generates hStarts (ds ++ ds') (made ++ made') before after where
  reached := hSecond.reached
  grows := hFirst.grows.trans hSecond.grows
  mem_made_iff entry := by
    rw [List.mem_append, hFirst.mem_made_iff, hSecond.mem_made_iff]
    simp only [List.mem_append, or_and_right, exists_or]
  written d hd := by
    rcases List.mem_append.mp hd with hd | hd
    · rcases hFirst.written d hd with
        ⟨hOpen, original, hRead, hEntry⟩
      have hGrows := hSecond.grows.toGrows
      exact
        ⟨hOpen.grows hGrows, original, hRead,
          hGrows.entry? _ _ hEntry⟩
    · exact hSecond.written d hd

/- What was laid out before counts, too. -/
theorem of_grows
    (hGenerates : Generates hStarts ds made between after)
    (hGrows : GrowsBelow output before between) :
    Generates hStarts ds made before after where
  reached := hGenerates.reached
  grows := hGrows.trans hGenerates.grows
  mem_made_iff := hGenerates.mem_made_iff
  written := hGenerates.written

theorem congr
    (hGenerates : Generates hStarts ds made before after)
    (hSame : ∀ d, d ∈ ds' ↔ d ∈ ds) :
    Generates hStarts ds' made before after where
  reached := hGenerates.reached
  grows := hGenerates.grows
  mem_made_iff entry := by
    simp only [hGenerates.mem_made_iff, hSame]
  written d hd := hGenerates.written d ((hSame d).mp hd)

end Generates

/- A path that can be followed has no zero character. -/
theorem zero_not_mem_of_exists?
    {p : Path}
    (hNames : Path.AreNames p.components)
    (hExists : t.exists? (source.join p) = true) :
    '\x00' ∉ p.text.toList := by
  have hResolve : ∃ place,
      t.resolve true (source.join p) = .ok place := by
    unfold FileTree.exists? FileTree.status at hExists
    cases hResolve : t.resolve true (source.join p) with
    | error e =>
        rw [hResolve] at hExists
        cases hExists
    | ok place => exact ⟨place, rfl⟩
  rcases hResolve with ⟨place, hResolve⟩
  have hZero := (resolve_eq_ok hResolve).1
  rw [Path.mem_text_iff (by decide) (by decide),
    Path.components_join_names source hNames] at hZero
  rw [Path.mem_text_iff (by decide) (by decide)]
  rintro ⟨name, hMem, hChar⟩
  exact hZero ⟨name, List.mem_append_right _ hMem, hChar⟩

/-
  An original that is there is found: as a file, which can be read
  from then on, or as something else.
-/
theorem Reached.read_cases
    (hReached : Reached hStarts before)
    (hd : d ∈ deps)
    (hWritten : isWritten t source d = true) :
    (∃ original,
        t.status (source.join d.file) = .ok (.file original) ∧
          before.read (source.join d.file) = .ok original) ∨
      hStarts.IsHindered ∧ ∃ entry,
        before.status (source.join d.file) = .ok entry ∧
          ∀ content, entry ≠ .file content := by
  have hExists := (isWritten_iff.mp hWritten).2
  unfold FileTree.exists? at hExists
  cases hStatus : t.status (source.join d.file) with
  | error e =>
      rw [hStatus] at hExists
      cases hExists
  | ok entry =>
      have hBefore := hReached.grows.toGrows.status_eq hStatus
      have hOther
          (hKind : ∀ content, entry ≠ .file content) :
          hStarts.IsHindered := by
        refine Or.inr ⟨d, hd, hWritten, fun original hRead => ?_⟩
        rw [read_eq_ok_iff, hStatus] at hRead
        exact hKind original (Except.ok.inj hRead)
      cases entry with
      | file content =>
          exact Or.inl ⟨content, rfl, read_eq_ok_iff.mpr hBefore⟩
      | directory =>
          exact Or.inr ⟨hOther nofun, _, hBefore, nofun⟩
      | link target =>
          exact Or.inr ⟨hOther nofun, _, hBefore, nofun⟩

------------------------------------------------------------
-- Single Files
------------------------------------------------------------

/- The file of a dependency is one of the layout. -/
theorem files_layout
    {original : List UInt8}
    (hd : d ∈ deps)
    (hWritten : isWritten t source d = true)
    (hRead : t.read (source.join d.file) = .ok original) :
    hStarts.layout.files d.target.names (d.generated original) :=
  ⟨d, hd, hWritten, rfl, original, hRead, rfl⟩

/- The path of a target goes on behind the output tree. -/
theorem goesOn_target
    (hStarts : Starts deps source destination output t)
    (hd : d ∈ deps)
    (hWritten : isWritten t source d = true) :
    destination.GoesOn (destination.join d.target)
      d.target.names := by
  rcases isWritten_iff.mp hWritten with ⟨hHere, hExists⟩
  exact
    hStarts.project.goesOn_target hd hHere
      (zero_not_mem_of_exists?
        (hStarts.project.areNames hd hHere) hExists)

/- A file that was put in its place is generated. -/
theorem generates_of_putsFile
    {original : List UInt8}
    (hReached : Reached hStarts before)
    (hRead : t.read (source.join d.file) = .ok original)
    (hOpen : before.IsOpen output d.target.names.dropLast)
    (hPuts :
      PutsFile hStarts.layout destination output d.target.names
        (d.generated original) before after) :
    Generates hStarts [d] [(d.target, d.origin)] before after where
  reached := ⟨hPuts.laidOut, hReached.grows.trans hPuts.grows⟩
  grows := hPuts.grows
  mem_made_iff entry := by simp [eq_comm]
  written e he := by
    rw [List.mem_singleton.mp he]
    exact
      ⟨hOpen.grows hPuts.grows.toGrows, original, hRead,
        hPuts.entry?_eq⟩

theorem endsIn_writeCompiled
    (hReached : Reached hStarts w.files)
    (hMem : .compiled i ∈ deps)
    (hWritten : isWritten t source (.compiled i) = true)
    (hOpen :
      w.files.IsOpen output i.composedPath.names.dropLast) :
    Job.EndsIn
      (fun entry w' =>
        Generates hStarts [.compiled i] [entry] w.files w'.files)
      hStarts.IsHindered
      (writeCompiled (source.join i.file) destination i w) := by
  have hCases := hReached.read_cases hMem hWritten
  refine .bind (.look (fun content hRead => ?_) fun e hRead => ?_)
  · rcases hCases with
      ⟨original, hStatus, hBefore⟩ | ⟨-, entry, hStatus, hKind⟩
    · have hSame : original = content :=
        Except.ok.inj (hBefore.symm.trans hRead)
      subst hSame
      have hOriginal := read_eq_ok_iff.mpr hStatus
      have hWrite :=
        endsIn_write hReached.laidOut
          (goesOn_target hStarts hMem hWritten)
          (files_layout hMem hWritten hOriginal) hOpen
      refine .bind ((Job.EndsIn.edit (hWrite.because Or.inl)).imp ?_)
      intro _ w' hPuts
      exact
        .ok (generates_of_putsFile hReached hOriginal hOpen hPuts)
    · have hFile := hStatus.symm.trans (read_eq_ok_iff.mp hRead)
      exact absurd (Except.ok.inj hFile) (hKind content)
  · rcases hCases with ⟨original, -, hBefore⟩ | ⟨hHindered, -⟩
    · cases hBefore.symm.trans hRead
    · exact hHindered

theorem endsIn_copyHeader
    {file : Path}
    (hReached : Reached hStarts w.files)
    (hMem : .header file ∈ deps)
    (hWritten : isWritten t source (.header file) = true)
    (hOpen : w.files.IsOpen output file.names.dropLast) :
    Job.EndsIn
      (fun entry w' =>
        Generates hStarts [.header file] [entry] w.files w'.files)
      hStarts.IsHindered
      (copyHeader (source.join file) destination file w) := by
  have hCopies :
      Job.EndsIn
        (fun _ after => ∃ original,
          t.read (source.join file) = .ok original ∧
            PutsFile hStarts.layout destination output file.names
              original w.files after)
        hStarts.IsHindered
        (copyFile (source.join file) (destination.join file)
          w.files) := by
    rcases hReached.read_cases hMem hWritten with
      ⟨original, hStatus, -⟩ | ⟨hHindered, entry, hStatus, hKind⟩
    · have hOriginal := read_eq_ok_iff.mpr hStatus
      have hPath := goesOn_target hStarts hMem hWritten
      have hCopy :=
        endsIn_copyFile hReached.grows.toGrows hStatus
          (hStarts.entry?_eq_none _ hPath.ne_nil) hReached.laidOut
          hPath (files_layout hMem hWritten hOriginal) hOpen
      exact
        (hCopy.because Or.inl).imp fun _ _ hPuts =>
          ⟨original, hOriginal, hPuts⟩
    · have hStatus' : w.files.status (source.join file) = .ok entry :=
        hStatus
      rw [copyFile, Job.get_bind_apply, hStatus']
      cases entry with
      | file content => exact absurd rfl (hKind content)
      | directory => exact .error hHindered
      | link target => exact .error hHindered
  refine .bind ((Job.EndsIn.edit hCopies).imp ?_)
  rintro _ w' ⟨original, hOriginal, hPuts⟩
  exact .ok (generates_of_putsFile hReached hOriginal hOpen hPuts)

------------------------------------------------------------
-- Groups
------------------------------------------------------------

/- A header that is copied stands for all headers of its file. -/
theorem mem_header_cons_iff
    {p : Path}
    {e : Dependency}
    (hFile : ∀ d ∈ group, d.file = p) :
    e ∈ .header p :: group ↔
      e ∈ .header p :: group.filter fun d => d.inclusion?.isSome := by
  have hSame (he : e ∈ group) :
      e.inclusion?.isSome = true ∨ e = .header p := by
    cases e with
    | compiled j => exact Or.inl rfl
    | header q =>
        have hq : q = p := hFile _ he
        exact Or.inr (by rw [hq])
  simp only [List.mem_cons, List.mem_filter]
  constructor
  · rintro (hHere | he)
    · exact Or.inl hHere
    · rcases hSame he with hCompiled | hHere
      · exact Or.inr ⟨he, hCompiled⟩
      · exact Or.inl hHere
  · rintro (hHere | ⟨he, -⟩)
    · exact Or.inl hHere
    · exact Or.inr he

/- All ways to generate a file whose directory is there. -/
theorem endsIn_writeEach
    {file : Path}
    (hReached : Reached hStarts w.files)
    (hGroup :
      ∀ d ∈ group, d ∈ deps ∧ isWritten t source d = true ∧
        d.file = file)
    (hOpen : w.files.IsOpen output file.names.dropLast)
    (copied : Bool) :
    Job.EndsIn
      (fun made w' =>
        Generates hStarts
          (group.filter fun d => !copied || d.inclusion?.isSome)
          made w.files w'.files)
      hStarts.IsHindered
      (writeEach (source.join file) destination file copied group
        w) := by
  induction group generalizing copied w with
  | nil => exact .ok (.nil hReached)
  | cons d rest ih =>
      rcases hGroup d List.mem_cons_self with
        ⟨hMem, hWritten, rfl⟩
      have hRest := fun e he =>
        hGroup e (List.mem_cons_of_mem d he)
      have hDrop :=
        hStarts.project.dropLast_names_target hMem
          (isWritten_iff.mp hWritten).1
      cases d with
      | compiled i =>
          rw [← hDrop] at hOpen
          have hFirst :=
            endsIn_writeCompiled hReached hMem hWritten hOpen
          refine .bind (hFirst.imp fun entry w₁ hOne => ?_)
          rw [hDrop] at hOpen
          have hOthers :=
            ih hOne.reached hRest (hOpen.grows hOne.grows.toGrows)
              copied
          refine .bind (hOthers.imp fun made w₂ hMore => ?_)
          refine .ok ((hOne.append hMore).congr fun e => ?_)
          rw [List.filter_cons_of_pos (by simp [Dependency.inclusion?])]
          rfl
      | header p =>
          rw [writeEach]
          cases copied with
          | true =>
              rw [if_pos rfl]
              rw [List.filter_cons_of_neg
                (by simp [Dependency.inclusion?])]
              exact ih hReached hRest hOpen true
          | false =>
              rw [if_neg Bool.false_ne_true]
              have hFirst :=
                endsIn_copyHeader hReached hMem hWritten hOpen
              refine .bind (hFirst.imp fun entry w₁ hOne => ?_)
              have hOthers :=
                ih hOne.reached hRest
                  (hOpen.grows hOne.grows.toGrows) true
              refine .bind (hOthers.imp fun made w₂ hMore => ?_)
              refine .ok ((hOne.append hMore).congr fun e => ?_)
              have hHeaders :=
                mem_header_cons_iff (p := p) (e := e)
                  fun d hd => (hRest d hd).2.2
              simpa using hHeaders

/- An original is there if and only if it was at the start. -/
theorem Reached.exists?_eq
    (hReached : Reached hStarts before)
    (hd : d ∈ deps)
    (hHere : d.isExternal = false) :
    before.exists? (source.join d.file) =
      t.exists? (source.join d.file) := by
  cases hExists : t.exists? (source.join d.file) with
  | false => exact hStarts.missing d hd hHere hExists _ hReached.grows
  | true =>
      unfold FileTree.exists? at hExists ⊢
      cases hStatus : t.status (source.join d.file) with
      | error e =>
          rw [hStatus] at hExists
          cases hExists
      | ok entry =>
          rw [hReached.grows.toGrows.status_eq hStatus]
          rfl

/- The source tree itself is no file. -/
theorem read_join_empty
    (t : FileTree)
    (source : Path)
    (content : List UInt8) :
    t.read (source.join ⟨""⟩) ≠ .ok content := by
  intro hRead
  rw [read_eq_ok_iff] at hRead
  have hRelative : (⟨""⟩ : Path).isAbsolute = false := rfl
  rcases Path.exists_text_join source hRelative with
    ⟨front, hText, rfl | ⟨before, rfl⟩⟩
  · have hEmpty : (source.join ⟨""⟩).text = "" :=
      String.toList_eq_nil_iff.mp hText
    rw [FileTree.status, resolve, hEmpty] at hRead
    cases hRead
  · exact status_ne_file (by simp [hText]) t content hRead

/- So it is not compiled, nor is it a header. -/
theorem isHindered_of_root
    (hStarts : Starts deps source destination output t)
    (hd : d ∈ deps)
    (hWritten : isWritten t source d = true)
    (hRoot : d.file = ⟨""⟩) :
    (∃ i, d = .compiled i) ∧ hStarts.IsHindered := by
  constructor
  · cases d with
    | compiled i => exact ⟨i, rfl⟩
    | header p =>
        have hHeader := hStarts.project.isHeader_eq _ hd
        rw [hRoot] at hHeader
        cases hHeader
  · refine Or.inr ⟨d, hd, hWritten, ?_⟩
    rw [hRoot]
    exact read_join_empty t source

theorem endsIn_writeEach_root
    (hStarts : Starts deps source destination output t)
    (hNonempty : group ≠ [])
    (hGroup :
      ∀ d ∈ group, d ∈ deps ∧ isWritten t source d = true ∧
        d.file = ⟨""⟩)
    (after : List (Path × Origin) → Workspace → Prop)
    (w : Workspace) :
    Job.EndsIn after hStarts.IsHindered
      (writeEach (source.join ⟨""⟩) destination ⟨""⟩ false group
        w) := by
  rcases List.exists_cons_of_ne_nil hNonempty with
    ⟨d, rest, rfl⟩
  rcases hGroup d List.mem_cons_self with ⟨hd, hWritten, hFile⟩
  rcases isHindered_of_root hStarts hd hWritten hFile with
    ⟨⟨i, rfl⟩, hHindered⟩
  refine
    .bind (.bind (.look (fun content hRead => ?_) fun _ _ =>
      hHindered))
  exact absurd hRead (read_join_empty w.files source content)

/- The directories above the targets of a file are made. -/
theorem endsIn_makeDirectories
    (hReached : Reached hStarts before)
    (hd : d ∈ deps)
    (hWritten : isWritten t source d = true)
    (hNonempty : d.file.components ≠ []) :
    ∃ above, (destination.join d.file).parent? = some above ∧
      Job.EndsIn
        (fun _ after =>
          Reached hStarts after ∧ GrowsBelow output before after ∧
            after.IsOpen output d.file.names.dropLast)
        hStarts.IsHindered
        (makeDirectories above before) := by
  rcases isWritten_iff.mp hWritten with ⟨hHere, hExists⟩
  have hZero :=
    zero_not_mem_of_exists?
      (hStarts.project.areNames hd hHere) hExists
  have hPath :
      destination.GoesOn (destination.join d.file) d.file.names :=
    hStarts.project.goesOn_file hd hHere hNonempty hZero
  have hDirectories : ∀ names, names ≠ [] →
      names <+: d.file.names.dropLast →
        hStarts.layout.directories names := by
    intro names _ hPrefix
    rw [← hStarts.project.dropLast_names_target hd hHere]
      at hPrefix
    exact ⟨d, hd, hWritten, hPrefix⟩
  rcases FileTree.endsIn_makeDirectories hReached.laidOut hPath
      hDirectories with
    ⟨above, hParent, hMakes⟩
  refine ⟨above, hParent, (hMakes.because Or.inl).imp ?_⟩
  intro _ after hOpens
  exact
    ⟨⟨hOpens.laidOut, hReached.grows.trans hOpens.grows⟩,
      hOpens.grows, hOpens.isOpen⟩

/- All dependencies of a group are about one file. -/
theorem IsGroup.file_eq
    (hProject : IsProject deps)
    (hGroup : IsGroup deps d.file group)
    (hd : d ∈ deps)
    (he : e ∈ group) :
    e.file = d.file := by
  have heSpelled := hProject.isSpelled (hGroup.mem e he).1
  have hdSpelled := hProject.isSpelled hd
  exact
    (heSpelled.same_iff hdSpelled).mp
      (beq_iff_eq.mpr (hGroup.components_eq e he))

/- So either all of them are written or none is. -/
theorem IsGroup.filter_isWritten
    (hProject : IsProject deps)
    (hGroup : IsGroup deps d.file group)
    (hd : d ∈ deps) :
    group.filter (isWritten t source) =
      if t.exists? (source.join d.file) then group else [] := by
  have hWritten : ∀ e ∈ group,
      isWritten t source e = t.exists? (source.join d.file) := by
    intro e he
    rw [isWritten, (hGroup.mem e he).2,
      hGroup.file_eq hProject hd he]
    rfl
  rw [List.filter_congr hWritten]
  cases t.exists? (source.join d.file) <;> simp

/- All ways to generate a file, with the directories above it. -/
theorem endsIn_writeFile
    {file : Path}
    (hReached : Reached hStarts w.files)
    (hGroup : IsGroup deps file group)
    (hNonempty : group ≠ []) :
    Job.EndsIn
      (fun made w' =>
        Generates hStarts (group.filter (isWritten t source)) made
          w.files w'.files)
      hStarts.IsHindered
      (writeFile source destination file group w) := by
  rcases hGroup.file_mem with ⟨d, hd, hHere, rfl⟩
  have hExists := hReached.exists?_eq hd hHere
  rw [hGroup.filter_isWritten hStarts.project hd]
  unfold writeFile
  rw [Job.get_bind_apply, hExists]
  cases hThere : t.exists? (source.join d.file) with
  | false => exact .ok (.nil hReached)
  | true =>
      rw [if_pos rfl, if_pos rfl]
      have hEach : ∀ e ∈ group, e ∈ deps ∧
          isWritten t source e = true ∧ e.file = d.file := by
        intro e he
        have hFile := hGroup.file_eq hStarts.project hd he
        refine ⟨(hGroup.mem e he).1, ?_, hFile⟩
        exact
          isWritten_iff.mpr
            ⟨(hGroup.mem e he).2, hFile ▸ hThere⟩
      have hHereWritten : isWritten t source d = true :=
        isWritten_iff.mpr ⟨hHere, hThere⟩
      by_cases hRoot : d.file.components = []
      · have hEmpty : d.file = ⟨""⟩ := by
          rw [hStarts.project.isSpelled hd, hRoot]
          rfl
        have hHindered :=
          (isHindered_of_root hStarts hd hHereWritten hEmpty).2
        rw [hEmpty] at hEach ⊢
        have hFails := endsIn_writeEach_root hStarts hNonempty hEach
        cases (destination.join ⟨""⟩).parent? with
        | none => exact hFails _ w
        | some above =>
            exact
              .bind (.of_all _ (fun _ w' => hFails _ w') hHindered)
      · rcases endsIn_makeDirectories hReached hd hHereWritten
            hRoot with
          ⟨above, hParent, hMakes⟩
        rw [hParent]
        refine .bind ((Job.EndsIn.edit hMakes).imp ?_)
        rintro _ w₁ ⟨hReached₁, hGrows, hOpen⟩
        have hWrites := endsIn_writeEach hReached₁ hEach hOpen false
        refine hWrites.imp fun made w₂ hMore => ?_
        rw [List.filter_eq_self.mpr (by simp)] at hMore
        exact hMore.of_grows hGrows

/- All files are generated one after the other. -/
theorem endsIn_writeAll
    {entries : Dict Path (List Dependency)}
    (hReached : Reached hStarts w.files)
    (hGroups :
      ∀ entry ∈ entries, IsGroup deps entry.1 entry.2 ∧
        entry.2 ≠ []) :
    Job.EndsIn
      (fun made w' =>
        Generates hStarts
          ((entries.flatMap (·.2)).filter (isWritten t source))
          made w.files w'.files)
      hStarts.IsHindered
      (writeAll source destination entries w) := by
  induction entries generalizing w with
  | nil => exact .ok (.nil hReached)
  | cons entry entries ih =>
      rcases hGroups entry List.mem_cons_self with
        ⟨hGroup, hNonempty⟩
      have hFirst := endsIn_writeFile hReached hGroup hNonempty
      refine .bind (hFirst.imp fun made w₁ hOne => ?_)
      have hRest :=
        ih hOne.reached fun e he =>
          hGroups e (List.mem_cons_of_mem entry he)
      refine .bind (hRest.imp fun more w₂ hMore => ?_)
      rw [List.flatMap_cons, List.filter_append]
      exact .ok (hOne.append hMore)

/- The start is a state on the way. -/
theorem Reached.start
    (hStarts : Starts deps source destination output t) :
    Reached hStarts t where
  laidOut := {
    resolve_eq := hStarts.resolve_eq
    allows := fun rel entry hRel hEntry => by
      rw [hStarts.entry?_eq_none rel hRel] at hEntry
      cases hEntry }
  grows := .refl output t

/- Generating generates what is there, or it is hindered. -/
theorem Starts.endsIn_generate
    (hStarts : Starts deps source destination output w.files) :
    Job.EndsIn
      (fun generation w' => ∃ made,
        Dict.ofList made = generation ∧
          Generates hStarts (deps.filter (isWritten w.files source))
            made w.files w'.files)
      hStarts.IsHindered
      (generate deps source destination w) := by
  have hAll :=
    endsIn_writeAll (.start hStarts) fun entry hEntry =>
      ⟨mem_targets hEntry, ne_nil_of_mem_targets hEntry⟩
  refine .bind (hAll.imp fun made w' hMade => ?_)
  refine .ok ⟨made, rfl, hMade.congr fun d => ?_⟩
  rw [List.mem_filter, List.mem_filter, List.mem_flatMap]
  refine and_congr_left fun hWritten => ?_
  constructor
  · intro hd
    exact exists_mem_targets hd (isWritten_iff.mp hWritten).1
  · rintro ⟨entry, hEntry, hd⟩
    exact ((mem_targets hEntry).mem d hd).1

end Generation

end Variability
