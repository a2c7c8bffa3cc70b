import Variability.FileTree.Copy
import Variability.Proofs.FileTree.Directories

/-
  Copying a tree when some of its entries cannot be copied.

  Entries are copied one after the other, a directory before what
  it holds, and the first one that fails ends the copy. What was
  copied before stays, so the copy is there but not complete; it
  is complete exactly if no entry fails.

  Main declarations:
    * `FileTree.copyTreeUnless`
    * `FileTree.copyTreeUnless_none`
    * `FileTree.IsCopy`
    * `FileTree.StartsCopy`
    * `FileTree.StartsCopy.ends_copyTreeUnless`
-/

namespace Variability

namespace FileTree

------------------------------------------------------------
-- Failures
------------------------------------------------------------

/- Why an entry is not copied, and what is left of a file then. -/
structure CopyFailure where
  error : FileError
  /- The content of the file that was made before, if one was. -/
  left : Option (List UInt8) := none
  deriving DecidableEq, Repr

/- Which entries fail, by the names that lead to them. -/
abbrev CopyFailures := Names → Option CopyFailure

/- A failure and what it leaves. -/
def CopyFailure.happen
    (failure : CopyFailure)
    (entry : Entry)
    (target : Path) :
    AtPath Unit := do
  match entry, failure.left with
  | .file _, some content => blame target (write target content)
  | _, _ => pure ()
  throw (target, failure.error)

/- Copy an entry unless it fails. -/
def copyEntryUnless
    (failure : Option CopyFailure)
    (entry : Entry)
    (source target : Path) :
    AtPath Unit :=
  match failure with
  | none => copyEntry entry source target
  | some failure => failure.happen entry target

/- Copy entries until one fails. -/
def copyEntriesUnless
    (failures : CopyFailures)
    (source target : Path) :
    List (Names × Entry) → AtPath Unit
  | [] => pure ()
  | (names, entry) :: rest => do
      let relative : Path := ⟨"/".intercalate names⟩
      copyEntryUnless (failures names) entry (source.join relative)
        (target.join relative)
      copyEntriesUnless failures source target rest

/- Copy a file or a directory and all below it until one fails. -/
def copyTreeUnless
    (failures : CopyFailures)
    (source target : Path) :
    AtPath Unit := do
  let t ← get
  match t.resolve false source with
  | .error e => throw (source, e)
  | .ok (.vacant _) => throw (source, .notFound)
  | .ok (.found names entry) =>
      if let (.link _, .error e) := (entry, t.status source) then
        throw (source, e)
      if lastName source = ignoredName then
        pure ()
      else
        copyEntryUnless (failures []) entry source
          (target.join ⟨""⟩)
        match entry with
        | .directory =>
            copyEntriesUnless failures source target
              (t.entriesToCopy names)
        | _ => pure ()

theorem copyEntriesUnless_none
    (source target : Path)
    (entries : List (Names × Entry)) :
    copyEntriesUnless (fun _ => none) source target entries =
      copyEntries source target entries := by
  induction entries with
  | nil => rfl
  | cons e rest ih =>
      rw [copyEntriesUnless, copyEntries, ih]
      rfl

/- Where nothing fails a tree is copied. -/
theorem copyTreeUnless_none
    (source target : Path) :
    copyTreeUnless (fun _ => none) source target =
      copyTree source target := by
  unfold copyTreeUnless copyTree
  simp only [copyEntriesUnless_none]
  rfl

variable {t t' t₀ : FileTree}
variable {origin copy rel names : Names}
variable {entry : Entry}
variable {source target root p : Path}
variable {failures : CopyFailures}

------------------------------------------------------------
-- Copies
------------------------------------------------------------

/-
  A directory that has all entries of another one. Those of version
  control are left out.
-/
structure IsCopy (t : FileTree) (origin copy : Names) : Prop where
  directory_eq : t.entry? copy = some .directory
  entry?_eq :
    ∀ rel entry, rel ≠ [] → ignoredName ∉ rel →
      t.entry? (origin ++ rel) = some entry →
        t.entry? (copy ++ rel) = some entry

/- A failure leaves no file as it should be. -/
def LeavesLess
    (failures : CopyFailures)
    (t : FileTree)
    (origin : Names) : Prop :=
  ∀ rel content failure,
    t.entry? (origin ++ rel) = some (.file content) →
      failures rel = some failure →
        failure.left ≠ some content

/- A path from a directory by names of which the first is free. -/
def IsFreePlace (t : FileTree) (p : Path) (names : Names) : Prop :=
  ∃ root directory rel,
    t.resolve true root = .ok (.found directory .directory) ∧
      root.GoesOn p rel ∧
      (∀ name ∈ rel.head?, t.entry? (directory ++ [name]) = none) ∧
      names = directory ++ rel

/- A directory is to be copied to a place outside where nothing is. -/
structure StartsCopy
    (t : FileTree)
    (source target : Path)
    (origin copy : Names) : Prop where
  wellFormed : t.IsWellFormed
  resolve_eq :
    t.resolve false source = .ok (.found origin .directory)
  lastName_ne : lastName source ≠ ignoredName
  isFreePlace : t.IsFreePlace target copy
  outside : ¬ origin <+: copy
  outside' : ¬ copy <+: origin

/- What is to be copied, a directory before what it holds. -/
structure Lists
    (t : FileTree)
    (origin : Names)
    (entries : List (Names × Entry)) : Prop where
  mem_iff :
    ∀ {rel entry},
      (rel, entry) ∈ entries ↔
        rel ≠ [] ∧ ignoredName ∉ rel ∧
          t.entry? (origin ++ rel) = some entry
  ordered : entries.Pairwise fun e e' => ¬ e'.1 <+: e.1

theorem lists_entriesToCopy
    (hTree : t.IsWellFormed)
    (origin : Names) :
    Lists t origin (t.entriesToCopy origin) where
  mem_iff := by
    intro rel entry
    unfold entriesToCopy
    rw [List.mem_filter, mem_below_iff hTree.ordered]
    simp only [Bool.not_eq_eq_eq_not, Bool.not_true,
      List.contains_eq_mem, decide_eq_false_iff_not]
    tauto
  ordered := (pairwise_below hTree.ordered origin).filter _

/- What stays true while a directory is copied. -/
structure KeepsOrigin
    (t₀ : FileTree)
    (target : Path)
    (origin copy : Names)
    (t : FileTree) : Prop where
  grows : Grows t₀ t
  entry?_eq :
    ∀ rel, t.entry? (origin ++ rel) = t₀.entry? (origin ++ rel)
  resolve_eq :
    t.resolve true target = .ok (.found copy .directory)
  directory_eq : t.entry? copy = some .directory

/- Some entries were copied so far, and nothing else. -/
structure Copied
    (t₀ : FileTree)
    (target : Path)
    (origin copy : Names)
    (done : List (Names × Entry))
    (t : FileTree) : Prop extends
    KeepsOrigin t₀ target origin copy t where
  mem_iff :
    ∀ {rel entry}, rel ≠ [] →
      (t.entry? (copy ++ rel) = some entry ↔ (rel, entry) ∈ done)

theorem blame_of_ok
    {α : Type}
    {a : α}
    {x : InTree α}
    (hRun : x t = (.ok a, t'))
    (p : Path) :
    blame p x t = (.ok a, t') := by
  unfold blame
  rw [hRun]

/- Names in a directory and in another one that lies outside. -/
theorem append_ne_append
    (hOutside : ¬ origin <+: copy)
    (hOutside' : ¬ copy <+: origin)
    (rel rel' : Names) :
    origin ++ rel ≠ copy ++ rel' := by
  intro hEq
  rcases List.append_eq_append_iff.mp hEq with
    ⟨rest, rfl, -⟩ | ⟨rest, rfl, -⟩
  · exact hOutside (List.prefix_append _ _)
  · exact hOutside' (List.prefix_append _ _)

/- What is put into the copy is not put into the original. -/
theorem KeepsOrigin.puts
    (hApart : ∀ rel rel', origin ++ rel ≠ copy ++ rel')
    (hKeeps : KeepsOrigin t₀ target origin copy t)
    (hPuts : Puts (copy ++ rel) entry t t')
    (hFree : t.entry? (copy ++ rel) = none) :
    KeepsOrigin t₀ target origin copy t' where
  grows := hKeeps.grows.trans (hPuts.grows hFree)
  entry?_eq other := by
    rw [hPuts.entry?_eq, if_neg (hApart other rel),
      hKeeps.entry?_eq]
  resolve_eq := (hPuts.grows hFree).resolve_found hKeeps.resolve_eq
  directory_eq :=
    Grows.entry? (hPuts.grows hFree) _ _ hKeeps.directory_eq

/- One more entry is copied. -/
theorem Copied.puts
    {done : List (Names × Entry)}
    (hApart : ∀ rel rel', origin ++ rel ≠ copy ++ rel')
    (hCopied : Copied t₀ target origin copy done t)
    (hPuts : Puts (copy ++ rel) entry t t')
    (hFree : t.entry? (copy ++ rel) = none) :
    Copied t₀ target origin copy (done ++ [(rel, entry)]) t' where
  toKeepsOrigin := hCopied.toKeepsOrigin.puts hApart hPuts hFree
  mem_iff := by
    intro other found hOther
    rw [hPuts.entry?_eq, List.mem_append, List.mem_singleton,
      Prod.mk.injEq, ← hCopied.mem_iff hOther]
    by_cases hSame : other = rel
    · subst hSame
      rw [if_pos rfl, hFree]
      simp [eq_comm]
    · rw [if_neg fun hEq => hSame (List.append_cancel_left hEq)]
      simp [hSame]

/- The place of an entry whose parents were copied before it. -/
theorem Copied.place
    {done rest : List (Names × Entry)}
    (hTree : t₀.IsWellFormed)
    (hLists : Lists t₀ origin (done ++ (rel, entry) :: rest))
    (hCopied : Copied t₀ target origin copy done t) :
    t.IsOpen copy rel.dropLast ∧ t.entry? (copy ++ rel) = none := by
  rcases hLists.mem_iff.mp (by simp : (rel, entry) ∈ _) with
    ⟨hRel, hName, hEntry⟩
  have hBehind := List.pairwise_append.mp hLists.ordered
  constructor
  · intro before hNonempty hBefore
    have hPrefix := hBefore.trans (List.dropLast_prefix rel)
    have hDirectory :=
      hTree.isOpen hRel hEntry before hNonempty hBefore
    have hMem :=
      hLists.mem_iff.mpr
        ⟨hNonempty, fun hIn => hName (hPrefix.subset hIn),
          hDirectory⟩
    rw [hCopied.mem_iff hNonempty]
    rcases List.mem_append.mp hMem with hDone | hLater
    · exact hDone
    · exfalso
      rcases List.mem_cons.mp hLater with hSame | hLater
      · cases hSame
        have hLength := hBefore.length_le
        rw [List.length_dropLast] at hLength
        have hPositive := List.length_pos_of_ne_nil hRel
        omega
      · exact
          (List.pairwise_cons.mp hBehind.2.1).1 _ hLater hPrefix
  · rw [Option.eq_none_iff_forall_not_mem]
    intro old hOld
    have hDone := (hCopied.mem_iff hRel).mp hOld
    exact
      hBehind.2.2 _ hDone _ List.mem_cons_self List.prefix_rfl

/- A path to an entry goes on from any directory by its names. -/
theorem IsWellFormed.goesOn
    (hTree : t.IsWellFormed)
    (hRel : rel ≠ [])
    (hEntry : t.entry? (names ++ rel) = some entry)
    (root : Path) :
    root.GoesOn (root.join ⟨"/".intercalate rel⟩) rel := by
  have hNames : Path.AreNames (rel.map .name) := by
    have hAll := hTree.areNames hEntry
    rw [List.map_append] at hAll
    exact fun c hc => hAll c (List.mem_append_right _ hc)
  exact
    Path.goesOn_intercalate root hNames
      (fun name hName =>
        hTree.not_mem_zero hEntry name
          (List.mem_append_right _ hName))
      hRel

/- An entry is copied to a free place. -/
theorem copyEntry_free
    (hSource :
      ∀ content, entry = .file content →
        t.status source = .ok (.file content))
    (hTrimmed : p.IsTrimmed)
    (hNames : names ≠ [])
    (hFree : t.entry? names = none)
    (hVacant :
      ∀ follow, t.resolve follow p = .ok (.vacant names)) :
    ∃ t', copyEntry entry source p t = (.ok (), t') ∧
      Puts names entry t t' := by
  cases entry with
  | directory =>
      rcases makeDirectories_free hTrimmed hNames
          (hVacant false) with
        ⟨t', hRun, hPuts⟩
      exact ⟨t', blame_of_ok hRun p, hPuts⟩
  | link destination =>
      rcases makeLink_free hTrimmed hNames (hVacant false)
          destination with
        ⟨t', hRun, hPuts⟩
      exact ⟨t', blame_of_ok hRun p, hPuts⟩
  | file content =>
      rcases copyFile_free (hSource content rfl) hFree
          (hVacant true) with
        ⟨t', hRun, hPuts⟩
      exact ⟨t', blame_of_ok hRun p, hPuts⟩

/- A failure at a free place leaves nothing or the start of a file. -/
theorem happen_eq
    (hFree : t.entry? names = none)
    (hResolve : t.resolve true p = .ok (.vacant names))
    (failure : CopyFailure)
    (entry : Entry) :
    ∃ t', failure.happen entry p t =
        (.error (p, failure.error), t') ∧
      (t' = t ∨
        ∃ content left, entry = .file content ∧
          failure.left = some left ∧
          Puts names (.file left) t t') := by
  rcases failure with ⟨error, left⟩
  cases entry with
  | directory => exact ⟨t, rfl, Or.inl rfl⟩
  | link destination => exact ⟨t, rfl, Or.inl rfl⟩
  | file content =>
      cases left with
      | none => exact ⟨t, rfl, Or.inl rfl⟩
      | some left =>
          rcases write_free hFree hResolve left with
            ⟨t', hRun, hPuts⟩
          refine
            ⟨t', ?_, Or.inr ⟨content, left, rfl, rfl, hPuts⟩⟩
          unfold CopyFailure.happen
          dsimp only
          rw [Job.bind_of_ok (blame_of_ok hRun p)]
          rfl

/- How the copying of entries ends. -/
inductive CopyEnds
    (failures : CopyFailures)
    (t₀ : FileTree)
    (target : Path)
    (origin copy : Names)
    (entries rest : List (Names × Entry)) :
    Except (Path × FileError) Unit × FileTree → Prop where
  | complete
      {t : FileTree}
      (hNone : ∀ e ∈ rest, failures e.1 = none)
      (hCopied : Copied t₀ target origin copy entries t) :
      CopyEnds failures t₀ target origin copy entries rest
        (.ok (), t)
  | stopped
      {t : FileTree}
      {e : Names × Entry}
      {error : Path × FileError}
      (hMem : e ∈ rest)
      (hFailure : failures e.1 ≠ none)
      (hKeeps : KeepsOrigin t₀ target origin copy t)
      (hMissing : t.entry? (copy ++ e.1) ≠ some e.2) :
      CopyEnds failures t₀ target origin copy entries rest
        (.error error, t)

theorem CopyEnds.cons
    {entries rest : List (Names × Entry)}
    {e : Names × Entry}
    {out : Except (Path × FileError) Unit × FileTree}
    (hEnds :
      CopyEnds failures t₀ target origin copy entries rest out)
    (hNone : failures e.1 = none) :
    CopyEnds failures t₀ target origin copy entries (e :: rest)
      out := by
  cases hEnds with
  | complete hOthers hCopied =>
      exact
        .complete (List.forall_mem_cons.mpr ⟨hNone, hOthers⟩)
          hCopied
  | stopped hMem hFailure hKeeps hMissing =>
      exact
        .stopped (List.mem_cons_of_mem e hMem) hFailure hKeeps
          hMissing

/- What is left is a copy exactly if no entry fails. -/
theorem CopyEnds.isCopy_iff
    {entries : List (Names × Entry)}
    {out : Except (Path × FileError) Unit × FileTree}
    (hLists : Lists t₀ origin entries)
    (hEnds :
      CopyEnds failures t₀ target origin copy entries entries
        out) :
    out.2.resolve true target = .ok (.found copy .directory) ∧
      (out.1 = .ok () ↔ ∀ e ∈ entries, failures e.1 = none) ∧
      (out.2.IsCopy origin copy ↔
        ∀ e ∈ entries, failures e.1 = none) := by
  cases hEnds with
  | @complete t hNone hCopied =>
      refine
        ⟨hCopied.resolve_eq, ⟨fun _ => hNone, fun _ => rfl⟩,
          ⟨fun _ => hNone, fun _ => ⟨hCopied.directory_eq, ?_⟩⟩⟩
      intro rel entry hRel hName hEntry
      rw [hCopied.entry?_eq] at hEntry
      exact
        (hCopied.mem_iff hRel).mpr
          (hLists.mem_iff.mpr ⟨hRel, hName, hEntry⟩)
  | @stopped t e error hMem hFailure hKeeps hMissing =>
      have hFails : ¬ ∀ e ∈ entries, failures e.1 = none :=
        fun hNone => hFailure (hNone e hMem)
      refine
        ⟨hKeeps.resolve_eq, ⟨nofun, fun h => absurd h hFails⟩,
          ⟨fun hIsCopy => ?_, fun h => absurd h hFails⟩⟩
      rcases hLists.mem_iff.mp hMem with ⟨hRel, hName, hEntry⟩
      rw [← hKeeps.entry?_eq] at hEntry
      exact
        absurd (hIsCopy.entry?_eq _ _ hRel hName hEntry) hMissing

/- What is done about an entry whose parents were copied. -/
theorem copyEntryUnless_cases
    {done rest : List (Names × Entry)}
    (hTree : t₀.IsWellFormed)
    (hSource :
      t₀.resolve true source = .ok (.found origin .directory))
    (hApart : ∀ rel rel', origin ++ rel ≠ copy ++ rel')
    (hLess : LeavesLess failures t₀ origin)
    (hLists : Lists t₀ origin (done ++ (rel, entry) :: rest))
    (hCopied : Copied t₀ target origin copy done t) :
    (failures rel = none ∧
      ∃ t', copyEntryUnless (failures rel) entry
          (source.join ⟨"/".intercalate rel⟩)
          (target.join ⟨"/".intercalate rel⟩) t = (.ok (), t') ∧
        Copied t₀ target origin copy (done ++ [(rel, entry)]) t') ∨
    (failures rel ≠ none ∧
      ∃ error t', copyEntryUnless (failures rel) entry
          (source.join ⟨"/".intercalate rel⟩)
          (target.join ⟨"/".intercalate rel⟩) t =
            (.error error, t') ∧
        KeepsOrigin t₀ target origin copy t' ∧
        t'.entry? (copy ++ rel) ≠ some entry) := by
  rcases hLists.mem_iff.mp (by simp : (rel, entry) ∈ _) with
    ⟨hRel, -, hEntry⟩
  rcases hCopied.place hTree hLists with ⟨hOpen, hFree⟩
  have hFrom := hTree.goesOn hRel hEntry source
  have hTo := hTree.goesOn hRel hEntry target
  generalize source.join ⟨"/".intercalate rel⟩ = p at hFrom ⊢
  generalize target.join ⟨"/".intercalate rel⟩ = q at hTo ⊢
  have hNames : copy ++ rel ≠ [] := by simp [hRel]
  have hVacant := resolve_free hCopied.resolve_eq hTo hOpen hFree
  have hHere := hCopied.grows.resolve_found hSource
  have hStatus content (hFile : entry = .file content) :
      t.status p = .ok (.file content) := by
    subst hFile
    exact
      status_open hHere hFrom
        ((hTree.isOpen hRel hEntry).grows hCopied.grows)
        (hCopied.grows.entry? _ _ hEntry)
  cases hFailure : failures rel with
  | none =>
      rcases copyEntry_free hStatus hTo.isTrimmed hNames hFree
          hVacant with
        ⟨t', hRun, hPuts⟩
      exact
        Or.inl ⟨rfl, t', hRun, hCopied.puts hApart hPuts hFree⟩
  | some failure =>
      refine Or.inr ⟨nofun, ?_⟩
      rcases happen_eq hFree (hVacant true) failure entry with
        ⟨t', hRun, rfl | ⟨content, left, rfl, hLeft, hPuts⟩⟩
      · refine ⟨_, _, hRun, hCopied.toKeepsOrigin, ?_⟩
        rw [hFree]
        exact nofun
      · refine
          ⟨_, _, hRun,
            hCopied.toKeepsOrigin.puts hApart hPuts hFree, ?_⟩
        rw [hPuts.entry?_eq, if_pos rfl]
        rintro ⟨⟩
        exact hLess rel content failure hEntry hFailure hLeft

/-
  Entries are copied until one fails, by induction on those that
  are left: all before them were copied.
-/
theorem copyEnds_copyEntriesUnless
    {done rest : List (Names × Entry)}
    (hTree : t₀.IsWellFormed)
    (hSource :
      t₀.resolve true source = .ok (.found origin .directory))
    (hApart : ∀ rel rel', origin ++ rel ≠ copy ++ rel')
    (hLess : LeavesLess failures t₀ origin)
    (hLists : Lists t₀ origin (done ++ rest))
    (hCopied : Copied t₀ target origin copy done t) :
    CopyEnds failures t₀ target origin copy (done ++ rest) rest
      (copyEntriesUnless failures source target rest t) := by
  induction rest generalizing done t with
  | nil =>
      rw [List.append_nil]
      exact .complete (List.forall_mem_nil _) hCopied
  | cons e rest ih =>
      rcases e with ⟨rel, entry⟩
      rw [copyEntriesUnless]
      rcases copyEntryUnless_cases hTree hSource hApart hLess hLists
          hCopied with
        ⟨hNone, t', hRun, hNext⟩ |
          ⟨hSome, error, t', hRun, hKeeps, hMissing⟩
      · have hNextLists :
            Lists t₀ origin (done ++ [(rel, entry)] ++ rest) := by
          rwa [List.append_assoc]
        have hRest := ih hNextLists hNext
        rw [List.append_assoc] at hRest
        rw [Job.bind_of_ok hRun]
        exact hRest.cons hNone
      · rw [Job.bind_apply, hRun]
        exact
          .stopped List.mem_cons_self hSome hKeeps hMissing

------------------------------------------------------------
-- Trees
------------------------------------------------------------

theorem components_join_empty
    (p : Path) :
    (p.join ⟨""⟩).components = p.components := by
  have hNone : (⟨""⟩ : Path).components = [] := rfl
  have hHead : (⟨""⟩ : Path).components.head? ≠ some .here := by
    rw [hNone]
    exact nofun
  rw [Path.components_join p rfl hHead, hNone, List.append_nil]

/- The slash that asks for a directory is written and left out. -/
theorem withoutSlash_join_empty
    (hTrimmed : p.IsTrimmed) :
    withoutSlash (p.join ⟨""⟩) = p := by
  have hLast := hTrimmed.getLast?_ne
  have hJoined : p.join ⟨""⟩ = ⟨p.text ++ "/"⟩ := by
    rcases List.eq_nil_or_concat p.text.toList with
      hEmpty | ⟨before, last, hText⟩
    · exact
        absurd (String.toList_eq_nil_iff.mp hEmpty)
          hTrimmed.text_ne
    · rw [List.concat_eq_append] at hText
      have hSlash : last ≠ '/' := by
        simpa [hText] using hLast
      have hRelative : (⟨""⟩ : Path).isAbsolute = false := rfl
      simp [Path.join, hRelative, hText]
  have hSame := withoutSlash_eq hTrimmed
  rw [hJoined]
  unfold withoutSlash at hSame ⊢
  simpa using hSame

/- Names behind the first one of a free place are free, too. -/
theorem free_of_append
    {directory : Names}
    (hTree : t.IsWellFormed)
    (hFree :
      ∀ name ∈ rel.head?, t.entry? (directory ++ [name]) = none)
    (hRel : rel ≠ [])
    (rest : Names) :
    t.entry? (directory ++ (rel ++ rest)) = none := by
  rcases List.exists_cons_of_ne_nil hRel with ⟨name, more, rfl⟩
  have hFirst := hFree name rfl
  have hNames :
      directory ++ (name :: more ++ rest) =
        directory ++ [name] ++ (more ++ rest) := by
    simp
  rw [hNames, Option.eq_none_iff_forall_not_mem]
  intro entry hEntry
  by_cases hMore : more ++ rest = []
  · rw [hMore, List.append_nil] at hEntry
    rw [hFirst] at hEntry
    cases hEntry
  · rw [hTree.directory_of_prefix hMore hEntry] at hFirst
    cases hFirst

theorem free_of_prefix
    {directory : Names}
    (hTree : t.IsWellFormed)
    (hFree :
      ∀ name ∈ rel.head?, t.entry? (directory ++ [name]) = none)
    (before : Names)
    (hNonempty : before ≠ [])
    (hBefore : before <+: rel) :
    t.entry? (directory ++ before) = none := by
  rcases hBefore with ⟨rest, rfl⟩
  rw [List.head?_append_of_ne_nil _ hNonempty] at hFree
  simpa using free_of_append hTree hFree hNonempty []

/- The directory of the copy is made, and nothing is in it. -/
theorem StartsCopy.copied_makeDirectories
    (hStarts : StartsCopy t source target origin copy) :
    ∃ t', makeDirectories (target.join ⟨""⟩) t = (.ok (), t') ∧
      Copied t target origin copy [] t' := by
  rcases hStarts.isFreePlace with
    ⟨root, directory, rel, hRoot, hPath, hFirst, rfl⟩
  have hTree := hStarts.wellFormed
  have hFree := free_of_prefix hTree hFirst
  have hDepth :
      rel.length ≤ (target.join ⟨""⟩).components.length + 1 := by
    rw [components_join_empty, hPath.components_eq,
      List.length_append, List.length_map]
    omega
  rcases makeDirectoriesWithin_free hRoot hPath
      (withoutSlash_join_empty hPath.isTrimmed)
      (components_join_empty target) hFree hDepth with
    ⟨t', hRun, hWay⟩
  have hGrows := hWay.grows hFree
  refine
    ⟨t', hRun, ⟨hGrows, fun other => ?_,
      resolve_directory (hGrows.resolve_found hRoot) hPath
        hWay.isOpen,
      hWay.isOpen rel hPath.ne_nil List.prefix_rfl⟩, ?_⟩
  · apply hWay.entry?_eq
    rintro before - ⟨more, rfl⟩ hEq
    apply hStarts.outside
    rw [← List.append_assoc, ← hEq, List.append_assoc]
    exact List.prefix_append _ _
  · intro other found hOther
    have hElse :
        t'.entry? (directory ++ rel ++ other) =
          t.entry? (directory ++ rel ++ other) := by
      apply hWay.entry?_eq
      intro before _ hBefore hEq
      rw [List.append_assoc] at hEq
      have hLength := hBefore.length_le
      rw [← List.append_cancel_left hEq, List.length_append]
        at hLength
      have hPositive := List.length_pos_of_ne_nil hOther
      omega
    have hNone :=
      free_of_append hTree hFirst hPath.ne_nil other
    rw [hElse, List.append_assoc, hNone]
    simp

/- At first there is nothing at its place. -/
theorem StartsCopy.exists?_eq
    (hStarts : StartsCopy t source target origin copy) :
    t.exists? target = false := by
  rcases hStarts.isFreePlace with
    ⟨root, directory, rel, hRoot, hPath, hFirst, -⟩
  have hFree := free_of_prefix hStarts.wellFormed hFirst
  unfold exists? status
  by_cases hDrop : rel.dropLast = []
  · have hOpen : t.IsOpen directory rel.dropLast := by
      rw [hDrop]
      exact (MakesWay.nil directory t).isOpen
    rw [resolve_free hRoot hPath hOpen
      (hFree rel hPath.ne_nil List.prefix_rfl)]
    rfl
  · rw [resolve_missing hRoot hPath hDrop hFree]
    rfl

/-
  A copy ends with a failure before its directory was made, or
  while its entries are copied, or with all of them.
-/
theorem StartsCopy.ends_copyTreeUnless
    (hStarts : StartsCopy t source target origin copy)
    (hLess : LeavesLess failures t origin) :
    (failures [] ≠ none ∧
      ∃ error, copyTreeUnless failures source target t =
        (.error error, t)) ∨
    (failures [] = none ∧
      CopyEnds failures t target origin copy
        (t.entriesToCopy origin) (t.entriesToCopy origin)
        (copyTreeUnless failures source target t)) := by
  have hApply :
      copyTreeUnless failures source target t =
        (copyEntryUnless (failures []) .directory source
            (target.join ⟨""⟩) >>= fun _ =>
          copyEntriesUnless failures source target
            (t.entriesToCopy origin)) t := by
    unfold copyTreeUnless
    rw [Job.get_bind_apply, hStarts.resolve_eq]
    dsimp only
    rw [if_neg hStarts.lastName_ne]
  rw [hApply]
  cases hFailure : failures [] with
  | some failure =>
      refine
        Or.inl
          ⟨nofun, (target.join ⟨""⟩, failure.error), ?_⟩
      rw [Job.bind_apply]
      rfl
  | none =>
      rcases hStarts.copied_makeDirectories with
        ⟨t', hRun, hCopied⟩
      have hRoot :
          copyEntryUnless none .directory source
              (target.join ⟨""⟩) t =
            (.ok (), t') :=
        blame_of_ok hRun _
      refine Or.inr ⟨rfl, ?_⟩
      rw [Job.bind_of_ok hRoot]
      exact
        copyEnds_copyEntriesUnless hStarts.wellFormed
          (resolve_true_of_directory hStarts.resolve_eq)
          (append_ne_append hStarts.outside hStarts.outside')
          hLess (lists_entriesToCopy hStarts.wellFormed origin)
          hCopied

end FileTree

end Variability
