import Variability.FileTree.Edit
import Variability.Proofs.Dict.Ordered
import Variability.Proofs.Job.Running
import Variability.Proofs.Text.Utf8

/-
  Files that were written are read back.

  A path is followed the same way before and after a file was
  written at its end, as no way leads through a file or through a
  name that is free. Writing changes the entry that the path leads
  to, or nothing, and making directories puts directories under
  names that are free. So files that are written to different
  places can be written in any order, and a way to a file still
  leads to one after others were written.

  Main declarations:
    * `FileTree.IsPair`
    * `FileTree.walk_withFile`
    * `FileTree.read_write`
    * `FileTree.readText_of_read`
    * `FileTree.DifferAt`
    * `FileTree.AddsDirectories`
    * `FileTree.moves_makeDirectories`
    * `FileTree.Retains`
    * `FileTree.write_cases`
-/

namespace Variability

namespace FileTree

variable {t t' : FileTree}
variable {names : Names}
variable {place : Place}
variable {p : Path}
variable {content : List UInt8}

------------------------------------------------------------
-- Steps
------------------------------------------------------------

section Steps

variable {follow : Bool}
variable {links : Nat}
variable {here : Names}
variable {name : String}
variable {rest : List String}

/- A way goes on in a directory. -/
theorem walk_directory
    (hHere : name ≠ ".")
    (hUp : name ≠ "..")
    (hEntry : t.entry? (here ++ [name]) = some .directory) :
    t.walk follow links here (name :: rest) =
      t.walk follow links (here ++ [name]) rest := by
  rw [walk.eq_4 _ _ _ _ _ _ hHere hUp, hEntry]

/- A way that goes on behind its last name ends at a file. -/
theorem walk_file
    (hHere : name ≠ ".")
    (hUp : name ≠ "..")
    (hEntry : t.entry? (here ++ [name]) = some (.file content)) :
    t.walk follow links here [name] =
      .ok (.found (here ++ [name]) (.file content)) := by
  rw [walk.eq_4 _ _ _ _ _ _ hHere hUp, hEntry]
  rfl

/- The last name of a way may be free. -/
theorem walk_vacant
    (hHere : name ≠ ".")
    (hUp : name ≠ "..")
    (hEntry : t.entry? (here ++ [name]) = none) :
    t.walk follow links here [name] =
      .ok (.vacant (here ++ [name])) := by
  rw [walk.eq_4 _ _ _ _ _ _ hHere hUp, hEntry]
  rfl

/- No way leads through a file, or through a name that is free. -/
theorem walk_blocked
    (hHere : name ≠ ".")
    (hUp : name ≠ "..")
    (hRest : rest ≠ [])
    (hEntry : t.entry? (here ++ [name]) = some (.file content)) :
    t.walk follow links here (name :: rest) =
      .error .notADirectory := by
  have hLast : ¬ rest.isEmpty = true := by simpa using hRest
  rw [walk.eq_4 _ _ _ _ _ _ hHere hUp, hEntry]
  simp only [if_neg hLast]

theorem walk_missing
    (hHere : name ≠ ".")
    (hUp : name ≠ "..")
    (hRest : rest ≠ [])
    (hEntry : t.entry? (here ++ [name]) = none) :
    t.walk follow links here (name :: rest) = .error .notFound := by
  have hLast : ¬ rest.isEmpty = true := by simpa using hRest
  rw [walk.eq_4 _ _ _ _ _ _ hHere hUp, hEntry]
  simp only [if_neg hLast]

end Steps

/- An absolute path of two names: of a directory and in it. -/
structure IsPair
    (p : Path)
    (directory name : String) : Prop where
  nonempty : p.text.isEmpty = false
  not_mem_zero : '\x00' ∉ p.text.toList
  isAbsolute : p.isAbsolute = true
  steps : stepsOf p.text = [directory, name]
  directory_ne : directory ≠ "." ∧ directory ≠ ".."
  name_ne : name ≠ "." ∧ name ≠ ".."

namespace IsPair

variable {directory name : String}

theorem resolve_eq
    (hPair : IsPair p directory name)
    (hDirectory : t.entry? [directory] = some .directory)
    (follow : Bool) :
    t.resolve follow p =
      t.walk follow maxLinks [directory] [name] := by
  have hZero : ¬ p.text.contains '\x00' = true := by
    simpa using hPair.not_mem_zero
  rw [resolve, if_neg (by simp [hPair.nonempty]), if_neg hZero,
    if_pos hPair.isAbsolute, hPair.steps]
  exact
    walk_directory hPair.directory_ne.1 hPair.directory_ne.2
      hDirectory

theorem status_file
    (hPair : IsPair p directory name)
    (hDirectory : t.entry? [directory] = some .directory)
    (hFile : t.entry? [directory, name] = some (.file content)) :
    t.status p = .ok (.file content) := by
  rw [status, hPair.resolve_eq hDirectory,
    walk_file hPair.name_ne.1 hPair.name_ne.2 hFile]

theorem fileToWrite_vacant
    (hPair : IsPair p directory name)
    (hDirectory : t.entry? [directory] = some .directory)
    (hFree : t.entry? [directory, name] = none) :
    t.fileToWrite p = .ok [directory, name] := by
  rw [fileToWrite, hPair.resolve_eq hDirectory,
    walk_vacant hPair.name_ne.1 hPair.name_ne.2 hFree]
  rfl

end IsPair

------------------------------------------------------------
-- Ends
------------------------------------------------------------

/- The names of a place where a file is or can be put. -/
def Place.file? : Place → Option Names
  | .found names (.file _) => some names
  | .found _ _ => none
  | .vacant names => some names

/- The tree with a file under some names. -/
def withFile
    (t : FileTree)
    (names : Names)
    (content : List UInt8) :
    FileTree :=
  { t with entries := Dict.insert names (.file content) t.entries }

/- Names that no way leads through: they are free or a file has them. -/
def IsEnd (t : FileTree) (names : Names) : Prop :=
  ∀ entry, t.entry? names = some entry →
    ∃ content, entry = .file content

theorem IsEnd.ne_nil
    (hEnd : t.IsEnd names) :
    names ≠ [] := by
  rintro rfl
  rcases hEnd .directory rfl with ⟨content, hFile⟩
  cases hFile

/- An entry that was put is found, and all others are as before. -/
theorem entry?_insert
    (hNames : names ≠ [])
    (t : FileTree)
    (entry : Entry)
    (other : Names) :
    entry?
        { t with entries := Dict.insert names entry t.entries }
        other =
      if other = names then some entry else t.entry? other := by
  unfold entry?
  rw [Dict.find?_insert]
  by_cases hOther : other = names
  · rw [hOther, if_neg hNames, if_pos rfl, if_pos rfl]
  · rw [if_neg hOther, if_neg hOther]

theorem entry?_withFile
    (hEnd : t.IsEnd names)
    (content : List UInt8)
    (other : Names) :
    entry? (t.withFile names content) other =
      if other = names then
        some (.file content)
      else
        t.entry? other :=
  entry?_insert hEnd.ne_nil t (.file content) other

theorem IsEnd.entry?_withFile_self
    (hEnd : t.IsEnd names) :
    entry? (t.withFile names content) names =
      some (.file content) := by
  rw [entry?_withFile hEnd, if_pos rfl]

/- An entry of another kind is no end, and it stays. -/
theorem IsEnd.entry?_withFile_of_ne
    {other : Names}
    {entry : Entry}
    (hEnd : t.IsEnd names)
    (hEntry : t.entry? other = some entry)
    (hKind : ∀ old, entry ≠ .file old) :
    entry? (t.withFile names content) other = some entry := by
  have hOther : other ≠ names := by
    rintro rfl
    rcases hEnd entry hEntry with ⟨old, hFile⟩
    exact hKind old hFile
  rw [entry?_withFile hEnd, if_neg hOther, hEntry]

/-
  A way that ends at a file or at a free name leads to the file
  that was written there.
-/
theorem walk_withFile
    {follow : Bool}
    {links : Nat}
    {here : Names}
    {steps : List String}
    (hWalk : t.walk follow links here steps = .ok place)
    (hFile : place.file? = some names)
    (content : List UInt8) :
    t.IsEnd names ∧
      (t.withFile names content).walk follow links here steps =
        .ok (.found names (.file content)) := by
  fun_induction t.walk follow links here steps
  case case1 | case9 =>
    cases hWalk
    cases hFile
  case case5 | case8 | case10 => cases hWalk
  case case2 ih | case3 ih =>
    rw [walk]
    exact ih hWalk
  case case4 here name rest hHere hUp hEntry hLast =>
    cases hWalk
    cases hFile
    have hEnd : t.IsEnd (here ++ [name]) := by
      intro entry hSome
      rw [hEntry] at hSome
      cases hSome
    cases List.isEmpty_iff.mp hLast
    exact ⟨hEnd, walk_file hHere hUp hEnd.entry?_withFile_self⟩
  case case7 here name rest hHere hUp old hEntry hLast =>
    cases hWalk
    cases hFile
    have hEnd : t.IsEnd (here ++ [name]) := by
      intro entry hSome
      rw [hEntry] at hSome
      cases hSome
      exact ⟨old, rfl⟩
    cases List.isEmpty_iff.mp hLast
    exact ⟨hEnd, walk_file hHere hUp hEnd.entry?_withFile_self⟩
  case case6 links here name rest hHere hUp hEntry ih =>
    rcases ih hWalk with ⟨hEnd, hFound⟩
    refine ⟨hEnd, ?_⟩
    rw [walk_directory hHere hUp
      (hEnd.entry?_withFile_of_ne hEntry nofun)]
    exact hFound
  case case11 here name rest hHere hUp target hEntry hLast links ih =>
    rcases ih hWalk with ⟨hEnd, hFound⟩
    refine ⟨hEnd, ?_⟩
    rw [walk.eq_4 _ _ _ _ _ _ hHere hUp,
      hEnd.entry?_withFile_of_ne hEntry nofun]
    simp only [if_neg hLast]
    exact hFound

------------------------------------------------------------
-- Writing
------------------------------------------------------------

theorem resolve_withFile
    {follow : Bool}
    (hResolve : t.resolve follow p = .ok place)
    (hFile : place.file? = some names) :
    (t.withFile names content).resolve follow p =
      .ok (.found names (.file content)) := by
  unfold resolve at hResolve ⊢
  split at hResolve
  · cases hResolve
  split at hResolve
  · cases hResolve
  rename_i hText hZero
  rw [if_neg hText, if_neg hZero]
  exact (walk_withFile hResolve hFile content).2

/- Where a file is to be written, a way ends. -/
theorem resolve_of_fileToWrite
    (hNames : t.fileToWrite p = .ok names) :
    ∃ place,
      t.resolve true p = .ok place ∧ place.file? = some names := by
  unfold fileToWrite at hNames
  split at hNames
  · rename_i hResolve
    cases hNames
    exact ⟨_, hResolve, rfl⟩
  · cases hNames
  · rename_i hResolve
    cases hNames
    exact ⟨_, hResolve, rfl⟩
  · split at hNames <;> cases hNames
  · cases hNames

/- A file is put where the path leads. -/
theorem write_apply
    (p : Path)
    (content : List UInt8)
    (t : FileTree) :
    write p content t =
      match t.fileToWrite p with
      | .ok names => (.ok (), t.withFile names content)
      | .error e => (.error e, t) := by
  rw [write, Job.get_bind_apply]
  cases t.fileToWrite p <;> rfl

theorem write_eq_ok
    (hWrite : write p content t = (.ok (), t')) :
    ∃ names,
      t.fileToWrite p = .ok names ∧
        t' = t.withFile names content := by
  rw [write_apply] at hWrite
  cases hNames : t.fileToWrite p with
  | error e =>
      rw [hNames] at hWrite
      cases hWrite
  | ok names =>
      rw [hNames] at hWrite
      cases hWrite
      exact ⟨names, rfl, rfl⟩

/- A file has the content that was written. -/
theorem read_write
    (hWrite : write p content t = (.ok (), t')) :
    t'.read p = .ok content := by
  rcases write_eq_ok hWrite with ⟨names, hNames, rfl⟩
  rcases resolve_of_fileToWrite hNames with
    ⟨place, hResolve, hFile⟩
  rw [read, status, resolve_withFile hResolve hFile]

/- A file with an encoded text has this text. -/
theorem readText_of_read
    {text : String}
    (hRead : t.read p = .ok (Utf8.encode text)) :
    t.readText p = .ok text := by
  have hDecode := Utf8.decode?_encode text
  simp [readText, hRead, hDecode, bind, Except.bind, pure,
    Except.pure]

------------------------------------------------------------
-- Different Places
------------------------------------------------------------

variable {other : Names}

/- Trees that differ under one name only, which no way leads through. -/
structure DifferAt
    (names : Names)
    (t t' : FileTree) : Prop where
  current_eq : t'.current = t.current
  left : t.IsEnd names
  right : t'.IsEnd names
  entry?_eq :
    ∀ other, other ≠ names → t'.entry? other = t.entry? other

namespace DifferAt

theorem symm
    (hDiffer : DifferAt names t t') :
    DifferAt names t' t where
  current_eq := hDiffer.current_eq.symm
  left := hDiffer.right
  right := hDiffer.left
  entry?_eq other hOther := (hDiffer.entry?_eq other hOther).symm

/- An entry of another kind is under another name. -/
theorem entry?_of_kind
    {entry : Entry}
    (hDiffer : DifferAt names t t')
    (hEntry : t.entry? other = some entry)
    (hKind : ∀ old, entry ≠ .file old) :
    t'.entry? other = some entry := by
  have hOther : other ≠ names := by
    rintro rfl
    rcases hDiffer.left entry hEntry with ⟨old, hFile⟩
    exact hKind old hFile
  rw [hDiffer.entry?_eq other hOther, hEntry]

/- A way that ends under another name is the same in both. -/
theorem walk
    (hDiffer : DifferAt names t t')
    {follow : Bool}
    {links : Nat}
    {here : Names}
    {steps : List String}
    (hWalk : t.walk follow links here steps = .ok place)
    (hFile : place.file? = some other)
    (hOther : other ≠ names) :
    t'.walk follow links here steps = .ok place := by
  fun_induction t.walk follow links here steps
  case case1 | case9 =>
    cases hWalk
    cases hFile
  case case5 | case8 | case10 => cases hWalk
  case case2 ih | case3 ih =>
    rw [FileTree.walk]
    exact ih hWalk
  case case4 here name rest hHere hUp hEntry hLast =>
    cases hWalk
    cases hFile
    rw [← hDiffer.entry?_eq _ hOther] at hEntry
    cases List.isEmpty_iff.mp hLast
    exact walk_vacant hHere hUp hEntry
  case case7 here name rest hHere hUp old hEntry hLast =>
    cases hWalk
    cases hFile
    rw [← hDiffer.entry?_eq _ hOther] at hEntry
    cases List.isEmpty_iff.mp hLast
    exact walk_file hHere hUp hEntry
  case case6 links here name rest hHere hUp hEntry ih =>
    rw [walk_directory hHere hUp
      (hDiffer.entry?_of_kind hEntry nofun)]
    exact ih hWalk
  case case11 here name rest hHere hUp target hEntry hLast links ih =>
    rw [walk.eq_4 _ _ _ _ _ _ hHere hUp,
      hDiffer.entry?_of_kind hEntry nofun]
    simp only [if_neg hLast]
    exact ih hWalk

theorem resolve
    (hDiffer : DifferAt names t t')
    {follow : Bool}
    (hResolve : t.resolve follow p = .ok place)
    (hFile : place.file? = some other)
    (hOther : other ≠ names) :
    t'.resolve follow p = .ok place := by
  unfold FileTree.resolve at hResolve ⊢
  split at hResolve
  · cases hResolve
  split at hResolve
  · cases hResolve
  rename_i hText hZero
  rw [if_neg hText, if_neg hZero, hDiffer.current_eq]
  exact hDiffer.walk hResolve hFile hOther

end DifferAt

/- Writing a file makes a difference where it is written only. -/
theorem differAt_withFile
    (hEnd : t.IsEnd names)
    (content : List UInt8) :
    DifferAt names t (t.withFile names content) where
  current_eq := rfl
  left := hEnd
  right entry hEntry := by
    rw [hEnd.entry?_withFile_self] at hEntry
    cases hEntry
    exact ⟨content, rfl⟩
  entry?_eq other hOther := by
    rw [entry?_withFile hEnd, if_neg hOther]

theorem fileToWrite_of_resolve
    (hResolve : t.resolve true p = .ok place)
    (hFile : place.file? = some names) :
    t.fileToWrite p = .ok names := by
  rw [fileToWrite, hResolve]
  rcases place with ⟨found, _ | _ | _⟩ | free <;> cases hFile <;> rfl

/- A file is written where no way goes on. -/
theorem isEnd_of_fileToWrite
    (hNames : t.fileToWrite p = .ok names) :
    t.IsEnd names := by
  rcases resolve_of_fileToWrite hNames with
    ⟨place, hResolve, hFile⟩
  unfold resolve at hResolve
  split at hResolve
  · cases hResolve
  split at hResolve
  · cases hResolve
  exact (walk_withFile hResolve hFile []).1

/- Files that are written to different places do not interfere. -/
theorem DifferAt.fileToWrite
    (hDiffer : DifferAt names t t')
    (hPlace : t.fileToWrite p = .ok other)
    (hOther : other ≠ names) :
    t'.fileToWrite p = .ok other := by
  rcases resolve_of_fileToWrite hPlace with
    ⟨place, hResolve, hFile⟩
  exact
    fileToWrite_of_resolve (hDiffer.resolve hResolve hFile hOther)
      hFile

theorem withFile_comm
    (hOther : other ≠ names)
    (content content' : List UInt8)
    (t : FileTree) :
    (t.withFile names content).withFile other content' =
      (t.withFile other content').withFile names content := by
  have hKeys : compare other names ≠ .eq :=
    fun hEq => hOther (Std.LawfulEqOrd.eq_of_compare hEq)
  unfold withFile
  rw [Dict.insert_comm hKeys]

/- Of what is written to one place the last counts. -/
theorem withFile_withFile
    (names : Names)
    (content content' : List UInt8)
    (t : FileTree) :
    (t.withFile names content').withFile names content =
      t.withFile names content := by
  unfold withFile
  rw [Dict.insert_insert]

------------------------------------------------------------
-- Directories
------------------------------------------------------------

variable {t'' : FileTree}

/- Nothing changes but that names that were free are directories. -/
def AddsDirectories (t t' : FileTree) : Prop :=
  ∀ names, t'.entry? names = t.entry? names ∨
    t.entry? names = none ∧ t'.entry? names = some .directory

theorem AddsDirectories.refl
    (t : FileTree) :
    AddsDirectories t t :=
  fun _ => Or.inl rfl

theorem AddsDirectories.trans
    (hFirst : AddsDirectories t t')
    (hSecond : AddsDirectories t' t'') :
    AddsDirectories t t'' := by
  intro names
  rcases hFirst names with hSame | ⟨hFree, hMade⟩
  · rw [← hSame]
    exact hSecond names
  · rcases hSecond names with hSame | ⟨hOther, -⟩
    · exact Or.inr ⟨hFree, hSame.trans hMade⟩
    · rw [hMade] at hOther
      cases hOther

/- A way ends at a free name only if it is free. -/
theorem entry?_of_walk_vacant
    {follow : Bool}
    {links : Nat}
    {here : Names}
    {steps : List String}
    (hWalk :
      t.walk follow links here steps = .ok (.vacant names)) :
    t.entry? names = none := by
  fun_induction t.walk follow links here steps
  case case1 | case5 | case7 | case8 | case9 | case10 =>
    cases hWalk
  case case2 ih | case3 ih | case6 ih | case11 ih =>
    exact ih hWalk
  case case4 hEntry _ =>
    cases hWalk
    exact hEntry

theorem entry?_of_resolve_vacant
    {follow : Bool}
    (hResolve : t.resolve follow p = .ok (.vacant names)) :
    t.entry? names = none := by
  unfold resolve at hResolve
  split at hResolve
  · cases hResolve
  split at hResolve
  · cases hResolve
  · exact entry?_of_walk_vacant hResolve

theorem addsDirectories_put
    (hFree : t.entry? names = none) :
    AddsDirectories t (put names .directory t).2 := by
  have hNames : names ≠ [] := by
    rintro rfl
    cases hFree
  intro other
  have hEntry := entry?_insert hNames t .directory other
  by_cases hOther : other = names
  · rw [if_pos hOther] at hEntry
    rw [hOther] at hEntry ⊢
    exact Or.inr ⟨hFree, hEntry⟩
  · rw [if_neg hOther] at hEntry
    exact Or.inl hEntry

section Making

variable {R : FileTree → FileTree → Prop}
variable (hRefl : ∀ t, R t t)
variable
  (hPut :
    ∀ t names, t.entry? names = none →
      R t (put names .directory t).2)

include hRefl

theorem moves_unlessDirectory
    (p : Path)
    (e : FileError) :
    Job.Moves R (unlessDirectory p e) := by
  intro t
  rw [unlessDirectory, Job.get_bind_apply]
  cases t.isDirectory p <;> exact hRefl t

include hPut

theorem moves_makeDirectory
    (p : Path) :
    Job.Moves R (makeDirectory p) := by
  intro t
  rw [makeDirectory, Job.get_bind_apply]
  cases hResolve : t.resolve false (withoutSlash p) with
  | error e => exact hRefl t
  | ok place =>
      cases place with
      | found names entry => exact hRefl t
      | vacant names =>
          exact hPut t names (entry?_of_resolve_vacant hResolve)

/- Directories are put under free names, one after the other. -/
theorem moves_makeDirectories
    (hTrans : ∀ {t t' t''}, R t t' → R t' t'' → R t t'')
    (p : Path) :
    Job.Moves R (makeDirectories p) := by
  unfold makeDirectories
  generalize p.components.length + 1 = depth
  induction depth generalizing p with
  | zero => exact fun t => hRefl t
  | succ depth ih =>
      have hMake := moves_makeDirectory hRefl hPut p
      have hUnless := moves_unlessDirectory hRefl p
      rw [makeDirectoriesWithin]
      split
      · exact fun t => hRefl t
      · refine Job.Moves.tryCatch (R := R) hTrans hMake fun e => ?_
        split
        · rename_i above _
          exact
            Job.Moves.bind (R := R) hTrans (ih above) fun _ =>
              Job.Moves.tryCatch (R := R) hTrans hMake hUnless
        · exact hUnless _

end Making

theorem addsDirectories_makeDirectories
    (p : Path) :
    Job.Moves AddsDirectories (makeDirectories p) :=
  moves_makeDirectories .refl (fun _ _ => addsDirectories_put)
    .trans p

------------------------------------------------------------
-- What Stays
------------------------------------------------------------

/- A path leads to a file, which has these names. -/
def HasFile (t : FileTree) (p : Path) (names : Names) : Prop :=
  ∃ content, t.resolve true p = .ok (.found names (.file content))

theorem HasFile.names_eq
    (hFile : t.HasFile p names)
    (hOther : t.HasFile p other) :
    names = other := by
  rcases hFile with ⟨content, hResolve⟩
  rcases hOther with ⟨content', hResolve'⟩
  rw [hResolve] at hResolve'
  cases hResolve'
  rfl

/- Nothing is lost, though files may be written anew. -/
structure Retains (t t' : FileTree) : Prop where
  current_eq : t'.current = t.current
  entry? :
    ∀ names entry, t.entry? names = some entry →
      t'.entry? names = some entry ∨
        ∃ old new, entry = .file old ∧
          t'.entry? names = some (.file new)

namespace Retains

theorem refl (t : FileTree) : Retains t t :=
  ⟨rfl, fun _ _ hEntry => Or.inl hEntry⟩

theorem trans
    (hFirst : Retains t t')
    (hSecond : Retains t' t'') :
    Retains t t'' where
  current_eq := hSecond.current_eq.trans hFirst.current_eq
  entry? := fun names entry hEntry => by
    rcases hFirst.entry? names entry hEntry with
      hSame | ⟨old, between, rfl, hNew⟩
    · exact hSecond.entry? names entry hSame
    · rcases hSecond.entry? names _ hNew with
        hSame | ⟨_, new, _, hLast⟩
      · exact Or.inr ⟨old, between, rfl, hSame⟩
      · exact Or.inr ⟨old, new, rfl, hLast⟩

/- What is no file stays as it is. -/
theorem entry?_of_kind
    {entry : Entry}
    (hRetains : Retains t t')
    (hEntry : t.entry? names = some entry)
    (hKind : ∀ old, entry ≠ .file old) :
    t'.entry? names = some entry := by
  rcases hRetains.entry? names entry hEntry with
    hSame | ⟨old, _, hFile, _⟩
  · exact hSame
  · exact absurd hFile (hKind old)

/- So a way still leads to the same names, to a file as before. -/
theorem walk
    {entry : Entry}
    (hRetains : Retains t t')
    {follow : Bool}
    {links : Nat}
    {here : Names}
    {steps : List String}
    (hWalk :
      t.walk follow links here steps = .ok (.found names entry)) :
    ∃ entry',
      t'.walk follow links here steps =
          .ok (.found names entry') ∧
        (entry' = entry ∨
          ∃ old new, entry = .file old ∧ entry' = .file new) := by
  fun_induction t.walk follow links here steps
  case case4 | case5 | case8 | case10 => cases hWalk
  case case1 =>
    cases hWalk
    exact ⟨.directory, by rw [FileTree.walk], Or.inl rfl⟩
  case case2 ih | case3 ih =>
    rw [FileTree.walk]
    exact ih hWalk
  case case6 links here name rest hHere hUp hEntry ih =>
    rw [walk_directory hHere hUp
      (hRetains.entry?_of_kind hEntry nofun)]
    exact ih hWalk
  case case7 here name rest hHere hUp old hEntry hLast =>
    cases hWalk
    cases List.isEmpty_iff.mp hLast
    rcases hRetains.entry? _ _ hEntry with
      hSame | ⟨_, new, _, hNew⟩
    · exact ⟨_, walk_file hHere hUp hSame, Or.inl rfl⟩
    · exact
        ⟨_, walk_file hHere hUp hNew, Or.inr ⟨old, new, rfl, rfl⟩⟩
  case case9 here name rest hHere hUp target hEntry hLast =>
    cases hWalk
    refine ⟨.link target, ?_, Or.inl rfl⟩
    rw [walk.eq_4 _ _ _ _ _ _ hHere hUp,
      hRetains.entry?_of_kind hEntry nofun]
    simp only [if_pos hLast]
  case case11 here name rest hHere hUp target hEntry hLast links ih =>
    rw [walk.eq_4 _ _ _ _ _ _ hHere hUp,
      hRetains.entry?_of_kind hEntry nofun]
    simp only [if_neg hLast]
    exact ih hWalk

theorem resolve
    {entry : Entry}
    (hRetains : Retains t t')
    {follow : Bool}
    (hResolve : t.resolve follow p = .ok (.found names entry)) :
    ∃ entry',
      t'.resolve follow p = .ok (.found names entry') ∧
        (entry' = entry ∨
          ∃ old new, entry = .file old ∧ entry' = .file new) := by
  unfold FileTree.resolve at hResolve ⊢
  split at hResolve
  · cases hResolve
  split at hResolve
  · cases hResolve
  rename_i hText hZero
  rw [if_neg hText, if_neg hZero, hRetains.current_eq]
  exact hRetains.walk hResolve

theorem hasFile
    (hRetains : Retains t t')
    (hFile : t.HasFile p names) :
    t'.HasFile p names := by
  rcases hFile with ⟨content, hResolve⟩
  rcases hRetains.resolve hResolve with
    ⟨entry, hResolve', rfl | ⟨_, new, _, rfl⟩⟩
  · exact ⟨content, hResolve'⟩
  · exact ⟨new, hResolve'⟩

/- What is there stays there. -/
theorem exists?
    (hRetains : Retains t t')
    (hExists : t.exists? p = true) :
    t'.exists? p = true := by
  unfold FileTree.exists? status at hExists ⊢
  cases hResolve : t.resolve true p with
  | error e =>
      rw [hResolve] at hExists
      cases hExists
  | ok place =>
      cases place with
      | vacant names =>
          rw [hResolve] at hExists
          cases hExists
      | found names entry =>
          rcases hRetains.resolve hResolve with
            ⟨entry', hResolve', -⟩
          rw [hResolve']
          rfl

end Retains

theorem retains_withFile
    (hEnd : t.IsEnd names)
    (content : List UInt8) :
    Retains t (t.withFile names content) where
  current_eq := rfl
  entry? other entry hEntry := by
    rw [entry?_withFile hEnd]
    by_cases hOther : other = names
    · rcases hEnd entry (hOther ▸ hEntry) with ⟨old, rfl⟩
      exact Or.inr ⟨old, content, rfl, if_pos hOther⟩
    · exact Or.inl ((if_neg hOther).trans hEntry)

theorem retains_put
    (hFree : t.entry? names = none) :
    Retains t (put names .directory t).2 where
  current_eq := rfl
  entry? other entry hEntry := by
    rcases addsDirectories_put hFree other with
      hSame | ⟨hNone, -⟩
    · exact Or.inl (hSame.trans hEntry)
    · rw [hNone] at hEntry
      cases hEntry

/- A path along which a file was written leads to it. -/
theorem hasFile_withFile
    (hNames : t.fileToWrite p = .ok names)
    (content : List UInt8) :
    (t.withFile names content).HasFile p names := by
  rcases resolve_of_fileToWrite hNames with
    ⟨place, hResolve, hFile⟩
  exact ⟨content, resolve_withFile hResolve hFile⟩

------------------------------------------------------------
-- Files
------------------------------------------------------------

/- Writing changes the entry that the path leads to, or fails. -/
theorem write_cases
    (p : Path)
    (content : List UInt8)
    (t : FileTree) :
    (∃ names, t.fileToWrite p = .ok names ∧
        write p content t =
          (.ok (), t.withFile names content)) ∨
      ∃ e, write p content t = (.error e, t) := by
  rw [write_apply]
  cases hNames : t.fileToWrite p with
  | error e => exact Or.inr ⟨e, rfl⟩
  | ok names => exact Or.inl ⟨names, rfl, rfl⟩

end FileTree

end Variability
