import Variability.Proofs.Dict.Ordered
import Variability.Proofs.Generation.Confinement
import Variability.Proofs.Inclusion.Sameness
import Variability.Proofs.Inclusion.Variants

/-
  Compiler calls in another order.

  Whatever the order of the files that are resolved, the set of
  their dependencies is the same. Of dependencies that are the same
  the one that is found first stays, with its search directories.
  So the search directories of a generated file are the same, too,
  if all that is found for it has the same ones.

  Main declarations:
    * `Scanner.AnswersBy`, `Scanner.reached`
    * `Scanner.resolves_resolveFrom`
    * `SearchPaths.AgreeOn`
    * `Scanner.resolve_reordered`
-/

namespace Variability

------------------------------------------------------------
-- Search Directories
------------------------------------------------------------

namespace SearchPaths

variable {directories : Inclusion → List Path}
variable {ds ds' reached : List Dependency}
variable {file : Path}

/- The directories of all that is compiled, by its generated files. -/
def entries
    (directories : Inclusion → List Path)
    (ds : List Dependency) :
    List (Path × List Path) :=
  (ds.filterMap Dependency.inclusion?).map fun i =>
    (i.composedPath, directories i)

theorem ofDependencies_eq
    (ds : List Dependency) :
    ofDependencies ds =
      { includePaths := Dict.ofList (entries (·.includePaths) ds)
        systemIncludePaths :=
          Dict.ofList (entries (·.systemIncludePaths) ds) } := by
  unfold ofDependencies entries
  generalize ds.filterMap Dependency.inclusion? = is
  induction is using List.reverseRecOn with
  | nil => rfl
  | append_singleton before last ih =>
      simp only [List.foldl_append, List.foldl_cons,
        List.foldl_nil, ih, List.map_append, Dict.ofList_eq,
        List.map_cons, List.map_nil]
      rfl

theorem mem_entries_iff
    (e : Path × List Path) :
    e ∈ entries directories ds ↔
      ∃ i, .compiled i ∈ ds ∧
        e = (i.composedPath, directories i) := by
  have hInclusion (i : Inclusion) :
      i ∈ ds.filterMap Dependency.inclusion? ↔
        .compiled i ∈ ds := by
    rw [List.mem_filterMap]
    constructor
    · rintro ⟨d, hMem, hSome⟩
      cases d <;> cases hSome
      exact hMem
    · exact fun hMem => ⟨.compiled i, hMem, rfl⟩
  rw [entries, List.mem_map]
  simp only [hInclusion, eq_comm]

/-
  The compiled files that were found agree on a generated file: all
  that are generated there have the same directories, and what is
  the same as one of them is generated there, too.
-/
structure AgreeOn
    (directories : Inclusion → List Path)
    (reached : List Dependency)
    (file : Path) :
    Prop where
  generated :
    ∀ a b, .compiled a ∈ reached → .compiled b ∈ reached →
      a.composedPath.same file = true → a.same b = true →
      b.composedPath.same file = true
  directories :
    ∀ a b, .compiled a ∈ reached → .compiled b ∈ reached →
      a.composedPath.same file = true →
      b.composedPath.same file = true →
      directories a = directories b

/- What one set has for a file the other one has, too. -/
theorem AgreeOn.exists_entry
    (hAgree : AgreeOn directories reached file)
    (hReached : ds ⊆ reached)
    (hReached' : ds' ⊆ reached)
    (hSame : ∀ d ∈ ds, ∃ d' ∈ ds', d.same d' = true)
    (hEntry :
      ∃ e ∈ entries directories ds, compare file e.1 = .eq) :
    ∃ e ∈ entries directories ds', compare file e.1 = .eq := by
  rcases hEntry with ⟨e, he, hFile⟩
  rcases (mem_entries_iff e).mp he with ⟨a, ha, rfl⟩
  rcases hSame _ ha with ⟨d', hd', hVariant⟩
  rw [Path.compare_eq_iff_same] at hFile
  cases d' with
  | header p => cases hVariant
  | compiled b =>
      refine
        ⟨_, (mem_entries_iff _).mpr ⟨b, hd', rfl⟩, ?_⟩
      rw [Path.compare_eq_iff_same]
      exact
        hAgree.generated a b (hReached ha) (hReached' hd') hFile
          hVariant

/- Same sets have the same directories where all agree. -/
theorem AgreeOn.find?_eq
    (hAgree : AgreeOn directories reached file)
    (hReached : ds ⊆ reached)
    (hReached' : ds' ⊆ reached)
    (hSame : Dependency.SameSet ds ds') :
    Dict.find? file (Dict.ofList (entries directories ds)) =
      Dict.find? file (Dict.ofList (entries directories ds')) := by
  refine
    Dict.find?_ofList_congr
      ⟨hAgree.exists_entry hReached hReached' hSame.1,
        hAgree.exists_entry hReached' hReached hSame.2⟩ ?_
  intro e he e' he' hFile hFile'
  rcases (mem_entries_iff e).mp he with ⟨a, ha, rfl⟩
  rcases (mem_entries_iff e').mp he' with ⟨b, hb, rfl⟩
  rw [Path.compare_eq_iff_same] at hFile hFile'
  exact
    hAgree.directories a b (hReached ha) (hReached' hb) hFile
      hFile'

end SearchPaths

------------------------------------------------------------
-- What Is Found
------------------------------------------------------------

namespace Scanner

variable {scanner : Scanner}
variable {sourceDir : Path}
variable {w w' : Workspace}
variable {answer : Inclusion → Except Fault String}
variable {compiled compiled' : List Inclusion}
variable {i : Inclusion}
variable {rule : String}
variable {set deps : List Dependency}
variable {result : Except Fault (List Dependency) × Workspace}

/-
  A scanner with one answer for each file. It may look at the flags
  of the file and at the files that are there, which it leaves as
  they are.
-/
structure AnswersBy
    (scanner : Scanner)
    (sourceDir : Path)
    (w : Workspace)
    (answer : Inclusion → Except Fault String) :
    Prop where
  fst_eq :
    ∀ i v, v.files = w.files → v.cancelled = w.cancelled →
      (scanner i sourceDir v).1 = answer i
  files_eq :
    ∀ i v, v.files = w.files → v.cancelled = w.cancelled →
      (scanner i sourceDir v).2.files = w.files
  cancelled_eq :
    ∀ i v, v.files = w.files → v.cancelled = w.cancelled →
      (scanner i sourceDir v).2.cancelled = w.cancelled

/- A file, and what its rule lists if it is there and has one. -/
def found
    (w : Workspace)
    (sourceDir : Path)
    (answer : Inclusion → Except Fault String)
    (i : Inclusion) :
    List Dependency :=
  .compiled i ::
    if w.files.exists? (sourceDir.join i.file) then
      match answer i with
      | .ok rule => MakeRule.dependencies i rule
      | .error _ => []
    else
      []

theorem mem_found
    {d : Dependency}
    (hMem : d ∈ found w sourceDir answer i) :
    d = .compiled i ∨
      ∃ rule, answer i = .ok rule ∧
        d ∈ MakeRule.dependencies i rule := by
  rcases List.mem_cons.mp hMem with hItself | hListed
  · exact Or.inl hItself
  · split at hListed
    · split at hListed
      · exact Or.inr ⟨_, by assumption, hListed⟩
      · cases hListed
    · cases hListed

/- All that is found for some files. -/
def reached
    (w : Workspace)
    (sourceDir : Path)
    (answer : Inclusion → Except Fault String)
    (compiled : List Inclusion) :
    List Dependency :=
  compiled.flatMap (found w sourceDir answer)

/- Nothing keeps the files from being resolved. -/
def IsResolvable
    (w : Workspace)
    (sourceDir : Path)
    (answer : Inclusion → Except Fault String)
    (compiled : List Inclusion) :
    Prop :=
  ∀ i ∈ compiled,
    w.cancelled = false ∧
      (w.files.exists? (sourceDir.join i.file) = true →
        ∃ rule, answer i = .ok rule)

theorem IsResolvable.perm
    (hResolvable : IsResolvable w sourceDir answer compiled)
    (hPerm : compiled.Perm compiled') :
    IsResolvable w sourceDir answer compiled' :=
  fun i hMem => hResolvable i (hPerm.mem_iff.mpr hMem)

theorem mem_reached_of_perm
    (hPerm : compiled.Perm compiled')
    (d : Dependency) :
    d ∈ reached w sourceDir answer compiled ↔
      d ∈ reached w sourceDir answer compiled' :=
  (hPerm.flatMap_right _).mem_iff

/- How files are resolved: all that is found is put into the set. -/
def Resolves
    (w : Workspace)
    (sourceDir : Path)
    (answer : Inclusion → Except Fault String)
    (compiled : List Inclusion)
    (set : List Dependency) :
    Except Fault (List Dependency) × Workspace → Prop :=
  Job.EndsIn
    (fun deps _ =>
      IsResolvable w sourceDir answer compiled ∧
        deps =
          (reached w sourceDir answer compiled).foldl
            Dependency.insert set)
    (¬ IsResolvable w sourceDir answer compiled)

/- What keeps the first file from it keeps all of them from it. -/
theorem Resolves.kept
    {e : Fault}
    {v : Workspace}
    (hKept : ¬ IsResolvable w sourceDir answer [i]) :
    Resolves w sourceDir answer (i :: compiled) set (.error e, v) :=
  .error fun hAll =>
    hKept fun j hj =>
      hAll j (List.mem_cons.mpr (Or.inl (List.mem_singleton.mp hj)))

/- Otherwise what is found for it is put in, and the rest follows. -/
theorem Resolves.cons
    (hFirst : IsResolvable w sourceDir answer [i])
    (hRest :
      Resolves w sourceDir answer compiled
        ((found w sourceDir answer i).foldl Dependency.insert set)
        result) :
    Resolves w sourceDir answer (i :: compiled) set result := by
  refine (hRest.imp ?_).because ?_
  · rintro deps _ ⟨hAll, hDeps⟩
    refine ⟨List.forall_mem_cons.mpr ⟨hFirst i (by simp), hAll⟩, ?_⟩
    rw [hDeps, reached, reached, List.flatMap_cons,
      List.foldl_append]
  · exact fun hNot hAll =>
      hNot fun j hj => hAll j (List.mem_cons_of_mem i hj)

theorem Resolves.missing
    (hActive : w.cancelled = false)
    (hMissing : w.files.exists? (sourceDir.join i.file) = false)
    (hRest :
      Resolves w sourceDir answer compiled
        (Dependency.insert set (.compiled i)) result) :
    Resolves w sourceDir answer (i :: compiled) set result := by
  refine .cons ?_ ?_
  · simp [IsResolvable, hActive, hMissing]
  · rwa [found, hMissing, if_neg Bool.false_ne_true]

theorem Resolves.asked
    (hActive : w.cancelled = false)
    (hThere : w.files.exists? (sourceDir.join i.file) = true)
    (hRule : answer i = .ok rule)
    (hRest :
      Resolves w sourceDir answer compiled
        ((MakeRule.dependencies i rule).foldl Dependency.insert
          (Dependency.insert set (.compiled i)))
        result) :
    Resolves w sourceDir answer (i :: compiled) set result := by
  refine .cons ?_ ?_
  · simp [IsResolvable, hActive, hRule]
  · rwa [found, hThere, if_pos rfl, hRule]

/- Files are resolved in turn, unless something keeps them from it. -/
theorem resolves_resolveFrom
    (hScanner : AnswersBy scanner sourceDir w answer)
    (compiled : List Inclusion)
    (set : List Dependency)
    {v : Workspace}
    (hFiles : v.files = w.files)
    (hCancelled : v.cancelled = w.cancelled) :
    Resolves w sourceDir answer compiled set
      (resolveFrom scanner sourceDir set compiled v) := by
  induction compiled generalizing set v with
  | nil => exact .ok ⟨nofun, rfl⟩
  | cons i rest ih =>
      rw [resolveFrom]
      cases hActive : w.cancelled with
      | true =>
          rw [Job.bind_apply,
            Job.check_of_cancelled (hCancelled.trans hActive)]
          exact .kept (by simp [IsResolvable, hActive])
      | false =>
          rw [Job.bind_of_ok
            (Job.check_apply (hCancelled.trans hActive))]
          dsimp only
          rw [Job.get_bind_apply, hFiles]
          cases hThere : w.files.exists? (sourceDir.join i.file) with
          | false =>
              exact .missing hActive hThere (ih _ hFiles hCancelled)
          | true =>
              have hRule := hScanner.fst_eq i v hFiles hCancelled
              have hLeft := hScanner.files_eq i v hFiles hCancelled
              have hStill :=
                hScanner.cancelled_eq i v hFiles hCancelled
              rw [if_pos rfl, Job.bind_apply]
              generalize scanner i sourceDir v = answered at *
              rcases answered with ⟨e | rule, v'⟩
              · exact
                  .kept (by simp [IsResolvable, hThere, ← hRule])
              · exact
                  .asked hActive hThere hRule.symm
                    (ih _ hLeft hStill)

/-
  Files in another order have the same set of dependencies, and in
  whatever order the sets are gone through, they have the same
  search directories for each generated file on which all that was
  found agrees.
-/
theorem resolve_reordered
    (hScanner : AnswersBy scanner sourceDir w answer)
    (hPerm : compiled.Perm compiled')
    (hRun :
      resolve scanner sourceDir compiled w = (.ok deps, w')) :
    ∃ deps' w'',
      resolve scanner sourceDir compiled' w = (.ok deps', w'') ∧
        Dependency.SameSet deps deps' ∧
        ∀ ds ds', ds.Perm deps → ds'.Perm deps' → ∀ file,
          (SearchPaths.AgreeOn (·.includePaths)
              (reached w sourceDir answer compiled) file →
            Dict.find? file
                (SearchPaths.ofDependencies ds).includePaths =
              Dict.find? file
                (SearchPaths.ofDependencies ds').includePaths) ∧
          (SearchPaths.AgreeOn (·.systemIncludePaths)
              (reached w sourceDir answer compiled) file →
            Dict.find? file
                (SearchPaths.ofDependencies ds).systemIncludePaths =
              Dict.find? file
                (SearchPaths.ofDependencies ds').systemIncludePaths) := by
  rcases (resolves_resolveFrom hScanner compiled [] rfl rfl).of_eq_ok
      hRun with
    ⟨hAll, hDeps⟩
  rcases (resolves_resolveFrom hScanner compiled' [] rfl
      rfl).exists_eq_ok (not_not.mpr (hAll.perm hPerm)) with
    ⟨deps', w'', hRun', -, hDeps'⟩
  have hSame : Dependency.SameSet deps deps' := by
    rw [hDeps, hDeps']
    exact Dependency.sameSet_foldl (mem_reached_of_perm hPerm)
  have hReached : deps ⊆ reached w sourceDir answer compiled := by
    rw [hDeps]
    exact Dependency.foldl_subset _
  have hReached' :
      deps' ⊆ reached w sourceDir answer compiled := by
    rw [hDeps']
    exact fun d hMem =>
      (mem_reached_of_perm hPerm d).mpr
        (Dependency.foldl_subset _ hMem)
  refine ⟨deps', w'', hRun', hSame, ?_⟩
  intro ds ds' hds hds' file
  have hFrom := List.Subset.trans hds.subset hReached
  have hFrom' := List.Subset.trans hds'.subset hReached'
  have hSet := hSame.perm hds.symm hds'.symm
  rw [SearchPaths.ofDependencies_eq, SearchPaths.ofDependencies_eq]
  exact
    ⟨fun hAgree => hAgree.find?_eq hFrom hFrom' hSet,
      fun hAgree => hAgree.find?_eq hFrom hFrom' hSet⟩

------------------------------------------------------------
-- Other Orders and Directories
------------------------------------------------------------

/- A scanner that answers by the file alone. -/
def byFile (rule : Path → String) : Scanner :=
  fun i _ => pure (rule i.file)

theorem answersBy_byFile
    (rule : Path → String) :
    AnswersBy (byFile rule) sourceDir w
      fun i => .ok (rule i.file) :=
  ⟨fun _ _ _ _ => rfl, fun _ _ hFiles _ => hFiles,
    fun _ _ _ hCancelled => hCancelled⟩

/- All files are resolved that always have an answer. -/
theorem exists_resolve_byFile
    (rule : Path → String)
    (sourceDir : Path)
    (compiled : List Inclusion)
    (hActive : w.cancelled = false) :
    ∃ w',
      resolve (byFile rule) sourceDir compiled w =
        (.ok
          ((reached w sourceDir (fun i => .ok (rule i.file))
            compiled).foldl Dependency.insert []), w') := by
  have hAnswers :
      AnswersBy (byFile rule) sourceDir w
        fun i => .ok (rule i.file) :=
    answersBy_byFile rule
  have hEnds := resolves_resolveFrom hAnswers compiled [] rfl rfl
  rcases hEnds.exists_eq_ok
      (not_not.mpr fun i _ => ⟨hActive, fun _ => ⟨_, rfl⟩⟩) with
    ⟨deps, w', hRun, -, rfl⟩
  exact ⟨w', hRun⟩

/- A file in another directory, with directories of its own. -/
def nestedFile : Inclusion :=
  { file := ⟨"sub/b.c"⟩, includePaths := [⟨"inc"⟩] }

/- Rules for both files, which share a header. -/
def twoRules (file : Path) : String :=
  if file = oneFile.file then
    "a.o: a.c b.h\n"
  else
    "b.o: sub/b.c b.h\n"

theorem mem_reached_nestedFile
    {i : Inclusion}
    (hMem :
      .compiled i ∈
        reached oneSource ⟨"/src"⟩
          (fun i => .ok (twoRules i.file))
          [oneFile, nestedFile]) :
    i ∈ [oneFile, nestedFile] := by
  have hListed :
      ∀ j ∈ [oneFile, nestedFile],
        ∀ i ∈ (MakeRule.dependencies j
            (twoRules j.file)).filterMap Dependency.inclusion?,
          i ∈ [oneFile, nestedFile] := by
    decide
  rcases List.mem_flatMap.mp hMem with ⟨j, hj, hFound⟩
  rcases mem_found hFound with hItself | ⟨rule, hRule, hDepends⟩
  · cases hItself
    exact hj
  · cases hRule
    exact
      hListed j hj i
        (List.mem_filterMap.mpr ⟨.compiled i, hDepends, rfl⟩)

/- Files that are generated in different directories agree. -/
theorem agreeOn_nestedFile
    (file : Path) :
    SearchPaths.AgreeOn (·.includePaths)
      (reached oneSource ⟨"/src"⟩
        (fun i => .ok (twoRules i.file))
        [oneFile, nestedFile])
      file := by
  have hVariants :
      ∀ a ∈ [oneFile, nestedFile], ∀ b ∈ [oneFile, nestedFile],
        a.same b = true → a = b := by
    decide
  have hPlaces :
      ∀ a ∈ [oneFile, nestedFile], ∀ b ∈ [oneFile, nestedFile],
        a.directoryComponents = b.directoryComponents →
          a = b := by
    decide
  constructor
  · intro a b ha hb hFile hSame
    have hEq :=
      hVariants a (mem_reached_nestedFile ha) b
        (mem_reached_nestedFile hb) hSame
    subst hEq
    exact hFile
  · intro a b ha hb hFile hFile'
    rw [Path.same_iff] at hFile hFile'
    have hComponents := hFile.trans hFile'.symm
    rw [Inclusion.components_composedPath,
      Inclusion.components_composedPath,
      List.append_singleton_inj] at hComponents
    have hEq :=
      hPlaces a (mem_reached_nestedFile ha) b
        (mem_reached_nestedFile hb) hComponents.1
    rw [hEq]

theorem resolve_reordered_nestedFile :
    ∃ deps w' deps' w'',
      resolve (byFile twoRules) ⟨"/src"⟩
          [oneFile, nestedFile] oneSource = (.ok deps, w') ∧
        resolve (byFile twoRules) ⟨"/src"⟩
          [nestedFile, oneFile] oneSource = (.ok deps', w'') ∧
        Dependency.SameSet deps deps' ∧
        ∀ file,
          Dict.find? file
              (SearchPaths.ofDependencies deps).includePaths =
            Dict.find? file
              (SearchPaths.ofDependencies deps').includePaths := by
  rcases exists_resolve_byFile (w := oneSource) twoRules ⟨"/src"⟩
      [oneFile, nestedFile] rfl with
    ⟨w', hRun⟩
  rcases resolve_reordered (answersBy_byFile twoRules)
      (.swap nestedFile oneFile []) hRun with
    ⟨deps', w'', hRun', hSame, hPaths⟩
  exact
    ⟨_, w', deps', w'', hRun, hRun', hSame, fun file =>
      (hPaths _ _ (.refl _) (.refl _) file).1
        (agreeOn_nestedFile file)⟩

/- The first file with one search directory. -/
def searchingFile (directory : String) : Inclusion :=
  { oneFile with includePaths := [⟨directory⟩] }

theorem foldl_searchingFile :
    ∀ directory ∈ ["x", "y"], ∀ directory' ∈ ["x", "y"],
      (reached oneSource ⟨"/src"⟩
          (fun i => .ok (twoRules i.file))
          [searchingFile directory,
            searchingFile directory']).foldl
          Dependency.insert [] =
        [.compiled (searchingFile directory),
          .header ⟨"b.h"⟩] := by
  have hFound (directory : String) :
      found oneSource ⟨"/src"⟩ (fun i => .ok (twoRules i.file))
          (searchingFile directory) =
        .compiled (searchingFile directory) ::
          MakeRule.dependencies (searchingFile directory)
            (twoRules oneFile.file) := by
    have hFile : (searchingFile directory).file = oneFile.file :=
      rfl
    rw [found, hFile, exists?_oneSource, if_pos rfl]
  simp only [reached, List.flatMap_cons, List.flatMap_nil, hFound]
  decide

theorem find?_searchingFile
    (directory : String) :
    Dict.find? oneFile.composedPath
        (SearchPaths.ofDependencies
          [.compiled (searchingFile directory),
            .header ⟨"b.h"⟩]).includePaths =
      some [⟨directory⟩] := by
  have hPath :
      (searchingFile directory).composedPath =
        oneFile.composedPath :=
    Inclusion.composedPath_congr rfl rfl
  have hPaths :
      (SearchPaths.ofDependencies
          [.compiled (searchingFile directory),
            .header ⟨"b.h"⟩]).includePaths =
        Dict.insert oneFile.composedPath [⟨directory⟩] [] := by
    rw [← hPath]
    rfl
  rw [hPaths, Dict.find?_insert_of_trans,
    if_pos Std.ReflCmp.compare_self]

/-
  A file that is compiled twice, with other search directories only,
  has those of the first call.
-/
theorem resolve_not_reorderable :
    ∃ deps deps' w' w'',
      resolve (byFile twoRules) ⟨"/src"⟩
          [searchingFile "x", searchingFile "y"] oneSource =
        (.ok deps, w') ∧
      resolve (byFile twoRules) ⟨"/src"⟩
          [searchingFile "y", searchingFile "x"] oneSource =
        (.ok deps', w'') ∧
      Dict.find? oneFile.composedPath
          (SearchPaths.ofDependencies deps).includePaths =
        some [⟨"x"⟩] ∧
      Dict.find? oneFile.composedPath
          (SearchPaths.ofDependencies deps').includePaths =
        some [⟨"y"⟩] := by
  rcases exists_resolve_byFile (w := oneSource) twoRules ⟨"/src"⟩
      [searchingFile "x", searchingFile "y"] rfl with
    ⟨w', hRun⟩
  rcases exists_resolve_byFile (w := oneSource) twoRules ⟨"/src"⟩
      [searchingFile "y", searchingFile "x"] rfl with
    ⟨w'', hRun'⟩
  rw [foldl_searchingFile "x" (by decide) "y" (by decide)] at hRun
  rw [foldl_searchingFile "y" (by decide) "x" (by decide)] at hRun'
  exact
    ⟨_, _, w', w'', hRun, hRun', find?_searchingFile "x",
      find?_searchingFile "y"⟩

end Scanner

end Variability
