import Variability.MakeRule
import Variability.Proofs.FileTree.Laying
import Variability.Proofs.Generation.LineByLine
import Variability.Proofs.Inclusion.Sameness
import Variability.Proofs.Inclusion.Variants

/-
  Where generated files go.

  A compiled file goes to its composed path and a header to its
  own. Composed paths tell variants apart, and none of them is the
  path of a header, as only headers have the endings of headers.
  So no two dependencies have one target.

  Main declarations:
    * `Dependency.target`
    * `Generation.IsProject`
    * `Generation.TellsApart`
    * `Generation.target_inj`
-/

namespace Variability

------------------------------------------------------------
-- Names of Paths
------------------------------------------------------------

namespace Path

variable {p q : Path}

/- The names that a path is made of. -/
def names (p : Path) : Names :=
  p.components.map Component.text

theorem AreNames.eq_map
    (hNames : AreNames p.components) :
    p.names.map .name = p.components := by
  rw [names, List.map_map]
  conv_rhs => rw [← List.map_id p.components]
  apply List.map_congr_left
  intro c hMem
  rcases hNames c hMem with ⟨text, rfl, -⟩
  rfl

theorem components_eq_of_names_eq
    (hp : AreNames p.components)
    (hq : AreNames q.components)
    (hEq : p.names = q.names) :
    p.components = q.components := by
  rw [← hp.eq_map, hEq, hq.eq_map]

theorem exists_components_eq
    {name : String}
    (hName : p.fileName? = some name) :
    ∃ cs, p.components = cs ++ [.name name] := by
  unfold fileName? at hName
  split at hName
  · rename_i text hLast
    cases hName
    exact List.getLast?_eq_some_iff.mp hLast
  · cases hName

/- The text of a path of names ends in the last one. -/
theorem exists_text_eq
    {cs : List Component}
    {name : String}
    (hSpelled : p.IsSpelled)
    (hLast : p.components = cs ++ [.name name])
    (hPlain : (Component.name name).IsPlain) :
    ∃ front, p.text.toList = front ++ name.toList ∧
      (front = [] ∨ ∃ before, front = before ++ ['/']) := by
  rw [hSpelled, hLast, ofComponents_append]
  exact exists_text_join _ (components_of_isPlain hPlain).1

end Path

------------------------------------------------------------
-- Targets
------------------------------------------------------------

namespace Dependency

/- The path of the generated file. -/
def target : Dependency → Path
  | .compiled i => i.composedPath
  | .header p => p

/- Where the generated file comes from. -/
def origin : Dependency → Origin
  | .compiled i => ⟨i.file, i.addedLines⟩
  | .header p => ⟨p, 0⟩

/- The content of the generated file. -/
def generated (d : Dependency) (original : List UInt8) : List UInt8 :=
  match d with
  | .compiled i => i.generated original
  | .header _ => original

end Dependency

namespace Generation

variable {deps : List Dependency}
variable {d e : Dependency}
variable {i j : Inclusion}

/-
  The dependencies of a project: a set in which exactly the paths
  that look like headers are headers, in normal form, and no
  relative one leads out of the source tree.
-/
structure IsProject (deps : List Dependency) : Prop where
  distinct : ∀ d ∈ deps, ∀ e ∈ deps, d.same e = true → d = e
  normalize_eq : ∀ d ∈ deps, d.file.normalize = d.file
  head?_ne :
    ∀ d ∈ deps, d.isExternal = false →
      d.file.components.head? ≠ some .up
  isHeader_eq :
    ∀ d ∈ deps, isHeader d.file.text = d.inclusion?.isNone

/-
  The digests of the compiled files tell them apart: no forced
  include ends the list of them, and SHA-256 has no collision.
-/
structure TellsApart (deps : List Dependency) : Prop where
  hasNoZero : ∀ i, .compiled i ∈ deps → i.HasNoZero
  namesForced : ∀ i, .compiled i ∈ deps → i.NamesForced
  identity_eq :
    ∀ i j, .compiled i ∈ deps → .compiled j ∈ deps →
      Digest.sha256 i.identity = Digest.sha256 j.identity →
        i.identity = j.identity

theorem TellsApart.congr
    {deps' : List Dependency}
    (hApart : TellsApart deps)
    (hSame : ∀ d, d ∈ deps' ↔ d ∈ deps) :
    TellsApart deps' where
  hasNoZero i hi := hApart.hasNoZero i ((hSame _).mp hi)
  namesForced i hi := hApart.namesForced i ((hSame _).mp hi)
  identity_eq i j hi hj :=
    hApart.identity_eq i j ((hSame _).mp hi) ((hSame _).mp hj)

namespace IsProject

/- The order of the dependencies does not count. -/
theorem congr
    {deps' : List Dependency}
    (hProject : IsProject deps)
    (hSame : ∀ d, d ∈ deps' ↔ d ∈ deps) :
    IsProject deps' where
  distinct d hd e he :=
    hProject.distinct d ((hSame d).mp hd) e ((hSame e).mp he)
  normalize_eq d hd := hProject.normalize_eq d ((hSame d).mp hd)
  head?_ne d hd := hProject.head?_ne d ((hSame d).mp hd)
  isHeader_eq d hd := hProject.isHeader_eq d ((hSame d).mp hd)

/- A file inside is named by names. -/
theorem areNames
    (hProject : IsProject deps)
    (hMem : d ∈ deps)
    (hHere : d.isExternal = false) :
    Path.AreNames d.file.components := by
  have hNormal :=
    Path.isNormal_of_normalize_eq (hProject.normalize_eq d hMem)
  rcases hNormal.cases_of_relative hHere with hNames | hUp
  · exact hNames
  · exact absurd hUp (hProject.head?_ne d hMem hHere)

theorem isSpelled
    (hProject : IsProject deps)
    (hMem : d ∈ deps) :
    d.file.IsSpelled :=
  hProject.normalize_eq d hMem ▸ Path.isSpelled_normalize d.file

end IsProject

------------------------------------------------------------
-- Endings
------------------------------------------------------------

/- A text without a slash ends a path only if it ends the last name. -/
theorem isSuffix_of_isSuffix_append
    {front name ending : List Char}
    (hFront : front = [] ∨ ∃ before, front = before ++ ['/'])
    (hSlash : '/' ∉ ending)
    (hSuffix : ending <:+ front ++ name) :
    ending <:+ name := by
  rcases List.suffix_or_suffix_of_suffix hSuffix
      (List.suffix_append front name) with
    hName | ⟨rest, hEnding⟩
  · exact hName
  rcases hSuffix with ⟨lead, hLead⟩
  rw [← hEnding, ← List.append_assoc, List.append_cancel_right_eq]
    at hLead
  rcases List.eq_nil_or_concat rest with hNone | ⟨start, c, hRest⟩
  · rw [← hEnding, hNone, List.nil_append]
  · rw [List.concat_eq_append] at hRest
    rcases hFront with rfl | ⟨before, rfl⟩
    · simp [hRest] at hLead
    · rw [hRest, ← List.append_assoc,
        List.append_singleton_inj] at hLead
      apply absurd _ hSlash
      rw [← hEnding, hRest, hLead.2]
      simp

/- A dot that ends the name of a generated file is that of the file. -/
theorem isSuffix_of_composedName
    {ending : List Char}
    (hDot : '.' ∉ ending)
    (hSuffix : '.' :: ending <:+ i.composedName.toList) :
    '.' :: ending <:+ (i.file.fileName?.getD "").toList := by
  unfold Inclusion.composedName at hSuffix
  generalize (i.file.fileName?.getD "").toList = name at hSuffix ⊢
  generalize hDigest :
    Digest.hex (Digest.sha256 i.identity) = digest at hSuffix
  have hHex : '.' ∉ digest.toList := by
    rw [← hDigest]
    exact Digest.not_mem_hex (by decide) _
  have hName := Inclusion.splitName_append name
  rcases Inclusion.splitName_cases name with
    ⟨hNone, hSplit⟩ | ⟨stem, extension, hExtension, hSplit⟩
  · have hMem := hSuffix.subset List.mem_cons_self
    simp [hSplit, hNone, hHex] at hMem
  · rcases hSuffix with ⟨front, hFront⟩
    simp only [hSplit, String.toList_append,
      String.toList_ofList] at hFront hName
    have hSame :=
      Inclusion.append_extension_inj hDot hExtension hFront
    rw [hSame, List.append_cancel_left_eq] at hFront
    rw [hFront]
    exact ⟨stem, hName⟩

/- The ending of a header has one dot, and no slash behind it. -/
theorem exists_ending
    {text : String}
    (hHeader : isHeader text = true) :
    ∃ ending, '.' ∉ ending ∧ '/' ∉ ending ∧
      '.' :: ending <:+ text.toList ∧ '\n' ∉ text.toList ∧
      ∀ other : String, '\n' ∉ other.toList →
        '.' :: ending <:+ other.toList → isHeader other = true := by
  simp only [isHeader, Bool.and_eq_true, Bool.not_eq_true',
    List.contains_eq_mem, decide_eq_false_iff_not,
    List.any_eq_true, List.isSuffixOf_iff_suffix] at hHeader ⊢
  rcases hHeader with ⟨hFeed, ending, hEnding, hSuffix⟩
  have hDots : ∃ rest, ending.toList = '.' :: rest ∧
      '.' ∉ rest ∧ '/' ∉ rest := by
    simp only [headerEndings, List.mem_cons, List.not_mem_nil,
      or_false] at hEnding
    rcases hEnding with rfl | rfl | rfl | rfl | rfl
    all_goals exact ⟨_, rfl, by decide, by decide⟩
  rcases hDots with ⟨rest, hRest, hDot, hSlash⟩
  rw [hRest] at hSuffix
  refine
    ⟨rest, hDot, hSlash, hSuffix, hFeed, fun other hOther h =>
      ⟨hOther, ending, hEnding, ?_⟩⟩
  rwa [hRest]

------------------------------------------------------------
-- No Two Targets Alike
------------------------------------------------------------

/- The directory of a generated file is that of the file. -/
theorem directoryComponents_eq_dropLast
    (hNames : Path.AreNames i.file.components) :
    i.directoryComponents = i.file.components.dropLast := by
  rcases List.eq_nil_or_concat i.file.components with
    hEmpty | ⟨before, last, hLast⟩
  · rcases i.directoryComponents_eq with hEq | hEq
    · exact hEq
    · rw [hEq, hEmpty]
      rfl
  · rw [List.concat_eq_append] at hLast
    rcases hNames last (by simp [hLast]) with ⟨text, rfl, -⟩
    rcases Path.exists_parent? hLast with ⟨directory, hParent⟩
    rw [Inclusion.directoryComponents, hParent]
    exact Path.components_parent? hParent

/- The name of a generated file has all that the file's name has. -/
theorem mem_composedName
    {c : Char}
    (hMem : c ∈ (i.file.fileName?.getD "").toList) :
    c ∈ i.composedName.toList := by
  unfold Inclusion.composedName
  generalize (i.file.fileName?.getD "").toList = name at hMem ⊢
  rw [← Inclusion.splitName_append name] at hMem
  rcases List.mem_append.mp hMem with hStem | hExtension
  · simp [hStem]
  · simp [hExtension]

/- Only what looks like a header is generated as one. -/
theorem isHeader_of_composedPath
    {p : Path}
    (hFile : i.file.IsSpelled)
    (hNames : Path.AreNames i.file.components)
    (hSpelled : p.IsSpelled)
    (hHeader : isHeader p.text = true)
    (hEq : i.composedPath.components = p.components) :
    isHeader i.file.text = true := by
  rcases exists_ending hHeader with
    ⟨ending, hDot, hSlash, hSuffix, hFeed, hOther⟩
  rw [Path.mem_text_iff (by decide) (by decide)] at hFeed
  rw [i.components_composedPath,
    directoryComponents_eq_dropLast hNames] at hEq
  have hSlash' : '/' ∉ '.' :: ending := by simp [hSlash]
  -- The ending of the header is that of the generated name.
  rcases Path.exists_text_eq hSpelled hEq.symm
      i.isPlain_composedName with
    ⟨front, hText, hFront⟩
  rw [hText] at hSuffix
  have hComposed :=
    isSuffix_of_composedName hDot
      (isSuffix_of_isSuffix_append hFront hSlash' hSuffix)
  cases hName : i.file.fileName? with
  | none =>
      rw [hName] at hComposed
      simp at hComposed
  | some name =>
      rcases Path.exists_components_eq hName with ⟨cs, hLast⟩
      have hMem : .name name ∈ i.file.components := by
        simp [hLast]
      rcases Path.exists_text_eq hFile hLast
          (Path.isPlain_of_mem_components hMem) with
        ⟨front', hText', -⟩
      rw [hName, Option.getD_some] at hComposed
      rw [hLast, List.dropLast_concat] at hEq
      apply hOther
      · rw [Path.mem_text_iff (by decide) (by decide), hLast]
        rintro ⟨other, hMem, hChar⟩
        apply hFeed
        rw [← hEq]
        rcases List.mem_append.mp hMem with hMem | hMem
        · exact ⟨other, List.mem_append_left _ hMem, hChar⟩
        · rw [Component.name.inj (List.mem_singleton.mp hMem)]
            at hChar
          refine ⟨i.composedName, by simp, mem_composedName ?_⟩
          rw [hName]
          exact hChar
      · rw [hText']
        exact hComposed.trans (List.suffix_append front' _)

/- Different dependencies are generated under different paths. -/
theorem target_inj
    (hProject : IsProject deps)
    (hApart : TellsApart deps)
    (hd : d ∈ deps)
    (he : e ∈ deps)
    (hdHere : d.isExternal = false)
    (heHere : e.isExternal = false)
    (hEq : d.target.components = e.target.components) :
    d = e := by
  have hOnlyHeaders {i : Inclusion} {p : Path}
      (hi : .compiled i ∈ deps)
      (hHere : (Dependency.compiled i).isExternal = false)
      (hp : .header p ∈ deps) :
      i.composedPath.components ≠ p.components := by
    intro hSame
    have hHeader := hProject.isHeader_eq (.header p) hp
    have hCompiled := hProject.isHeader_eq (.compiled i) hi
    rw [Dependency.file, Dependency.inclusion?,
      Option.isNone_none] at hHeader
    rw [Dependency.file, Dependency.inclusion?,
      Option.isNone_some] at hCompiled
    have hNames := hProject.areNames hi hHere
    rw [isHeader_of_composedPath (hProject.isSpelled hi) hNames
      (hProject.isSpelled hp) hHeader hSame] at hCompiled
    cases hCompiled
  cases d with
  | compiled i =>
      cases e with
      | compiled j =>
          have hIdentity :=
            hApart.identity_eq i j hd he
              (Inclusion.sha256_eq_of_components_eq hEq)
          rcases Inclusion.identity_inj (hApart.hasNoZero i hd)
              (hApart.hasNoZero j he) (hApart.namesForced i hd)
              (hApart.namesForced j he) hIdentity with
            ⟨hFile, hForced, hDefines⟩
          apply hProject.distinct _ hd _ he
          simp [Dependency.same, Inclusion.same, hFile, hForced,
            hDefines, Path.same, Path.sameAll_self]
      | header p => exact absurd hEq (hOnlyHeaders hd hdHere he)
  | header p =>
      cases e with
      | compiled j =>
          exact absurd hEq.symm (hOnlyHeaders he heHere hd)
      | header q =>
          have hSame : p.same q = true := beq_iff_eq.mpr hEq
          have hPaths : p = q :=
            ((hProject.isSpelled hd).same_iff
              (hProject.isSpelled he)).mp hSame
          rw [hPaths]

------------------------------------------------------------
-- Paths of Targets
------------------------------------------------------------

/- A path of names goes on behind the directory it is joined to. -/
theorem goesOn_join
    {p : Path}
    (root : Path)
    (hNames : Path.AreNames p.components)
    (hNonempty : p.components ≠ [])
    (hTrimmed : p.IsTrimmed)
    (hZero : '\x00' ∉ p.text.toList) :
    root.GoesOn (root.join p) p.names := by
  have hRelative := hNames.isAbsolute_eq
  refine ⟨?_, ?_, ?_, fun name hName hMem => hZero ?_, ?_⟩
  · rw [hNames.eq_map]
    exact Path.components_join_names root hNames
  · exact Path.isTrimmed_join root hRelative hTrimmed
  · rw [hNames.eq_map]
    exact hNames
  · rw [Path.mem_text_iff (by decide) (by decide), ← hNames.eq_map]
    exact ⟨name, List.mem_map_of_mem hName, hMem⟩
  · simpa [Path.names] using hNonempty

/- A header has a name. -/
theorem components_ne_nil_of_isHeader
    {p : Path}
    (hSpelled : p.IsSpelled)
    (hHeader : isHeader p.text = true) :
    p.components ≠ [] := by
  rcases exists_ending hHeader with
    ⟨ending, -, -, hSuffix, -, -⟩
  intro hNone
  rw [hSpelled, hNone] at hSuffix
  have hEmpty := List.suffix_nil.mp hSuffix
  cases hEmpty

theorem areNames_composedPath
    (hNames : Path.AreNames i.file.components) :
    Path.AreNames i.composedPath.components := by
  rw [i.components_composedPath,
    directoryComponents_eq_dropLast hNames]
  apply hNames.dropLast.append
  intro c hMem
  rw [List.mem_singleton.mp hMem]
  exact ⟨_, rfl, i.isPlain_composedName⟩

theorem areNames_target
    (hNames : Path.AreNames d.file.components) :
    Path.AreNames d.target.components := by
  cases d with
  | compiled i => exact areNames_composedPath hNames
  | header p => exact hNames

theorem isTrimmed_composedPath
    (i : Inclusion) :
    i.composedPath.IsTrimmed := by
  have hPlain := i.isPlain_composedName
  have hName := Path.isTrimmed_of_isPlain hPlain
  rw [Inclusion.composedPath_eq]
  split
  · exact
      Path.isTrimmed_join _ (Path.components_of_isPlain hPlain).1
        hName
  · exact hName

/- The digest of a generated file adds no zero character. -/
theorem zero_not_mem_composedPath
    (hZero : '\x00' ∉ i.file.text.toList) :
    '\x00' ∉ i.composedPath.text.toList := by
  rw [Path.mem_text_iff (by decide) (by decide),
    i.components_composedPath]
  rw [Path.mem_text_iff (by decide) (by decide)] at hZero
  rintro ⟨name, hMem, hChar⟩
  rcases List.mem_append.mp hMem with hDirectory | hName
  · rcases i.directoryComponents_eq with hEq | hEq
    · rw [hEq] at hDirectory
      exact
        hZero ⟨name, List.dropLast_subset _ hDirectory, hChar⟩
    · rw [hEq] at hDirectory
      cases hDirectory
  · rw [Component.name.inj (List.mem_singleton.mp hName)] at hChar
    have hFile :
        '\x00' ∉ (i.file.fileName?.getD "").toList := by
      cases hFileName : i.file.fileName? with
      | none => exact List.not_mem_nil
      | some text =>
          rcases Path.exists_components_eq hFileName with
            ⟨cs, hLast⟩
          exact fun hText => hZero ⟨text, by simp [hLast], hText⟩
    unfold Inclusion.composedName at hChar
    generalize (i.file.fileName?.getD "").toList = chars
      at hFile hChar
    rw [← Inclusion.splitName_append chars, List.mem_append,
      not_or] at hFile
    have hHex :=
      Digest.not_mem_hex (c := '\x00') (by decide)
        (Digest.sha256 i.identity)
    simp [hFile, hHex] at hChar

namespace IsProject

variable {root : Path}

/- The path of a file goes on behind every directory. -/
theorem goesOn_file
    (hProject : IsProject deps)
    (hMem : d ∈ deps)
    (hHere : d.isExternal = false)
    (hNonempty : d.file.components ≠ [])
    (hZero : '\x00' ∉ d.file.text.toList) :
    root.GoesOn (root.join d.file) d.file.names := by
  have hNames := hProject.areNames hMem hHere
  exact
    goesOn_join root hNames hNonempty
      (Path.isTrimmed_of_names (hProject.isSpelled hMem) hNames
        hNonempty) hZero

/- So does that of the generated file. -/
theorem goesOn_target
    (hProject : IsProject deps)
    (hMem : d ∈ deps)
    (hHere : d.isExternal = false)
    (hZero : '\x00' ∉ d.file.text.toList) :
    root.GoesOn (root.join d.target) d.target.names := by
  have hNames := hProject.areNames hMem hHere
  cases d with
  | compiled i =>
      apply goesOn_join root (areNames_composedPath hNames)
      · simp [i.components_composedPath]
      · exact isTrimmed_composedPath i
      · exact zero_not_mem_composedPath hZero
  | header p =>
      have hNonempty : p.components ≠ [] :=
        components_ne_nil_of_isHeader (hProject.isSpelled hMem)
          (hProject.isHeader_eq (.header p) hMem)
      exact
        goesOn_join root hNames hNonempty
          (Path.isTrimmed_of_names (hProject.isSpelled hMem) hNames
            hNonempty) hZero

/- The generated file lies in the directory of the file. -/
theorem dropLast_names_target
    (hProject : IsProject deps)
    (hMem : d ∈ deps)
    (hHere : d.isExternal = false) :
    d.target.names.dropLast = d.file.names.dropLast := by
  cases d with
  | compiled i =>
      have hNames := hProject.areNames hMem hHere
      rw [Path.names, Path.names, Dependency.target,
        i.components_composedPath,
        directoryComponents_eq_dropLast hNames, ← List.map_dropLast,
        List.dropLast_concat, ← List.map_dropLast]
      rfl
  | header p => rfl

end IsProject

end Generation

end Variability
