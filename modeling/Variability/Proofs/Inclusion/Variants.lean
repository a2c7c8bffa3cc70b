import Variability.MakeRule
import Variability.Proofs.Inclusion.ComposedPath
import Variability.Proofs.Path.Locations

/-
  Generated names tell variants apart.

  The paths of compiler calls and of make rules are written as
  their components are, so variants that are the same have the
  same bytes, and the same name. Different variants have different
  bytes, unless a forced include is the empty path, which only a
  relative directory can make it.

  Main declarations:
    * `Path.IsSpelled`
    * `Inclusion.IsObtained`
    * `Inclusion.same_composedPath_iff`
-/

namespace Variability

------------------------------------------------------------
-- Spellings
------------------------------------------------------------

namespace Path

variable {p q : Path}
variable {ps qs : List Path}

/- A path that is written as its components are. -/
def IsSpelled (p : Path) : Prop :=
  p = ofComponents p.components

/- Such paths are known by their components. -/
theorem IsSpelled.same_iff
    (hp : p.IsSpelled)
    (hq : q.IsSpelled) :
    p.same q = true ↔ p = q := by
  rw [same, beq_iff_eq]
  refine ⟨fun hEq => ?_, fun hEq => congrArg components hEq⟩
  rw [hp, hq, hEq]

theorem sameAll_iff
    (hps : ∀ p ∈ ps, p.IsSpelled)
    (hqs : ∀ q ∈ qs, q.IsSpelled) :
    sameAll ps qs = true ↔ ps = qs := by
  induction ps generalizing qs with
  | nil => cases qs <;> simp [sameAll]
  | cons p ps ih =>
      cases qs with
      | nil => simp [sameAll]
      | cons q qs =>
          have hHere :=
            (hps p List.mem_cons_self).same_iff
              (hqs q List.mem_cons_self)
          have hRest :=
            ih (fun r hr => hps r (List.mem_cons_of_mem p hr))
              (fun r hr => hqs r (List.mem_cons_of_mem q hr))
          rw [sameAll, Bool.and_eq_true, hHere, hRest,
            List.cons_eq_cons]

theorem isSpelled_ofComponents
    {cs : List Component}
    (hNormal : IsNormal cs) :
    (ofComponents cs).IsSpelled := by
  rw [IsSpelled, components_ofComponents hNormal]

theorem isSpelled_normalize
    (p : Path) :
    p.normalize.IsSpelled :=
  isSpelled_ofComponents (isNormal_normalizeComponents p)

/- The last components of a normal path are normal. -/
theorem IsStack.of_append
    {last first : List Component}
    (hStack : IsStack (last ++ first)) :
    IsStack last := by
  induction last with
  | nil => trivial
  | cons c last ih =>
      cases c with
      | root => exact (List.append_eq_nil_iff.mp hStack).1
      | here => exact hStack.elim
      | up => exact fun d hd => hStack d (List.mem_append_left _ hd)
      | name text => exact ⟨hStack.1, ih hStack.2⟩

theorem IsNormal.of_append
    {first last : List Component}
    (hNormal : IsNormal (first ++ last)) :
    IsNormal last := by
  constructor
  have hStack := hNormal.isStack
  rw [List.reverse_append] at hStack
  exact hStack.of_append

/- A rebased path is written as its components are. -/
theorem isSpelled_rebase
    (p base root : Path) :
    (rebase p base root).IsSpelled := by
  rw [rebase_eq]
  have hNormal := isNormal_components_normalize (base.join p)
  have hSpelled := isSpelled_normalize (base.join p)
  generalize (base.join p).normalize = whole
    at hNormal hSpelled ⊢
  rw [strip?]
  cases hStrip :
      stripComponents root.normalize.components
        whole.components with
  | none => exact hSpelled
  | some rest =>
      rw [(stripComponents_eq_some_iff _ _ _).mp hStrip]
        at hNormal
      rw [Option.map_some]
      dsimp only
      split
      · rw [IsSpelled]
        decide
      · exact isSpelled_ofComponents hNormal.of_append

/- Seen from an absolute base no rebased path is empty. -/
theorem rebase_ne_empty
    {base : Path}
    (hBase : base.isAbsolute = true)
    (p root : Path) :
    (rebase p base root).text ≠ "" := by
  rw [rebase_eq]
  have hAbsolute : (base.join p).normalize.isAbsolute = true := by
    rw [isAbsolute_normalize]
    exact isAbsolute_join hBase
  intro hText
  split at hText
  · rw [isAbsolute, hText] at hAbsolute
    cases hAbsolute
  · split at hText
    · exact absurd hText (by decide)
    · rename_i hNonempty
      exact hNonempty hText

theorem mem_insertOrdered
    (hMem : q ∈ insertOrdered p ps) :
    q = p ∨ q ∈ ps := by
  induction ps with
  | nil => exact Or.inl (List.mem_singleton.mp hMem)
  | cons r ps ih =>
      unfold insertOrdered at hMem
      split at hMem
      · exact List.mem_cons.mp hMem
      · exact Or.inr hMem
      · rcases List.mem_cons.mp hMem with rfl | hMem
        · exact Or.inr List.mem_cons_self
        · rcases ih hMem with hEq | hRest
          · exact Or.inl hEq
          · exact Or.inr (List.mem_cons_of_mem r hRest)

/- An ordered set has no other members than the list it is made of. -/
theorem mem_of_mem_orderedSet
    (hMem : q ∈ orderedSet ps) :
    q ∈ ps := by
  rw [orderedSet] at hMem
  suffices hFold : ∀ set,
      q ∈ ps.reverse.foldl
          (fun set p => insertOrdered p set) set →
        q ∈ ps.reverse ∨ q ∈ set by
    rcases hFold [] hMem with hReverse | hNone
    · exact List.mem_reverse.mp hReverse
    · cases hNone
  clear hMem
  induction ps.reverse with
  | nil => exact fun set hSet => Or.inr hSet
  | cons p rest ih =>
      intro set hSet
      rcases ih _ hSet with hRest | hInserted
      · exact Or.inl (List.mem_cons_of_mem p hRest)
      · rcases mem_insertOrdered hInserted with rfl | hOld
        · exact Or.inl List.mem_cons_self
        · exact Or.inr hOld

end Path

------------------------------------------------------------
-- Obtained Variants
------------------------------------------------------------

namespace Inclusion

variable {a b i j : Inclusion}

/-
  The inclusions of compiler calls, and those of the files that
  make rules list for them.
-/
inductive IsObtained : Inclusion → Prop where
  | called
      {i : Inclusion}
      {call : Invocation}
      {buildDir sourceDir : Path}
      (hMem : i ∈ ofInvocation call buildDir sourceDir) :
      IsObtained i
  | required
      {i j : Inclusion}
      {rule : String}
      (hObtained : IsObtained i)
      (hMem : .compiled j ∈ MakeRule.dependencies i rule) :
      IsObtained j

/- An inclusion whose paths are written as their components are. -/
structure IsSpelled (i : Inclusion) : Prop where
  file : i.file.IsSpelled
  forced : ∀ p ∈ i.forced, p.IsSpelled

theorem IsSpelled.same_iff
    (hi : i.IsSpelled)
    (hj : j.IsSpelled) :
    i.same j = true ↔
      i.file = j.file ∧ i.forced = j.forced ∧
        i.defines = j.defines := by
  rw [same, Bool.and_eq_true, Bool.and_eq_true,
    hi.file.same_iff hj.file,
    Path.sameAll_iff hi.forced hj.forced, beq_iff_eq, and_assoc]

/- A file that a rule lists has the flags of the file asked about. -/
theorem exists_of_mem_dependencies
    {rule : String}
    (hMem : .compiled j ∈ MakeRule.dependencies i rule) :
    ∃ q : String,
      j.file = (⟨q⟩ : Path).normalize ∧
        j.forced = i.forced.filter (fun p => !p.same ⟨q⟩) ∧
        j.defines = i.defines := by
  rcases List.mem_map.mp hMem with ⟨q, -, hDependency⟩
  unfold MakeRule.dependency at hDependency
  split at hDependency
  · cases hDependency
  · cases hDependency
    exact ⟨q, rfl, rfl, rfl⟩

theorem IsObtained.isSpelled
    (hObtained : i.IsObtained) :
    i.IsSpelled := by
  induction hObtained with
  | called hMem =>
      rcases List.mem_map.mp hMem with ⟨file, -, rfl⟩
      constructor
      · dsimp only [make]
        exact Path.isSpelled_normalize _
      · intro p hp
        rcases List.mem_map.mp (Path.mem_of_mem_orderedSet hp)
          with ⟨text, -, rfl⟩
        exact Path.isSpelled_rebase _ _ _
  | required _ hMem ih =>
      rcases exists_of_mem_dependencies hMem with
        ⟨q, hFile, hForced, -⟩
      refine ⟨?_, fun p hp => ?_⟩
      · rw [hFile]
        exact Path.isSpelled_normalize _
      · rw [hForced] at hp
        exact ih.forced p (List.mem_filter.mp hp).1

/-
  A call from an absolute directory forces no empty path, and
  the files that rules list for it do not either.
-/
theorem namesForced_of_mem
    {call : Invocation}
    {buildDir sourceDir : Path}
    (hAbsolute :
      (call.workingDirectory.getD buildDir).isAbsolute = true)
    (hMem : i ∈ ofInvocation call buildDir sourceDir) :
    i.NamesForced := by
  rcases List.mem_map.mp hMem with ⟨file, -, rfl⟩
  intro p hp
  rcases List.mem_map.mp (Path.mem_of_mem_orderedSet hp) with
    ⟨text, -, rfl⟩
  exact Path.rebase_ne_empty hAbsolute _ _

theorem NamesForced.required
    {rule : String}
    (hi : i.NamesForced)
    (hMem : .compiled j ∈ MakeRule.dependencies i rule) :
    j.NamesForced := by
  rcases exists_of_mem_dependencies hMem with
    ⟨q, -, hForced, -⟩
  intro p hp
  rw [hForced] at hp
  exact hi p (List.mem_filter.mp hp).1

------------------------------------------------------------
-- Names of Variants
------------------------------------------------------------

theorem composedPath_congr
    (hFile : i.file = j.file)
    (hIdentity : i.identity = j.identity) :
    i.composedPath = j.composedPath := by
  rw [composedPath, composedPath, hFile, hIdentity]

/-
  Where SHA-256 does not take the two for one, generated files
  have the same path exactly if they are the same variant, and
  then their paths are written alike.
-/
theorem same_composedPath_iff
    (ha : a.IsObtained)
    (hb : b.IsObtained)
    (haZero : a.HasNoZero)
    (hbZero : b.HasNoZero)
    (haForced : a.NamesForced)
    (hbForced : b.NamesForced)
    (hDigest :
      Digest.sha256 a.identity = Digest.sha256 b.identity →
        a.identity = b.identity) :
    (a.composedPath.same b.composedPath = true ↔
        a.same b = true) ∧
      (a.composedPath = b.composedPath ↔ a.same b = true) := by
  have hSame := ha.isSpelled.same_iff hb.isSpelled
  have hApart :
      a.composedPath.components = b.composedPath.components →
        a.same b = true := by
    intro hComponents
    rw [hSame]
    exact
      identity_inj haZero hbZero haForced hbForced
        (hDigest (sha256_eq_of_components_eq hComponents))
  have hTogether :
      a.same b = true → a.composedPath = b.composedPath := by
    intro hVariant
    rcases hSame.mp hVariant with ⟨hFile, hForced, hDefines⟩
    apply composedPath_congr hFile
    rw [identity, identity, hFile, hForced, hDefines]
  refine ⟨⟨fun hPaths => ?_, fun hVariant => ?_⟩,
    fun hPaths => hApart (congrArg Path.components hPaths),
    hTogether⟩
  · rw [Path.same, beq_iff_eq] at hPaths
    exact hApart hPaths
  · rw [hTogether hVariant, Path.same, beq_iff_eq]

------------------------------------------------------------
-- Variants of One File
------------------------------------------------------------

/- A build that compiles a file with a definition and without. -/
def plainCall : Invocation :=
  { compiledFiles := ["a.c"] }

def definingCall : Invocation :=
  { compiledFiles := ["a.c"], defines := [("X", "1")] }

def plain : Inclusion :=
  { file := ⟨"a.c"⟩ }

def defining : Inclusion :=
  { file := ⟨"a.c"⟩, defines := [("X", "1")] }

theorem sha256_plain_ne :
    Digest.sha256 plain.identity ≠
      Digest.sha256 defining.identity := by
  decide +kernel

/- Both are generated, under different names. -/
theorem not_same_composedPath_defining :
    plain ∈ ofInvocation plainCall ⟨"/src"⟩ ⟨"/src"⟩ ∧
      defining ∈ ofInvocation definingCall ⟨"/src"⟩ ⟨"/src"⟩ ∧
      plain.composedPath.same defining.composedPath = false := by
  have hPlain :
      plain ∈ ofInvocation plainCall ⟨"/src"⟩ ⟨"/src"⟩ := by
    decide +kernel
  have hDefining :
      defining ∈
        ofInvocation definingCall ⟨"/src"⟩ ⟨"/src"⟩ := by
    decide +kernel
  have hPlainZero : plain.HasNoZero := ⟨by decide, nofun, nofun⟩
  have hDefiningZero : defining.HasNoZero :=
    ⟨by decide, nofun, by decide⟩
  have hNames :=
    same_composedPath_iff (.called hPlain) (.called hDefining)
      hPlainZero hDefiningZero nofun nofun
      fun hEq => absurd hEq sha256_plain_ne
  have hOther : plain.same defining = false := by
    decide +kernel
  refine ⟨hPlain, hDefining, ?_⟩
  rw [Bool.eq_false_iff, ne_eq, hNames.1, hOther]
  exact Bool.false_ne_true

------------------------------------------------------------
-- An Empty Path
------------------------------------------------------------

/- A build in a relative directory. -/
def climbingTrace : String :=
  "gcc -include ../.. -include ../../x a.c\ngcc -Dx= a.c\n"

def climbingCall : Invocation :=
  { compiledFiles := ["a.c"], includes := ["../..", "../../x"] }

def emptyDefiningCall : Invocation :=
  { compiledFiles := ["a.c"], defines := [("x", "")] }

/- It forces the directory that it was started in, and a file. -/
def climbing : Inclusion :=
  { file := ⟨"a.c"⟩, forced := [⟨""⟩, ⟨"x"⟩] }

def emptyDefining : Inclusion :=
  { file := ⟨"a.c"⟩, defines := [("x", "")] }

/- The two are hashed alike. -/
theorem identity_emptyDefining :
    emptyDefining.identity = climbing.identity := by
  decide +kernel

theorem composedPath_emptyDefining :
    emptyDefining.composedPath = climbing.composedPath :=
  composedPath_congr rfl identity_emptyDefining

/-
  Its first call forces the empty path, whose end is taken for
  the end of all forced includes. What is behind it reads like
  the definition of the second call, so the two variants have one
  name, whatever the digest is.
-/
theorem composedPath_climbing :
    Trace.invocations climbingTrace =
        .ok ([climbingCall, emptyDefiningCall], []) ∧
      ofInvocation climbingCall ⟨"work/source"⟩
          ⟨"work/source"⟩ = [climbing] ∧
      ofInvocation emptyDefiningCall ⟨"work/source"⟩
          ⟨"work/source"⟩ = [emptyDefining] ∧
      climbing.HasNoZero ∧ emptyDefining.HasNoZero ∧
      climbing.identity = emptyDefining.identity ∧
      climbing.composedPath = emptyDefining.composedPath ∧
      climbing.same emptyDefining = false := by
  exact
    ⟨by decide +kernel, by decide +kernel, by decide +kernel,
      ⟨by decide, by decide, nofun⟩,
      ⟨by decide, nofun, by decide⟩,
      identity_emptyDefining.symm,
      composedPath_emptyDefining.symm, by decide +kernel⟩

end Inclusion

end Variability
