import Mathlib.Data.List.TakeWhile
import Variability.Inclusion
import Variability.Proofs.Inclusion.Identity
import Variability.Proofs.Path.Parents

/-
  Where generated files lie, and digests read back from there.

  The name of a generated file is a single name, whatever the file
  is called and whatever its digest is. So its path is that of the
  file with another name at the end.

  A digest has one length and no dot, so it is found in front of
  the last dot of a name, or at the end of a name without a dot.
  Generated files of the same path have the same digest.

  Main declarations:
    * `Inclusion.components_composedPath`
    * `Inclusion.isNormal_composedPath`
    * `Digest.hex_inj`
    * `Inclusion.sha256_eq_of_composedName_eq`
    * `Inclusion.sha256_eq_of_components_eq`
-/

namespace Variability

------------------------------------------------------------
-- Single Names
------------------------------------------------------------

/- The name of a component has no slash. -/
theorem Path.isPlain_of_mem_components
    {p : Path}
    {text : String}
    (hMem : Component.name text ∈ p.components) :
    (Component.name text).IsPlain := by
  rw [components, componentsOf_eq] at hMem
  rcases List.mem_append.mp hMem with hLead | hPart
  · unfold leadOf at hLead
    split at hLead
    · cases List.mem_singleton.mp hLead
    split at hLead
    · cases List.mem_singleton.mp hLead
    · cases hLead
  · exact isPlain_of_mem_partsOf hPart

theorem Path.not_mem_of_fileName?_eq
    {p : Path}
    {text : String}
    (hName : p.fileName? = some text) :
    '/' ∉ text.toList := by
  unfold fileName? at hName
  split at hName
  · rename_i name hLast
    cases hName
    exact
      (isPlain_of_mem_components (List.mem_of_getLast? hLast)).2
  · cases hName

/- A text with a hyphen and without a slash is a name. -/
theorem Component.isPlain_of_mem_hyphen
    {text : String}
    (hHyphen : '-' ∈ text.toList)
    (hSlash : '/' ∉ text.toList) :
    (Component.name text).IsPlain := by
  refine ⟨?_, hSlash⟩
  unfold Path.component?
  split
  · rename_i hText
    rw [hText] at hHyphen
    cases hHyphen
  · rename_i hText
    rw [hText] at hHyphen
    simp at hHyphen
  · rename_i hText
    rw [hText] at hHyphen
    simp at hHyphen
  · rw [String.ofList_toList]

/- The characters that digests are written with. -/
def Digest.digits : List Char :=
  ['0', '1', '2', '3', '4', '5', '6', '7', '8', '9', 'a', 'b',
    'c', 'd', 'e', 'f', '*']

theorem Digest.digitChar_mem
    (n : Nat) :
    Nat.digitChar n ∈ digits := by
  fun_cases Nat.digitChar n <;> decide

theorem Digest.not_mem_hex
    {c : Char}
    (hc : c ∉ digits)
    (bytes : List UInt8) :
    c ∉ (hex bytes).toList := by
  rw [hex, String.toList_ofList, List.mem_flatMap]
  rintro ⟨b, -, hMem⟩
  rcases List.mem_pair.mp hMem with rfl | rfl
  · exact hc (digitChar_mem _)
  · exact hc (digitChar_mem _)

namespace Inclusion

variable {i : Inclusion}

/- The files of a compiler call have normal paths. -/
theorem normalize_file
    {call : Invocation}
    {buildDir sourceDir : Path}
    (hMem : i ∈ ofInvocation call buildDir sourceDir) :
    i.file.normalize = i.file := by
  rcases List.mem_map.mp hMem with ⟨file, -, rfl⟩
  simp only [make, Path.normalize_normalize]

/- A name is split into parts of it. -/
theorem not_mem_splitName
    {name : List Char}
    (hSlash : '/' ∉ name) :
    '/' ∉ (splitName name).1 ∧ '/' ∉ (splitName name).2 := by
  unfold splitName
  split
  · exact ⟨hSlash, List.not_mem_nil⟩
  · rename_i dot stem hRest
    have hReversed : '/' ∉ name.reverse := by
      rwa [List.mem_reverse]
    constructor
    · intro hMem
      apply hReversed
      apply (List.dropWhile_suffix (· ≠ '.')).subset
      rw [hRest]
      exact
        List.mem_cons_of_mem dot (List.mem_reverse.mp hMem)
    · intro hMem
      rcases List.mem_cons.mp hMem with hDot | hMem
      · cases hDot
      · exact
          hReversed
            ((List.takeWhile_prefix _).subset
              (List.mem_reverse.mp hMem))

/- The name of the generated file. -/
def composedName (i : Inclusion) : String :=
  let (stem, extension) := splitName (i.file.fileName?.getD "").toList
  String.ofList stem ++ "-" ++
    Digest.hex (Digest.sha256 i.identity) ++
    String.ofList extension

theorem composedPath_eq (i : Inclusion) :
    i.composedPath =
      match i.file.parent? with
      | some directory => directory.join ⟨i.composedName⟩
      | none => ⟨i.composedName⟩ :=
  rfl

theorem isPlain_composedName (i : Inclusion) :
    (Component.name i.composedName).IsPlain := by
  have hName : '/' ∉ (i.file.fileName?.getD "").toList := by
    cases hFile : i.file.fileName? with
    | none => exact List.not_mem_nil
    | some text => exact Path.not_mem_of_fileName?_eq hFile
  rcases not_mem_splitName hName with ⟨hStem, hExtension⟩
  have hDigest :=
    Digest.not_mem_hex (c := '/') (by decide)
      (Digest.sha256 i.identity)
  apply Component.isPlain_of_mem_hyphen
  · simp [composedName]
  · simp [composedName, hStem, hExtension, hDigest]

------------------------------------------------------------
-- Whole Paths
------------------------------------------------------------

/- The directory that the generated file lies in. -/
def directoryComponents (i : Inclusion) : List Component :=
  match i.file.parent? with
  | some directory => directory.components
  | none => []

theorem components_composedPath (i : Inclusion) :
    i.composedPath.components =
      i.directoryComponents ++ [.name i.composedName] := by
  have hPlain := i.isPlain_composedName
  rw [composedPath_eq, directoryComponents]
  -- Only the name's form counts, and its digest is never computed.
  generalize i.composedName = name at hPlain ⊢
  split
  · exact Path.components_join_name _ hPlain
  · exact (Path.components_of_isPlain hPlain).2

/- It is the directory of the file itself, if the file is in one. -/
theorem directoryComponents_eq (i : Inclusion) :
    i.directoryComponents = i.file.components.dropLast ∨
      i.directoryComponents = [] := by
  unfold directoryComponents
  split
  · rename_i directory hParent
    exact Or.inl (Path.components_parent? hParent)
  · exact Or.inr rfl

/- The generated file of a normal path has a normal path. -/
theorem isNormal_composedPath
    (i : Inclusion)
    (hNormal : Path.IsNormal i.file.components) :
    Path.IsNormal i.composedPath.components := by
  constructor
  rw [components_composedPath, List.reverse_append,
    List.reverse_singleton, List.singleton_append]
  refine ⟨i.isPlain_composedName, ?_⟩
  rcases i.directoryComponents_eq with hDirectory | hDirectory
  · rw [hDirectory, ← List.tail_reverse]
    have hStack := hNormal.isStack
    generalize i.file.components.reverse = stack at hStack ⊢
    cases stack with
    | nil => trivial
    | cons c rest => exact hStack.tail
  · rw [hDirectory]
    trivial

end Inclusion

------------------------------------------------------------
-- Digests
------------------------------------------------------------

namespace Digest

theorem length_bigEndian
    (count n : Nat) :
    (bigEndian count n).length = count := by
  induction count generalizing n with
  | zero => rfl
  | succ count ih => simp [bigEndian, ih]

/- Every digest has thirty-two bytes. -/
theorem length_sha256
    (message : List UInt8) :
    (sha256 message).length = 32 := by
  unfold sha256
  generalize (blocks (pad message)).foldl compress {} = s
  simp [length_bigEndian]

theorem digitChar_inj
    {m n : Nat}
    (hm : m < 16)
    (hn : n < 16)
    (hEq : Nat.digitChar m = Nat.digitChar n) :
    m = n := by
  have hEvery :
      ∀ m < 16, ∀ n < 16,
        Nat.digitChar m = Nat.digitChar n → m = n := by
    decide
  exact hEvery m hm n hn hEq

theorem hexByte_inj
    {b b' : UInt8}
    (hEq : hexByte b = hexByte b') :
    b = b' := by
  have hb := b.toNat_lt
  have hb' := b'.toNat_lt
  simp only [hexByte, List.cons.injEq, and_true] at hEq
  have hHigh := digitChar_inj (by omega) (by omega) hEq.1
  have hLow := digitChar_inj (by omega) (by omega) hEq.2
  rw [← UInt8.toNat_inj]
  omega

theorem length_hex
    (bytes : List UInt8) :
    (hex bytes).toList.length = 2 * bytes.length := by
  rw [hex, String.toList_ofList]
  induction bytes with
  | nil => rfl
  | cons b bytes ih =>
      rw [List.flatMap_cons, List.length_append, ih,
        List.length_cons]
      simp only [hexByte, List.length_cons, List.length_nil]
      omega

/- Bytes are known by their digits. -/
theorem hex_inj
    {bytes bytes' : List UInt8}
    (hEq : (hex bytes).toList = (hex bytes').toList) :
    bytes = bytes' := by
  rw [hex, hex, String.toList_ofList, String.toList_ofList]
    at hEq
  induction bytes generalizing bytes' with
  | nil =>
      cases bytes' with
      | nil => rfl
      | cons b' bytes' => simp [hexByte] at hEq
  | cons b bytes ih =>
      cases bytes' with
      | nil => simp [hexByte] at hEq
      | cons b' bytes' =>
          rw [List.flatMap_cons, List.flatMap_cons] at hEq
          rcases List.append_inj hEq rfl with ⟨hByte, hRest⟩
          rw [hexByte_inj hByte, ih hRest]

end Digest

------------------------------------------------------------
-- Names with a Digest
------------------------------------------------------------

namespace Inclusion

variable {i j : Inclusion}

/- A name is split at its last dot, or it has none. -/
theorem splitName_cases
    (name : List Char) :
    '.' ∉ name ∧ splitName name = (name, []) ∨
      ∃ stem extension,
        '.' ∉ extension ∧
          splitName name = (stem, '.' :: extension) := by
  unfold splitName
  have hSplit :=
    List.takeWhile_append_dropWhile (p := (· ≠ '.'))
      (l := name.reverse)
  cases hRest : name.reverse.dropWhile (· ≠ '.') with
  | nil =>
      left
      refine ⟨fun hMem => ?_, rfl⟩
      rw [hRest, List.append_nil] at hSplit
      rw [← List.mem_reverse, ← hSplit] at hMem
      simpa using List.mem_takeWhile_imp hMem
  | cons dot stem =>
      right
      refine ⟨stem.reverse, _, fun hMem => ?_, rfl⟩
      simpa using
        List.mem_takeWhile_imp (List.mem_reverse.mp hMem)

/- The parts of a name are all of it. -/
theorem splitName_append
    (name : List Char) :
    (splitName name).1 ++ (splitName name).2 = name := by
  unfold splitName
  have hSplit :=
    List.takeWhile_append_dropWhile (p := (· ≠ '.'))
      (l := name.reverse)
  cases hRest : name.reverse.dropWhile (· ≠ '.') with
  | nil => exact List.append_nil name
  | cons dot stem =>
      have hDot : dot = '.' := by
        have hFirst :=
          List.head?_dropWhile_not (· ≠ '.') name.reverse
        rw [hRest] at hFirst
        simpa using hFirst
      rw [hRest, hDot] at hSplit
      have hName := congrArg List.reverse hSplit
      rw [List.reverse_reverse, List.reverse_append,
        List.reverse_cons, List.append_assoc,
        List.singleton_append] at hName
      exact hName

theorem toList_composedName
    (i : Inclusion) :
    ∃ stem extension,
      ('.' ∉ stem ∧ extension = [] ∨
          ∃ rest, '.' ∉ rest ∧ extension = '.' :: rest) ∧
        i.composedName.toList =
          (stem ++ '-' ::
              (Digest.hex (Digest.sha256 i.identity)).toList) ++
            extension := by
  unfold composedName
  generalize (i.file.fileName?.getD "").toList = name
  generalize Digest.hex (Digest.sha256 i.identity) = digest
  rcases splitName_cases name with
    ⟨hDot, hSplit⟩ | ⟨stem, rest, hDot, hSplit⟩
  · exact ⟨name, [], Or.inl ⟨hDot, rfl⟩, by simp [hSplit]⟩
  · exact
      ⟨stem, '.' :: rest, Or.inr ⟨rest, hDot, rfl⟩,
        by simp [hSplit]⟩

/- The last dot of a text tells what is behind it. -/
theorem append_extension_inj
    {front front' rest rest' : List Char}
    (hRest : '.' ∉ rest)
    (hRest' : '.' ∉ rest')
    (hEq : front ++ '.' :: rest = front' ++ '.' :: rest') :
    front = front' := by
  have hReverse := congrArg List.reverse hEq
  rw [List.reverse_append, List.reverse_append,
    List.reverse_cons, List.reverse_cons, List.append_assoc,
    List.append_assoc, List.singleton_append,
    List.singleton_append] at hReverse
  have hFront :=
    (append_mark_inj (by simpa using hRest)
      (by simpa using hRest') hReverse).2
  exact List.reverse_inj.mp hFront

/-
  Names with a digest each in front of the extension have the same
  text in front of it.
-/
theorem append_inj_of_extension
    {stem stem' digest digest' extension extension' : List Char}
    (hStem :
      '.' ∉ stem ∧ extension = [] ∨
        ∃ rest, '.' ∉ rest ∧ extension = '.' :: rest)
    (hStem' :
      '.' ∉ stem' ∧ extension' = [] ∨
        ∃ rest, '.' ∉ rest ∧ extension' = '.' :: rest)
    (hDigest : '.' ∉ digest)
    (hDigest' : '.' ∉ digest')
    (hEq :
      (stem ++ '-' :: digest) ++ extension =
        (stem' ++ '-' :: digest') ++ extension') :
    stem ++ '-' :: digest = stem' ++ '-' :: digest' := by
  rcases hStem with ⟨hDot, rfl⟩ | ⟨rest, hRest, rfl⟩
  · rcases hStem' with ⟨-, rfl⟩ | ⟨rest', -, rfl⟩
    · simpa using hEq
    · -- Only the second name has a dot.
      have hMem : '.' ∈ (stem ++ '-' :: digest) ++ [] := by
        rw [hEq]
        simp
      simp [hDot, hDigest] at hMem
  · rcases hStem' with ⟨hDot', rfl⟩ | ⟨rest', hRest', rfl⟩
    · have hMem : '.' ∈ (stem' ++ '-' :: digest') ++ [] := by
        rw [← hEq]
        simp
      simp [hDot', hDigest'] at hMem
    · exact append_extension_inj hRest hRest' hEq

/- Generated files of one name have one digest. -/
theorem sha256_eq_of_composedName_eq
    (hEq : i.composedName = j.composedName) :
    Digest.sha256 i.identity = Digest.sha256 j.identity := by
  rcases toList_composedName i with ⟨stem, extension, hStem, hi⟩
  rcases toList_composedName j with
    ⟨stem', extension', hStem', hj⟩
  rw [hEq, hj] at hi
  have hLength := Digest.length_sha256 i.identity
  have hLength' := Digest.length_sha256 j.identity
  -- Only the length of a digest counts, and that it has no dot.
  generalize Digest.sha256 i.identity = digest at hi hLength ⊢
  generalize Digest.sha256 j.identity = digest' at hi hLength' ⊢
  have hFront :=
    append_inj_of_extension hStem' hStem
      (Digest.not_mem_hex (by decide) _)
      (Digest.not_mem_hex (by decide) _) hi
  have hLengths :
      ('-' :: (Digest.hex digest').toList).length =
        ('-' :: (Digest.hex digest).toList).length := by
    rw [List.length_cons, List.length_cons, Digest.length_hex,
      Digest.length_hex, hLength, hLength']
  have hDigests := (List.append_inj' hFront hLengths).2
  exact (Digest.hex_inj (List.cons.inj hDigests).2).symm

/- Generated files of one path have one digest. -/
theorem sha256_eq_of_components_eq
    (hEq :
      i.composedPath.components = j.composedPath.components) :
    Digest.sha256 i.identity = Digest.sha256 j.identity := by
  rw [components_composedPath, components_composedPath,
    List.append_singleton_inj] at hEq
  exact
    sha256_eq_of_composedName_eq (Component.name.inj hEq.2)

end Inclusion

end Variability
