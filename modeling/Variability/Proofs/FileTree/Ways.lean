import Variability.FileTree
import Variability.Proofs.Path.Trimmed

/-
  Ways through a tree of files.

  A way that goes on leads through a directory: what stands before
  it decides where it goes on, or that it fails. So a `.` on the
  way does not count, and a path goes on from the directory that
  its first components lead to. Names that are there are found in
  every tree that has them.

  Main declarations:
    * `FileTree.Grows`
    * `FileTree.walk_append_cases`
    * `FileTree.withoutDots_stepsOf`
    * `FileTree.resolve_below`
-/

namespace Variability

/- The step that a component stands for. -/
def Component.step? : Component → Option String
  | .root => none
  | .here => none
  | .up => some ".."
  | .name text => some text

namespace FileTree

variable {t t' t'' : FileTree}
variable {names directory : Names}
variable {entry : Entry}
variable {content : List UInt8}
variable {p root : Path}

------------------------------------------------------------
-- Growing Trees
------------------------------------------------------------

/- A tree that has all entries of another one. -/
structure Grows (t t' : FileTree) : Prop where
  current_eq : t'.current = t.current
  entry? :
    ∀ names entry, t.entry? names = some entry →
      t'.entry? names = some entry

theorem Grows.refl
    (t : FileTree) :
    Grows t t :=
  ⟨rfl, fun _ _ hEntry => hEntry⟩

theorem Grows.trans
    (hFirst : Grows t t')
    (hSecond : Grows t' t'') :
    Grows t t'' where
  current_eq := hSecond.current_eq.trans hFirst.current_eq
  entry? := fun names entry hEntry =>
    hSecond.entry? names entry (hFirst.entry? names entry hEntry)

/- What is found on a way is found there in a tree that has more. -/
theorem Grows.walk_found
    (hGrows : Grows t t')
    {follow : Bool}
    {links : Nat}
    {here : Names}
    {steps : List String}
    (hWalk :
      t.walk follow links here steps =
        .ok (.found names entry)) :
    t'.walk follow links here steps =
      .ok (.found names entry) := by
  fun_induction t.walk follow links here steps
  case case1 =>
    rw [walk]
    exact hWalk
  case case4 | case5 | case8 | case10 => cases hWalk
  case case2 ih | case3 ih =>
    rw [walk]
    exact ih hWalk
  case case6 links here name rest hHere hUp hEntry ih =>
    rw [walk.eq_4 _ _ _ _ _ _ hHere hUp,
      hGrows.entry? _ _ hEntry]
    exact ih hWalk
  case case7 here name rest hHere hUp content hEntry hLast =>
    rw [walk.eq_4 _ _ _ _ _ _ hHere hUp,
      hGrows.entry? _ _ hEntry]
    simp only [if_pos hLast]
    exact hWalk
  case case9 here name rest hHere hUp target hEntry hLast =>
    rw [walk.eq_4 _ _ _ _ _ _ hHere hUp,
      hGrows.entry? _ _ hEntry]
    simp only [if_pos hLast]
    exact hWalk
  case case11 here name rest hHere hUp target hEntry hLast links ih =>
    rw [walk.eq_4 _ _ _ _ _ _ hHere hUp,
      hGrows.entry? _ _ hEntry]
    simp only [if_neg hLast]
    exact ih hWalk

theorem Grows.resolve_found
    (hGrows : Grows t t')
    {follow : Bool}
    (hResolve :
      t.resolve follow p = .ok (.found names entry)) :
    t'.resolve follow p = .ok (.found names entry) := by
  unfold resolve at hResolve ⊢
  split at hResolve
  · cases hResolve
  split at hResolve
  · cases hResolve
  rename_i hText hZero
  rw [if_neg hText, if_neg hZero, hGrows.current_eq]
  exact hGrows.walk_found hResolve

theorem Grows.status_eq
    (hGrows : Grows t t')
    (hStatus : t.status p = .ok entry) :
    t'.status p = .ok entry := by
  unfold status at hStatus ⊢
  split at hStatus
  · rename_i hResolve
    rw [hGrows.resolve_found hResolve]
    exact hStatus
  · cases hStatus
  · cases hStatus

theorem read_eq_ok_iff :
    t.read p = .ok content ↔ t.status p = .ok (.file content) := by
  unfold read
  split <;> simp_all

theorem exists?_of_read_eq
    (hRead : t.read p = .ok content) :
    t.exists? p = true := by
  rw [exists?, read_eq_ok_iff.mp hRead]
  rfl

------------------------------------------------------------
-- Ways That Go On
------------------------------------------------------------

/-
  The first steps of a way lead to a directory, from which the way
  goes on, or they fail however it goes on.
-/
theorem walk_append_cases
    (t : FileTree)
    (links : Nat)
    (here : Names)
    (first : List String) :
    (∃ links' directory,
        t.walk true links here first =
          .ok (.found directory .directory) ∧
        ∀ follow rest, rest ≠ [] →
          t.walk follow links here (first ++ rest) =
            t.walk follow links' directory rest) ∨
      ∃ e,
        (∀ directory,
          t.walk true links here first ≠
            .ok (.found directory .directory)) ∧
        ∀ follow rest, rest ≠ [] →
          t.walk follow links here (first ++ rest) =
            .error e := by
  fun_induction t.walk true links here first
  case case1 links here =>
    exact Or.inl ⟨links, here, rfl, fun _ _ _ => rfl⟩
  case case2 links here steps ih =>
    simp only [List.cons_append, walk] at ih ⊢
    exact ih
  case case3 links here steps ih =>
    simp only [List.cons_append, walk] at ih ⊢
    exact ih
  case case4 links here name steps hHere hUp hEntry hLast =>
    refine Or.inr ⟨.notFound, nofun, fun follow rest hRest => ?_⟩
    rw [List.cons_append, walk.eq_4 _ _ _ _ _ _ hHere hUp, hEntry]
    simp [hRest]
  case case5 links here name steps hHere hUp hEntry hLast =>
    refine Or.inr ⟨.notFound, nofun, fun follow rest hRest => ?_⟩
    rw [List.cons_append, walk.eq_4 _ _ _ _ _ _ hHere hUp, hEntry]
    simp [hRest]
  case case6 links here name steps hHere hUp hEntry ih =>
    have hOn (follow : Bool) (rest : List String) :
        t.walk follow links here (name :: steps ++ rest) =
          t.walk follow links (here ++ [name])
            (steps ++ rest) := by
      rw [List.cons_append, walk.eq_4 _ _ _ _ _ _ hHere hUp,
        hEntry]
    simp only [hOn]
    exact ih
  case case7 links here name steps hHere hUp content hEntry hLast =>
    refine Or.inr ⟨.notADirectory, nofun, fun follow rest hRest => ?_⟩
    rw [List.cons_append, walk.eq_4 _ _ _ _ _ _ hHere hUp, hEntry]
    simp [hRest]
  case case8 links here name steps hHere hUp content hEntry hLast =>
    refine Or.inr ⟨.notADirectory, nofun, fun follow rest hRest => ?_⟩
    rw [List.cons_append, walk.eq_4 _ _ _ _ _ _ hHere hUp, hEntry]
    simp [hRest]
  case case9 hLast => simp at hLast
  case case10 here name steps hHere hUp target hEntry hLast =>
    refine Or.inr ⟨.filesystemLoop, nofun, fun follow rest hRest => ?_⟩
    rw [List.cons_append, walk.eq_4 _ _ _ _ _ _ hHere hUp, hEntry]
    simp [hRest]
  case case11 here name steps hHere hUp target hEntry hLast links ih =>
    -- The way is longer than its last name, so a link is followed.
    have hOn (follow : Bool) (rest : List String)
        (hRest : rest ≠ []) :
        t.walk follow (links + 1) here (name :: steps ++ rest) =
          t.walk follow links
            (if target.startsWith "/" then [] else here)
            (stepsOf target ++ steps ++ rest) := by
      rw [List.cons_append, walk.eq_4 _ _ _ _ _ _ hHere hUp,
        hEntry]
      simp [hRest, List.append_assoc]
    rcases ih with
      ⟨links', directory, hWalk, hGoesOn⟩ | ⟨e, hWalk, hFails⟩
    · refine
        Or.inl ⟨links', directory, hWalk,
          fun follow rest hRest => ?_⟩
      rw [hOn follow rest hRest]
      exact hGoesOn follow rest hRest
    · refine Or.inr ⟨e, hWalk, fun follow rest hRest => ?_⟩
      rw [hOn follow rest hRest]
      exact hFails follow rest hRest

/- A way goes on from the directory that its first steps lead to. -/
theorem walk_append
    {links : Nat}
    {here : Names}
    {first : List String}
    (hFirst :
      t.walk true links here first =
        .ok (.found directory .directory)) :
    ∃ links', ∀ follow rest, rest ≠ [] →
      t.walk follow links here (first ++ rest) =
        t.walk follow links' directory rest := by
  rcases walk_append_cases t links here first with
    ⟨links', other, hWalk, hGoesOn⟩ | ⟨e, hWalk, -⟩
  · rw [hFirst] at hWalk
    cases hWalk
    exact ⟨links', hGoesOn⟩
  · exact absurd hFirst (hWalk directory)

section Dots

variable {follow : Bool}
variable {links : Nat}
variable {here : Names}
variable {first rest : List String}

/- A step to the same place does not count on the way. -/
theorem walk_dot
    (hRest : rest ≠ []) :
    t.walk follow links here (first ++ "." :: rest) =
      t.walk follow links here (first ++ rest) := by
  rcases walk_append_cases t links here first with
    ⟨links', directory, -, hGoesOn⟩ | ⟨e, -, hFails⟩
  · rw [hGoesOn follow _ (List.cons_ne_nil _ _),
      hGoesOn follow rest hRest, walk]
  · rw [hFails follow _ (List.cons_ne_nil _ _),
      hFails follow rest hRest]

/- At the end it asks for a directory. -/
theorem walk_dot_end :
    t.walk true links here (first ++ ["."]) =
        .ok (.found directory .directory) ↔
      t.walk true links here first =
        .ok (.found directory .directory) := by
  rcases walk_append_cases t links here first with
    ⟨links', other, hFirst, hGoesOn⟩ | ⟨e, hFirst, hFails⟩
  · rw [hGoesOn true _ (List.cons_ne_nil _ _), walk, walk, hFirst]
  · rw [hFails true _ (List.cons_ne_nil _ _)]
    constructor
    · intro hEnd
      cases hEnd
    · intro hFound
      exact absurd hFound (hFirst directory)

/- The steps of a way that lead on. -/
def withoutDots (steps : List String) : List String :=
  steps.filter (· ≠ ".")

theorem walk_withoutDots
    (first : List String)
    (hLast : rest.getLast? ≠ some ".") :
    t.walk follow links here (first ++ rest) =
      t.walk follow links here (first ++ withoutDots rest) := by
  induction rest generalizing first with
  | nil => rfl
  | cons step rest ih =>
      have hRest : rest.getLast? ≠ some "." := by
        intro hEnd
        apply hLast
        rw [List.getLast?_cons, hEnd]
        rfl
      by_cases hStep : step = "."
      · have hNonempty : rest ≠ [] := by
          rintro rfl
          exact hLast (by rw [hStep]; rfl)
        have hSkip : withoutDots (step :: rest) = withoutDots rest := by
          simp [withoutDots, hStep]
        rw [hSkip, ← ih first hRest, hStep, walk_dot hNonempty]
      · have hKeep :
            withoutDots (step :: rest) = step :: withoutDots rest := by
          simp [withoutDots, hStep]
        have hHere := ih (first ++ [step]) hRest
        rw [List.append_assoc, List.append_assoc] at hHere
        rw [hKeep]
        exact hHere

theorem walk_withoutDots_directory_iff
    (first rest : List String) :
    t.walk true links here (first ++ rest) =
        .ok (.found directory .directory) ↔
      t.walk true links here (first ++ withoutDots rest) =
        .ok (.found directory .directory) := by
  induction rest using List.reverseRecOn with
  | nil => exact Iff.rfl
  | append_singleton before step ih =>
      by_cases hStep : step = "."
      · have hSkip :
            withoutDots (before ++ [step]) = withoutDots before := by
          simp [withoutDots, hStep]
        rw [hSkip, hStep, ← List.append_assoc, ← ih]
        exact walk_dot_end
      · rw [← walk_withoutDots first (by simpa using hStep)]

/- A way that asks for a directory does not end at a file. -/
theorem walk_dot_ne_file
    (t : FileTree)
    (content : List UInt8) :
    t.walk true links here (first ++ ["."]) ≠
      .ok (.found names (.file content)) := by
  intro hWalk
  rcases walk_append_cases t links here first with
    ⟨links', other, -, hGoesOn⟩ | ⟨e, -, hFails⟩
  · rw [hGoesOn true _ (List.cons_ne_nil _ _), walk, walk] at hWalk
    cases hWalk
  · rw [hFails true _ (List.cons_ne_nil _ _)] at hWalk
    cases hWalk

end Dots

------------------------------------------------------------
-- Steps of Paths
------------------------------------------------------------

theorem withoutDots_map_ofList
    (parts : List (List Char)) :
    withoutDots
        ((parts.filter (!·.isEmpty)).map String.ofList) =
      (parts.filterMap Path.component?).filterMap
        Component.step? := by
  induction parts with
  | nil => rfl
  | cons part parts ih =>
      unfold withoutDots at ih ⊢
      rcases Path.component?_cases part with
        rfl | rfl | rfl | ⟨hEmpty, hHere, hName⟩
      · exact ih
      · exact ih
      · exact congrArg (".." :: ·) ih
      · have hDot : String.ofList part ≠ "." := by
          intro hDot
          exact hHere (by simpa using congrArg String.toList hDot)
        simp [hName, Component.step?, hEmpty, hDot, ← ih]

/- The steps of a text lead on as its components do. -/
theorem withoutDots_stepsOf
    (p : Path) :
    withoutDots (stepsOf p.text) =
      p.components.filterMap Component.step? := by
  have hLead :
      (Path.leadOf p.text.toList).filterMap Component.step? =
        [] := by
    unfold Path.leadOf
    split_ifs <;> rfl
  rw [Path.components, Path.componentsOf_eq,
    List.filterMap_append, hLead, List.nil_append, Path.partsOf,
    ← withoutDots_map_ofList]
  unfold stepsOf
  dsimp only
  split
  · simp [withoutDots]
  · rfl

/- A path that ends in a component does not ask for a directory. -/
theorem getLast?_stepsOf_ne
    (hTrimmed : p.IsTrimmed) :
    (stepsOf p.text).getLast? ≠ some "." := by
  rcases hTrimmed with ⟨part, hLast, hSome⟩
  rcases List.getLast?_eq_some_iff.mp hLast with ⟨before, hParts⟩
  have hPart : part ≠ [] := by
    rintro rfl
    cases hSome
  have hName : String.ofList part ≠ "." := by
    intro hDot
    have hText : part = ['.'] := by
      simpa using congrArg String.toList hDot
    rw [hText] at hSome
    cases hSome
  simp [stepsOf, hPart, hParts, hName]

/- The directory that relative or absolute paths start from. -/
def start (t : FileTree) (p : Path) : Names :=
  if p.isAbsolute then [] else t.current

/- What is followed if a path can be. -/
theorem resolve_eq_ok
    {follow : Bool}
    {place : Place}
    (hResolve : t.resolve follow p = .ok place) :
    '\x00' ∉ p.text.toList ∧
      t.walk follow maxLinks (t.start p) (stepsOf p.text) =
        .ok place := by
  unfold resolve at hResolve
  split at hResolve
  · cases hResolve
  split at hResolve
  · cases hResolve
  · rename_i hZero
    exact ⟨by simpa using hZero, hResolve⟩

/- A path with a slash at its end does not lead to a file. -/
theorem status_ne_file
    (hSlash : p.text.toList.getLast? = some '/')
    (t : FileTree)
    (content : List UInt8) :
    t.status p ≠ .ok (.file content) := by
  rcases List.getLast?_eq_some_iff.mp hSlash with ⟨before, hText⟩
  have hSteps : ∃ first, stepsOf p.text = first ++ ["."] := by
    have hLast :
        (Path.splitSlash p.text.toList).getLast? = some [] := by
      rw [hText, Path.splitSlash_append, List.getLast?_append]
      rfl
    unfold stepsOf
    dsimp only
    rw [if_pos hLast]
    exact ⟨_, rfl⟩
  rcases hSteps with ⟨first, hFirst⟩
  intro hStatus
  unfold status at hStatus
  split at hStatus
  · rename_i names entry hResolve
    cases hStatus
    have hWalk := (resolve_eq_ok hResolve).2
    rw [hFirst] at hWalk
    exact walk_dot_ne_file t content hWalk
  · cases hStatus
  · cases hStatus

theorem start_congr
    (t : FileTree)
    (hHead : p.components.head? = some .root ↔
      root.components.head? = some .root) :
    t.start p = t.start root := by
  have hAbsolute : p.isAbsolute = root.isAbsolute := by
    rw [Bool.eq_iff_iff, Path.isAbsolute_iff, Path.isAbsolute_iff,
      hHead]
  rw [start, start, hAbsolute]

/- Where a path leads that can be followed. -/
theorem resolve_eq_walk
    {follow : Bool}
    (hText : p.text ≠ "")
    (hZero : '\x00' ∉ p.text.toList) :
    t.resolve follow p =
      t.walk follow maxLinks (t.start p) (stepsOf p.text) := by
  rw [resolve, if_neg (by simpa using hText),
    if_neg (by simpa using hZero)]
  rfl

/- Paths with the same components lead to the same directory. -/
theorem resolve_same
    (hRoot :
      t.resolve true root = .ok (.found directory .directory))
    (hComponents : p.components = root.components)
    (hText : p.text ≠ "") :
    t.resolve true p = .ok (.found directory .directory) := by
  rcases resolve_eq_ok hRoot with ⟨hZero, hWalk⟩
  have hPathZero : '\x00' ∉ p.text.toList := by
    rw [Path.mem_text_iff (by decide) (by decide)] at hZero ⊢
    rwa [hComponents]
  have hStart : t.start p = t.start root :=
    start_congr t (by rw [hComponents])
  have hRootSteps :=
    (walk_withoutDots_directory_iff [] (stepsOf root.text)).mp hWalk
  rw [withoutDots_stepsOf, ← hComponents, ← withoutDots_stepsOf]
    at hRootSteps
  rw [resolve_eq_walk hText hPathZero, hStart]
  exact
    (walk_withoutDots_directory_iff [] (stepsOf p.text)).mpr
      hRootSteps

/-
  A path that goes on by names is followed from the directory that
  the path before it leads to.
-/
theorem resolve_below
    {rel : Names}
    (hRoot :
      t.resolve true root = .ok (.found directory .directory))
    (hComponents :
      p.components = root.components ++ rel.map .name)
    (hTrimmed : p.IsTrimmed)
    (hRel : rel ≠ [])
    (hZero : ∀ name ∈ rel, '\x00' ∉ name.toList) :
    ∃ links, ∀ follow,
      t.resolve follow p = t.walk follow links directory rel := by
  rcases resolve_eq_ok hRoot with ⟨hRootZero, hRootWalk⟩
  have hSteps :
      withoutDots (stepsOf p.text) =
        withoutDots (stepsOf root.text) ++ rel := by
    rw [withoutDots_stepsOf, withoutDots_stepsOf, hComponents,
      List.filterMap_append, List.filterMap_map]
    congr 1
    exact List.filterMap_some
  have hStart : t.start p = t.start root := by
    apply start_congr
    rw [hComponents]
    cases root.components with
    | nil =>
        rcases List.exists_cons_of_ne_nil hRel with
          ⟨name, rest, rfl⟩
        simp
    | cons c rest => rfl
  have hPathZero : '\x00' ∉ p.text.toList := by
    rw [Path.mem_text_iff (by decide) (by decide), hComponents]
    rintro ⟨name, hName, hMem⟩
    rcases List.mem_append.mp hName with hName | hName
    · apply hRootZero
      rw [Path.mem_text_iff (by decide) (by decide)]
      exact ⟨name, hName, hMem⟩
    · simp only [List.mem_map, Component.name.injEq,
        exists_eq_right] at hName
      exact hZero name hName hMem
  rcases walk_append
      ((walk_withoutDots_directory_iff [] (stepsOf root.text)).mp
        hRootWalk) with
    ⟨links, hGoesOn⟩
  refine ⟨links, fun follow => ?_⟩
  have hWalk :
      t.walk follow maxLinks (t.start root) (stepsOf p.text) =
        t.walk follow maxLinks (t.start root)
          (withoutDots (stepsOf p.text)) :=
    walk_withoutDots [] (getLast?_stepsOf_ne hTrimmed)
  rw [resolve_eq_walk hTrimmed.text_ne hPathZero, hStart, hWalk,
    hSteps]
  exact hGoesOn follow rel hRel

/- Where a way leads whose last link is not followed. -/
theorem walk_false_cases
    {links : Nat}
    {here : Names}
    {steps : List String} :
    t.walk false links here steps = t.walk true links here steps ∨
      ∃ names target,
        t.walk false links here steps =
          .ok (.found names (.link target)) := by
  fun_induction t.walk false links here steps
  case case1 => exact Or.inl (by rw [walk])
  case case2 ih | case3 ih =>
    rw [walk]
    exact ih
  case case4 hHere hUp hEntry hLast =>
    rw [walk.eq_4 _ _ _ _ _ _ hHere hUp, hEntry]
    exact Or.inl (by simp only [if_pos hLast])
  case case5 hHere hUp hEntry hLast =>
    rw [walk.eq_4 _ _ _ _ _ _ hHere hUp, hEntry]
    exact Or.inl (by simp only [if_neg hLast])
  case case6 hHere hUp hEntry ih =>
    rw [walk.eq_4 _ _ _ _ _ _ hHere hUp, hEntry]
    exact ih
  case case7 hHere hUp content hEntry hLast =>
    rw [walk.eq_4 _ _ _ _ _ _ hHere hUp, hEntry]
    exact Or.inl (by simp only [if_pos hLast])
  case case8 hHere hUp content hEntry hLast =>
    rw [walk.eq_4 _ _ _ _ _ _ hHere hUp, hEntry]
    exact Or.inl (by simp only [if_neg hLast])
  case case9 => exact Or.inr ⟨_, _, rfl⟩
  case case10 hHere hUp target hEntry hLast =>
    rw [walk.eq_4 _ _ _ _ _ _ hHere hUp, hEntry]
    exact Or.inl (by simp)
  case case11 hHere hUp target hEntry hLast links ih =>
    rw [walk.eq_4 _ _ _ _ _ _ hHere hUp, hEntry]
    simpa using ih

/- A path that leads to a directory leads to something itself. -/
theorem resolve_false_of_directory
    (hResolve :
      t.resolve true p = .ok (.found directory .directory)) :
    ∃ names entry,
      t.resolve false p = .ok (.found names entry) := by
  rcases resolve_eq_ok hResolve with ⟨hZero, hWalk⟩
  have hText : p.text ≠ "" := by
    intro hEmpty
    rw [resolve, hEmpty] at hResolve
    cases hResolve
  rw [resolve_eq_walk hText hZero]
  rcases walk_false_cases (t := t) with hSame | ⟨names, target, hLink⟩
  · exact ⟨_, _, hSame.trans hWalk⟩
  · exact ⟨_, _, hLink⟩

end FileTree

end Variability
