import Variability.Proofs.FileTree.Ways
import Variability.Proofs.FileTree.Writing

/-
  Layouts of directories.

  A layout tells which names below a directory may be directories,
  and which may be files of which content. Where nothing else is
  below it there are no links, so the entries tell where a path
  leads that goes on by names.

  Main declarations:
    * `Layout`
    * `FileTree.exists_leads`
    * `FileTree.GrowsBelow`
    * `FileTree.LaidOut`
-/

namespace Variability

------------------------------------------------------------
-- Layouts
------------------------------------------------------------

/- What may be put below a directory, by the names that lead from it. -/
structure Layout where
  directories : Names → Prop
  files : Names → List UInt8 → Prop
  content_eq :
    ∀ {names content content'},
      files names content → files names content' →
        content = content'

namespace Layout

/- Whether an entry may be put under some names. -/
def Allows (l : Layout) (names : Names) : Entry → Prop
  | .directory => l.directories names
  | .file content => l.files names content
  | .link _ => False

/- Some names are meant for a directory and for a file. -/
def IsObstructed (l : Layout) : Prop :=
  ∃ names content, l.directories names ∧ l.files names content

end Layout

/- A path that goes on behind a directory by some names. -/
structure Path.GoesOn (root p : Path) (rel : Names) : Prop where
  components_eq : p.components = root.components ++ rel.map .name
  isTrimmed : p.IsTrimmed
  areNames : Path.AreNames (rel.map .name)
  not_mem_zero : ∀ name ∈ rel, '\x00' ∉ name.toList
  ne_nil : rel ≠ []

namespace FileTree

variable {t t' t'' : FileTree}
variable {directory rel : Names}
variable {entry : Entry}
variable {root p : Path}
variable {l : Layout}
variable {content : List UInt8}

------------------------------------------------------------
-- Ways by Names
------------------------------------------------------------

/- The names that lead from a directory all lead to directories. -/
def IsOpen (t : FileTree) (directory rel : Names) : Prop :=
  ∀ before, before ≠ [] → before <+: rel →
    t.entry? (directory ++ before) = some .directory

/- Where names lead from a directory if no link is among them. -/
inductive Leads
    (t : FileTree)
    (directory rel : Names) :
    Except FileError Place → Prop where
  | found
      {entry : Entry}
      (hOpen : t.IsOpen directory rel.dropLast)
      (hEntry : t.entry? (directory ++ rel) = some entry) :
      Leads t directory rel (.ok (.found (directory ++ rel) entry))
  | vacant
      (hOpen : t.IsOpen directory rel.dropLast)
      (hEntry : t.entry? (directory ++ rel) = none) :
      Leads t directory rel (.ok (.vacant (directory ++ rel)))
  | blocked
      {before : Names}
      {content : List UInt8}
      (hNonempty : before ≠ [])
      (hBefore : before <+: rel.dropLast)
      (hEntry :
        t.entry? (directory ++ before) = some (.file content)) :
      Leads t directory rel (.error .notADirectory)
  | missing
      {before : Names}
      (hNonempty : before ≠ [])
      (hBefore : before <+: rel.dropLast)
      (hEntry : t.entry? (directory ++ before) = none) :
      Leads t directory rel (.error .notFound)

/- No link is below a directory. -/
def HasNoLinks (t : FileTree) (directory : Names) : Prop :=
  ∀ rel target, rel ≠ [] →
    t.entry? (directory ++ rel) ≠ some (.link target)

theorem IsOpen.cons
    {name : String}
    (hEntry : t.entry? (directory ++ [name]) = some .directory)
    (hOpen : t.IsOpen (directory ++ [name]) rel) :
    t.IsOpen directory (name :: rel) := by
  intro before hNonempty hBefore
  rcases List.exists_cons_of_ne_nil hNonempty with
    ⟨first, rest, rfl⟩
  rcases List.cons_prefix_cons.mp hBefore with ⟨rfl, hRest⟩
  by_cases hNone : rest = []
  · rw [hNone]
    exact hEntry
  · rw [List.append_cons]
    exact hOpen rest hNone hRest

theorem IsOpen.of_dropLast
    (hRel : rel ≠ [])
    (hOpen : t.IsOpen directory rel.dropLast)
    (hEntry : t.entry? (directory ++ rel) = some .directory) :
    t.IsOpen directory rel := by
  intro before hNonempty hBefore
  rw [← List.dropLast_append_getLast hRel,
    List.prefix_concat_iff, List.dropLast_append_getLast hRel]
    at hBefore
  rcases hBefore with rfl | hBefore
  · exact hEntry
  · exact hOpen before hNonempty hBefore

theorem Leads.cons
    {name : String}
    {result : Except FileError Place}
    (hEntry : t.entry? (directory ++ [name]) = some .directory)
    (hRel : rel ≠ [])
    (hLeads : Leads t (directory ++ [name]) rel result) :
    Leads t directory (name :: rel) result := by
  have hNames :
      directory ++ name :: rel = directory ++ [name] ++ rel :=
    List.append_cons directory name rel
  have hDrop : (name :: rel).dropLast = name :: rel.dropLast :=
    List.dropLast_cons_of_ne_nil hRel
  cases hLeads with
  | found hOpen hFound =>
      rw [← hNames] at hFound ⊢
      exact .found (hDrop ▸ hOpen.cons hEntry) hFound
  | vacant hOpen hFree =>
      rw [← hNames] at hFree ⊢
      exact .vacant (hDrop ▸ hOpen.cons hEntry) hFree
  | blocked hNonempty hBefore hFile =>
      rw [List.append_assoc] at hFile
      exact
        .blocked (List.cons_ne_nil name _)
          (hDrop ▸ List.cons_prefix_cons.mpr ⟨rfl, hBefore⟩) hFile
  | missing hNonempty hBefore hFree =>
      rw [List.append_assoc] at hFree
      exact
        .missing (List.cons_ne_nil name _)
          (hDrop ▸ List.cons_prefix_cons.mpr ⟨rfl, hBefore⟩) hFree

/- A single name is one that a way follows. -/
theorem ne_dots_of_isPlain
    {name : String}
    (hPlain : (Component.name name).IsPlain) :
    name ≠ "." ∧ name ≠ ".." := by
  constructor
  · rintro rfl
    cases hPlain.1
  · rintro rfl
    cases hPlain.1

/- Names without links lead to a place that is told by the entries. -/
theorem exists_leads
    (hNames : Path.AreNames (rel.map .name))
    (hRel : rel ≠ [])
    (hLinks : t.HasNoLinks directory) :
    ∃ result, Leads t directory rel result ∧
      ∀ follow links,
        t.walk follow links directory rel = result := by
  induction rel generalizing directory with
  | nil => exact absurd rfl hRel
  | cons name rest ih =>
      rcases hNames (.name name) (by simp) with ⟨_, -, hPlain⟩
      rcases ne_dots_of_isPlain hPlain with ⟨hHere, hUp⟩
      have hOpen : t.IsOpen directory [] := fun _ hNonempty h =>
        absurd (List.prefix_nil.mp h) hNonempty
      have hFirst (hRest : rest ≠ []) :
          [name] <+: (name :: rest).dropLast := by
        rw [List.dropLast_cons_of_ne_nil hRest]
        exact List.prefix_append [name] _
      cases hEntry : t.entry? (directory ++ [name]) with
      | none =>
          by_cases hRest : rest = []
          · subst hRest
            exact
              ⟨_, .vacant hOpen hEntry, fun _ _ =>
                walk_vacant hHere hUp hEntry⟩
          · exact
              ⟨_, .missing (List.cons_ne_nil _ _) (hFirst hRest)
                hEntry, fun _ _ =>
                walk_missing hHere hUp hRest hEntry⟩
      | some entry =>
          cases entry with
          | link target =>
              exact absurd hEntry (hLinks _ _ (List.cons_ne_nil _ _))
          | file content =>
              by_cases hRest : rest = []
              · subst hRest
                exact
                  ⟨_, .found hOpen hEntry, fun _ _ =>
                    walk_file hHere hUp hEntry⟩
              · exact
                  ⟨_, .blocked (List.cons_ne_nil _ _) (hFirst hRest)
                    hEntry, fun _ _ =>
                    walk_blocked hHere hUp hRest hEntry⟩
          | directory =>
              have hStep (follow : Bool) (links : Nat) :
                  t.walk follow links directory (name :: rest) =
                    t.walk follow links (directory ++ [name]) rest :=
                walk_directory hHere hUp hEntry
              by_cases hRest : rest = []
              · subst hRest
                refine ⟨_, .found hOpen hEntry, fun follow links => ?_⟩
                rw [hStep, walk]
              · have hBelow : t.HasNoLinks (directory ++ [name]) := by
                  intro rel target _
                  rw [List.append_assoc]
                  exact hLinks _ target (List.cons_ne_nil _ _)
                have hOthers := fun c hc =>
                  hNames c (List.mem_cons_of_mem _ hc)
                rcases ih hOthers hRest hBelow with
                  ⟨result, hLeads, hWalk⟩
                exact
                  ⟨result, hLeads.cons hEntry hRest,
                    fun follow links =>
                      (hStep follow links).trans (hWalk follow links)⟩

------------------------------------------------------------
-- Growing Below a Directory
------------------------------------------------------------

/- Names that lead from a directory to something else. -/
def IsBelow (directory names : Names) : Prop :=
  ∃ rel, rel ≠ [] ∧ names = directory ++ rel

/- A tree that has more below a directory, and is the same outside. -/
structure GrowsBelow
    (directory : Names)
    (t t' : FileTree) : Prop extends Grows t t' where
  outside :
    ∀ names, ¬ IsBelow directory names →
      t'.entry? names = t.entry? names

theorem GrowsBelow.refl
    (directory : Names)
    (t : FileTree) :
    GrowsBelow directory t t :=
  ⟨.refl t, fun _ _ => rfl⟩

theorem GrowsBelow.trans
    (hFirst : GrowsBelow directory t t')
    (hSecond : GrowsBelow directory t' t'') :
    GrowsBelow directory t t'' :=
  ⟨hFirst.toGrows.trans hSecond.toGrows, fun names hNames =>
    (hSecond.outside names hNames).trans
      (hFirst.outside names hNames)⟩

theorem IsOpen.grows
    (hOpen : t.IsOpen directory rel)
    (hGrows : Grows t t') :
    t'.IsOpen directory rel :=
  fun before hNonempty hBefore =>
    hGrows.entry? _ _ (hOpen before hNonempty hBefore)

/- A directory that a path leads to has nothing but what is laid out. -/
structure LaidOut
    (l : Layout)
    (root : Path)
    (directory : Names)
    (t : FileTree) : Prop where
  resolve_eq :
    t.resolve true root = .ok (.found directory .directory)
  allows :
    ∀ rel entry, rel ≠ [] →
      t.entry? (directory ++ rel) = some entry →
        l.Allows rel entry

namespace LaidOut

theorem hasNoLinks
    (hLaid : LaidOut l root directory t) :
    t.HasNoLinks directory :=
  fun rel target hRel hEntry =>
    hLaid.allows rel (.link target) hRel hEntry

theorem file_of_entry?_eq
    (hLaid : LaidOut l root directory t)
    (hRel : rel ≠ [])
    (hEntry : t.entry? (directory ++ rel) = some (.file content)) :
    l.files rel content :=
  hLaid.allows rel (.file content) hRel hEntry

/- A path that goes on leads where the entries tell. -/
theorem exists_leads
    (hLaid : LaidOut l root directory t)
    (hPath : root.GoesOn p rel) :
    ∃ result, Leads t directory rel result ∧
      ∀ follow, t.resolve follow p = result := by
  rcases FileTree.exists_leads hPath.areNames hPath.ne_nil
      hLaid.hasNoLinks with
    ⟨result, hLeads, hWalk⟩
  rcases resolve_below hLaid.resolve_eq hPath.components_eq
      hPath.isTrimmed hPath.ne_nil hPath.not_mem_zero with
    ⟨links, hResolve⟩
  exact
    ⟨result, hLeads, fun follow =>
      (hResolve follow).trans (hWalk follow links)⟩

/- A path leads nowhere if something is missing on the way. -/
theorem missing_of_resolve_eq
    (hLaid : LaidOut l root directory t)
    (hPath : root.GoesOn p rel)
    {follow : Bool}
    (hResolve : t.resolve follow p = .error .notFound) :
    ∃ before, before ≠ [] ∧ before <+: rel.dropLast ∧
      t.entry? (directory ++ before) = none := by
  rcases hLaid.exists_leads hPath with ⟨result, hLeads, hResult⟩
  rw [← hResult follow, hResolve] at hLeads
  cases hLeads with
  | missing hNonempty hBefore hFree =>
      exact ⟨_, hNonempty, hBefore, hFree⟩

/- An entry that the layout allows is put under free names. -/
theorem put
    (hLaid : LaidOut l root directory t)
    (hRel : rel ≠ [])
    (hAllows : l.Allows rel entry)
    (hFree :
      ∀ old, t.entry? (directory ++ rel) = some old →
        old = entry)
    (hEntry :
      ∀ names, t'.entry? names =
        if names = directory ++ rel then
          some entry
        else
          t.entry? names)
    (hCurrent : t'.current = t.current) :
    LaidOut l root directory t' ∧ GrowsBelow directory t t' ∧
      t'.entry? (directory ++ rel) = some entry := by
  have hGrows : GrowsBelow directory t t' := by
    refine ⟨⟨hCurrent, fun names old hOld => ?_⟩, ?_⟩
    · rw [hEntry]
      split
      · rename_i hSame
        rw [hSame] at hOld
        rw [hFree old hOld]
      · exact hOld
    · intro names hOutside
      rw [hEntry, if_neg]
      rintro rfl
      exact hOutside ⟨rel, hRel, rfl⟩
  refine ⟨⟨?_, fun other found hOther hFound => ?_⟩, hGrows, ?_⟩
  · exact hGrows.resolve_found hLaid.resolve_eq
  · rw [hEntry] at hFound
    split at hFound
    · rename_i hSame
      cases hFound
      rw [List.append_cancel_left hSame]
      exact hAllows
    · exact hLaid.allows other found hOther hFound
  · rw [hEntry, if_pos rfl]

/- A name for a directory is none for a file of the layout. -/
theorem isObstructed
    (hLaid : LaidOut l root directory t)
    (hRel : rel ≠ [])
    (hFiles : l.files rel content)
    (hEntry : t.entry? (directory ++ rel) = some .directory) :
    l.IsObstructed :=
  ⟨rel, content, hLaid.allows rel .directory hRel hEntry, hFiles⟩

end LaidOut

end FileTree

end Variability
