/-
  Paths of files, compared by their components.

  A path keeps the text it was written with. Its components
  leave out empty parts and `.`, except a `.` that starts a
  relative path; two paths are the same if their components
  are, and they are ordered component by component.

  Main definitions:
    * `Path.components`
    * `Path.join`
    * `Path.normalize`
    * `Path.relativeTo`
    * `Path.rebase`
-/

namespace Variability

------------------------------------------------------------
-- Components
------------------------------------------------------------

/- A part of a path. The order of the kinds is that of paths. -/
inductive Component where
  | root
  | here
  | up
  | name (text : String)
  deriving DecidableEq, Repr, Inhabited

namespace Component

/- The written form of a component. -/
def text : Component → String
  | .root => "/"
  | .here => "."
  | .up => ".."
  | .name text => text

/- The rank of a component's kind. -/
def rank : Component → Nat
  | .root => 0
  | .here => 1
  | .up => 2
  | .name _ => 3

/- Components are ordered by kind, names by their characters. -/
def compare : Component → Component → Ordering
  | .name a, .name b => Ord.compare a b
  | c, d => Ord.compare c.rank d.rank

end Component

/- A path as it was written. -/
structure Path where
  text : String
  deriving DecidableEq, Repr, Inhabited

namespace Path

/- The parts of a text between slashes. -/
def splitSlash : List Char → List (List Char)
  | [] => [[]]
  | c :: rest =>
      if c = '/' then
        [] :: splitSlash rest
      else
        match splitSlash rest with
        | [] => [[c]]
        | part :: parts => (c :: part) :: parts

/- A part between slashes as a component, if it is one. -/
def component? : List Char → Option Component
  | [] => none
  | ['.'] => none
  | ['.', '.'] => some .up
  | part => some (.name (String.ofList part))

/- The components of a text. -/
def componentsOf : List Char → List Component
  | '/' :: rest => .root :: (splitSlash rest).filterMap component?
  | text =>
      match splitSlash text with
      | ['.'] :: parts => .here :: parts.filterMap component?
      | parts => parts.filterMap component?

/- The components of a path. -/
def components (p : Path) : List Component :=
  componentsOf p.text.toList

/- Whether a path starts at the root. -/
def isAbsolute (p : Path) : Bool :=
  p.text.toList.head? == some '/'

/- Compare lists of components. -/
def compareComponents :
    List Component → List Component → Ordering
  | [], [] => .eq
  | [], _ :: _ => .lt
  | _ :: _, [] => .gt
  | c :: cs, d :: ds =>
      match c.compare d with
      | .eq => compareComponents cs ds
      | order => order

/- Compare paths component by component. -/
def compare (p q : Path) : Ordering :=
  compareComponents p.components q.components

instance : Ord Path := ⟨compare⟩

/- Whether two paths have the same components. -/
def same (p q : Path) : Bool :=
  p.components == q.components

/- Whether two lists of paths are the same one by one. -/
def sameAll : List Path → List Path → Bool
  | [], [] => true
  | p :: ps, q :: qs => p.same q && sameAll ps qs
  | _, _ => false

------------------------------------------------------------
-- Building
------------------------------------------------------------

/- A path below another; an absolute path replaces it. -/
def join (p q : Path) : Path :=
  if q.isAbsolute then
    q
  else
    match p.text.toList.getLast? with
    | none | some '/' => ⟨p.text ++ q.text⟩
    | some _ => ⟨p.text ++ "/" ++ q.text⟩

/- The path with the given components. -/
def ofComponents (cs : List Component) : Path :=
  cs.foldl (fun p c => p.join ⟨c.text⟩) ⟨""⟩

/- The start of a text before its first component, and the parts behind it. -/
def leadAndParts (p : Path) : List Char × List (List Char) :=
  match p.text.toList with
  | '/' :: rest => (['/'], splitSlash rest)
  | text =>
      match splitSlash text with
      | ['.'] :: parts => (['.'], parts)
      | parts => ([], parts)

/- Parts that are no components are dropped at the end. -/
def trimParts (parts : List (List Char)) : List (List Char) :=
  (parts.reverse.dropWhile fun part =>
    (component? part).isNone).reverse

/- Write the parts of a path behind its lead. -/
def ofParts (lead : List Char) (parts : List (List Char)) : Path :=
  let body := ['/'].intercalate parts
  if lead = ['.'] then
    ⟨String.ofList (lead ++ (if parts.isEmpty then [] else '/' :: body))⟩
  else
    ⟨String.ofList (lead ++ body)⟩

/- The path without its last component. -/
def parent? (p : Path) : Option Path :=
  let (lead, parts) := p.leadAndParts
  match (trimParts parts).reverse with
  | [] => if lead = ['.'] then some ⟨""⟩ else none
  | _ :: before => some (ofParts lead (trimParts before.reverse))

/- The last component, if it is a name. -/
def fileName? (p : Path) : Option String :=
  match p.components.getLast? with
  | some (.name text) => some text
  | _ => none

/- Put another name in place of the last one. -/
def withFileName (p : Path) (name : String) : Path :=
  match p.fileName?, p.parent? with
  | some _, some directory => directory.join ⟨name⟩
  | _, _ => p.join ⟨name⟩

/-
  The name before its last dot. A dot that starts the name
  does not count.
-/
def stemOf (name : List Char) : List Char :=
  match name.reverse.dropWhile (· ≠ '.') with
  | [] | ['.'] => name
  | _ :: stem => stem.reverse

/- Put another extension in place of the last one. -/
def withExtension (p : Path) (extension : String) : Path :=
  match p.fileName? with
  | none => p
  | some name =>
      let (lead, parts) := p.leadAndParts
      let stem := stemOf name.toList
      ofParts lead
        ((trimParts parts).dropLast ++
          [stem ++ '.' :: extension.toList])

/- The components behind those of a directory. -/
def stripComponents :
    List Component → List Component → Option (List Component)
  | [], cs => some cs
  | _ :: _, [] => none
  | d :: ds, c :: cs =>
      if d = c then stripComponents ds cs else none

/- The path behind a directory, if it starts with it. -/
def strip? (p directory : Path) : Option Path :=
  (stripComponents directory.components p.components).map ofComponents

------------------------------------------------------------
-- Normal Forms
------------------------------------------------------------

/- Take one more component, `stack` holding those before it, last first. -/
def pushComponent
    (stack : List Component)
    (c : Component) :
    List Component :=
  match c, stack with
  | .here, _ => stack
  | .up, .name _ :: rest => rest
  | .up, .root :: _ => stack
  | c, _ => c :: stack

/- Drop every `.` and fold every `..` into the name before it. -/
def normalizeComponents (cs : List Component) : List Component :=
  (cs.foldl pushComponent []).reverse

/-
  The normal form of a path. Only the text is looked at, and a
  `..` that starts a relative path stays.
-/
def normalize (p : Path) : Path :=
  ofComponents (normalizeComponents p.components)

/- Drop the components that two lists start with alike. -/
def dropCommon :
    List Component → List Component →
      List Component × List Component
  | c :: cs, d :: ds =>
      if c = d then dropCommon cs ds else (c :: cs, d :: ds)
  | cs, ds => (cs, ds)

/- The path that leads from a directory to this path. -/
def relativeTo (target base : Path) : Path :=
  let (back, forth) :=
    dropCommon base.normalize.components
      target.normalize.components
  ofComponents (back.map (fun _ => Component.up) ++ forth)

/-
  Resolve a path against `base`, and give it relative to `root`
  if it lies there; other paths stay absolute.
-/
def rebase (p base root : Path) : Path :=
  let absolute :=
    if p.isAbsolute then p.normalize else (base.join p).normalize
  match absolute.strip? root.normalize with
  | none => absolute
  | some inside => if inside.text = "" then ⟨"."⟩ else inside

------------------------------------------------------------
-- Ordered Sets
------------------------------------------------------------

/- Put a path into an ordered set; a path that is there stays. -/
def insertOrdered (p : Path) : List Path → List Path
  | [] => [p]
  | q :: rest =>
      match p.compare q with
      | .lt => p :: q :: rest
      | .eq => q :: rest
      | .gt => q :: insertOrdered p rest

/- The ordered set of some paths; of equal ones the last stays. -/
def orderedSet (ps : List Path) : List Path :=
  ps.reverse.foldl (fun set p => insertOrdered p set) []

end Path

end Variability
