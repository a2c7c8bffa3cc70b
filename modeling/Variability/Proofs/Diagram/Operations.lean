import Variability.Proofs.Diagram.Transparency
import Mathlib

/-
  Runs that show neither sizes nor computed results.

  A run asks a manager for handles, truths and counts and collects
  garbage in between. Two managers that agree give the same answer
  and agree again, one with computed results and one without. So
  the answers of a whole run are those of the plain recursion,
  whatever the bits a manager was created with. Nodes may be made
  in any order of their variables.

  Main declarations:
    * `Operation`
    * `Manager.answers`
    * `Manager.Pairs.perform`
    * `Manager.answers_transparent`
-/

namespace Variability

namespace Diagram

------------------------------------------------------------
-- Operations
------------------------------------------------------------

/- A way to compute an if-then-else. -/
abbrev Chooser : Type :=
  Manager → Handle → Handle → Handle → Handle × Manager

namespace Construction

/- The arguments are live and variables are positive. -/
def Served (m : Manager) : Construction → Prop
  | .node v low high =>
      0 < v ∧ m.IsLive low ∧ m.IsLive high
  | c => c.Allowed m

instance (m : Manager) :
    (c : Construction) → Decidable (c.Served m)
  | .var v => inferInstanceAs (Decidable (Allowed m (.var v)))
  | .node v low high =>
      inferInstanceAs
        (Decidable (0 < v ∧ m.IsLive low ∧ m.IsLive high))
  | .ite f g h =>
      inferInstanceAs (Decidable (Allowed m (.ite f g h)))
  | .and f g =>
      inferInstanceAs (Decidable (Allowed m (.and f g)))
  | .or f g => inferInstanceAs (Decidable (Allowed m (.or f g)))
  | .not f => inferInstanceAs (Decidable (Allowed m (.not f)))
  | .andMany fs =>
      inferInstanceAs (Decidable (Allowed m (.andMany fs)))
  | .orMany fs =>
      inferInstanceAs (Decidable (Allowed m (.orMany fs)))

/- A construction whose connectives choose as they are told. -/
def runWith
    (ite : Chooser)
    (m : Manager) :
    Construction → Handle × Manager
  | .var v => m.mkVar v
  | .node v low high => m.mkNode v low high
  | .ite f g h => ite m f g h
  | .and f g => ite m f g .zero
  | .or f g => ite m f .one g
  | .not f => (-f, m)
  | .andMany fs =>
      fs.foldl (fun (r, m) f => ite m r f .zero) (.one, m)
  | .orMany fs =>
      fs.foldl (fun (r, m) f => ite m r .one f) (.zero, m)

end Construction

/- What a manager may be asked. -/
inductive Operation where
  | construct (c : Construction)
  | cube (literals : List Int)
  | low (r : Handle)
  | high (r : Handle)
  | implies (f g : Handle)
  | size (r : Handle)
  | collect (roots : List Handle)

/- What a manager says. -/
inductive Answer where
  | handle (r : Handle)
  | truth (b : Bool)
  | count (n : Nat)
  | done
  deriving DecidableEq, Repr

namespace Operation

/- The arguments are live and variables are positive. -/
def Served (m : Manager) : Operation → Prop
  | .construct c => c.Served m
  | .cube literals => ∀ l ∈ literals, l ≠ 0
  | .low r => m.IsLive r
  | .high r => m.IsLive r
  | .implies f g => m.IsLive f ∧ m.IsLive g
  | .size r => m.IsLive r
  | .collect roots => ∀ r ∈ roots, m.IsLive r

instance (m : Manager) (o : Operation) :
    Decidable (o.Served m) := by
  cases o <;> unfold Served <;> infer_instance

def perform
    (ite : Chooser)
    (m : Manager) :
    Operation → Answer × Manager
  | .construct c => (c.runWith ite m).map .handle id
  | .cube literals => (m.cube literals).map .handle id
  | .low r => (.handle (m.low r), m)
  | .high r => (.handle (m.high r), m)
  | .implies f g =>
      (ite m f (-g) .zero).map (.truth <| · == .zero) id
  | .size r => (.count (m.size r), m)
  | .collect roots => (.done, m.collectGarbage roots)

end Operation

namespace Manager

/- Each operation is served by the manager that it comes to. -/
def Permits
    (ite : Chooser)
    (m : Manager) :
    List Operation → Prop
  | [] => True
  | o :: os => o.Served m ∧ Permits ite (o.perform ite m).2 os

instance decidablePermits
    (ite : Chooser)
    (m : Manager) :
    (os : List Operation) → Decidable (m.Permits ite os)
  | [] => .isTrue trivial
  | o :: os =>
      have := decidablePermits ite (o.perform ite m).2 os
      inferInstanceAs (Decidable (_ ∧ _))

/- The answers of a run, each with the number of live nodes then. -/
def answers
    (ite : Chooser)
    (m : Manager) :
    List Operation → List (Answer × Nat)
  | [] => []
  | o :: os =>
      let (answer, m) := o.perform ite m
      (answer, m.liveCount) :: answers ite m os

/- The manager after a run. -/
def after
    (ite : Chooser)
    (m : Manager)
    (os : List Operation) :
    Manager :=
  os.foldl (fun m o => (o.perform ite m).2) m

variable {m m' : Manager}
variable {r : Handle}
variable {roots : List Handle}

------------------------------------------------------------
-- Collections
------------------------------------------------------------

namespace Agrees

theorem symm
    (hAgrees : m.Agrees m') :
    m'.Agrees m :=
  ⟨hAgrees.back, hAgrees.forth⟩

/- Paths from live cells are the same. -/
theorem meets
    {work : List Nat}
    {i : Nat}
    (hAgrees : m.Agrees m')
    (hIntact : m.Intact)
    (hWork :
      ∀ i ∈ work, i ≠ 0 ∧ m.nodes.isOccupied i = true)
    (hMeets : m.Meets work i) :
    m'.Meets work i := by
  induction hMeets with
  | start hi => exact .start hi
  | child hMeets hNode hChild ih =>
      have hLive := hMeets.isOccupied hIntact hWork
      apply Meets.child ih hNode
      unfold IsChild
      rw [hAgrees.value_eq hLive.1 hLive.2]
      exact hChild

variable (hAgrees : m.Agrees m')
variable (hIntact : m.Intact)
variable (hIntact' : m'.Intact)
variable (hRoots : ∀ r ∈ roots, m.IsLive r)
include hAgrees hIntact hIntact' hRoots

theorem isRooted_iff (r : Handle) :
    m'.IsRooted roots r ↔ m.IsRooted roots r := by
  have hWork :
      ∀ i ∈ roots.map Handle.index,
        i ≠ 0 ∧ m.nodes.isOccupied i = true := by
    intro i hi
    rcases List.mem_map.mp hi with ⟨root, hRoot, rfl⟩
    exact hRoots root hRoot
  have hWork' :
      ∀ i ∈ roots.map Handle.index,
        i ≠ 0 ∧ m'.nodes.isOccupied i = true := by
    intro i hi
    rcases List.mem_map.mp hi with ⟨root, hRoot, rfl⟩
    exact hAgrees.forth.isLive (hRoots root hRoot)
  exact
    or_congr_right
      ⟨hAgrees.symm.meets hIntact' hWork',
        hAgrees.meets hIntact hWork⟩

/- Collecting with the same roots leaves the same nodes. -/
theorem collectGarbage :
    (m.collectGarbage roots).Agrees
      (m'.collectGarbage roots) := by
  have hRoots' : ∀ r ∈ roots, m'.IsLive r :=
    fun r hr => hAgrees.forth.isLive (hRoots r hr)
  have hLeft (r : Handle) :
      (m'.collectGarbage roots).IsLive r ↔
        (m.collectGarbage roots).IsLive r := by
    rw [hIntact.isLive_collectGarbage_iff roots,
      hIntact'.isLive_collectGarbage_iff roots,
      hIntact.isMarked_reachable_iff roots hRoots,
      hIntact'.isMarked_reachable_iff roots hRoots',
      hAgrees.isLive_iff,
      hAgrees.isRooted_iff hIntact hIntact' hRoots]
  have hSame (r : Handle)
      (hLive : (m.collectGarbage roots).IsLive r) :
      (m'.collectGarbage roots).nodes.value r.index =
        (m.collectGarbage roots).nodes.value r.index := by
    have hOld :=
      ((hIntact.isLive_collectGarbage_iff roots r).mp
        hLive).1
    rw [hIntact.value_collectGarbage roots,
      hIntact'.value_collectGarbage roots,
      hAgrees.value_eq hOld.1 hOld.2]
  exact
    ⟨fun r hLive => ⟨(hLeft r).mpr hLive, hSame r hLive⟩,
      fun r hLive =>
        ⟨(hLeft r).mp hLive,
          (hSame r ((hLeft r).mp hLive)).symm⟩⟩

/- Live roots have as many descendants in both. -/
theorem length_descendants_eq :
    (m'.descendants roots).length =
      (m.descendants roots).length := by
  have hRoots' : ∀ r ∈ roots, m'.IsLive r :=
    fun r hr => hAgrees.forth.isLive (hRoots r hr)
  have hSame :
      (m'.descendants roots).toFinset =
        (m.descendants roots).toFinset := by
    ext i
    rw [List.mem_toFinset, List.mem_toFinset,
      hIntact.mem_descendants_iff hRoots,
      hIntact'.mem_descendants_iff hRoots',
      hAgrees.isRooted_iff hIntact hIntact' hRoots]
  have hNodup (m : Manager) : (m.descendants roots).Nodup :=
    List.nodup_range.filter _
  rw [← List.toFinset_card_of_nodup (hNodup m'),
    ← List.toFinset_card_of_nodup (hNodup m), hSame]

end Agrees

/- The size of a function counts its descendants. -/
theorem size_eq_length
    (m : Manager)
    (r : Handle) :
    m.size r = (m.descendants [r]).length := by
  unfold size descendants
  generalize m.reachable [r] = marked
  have hList :
      marked.toList =
        (List.range m.nodes.capacity).map
          (marked.toArray.getD · false) := by
    apply List.ext_getElem
    · simp
    · intro i hi _
      have hBound : i < m.nodes.capacity := by simpa using hi
      simp [Array.getD_eq_getD_getElem?, hBound]
  rw [← Vector.count_toList, hList, List.count_eq_countP,
    List.countP_map, List.countP_eq_length_filter]
  congr 2
  funext i
  simp

/- A collection forgets all results and leaves part of the paths. -/
theorem Coherent.collectGarbage
    (hCoherent : m.Coherent)
    (roots : List Handle) :
    (m.collectGarbage roots).Coherent where
  intact := hCoherent.intact.collectGarbage roots
  acyclic :=
    hCoherent.acyclic.of_extends fun r hLive =>
      ⟨((hCoherent.intact.isLive_collectGarbage_iff roots
          r).mp hLive).1,
        (hCoherent.intact.value_collectGarbage roots
          r.index).symm⟩
  recalls := by simp [Manager.collectGarbage]

------------------------------------------------------------
-- Steps of a Run
------------------------------------------------------------

/-
  Folding over a list has the same outcome in both managers if
  each step has, because what was live before the fold stays
  live until the end of it.
-/
theorem Mirrors.foldl
    {α : Type}
    {xs : List α}
    {step step' : Handle × Manager → α → Handle × Manager}
    {out out' : Handle × Manager}
    (hOut : m.Mirrors out out')
    (hStep :
      ∀ x ∈ xs, ∀ {out out' : Handle × Manager},
        m.Mirrors out out' →
          out.2.Mirrors (step out x) (step' out' x)) :
    m.Mirrors (xs.foldl step out) (xs.foldl step' out') := by
  induction xs generalizing out out' with
  | nil => exact hOut
  | cons x xs ih =>
      apply ih (hOut.trans (hStep x List.mem_cons_self hOut))
      exact fun y hy => hStep y (List.mem_cons_of_mem x hy)

namespace Pairs

variable (hPairs : m.Pairs m')
include hPairs

theorem isLive_one : m.IsLive .one :=
  hPairs.coherent.intact.isLive_one

theorem isLive_zero : m.IsLive .zero :=
  (m.isLive_neg .one).mpr hPairs.isLive_one

theorem mirrors_construct
    (c : Construction)
    (hServed : c.Served m) :
    m.Mirrors (c.runWith Manager.ite m)
      (c.runWith plainIte m') := by
  cases c with
  | var v =>
      exact
        hPairs.mirrors_mkNode hPairs.isLive_zero
          hPairs.isLive_one
  | node v low high =>
      exact hPairs.mirrors_mkNode hServed.2.1 hServed.2.2
  | ite f g h =>
      exact
        (hPairs.mirrors_ite hServed.1 hServed.2.1
          hServed.2.2).mirrors
  | and f g =>
      exact
        (hPairs.mirrors_ite hServed.1 hServed.2
          hPairs.isLive_zero).mirrors
  | or f g =>
      exact
        (hPairs.mirrors_ite hServed.1 hPairs.isLive_one
          hServed.2).mirrors
  | not f => exact hPairs.mirrors ((m.isLive_neg f).mpr hServed)
  | andMany fs =>
      apply (hPairs.mirrors hPairs.isLive_one).foldl
      intro f hf out out' hOut
      simp only [hOut.handle_eq]
      exact
        (hOut.pairs.mirrors_ite hOut.isLive
          (hOut.keeps.isLive (hServed f hf))
          hOut.pairs.isLive_zero).mirrors
  | orMany fs =>
      apply (hPairs.mirrors hPairs.isLive_zero).foldl
      intro f hf out out' hOut
      simp only [hOut.handle_eq]
      exact
        (hOut.pairs.mirrors_ite hOut.isLive
          hOut.pairs.isLive_one
          (hOut.keeps.isLive (hServed f hf))).mirrors

theorem mirrors_cube (literals : List Int) :
    m.Mirrors (m.cube literals) (m'.cube literals) := by
  apply (hPairs.mirrors hPairs.isLive_one).foldl
  intro literal _ out out' hOut
  simp only [addLiteral, hOut.handle_eq]
  split
  · exact
      hOut.pairs.mirrors_mkNode hOut.isLive
        hOut.pairs.isLive_zero
  · exact
      hOut.pairs.mirrors_mkNode hOut.pairs.isLive_zero
        hOut.isLive

theorem collectGarbage
    {roots : List Handle}
    (hRoots : ∀ r ∈ roots, m.IsLive r) :
    (m.collectGarbage roots).Pairs
      (m'.collectGarbage roots) where
  coherent := hPairs.coherent.collectGarbage roots
  intact := hPairs.intact.collectGarbage roots
  agrees :=
    hPairs.agrees.collectGarbage hPairs.coherent.intact
      hPairs.intact hRoots

/- An operation is served by both managers or by neither. -/
theorem served_iff (o : Operation) :
    o.Served m' ↔ o.Served m := by
  have hLive (r : Handle) : m'.IsLive r ↔ m.IsLive r :=
    hPairs.agrees.isLive_iff
  cases o with
  | construct c =>
      cases c <;>
        simp only [Operation.Served, Construction.Served,
          Construction.Allowed, hLive]
  | _ => simp only [Operation.Served, hLive]

/- The edges of a live handle are the same. -/
theorem node_eq
    {r : Handle}
    (hLive : m.IsLive r) :
    m'.node r = m.node r :=
  hPairs.agrees.value_eq hLive.1 hLive.2

/-
  An operation has one answer, with computed results and without,
  and can be followed by another one.
-/
theorem perform
    (o : Operation)
    (hServed : o.Served m) :
    (o.perform plainIte m').1 = (o.perform Manager.ite m).1 ∧
      (o.perform Manager.ite m).2.Pairs
        (o.perform plainIte m').2 := by
  cases o with
  | construct c =>
      have hMade := hPairs.mirrors_construct c hServed
      exact ⟨congrArg Answer.handle hMade.handle_eq, hMade.pairs⟩
  | cube literals =>
      have hMade := hPairs.mirrors_cube literals
      exact ⟨congrArg Answer.handle hMade.handle_eq, hMade.pairs⟩
  | low r =>
      refine ⟨congrArg Answer.handle ?_, hPairs⟩
      rw [Manager.low, Manager.low, hPairs.node_eq hServed]
  | high r =>
      refine ⟨congrArg Answer.handle ?_, hPairs⟩
      rw [Manager.high, Manager.high, hPairs.node_eq hServed]
  | implies f g =>
      have hMade :=
        (hPairs.mirrors_ite hServed.1
          ((m.isLive_neg g).mpr hServed.2)
          hPairs.isLive_zero).mirrors
      exact
        ⟨congrArg (fun r : Handle => Answer.truth (r == .zero))
            hMade.handle_eq,
          hMade.pairs⟩
  | size r =>
      refine ⟨congrArg Answer.count ?_, hPairs⟩
      rw [size_eq_length, size_eq_length]
      exact
        hPairs.agrees.length_descendants_eq
          hPairs.coherent.intact hPairs.intact (by simpa)
  | collect roots => exact ⟨rfl, hPairs.collectGarbage hServed⟩

end Pairs

------------------------------------------------------------
-- Whole Runs
------------------------------------------------------------

/- A run that gives the answers of another one, in the same order. -/
structure SameRun
    (ite ite' : Chooser)
    (m m' : Manager)
    (os : List Operation) : Prop where
  permits : m'.Permits ite' os
  answers_eq : m'.answers ite' os = m.answers ite os
  agrees : (m.after ite os).Agrees (m'.after ite' os)

namespace SameRun

variable {ite ite' ite'' : Chooser}
variable {m'' : Manager}
variable {os : List Operation}

theorem symm
    (hSame : SameRun ite ite' m m' os)
    (hPermits : m.Permits ite os) :
    SameRun ite' ite m' m os :=
  ⟨hPermits, hSame.answers_eq.symm, hSame.agrees.symm⟩

theorem trans
    (hFirst : SameRun ite ite' m m' os)
    (hSecond : SameRun ite' ite'' m' m'' os) :
    SameRun ite ite'' m m'' os :=
  ⟨hSecond.permits,
    hSecond.answers_eq.trans hFirst.answers_eq,
    hFirst.agrees.trans hSecond.agrees⟩

end SameRun

namespace Pairs

variable (hPairs : m.Pairs m')
variable (os : List Operation)
include hPairs

/- A run is permitted with computed results or not at all. -/
theorem permits_iff :
    m'.Permits plainIte os ↔ m.Permits Manager.ite os := by
  induction os generalizing m m' with
  | nil => exact Iff.rfl
  | cons o os ih =>
      have hLater (hServed : o.Served m) :=
        ih (hPairs.perform o hServed).2
      simp only [Permits, hPairs.served_iff o]
      exact and_congr_right hLater

theorem after
    (hPermits : m.Permits Manager.ite os) :
    (m.after Manager.ite os).Pairs (m'.after plainIte os) := by
  induction os generalizing m m' with
  | nil => exact hPairs
  | cons o os ih =>
      exact ih (hPairs.perform o hPermits.1).2 hPermits.2

theorem answers_eq
    (hPermits : m.Permits Manager.ite os) :
    m'.answers plainIte os = m.answers Manager.ite os := by
  induction os generalizing m m' with
  | nil => rfl
  | cons o os ih =>
      rcases hPairs.perform o hPermits.1 with ⟨hAnswer, hNext⟩
      have hCount :=
        hNext.agrees.liveCount_eq hNext.coherent.intact
          hNext.intact
      simp only [answers, hAnswer, hCount,
        ih hNext hPermits.2]

/- A run with computed results is one without them. -/
theorem sameRun
    (hPermits : m.Permits Manager.ite os) :
    SameRun Manager.ite plainIte m m' os :=
  ⟨(hPairs.permits_iff os).mpr hPermits,
    hPairs.answers_eq os hPermits,
    (hPairs.after os hPermits).agrees⟩

end Pairs

/- Managers that were just created hold the terminal alone. -/
theorem empty_extends
    (bits bits' : Nat) :
    (Manager.empty bits).Extends (Manager.empty bits') := by
  intro r hLive
  have hTerminal : r.isTerminal = true := by
    by_contra hNode
    exact
      not_isNode_empty bits r.index
        (hLive.isNode (by simpa using hNode))
  have hOne : r.index = 1 := by
    simpa [Handle.isTerminal] using hTerminal
  have hTaken := (Reduced.empty bits').terminal_occupied
  refine ⟨⟨hLive.1, hOne ▸ hTaken⟩, ?_⟩
  rw [node, node, hOne, (Reduced.empty bits).terminal_value,
    (Reduced.empty bits').terminal_value]

theorem pairs_empty
    (bits bits' : Nat) :
    (Manager.empty bits).Pairs (Manager.empty bits') where
  coherent :=
    { intact := (Reduced.empty bits).intact
      acyclic :=
        ⟨id, fun i hNode =>
          absurd hNode (not_isNode_empty bits i)⟩
      recalls := by simp [Manager.empty] }
  intact := (Reduced.empty bits').intact
  agrees := ⟨empty_extends bits bits', empty_extends bits' bits⟩

/-
  Neither the bits of a manager nor its computed results are
  seen: every run has the same answers and counts of nodes, and
  leaves the same nodes in the same cells. No if-then-else of a
  run, with computed results or without, is cut off by its depth.
-/
theorem answers_transparent
    {bits bits' : Nat}
    (hCreate : Manager.create? bits = some m)
    (hCreate' : Manager.create? bits' = some m')
    (os : List Operation)
    (hPermits : m.Permits Manager.ite os) :
    SameRun Manager.ite Manager.ite m m' os ∧
      SameRun Manager.ite plainIte m m' os ∧
      ∀ f g h,
        (m.after Manager.ite os).IsLive f →
          (m.after Manager.ite os).IsLive g →
            (m.after Manager.ite os).IsLive h →
              (∃ r later,
                Computes ⟨f, g, h⟩ (m.after Manager.ite os)
                    r later ∧
                  (m.after Manager.ite os).ite f g h =
                    (r, later)) ∧
                ∃ r later,
                  Recomputes ⟨f, g, h⟩
                      (m'.after plainIte os) r later ∧
                    (m'.after plainIte os).plainIte f g h =
                      (r, later) := by
  rw [eq_empty_of_create? hCreate] at hPermits ⊢
  rw [eq_empty_of_create? hCreate']
  have hPairs := pairs_empty bits bits'
  have hPairs' := pairs_empty bits' bits'
  have hPlain := hPairs.sameRun os hPermits
  have hPermits' :
      (Manager.empty bits').Permits Manager.ite os :=
    (hPairs'.permits_iff os).mp hPlain.permits
  have hPlain' := hPairs'.sameRun os hPermits'
  refine
    ⟨hPlain.trans (hPlain'.symm hPermits'), hPlain, ?_⟩
  intro f g h hf hg hh
  have hIte :=
    (hPairs.after os hPermits).mirrors_ite hf hg hh
  exact
    ⟨⟨_, _, hIte.computes, rfl⟩, ⟨_, _, hIte.recomputes, rfl⟩⟩

/-
  A run with recalled results, unordered nodes and cells that are
  used again.
-/
def mixedRun : List Operation :=
  [.construct (.var 1), .construct (.var 2),
    .construct (.var 3), .construct (.and ⟨2⟩ ⟨3⟩),
    .construct (.and ⟨2⟩ ⟨3⟩), .construct (.ite ⟨5⟩ ⟨-4⟩ ⟨3⟩),
    .size ⟨6⟩, .implies ⟨5⟩ ⟨3⟩, .collect [⟨5⟩],
    .construct (.node 3 ⟨5⟩ ⟨-3⟩), .cube [2, -1, 3], .low ⟨4⟩,
    .construct (.or ⟨4⟩ ⟨2⟩)]

theorem answers_transparent_mixedRun :
    (Manager.empty 0).Permits Manager.ite mixedRun ∧
      (Manager.empty 2).answers Manager.ite mixedRun =
        (Manager.empty 0).answers Manager.ite mixedRun ∧
      (Manager.empty 2).answers plainIte mixedRun =
        (Manager.empty 0).answers Manager.ite mixedRun := by
  have hPermits :
      (Manager.empty 0).Permits Manager.ite mixedRun := by
    decide_cbv
  rcases
      answers_transparent
        (rfl : Manager.create? 0 = some (Manager.empty 0))
        (rfl : Manager.create? 2 = some (Manager.empty 2))
        mixedRun hPermits with
    ⟨hSized, hPlain, _⟩
  exact ⟨hPermits, hSized.answers_eq, hPlain.answers_eq⟩

end Manager

end Diagram

end Variability
