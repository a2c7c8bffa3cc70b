import Variability.Proofs.Condition.Expansion
import Variability.Proofs.Macro.Values

/-
  The last directive about a macro counts.

  A table of definitions is kept while directives come and while
  other conditions are built and freed. It has one decision for
  every directive that is in force under some assignment, in the
  order of the directives, and the condition of a decision holds
  exactly where its directive is the last that held. All that a
  table is asked for follows from this.

  Main declarations:
    * `Ruling`, `InForce`
    * `Definitions.Kept`
    * `Definitions.Follows`
    * `Definitions.Kept.last_ruling_counts`
-/

namespace Variability

------------------------------------------------------------
-- Rulings
------------------------------------------------------------

/- What a directive said about a macro, and where it held then. -/
structure Ruling where
  name : String
  /- None where the macro was undefined. -/
  definition : Option Macro
  holds : (Nat → Bool) → Bool

/- Whether a ruling is about a macro and holds at an assignment. -/
def Ruling.Applies
    (r : Ruling)
    (name : String)
    (a : Nat → Bool) : Prop :=
  r.name = name ∧ r.holds a = true

/-
  The ruling at a place of a history is the last one about a
  macro that holds at an assignment.
-/
def InForce
    (history : List Ruling)
    (name : String)
    (a : Nat → Bool)
    (i : Nat) : Prop :=
  (∃ r, history[i]? = some r ∧ r.Applies name a) ∧
    ∀ j r, i < j → history[j]? = some r → ¬ r.Applies name a

variable {history : List Ruling}
variable {r : Ruling}
variable {name name' : String}
variable {a : Nat → Bool}
variable {i j : Nat}

namespace InForce

theorem lt_length
    (hForce : InForce history name a i) :
    i < history.length := by
  rcases hForce.1 with ⟨r, hr, -⟩
  exact (List.getElem?_eq_some_iff.mp hr).1

/- At one assignment no two rulings are in force. -/
theorem unique
    (hi : InForce history name a i)
    (hj : InForce history name a j) :
    i = j := by
  rcases hi.1 with ⟨r, hr, hApplies⟩
  rcases hj.1 with ⟨r', hr', hApplies'⟩
  rcases Nat.lt_trichotomy i j with hLt | hEq | hLt
  · exact absurd hApplies' (hi.2 j r' hLt hr')
  · exact hEq
  · exact absurd hApplies (hj.2 i r hLt hr)

/- A new ruling is in force where it applies. -/
theorem concat_length_iff :
    InForce (history ++ [r]) name a history.length ↔
      r.Applies name a := by
  unfold InForce
  rw [List.getElem?_concat_length]
  constructor
  · rintro ⟨⟨r', hr', hApplies⟩, -⟩
    rw [Option.some.injEq] at hr'
    exact hr' ▸ hApplies
  · intro hApplies
    refine ⟨⟨r, rfl, hApplies⟩, ?_⟩
    intro j r' hLt hr'
    have hBound := (List.getElem?_eq_some_iff.mp hr').1
    rw [List.length_append, List.length_singleton] at hBound
    omega

/- An old ruling stays in force where a new one does not apply. -/
theorem concat_iff
    (hLt : i < history.length) :
    InForce (history ++ [r]) name a i ↔
      InForce history name a i ∧ ¬ r.Applies name a := by
  unfold InForce
  rw [List.getElem?_append_left hLt]
  constructor
  · rintro ⟨hHere, hLater⟩
    refine ⟨⟨hHere, ?_⟩, ?_⟩
    · intro j r' hj hr'
      have hBound := (List.getElem?_eq_some_iff.mp hr').1
      apply hLater j r' hj
      rw [List.getElem?_append_left hBound, hr']
    · exact
        hLater history.length r hLt
          List.getElem?_concat_length
  · rintro ⟨⟨hHere, hLater⟩, hNew⟩
    refine ⟨hHere, ?_⟩
    intro j r' hj hr'
    rcases Nat.lt_or_ge j history.length with hOld | hEnd
    · rw [List.getElem?_append_left hOld] at hr'
      exact hLater j r' hj hr'
    · rw [List.getElem?_append_right hEnd] at hr'
      rw [← List.mem_singleton.mp (List.mem_of_getElem? hr')]
        at hNew
      exact hNew

/- A ruling about another macro changes nothing. -/
theorem concat_of_ne
    (hNe : r.name ≠ name) :
    InForce (history ++ [r]) name a i ↔
      InForce history name a i := by
  have hNot : ¬ r.Applies name a := fun h => hNe h.1
  constructor
  · intro hForce
    have hBound := hForce.lt_length
    rw [List.length_append, List.length_singleton] at hBound
    rcases Nat.lt_succ_iff_lt_or_eq.mp hBound with hLt | rfl
    · exact ((concat_iff hLt).mp hForce).1
    · exact absurd (concat_length_iff.mp hForce) hNot
  · exact fun hForce =>
      (concat_iff hForce.lt_length).mpr ⟨hForce, hNot⟩

end InForce

------------------------------------------------------------
-- Kept Tables
------------------------------------------------------------

namespace Definitions

variable {s : Space}
variable {table : Definitions}
variable {c : Condition}
variable {d : Decision}

/-
  A table with the history of its rulings. Between two of them
  conditions of any kind are built, and freed as long as the
  table does not need them; a ruling holds somewhere.
-/
inductive Kept :
    Space → List Ruling → Definitions → Prop where
  | start {s : Space}
      (hReached : s.Reached) :
      Kept s [] []
  | ask {s : Space} {history : List Ruling}
      {table : Definitions}
      (hKept : Kept s history table)
      (atom : Atom) :
      Kept (Condition.variableOf atom s).2 history table
  | construct {s : Space} {history : List Ruling}
      {table : Definitions}
      (hKept : Kept s history table)
      (construction : Diagram.Construction)
      (hAllowed : construction.Allowed s.manager) :
      Kept
        { s with manager := (construction.run s.manager).2 }
        history table
  | collect {s : Space} {history : List Ruling}
      {table : Definitions}
      (hKept : Kept s history table)
      (roots : List Condition)
      (hRoots : ∀ c ∈ roots, s.manager.IsLive c)
      (hTable : ∀ c ∈ table.roots, c ∈ roots) :
      Kept (s.collectGarbage roots) history table
  | record {s : Space} {history : List Ruling}
      {table : Definitions}
      (hKept : Kept s history table)
      (name : String)
      (definition : Option Macro)
      (c : Condition)
      (hLive : s.manager.IsLive c)
      (hSomewhere : c ≠ .zero) :
      Kept (table.record name definition c s).2
        (history ++ [⟨name, definition, s.manager.eval c⟩])
        (table.record name definition c s).1

/-
  A decision is that of the ruling at a place of a history: its
  condition holds exactly where this ruling is in force.
-/
structure IsOf
    (s : Space)
    (history : List Ruling)
    (name : String)
    (i : Nat)
    (d : Decision) : Prop where
  isLive : s.manager.IsLive d.condition
  definition_eq :
    ∃ r, history[i]? = some r ∧ r.definition = d.definition
  eval_iff :
    ∀ a, s.manager.eval d.condition a = true ↔
      InForce history name a i

/-
  The decisions of a table are those of the rulings that are in
  force somewhere, in their order.
-/
structure Follows
    (s : Space)
    (history : List Ruling)
    (table : Definitions) : Prop where
  sound : s.Sound
  decides :
    ∀ name, ∃ places : List Nat,
      places.Pairwise (· < ·) ∧
        (∀ i, i ∈ places ↔ ∃ a, InForce history name a i) ∧
        List.Forall₂ (IsOf s history name) places
          (table.decisions name)

/- The conditions of the decisions are what a table needs. -/
theorem condition_mem_roots
    (hd : d ∈ table.decisions name) :
    d.condition ∈ table.roots := by
  unfold decisions at hd
  cases hFound : Dict.find? name table with
  | none => simp [hFound] at hd
  | some ds =>
      rw [hFound] at hd
      rcases Dict.mem_of_find?_eq hFound with ⟨key, -, hEntry⟩
      exact
        List.mem_flatMap.mpr
          ⟨(key, ds), hEntry, List.mem_map_of_mem hd⟩

namespace IsOf

/- A decision that is no ruling's any more has the condition zero. -/
theorem ne_zero_iff
    (hOf : IsOf s history name i d)
    (hSound : s.Sound) :
    d.condition ≠ .zero ↔ ∃ a, InForce history name a i := by
  constructor
  · intro hNe
    by_contra hNone
    apply hNe
    apply
      hSound.manager.reduced.eq_of_eval_eq hOf.isLive
        hSound.manager.reduced.isLive_zero
    intro a
    rw [Diagram.Manager.eval_zero, ← Bool.not_eq_true,
      hOf.eval_iff a]
    exact fun hForce => hNone ⟨a, hForce⟩
  · rintro ⟨a, hForce⟩ hZero
    rw [← hOf.eval_iff a, hZero,
      Diagram.Manager.eval_zero] at hForce
    cases hForce

/- A restricted decision is that of its ruling in the longer history. -/
theorem restricted
    {d' : Decision}
    (hOf : IsOf s history r.name i d)
    (hLt : i < history.length)
    (hHolds : ∀ a, s.manager.eval c a = r.holds a)
    (hSound : s.Sound)
    (hRestricted : Restricted c s d d') :
    IsOf s (history ++ [r]) r.name i d' where
  isLive := hRestricted.means.isLive
  definition_eq := by
    rcases hOf.definition_eq with ⟨old, hOld, hEq⟩
    rw [List.getElem?_append_left hLt,
      hRestricted.definition_eq]
    exact ⟨old, hOld, hEq⟩
  eval_iff := by
    intro a
    rw [hRestricted.means.eval_self hSound, hHolds,
      InForce.concat_iff hLt, ← hOf.eval_iff a,
      Bool.and_eq_true, Bool.not_eq_true']
    unfold Ruling.Applies
    simp

end IsOf

/- Each decision of a list, restricted, is that of its ruling. -/
theorem forall₂_isOf_restricted
    {places : List Nat}
    {ds ds' : List Decision}
    (hEach :
      List.Forall₂ (IsOf s history r.name) places ds)
    (hBound : ∀ i ∈ places, i < history.length)
    (hHolds : ∀ a, s.manager.eval c a = r.holds a)
    (hSound : s.Sound)
    (hds : List.Forall₂ (Restricted c s) ds ds') :
    List.Forall₂ (IsOf s (history ++ [r]) r.name) places
      ds' := by
  induction hEach generalizing ds' with
  | nil =>
      cases hds
      exact .nil
  | cons hOf _ ih =>
      cases hds with
      | cons hFirst hRest =>
          refine .cons ?_ (ih ?_ hRest)
          · exact
              hOf.restricted (hBound _ List.mem_cons_self)
                hHolds hSound hFirst
          · exact fun i hi =>
              hBound i (List.mem_cons_of_mem _ hi)

namespace Follows

/- Every decision is that of a ruling that is in force somewhere. -/
theorem exists_isOf
    (hFollows : Follows s history table)
    (hd : d ∈ table.decisions name) :
    ∃ i, IsOf s history name i d ∧
      ∃ a, InForce history name a i := by
  rcases hFollows.decides name with
    ⟨places, -, hMem, hEach⟩
  rcases List.forall₂_iff_get.mp hEach with ⟨hLength, hOf⟩
  rcases List.mem_iff_get.mp hd with ⟨k, rfl⟩
  have hk : k < places.length := hLength.symm ▸ k.2
  exact
    ⟨places.get ⟨k, hk⟩, hOf k hk k.2,
      (hMem _).mp (List.get_mem _ _)⟩

/- Every ruling that is in force somewhere has its decision. -/
theorem exists_decision
    (hFollows : Follows s history table)
    (hForce : InForce history name a i) :
    ∃ d ∈ table.decisions name, IsOf s history name i d := by
  rcases hFollows.decides name with
    ⟨places, -, hMem, hEach⟩
  rcases List.forall₂_iff_get.mp hEach with ⟨hLength, hOf⟩
  rcases List.mem_iff_get.mp ((hMem i).mpr ⟨a, hForce⟩) with
    ⟨k, rfl⟩
  have hk : k < (table.decisions name).length := hLength ▸ k.2
  exact ⟨_, List.get_mem _ _, hOf k k.2 hk⟩

theorem isLive
    (hFollows : Follows s history table) :
    table.IsLive s := by
  intro name d hd
  rcases hFollows.exists_isOf hd with ⟨i, hOf, -⟩
  exact hOf.isLive

/- What keeps the functions of the decisions keeps the table right. -/
theorem of_eval_eq
    {s' : Space}
    (hFollows : Follows s history table)
    (hSound : s'.Sound)
    (hLive : table.IsLive s')
    (hEval :
      ∀ name, ∀ d ∈ table.decisions name, ∀ a,
        s'.manager.eval d.condition a =
          s.manager.eval d.condition a) :
    Follows s' history table where
  sound := hSound
  decides := by
    intro name
    rcases hFollows.decides name with
      ⟨places, hSorted, hMem, hEach⟩
    refine ⟨places, hSorted, hMem, ?_⟩
    rw [List.forall₂_iff_get] at hEach ⊢
    refine ⟨hEach.1, ?_⟩
    intro k hk hk'
    have hOf := hEach.2 k hk hk'
    refine
      ⟨hLive name _ (List.get_mem _ _), hOf.definition_eq,
        fun a => ?_⟩
    rw [hEval name _ (List.get_mem _ _)]
    exact hOf.eval_iff a

theorem grows
    {s' : Space}
    (hFollows : Follows s history table)
    (hSound : s'.Sound)
    (hGrows : s.Grows s') :
    Follows s' history table :=
  hFollows.of_eval_eq hSound (hFollows.isLive.grows hGrows)
    fun name d hd _ =>
      hGrows.eval_eq hFollows.sound hSound
        (hFollows.isLive name d hd)

/- A collection that spares the table leaves it right. -/
theorem collect
    {roots : List Condition}
    (hFollows : Follows s history table)
    (hRoots : ∀ c ∈ roots, s.manager.IsLive c)
    (hTable : ∀ c ∈ table.roots, c ∈ roots) :
    Follows (s.collectGarbage roots) history table := by
  have hCollects :=
    hFollows.sound.manager.collectGarbage hRoots
  have hLive : table.IsLive (s.collectGarbage roots) :=
    fun name d hd =>
      hCollects.isLive_root hRoots
        (hTable _ (condition_mem_roots hd))
  exact
    hFollows.of_eval_eq
      ⟨hCollects.sound, hFollows.sound.nodup⟩ hLive
      fun name d hd _ =>
        hCollects.eval_eq hFollows.sound.manager.reduced
          (hLive name d hd)

/-
  A ruling in force somewhere keeps its place if it still is
  after a new one, which takes the last place.
-/
theorem decides_concat
    (hFollows : Follows s history table)
    (hLive : s.manager.IsLive c)
    (hSomewhere : c ≠ .zero)
    (hHolds : ∀ a, s.manager.eval c a = r.holds a)
    {ds : List Decision}
    (hds :
      List.Forall₂ (Restricted c s) (table.decisions r.name)
        ds) :
    ∃ places : List Nat,
      places.Pairwise (· < ·) ∧
        (∀ i, i ∈ places ↔
          ∃ a, InForce (history ++ [r]) r.name a i) ∧
        List.Forall₂ (IsOf s (history ++ [r]) r.name) places
          (ds.filter (·.condition ≠ .zero) ++
            [⟨c, r.definition⟩]) := by
  classical
  rcases hFollows.decides r.name with
    ⟨places, hSorted, hMem, hEach⟩
  have hBound : ∀ i ∈ places, i < history.length := by
    intro i hi
    rcases (hMem i).mp hi with ⟨a, hForce⟩
    exact hForce.lt_length
  have hNew : IsOf s (history ++ [r]) r.name history.length
      ⟨c, r.definition⟩ := by
    refine ⟨hLive, ⟨r, List.getElem?_concat_length, rfl⟩, ?_⟩
    intro a
    rw [InForce.concat_length_iff, hHolds]
    unfold Ruling.Applies
    simp
  have hOld :=
    forall₂_isOf_restricted hEach hBound hHolds hFollows.sound
      hds
  refine
    ⟨places.filter
        (fun i => ∃ a, InForce (history ++ [r]) r.name a i) ++
      [history.length], ?_, ?_, ?_⟩
  · rw [List.pairwise_append]
    refine
      ⟨hSorted.filter _, List.pairwise_singleton _ _, ?_⟩
    intro i hi j hj
    rw [List.mem_singleton.mp hj]
    exact hBound i (List.mem_of_mem_filter hi)
  · intro i
    rw [List.mem_append, List.mem_filter, List.mem_singleton,
      decide_eq_true_iff]
    constructor
    · rintro (⟨-, hSome⟩ | rfl)
      · exact hSome
      · exact (hNew.ne_zero_iff hFollows.sound).mp hSomewhere
    · rintro ⟨a, hForce⟩
      have hLt := hForce.lt_length
      rw [List.length_append, List.length_singleton] at hLt
      rcases Nat.lt_succ_iff_lt_or_eq.mp hLt with hLt | hEq
      · have hBefore := ((InForce.concat_iff hLt).mp hForce).1
        exact Or.inl ⟨(hMem i).mpr ⟨a, hBefore⟩, a, hForce⟩
      · exact Or.inr hEq
  · refine List.rel_append ?_ (.cons hNew .nil)
    refine List.rel_filter ?_ hOld
    intro i d hOf
    simpa only [decide_eq_true_iff] using
      (hOf.ne_zero_iff hFollows.sound).symm

/- By cases on whether the ruling is about the macro looked at. -/
theorem record
    (hFollows : Follows s history table)
    (name : String)
    (definition : Option Macro)
    (hLive : s.manager.IsLive c)
    (hSomewhere : c ≠ .zero) :
    Follows (table.record name definition c s).2
      (history ++ [⟨name, definition, s.manager.eval c⟩])
      (table.record name definition c s).1 := by
  rcases
    ensures_record_replaces hFollows.isLive hLive definition s
      hFollows.sound (.refl s) with
    ⟨hSound', hGrows, ds, hds, hDecisions⟩
  have hFollows' := hFollows.grows hSound' hGrows
  refine ⟨hSound', fun name' => ?_⟩
  rw [hDecisions]
  by_cases hName : name' = name
  · subst hName
    rw [if_pos rfl]
    exact
      hFollows'.decides_concat
        (r := ⟨name', definition, s.manager.eval c⟩)
        (hGrows.isLive hLive) hSomewhere
        (fun a => hGrows.eval_eq hFollows.sound hSound' hLive)
        hds
  · rw [if_neg hName]
    rcases hFollows'.decides name' with
      ⟨places, hSorted, hMem, hEach⟩
    have hSame {a : Nat → Bool} {i : Nat} :
        InForce
            (history ++ [⟨name, definition, s.manager.eval c⟩])
            name' a i ↔
          InForce history name' a i :=
      InForce.concat_of_ne (Ne.symm hName)
    refine ⟨places, hSorted, fun i => ?_, hEach.imp ?_⟩
    · simp only [hMem, hSame]
    · intro i d hOf
      rcases hOf.definition_eq with ⟨r, hr, hEq⟩
      refine ⟨hOf.isLive, ⟨r, ?_, hEq⟩, fun a => ?_⟩
      · rw [List.getElem?_append_left
          (List.getElem?_eq_some_iff.mp hr).1]
        exact hr
      · rw [hSame]
        exact hOf.eval_iff a

end Follows

/- The decisions of a kept table are those of its rulings. -/
theorem Kept.follows
    (hKept : Kept s history table) :
    Follows s history table := by
  induction hKept with
  | start hReached =>
      refine ⟨hReached.sound, fun name => ⟨[], .nil, ?_, .nil⟩⟩
      intro i
      simp [InForce]
  | ask _ atom ih =>
      rw [Space.variableOf_eq]
      exact ih.grows (ih.sound.withAtom atom)
        (Space.grows_withAtom _ atom)
  | construct _ construction hAllowed ih =>
      have hMade :=
        ih.sound.manager.makes_construction construction
          hAllowed
      exact ih.grows ⟨hMade.sound, ih.sound.nodup⟩
        ⟨hMade.keeps, List.prefix_refl _⟩
  | collect _ roots hRoots hTable ih =>
      exact ih.collect hRoots hTable
  | record _ name definition c hLive hSomewhere ih =>
      exact ih.record name definition hLive hSomewhere

------------------------------------------------------------
-- Answers
------------------------------------------------------------

namespace Follows

/- Two decisions never hold at once. -/
theorem disjoint
    (hFollows : Follows s history table)
    (name : String) :
    (table.decisions name).Pairwise fun d d' =>
      ∀ a, (s.manager.eval d.condition a &&
        s.manager.eval d'.condition a) = false := by
  rcases hFollows.decides name with
    ⟨places, hSorted, -, hEach⟩
  rcases List.forall₂_iff_get.mp hEach with ⟨hLength, hOf⟩
  rw [List.pairwise_iff_get]
  intro k l hLt a
  have hk : k < places.length := hLength.symm ▸ k.2
  have hl : l < places.length := hLength.symm ▸ l.2
  have hPlaces :=
    List.pairwise_iff_get.mp hSorted ⟨k, hk⟩ ⟨l, hl⟩ hLt
  rw [Bool.and_eq_false_iff, ← Bool.not_eq_true,
    ← Bool.not_eq_true, (hOf k hk k.2).eval_iff,
    (hOf l hl l.2).eval_iff]
  by_contra hBoth
  push Not at hBoth
  exact Nat.ne_of_lt hPlaces (hBoth.1.unique hBoth.2)

/- A decision of some kind holds where such a ruling is in force. -/
theorem holds_iff
    (hFollows : Follows s history table)
    (p : Option Macro → Bool) :
    holds s a (fun d => p d.definition)
        (table.decisions name) = true ↔
      ∃ i r, InForce history name a i ∧
        history[i]? = some r ∧ p r.definition = true := by
  rw [Definitions.holds_iff]
  constructor
  · rintro ⟨d, hd, hKind, hEval⟩
    rcases hFollows.exists_isOf hd with ⟨i, hOf, -⟩
    rcases hOf.definition_eq with ⟨r, hr, hEq⟩
    exact ⟨i, r, (hOf.eval_iff a).mp hEval, hr, hEq ▸ hKind⟩
  · rintro ⟨i, r, hForce, hr, hKind⟩
    rcases hFollows.exists_decision hForce with ⟨d, hd, hOf⟩
    rcases hOf.definition_eq with ⟨r', hr', hEq⟩
    rw [hr, Option.some.injEq] at hr'
    subst hr'
    exact ⟨d, hd, hEq ▸ hKind, (hOf.eval_iff a).mpr hForce⟩

/- The status of a macro is what the ruling in force says. -/
theorem status_eq
    (hFollows : Follows s history table)
    (hForce : InForce history name a i)
    (hr : history[i]? = some r) :
    status s a table name =
      Status.ofDefinition r.definition := by
  have hDecided :
      holds s a (fun _ => true) (table.decisions name) =
        true :=
    (hFollows.holds_iff fun _ => true).mpr
      ⟨i, r, hForce, hr, rfl⟩
  have hDefined :
      holds s a (·.definition.isSome)
          (table.decisions name) =
        r.definition.isSome := by
    rw [Bool.eq_iff_iff, hFollows.holds_iff Option.isSome]
    constructor
    · rintro ⟨j, r', hForce', hr', hSome⟩
      rw [hForce'.unique hForce, hr, Option.some.injEq] at hr'
      exact hr' ▸ hSome
    · exact fun hSome => ⟨i, r, hForce, hr, hSome⟩
  unfold status Status.ofDefinition
  rw [hDefined, hDecided]
  rfl

/- Where no ruling is in force nothing is decided. -/
theorem status_eq_undecided
    (hFollows : Follows s history table)
    (hNone : ∀ i, ¬ InForce history name a i) :
    status s a table name = .undecided := by
  have hHolds (p : Option Macro → Bool) :
      holds s a (fun d => p d.definition)
          (table.decisions name) =
        false := by
    rw [← Bool.not_eq_true, hFollows.holds_iff]
    rintro ⟨i, r, hForce, -⟩
    exact hNone i hForce
  unfold status
  rw [hHolds Option.isSome, hHolds fun _ => true]
  rfl

/- A ruling in force everywhere has the only decision. -/
theorem decisions_eq_singleton
    (hFollows : Follows s history table)
    (hForce : ∀ a, InForce history name a i) :
    ∃ d, table.decisions name = [d] ∧ d.condition = .one ∧
      IsOf s history name i d := by
  rcases hFollows.decides name with
    ⟨places, hSorted, hMem, hEach⟩
  have hPlaces : places = [i] := by
    have hAll : ∀ j ∈ places, j = i := by
      intro j hj
      rcases (hMem j).mp hj with ⟨a, hOther⟩
      exact hOther.unique (hForce a)
    have hHere : i ∈ places :=
      (hMem i).mpr ⟨fun _ => false, hForce _⟩
    match places with
    | [] => cases hHere
    | [j] => rw [hAll j List.mem_cons_self]
    | j :: k :: rest =>
        have hLt :=
          List.rel_of_pairwise_cons hSorted
            List.mem_cons_self
        rw [hAll j List.mem_cons_self,
          hAll k (by simp)] at hLt
        exact absurd hLt (Nat.lt_irrefl i)
  subst hPlaces
  rcases List.forall₂_cons_left_iff.mp hEach with
    ⟨d, rest, hOf, hRest, hDecisions⟩
  rw [List.forall₂_nil_left_iff.mp hRest] at hDecisions
  refine ⟨d, hDecisions, ?_, hOf⟩
  apply
    hFollows.sound.manager.reduced.eq_of_eval_eq hOf.isLive
      hFollows.sound.manager.reduced.isLive_one
  intro a
  rw [Diagram.Manager.eval_one, (hOf.eval_iff a).mpr (hForce a)]

/- A macro has one definition everywhere if one ruling is always in force. -/
theorem unconditional_eq_some_iff
    (hFollows : Follows s history table)
    (m : Macro) :
    table.unconditional name = some m ↔
      ∃ i r, history[i]? = some r ∧ r.definition = some m ∧
        ∀ a, InForce history name a i := by
  constructor
  · intro hSome
    unfold unconditional at hSome
    split at hSome
    · rename_i c m' hFound
      rw [Option.ite_none_right_eq_some,
        Option.some.injEq] at hSome
      rcases hSome with ⟨rfl, rfl⟩
      have hd : ⟨.one, some m'⟩ ∈ table.decisions name := by
        unfold decisions
        rw [hFound]
        exact List.mem_singleton_self _
      rcases hFollows.exists_isOf hd with ⟨i, hOf, -⟩
      rcases hOf.definition_eq with ⟨r, hr, hEq⟩
      refine ⟨i, r, hr, hEq, fun a => ?_⟩
      exact (hOf.eval_iff a).mp (s.manager.eval_one a)
    · cases hSome
  · rintro ⟨i, r, hr, hDefinition, hForce⟩
    rcases hFollows.decisions_eq_singleton hForce with
      ⟨⟨c, definition⟩, hDecisions, rfl, hOf⟩
    rcases hOf.definition_eq with ⟨r', hr', hEq⟩
    rw [hr, Option.some.injEq] at hr'
    subst hr'
    have hFound :
        Dict.find? name table = some [⟨.one, some m⟩] := by
      unfold decisions at hDecisions
      cases hFind : Dict.find? name table with
      | none => simp [hFind] at hDecisions
      | some ds =>
          rw [hFind] at hDecisions
          change r.definition = definition at hEq
          rw [← hDefinition, hEq]
          exact congrArg some hDecisions
    unfold unconditional
    simp [hFound]

end Follows

/- The atom of a macro is asked for unless the macro is decided. -/
theorem ensures_whetherDefined_mem_atoms
    (hTable : IsLive s table)
    (name : String) :
    InSpace.Ensures s (table.whetherDefined name) fun s' _ =>
      ∀ a, status s' a table name = .undecided →
        .defined name ∈ s'.atoms := by
  unfold whetherDefined
  apply
    (ensures_decided
      (decisions_isLive hTable name)).bind
  intro s₁ isDefined _ hGrows hDefined
  apply
    (ensures_decided fun d hd =>
      (hTable.grows hGrows) name d hd).bind
  intro s₂ isDecided _ hGrows₂ hDecided
  by_cases hOne : isDecided = .one
  · rw [if_pos hOne]
    apply InSpace.Ensures.pure
    intro s' hSound' hGrows' a hUndecided
    have hAll := hDecided.eval_eq s' hSound' hGrows' a
    rw [hOne, Diagram.Manager.eval_one] at hAll
    unfold status at hUndecided
    rw [← hAll] at hUndecided
    split at hUndecided <;> cases hUndecided
  · rw [if_neg hOne]
    have hAtom :
        InSpace.Ensures s₂ (Condition.defined name)
          fun s' c => s'.manager.IsLive c ∧
            .defined name ∈ s'.atoms := by
      intro s' hSound' hGrows'
      have hAsked :=
        Condition.ensures_atom (.defined name) s'
          hSound' hGrows'
      exact
        ⟨hAsked.1, hAsked.2.1, hAsked.2.2.isLive,
          Coupling.mem_atoms_atom s' _⟩
    apply hAtom.bind
    rintro s₃ free _ hGrows₃ ⟨hFree, hMem⟩
    apply
      (Condition.ensures_and (hDecided.grows hGrows₃).neg
        (Space.means_self hFree)).bind
    intro s₄ both _ hGrows₄ hBoth
    have hDefined' :=
      hDefined.grows (hGrows₂.trans (hGrows₃.trans hGrows₄))
    apply (Condition.ensures_or hDefined' hBoth).imp
    intro s₅ c _ hGrows₅ _ a _
    exact (hGrows₄.trans hGrows₅).atoms.subset hMem

/-
  What a table answers about a macro, by the rulings that are in
  force. Conditions are compared in the space of each answer.
-/
structure Answers
    (s : Space)
    (history : List Ruling)
    (table : Definitions)
    (name : String) : Prop where
  ne_zero : ∀ d ∈ table.decisions name, d.condition ≠ .zero
  disjoint :
    (table.decisions name).Pairwise fun d d' =>
      ∀ a, (s.manager.eval d.condition a &&
        s.manager.eval d'.condition a) = false
  /- A decision holds where its ruling is the last that applies. -/
  exists_ruling :
    ∀ d ∈ table.decisions name,
      ∃ i, IsOf s history name i d
  exists_decision :
    ∀ a i, InForce history name a i →
      ∃ d ∈ table.decisions name, IsOf s history name i d
  inForce :
    ∃ definitions undecided s',
      table.inForce name s = ((definitions, undecided), s') ∧
        (∀ c m, (c, m) ∈ definitions ↔
          ⟨c, some m⟩ ∈ table.decisions name) ∧
        (∀ c m, (c, m) ∈ definitions →
          ∀ a, s'.manager.eval c a = s.manager.eval c a) ∧
        ∀ a, s'.manager.eval undecided a = true ↔
          ∀ i, ¬ InForce history name a i
  whetherDefined :
    ∃ c s', table.whetherDefined name s = (c, s') ∧
      (∀ a i r, InForce history name a i →
        history[i]? = some r →
          s'.manager.eval c a = r.definition.isSome) ∧
      ∀ a, (∀ i, ¬ InForce history name a i) →
        .defined name ∈ s'.atoms ∧
          s'.manager.eval c a =
            s'.atomValue a (.defined name)
  unconditional :
    ∀ m, table.unconditional name = some m ↔
      ∃ i r, history[i]? = some r ∧ r.definition = some m ∧
        ∀ a, InForce history name a i

/-
  The last ruling counts: whatever comes between, all answers of
  a table are those of the rulings in force.
-/
theorem Kept.last_ruling_counts
    (hKept : Kept s history table)
    (name : String) :
    Answers s history table name := by
  have hFollows := hKept.follows
  have hLive := hFollows.isLive
  constructor
  case ne_zero =>
    intro d hd
    rcases hFollows.exists_isOf hd with ⟨i, hOf, hSome⟩
    exact (hOf.ne_zero_iff hFollows.sound).mpr hSome
  case disjoint => exact hFollows.disjoint name
  case exists_ruling =>
    intro d hd
    rcases hFollows.exists_isOf hd with ⟨i, hOf, -⟩
    exact ⟨i, hOf⟩
  case exists_decision =>
    exact fun _ _ => hFollows.exists_decision
  case inForce =>
    rcases
      ensures_inForce_means hLive name s hFollows.sound
        (.refl s) with
      ⟨hSound', hGrows, hEntries, hUndecided⟩
    refine
      ⟨(table.inForce name s).1.1, (table.inForce name s).1.2,
        (table.inForce name s).2, rfl, fun c m => ?_, ?_,
        fun a => ?_⟩
    · rw [hEntries, mem_entries_iff]
    · intro c m hMem a
      rw [hEntries, mem_entries_iff] at hMem
      exact
        hGrows.eval_eq hFollows.sound hSound'
          (hLive name _ hMem)
    · have hFollows' := hFollows.grows hSound' hGrows
      rw [hUndecided.eval_self hSound', Bool.not_eq_true',
        ← Bool.not_eq_true, hFollows'.holds_iff fun _ => true]
      constructor
      · intro hNone i hForce
        rcases hForce.1 with ⟨r, hr, -⟩
        exact hNone ⟨i, r, hForce, hr, rfl⟩
      · rintro hNone ⟨i, r, hForce, -⟩
        exact hNone i hForce
  case whetherDefined =>
    rcases
      ensures_whetherDefined hLive name s hFollows.sound
        (.refl s) with
      ⟨hSound', hGrows, hMeans⟩
    have hAtoms :=
      (ensures_whetherDefined_mem_atoms hLive name s
        hFollows.sound (.refl s)).2.2
    have hFollows' := hFollows.grows hSound' hGrows
    refine
      ⟨(table.whetherDefined name s).1,
        (table.whetherDefined name s).2, rfl,
        fun a i r hForce hr => ?_, ?_⟩
    · rw [hMeans.eval_self hSound',
        hFollows'.status_eq hForce hr]
      unfold Status.ofDefinition
      cases r.definition <;> rfl
    · intro a hNone
      have hStatus := hFollows'.status_eq_undecided hNone
      refine ⟨hAtoms a hStatus, ?_⟩
      rw [hMeans.eval_self hSound', hStatus]
  case unconditional => exact hFollows.unconditional_eq_some_iff

/- A table in which a macro is defined as nothing. -/
def definedOnce : Definitions × Space :=
  Definitions.record [] "X" (some ⟨none, false, []⟩) .one
    .oneMacro

/- Then it is undefined where another macro is not defined. -/
def overruled : Definitions × Space :=
  definedOnce.1.record "X" none Space.notMacro definedOnce.2

def overrulings : List Ruling :=
  [ ⟨"X", some ⟨none, false, []⟩,
      Space.oneMacro.manager.eval .one⟩,
    ⟨"X", none, definedOnce.2.manager.eval Space.notMacro⟩ ]

theorem kept_overruled :
    Kept overruled.2 overrulings overruled.1 := by
  have hReached := Space.reached_oneMacro
  have hReduced := hReached.sound.manager.reduced
  rcases Space.eval_notMacro with ⟨hLive, hEval⟩
  have hFirst :=
    (Kept.start hReached).record "X"
      (some ⟨none, false, []⟩) .one hReduced.isLive_one
      (by decide)
  have hEmpty : IsLive Space.oneMacro [] :=
    fun _ _ hd => by cases hd
  have hRecord :
      InSpace.Ensures Space.oneMacro
        (record [] "X" (some ⟨none, false, []⟩) .one) _ :=
    ensures_record_replaces hEmpty hReduced.isLive_one _
  have hGrows :=
    (hRecord Space.oneMacro hReached.sound (.refl _)).2.1
  have hSomewhere : Space.notMacro ≠ .zero := by
    intro hZero
    have hTrue := hEval fun _ => false
    rw [hZero, Diagram.Manager.eval_zero] at hTrue
    cases hTrue
  exact
    hFirst.record "X" none Space.notMacro
      (hGrows.isLive hLive) hSomewhere

theorem last_ruling_counts_overruled :
    Kept overruled.2 overrulings overruled.1 ∧
      Answers overruled.2 overrulings overruled.1 "X" :=
  ⟨kept_overruled, kept_overruled.last_ruling_counts "X"⟩

end Definitions

end Variability
