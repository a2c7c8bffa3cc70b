import Variability.Composer

/-
  What is asked of a composer, and at which stages.

  A request at another stage is refused and changes nothing. One
  that fails leads to the stage `failed`, at which every request
  is refused. A composition is a row of steps, each of which
  starts at the stage that the one before it leads to.

  Main declarations:
    * `Composer.Request`
    * `Composer.Leads`
    * `Composer.Leads.bind`
    * `Composer.Request.leads_run`
    * `Composer.after`
-/

namespace Variability

namespace Composer

variable {α β : Type}
variable {c c' : Composer}
variable {w w' : Workspace}
variable {here mid there : Stage}
variable {starts : List Stage}
variable {f : Composing α}
variable {g : α → Composing β}

------------------------------------------------------------
-- Computations
------------------------------------------------------------

/- The rest begins with the composer that the first part leaves. -/
theorem bind_apply
    (f : Composing α)
    (g : α → Composing β)
    (c : Composer)
    (w : Workspace) :
    (f >>= g) c w =
      match f c w with
      | ((.ok a, c'), w') => g a c' w'
      | ((.error e, c'), w') => ((.error e, c'), w') := by
  change
    (match f c w with
      | ((a, c'), w') => ExceptT.bindCont g a c' w') =
      _
  rcases f c w with ⟨⟨_ | _, _⟩, _⟩ <;> rfl

/- A composition that succeeds has parts that do. -/
theorem bind_eq_ok
    {b : β}
    (hRun : (f >>= g) c w = ((.ok b, c'), w')) :
    ∃ a between v, f c w = ((.ok a, between), v) ∧
      g a between v = ((.ok b, c'), w') := by
  rw [bind_apply] at hRun
  rcases hFirst : f c w with ⟨⟨e | a, between⟩, v⟩
  · rw [hFirst] at hRun
    cases hRun
  · rw [hFirst] at hRun
    exact ⟨a, between, v, rfl, hRun⟩

/- What follows a part that succeeds. -/
theorem bind_of_ok
    {a : α}
    (hFirst : f c w = ((.ok a, c'), w'))
    (g : α → Composing β) :
    (f >>= g) c w = g a c' w' := by
  rw [bind_apply, hFirst]

/- What a step does, by its work. -/
theorem step_apply
    (work : Composer → Job (α × Composer))
    (hStage : c.stage = here)
    (w : Workspace) :
    step here there work c w =
      match work c w with
      | (.ok (a, done), w') =>
          ((.ok a, { done with stage := there }), w')
      | (.error e, w') =>
          ((.error e, { c with stage := .failed }), w') := by
  unfold step
  rw [if_neg (not_not_intro hStage)]
  rcases hWork : work c w with ⟨_ | ⟨a, done⟩, v⟩ <;>
    change StateT.bind (work c) _ w = _ <;>
    unfold StateT.bind <;>
    rw [hWork] <;> rfl

------------------------------------------------------------
-- Stages
------------------------------------------------------------

/-
  A computation that goes on from some stages only. If it cannot
  do what it should, the composer has failed.
-/
structure Leads
    (starts : List Stage)
    (here there : Stage)
    (f : Composing α) : Prop where
  refuses :
    ∀ c w, c.stage ∉ starts →
      f c w = ((.error (.stage c.stage here), c), w)
  fails :
    ∀ {c w e c' w'}, c.stage ∈ starts →
      f c w = ((.error e, c'), w') → c'.stage = .failed
  ends :
    ∀ {c w a c' w'}, c.stage ∈ starts →
      f c w = ((.ok a, c'), w') → c'.stage = there

theorem leads_step
    (here there : Stage)
    (work : Composer → Job (α × Composer)) :
    Leads [here] here there
      (step here there work) where
  refuses := by
    intro c w hStage
    have hOther : c.stage ≠ here :=
      fun hEq => hStage (List.mem_singleton.mpr hEq)
    unfold step
    rw [if_pos hOther]
    rfl
  fails := by
    intro c w e c' w' hStage hRun
    rw [step_apply work (List.mem_singleton.mp hStage)] at hRun
    split at hRun <;> cases hRun
    rfl
  ends := by
    intro c w a c' w' hStage hRun
    rw [step_apply work (List.mem_singleton.mp hStage)] at hRun
    split at hRun <;> cases hRun
    rfl

/-
  A row of steps is refused by its first one only: the others
  start where the one before them ends.
-/
theorem Leads.bind
    (hf : Leads starts here mid f)
    (hg : ∀ a, Leads [mid] mid there (g a)) :
    Leads starts here there (f >>= g) where
  refuses := by
    intro c w hStage
    rw [bind_apply, hf.refuses c w hStage]
  fails := by
    intro c w e c' w' hStage hRun
    rw [bind_apply] at hRun
    rcases hFirst : f c w with ⟨⟨e' | a, between⟩, v⟩
    · rw [hFirst] at hRun
      cases hRun
      exact hf.fails hStage hFirst
    · rw [hFirst] at hRun
      exact
        (hg a).fails
          (List.mem_singleton.mpr (hf.ends hStage hFirst))
          hRun
  ends := by
    intro c w b c' w' hStage hRun
    rcases bind_eq_ok hRun with
      ⟨a, between, v, hFirst, hRest⟩
    exact
      (hg a).ends
        (List.mem_singleton.mpr (hf.ends hStage hFirst))
        hRest

/- The answer of a row of steps may be put together afterwards. -/
theorem Leads.map
    (hf : Leads starts here there f)
    (h : α → β) :
    Leads starts here there
      (f >>= fun a => Pure.pure (h a)) where
  refuses := by
    intro c w hStage
    rw [bind_apply, hf.refuses c w hStage]
  fails := by
    intro c w e c' w' hStage hRun
    rw [bind_apply] at hRun
    rcases hFirst : f c w with ⟨⟨e' | a, between⟩, v⟩ <;>
      rw [hFirst] at hRun <;> cases hRun
    exact hf.fails hStage hFirst
  ends := by
    intro c w b c' w' hStage hRun
    rcases bind_eq_ok hRun with
      ⟨a, between, v, hFirst, hRest⟩
    cases hRest
    exact hf.ends hStage hFirst

------------------------------------------------------------
-- Compositions
------------------------------------------------------------

/- A composer that goes back to the copy of its sources. -/
def restarted (c : Composer) : Composer :=
  if c.stage = .composed then
    { c with stage := .sourceCopied, dependencies := [],
             generation := [] }
  else
    c

theorem restart_apply (c : Composer) (w : Workspace) :
    restart c w = ((.ok (), c.restarted), w) := by
  unfold restart restarted
  split <;> rfl

/- The first step of a composition, and what comes before it. -/
def begin (features : Features) : Composing Unit := do
  restart
  start
  writeConfig features

theorem begin_of_initialized
    (features : Features)
    (hStage : c.stage = .initialized)
    (w : Workspace) :
    begin features c w =
      (copySource >>= fun _ => writeConfig features) c w := by
  have hSame : c.restarted = c := by
    simp [restarted, hStage]
  have hStart : start c w = copySource c w := by
    unfold start
    rw [if_pos hStage]
  rw [begin, bind_apply, restart_apply, hSame]
  dsimp only
  rw [bind_apply, bind_apply, hStart]

theorem begin_of_ne
    (features : Features)
    (hStage : c.stage ≠ .initialized)
    (w : Workspace) :
    begin features c w =
      writeConfig features c.restarted w := by
  have hStill : c.restarted.stage ≠ .initialized := by
    unfold restarted
    split
    · simp
    · exact hStage
  have hStart :
      start c.restarted w = ((.ok (), c.restarted), w) := by
    unfold start
    rw [if_neg hStill]
    rfl
  rw [begin, bind_apply, restart_apply]
  dsimp only
  rw [bind_apply, hStart]

/- The stages from which a configuration can be composed. -/
def ready : List Stage :=
  [.initialized, .sourceCopied, .composed]

theorem leads_begin (features : Features) :
    Leads ready .sourceCopied .configWritten
      (begin features) := by
  have hFirst :
      Leads [.initialized] .initialized .sourceCopied
        copySource :=
    leads_step _ _ _
  have hWrite :
      Leads [.sourceCopied] .sourceCopied .configWritten
        (writeConfig features) :=
    leads_step _ _ _
  have hCopied :
      ∀ {c : Composer}, c.stage ∈ ready →
        c.stage ≠ .initialized →
        c.restarted.stage ∈ [Stage.sourceCopied] := by
    intro c hStage hOther
    unfold restarted
    split
    · simp
    · simp_all [ready]
  constructor
  case refuses =>
    intro c w hStage
    have hOther : c.stage ≠ .initialized :=
      fun hEq => hStage (by simp [ready, hEq])
    have hSame : c.restarted = c := by
      unfold restarted
      exact if_neg fun hEq => hStage (by simp [ready, hEq])
    rw [begin_of_ne features hOther, hSame]
    apply hWrite.refuses
    intro hMem
    exact hStage (by simp_all [ready])
  case fails =>
    intro c w e c' w' hStage hRun
    by_cases hEq : c.stage = .initialized
    · rw [begin_of_initialized features hEq] at hRun
      exact (hFirst.bind fun _ => hWrite).fails (by simp [hEq]) hRun
    · rw [begin_of_ne features hEq] at hRun
      exact hWrite.fails (hCopied hStage hEq) hRun
  case ends =>
    intro c w a c' w' hStage hRun
    by_cases hEq : c.stage = .initialized
    · rw [begin_of_initialized features hEq] at hRun
      exact (hFirst.bind fun _ => hWrite).ends (by simp [hEq]) hRun
    · rw [begin_of_ne features hEq] at hRun
      exact hWrite.ends (hCopied hStage hEq) hRun

/- All steps of a composition but the last one. -/
def approach
    (features : Features)
    (destination : Path) :
    Composing Unit := do
  begin features
  prepare
  resolve
  generate destination

theorem compose_eq
    (features : Features)
    (destination : Path) :
    compose features destination =
      (approach features destination >>= fun _ =>
        finish features destination) := by
  simp only [compose, approach, begin, bind_assoc]

theorem leads_approach
    (features : Features)
    (destination : Path) :
    Leads ready .sourceCopied .generated
      (approach features destination) :=
  (leads_begin features).bind fun _ =>
    (leads_step _ .prepared _).bind fun _ =>
      (leads_step _ .resolved _).bind fun _ =>
        leads_step _ _ _

------------------------------------------------------------
-- Requests
------------------------------------------------------------

/- What a composer can be asked for. -/
inductive Request where
  | copySource
  | writeConfig (features : Features)
  | prepare
  | resolve
  | generate (destination : Path)
  | finish (features : Features) (destination : Path)
  | compose (features : Features) (destination : Path)

namespace Request

/- What a request does; some answer with a composition. -/
def run : Request → Composing (Option Composition)
  | .copySource => do
      Composer.copySource
      return none
  | .writeConfig features => do
      Composer.writeConfig features
      return none
  | .prepare => do
      Composer.prepare
      return none
  | .resolve => do
      Composer.resolve
      return none
  | .generate destination => do
      Composer.generate destination
      return none
  | .finish features destination => do
      return some (← Composer.finish features destination)
  | .compose features destination => do
      return some (← Composer.compose features destination)

/- The stage that a refused request says it was expected at. -/
def expected : Request → Stage
  | .copySource => .initialized
  | .writeConfig _ => .sourceCopied
  | .prepare => .configWritten
  | .resolve => .prepared
  | .generate _ => .resolved
  | .finish _ _ => .generated
  | .compose _ _ => .sourceCopied

/- The stages at which a request is not refused. -/
def stages : Request → List Stage
  | .compose _ _ => ready
  | r => [r.expected]

/- The stage that a request leads to. -/
def next : Request → Stage
  | .copySource => .sourceCopied
  | .writeConfig _ => .configWritten
  | .prepare => .prepared
  | .resolve => .resolved
  | .generate _ => .generated
  | .finish _ _ => .composed
  | .compose _ _ => .composed

theorem leads_run (r : Request) :
    Leads r.stages r.expected r.next r.run := by
  cases r with
  | compose features destination =>
      have hCompose :
          Leads ready .sourceCopied .composed
            (Composer.compose features destination) := by
        rw [compose_eq]
        exact
          (leads_approach features destination).bind fun _ =>
            leads_step _ _ _
      exact hCompose.map some
  | _ => exact (leads_step _ _ _).map _

theorem failed_notMem_stages (r : Request) :
    Stage.failed ∉ r.stages := by
  cases r <;> simp [stages, expected, ready]

end Request

------------------------------------------------------------
-- Failures
------------------------------------------------------------

/- The composer that requests leave, each in some workspace. -/
def after (c : Composer) (rs : List (Request × Workspace)) :
    Composer :=
  rs.foldl (fun c (r, w) => (r.run c w).1.2) c

/- A composer that has failed is not changed by any request. -/
theorem after_of_failed
    (hFailed : c.stage = .failed)
    (rs : List (Request × Workspace)) :
    c.after rs = c := by
  induction rs with
  | nil => rfl
  | cons asked rs ih =>
      rcases asked with ⟨r, w⟩
      have hRefused :=
        r.leads_run.refuses c w (hFailed ▸ r.failed_notMem_stages)
      change after (r.run c w).1.2 rs = c
      rw [hRefused]
      exact ih

end Composer

end Variability
