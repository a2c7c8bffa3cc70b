import Variability.Job

/-
  Running computations that change a state and may fail.

  The rest of a computation begins where its first part ends, and
  is left out if that failed. So what every part does to the state
  the whole does, if it can be done one after the other.

  Main declarations:
    * `Job.bind_apply`
    * `Job.bind_eq_ok`
    * `Job.EndsIn`
    * `Job.Moves`
    * `Job.Moves.bind`
-/

namespace Variability

namespace Job

variable {ε σ α β : Type}
variable {f : ExceptT ε (StateM σ) α}
variable {g : α → ExceptT ε (StateM σ) β}
variable {s s' : σ}

------------------------------------------------------------
-- Parts
------------------------------------------------------------

/- The rest of a computation begins where its first part ends. -/
theorem bind_apply
    (f : ExceptT ε (StateM σ) α)
    (g : α → ExceptT ε (StateM σ) β)
    (s : σ) :
    (f >>= g) s =
      match f s with
      | (.ok a, s') => g a s'
      | (.error e, s') => (.error e, s') := by
  change
    (match f s with
      | (a, s') => ExceptT.bindCont g a s') =
      _
  rcases f s with ⟨_ | _, _⟩ <;> rfl

/- What is done about a failure begins where it happened. -/
theorem tryCatch_apply
    (f : ExceptT ε (StateM σ) α)
    (handle : ε → ExceptT ε (StateM σ) α)
    (s : σ) :
    (MonadExcept.tryCatch f handle) s =
      match f s with
      | (.ok a, s') => (.ok a, s')
      | (.error e, s') => handle e s' := by
  change
    (match f s with
      | (a, s') =>
        (match a with
          | .ok b => ExceptT.mk (Pure.pure (.ok b))
          | .error e => handle e :
          ExceptT ε (StateM σ) α) s') =
      _
  rcases f s with ⟨_ | _, _⟩ <;> rfl

/- What a computation gives can be put together afterwards. -/
theorem fst_bind_pure
    (f : ExceptT ε (StateM σ) α)
    (h : α → β)
    (s : σ) :
    ((f >>= fun a => pure (h a)) s).1 = (f s).1.map h := by
  rw [bind_apply]
  rcases f s with ⟨_ | _, _⟩ <;> rfl

/- A computation that succeeds has parts that do. -/
theorem bind_eq_ok
    {b : β}
    (hRun : (f >>= g) s = (.ok b, s')) :
    ∃ a between, f s = (.ok a, between) ∧
      g a between = (.ok b, s') := by
  rw [bind_apply] at hRun
  rcases hFirst : f s with ⟨e | a, between⟩
  · rw [hFirst] at hRun
    cases hRun
  · rw [hFirst] at hRun
    exact ⟨a, between, rfl, hRun⟩

/- What follows a part that succeeds. -/
theorem bind_of_ok
    {a : α}
    (hFirst : f s = (.ok a, s'))
    (g : α → ExceptT ε (StateM σ) β) :
    (f >>= g) s = g a s' := by
  rw [bind_apply, hFirst]

/- The state that is asked for is the one that is there. -/
theorem get_bind_apply
    (g : σ → ExceptT ε (StateM σ) β)
    (s : σ) :
    (get >>= g) s = g s s :=
  rfl

theorem check_apply
    {w : Workspace}
    (hActive : w.cancelled = false) :
    Job.check w = (.ok (), w) := by
  rcases w with ⟨_, _, _, cancelled, _, _⟩
  cases hActive
  rfl

theorem check_of_cancelled
    {w : Workspace}
    (hCancelled : w.cancelled = true) :
    Job.check w = (.error .interrupted, w) := by
  rcases w with ⟨_, _, _, cancelled, _, _⟩
  cases hCancelled
  rfl

theorem check_eq_ok
    {w w' : Workspace}
    (hRun : Job.check w = (.ok (), w')) :
    w' = w := by
  rcases bind_eq_ok hRun with ⟨now, between, hGet, hRest⟩
  cases hGet
  split at hRest <;> cases hRest
  rfl

/- Looking at files changes nothing. -/
theorem look_eq_ok
    {p : Path}
    {look : FileTree → Except FileError α}
    {a : α}
    {w w' : Workspace}
    (hRun : Job.look p look w = (.ok a, w')) :
    look w.files = .ok a ∧ w' = w := by
  rcases bind_eq_ok hRun with ⟨now, between, hGet, hRest⟩
  cases hGet
  cases hLook : look w.files with
  | error e =>
      rw [hLook] at hRest
      cases hRest
  | ok found =>
      rw [hLook] at hRest
      cases hRest
      exact ⟨rfl, rfl⟩

theorem look_of_ok
    {p : Path}
    {look : FileTree → Except FileError α}
    {a : α}
    {w : Workspace}
    (hLook : look w.files = .ok a) :
    Job.look p look w = (.ok a, w) := by
  rw [Job.look, get_bind_apply, hLook]
  rfl

/- Changing files changes nothing else. -/
theorem edit_eq_ok
    {p : Path}
    {change : InTree α}
    {a : α}
    {w w' : Workspace}
    (hRun : Job.edit p change w = (.ok a, w')) :
    change w.files = (.ok a, w'.files) ∧
      w' = { w with files := w'.files } := by
  rw [Job.edit] at hRun
  rcases hChange : change w.files with ⟨e | found, files⟩
  · rw [hChange] at hRun
    cases hRun
  · rw [hChange] at hRun
    cases hRun
    exact ⟨rfl, rfl⟩

/- A program that is found runs, and does to the files what it does. -/
theorem run_of_programOf
    {w : Workspace}
    {c : Call}
    {program : Program}
    (hActive : w.cancelled = false)
    (hProgram : Job.programOf w c = .ok program) :
    Job.run c w =
      (.ok (.ofOutcome (program c w.files).1),
        { w with
          files := (program c w.files).2
          calls := c :: w.calls }) := by
  rw [Job.run, bind_of_ok (check_apply hActive), get_bind_apply,
    hProgram]
  rfl

theorem runChecked_of_programOf
    {w : Workspace}
    {c : Call}
    {program : Program}
    (hActive : w.cancelled = false)
    (hProgram : Job.programOf w c = .ok program)
    (hCode : (program c w.files).1.exitCode = some 0) :
    Job.runChecked c w =
      (.ok (.ofOutcome (program c w.files).1),
        { w with
          files := (program c w.files).2
          calls := c :: w.calls }) := by
  have hSucceeded :
      (Report.ofOutcome (program c w.files).1).succeeded = true := by
    rw [Report.succeeded, Report.ofOutcome, hCode]
    rfl
  rw [Job.runChecked,
    bind_of_ok (run_of_programOf hActive hProgram),
    if_pos hSucceeded]
  rfl

------------------------------------------------------------
-- Ends
------------------------------------------------------------

/- A run ends well in a certain state, or it fails for a reason. -/
inductive EndsIn
    (after : α → σ → Prop)
    (reason : Prop) :
    Except ε α × σ → Prop where
  | ok {a : α} {s : σ} (hAfter : after a s) :
      EndsIn after reason (.ok a, s)
  | error {e : ε} {s : σ} (hReason : reason) :
      EndsIn after reason (.error e, s)

namespace EndsIn

variable {result : Except ε α × σ}
variable {after after' : α → σ → Prop}
variable {reason reason' : Prop}

theorem imp
    (hEnds : EndsIn after reason result)
    (hAfter : ∀ a s, after a s → after' a s) :
    EndsIn after' reason result := by
  cases hEnds with
  | ok hHere => exact .ok (hAfter _ _ hHere)
  | error hReason => exact .error hReason

theorem because
    (hEnds : EndsIn after reason result)
    (hReason : reason → reason') :
    EndsIn after reason' result := by
  cases hEnds with
  | ok hHere => exact .ok hHere
  | error hHere => exact .error (hReason hHere)

/- Without a reason to fail a run ends well. -/
theorem exists_eq_ok
    (hEnds : EndsIn after reason result)
    (hNone : ¬ reason) :
    ∃ a s, result = (.ok a, s) ∧ after a s := by
  cases hEnds with
  | ok hAfter => exact ⟨_, _, rfl, hAfter⟩
  | error hReason => exact absurd hReason hNone

theorem of_eq_ok
    {a : α}
    {s : σ}
    (hEnds : EndsIn after reason result)
    (hResult : result = (.ok a, s)) :
    after a s := by
  subst hResult
  cases hEnds with
  | ok hAfter => exact hAfter

/- A run ends somehow. -/
theorem of_all
    (result : Except ε α × σ)
    (hAfter : ∀ a s, after a s)
    (hReason : reason) :
    EndsIn after reason result := by
  rcases result with ⟨e | a, s⟩
  · exact .error hReason
  · exact .ok (hAfter a s)

/- The rest ends well where the first part does. -/
theorem bind
    {after : β → σ → Prop}
    (hEnds :
      EndsIn (fun a s' => EndsIn after reason (g a s')) reason
        (f s)) :
    EndsIn after reason ((f >>= g) s) := by
  rw [bind_apply]
  generalize f s = first at hEnds ⊢
  cases hEnds with
  | ok hRest => exact hRest
  | error hReason => exact .error hReason

/- Looking at the files ends where it began. -/
theorem look
    {p : Path}
    {look : FileTree → Except FileError α}
    {w : Workspace}
    {after : α → Workspace → Prop}
    (hAfter : ∀ a, look w.files = .ok a → after a w)
    (hReason : ∀ e, look w.files = .error e → reason) :
    EndsIn after reason (Job.look p look w) := by
  rw [Job.look, get_bind_apply]
  cases hLook : look w.files with
  | ok a => exact .ok (hAfter a hLook)
  | error e => exact .error (hReason e hLook)

/- A change of the files ends where the files do. -/
theorem edit
    {p : Path}
    {change : InTree α}
    {w : Workspace}
    {after : α → FileTree → Prop}
    (hEnds : EndsIn after reason (change w.files)) :
    EndsIn (fun a w' => after a w'.files) reason
      (Job.edit p change w) := by
  unfold Job.edit
  generalize change w.files = changed at hEnds ⊢
  cases hEnds with
  | ok hAfter => exact .ok hAfter
  | error hReason => exact .error hReason

end EndsIn

------------------------------------------------------------
-- Changes of the State
------------------------------------------------------------

/- A computation changes states in a certain way, failed or not. -/
def Moves
    (R : σ → σ → Prop)
    (f : ExceptT ε (StateM σ) α) : Prop :=
  ∀ s, R s (f s).2

namespace Moves

variable {R : σ → σ → Prop}

theorem pure
    (hRefl : ∀ s, R s s)
    (a : α) :
    Moves R (Pure.pure a : ExceptT ε (StateM σ) α) :=
  fun s => hRefl s

/- What can be done one after the other is done by the whole. -/
theorem bind
    (hTrans : ∀ {s₁ s₂ s₃}, R s₁ s₂ → R s₂ s₃ → R s₁ s₃)
    (hf : Moves R f)
    (hg : ∀ a, Moves R (g a)) :
    Moves R (f >>= g) := by
  intro s
  have hFirst := hf s
  rw [bind_apply]
  generalize f s = first at hFirst ⊢
  rcases first with ⟨e | a, between⟩
  · exact hFirst
  · exact hTrans hFirst (hg a between)

/- What is done about a failure comes after what failed. -/
theorem tryCatch
    (hTrans : ∀ {s₁ s₂ s₃}, R s₁ s₂ → R s₂ s₃ → R s₁ s₃)
    (hf : Moves R f)
    {handle : ε → ExceptT ε (StateM σ) α}
    (hHandle : ∀ e, Moves R (handle e)) :
    Moves R (MonadExcept.tryCatch f handle) := by
  intro s
  have hFirst := hf s
  rw [tryCatch_apply]
  generalize f s = first at hFirst ⊢
  rcases first with ⟨e | a, between⟩
  · exact hTrans hFirst (hHandle e between)
  · exact hFirst

end Moves

end Job

end Variability
