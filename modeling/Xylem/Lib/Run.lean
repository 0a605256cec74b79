import Mathlib.Logic.Relation

/-!
# Runs of a transition system

States reached by steps that each meet a side condition, and the rules by which
an invariant of the steps becomes an invariant of the runs.

* `ReachBy init next ok`: reached from an initial state by steps on which `ok`
  holds.
* `ReachBy.invariant`: what holds initially and is kept by every allowed step
  holds of every state reached.
* `ReachBy.invariant_of`: the same, with an invariant that is known already.
* `follow`: the run of a list of actions, where the steps can be computed.
-/

namespace Run

variable {σ α : Type*} {init : σ → Prop} {next : σ → α → σ → Prop} {ok ok' : σ → α → Prop}

/-- The states of the runs from `init` whose steps all meet `ok`. -/
inductive ReachBy (init : σ → Prop) (next : σ → α → σ → Prop) (ok : σ → α → Prop) : σ → Prop
  | start {s : σ} (h : init s) : ReachBy init next ok s
  | step {s s' : σ} {a : α} (h : ReachBy init next ok s) (hok : ok s a) (hs : next s a s') :
    ReachBy init next ok s'

/-- Fewer steps allowed, fewer states reached. -/
theorem ReachBy.mono (hle : ∀ s a, ok s a → ok' s a) {s : σ} (h : ReachBy init next ok s) :
    ReachBy init next ok' s := by
  induction h with
  | start h => exact .start h
  | step _ hok hs ih => exact .step ih (hle _ _ hok) hs

/-- More states to start from, more states reached. -/
theorem ReachBy.of_init {init' : σ → Prop} (hle : ∀ s, init s → init' s) {s : σ}
    (h : ReachBy init next ok s) : ReachBy init' next ok s := by
  induction h with
  | start h => exact .start (hle _ h)
  | step _ hok hs ih => exact .step ih hok hs

/-- The induction over runs. -/
theorem ReachBy.invariant {inv : σ → Prop} (hinit : ∀ s, init s → inv s)
    (hstep : ∀ s a s', inv s → ok s a → next s a s' → inv s') {s : σ}
    (h : ReachBy init next ok s) : inv s := by
  induction h with
  | start h => exact hinit _ h
  | step _ hok hs ih => exact hstep _ _ _ ih hok hs

/-- The induction over runs, relative to what is known of the states reached. -/
theorem ReachBy.invariant_of {known inv : σ → Prop}
    (hknown : ∀ s, ReachBy init next ok s → known s) (hinit : ∀ s, init s → inv s)
    (hstep : ∀ s a s', known s → inv s → ok s a → next s a s' → inv s') {s : σ}
    (h : ReachBy init next ok s) : inv s := by
  induction h with
  | start h => exact hinit _ h
  | step hr hok hs ih => exact hstep _ _ _ (hknown _ hr) ih hok hs

/-- The run of a list of actions, as far as its steps exist and meet a
condition. -/
def follow (step : σ → α → Option σ) (ok : σ → α → Prop) [∀ s a, Decidable (ok s a)] (s : σ) :
    List α → σ
  | [] => s
  | a :: as =>
    if ok s a then
      match step s a with
      | some s' => follow step ok s' as
      | none => s
    else s

theorem ReachBy.follow {step : σ → α → Option σ} [∀ s a, Decidable (ok s a)]
    (hnext : ∀ s a s', step s a = some s' → next s a s') {s : σ} (h : ReachBy init next ok s)
    (l : List α) : ReachBy init next ok (follow step ok s l) := by
  induction l generalizing s with
  | nil => exact h
  | cons a l ih =>
    unfold Run.follow
    split
    · next hok =>
      split
      · next hstep => exact ih (h.step hok (hnext _ _ _ hstep))
      · exact h
    · exact h

end Run
