import Mathlib.Data.List.Basic

/-!
# Purging a run

A run takes its inputs one after the other, and gives observations on the way.
Some of the inputs are hidden.  `Unwinding` states, step by step, that taking a
hidden input out leaves the two runs related, and `Unwinding.purge` that the run
without the hidden inputs then gives the same observations.

What may differ between the two runs can change on the way.  It is noted in a
mark, which `after` computes from the run with all inputs, and the condition `ok`
on an input may use it.
-/

namespace Purge

variable {σ α ω φ : Type*} {step : σ → α → Option (σ × List ω)} {after : φ → σ → α → φ}
  {hidden : α → Bool} {ok : φ → σ → α → Prop} {rel : φ → σ → σ → Prop}

/-- The run of a list of inputs, with all that it gives. -/
def run (step : σ → α → Option (σ × List ω)) : σ → List α → Option (σ × List ω)
  | s, [] => some (s, [])
  | s, a :: l =>
    match step s a with
    | none => none
    | some (t, o) => (run step t l).map fun x => (x.1, o ++ x.2)

/-- The mark at the end of a run. -/
def marks (step : σ → α → Option (σ × List ω)) (after : φ → σ → α → φ) : φ → σ → List α → φ
  | f, _, [] => f
  | f, s, a :: l =>
    match step s a with
    | none => f
    | some (t, _) => marks step after (after f s a) t l

/-- Every input of the run meets a condition. -/
def Holds (step : σ → α → Option (σ × List ω)) (after : φ → σ → α → φ)
    (ok : φ → σ → α → Prop) : φ → σ → List α → Prop
  | _, _, [] => True
  | f, s, a :: l =>
    ok f s a ∧
      match step s a with
      | none => True
      | some (t, _) => Holds step after ok (after f s a) t l

theorem run_cons {s t : σ} {a : α} {o : List ω} (h : step s a = some (t, o)) (l : List α) :
    run step s (a :: l) = (run step t l).map fun x => (x.1, o ++ x.2) := by
  rw [run, h]

/-- A run is its first step and the rest. -/
theorem run_cons_eq_some {s u : σ} {a : α} {l : List α} {o : List ω}
    (h : run step s (a :: l) = some (u, o)) :
    ∃ t o₁ o₂, step s a = some (t, o₁) ∧ run step t l = some (u, o₂) ∧ o = o₁ ++ o₂ := by
  cases hs : step s a with
  | none =>
    rw [run, hs] at h
    cases h
  | some x =>
    obtain ⟨t, o₁⟩ := x
    rw [run_cons hs] at h
    obtain ⟨⟨u', o₂⟩, hrun, heq⟩ := Option.map_eq_some_iff.mp h
    cases heq
    exact ⟨t, o₁, o₂, rfl, hrun, rfl⟩

theorem Holds.tail {f : φ} {s t : σ} {a : α} {l : List α} {o : List ω}
    (h : Holds step after ok f s (a :: l)) (hs : step s a = some (t, o)) :
    Holds step after ok (after f s a) t l := by
  have htail := h.2
  rw [hs] at htail
  exact htail

theorem marks_cons {s t : σ} {a : α} {o : List ω} (h : step s a = some (t, o)) (f : φ)
    (l : List α) : marks step after f s (a :: l) = marks step after (after f s a) t l := by
  rw [marks, h]

/-- Steps that give nothing make a run that gives nothing. -/
theorem run_silent (hstep : ∀ s a t o, step s a = some (t, o) → o = []) {s u : σ} {l : List α}
    {o : List ω} (h : run step s l = some (u, o)) : o = [] := by
  induction l generalizing s o with
  | nil =>
    cases h
    rfl
  | cons a l ih =>
    obtain ⟨t, o₁, o₂, hs, hrun, rfl⟩ := run_cons_eq_some h
    rw [hstep s a t o₁ hs, ih hrun]
    rfl

/-- The second run follows the first on the inputs that are shown, and stays where
it is on those that are hidden. -/
structure Unwinding (step : σ → α → Option (σ × List ω)) (after : φ → σ → α → φ)
    (hidden : α → Bool) (ok : φ → σ → α → Prop) (rel : φ → σ → σ → Prop) : Prop where
  shown {f : φ} {s s' t : σ} {a : α} {o : List ω} (ha : hidden a = false) (hok : ok f s a)
    (hrel : rel f s s') (hs : step s a = some (t, o)) :
    ∃ t', step s' a = some (t', o) ∧ rel (after f s a) t t'
  stays {f : φ} {s s' t : σ} {a : α} {o : List ω} (ha : hidden a = true) (hok : ok f s a)
    (hrel : rel f s s') (hs : step s a = some (t, o)) : o = [] ∧ rel (after f s a) t s'

/-- The run without the hidden inputs gives the same observations. -/
theorem Unwinding.purge (h : Unwinding step after hidden ok rel) {f : φ} {s s' t : σ} {l : List α}
    {o : List ω} (hrel : rel f s s') (hok : Holds step after ok f s l)
    (hrun : run step s l = some (t, o)) :
    ∃ t', run step s' (l.filter (fun a => !hidden a)) = some (t', o)
      ∧ rel (marks step after f s l) t t' := by
  induction l generalizing f s s' o with
  | nil =>
    cases hrun
    exact ⟨s', rfl, hrel⟩
  | cons a l ih =>
    obtain ⟨u, o₁, o₂, hs, hrest, rfl⟩ := run_cons_eq_some hrun
    have hok' := hok.tail hs
    rw [marks_cons hs]
    cases ha : hidden a with
    | false =>
      obtain ⟨u', hs', hrel'⟩ := h.shown ha hok.1 hrel hs
      obtain ⟨t', hrun', hend⟩ := ih hrel' hok' hrest
      refine ⟨t', ?_, hend⟩
      rw [List.filter_cons_of_pos (by rw [ha]; rfl), run_cons hs', hrun']
      rfl
    | true =>
      obtain ⟨rfl, hrel'⟩ := h.stays ha hok.1 hrel hs
      obtain ⟨t', hrun', hend⟩ := ih hrel' hok' hrest
      refine ⟨t', ?_, hend⟩
      rw [List.filter_cons_of_neg (by rw [ha]; simp), hrun']
      rfl

/-- With nothing hidden, the two runs go in lockstep. -/
theorem Unwinding.lockstep (h : Unwinding step after (fun _ => false) ok rel) {f : φ} {s s' t : σ}
    {l : List α} {o : List ω} (hrel : rel f s s') (hok : Holds step after ok f s l)
    (hrun : run step s l = some (t, o)) :
    ∃ t', run step s' l = some (t', o) ∧ rel (marks step after f s l) t t' := by
  simpa using h.purge hrel hok hrun

end Purge
