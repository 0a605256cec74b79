import Mathlib.Algebra.Order.Monoid.Canonical.Defs
import Mathlib.Algebra.Order.Ring.Nat
import Mathlib.Tactic.Ring

/-!
# Runs that go down

A run comes to its end when each of its steps lowers a measure, and has no more steps
than the measure counts at its start.

* `Steps next n s s'`: `n` steps from `s` to `s'`.
* `Steps.add_le` bounds the number of steps, `exists_end` finds the end of a run.
* `cost` is a measure for a walk over numbered things that goes down depth first: it
  comes to things with greater numbers below a thing, of which there are no more than
  there are things.  It may come to one thing many times.
-/

namespace Descent

section

variable {σ : Type*} {next : σ → σ → Prop} {known : σ → Prop} {μ : σ → Nat} {s s' s'' : σ}

inductive Steps (next : σ → σ → Prop) : Nat → σ → σ → Prop
  | none (s : σ) : Steps next 0 s s
  | move {n : Nat} {s s' s'' : σ} (h : Steps next n s s') (hs : next s' s'') :
    Steps next (n + 1) s s''

theorem Steps.stays (hknown : ∀ s s', known s → next s s' → known s') {n : Nat}
    (h : Steps next n s s') (hs : known s) : known s' := by
  induction h with
  | none => exact hs
  | move _ hnext ih => exact hknown _ _ (ih hs) hnext

/-- Each step takes one from the measure at least. -/
theorem Steps.add_le (hknown : ∀ s s', known s → next s s' → known s')
    (hlow : ∀ s s', known s → next s s' → μ s' < μ s) {n : Nat} (h : Steps next n s s')
    (hs : known s) : n + μ s' ≤ μ s := by
  induction h with
  | none => exact Nat.le_of_eq (Nat.zero_add _)
  | move hrun hnext ih =>
    have hlt := hlow _ _ (hrun.stays hknown hs) hnext
    have hle := ih hs
    omega

theorem Steps.cons {n : Nat} (hs : next s s') (h : Steps next n s' s'') :
    Steps next (n + 1) s s'' := by
  induction h with
  | none => exact .move (.none _) hs
  | move _ hnext ih => exact .move (ih hs) hnext

/-- A run that cannot go on for ever can be taken to its end. -/
theorem exists_end (hknown : ∀ s s', known s → next s s' → known s')
    (hlow : ∀ s s', known s → next s s' → μ s' < μ s) (hs : known s) :
    ∃ n s', Steps next n s s' ∧ ∀ s'', ¬ next s' s'' := by
  induction hμ : μ s using Nat.strong_induction_on generalizing s with
  | _ m ih =>
    by_cases hend : ∃ s', next s s'
    · obtain ⟨s', hnext⟩ := hend
      obtain ⟨n, t, hrun, ht⟩ := ih (μ s') (hμ ▸ hlow s s' hs hnext) (hknown s s' hs hnext) rfl
      exact ⟨n + 1, t, .cons hnext hrun, ht⟩
    · exact ⟨0, s, .none s, fun t ht => hend ⟨t, ht⟩⟩

end

/-! ## Going down over numbered things -/

section

variable {n e x m : Nat}

/-- What a visit of one thing below the thing `e` can cost, when there are `n` things. -/
def price (n e : Nat) : Nat := (n + 2) ^ (n - e - 1)

/-- What is left of the visit of a thing, with `m` things below it still to come. -/
def cost (n e m : Nat) : Nat := m * price n e + 1

theorem price_pos (n e : Nat) : 0 < price n e := Nat.pow_pos (Nat.succ_pos _)

theorem cost_pos (n e m : Nat) : 0 < cost n e m := Nat.succ_pos _

theorem cost_succ (n e m : Nat) : cost n e (m + 1) = price n e + cost n e m := by
  unfold cost
  ring

/-- The visit of a thing costs no more than its price. -/
theorem cost_lt_price (he : e < x) (hx : x < n) (hm : m ≤ n) : cost n x m < price n e := by
  have hle : (n + 2) * price n x ≤ price n e := by
    unfold price
    rw [← Nat.pow_succ']
    exact Nat.pow_le_pow_right (Nat.succ_pos _) (by omega)
  calc
    cost n x m ≤ n * price n x + 1 := Nat.add_le_add_right (Nat.mul_le_mul_right _ hm) 1
    _ < (n + 2) * price n x := by
      rw [Nat.add_mul]
      have := price_pos n x
      omega
    _ ≤ price n e := hle

end

end Descent
