import Mathlib.Data.List.Count
import Mathlib.Data.List.Range
import Mathlib.Logic.Function.Basic

/-!
# Counting what numbered places hold

Places are numbered from zero, and each may hold something.  `tally f n a` counts the
places below `n` that hold `a`.  It changes with the one place that is written
(`tally_take`, `tally_grow`), and `count_filterMap` collects what the places hold.
-/

namespace Tally

variable {α : Type*} [DecidableEq α] {f f' : Nat → Option α} {n e : Nat} {a b : α}

/-- The places below `n` that hold `a`. -/
def tally (f : Nat → Option α) (n : Nat) (a : α) : Nat :=
  (List.range n).countP fun i => decide (f i = some a)

theorem tally_succ (f : Nat → Option α) (n : Nat) (a : α) :
    tally f (n + 1) a = tally f n a + if f n = some a then 1 else 0 := by
  unfold tally
  rw [List.range_succ, List.countP_append, List.countP_singleton]
  simp

theorem tally_congr (h : ∀ i < n, f' i = f i) : tally f' n a = tally f n a := by
  refine List.countP_congr fun i hi => ?_
  rw [h i (List.mem_range.mp hi)]

theorem tally_none (h : ∀ i < n, f i = none) : tally f n a = 0 := by
  refine List.countP_eq_zero.mpr fun i hi => ?_
  rw [h i (List.mem_range.mp hi)]
  simp

/-- One place is emptied. -/
theorem tally_take (he : e < n) (hb : f e = some b) (hgone : f' e = none)
    (h : ∀ i ≠ e, f' i = f i) : tally f n a = tally f' n a + if b = a then 1 else 0 := by
  induction n with
  | zero => exact absurd he (Nat.not_lt_zero e)
  | succ n ih =>
    rw [tally_succ, tally_succ]
    rcases Nat.lt_succ_iff_lt_or_eq.mp he with hlt | rfl
    · rw [ih hlt, h n (Nat.ne_of_gt hlt)]
      omega
    · rw [tally_congr (f := f) fun i hi => h i (Nat.ne_of_lt hi), hb, hgone]
      simp

/-- A new place is filled. -/
theorem tally_grow (hb : f' n = some b) (h : ∀ i < n, f' i = f i) :
    tally f' (n + 1) a = tally f n a + if b = a then 1 else 0 := by
  rw [tally_succ, tally_congr h, hb]
  simp

/-- What some of the places hold is at most what all hold. -/
theorem count_filterMap_le {l : List Nat} (hl : l.Nodup) (hn : ∀ i ∈ l, i < n) :
    (l.filterMap f).count a ≤ tally f n a := by
  unfold tally
  rw [List.count, List.countP_filterMap, List.countP_eq_length_filter, List.countP_eq_length_filter]
  refine (List.subperm_of_subset (hl.filter _) fun i hi => ?_).length_le
  obtain ⟨hi, ha⟩ := List.mem_filter.mp hi
  refine List.mem_filter.mpr ⟨List.mem_range.mpr (hn i hi), ?_⟩
  cases hf : f i <;> simp_all

/-- The places that hold something hold all there is. -/
theorem count_filterMap {l : List Nat} (hl : l.Nodup) (hn : ∀ i ∈ l, i < n)
    (hall : ∀ i < n, f i ≠ none → i ∈ l) : (l.filterMap f).count a = tally f n a := by
  refine Nat.le_antisymm (count_filterMap_le hl hn) ?_
  unfold tally
  rw [List.count, List.countP_filterMap, List.countP_eq_length_filter, List.countP_eq_length_filter]
  refine (List.subperm_of_subset (List.nodup_range.filter _) fun i hi => ?_).length_le
  obtain ⟨hi, ha⟩ := List.mem_filter.mp hi
  have ha : f i = some a := of_decide_eq_true ha
  refine List.mem_filter.mpr ⟨hall i (List.mem_range.mp hi) (by simp [ha]), ?_⟩
  simp [ha]

end Tally
