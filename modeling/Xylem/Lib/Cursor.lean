import Mathlib.Data.List.Nodup

/-!
# A walk over a list that is edited

A walk stands at one element of a list, which is edited before the walk goes on.
`ahead` is what it still comes to.

* `ahead_filter`: what is taken out is no longer ahead, and for the rest nothing
  changes.  `ahead_erase` is the edit in this form.
* `fromHere_head`: the next element, with what is ahead of it, is what was ahead.
* `upTo` is the same for a walk by index, over an array that is written.
-/

namespace Cursor

variable {α : Type*} {a b x : α} {l m : List α} {P : α → Bool}

/-! ## By element -/

section

variable [DecidableEq α]

/-- What a walk that stands at `a` still comes to. -/
def ahead (a : α) : List α → List α
  | [] => []
  | x :: l => if x = a then l else ahead a l

/-- What a walk still comes to when `next` is what it comes to next. -/
def fromHere (next : Option α) (l : List α) : List α :=
  match next with
  | none => []
  | some a => a :: ahead a l

theorem ahead_sublist (a : α) (l : List α) : (ahead a l).Sublist l := by
  induction l with
  | nil => exact .slnil
  | cons x l ih =>
    unfold ahead
    split
    · exact List.sublist_cons_self x l
    · exact ih.cons x

theorem mem_of_ahead (h : x ∈ ahead a l) : x ∈ l := (ahead_sublist a l).subset h

theorem not_mem_ahead (h : l.Nodup) : a ∉ ahead a l := by
  induction l with
  | nil => simp [ahead]
  | cons x l ih =>
    obtain ⟨hx, hl⟩ := List.nodup_cons.mp h
    unfold ahead
    split
    · next heq => exact heq ▸ hx
    · exact ih hl

theorem ahead_append (h : a ∈ l) (m : List α) : ahead a (l ++ m) = ahead a l ++ m := by
  induction l with
  | nil => cases h
  | cons x l ih =>
    rw [List.cons_append, ahead, ahead]
    split
    · rfl
    · next hne => exact ih ((List.mem_cons.mp h).resolve_left (Ne.symm hne))

/-- What a walk still comes to in the list without some elements. -/
theorem ahead_filter (ha : P a = true) (l : List α) :
    ahead a (l.filter P) = (ahead a l).filter P := by
  induction l with
  | nil => rfl
  | cons x l ih =>
    by_cases hx : x = a
    · subst hx
      rw [List.filter_cons_of_pos ha, ahead, ahead, if_pos rfl, if_pos rfl]
    · rw [ahead, if_neg hx, List.filter_cons]
      split
      · rw [ahead, if_neg hx, ih]
      · exact ih

theorem ahead_erase (hl : l.Nodup) (hne : x ≠ a) :
    ahead a (l.erase x) = (ahead a l).filter fun y => decide (y ≠ x) := by
  have herase : l.erase x = l.filter fun y => decide (y ≠ x) := by
    rw [hl.erase_eq_filter]
    refine List.filter_congr fun y _ => ?_
    rw [Bool.eq_iff_iff]
    simp
  rw [herase, ahead_filter (by simpa using Ne.symm hne)]

/-- The walk is at its first element. -/
theorem fromHere_head? (l : List α) : fromHere l.head? l = l := by
  cases l with
  | nil => rfl
  | cons x l => simp [fromHere, ahead]

/-- The walk goes on. -/
theorem fromHere_head (hl : l.Nodup) : fromHere (ahead a l).head? l = ahead a l := by
  induction l with
  | nil => rfl
  | cons x l ih =>
    obtain ⟨hx, hl⟩ := List.nodup_cons.mp hl
    by_cases hxa : x = a
    · rw [ahead, if_pos hxa]
      cases l with
      | nil => rfl
      | cons y l =>
        have hne : x ≠ y := fun heq => hx (heq ▸ List.mem_cons_self)
        simp [fromHere, ahead, hne]
    · rw [ahead, if_neg hxa]
      cases hnext : (ahead a l).head? with
      | none =>
        rw [List.head?_eq_none_iff.mp hnext]
        rfl
      | some y =>
        have hy : y ∈ l := mem_of_ahead (List.mem_of_head? hnext)
        have hne : x ≠ y := fun heq => hx (heq ▸ hy)
        rw [hnext] at ih
        rw [fromHere, ahead, if_neg hne]
        exact ih hl

end

/-! ## By index -/

/-- What a walk that is at `i`, and ends at `n`, still comes to. -/
def upTo (i n : ℕ) (l : List α) : List α := (l.take n).drop i

theorem getElem?_upTo (i n k : ℕ) (l : List α) :
    (upTo i n l)[k]? = if i + k < n then l[i + k]? else none := by
  rw [upTo, List.getElem?_drop, List.getElem?_take]

/-- The walk goes on. -/
theorem upTo_eq_cons {i n : ℕ} (hi : i < n) (h : l[i]? = some x) :
    upTo i n l = x :: upTo (i + 1) n l := by
  refine List.ext_getElem? fun k => ?_
  cases k with
  | zero => rw [getElem?_upTo, Nat.add_zero, if_pos hi, h, List.getElem?_cons_zero]
  | succ k =>
    rw [List.getElem?_cons_succ, getElem?_upTo, getElem?_upTo, Nat.add_assoc, Nat.add_comm 1 k]

/-- What is written elsewhere does not matter. -/
theorem upTo_congr {i n : ℕ} (h : ∀ k, i ≤ k → k < n → m[k]? = l[k]?) :
    upTo i n m = upTo i n l := by
  refine List.ext_getElem? fun k => ?_
  rw [getElem?_upTo, getElem?_upTo]
  split
  · next hlt => exact h (i + k) (Nat.le_add_right i k) hlt
  · rfl

end Cursor
