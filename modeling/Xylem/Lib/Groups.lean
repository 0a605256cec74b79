import Mathlib.Data.List.Induction
import Mathlib.Data.List.Nodup

/-!
# Grouping a history by keys

A registry that files what it is given under a key, and numbers the keys as they
come, is its history grouped by the key.

* `keys key l`: the keys of the history, each at its first occurrence.
* `group key l k`: what has come under one key, in order.

The rules say what one more item does to both.
-/

namespace Groups

variable {β κ : Type*} [DecidableEq κ] {key : β → κ}

/-- The keys of a history, in the order of their first occurrence. -/
def keys (key : β → κ) (l : List β) : List κ :=
  l.foldl (fun ks b => if key b ∈ ks then ks else ks ++ [key b]) []

/-- What has come under a key. -/
def group (key : β → κ) (l : List β) (k : κ) : List β := l.filter fun b => decide (key b = k)

@[simp] theorem keys_nil : keys key [] = [] := rfl

theorem keys_concat (l : List β) (b : β) :
    keys key (l ++ [b]) = if key b ∈ keys key l then keys key l else keys key l ++ [key b] := by
  unfold keys
  rw [List.foldl_append]
  rfl

theorem keys_concat_old {l : List β} {b : β} (h : key b ∈ keys key l) :
    keys key (l ++ [b]) = keys key l := by
  rw [keys_concat, if_pos h]

theorem keys_concat_new {l : List β} {b : β} (h : key b ∉ keys key l) :
    keys key (l ++ [b]) = keys key l ++ [key b] := by
  rw [keys_concat, if_neg h]

theorem mem_keys {l : List β} {k : κ} : k ∈ keys key l ↔ ∃ b ∈ l, key b = k := by
  induction l using List.reverseRecOn with
  | nil => simp
  | append_singleton l b ih =>
    rw [keys_concat]
    split
    · next hold =>
      rw [ih]
      constructor
      · intro h
        obtain ⟨x, hx, hk⟩ := h
        exact ⟨x, List.mem_append_left _ hx, hk⟩
      · intro h
        obtain ⟨x, hx, hk⟩ := h
        rcases List.mem_append.mp hx with hx | hx
        · exact ⟨x, hx, hk⟩
        · rw [List.mem_singleton.mp hx] at hk
          rw [hk] at hold
          exact ih.mp hold
    · simp [ih, or_and_right, exists_or, eq_comm]

theorem nodup_keys (l : List β) : (keys key l).Nodup := by
  induction l using List.reverseRecOn with
  | nil => exact List.nodup_nil
  | append_singleton l b ih =>
    rw [keys_concat]
    split
    · exact ih
    · next hnew =>
      rw [List.nodup_append]
      refine ⟨ih, List.nodup_singleton _, fun x hx y hy hxy => hnew ?_⟩
      rw [← List.mem_singleton.mp hy, ← hxy]
      exact hx

/-- A key keeps its number. -/
theorem idxOf_concat {l : List β} {k : κ} (hk : k ∈ keys key l) (b : β) :
    (keys key (l ++ [b])).idxOf k = (keys key l).idxOf k := by
  rw [keys_concat]
  split
  · rfl
  · rw [List.idxOf_append, if_pos hk]

/-- A new key gets the next number. -/
theorem idxOf_concat_self (l : List β) (b : β) :
    (keys key (l ++ [b])).idxOf (key b) = (keys key l).idxOf (key b) := by
  rw [keys_concat]
  split
  · rfl
  · next hnew =>
    rw [List.idxOf_append, if_neg hnew, List.idxOf_eq_length hnew]
    simp

theorem group_concat (l : List β) (b : β) (k : κ) :
    group key (l ++ [b]) k = group key l k ++ if key b = k then [b] else [] := by
  unfold group
  rw [List.filter_append]
  congr 1
  by_cases h : key b = k
  · simp [h]
  · simp [h]

theorem mem_group {l : List β} {k : κ} {b : β} : b ∈ group key l k ↔ b ∈ l ∧ key b = k := by
  simp [group]

/-- Nothing has come under a key exactly when it is not there. -/
theorem group_eq_nil {l : List β} {k : κ} : group key l k = [] ↔ k ∉ keys key l := by
  rw [mem_keys]
  simp [group]

end Groups
