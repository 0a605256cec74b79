import Mathlib.Data.List.Basic
import Mathlib.Control.Monad.Basic

/-!
# Arrays whose allocations may fail

A program that keeps its data in arrays, and that makes an array larger by an
allocation which may fail.

* `Prog α` is such a program.  It takes the answers of its allocations from a
  list, and it has no result once it touches a cell outside an array.
* `Safe x Q`: whatever the answers are, `x` stays inside its arrays and its
  result satisfies `Q`.
* `Returns x a`: `x` returns `a` when every allocation succeeds.
* `Grown empty l l'`: the array `l'` is `l` with empty cells after it.
-/

namespace Fallible

variable {α β σ : Type}

/-- Whether each of the next allocations succeeds.  Those after the last answer
do. -/
abbrev Answers := List Bool

abbrev Prog := StateT Answers Option

/-! ## The operations -/

/-- One allocation: whether it succeeds. -/
def alloc : Prog Bool := fun m => some (m.headD true, m.tail)

/-- A read of a cell. -/
def load (l : List α) (i : Nat) : Prog α := fun m => l[i]?.map (·, m)

/-- A write to a cell. -/
def store (l : List α) (i : Nat) (a : α) : Prog (List α) := fun m =>
  if i < l.length then some (l.set i a, m) else none

/-- An array that has to have `needed` cells: whether it has them, and the
array. -/
def grow (empty : α) (l : List α) (needed : Nat) : Prog (Bool × List α) :=
  if needed ≤ l.length then pure (true, l)
  else do
    if ← alloc then pure (true, l ++ List.replicate (needed - l.length) empty)
    else pure (false, l)

/-- An array that has kept its cells, with empty ones after them. -/
structure Grown (empty : α) (l l' : List α) : Prop where
  le : l.length ≤ l'.length
  kept : ∀ i < l.length, l'[i]? = l[i]?
  fresh : ∀ i, l.length ≤ i → i < l'.length → l'[i]? = some empty

theorem Grown.refl (empty : α) (l : List α) : Grown empty l l where
  le := Nat.le_refl _
  kept _ _ := rfl
  fresh _ hle hlt := absurd hlt (Nat.not_lt.mpr hle)

theorem grown_append (empty : α) (l : List α) (n : Nat) :
    Grown empty l (l ++ List.replicate n empty) where
  le := by simp
  kept _ hi := List.getElem?_append_left hi
  fresh i hle hlt := by
    rw [List.length_append, List.length_replicate] at hlt
    rw [List.getElem?_append_right hle, List.getElem?_replicate, if_pos (by omega)]

/-- A cell that was there, or is not there yet, reads as before. -/
theorem Grown.getD {empty : α} {l l' : List α} (h : Grown empty l l') (i : Nat) :
    l'.getD i empty = l.getD i empty := by
  rw [List.getD_eq_getElem?_getD, List.getD_eq_getElem?_getD]
  rcases Nat.lt_or_ge i l.length with hi | hi
  · rw [h.kept i hi]
  · rw [List.getElem?_eq_none hi]
    rcases Nat.lt_or_ge i l'.length with hi' | hi'
    · rw [h.fresh i hi hi']
      rfl
    · rw [List.getElem?_eq_none hi']

/-! ## Safety -/

/-- Whatever the allocations answer, the program stays inside its arrays, and
its result is as `Q` says. -/
def Safe (x : Prog α) (Q : α → Prop) : Prop := ∀ m, ∃ a m', x m = some (a, m') ∧ Q a

theorem bind_apply (x : Prog α) (f : α → Prog β) (m : Answers) :
    (x >>= f) m = (x m).bind fun p => f p.1 p.2 := rfl

namespace Safe

variable {x : Prog α} {f : α → Prog β} {P Q : α → Prop} {R : β → Prop}

theorem pure {a : α} (h : Q a) : Safe (Pure.pure a) Q := fun m => ⟨a, m, rfl, h⟩

theorem bind (hx : Safe x P) (hf : ∀ a, P a → Safe (f a) R) : Safe (x >>= f) R := by
  intro m
  obtain ⟨a, m', hxm, ha⟩ := hx m
  obtain ⟨b, m'', hfm, hb⟩ := hf a ha m'
  refine ⟨b, m'', ?_, hb⟩
  rw [bind_apply, hxm]
  exact hfm

theorem mono (hx : Safe x P) (h : ∀ a, P a → Q a) : Safe x Q := by
  intro m
  obtain ⟨a, m', hxm, ha⟩ := hx m
  exact ⟨a, m', hxm, h a ha⟩

/-- What is read off the result. -/
theorem map {g : α → β} (hx : Safe x fun a => R (g a)) : Safe (g <$> x) R := by
  intro m
  obtain ⟨a, m', hxm, ha⟩ := hx m
  refine ⟨g a, m', ?_, ha⟩
  show (x >>= fun a => Pure.pure (g a)) m = _
  rw [bind_apply, hxm]
  rfl

/-- Nothing is known of the answer. -/
theorem alloc : Safe alloc fun _ => True := fun _ => ⟨_, _, rfl, trivial⟩

theorem load {l : List α} {i : Nat} (h : i < l.length) :
    Safe (load l i) fun a => l[i]? = some a := by
  intro m
  refine ⟨l[i], m, ?_, List.getElem?_eq_getElem h⟩
  show l[i]?.map (·, m) = _
  rw [List.getElem?_eq_getElem h]
  rfl

theorem store {l : List α} {i : Nat} (a : α) (h : i < l.length) :
    Safe (store l i a) fun l' => l' = l.set i a := fun _ => ⟨_, _, if_pos h, rfl⟩

/-- An array either has the cells that it has to have, or stays as it is. -/
theorem grow (empty : α) (l : List α) (needed : Nat) :
    Safe (grow empty l needed) fun r =>
      Grown empty l r.2 ∧ (r.1 = true → needed ≤ r.2.length) ∧ (r.1 = false → r.2 = l) := by
  unfold Fallible.grow
  split
  · next h => exact pure ⟨Grown.refl empty l, fun _ => h, fun _ => rfl⟩
  · next h =>
    refine bind alloc fun ok _ => ?_
    cases ok with
    | false => exact pure ⟨Grown.refl empty l, by simp, fun _ => rfl⟩
    | true =>
      refine pure ⟨grown_append empty l _, fun _ => ?_, by simp⟩
      rw [List.length_append, List.length_replicate]
      omega

/-- What each round of a loop keeps, the loop keeps. -/
theorem foldlM {I : σ → Prop} {g : σ → α → Prog σ} {l : List α}
    (hg : ∀ s, ∀ a ∈ l, I s → Safe (g s a) I) {s : σ} (hs : I s) : Safe (l.foldlM g s) I := by
  induction l generalizing s with
  | nil => exact pure hs
  | cons a l ih =>
    rw [List.foldlM_cons]
    refine bind (hg s a List.mem_cons_self hs) fun s' hs' => ?_
    exact ih (fun s b hb => hg s b (List.mem_cons_of_mem a hb)) hs'

end Safe

/-! ## Runs in which no allocation fails -/

/-- The result when every allocation succeeds. -/
def Returns (x : Prog α) (a : α) : Prop := x [] = some (a, [])

namespace Returns

variable {x : Prog α} {f : α → Prog β} {a : α} {b : β}

theorem pure (a : α) : Returns (Pure.pure a) a := rfl

theorem bind (hx : Returns x a) (hf : Returns (f a) b) : Returns (x >>= f) b := by
  unfold Returns at *
  rw [bind_apply, hx]
  exact hf

/-- What is so whatever the answers are is so when every allocation succeeds. -/
theorem of_safe {Q : α → Prop} (hx : Returns x a) (h : Safe x Q) : Q a := by
  obtain ⟨b, m, hb, hQ⟩ := h []
  unfold Returns at hx
  rw [hx] at hb
  cases hb
  exact hQ

theorem alloc : Returns alloc true := rfl

theorem load {l : List α} {i : Nat} (h : l[i]? = some a) : Returns (load l i) a := by
  show l[i]?.map (·, []) = _
  rw [h]
  rfl

theorem store {l : List α} {i : Nat} (h : i < l.length) : Returns (store l i a) (l.set i a) :=
  if_pos h

theorem grow (empty : α) (l : List α) (needed : Nat) :
    Returns (grow empty l needed) (true, l ++ List.replicate (needed - l.length) empty) := by
  unfold Fallible.grow
  split
  · next h =>
    rw [Nat.sub_eq_zero_of_le h, List.replicate_zero, List.append_nil]
    exact pure _
  · exact bind alloc (pure _)

theorem foldlM {g : σ → α → Prog σ} {g' : σ → α → σ} {l : List α} {s : σ}
    (hg : ∀ s, ∀ a ∈ l, Returns (g s a) (g' s a)) : Returns (l.foldlM g s) (l.foldl g' s) := by
  induction l generalizing s with
  | nil => exact pure s
  | cons a l ih =>
    rw [List.foldlM_cons, List.foldl_cons]
    refine bind (hg s a List.mem_cons_self) ?_
    exact ih fun s b hb => hg s b (List.mem_cons_of_mem a hb)

end Returns

end Fallible
