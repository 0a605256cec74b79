import Mathlib.Data.List.Forall2
import Mathlib.Logic.Function.Basic

/-!
# Values known by a pointer

A pool keeps one pointer for each value that it has been given, so that equal values are
found by comparing pointers.

* `Pool.intern`: the pointer of a value, a fresh one if the pool has none.
* `Pool.Holds p q a`: the pointer `q` is that of the value `a`.
* `Holds.eq_iff`: pointers are equal exactly when their values are; lists of pointers can be
  searched and filtered instead of lists of values (`mem_iff`, `forall₂_filter`).
-/

namespace Interning

variable {α : Type*}

/-- The pointers that have been given out, and the next one. -/
structure Pool (α : Type*) where
  find : α → Option Nat
  next : Nat

namespace Pool

/-- Nothing is in the pool; its pointers are not used again. -/
def cleared (p : Pool α) : Pool α := { p with find := fun _ => none }

/-- The pointer of a value. -/
def intern [DecidableEq α] (p : Pool α) (a : α) : Nat × Pool α :=
  match p.find a with
  | some q => (q, p)
  | none => (p.next, { find := Function.update p.find a (some p.next), next := p.next + 1 })

/-- The pointer is that of the value. -/
def Holds (p : Pool α) (q : Nat) (a : α) : Prop := p.find a = some q

/-- Each pointer is that of one value, and has been given out. -/
structure Wf (p : Pool α) : Prop where
  inj : ∀ {a b q}, p.Holds q a → p.Holds q b → a = b
  lt : ∀ {a q}, p.Holds q a → q < p.next

variable {p : Pool α} {q q' : Nat} {a b : α} {l : List Nat} {m : List α}

theorem Wf.cleared (p : Pool α) : p.cleared.Wf where
  inj h := by cases h
  lt h := by cases h

/-- Pointers are compared instead of values. -/
theorem Holds.eq_iff (hp : p.Wf) (h : p.Holds q a) (h' : p.Holds q' b) : q = q' ↔ a = b := by
  constructor
  · rintro rfl
    exact hp.inj h h'
  · rintro rfl
    exact Option.some.inj (h.symm.trans h')

section

variable [DecidableEq α]

theorem intern_of_some (h : p.find a = some q) : p.intern a = (q, p) := by
  unfold intern
  rw [h]

theorem intern_of_none (h : p.find a = none) :
    p.intern a = (p.next, { find := Function.update p.find a (some p.next), next := p.next + 1 }) := by
  unfold intern
  rw [h]

theorem intern_holds (p : Pool α) (a : α) : (p.intern a).2.Holds (p.intern a).1 a := by
  cases h : p.find a with
  | some q =>
    rw [intern_of_some h]
    exact h
  | none =>
    rw [intern_of_none h]
    exact Function.update_self ..

/-- The pointers that have been given out stay. -/
theorem Holds.intern (h : p.Holds q b) (a : α) : (p.intern a).2.Holds q b := by
  cases ha : p.find a with
  | some q' =>
    rw [intern_of_some ha]
    exact h
  | none =>
    rw [intern_of_none ha]
    refine (Function.update_of_ne ?_ _ _).trans h
    rintro rfl
    exact Option.some_ne_none q (h.symm.trans ha)

theorem Wf.intern (hp : p.Wf) (a : α) : (p.intern a).2.Wf := by
  cases ha : p.find a with
  | some q =>
    rw [intern_of_some ha]
    exact hp
  | none =>
    rw [intern_of_none ha]
    have hcases : ∀ {b q}, Function.update p.find a (some p.next) b = some q →
        b = a ∧ q = p.next ∨ p.Holds q b := fun {b q} hb => by
      by_cases hba : b = a
      · subst hba
        rw [Function.update_self] at hb
        exact Or.inl ⟨rfl, (Option.some.inj hb).symm⟩
      · rw [Function.update_of_ne hba] at hb
        exact Or.inr hb
    refine ⟨fun {x y q} hx hy => ?_, fun {x q} hx => ?_⟩
    · rcases hcases hx with ⟨rfl, rfl⟩ | holdx
      · rcases hcases hy with ⟨rfl, -⟩ | holdy
        · rfl
        · exact absurd (hp.lt holdy) (Nat.lt_irrefl _)
      · rcases hcases hy with ⟨rfl, rfl⟩ | holdy
        · exact absurd (hp.lt holdx) (Nat.lt_irrefl _)
        · exact hp.inj holdx holdy
    · rcases hcases hx with ⟨-, rfl⟩ | hold
      · exact Nat.lt_succ_self _
      · exact Nat.lt_succ_of_lt (hp.lt hold)

end

/-! ## Lists of pointers -/

/-- A list of pointers is searched instead of the list of the values. -/
theorem mem_iff (hp : p.Wf) (hl : List.Forall₂ p.Holds l m) (h : p.Holds q a) :
    q ∈ l ↔ a ∈ m := by
  induction hl with
  | nil => simp
  | cons hqa _ ih => rw [List.mem_cons, List.mem_cons, h.eq_iff hp hqa, ih]

/-- What is filtered out of the list of pointers is filtered out of that of the values. -/
theorem forall₂_filter [DecidableEq α] (hp : p.Wf) (hl : List.Forall₂ p.Holds l m)
    (h : p.Holds q a) :
    List.Forall₂ p.Holds (l.filter (· ≠ q)) (m.filter (· ≠ a)) := by
  induction hl with
  | nil => exact .nil
  | @cons x b l m hxb hl ih =>
    have hiff := hxb.eq_iff hp h
    by_cases hx : x = q
    · simpa [hx, hiff.mp hx] using ih
    · have hb : b ≠ a := fun heq => hx (hiff.mpr heq)
      rw [List.filter_cons_of_pos (by simpa using hx), List.filter_cons_of_pos (by simpa using hb)]
      exact .cons hxb ih

end Pool

end Interning
