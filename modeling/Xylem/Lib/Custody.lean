import Mathlib.Data.List.Nodup
import Mathlib.Data.List.Perm.Basic

/-!
# Things with one owner

Things are numbered as they are made.  Each has at most one owner, and an owner that
goes away gives back what it had.

* `Custody.Ok owns log next`: the numbers from `next` on are unused, and what is in
  the log of things given back has been given back once and has no owner.
* `Ok.mono`, `Ok.make`, `Ok.pass`, `Ok.release`: owners lose things, get a new one, pass
  theirs on, or give theirs back.
* `Full owns log next`: what has been made has an owner or has been given back.
-/

namespace Custody

variable {ε : Type*}

structure Ok (owns : ε → Nat → Prop) (log : List Nat) (next : Nat) : Prop where
  made : ∀ e b, owns e b → b < next
  owner : ∀ e e' b, owns e b → owns e' b → e = e'
  logged : ∀ b ∈ log, b < next
  kept : ∀ e b, owns e b → b ∉ log
  once : log.Nodup

variable {owns owns' : ε → Nat → Prop} {log : List Nat} {next next' : Nat}

theorem Ok.nil (hnone : ∀ e b, ¬ owns e b) : Ok owns [] next where
  made e b h := absurd h (hnone e b)
  owner e _ b h _ := absurd h (hnone e b)
  logged b hb := by cases hb
  kept e b h := absurd h (hnone e b)
  once := .nil

/-- Owners may lose what they have. -/
theorem Ok.mono (h : Ok owns log next) (hle : ∀ e b, owns' e b → owns e b)
    (hnext : next ≤ next') : Ok owns' log next' where
  made e b hb := Nat.lt_of_lt_of_le (h.made e b (hle e b hb)) hnext
  owner e e' b hb hb' := h.owner e e' b (hle e b hb) (hle e' b hb')
  logged b hb := Nat.lt_of_lt_of_le (h.logged b hb) hnext
  kept e b hb := h.kept e b (hle e b hb)
  once := h.once

/-- One owner gets the next thing. -/
theorem Ok.make (h : Ok owns log next) (x : ε)
    (hle : ∀ e b, owns' e b → owns e b ∨ e = x ∧ b = next) : Ok owns' log (next + 1) where
  made e b hb := by
    rcases hle e b hb with hold | ⟨-, rfl⟩
    · exact Nat.lt_succ_of_lt (h.made e b hold)
    · exact Nat.lt_succ_self _
  owner e e' b hb hb' := by
    rcases hle e b hb with hold | ⟨rfl, rfl⟩ <;> rcases hle e' b hb' with hold' | ⟨rfl, hnew⟩
    · exact h.owner e e' b hold hold'
    · exact absurd (h.made e b hold) (hnew ▸ Nat.lt_irrefl _)
    · exact absurd (h.made e' _ hold') (Nat.lt_irrefl _)
    · rfl
  logged b hb := Nat.lt_succ_of_lt (h.logged b hb)
  kept e b hb hmem := by
    rcases hle e b hb with hold | ⟨-, rfl⟩
    · exact h.kept e b hold hmem
    · exact absurd (h.logged _ hmem) (Nat.lt_irrefl _)
  once := h.once

/-- What `x` has goes to `y`. -/
theorem Ok.pass (h : Ok owns log next) (x y : ε)
    (hle : ∀ e b, owns' e b → owns e b ∧ e ≠ x ∨ e = y ∧ owns x b) : Ok owns' log next where
  made e b hb := by
    rcases hle e b hb with ⟨hold, -⟩ | ⟨-, hpassed⟩
    · exact h.made e b hold
    · exact h.made x b hpassed
  owner e e' b hb hb' := by
    rcases hle e b hb with ⟨hold, hne⟩ | ⟨rfl, hpassed⟩ <;>
      rcases hle e' b hb' with ⟨hold', hne'⟩ | ⟨rfl, hpassed'⟩
    · exact h.owner e e' b hold hold'
    · exact absurd (h.owner e x b hold hpassed') hne
    · exact absurd (h.owner e' x b hold' hpassed) hne'
    · rfl
  logged := h.logged
  kept e b hb := by
    rcases hle e b hb with ⟨hold, -⟩ | ⟨-, hpassed⟩
    · exact h.kept e b hold
    · exact h.kept x b hpassed
  once := h.once

/-- Some owners go away and give back what they have, each thing once. -/
theorem Ok.release (h : Ok owns log next) (given : List (ε × Nat)) {log' : List Nat}
    (hlog : log'.Perm (given.map Prod.snd ++ log)) (hgiven : ∀ p ∈ given, owns p.1 p.2)
    (hnodup : given.Nodup) (hle : ∀ e b, owns' e b → owns e b ∧ e ∉ given.map Prod.fst)
    (hnext : next ≤ next') : Ok owns' log' next' where
  made e b hb := Nat.lt_of_lt_of_le (h.made e b (hle e b hb).1) hnext
  owner e e' b hb hb' := h.owner e e' b (hle e b hb).1 (hle e' b hb').1
  logged b hb := by
    rcases List.mem_append.mp (hlog.mem_iff.mp hb) with hgone | hold
    · obtain ⟨p, hp, rfl⟩ := List.mem_map.mp hgone
      exact Nat.lt_of_lt_of_le (h.made _ _ (hgiven p hp)) hnext
    · exact Nat.lt_of_lt_of_le (h.logged b hold) hnext
  kept e b hb hmem := by
    obtain ⟨hold, hstays⟩ := hle e b hb
    rcases List.mem_append.mp (hlog.mem_iff.mp hmem) with hgone | hlogged
    · obtain ⟨p, hp, rfl⟩ := List.mem_map.mp hgone
      obtain rfl := h.owner _ _ _ hold (hgiven p hp)
      exact hstays (List.mem_map_of_mem hp)
    · exact h.kept e b hold hlogged
  once := by
    refine hlog.nodup_iff.mpr (List.nodup_append.mpr ⟨?_, h.once, ?_⟩)
    · refine (List.nodup_map_iff_inj_on hnodup).mpr ?_
      intro p hp q hq heq
      have hpq := h.owner p.1 q.1 p.2 (hgiven p hp) (heq ▸ hgiven q hq)
      exact Prod.ext hpq heq
    · rintro b hgone b' hlogged rfl
      obtain ⟨p, hp, rfl⟩ := List.mem_map.mp hgone
      exact h.kept _ _ (hgiven p hp) hlogged

/-- Nothing is lost. -/
def Full (owns : ε → Nat → Prop) (log : List Nat) (next : Nat) : Prop :=
  ∀ b < next, b ∈ log ∨ ∃ e, owns e b

theorem Full.nil : Full owns [] 0 := fun b hb => absurd hb (Nat.not_lt_zero b)

/-- Each thing stays with its owner, or passes to another, or is given back. -/
theorem Full.mono (h : Full owns log next) {log' : List Nat} (hlog : ∀ b ∈ log, b ∈ log')
    (hkeep : ∀ e b, owns e b → b ∈ log' ∨ ∃ e', owns' e' b) : Full owns' log' next := fun b hb =>
  (h b hb).elim (fun hgone => Or.inl (hlog b hgone)) fun ⟨e, he⟩ => hkeep e b he

theorem Full.make (h : Full owns log next) (x : ε) (hnew : owns' x next)
    (hkeep : ∀ e b, owns e b → owns' e b) : Full owns' log (next + 1) := fun b hb => by
  rcases Nat.lt_succ_iff_lt_or_eq.mp hb with hlt | rfl
  · exact (h b hlt).imp_right fun ⟨e, he⟩ => ⟨e, hkeep e b he⟩
  · exact Or.inr ⟨x, hnew⟩

end Custody
