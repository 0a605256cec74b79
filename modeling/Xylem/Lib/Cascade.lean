import Mathlib.Order.Basic
import Mathlib.Data.List.Perm.Subperm
import Mathlib.Data.List.Nodup

/-!
# Cascading release

Each thing may be held by its parent, and by others.  When the last holder of a
thing lets it go, the thing releases its children in turn and falls.

* `Falls root x`: the release of `root` takes `x` down.
* `Orphaned root x`: the parent of `x` falls.
* `Work` is a cascade at work, one frame for each thing that is releasing its
  children, the innermost first.

A cascade that runs to its end has let go every orphan once, and has taken down
what falls (`Ok.finished`); and it does run to its end (`Ok.finishes`).
-/

namespace Cascade

variable {α : Type*} (parent : α → Option α) (last : α → Prop)

inductive Falls (root : α) : α → Prop
  | root : Falls root root
  | child {p x : α} (hp : Falls root p) (hx : parent x = some p) (hl : last x) : Falls root x

def Orphaned (root x : α) : Prop := ∃ p, Falls parent last root p ∧ parent x = some p

/-- The frames are the things that are at work, each with the children that it
has yet to release. -/
structure Work (α : Type*) where
  frames : List (α × List α)
  taken : List α
  gone : List α

inductive Next : Work α → Work α → Prop
  /-- The next child has another holder. -/
  | release {p x : α} {rest : List α} {k : List (α × List α)} {t g : List α} (hx : ¬ last x) :
      Next ⟨(p, x :: rest) :: k, t, g⟩ ⟨(p, rest) :: k, x :: t, g⟩
  | enter {p x : α} {rest children : List α} {k : List (α × List α)} {t g : List α}
      (hx : last x) (hn : children.Nodup) (hc : ∀ y, y ∈ children ↔ parent y = some x) :
      Next ⟨(p, x :: rest) :: k, t, g⟩ ⟨(x, children) :: (p, rest) :: k, x :: t, g⟩
  | fall {p : α} {k : List (α × List α)} {t g : List α} :
      Next ⟨(p, []) :: k, t, g⟩ ⟨k, t, p :: g⟩

/-- What is at work or has fallen. -/
def Work.down (s : Work α) : List α := s.frames.map Prod.fst ++ s.gone

/-- The invariant of a cascade. -/
structure Ok (root : α) (s : Work α) : Prop where
  root_mem : root ∈ s.taken
  down : ∀ p ∈ s.down, Falls parent last root p ∧ p ∈ s.taken
  origin : ∀ x ∈ s.taken, x = root ∨ ∃ p ∈ s.down, parent x = some p
  falling : ∀ x ∈ s.taken, x = root ∨ last x → x ∈ s.down
  children : ∀ p ∈ s.gone, ∀ x, parent x = some p → x ∈ s.taken
  pending : ∀ f ∈ s.frames, f.2.Nodup ∧ ∀ x, x ∈ f.2 ↔ parent x = some f.1 ∧ x ∉ s.taken
  down_nodup : s.down.Nodup
  taken_nodup : s.taken.Nodup

/-- A cascade that begins at `root`. -/
def Work.begin (root : α) (children : List α) : Work α := ⟨[(root, children)], [root], []⟩

variable {parent last} {root p x : α} {s s' : Work α}

/-! ## Forests -/

theorem Falls.le [Preorder α] (hlt : ∀ x p, parent x = some p → p < x)
    (h : Falls parent last root x) : root ≤ x := by
  induction h with
  | root => exact le_rfl
  | child hp hx hl ih => exact ih.trans (hlt _ _ hx).le

/-- What falls is no parent of the root. -/
theorem Falls.not_parent [Preorder α] (hlt : ∀ x p, parent x = some p → p < x)
    (h : Falls parent last root p) : parent root ≠ some p := fun hp =>
  (h.le hlt).not_gt (hlt _ _ hp)

/-! ## One step -/

theorem Ok.begin [Preorder α] (hlt : ∀ x p, parent x = some p → p < x) {children : List α}
    (hn : children.Nodup) (hc : ∀ y, y ∈ children ↔ parent y = some root) :
    Ok parent last root (.begin root children) where
  root_mem := List.mem_singleton_self root
  down p hp := by
    obtain rfl : p = root := by simpa [Work.begin, Work.down] using hp
    exact ⟨.root, List.mem_singleton_self p⟩
  origin x hx := Or.inl (List.mem_singleton.mp hx)
  falling x hx _ := by simpa [Work.begin, Work.down] using hx
  children p hp := nomatch hp
  pending f hf := by
    obtain rfl := List.mem_singleton.mp hf
    refine ⟨hn, fun x => (hc x).trans (iff_self_and.mpr fun hx hin => ?_)⟩
    obtain rfl := List.mem_singleton.mp hin
    exact lt_irrefl _ (hlt _ _ hx)
  down_nodup := List.nodup_singleton root
  taken_nodup := List.nodup_singleton root

/-- What holds of the child that is next. -/
theorem Ok.next {rest : List α} {k : List (α × List α)} {t g : List α}
    (h : Ok parent last root ⟨(p, x :: rest) :: k, t, g⟩) :
    parent x = some p ∧ x ∉ t ∧ Falls parent last root p ∧ x ∉ rest ∧ rest.Nodup := by
  obtain ⟨hn, hmem⟩ := h.pending _ List.mem_cons_self
  obtain ⟨hx, hnot⟩ := (hmem x).mp List.mem_cons_self
  exact ⟨hx, hnot, (h.down p List.mem_cons_self).1, List.nodup_cons.mp hn⟩

/-- The children that are left, once the next one has lost its holder. -/
theorem Ok.pending_tail {rest : List α} {k : List (α × List α)} {t g : List α}
    (h : Ok parent last root ⟨(p, x :: rest) :: k, t, g⟩) :
    ∀ f ∈ (p, rest) :: k, f.2.Nodup ∧ ∀ y, y ∈ f.2 ↔ parent y = some f.1 ∧ y ∉ x :: t := by
  obtain ⟨hx, -, -, hrest, hn⟩ := h.next
  intro f hf
  rcases List.mem_cons.mp hf with rfl | hf
  · refine ⟨hn, fun y => ?_⟩
    have hy := (h.pending _ List.mem_cons_self).2 y
    simp only [List.mem_cons, not_or] at hy ⊢
    constructor
    · intro hin
      exact ⟨(hy.mp (Or.inr hin)).1, fun heq => hrest (heq ▸ hin), (hy.mp (Or.inr hin)).2⟩
    · rintro ⟨hp, hne, hnot⟩
      exact (hy.mpr ⟨hp, hnot⟩).resolve_left hne
  · obtain ⟨hnf, hmem⟩ := h.pending f (List.mem_cons_of_mem _ hf)
    refine ⟨hnf, fun y => (hmem y).trans (and_congr_right fun hp => ?_)⟩
    have hne : f.1 ≠ p := fun heq => by
      have hnodup := (List.nodup_append.mp h.down_nodup).1
      exact (List.nodup_cons.mp hnodup).1 (List.mem_map.mpr ⟨f, hf, heq⟩)
    have hyx : y ≠ x := fun heq => hne (Option.some.inj ((heq ▸ hp).symm.trans hx))
    simp [hyx]

theorem Ok.step [Preorder α] (hlt : ∀ x p, parent x = some p → p < x)
    (h : Ok parent last root s) (hs : Next parent last s s') : Ok parent last root s' := by
  cases hs with
  | @release p x rest k t g hl =>
    obtain ⟨hx, hnot, hp, -, -⟩ := h.next
    exact {
      root_mem := List.mem_cons_of_mem _ h.root_mem
      down := fun q hq => ⟨(h.down q hq).1, List.mem_cons_of_mem _ (h.down q hq).2⟩
      origin := List.forall_mem_cons.mpr ⟨Or.inr ⟨p, List.mem_cons_self, hx⟩, h.origin⟩
      falling := List.forall_mem_cons.mpr ⟨fun hroot => by
        rcases hroot with rfl | hl'
        · exact absurd hx (hp.not_parent hlt)
        · exact absurd hl' hl, h.falling⟩
      children := fun q hq y hy => List.mem_cons_of_mem _ (h.children q hq y hy)
      pending := h.pending_tail
      down_nodup := h.down_nodup
      taken_nodup := List.nodup_cons.mpr ⟨hnot, h.taken_nodup⟩ }
  | @enter p x rest children k t g hl hn hc =>
    obtain ⟨hx, hnot, hp, -, -⟩ := h.next
    have hfalls : Falls parent last root x := .child hp hx hl
    have hdown : ∀ q ∈ ((p, rest) :: k).map Prod.fst ++ g, q ≠ x := fun q hq heq =>
      hnot (heq ▸ (h.down q hq).2)
    have hfresh : ∀ y, parent y = some x → y ∉ x :: t := fun y hy hin => by
      rcases List.mem_cons.mp hin with rfl | hin
      · exact lt_irrefl _ (hlt _ _ hy)
      · rcases h.origin y hin with rfl | ⟨q, hq, hyq⟩
        · exact hfalls.not_parent hlt hy
        · exact hdown q hq (Option.some.inj (hyq.symm.trans hy))
    exact {
      root_mem := List.mem_cons_of_mem _ h.root_mem
      down := List.forall_mem_cons.mpr ⟨⟨hfalls, List.mem_cons_self⟩, fun q hq =>
        ⟨(h.down q hq).1, List.mem_cons_of_mem _ (h.down q hq).2⟩⟩
      origin := List.forall_mem_cons.mpr
        ⟨Or.inr ⟨p, List.mem_cons_of_mem _ List.mem_cons_self, hx⟩, fun y hy =>
          (h.origin y hy).imp_right fun ⟨q, hq, hyq⟩ => ⟨q, List.mem_cons_of_mem _ hq, hyq⟩⟩
      falling := List.forall_mem_cons.mpr ⟨fun _ => List.mem_cons_self, fun y hy hroot =>
        List.mem_cons_of_mem _ (h.falling y hy hroot)⟩
      children := fun q hq y hy => List.mem_cons_of_mem _ (h.children q hq y hy)
      pending := List.forall_mem_cons.mpr ⟨⟨hn, fun y => (hc y).trans
        (iff_self_and.mpr (hfresh y))⟩, h.pending_tail⟩
      down_nodup := List.nodup_cons.mpr ⟨fun hin => hdown x hin rfl, h.down_nodup⟩
      taken_nodup := List.nodup_cons.mpr ⟨hnot, h.taken_nodup⟩ }
  | @fall p k t g =>
    have hdown : ∀ q, q ∈ (Work.mk k t (p :: g)).down ↔ q ∈ (Work.mk ((p, []) :: k) t g).down := by
      intro q
      simp only [Work.down, List.map_cons, List.mem_append, List.mem_cons]
      tauto
    exact {
      root_mem := h.root_mem
      down := fun q hq => h.down q ((hdown q).mp hq)
      origin := fun y hy => (h.origin y hy).imp_right fun ⟨q, hq, hyq⟩ => ⟨q, (hdown q).mpr hq, hyq⟩
      falling := fun y hy hroot => (hdown y).mpr (h.falling y hy hroot)
      children := List.forall_mem_cons.mpr ⟨fun y hy => by
        by_contra hnot
        exact List.not_mem_nil (((h.pending _ List.mem_cons_self).2 y).mpr ⟨hy, hnot⟩),
        h.children⟩
      pending := fun f hf => h.pending f (List.mem_cons_of_mem _ hf)
      down_nodup := (List.perm_middle (a := p)).nodup_iff.mpr h.down_nodup
      taken_nodup := h.taken_nodup }

/-! ## The end -/

/-- A cascade that has ended has let go the root and every orphan, and what falls
is gone. -/
theorem Ok.finished (h : Ok parent last root s) (hend : s.frames = []) :
    (∀ x, x ∈ s.gone ↔ Falls parent last root x)
      ∧ ∀ x, x ∈ s.taken ↔ x = root ∨ Orphaned parent last root x := by
  have hdown : s.down = s.gone := by simp [Work.down, hend]
  have hgone : ∀ x, x ∈ s.gone ↔ Falls parent last root x := fun x => by
    refine ⟨fun hx => (h.down x (hdown.symm ▸ hx)).1, fun hx => ?_⟩
    induction hx with
    | root => exact hdown ▸ h.falling root h.root_mem (Or.inl rfl)
    | child hp hx hl ih => exact hdown ▸ h.falling _ (h.children _ ih _ hx) (Or.inr hl)
  refine ⟨hgone, fun x => ⟨fun hx => ?_, fun hx => ?_⟩⟩
  · exact (h.origin x hx).imp_right fun ⟨p, hp, hxp⟩ => ⟨p, (h.down p hp).1, hxp⟩
  · rcases hx with rfl | ⟨p, hp, hxp⟩
    · exact h.root_mem
    · exact h.children p ((hgone p).mpr hp) x hxp

/-- A cascade whose steps can be followed runs to its end, if all children are
among finitely many things. -/
theorem Ok.finishes [Preorder α] (hlt : ∀ x p, parent x = some p → p < x) {u : List α}
    (hroot : root ∈ u) (hu : ∀ x p, parent x = some p → x ∈ u) {P : Work α → Prop}
    (hnext : ∀ s, Ok parent last root s → s.frames ≠ [] → P s → ∃ s', Next parent last s s' ∧ P s')
    (h : Ok parent last root s) (hs : P s) :
    ∃ s', Ok parent last root s' ∧ s'.frames = [] ∧ P s' := by
  have hbound : ∀ s, Ok parent last root s →
      s.taken.length ≤ u.length ∧ s.gone.length ≤ u.length := fun s h => by
    have htaken : s.taken ⊆ u := fun x hx => by
      rcases h.origin x hx with rfl | ⟨p, -, hp⟩
      · exact hroot
      · exact hu x p hp
    have hgone : s.gone ⊆ u := fun x hx => htaken (h.down x (List.mem_append_right _ hx)).2
    exact ⟨(h.taken_nodup.subperm htaken).length_le,
      ((List.nodup_append.mp h.down_nodup).2.1.subperm hgone).length_le⟩
  induction hn : 2 * u.length - s.taken.length - s.gone.length using Nat.strongRecOn
    generalizing s with
  | ind n ih =>
    by_cases hend : s.frames = []
    · exact ⟨s, h, hend, hs⟩
    · obtain ⟨s', hstep, hs'⟩ := hnext s h hend hs
      have h' := h.step hlt hstep
      obtain ⟨ht, hg⟩ := hbound s' h'
      refine ih _ ?_ h' hs' rfl
      cases hstep <;> simp only [List.length_cons] at * <;> omega

end Cascade
