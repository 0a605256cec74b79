import Mathlib.Data.List.Induction
import Mathlib.Data.List.Nodup
import Mathlib.Logic.Function.Basic

/-!
# Intrusive doubly linked lists

Nodes carry a pointer to the next and to the previous node, and each list has a
pointer to its head and to its tail.

* `Follows step start l`: the walk from `start` meets `l` and then NULL.
* `Chain next prev before l after`: the nodes of `l` are linked to each other, to
  `before` at the front and to `after` at the back.
* `Lists`: the pointers hold a family of lists, with an owner in each node.
* `Lists.unlink` and `Lists.link`: taking a node out and putting one in, given what
  each pointer is afterwards, in whatever order it was written.
-/

namespace IntrusiveList

variable {ν κ : Type*}

/-- The walk along `step` from `start` meets the nodes of `l`, and then NULL. -/
def Follows (step : ν → Option ν) : Option ν → List ν → Prop
  | start, [] => start = none
  | start, x :: l => start = some x ∧ Follows step (step x) l

/-- The nodes of a list are linked in its order. -/
def Chain (next prev : ν → Option ν) : Option ν → List ν → Option ν → Prop
  | _, [], _ => True
  | before, x :: l, after =>
    prev x = before ∧ next x = l.head?.or after ∧ Chain next prev (some x) l after

/-- The pointers hold these lists. -/
structure Lists (next prev : ν → Option ν) (head tail : κ → Option ν) (owner : ν → Option κ)
    (lists : κ → List ν) : Prop where
  head : ∀ k, head k = (lists k).head?
  tail : ∀ k, tail k = (lists k).getLast?
  nodup : ∀ k, (lists k).Nodup
  chain : ∀ k, Chain next prev none (lists k) none
  owner : ∀ k, ∀ x ∈ lists k, owner x = some k

section

variable {next prev next' prev' step : ν → Option ν} {before before' after after' start : Option ν}
  {l l' l₁ l₂ : List ν} {x y : ν}

/-! ## Walks -/

/-! ## Chains -/

theorem chain_append : Chain next prev before (l₁ ++ l₂) after
    ↔ Chain next prev before l₁ (l₂.head?.or after)
      ∧ Chain next prev (l₁.getLast?.or before) l₂ after := by
  induction l₁ generalizing before with
  | nil => simp [Chain]
  | cons x l ih =>
    have hlast : ((x :: l).getLast?.or before) = l.getLast?.or (some x) := by
      cases hl : l.getLast? with
      | none => simp [List.getLast?_eq_none_iff.mp hl]
      | some y => simp [List.getLast?_cons, hl]
    rw [List.cons_append, hlast]
    simp only [Chain, ih, List.head?_append, Option.or_assoc]
    tauto

/-- A chain does not see the pointers of other nodes. -/
theorem Chain.congr (h : Chain next prev before l after)
    (hnext : ∀ y ∈ l, next' y = next y) (hprev : ∀ y ∈ l, prev' y = prev y) :
    Chain next' prev' before l after := by
  induction l generalizing before with
  | nil => trivial
  | cons x l ih =>
    obtain ⟨hx, hx', hl⟩ := h
    refine ⟨?_, ?_, ih hl (fun y hy => hnext y (List.mem_cons_of_mem x hy)) fun y hy =>
      hprev y (List.mem_cons_of_mem x hy)⟩
    · rw [hprev x List.mem_cons_self, hx]
    · rw [hnext x List.mem_cons_self, hx']

theorem Chain.forward (h : Chain next prev before l none) : Follows next l.head? l := by
  induction l generalizing before with
  | nil => rfl
  | cons x l ih =>
    obtain ⟨-, hx, hl⟩ := h
    refine ⟨rfl, ?_⟩
    rw [hx, Option.or_none]
    exact ih hl

theorem Chain.backward (h : Chain next prev none l after) : Follows prev l.getLast? l.reverse := by
  induction l using List.reverseRecOn generalizing after with
  | nil => rfl
  | append_singleton l x ih =>
    obtain ⟨hl, hx, -⟩ := chain_append.mp h
    rw [List.getLast?_concat, List.reverse_append]
    refine ⟨rfl, ?_⟩
    rw [hx, Option.or_none]
    exact ih hl

/-- A node in a chain has its neighbours on both sides. -/
theorem Chain.neighbours (h : Chain next prev none (l₁ ++ x :: l₂) none) :
    prev x = l₁.getLast? ∧ next x = l₂.head? := by
  obtain ⟨-, hprev, hnext, -⟩ := chain_append.mp h
  exact ⟨by rw [hprev, Option.or_none], by rw [hnext, Option.or_none]⟩

/-! ## Writing pointers -/

variable [DecidableEq ν]

/-- Another node comes before. -/
theorem Chain.setBefore (h : Chain next prev before l after) (hnodup : l.Nodup)
    (hnext : ∀ y ∈ l, next' y = next y)
    (hprev : ∀ y ∈ l, prev' y = if l.head? = some y then before' else prev y) :
    Chain next' prev' before' l after := by
  cases l with
  | nil => trivial
  | cons x l =>
    obtain ⟨-, hx, hl⟩ := h
    have hfront := hprev x List.mem_cons_self
    rw [List.head?_cons, if_pos rfl] at hfront
    refine ⟨hfront, ?_, hl.congr (fun y hy => hnext y (List.mem_cons_of_mem x hy)) fun y hy => ?_⟩
    · rw [hnext x List.mem_cons_self, hx]
    · have hne : x ≠ y := fun heq => (List.nodup_cons.mp hnodup).1 (heq ▸ hy)
      rw [hprev y (List.mem_cons_of_mem x hy), List.head?_cons, if_neg]
      exact fun heq => hne (Option.some.inj heq)

/-- Another node comes after. -/
theorem Chain.setAfter (h : Chain next prev before l after) (hnodup : l.Nodup)
    (hnext : ∀ y ∈ l, next' y = if l.getLast? = some y then after' else next y)
    (hprev : ∀ y ∈ l, prev' y = prev y) : Chain next' prev' before l after' := by
  rcases List.eq_nil_or_concat l with rfl | ⟨l₁, x, rfl⟩
  · trivial
  · rw [List.concat_eq_append] at *
    obtain ⟨hfront, hx, -⟩ := chain_append.mp h
    rw [List.getLast?_concat] at hnext
    have hlast := hnext x (by simp)
    rw [if_pos rfl] at hlast
    refine chain_append.mpr ⟨hfront.congr (fun y hy => ?_) fun y hy => ?_, ?_, ?_, trivial⟩
    · have hne : x ≠ y := by
        intro heq
        have hdisj := List.nodup_append.mp hnodup
        exact hdisj.2.2 y hy x List.mem_cons_self heq.symm
      rw [hnext y (List.mem_append_left _ hy), if_neg]
      exact fun heq => hne (Option.some.inj heq)
    · exact hprev y (List.mem_append_left _ hy)
    · rw [hprev x (by simp), hx]
    · simpa using hlast

/-- A node is put in between. -/
theorem Chain.link (h : Chain next prev none (l₁ ++ l₂) none) (hnodup : (l₁ ++ l₂).Nodup)
    (hnext_self : next' x = l₂.head?) (hprev_self : prev' x = l₁.getLast?)
    (hnext : ∀ y ∈ l₁ ++ l₂, next' y = if l₁.getLast? = some y then some x else next y)
    (hprev : ∀ y ∈ l₁ ++ l₂, prev' y = if l₂.head? = some y then some x else prev y) :
    Chain next' prev' none (l₁ ++ x :: l₂) none := by
  obtain ⟨hfront, hback⟩ := chain_append.mp h
  obtain ⟨hn₁, hn₂, hdisj⟩ := List.nodup_append.mp hnodup
  refine chain_append.mpr ⟨?_, ?_, ?_, ?_⟩
  · refine hfront.setAfter hn₁ (fun y hy => hnext y (List.mem_append_left _ hy)) fun y hy => ?_
    rw [hprev y (List.mem_append_left _ hy), if_neg]
    intro heq
    exact hdisj y hy y (List.mem_of_mem_head? heq) rfl
  · rw [hprev_self, Option.or_none]
  · rw [hnext_self, Option.or_none]
  · refine hback.setBefore hn₂ (fun y hy => ?_) fun y hy => hprev y (List.mem_append_right _ hy)
    rw [hnext y (List.mem_append_right _ hy), if_neg]
    intro heq
    exact hdisj y (List.mem_of_mem_getLast? heq) y hy rfl

/-- A node is taken out. -/
theorem Chain.unlink (h : Chain next prev none (l₁ ++ x :: l₂) none)
    (hnodup : (l₁ ++ x :: l₂).Nodup)
    (hnext : ∀ y ∈ l₁ ++ l₂, next' y = if prev x = some y then next x else next y)
    (hprev : ∀ y ∈ l₁ ++ l₂, prev' y = if next x = some y then prev x else prev y) :
    Chain next' prev' none (l₁ ++ l₂) none := by
  obtain ⟨hx, hx'⟩ := h.neighbours
  rw [hx, hx'] at hnext hprev
  obtain ⟨hfront, -, -, hback⟩ := chain_append.mp h
  have hsub : (l₁ ++ l₂).Nodup := hnodup.sublist ((List.sublist_cons_self x l₂).append_left l₁)
  obtain ⟨hn₁, hn₂, hdisj⟩ := List.nodup_append.mp hsub
  refine chain_append.mpr ⟨?_, ?_⟩
  · rw [Option.or_none]
    refine hfront.setAfter hn₁ (fun y hy => hnext y (List.mem_append_left _ hy)) fun y hy => ?_
    rw [hprev y (List.mem_append_left _ hy), if_neg]
    intro heq
    exact hdisj y hy y (List.mem_of_mem_head? heq) rfl
  · rw [Option.or_none]
    refine hback.setBefore hn₂ (fun y hy => ?_) fun y hy => hprev y (List.mem_append_right _ hy)
    rw [hnext y (List.mem_append_right _ hy), if_neg]
    intro heq
    exact hdisj y (List.mem_of_mem_getLast? heq) y hy rfl

end

/-! ## Families of lists -/

section

variable {next prev next' prev' : ν → Option ν} {head tail head' tail' : κ → Option ν}
  {owner owner' : ν → Option κ} {lists : κ → List ν} {k : κ} {x y : ν} {l₁ l₂ : List ν}

theorem Lists.forward (h : Lists next prev head tail owner lists) (k : κ) :
    Follows next (head k) (lists k) := by
  rw [h.head]
  exact (h.chain k).forward

theorem Lists.backward (h : Lists next prev head tail owner lists) (k : κ) :
    Follows prev (tail k) (lists k).reverse := by
  rw [h.tail]
  exact (h.chain k).backward

/-- No node is in two lists. -/
theorem Lists.unique (h : Lists next prev head tail owner lists) {i j : κ} (hi : x ∈ lists i)
    (hj : x ∈ lists j) : i = j :=
  Option.some.inj ((h.owner i x hi).symm.trans (h.owner j x hj))

/-- The neighbours of a node are in its own list. -/
theorem Lists.neighbour (h : Lists next prev head tail owner lists) (hx : x ∈ lists k)
    (hy : prev x = some y ∨ next x = some y) : y ∈ lists k ∧ y ≠ x := by
  obtain ⟨l₁, l₂, hk⟩ := List.append_of_mem hx
  have hnodup := h.nodup k
  have hchain := h.chain k
  rw [hk] at hnodup hchain ⊢
  obtain ⟨hprev, hnext⟩ := hchain.neighbours
  obtain ⟨-, hn₂, hdisj⟩ := List.nodup_append.mp hnodup
  rcases hy with hy | hy
  · have hmem := List.mem_of_getLast? (hprev ▸ hy)
    exact ⟨List.mem_append_left _ hmem, hdisj y hmem x List.mem_cons_self⟩
  · have hmem := List.mem_of_mem_head? (hnext ▸ hy)
    refine ⟨List.mem_append_right _ (List.mem_cons_of_mem x hmem), ?_⟩
    intro heq
    exact (List.nodup_cons.mp hn₂).1 (heq ▸ hmem)

variable [DecidableEq ν] [DecidableEq κ]

/-- A node is taken out of its list. -/
theorem Lists.unlink (h : Lists next prev head tail owner lists) (hx : x ∈ lists k)
    (hnext : ∀ y, y ≠ x → next' y = if prev x = some y then next x else next y)
    (hprev : ∀ y, y ≠ x → prev' y = if next x = some y then prev x else prev y)
    (hhead : ∀ i, head' i = if i = k ∧ prev x = none then next x else head i)
    (htail : ∀ i, tail' i = if i = k ∧ next x = none then prev x else tail i)
    (howner : ∀ y, y ≠ x → owner' y = owner y) :
    Lists next' prev' head' tail' owner' (fun i => (lists i).erase x) := by
  obtain ⟨l₁, l₂, hk⟩ := List.append_of_mem hx
  have hnodup := h.nodup k
  have hchain := h.chain k
  rw [hk] at hnodup hchain
  obtain ⟨hpx, hnx⟩ := hchain.neighbours
  obtain ⟨-, hn₂, hdisj⟩ := List.nodup_append.mp hnodup
  have hout₁ : x ∉ l₁ := fun hin => hdisj x hin x List.mem_cons_self rfl
  have hout₂ : x ∉ l₂ := (List.nodup_cons.mp hn₂).1
  have herase : (lists k).erase x = l₁ ++ l₂ := by
    rw [hk, List.erase_append_right _ hout₁, List.erase_cons_head]
  have hother : ∀ i, i ≠ k → (lists i).erase x = lists i ∧ x ∉ lists i := by
    intro i hi
    have hout : x ∉ lists i := fun hin => hi (h.unique hin hx)
    exact ⟨List.erase_of_not_mem hout, hout⟩
  refine ⟨fun i => ?_, fun i => ?_, fun i => (h.nodup i).erase x, fun i => ?_, fun i y hy => ?_⟩
  · rw [hhead]
    by_cases hi : i = k
    · subst hi
      rw [herase, hnx, h.head, hk, hpx]
      cases l₁ <;> simp
    · rw [if_neg (fun hand => hi hand.1), (hother i hi).1, h.head]
  · rw [htail]
    by_cases hi : i = k
    · subst hi
      rw [herase, hnx, h.tail, hk, hpx]
      cases l₂ <;> simp [List.getLast?_append, List.getLast?_cons]
    · rw [if_neg (fun hand => hi hand.1), (hother i hi).1, h.tail]
  · by_cases hi : i = k
    · subst hi
      rw [herase]
      have hne : ∀ y ∈ l₁ ++ l₂, y ≠ x := by
        intro y hy heq
        rw [heq] at hy
        exact (List.mem_append.mp hy).elim hout₁ hout₂
      exact hchain.unlink hnodup (fun y hy => hnext y (hne y hy)) fun y hy => hprev y (hne y hy)
    · rw [(hother i hi).1]
      refine (h.chain i).congr (fun y hy => ?_) fun y hy => ?_
      · have hyx : y ≠ x := fun heq => (hother i hi).2 (heq ▸ hy)
        rw [hnext y hyx, if_neg]
        exact fun heq => hi (h.unique hy (h.neighbour hx (Or.inl heq)).1)
      · have hyx : y ≠ x := fun heq => (hother i hi).2 (heq ▸ hy)
        rw [hprev y hyx, if_neg]
        exact fun heq => hi (h.unique hy (h.neighbour hx (Or.inr heq)).1)
  · obtain ⟨hyx, hin⟩ := (h.nodup i).mem_erase_iff.mp hy
    rw [howner y hyx]
    exact h.owner i y hin

/-- A node that is in no list is put between two neighbours of one. -/
theorem Lists.link (h : Lists next prev head tail owner lists) (hx : ∀ i, x ∉ lists i)
    (hk : lists k = l₁ ++ l₂)
    (hnext_self : next' x = l₂.head?) (hprev_self : prev' x = l₁.getLast?)
    (hnext : ∀ y, y ≠ x → next' y = if l₁.getLast? = some y then some x else next y)
    (hprev : ∀ y, y ≠ x → prev' y = if l₂.head? = some y then some x else prev y)
    (hhead : ∀ i, head' i = if i = k ∧ l₁ = [] then some x else head i)
    (htail : ∀ i, tail' i = if i = k ∧ l₂ = [] then some x else tail i)
    (howner_self : owner' x = some k) (howner : ∀ y, y ≠ x → owner' y = owner y) :
    Lists next' prev' head' tail' owner' (Function.update lists k (l₁ ++ x :: l₂)) := by
  have hnodup := h.nodup k
  have hchain := h.chain k
  have hout := hx k
  rw [hk] at hnodup hchain hout
  have hne : ∀ i, ∀ y ∈ lists i, y ≠ x := fun i y hy heq => hx i (heq ▸ hy)
  refine ⟨fun i => ?_, fun i => ?_, fun i => ?_, fun i => ?_, fun i y hy => ?_⟩
  · rw [hhead, Function.update_apply]
    by_cases hi : i = k
    · subst hi
      rw [if_pos rfl, h.head, hk]
      cases l₁ <;> simp
    · rw [if_neg hi, if_neg (fun hand => hi hand.1), h.head]
  · rw [htail, Function.update_apply]
    by_cases hi : i = k
    · subst hi
      rw [if_pos rfl, h.tail, hk]
      cases l₂ <;> simp [List.getLast?_append, List.getLast?_cons]
    · rw [if_neg hi, if_neg (fun hand => hi hand.1), h.tail]
  · rw [Function.update_apply]
    split
    · exact List.nodup_middle.mpr (List.nodup_cons.mpr ⟨hout, hnodup⟩)
    · exact h.nodup i
  · rw [Function.update_apply]
    split
    · refine hchain.link hnodup hnext_self hprev_self (fun y hy => ?_) fun y hy => ?_
      · exact hnext y (hne k y (hk ▸ hy))
      · exact hprev y (hne k y (hk ▸ hy))
    · next hi =>
      refine (h.chain i).congr (fun y hy => ?_) fun y hy => ?_
      · rw [hnext y (hne i y hy), if_neg]
        intro heq
        have hin : y ∈ lists k := by
          rw [hk]
          exact List.mem_append_left _ (List.mem_of_getLast? heq)
        exact hi (h.unique hy hin)
      · rw [hprev y (hne i y hy), if_neg]
        intro heq
        have hin : y ∈ lists k := by
          rw [hk]
          exact List.mem_append_right _ (List.mem_of_mem_head? heq)
        exact hi (h.unique hy hin)
  · by_cases hyx : y = x
    · subst hyx
      by_cases hi : i = k
      · rw [hi, howner_self]
      · rw [Function.update_of_ne hi] at hy
        exact absurd hy (hx i)
    · rw [howner y hyx]
      by_cases hi : i = k
      · subst hi
        rw [Function.update_self] at hy
        refine h.owner i y ?_
        rw [hk]
        simpa [hyx] using hy
      · rw [Function.update_of_ne hi] at hy
        exact h.owner i y hy

end

end IntrusiveList
