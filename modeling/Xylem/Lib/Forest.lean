import Mathlib.Data.List.Nodup
import Mathlib.Data.List.Pairwise
import Mathlib.Logic.Function.Basic
import Mathlib.Data.Nat.Basic

/-!
# Forests of numbered nodes

Nodes numbered from `0` in the order of their creation, each with a parent link
and a list of children.  Walks up the parent links and down the child lists take
fuel, as a program that follows pointers does.

* `up` and `down` are the walks, `anc` and `sub` the walks with enough fuel.
* `Wf t n`: the first `n` nodes form a forest, with parents before children.
* `up_eq_anc` and `down_eq_sub`: any fuel above a rank, or above the number of
  nodes that are left, is enough.
* `mem_sub_iff`: the walk down from `x` meets `y` exactly when the walk up from
  `y` meets `x`, and `nodup_sub`: it meets each node once.
* `addLeaf` and what it does to the two walks.
-/

namespace Forest

/-- Parent links and child lists. -/
structure Links where
  parent : ℕ → Option ℕ
  children : ℕ → List ℕ

namespace Links

/-- The nodes met from `x` along the parent links. -/
def up (t : Links) : ℕ → ℕ → List ℕ
  | 0, _ => []
  | fuel + 1, x =>
    x :: match t.parent x with
      | none => []
      | some p => t.up fuel p

/-- The nodes met from `x` down the child lists, depth first. -/
def down (t : Links) : ℕ → ℕ → List ℕ
  | 0, _ => []
  | fuel + 1, x => x :: (t.children x).flatMap (fun c => t.down fuel c)

/-- The first `n` nodes form a forest. -/
structure Wf (t : Links) (n : ℕ) : Prop where
  parent_lt : ∀ {c p}, c < n → t.parent c = some p → p < c
  mem_children : ∀ {p c}, p < n → (c ∈ t.children p ↔ c < n ∧ t.parent c = some p)
  nodup_children : ∀ {p}, p < n → (t.children p).Nodup

/-- The ancestors of `x`, itself first. -/
def anc (t : Links) (x : ℕ) : List ℕ := t.up (x + 1) x

/-- The subtree of `x` among the first `n` nodes. -/
def sub (t : Links) (n x : ℕ) : List ℕ := t.down (n - x) x

variable {t : Links} {n : ℕ}

/-! ## The walk up -/

/-- Two amounts of fuel above a rank that falls along parent links give the same
walk. -/
theorem up_eq_up (rank : ℕ → ℕ) (ht : t.Wf n)
    (hrank : ∀ c p, c < n → t.parent c = some p → rank p < rank c) {f f' x : ℕ} (hx : x < n)
    (hf : rank x < f) (hf' : rank x < f') : t.up f x = t.up f' x := by
  induction f generalizing f' x with
  | zero => omega
  | succ f ih =>
    obtain ⟨g, rfl⟩ : ∃ g, f' = g + 1 := ⟨f' - 1, by omega⟩
    simp only [up]
    cases hp : t.parent x with
    | none => rfl
    | some p =>
      have hlt := hrank x p hx hp
      have hpx := ht.parent_lt hx hp
      have hrec : t.up f p = t.up g p := ih (by omega) (by omega) (by omega)
      simp only [hrec]

/-- Fuel above a rank is enough. -/
theorem up_eq_anc_of_rank (rank : ℕ → ℕ) (ht : t.Wf n)
    (hrank : ∀ c p, c < n → t.parent c = some p → rank p < rank c) {f x : ℕ} (hx : x < n)
    (hf : rank x < f) : t.up f x = t.anc x := by
  have hwide : t.up (f + (x + 1)) x = t.anc x :=
    up_eq_up (fun y => y) ht (fun c p hc hp => ht.parent_lt hc hp) hx (by omega) (by omega)
  rw [← hwide]
  exact up_eq_up rank ht hrank hx hf (by omega)

/-- Fuel above the node's own number is enough. -/
theorem up_eq_anc (ht : t.Wf n) {f x : ℕ} (hx : x < n) (hf : x < f) : t.up f x = t.anc x :=
  up_eq_anc_of_rank (fun y => y) ht (fun _ _ hc hp => ht.parent_lt hc hp) hx hf

theorem anc_of_parent_none {x : ℕ} (hp : t.parent x = none) : t.anc x = [x] := by
  simp [anc, up, hp]

theorem anc_of_parent_some (ht : t.Wf n) {x p : ℕ} (hx : x < n) (hp : t.parent x = some p) :
    t.anc x = x :: t.anc p := by
  have hlt := ht.parent_lt hx hp
  simp only [anc, up, hp, List.cons.injEq, true_and]
  exact up_eq_anc ht (by omega) hlt

theorem self_mem_anc (x : ℕ) : x ∈ t.anc x := by simp [anc, up]

theorem le_of_mem_anc (ht : t.Wf n) {x y : ℕ} (hx : x < n) (hy : y ∈ t.anc x) : y ≤ x := by
  induction x using Nat.strongRecOn with
  | _ x ih =>
    cases hp : t.parent x with
    | none => simp_all [anc_of_parent_none hp]
    | some p =>
      have hlt := ht.parent_lt hx hp
      rw [anc_of_parent_some ht hx hp, List.mem_cons] at hy
      rcases hy with rfl | hy
      · exact le_rfl
      · exact Nat.le_trans (ih p hlt (by omega) hy) (Nat.le_of_lt hlt)

theorem lt_of_mem_anc (ht : t.Wf n) {x y : ℕ} (hx : x < n) (hy : y ∈ t.anc x) : y < n :=
  Nat.lt_of_le_of_lt (le_of_mem_anc ht hx hy) hx

/-- The ancestors of an ancestor are ancestors. -/
theorem anc_trans (ht : t.Wf n) {x y z : ℕ} (hx : x < n) (hy : y ∈ t.anc x) (hz : z ∈ t.anc y) :
    z ∈ t.anc x := by
  induction x using Nat.strongRecOn with
  | _ x ih =>
    cases hp : t.parent x with
    | none =>
      rw [anc_of_parent_none hp, List.mem_singleton] at hy
      exact hy ▸ hz
    | some p =>
      have hlt := ht.parent_lt hx hp
      rw [anc_of_parent_some ht hx hp, List.mem_cons] at hy ⊢
      rcases hy with rfl | hy
      · rwa [anc_of_parent_some ht hx hp, List.mem_cons] at hz
      · exact Or.inr (ih p hlt (by omega) hy)

/-- The ancestors of a node form a chain. -/
theorem anc_total (ht : t.Wf n) {x y z : ℕ} (hx : x < n) (hy : y ∈ t.anc x) (hz : z ∈ t.anc x) :
    y ∈ t.anc z ∨ z ∈ t.anc y := by
  induction x using Nat.strongRecOn with
  | _ x ih =>
    cases hp : t.parent x with
    | none =>
      rw [anc_of_parent_none hp, List.mem_singleton] at hy hz
      subst hy hz
      exact Or.inl (self_mem_anc _)
    | some p =>
      have hlt := ht.parent_lt hx hp
      have hanc := anc_of_parent_some ht hx hp
      rcases List.mem_cons.mp (hanc ▸ hy) with rfl | hy'
      · exact Or.inr hz
      · rcases List.mem_cons.mp (hanc ▸ hz) with rfl | hz'
        · exact Or.inl hy
        · exact ih p hlt (by omega) hy' hz'

theorem pairwise_anc (ht : t.Wf n) {x : ℕ} (hx : x < n) : (t.anc x).Pairwise (· > ·) := by
  induction x using Nat.strongRecOn with
  | _ x ih =>
    cases hp : t.parent x with
    | none => simp [anc_of_parent_none hp]
    | some p =>
      have hlt := ht.parent_lt hx hp
      rw [anc_of_parent_some ht hx hp, List.pairwise_cons]
      refine ⟨fun y hy => ?_, ih p hlt (by omega)⟩
      have := le_of_mem_anc ht (by omega) hy
      omega

theorem nodup_anc (ht : t.Wf n) {x : ℕ} (hx : x < n) : (t.anc x).Nodup :=
  (pairwise_anc ht hx).imp (fun h => Nat.ne_of_gt h)

/-- Along the ancestors a rank is bounded by that of the node they start from. -/
theorem rank_le_of_mem_anc (rank : ℕ → ℕ) (ht : t.Wf n)
    (hrank : ∀ c p, c < n → t.parent c = some p → rank p < rank c) {x y : ℕ} (hx : x < n)
    (hy : y ∈ t.anc x) : rank y ≤ rank x := by
  induction x using Nat.strongRecOn with
  | _ x ih =>
    cases hp : t.parent x with
    | none => simp_all [anc_of_parent_none hp]
    | some p =>
      have hlt := ht.parent_lt hx hp
      rw [anc_of_parent_some ht hx hp, List.mem_cons] at hy
      rcases hy with rfl | hy
      · exact le_rfl
      · exact Nat.le_trans (ih p hlt (by omega) hy) (Nat.le_of_lt (hrank x p hx hp))

/-- The length of a chain is bounded by the rank. -/
theorem length_anc_le (rank : ℕ → ℕ) (ht : t.Wf n)
    (hrank : ∀ c p, c < n → t.parent c = some p → rank p < rank c) {x : ℕ} (hx : x < n) :
    (t.anc x).length ≤ rank x + 1 := by
  induction x using Nat.strongRecOn with
  | _ x ih =>
    cases hp : t.parent x with
    | none => simp [anc_of_parent_none hp]
    | some p =>
      have hlt := ht.parent_lt hx hp
      have := ih p hlt (by omega)
      have := hrank x p hx hp
      rw [anc_of_parent_some ht hx hp, List.length_cons]
      omega

/-- When `0` is the only node without a parent, every chain ends there. -/
theorem getLast?_anc (ht : t.Wf n) (hroot : ∀ x, x < n → t.parent x = none → x = 0) {x : ℕ}
    (hx : x < n) : (t.anc x).getLast? = some 0 := by
  induction x using Nat.strongRecOn with
  | _ x ih =>
    cases hp : t.parent x with
    | none => rw [anc_of_parent_none hp, hroot x hx hp]; rfl
    | some p =>
      have hlt := ht.parent_lt hx hp
      rw [anc_of_parent_some ht hx hp]
      have hrec := ih p hlt (by omega)
      cases hanc : t.anc p with
      | nil => simp [hanc] at hrec
      | cons a l => rw [hanc] at hrec; rwa [List.getLast?_cons_cons]

/-! ## The walk down -/

theorem down_eq_down (ht : t.Wf n) {f f' x : ℕ} (hx : x < n) (hf : n ≤ x + f) (hf' : n ≤ x + f') :
    t.down f x = t.down f' x := by
  induction f generalizing f' x with
  | zero => omega
  | succ f ih =>
    obtain ⟨g, rfl⟩ : ∃ g, f' = g + 1 := ⟨f' - 1, by omega⟩
    simp only [down, List.cons.injEq, true_and]
    refine List.flatMap_congr fun c hc => ?_
    obtain ⟨hcn, hcp⟩ := (ht.mem_children hx).mp hc
    have hlt := ht.parent_lt hcn hcp
    exact ih hcn (by omega) (by omega)

/-- Fuel for all the nodes that are left is enough. -/
theorem down_eq_sub (ht : t.Wf n) {f x : ℕ} (hx : x < n) (hf : n ≤ x + f) :
    t.down f x = t.sub n x :=
  down_eq_down ht hx hf (by omega)

theorem sub_eq (ht : t.Wf n) {x : ℕ} (hx : x < n) :
    t.sub n x = x :: (t.children x).flatMap (fun c => t.sub n c) := by
  obtain ⟨f, hf⟩ : ∃ f, n - x = f + 1 := ⟨n - x - 1, by omega⟩
  rw [sub, hf, down]
  congr 1
  refine List.flatMap_congr fun c hc => ?_
  obtain ⟨hcn, hcp⟩ := (ht.mem_children hx).mp hc
  have hlt := ht.parent_lt hcn hcp
  exact down_eq_sub ht hcn (by omega)

/-- The walk down from `x` meets the nodes that have `x` as an ancestor. -/
theorem mem_sub_iff (ht : t.Wf n) {x y : ℕ} (hx : x < n) :
    y ∈ t.sub n x ↔ y < n ∧ x ∈ t.anc y := by
  constructor
  · intro hy
    induction hk : n - x using Nat.strongRecOn generalizing x with
    | _ k ih =>
      rw [sub_eq ht hx, List.mem_cons, List.mem_flatMap] at hy
      rcases hy with rfl | ⟨c, hc, hy⟩
      · exact ⟨hx, self_mem_anc _⟩
      · obtain ⟨hcn, hcp⟩ := (ht.mem_children hx).mp hc
        have hlt := ht.parent_lt hcn hcp
        obtain ⟨hyn, hcy⟩ := ih (n - c) (by omega) hcn hy rfl
        refine ⟨hyn, anc_trans ht hyn hcy ?_⟩
        rw [anc_of_parent_some ht hcn hcp]
        exact List.mem_cons_of_mem _ (self_mem_anc x)
  · rintro ⟨hyn, hxy⟩
    induction y using Nat.strongRecOn with
    | _ y ih =>
      cases hp : t.parent y with
      | none =>
        rw [anc_of_parent_none hp, List.mem_singleton] at hxy
        rw [sub_eq ht hx, hxy]
        exact List.mem_cons_self
      | some p =>
        have hlt := ht.parent_lt hyn hp
        rw [anc_of_parent_some ht hyn hp, List.mem_cons] at hxy
        rcases hxy with rfl | hxp
        · rw [sub_eq ht hx]; exact List.mem_cons_self
        · exact mem_sub_child ht hx hyn hp (ih p hlt (by omega) hxp)
where
  /-- A child of a node of the subtree is in the subtree. -/
  mem_sub_child (ht : t.Wf n) {x y p : ℕ} (hx : x < n) (hyn : y < n) (hp : t.parent y = some p)
      (hmem : p ∈ t.sub n x) : y ∈ t.sub n x := by
    induction hk : n - x using Nat.strongRecOn generalizing x with
    | _ k ih =>
      rw [sub_eq ht hx, List.mem_cons, List.mem_flatMap] at hmem ⊢
      rcases hmem with rfl | ⟨c, hc, hpc⟩
      · refine Or.inr ⟨y, (ht.mem_children hx).mpr ⟨hyn, hp⟩, ?_⟩
        rw [sub_eq ht hyn]
        exact List.mem_cons_self
      · obtain ⟨hcn, hcp⟩ := (ht.mem_children hx).mp hc
        have hlt := ht.parent_lt hcn hcp
        exact Or.inr ⟨c, hc, ih (n - c) (by omega) hcn hpc rfl⟩

/-- The walk down meets every node once. -/
theorem nodup_sub (ht : t.Wf n) {x : ℕ} (hx : x < n) : (t.sub n x).Nodup := by
  induction hk : n - x using Nat.strongRecOn generalizing x with
  | _ k ih =>
    have hchild : ∀ c ∈ t.children x, c < n ∧ t.parent c = some x ∧ x < c := by
      intro c hc
      obtain ⟨hcn, hcp⟩ := (ht.mem_children hx).mp hc
      exact ⟨hcn, hcp, ht.parent_lt hcn hcp⟩
    rw [sub_eq ht hx, List.nodup_cons, List.nodup_flatMap]
    refine ⟨?_, fun c hc => ?_, ?_⟩
    · rw [List.mem_flatMap]
      rintro ⟨c, hc, hxc⟩
      obtain ⟨hcn, -, hlt⟩ := hchild c hc
      have := le_of_mem_anc ht hx ((mem_sub_iff ht hcn).mp hxc).2
      omega
    · obtain ⟨hcn, -, hlt⟩ := hchild c hc
      exact ih (n - c) (by omega) hcn rfl
    · refine (ht.nodup_children hx).imp_of_mem ?_
      intro c d hc hd hne y hyc hyd
      obtain ⟨hcn, hcp, hxc⟩ := hchild c hc
      obtain ⟨hdn, hdp, hxd⟩ := hchild d hd
      obtain ⟨hyn, hcy⟩ := (mem_sub_iff ht hcn).mp hyc
      have hdy := ((mem_sub_iff ht hdn).mp hyd).2
      have habove : ∀ {a b}, a < n → t.parent a = some x → x < b → b ∈ t.anc a → b = a := by
        intro a b ha hap hxb hb
        rw [anc_of_parent_some ht ha hap, List.mem_cons] at hb
        rcases hb with rfl | hb
        · rfl
        · have := le_of_mem_anc ht hx hb
          omega
      rcases anc_total ht hyn hcy hdy with h | h
      · exact hne (habove hdn hdp hxc h)
      · exact hne (habove hcn hcp hxd h).symm

/-! ## Change of links -/

/-- The walk up depends on the parent links of the nodes it meets. -/
theorem anc_congr (ht : t.Wf n) {t' : Links} {x : ℕ} (hx : x < n)
    (h : ∀ y, y < n → t'.parent y = t.parent y) : t'.anc x = t.anc x := by
  have hup : ∀ f y, y < n → t'.up f y = t.up f y := by
    intro f
    induction f with
    | zero => intro y _; rfl
    | succ f ih =>
      intro y hy
      simp only [up, h y hy]
      cases hp : t.parent y with
      | none => rfl
      | some p =>
        have hlt := ht.parent_lt hy hp
        simp only [ih p (by omega)]
  exact hup _ _ hx

/-- The walk down depends on the child lists of the nodes it meets. -/
theorem down_congr {t' : Links} {f x : ℕ} (h : ∀ y ∈ t.down f x, t'.children y = t.children y) :
    t'.down f x = t.down f x := by
  induction f generalizing x with
  | zero => rfl
  | succ f ih =>
    have hx : t'.children x = t.children x := h x (by simp [down])
    simp only [down, hx, List.cons.injEq, true_and]
    refine List.flatMap_congr fun c hc => ih fun y hy => h y ?_
    simp only [down, List.mem_cons, List.mem_flatMap]
    exact Or.inr ⟨c, hc, hy⟩

/-- The node `n` is made, at the head of the child list of `p`. -/
def addLeaf (t : Links) (n p : ℕ) : Links where
  parent := Function.update t.parent n (some p)
  children := Function.update (Function.update t.children n []) p (n :: t.children p)

theorem addLeaf_wf (ht : t.Wf n) {p : ℕ} (hp : p < n) : (t.addLeaf n p).Wf (n + 1) := by
  have hold : ∀ {c}, c < n → (t.addLeaf n p).parent c = t.parent c := fun hc =>
    Function.update_of_ne (by omega) ..
  have hnew : (t.addLeaf n p).parent n = some p := Function.update_self ..
  refine ⟨?_, ?_, ?_⟩
  · intro c q hc hq
    rcases Nat.lt_succ_iff_lt_or_eq.mp hc with hc | rfl
    · exact ht.parent_lt hc (hold hc ▸ hq)
    · rw [hnew] at hq
      cases hq
      exact hp
  · intro q c hq
    have hparent : (c < n + 1 ∧ (t.addLeaf n p).parent c = some q)
        ↔ (c < n ∧ t.parent c = some q) ∨ (c = n ∧ q = p) := by
      constructor
      · rintro ⟨hc, hcq⟩
        rcases Nat.lt_succ_iff_lt_or_eq.mp hc with hc | rfl
        · exact Or.inl ⟨hc, hold hc ▸ hcq⟩
        · rw [hnew] at hcq
          exact Or.inr ⟨rfl, (Option.some.inj hcq).symm⟩
      · rintro (⟨hc, hcq⟩ | ⟨rfl, rfl⟩)
        · exact ⟨by omega, by rw [hold hc, hcq]⟩
        · exact ⟨by omega, hnew⟩
    rw [hparent]
    by_cases hqp : q = p
    · subst hqp
      simp only [addLeaf, Function.update_self, List.mem_cons, ht.mem_children hp, and_true]
      exact Or.comm
    · by_cases hqn : q = n
      · subst hqn
        have hlt : ∀ c, c < q → t.parent c ≠ some q := fun c hc h => by
          have := ht.parent_lt hc h
          omega
        simp only [addLeaf, Function.update_of_ne hqp, Function.update_self, List.not_mem_nil,
          false_iff, not_or, not_and]
        exact ⟨hlt c, fun _ => hqp⟩
      · simp only [addLeaf, Function.update_of_ne hqp, Function.update_of_ne hqn, hqp, and_false,
          or_false]
        exact ht.mem_children (by omega)
  · intro q hq
    by_cases hqp : q = p
    · subst hqp
      simp only [addLeaf, Function.update_self, List.nodup_cons]
      refine ⟨fun hmem => ?_, ht.nodup_children hp⟩
      have := ((ht.mem_children hp).mp hmem).1
      omega
    · by_cases hqn : q = n
      · subst hqn
        simp [addLeaf, Function.update_of_ne hqp]
      · simp only [addLeaf, Function.update_of_ne hqp, Function.update_of_ne hqn]
        exact ht.nodup_children (by omega)

theorem addLeaf_anc_old (ht : t.Wf n) {p x : ℕ} (hx : x < n) :
    (t.addLeaf n p).anc x = t.anc x :=
  anc_congr ht hx fun _ hy => Function.update_of_ne (by omega) ..

/-- A subtree that does not hold the parent of the new leaf is as it was. -/
theorem addLeaf_sub_old (ht : t.Wf n) {p x : ℕ} (hx : x < n) (hxp : x ∉ t.anc p) :
    (t.addLeaf n p).sub (n + 1) x = t.sub n x := by
  have hfuel : t.down (n + 1 - x) x = t.sub n x := down_eq_sub ht hx (by omega)
  rw [sub, ← hfuel]
  refine down_congr fun y hy => ?_
  rw [hfuel, mem_sub_iff ht hx] at hy
  have hyp : y ≠ p := fun h => hxp (h ▸ hy.2)
  have hyn : y ≠ n := by omega
  simp only [addLeaf, Function.update_of_ne hyp, Function.update_of_ne hyn]

/-! ## Nodes attached under their nearest container -/

/-- Every node is attached under the innermost of the earlier nodes that contain
it, and a root has no other container. -/
structure NearestBy (t : Links) (n : ℕ) (contains : ℕ → ℕ → Prop) : Prop where
  refl : ∀ {x}, x < n → contains x x
  trans : ∀ {x y z}, x < n → y < n → z < n → contains x y → contains y z → contains x z
  antisymm : ∀ {x y}, x < n → y < n → contains x y → contains y x → x = y
  parent : ∀ {x p}, x < n → t.parent x = some p →
    contains p x ∧ ∀ y < x, contains y x → contains y p
  root : ∀ {x y}, x < n → y < n → t.parent x = none → contains y x → y = x

/-- A node is an ancestor of the nodes that it contains, but for those that lie in
another node, within the first, that is not later than the first. -/
theorem NearestBy.mem_anc_iff {contains : ℕ → ℕ → Prop} (h : t.NearestBy n contains)
    (ht : t.Wf n) {a b : ℕ} (ha : a < n) (hb : b < n) :
    a ∈ t.anc b ↔ contains a b ∧ ∀ x < n, x ≠ a → contains a x → contains x b → a < x := by
  induction b using Nat.strongRecOn with
  | _ b ih =>
    constructor
    · intro hab
      cases hp : t.parent b with
      | none =>
        rw [anc_of_parent_none hp, List.mem_singleton] at hab
        subst hab
        exact ⟨h.refl ha, fun x hx hne hax hxa => absurd (h.antisymm hx ha hxa hax) hne⟩
      | some p =>
        rw [anc_of_parent_some ht hb hp, List.mem_cons] at hab
        rcases hab with rfl | hab
        · exact ⟨h.refl ha, fun x hx hne hax hxa => absurd (h.antisymm hx ha hxa hax) hne⟩
        · have hpb := ht.parent_lt hb hp
          have hpn : p < n := Nat.lt_trans hpb hb
          obtain ⟨hap, hfirst⟩ := (ih p hpb hpn).mp hab
          obtain ⟨hcon, hnear⟩ := h.parent hb hp
          refine ⟨h.trans ha hpn hb hap hcon, fun x hx hne hax hxb => ?_⟩
          by_contra hle
          have hle' : a ≤ p := le_of_mem_anc ht hpn hab
          have hxp := hnear x (by omega) hxb
          exact hle (hfirst x hx hne hax hxp)
    · rintro ⟨hab, hfirst⟩
      by_cases heq : b = a
      · subst heq
        exact self_mem_anc b
      · have hlt : a < b := hfirst b hb heq hab (h.refl hb)
        cases hp : t.parent b with
        | none => exact absurd (h.root hb ha hp hab).symm heq
        | some p =>
          have hpb := ht.parent_lt hb hp
          have hpn : p < n := Nat.lt_trans hpb hb
          obtain ⟨hcon, hnear⟩ := h.parent hb hp
          rw [anc_of_parent_some ht hb hp]
          refine List.mem_cons_of_mem _ ((ih p hpb hpn).mpr ⟨hnear a hlt hab, ?_⟩)
          exact fun x hx hne hax hxp => hfirst x hx hne hax (h.trans hx hpn hb hxp hcon)

end Links

end Forest
