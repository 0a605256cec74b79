import Xylem.Lib.Forest
import Xylem.Lib.Prefix
import Xylem.Ops

/-!
# The region tree

`Tree.Wf` says that the regions form a tree of aligned prefixes of growing
width, and that the region table holds each of them under its identity.  The two
ways to make a region keep it (`Tree.Wf.add`).

On such a tree the walks of the source have enough fuel:

* `parentChain_eq` and `regionAncestorChain_eq`: the walks along the parent links
  give the whole chain, which has at most 65 members;
* `collectSubtreeMods_eq`: the walk down gives the modules of the whole subtree;
* `regionNearestAncestor_spec`: the pruned search gives the widest cover;
* `regionAllocSlot_spec`: the allocator gives the lowest slot that is not taken.
-/

namespace Xylem

open Forest

/-- The prefix that a region stands for. -/
def RegionKey.block (k : RegionKey) : Prefix.Block 64 := ⟨k.id, k.plen⟩

theorem RegionKey.block_inj {k k' : RegionKey} (h : k.block = k'.block) : k = k' := by
  cases k; cases k'; simpa [block] using h

theorem regionMask_eq (plen : Nat) : regionMask plen = Prefix.mask 64 plen := rfl

namespace Tree

/-- The links of the tree. -/
def links (t : Tree) : Links :=
  { parent := fun r => (t.node r).parent, children := fun r => (t.node r).children }

/-- What holds of the regions at any time. -/
structure Wf (t : Tree) : Prop where
  forest : t.links.Wf t.count
  pos : 0 < t.count
  root : (t.node 0).key = ⟨0, 0⟩
  root_depth : (t.node 0).depth = 0
  root_orphan : (t.node 0).parent = none
  orphan : ∀ {r}, r < t.count → (t.node r).parent = none → r = 0
  child_plen : ∀ {r p}, r < t.count → (t.node r).parent = some p →
    (t.node p).plen < (t.node r).plen
  child_bits : ∀ {r p}, r < t.count → (t.node r).parent = some p →
    (t.node r).childBits = (t.node r).plen - (t.node p).plen
  child_depth : ∀ {r p}, r < t.count → (t.node r).parent = some p →
    (t.node r).depth = (t.node p).depth + 1
  plen_le : ∀ {r}, r < t.count → (t.node r).plen ≤ 64
  aligned : ∀ {r}, r < t.count → (t.node r).key.block.Aligned
  table : ∀ {k r}, t.table.lookup k = some r ↔ r < t.count ∧ (t.node r).key = k

theorem Wf.child_lt {t : Tree} (h : t.Wf) {p r : Nat} (hp : p < t.count)
    (hr : r ∈ (t.node p).children) : r < t.count :=
  ((h.forest.mem_children hp).mp hr).1

/-- The tree with one more region. -/
def add (t : Tree) (parent : RegionRef) (id : RegionId) (plen childBits : Nat) : Tree where
  node := Function.update
    (Function.update t.node t.count
      { id := id, depth := ((t.node parent).depth + 1) % 256, plen := plen
        childBits := childBits, parent := some parent, children := [] })
    parent { t.node parent with children := t.count :: (t.node parent).children }
  count := t.count + 1
  table := t.table.insert ⟨id, plen⟩ t.count

/-- What is checked before a region is made. -/
structure CanAdd (t : Tree) (parent : Nat) (id : RegionId) (plen childBits : Nat) : Prop where
  parent_lt : parent < t.count
  plen_lt : (t.node parent).plen < plen
  plen_le : plen ≤ 64
  bits : childBits = plen - (t.node parent).plen
  aligned : (RegionKey.mk id plen).block.Aligned
  absent : t.table.lookup ⟨id, plen⟩ = none

variable {t : Tree}

theorem Wf.depth_le_plen (h : t.Wf) {r : Nat} (hr : r < t.count) :
    (t.node r).depth ≤ (t.node r).plen := by
  induction r using Nat.strongRecOn with
  | _ r ih =>
    cases hp : (t.node r).parent with
    | none =>
      obtain rfl := h.orphan hr hp
      rw [h.root_depth]
      exact Nat.zero_le _
    | some p =>
      have hlt := h.forest.parent_lt hr hp
      have := ih p hlt (by omega)
      have := h.child_depth hr hp
      have := h.child_plen hr hp
      omega

theorem Wf.key_inj (h : t.Wf) {r r' : Nat} (hr : r < t.count) (hr' : r' < t.count)
    (hk : (t.node r).key = (t.node r').key) : r = r' := by
  have h1 := h.table.mpr ⟨hr, rfl⟩
  rw [hk, h.table.mpr ⟨hr', rfl⟩] at h1
  exact (Option.some.inj h1).symm

theorem Wf.rank (h : t.Wf) (c p : Nat) (hc : c < t.count) (hp : t.links.parent c = some p) :
    (t.node p).plen < (t.node c).plen :=
  h.child_plen hc hp

section add

variable {p : Nat} {id : RegionId} {plen bits : Nat}

theorem add_links (hlt : p < t.count) : (t.add p id plen bits).links = t.links.addLeaf t.count p := by
  simp only [links, add, Links.addLeaf, Links.mk.injEq]
  constructor
  · funext x
    by_cases hp : x = p
    · subst hp
      have hn : x ≠ t.count := Nat.ne_of_lt hlt
      simp [hn]
    · by_cases hn : x = t.count
      · subst hn; simp [hp]
      · simp [hp, hn]
  · funext x
    by_cases hp : x = p
    · subst hp; simp
    · by_cases hn : x = t.count
      · subst hn; simp [hp]
      · simp [hp, hn]

theorem add_node_new (hp : p < t.count) : (t.add p id plen bits).node t.count
    = { id := id, depth := ((t.node p).depth + 1) % 256, plen := plen, childBits := bits,
        parent := some p, children := [] } := by
  have hne : t.count ≠ p := by omega
  simp [add, Function.update_of_ne hne]

/-- An old region keeps all but its children. -/
theorem add_node_old {r : Nat} (hr : r < t.count) :
    { (t.add p id plen bits).node r with children := [] } = { t.node r with children := [] } := by
  have hne : r ≠ t.count := by omega
  by_cases hp : r = p
  · subst hp; simp [add]
  · simp [add, Function.update_of_ne hp, Function.update_of_ne hne]

theorem add_key_old {r : Nat} (hr : r < t.count) :
    ((t.add p id plen bits).node r).key = (t.node r).key := by
  have heq := @add_node_old t p id plen bits r hr
  simp only [RegionNode.mk.injEq] at heq
  simp [RegionNode.key, heq]

theorem add_parent_old {r : Nat} (hr : r < t.count) :
    ((t.add p id plen bits).node r).parent = (t.node r).parent := by
  have heq := @add_node_old t p id plen bits r hr
  simp only [RegionNode.mk.injEq] at heq
  exact heq.2.2.2.2.1

theorem add_key_new (hp : p < t.count) :
    ((t.add p id plen bits).node t.count).key = ⟨id, plen⟩ := by
  rw [add_node_new hp]
  rfl

/-- The children of a region after one more has been made. -/
theorem mem_add_children (hp : p < t.count) {q x : Nat} (hq : q < t.count + 1)
    (hx : x ∈ ((t.add p id plen bits).node q).children) :
    (q < t.count ∧ x ∈ (t.node q).children) ∨ (q = p ∧ x = t.count) := by
  rcases Nat.lt_succ_iff_lt_or_eq.mp hq with hlt | rfl
  · by_cases hqp : q = p
    · subst hqp
      have hcons : x ∈ t.count :: (t.node q).children := by simpa [add] using hx
      rcases List.mem_cons.mp hcons with rfl | hold
      · exact Or.inr ⟨rfl, rfl⟩
      · exact Or.inl ⟨hlt, hold⟩
    · have hne : q ≠ t.count := Nat.ne_of_lt hlt
      have hold : x ∈ (t.node q).children := by simpa [add, hqp, hne] using hx
      exact Or.inl ⟨hlt, hold⟩
  · rw [add_node_new hp] at hx
    cases hx

end add

/-- Making a region keeps the tree well formed. -/
theorem Wf.add {p : Nat} {id : RegionId} {plen bits : Nat} (h : t.Wf)
    (hadd : t.CanAdd p id plen bits) : (t.add p id plen bits).Wf := by
  obtain ⟨hp, hlt, hle, hbits, haligned, habsent⟩ := hadd
  have hnew := @add_node_new t p id plen bits hp
  have hold : ∀ {r}, r < t.count → ((t.add p id plen bits).node r).key = (t.node r).key
      ∧ ((t.add p id plen bits).node r).plen = (t.node r).plen
      ∧ ((t.add p id plen bits).node r).depth = (t.node r).depth
      ∧ ((t.add p id plen bits).node r).childBits = (t.node r).childBits
      ∧ ((t.add p id plen bits).node r).parent = (t.node r).parent := by
    intro r hr
    have heq := @add_node_old t p id plen bits r hr
    simp only [RegionNode.mk.injEq] at heq
    simp [RegionNode.key, heq]
  have hcases : ∀ {r}, r < (t.add p id plen bits).count → r < t.count ∨ r = t.count :=
    fun hr => Nat.lt_succ_iff_lt_or_eq.mp hr
  have hdepth : ((t.node p).depth + 1) % 256 = (t.node p).depth + 1 := by
    have := h.depth_le_plen hp
    have := h.plen_le hp
    omega
  refine
    { forest := ?_, pos := Nat.succ_pos _, root := ?_, root_depth := ?_, root_orphan := ?_
      orphan := ?_, child_plen := ?_, child_bits := ?_, child_depth := ?_, plen_le := ?_
      aligned := ?_, table := ?_ }
  · rw [add_links hp]
    exact Links.addLeaf_wf h.forest hp
  · rw [(hold h.pos).1, h.root]
  · rw [(hold h.pos).2.2.1, h.root_depth]
  · rw [(hold h.pos).2.2.2.2, h.root_orphan]
  · intro r hr hn
    rcases hcases hr with hr | rfl
    · rw [(hold hr).2.2.2.2] at hn
      exact h.orphan hr hn
    · rw [hnew] at hn
      cases hn
  · intro r q hr hq
    rcases hcases hr with hr | rfl
    · rw [(hold hr).2.2.2.2] at hq
      have hqr := h.forest.parent_lt hr hq
      rw [(hold hr).2.1, (hold (Nat.lt_trans hqr hr)).2.1]
      exact h.child_plen hr hq
    · rw [hnew] at hq ⊢
      cases hq
      rw [(hold hp).2.1]
      exact hlt
  · intro r q hr hq
    rcases hcases hr with hr | rfl
    · rw [(hold hr).2.2.2.2] at hq
      have hqr := h.forest.parent_lt hr hq
      rw [(hold hr).2.2.2.1, (hold hr).2.1, (hold (Nat.lt_trans hqr hr)).2.1]
      exact h.child_bits hr hq
    · rw [hnew] at hq ⊢
      cases hq
      rw [(hold hp).2.1]
      exact hbits
  · intro r q hr hq
    rcases hcases hr with hr | rfl
    · rw [(hold hr).2.2.2.2] at hq
      have hqr := h.forest.parent_lt hr hq
      rw [(hold hr).2.2.1, (hold (Nat.lt_trans hqr hr)).2.2.1]
      exact h.child_depth hr hq
    · rw [hnew] at hq ⊢
      cases hq
      rw [(hold hp).2.2.1]
      exact hdepth
  · intro r hr
    rcases hcases hr with hr | rfl
    · rw [(hold hr).2.1]
      exact h.plen_le hr
    · rw [hnew]
      exact hle
  · intro r hr
    rcases hcases hr with hr | rfl
    · rw [(hold hr).1]
      exact h.aligned hr
    · rw [hnew]
      exact haligned
  · intro k r
    show (t.table.insert ⟨id, plen⟩ t.count).lookup k = some r ↔ _
    by_cases hk : k = ⟨id, plen⟩
    · subst hk
      rw [AList.lookup_insert]
      constructor
      · intro hr
        cases hr
        exact ⟨Nat.lt_succ_self _, by rw [hnew]; rfl⟩
      · rintro ⟨hr, hkey⟩
        rcases hcases hr with hr | rfl
        · rw [(hold hr).1] at hkey
          rw [h.table.mpr ⟨hr, hkey⟩] at habsent
          cases habsent
        · rfl
    · rw [AList.lookup_insert_ne hk, h.table]
      constructor
      · rintro ⟨hr, hkey⟩
        exact ⟨Nat.lt_succ_of_lt hr, (hold hr).1.trans hkey⟩
      · rintro ⟨hr, hkey⟩
        rcases hcases hr with hr | rfl
        · exact ⟨hr, (hold hr).1.symm.trans hkey⟩
        · rw [hnew] at hkey
          exact absurd hkey.symm hk

end Tree

namespace Runtime

variable {rt : Runtime}

/-! ## The walks -/

theorem chainUp_eq (rt : Runtime) (fuel : Nat) (r : RegionRef) :
    rt.chainUp fuel r = rt.tree.links.up fuel r := by
  induction fuel generalizing r with
  | zero => rfl
  | succ fuel ih =>
    have hparent : rt.tree.links.parent r = (rt.regions r).parent := rfl
    simp only [chainUp, Links.up, hparent, List.cons.injEq, true_and]
    cases (rt.regions r).parent with
    | none => rfl
    | some p => exact ih p

/-- The chain of a region, itself first. -/
def chain (rt : Runtime) (r : RegionRef) : List RegionRef := rt.tree.links.anc r

/-- The regions of a subtree, depth first. -/
def subtree (rt : Runtime) (r : RegionRef) : List RegionRef := rt.tree.links.sub rt.nregions r

theorem parentChain_eq (h : rt.tree.Wf) {r : Nat} (hr : r < rt.nregions) :
    rt.parentChain r = rt.chain r := by
  rw [parentChain, chainUp_eq]
  exact Links.up_eq_anc h.forest hr hr

/-- A buffer of 65 entries holds every chain. -/
theorem regionAncestorChain_eq (h : rt.tree.Wf) {r : Nat} (hr : r < rt.nregions) :
    rt.regionAncestorChain r 65 = (rt.chain r).reverse := by
  rw [regionAncestorChain, chainUp_eq]
  have hle := h.plen_le hr
  rw [Links.up_eq_anc_of_rank (fun x => (rt.tree.node x).plen) h.forest h.rank hr
    (Nat.lt_succ_of_le hle)]
  rfl

theorem length_chain_le (h : rt.tree.Wf) {r : Nat} (hr : r < rt.nregions) :
    (rt.chain r).length ≤ 65 := by
  have hle := h.plen_le hr
  have := Links.length_anc_le (fun x => (rt.tree.node x).plen) h.forest h.rank hr
  unfold chain
  omega

theorem collectSubtreeMods_eq_down (rt : Runtime) (fuel : Nat) (r : RegionRef) :
    rt.collectSubtreeMods fuel r = (rt.tree.links.down fuel r).flatMap rt.modsOf := by
  induction fuel generalizing r with
  | zero => rfl
  | succ fuel ih =>
    simp only [collectSubtreeMods, Links.down, List.flatMap_cons, List.flatMap_assoc, ih]
    rfl

/-- The modules of a subtree. -/
theorem collectSubtreeMods_eq (h : rt.tree.Wf) {r : Nat} (hr : r < rt.nregions) :
    rt.collectSubtreeMods rt.nregions r = (rt.subtree r).flatMap rt.modsOf := by
  rw [collectSubtreeMods_eq_down]
  congr 1
  exact Links.down_eq_sub h.forest hr (Nat.le_add_left _ _)

theorem mem_subtree_iff (h : rt.tree.Wf) {r x : Nat} (hr : r < rt.nregions) :
    x ∈ rt.subtree r ↔ x < rt.nregions ∧ r ∈ rt.chain x :=
  Links.mem_sub_iff h.forest hr

theorem lt_of_mem_chain (h : rt.tree.Wf) {r x : Nat} (hr : r < rt.nregions)
    (hx : x ∈ rt.chain r) : x < rt.nregions :=
  Links.lt_of_mem_anc h.forest hr hx

/-! ## The searches -/

/-- `o` is a region of greatest width among those that meet `P`. -/
def IsWidest (rt : Runtime) (P : RegionRef → Prop) (o : Option RegionRef) : Prop :=
  (∀ b ∈ o, P b) ∧ ∀ x, P x → ∃ b ∈ o, (rt.regions x).plen ≤ (rt.regions b).plen

theorem IsWidest.congr {P Q : RegionRef → Prop} {o : Option RegionRef} (h : rt.IsWidest P o)
    (hPQ : ∀ x, P x ↔ Q x) : rt.IsWidest Q o :=
  ⟨fun b hb => (hPQ b).mp (h.1 b hb), fun x hx => h.2 x ((hPQ x).mpr hx)⟩

/-- Looking at one node takes it into account when it covers `id`. -/
theorem IsWidest.betterCover {P : RegionRef → Prop} {o : Option RegionRef} (h : rt.IsWidest P o)
    (node : Nat) (id : RegionId) :
    rt.IsWidest (fun x => P x ∨ (x = node ∧ (rt.regions node).Covers id))
      (rt.betterCover node id o) := by
  unfold Runtime.betterCover
  split
  · next hb =>
    refine ⟨fun b hb' => ?_, fun x hx => ⟨node, rfl, ?_⟩⟩
    · cases hb'
      exact Or.inr ⟨rfl, hb.1⟩
    · rcases hx with hx | ⟨rfl, -⟩
      · obtain ⟨b, hbo, hle⟩ := h.2 x hx
        exact Nat.le_trans hle (Nat.le_of_lt (hb.2 b hbo))
      · exact le_rfl
  · next hb =>
    refine ⟨fun b hb' => Or.inl (h.1 b hb'), fun x hx => ?_⟩
    rcases hx with hx | ⟨rfl, hc⟩
    · exact h.2 x hx
    · simp only [hc, true_and, not_forall, not_lt] at hb
      obtain ⟨b, hbo, hle⟩ := hb
      exact ⟨b, hbo, hle⟩

/-- A fold over a list takes into account what each of its rounds does. -/
theorem IsWidest.foldl {P : RegionRef → Prop} {Q : RegionRef → RegionRef → Prop}
    {f : Option RegionRef → RegionRef → Option RegionRef} {l : List RegionRef}
    (hf : ∀ c ∈ l, ∀ P o, rt.IsWidest P o → rt.IsWidest (fun x => P x ∨ Q c x) (f o c))
    {o : Option RegionRef} (h : rt.IsWidest P o) :
    rt.IsWidest (fun x => P x ∨ ∃ c ∈ l, Q c x) (l.foldl f o) := by
  induction l generalizing P o with
  | nil => exact h.congr (by simp)
  | cons c l ih =>
    have hone := hf c List.mem_cons_self P o h
    refine (ih (fun c hc => hf c (List.mem_cons_of_mem _ hc)) hone).congr fun x => ?_
    simp only [List.mem_cons, exists_eq_or_imp, or_assoc]

/-- The search below a node finds the widest cover under the bound. -/
theorem regionFindAncestorRec_spec (h : rt.tree.Wf) (id : RegionId) (plen : Nat) {fuel : Nat}
    {node : Nat} (hnode : node < rt.nregions) (hfuel : rt.nregions ≤ node + fuel)
    {P : RegionRef → Prop} {best : Option RegionRef} (hbest : rt.IsWidest P best) :
    rt.IsWidest
      (fun x => P x ∨ (x ∈ rt.subtree node ∧ (rt.regions x).plen < plen
        ∧ (rt.regions x).Covers id))
      (rt.regionFindAncestorRec id plen fuel node best) := by
  induction fuel generalizing node P best with
  | zero => omega
  | succ fuel ih =>
    simp only [regionFindAncestorRec]
    split
    · next hprune =>
      refine hbest.congr fun x => ⟨Or.inl, ?_⟩
      rintro (hx | ⟨hx, hlt, -⟩)
      · exact hx
      · have hanc := (mem_subtree_iff h hnode).mp hx
        have hrank : (rt.regions node).plen ≤ (rt.regions x).plen :=
          Links.rank_le_of_mem_anc (fun y => (rt.tree.node y).plen) h.forest h.rank hanc.1 hanc.2
        omega
    · next hkeep =>
      have hstep : ∀ c ∈ (rt.regions node).children, ∀ P o, rt.IsWidest P o →
          rt.IsWidest
            (fun x => P x ∨ (x ∈ rt.subtree c ∧ (rt.regions x).plen < plen
              ∧ (rt.regions x).Covers id))
            (rt.regionFindAncestorRec id plen fuel c o) := by
        intro c hc P o ho
        obtain ⟨hcn, hcp⟩ := (h.forest.mem_children hnode).mp hc
        have hlt := h.forest.parent_lt hcn hcp
        exact ih hcn (by omega) ho
      refine ((hbest.betterCover node id).foldl hstep).congr fun x => ?_
      have hsub : x ∈ rt.subtree node
          ↔ x = node ∨ ∃ c ∈ (rt.regions node).children, x ∈ rt.subtree c := by
        show x ∈ rt.tree.links.sub rt.tree.count node ↔ _
        rw [Links.sub_eq h.forest hnode, List.mem_cons, List.mem_flatMap]
        rfl
      rw [hsub]
      constructor
      · rintro ((hx | ⟨rfl, hc⟩) | ⟨c, hc, hx, hlt, hcov⟩)
        · exact Or.inl hx
        · exact Or.inr ⟨Or.inl rfl, by omega, hc⟩
        · exact Or.inr ⟨Or.inr ⟨c, hc, hx⟩, hlt, hcov⟩
      · rintro (hx | ⟨rfl | ⟨c, hc, hx⟩, hlt, hcov⟩)
        · exact Or.inl (Or.inl hx)
        · exact Or.inl (Or.inr ⟨rfl, hcov⟩)
        · exact Or.inr ⟨c, hc, hx, hlt, hcov⟩

theorem regionLookup_eq_some (h : rt.tree.Wf) {id : RegionId} {plen : Nat} {r : Nat} :
    rt.regionLookup id plen = some r
      ↔ r < rt.nregions ∧ (rt.regions r).key = ⟨id, plen⟩ :=
  h.table

theorem regionLookup_root (h : rt.tree.Wf) : rt.regionLookup 0 0 = some 0 :=
  (regionLookup_eq_some h).mpr ⟨h.pos, h.root⟩

/-- All regions are in the subtree of the root. -/
theorem mem_subtree_root (h : rt.tree.Wf) {x : Nat} :
    x ∈ rt.subtree 0 ↔ x < rt.nregions := by
  rw [mem_subtree_iff h h.pos]
  refine ⟨And.left, fun hx => ⟨hx, ?_⟩⟩
  exact List.mem_of_getLast? (Links.getLast?_anc h.forest (fun _ hx hp => h.orphan hx hp) hx)

/-- The nearest ancestor of an identity is the widest region below the width
that covers the id. -/
theorem regionNearestAncestor_spec (h : rt.tree.Wf) (id : RegionId) (plen : Nat) :
    rt.IsWidest
      (fun x => x < rt.nregions ∧ (rt.regions x).plen < plen ∧ (rt.regions x).Covers id)
      (rt.regionNearestAncestor id plen) := by
  simp only [regionNearestAncestor, regionLookup_root h]
  have hnone : rt.IsWidest (fun _ => False) none := ⟨by simp, by simp⟩
  refine (regionFindAncestorRec_spec h id plen h.pos (by omega) hnone).congr fun x => ?_
  rw [mem_subtree_root h, false_or]

theorem regionNearestAncestor_lt (h : rt.tree.Wf) {id : RegionId} {plen : Nat} {p : Nat}
    (hp : rt.regionNearestAncestor id plen = some p) :
    p < rt.nregions ∧ (rt.regions p).plen < plen ∧ (rt.regions p).Covers id :=
  (regionNearestAncestor_spec h id plen).1 p hp

/-- An identity that is aligned and not in the table has a nearest ancestor: the
root qualifies. -/
theorem regionNearestAncestor_ne_none (h : rt.tree.Wf) {id : RegionId} {plen : Nat}
    (halign : (RegionKey.mk id plen).block.Aligned) (habsent : rt.regionLookup id plen = none) :
    rt.regionNearestAncestor id plen ≠ none := by
  intro hnone
  have hroot : (rt.regions 0).key = ⟨0, 0⟩ := h.root
  have hpos : 0 < plen := by
    rcases Nat.eq_zero_or_pos plen with rfl | hpos
    · have hid : id = 0 := by
        have hmask : id &&& Prefix.mask 64 0 = id := halign
        rw [Prefix.mask_zero] at hmask
        rw [← hmask]
        exact BitVec.and_zero
      rw [hid, regionLookup_root h] at habsent
      cases habsent
    · exact hpos
  have hlen : (rt.regions 0).plen = 0 := congrArg RegionKey.plen hroot
  have hcover : (rt.regions 0).Covers id := by
    have hid : (rt.regions 0).id = 0 := congrArg RegionKey.id hroot
    rw [RegionNode.Covers, hlen, hid]
    exact BitVec.and_zero
  obtain ⟨b, hb, -⟩ := (regionNearestAncestor_spec h id plen).2 0
    ⟨h.pos, by rw [hlen]; exact hpos, hcover⟩
  rw [hnone] at hb
  cases hb

/-! ## The allocator -/

theorem regionAllocLoop_spec {pid : RegionId} {shift cplen left s : Nat} {id : RegionId}
    (h : rt.regionAllocLoop pid shift cplen left s = some id) :
    ∃ n, s ≤ n ∧ n < s + left ∧ id = slotId pid shift n ∧ rt.regionLookup id cplen = none
      ∧ ∀ m, s ≤ m → m < n → rt.regionLookup (slotId pid shift m) cplen ≠ none := by
  induction left generalizing s with
  | zero => cases h
  | succ left ih =>
    simp only [regionAllocLoop] at h
    split at h
    · next hfree =>
      cases h
      exact ⟨s, le_rfl, by omega, rfl, Option.isNone_iff_eq_none.mp hfree, fun m _ _ => by omega⟩
    · next htaken =>
      obtain ⟨n, hsn, hn, hid, hnone, hlow⟩ := ih h
      refine ⟨n, by omega, by omega, hid, hnone, fun m hm hmn => ?_⟩
      rcases Nat.eq_or_lt_of_le hm with rfl | hm
      · simpa using htaken
      · exact hlow m hm hmn

/-- A slot id has no bit below the width of the slot. -/
theorem slotId_aligned {k : RegionKey} (hk : k.block.Aligned) {cplen : Nat} (hlt : k.plen ≤ cplen)
    (hle : cplen ≤ 64) (n : Nat) :
    (RegionKey.mk (slotId k.id (if cplen < 64 then 64 - cplen else 0) n) cplen).block.Aligned := by
  have hshift : (if cplen < 64 then 64 - cplen else 0) = 64 - cplen := by split <;> omega
  rw [hshift]
  exact (hk.mono hlt).or (Prefix.Block.aligned_shiftLeft _ hle)

/-- What the allocator finds: the lowest slot of the granted width that no region
holds. -/
theorem regionAllocSlot_spec (h : rt.tree.Wf) {parent : Nat} (hparent : parent < rt.nregions)
    {bits : Nat} (hbits : 0 < bits ∧ bits ≤ 64) {id : RegionId}
    (hslot : rt.regionAllocSlot parent bits = id) (hid : id ≠ xyRegionInvalid) :
    (rt.regions parent).plen + bits ≤ 64
      ∧ rt.tree.CanAdd parent id ((rt.regions parent).plen + bits) bits
      ∧ ∃ n < numSlots ((rt.regions parent).plen + bits) bits,
        id = slotId (rt.regions parent).id (64 - ((rt.regions parent).plen + bits)) n
        ∧ ∀ m, m < n →
          rt.regionLookup (slotId (rt.regions parent).id
            (64 - ((rt.regions parent).plen + bits)) m) ((rt.regions parent).plen + bits)
            ≠ none := by
  have hplen : (rt.regions parent).plen ≤ 64 := h.plen_le hparent
  have hmod : childPlen (rt.regions parent).toRegionNode bits = (rt.regions parent).plen + bits :=
    Nat.mod_eq_of_lt (by show (rt.regions parent).plen + bits < 256; omega)
  simp only [regionAllocSlot, hmod] at hslot
  split at hslot
  · exact absurd hslot.symm hid
  · next hle =>
    have hshift : (if (rt.regions parent).plen + bits < 64
        then 64 - ((rt.regions parent).plen + bits) else 0)
        = 64 - ((rt.regions parent).plen + bits) := by split <;> omega
    cases hloop : rt.regionAllocLoop (rt.regions parent).id
        (if (rt.regions parent).plen + bits < 64 then 64 - ((rt.regions parent).plen + bits)
          else 0)
        ((rt.regions parent).plen + bits) (numSlots ((rt.regions parent).plen + bits) bits) 0 with
    | none =>
      rw [hloop] at hslot
      exact absurd hslot.symm hid
    | some found =>
      rw [hloop, Option.getD_some] at hslot
      subst hslot
      obtain ⟨n, -, hn, hfound, habsent, hlow⟩ := regionAllocLoop_spec hloop
      have haligned := slotId_aligned (h.aligned hparent)
        (show (rt.regions parent).plen ≤ (rt.regions parent).plen + bits by omega) (by omega) n
      refine ⟨by omega, ⟨hparent, ?_, by omega, ?_, ?_, habsent⟩, n, by omega, ?_,
        fun m hm => ?_⟩
      · show (rt.regions parent).plen < (rt.regions parent).plen + bits
        omega
      · show bits = (rt.regions parent).plen + bits - (rt.regions parent).plen
        omega
      · rw [hfound]
        exact haligned
      · rw [← hshift]
        exact hfound
      · rw [← hshift]
        exact hlow m (Nat.zero_le _) hm

/-! ## The new region -/

@[simp] theorem addRegion_tree (rt : Runtime) (p : RegionRef) (id : RegionId) (plen bits : Nat)
    (fn : Option HandlerRef) :
    (rt.addRegion p id plen bits fn).tree = rt.tree.add p id plen bits := by
  unfold addRegion
  rw [regionMarkSubtreeDirty_tree]
  simp only [tree, Tree.add, Tree.mk.injEq, and_true]
  funext x
  by_cases hp : x = p
  · subst hp; simp
  · by_cases hn : x = rt.nregions
    · subst hn; simp [hp, RegionEntry.fresh]
    · simp [hp, hn]

end Runtime

end Xylem
