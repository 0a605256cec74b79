import Mathlib.Data.List.Chain
import Mathlib.Logic.Relation
import Xylem.Invariant
import Xylem.Sample

/-!
# The region tree

What the tree of regions is at any time, in the terms of the region entries and
of `region_lookup` (`RegionTree`).  It holds of every state that is reached.
-/

namespace Xylem

open Xylem.Runtime

/-- The region tree, as `region_ancestor_chain` and the walks of the source rely
on it. -/
structure RegionTree (rt : Runtime) : Prop where
  plen_le : ∀ {r}, r < rt.nregions → (rt.regions r).plen ≤ 64
  /-- No bit of an id is set below its prefix. -/
  id_bits : ∀ {r}, r < rt.nregions →
    ∀ i < 64 - (rt.regions r).plen, (rt.regions r).id.getLsbD i = false
  orphan : ∀ {r}, r < rt.nregions →
    ((rt.regions r).parent = none ↔ (rt.regions r).key = ⟨0, 0⟩)
  parent : ∀ {r p}, r < rt.nregions → (rt.regions r).parent = some p →
    rt.regionLookup (rt.regions p).id (rt.regions p).plen = some p
      ∧ (rt.regions p).plen < (rt.regions r).plen
      ∧ (rt.regions r).childBits = (rt.regions r).plen - (rt.regions p).plen
      ∧ (rt.regions r).depth = (rt.regions p).depth + 1
      ∧ (rt.regions r).depth < 256
  /-- The table has one entry for each region, under its id and width. -/
  table : ∀ {id plen r}, rt.regionLookup id plen = some r
    ↔ r < rt.nregions ∧ (rt.regions r).id = id ∧ (rt.regions r).plen = plen
  /-- A region is in the child list of its parent once, and in no other. -/
  children : ∀ {p r}, p < rt.nregions → r < rt.nregions →
    (rt.regions p).children.count r = if (rt.regions r).parent = some p then 1 else 0
  children_lt : ∀ {p r}, p < rt.nregions → r ∈ (rt.regions p).children → r < rt.nregions
  /-- Every region is reached from the root down the child lists. -/
  reach : ∀ {r}, r < rt.nregions →
    Relation.ReflTransGen (fun p c => c ∈ (rt.regions p).children) 0 r
  root : rt.regionLookup 0 0 = some 0
  /-- A buffer of 65 entries holds the whole chain of a region, from the root to
  the region itself. -/
  chain : ∀ {r}, r < rt.nregions →
    (rt.parentChain r).length ≤ 65
      ∧ rt.regionAncestorChain r 65 = (rt.parentChain r).reverse
      ∧ (rt.regionAncestorChain r 65).head? = some 0
      ∧ (rt.regionAncestorChain r 65).getLast? = some r
      ∧ (rt.regionAncestorChain r 65).IsChain (fun p c => (rt.regions c).parent = some p)

section

variable {rt : Runtime}

theorem Tree.Wf.bits_below (h : rt.tree.Wf) {r : Nat} (hr : r < rt.nregions) {i : Nat}
    (hi : i < 64 - (rt.regions r).plen) : (rt.regions r).id.getLsbD i = false := by
  have halign := Prefix.Block.aligned_iff.mp (h.aligned hr)
  rw [← Bool.not_eq_true]
  intro hbit
  have hle : 64 ≤ i + (rt.regions r).plen := halign i (by omega) hbit
  omega

theorem Tree.Wf.orphan_iff (h : rt.tree.Wf) {r : Nat} (hr : r < rt.nregions) :
    (rt.regions r).parent = none ↔ (rt.regions r).key = ⟨0, 0⟩ := by
  constructor
  · intro hp
    obtain rfl := h.orphan hr hp
    exact h.root
  · intro hk
    obtain rfl := h.key_inj hr h.pos (hk.trans h.root.symm)
    exact h.root_orphan

theorem Tree.Wf.count_children (h : rt.tree.Wf) {p r : Nat} (hp : p < rt.nregions)
    (hr : r < rt.nregions) :
    (rt.regions p).children.count r = if (rt.regions r).parent = some p then 1 else 0 := by
  have hmem : r ∈ (rt.regions p).children ↔ r < rt.nregions ∧ (rt.regions r).parent = some p :=
    h.forest.mem_children hp
  split
  · next hpar => exact List.count_eq_one_of_mem (h.forest.nodup_children hp) (hmem.mpr ⟨hr, hpar⟩)
  · next hpar => exact List.count_eq_zero_of_not_mem fun hin => hpar (hmem.mp hin).2

theorem Tree.Wf.reach (h : rt.tree.Wf) {r : Nat} (hr : r < rt.nregions) :
    Relation.ReflTransGen (fun p c => c ∈ (rt.regions p).children) 0 r := by
  induction r using Nat.strongRecOn with
  | _ r ih =>
    cases hp : (rt.regions r).parent with
    | none =>
      obtain rfl := h.orphan hr hp
      exact .refl
    | some p =>
      have hlt := h.forest.parent_lt hr hp
      have hplt : p < rt.nregions := Nat.lt_trans hlt hr
      exact (ih p hlt hplt).tail ((h.forest.mem_children hplt).mpr ⟨hr, hp⟩)

/-- The chain of a region starts with the region and follows the parent links. -/
theorem Tree.Wf.isChain_chain (h : rt.tree.Wf) {r : Nat} (hr : r < rt.nregions) :
    (rt.chain r).IsChain (fun c p => (rt.regions c).parent = some p) := by
  induction r using Nat.strongRecOn with
  | _ r ih =>
    cases hp : rt.tree.links.parent r with
    | none =>
      rw [chain, Forest.Links.anc_of_parent_none hp]
      exact .singleton r
    | some p =>
      have hlt := h.forest.parent_lt hr hp
      have hplt : p < rt.nregions := Nat.lt_trans hlt hr
      rw [chain, Forest.Links.anc_of_parent_some h.forest hr hp]
      have htail := ih p hlt hplt
      obtain ⟨l, hl⟩ : ∃ l, rt.tree.links.anc p = p :: l := ⟨_, rfl⟩
      rw [hl]
      rw [chain, hl] at htail
      exact .cons_cons hp htail

theorem regionTree_of_wf (h : rt.tree.Wf) : RegionTree rt where
  plen_le := h.plen_le
  id_bits hr _ hi := h.bits_below hr hi
  orphan := h.orphan_iff
  parent {r p} hr hp := by
    have hplt : p < rt.nregions := Nat.lt_trans (h.forest.parent_lt hr hp) hr
    have hdepth := Nat.le_trans (h.depth_le_plen hr) (h.plen_le hr)
    exact ⟨h.table.mpr ⟨hplt, rfl⟩, h.child_plen hr hp, h.child_bits hr hp, h.child_depth hr hp,
      Nat.lt_of_le_of_lt hdepth (by decide)⟩
  table {id plen r} := by
    have hkey : (rt.regions r).key = ⟨id, plen⟩
        ↔ (rt.regions r).id = id ∧ (rt.regions r).plen = plen := by
      simp [RegionNode.key]
    exact h.table.trans (and_congr_right fun _ => hkey)
  children := h.count_children
  children_lt hp hr := h.child_lt hp hr
  reach := h.reach
  root := regionLookup_root h
  chain {r} hr := by
    rw [parentChain_eq h hr, regionAncestorChain_eq h hr]
    refine ⟨length_chain_le h hr, rfl, ?_, ?_, ?_⟩
    · rw [List.head?_reverse]
      exact Forest.Links.getLast?_anc h.forest (fun _ => h.orphan) hr
    · rw [List.getLast?_reverse]
      rfl
    · exact List.isChain_reverse.mpr (h.isChain_chain hr)

end

/-- In every state that is reached, the regions form a tree of width 64. -/
theorem regionTree_of_reachable {w : World} {c : Config} (h : Reachable w c) :
    RegionTree c.st.rt :=
  regionTree_of_wf (Config.Wf.of_reachable h).tree

/-- A run of three claims, one of them inside another. -/
theorem regionTree_of_reachable_claims :
    RegionTree ((Config.boot sampleHook).after sampleWorld
      [.call (.claimAt 0x1000000000000 16 none), .call (.claimAt 0x1000100000000 32 none),
        .call (.claimAt 0x2000000000000 16 none)]).st.rt :=
  regionTree_of_reachable (ReachableBy.after (.start (Config.boot_initial _)) (by simp))

end Xylem
