import Xylem.Invariant
import Xylem.Sample

/-!
# The tree searches

`region_nearest_ancestor` and `xy_region_at` walk down the tree, skip the
subtrees that are too wide and carry the best region met so far.  `SearchesMeet`
says that they find what a look at every region would: the one region of greatest
width that covers the id.

There is only one such region, because regions of one width that cover one id
have one identity.  It may hang anywhere in the tree.
-/

namespace Xylem

open Xylem.Runtime

/-- `r` is the region of greatest width among those that meet `P`. -/
structure Runtime.UniqueWidest (rt : Runtime) (P : RegionRef → Prop) (r : RegionRef) : Prop where
  mem : P r
  widest : ∀ x, P x → x ≠ r → (rt.regions x).plen < (rt.regions r).plen

/-- The regions below the width that cover the id. -/
def Runtime.CoversBelow (rt : Runtime) (id : RegionId) (plen : Nat) (r : RegionRef) : Prop :=
  r < rt.nregions ∧ (rt.regions r).plen < plen
    ∧ id &&& regionMask (rt.regions r).plen = (rt.regions r).id

/-- The regions up to the width that cover the id. -/
def Runtime.CoversUpTo (rt : Runtime) (id : RegionId) (plen : Nat) (r : RegionRef) : Prop :=
  r < rt.nregions ∧ (rt.regions r).plen ≤ plen
    ∧ id &&& regionMask (rt.regions r).plen = (rt.regions r).id

/-- The searches for an id and a width, in a state. -/
structure SearchesMeet (s : State) (id : RegionId) (plen : Nat) : Prop where
  ancestor : ∀ r, s.rt.regionNearestAncestor id plen = some r
    ↔ s.rt.UniqueWidest (s.rt.CoversBelow id plen) r
  /-- The root is an ancestor of all widths but its own. -/
  ancestor_none : s.rt.regionNearestAncestor id plen = none ↔ plen = 0
  cover : ∃ r, s.rt.UniqueWidest (s.rt.CoversUpTo id plen) r
    ∧ xyRegionAt s id plen = (s.setErr xyOk, (s.rt.regions r).id, (s.rt.regions r).plen)
  cover_unique : ∀ r r', s.rt.UniqueWidest (s.rt.CoversUpTo id plen) r →
    s.rt.UniqueWidest (s.rt.CoversUpTo id plen) r' → r = r'

section

variable {rt : Runtime} {id : RegionId} {plen : Nat}

theorem Runtime.UniqueWidest.unique {P : RegionRef → Prop} {r r' : RegionRef}
    (h : rt.UniqueWidest P r) (h' : rt.UniqueWidest P r') : r = r' := by
  by_contra hne
  have hlt := h.widest r' h'.mem (Ne.symm hne)
  have hgt := h'.widest r h.mem hne
  omega

/-- Regions of one width that cover one id are the same region. -/
theorem Tree.Wf.covers_inj (h : rt.tree.Wf) {x y : Nat} (hx : x < rt.nregions)
    (hy : y < rt.nregions) (hlen : (rt.regions x).plen = (rt.regions y).plen)
    (hcx : (rt.regions x).Covers id) (hcy : (rt.regions y).Covers id) : x = y := by
  apply h.key_inj hx hy
  have hid : (rt.regions x).id = (rt.regions y).id := by
    unfold RegionNode.Covers at hcx hcy
    rw [← hcx, ← hcy, hlen]
  show RegionKey.mk (rt.regions x).id (rt.regions x).plen
    = RegionKey.mk (rt.regions y).id (rt.regions y).plen
  rw [hid, hlen]

/-- A widest region among some that cover one id is the only one. -/
theorem Runtime.IsWidest.unique (h : rt.tree.Wf) {P : RegionRef → Prop}
    (hP : ∀ x, P x → x < rt.nregions ∧ (rt.regions x).Covers id) {r : Nat}
    (hr : rt.IsWidest P (some r)) : rt.UniqueWidest P r := by
  refine ⟨hr.1 r rfl, fun x hx hne => ?_⟩
  obtain ⟨b, hb, hle⟩ := hr.2 x hx
  cases hb
  refine Nat.lt_of_le_of_ne hle fun heq => hne ?_
  obtain ⟨hxn, hxc⟩ := hP x hx
  obtain ⟨hrn, hrc⟩ := hP r (hr.1 r rfl)
  exact h.covers_inj hxn hrn heq hxc hrc

/-- What a search gives is the region of greatest width. -/
theorem Runtime.IsWidest.eq_some_iff (h : rt.tree.Wf) {P : RegionRef → Prop}
    (hP : ∀ x, P x → x < rt.nregions ∧ (rt.regions x).Covers id) {o : Option RegionRef}
    (ho : rt.IsWidest P o) (r : RegionRef) : o = some r ↔ rt.UniqueWidest P r := by
  constructor
  · rintro rfl
    exact ho.unique h hP
  · intro hr
    obtain ⟨b, hb, -⟩ := ho.2 r hr.mem
    have hwidest := Runtime.IsWidest.unique h hP (hb ▸ ho)
    rw [hb, hwidest.unique hr]

/-- The root covers every id. -/
theorem Tree.Wf.root_covers (h : rt.tree.Wf) (id : RegionId) :
    (rt.regions 0).plen = 0 ∧ (rt.regions 0).Covers id := by
  have hlen : (rt.regions 0).plen = 0 := congrArg RegionKey.plen h.root
  have hid : (rt.regions 0).id = 0 := congrArg RegionKey.id h.root
  refine ⟨hlen, ?_⟩
  rw [RegionNode.Covers, hlen, hid]
  exact BitVec.and_zero

/-- The search for a cover is the search for an ancestor of a width one more. -/
theorem regionFindCoverRec_eq (rt : Runtime) (id : RegionId) (plen fuel : Nat) (node : RegionRef)
    (best : Option RegionRef) :
    rt.regionFindCoverRec id plen fuel node best
      = rt.regionFindAncestorRec id (plen + 1) fuel node best := by
  induction fuel generalizing node best with
  | zero => rfl
  | succ fuel ih =>
    have hfold : (fun best child => rt.regionFindCoverRec id plen fuel child best)
        = fun best child => rt.regionFindAncestorRec id (plen + 1) fuel child best := by
      funext best child
      exact ih child best
    simp only [regionFindCoverRec, regionFindAncestorRec, hfold]
    by_cases hlt : plen < (rt.regions node).plen
    · rw [if_pos hlt, if_pos (show plen + 1 ≤ _ from hlt)]
    · rw [if_neg hlt, if_neg (show ¬ plen + 1 ≤ _ from hlt)]

/-- What `xy_region_at` looks for. -/
theorem regionFindCover_spec (h : rt.tree.Wf) (id : RegionId) (plen : Nat) :
    rt.IsWidest (rt.CoversUpTo id plen) (rt.regionFindCoverRec id plen rt.nregions 0 none) := by
  have hspec := regionNearestAncestor_spec h id (plen + 1)
  simp only [regionNearestAncestor, regionLookup_root h] at hspec
  rw [regionFindCoverRec_eq]
  refine hspec.congr fun x => ?_
  exact and_congr_right fun _ => and_congr_left fun _ => Nat.lt_succ_iff

theorem searchesMeet_of_wf {s : State} (h : s.rt.tree.Wf) (id : RegionId) {plen : Nat}
    (hplen : plen ≤ 64) : SearchesMeet s id plen where
  ancestor r := (regionNearestAncestor_spec h id plen).eq_some_iff h (fun _ hx => ⟨hx.1, hx.2.2⟩) r
  ancestor_none := by
    have hspec := regionNearestAncestor_spec h id plen
    obtain ⟨hlen, hcov⟩ := h.root_covers id
    constructor
    · intro hnone
      by_contra hpos
      obtain ⟨b, hb, -⟩ := hspec.2 0 ⟨h.pos, by omega, hcov⟩
      rw [hnone] at hb
      cases hb
    · rintro rfl
      refine Option.eq_none_iff_forall_not_mem.mpr fun b hb => ?_
      exact Nat.not_lt_zero _ (hspec.1 b hb).2.1
  cover := by
    have hspec := regionFindCover_spec h id plen
    obtain ⟨hlen, hcov⟩ := h.root_covers id
    obtain ⟨r, hr, -⟩ := hspec.2 0 ⟨h.pos, by omega, hcov⟩
    refine ⟨r, (hspec.eq_some_iff h (fun _ hx => ⟨hx.1, hx.2.2⟩) r).mp hr, ?_⟩
    unfold xyRegionAt
    rw [if_neg (Nat.not_lt.mpr hplen), regionLookup_root h, Option.bind_some, hr]
  cover_unique _ _ hr hr' := hr.unique hr'

end

/-- In every state that is reached, the pruned searches find what a search of all
regions would. -/
theorem searchesMeet_of_reachable {w : World} {c : Config} (h : Reachable w c) (id : RegionId)
    {plen : Nat} (hplen : plen ≤ 64) : SearchesMeet c.st id plen :=
  searchesMeet_of_wf (Config.Wf.of_reachable h).tree id hplen

/-- Three claims whose parent links do not follow their prefixes: `(2 << 48, 32)`
is made before `(2 << 48, 16)`, which contains it. -/
theorem searchesMeet_of_claims :
    SearchesMeet ((Config.boot sampleHook).after sampleWorld
      [.call (.claimAt 0x2000000000000 32 none), .call (.claimAt 0x2000000000000 16 none),
        .call (.claimAt 0x2000100000000 32 none)]).st 0x2000000000001 48 :=
  searchesMeet_of_reachable (ReachableBy.after (.start (Config.boot_initial _)) (by simp)) _
    (by decide)

end Xylem
