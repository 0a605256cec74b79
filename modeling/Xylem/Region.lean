import Xylem.Key

/-!
# The region tree

`region_lookup`, the walks along parent links and down child lists, the slot
allocator, and the two ways to make a region: `xy_claim_at`, and the second
half of `_xy_claim_for_load`.

Regions are numbered in the order of their creation, a parent before its
children.  A walk of the source that has no bound of its own takes `nregions`
as its fuel, which `Xylem.Tree` shows to be enough.
-/

namespace Xylem

/-! ## Masks -/

/-- `region_mask`. -/
def regionMask (plen : Nat) : RegionId :=
  if plen = 0 then 0
  else if plen ≥ 64 then BitVec.allOnes 64
  else BitVec.allOnes 64 <<< (64 - plen)

/-- The test of containment of the tree searches: the first `a.plen` bits of
`id` are those of `a`. -/
def RegionNode.Covers (a : RegionNode) (id : RegionId) : Prop := id &&& regionMask a.plen = a.id

instance (a : RegionNode) (id : RegionId) : Decidable (a.Covers id) := by
  unfold RegionNode.Covers; infer_instance

namespace Runtime

/-! ## Lookup and writes -/

/-- `region_lookup`. -/
def regionLookup (rt : Runtime) (id : RegionId) (plen : Nat) : Option RegionRef :=
  rt.regionHd.lookup ⟨id, plen⟩

/-- A write to one region entry. -/
def modifyRegion (rt : Runtime) (r : RegionRef) (f : RegionEntry → RegionEntry) : Runtime :=
  { rt with regions := Function.update rt.regions r (f (rt.regions r)) }

/-- The same write to every region entry of a list. -/
def modifyRegions (rt : Runtime) (l : List RegionRef) (f : RegionEntry → RegionEntry) : Runtime :=
  { rt with regions := fun r => if r ∈ l then f (rt.regions r) else rt.regions r }

/-! ## The walk along parent links -/

/-- The entries met from `r` along `parent`, at most `fuel` of them. -/
def chainUp (rt : Runtime) : Nat → RegionRef → List RegionRef
  | 0, _ => []
  | fuel + 1, r =>
    r :: match (rt.regions r).parent with
      | none => []
      | some p => chainUp rt fuel p

/-- The loop `for (e = r; e; e = e->parent)`. -/
def parentChain (rt : Runtime) (r : RegionRef) : List RegionRef := rt.chainUp rt.nregions r

/-- `region_ancestor_chain`: at most `cap` entries from `start` upward, turned
round. -/
def regionAncestorChain (rt : Runtime) (start : RegionRef) (cap : Nat) : List RegionRef :=
  (rt.chainUp cap start).reverse

/-- `dispatch_gen++`, which skips 0 when it wraps. -/
def genBump (g : Nat) : Nat := if (g + 1) % 2 ^ 64 = 0 then 1 else (g + 1) % 2 ^ 64

/-- `region_propagate_deny`. -/
def regionPropagateDeny (rt : Runtime) (r : RegionRef) : Runtime :=
  rt.modifyRegions (rt.parentChain r) (fun e => { e with subtreeFlags := true })

/-- `region_dispatch_gen_bump`. -/
def regionDispatchGenBump (rt : Runtime) (r : RegionRef) : Runtime :=
  { rt.modifyRegions (rt.parentChain r)
      (fun e => { e with dispatchGen := genBump e.dispatchGen }) with
    genBumps := rt.genBumps + 1 }

/-- `region_mark_subtree_dirty`. -/
def regionMarkSubtreeDirty (rt : Runtime) (r : RegionRef) : Runtime :=
  (rt.regionDispatchGenBump r).modifyRegions (rt.parentChain r)
    (fun e => { e with subtreeModsDirty := true })

/-! ## The walks down the tree -/

/-- `region_collect_subtree_mods`: the modules of `node`, then those of each
child's subtree. -/
def collectSubtreeMods (rt : Runtime) : Nat → RegionRef → List EntryRef
  | 0, _ => []
  | fuel + 1, node =>
    (rt.regions node).mods
      ++ (rt.regions node).children.flatMap (fun child => collectSubtreeMods rt fuel child)

/-- `region_rebuild_subtree_mods`. -/
def regionRebuildSubtreeMods (rt : Runtime) (r : RegionRef) : Runtime :=
  rt.modifyRegion r (fun e =>
    { e with subtreeMods := rt.collectSubtreeMods rt.nregions r, subtreeModsDirty := false })

/-- The better of `best` and `node`: a covering node of greater width wins. -/
def betterCover (rt : Runtime) (node : RegionRef) (id : RegionId) (best : Option RegionRef) :
    Option RegionRef :=
  if (rt.regions node).Covers id
      ∧ (∀ b ∈ best, (rt.regions b).plen < (rt.regions node).plen) then some node
  else best

/-- `region_find_ancestor_rec`. -/
def regionFindAncestorRec (rt : Runtime) (id : RegionId) (plen : Nat) :
    Nat → RegionRef → Option RegionRef → Option RegionRef
  | 0, _, best => best
  | fuel + 1, node, best =>
    if plen ≤ (rt.regions node).plen then best
    else
      (rt.regions node).children.foldl
        (fun best child => regionFindAncestorRec rt id plen fuel child best)
        (rt.betterCover node id best)

/-- `region_nearest_ancestor`. -/
def regionNearestAncestor (rt : Runtime) (id : RegionId) (plen : Nat) : Option RegionRef :=
  match rt.regionLookup 0 0 with
  | none => none
  | some root => rt.regionFindAncestorRec id plen rt.nregions root none

/-- `region_find_cover_rec`. -/
def regionFindCoverRec (rt : Runtime) (id : RegionId) (plen : Nat) :
    Nat → RegionRef → Option RegionRef → Option RegionRef
  | 0, _, best => best
  | fuel + 1, node, best =>
    if plen < (rt.regions node).plen then best
    else
      (rt.regions node).children.foldl
        (fun best child => regionFindCoverRec rt id plen fuel child best)
        (rt.betterCover node id best)

/-! ## The slot allocator -/

/-- `parent->id | (s << slot_shift)`. -/
def slotId (pid : RegionId) (shift s : Nat) : RegionId := pid ||| (BitVec.ofNat 64 s <<< shift)

/-- The `do … while` of `region_alloc_slot`, with the number of iterations
left. -/
def regionAllocLoop (rt : Runtime) (pid : RegionId) (shift cplen : Nat) :
    Nat → Nat → Option RegionId
  | 0, _ => none
  | left + 1, s =>
    if (rt.regionLookup (slotId pid shift s) cplen).isNone then some (slotId pid shift s)
    else regionAllocLoop rt pid shift cplen left (s + 1)

/-- The width of a child that is granted `bits`, in `uint8_t` arithmetic. -/
def childPlen (parent : RegionNode) (bits : Nat) : Nat := (parent.plen + bits) % 256

/-- How many values of `s` the allocator tries.  For a width of 64 `num_slots`
is 0, and `s` has to wrap round to meet it. -/
def numSlots (cplen bits : Nat) : Nat := if cplen = 64 then 2 ^ 64 else 2 ^ bits

/-- `region_alloc_slot`. -/
def regionAllocSlot (rt : Runtime) (parent : RegionRef) (bits : Nat) : RegionId :=
  let p := (rt.regions parent).toRegionNode
  let cplen := childPlen p bits
  if cplen > 64 then xyRegionInvalid
  else
    (rt.regionAllocLoop p.id (if cplen < 64 then 64 - cplen else 0) cplen
      (numSlots cplen bits) 0).getD xyRegionInvalid

/-! ## Making a region -/

/-- Put a new region into the table and at the head of its parent's child list,
and mark the parent's chain dirty. -/
def addRegion (rt : Runtime) (parent : RegionRef) (id : RegionId) (plen childBits : Nat)
    (fn : Option HandlerRef) : Runtime :=
  let p := rt.regions parent
  let child := RegionEntry.fresh
    { id := id, depth := (p.depth + 1) % 256, plen := plen, childBits := childBits,
      parent := some parent, children := [] } fn
  let rt' : Runtime :=
    { rt with
      regions := Function.update (Function.update rt.regions rt.nregions child) parent
        { p with children := rt.nregions :: p.children }
      nregions := rt.nregions + 1
      regionHd := rt.regionHd.insert ⟨id, plen⟩ rt.nregions }
  rt'.regionMarkSubtreeDirty parent

/-! ## Deny lists -/

/-- `module_is_denied`. -/
def moduleIsDenied (rt : Runtime) (r : RegionRef) (path : CStr) : Bool :=
  decide (path ∈ (rt.regions r).deniedModules)

/-- `module_denied_by_ancestors`, and the same loop in
`region_rebuild_hook_dispatch`. -/
def moduleDeniedByAncestors (rt : Runtime) (anc : List RegionRef) (path : CStr) : Bool :=
  anc.any (fun r => rt.moduleIsDenied r path)

/-- `module_remove_denies`. -/
def moduleRemoveDenies (rt : Runtime) (r : RegionRef) (path : CStr) : Runtime :=
  rt.modifyRegion r (fun e => { e with deniedModules := e.deniedModules.filter (· ≠ path) })

end Runtime

/-! ## The region API -/

inductive DenyType where
  | hook
  | module
deriving DecidableEq

/-- What `xy_deny` does at the region `r`. -/
def Runtime.recordDeny (w : World) (rt : Runtime) (r : RegionRef) (what : CStr)
    (type : DenyType) : Runtime :=
  let rt := match type with
    | .hook => rt.modifyRegion r (fun e => { e with deniedHooks := what :: e.deniedHooks })
    | .module => rt.modifyRegion r
        (fun e => { e with deniedModules := w.loadPath what :: e.deniedModules })
  (rt.regionPropagateDeny r).regionDispatchGenBump r

/-- `xy_deny`. -/
def xyDeny (w : World) (s : State) (what : CStr) (type : DenyType) : State × Int :=
  match s.tls.current.entry with
  | none => (s.setErr xyErrNotfound, xyErrNotfound)
  | some r => ({ s with rt := s.rt.recordDeny w r what type, err := xyOk }, xyOk)

/-- `xy_require_claim`. -/
def xyRequireClaim (s : State) (fn : Option HandlerRef) : State × Int :=
  match s.tls.current.entry with
  | none => (s.setErr xyErrNotfound, xyErrNotfound)
  | some r =>
    let rt := s.rt.modifyRegion r
      (fun e => { e with claimHandler := fn, requireClaim := fn.isSome })
    ({ s with rt := rt, err := xyOk }, xyOk)

/-- `xy_claim_at`. -/
def xyClaimAt (s : State) (id : RegionId) (plen : Nat) (fn : Option HandlerRef) : State × Int :=
  if plen > 64 then (s.setErr xyErrToobig, xyErrToobig)
  else if id &&& regionMask plen ≠ id then (s.setErr xyErrInvalid, xyErrInvalid)
  else match s.rt.regionLookup id plen with
    | some existing =>
      let rt := match fn with
        | none => s.rt
        | some _ => s.rt.modifyRegion existing (fun e => { e with claimHandler := fn })
      (({ s with rt := rt }.setCurrentRegion ⟨id, some existing⟩).setErr xyOk, xyOk)
    | none =>
      match s.rt.regionNearestAncestor id plen with
      | none => (s.setErr xyErrNotfound, xyErrNotfound)
      | some parent =>
        if plen ≤ (s.rt.regions parent).plen then (s.setErr xyErrInvalid, xyErrInvalid)
        else
          let rt := s.rt.addRegion parent id plen ((plen - (s.rt.regions parent).plen) % 256) fn
          (({ s with rt := rt }.setCurrentRegion ⟨id, some s.rt.nregions⟩).setErr xyOk, xyOk)

/-- `xy_region_exists`. -/
def xyRegionExists (s : State) (id : RegionId) (plen : Nat) : State × Int :=
  match s.rt.regionLookup id plen with
  | none => (s.setErr xyErrNotfound, xyErrNotfound)
  | some _ => (s.setErr xyOk, xyOk)

/-- `region_current_plen`. -/
def State.regionCurrentPlen (s : State) : Nat :=
  match s.tls.current.entry with
  | none => 0
  | some r => (s.rt.regions r).plen

/-- `xy_region_at`: the id, and the width stored to `*region_plen`. -/
def xyRegionAt (s : State) (id : RegionId) (plen : Nat) : State × RegionId × Nat :=
  if plen > 64 then (s.setErr xyErrToobig, xyRegionInvalid, 0)
  else
    match (s.rt.regionLookup 0 0).bind
        (fun root => s.rt.regionFindCoverRec id plen s.rt.nregions root none) with
    | none => (s.setErr xyErrNotfound, xyRegionInvalid, 0)
    | some hit => (s.setErr xyOk, (s.rt.regions hit).id, (s.rt.regions hit).plen)

end Xylem
