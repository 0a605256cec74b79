import Xylem.Searches

/-!
# Claims at an address

What one `xy_claim_at` does, whatever the tree it meets: `ClaimAtMeets` says when
it is refused, and that nothing changes then; what it does to a region that
exists; and which region it makes otherwise (`RegionAdded`).
-/

namespace Xylem

open Xylem.Runtime

/-- `rt'` is `rt` with one more region, at the head of the children of `p`. -/
structure RegionAdded (rt rt' : Runtime) (p : RegionRef) (id : RegionId) (plen : Nat)
    (fn : Option HandlerRef) : Prop where
  nregions : rt'.nregions = rt.nregions + 1
  key : (rt'.regions rt.nregions).key = ⟨id, plen⟩
  parent : (rt'.regions rt.nregions).parent = some p
  leaf : (rt'.regions rt.nregions).children = []
  handler : (rt'.regions rt.nregions).claimHandler = fn
  table : ∀ k, rt'.regionHd.lookup k
    = if k = ⟨id, plen⟩ then some rt.nregions else rt.regionHd.lookup k
  children : ∀ r < rt.nregions, (rt'.regions r).children
    = if r = p then rt.nregions :: (rt.regions r).children else (rt.regions r).children
  /-- The other regions keep their identity, their parent and their handler. -/
  old_key : ∀ r < rt.nregions, (rt'.regions r).key = (rt.regions r).key
  old_parent : ∀ r < rt.nregions, (rt'.regions r).parent = (rt.regions r).parent
  old_handler : ∀ r < rt.nregions, (rt'.regions r).claimHandler = (rt.regions r).claimHandler
    ∧ (rt'.regions r).requireClaim = (rt.regions r).requireClaim

/-- What `xy_claim_at(id, plen, fn)` does in `s`, when it leaves `s'` and returns
`ret`. -/
structure ClaimAtMeets (s s' : State) (ret : Int) (id : RegionId) (plen : Nat)
    (fn : Option HandlerRef) : Prop where
  toobig : 64 < plen →
    ret = xyErrToobig ∧ s'.rt = s.rt ∧ s'.tls.current = s.tls.current
  /-- A bit is set below the prefix. -/
  invalid : plen ≤ 64 → (∃ i < 64 - plen, id.getLsbD i = true) →
    ret = xyErrInvalid ∧ s'.rt = s.rt ∧ s'.tls.current = s.tls.current
  existing : ∀ r < s.rt.nregions, (s.rt.regions r).key = ⟨id, plen⟩ →
    ret = xyOk ∧ s'.tls.current = ⟨id, some r⟩
      ∧ s'.rt = (match fn with
        | none => s.rt
        | some _ => s.rt.modifyRegion r (fun e => { e with claimHandler := fn }))
  fresh : plen ≤ 64 → (∀ i < 64 - plen, id.getLsbD i = false) →
    (∀ r < s.rt.nregions, (s.rt.regions r).key ≠ ⟨id, plen⟩) →
    ret = xyOk ∧ s'.tls.current = ⟨id, some s.rt.nregions⟩
      ∧ ∃ p, s.rt.UniqueWidest (s.rt.CoversBelow id plen) p
        ∧ RegionAdded s.rt s'.rt p id plen fn
  /-- Behind the search for the ancestor nothing is refused. -/
  search : plen ≤ 64 → (∀ i < 64 - plen, id.getLsbD i = false) →
    (∀ r < s.rt.nregions, (s.rt.regions r).key ≠ ⟨id, plen⟩) →
    ∃ p, s.rt.regionNearestAncestor id plen = some p ∧ ¬ plen ≤ (s.rt.regions p).plen

section

variable {s : State} {id : RegionId} {plen : Nat} {fn : Option HandlerRef}

/-- The alignment of a prefix, bit by bit. -/
theorem aligned_iff_bits (hplen : plen ≤ 64) :
    id &&& regionMask plen = id ↔ ∀ i < 64 - plen, id.getLsbD i = false := by
  have halign := Prefix.Block.aligned_iff (a := (RegionKey.mk id plen).block)
  refine Iff.trans (show id &&& regionMask plen = id ↔ _ from halign) ?_
  constructor
  · intro h i hi
    rw [← Bool.not_eq_true]
    intro hbit
    have hle : 64 ≤ i + plen := h i (by omega) hbit
    omega
  · intro h i hi hbit
    show 64 ≤ i + plen
    by_contra hlt
    have hclear := h i (by omega)
    have hset : id.getLsbD i = true := hbit
    rw [hclear] at hset
    cases hset

theorem addRegion_handler (rt : Runtime) {p : Nat} (hp : p < rt.nregions) (id : RegionId)
    (plen bits : Nat) (fn : Option HandlerRef) (x : RegionRef) :
    ((rt.addRegion p id plen bits fn).regions x).claimHandler
        = (if x = rt.nregions then fn else (rt.regions x).claimHandler)
      ∧ ((rt.addRegion p id plen bits fn).regions x).requireClaim
        = (if x = rt.nregions then false else (rt.regions x).requireClaim) := by
  unfold addRegion
  rw [regionMarkSubtreeDirty_proj _ RegionEntry.claimHandler (by intro _ _; rfl)
      (by intro _ _; rfl),
    regionMarkSubtreeDirty_proj _ RegionEntry.requireClaim (by intro _ _; rfl)
      (by intro _ _; rfl)]
  by_cases hxp : x = p
  · subst hxp
    simp [Nat.ne_of_lt hp]
  · by_cases hxn : x = rt.nregions
    · subst hxn
      simp [hxp, RegionEntry.fresh]
    · simp [hxp, hxn]

/-- Making a region adds it, and changes no other. -/
theorem regionAdded_addRegion {rt : Runtime} {p : Nat} (hp : p < rt.nregions) (id : RegionId)
    (plen bits : Nat) (fn : Option HandlerRef) :
    RegionAdded rt (rt.addRegion p id plen bits fn) p id plen fn := by
  have htree := addRegion_tree rt p id plen bits fn
  have hnode : ∀ x, ((rt.addRegion p id plen bits fn).regions x).toRegionNode
      = (rt.tree.add p id plen bits).node x := fun x => congrFun (congrArg Tree.node htree) x
  have hp' : p < rt.tree.count := hp
  have hnew := @Tree.add_node_new rt.tree p id plen bits hp'
  refine
    { nregions := congrArg Tree.count htree, key := ?_, parent := ?_, leaf := ?_, handler := ?_
      table := fun k => ?_, children := fun r hr => ?_, old_key := fun r hr => ?_
      old_parent := fun r hr => ?_, old_handler := fun r hr => ?_ }
  · rw [hnode]
    exact Tree.add_key_new hp'
  · rw [hnode]
    exact congrArg RegionNode.parent hnew
  · rw [hnode]
    exact congrArg RegionNode.children hnew
  · rw [(addRegion_handler rt hp id plen bits fn _).1, if_pos rfl]
  · have htable : (rt.addRegion p id plen bits fn).regionHd
        = rt.regionHd.insert ⟨id, plen⟩ rt.nregions := congrArg Tree.table htree
    rw [htable]
    split
    · next hk => rw [hk, AList.lookup_insert]
    · next hk => rw [AList.lookup_insert_ne hk]
  · rw [hnode]
    have hne : r ≠ rt.nregions := Nat.ne_of_lt hr
    by_cases hrp : r = p
    · subst hrp
      simp [Tree.add, tree]
    · simp [Tree.add, tree, hrp, hne]
  · rw [hnode]
    exact Tree.add_key_old hr
  · rw [hnode]
    exact Tree.add_parent_old hr
  · have hne : r ≠ rt.nregions := Nat.ne_of_lt hr
    have hhandler := addRegion_handler rt hp id plen bits fn r
    rw [if_neg hne, if_neg hne] at hhandler
    exact hhandler

/-- `xy_claim_at` meets its contract on every tree. -/
theorem claimAtMeets_of_wf (ht : s.rt.tree.Wf) (id : RegionId) (plen : Nat)
    (fn : Option HandlerRef) :
    ClaimAtMeets s (xyClaimAt s id plen fn).1 (xyClaimAt s id plen fn).2 id plen fn := by
  have habsent : (∀ r < s.rt.nregions, (s.rt.regions r).key ≠ ⟨id, plen⟩) →
      s.rt.regionLookup id plen = none := by
    intro hnot
    refine Option.eq_none_iff_forall_not_mem.mpr fun r hr => ?_
    obtain ⟨hlt, hkey⟩ := (regionLookup_eq_some ht).mp hr
    exact hnot r hlt hkey
  have hnear : plen ≤ 64 → (∀ i < 64 - plen, id.getLsbD i = false) →
      (∀ r < s.rt.nregions, (s.rt.regions r).key ≠ ⟨id, plen⟩) →
      ∃ p, s.rt.regionNearestAncestor id plen = some p ∧ ¬ plen ≤ (s.rt.regions p).plen := by
    intro hplen hbits hnot
    have halign : (RegionKey.mk id plen).block.Aligned := (aligned_iff_bits hplen).mpr hbits
    obtain ⟨p, hp⟩ := Option.ne_none_iff_exists'.mp
      (regionNearestAncestor_ne_none ht halign (habsent hnot))
    exact ⟨p, hp, Nat.not_le.mpr (regionNearestAncestor_lt ht hp).2.1⟩
  refine
    { toobig := fun hbig => ?_, invalid := fun hplen hbit => ?_
      existing := fun r hr hkey => ?_, fresh := fun hplen hbits hnot => ?_, search := hnear }
  · unfold xyClaimAt
    rw [if_pos hbig]
    exact ⟨rfl, rfl, rfl⟩
  · have hmask : id &&& regionMask plen ≠ id := by
      intro hmask
      obtain ⟨i, hi, hset⟩ := hbit
      rw [(aligned_iff_bits hplen).mp hmask i hi] at hset
      cases hset
    unfold xyClaimAt
    rw [if_neg (Nat.not_lt.mpr hplen), if_pos hmask]
    exact ⟨rfl, rfl, rfl⟩
  · have hplen : ¬ plen > 64 := by
      have hle : (s.rt.regions r).plen ≤ 64 := ht.plen_le hr
      have hlen : (s.rt.regions r).plen = plen := congrArg RegionKey.plen hkey
      omega
    have hmask : ¬ id &&& regionMask plen ≠ id := by
      have halign : (s.rt.regions r).key.block.Aligned := ht.aligned hr
      rw [hkey] at halign
      exact not_not.mpr halign
    have hlookup : s.rt.regionLookup id plen = some r := (regionLookup_eq_some ht).mpr ⟨hr, hkey⟩
    unfold xyClaimAt
    rw [if_neg hplen, if_neg hmask, hlookup]
    cases fn with
    | none => exact ⟨rfl, rfl, rfl⟩
    | some f => exact ⟨rfl, rfl, rfl⟩
  · obtain ⟨p, hp, hguard⟩ := hnear hplen hbits hnot
    have hwidest := ((regionNearestAncestor_spec ht id plen).eq_some_iff ht
      (fun _ hx => ⟨hx.1, hx.2.2⟩) p).mp hp
    have hmask : ¬ id &&& regionMask plen ≠ id :=
      not_not.mpr ((aligned_iff_bits hplen).mpr hbits)
    have hplt := (regionNearestAncestor_lt ht hp).1
    unfold xyClaimAt
    rw [if_neg (Nat.not_lt.mpr hplen), if_neg hmask, habsent hnot]
    dsimp only
    rw [hp]
    dsimp only
    rw [if_neg hguard]
    exact ⟨rfl, rfl, p, hwidest, regionAdded_addRegion hplt id plen _ fn⟩

end

/-- Whoever calls `xy_claim_at` in a state that is reached, the call returns at
once and meets its contract. -/
theorem claimAt_of_reachable {w : World} {c : Config} (h : Reachable w c)
    (hw : c.waiting = true) (id : RegionId) (plen : Nat) (fn : Option HandlerRef) :
    ∃ s' ret, step w c (.call (.claimAt id plen fn)) = .next ⟨s', c.stack⟩ (.returned (.int ret))
      ∧ ClaimAtMeets c.st s' ret id plen fn := by
  refine ⟨_, _, ?_, claimAtMeets_of_wf (Config.Wf.of_reachable h).tree id plen fn⟩
  simp only [step, hw, if_true, beginCall, callDirect]

/-- A claim between a region and the root. -/
theorem claimAt_of_claim :
    ∃ s' ret, step sampleWorld ((Config.boot sampleHook).after sampleWorld
        [.call (.claimAt 0x2000000000000 32 none)]) (.call (.claimAt 0x2000000000000 16 (some 3)))
        = .next ⟨s', ((Config.boot sampleHook).after sampleWorld
          [.call (.claimAt 0x2000000000000 32 none)]).stack⟩ (.returned (.int ret))
      ∧ ClaimAtMeets ((Config.boot sampleHook).after sampleWorld
        [.call (.claimAt 0x2000000000000 32 none)]).st s' ret 0x2000000000000 16 (some 3) :=
  claimAt_of_reachable (ReachableBy.after (.start (Config.boot_initial _)) (by simp))
    (by decide +kernel) _ _ _

end Xylem
