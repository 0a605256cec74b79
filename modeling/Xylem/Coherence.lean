import Xylem.Entries
import Xylem.Sample

/-!
# The caches of the subtrees

The operations that the caches depend on, one at a time and in any order: the
edits of the module lists, the two ways to make a region, and the rebuilds that
dispatches make, also when an allocation fails in the middle.  `CacheRun` is a
sequence of them, and `Effect.cacheSteps` says that a step of the machine is one.

`caches_coherent`: a subtree list that is not dirty is the depth-first list of the
subtree, and a vector with the current stamp was built after the last change below
its region, as long as the counters have been bumped fewer than `2 ^ 64 - 1`
times.  After `2 ^ 64 - 1` bumps a counter, which skips 0, is back where it was.
-/

namespace Xylem

open Xylem.Runtime

namespace Runtime

/-! ## Rebuilds that stop -/

/-- `region_rebuild_subtree_mods` when there is no room after `n` entries. -/
def stopSubtreeMods (rt : Runtime) (r : RegionRef) (n : Nat) : Runtime :=
  rt.modifyRegion r fun e =>
    { e with subtreeMods := (rt.collectSubtreeMods rt.nregions r).take n }

/-- The vector as it stands, with the stamp that it had. -/
def leaveVec (rt : Runtime) (r : RegionRef) (hookId : Nat) (v : HookDispatchCache) : Runtime :=
  rt.modifyRegion r fun e => { e with hookDispatch := e.hookDispatch.set hookId v }

/-- The loop of `region_rebuild_hook_dispatch` over the first `n` modules of the
subtree. -/
def rebuildFirst (w : World) (rt : Runtime) (r : RegionRef) (hookId : Nat) (name : CStr)
    (anc : List RegionRef) (n : Nat) : Option (Runtime × HookDispatchCache) :=
  rebuildLoop w anc hookId name ((rt.walked r).take n)
    ((rt.refreshSubtreeMods r).regionEnsureHookDispatchCap r hookId)
    { rt.hookVec r hookId with count := 0 }

/-- What a dispatch from `r` leaves when an allocation of its rebuild fails. -/
inductive Stopped (w : World) (rt : Runtime) (r : RegionRef) (hookId : Nat) (name : CStr)
    (anc : List RegionRef) : Runtime → Prop
  /-- The subtree list cannot grow. -/
  | list (n : Nat) (hdirty : (rt.regions r).subtreeModsDirty = true) :
      Stopped w rt r hookId name anc (rt.stopSubtreeMods r n)
  /-- The array of the vectors cannot grow. -/
  | vectors (hlen : (rt.regions r).hookDispatch.length ≤ hookId) :
      Stopped w rt r hookId name anc (rt.refreshSubtreeMods r)
  /-- The callback cache of the next module cannot grow. -/
  | cache {n : Nat} {rt' : Runtime} {v : HookDispatchCache} (hn : n < (rt.walked r).length)
      (hcold : (rt.hookVec r hookId).regionGen ≠ (rt.regions r).dispatchGen)
      (h : rt.rebuildFirst w r hookId name anc n = some (rt', v)) :
      Stopped w rt r hookId name anc (rt'.leaveVec r hookId v)
  /-- The next module is resolved, and the vector cannot grow. -/
  | slot {n : Nat} {e : EntryRef} {me : ModEntry} {rt' : Runtime} {v : HookDispatchCache}
      (hn : (rt.walked r)[n]? = some e)
      (hcold : (rt.hookVec r hookId).regionGen ≠ (rt.regions r).dispatchGen)
      (h : rt.rebuildFirst w r hookId name anc n = some (rt', v)) (hme : rt'.mods e = some me)
      (hfull : v.cap ≤ v.count) :
      Stopped w rt r hookId name anc
        ((rt'.modifyMod e fun _ => me.resolved w hookId name).leaveVec r hookId v)

/-! ## Operations -/

/-- The lists hold each entry once, in the region it points to. -/
structure ListsWf (rt : Runtime) : Prop where
  nodup : ∀ r, (rt.modsOf r).Nodup
  home : ∀ {r e}, e ∈ rt.modsOf r → rt.home e = some r
  lt : ∀ {r e}, e ∈ rt.modsOf r → r < rt.nregions

/-- A write that neither the lists nor the caches depend on. -/
structure Aside (rt rt' : Runtime) : Prop where
  tree : rt'.tree = rt.tree
  modsOf : rt'.modsOf = rt.modsOf
  caches : rt'.caches = rt.caches
  genBumps : rt'.genBumps = rt.genBumps
  home : ∀ {r e}, e ∈ rt.modsOf r → rt'.home e = rt.home e

end Runtime

inductive CacheOp where
  | append (r : RegionRef) (e : EntryRef)
  | insertAfter (r : RegionRef) (e : EntryRef) (after : Option EntryRef)
  | detach (e : EntryRef)
  | claimAt (id : RegionId) (plen : Nat) (fn : Option HandlerRef)
  | claimForLoad (parent : RegionRef) (ret : Int) (bits : Nat)
  | dispatch (r : RegionRef) (hookId : Nat) (name : CStr)
  | deny (r : RegionRef) (what : CStr) (type : DenyType)
  /-- Whatever else the runtime does. -/
  | other

/-- One operation. -/
inductive CacheStep (w : World) (rt : Runtime) : CacheOp → Runtime → Prop
  | append {r : Nat} {e : EntryRef} (hr : r < rt.nregions) (hlive : rt.mods e ≠ none)
      (hout : ∀ x, e ∉ rt.modsOf x) : CacheStep w rt (.append r e) (rt.moduleRegionAppend r e)
  | insertAfter {r : Nat} {e : EntryRef} {after : Option EntryRef} (hr : r < rt.nregions)
      (hlive : rt.mods e ≠ none) (hout : ∀ x, e ∉ rt.modsOf x)
      (hafter : ∀ a ∈ after, a ∈ rt.modsOf r) :
      CacheStep w rt (.insertAfter r e after) (rt.moduleRegionInsertAfter r e after)
  | detach {r : Nat} {e : EntryRef} (he : e ∈ rt.modsOf r) :
      CacheStep w rt (.detach e) (rt.moduleRegionDetach e)
  | claimAt {s : State} {id : RegionId} {plen : Nat} {fn : Option HandlerRef} (hs : s.rt = rt) :
      CacheStep w rt (.claimAt id plen fn) (xyClaimAt s id plen fn).1.rt
  | claimForLoad {s s' : State} {parent : Nat} {ret : Int} {bits : Nat} {child : RegionKey}
      (hs : s.rt = rt) (hp : parent < rt.nregions)
      (h : xyClaimGranted s parent ret bits = .ok (s', child)) :
      CacheStep w rt (.claimForLoad parent ret bits) s'.rt
  | dispatch {r hookId : Nat} {name : CStr} {rt' : Runtime} (hr : r < rt.nregions)
      (h : rt.prepareVec w r hookId name (rt.regionAncestorChain r 65) = some rt') :
      CacheStep w rt (.dispatch r hookId name) rt'
  | stopped {r hookId : Nat} {name : CStr} {rt' : Runtime} (hr : r < rt.nregions)
      (h : rt.Stopped w r hookId name (rt.regionAncestorChain r 65) rt') :
      CacheStep w rt (.dispatch r hookId name) rt'
  | deny {r : Nat} {what : CStr} {type : DenyType} (hr : r < rt.nregions) :
      CacheStep w rt (.deny r what type) (rt.recordDeny w r what type)
  | other {rt' : Runtime} (h : rt.Aside rt') : CacheStep w rt .other rt'

/-- An operation with the runtime before and after it. -/
structure CacheMove where
  before : Runtime
  op : CacheOp
  after : Runtime

/-- A sequence of operations. -/
inductive CacheSteps (w : World) (rt : Runtime) : List CacheMove → Runtime → Prop
  | nil : CacheSteps w rt [] rt
  | concat {log : List CacheMove} {rt₁ rt₂ : Runtime} {op : CacheOp}
      (h : CacheSteps w rt log rt₁) (hs : CacheStep w rt₁ op rt₂) :
      CacheSteps w rt (log ++ [⟨rt₁, op, rt₂⟩]) rt₂

/-- A sequence of operations from the bootstrap on. -/
def CacheRun (w : World) (log : List CacheMove) (rt : Runtime) : Prop :=
  ∃ rt₀ : Runtime, rt₀.genBumps = 0 ∧ CacheSteps w rt₀.bootstrap log rt

/-! ## What is to hold -/

/-- `l` lists the modules below each region: its own in the order of its list,
then those of each child's subtree in the order of the child list. -/
def Runtime.DepthFirst (rt : Runtime) (l : RegionRef → List EntryRef) : Prop :=
  ∀ r < rt.nregions, l r = rt.modsOf r ++ (rt.regions r).children.flatMap l

/-- The operation builds the vector of a hook at a region, from all the modules
below it. -/
def CacheMove.Builds (w : World) (r : RegionRef) (hookId : Nat) (m : CacheMove) : Prop :=
  ∃ name, m.op = .dispatch r hookId name ∧ ¬ m.before.Warm r hookId ∧ m.after.Warm r hookId
    ∧ (m.after.hookVec r hookId).cells.take (m.after.hookVec r hookId).count
      = m.before.listing w (m.before.regionAncestorChain r 65) hookId name
          (m.before.collectSubtreeMods m.before.nregions r)

/-- The operation leaves the modules below a region, and its counter, as they
are. -/
structure CacheMove.Leaves (r : RegionRef) (m : CacheMove) : Prop where
  subtree : m.after.subtree r = m.before.subtree r
  modsOf : ∀ x ∈ m.before.subtree r, m.after.modsOf x = m.before.modsOf x
  gen : (m.after.caches r).gen = (m.before.caches r).gen

namespace Runtime

variable {w : World} {rt rt' : Runtime} {r : Nat} {hookId : Nat} {name : CStr}
  {anc : List RegionRef}

/-! ## The lists -/

theorem HeapWf.lists (h : rt.HeapWf) : rt.ListsWf where
  nodup := h.nodup
  home he := h.mem_iff.mp he
  lt he := h.mem_lt he

/-- Each module is below a region once. -/
theorem ListsWf.nodup_subtree (h : rt.ListsWf) (ht : rt.tree.Wf) (hr : r < rt.nregions) :
    ((rt.subtree r).flatMap rt.modsOf).Nodup := by
  rw [List.nodup_flatMap]
  refine ⟨fun x _ => h.nodup x, (Forest.Links.nodup_sub ht.forest hr).imp ?_⟩
  intro x y hne e hx hy
  have hxy : some x = some y := (h.home hx).symm.trans (h.home hy)
  exact hne (Option.some.inj hxy)

theorem ListsWf.of_eq (h : rt.ListsWf) (hmods : rt'.modsOf = rt.modsOf)
    (hhome : ∀ {r e}, e ∈ rt.modsOf r → rt'.home e = rt.home e)
    (hn : rt.nregions ≤ rt'.nregions) : rt'.ListsWf where
  nodup r := by rw [hmods]; exact h.nodup r
  home := by
    intro r e he
    rw [hmods] at he
    rw [hhome he, h.home he]
  lt := by
    intro r e he
    rw [hmods] at he
    exact Nat.lt_of_lt_of_le (h.lt he) hn

theorem ListsWf.of_same (h : rt.ListsWf) (hs : rt.SameHeap rt') : rt'.ListsWf :=
  h.of_eq hs.modsOf (fun _ => hs.home _) hs.nregions

theorem ListsWf.detach (h : rt.ListsWf) {e : EntryRef} (he : e ∈ rt.modsOf r) :
    (rt.moduleRegionDetach e).ListsWf := by
  have hmods := moduleRegionDetach_modsOf rt (h.home he)
  have hsub : ∀ {x y}, y ∈ (rt.moduleRegionDetach e).modsOf x → y ∈ rt.modsOf x := by
    intro x y hy
    rw [hmods] at hy
    by_cases hx : x = r
    · subst hx
      rw [Function.update_self] at hy
      exact List.mem_of_mem_erase hy
    · rwa [Function.update_of_ne hx] at hy
  refine ⟨fun x => ?_, fun hy => ?_, fun hy => ?_⟩
  · rw [hmods]
    by_cases hx : x = r
    · subst hx
      rw [Function.update_self]
      exact (h.nodup x).erase e
    · rw [Function.update_of_ne hx]
      exact h.nodup x
  · simp only [Runtime.home, moduleRegionDetach_mods]
    exact h.home (hsub hy)
  · have hn : (rt.moduleRegionDetach e).nregions = rt.nregions :=
      congrArg Tree.count (moduleRegionDetach_tree rt e)
    rw [hn]
    exact h.lt (hsub hy)

theorem ListsWf.insert (h : rt.ListsWf) {e : EntryRef} {after : Option EntryRef}
    (hr : r < rt.nregions) (hlive : rt.mods e ≠ none) (hout : ∀ x, e ∉ rt.modsOf x)
    (hafter : ∀ a ∈ after, a ∈ rt.modsOf r) : (rt.moduleRegionInsertAfter r e after).ListsWf := by
  have hmods := moduleRegionInsertAfter_modsOf rt r e after
  have hperm := insertAfter_perm e after (rt.modsOf r) hafter
  have hn : (rt.moduleRegionInsertAfter r e after).nregions = rt.nregions :=
    congrArg Tree.count (moduleRegionInsertAfter_tree rt r e after)
  have hcases : ∀ {x y}, y ∈ (rt.moduleRegionInsertAfter r e after).modsOf x →
      (x = r ∧ y = e) ∨ (y ≠ e ∧ y ∈ rt.modsOf x) := by
    intro x y hy
    rw [hmods] at hy
    by_cases hx : x = r
    · subst hx
      rw [Function.update_self, hperm.mem_iff, List.mem_cons] at hy
      rcases hy with rfl | hy
      · exact Or.inl ⟨rfl, rfl⟩
      · exact Or.inr ⟨fun heq => hout x (heq ▸ hy), hy⟩
    · rw [Function.update_of_ne hx] at hy
      exact Or.inr ⟨fun heq => hout x (heq ▸ hy), hy⟩
  refine ⟨fun x => ?_, fun hy => ?_, fun hy => ?_⟩
  · rw [hmods]
    by_cases hx : x = r
    · subst hx
      rw [Function.update_self, hperm.nodup_iff, List.nodup_cons]
      exact ⟨hout x, h.nodup x⟩
    · rw [Function.update_of_ne hx]
      exact h.nodup x
  · rcases hcases hy with ⟨rfl, rfl⟩ | ⟨hne, hy⟩
    · obtain ⟨me, hme⟩ := Option.ne_none_iff_exists'.mp hlive
      simp [Runtime.home, hme]
    · simp only [Runtime.home, moduleRegionInsertAfter_mods, Function.update_of_ne hne]
      exact h.home hy
  · rw [hn]
    rcases hcases hy with ⟨rfl, -⟩ | ⟨-, hy⟩
    · exact hr
    · exact h.lt hy

theorem depthFirst_subtree (ht : rt.tree.Wf) :
    rt.DepthFirst fun r => (rt.subtree r).flatMap rt.modsOf := by
  intro r hr
  have hsub : rt.subtree r = r :: (rt.regions r).children.flatMap rt.subtree :=
    Forest.Links.sub_eq ht.forest hr
  dsimp only
  rw [hsub, List.flatMap_cons, List.flatMap_assoc]

/-! ## Rebuilds that stop -/

/-- A rebuild that gives no vector a new stamp. -/
structure Unstamped (rt rt' : Runtime) (r : RegionRef) : Prop where
  tree : rt'.tree = rt.tree
  modsOf : rt'.modsOf = rt.modsOf
  home : ∀ e, rt'.home e = rt.home e
  genBumps : rt'.genBumps = rt.genBumps
  caches : ∀ x, x ≠ r → rt'.caches x = rt.caches x
  gen : (rt'.caches r).gen = (rt.caches r).gen
  list : (rt'.caches r).dirty = false → (rt'.caches r).subtreeMods = rt.walked r
  stamp : ∀ h, (rt'.hookVec r h).regionGen = (rt.hookVec r h).regionGen

theorem Unstamped.rebuild (h : Unstamped rt rt' r) : Rebuild rt rt' r :=
  ⟨h.tree, h.modsOf, h.genBumps, h.caches, h.gen, h.list, fun k => Or.inr (h.stamp k)⟩

theorem unstamped_refreshSubtreeMods (rt : Runtime) (r : Nat) :
    Unstamped rt (rt.refreshSubtreeMods r) r := by
  obtain ⟨hreg, hc, hm, -, hg⟩ := rt.refreshSubtreeMods_spec r
  have hsame : (rt.refreshSubtreeMods r).tree = rt.tree
      ∧ (rt.refreshSubtreeMods r).modsOf = rt.modsOf := by
    unfold refreshSubtreeMods
    split
    · exact ⟨regionRebuildSubtreeMods_tree rt r, regionRebuildSubtreeMods_modsOf rt r⟩
    · exact ⟨rfl, rfl⟩
  exact
    { tree := hsame.1, modsOf := hsame.2, genBumps := hg
      home := fun e => by simp only [Runtime.home, hm]
      caches := fun x hx => by simp only [Runtime.caches, hreg x hx]
      gen := by rw [hc]
      list := fun _ => by rw [hc]
      stamp := fun k => by rw [hookVec_eq, hc]; rfl }

theorem Unstamped.ensureCap (h : Unstamped rt rt' r) (hookId : Nat) :
    Unstamped rt (rt'.regionEnsureHookDispatchCap r hookId) r := by
  obtain ⟨hreg, ⟨vecs, hc, -⟩, hv, hm, -, hg⟩ := rt'.regionEnsureHookDispatchCap_spec r hookId
  exact
    { tree := (regionEnsureHookDispatchCap_tree rt' r hookId).trans h.tree
      modsOf := (regionEnsureHookDispatchCap_modsOf rt' r hookId).trans h.modsOf
      home := fun e => by
        rw [← h.home e]
        simp only [Runtime.home, hm]
      genBumps := hg.trans h.genBumps
      caches := fun x hx => by
        rw [← h.caches x hx]
        simp only [Runtime.caches, hreg x hx]
      gen := by rw [hc]; exact h.gen
      list := fun hd => by
        rw [hc] at hd ⊢
        exact h.list hd
      stamp := fun k => by rw [hv, h.stamp] }

/-- Writes to the callback caches of modules do not matter. -/
theorem Unstamped.onlyCaches {rt'' : Runtime} (h : Unstamped rt rt' r) (ho : rt'.OnlyCaches rt'') :
    Unstamped rt rt'' r := by
  have hc : rt''.caches = rt'.caches := by funext x; simp only [Runtime.caches, ho.regions]
  have hb : rt''.genBumps = rt'.genBumps := by
    obtain ⟨m, n, rfl⟩ := ho.rest
    rfl
  exact
    { tree := ho.tree.trans h.tree, modsOf := ho.same.modsOf.trans h.modsOf
      home := fun e => (ho.same.home e).trans (h.home e)
      genBumps := hb.trans h.genBumps
      caches := fun x hx => by rw [hc]; exact h.caches x hx
      gen := by rw [hc]; exact h.gen
      list := by rw [hc]; exact h.list
      stamp := fun k => by rw [hookVec_eq, hc]; exact h.stamp k }

/-- A vector is written, with the stamp that it had. -/
theorem Unstamped.leaveVec (h : Unstamped rt rt' r) {v : HookDispatchCache}
    (hv : v.regionGen = (rt.hookVec r hookId).regionGen) :
    Unstamped rt (rt'.leaveVec r hookId v) r := by
  have hself : (rt'.leaveVec r hookId v).caches r
      = { rt'.caches r with vecs := (rt'.caches r).vecs.set hookId v } := by
    simp only [Runtime.caches, Runtime.leaveVec, modifyRegion_apply, if_true]
  exact
    { tree := (modifyRegion_tree rt' (by intro _; rfl) r).trans h.tree
      modsOf := (modsOf_eq (modifyRegion_proj rt' RegionEntry.mods (by intro _; rfl) r)).trans
        h.modsOf
      home := h.home, genBumps := h.genBumps
      caches := fun x hx => by
        rw [← h.caches x hx]
        simp only [Runtime.caches, Runtime.leaveVec, modifyRegion_apply, if_neg hx]
      gen := by rw [hself]; exact h.gen
      list := fun hd => by
        rw [hself] at hd ⊢
        exact h.list hd
      stamp := fun k => by
        rw [← h.stamp k, hookVec_eq, hookVec_eq, hself]
        simp only [List.getD_eq_getElem?_getD, List.getElem?_set]
        split
        · next hk =>
          subst hk
          split
          · next hlen =>
            have hold := h.stamp hookId
            rw [hookVec_eq, List.getD_eq_getElem?_getD] at hold
            exact hv.trans hold.symm
          · next hlen => rw [List.getElem?_eq_none (Nat.le_of_not_lt hlen)]
        · rfl }

theorem Stopped.unstamped (h : rt.Stopped w r hookId name anc rt') : Unstamped rt rt' r := by
  have hloop : ∀ {n rt' v}, rt.rebuildFirst w r hookId name anc n = some (rt', v) →
      Unstamped rt rt' r ∧ v.regionGen = (rt.hookVec r hookId).regionGen := by
    intro n rt' v h
    have hpre := (unstamped_refreshSubtreeMods rt r).ensureCap hookId
    exact ⟨hpre.onlyCaches (rebuildLoop_onlyCaches h),
      (rebuildLoop_spec h (Nat.zero_le _) (Nat.zero_le _)).regionGen⟩
  cases h with
  | list n hdirty =>
    have hself : (rt.stopSubtreeMods r n).caches r = { rt.caches r with
        subtreeMods := (rt.collectSubtreeMods rt.nregions r).take n } := by
      simp only [Runtime.caches, stopSubtreeMods, modifyRegion_apply, if_true]
    exact
      { tree := modifyRegion_tree rt (by intro _; rfl) r
        modsOf := modsOf_eq (modifyRegion_proj rt RegionEntry.mods (by intro _; rfl) r)
        home := fun _ => rfl, genBumps := rfl
        caches := fun x hx => by
          simp only [Runtime.caches, stopSubtreeMods, modifyRegion_apply, if_neg hx]
        gen := by rw [hself]
        list := fun hd => by
          rw [hself] at hd
          exact absurd (hdirty.symm.trans hd) (by decide)
        stamp := fun k => by rw [hookVec_eq, hself]; rfl }
  | vectors hlen => exact unstamped_refreshSubtreeMods rt r
  | cache hn hcold h =>
    obtain ⟨hun, hv⟩ := hloop h
    exact hun.leaveVec hv
  | slot hn hcold h hme hfull =>
    obtain ⟨hun, hv⟩ := hloop h
    exact (hun.onlyCaches (onlyCaches_modifyMod hme (ModEntry.core_resolved ..))).leaveVec hv

end Runtime

section

variable {w : World} {rt rt' : Runtime} {op : CacheOp} {log : List CacheMove} {r hookId : Nat}

/-! ## One operation -/

/-- What the operations rely on. -/
structure Runtime.CachesWf (rt : Runtime) : Prop where
  tree : rt.tree.Wf
  lists : rt.ListsWf
  subtreeLists : rt.SubtreeLists

theorem Runtime.cachesWf_bootstrap (rt : Runtime) : rt.bootstrap.CachesWf :=
  ⟨tree_bootstrap rt, (heapWf_bootstrap rt).lists, subtreeLists_bootstrap rt⟩

/-- Adding a region keeps the lists. -/
theorem Runtime.ListsWf.addRegion (h : rt.ListsWf) (p : RegionRef) (id : RegionId)
    (plen bits : Nat) (fn : Option HandlerRef) : (rt.addRegion p id plen bits fn).ListsWf :=
  h.of_eq (addRegion_modsOf h.lt p id plen bits fn) (fun _ => rfl) (Nat.le_succ _)

/-- A claimed region is new, or no cache sees the claim. -/
theorem xyClaimAt_added {s : State} (ht : s.rt.tree.Wf) (id : RegionId) (plen : Nat)
    (fn : Option HandlerRef) :
    s.rt.Aside (xyClaimAt s id plen fn).1.rt
      ∨ ∃ p bits, s.rt.tree.CanAdd p id plen bits
        ∧ (xyClaimAt s id plen fn).1.rt = s.rt.addRegion p id plen bits fn := by
  rcases xyClaimAt_cases ht id plen fn with
    ⟨-, hrt, -⟩ | ⟨r, -, hrt, -⟩ | ⟨p, -, hadd, hrt, -⟩
  · rw [hrt]
    exact Or.inl ⟨rfl, rfl, rfl, rfl, fun _ => rfl⟩
  · rw [hrt]
    left
    cases fn with
    | none => exact ⟨rfl, rfl, rfl, rfl, fun _ => rfl⟩
    | some f =>
      exact ⟨modifyRegion_tree _ (by intro _; rfl) r,
        modsOf_eq (modifyRegion_proj _ RegionEntry.mods (by intro _; rfl) r),
        funext fun x => modifyRegion_caches (by intro _; exact ⟨rfl, rfl, rfl, rfl⟩) _ r x,
        rfl, fun _ => rfl⟩
  · exact Or.inr ⟨p, _, hadd, hrt⟩

/-- A granted region is new. -/
theorem xyClaimGranted_added {s s' : State} {parent : Nat} {ret : Int} {bits : Nat}
    {child : RegionKey} (ht : s.rt.tree.Wf) (hp : parent < s.rt.nregions)
    (h : xyClaimGranted s parent ret bits = .ok (s', child)) :
    s.rt.tree.CanAdd parent child.id child.plen bits
      ∧ s'.rt = s.rt.addRegion parent child.id child.plen bits none := by
  obtain ⟨-, hbits, hchild, hid, hs'⟩ := xyClaimGranted_ok h
  subst hs' hchild
  have hspec := regionAllocSlot_spec ht hp hbits rfl hid
  have hplen : childPlen (s.rt.regions parent).toRegionNode bits = (s.rt.regions parent).plen + bits :=
    Nat.mod_eq_of_lt (Nat.lt_of_le_of_lt hspec.1 (by decide : 64 < 256))
  refine ⟨?_, rfl⟩
  dsimp only
  rw [hplen]
  exact hspec.2.1

theorem Runtime.Aside.changed (h : rt.Aside rt') : Changed rt rt' :=
  changed_of_tree h.tree (Nat.le_of_eq h.genBumps.symm)
    fun _ _ => .kept (.of_eq h.caches h.tree h.modsOf)

theorem changed_addRegion (hwf : rt.CachesWf) {p : Nat} {id : RegionId} {plen bits : Nat}
    (hadd : rt.tree.CanAdd p id plen bits) (fn : Option HandlerRef) :
    Changed rt (rt.addRegion p id plen bits fn) := by
  refine ⟨Nat.le_succ _, fun x hx => .of_or (addRegion_or hwf.lists.lt hwf.tree hadd fn hx),
    fun x h1 h2 => ?_⟩
  obtain rfl : x = rt.nregions := Nat.le_antisymm (Nat.le_of_lt_succ h2) h1
  exact addRegion_fresh hwf.lists.lt hwf.tree hadd fn

theorem changed_insertAfter (hwf : rt.CachesWf) (hr : r < rt.nregions) (e : EntryRef)
    (after : Option EntryRef) : Changed rt (rt.moduleRegionInsertAfter r e after) :=
  changed_of_tree (moduleRegionInsertAfter_tree rt r e after) (Nat.le_succ _)
    fun _ hx => .of_or (moduleRegionInsertAfter_or hwf.tree hr e after hx)

/-- An operation is a dispatch that brings a vector up to date, a rebuild that
stops, or a change. -/
theorem CacheStep.cases (hwf : rt.CachesWf) (h : CacheStep w rt op rt') :
    (∃ x k name, op = .dispatch x k name ∧ x < rt.nregions
        ∧ rt.prepareVec w x k name (rt.regionAncestorChain x 65) = some rt')
      ∨ (∃ x < rt.nregions, Unstamped rt rt' x) ∨ Changed rt rt' := by
  cases h with
  | append hr hlive hout => exact Or.inr (Or.inr (changed_insertAfter hwf hr ..))
  | insertAfter hr hlive hout hafter => exact Or.inr (Or.inr (changed_insertAfter hwf hr ..))
  | @detach r e he =>
    have hhome : ∀ t ∈ rt.home e, t < rt.nregions := by
      intro t ht
      rw [hwf.lists.home he] at ht
      cases ht
      exact hwf.lists.lt he
    exact Or.inr (Or.inr (changed_of_tree (moduleRegionDetach_tree rt e)
      (moduleRegionDetach_genBumps rt e).1
      fun _ hx => .of_or (moduleRegionDetach_or hwf.tree hhome hx)))
  | claimAt hs =>
    subst hs
    rcases xyClaimAt_added hwf.tree _ _ _ with h | ⟨p, bits, hadd, hrt⟩
    · exact Or.inr (Or.inr h.changed)
    · rw [hrt]
      exact Or.inr (Or.inr (changed_addRegion hwf hadd _))
  | claimForLoad hs hp h =>
    subst hs
    obtain ⟨hadd, hrt⟩ := xyClaimGranted_added hwf.tree hp h
    rw [hrt]
    exact Or.inr (Or.inr (changed_addRegion hwf hadd none))
  | dispatch hr h => exact Or.inl ⟨_, _, _, rfl, hr, h⟩
  | stopped hr h => exact Or.inr (Or.inl ⟨_, hr, h.unstamped⟩)
  | @deny r what type hr =>
    refine Or.inr (Or.inr (changed_of_tree (recordDeny_tree ..) ?_ fun x _ => ?_))
    · cases type <;> exact Nat.le_succ _
    · obtain ⟨hd, hk⟩ := recordDeny_touched (w := w) hwf.tree hr what type x
      by_cases hin : x ∈ rt.chain r
      · exact .denied (hd hin)
      · exact .kept (hk hin)
  | other h => exact Or.inr (Or.inr h.changed)

theorem CacheStep.turned (hwf : rt.CachesWf) (h : CacheStep w rt op rt') : Turned rt rt' := by
  rcases h.cases hwf with ⟨x, k, name, -, hx, hv⟩ | ⟨x, hx, hun⟩ | h
  · exact .rebuilt hx (rebuild_of_prepareVec hv)
  · exact .rebuilt hx hun.rebuild
  · exact .changed h

theorem CacheStep.tree_wf (hwf : rt.CachesWf) (h : CacheStep w rt op rt') : rt'.tree.Wf := by
  have hsame : rt'.tree = rt.tree → rt'.tree.Wf := fun h => h ▸ hwf.tree
  have hnew : ∀ {p : Nat} {id plen bits fn}, rt.tree.CanAdd p id plen bits →
      (rt.addRegion p id plen bits fn).tree.Wf := fun hadd => by
    rw [addRegion_tree]
    exact hwf.tree.add hadd
  cases h with
  | append | insertAfter => exact hsame (moduleRegionInsertAfter_tree ..)
  | detach => exact hsame (moduleRegionDetach_tree ..)
  | claimAt hs =>
    subst hs
    rcases xyClaimAt_added hwf.tree _ _ _ with h | ⟨p, bits, hadd, hrt⟩
    · exact hsame h.tree
    · exact hrt ▸ hnew hadd
  | claimForLoad hs hp h =>
    subst hs
    obtain ⟨hadd, hrt⟩ := xyClaimGranted_added hwf.tree hp h
    exact hrt ▸ hnew hadd
  | dispatch hr h => exact hsame (prepareVec_tree h)
  | stopped hr h => exact hsame h.unstamped.tree
  | deny hr => exact hsame (recordDeny_tree ..)
  | other h => exact hsame h.tree

theorem CacheStep.listsWf (hwf : rt.CachesWf) (h : CacheStep w rt op rt') : rt'.ListsWf := by
  have hlists := hwf.lists
  cases h with
  | append hr hlive hout =>
    exact hlists.insert hr hlive hout fun a ha => List.mem_of_getLast? ha
  | insertAfter hr hlive hout hafter => exact hlists.insert hr hlive hout hafter
  | detach he => exact hlists.detach he
  | claimAt hs =>
    subst hs
    rcases xyClaimAt_added hwf.tree _ _ _ with h | ⟨p, bits, hadd, hrt⟩
    · exact hlists.of_eq h.modsOf h.home (Nat.le_of_eq (congrArg Tree.count h.tree).symm)
    · exact hrt ▸ hlists.addRegion ..
  | claimForLoad hs hp h =>
    subst hs
    obtain ⟨hadd, hrt⟩ := xyClaimGranted_added hwf.tree hp h
    exact hrt ▸ hlists.addRegion ..
  | dispatch hr h => exact hlists.of_same (sameHeap_prepareVec h)
  | stopped hr h =>
    have hun := h.unstamped
    exact hlists.of_eq hun.modsOf (fun _ => hun.home _)
      (Nat.le_of_eq (congrArg Tree.count hun.tree).symm)
  | deny hr => exact hlists.of_same (sameHeap_recordDeny ..)
  | other h => exact hlists.of_eq h.modsOf h.home (Nat.le_of_eq (congrArg Tree.count h.tree).symm)

theorem CacheStep.cachesWf (hwf : rt.CachesWf) (h : CacheStep w rt op rt') : rt'.CachesWf :=
  ⟨h.tree_wf hwf, h.listsWf hwf, (h.turned hwf).subtreeLists hwf.tree hwf.subtreeLists⟩

theorem CacheStep.genBumps_le (hwf : rt.CachesWf) (h : CacheStep w rt op rt') :
    rt.genBumps ≤ rt'.genBumps := by
  cases h.turned hwf with
  | rebuilt hr h => exact Nat.le_of_eq h.genBumps.symm
  | changed h => exact h.genBumps

/-- A vector that is up to date after a rebuild was so before, or the rebuild is
the dispatch that builds it. -/
theorem warm_of_prepareVec {x k : Nat} {name : CStr} (hwf : rt.CachesWf) (hx : x < rt.nregions)
    (hv : rt.prepareVec w x k name (rt.regionAncestorChain x 65) = some rt')
    (hw : rt'.Warm r hookId) :
    rt.Warm r hookId ∨ CacheMove.Builds w r hookId ⟨rt, .dispatch x k name, rt'⟩ := by
  have hp := prepareVec_spec hv
  by_cases hold : rt.Warm r hookId
  · exact Or.inl hold
  · right
    have hself : r = x ∧ hookId = k := by
      by_contra hne
      have hvec := hp.vec_ne r hookId (by tauto)
      rw [Warm, hvec, (rebuild_of_prepareVec hv).gen_eq] at hw
      exact hold hw
    obtain ⟨rfl, rfl⟩ := hself
    refine ⟨name, rfl, hold, hw, ?_⟩
    dsimp only
    rw [hp.cells hold, hp.count hold, List.take_left, collectSubtreeMods_eq hwf.tree hx,
      walked_eq hwf.tree hwf.subtreeLists hx]

/-- A vector that is up to date after an operation has just been built, or was up
to date before, and the operation changes nothing below its region. -/
theorem CacheStep.warm (hwf : rt.CachesWf) (hs : rt.Stamps) (h : CacheStep w rt op rt')
    (hb : rt'.genBumps + 1 < 2 ^ 64) (hr : r < rt'.nregions) (hw : rt'.Warm r hookId) :
    (r < rt.nregions ∧ rt.Warm r hookId ∧ CacheMove.Leaves r ⟨rt, op, rt'⟩)
      ∨ CacheMove.Builds w r hookId ⟨rt, op, rt'⟩ := by
  have hleaves : ∀ {x}, Rebuild rt rt' x →
      r < rt.nregions ∧ CacheMove.Leaves r ⟨rt, op, rt'⟩ := fun h =>
    ⟨h.nregions ▸ hr, h.subtree r, fun y _ => congrFun h.modsOf y, h.gen_eq r⟩
  rcases h.cases hwf with ⟨x, k, name, rfl, hx, hv⟩ | ⟨x, hx, hun⟩ | h
  · obtain ⟨hlt, hl⟩ := hleaves (rebuild_of_prepareVec hv)
    exact (warm_of_prepareVec hwf hx hv hw).imp (fun hold => ⟨hlt, hold, hl⟩) id
  · obtain ⟨hlt, hl⟩ := hleaves hun.rebuild
    refine Or.inl ⟨hlt, ?_, hl⟩
    rw [Warm, hun.rebuild.gen_eq] at hw
    by_cases hrx : r = x
    · rw [hrx, hun.stamp hookId, ← hrx] at hw
      exact hw
    · have hvec : rt'.hookVec r hookId = rt.hookVec r hookId :=
        hookVec_of_vecs (by rw [hun.caches r hrx]) hookId
      rw [hvec] at hw
      exact hw
  · rcases Nat.lt_or_ge r rt.nregions with hlt | hge
    · obtain ⟨hk, hold, -⟩ := (h.old r hlt).warm hs hlt hb hw
      exact Or.inl ⟨hlt, hold, hk.subtree, hk.modsOf, congrArg RegionCaches.gen hk.caches⟩
    · have hf := (h.fresh r hge hr).caches
      rw [Warm, hookVec_of_nil (by rw [hf]; rfl), hf] at hw
      cases hw

/-! ## A sequence of operations -/

/-- The vector has been built in the sequence, and nothing below its region has
changed since. -/
def BuiltLast (w : World) (log : List CacheMove) (r : RegionRef) (hookId : Nat) : Prop :=
  ∃ pre m post, log = pre ++ m :: post ∧ m.Builds w r hookId ∧ ∀ x ∈ post, x.Leaves r

theorem BuiltLast.concat (h : BuiltLast w log r hookId) {m : CacheMove} (hm : m.Leaves r) :
    BuiltLast w (log ++ [m]) r hookId := by
  obtain ⟨pre, b, post, rfl, hb, hpost⟩ := h
  refine ⟨pre, b, post ++ [m], by simp, hb, fun x hx => ?_⟩
  rcases List.mem_append.mp hx with hx | hx
  · exact hpost x hx
  · exact List.mem_singleton.mp hx ▸ hm

theorem CacheSteps.cachesWf (hwf : rt.CachesWf) (h : CacheSteps w rt log rt') : rt'.CachesWf := by
  induction h with
  | nil => exact hwf
  | concat _ hs ih => exact hs.cachesWf ih

/-- The run lemma: as long as no counter can have wrapped, the stamps are in order
and a vector with the current stamp was built last. -/
theorem CacheSteps.builtLast {rt₀ : Runtime} (h : CacheSteps w rt₀.bootstrap log rt)
    (hb : rt.genBumps + 1 < 2 ^ 64) :
    rt.Stamps ∧ ∀ r < rt.nregions, ∀ k, rt.Warm r k → BuiltLast w log r k := by
  induction h with
  | nil =>
    refine ⟨stamps_bootstrap rt₀, fun r _ k hw => ?_⟩
    rw [Warm, hookVec_of_nil rfl] at hw
    cases hw
  | @concat log rt₁ rt₂ op h hs ih =>
    have hwf := h.cachesWf (cachesWf_bootstrap rt₀)
    have hle := hs.genBumps_le hwf
    obtain ⟨hstamps, hbuilt⟩ := ih (by omega)
    refine ⟨(hs.turned hwf).stamps hstamps hb, fun r hr k hw => ?_⟩
    rcases hs.warm hwf hstamps hb hr hw with ⟨hlt, hold, hl⟩ | hm
    · exact (hbuilt r hlt k hold).concat hl
    · exact ⟨log, _, [], rfl, hm, fun _ hx => (List.not_mem_nil hx).elim⟩

/-- In every state that the operations reach, a subtree list that is not dirty is
the depth-first list of the subtree, with each module once; and a vector with the
current stamp was built after the last change below its region, as long as there
have been fewer than `2 ^ 64 - 1` bumps. -/
theorem caches_coherent (h : CacheRun w log rt) (hb : rt.genBumps + 1 < 2 ^ 64) :
    (∃ l, rt.DepthFirst l ∧ ∀ r < rt.nregions, (l r).Nodup
        ∧ ((rt.regions r).subtreeModsDirty = false → (rt.regions r).subtreeMods = l r))
      ∧ ∀ r < rt.nregions, ∀ k, rt.Warm r k → BuiltLast w log r k := by
  obtain ⟨rt₀, -, h⟩ := h
  have hwf := h.cachesWf (cachesWf_bootstrap rt₀)
  exact ⟨⟨_, depthFirst_subtree hwf.tree, fun r hr =>
    ⟨hwf.lists.nodup_subtree hwf.tree hr, hwf.subtreeLists r hr⟩⟩, (h.builtLast hb).2⟩

/-! ## The steps of the machine -/

/-- A sequence of operations leads there. -/
def CachePath (w : World) (rt rt' : Runtime) : Prop := ∃ log, CacheSteps w rt log rt'

theorem CachePath.one (h : CacheStep w rt op rt') : CachePath w rt rt' := ⟨_, .concat .nil h⟩

theorem CacheSteps.append {rt'' : Runtime} {log' : List CacheMove} (h : CacheSteps w rt log rt')
    (h' : CacheSteps w rt' log' rt'') : CacheSteps w rt (log ++ log') rt'' := by
  induction h' with
  | nil => simpa using h
  | concat _ hs ih =>
    rw [← List.append_assoc]
    exact ih.concat hs

theorem CachePath.trans {rt'' : Runtime} (h : CachePath w rt rt') (h' : CachePath w rt' rt'') :
    CachePath w rt rt'' := by
  obtain ⟨log, h⟩ := h
  obtain ⟨log', h'⟩ := h'
  exact ⟨log ++ log', h.append h'⟩

/-- A write to entries and tables. -/
theorem Runtime.Aside.of_regions (hregions : rt'.regions = rt.regions)
    (hn : rt'.nregions = rt.nregions) (hHd : rt'.regionHd = rt.regionHd)
    (hb : rt'.genBumps = rt.genBumps) (hhome : ∀ {r e}, e ∈ rt.modsOf r → rt'.home e = rt.home e) :
    rt.Aside rt' where
  tree := tree_eq (fun x => by rw [hregions]) hn hHd
  modsOf := modsOf_eq fun x => by rw [hregions]
  caches := by funext x; simp only [Runtime.caches, hregions]
  genBumps := hb
  home := hhome

theorem cachePath_detach (h : rt.HeapWf) (e : EntryRef) :
    CachePath w rt (rt.moduleRegionDetach e) := by
  cases hhome : rt.home e with
  | none =>
    rw [moduleRegionDetach_modsOf_of_none rt hhome]
    exact ⟨[], .nil⟩
  | some r => exact .one (.detach (h.mem_iff.mpr hhome))

/-- Unlinking and freeing an entry. -/
theorem cachePath_discardEntry (h : rt.HeapWf) (e : EntryRef) (me : ModEntry) :
    CachePath w rt (rt.discardEntry w e me) := by
  have hfree : CacheStep w (rt.moduleRegionDetach e) .other (rt.discardEntry w e me) := by
    refine .other (.of_regions rfl rfl rfl rfl fun {x y} hy => ?_)
    have hne : y ≠ e := fun heq => (h.detach e).not_mem x (heq ▸ hy)
    show (Function.update (rt.moduleRegionDetach e).mods e none y).bind _ = _
    rw [Function.update_of_ne hne]
    rfl
  exact (cachePath_detach h e).trans (.one hfree)

theorem cachePath_linkEntry (hwf : rt.HeapWf) (ht : rt.tree.Wf) {e : EntryRef} {me : ModEntry}
    (hme : rt.mods e = some me) (hun : me.regionEntry = none) (size : Nat) :
    CachePath w rt (rt.linkEntry e me size) := by
  obtain ⟨rt₁, hrt₁, hregions, hn, hHd, hb, hhome, hlive⟩ : ∃ rt₁, rt.countEntry e size = rt₁
      ∧ rt₁.regions = rt.regions ∧ rt₁.nregions = rt.nregions ∧ rt₁.regionHd = rt.regionHd
      ∧ rt₁.genBumps = rt.genBumps ∧ (∀ x, rt₁.home x = rt.home x) ∧ rt₁.mods e ≠ none := by
    refine ⟨_, rfl, ?_⟩
    unfold Runtime.countEntry
    dsimp only
    split
    · exact ⟨rfl, rfl, rfl, rfl, fun _ => rfl, by simp [hme]⟩
    · refine ⟨rfl, rfl, rfl, rfl, (sameHeap_modifyMod (by intro _; exact ⟨rfl, rfl⟩) _ e).home, ?_⟩
      simp [modifyMod, hme]
  have hcount : CacheStep w rt .other rt₁ := .other (.of_regions hregions hn hHd hb fun _ => hhome _)
  unfold Runtime.linkEntry
  dsimp only
  rw [hrt₁]
  split
  · exact .one hcount
  · next r hr =>
    have hlt : r < rt₁.nregions := by
      rw [hn]
      rw [Runtime.regionLookup, hHd] at hr
      exact ((regionLookup_eq_some ht).mp hr).1
    refine .trans (.one hcount) (.one (.append hlt hlive fun x hx => ?_))
    have hmem : e ∈ rt.modsOf x := by
      have hmods : rt₁.modsOf = rt.modsOf := modsOf_eq fun x => by rw [hregions]
      rwa [hmods] at hx
    have hnone : rt.home e = none := by rw [home_of_mods hme, hun]
    rw [hwf.mem_iff, hnone] at hmem
    cases hmem

theorem cachePath_removeEntry (hwf : rt.HeapWf) (e : EntryRef) (me : ModEntry) :
    CachePath w rt (rt.removeEntry w e me) := by
  have hclear := moduleClearFnCacheForHandle_keeps w rt e me.handle
  obtain ⟨rt₁, hrt₁, hcleared⟩ : ∃ rt₁, rt.moduleClearFnCacheForHandle w e me.handle = rt₁
      ∧ rt.Aside rt₁ := by
    refine ⟨_, rfl, ?_⟩
    have hb : (rt.moduleClearFnCacheForHandle w e me.handle).genBumps = rt.genBumps := by
      obtain ⟨m, n, h⟩ := hclear.rest
      rw [h]
    exact ⟨hclear.tree, hclear.same.modsOf, by funext x; simp only [Runtime.caches, hclear.regions],
      hb, fun _ => hclear.same.home _⟩
  obtain ⟨rt₂, hrt₂, hlifted, hsame⟩ : ∃ rt₂, rt₁.moduleRemovePathOwnedEntries me = rt₂
      ∧ rt₁.Aside rt₂ ∧ rt₁.SameHeap rt₂ := by
    refine ⟨_, rfl, ?_⟩
    unfold Runtime.moduleRemovePathOwnedEntries
    split
    · exact ⟨⟨rfl, rfl, rfl, rfl, fun _ => rfl⟩, .refl _⟩
    · refine ⟨⟨moduleRemoveDenies_tree .., moduleRemoveDenies_modsOf .., ?_, rfl, fun _ => rfl⟩,
        sameHeap_modifyRegion (by intro _; rfl) _ _⟩
      exact funext fun x => modifyRegion_caches (by intro _; exact ⟨rfl, rfl, rfl, rfl⟩) _ _ x
  have hwf₂ : rt₂.HeapWf := (hwf.of_same (hrt₁ ▸ hclear.same)).of_same hsame
  unfold Runtime.removeEntry
  dsimp only
  rw [hrt₁, hrt₂]
  have hlifted' : CachePath w rt rt₂ := .trans (.one (.other hcleared)) (.one (.other hlifted))
  exact (hlifted'.trans (cachePath_discardEntry hwf₂ e me)).trans
    (.one (.other ⟨rfl, rfl, rfl, rfl, fun _ => rfl⟩))

theorem cachePath_reinsert (hwf : rt.HeapWf) {e : EntryRef} {after : Option EntryRef}
    (hlive : rt.mods e ≠ none) (hr : r < rt.nregions)
    (hi : Xylem.reinsert rt r e after = some rt') : CachePath w rt rt' := by
  unfold Xylem.reinsert at hi
  dsimp only at hi
  split at hi
  · next hafter =>
    cases hi
    have hn : (rt.moduleRegionDetach e).nregions = rt.nregions :=
      congrArg Tree.count (moduleRegionDetach_tree rt e)
    refine (cachePath_detach hwf e).trans (.one (.insertAfter (hn ▸ hr) ?_ ?_ hafter))
    · rwa [moduleRegionDetach_mods]
    · exact (hwf.detach e).not_mem
  · cases hi

/-- What a step does to the runtime is a sequence of operations, unless it is a
shutdown. -/
theorem Effect.cachePath {c : Config} {a : Action} (hwf : c.Wf w) (h : Effect w c a rt') :
    (a = .call .shutdown ∧ rt' = c.st.rt.bootstrap) ∨ CachePath w c.st.rt rt' := by
  have haside : ∀ {rt'' : Runtime}, c.st.rt.Aside rt'' → CachePath w c.st.rt rt'' :=
    fun h => .one (.other h)
  have hmodify : ∀ {e : EntryRef} {f : ModEntry → ModEntry},
      (∀ me, (f me).regionEntry = me.regionEntry) →
      CachePath w c.st.rt (c.st.rt.modifyMod e f) := fun hf =>
    haside (.of_regions rfl rfl rfl rfl fun _ => home_congr (modifyMod_proj _ hf _ _ _))
  cases h with
  | shutdown ha hstack => exact Or.inl ⟨ha, rfl⟩
  | same => exact Or.inr ⟨[], .nil⟩
  | deny ha hcur hr => exact Or.inr (.one (.deny hr))
  | @handler r f q ha hr hf =>
    refine Or.inr (haside ⟨modifyRegion_tree _ (by intro e; rw [hf e]) r,
      (sameHeap_modifyRegion (by intro e; rw [hf e]) _ _).modsOf, ?_, rfl, fun _ => rfl⟩)
    exact funext fun x =>
      modifyRegion_caches (by intro e; rw [hf e]; exact ⟨rfl, rfl, rfl, rfl⟩) _ _ x
  | @claimAt p id plen fn ha hnear hadd =>
    have hstep : CacheStep w c.st.rt (.claimAt id plen fn) (xyClaimAt c.st id plen fn).1.rt :=
      .claimAt rfl
    rcases xyClaimAt_cases hwf.tree id plen fn with
      ⟨hbad, -, -⟩ | ⟨r, hr, -, -⟩ | ⟨p', hnear', -, hrt, -⟩
    · rcases hbad with hgt | halign
      · exact absurd hadd.plen_le (Nat.not_le.mpr hgt)
      · exact absurd hadd.aligned halign
    · exact absurd (hr.symm.trans hadd.absent) (by simp)
    · obtain rfl : p' = p := Option.some.inj (hnear'.symm.trans hnear)
      rw [hrt] at hstep
      exact Or.inr (.one hstep)
  | @grant tx k p bits id hstack ha hbits hslot hid hadd =>
    have hp := hadd.parent_lt
    have hplen : childPlen (c.st.rt.regions p).toRegionNode bits = (c.st.rt.regions p).plen + bits :=
      Nat.mod_eq_of_lt (Nat.lt_of_le_of_lt hadd.plen_le (by decide : 64 < 256))
    have hg : xyClaimGranted c.st p xyOk bits = .ok
        ({ c.st with rt := c.st.rt.addRegion p id ((c.st.rt.regions p).plen + bits) bits none
          }.setCurrentRegion ⟨id, some c.st.rt.nregions⟩, ⟨id, (c.st.rt.regions p).plen + bits⟩) := by
      unfold xyClaimGranted
      rw [if_neg (by simp), if_neg (by omega), hslot, if_neg hid, hplen]
    exact Or.inr (.one (.claimForLoad rfl hp hg))
  | refcount => exact Or.inr (hmodify fun _ => rfl)
  | bind => exact Or.inr (hmodify fun _ => rfl)
  | prewarm =>
    exact Or.inr (hmodify fun me => (ModEntry.eq_of_core (me.core_fnCachePrewarm ..)).2.2.2.1)
  | @publish tx k ha hstack hl =>
    refine Or.inr (haside (.of_regions rfl rfl rfl rfl fun {r e} he => ?_))
    have hne : e ≠ c.st.rt.nmods := by
      rintro rfl
      have hhome := hwf.heap.mem_iff.mp he
      simp [Runtime.home, hwf.heap.fresh (le_refl _)] at hhome
    simp [Runtime.home, Runtime.publishEntry, hne]
  | @rekey tx k child e ha hstack hl =>
    refine Or.inr (haside (.of_regions rfl rfl rfl rfl fun {r x} hx => ?_))
    refine home_congr ?_
    exact modifyMod_proj (·.regionEntry) (f := fun me : ModEntry => { me with
      regionId := child.id, regionPlen := child.plen
      modKey := modKey (w.loadPath tx.fname) child.id child.plen }) (fun _ => rfl) c.st.rt e x
  | link ha hstack he hme hun =>
    exact Or.inr (cachePath_linkEntry hwf.heap hwf.tree hme hun _)
  | abort ha hstack he hme => exact Or.inr (cachePath_discardEntry hwf.heap _ _)
  | remove ha hstack hme => exact Or.inr (cachePath_removeEntry hwf.heap _ _)
  | @reinsert rl k e r rt' ha hstack hl hre hr hi =>
    have hlive : c.st.rt.mods e ≠ none := by
      have hkey := hwf.heap.table hl
      exact fun hnone => by simp [keyOf, hnone] at hkey
    exact Or.inr (cachePath_reinsert hwf.heap hlive hr hi)
  | @vector r hookId name rt' q ha hcaller hr hv =>
    rw [← regionAncestorChain_eq hwf.tree hr] at hv
    exact Or.inr (.one (.dispatch hr hv))
  | @resolve d k e me ha hstack hself hme =>
    have ho := onlyCaches_modifyMod hme (me.core_resolved (w := w) d.hookId d.name)
    exact Or.inr (haside (.of_regions rfl rfl rfl rfl fun _ => ho.same.home _))
  | register =>
    exact Or.inr (haside (.of_regions rfl rfl rfl rfl fun _ => (sameHeap_registerHook ..).home _))

/-- A run of the machine without a shutdown is a sequence of operations. -/
theorem cachePath_of_reachable {c : Config}
    (h : ReachableBy w (fun _ a => a ≠ .call .shutdown) c) : ∃ log, CacheRun w log c.st.rt := by
  refine ReachableBy.invariant_wf (fun c => ∃ log, CacheRun w log c.st.rt) (fun c hc => ?_)
    (fun c a c' ev hwf hrun hne hs => ?_) h
  · obtain ⟨ctxs, adapters, mem, rfl⟩ := hc
    exact ⟨[], _, rfl, .nil⟩
  · obtain ⟨log, rt₀, hb, hrun⟩ := hrun
    rcases (hs.effect hwf).cachePath hwf with ⟨ha, -⟩ | ⟨log', hpath⟩
    · exact absurd ha hne
    · exact ⟨log ++ log', rt₀, hb, hrun.append hpath⟩

end

/-! ## A counter that comes round -/

/-- An entry without a context, before it is linked. -/
def sampleEntry : ModEntry :=
  { ctx := none, fnCache := [], regionState := none, loadPath := sampleHook, handle := 1
    regionEntry := none, regionId := 0, regionPlen := 0, refcount := 1, parentEntry := none
    hookImplBits := [], modKey := modKey sampleHook 0 0 }

/-- Two modules are loaded, one of them into a region that is claimed, and the root
dispatches a hook. -/
theorem caches_coherent_claimed :
    ∃ log rt l, CacheRun sampleWorld log rt ∧ rt.DepthFirst l ∧ l 0 = [0, 1]
      ∧ (rt.regions 0).subtreeMods = l 0 ∧ rt.Warm 0 0 ∧ BuiltLast sampleWorld log 0 0 := by
  let s := (Config.boot sampleHook).st
  let rt₁ := s.rt.publishEntry sampleEntry
  let rt₂ := rt₁.publishEntry sampleEntry
  let rt₃ := rt₂.moduleRegionAppend 0 0
  let rt₄ := (xyClaimAt { s with rt := rt₃ } 0x1000000000000 16 none).1.rt
  let rt₅ := rt₄.moduleRegionAppend 1 1
  have hs₁ : CacheStep sampleWorld s.rt .other rt₁ :=
    .other (.of_regions rfl rfl rfl rfl fun he => (List.not_mem_nil he).elim)
  have hs₂ : CacheStep sampleWorld rt₁ .other rt₂ :=
    .other (.of_regions rfl rfl rfl rfl fun he => (List.not_mem_nil he).elim)
  have hs₃ : CacheStep sampleWorld rt₂ (.append 0 0) rt₃ :=
    .append (by decide +kernel) (by decide +kernel) fun _ he => List.not_mem_nil he
  have hs₄ : CacheStep sampleWorld rt₃ (.claimAt 0x1000000000000 16 none) rt₄ := .claimAt rfl
  have hwf : rt₄.CachesWf :=
    hs₄.cachesWf (hs₃.cachesWf (hs₂.cachesWf (hs₁.cachesWf (cachesWf_bootstrap s.rt))))
  have hout : rt₄.home 1 = none := by decide +kernel
  have hs₅ : CacheStep sampleWorld rt₄ (.append 1 1) rt₅ :=
    .append (by decide +kernel) (by decide +kernel) fun x hx => by
      rw [hwf.lists.home hx] at hout
      cases hout
  obtain ⟨rt, hv, hlist⟩ : ∃ rt,
      rt₅.prepareVec sampleWorld 0 0 sampleHook (rt₅.regionAncestorChain 0 65) = some rt
        ∧ (rt.regions 0).subtreeModsDirty = false ∧ (rt.regions 0).subtreeMods = [0, 1] := by
    have : ((rt₅.prepareVec sampleWorld 0 0 sampleHook (rt₅.regionAncestorChain 0 65)).map
      fun rt => ((rt.regions 0).subtreeModsDirty, (rt.regions 0).subtreeMods))
        = some (false, [0, 1]) := by decide +kernel
    obtain ⟨rt, hv, hlist⟩ := Option.map_eq_some_iff.mp this
    exact ⟨rt, hv, congrArg Prod.fst hlist, congrArg Prod.snd hlist⟩
  obtain ⟨hclean, hmods⟩ := hlist
  have hrun : CacheRun sampleWorld _ rt :=
    ⟨s.rt, rfl, (((((CacheSteps.nil.concat hs₁).concat hs₂).concat hs₃).concat hs₄).concat hs₅).concat
      (.dispatch (r := 0) (by decide +kernel) hv)⟩
  have hp := prepareVec_spec hv
  have hb : rt.genBumps + 1 < 2 ^ 64 := by
    rw [hp.genBumps]
    decide +kernel
  have hn : 0 < rt.nregions := by
    rw [(rebuild_of_prepareVec hv).nregions]
    decide +kernel
  obtain ⟨⟨l, hl, hsub⟩, hbuilt⟩ := caches_coherent hrun hb
  have hroot := (hsub 0 hn).2 hclean
  exact ⟨_, rt, l, hrun, hl, hroot.symm.trans hmods, hroot, hp.stamped, hbuilt 0 hn 0 hp.stamped⟩

/-- One entry, in the list of the root or in none, after `b` bumps. -/
structure Swinging (rt : Runtime) (e : EntryRef) (vecs : List HookDispatchCache) (b : Nat) :
    Prop where
  wf : rt.CachesWf
  live : rt.mods e ≠ none
  others : ∀ x, x ≠ 0 → rt.modsOf x = []
  vecs : (rt.caches 0).vecs = vecs
  gen : (rt.caches 0).gen = genBump^[b] 1
  genBumps : rt.genBumps = b

section

variable {w : World} {rt rt' : Runtime} {op : CacheOp} {log : List CacheMove} {e : EntryRef}
  {vecs : List HookDispatchCache} {b : Nat}

/-- An edit of the root's list. -/
theorem Swinging.step (h : Swinging rt e vecs b) (hs : CacheStep w rt op rt')
    (hlive : rt'.mods e ≠ none) (hmods : ∃ l, rt'.modsOf = Function.update rt.modsOf 0 l)
    (hbump : Bumped rt rt' 0) (hb : rt'.genBumps = rt.genBumps + 1) :
    Swinging rt' e vecs (b + 1) := by
  obtain ⟨k, hk, hle, hgen⟩ := hbump.gen
  obtain rfl : k = 1 := by omega
  refine ⟨hs.cachesWf h.wf, hlive, fun x hx => ?_, hbump.vecs.trans h.vecs, ?_, by rw [hb, h.genBumps]⟩
  · obtain ⟨l, hl⟩ := hmods
    rw [hl, Function.update_of_ne hx]
    exact h.others x hx
  · rw [hgen, h.gen, Nat.add_comm b 1, Function.iterate_add_apply]

theorem Swinging.append (h : Swinging rt e vecs b) (hout : rt.modsOf 0 = []) :
    CacheStep w rt (.append 0 e) (rt.moduleRegionAppend 0 e)
      ∧ Swinging (rt.moduleRegionAppend 0 e) e vecs (b + 1)
      ∧ (rt.moduleRegionAppend 0 e).modsOf 0 = [e] := by
  have hempty : ∀ x, e ∉ rt.modsOf x := by
    intro x
    by_cases hx : x = 0
    · simp [hx, hout]
    · simp [h.others x hx]
  have hs : CacheStep w rt (.append 0 e) (rt.moduleRegionAppend 0 e) :=
    .append h.wf.tree.pos h.live hempty
  have hmods : (rt.moduleRegionAppend 0 e).modsOf = Function.update rt.modsOf 0 [e] := by
    have hlast : (rt.regions 0).mods.getLast? = none := by
      rw [List.getLast?_eq_none_iff]
      exact hout
    rw [moduleRegionAppend, hlast, moduleRegionInsertAfter_modsOf, hout]
    rfl
  have hbump := (moduleRegionInsertAfter_touched h.wf.tree h.wf.tree.pos e
    (rt.regions 0).mods.getLast? h.wf.tree.pos).1 (Forest.Links.self_mem_anc 0)
  refine ⟨hs, h.step hs ?_ ⟨_, hmods⟩ hbump rfl, ?_⟩
  · rw [moduleRegionAppend, moduleRegionInsertAfter_mods, Function.update_self]
    simp [h.live]
  · rw [hmods, Function.update_self]

theorem Swinging.detach (h : Swinging rt e vecs b) (hin : rt.modsOf 0 = [e]) :
    CacheStep w rt (.detach e) (rt.moduleRegionDetach e)
      ∧ Swinging (rt.moduleRegionDetach e) e vecs (b + 1)
      ∧ (rt.moduleRegionDetach e).modsOf 0 = [] := by
  have hmem : e ∈ rt.modsOf 0 := by rw [hin]; exact List.mem_singleton_self e
  have hhome := h.wf.lists.home hmem
  have hs : CacheStep w rt (.detach e) (rt.moduleRegionDetach e) := .detach hmem
  have hmods := moduleRegionDetach_modsOf rt hhome
  have hbump := (moduleRegionDetach_touched h.wf.tree (e := e) (by
    intro t ht
    rw [hhome] at ht
    cases ht
    exact h.wf.tree.pos) h.wf.tree.pos).1 0 hhome (Forest.Links.self_mem_anc 0)
  refine ⟨hs, h.step hs ?_ ⟨_, hmods⟩ hbump ?_, ?_⟩
  · rw [moduleRegionDetach_mods]
    exact h.live
  · unfold moduleRegionDetach
    rw [show (rt.mods e).bind (·.regionEntry) = some 0 from hhome]
    rfl
  · rw [hmods, Function.update_self, hin]
    simp

/-- In and out, `k` times. -/
theorem Swinging.cycles (h : Swinging rt e vecs b) (hout : rt.modsOf 0 = []) (k : Nat) :
    ∃ log rt', CacheSteps w rt log rt' ∧ Swinging rt' e vecs (b + 2 * k) ∧ rt'.modsOf 0 = [] := by
  induction k with
  | zero => exact ⟨[], rt, .nil, h, hout⟩
  | succ k ih =>
    obtain ⟨log, rt₁, hlog, h₁, hout₁⟩ := ih
    obtain ⟨hs₂, h₂, hin₂⟩ := h₁.append (w := w) hout₁
    obtain ⟨hs₃, h₃, hout₃⟩ := h₂.detach (w := w) hin₂
    exact ⟨_, _, (hlog.concat hs₂).concat hs₃, h₃, hout₃⟩

end

/-- A module goes into the root's list and out again until the counter is back
where it was.  The vector that was built before still carries the current
stamp. -/
theorem not_builtLast_of_wrap :
    ∃ log rt, CacheRun sampleWorld log rt ∧ rt.genBumps < 2 ^ 64 ∧ 0 < rt.nregions ∧ rt.Warm 0 0
      ∧ ¬ BuiltLast sampleWorld log 0 0 := by
  let rt₀ := (Config.boot sampleHook).st.rt
  let rt₁ := rt₀.bootstrap.publishEntry sampleEntry
  have hs₁ : CacheStep sampleWorld rt₀.bootstrap .other rt₁ :=
    .other (.of_regions rfl rfl rfl rfl fun he => (List.not_mem_nil he).elim)
  obtain ⟨rt₂, hv⟩ : ∃ rt₂,
      rt₁.prepareVec sampleWorld 0 0 sampleHook (rt₁.regionAncestorChain 0 65) = some rt₂ := ⟨_, rfl⟩
  have hp := prepareVec_spec hv
  have hre := rebuild_of_prepareVec hv
  have hs₂ : CacheStep sampleWorld rt₁ (.dispatch 0 0 sampleHook) rt₂ :=
    .dispatch Nat.one_pos hv
  have hlive : rt₂.mods 0 ≠ none := by
    have hcore : rt₂.core 0 = some sampleEntry.core := congrFun (prepareVec_keeps hv).1 0
    intro hnone
    simp [core, hnone] at hcore
  have hswing : Swinging rt₂ 0 (rt₂.caches 0).vecs 0 :=
    { wf := hs₂.cachesWf (hs₁.cachesWf (cachesWf_bootstrap rt₀)), live := hlive
      others := fun x _ => congrFun hre.modsOf x
      vecs := rfl, gen := hp.gen, genBumps := hp.genBumps }
  obtain ⟨log, rt₃, hlog, h₃, hout₃⟩ := hswing.cycles (w := sampleWorld) (congrFun hre.modsOf 0)
    (2 ^ 63 - 1)
  obtain ⟨hs₄, h₄, hin₄⟩ := h₃.append (w := sampleWorld) hout₃
  have hrun : CacheSteps sampleWorld rt₀.bootstrap _ _ :=
    (((CacheSteps.nil.concat hs₁).concat hs₂).append hlog).concat hs₄
  refine ⟨_, _, ⟨rt₀, rfl, hrun⟩, ?_, h₄.wf.tree.pos, ?_, ?_⟩
  · rw [h₄.genBumps]
    omega
  · have hgen : genBump^[0 + 2 * (2 ^ 63 - 1) + 1] 1 = 1 := by
      rw [Function.iterate_succ_apply', genBump_iterate (by omega)]
      rfl
    have hvec : (rt₃.moduleRegionAppend 0 0).hookVec 0 0 = rt₂.hookVec 0 0 :=
      hookVec_of_vecs h₄.vecs 0
    rw [Warm, hvec, h₄.gen, hgen, hp.stamped]
    exact hp.gen
  · rintro ⟨pre, m, post, hsplit, ⟨name, hop, -⟩, hpost⟩
    rcases List.eq_nil_or_concat post with rfl | ⟨post, x, rfl⟩
    · obtain ⟨-, hm⟩ := List.append_inj' hsplit rfl
      rw [← (List.cons.inj hm).1] at hop
      cases hop
    · rw [List.concat_eq_append, ← List.cons_append, ← List.append_assoc] at hsplit
      obtain ⟨-, hx⟩ := List.append_inj' hsplit rfl
      have hleaves := hpost x (by simp)
      rw [← (List.cons.inj hx).1] at hleaves
      have hsame := hleaves.modsOf 0 ((mem_subtree_root h₃.wf.tree).mpr h₃.wf.tree.pos)
      rw [hin₄, hout₃] at hsame
      cases hsame

end Xylem
