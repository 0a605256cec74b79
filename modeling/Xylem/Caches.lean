import Mathlib.Logic.Function.Iterate
import Xylem.Invariant

/-!
# What a region caches

A region caches the module list of its subtree, behind a dirty flag, and one
listener vector for each hook, behind a generation counter.  `Touched` says what
a step does to the caches of one region: nothing that they depend on has changed
(`Kept`), or the region was marked (`Bumped`), or a deny has moved its counter
(`Denied`).  `Effect.touched` says that every effect but a rebuild is of this
kind.

Two invariants follow.  `SubtreeLists`: a subtree list that is not dirty is the
list of the subtree.  `Stamps`: no stamp of a vector is ahead of the counter, as
long as the counter has not wrapped.
-/

namespace Xylem

open Xylem.Runtime

/-! ## The generation counter -/

theorem Runtime.genBump_of_lt {g : Nat} (h : g + 1 < 2 ^ 64) : genBump g = g + 1 := by
  unfold genBump
  rw [Nat.mod_eq_of_lt h]
  simp

theorem Runtime.genBump_iterate {g k : Nat} (h : g + k < 2 ^ 64) : genBump^[k] g = g + k := by
  induction k generalizing g with
  | zero => rfl
  | succ k ih =>
    rw [Function.iterate_succ_apply, genBump_of_lt (by omega), ih (by omega)]
    omega

/-! ## Views -/

/-- The caches of a region, and the counter that guards its vectors. -/
structure RegionCaches where
  subtreeMods : List EntryRef
  dirty : Bool
  gen : Nat
  vecs : List HookDispatchCache

/-- `region_mark_subtree_dirty`, at one region of the chain. -/
def RegionCaches.mark (c : RegionCaches) : RegionCaches :=
  { c with dirty := true, gen := genBump c.gen }

namespace Runtime

variable {w : World} {rt rt' rt'' : Runtime}

def caches (rt : Runtime) (r : RegionRef) : RegionCaches :=
  { subtreeMods := (rt.regions r).subtreeMods
    dirty := (rt.regions r).subtreeModsDirty
    gen := (rt.regions r).dispatchGen
    vecs := (rt.regions r).hookDispatch }

/-- A write that the caches do not see. -/
theorem modifyRegion_caches {f : RegionEntry → RegionEntry}
    (h : ∀ e, (f e).subtreeMods = e.subtreeMods ∧ (f e).subtreeModsDirty = e.subtreeModsDirty
      ∧ (f e).dispatchGen = e.dispatchGen ∧ (f e).hookDispatch = e.hookDispatch)
    (rt : Runtime) (r x : RegionRef) : (rt.modifyRegion r f).caches x = rt.caches x := by
  simp only [caches, modifyRegion_apply]
  split
  · obtain ⟨h1, h2, h3, h4⟩ := h (rt.regions x)
    rw [h1, h2, h3, h4]
  · rfl

theorem regionMarkSubtreeDirty_caches (rt : Runtime) (r x : RegionRef) :
    (rt.regionMarkSubtreeDirty r).caches x
      = if x ∈ rt.parentChain r then (rt.caches x).mark else rt.caches x := by
  simp only [caches, regionMarkSubtreeDirty, regionDispatchGenBump, modifyRegions_apply]
  split <;> rfl

theorem recordDeny_caches (w : World) (rt : Runtime) (r x : RegionRef) (what : CStr)
    (type : DenyType) :
    (rt.recordDeny w r what type).caches x
      = if x ∈ rt.parentChain r
        then { rt.caches x with gen := genBump (rt.caches x).gen } else rt.caches x := by
  have hchain : ∀ f : RegionEntry → RegionEntry, (∀ e, (f e).toRegionNode = e.toRegionNode) →
      ((rt.modifyRegion r f).regionPropagateDeny r).parentChain r = rt.parentChain r := by
    intro f hf
    simp only [parentChain, chainUp_eq, regionPropagateDeny_tree, modifyRegion_tree rt hf]
    rfl
  have hone : ∀ f : RegionEntry → RegionEntry, (∀ e, (f e).toRegionNode = e.toRegionNode) →
      (∀ e, (f e).subtreeMods = e.subtreeMods ∧ (f e).subtreeModsDirty = e.subtreeModsDirty
        ∧ (f e).dispatchGen = e.dispatchGen ∧ (f e).hookDispatch = e.hookDispatch) →
      (((rt.modifyRegion r f).regionPropagateDeny r).regionDispatchGenBump r).caches x
        = if x ∈ rt.parentChain r
          then { rt.caches x with gen := genBump (rt.caches x).gen } else rt.caches x := by
    intro f hf hc
    have hold := modifyRegion_caches hc rt r x
    have hprop : ((rt.modifyRegion r f).regionPropagateDeny r).caches x = rt.caches x := by
      rw [← hold]
      simp only [caches, regionPropagateDeny, modifyRegions_apply]
      split <;> rfl
    rw [← hprop, ← hchain f hf]
    simp only [caches, regionDispatchGenBump, modifyRegions_apply]
    split <;> rfl
  unfold recordDeny
  cases type
  · exact hone _ (by intro _; rfl) (by intro _; exact ⟨rfl, rfl, rfl, rfl⟩)
  · exact hone _ (by intro _; rfl) (by intro _; exact ⟨rfl, rfl, rfl, rfl⟩)

/-! ## What a step does to the caches of a region -/

/-- Nothing that the caches of `r` depend on has changed. -/
structure Kept (rt rt' : Runtime) (r : RegionRef) : Prop where
  caches : rt'.caches r = rt.caches r
  subtree : rt'.subtree r = rt.subtree r
  modsOf : ∀ x ∈ rt.subtree r, rt'.modsOf x = rt.modsOf x

/-- The region has been marked, once or more often. -/
structure Bumped (rt rt' : Runtime) (r : RegionRef) : Prop where
  vecs : (rt'.caches r).vecs = (rt.caches r).vecs
  dirty : (rt'.caches r).dirty = true
  gen : ∃ k, 0 < k ∧ rt.genBumps + k ≤ rt'.genBumps
    ∧ (rt'.caches r).gen = genBump^[k] (rt.caches r).gen

/-- The counter has moved, and nothing else. -/
structure Denied (rt rt' : Runtime) (r : RegionRef) : Prop where
  caches : rt'.caches r = { rt.caches r with gen := genBump (rt.caches r).gen }
  genBumps : rt.genBumps + 1 ≤ rt'.genBumps
  subtree : rt'.subtree r = rt.subtree r
  modsOf : ∀ x ∈ rt.subtree r, rt'.modsOf x = rt.modsOf x

inductive Touched (rt rt' : Runtime) (r : RegionRef) : Prop
  | kept (h : Kept rt rt' r)
  | bumped (h : Bumped rt rt' r)
  | denied (h : Denied rt rt' r)

theorem Kept.of_eq {r : RegionRef} (hcaches : rt'.caches = rt.caches) (htree : rt'.tree = rt.tree)
    (hmods : rt'.modsOf = rt.modsOf) : Kept rt rt' r := by
  have hn : rt'.nregions = rt.nregions := congrArg Tree.count htree
  refine ⟨by rw [hcaches], ?_, fun x _ => by rw [hmods]⟩
  simp only [Runtime.subtree, htree, hn]

/-- A list edit at one region, marked along its chain. -/
theorem touched_edit (ht : rt.tree.Wf) {t : Nat} (hlt : t < rt.nregions)
    {f : RegionEntry → RegionEntry} (hnode : ∀ e, (f e).toRegionNode = e.toRegionNode)
    (hcaches : ∀ e, (f e).subtreeMods = e.subtreeMods
      ∧ (f e).subtreeModsDirty = e.subtreeModsDirty
      ∧ (f e).dispatchGen = e.dispatchGen ∧ (f e).hookDispatch = e.hookDispatch)
    {r : Nat} (hr : r < rt.nregions) :
    (r ∈ rt.chain t → Bumped rt ((rt.modifyRegion t f).regionMarkSubtreeDirty t) r)
      ∧ (r ∉ rt.chain t → Kept rt ((rt.modifyRegion t f).regionMarkSubtreeDirty t) r) := by
  have htree : ((rt.modifyRegion t f).regionMarkSubtreeDirty t).tree = rt.tree := by
    rw [regionMarkSubtreeDirty_tree, modifyRegion_tree rt hnode]
  have hchain : (rt.modifyRegion t f).parentChain t = rt.chain t := by
    simp only [parentChain, chainUp_eq, modifyRegion_tree rt hnode]
    exact Forest.Links.up_eq_anc ht.forest hlt hlt
  have hc := regionMarkSubtreeDirty_caches (rt.modifyRegion t f) t r
  rw [hchain, modifyRegion_caches hcaches] at hc
  constructor
  · intro hin
    rw [if_pos hin] at hc
    exact ⟨by rw [hc]; rfl, by rw [hc]; rfl, 1, Nat.one_pos, le_rfl, by rw [hc]; rfl⟩
  · intro hout
    rw [if_neg hout] at hc
    refine ⟨hc, ?_, fun x hx => ?_⟩
    · have hn := congrArg Tree.count htree
      simp only [subtree, htree]
      exact congrArg (fun n => rt.tree.links.sub n r) hn
    · have hne : x ≠ t := by
        rintro rfl
        exact hout ((mem_subtree_iff ht hr).mp hx).2
      rw [regionMarkSubtreeDirty_modsOf]
      show ((rt.modifyRegion t f).regions x).mods = (rt.regions x).mods
      rw [modifyRegion_apply, if_neg hne]

theorem Kept.trans {r : RegionRef} (h : Kept rt rt' r) (h' : Kept rt' rt'' r) :
    Kept rt rt'' r where
  caches := h'.caches.trans h.caches
  subtree := h'.subtree.trans h.subtree
  modsOf x hx := (h'.modsOf x (h.subtree ▸ hx)).trans (h.modsOf x hx)

theorem Kept.touched_trans {r : RegionRef} (h : Kept rt rt' r) (hle : rt.genBumps ≤ rt'.genBumps)
    (h' : Bumped rt' rt'' r ∨ Kept rt' rt'' r) : Bumped rt rt'' r ∨ Kept rt rt'' r := by
  rcases h' with ⟨hv, hd, k, hk, hb, hg⟩ | h'
  · rw [h.caches] at hv hg
    exact Or.inl ⟨hv, hd, k, hk, by omega, hg⟩
  · exact Or.inr (h.trans h')

theorem Bumped.touched_trans {r : RegionRef} (h : Bumped rt rt' r)
    (hle : rt'.genBumps ≤ rt''.genBumps) (h' : Bumped rt' rt'' r ∨ Kept rt' rt'' r) :
    Bumped rt rt'' r := by
  obtain ⟨hv, hd, k, hk, hb, hg⟩ := h
  rcases h' with ⟨hv', hd', k', hk', hb', hg'⟩ | h'
  · refine ⟨hv'.trans hv, hd', k' + k, by omega, by omega, ?_⟩
    rw [hg', hg, Function.iterate_add_apply]
  · exact ⟨by rw [h'.caches, hv], by rw [h'.caches, hd], k, hk, by omega, by rw [h'.caches, hg]⟩

/-! ## The list operations -/

theorem moduleRegionDetach_touched (ht : rt.tree.Wf) {e : EntryRef}
    (hlt : ∀ t ∈ rt.home e, t < rt.nregions) {r : Nat} (hr : r < rt.nregions) :
    (∀ t ∈ rt.home e, r ∈ rt.chain t → Bumped rt (rt.moduleRegionDetach e) r)
      ∧ ((∀ t ∈ rt.home e, r ∉ rt.chain t) → Kept rt (rt.moduleRegionDetach e) r) := by
  unfold moduleRegionDetach
  cases hhome : (rt.mods e).bind (·.regionEntry) with
  | none => exact ⟨fun t ht' => by simp [home, hhome] at ht', fun _ => .of_eq rfl rfl rfl⟩
  | some t =>
    have hmem : t ∈ rt.home e := hhome
    have hedit := touched_edit ht (hlt t hmem)
      (f := fun re => { re with mods := re.mods.erase e }) (by intro _; rfl)
      (by intro _; exact ⟨rfl, rfl, rfl, rfl⟩) hr
    constructor
    · intro t' ht' hin
      rw [home, hhome] at ht'
      cases ht'
      exact hedit.1 hin
    · intro hout
      exact hedit.2 (hout t hmem)

theorem moduleRegionInsertAfter_touched (ht : rt.tree.Wf) {t : Nat} (hlt : t < rt.nregions)
    (e : EntryRef) (after : Option EntryRef) {r : Nat} (hr : r < rt.nregions) :
    (r ∈ rt.chain t → Bumped rt (rt.moduleRegionInsertAfter t e after) r)
      ∧ (r ∉ rt.chain t → Kept rt (rt.moduleRegionInsertAfter t e after) r) := by
  have hedit := @touched_edit (rt.modifyMod e fun me => { me with regionEntry := some t }) ht t
    hlt (fun re => { re with mods := insertAfter e after re.mods }) (by intro _; rfl)
    (by intro _; exact ⟨rfl, rfl, rfl, rfl⟩) r hr
  constructor
  · intro hin
    obtain ⟨hv, hd, hg⟩ := hedit.1 hin
    exact ⟨hv, hd, hg⟩
  · intro hout
    obtain ⟨hc, hs, hm⟩ := hedit.2 hout
    exact ⟨hc, hs, hm⟩

theorem Touched.of_or {r : RegionRef} (h : Bumped rt rt' r ∨ Kept rt rt' r) : Touched rt rt' r :=
  h.elim .bumped .kept

/-- A list edit touches each region one way or the other. -/
theorem moduleRegionDetach_or (ht : rt.tree.Wf) {e : EntryRef}
    (hlt : ∀ t ∈ rt.home e, t < rt.nregions) {r : Nat} (hr : r < rt.nregions) :
    Bumped rt (rt.moduleRegionDetach e) r ∨ Kept rt (rt.moduleRegionDetach e) r := by
  obtain ⟨hb, hk⟩ := moduleRegionDetach_touched ht hlt hr
  by_cases h : ∃ t ∈ rt.home e, r ∈ rt.chain t
  · obtain ⟨t, ht', hin⟩ := h
    exact Or.inl (hb t ht' hin)
  · exact Or.inr (hk fun t ht' hin => h ⟨t, ht', hin⟩)

theorem moduleRegionInsertAfter_or (ht : rt.tree.Wf) {t : Nat} (hlt : t < rt.nregions)
    (e : EntryRef) (after : Option EntryRef) {r : Nat} (hr : r < rt.nregions) :
    Bumped rt (rt.moduleRegionInsertAfter t e after) r
      ∨ Kept rt (rt.moduleRegionInsertAfter t e after) r := by
  obtain ⟨hb, hk⟩ := moduleRegionInsertAfter_touched ht hlt e after hr
  by_cases h : r ∈ rt.chain t
  · exact Or.inl (hb h)
  · exact Or.inr (hk h)

theorem moduleRegionDetach_genBumps (rt : Runtime) (e : EntryRef) :
    rt.genBumps ≤ (rt.moduleRegionDetach e).genBumps
      ∧ (rt.moduleRegionDetach e).genBumps ≤ rt.genBumps + 1 := by
  unfold moduleRegionDetach
  split
  · exact ⟨le_rfl, Nat.le_succ _⟩
  · exact ⟨Nat.le_succ _, le_rfl⟩

theorem discardEntry_or (ht : rt.tree.Wf) {e : EntryRef} {me : ModEntry}
    (hlt : ∀ t ∈ rt.home e, t < rt.nregions) {r : Nat} (hr : r < rt.nregions) :
    Bumped rt (rt.discardEntry w e me) r ∨ Kept rt (rt.discardEntry w e me) r := by
  rcases moduleRegionDetach_or ht hlt hr with ⟨hv, hd, hg⟩ | ⟨hc, hs, hm⟩
  · exact Or.inl ⟨hv, hd, hg⟩
  · exact Or.inr ⟨hc, hs, hm⟩

/-- The caches of a region that has just been made. -/
def freshCaches : RegionCaches := { subtreeMods := [], dirty := false, gen := 1, vecs := [] }

theorem addRegion_caches (ht : rt.tree.Wf) {p : Nat} {id : RegionId} {plen bits : Nat}
    (hadd : rt.tree.CanAdd p id plen bits) (fn : Option HandlerRef) (x : Nat) :
    (rt.addRegion p id plen bits fn).caches x
      = if x ∈ rt.chain p then (rt.caches x).mark
        else if x = rt.nregions then freshCaches else rt.caches x := by
  have hp : p < rt.nregions := hadd.parent_lt
  obtain ⟨rt1, hmark, hold⟩ : ∃ rt1 : Runtime, rt.addRegion p id plen bits fn
      = rt1.regionMarkSubtreeDirty p ∧ ∀ x, rt1.caches x
        = if x = rt.nregions then freshCaches else rt.caches x := by
    refine ⟨_, rfl, fun x => ?_⟩
    simp only [caches]
    by_cases hxp : x = p
    · subst hxp
      simp [Nat.ne_of_lt hp]
    · by_cases hxn : x = rt.nregions
      · subst hxn
        simp [hxp, RegionEntry.fresh, freshCaches]
      · simp [hxp, hxn]
  have htree1 : rt1.tree = rt.tree.add p id plen bits := by
    rw [← addRegion_tree rt p id plen bits fn, hmark, regionMarkSubtreeDirty_tree]
  have hchain : rt1.parentChain p = rt.chain p := by
    have hn : rt1.nregions = rt.nregions + 1 := congrArg Tree.count htree1
    rw [parentChain, chainUp_eq, htree1, Tree.add_links hp, hn]
    have hwf := Forest.Links.addLeaf_wf ht.forest hp
    refine (Forest.Links.up_eq_anc hwf (Nat.lt_succ_of_lt hp) (Nat.lt_succ_of_lt hp)).trans ?_
    exact Forest.Links.addLeaf_anc_old ht.forest hp
  rw [hmark, regionMarkSubtreeDirty_caches, hchain, hold]
  split
  · next hin =>
    have hlt : x < rt.nregions := lt_of_mem_chain ht hp hin
    rw [if_neg (Nat.ne_of_lt hlt)]
  · rfl

theorem addRegion_or (hlt : ∀ {r e}, e ∈ rt.modsOf r → r < rt.nregions) (ht : rt.tree.Wf)
    {p : Nat} {id : RegionId} {plen bits : Nat} (hadd : rt.tree.CanAdd p id plen bits)
    (fn : Option HandlerRef) {r : Nat} (hr : r < rt.nregions) :
    Bumped rt (rt.addRegion p id plen bits fn) r ∨ Kept rt (rt.addRegion p id plen bits fn) r := by
  have hc := addRegion_caches ht hadd fn r
  rw [if_neg (Nat.ne_of_lt hr)] at hc
  by_cases hin : r ∈ rt.chain p
  · rw [if_pos hin] at hc
    exact Or.inl ⟨by rw [hc]; rfl, by rw [hc]; rfl, 1, Nat.one_pos, le_rfl, by rw [hc]; rfl⟩
  · rw [if_neg hin] at hc
    have hmods := addRegion_modsOf hlt p id plen bits fn
    refine Or.inr ⟨hc, ?_, fun x _ => congrFun hmods x⟩
    show (rt.addRegion p id plen bits fn).tree.links.sub (rt.nregions + 1) r = _
    rw [addRegion_tree, Tree.add_links hadd.parent_lt]
    exact Forest.Links.addLeaf_sub_old ht.forest hr hin

/-- A region that has just been made has nothing in its caches, and no module
below it. -/
structure Fresh (rt : Runtime) (r : RegionRef) : Prop where
  caches : rt.caches r = freshCaches
  modsOf : ∀ x ∈ rt.subtree r, rt.modsOf x = []

theorem addRegion_fresh (hmem : ∀ {r e}, e ∈ rt.modsOf r → r < rt.nregions) (ht : rt.tree.Wf)
    {p : Nat} {id : RegionId} {plen bits : Nat} (hadd : rt.tree.CanAdd p id plen bits)
    (fn : Option HandlerRef) :
    Fresh (rt.addRegion p id plen bits fn) rt.nregions := by
  have hp : p < rt.nregions := hadd.parent_lt
  have hout : rt.nregions ∉ rt.chain p := fun hin =>
    Nat.lt_irrefl _ (lt_of_mem_chain ht hp hin)
  constructor
  · rw [addRegion_caches ht hadd fn, if_neg hout, if_pos rfl]
  · have hwf : (rt.addRegion p id plen bits fn).tree.Wf := by
      rw [addRegion_tree]
      exact ht.add hadd
    intro x hx
    rw [addRegion_modsOf hmem, List.eq_nil_iff_forall_not_mem]
    intro e he
    have hlt := hmem he
    obtain ⟨hx, hin⟩ := (mem_subtree_iff hwf (Nat.lt_succ_self _)).mp hx
    have hchain : (rt.addRegion p id plen bits fn).chain x = rt.chain x := by
      simp only [chain, addRegion_tree, Tree.add_links hadd.parent_lt]
      exact Forest.Links.addLeaf_anc_old ht.forest hlt
    rw [hchain] at hin
    exact Nat.lt_irrefl _ (lt_of_mem_chain ht hlt hin)

theorem recordDeny_touched (ht : rt.tree.Wf) {d : Nat} (hd : d < rt.nregions) (what : CStr)
    (type : DenyType) (r : Nat) :
    (r ∈ rt.chain d → Denied rt (rt.recordDeny w d what type) r)
      ∧ (r ∉ rt.chain d → Kept rt (rt.recordDeny w d what type) r) := by
  have hc := recordDeny_caches w rt d r what type
  have htree := recordDeny_tree w rt d what type
  have hmods := (sameHeap_recordDeny w rt d what type).modsOf
  have hn : (rt.recordDeny w d what type).nregions = rt.nregions := congrArg Tree.count htree
  have hsub : (rt.recordDeny w d what type).subtree r = rt.subtree r := by
    simp only [subtree, htree, hn]
  rw [parentChain_eq ht hd] at hc
  constructor
  · intro hin
    rw [if_pos hin] at hc
    refine ⟨hc, ?_, hsub, fun x _ => congrFun hmods x⟩
    cases type <;> exact le_rfl
  · intro hout
    rw [if_neg hout] at hc
    exact ⟨hc, hsub, fun x _ => congrFun hmods x⟩

theorem linkEntry_or (ht : rt.tree.Wf) {e : EntryRef} {me : ModEntry} {size r : Nat}
    (hr : r < rt.nregions) :
    Bumped rt (rt.linkEntry e me size) r ∨ Kept rt (rt.linkEntry e me size) r := by
  obtain ⟨rt1, hrt1, hregions, hn, htable, hg⟩ : ∃ rt1, rt.countEntry e size = rt1
      ∧ rt1.regions = rt.regions ∧ rt1.nregions = rt.nregions ∧ rt1.regionHd = rt.regionHd
      ∧ rt1.genBumps = rt.genBumps := by
    refine ⟨_, rfl, ?_⟩
    unfold countEntry
    dsimp only
    split <;> exact ⟨rfl, rfl, rfl, rfl⟩
  have htree : rt1.tree = rt.tree := tree_eq (fun x => by rw [hregions]) hn htable
  have hkept : Kept rt rt1 r :=
    .of_eq (by funext x; simp only [caches, hregions]) htree
      (modsOf_eq fun x => by rw [hregions])
  unfold linkEntry
  dsimp only
  rw [hrt1]
  split
  · exact Or.inr hkept
  · next t hl =>
    have ht1 : rt1.tree.Wf := htree ▸ ht
    have hlt := ((regionLookup_eq_some ht1).mp hl).1
    refine hkept.touched_trans (Nat.le_of_eq hg.symm) ?_
    exact moduleRegionInsertAfter_or ht1 hlt e _ (hn ▸ hr)

theorem removeEntry_or (ht : rt.tree.Wf) {e : EntryRef} {me : ModEntry}
    (hlt : ∀ t ∈ rt.home e, t < rt.nregions) {r : Nat} (hr : r < rt.nregions) :
    Bumped rt (rt.removeEntry w e me) r ∨ Kept rt (rt.removeEntry w e me) r := by
  obtain ⟨rt1, hrt1, htree, hhome, hcaches, hmods, hg⟩ : ∃ rt1,
      (rt.moduleClearFnCacheForHandle w e me.handle).moduleRemovePathOwnedEntries me = rt1
        ∧ rt1.tree = rt.tree ∧ rt1.home e = rt.home e ∧ rt1.caches = rt.caches
        ∧ rt1.modsOf = rt.modsOf ∧ rt1.genBumps = rt.genBumps := by
    have hclear := moduleClearFnCacheForHandle_keeps w rt e me.handle
    have hone : (rt.moduleClearFnCacheForHandle w e me.handle).genBumps = rt.genBumps := by
      obtain ⟨m, n, h⟩ := hclear.rest
      rw [h]
    refine ⟨_, rfl, ?_⟩
    rw [moduleRemovePathOwnedEntries_tree, hclear.tree]
    unfold moduleRemovePathOwnedEntries
    split
    · exact ⟨rfl, hclear.same.home e, by funext x; simp only [caches, hclear.regions],
        hclear.same.modsOf, hone⟩
    · refine ⟨rfl, hclear.same.home e, ?_, ?_, hone⟩
      · funext x
        rw [moduleRemoveDenies, modifyRegion_caches (by intro _; exact ⟨rfl, rfl, rfl, rfl⟩)]
        simp only [caches, hclear.regions]
      · rw [moduleRemoveDenies_modsOf, hclear.same.modsOf]
  have hn : rt1.nregions = rt.nregions := congrArg Tree.count htree
  have hor : Bumped rt1 (rt1.discardEntry w e me) r ∨ Kept rt1 (rt1.discardEntry w e me) r :=
    discardEntry_or (htree ▸ ht) (by rw [hhome, hn]; exact hlt) (hn ▸ hr)
  have hkept : Kept rt rt1 r := .of_eq hcaches htree hmods
  unfold removeEntry
  dsimp only
  rw [hrt1]
  rcases hkept.touched_trans (Nat.le_of_eq hg.symm) hor with ⟨hv, hd, hgen⟩ | ⟨hc, hs, hm⟩
  · exact Or.inl ⟨hv, hd, hgen⟩
  · exact Or.inr ⟨hc, hs, hm⟩

theorem reinsert_or (ht : rt.tree.Wf) {t : Nat} (hlt : t < rt.nregions) {e : EntryRef}
    {after : Option EntryRef} (hhome : ∀ t ∈ rt.home e, t < rt.nregions)
    (hi : Xylem.reinsert rt t e after = some rt') {r : Nat} (hr : r < rt.nregions) :
    Bumped rt rt' r ∨ Kept rt rt' r := by
  unfold Xylem.reinsert at hi
  dsimp only at hi
  split at hi
  · cases hi
    have htree := moduleRegionDetach_tree rt e
    have hn : (rt.moduleRegionDetach e).nregions = rt.nregions := congrArg Tree.count htree
    have hins := moduleRegionInsertAfter_or (htree ▸ ht) (hn ▸ hlt) e after (hn ▸ hr)
    rcases moduleRegionDetach_or ht hhome hr with hb | hk
    · exact Or.inl (hb.touched_trans (Nat.le_succ _) hins)
    · exact hk.touched_trans (moduleRegionDetach_genBumps rt e).1 hins
  · cases hi

end Runtime

/-! ## Effects -/

section

variable {w : World} {c : Config} {a : Action} {rt' : Runtime}

/-- What an effect does to the caches of the regions: all starts again, or a
subtree dispatch brings a vector up to date, or each region is touched and the
new ones are fresh. -/
theorem Effect.touched (hwf : c.Wf w) (h : Effect w c a rt') :
    (a = .call .shutdown ∧ rt' = c.st.rt.bootstrap)
      ∨ (∃ r hookId name q, a = .call q ∧ c.st.callerRegion = some r ∧ r < c.st.rt.nregions
        ∧ c.st.rt.prepareVec w r hookId name (c.st.rt.chain r).reverse = some rt')
      ∨ ((∀ r < c.st.rt.nregions, Touched c.st.rt rt' r)
        ∧ ∀ r, c.st.rt.nregions ≤ r → r < rt'.nregions → Fresh rt' r) := by
  have hhome : ∀ e, ∀ t ∈ c.st.rt.home e, t < c.st.rt.nregions := fun e t ht => hwf.heap.home_lt ht
  have hnone : ∀ {r : Nat}, c.st.rt.nregions ≤ r → r < c.st.rt.nregions → Fresh rt' r :=
    fun h1 h2 => absurd h2 (Nat.not_lt.mpr h1)
  have hold : rt'.tree = c.st.rt.tree → ∀ r, c.st.rt.nregions ≤ r → r < rt'.nregions →
      Fresh rt' r := fun htree r h1 h2 => by
    have hn : rt'.nregions = c.st.rt.nregions := congrArg Tree.count htree
    exact hnone h1 (hn ▸ h2)
  cases h with
  | same | refcount | publish | bind | rekey | prewarm | resolve | register =>
    exact Or.inr (Or.inr ⟨fun r _ => .kept (.of_eq rfl rfl rfl), hold rfl⟩)
  | @deny r what type ha hcur hr =>
    refine Or.inr (Or.inr ⟨fun x _ => ?_, hold (recordDeny_tree ..)⟩)
    obtain ⟨hd, hk⟩ := recordDeny_touched (w := w) hwf.tree hr what type x
    by_cases hin : x ∈ c.st.rt.chain r
    · exact .denied (hd hin)
    · exact .kept (hk hin)
  | @handler r f q ha hr hf =>
    have htree := modifyRegion_tree c.st.rt (f := f) (by intro e; rw [hf e]) r
    refine Or.inr (Or.inr ⟨fun x _ => .kept (.of_eq ?_ htree ?_), hold htree⟩)
    · funext y
      exact modifyRegion_caches (by intro e; rw [hf e]; exact ⟨rfl, rfl, rfl, rfl⟩) _ _ _
    · exact (sameHeap_modifyRegion (by intro e; rw [hf e]) _ _).modsOf
  | claimAt ha hnear hadd =>
    refine Or.inr (Or.inr ⟨fun x hx => .of_or (addRegion_or hwf.heap.mem_lt hwf.tree hadd _ hx), ?_⟩)
    intro r h1 h2
    obtain rfl : r = c.st.rt.nregions := Nat.le_antisymm (Nat.le_of_lt_succ h2) h1
    exact addRegion_fresh hwf.heap.mem_lt hwf.tree hadd _
  | grant hstack ha hbits hslot hid hadd =>
    refine Or.inr (Or.inr ⟨fun x hx => .of_or (addRegion_or hwf.heap.mem_lt hwf.tree hadd _ hx), ?_⟩)
    intro r h1 h2
    obtain rfl : r = c.st.rt.nregions := Nat.le_antisymm (Nat.le_of_lt_succ h2) h1
    exact addRegion_fresh hwf.heap.mem_lt hwf.tree hadd _
  | link ha hstack he hme hun =>
    exact Or.inr (Or.inr ⟨fun x hx => .of_or (linkEntry_or hwf.tree hx), hold (linkEntry_tree ..)⟩)
  | abort ha hstack he hme =>
    exact Or.inr (Or.inr ⟨fun x hx => .of_or (discardEntry_or hwf.tree (hhome _) hx),
      hold (discardEntry_tree ..)⟩)
  | remove ha hstack hme =>
    exact Or.inr (Or.inr ⟨fun x hx => .of_or (removeEntry_or hwf.tree (hhome _) hx),
      hold (removeEntry_tree ..)⟩)
  | reinsert ha hstack hl hre hr hi =>
    exact Or.inr (Or.inr ⟨fun x hx => .of_or (reinsert_or hwf.tree hr (hhome _) hi hx),
      hold (reinsert_tree hi)⟩)
  | vector ha hcaller hr hv => exact Or.inr (Or.inl ⟨_, _, _, _, ha, hcaller, hr, hv⟩)
  | shutdown ha hstack => exact Or.inl ⟨ha, rfl⟩

end

end Xylem
