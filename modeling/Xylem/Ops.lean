import Xylem.Step

/-!
# What each operation leaves alone

Most operations of the runtime write a small part of it.  The invariants look at
the runtime through views, and this module says which operations keep which
view.

* `tree` is the region table and the tree links.
* `modsOf` are the module lists of the regions.
* `core` is the heap of module entries without the callback caches and bitmaps,
  which resolutions and prewarming write at almost any time.
* `deniesOf` are the module deny lists.
-/

namespace Xylem

/-- The region table, the identities and the links of the regions. -/
structure Tree where
  node : RegionRef → RegionNode
  count : Nat
  table : AList (fun _ : RegionKey => RegionRef)

/-- A module entry without its callback cache and its bitmap. -/
def ModEntry.core (me : ModEntry) : ModEntry := { me with fnCache := [], hookImplBits := [] }

namespace Runtime

def tree (rt : Runtime) : Tree :=
  { node := fun r => (rt.regions r).toRegionNode, count := rt.nregions, table := rt.regionHd }

def modsOf (rt : Runtime) : RegionRef → List EntryRef := fun r => (rt.regions r).mods

def core (rt : Runtime) : EntryRef → Option ModEntry := fun e => (rt.mods e).map (·.core)

def deniesOf (rt : Runtime) : RegionRef → List CStr := fun r => (rt.regions r).deniedModules

variable {w : World} (rt : Runtime)

/-! ## Writes to regions -/

theorem modifyRegion_apply (r : RegionRef) (f : RegionEntry → RegionEntry) (x : RegionRef) :
    (rt.modifyRegion r f).regions x = if x = r then f (rt.regions x) else rt.regions x := by
  unfold modifyRegion
  by_cases h : x = r
  · subst h; simp
  · simp [h]

theorem modifyRegions_apply (l : List RegionRef) (f : RegionEntry → RegionEntry) (x : RegionRef) :
    (rt.modifyRegions l f).regions x = if x ∈ l then f (rt.regions x) else rt.regions x := rfl

/-- A projection that a write keeps at the region written to is kept at all. -/
theorem modifyRegion_proj {α : Type*} (g : RegionEntry → α) {f : RegionEntry → RegionEntry}
    (h : ∀ e, g (f e) = g e) (r x : RegionRef) :
    g ((rt.modifyRegion r f).regions x) = g (rt.regions x) := by
  rw [modifyRegion_apply]
  split
  · exact h _
  · rfl

theorem modifyRegions_proj {α : Type*} (g : RegionEntry → α) {f : RegionEntry → RegionEntry}
    (h : ∀ e, g (f e) = g e) (l : List RegionRef) (x : RegionRef) :
    g ((rt.modifyRegions l f).regions x) = g (rt.regions x) := by
  rw [modifyRegions_apply]
  split
  · exact h _
  · rfl

theorem regionDispatchGenBump_proj {α : Type*} (g : RegionEntry → α)
    (h : ∀ e n, g { e with dispatchGen := n } = g e) (r x : RegionRef) :
    g ((rt.regionDispatchGenBump r).regions x) = g (rt.regions x) :=
  modifyRegions_proj rt g (fun e => h e _) _ x

theorem regionMarkSubtreeDirty_proj {α : Type*} (g : RegionEntry → α)
    (h : ∀ e n, g { e with dispatchGen := n } = g e)
    (h' : ∀ e b, g { e with subtreeModsDirty := b } = g e) (r x : RegionRef) :
    g ((rt.regionMarkSubtreeDirty r).regions x) = g (rt.regions x) :=
  (modifyRegions_proj _ g (fun e => h' e _) _ x).trans (regionDispatchGenBump_proj rt g h r x)

/-! ### What is not a region -/

@[simp] theorem modifyRegion_core (r : RegionRef) (f : RegionEntry → RegionEntry) :
    (rt.modifyRegion r f).core = rt.core := rfl
@[simp] theorem modifyRegion_mods (r : RegionRef) (f : RegionEntry → RegionEntry) :
    (rt.modifyRegion r f).mods = rt.mods := rfl
@[simp] theorem regionPropagateDeny_core (r : RegionRef) :
    (rt.regionPropagateDeny r).core = rt.core := rfl
@[simp] theorem regionPropagateDeny_mods (r : RegionRef) :
    (rt.regionPropagateDeny r).mods = rt.mods := rfl
@[simp] theorem regionDispatchGenBump_core (r : RegionRef) :
    (rt.regionDispatchGenBump r).core = rt.core := rfl
@[simp] theorem regionDispatchGenBump_mods (r : RegionRef) :
    (rt.regionDispatchGenBump r).mods = rt.mods := rfl
@[simp] theorem regionMarkSubtreeDirty_core (r : RegionRef) :
    (rt.regionMarkSubtreeDirty r).core = rt.core := rfl
@[simp] theorem regionMarkSubtreeDirty_mods (r : RegionRef) :
    (rt.regionMarkSubtreeDirty r).mods = rt.mods := rfl
@[simp] theorem moduleRemoveDenies_core (r : RegionRef) (p : CStr) :
    (rt.moduleRemoveDenies r p).core = rt.core := rfl
@[simp] theorem moduleRemoveDenies_mods (r : RegionRef) (p : CStr) :
    (rt.moduleRemoveDenies r p).mods = rt.mods := rfl
@[simp] theorem regionEnsureHookDispatchCap_mods (r : RegionRef) (h : Nat) :
    (rt.regionEnsureHookDispatchCap r h).mods = rt.mods := by
  unfold regionEnsureHookDispatchCap; split <;> rfl
@[simp] theorem regionRebuildSubtreeMods_mods (r : RegionRef) :
    (rt.regionRebuildSubtreeMods r).mods = rt.mods := rfl

/-! ### The tree -/

theorem tree_eq {rt rt' : Runtime} (hnode : ∀ x, (rt'.regions x).toRegionNode
      = (rt.regions x).toRegionNode) (hcount : rt'.nregions = rt.nregions)
    (htable : rt'.regionHd = rt.regionHd) : rt'.tree = rt.tree := by
  simp [tree, hnode, hcount, htable]

theorem modifyRegion_tree {f : RegionEntry → RegionEntry}
    (h : ∀ e, (f e).toRegionNode = e.toRegionNode) (r : RegionRef) :
    (rt.modifyRegion r f).tree = rt.tree :=
  tree_eq (modifyRegion_proj rt RegionEntry.toRegionNode h r) rfl rfl

@[simp] theorem modifyMod_tree (e : EntryRef) (f : ModEntry → ModEntry) :
    (rt.modifyMod e f).tree = rt.tree := rfl
@[simp] theorem regionPropagateDeny_tree (r : RegionRef) :
    (rt.regionPropagateDeny r).tree = rt.tree :=
  tree_eq (modifyRegions_proj rt RegionEntry.toRegionNode (by intro _; rfl) _) rfl rfl
@[simp] theorem regionDispatchGenBump_tree (r : RegionRef) :
    (rt.regionDispatchGenBump r).tree = rt.tree :=
  tree_eq (regionDispatchGenBump_proj rt RegionEntry.toRegionNode (by intro _ _; rfl) r) rfl rfl
@[simp] theorem regionMarkSubtreeDirty_tree (r : RegionRef) :
    (rt.regionMarkSubtreeDirty r).tree = rt.tree :=
  tree_eq (regionMarkSubtreeDirty_proj rt RegionEntry.toRegionNode (by intro _ _; rfl) (by intro _ _; rfl) r) rfl rfl
@[simp] theorem regionRebuildSubtreeMods_tree (r : RegionRef) :
    (rt.regionRebuildSubtreeMods r).tree = rt.tree :=
  modifyRegion_tree rt (by intro _; rfl) r
@[simp] theorem moduleRemoveDenies_tree (r : RegionRef) (p : CStr) :
    (rt.moduleRemoveDenies r p).tree = rt.tree :=
  modifyRegion_tree rt (by intro _; rfl) r
@[simp] theorem regionEnsureHookDispatchCap_tree (r : RegionRef) (h : Nat) :
    (rt.regionEnsureHookDispatchCap r h).tree = rt.tree := by
  unfold regionEnsureHookDispatchCap
  split
  · rfl
  · exact modifyRegion_tree rt (by intro _; rfl) r

@[simp] theorem moduleRegionDetach_tree (e : EntryRef) :
    (rt.moduleRegionDetach e).tree = rt.tree := by
  unfold moduleRegionDetach
  split
  · rfl
  · rw [regionMarkSubtreeDirty_tree]
    exact modifyRegion_tree rt (by intro _; rfl) _

@[simp] theorem moduleRegionInsertAfter_tree (r : RegionRef) (e : EntryRef)
    (after : Option EntryRef) : (rt.moduleRegionInsertAfter r e after).tree = rt.tree := by
  unfold moduleRegionInsertAfter
  rw [regionMarkSubtreeDirty_tree]
  exact modifyRegion_tree (rt.modifyMod e _) (by intro _; rfl) r

@[simp] theorem moduleRegionAppend_tree (r : RegionRef) (e : EntryRef) :
    (rt.moduleRegionAppend r e).tree = rt.tree := moduleRegionInsertAfter_tree ..

/-! ### The module lists -/

theorem modsOf_eq {rt rt' : Runtime} (h : ∀ x, (rt'.regions x).mods = (rt.regions x).mods) :
    rt'.modsOf = rt.modsOf := funext h

@[simp] theorem modifyMod_modsOf (e : EntryRef) (f : ModEntry → ModEntry) :
    (rt.modifyMod e f).modsOf = rt.modsOf := rfl
@[simp] theorem regionPropagateDeny_modsOf (r : RegionRef) :
    (rt.regionPropagateDeny r).modsOf = rt.modsOf :=
  modsOf_eq (modifyRegions_proj rt RegionEntry.mods (by intro _; rfl) _)
@[simp] theorem regionDispatchGenBump_modsOf (r : RegionRef) :
    (rt.regionDispatchGenBump r).modsOf = rt.modsOf :=
  modsOf_eq (regionDispatchGenBump_proj rt RegionEntry.mods (by intro _ _; rfl) r)
@[simp] theorem regionMarkSubtreeDirty_modsOf (r : RegionRef) :
    (rt.regionMarkSubtreeDirty r).modsOf = rt.modsOf :=
  modsOf_eq (regionMarkSubtreeDirty_proj rt RegionEntry.mods (by intro _ _; rfl) (by intro _ _; rfl) r)
@[simp] theorem regionRebuildSubtreeMods_modsOf (r : RegionRef) :
    (rt.regionRebuildSubtreeMods r).modsOf = rt.modsOf :=
  modsOf_eq (modifyRegion_proj rt RegionEntry.mods (by intro _; rfl) r)
@[simp] theorem moduleRemoveDenies_modsOf (r : RegionRef) (p : CStr) :
    (rt.moduleRemoveDenies r p).modsOf = rt.modsOf :=
  modsOf_eq (modifyRegion_proj rt RegionEntry.mods (by intro _; rfl) r)
@[simp] theorem regionEnsureHookDispatchCap_modsOf (r : RegionRef) (h : Nat) :
    (rt.regionEnsureHookDispatchCap r h).modsOf = rt.modsOf := by
  unfold regionEnsureHookDispatchCap
  split
  · rfl
  · exact modsOf_eq (modifyRegion_proj rt RegionEntry.mods (by intro _; rfl) r)

theorem modifyRegion_modsOf (r : RegionRef) {f : RegionEntry → RegionEntry}
    {g : List EntryRef → List EntryRef} (h : ∀ e, (f e).mods = g e.mods) :
    (rt.modifyRegion r f).modsOf = Function.update rt.modsOf r (g (rt.modsOf r)) := by
  funext x
  show ((rt.modifyRegion r f).regions x).mods = _
  rw [modifyRegion_apply]
  by_cases hx : x = r
  · subst hx; simp [h, modsOf]
  · simp [hx, modsOf]

theorem moduleRegionDetach_modsOf_of_none {e : EntryRef}
    (h : (rt.mods e).bind (·.regionEntry) = none) : rt.moduleRegionDetach e = rt := by
  simp [moduleRegionDetach, h]

theorem moduleRegionDetach_modsOf {e : EntryRef} {r : RegionRef}
    (h : (rt.mods e).bind (·.regionEntry) = some r) :
    (rt.moduleRegionDetach e).modsOf
      = Function.update rt.modsOf r ((rt.modsOf r).erase e) := by
  simp only [moduleRegionDetach, h, regionMarkSubtreeDirty_modsOf]
  exact modifyRegion_modsOf rt r (g := fun l => l.erase e) (by intro _; rfl)

@[simp] theorem moduleRegionDetach_mods (e : EntryRef) :
    (rt.moduleRegionDetach e).mods = rt.mods := by
  unfold moduleRegionDetach; split <;> rfl

@[simp] theorem moduleRegionDetach_core (e : EntryRef) :
    (rt.moduleRegionDetach e).core = rt.core := by
  funext x
  simp [core]

theorem moduleRegionInsertAfter_modsOf (r : RegionRef) (e : EntryRef) (after : Option EntryRef) :
    (rt.moduleRegionInsertAfter r e after).modsOf
      = Function.update rt.modsOf r (insertAfter e after (rt.modsOf r)) := by
  simp only [moduleRegionInsertAfter, regionMarkSubtreeDirty_modsOf]
  exact modifyRegion_modsOf (rt.modifyMod e _) r (g := fun l => insertAfter e after l)
    (by intro _; rfl)

@[simp] theorem moduleRegionInsertAfter_mods (r : RegionRef) (e : EntryRef)
    (after : Option EntryRef) :
    (rt.moduleRegionInsertAfter r e after).mods
      = Function.update rt.mods e
          ((rt.mods e).map (fun me => { me with regionEntry := some r })) := rfl

/-! ## Writes to module entries -/

/-- A write that keeps the core of an entry keeps the view. -/
theorem modifyMod_core {e : EntryRef} {f : ModEntry → ModEntry}
    (h : ∀ me, rt.mods e = some me → (f me).core = me.core) : (rt.modifyMod e f).core = rt.core := by
  funext x
  simp only [core, modifyMod]
  by_cases hx : x = e
  · subst hx
    cases hme : rt.mods x with
    | none => simp
    | some me => simp [h me hme]
  · simp [hx]

end Runtime

namespace ModEntry

variable {w : World} (me : ModEntry)

@[simp] theorem core_setFnCell (h : Nat) (cell : FnSlot) : (me.setFnCell h cell).core = me.core :=
  rfl

@[simp] theorem core_markHookImplemented (h : Nat) : (me.markHookImplemented h).core = me.core :=
  rfl

@[simp] theorem core_ensureFnCacheCap (n : Nat) : (me.ensureFnCacheCap n).core = me.core := rfl

@[simp] theorem core_storeFn (h : Nat) (cb : Option Addr) : (me.storeFn h cb).core = me.core := by
  cases cb <;> rfl

@[simp] theorem core_fnCacheResolve (h : Nat) (name : CStr) :
    (me.fnCacheResolve w h name).1.core = me.core := by
  unfold fnCacheResolve
  split <;> simp

@[simp] theorem core_resolved (h : Nat) (name : CStr) : (me.resolved w h name).core = me.core := by
  unfold resolved
  split <;> simp

@[simp] theorem core_prewarmOne (name : CStr) (h : Nat) :
    (me.prewarmOne w name h).core = me.core := by
  unfold prewarmOne
  split
  · split <;> simp
  · rfl

@[simp] theorem core_fnCachePrewarm (hooks : List (Sigma fun _ : CStr => Nat)) (n : Nat) :
    (me.fnCachePrewarm w hooks n).core = me.core := by
  unfold fnCachePrewarm
  split
  · rfl
  · suffices ∀ me' : ModEntry,
        (hooks.foldl (fun me h => me.prewarmOne w h.1 h.2) me').core = me'.core by
      rw [this, core_ensureFnCacheCap]
    induction hooks with
    | nil => intro; rfl
    | cons h hooks ih => intro me'; rw [List.foldl_cons, ih, core_prewarmOne]

@[simp] theorem core_clearFnCache (base : Addr) : (me.clearFnCache w base).core = me.core := rfl

/-- What a core determines. -/
theorem eq_of_core {me me' : ModEntry} (h : me'.core = me.core) :
    me'.ctx = me.ctx ∧ me'.loadPath = me.loadPath ∧ me'.handle = me.handle
      ∧ me'.regionEntry = me.regionEntry ∧ me'.modKey = me.modKey := by
  simp only [core, ModEntry.mk.injEq] at h
  simp [h]

end ModEntry

end Xylem
