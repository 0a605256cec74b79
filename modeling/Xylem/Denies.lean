import Xylem.Calls

/-!
# What a step does to the denies

`Runtime.denies` are the deny lists of a region and its summary flag.
`Effect.denies` says that a step writes them in two cases only: `xy_deny` adds
one, and the removal of a linked module entry lifts those that name its path, in
the region of the entry.
-/

namespace Xylem

open Xylem.Runtime

/-- The deny lists of a region and its summary flag. -/
structure RegionDenies where
  hooks : List CStr
  modules : List CStr
  flag : Bool

def RegionEntry.denies (e : RegionEntry) : RegionDenies :=
  { hooks := e.deniedHooks, modules := e.deniedModules, flag := e.subtreeFlags }

/-- Nothing is denied. -/
def RegionDenies.none : RegionDenies := { hooks := [], modules := [], flag := false }

/-- `xy_deny`, at the region itself. -/
def RegionDenies.add (w : World) (d : RegionDenies) (what : CStr) : DenyType → RegionDenies
  | .hook => { d with hooks := what :: d.hooks }
  | .module => { d with modules := w.loadPath what :: d.modules }

/-- `module_remove_denies`. -/
def RegionDenies.lift (d : RegionDenies) (path : CStr) : RegionDenies :=
  { d with modules := d.modules.filter (· ≠ path) }

namespace Runtime

variable {w : World} {rt rt' : Runtime}

def denies (rt : Runtime) : RegionRef → RegionDenies := fun r => (rt.regions r).denies

theorem modifyRegion_denies {f : RegionEntry → RegionEntry} (h : ∀ e, (f e).denies = e.denies)
    (rt : Runtime) (r : RegionRef) : (rt.modifyRegion r f).denies = rt.denies :=
  funext (modifyRegion_proj rt RegionEntry.denies h r)

@[simp] theorem regionMarkSubtreeDirty_denies (rt : Runtime) (r : RegionRef) :
    (rt.regionMarkSubtreeDirty r).denies = rt.denies :=
  funext (regionMarkSubtreeDirty_proj rt RegionEntry.denies (by intro _ _; rfl) (by intro _ _; rfl)
    r)

@[simp] theorem moduleRegionDetach_denies (rt : Runtime) (e : EntryRef) :
    (rt.moduleRegionDetach e).denies = rt.denies := by
  unfold moduleRegionDetach
  split
  · rfl
  · rw [regionMarkSubtreeDirty_denies]
    exact modifyRegion_denies (by intro _; rfl) rt _

@[simp] theorem moduleRegionInsertAfter_denies (rt : Runtime) (r : RegionRef) (e : EntryRef)
    (after : Option EntryRef) : (rt.moduleRegionInsertAfter r e after).denies = rt.denies := by
  unfold moduleRegionInsertAfter
  rw [regionMarkSubtreeDirty_denies]
  exact modifyRegion_denies (by intro _; rfl) (rt.modifyMod e _) r

theorem discardEntry_denies (w : World) (rt : Runtime) (e : EntryRef) (me : ModEntry) :
    (rt.discardEntry w e me).denies = rt.denies := moduleRegionDetach_denies rt e

theorem removeEntry_denies (w : World) (rt : Runtime) (e : EntryRef) (me : ModEntry)
    (x : RegionRef) :
    (rt.removeEntry w e me).denies x
      = if me.regionEntry = some x then (rt.denies x).lift me.loadPath else rt.denies x := by
  have hclear : (rt.moduleClearFnCacheForHandle w e me.handle).denies = rt.denies := by
    funext y
    simp only [denies, (moduleClearFnCacheForHandle_keeps w rt e me.handle).regions]
  have hdiscard : (rt.removeEntry w e me).denies
      = ((rt.moduleClearFnCacheForHandle w e me.handle).moduleRemovePathOwnedEntries me).denies :=
    discardEntry_denies w _ e me
  rw [hdiscard, ← hclear]
  generalize rt.moduleClearFnCacheForHandle w e me.handle = rt1
  unfold moduleRemovePathOwnedEntries
  cases me.regionEntry with
  | none => simp
  | some r =>
    simp only [denies, moduleRemoveDenies, modifyRegion_apply, Option.some.injEq, eq_comm (a := r)]
    split <;> rfl

theorem linkEntry_denies (rt : Runtime) (e : EntryRef) (me : ModEntry) (size : Nat) :
    (rt.linkEntry e me size).denies = rt.denies := by
  have hcount : (rt.countEntry e size).denies = rt.denies := by
    unfold countEntry
    dsimp only
    split <;> rfl
  unfold linkEntry
  dsimp only
  split
  · exact hcount
  · exact (moduleRegionInsertAfter_denies ..).trans hcount

theorem reinsert_denies {r : RegionRef} {e : EntryRef} {after : Option EntryRef}
    (h : Xylem.reinsert rt r e after = some rt') : rt'.denies = rt.denies := by
  unfold Xylem.reinsert at h
  dsimp only at h
  split at h
  · cases h
    rw [moduleRegionInsertAfter_denies, moduleRegionDetach_denies]
  · cases h

theorem prepareVec_denies {r : RegionRef} {hookId : Nat} {name : CStr} {anc : List RegionRef}
    (h : rt.prepareVec w r hookId name anc = some rt') : rt'.denies = rt.denies := by
  have h1 : (rt.refreshSubtreeMods r).denies = rt.denies := by
    unfold refreshSubtreeMods
    split
    · exact modifyRegion_denies (by intro _; rfl) rt r
    · rfl
  have h2 : ∀ rt1 : Runtime, (rt1.regionEnsureHookDispatchCap r hookId).denies = rt1.denies := by
    intro rt1
    unfold regionEnsureHookDispatchCap
    split
    · rfl
    · exact modifyRegion_denies (by intro _; rfl) rt1 r
  have h3 : ∀ rt1 : Runtime, rt1.regionRebuildHookDispatch w r hookId name anc = some rt' →
      rt'.denies = rt1.denies := by
    intro rt1 hrt1
    unfold regionRebuildHookDispatch at hrt1
    split at hrt1
    · cases hrt1; rfl
    · obtain ⟨⟨rt2, v⟩, hloop, rfl⟩ := Option.map_eq_some_iff.mp hrt1
      have hregions := (rebuildLoop_onlyCaches hloop).regions
      refine (modifyRegion_denies (by intro _; rfl) rt2 r).trans ?_
      funext x
      simp only [denies, hregions]
  exact (h3 _ h).trans ((h2 _).trans h1)

theorem addRegion_denies (rt : Runtime) {p : Nat} (hp : p < rt.nregions) (id : RegionId)
    (plen bits : Nat) (fn : Option HandlerRef) (x : RegionRef) :
    (rt.addRegion p id plen bits fn).denies x
      = if x = rt.nregions then .none else rt.denies x := by
  unfold addRegion
  rw [regionMarkSubtreeDirty_denies]
  simp only [denies]
  by_cases hxp : x = p
  · subst hxp
    simp [Nat.ne_of_lt hp, RegionEntry.denies]
  · by_cases hxn : x = rt.nregions
    · subst hxn
      simp [hxp, RegionEntry.fresh, RegionEntry.denies, RegionDenies.none]
    · simp [hxp, hxn]

/-- A deny is recorded in one region, and the flag is set along its chain. -/
theorem recordDeny_denies (ht : rt.tree.Wf) {r : Nat} (hr : r < rt.nregions) (what : CStr)
    (type : DenyType) (x : RegionRef) :
    (rt.recordDeny w r what type).denies x
      = { (if x = r then (rt.denies x).add w what type else rt.denies x) with
          flag := decide (x ∈ rt.chain r) || (rt.denies x).flag } := by
  have hone : ∀ f : RegionEntry → RegionEntry, (∀ e, (f e).toRegionNode = e.toRegionNode) →
      (((rt.modifyRegion r f).regionPropagateDeny r).regionDispatchGenBump r).denies x
        = { (if x = r then (f (rt.regions x)).denies else rt.denies x) with
          flag := decide (x ∈ rt.chain r)
            || (if x = r then (f (rt.regions x)).denies else rt.denies x).flag } := by
    intro f hf
    have htree := modifyRegion_tree rt hf r
    have hchain : (rt.modifyRegion r f).parentChain r = rt.chain r := by
      have hn : (rt.modifyRegion r f).nregions = rt.nregions := rfl
      rw [parentChain_eq (htree ▸ ht) (hn ▸ hr)]
      simp only [chain, htree]
    have hbump := regionDispatchGenBump_proj ((rt.modifyRegion r f).regionPropagateDeny r)
      RegionEntry.denies (by intro _ _; rfl) r x
    refine hbump.trans ?_
    simp only [regionPropagateDeny, modifyRegions_apply, hchain]
    have hmod : ((rt.modifyRegion r f).regions x).denies
        = if x = r then (f (rt.regions x)).denies else rt.denies x := by
      rw [modifyRegion_apply]
      split <;> rfl
    rw [← hmod]
    split
    · next hin => simp [hin, RegionEntry.denies]
    · next hout => simp [hout, RegionEntry.denies]
  unfold recordDeny
  cases type
  · refine (hone _ (by intro _; rfl)).trans ?_
    split <;> rfl
  · refine (hone _ (by intro _; rfl)).trans ?_
    split <;> rfl

end Runtime

/-- What a step can do to the denies. -/
inductive DenyChange (w : World) (c : Config) (a : Action) (rt' : Runtime) : Prop
  | same (hold : ∀ x < c.st.rt.nregions, rt'.denies x = c.st.rt.denies x)
      (hnew : ∀ x, c.st.rt.nregions ≤ x → x < rt'.nregions → rt'.denies x = .none)
  | deny {r : Nat} {what : CStr} {type : DenyType} (ha : a = .call (.deny what type))
      (hcur : c.st.tls.current.entry = some r) (hr : r < c.st.rt.nregions)
      (hrt : rt' = c.st.rt.recordDeny w r what type)
  | remove {k : List Frame} {e : EntryRef} {me : ModEntry} (ha : a = .tau)
      (hstack : c.stack = .unload e [] :: k) (hme : c.st.rt.mods e = some me)
      (hrt : rt' = c.st.rt.removeEntry w e me)
  | shutdown (ha : a = .call .shutdown) (hrt : rt' = c.st.rt.bootstrap)

theorem Effect.denies {w : World} {c : Config} {a : Action} {rt' : Runtime}
    (h : Effect w c a rt') : DenyChange w c a rt' := by
  have hsame : rt'.nregions = c.st.rt.nregions → rt'.denies = c.st.rt.denies →
      DenyChange w c a rt' := fun hn hd =>
    .same (fun x _ => by rw [hd]) (fun x h1 h2 => absurd (hn ▸ h2) (Nat.not_lt.mpr h1))
  have hadd : ∀ {p : Nat} {id : RegionId} {plen bits : Nat} {fn : Option HandlerRef},
      p < c.st.rt.nregions → rt' = c.st.rt.addRegion p id plen bits fn → DenyChange w c a rt' := by
    rintro p id plen bits fn hp rfl
    refine .same (fun x hx => ?_) (fun x h1 h2 => ?_)
    · rw [addRegion_denies _ hp, if_neg (Nat.ne_of_lt hx)]
    · rw [addRegion_denies _ hp, if_pos (Nat.le_antisymm (Nat.le_of_lt_succ h2) h1)]
  cases h with
  | same | refcount | publish | bind | rekey | prewarm | resolve | register => exact hsame rfl rfl
  | deny ha hcur hr => exact .deny ha hcur hr rfl
  | handler ha hr hf =>
    exact hsame rfl (modifyRegion_denies (by intro e; rw [hf e]; rfl) _ _)
  | claimAt ha hnear hcan => exact hadd hcan.parent_lt rfl
  | grant hstack ha hbits hslot hid hcan => exact hadd hcan.parent_lt rfl
  | link => exact hsame (congrArg Tree.count (linkEntry_tree ..)) (linkEntry_denies ..)
  | @abort tx k err e me =>
    exact hsame (congrArg Tree.count (discardEntry_tree w c.st.rt e me))
      (discardEntry_denies w c.st.rt e me)
  | remove ha hstack hme => exact .remove ha hstack hme rfl
  | reinsert ha hstack hl hre hr hi =>
    exact hsame (congrArg Tree.count (reinsert_tree hi)) (reinsert_denies hi)
  | vector ha hcaller hr hv =>
    exact hsame (congrArg Tree.count (prepareVec_tree hv)) (prepareVec_denies hv)
  | shutdown ha hstack => exact .shutdown ha rfl

end Xylem
