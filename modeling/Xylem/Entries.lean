import Xylem.Vector

/-!
# What a step does to one entry, one context and the stack

* `EntryChange` lists what can happen to a module entry that lives on, and
  `Effect.entry` says that nothing else can.  `Effect.freed` lists the steps
  that free one.
* `CtxChange` does the same for the contexts of the modules.
* `Effect.keys`: a region keeps its identity.
* `Settled`: an entry that has been linked keeps its context, its region state
  and its path.  The cells of the hook vectors hold settled entries.
* `parked_of_reachable`: below the top of the stack there are only calls that
  wait for a module, cascades and reloads.
-/

namespace Xylem

namespace Runtime

variable {w : World} {rt rt' : Runtime} {x e : EntryRef} {me me' : ModEntry}

theorem modifyMod_some {f : ModEntry → ModEntry} (h : (rt.modifyMod e f).mods x = some me') :
    ∃ me, rt.mods x = some me ∧ me' = if x = e then f me else me := by
  unfold modifyMod at h
  by_cases hx : x = e
  · subst hx
    simp only [Function.update_self, Option.map_eq_some_iff] at h
    obtain ⟨me, hme, rfl⟩ := h
    exact ⟨me, hme, by simp⟩
  · simp only [Function.update_of_ne hx] at h
    exact ⟨me', h, by simp [hx]⟩

theorem mods_of_core (hcore : rt'.core = rt.core) (h : rt'.mods x = some me') :
    ∃ me, rt.mods x = some me ∧ me'.core = me.core := by
  have hx := congrFun hcore x
  simp only [core, h, Option.map_some] at hx
  obtain ⟨me, hme, hc⟩ := Option.map_eq_some_iff.mp hx.symm
  exact ⟨me, hme, hc.symm⟩

theorem modifyMod_none {f : ModEntry → ModEntry} :
    (rt.modifyMod e f).mods x = none ↔ rt.mods x = none := by
  unfold modifyMod
  by_cases hx : x = e
  · subst hx
    simp
  · simp [hx]

theorem none_of_core (hcore : rt'.core = rt.core) : rt'.mods x = none ↔ rt.mods x = none := by
  have hx := congrFun hcore x
  simp only [core] at hx
  rw [← Option.map_eq_none_iff (f := ModEntry.core), hx, Option.map_eq_none_iff]

/-- What a link makes of an entry. -/
theorem linkEntry_mods_eq (rt : Runtime) (e : EntryRef) (me : ModEntry) (size : Nat)
    (hme : rt.mods e = some me) :
    (rt.linkEntry e me size).mods = Function.update rt.mods e (some { me with
      regionState := if size = 0 then me.regionState else some rt.nblocks
      regionEntry := (rt.regionLookup me.regionId me.regionPlen).orElse
        (fun _ => me.regionEntry) }) := by
  have hcount : (rt.countEntry e size).mods = Function.update rt.mods e (some { me with
      regionState := if size = 0 then me.regionState else some rt.nblocks }) := by
    unfold countEntry
    dsimp only
    split
    · rw [← hme, Function.update_eq_self]
    · simp [modifyMod, hme]
  have htable : (rt.countEntry e size).regionHd = rt.regionHd :=
    congrArg Tree.table (countEntry_tree rt e size)
  unfold linkEntry
  dsimp only
  rw [regionLookup, htable, ← regionLookup]
  cases rt.regionLookup me.regionId me.regionPlen with
  | none => exact hcount
  | some r =>
    dsimp only
    rw [moduleRegionAppend, moduleRegionInsertAfter_mods, hcount]
    simp

/-- The region that a link puts an entry into. -/
theorem linkEntry_mods (rt : Runtime) (e : EntryRef) (me : ModEntry) (size : Nat)
    (hme : rt.mods e = some me) :
    ∃ state, (rt.linkEntry e me size).mods = Function.update rt.mods e (some { me with
      regionState := state
      regionEntry := (rt.regionLookup me.regionId me.regionPlen).orElse
        (fun _ => me.regionEntry) }) :=
  ⟨_, linkEntry_mods_eq rt e me size hme⟩

theorem discardEntry_mods (rt : Runtime) (e : EntryRef) (me : ModEntry) :
    (rt.discardEntry w e me).mods = Function.update rt.mods e none := by
  unfold discardEntry delModByRegion
  simp

theorem removeEntry_cleared (rt : Runtime) (e : EntryRef) (me : ModEntry) :
    (rt.removeEntry w e me).mods
      = Function.update (rt.moduleClearFnCacheForHandle w e me.handle).mods e none := by
  unfold removeEntry
  dsimp only
  rw [discardEntry_mods]
  congr 1
  unfold moduleRemovePathOwnedEntries
  split <;> rfl

theorem removeEntry_mods (rt : Runtime) (e : EntryRef) (me : ModEntry) :
    ∃ rt1 : Runtime, rt1.core = rt.core ∧ (rt.removeEntry w e me).mods = Function.update rt1.mods e none :=
  ⟨rt.moduleClearFnCacheForHandle w e me.handle,
    (moduleClearFnCacheForHandle_keeps w rt e me.handle).core, rt.removeEntry_cleared e me⟩

theorem reinsert_mods {r : RegionRef} {after : Option EntryRef}
    (h : Xylem.reinsert rt r e after = some rt') :
    rt'.mods = Function.update rt.mods e
      ((rt.mods e).map fun me => { me with regionEntry := some r }) := by
  unfold Xylem.reinsert at h
  dsimp only at h
  split at h
  · cases h
    rw [moduleRegionInsertAfter_mods, moduleRegionDetach_mods]
  · cases h

end Runtime

open Xylem.Runtime

/-! ## Entries -/

/-- What a step can do to the core of an entry that lives on. -/
inductive EntryChange (w : World) (c : Config) (a : Action) (x : EntryRef) (me : ModEntry) :
    ModEntry → Prop
  | same : EntryChange w c a x me me.core
  | refcount (n : Int) : EntryChange w c a x me { me.core with refcount := n }
  | bind {tx : LoadTxn} {k : List Frame} {ctx : CtxRef} (ha : a = .tau)
      (hstack : c.stack = .load tx .bind :: k) (hx : tx.modEntry = some x)
      (hhome : me.regionEntry = none) (hctx : modLoadCtx w c.st tx = some ctx) :
      EntryChange w c a x me { me.core with ctx := some ctx }
  | rekey {tx : LoadTxn} {k : List Frame} {child : RegionKey} (ha : a = .tau)
      (hstack : c.stack = .load tx (.rekey child) :: k)
      (hl : c.st.rt.modHd.lookup tx.lookup.key = some x) :
      EntryChange w c a x me { me.core with
        regionId := child.id, regionPlen := child.plen
        modKey := modKey (w.loadPath tx.fname) child.id child.plen }
  | link {tx : LoadTxn} {k : List Frame} (ha : a = .tau)
      (hstack : c.stack = .load tx .link :: k) (hx : tx.modEntry = some x)
      (hun : me.regionEntry = none) (state : Option BlockRef) :
      EntryChange w c a x me { me.core with
        regionState := state
        regionEntry := c.st.rt.regionLookup me.regionId me.regionPlen }
  | reinsert {rl : Reload} {k : List Frame} {r : RegionRef} (ha : a = .tau)
      (hstack : c.stack = .reload rl (.loaded xyOk) :: k)
      (hl : c.st.rt.modHd.lookup (modKey (w.loadPath rl.fname) rl.id rl.plen) = some x)
      (hre : rl.re = some r) :
      EntryChange w c a x me { me.core with regionEntry := some r }

section

variable {w : World} {c c' : Config} {a : Action} {ev : Event} {rt' : Runtime} {x : EntryRef}
  {me me' : ModEntry}

theorem EntryChange.of_core (hcore : rt'.core = c.st.rt.core) (hx : rt'.mods x = some me') :
    ∃ me, c.st.rt.mods x = some me ∧ EntryChange w c a x me me'.core := by
  obtain ⟨me, hme, heq⟩ := mods_of_core hcore hx
  exact ⟨me, hme, heq ▸ .same⟩

/-- A write to one entry changes that entry. -/
theorem EntryChange.of_modifyMod {e : EntryRef} {f : ModEntry → ModEntry}
    (hf : ∀ me, x = e → c.st.rt.mods e = some me → EntryChange w c a e me (f me).core)
    (hx : (c.st.rt.modifyMod e f).mods x = some me') :
    ∃ me, c.st.rt.mods x = some me ∧ EntryChange w c a x me me'.core := by
  obtain ⟨me, hme, rfl⟩ := modifyMod_some hx
  refine ⟨me, hme, ?_⟩
  split
  · next hxe =>
    subst hxe
    exact hf me rfl hme
  · exact .same

/-- An entry that is live after a step has been published by it, or was live
before. -/
theorem Effect.entry (h : Effect w c a rt') (hx : rt'.mods x = some me') :
    (∃ tx k, a = .tau ∧ c.stack = .load tx .opened :: k ∧ tx.lookup.entry = none
        ∧ x = c.st.rt.nmods ∧ me' = tx.freshEntry c.st.tls.loadingMod)
      ∨ ∃ me, c.st.rt.mods x = some me ∧ EntryChange w c a x me me'.core := by
  cases h with
  | same => exact Or.inr ⟨me', hx, .same⟩
  | @deny r what type =>
    have hmods : (c.st.rt.recordDeny w r what type).mods = c.st.rt.mods := by
      unfold recordDeny
      cases type <;> rfl
    exact Or.inr ⟨me', hmods ▸ hx, .same⟩
  | handler => exact Or.inr ⟨me', hx, .same⟩
  | claimAt => exact Or.inr ⟨me', hx, .same⟩
  | grant => exact Or.inr ⟨me', hx, .same⟩
  | @refcount e f =>
    refine Or.inr (EntryChange.of_modifyMod (fun me _ _ => ?_) hx)
    exact .refcount (f me.refcount)
  | @publish tx k ha hstack hl =>
    by_cases hnew : x = c.st.rt.nmods
    · subst hnew
      have hme : some (tx.freshEntry c.st.tls.loadingMod) = some me' := by
        simpa [publishEntry] using hx
      exact Or.inl ⟨tx, k, ha, hstack, hl, rfl, (Option.some.inj hme).symm⟩
    · have hme : c.st.rt.mods x = some me' := by simpa [publishEntry, hnew] using hx
      exact Or.inr ⟨me', hme, .same⟩
  | @bind tx k e ctx ha hstack he hhome hctx =>
    refine Or.inr (EntryChange.of_modifyMod (fun me _ hme => ?_) hx)
    rw [home_of_mods hme] at hhome
    exact .bind ha hstack he hhome hctx
  | @rekey tx k child e ha hstack hl =>
    have hx' : (c.st.rt.modifyMod e fun me => { me with
        regionId := child.id, regionPlen := child.plen
        modKey := modKey (w.loadPath tx.fname) child.id child.plen }).mods x = some me' := hx
    exact Or.inr (EntryChange.of_modifyMod (fun _ _ _ => .rekey ha hstack hl) hx')
  | @link tx k e me size ha hstack he hme hun =>
    obtain ⟨state, hmods⟩ := linkEntry_mods c.st.rt e me size hme
    rw [hmods] at hx
    by_cases hxe : x = e
    · subst hxe
      rw [Function.update_self] at hx
      cases hx
      have hlink : EntryChange w c a x me _ := .link ha hstack he hun state
      have helse : (c.st.rt.regionLookup me.regionId me.regionPlen).orElse
          (fun _ => me.regionEntry) = c.st.rt.regionLookup me.regionId me.regionPlen := by
        rw [hun]
        cases c.st.rt.regionLookup me.regionId me.regionPlen <;> rfl
      refine Or.inr ⟨me, hme, ?_⟩
      rw [helse]
      exact hlink
    · rw [Function.update_of_ne hxe] at hx
      exact Or.inr ⟨me', hx, .same⟩
  | prewarm =>
    exact Or.inr (EntryChange.of_modifyMod (fun me _ _ => (me.core_fnCachePrewarm _ _) ▸ .same) hx)
  | @abort tx k err e me ha hstack he hme =>
    rw [discardEntry_mods] at hx
    by_cases hxe : x = e
    · subst hxe
      rw [Function.update_self] at hx
      cases hx
    · rw [Function.update_of_ne hxe] at hx
      exact Or.inr ⟨me', hx, .same⟩
  | @remove k e me ha hstack hme =>
    obtain ⟨rt1, hcore, hmods⟩ := removeEntry_mods (w := w) c.st.rt e me
    rw [hmods] at hx
    by_cases hxe : x = e
    · subst hxe
      rw [Function.update_self] at hx
      cases hx
    · rw [Function.update_of_ne hxe] at hx
      exact Or.inr (EntryChange.of_core hcore hx)
  | @reinsert rl k e r rt' ha hstack hl hre hr hi =>
    rw [reinsert_mods hi] at hx
    by_cases hxe : x = e
    · subst hxe
      rw [Function.update_self] at hx
      obtain ⟨me, hme, rfl⟩ := Option.map_eq_some_iff.mp hx
      exact Or.inr ⟨me, hme, .reinsert ha hstack hl hre⟩
    · rw [Function.update_of_ne hxe] at hx
      exact Or.inr ⟨me', hx, .same⟩
  | vector ha hcaller hr hv => exact Or.inr (EntryChange.of_core (prepareVec_keeps hv).1 hx)
  | @resolve d k e me ha hstack hself hme =>
    exact Or.inr (EntryChange.of_core (onlyCaches_modifyMod hme (me.core_resolved (w := w) d.hookId d.name)).core
      hx)
  | register => exact Or.inr (EntryChange.of_core (registerHook_core ..) hx)
  | shutdown => cases hx

/-- The steps that free an entry. -/
theorem Effect.freed (h : Effect w c a rt') (hx : c.st.rt.mods x = some me)
    (hx' : rt'.mods x = none) :
    (∃ k, a = .tau ∧ c.stack = .unload x [] :: k)
      ∨ (∃ tx k err, a = .tau ∧ c.stack = .load tx (.aborting err) :: k ∧ tx.modEntry = some x)
      ∨ (a = .call .shutdown ∧ c.stack = [] ∧ rt' = c.st.rt.bootstrap) := by
  have hlive : rt'.mods x ≠ none → False := fun h => h hx'
  have hnone : c.st.rt.mods x ≠ none := by simp [hx]
  cases h with
  | same | handler | claimAt | grant => exact absurd hx' hnone
  | @deny r what type =>
    refine absurd hx' ?_
    have hmods : (c.st.rt.recordDeny w r what type).mods = c.st.rt.mods := by
      unfold recordDeny
      cases type <;> rfl
    rwa [hmods]
  | refcount | bind | prewarm | resolve => exact absurd (modifyMod_none.mp hx') hnone
  | @publish tx k ha hstack hl =>
    by_cases hnew : x = c.st.rt.nmods
    · subst hnew
      simp [publishEntry] at hx'
    · exact absurd (by simpa [publishEntry, hnew] using hx') hnone
  | @rekey tx k child e ha hstack hl =>
    have hx2 : (c.st.rt.modifyMod e fun me => { me with
        regionId := child.id, regionPlen := child.plen
        modKey := modKey (w.loadPath tx.fname) child.id child.plen }).mods x = none := hx'
    exact absurd (modifyMod_none.mp hx2) hnone
  | @link tx k e me size ha hstack he hme hun =>
    obtain ⟨state, hmods⟩ := linkEntry_mods c.st.rt e me size hme
    rw [hmods] at hx'
    by_cases hxe : x = e
    · subst hxe
      simp at hx'
    · rw [Function.update_of_ne hxe] at hx'
      exact absurd hx' hnone
  | @abort tx k err e me ha hstack he hme =>
    rw [discardEntry_mods] at hx'
    by_cases hxe : x = e
    · subst hxe
      exact Or.inr (Or.inl ⟨tx, k, err, ha, hstack, he⟩)
    · rw [Function.update_of_ne hxe] at hx'
      exact absurd hx' hnone
  | @remove k e me ha hstack hme =>
    obtain ⟨rt1, hcore, hmods⟩ := removeEntry_mods (w := w) c.st.rt e me
    rw [hmods] at hx'
    by_cases hxe : x = e
    · subst hxe
      exact Or.inl ⟨k, ha, hstack⟩
    · rw [Function.update_of_ne hxe, none_of_core hcore] at hx'
      exact absurd hx' hnone
  | @reinsert rl k e r rt' ha hstack hl hre hr hi =>
    rw [reinsert_mods hi] at hx'
    by_cases hxe : x = e
    · subst hxe
      simp [hx] at hx'
    · rw [Function.update_of_ne hxe] at hx'
      exact absurd hx' hnone
  | vector ha hcaller hr hv => exact absurd ((none_of_core (prepareVec_keeps hv).1).mp hx') hnone
  | register => exact absurd ((none_of_core (registerHook_core ..)).mp hx') hnone
  | shutdown ha hstack => exact Or.inr (Or.inr ⟨ha, hstack, rfl⟩)

/-- The regions that there are keep their identity and their parent. -/
structure Runtime.RegionsKept (rt rt' : Runtime) : Prop where
  count : rt.nregions ≤ rt'.nregions
  key : ∀ r < rt.nregions, (rt'.regions r).key = (rt.regions r).key
  parent : ∀ r < rt.nregions, (rt'.regions r).parent = (rt.regions r).parent

theorem Runtime.RegionsKept.trans {rt rt' rt'' : Runtime} (h : rt.RegionsKept rt')
    (h' : rt'.RegionsKept rt'') : rt.RegionsKept rt'' where
  count := Nat.le_trans h.count h'.count
  key r hr := (h'.key r (Nat.lt_of_lt_of_le hr h.count)).trans (h.key r hr)
  parent r hr := (h'.parent r (Nat.lt_of_lt_of_le hr h.count)).trans (h.parent r hr)

theorem Runtime.RegionsKept.of_tree {rt rt' : Runtime} (h : rt'.tree = rt.tree) :
    rt.RegionsKept rt' where
  count := Nat.le_of_eq (congrArg Tree.count h).symm
  key r _ := congrArg RegionNode.key (congrFun (congrArg Tree.node h) r)
  parent r _ := congrArg RegionNode.parent (congrFun (congrArg Tree.node h) r)

theorem Runtime.RegionsKept.of_add {rt rt' : Runtime} {p : Nat} {id : RegionId} {plen bits : Nat}
    (h : rt'.tree = rt.tree.add p id plen bits) : rt.RegionsKept rt' := by
  have hn : rt'.nregions = rt.nregions + 1 := congrArg Tree.count h
  have hnode : ∀ r, (rt'.regions r).toRegionNode = (rt.tree.add p id plen bits).node r :=
    fun r => congrFun (congrArg Tree.node h) r
  refine ⟨by omega, fun r hr => ?_, fun r hr => ?_⟩
  · rw [hnode]
    exact Tree.add_key_old hr
  · rw [hnode]
    exact Tree.add_parent_old hr

theorem Effect.regionsKept (h : Effect w c a rt') :
    (a = .call .shutdown ∧ rt' = c.st.rt.bootstrap) ∨ c.st.rt.RegionsKept rt' := by
  rcases h.tree_cases with htree | ⟨p, id, plen, fn, -, -, -, htree⟩
    | ⟨tx, k, p, bits, id, -, -, -, -, -, -, htree⟩ | ⟨ha, hrt⟩
  · exact Or.inr (.of_tree htree)
  · exact Or.inr (.of_add htree)
  · exact Or.inr (.of_add htree)
  · exact Or.inl ⟨ha, hrt⟩

theorem Effect.kept (h : Effect w c a rt') (hne : a ≠ .call .shutdown) :
    c.st.rt.RegionsKept rt' := by
  rcases h.regionsKept with ⟨ha, -⟩ | hkept
  · exact absurd ha hne
  · exact hkept

/-- A region keeps its identity, unless all starts again. -/
theorem Effect.keys (h : Effect w c a rt') :
    (a = .call .shutdown ∧ rt' = c.st.rt.bootstrap)
      ∨ (c.st.rt.nregions ≤ rt'.nregions
        ∧ ∀ r < c.st.rt.nregions, (rt'.regions r).key = (c.st.rt.regions r).key) :=
  h.regionsKept.imp_right fun hkept => ⟨hkept.count, hkept.key⟩

/-- The step leaves linked entries in their regions: a re-keyed entry is in no list,
and a reload puts an entry back into its own region. -/
structure Config.LeavesListed (w : World) (c : Config) (a : Action) (x : EntryRef)
    (me : ModEntry) : Prop where
  rekey : ∀ tx k child, a = .tau → c.stack = .load tx (.rekey child) :: k →
    c.st.rt.modHd.lookup tx.lookup.key = some x → me.regionEntry = none
  reload : ∀ rl k r, a = .tau → c.stack = .reload rl (.loaded xyOk) :: k →
    c.st.rt.modHd.lookup (modKey (w.loadPath rl.fname) rl.id rl.plen) = some x → rl.re = some r →
    (c.st.rt.regions r).key = ⟨me.regionId, me.regionPlen⟩

/-- The region of an entry that is live after a step. -/
theorem EntryChange.region {me m : ModEntry} (hwf : c.Wf w) (hok : c.LeavesListed w a x me)
    (hme : c.st.rt.mods x = some me)
    (hin : ∀ r ∈ me.regionEntry, (c.st.rt.regions r).key = ⟨me.regionId, me.regionPlen⟩)
    (h : EntryChange w c a x me m) {r : RegionRef} (hr : m.regionEntry = some r) :
    r < c.st.rt.nregions ∧ (c.st.rt.regions r).key = ⟨m.regionId, m.regionPlen⟩ := by
  have hold : ∀ {r}, me.regionEntry = some r → r < c.st.rt.nregions :=
    fun hr => hwf.heap.home_lt ((Runtime.home_of_mods hme).trans hr)
  cases h with
  | same | refcount | bind => exact ⟨hold hr, hin r hr⟩
  | rekey ha hstack hl =>
    have hnone := hok.rekey _ _ _ ha hstack hl
    exact absurd hr (by simp [ModEntry.core, hnone])
  | link => exact (Runtime.regionLookup_eq_some hwf.tree).mp hr
  | @reinsert rl k r' ha hstack hl hre =>
    obtain rfl : r' = r := Option.some.inj hr
    have htop : Frame.Ok w c.st.rt (.reload rl (.loaded xyOk)) := hwf.top hstack
    exact ⟨htop r' hre, hok.reload rl k r' ha hstack hl hre⟩

/-- An entry is listed by the region that it names, after a step as before. -/
theorem Effect.entryRegion (hwf : c.Wf w) (h : Effect w c a rt') (hx : rt'.mods x = some me')
    (hok : ∀ me, c.st.rt.mods x = some me → c.LeavesListed w a x me)
    (hin : ∀ me, c.st.rt.mods x = some me → ∀ r ∈ me.regionEntry,
      (c.st.rt.regions r).key = ⟨me.regionId, me.regionPlen⟩)
    {r : RegionRef} (hr : me'.regionEntry = some r) :
    (rt'.regions r).key = ⟨me'.regionId, me'.regionPlen⟩ := by
  rcases h.keys with ⟨-, rfl⟩ | ⟨-, hkey⟩
  · cases hx
  rcases h.entry hx with ⟨tx, k, -, -, -, -, rfl⟩ | ⟨me, hme, hch⟩
  · cases hr
  · obtain ⟨hlt, hold⟩ := hch.region hwf (hok me hme) hme (hin me hme) hr
    rw [hkey r hlt, hold]
    rfl

/-! ## Contexts -/

/-- What a step can do to the contexts of the modules. -/
inductive CtxChange (w : World) (c : Config) (a : Action) (c' : Config) : Prop
  | same (h : c'.st.ctxs = c.st.ctxs)
      (hbind : ∀ tx k, a = .tau → c.stack = .load tx .bind :: k → c'.st.rt = c.st.rt)
      (hrekey : ∀ tx k child, a = .tau → c.stack = .load tx (.rekey child) :: k →
        ∀ e ∈ c.st.rt.modHd.lookup tx.lookup.key, (c.st.rt.mods e).bind (·.ctx) = none)
  | bind {tx : LoadTxn} {k : List Frame} {e : EntryRef} {ctx : CtxRef} (ha : a = .tau)
      (hstack : c.stack = .load tx .bind :: k) (he : tx.modEntry = some e)
      (hctx : modLoadCtx w c.st tx = some ctx)
      (hrt : c'.st.rt = c.st.rt.modifyMod e (fun me => { me with ctx := some ctx }))
      (h : c'.st.ctxs = Function.update c.st.ctxs ctx
        (xyInit (c.st.ctxs ctx) tx.stableFname tx.inheritedRegionId))
  | rekey {tx : LoadTxn} {k : List Frame} {child : RegionKey} {e : EntryRef} {me : ModEntry}
      {ctx : CtxRef} (ha : a = .tau) (hstack : c.stack = .load tx (.rekey child) :: k)
      (hl : c.st.rt.modHd.lookup tx.lookup.key = some e) (hme : c.st.rt.mods e = some me)
      (hctx : me.ctx = some ctx)
      (hrt : c'.st.rt = c.st.rt.moduleRekeyLoadedEntry e tx.lookup.key (w.loadPath tx.fname)
        tx.inheritedKey child)
      (h : c'.st.ctxs = Function.update c.st.ctxs ctx { c.st.ctxs ctx with regionId := child.id })
  | inject {d d' : Dispatch} {k : List Frame} {e : EntryRef} {me : ModEntry} {ctx : CtxRef}
      (ha : a = .tau) (hstack : c.stack = .dispatch d none :: k)
      (hstack' : c'.stack = .dispatch d' (some e) :: k) (hme : c.st.rt.mods e = some me)
      (hctx : me.ctx = some ctx)
      (h : c'.st.ctxs = Function.update c.st.ctxs ctx
        { c.st.ctxs ctx with adapter := some d.reg, regionState := me.regionState })

theorem CtxChange.of_call {q : Call} (h : c'.st.ctxs = c.st.ctxs) :
    CtxChange w c (.call q) c' :=
  .same h (fun _ _ h => by cases h) (fun _ _ _ h => by cases h)

theorem CtxChange.of_stack {f : Frame} {k : List Frame} (hstack : c.stack = f :: k)
    (h : c'.st.ctxs = c.st.ctxs) (hbind : ∀ tx, f ≠ .load tx .bind)
    (hrekey : ∀ tx child, f ≠ .load tx (.rekey child)) : CtxChange w c a c' := by
  refine .same h (fun tx _ _ hs => ?_) (fun tx _ child _ hs => ?_)
  · rw [hstack] at hs
    exact absurd (List.cons.inj hs).1 (hbind tx)
  · rw [hstack] at hs
    exact absurd (List.cons.inj hs).1 (hrekey tx child)

theorem Unloads.ctxs {s : State} {fname : CStr} {id : RegionId} {plen : Nat} {k : List Frame}
    (h : Unloads w s fname id plen k c' ev) : c'.st.ctxs = s.ctxs := by
  cases h with
  | notFound hl hr => exact (resume_spec hr).1.ctxs
  | shared hl hme href hr => exact (resume_spec hr).1.ctxs
  | cascade hl hme href => rfl

theorem Step.ctxs (hwf : c.Wf w) (h : Step w c a c' ev) : CtxChange w c a c' := by
  cases h with
  | load | scope | eachFirst | answered => exact .of_call rfl
  | unload hw hu => exact .of_call hu.ctxs
  | reload hw hl hme hu => exact .of_call hu.ctxs
  | direct hw hq => exact .of_call (callDirect_keeps hq).1.ctxs
  | dispatchDone hw hd => exact .of_call (dispatchBegin_done hd).ctxs
  | dispatchLoop hw hd => exact .of_call (dispatchBegin_loop hd).ctxs
  | shutdown => exact .of_call (xyShutdown_spec w _).2.1
  | dlopenFailed hr =>
    exact .of_stack rfl (resume_spec hr).1.ctxs (by intro _ h; cases h) (by intro _ _ h; cases h)
  | reuse hl hme hr =>
    exact .of_stack rfl (resume_spec hr).1.ctxs (by intro _ h; cases h) (by intro _ _ h; cases h)
  | dlopened | publish | claimFlat | claimRefused | claimAsked | notGranted | link | installMissing
  | install | cascadeSkip | reloadLoad | reinsert | reloadEnd | selfSkip | selfDeaf | slotSkip
  | eachNext | eachEnd | scopeEnd =>
    exact .of_stack rfl rfl (by intro _ h; cases h) (by intro _ _ h; cases h)
  | @bind s k tx =>
    obtain ⟨-, -, ⟨hrt, hctxs⟩ | ⟨ctx, e, hctx, he, -, hrt, hctxs⟩⟩ := modLoadBindXy_spec w s tx
    · exact .same hctxs (fun _ _ _ _ => hrt) (fun _ _ _ _ h => by cases h)
    · exact .bind rfl rfl he hctx hrt hctxs
  | granted hg =>
    obtain ⟨-, -, -, -, hs'⟩ := xyClaimGranted_ok hg
    exact .of_stack rfl (hs' ▸ rfl) (by intro _ h; cases h) (by intro _ _ h; cases h)
  | @rekey s k tx child e me he hme =>
    have hkey : tx.lookup.key
        = modKey (w.loadPath tx.fname) tx.inheritedKey.id tx.inheritedKey.plen :=
      (hwf.top rfl).key
    have hspec := (moduleRekeyForClaim_spec w s tx.fname tx.inheritedKey child).2
    rw [← hkey] at hspec
    rcases hspec with ⟨hnone, hsame⟩ | ⟨e', hl, hrt, hctxs⟩
    · have hctxs : (moduleRekeyForClaim w s tx.fname tx.inheritedKey child).ctxs = s.ctxs := by
        rw [hsame]
      refine .same hctxs (fun _ _ _ h => by cases h) ?_
      intro tx' _ _ _ hs e'' he''
      cases hs
      rw [hnone] at he''
      cases he''
    · cases hc : (s.rt.mods e').bind (·.ctx) with
      | none =>
        rw [hc] at hctxs
        refine .same hctxs (fun _ _ _ h => by cases h) ?_
        intro tx' _ _ _ hs e'' he''
        cases hs
        rw [hl] at he''
        cases he''
        exact hc
      | some ctx =>
        rw [hc] at hctxs
        obtain ⟨me', hme', hctx⟩ := Option.bind_eq_some_iff.mp hc
        exact .rekey rfl rfl hl hme' hctx hrt hctxs
  | installed hr =>
    refine .of_stack rfl ?_ (by intro _ h; cases h) (by intro _ _ h; cases h)
    exact (resume_spec hr).1.ctxs.trans (modLoadRestoreContext_spec _ _).2.1
  | abort ha hr =>
    obtain ⟨e, he, -, -⟩ := (hwf.top rfl).late rfl
    obtain ⟨me, -, -, hctxs, -⟩ := modLoadAbort_spec he ha
    exact .of_stack rfl ((resume_spec hr).1.ctxs.trans hctxs) (by intro _ h; cases h)
      (by intro _ _ h; cases h)
  | cascade hme hp hs hu =>
    exact .of_stack rfl hu.ctxs (by intro _ h; cases h) (by intro _ _ h; cases h)
  | remove hme hr =>
    refine .of_stack rfl ?_ (by intro _ h; cases h) (by intro _ _ h; cases h)
    exact (resume_spec hr).1.ctxs.trans (modUnloadFinish_spec ..).2.1
  | dispatchEnd hend =>
    exact .of_stack rfl (still_dispatchEnd ..).ctxs (by intro _ h; cases h)
      (by intro _ _ h; cases h)
  | @selfEnter s k d e me ctx s' hself he hme hc hd hh hs' =>
    subst hs'
    have hstate : (me.resolved w d.hookId d.name).core.regionState = me.core.regionState := by
      rw [me.core_resolved]
    have hstate : (me.resolved w d.hookId d.name).regionState = me.regionState := hstate
    refine .inject rfl rfl rfl hme hc ?_
    rw [← hstate]
    rfl
  | @slotEnter s k d d' slot me ctx s' hself hmi hslots hcell hme hc hcb hd' hs' =>
    subst hs'
    refine .inject rfl rfl rfl hme hc ?_
    unfold Dispatch.switch
    split <;> rfl
  | selfListened hself hme =>
    exact .of_stack rfl (State.still_writeBuf ..).ctxs (by intro _ h; cases h)
      (by intro _ _ h; cases h)
  | @slotListened s s' k d e bytes hself hs' =>
    subst hs'
    refine .of_stack rfl ?_ (by intro _ h; cases h) (by intro _ _ h; cases h)
    show State.ctxs (if _ then _ else _) = _
    split
    · exact (State.still_writeBuf ..).ctxs
    · exact (State.still_writeBuf ..).ctxs

/-- The file of an entry stays. -/
theorem EntryChange.loadPath {m : ModEntry} (h : EntryChange w c a x me m) :
    m.loadPath = me.loadPath := by
  cases h <;> rfl

theorem Effect.loadPath (h : Effect w c a rt') (hlt : x < c.st.rt.nmods)
    (hx : rt'.mods x = some me') :
    ∃ me, c.st.rt.mods x = some me ∧ me'.loadPath = me.loadPath := by
  rcases h.entry hx with ⟨-, -, -, -, -, rfl, -⟩ | ⟨me, hme, hch⟩
  · exact absurd hlt (Nat.lt_irrefl _)
  · exact ⟨me, hme, hch.loadPath⟩

/-! ## Settled entries -/

/-- The entry has been linked, and may have been freed since. -/
def Runtime.Settled (rt : Runtime) (e : EntryRef) : Prop :=
  e < rt.nmods ∧ ∀ me, rt.mods e = some me → me.regionEntry ≠ none

theorem Effect.nmods_le (hwf : c.Wf w) (h : Effect w c a rt') : c.st.rt.nmods ≤ rt'.nmods := by
  rcases h.evolves hwf with ⟨-, -, rfl⟩ | hev
  · exact le_rfl
  · exact hev.nmods

/-- What stays of a settled entry. -/
theorem Effect.settled_entry (h : Effect w c a rt') (hs : c.st.rt.Settled x)
    (hx : rt'.mods x = some me') :
    ∃ me, c.st.rt.mods x = some me ∧ me'.ctx = me.ctx ∧ me'.regionState = me.regionState
      ∧ me'.loadPath = me.loadPath ∧ me'.handle = me.handle ∧ me'.regionEntry ≠ none := by
  rcases h.entry hx with ⟨tx, k, -, -, -, rfl, -⟩ | ⟨me, hme, hch⟩
  · exact absurd hs.1 (Nat.lt_irrefl _)
  · have hlinked := hs.2 me hme
    show ∃ me, c.st.rt.mods x = some me ∧ me'.core.ctx = me.ctx
      ∧ me'.core.regionState = me.regionState ∧ me'.core.loadPath = me.loadPath
      ∧ me'.core.handle = me.handle ∧ me'.core.regionEntry ≠ none
    generalize me'.core = m at hch
    refine ⟨me, hme, ?_⟩
    cases hch with
    | same | refcount | rekey => exact ⟨rfl, rfl, rfl, rfl, hlinked⟩
    | bind ha hstack hx hhome hctx => exact absurd hhome hlinked
    | link ha hstack hx hun => exact absurd hun hlinked
    | reinsert => exact ⟨rfl, rfl, rfl, rfl, by simp⟩

theorem Effect.settled (hwf : c.Wf w) (h : Effect w c a rt') (hs : c.st.rt.Settled x) :
    rt'.Settled x := by
  refine ⟨Nat.lt_of_lt_of_le hs.1 (h.nmods_le hwf), fun me' hme' => ?_⟩
  obtain ⟨me, -, -, -, -, -, hlinked⟩ := h.settled_entry hs hme'
  exact hlinked

theorem Runtime.HeapWf.lt_of_mods (h : rt'.HeapWf) (hx : rt'.mods x = some me) : x < rt'.nmods := by
  rcases Nat.lt_or_ge x rt'.nmods with hlt | hge
  · exact hlt
  · rw [h.fresh hge] at hx
    cases hx

/-- The entries of a module list are settled. -/
theorem Runtime.HeapWf.settled (h : rt'.HeapWf) {r : RegionRef} (hx : x ∈ rt'.modsOf r) :
    rt'.Settled x := by
  have hhome : rt'.home x = some r := h.mem_iff.mp hx
  obtain ⟨me, hme, hre⟩ := Option.bind_eq_some_iff.mp hhome
  refine ⟨h.lt_of_mods hme, fun me' hme' => ?_⟩
  rw [hme] at hme'
  cases hme'
  rw [hre]
  simp

/-- The hook vectors hold settled entries. -/
def Runtime.CellsSettled (rt : Runtime) : Prop :=
  ∀ r < rt.nregions, ∀ hookId, ∀ cell ∈ (rt.hookVec r hookId).cells, rt.Settled cell.me

theorem mem_listing {rt : Runtime} {anc : List RegionRef} {hookId : Nat} {name : CStr}
    {l : List EntryRef} {cell : DispatchSlot} (h : cell ∈ rt.listing w anc hookId name l) :
    cell.me ∈ l := by
  obtain ⟨e, he, hslot⟩ := List.mem_filterMap.mp h
  unfold Runtime.slotOf at hslot
  obtain ⟨me, -, hif⟩ := Option.bind_eq_some_iff.mp hslot
  split at hif
  · cases hif
    exact he
  · cases hif

/-- A cell of a hook vector was there before, or a rebuild has listed it. -/
theorem Effect.cell_origin (hwf : c.Wf w) (h : Effect w c a rt') {r : Nat} (hr : r < rt'.nregions)
    {k : Nat} {cell : DispatchSlot} (hcell : cell ∈ (rt'.hookVec r k).cells) :
    r < c.st.rt.nregions ∧ (cell ∈ (c.st.rt.hookVec r k).cells
      ∨ ∃ name q, a = .call q ∧ c.st.callerRegion = some r ∧ ¬ c.st.rt.Warm r k
        ∧ c.st.rt.prepareVec w r k name (c.st.rt.chain r).reverse = some rt'
        ∧ cell ∈ c.st.rt.listing w (c.st.rt.chain r).reverse k name (c.st.rt.walked r)) := by
  rcases h.touched hwf with ⟨-, rfl⟩ | ⟨x, hookId, name, q, ha, hcaller, hx, hv⟩ | ⟨hold, hnew⟩
  · rw [hookVec_of_nil rfl] at hcell
    cases hcell
  · have hp := prepareVec_spec hv
    have hn : rt'.nregions = c.st.rt.nregions := congrArg Tree.count (prepareVec_tree hv)
    refine ⟨hn ▸ hr, ?_⟩
    by_cases hrk : r = x ∧ k = hookId
    · obtain ⟨rfl, rfl⟩ := hrk
      by_cases hwarm : c.st.rt.Warm r k
      · rw [(hp.warm hwarm).1] at hcell
        exact Or.inl hcell
      · rw [hp.cells hwarm, List.mem_append] at hcell
        rcases hcell with hcell | hcell
        · exact Or.inr ⟨name, q, ha, hcaller, hwarm, hv, hcell⟩
        · exact Or.inl (List.mem_of_mem_drop hcell)
    · rw [hp.vec_ne r k (by tauto)] at hcell
      exact Or.inl hcell
  · rcases Nat.lt_or_ge r c.st.rt.nregions with hlt | hge
    · have hvec : (rt'.caches r).vecs = (c.st.rt.caches r).vecs := by
        cases hold r hlt with
        | kept h => rw [h.caches]
        | bumped h => exact h.vecs
        | denied h => rw [h.caches]
      rw [hookVec_of_vecs hvec] at hcell
      exact ⟨hlt, Or.inl hcell⟩
    · rw [hookVec_of_nil (by rw [(hnew r hge hr).caches]; rfl)] at hcell
      cases hcell

theorem Effect.cellsSettled (hwf : c.Wf w) (hl : c.st.rt.SubtreeLists) (h : Effect w c a rt')
    (hcells : c.st.rt.CellsSettled) : rt'.CellsSettled := by
  intro r hr k cell hcell
  refine h.settled hwf ?_
  obtain ⟨hlt, hold | ⟨name, q, -, -, -, -, hnew⟩⟩ := h.cell_origin hwf hr hcell
  · exact hcells r hlt k cell hold
  · have hmem := mem_listing hnew
    rw [walked_eq hwf.tree hl hlt, List.mem_flatMap] at hmem
    obtain ⟨y, -, hy⟩ := hmem
    exact hwf.heap.settled hy

theorem cellsSettled_of_reachable {ok : Config → Action → Prop} (h : ReachableBy w ok c) :
    c.st.rt.CellsSettled := by
  have hboth : c.st.rt.SubtreeLists ∧ c.st.rt.CellsSettled := by
    refine h.invariant_wf (fun c => c.st.rt.SubtreeLists ∧ c.st.rt.CellsSettled) (fun c hc => ?_)
      fun c a c' ev hwf hinv _ hstep => ?_
    · obtain ⟨ctxs, adapters, mem, rfl⟩ := hc
      refine ⟨subtreeLists_bootstrap _, fun r _ hookId cell hcell => ?_⟩
      rw [hookVec_of_nil rfl] at hcell
      cases hcell
    · have heff := hstep.effect hwf
      exact ⟨heff.subtreeLists hwf hinv.1, heff.cellsSettled hwf hinv.1 hinv.2⟩
  exact hboth.2

/-- An invariant of runs, relative to what is known of the lists and vectors of
regions as well. -/
theorem ReachableBy.invariant_cells {ok : Config → Action → Prop} (inv : Config → Prop)
    (hinit : ∀ c, c.Initial → inv c)
    (hstep : ∀ c a c' ev, c.Wf w → c.st.rt.SubtreeLists → c.st.rt.CellsSettled → inv c → ok c a →
      Step w c a c' ev → inv c') (h : ReachableBy w ok c) : inv c := by
  have hknown : ∀ c, ReachableBy w ok c → c.Wf w ∧ c.st.rt.SubtreeLists ∧ c.st.rt.CellsSettled :=
    fun c hc => ⟨.of_reachable hc, subtreeLists_of_reachable hc, cellsSettled_of_reachable hc⟩
  exact h.invariant_of hknown hinit fun c a c' ⟨hwf, hl, hset⟩ hinv hok ⟨ev, hs⟩ =>
    hstep c a c' ev hwf hl hset hinv hok (Step.of_step hs)

/-! ## Below the top of the stack -/

/-- Whether other calls can be above the frame. -/
def Frame.parked : Frame → Bool
  | .unload .. => true
  | .reload .. => true
  | f => f.waiting

/-- Every frame below the top can have other calls above it. -/
def Config.Parked (c : Config) : Prop := ∀ f ∈ c.stack.tail, f.parked

theorem Frame.parked_of_waiting {f : Frame} (h : f.waiting = true) : f.parked = true := by
  cases f with
  | load | dispatch | scope | each => exact h
  | unload | reload => rfl

theorem Config.Parked.all (h : c.Parked) (hw : c.waiting = true) : ∀ f ∈ c.stack, f.parked := by
  intro f hf
  unfold Config.waiting at hw
  cases hs : c.stack with
  | nil =>
    rw [hs] at hf
    cases hf
  | cons g k =>
    rw [hs] at hf hw
    rcases List.mem_cons.mp hf with rfl | hk
    · exact Frame.parked_of_waiting hw
    · exact h f (by rw [hs]; exact hk)

/-- What holds of every call in progress still does after a return, if it holds of
every reload. -/
theorem Resumed.forall {P : Frame → Prop} (hreload : ∀ rl pc, P (.reload rl pc)) {k k' : List Frame}
    (h : ∀ f ∈ k, P f) (hr : Resumed k k') : ∀ f ∈ k', P f := by
  cases hr with
  | same => exact h
  | reload rl pc pc' k =>
    exact List.forall_mem_cons.mpr ⟨hreload rl pc', fun f hf => h f (List.mem_cons_of_mem _ hf)⟩

theorem Unloads.forall {P : Frame → Prop} (hreload : ∀ rl pc, P (.reload rl pc))
    (hunload : ∀ e l, P (.unload e l)) {s : State} {fname : CStr} {id : RegionId} {plen : Nat}
    {k : List Frame} (h : Unloads w s fname id plen k c' ev) (hk : ∀ f ∈ k, P f) :
    ∀ f ∈ c'.stack, P f := by
  cases h with
  | notFound hl hr => exact (resume_spec hr).2.forall hreload hk
  | shared hl hme href hr => exact (resume_spec hr).2.forall hreload hk
  | cascade hl hme href => exact List.forall_mem_cons.mpr ⟨hunload _ _, hk⟩

theorem resume_parked {s : State} {ret : Int} {k : List Frame} (hr : resume s ret k = .next c' ev)
    (hk : ∀ f ∈ k, f.parked = true) : ∀ f ∈ c'.stack, f.parked = true :=
  (resume_spec hr).2.forall (fun _ _ => rfl) hk

theorem Unloads.parked {s : State} {fname : CStr} {id : RegionId} {plen : Nat} {k : List Frame}
    (h : Unloads w s fname id plen k c' ev) (hk : ∀ f ∈ k, f.parked = true) :
    ∀ f ∈ c'.stack, f.parked = true :=
  h.forall (fun _ _ => rfl) (fun _ _ => rfl) hk

/-- After a step, every frame can have other calls above it, unless it is the one on
top that goes on. -/
theorem Step.parked (hp : c.Parked) (h : Step w c a c' ev) : c'.Parked := by
  have htail : ∀ {k : List Frame}, (∀ f ∈ k, f.parked = true) → ∀ f ∈ k.tail, f.parked = true :=
    fun hk f hf => hk f (List.mem_of_mem_tail hf)
  cases h with
  | load hw | scope hw | eachFirst hw | dispatchLoop hw => exact hp.all hw
  | answered hw | direct hw | dispatchDone hw => exact htail (hp.all hw)
  | unload hw hu => exact htail (hu.parked (hp.all hw))
  | reload hw hl hme hu =>
    exact htail (hu.parked (List.forall_mem_cons.mpr ⟨rfl, hp.all hw⟩))
  | shutdown => exact fun f hf => (List.not_mem_nil hf).elim
  | dlopenFailed hr => exact htail (resume_parked hr hp)
  | reuse hl hme hr => exact htail (resume_parked hr hp)
  | installed hr => exact htail (resume_parked hr hp)
  | abort ha hr => exact htail (resume_parked hr hp)
  | remove hme hr => exact htail (resume_parked hr hp)
  | cascade hme hps hs hu => exact htail (hu.parked (List.forall_mem_cons.mpr ⟨rfl, hp⟩))
  | reloadLoad => exact List.forall_mem_cons.mpr ⟨rfl, hp⟩
  | dlopened | publish | bind | claimFlat | claimRefused | claimAsked | notGranted | granted | rekey
  | link | installMissing | install | cascadeSkip | selfSkip | selfDeaf | selfEnter | slotSkip
  | slotEnter | selfListened | slotListened | eachNext => exact hp
  | reinsert | reloadEnd | dispatchEnd | scopeEnd | eachEnd => exact htail hp

theorem parked_of_reachable {ok : Config → Action → Prop} (h : ReachableBy w ok c) : c.Parked := by
  refine h.invariant_wf Config.Parked (fun c hc => ?_) fun c a c' ev _ hp _ hstep => hstep.parked hp
  obtain ⟨ctxs, adapters, mem, rfl⟩ := hc
  exact fun f hf => (List.not_mem_nil hf).elim

end

end Xylem
