import Xylem.HookDeny
import Xylem.HookStable
import Xylem.ModLists
import Xylem.Registration
import Xylem.Sample
import Xylem.UnloadTree
import Xylem.VectorAgreement

/-!
# The listeners that an unload leaves

`module_clear_fn_cache_for_handle` makes every other entry forget the callbacks
that lie in the mapping of the one that is unloaded, so that they are resolved
again.  A rebuild of a hook vector asks the bitmap, though, and the bits are not
cleared: it takes the cell as it is, `NULL`, and the dispatch leaves the module
out.

* `Runtime.listeners` is what `xy_call` from a region comes to, and
  `KeepsListeners` says that all of it but one entry stays.
* `listeners_eq`: where the vectors agree with the entries, it is what a rebuild
  would find.
* `keepsListeners_iff`: there an unload keeps the listeners of all other modules if
  and only if no dispatch that has to rebuild its vector comes to a callback in the
  mapping that goes (`ForgetsNone`).
-/

namespace Xylem

open Xylem.Runtime

/-! ## What a dispatch comes to -/

/-- The slots that `xy_call` of a hook from `r` runs, in their order. -/
def Runtime.listeners (w : World) (rt : Runtime) (r : RegionRef) (hookId : Nat) (name : CStr) :
    Option (List DispatchSlot) :=
  if hookRefused rt (rt.ancChain (some r)) name then some []
  else (rt.prepareVec w r hookId name (rt.ancChain (some r))).map fun rt' =>
    ((rt'.hookVec r hookId).cells.take (rt'.hookVec r hookId).count).filter (slotListens rt')

/-- From each region the dispatch of each hook comes to what it came to before,
but for the slots of `e`. -/
def KeepsListeners (w : World) (rt rt' : Runtime) (e : EntryRef) : Prop :=
  ∀ r < rt.nregions, ∀ hookId name, rt.Numbered hookId name →
    rt'.listeners w r hookId name
      = (rt.listeners w r hookId name).map fun l => l.filter fun slot => decide (slot.me ≠ e)

/-- What a dispatch that rebuilds its vector comes to at one module, if anything. -/
def Runtime.heard (w : World) (rt : Runtime) (r hookId : Nat) (name : CStr) (e : EntryRef) :
    Option DispatchSlot :=
  (rt.slotOf w (rt.chain r).reverse hookId name e).filter fun slot => decide (slot.cb ≠ .null)

section

variable {w : World} {c c' : Config} {a : Action} {ev : Event} {rt rt' : Runtime} {r hookId : Nat}
  {name : CStr} {e m : EntryRef} {me me' gone : ModEntry}

/-! ## A dispatch and its listeners -/

theorem Runtime.slotOf_spec {anc : List RegionRef} {slot : DispatchSlot}
    (h : rt.slotOf w anc hookId name e = some slot) :
    slot.me = e ∧ ∃ me, rt.mods e = some me ∧ rt.consulted anc me = true := by
  unfold slotOf at h
  obtain ⟨me, hme, hif⟩ := Option.bind_eq_some_iff.mp h
  split at hif
  · next hcons =>
    obtain rfl := Option.some.inj hif
    exact ⟨rfl, me, hme, hcons.1⟩
  · cases hif

theorem Runtime.heard_me {slot : DispatchSlot} (h : rt.heard w r hookId name e = some slot) :
    slot.me = e :=
  (slotOf_spec (Option.filter_eq_some_iff.mp h).1).1

/-- A prepared vector with these slots, of entries with a context, is run where the
callback is not `NULL`. -/
theorem Runtime.filter_slotListens {l : List DispatchSlot}
    (hctx : ∀ slot ∈ l, ∃ me, rt.mods slot.me = some me ∧ me.ctx.isSome = true) :
    l.filter (slotListens rt) = l.filter fun slot => decide (slot.cb ≠ .null) := by
  refine List.filter_congr fun slot hslot => ?_
  obtain ⟨me, hme, hc⟩ := hctx slot hslot
  unfold slotListens
  simp [hme, hc]

/-- The entries of a listing have a context, also after the rebuild. -/
theorem Runtime.ctx_of_listing {anc : List RegionRef} {l : List EntryRef} {slot : DispatchSlot}
    (hcore : rt'.core = rt.core) (h : slot ∈ rt.listing w anc hookId name l) :
    ∃ me, rt'.mods slot.me = some me ∧ me.ctx.isSome = true := by
  obtain ⟨e, -, hslot⟩ := List.mem_filterMap.mp h
  obtain ⟨rfl, me, hme, hcons⟩ := slotOf_spec hslot
  unfold consulted at hcons
  rw [Bool.and_eq_true] at hcons
  have hkeep := congrFun hcore slot.me
  simp only [core, hme, Option.map_some] at hkeep
  obtain ⟨me', hme', heq⟩ := Option.map_eq_some_iff.mp hkeep
  refine ⟨me', hme', ?_⟩
  rw [(ModEntry.eq_of_core heq).1]
  exact hcons.1

/-- The slots of a listing that are run. -/
theorem Runtime.filter_listing (rt : Runtime) (l : List EntryRef) :
    ((rt.listing w (rt.chain r).reverse hookId name l).filter fun slot =>
        decide (slot.cb ≠ .null)) = l.filterMap (rt.heard w r hookId name) := by
  unfold listing
  rw [List.filter_filterMap]
  rfl

/-- A vector that is not up to date is rebuilt first. -/
theorem Runtime.listeners_cold (ht : rt.tree.Wf) (hheap : rt.HeapWf) (hl : rt.SubtreeLists)
    (hr : r < rt.nregions) (hcold : ¬ rt.Warm r hookId) (name : CStr) :
    rt.listeners w r hookId name = some (if hookRefused rt (rt.ancChain (some r)) name then []
      else (rt.walked r).filterMap (rt.heard w r hookId name)) := by
  unfold listeners
  split
  · rfl
  · rw [ancChain_some ht hr]
    obtain ⟨rt', hv⟩ := prepareVec_of_wf (w := w) ht hheap hl hr hookId name (rt.chain r).reverse
    have hp := prepareVec_spec hv
    rw [hv, Option.map_some, hp.cells hcold, hp.count hcold, List.take_left,
      filter_slotListens fun slot hslot => ctx_of_listing (prepareVec_keeps hv).1 hslot,
      filter_listing]

/-- A vector that is up to date is taken as it is. -/
theorem Runtime.listeners_warm (ht : rt.tree.Wf) (hheap : rt.HeapWf) (hl : rt.SubtreeLists)
    (hr : r < rt.nregions) (hwarm : rt.Warm r hookId) (name : CStr) :
    rt.listeners w r hookId name = some (if hookRefused rt (rt.ancChain (some r)) name then []
      else ((rt.hookVec r hookId).cells.take (rt.hookVec r hookId).count).filter
        (slotListens rt)) := by
  unfold listeners
  split
  · rfl
  · rw [ancChain_some ht hr]
    obtain ⟨rt', hv⟩ := prepareVec_of_wf (w := w) ht hheap hl hr hookId name (rt.chain r).reverse
    obtain ⟨hvec, hmods⟩ := (prepareVec_spec hv).warm hwarm
    have hlistens : slotListens rt' = slotListens rt := by
      funext slot
      unfold slotListens
      rw [hmods]
    rw [hv, Option.map_some, hvec, hlistens]

/-- Where the vectors agree with the entries, a dispatch comes to what a rebuild
would find. -/
theorem Runtime.listeners_eq (ht : rt.tree.Wf) (hheap : rt.HeapWf) (hl : rt.SubtreeLists)
    (hin : rt.Agreed w) (hr : r < rt.nregions) (hookId : Nat) (name : CStr) :
    rt.listeners w r hookId name = some (if hookRefused rt (rt.ancChain (some r)) name then []
      else (rt.walked r).filterMap (rt.heard w r hookId name)) := by
  by_cases hwarm : rt.Warm r hookId
  · rw [listeners_warm ht hheap hl hr hwarm, (hin.vecs r hr hookId hwarm).listed name,
      filter_slotListens fun slot hslot => ctx_of_listing rfl hslot, filter_listing]
  · exact listeners_cold ht hheap hl hr hwarm name

/-! ## What a removal does -/

/-- A region that the entry is not below keeps its caches. -/
theorem Runtime.removeEntry_caches (w : World) (gone : ModEntry) (ht : rt.tree.Wf)
    (hr : r < rt.nregions)
    (hlt : ∀ x ∈ rt.home e, x < rt.nregions)
    (hout : ∀ x ∈ rt.home e, r ∉ rt.parentChain x) :
    (rt.removeEntry w e gone).caches r = rt.caches r := by
  obtain ⟨rt₁, hrt₁, htree, hhome, hcaches⟩ : ∃ rt₁,
      (rt.moduleClearFnCacheForHandle w e gone.handle).moduleRemovePathOwnedEntries gone = rt₁
        ∧ rt₁.tree = rt.tree ∧ rt₁.home e = rt.home e ∧ rt₁.caches r = rt.caches r := by
    have hclear := moduleClearFnCacheForHandle_keeps w rt e gone.handle
    have hregions : (rt.moduleClearFnCacheForHandle w e gone.handle).caches r = rt.caches r := by
      simp only [caches, hclear.regions]
    refine ⟨_, rfl, ?_⟩
    rw [moduleRemovePathOwnedEntries_tree, hclear.tree]
    unfold moduleRemovePathOwnedEntries
    split
    · exact ⟨rfl, hclear.same.home e, hregions⟩
    · refine ⟨rfl, hclear.same.home e, ?_⟩
      rw [moduleRemoveDenies, modifyRegion_caches (by intro _; exact ⟨rfl, rfl, rfl, rfl⟩)]
      exact hregions
  have hn : rt₁.nregions = rt.nregions := congrArg Tree.count htree
  have hkept : Kept rt₁ (rt₁.moduleRegionDetach e) r := by
    refine (moduleRegionDetach_touched (htree ▸ ht) ?_ (hn ▸ hr)).2 fun x hx hin => ?_
    · rw [hhome, hn]
      exact hlt
    · rw [hhome] at hx
      refine hout x hx ?_
      rw [parentChain_eq ht (hlt x hx)]
      unfold chain at hin ⊢
      rwa [htree] at hin
  unfold removeEntry
  dsimp only
  rw [hrt₁, ← hcaches, ← hkept.caches]
  rfl

/-- The entry forgets the callback of the hook when `gone` is removed. -/
def Runtime.Forgets (w : World) (rt : Runtime) (gone : ModEntry) (hookId : Nat) (m : EntryRef) :
    Prop :=
  m ∈ rt.modHdValues w ∧ ∃ me, rt.mods m = some me ∧ (me.fnCell hookId).mapped w gone.handle = true

/-- What is left of another entry after a removal. -/
theorem Runtime.removeEntry_other (w : World) (gone : ModEntry) (hne : m ≠ e)
    (hme : rt.mods m = some me) (hookId : Nat) :
    ∃ me', (rt.removeEntry w e gone).mods m = some me' ∧ me'.core = me.core
      ∧ me'.hookImplBits = me.hookImplBits
      ∧ (rt.Forgets w gone hookId m → me'.fnCell hookId = .null)
      ∧ (¬ rt.Forgets w gone hookId m → me'.fnCell hookId = me.fnCell hookId) := by
  rw [removeEntry_cleared, Function.update_of_ne hne]
  unfold moduleClearFnCacheForHandle
  split
  · next hbase =>
    refine ⟨me, hme, rfl, rfl, fun hf => ?_, fun _ => rfl⟩
    obtain ⟨-, m', -, hmapped⟩ := hf
    unfold FnSlot.mapped at hmapped
    split at hmapped
    · simp [hbase] at hmapped
    · cases hmapped
  · next base hbase =>
    dsimp only
    split
    · next hin =>
      refine ⟨me.clearFnCache w base, by rw [hme]; rfl, rfl, rfl, fun hf => ?_, fun hf => ?_⟩
      · obtain ⟨-, m', hm', hmapped⟩ := hf
        obtain rfl : me = m' := Option.some.inj (hme.symm.trans hm')
        rw [ModEntry.fnCell_clearFnCache hbase, if_pos hmapped]
      · rw [ModEntry.fnCell_clearFnCache hbase, if_neg]
        exact fun hmapped => hf ⟨hin.2, me, hme, hmapped⟩
    · next hout =>
      refine ⟨me, hme, rfl, rfl, fun hf => ?_, fun _ => rfl⟩
      exact absurd ⟨hne, hf.1⟩ hout

/-- Two entries that look the same to a dispatch add the same slot. -/
theorem Runtime.slotOf_view {anc : List RegionRef} (hme : rt.mods m = some me)
    (hme' : rt'.mods m = some me') (hcons : rt'.consulted anc me' = rt.consulted anc me)
    (hhandle : me'.handle = me.handle) (hbits : me'.hookImplBits = me.hookImplBits)
    (hcell : me'.fnCell hookId = me.fnCell hookId) (name : CStr) :
    rt'.slotOf w anc hookId name m = rt.slotOf w anc hookId name m := by
  have hbit : me'.hasHookImplemented hookId = me.hasHookImplemented hookId := by
    unfold ModEntry.hasHookImplemented
    rw [hbits]
  have hun : me'.Unresolved hookId ↔ me.Unresolved hookId := by
    unfold ModEntry.Unresolved
    rw [hbit, hcell]
  obtain ⟨hcell₁, hbit₁⟩ := me.resolved_spec (w := w) hookId name
  obtain ⟨hcell₂, hbit₂⟩ := me'.resolved_spec (w := w) hookId name
  unfold slotOf
  rw [hme, hme', Option.bind_some, Option.bind_some, hcell₁, hcell₂, hbit₁, hbit₂, hcons, hbit, hcell,
    hhandle]
  simp only [hun]

/-- What a rebuild comes to at another entry, after a removal that lifts no deny. -/
theorem Runtime.heard_removeEntry (hookId : Nat)
    (hdenies : (rt.removeEntry w e gone).denies = rt.denies)
    (hchain : (rt.removeEntry w e gone).chain r = rt.chain r) (hne : m ≠ e)
    (hb : ∀ me, rt.mods m = some me → me.Bitted) (hlive : rt.mods m ≠ none) (name : CStr) :
    (¬ rt.Forgets w gone hookId m →
        (rt.removeEntry w e gone).heard w r hookId name m = rt.heard w r hookId name m)
      ∧ (rt.Forgets w gone hookId m → (rt.removeEntry w e gone).heard w r hookId name m = none) := by
  obtain ⟨me, hme⟩ := Option.ne_none_iff_exists'.mp hlive
  obtain ⟨me', hme', hcore, hbits, hforgets, hkeeps⟩ :=
    removeEntry_other w gone hne hme hookId
  obtain ⟨hctx, hpath, hhandle, -⟩ := ModEntry.eq_of_core hcore
  have hcons : (rt.removeEntry w e gone).consulted (rt.chain r).reverse me'
      = rt.consulted (rt.chain r).reverse me := by
    have hden : (rt.removeEntry w e gone).moduleDeniedByAncestors (rt.chain r).reverse me.loadPath
        = rt.moduleDeniedByAncestors (rt.chain r).reverse me.loadPath :=
      moduleDeniedByAncestors_congr fun x _ => by rw [hdenies]
    unfold consulted
    rw [hctx, hpath, hden]
  unfold heard
  rw [hchain]
  constructor
  · intro hf
    rw [slotOf_view hme hme' hcons hhandle hbits (hkeeps hf) name]
  · intro hf
    have hnull := hforgets hf
    obtain ⟨-, m', hm', hmapped⟩ := hf
    obtain rfl : me = m' := Option.some.inj (hme.symm.trans hm')
    have hbit : me'.hasHookImplemented hookId = true := by
      unfold ModEntry.hasHookImplemented
      rw [hbits]
      refine (hb me hme hookId).mpr ?_
      unfold FnSlot.mapped at hmapped
      split at hmapped
      · next b hcell => exact ⟨b, hcell⟩
      · cases hmapped
    have hres : me'.resolved w hookId name = me' :=
      me'.resolved_of_not (fun hun => by rw [hun.1] at hbit; cases hbit) name
    unfold slotOf
    rw [hme', Option.bind_some, hres, hnull]
    split <;> simp

/-- A callback that is forgotten was heard, if its module was consulted. -/
theorem Runtime.heard_of_forgets (hb : ∀ me, rt.mods m = some me → me.Bitted)
    (hf : rt.Forgets w gone hookId m) (name : CStr) :
    (rt.heard w r hookId name m).isSome = true
      ↔ ∀ me ∈ rt.mods m, rt.consulted (rt.chain r).reverse me = true := by
  obtain ⟨-, me, hme, hmapped⟩ := hf
  obtain ⟨b, hcell⟩ : ∃ b, me.fnCell hookId = .fn b := by
    unfold FnSlot.mapped at hmapped
    split at hmapped
    · next b hcell => exact ⟨b, hcell⟩
    · cases hmapped
  have hbit := (hb me hme hookId).mpr ⟨b, hcell⟩
  have hne : me.fnCell hookId ≠ .null := by rw [hcell]; simp
  have hslot : rt.slotOf w (rt.chain r).reverse hookId name m = _ :=
    slotOf_resolved hme (fun _ => hne) name
  unfold heard
  rw [hslot, hbit, hcell, hme]
  by_cases hcons : rt.consulted (rt.chain r).reverse me = true
  · simp [hcons]
  · simp [hcons]

theorem Runtime.walked_removeEntry (ht : rt.tree.Wf) (hheap : rt.HeapWf) (hl : rt.SubtreeLists)
    (ht' : (rt.removeEntry w e gone).tree.Wf) (hl' : (rt.removeEntry w e gone).SubtreeLists)
    (hr : r < rt.nregions) :
    (rt.removeEntry w e gone).walked r = (rt.walked r).filter fun m => decide (m ≠ e) := by
  have htree := removeEntry_tree w rt e gone
  have hn : (rt.removeEntry w e gone).nregions = rt.nregions := congrArg Tree.count htree
  have hsub : (rt.removeEntry w e gone).subtree r = rt.subtree r := by
    simp only [subtree, htree, hn]
  rw [walked_eq ht' hl' (hn ▸ hr), walked_eq ht hl hr, hsub, List.filter_flatMap]
  refine List.flatMap_congr fun x _ => ?_
  rw [removeEntry_modsOf hheap e gone x, (hheap.nodup x).erase_eq_filter]
  refine List.filter_congr fun m _ => ?_
  rw [Bool.eq_iff_iff]
  simp

/-- Below which regions a vector stays up to date. -/
theorem Effect.warm_removeEntry (hookId : Nat) (hwf : c.Wf w) (hs : c.st.rt.Stamps) (hb : c.st.rt.BumpsLeft)
    (h : Effect w c .tau (c.st.rt.removeEntry w e gone)) (hr : r < c.st.rt.nregions) :
    (c.st.rt.removeEntry w e gone).Warm r hookId
      ↔ c.st.rt.Warm r hookId ∧ ∀ x ∈ c.st.rt.home e, r ∉ c.st.rt.parentChain x := by
  have hhome : ∀ x ∈ c.st.rt.home e, x < c.st.rt.nregions := fun x hx => hwf.heap.home_lt hx
  constructor
  · intro hwarm
    rcases h.touched hwf with ⟨ha, -⟩ | ⟨_, _, _, _, ha, -⟩ | ⟨hold, -⟩
    · cases ha
    · cases ha
    · have hwrap : (c.st.rt.removeEntry w e gone).genBumps + 1 < 2 ^ 64 := by
        have hle := h.genBumps_le
        unfold BumpsLeft at hb
        omega
      obtain ⟨hkept, hwarm₀, -⟩ := (hold r hr).warm hs hr hwrap hwarm
      refine ⟨hwarm₀, fun x hx hin => ?_⟩
      rw [parentChain_eq hwf.tree (hhome x hx)] at hin
      refine hkept.not_removed hwf h ((mem_subtree_iff hwf.tree hr).mpr ⟨hhome x hx, hin⟩) ?_ hx
      rw [removeEntry_cleared]
      exact Function.update_self ..
  · rintro ⟨hwarm, hout⟩
    have hcaches := removeEntry_caches w gone hwf.tree hr hhome hout
    have hvec := hookVec_of_vecs (congrArg RegionCaches.vecs hcaches) hookId
    unfold Warm at hwarm ⊢
    rw [hvec, hcaches]
    exact hwarm

/-- What is left of a list when some are forgotten, and when one is taken out. -/
theorem filterMap_forget {α β : Type*} [DecidableEq α] {l : List α} {f g : α → Option β}
    {key : β → α} {P : α → Prop} (x : α) (hkey : ∀ y b, f y = some b → key b = y)
    (hsame : ∀ y ∈ l, y ≠ x → ¬ P y → g y = f y) (hnone : ∀ y ∈ l, y ≠ x → P y → g y = none) :
    ((l.filter fun y => decide (y ≠ x)).filterMap g
        = (l.filterMap f).filter fun b => decide (key b ≠ x))
      ↔ ∀ y ∈ l, y ≠ x → (f y).isSome = true → ¬ P y := by
  constructor
  · intro heq y hy hne hsome hP
    obtain ⟨b, hb⟩ := Option.isSome_iff_exists.mp hsome
    have hin : b ∈ (l.filterMap f).filter fun b => decide (key b ≠ x) := by
      refine List.mem_filter.mpr ⟨List.mem_filterMap.mpr ⟨y, hy, hb⟩, ?_⟩
      rw [hkey y b hb]
      simpa using hne
    rw [← heq] at hin
    obtain ⟨z, hz, hgz⟩ := List.mem_filterMap.mp hin
    obtain ⟨hzl, hzx⟩ := List.mem_filter.mp hz
    have hzx : z ≠ x := by simpa using hzx
    have hPz : ¬ P z := fun hPz => by
      rw [hnone z hzl hzx hPz] at hgz
      cases hgz
    rw [hsame z hzl hzx hPz] at hgz
    have hzy : z = y := (hkey z b hgz).symm.trans (hkey y b hb)
    exact hPz (hzy ▸ hP)
  · intro hno
    rw [List.filterMap_filter, List.filter_filterMap]
    refine List.filterMap_congr fun y hy => ?_
    by_cases hyx : y = x
    · subst hyx
      cases hfy : f y with
      | none => simp
      | some b => simp [Option.filter, hkey y b hfy]
    · simp only [hyx, ne_eq, not_false_eq_true, decide_true, if_true]
      cases hfy : f y with
      | none =>
        by_cases hP : P y
        · exact hnone y hy hyx hP
        · rw [hsame y hy hyx hP, hfy]
          rfl
      | some b =>
        rw [hsame y hy hyx (hno y hy hyx (by rw [hfy]; rfl)), hfy]
        simp [Option.filter, hkey y b hfy, hyx]

theorem Runtime.hookRefused_congr (h : rt'.denies = rt.denies) (anc : List RegionRef) :
    hookRefused rt' anc name = hookRefused rt anc name := by
  have hflag : ∀ x, (rt'.regions x).subtreeFlags = (rt.regions x).subtreeFlags := fun x =>
    congrArg RegionDenies.flag (congrFun h x)
  have hhooks : ∀ x, (rt'.regions x).deniedHooks = (rt.regions x).deniedHooks := fun x =>
    congrArg RegionDenies.hooks (congrFun h x)
  unfold hookRefused
  simp only [hflag, hhooks]

/-- The condition for one region and one hook. -/
def Runtime.ForgetsNoneAt (w : World) (rt : Runtime) (e : EntryRef) (gone : ModEntry)
    (r hookId : Nat) (name : CStr) : Prop :=
  hookRefused rt (rt.ancChain (some r)) name = false →
    (rt.Warm r hookId → ∃ x ∈ gone.regionEntry, r ∈ rt.parentChain x) →
    ∀ m ∈ rt.walked r, m ≠ e →
      (∀ me ∈ rt.mods m, rt.consulted (rt.ancChain (some r)) me = true) →
      ¬ rt.Forgets w gone hookId m

/-- No dispatch that is let through, and has to rebuild its vector, consults a module
whose callback goes. -/
def Runtime.ForgetsNone (w : World) (rt : Runtime) (e : EntryRef) (gone : ModEntry) : Prop :=
  ∀ r < rt.nregions, ∀ hookId name, rt.Numbered hookId name →
    rt.ForgetsNoneAt w e gone r hookId name

/-- The listeners of one hook from one region, after a removal. -/
theorem Effect.listeners_removeEntry (hwf : c.Wf w) (hl : c.st.rt.SubtreeLists)
    (hin : c.st.rt.Agreed w) (hb : c.st.rt.BumpsLeft) (hgone : c.st.rt.mods e = some gone)
    (hdenies : (c.st.rt.removeEntry w e gone).denies = c.st.rt.denies)
    (h : Effect w c .tau (c.st.rt.removeEntry w e gone)) (hr : r < c.st.rt.nregions) :
    (c.st.rt.removeEntry w e gone).listeners w r hookId name
        = (c.st.rt.listeners w r hookId name).map
          (fun l => l.filter fun slot => decide (slot.me ≠ e))
      ↔ c.st.rt.ForgetsNoneAt w e gone r hookId name := by
  have htree := removeEntry_tree w c.st.rt e gone
  have ht' := h.tree hwf
  have hl' := h.subtreeLists hwf hl
  have hheap' := h.heap hwf
  have hr' : r < (c.st.rt.removeEntry w e gone).nregions := by
    rw [show (c.st.rt.removeEntry w e gone).nregions = _ from congrArg Tree.count htree]
    exact hr
  have hchain : (c.st.rt.removeEntry w e gone).chain r = c.st.rt.chain r := by
    unfold chain
    rw [htree]
  have hanc : (c.st.rt.removeEntry w e gone).ancChain (some r) = c.st.rt.ancChain (some r) := by
    rw [ancChain_some ht' hr', ancChain_some hwf.tree hr, hchain]
  have hrefused : hookRefused (c.st.rt.removeEntry w e gone) (c.st.rt.ancChain (some r)) name
      = hookRefused c.st.rt (c.st.rt.ancChain (some r)) name := hookRefused_congr hdenies _
  have hwalked := walked_removeEntry hwf.tree hwf.heap hl ht' hl' hr
  have hlive : ∀ m ∈ c.st.rt.walked r, c.st.rt.mods m ≠ none := by
    intro m hm hnone
    rw [walked_eq hwf.tree hl hr, List.mem_flatMap] at hm
    obtain ⟨y, -, hy⟩ := hm
    have hhome := hwf.heap.mem_iff.mp hy
    simp [Runtime.home, hnone] at hhome
  have hwarm := h.warm_removeEntry hookId hwf hin.stamps hb hr
  rw [home_of_mods hgone] at hwarm
  unfold ForgetsNoneAt
  rw [listeners_eq hwf.tree hwf.heap hl hin hr hookId name, Option.map_some]
  by_cases hopen : hookRefused c.st.rt (c.st.rt.ancChain (some r)) name = true
  · have hsilent : (c.st.rt.removeEntry w e gone).listeners w r hookId name = some [] := by
      unfold listeners
      rw [hanc, hrefused, if_pos hopen]
    rw [hsilent, if_pos hopen]
    exact ⟨fun _ hlet => absurd (hopen.symm.trans hlet) (by simp), fun _ => rfl⟩
  by_cases hstays : (c.st.rt.removeEntry w e gone).Warm r hookId
  · obtain ⟨hwarm₀, hout⟩ := hwarm.mp hstays
    refine iff_of_true ?_ fun _ hbelow => ?_
    · have hcaches := removeEntry_caches w gone hwf.tree hr
        (fun x hx => hwf.heap.home_lt (e := e) hx) (by rw [home_of_mods hgone]; exact hout)
      have hvec := hookVec_of_vecs (congrArg RegionCaches.vecs hcaches) hookId
      rw [listeners_warm ht' hheap' hl' hr' hstays name, hanc, hrefused, if_neg hopen, if_neg hopen,
        hvec, (hin.vecs r hr hookId hwarm₀).listed name, ← filter_listing, List.filter_filter]
      refine congrArg some (List.filter_congr fun slot hslot => ?_)
      have hmem := mem_listing hslot
      have hne : slot.me ≠ e := by
        intro heq
        rw [heq, walked_eq hwf.tree hl hr, List.mem_flatMap] at hmem
        obtain ⟨y, hy, hey⟩ := hmem
        have hhome := hwf.heap.mem_iff.mp hey
        rw [home_of_mods hgone] at hhome
        refine hout y hhome ?_
        obtain ⟨hlt, hin⟩ := (mem_subtree_iff hwf.tree hr).mp hy
        rw [parentChain_eq hwf.tree hlt]
        exact hin
      obtain ⟨me, hme, hctx⟩ := ctx_of_listing rfl hslot
      obtain ⟨me', hme', hcore, -⟩ := removeEntry_other w gone hne hme hookId
      unfold slotListens
      simp [hme', (ModEntry.eq_of_core hcore).1, hctx, hne]
    · obtain ⟨x, hx, hin⟩ := hbelow hwarm₀
      exact absurd hin (hout x hx)
  · have hbelow : c.st.rt.Warm r hookId → ∃ x ∈ gone.regionEntry, r ∈ c.st.rt.parentChain x := by
      intro hwarm₀
      by_contra hout
      exact hstays (hwarm.mpr ⟨hwarm₀, fun x hx hin => hout ⟨x, hx, hin⟩⟩)
    have hheard := fun m hm hne => heard_removeEntry (w := w) hookId hdenies hchain hne
      (hin.bitted m) (hlive m hm) name
    rw [listeners_cold ht' hheap' hl' hr' hstays name, hanc, hrefused, if_neg hopen, if_neg hopen,
      Option.some.injEq, hwalked,
      filterMap_forget e (fun _ _ hslot => heard_me hslot) (fun m hm hne => (hheard m hm hne).1)
        fun m hm hne => (hheard m hm hne).2]
    constructor
    · intro hno _ _ m hm hne hcons hf
      refine hno m hm hne ((heard_of_forgets (hin.bitted m) hf name).mpr ?_) hf
      rwa [ancChain_some hwf.tree hr] at hcons
    · intro hno m hm hne hsome hf
      refine hno (by simpa using hopen) hbelow m hm hne ?_ hf
      rw [ancChain_some hwf.tree hr]
      exact (heard_of_forgets (hin.bitted m) hf name).mp hsome

/-! ## The unload -/

theorem release_mods_of_ne (s : State) (hne : m ≠ e) : (s.release e).rt.mods m = s.rt.mods m :=
  Function.update_of_ne hne ..

theorem release_mods_self {s : State} (hme : s.rt.mods e = some me) :
    (s.release e).rt.mods e = some me.dropped := by
  show Function.update _ _ _ _ = _
  rw [Function.update_self, hme]
  rfl

/-- The reference count is nothing that a dispatch sees. -/
theorem listeners_release (hwf : c.Wf w) (hl : c.st.rt.SubtreeLists) (hin : c.st.rt.Agreed w)
    (ht' : (c.st.release e).rt.tree.Wf) (hheap' : (c.st.release e).rt.HeapWf)
    (hl' : (c.st.release e).rt.SubtreeLists) (hin' : (c.st.release e).rt.Agreed w)
    (hr : r < c.st.rt.nregions) (hookId : Nat) (name : CStr) :
    (c.st.release e).rt.listeners w r hookId name = c.st.rt.listeners w r hookId name := by
  have hwalked : (c.st.release e).rt.walked r = c.st.rt.walked r := by
    rw [walked_eq ht' hl' hr, walked_eq hwf.tree hl hr]
    rfl
  have hheard : (c.st.release e).rt.heard w r hookId name = c.st.rt.heard w r hookId name := by
    funext m
    have hslot : (c.st.release e).rt.slotOf w (c.st.rt.chain r).reverse hookId name m
        = c.st.rt.slotOf w (c.st.rt.chain r).reverse hookId name m := by
      by_cases hm : m = e
      · subst hm
        have hmods : (c.st.release m).rt.mods m = (c.st.rt.mods m).map ModEntry.dropped :=
          Function.update_self ..
        cases hme : c.st.rt.mods m with
        | none =>
          unfold slotOf
          rw [hmods, hme]
          rfl
        | some me =>
          rw [hme] at hmods
          exact slotOf_view hme hmods rfl rfl rfl rfl name
      · unfold slotOf
        rw [release_mods_of_ne c.st hm]
        rfl
    exact congrArg (Option.filter _) hslot
  rw [listeners_eq ht' hheap' hl' hin' hr, listeners_eq hwf.tree hwf.heap hl hin hr, hwalked, hheard]
  rfl

theorem forgetsNone_release (hwf : c.Wf w) (hl : c.st.rt.SubtreeLists)
    (ht' : (c.st.release e).rt.tree.Wf) (hl' : (c.st.release e).rt.SubtreeLists) :
    (c.st.release e).rt.ForgetsNone w e me.dropped ↔ c.st.rt.ForgetsNone w e me := by
  refine forall_congr' fun r => forall_congr' fun hr => forall_congr' fun hookId =>
    forall_congr' fun name => forall_congr' fun _ => ?_
  have hwalked : (c.st.release e).rt.walked r = c.st.rt.walked r := by
    rw [walked_eq ht' hl' hr, walked_eq hwf.tree hl hr]
    rfl
  have hchain : (c.st.release e).rt.parentChain = c.st.rt.parentChain :=
    funext fun x => (chainUp_eq _ _ x).trans (chainUp_eq c.st.rt c.st.rt.nregions x).symm
  have hanc : (c.st.release e).rt.ancChain (some r) = c.st.rt.ancChain (some r) := by
    rw [ancChain_some ht' hr, ancChain_some hwf.tree hr]
    rfl
  unfold ForgetsNoneAt
  rw [hwalked, hchain, hanc]
  refine imp_congr Iff.rfl (imp_congr Iff.rfl (forall_congr' fun m => forall_congr' fun _ =>
    forall_congr' fun hne => ?_))
  unfold Forgets
  rw [release_mods_of_ne c.st hne]
  exact Iff.rfl

/-- What is on top of the calls is removed, and nothing else can be done. -/
theorem step_removal {s : State} {k : List Frame} {a : Action} {ev : Event}
    (hme : s.rt.mods e = some me) (hs : step w ⟨s, .unload e [] :: k⟩ a = .next c' ev) :
    a = .tau ∧ c'.st.rt = s.rt.removeEntry w e me ∧ c'.stack.length = k.length := by
  have ha : a = .tau := by
    cases a with
    | tau => rfl
    | call q => cases hs
    | ret r => cases r <;> cases hs
  subst ha
  have hres : resume (modUnloadFinish w s e me) xyOk k = .next c' ev := by
    have htau : step w ⟨s, .unload e [] :: k⟩ .tau = resume (modUnloadFinish w s e me) xyOk k := by
      show tauUnload w s k e [] = _
      simp only [tauUnload, hme]
    rw [← htau]
    exact hs
  obtain ⟨hstill, hstack⟩ := resume_spec hres
  refine ⟨rfl, ?_, hstack.length⟩
  rw [hstill.rt]
  exact (modUnloadFinish_spec w s e me).1

/-- The removal is the only step while the call is in progress. -/
theorem Inside.of_removal {s : State} {k : List Frame} {log : List Move}
    (hme : s.rt.mods e = some me) (h : Inside w k.length ⟨s, .unload e [] :: k⟩ log c) :
    c = ⟨s, .unload e [] :: k⟩ := by
  induction h with
  | start => rfl
  | move hin hs hlen ih =>
    subst ih
    have hleft := (step_removal hme hs).2.2
    omega

/-- The unload of a module that nobody else holds, and that has loaded no other. -/
theorem CallRun.unloaded {fname : CStr} {log : List Move} {v : Value}
    (hl : c.st.find w fname = some e) (hme : c.st.rt.mods e = some me)
    (hlast : me.refcount = 1) (hnone : c.st.rt.cascadeChildren w e = [])
    (h : CallRun w c (.unload fname) log v c') :
    step w c (.call (.unload fname)) = .next ⟨c.st.release e, .unload e [] :: c.stack⟩ .internal
      ∧ step w ⟨c.st.release e, .unload e [] :: c.stack⟩ .tau = .next c' (.returned v)
      ∧ c'.st.rt = (c.st.release e).rt.removeEntry w e me.dropped := by
  have hme' := release_mods_self hme
  have hfirst : c.waiting = true → step w c (.call (.unload fname))
      = .next ⟨c.st.release e, .unload e [] :: c.stack⟩ .internal := by
    intro hw
    have hchildren : (c.st.release e).rt.cascadeChildren w e = c.st.rt.cascadeChildren w e := by
      refine List.filter_congr fun m _ => ?_
      by_cases hm : m = e
      · simp [hm]
      · rw [release_mods_of_ne c.st hm]
    unfold State.find at hl
    simp only [step, hw, if_true, beginCall, beginUnload, moduleLookupFromFname, hl, hme, hlast,
      hchildren, hnone]
    rfl
  have hw : c.waiting = true := by
    by_contra hw
    cases h <;> simp_all [step]
  replace hfirst := hfirst hw
  refine ⟨hfirst, ?_⟩
  cases h with
  | atOnce hs hk => cases hfirst.symm.trans hs
  | @later c₁ c₂ _ a ev log v hs hin hr hk =>
    cases hfirst.symm.trans hs
    obtain rfl := hin.of_removal hme'
    obtain ⟨rfl, hrt, -⟩ := step_removal hme' hr
    exact ⟨hr, hrt⟩

theorem removeEntry_undenied (w : World) {rt : Runtime} (hhome : ∀ x ∈ rt.home e, x < rt.nregions)
    (hme : rt.mods e = some me)
    (hdeny : ∀ x < rt.nregions, me.loadPath ∉ (rt.regions x).deniedModules) :
    (rt.removeEntry w e me).denies = rt.denies := by
  funext x
  rw [removeEntry_denies]
  split
  · next hx =>
    have hspare := hdeny x (hhome x (by rw [home_of_mods hme]; exact hx))
    have hsame : (rt.regions x).deniedModules.filter (· ≠ me.loadPath)
        = (rt.regions x).deniedModules := by
      refine List.filter_eq_self.mpr fun p hp => ?_
      simpa using ne_of_mem_of_not_mem hp hspare
    exact congrArg (fun l => { rt.denies x with modules := l }) hsame
  · rfl

theorem forgetsNone_of_clearsNothing {rt : Runtime} (h : rt.ClearsNothing w e me) :
    rt.ForgetsNone w e me := by
  intro r hr hookId name _ _ _ m _ hne _ hf
  obtain ⟨hin, me', hme', hmapped⟩ := hf
  unfold ModEntry.fnCell at hmapped
  rw [List.getD_eq_getElem?_getD] at hmapped
  cases hcell : me'.fnCache[hookId]? with
  | none =>
    rw [hcell] at hmapped
    cases hmapped
  | some cell =>
    rw [hcell, Option.getD_some, h m hin hne me' hme' cell (List.mem_of_getElem? hcell)] at hmapped
    cases hmapped

/-- The unload of a module that nobody else holds, that has loaded no other and that no
deny names.  The listeners of the others stay if and only if no dispatch that has to
rebuild its vector comes to a callback that is cleared, and so they do if none is
cleared. -/
theorem keepsListeners_iff {fname : CStr} {log : List Move} {v : Value}
    (h : ReachableBy w (VectorsKept w) c) (hbumps : c.st.rt.BumpsLeft)
    (hl : c.st.find w fname = some e) (hme : c.st.rt.mods e = some me) (hlast : me.refcount = 1)
    (hnone : c.st.rt.cascadeChildren w e = [])
    (hdeny : ∀ x < c.st.rt.nregions, me.loadPath ∉ (c.st.rt.regions x).deniedModules)
    (hrun : CallRun w c (.unload fname) log v c') :
    (KeepsListeners w c.st.rt c'.st.rt e ↔ c.st.rt.ForgetsNone w e me)
      ∧ (c.st.rt.ClearsNothing w e me → KeepsListeners w c.st.rt c'.st.rt e) := by
  obtain ⟨hfirst, hlater, hrt⟩ := hrun.unloaded hl hme hlast hnone
  have hreleased : ReachableBy w (VectorsKept w) ⟨c.st.release e, .unload e [] :: c.stack⟩ :=
    h.step ⟨hbumps, trivial⟩ ⟨_, hfirst⟩
  have hwf : c.Wf w := .of_reachable h
  have hwf' := Config.Wf.of_reachable hreleased
  have hlists := subtreeLists_of_reachable h
  have hlists' := subtreeLists_of_reachable hreleased
  have hin := agreed_of_vectorsKept h
  have hin' := agreed_of_vectorsKept hreleased
  have hme' : (c.st.release e).rt.mods e = some me.dropped := release_mods_self hme
  have heff : Effect w ⟨c.st.release e, .unload e [] :: c.stack⟩ .tau
      ((c.st.release e).rt.removeEntry w e me.dropped) := by
    rw [← hrt]
    exact (Step.of_step hlater).effect hwf'
  have hdenies := removeEntry_undenied w (fun x hx => hwf'.heap.home_lt hx) hme' hdeny
  have hiff : KeepsListeners w c.st.rt c'.st.rt e ↔ c.st.rt.ForgetsNone w e me := by
    rw [← forgetsNone_release hwf hlists hwf'.tree hlists', hrt]
    refine forall_congr' fun r => forall_congr' fun hr => forall_congr' fun hookId =>
      forall_congr' fun name => forall_congr' fun _ => ?_
    rw [← listeners_release hwf hlists hin hwf'.tree hwf'.heap hlists' hin' hr hookId name]
    exact Effect.listeners_removeEntry (c := ⟨c.st.release e, .unload e [] :: c.stack⟩) hwf'
      hlists' hin' hbumps hme' hdenies heff hr
  exact ⟨hiff, fun hclear => hiff.mpr (forgetsNone_of_clearsNothing hclear)⟩

end

/-- A module in a region of its own, and one in the root. -/
def regionAndRoot (fname : CStr) (h : Handle) : List Action :=
  [.call (.areg sampleHook 0), .call (.claimAt 0x1000000000000 16 none)] ++ loadRun sampleFile 1
    ++ [.call (.claimAt 0 0 none)] ++ loadRun fname h

/-- The one in the root is another object. -/
theorem keepsListeners_of_two_objects :
    let c := runChecked sampleWorld (VectorsKept sampleWorld) (Config.boot sampleHook)
      (regionAndRoot sampleFile' 2)
    let c' := (c.after sampleWorld [.call (.unload sampleFile')]).after sampleWorld [.tau]
    (c.st.rt.listeners sampleWorld 0 0 sampleHook).map (·.map (·.me)) = some [1, 0]
      ∧ KeepsListeners sampleWorld c.st.rt c'.st.rt 1 := by
  intro c c'
  have hreach : ReachableBy sampleWorld (VectorsKept sampleWorld) c :=
    ReachableBy.checked (.start (Config.boot_initial _)) _
  obtain ⟨me, hme⟩ : ∃ me, c.st.rt.mods 1 = some me :=
    Option.isSome_iff_exists.mp (by decide +kernel)
  have hcount : ∀ me ∈ c.st.rt.mods 1, me.refcount = 1 := by decide +kernel
  have hclear : ∀ me ∈ c.st.rt.mods 1, c.st.rt.ClearsNothing sampleWorld 1 me := by decide +kernel
  have hdeny : ∀ x < c.st.rt.nregions, (c.st.rt.regions x).deniedModules = [] := by decide +kernel
  have hbumps : c.st.rt.BumpsLeft := by
    unfold Runtime.BumpsLeft
    decide +kernel
  have hfind : c.st.find sampleWorld sampleFile' = some 1 := by decide +kernel
  have halone : c.st.rt.cascadeChildren sampleWorld 1 = [] := by decide +kernel
  have hrun : CallRun sampleWorld c (.unload sampleFile') _ (.int xyOk) c' :=
    .of_actions (l := []) (a := .tau) (List.length_eq_zero_iff.mp (by decide +kernel))
      (by decide +kernel) (by decide +kernel) (by decide +kernel)
  have hkeeps := keepsListeners_iff hreach hbumps hfind hme (hcount me hme) halone
    (fun x hx => by rw [hdeny x hx]; simp) hrun
  exact ⟨by decide +kernel, hkeeps.2 (hclear me hme)⟩

/-- The one in the root is the same object, so that its unload clears the callback of
the other, and no dispatch comes to it any more. -/
theorem not_keepsListeners_of_shared_object :
    ∃ c log c', Reachable sampleWorld c ∧ c.st.find sampleWorld sampleFile = some 1
      ∧ (c.st.rt.mods 1).map (·.refcount) = some 1 ∧ c.st.rt.cascadeChildren sampleWorld 1 = []
      ∧ (∀ x < c.st.rt.nregions, (c.st.rt.regions x).deniedModules = [])
      ∧ CallRun sampleWorld c (.unload sampleFile) log (.int xyOk) c'
      ∧ (c.st.rt.listeners sampleWorld 0 0 sampleHook).map (·.map (·.me)) = some [1, 0]
      ∧ (c'.st.rt.listeners sampleWorld 0 0 sampleHook).map (·.map (·.me)) = some []
      ∧ ¬ KeepsListeners sampleWorld c.st.rt c'.st.rt 1 := by
  let c := (Config.boot sampleHook).after sampleWorld (regionAndRoot sampleFile 1)
  let c' := (c.after sampleWorld [.call (.unload sampleFile)]).after sampleWorld [.tau]
  have hrun : CallRun sampleWorld c (.unload sampleFile) _ (.int xyOk) c' :=
    .of_actions (l := []) (a := .tau) (List.length_eq_zero_iff.mp (by decide +kernel))
      (by decide +kernel) (by decide +kernel) (by decide +kernel)
  have hbefore : (c.st.rt.listeners sampleWorld 0 0 sampleHook).map (·.map (·.me))
      = some [1, 0] := by decide +kernel
  have hafter : (c'.st.rt.listeners sampleWorld 0 0 sampleHook).map (·.map (·.me)) = some [] := by
    decide +kernel
  refine ⟨c, _, c', ReachableBy.after (.start (Config.boot_initial _)) fun _ _ _ => trivial,
    by decide +kernel, by decide +kernel, by decide +kernel, by decide +kernel, hrun, hbefore,
    hafter, fun hkeeps => ?_⟩
  have hnumber : c.st.rt.hookIdHd.lookup sampleHook = some 0 := by decide +kernel
  have hone := congrArg (Option.map (List.map DispatchSlot.me))
    (hkeeps 0 (by decide +kernel) 0 sampleHook hnumber)
  exact absurd hone (by decide +kernel)

end Xylem
