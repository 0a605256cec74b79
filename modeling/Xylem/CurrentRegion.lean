import Xylem.Calls

/-!
# The region a listener is entered in

`xy_dispatch` enters a listener of another region with two variables: the id,
read from the module's context, and the region entry, read from the module
entry.  A context belongs to a shared object and not to an entry, so that two
entries of one object share it; `KeepsRegions` says of a step that it leaves
every context with the id of all entries bound to it.

`InPlace` is the invariant: the current region and all saved ones are regions,
and each entry, its context and the region that lists it agree.
-/

namespace Xylem

open Xylem.Runtime

/-- The entries bound to a context, other than `e`, have the region id `id`. -/
def Runtime.BoundIn (rt : Runtime) (ctx : CtxRef) (id : RegionId) (e : Option EntryRef) : Prop :=
  ∀ x < rt.nmods, some x ≠ e → ∀ me ∈ rt.mods x, me.ctx = some ctx → me.regionId = id

instance (rt : Runtime) (ctx : CtxRef) (id : RegionId) (e : Option EntryRef) :
    Decidable (rt.BoundIn ctx id e) := by
  unfold Runtime.BoundIn; infer_instance

/-- What a step has to heed.

* A load that binds a context finds it bound to entries of its own region id
  only.
* A re-keying finds an entry that is not linked, and whose context is bound to
  no other entry but of the child's id.
* A reload puts the entry that it finds back into the region of that entry.
* A listener returns with the current region it was entered with. -/
def KeepsRegions (w : World) (c : Config) (a : Action) : Prop :=
  match c.stack, a with
  | .load tx .bind :: _, .tau =>
    modLoadCheckCtxAbi w tx = xyOk →
      ∀ ctx ∈ modLoadCtx w c.st tx, c.st.rt.BoundIn ctx tx.inheritedRegionId none
  | .load tx (.rekey child) :: _, .tau =>
    ∀ e ∈ c.st.rt.modHd.lookup tx.lookup.key, ∀ me ∈ c.st.rt.mods e,
      me.regionEntry = none ∧ ∀ ctx ∈ me.ctx, c.st.rt.BoundIn ctx child.id (some e)
  | .reload rl (.loaded _) :: _, .tau =>
    ∀ e ∈ c.st.rt.modHd.lookup (modKey (w.loadPath rl.fname) rl.id rl.plen),
      ∀ me ∈ c.st.rt.mods e, ∀ r ∈ rl.re,
        (c.st.rt.regions r).key = ⟨me.regionId, me.regionPlen⟩
  | .dispatch d (some _) :: _, .ret (.listened _) => c.st.tls.current = d.atEntry
  | _, _ => True

instance (w : World) (c : Config) (a : Action) : Decidable (KeepsRegions w c a) := by
  unfold KeepsRegions
  split <;> infer_instance

/-! ## The invariant -/

/-- The id and the entry of a current region are of one region. -/
def Runtime.Names (rt : Runtime) (cur : CurrentRegion) : Prop :=
  ∃ r < rt.nregions, cur.entry = some r ∧ (rt.regions r).id = cur.id

/-- The entry is in the list of a region, or it has been freed. -/
def Runtime.Homed (rt : Runtime) (e : EntryRef) (r : RegionRef) : Prop :=
  e < rt.nmods ∧ ∀ me, rt.mods e = some me → me.regionEntry = some r

/-- The current region at the head of the loop of a dispatch. -/
def Dispatch.home (d : Dispatch) : CurrentRegion := ⟨d.regionId, some d.caller⟩

/-- The current region after a listener that leaves `cur`. -/
def Dispatch.restored (d : Dispatch) (cur : CurrentRegion) : CurrentRegion :=
  if d.selfOnly = false ∧ d.regionChanged = true then ⟨d.regionId, d.prevEntry⟩ else cur

/-- What the calls in progress have saved. -/
def Frame.InPlace (rt : Runtime) : Frame → Prop
  | .load tx _ => (tx.contextActive = true → rt.Names tx.prevRegion)
      ∧ ∃ r < rt.nregions, (rt.regions r).key = tx.inheritedKey
  | .scope prev => rt.Names prev
  | .dispatch d running => rt.Names d.home
      ∧ (d.selfOnly = true → ∀ e ∈ running.orElse (fun _ => d.me), rt.Homed e d.caller)
      ∧ (running ≠ none → d.restored d.atEntry = d.home)
  | _ => True

/-- What the call on top relies on as it moves. -/
def Config.TopInPlace (c : Config) : Prop :=
  match c.stack with
  | .dispatch d none :: _ => c.st.tls.current = d.home
  | .load tx .bind :: _ =>
    ∀ e ∈ tx.modEntry, ∀ me, c.st.rt.mods e = some me → me.regionId = tx.inheritedRegionId
  | _ => True

/-- The identity of an entry is that of the region that lists it, and its context
has the same id. -/
structure State.EntryInPlace (s : State) (me : ModEntry) : Prop where
  region : ∀ r ∈ me.regionEntry, (s.rt.regions r).key = ⟨me.regionId, me.regionPlen⟩
  ctx : ∀ ctx ∈ me.ctx, (s.ctxs ctx).regionId = me.regionId

structure Config.InPlace (c : Config) : Prop where
  current : c.st.rt.Names c.st.tls.current
  entries : ∀ e me, c.st.rt.mods e = some me → c.st.EntryInPlace me
  frames : ∀ f ∈ c.stack, f.InPlace c.st.rt
  top : c.TopInPlace

section

variable {w : World} {c c' : Config} {a : Action} {ev : Event} {rt rt' : Runtime} {x : EntryRef}
  {me' : ModEntry}

theorem Runtime.Names.keep {cur : CurrentRegion} (h : rt.Names cur) (hk : rt.RegionsKept rt') :
    rt'.Names cur := by
  obtain ⟨r, hr, hentry, hid⟩ := h
  exact ⟨r, Nat.lt_of_lt_of_le hr hk.count, hentry,
    (congrArg RegionKey.id (hk.key r hr)).trans hid⟩

/-! ## Entries -/

theorem modLoadBindXy_refused {s : State} {tx : LoadTxn} (h : modLoadCheckCtxAbi w tx ≠ xyOk) :
    (modLoadBindXy w s tx).1.rt = s.rt ∧ (modLoadBindXy w s tx).1.ctxs = s.ctxs := by
  unfold modLoadBindXy
  dsimp only
  split
  · rw [if_pos h]
    exact ⟨rfl, rfl⟩
  · exact ⟨rfl, rfl⟩

theorem KeepsRegions.leavesListed {me : ModEntry} (hok : KeepsRegions w c a)
    (hme : c.st.rt.mods x = some me) : c.LeavesListed w a x me where
  rekey tx k child ha hstack hl := by
    subst ha
    unfold KeepsRegions at hok
    rw [hstack] at hok
    exact (hok x hl me hme).1
  reload rl k r ha hstack hl hre := by
    subst ha
    unfold KeepsRegions at hok
    rw [hstack] at hok
    exact hok x hl me hme r hre

/-- The context of an entry that is live after a step. -/
theorem Step.entryCtx (hwf : c.Wf w) (hok : KeepsRegions w c a)
    (hin : ∀ e me, c.st.rt.mods e = some me → c.st.EntryInPlace me) (htop : c.TopInPlace)
    (hs : step w c a = .next c' ev) (hx : c'.st.rt.mods x = some me') :
    ∀ ctx ∈ me'.ctx, (c'.st.ctxs ctx).regionId = me'.regionId := by
  have h := Step.of_step hs
  have heff := h.effect hwf
  intro ctx₁ hctx₁
  cases h.ctxs hwf with
  | same hctxs hbind hrekey =>
    rw [hctxs]
    rcases heff.entry hx with ⟨tx, k, -, -, -, -, rfl⟩ | ⟨me, hme, hch⟩
    · cases hctx₁
    · have hold := (hin x me hme).ctx
      have hctx₂ : me'.core.ctx = some ctx₁ := hctx₁
      show _ = me'.core.regionId
      generalize hm : me'.core = m at hch hctx₂ ⊢
      cases hch with
      | same | refcount | link | reinsert => exact hold ctx₁ hctx₂
      | bind ha hstack =>
        rw [hbind _ _ ha hstack] at hx
        rw [← hm]
        exact (hin x me' hx).ctx ctx₁ hctx₁
      | rekey ha hstack hl =>
        have hnone := hrekey _ _ _ ha hstack x hl
        rw [hme] at hnone
        exact absurd (hctx₂.symm.trans hnone) (by simp)
  | @bind tx k e ctx ha hstack he hctx hrt hctxs =>
    subst ha
    by_cases habi : modLoadCheckCtxAbi w tx = xyOk
    · unfold KeepsRegions at hok
      rw [hstack] at hok
      have hbound := hok habi ctx hctx
      rw [hrt] at hx
      obtain ⟨me, hme, rfl⟩ := modifyMod_some hx
      rw [hctxs]
      by_cases hxe : x = e
      · subst hxe
        rw [if_pos rfl] at hctx₁ ⊢
        obtain rfl : ctx = ctx₁ := Option.some.inj hctx₁
        unfold Config.TopInPlace at htop
        rw [hstack] at htop
        rw [Function.update_self]
        exact (htop x he me hme).symm
      · rw [if_neg hxe] at hctx₁ ⊢
        by_cases hc : ctx₁ = ctx
        · subst hc
          rw [Function.update_self]
          exact (hbound x (hwf.heap.lt_of_mods hme) (by simp) me hme hctx₁).symm
        · rw [Function.update_of_ne hc]
          exact (hin x me hme).ctx ctx₁ hctx₁
    · obtain ⟨hrt', hctxs'⟩ := modLoadBindXy_refused (s := c.st) habi
      have hst : c'.st = (modLoadBindXy w c.st tx).1 := by
        simp only [step, tau, hstack, tauLoad] at hs
        cases hs
        rfl
      rw [hst] at hx ⊢
      rw [hrt'] at hx
      rw [hctxs']
      exact (hin x me' hx).ctx ctx₁ hctx₁
  | @rekey tx k child e me₀ ctx ha hstack hl hme₀ hctx hrt hctxs =>
    subst ha
    unfold KeepsRegions at hok
    rw [hstack] at hok
    have hbound := (hok e hl me₀ hme₀).2 ctx hctx
    have hx' : (c.st.rt.modifyMod e fun me => { me with
        regionId := child.id, regionPlen := child.plen
        modKey := modKey (w.loadPath tx.fname) child.id child.plen }).mods x = some me' := by
      rw [hrt] at hx
      exact hx
    obtain ⟨me, hme, rfl⟩ := modifyMod_some hx'
    rw [hctxs]
    by_cases hxe : x = e
    · subst hxe
      rw [hme₀] at hme
      cases hme
      rw [if_pos rfl] at hctx₁ ⊢
      obtain rfl : ctx = ctx₁ := Option.some.inj (hctx.symm.trans hctx₁)
      rw [Function.update_self]
    · rw [if_neg hxe] at hctx₁ ⊢
      by_cases hc : ctx₁ = ctx
      · subst hc
        rw [Function.update_self]
        have hid := hbound x (hwf.heap.lt_of_mods hme) (by simpa using hxe) me hme hctx₁
        exact hid.symm
      · rw [Function.update_of_ne hc]
        exact (hin x me hme).ctx ctx₁ hctx₁
  | @inject d d' k e me₀ ctx ha hstack hstack' hme₀ hctx hctxs =>
    have hid : (c'.st.ctxs ctx₁).regionId = (c.st.ctxs ctx₁).regionId := by
      rw [hctxs]
      by_cases hc : ctx₁ = ctx
      · subst hc
        rw [Function.update_self]
      · rw [Function.update_of_ne hc]
    rw [hid]
    rcases heff.entry hx with ⟨tx, k, -, hload, -, -, -⟩ | ⟨me, hme, hch⟩
    · rw [hstack] at hload
      cases hload
    · have hctx₂ : me'.core.ctx = some ctx₁ := hctx₁
      show _ = me'.core.regionId
      generalize me'.core = m at hch hctx₂ ⊢
      cases hch with
      | same | refcount => exact (hin x me hme).ctx ctx₁ hctx₂
      | bind ha hload | rekey ha hload | link ha hload | reinsert ha hload =>
        rw [hstack] at hload
        cases hload

/-- A linked entry stays where it is. -/
theorem Runtime.Homed.keep {r : Nat} (hwf : c.Wf w) (hok : KeepsRegions w c a)
    (hin : ∀ e me, c.st.rt.mods e = some me → c.st.EntryInPlace me) (h : Effect w c a rt')
    (hhome : c.st.rt.Homed x r) (hr : r < c.st.rt.nregions) : rt'.Homed x r := by
  refine ⟨Nat.lt_of_lt_of_le hhome.1 (h.nmods_le hwf), fun me' hme' => ?_⟩
  rcases h.entry hme' with ⟨tx, k, -, -, -, rfl, -⟩ | ⟨me, hme, hch⟩
  · exact absurd hhome.1 (Nat.lt_irrefl _)
  · have hlisted := hhome.2 me hme
    have hreg := fun {r'} =>
      hch.region (r := r') hwf (hok.leavesListed hme) hme (hin x me hme).region
    show me'.core.regionEntry = some r
    generalize me'.core = m at hch hreg ⊢
    cases hch with
    | same | refcount | bind | rekey => exact hlisted
    | link ha hstack hx hun => exact absurd (hlisted.symm.trans hun) (by simp)
    | @reinsert rl k r' ha hstack hl hre =>
      obtain ⟨hlt, hkey⟩ := hreg rfl
      have hold := (hin x me hme).region r hlisted
      exact congrArg some (hwf.tree.key_inj hlt hr (hkey.trans hold.symm))

/-! ## The current region -/

theorem callDirect_names {q : Call} {s s' : State} {v : Value} (ht : s.rt.tree.Wf)
    (hcur : s.rt.Names s.tls.current) (hk : s.rt.RegionsKept s'.rt)
    (h : callDirect w s q = some (s', v)) : s'.rt.Names s'.tls.current := by
  rcases (callDirect_keeps h).2 with heq | ⟨id, plen, fn, rfl⟩
  · rw [heq]
    exact hcur.keep hk
  · obtain rfl : (xyClaimAt s id plen fn).1 = s' := congrArg Prod.fst (Option.some.inj h)
    rcases xyClaimAt_current ht id plen fn with heq | ⟨r, hr, heq, hid⟩
    · rw [heq]
      exact hcur.keep hk
    · rw [heq]
      exact ⟨r, hr, rfl, hid⟩

/-- The current region of a load is the one it loads into. -/
theorem modLoadEnterContext_names {s : State} {tx : LoadTxn} (ht : s.rt.tree.Wf)
    (hin : ∃ r < s.rt.nregions, (s.rt.regions r).key = tx.inheritedKey) :
    s.rt.Names (modLoadEnterContext s tx).1.tls.current := by
  obtain ⟨r, hr, hkey⟩ := hin
  have hl : s.rt.regionLookup tx.inheritedRegionId tx.inheritedRegionPlen = some r :=
    (Runtime.regionLookup_eq_some ht).mpr ⟨hr, hkey⟩
  exact ⟨r, hr, hl, congrArg RegionKey.id hkey⟩

/-- After every step the current region is a region, with its id. -/
theorem Step.names (hwf : c.Wf w) (hcells : c.st.rt.CellsSettled) (hin : c.InPlace)
    (h : Step w c a c' ev) : c'.st.rt.Names c'.st.tls.current := by
  have hcur := hin.current
  have hframes := hin.frames
  have heff := h.effect hwf
  have hkeep : ∀ {cur : CurrentRegion}, c.st.rt.Names cur → a ≠ .call .shutdown →
      c'.st.tls.current = cur → c'.st.rt.Names c'.st.tls.current :=
    fun hnames hne heq => heq ▸ hnames.keep (heff.kept hne)
  cases h with
  | answered => exact hcur
  | load | eachFirst | dlopened | publish | notGranted | link
  | installMissing | install | cascadeSkip | reloadLoad | reinsert | reloadEnd
  | selfSkip | selfDeaf | slotSkip | eachNext | eachEnd => exact hkeep hcur (by simp) rfl
  | unload hw hu => exact hkeep hcur (by simp) hu.current
  | reload hw hl hme hu => exact hkeep hcur (by simp) hu.current
  | cascade hme hp hs hu => exact hkeep hcur (by simp) hu.current
  | scope hw hl =>
    obtain ⟨hlt, hkey⟩ := (regionLookup_eq_some hwf.tree).mp hl
    exact ⟨_, hlt, rfl, congrArg RegionKey.id hkey⟩
  | direct hw hq =>
    exact callDirect_names hwf.tree hcur (heff.kept (by rintro ⟨⟩; cases hq)) hq
  | dispatchDone hw hd => exact hkeep hcur (by simp) (dispatchBegin_done hd).current
  | dispatchLoop hw hd => exact hkeep hcur (by simp) (dispatchBegin_loop hd).current
  | @shutdown s =>
    obtain ⟨hrt, -, hroot, -⟩ := xyShutdown_spec w s
    refine ⟨0, ?_, congrArg CurrentRegion.entry hroot, ?_⟩
    · rw [hrt]
      exact Nat.one_pos
    · rw [hrt, hroot]
      rfl
  | dlopenFailed hr => exact hkeep hcur (by simp) (resume_spec hr).1.current
  | reuse hl hme hr => exact hkeep hcur (by simp) (resume_spec hr).1.current
  | bind => exact hkeep hcur (by simp) (modLoadBindXy_spec ..).1
  | @claimFlat s k tx | @claimRefused s k tx | @claimAsked s k tx =>
    have hload : Frame.InPlace s.rt (.load tx .claim) := hframes _ List.mem_cons_self
    exact modLoadEnterContext_names hwf.tree hload.2
  | @granted s s' k tx parent ret bits child hg =>
    have hlt : parent < s.rt.nregions := (hwf.top rfl : tx.Ok w s.rt (.handler parent)).handler _ rfl
    obtain ⟨-, -, -, -, hs'⟩ := xyClaimGranted_ok hg
    have hnew : ((s.rt.tree.add parent child.id child.plen bits).node s.rt.tree.count).key
        = ⟨child.id, child.plen⟩ := Tree.add_key_new hlt
    rw [← addRegion_tree s.rt parent child.id child.plen bits none] at hnew
    subst hs'
    exact ⟨s.rt.nregions, Nat.lt_succ_self _, rfl, congrArg RegionKey.id hnew⟩
  | rekey =>
    exact hkeep hcur (by simp) (congrArg Tls.current (moduleRekeyForClaim_spec ..).1)
  | @installed s k tx prev c' ev hr =>
    have hload : Frame.InPlace s.rt (.load tx (.installing prev)) := hframes _ List.mem_cons_self
    have hback := (resume_spec hr).1.current.trans (modLoadRestoreContext_spec _ tx).2.2.2.2
    split at hback
    · next hactive => exact hkeep (hload.1 hactive) (by simp) hback
    · exact hkeep hcur (by simp) hback
  | @abort s s' k tx err c' ev ha hr =>
    have hload : Frame.InPlace s.rt (.load tx (.aborting err)) := hframes _ List.mem_cons_self
    have htx : tx.Ok w s.rt (.aborting err) := hwf.top rfl
    obtain ⟨e, he, -⟩ := htx.late rfl
    obtain ⟨-, -, -, -, -, hback⟩ := modLoadAbort_spec he ha
    rw [← (resume_spec hr).1.current] at hback
    split at hback
    · next hactive => exact hkeep (hload.1 hactive) (by simp) hback
    · exact hkeep hcur (by simp) hback
  | remove hme hr =>
    exact hkeep hcur (by simp)
      ((resume_spec hr).1.current.trans (modUnloadFinish_spec ..).2.2.1)
  | dispatchEnd hend => exact hkeep hcur (by simp) (still_dispatchEnd ..).current
  | selfEnter hself he hme hc hd hh hs' => exact hkeep hcur (by simp) (hs' ▸ rfl)
  | @slotEnter s k d d' slot me ctx s' hself hmi hslots hcell hme hc hcb hd' hs' =>
    have hdis : Frame.Ok w s.rt (.dispatch d none) := hwf.top rfl
    have hentry := hin.entries _ me hme
    subst hs'
    unfold Dispatch.switch
    split
    · obtain ⟨r, hr⟩ := Option.ne_none_iff_exists'.mp
        ((hcells _ hdis.1 _ _ (List.mem_of_getElem? hcell)).2 me hme)
      have hlt := hwf.heap.home_lt ((Runtime.home_of_mods hme).trans hr)
      have hid : (s.rt.regions r).id = (s.ctxs ctx).regionId :=
        (congrArg RegionKey.id (hentry.region r hr)).trans (hentry.ctx ctx hc).symm
      refine ⟨r, hlt, hr, ?_⟩
      show (s.rt.regions r).id = ((injectCtx s ctx d.reg me).ctxs ctx).regionId
      rw [hid]
      simp [injectCtx]
    · exact hcur
  | selfListened => exact hkeep hcur (by simp) (State.still_writeBuf ..).current
  | @slotListened s s' k d e bytes hself hs' =>
    have hdis : Frame.InPlace s.rt (.dispatch d (some e)) := hframes _ List.mem_cons_self
    subst hs'
    by_cases hch : d.regionChanged = true
    · have hback := hdis.2.2 (by simp)
      unfold Dispatch.restored at hback
      rw [if_pos ⟨hself, hch⟩] at hback
      refine hkeep (hback ▸ hdis.1) (by simp) ?_
      simp [hch, State.lastPublish]
    · refine hkeep hcur (by simp) ?_
      simp [hch, State.lastPublish, (State.still_writeBuf ..).current]
  | @scopeEnd s k prev ret =>
    have hscope : Frame.InPlace s.rt (.scope prev) := hframes _ List.mem_cons_self
    exact hkeep hscope (by simp) rfl

/-! ## Calls in progress -/

/-- What a call has saved goes on holding. -/
theorem Frame.InPlace.keep (hwf : c.Wf w) (hok : KeepsRegions w c a) (hin : c.InPlace)
    (h : Effect w c a rt') (hne : a ≠ .call .shutdown) {f : Frame} (hf : f.Ok w c.st.rt)
    (hplace : f.InPlace c.st.rt) : f.InPlace rt' := by
  have hkept := h.kept hne
  cases f with
  | load tx pc =>
    obtain ⟨hprev, r, hr, hkey⟩ := hplace
    exact ⟨fun hactive => (hprev hactive).keep hkept, r, Nat.lt_of_lt_of_le hr hkept.count,
      (hkept.key r hr).trans hkey⟩
  | dispatch d running =>
    obtain ⟨hhome, hlist, hback⟩ := hplace
    exact ⟨hhome.keep hkept,
      fun hself e he => (hlist hself e he).keep hwf hok hin.entries h hf.1, hback⟩
  | scope prev => exact Runtime.Names.keep hplace hkept
  | unload | reload | each => trivial

theorem Runtime.HeapWf.homed {r : RegionRef} (hheap : rt.HeapWf) (hx : x ∈ rt.modsOf r) :
    rt.Homed x r := by
  refine ⟨(hheap.settled hx).1, fun me hme => ?_⟩
  rw [← Runtime.home_of_mods hme]
  exact hheap.mem_iff.mp hx

/-- The entry that the exact-region loop goes on with. -/
theorem Runtime.Homed.next {r : Nat} {e : EntryRef} {me : ModEntry} (hheap : rt.HeapWf)
    (h : rt.Homed e r) (hme : rt.mods e = some me) :
    ∀ x ∈ rt.regionNext e me, rt.Homed x r := by
  intro x hx
  unfold regionNext at hx
  rw [h.2 me hme] at hx
  exact hheap.homed (mem_of_nextIn hx)

/-- The transaction of a load that begins. -/
theorem modLoadStart_inPlace {s : State} (hcur : s.rt.Names s.tls.current) (fname : CStr) :
    Frame.InPlace s.rt (.load (modLoadStart w s fname) .opening) := by
  obtain ⟨r, hr, hentry, hid⟩ := hcur
  refine ⟨fun h => Bool.noConfusion h, r, hr, ?_⟩
  simp only [modLoadStart, LoadTxn.inheritedKey, RegionNode.key, State.regionCurrentPlen, hentry,
    hid]

/-- After every step, what the calls in progress have saved is in place. -/
theorem Step.framesInPlace (hwf : c.Wf w) (hok : KeepsRegions w c a) (hin : c.InPlace)
    (h : Step w c a c' ev) : ∀ f ∈ c'.stack, f.InPlace c'.st.rt := by
  have heff := h.effect hwf
  have hcur := hin.current
  have htop := hin.top
  have hold : a ≠ .call .shutdown → ∀ f ∈ c.stack, f.InPlace c'.st.rt := fun hne f hf =>
    (hin.frames f hf).keep hwf hok hin heff hne (hwf.stack.ok f hf)
  have hpush : ∀ {f : Frame} {k : List Frame}, f.InPlace c'.st.rt →
      (∀ g ∈ k, g.InPlace c'.st.rt) → ∀ g ∈ f :: k, g.InPlace c'.st.rt :=
    fun hf hk => List.forall_mem_cons.mpr ⟨hf, hk⟩
  have htail : a ≠ .call .shutdown → ∀ f ∈ c.stack.tail, f.InPlace c'.st.rt :=
    fun hne f hf => hold hne f (List.mem_of_mem_tail hf)
  have hreload : ∀ rl pc, Frame.InPlace c'.st.rt (.reload rl pc) := fun _ _ => trivial
  have hunload : ∀ e l, Frame.InPlace c'.st.rt (.unload e l) := fun _ _ => trivial
  cases h with
  | answered => exact hin.frames
  | shutdown => exact fun f hf => (List.not_mem_nil hf).elim
  | load => exact hpush (modLoadStart_inPlace hcur _) hin.frames
  | unload hw hu => exact hu.forall hreload hunload (hold (by simp))
  | reload hw hl hme hu => exact hu.forall hreload hunload (hpush trivial (hold (by simp)))
  | scope => exact hpush hcur hin.frames
  | eachFirst => exact hpush trivial hin.frames
  | direct hw hq => exact hold (by rintro ⟨⟩; cases hq)
  | dispatchDone => exact hold (by simp)
  | @dispatchLoop _ retp reg exactOnly s d hw hd =>
    have hstart := dispatchBegin_loop hd
    refine hpush ⟨?_, fun hself e he => ?_, fun hne => absurd rfl hne⟩ (hold (by simp))
    · obtain ⟨r, hr, hentry, hid⟩ := hcur
      have hcaller : some d.caller = some r := by
        rw [← hstart.caller, State.callerRegion, hentry]
        rfl
      have hnames : c.st.rt.Names d.home :=
        ⟨r, hr, hcaller, hid.trans hstart.regionId.symm⟩
      exact hnames.keep (heff.kept (by simp))
    · have hexact : exactOnly = true := hstart.selfOnly.symm.trans hself
      obtain ⟨hrt, hme, -⟩ := hstart.self hexact
      have hmem : e ∈ c.st.rt.modsOf d.caller := by
        have he' : d.me = some e := he
        exact List.mem_of_mem_head? (hme.symm.trans he')
      show s.rt.Homed e d.caller
      rw [hrt]
      exact hwf.heap.homed hmem
  | dlopenFailed hr => exact (resume_spec hr).2.forall hreload (htail (by simp))
  | reuse hl hme hr => exact (resume_spec hr).2.forall hreload (htail (by simp))
  | installed hr => exact (resume_spec hr).2.forall hreload (htail (by simp))
  | abort ha hr => exact (resume_spec hr).2.forall hreload (htail (by simp))
  | remove hme hr => exact (resume_spec hr).2.forall hreload (htail (by simp))
  | @dlopened s k tx | @publish s k tx | @bind s k tx | @notGranted s k tx | @granted s s' k tx
  | @rekey s k tx | @link s k tx | @installMissing s k tx | @install s k tx =>
    have hload := hold (by simp) _ List.mem_cons_self
    exact hpush hload (htail (by simp))
  | @claimFlat s k tx | @claimRefused s k tx | @claimAsked s k tx =>
    have hload : Frame.InPlace s.rt (.load tx .claim) := hin.frames _ List.mem_cons_self
    exact hpush ⟨fun _ => hcur, hload.2⟩ (htail (by simp))
  | cascadeSkip => exact hpush trivial (htail (by simp))
  | cascade hme hp hs hu => exact hu.forall hreload hunload (hpush trivial (htail (by simp)))
  | reloadLoad =>
    exact hpush (modLoadStart_inPlace hcur _) (hpush trivial (htail (by simp)))
  | reinsert | reloadEnd | dispatchEnd | scopeEnd | eachEnd => exact htail (by simp)
  | eachNext => exact hpush trivial (htail (by simp))
  | @selfSkip s k d e me hself he hme =>
    have hdis : Frame.InPlace s.rt (.dispatch d none) := hin.frames _ List.mem_cons_self
    refine hpush ⟨hdis.1, fun _ => ?_, fun hne => absurd rfl hne⟩ (htail (by simp))
    exact (hdis.2.1 hself e he).next hwf.heap hme
  | @selfDeaf s k d e me ctx hself he hme hc hd hh =>
    have hdis : Frame.InPlace s.rt (.dispatch d none) := hin.frames _ List.mem_cons_self
    refine hpush ⟨hdis.1, fun _ x hx => ?_, fun hne => absurd rfl hne⟩ (htail (by simp))
    have hnext := (hdis.2.1 hself e he).next hwf.heap hme x hx
    exact hnext.keep hwf hok hin.entries heff (hwf.top rfl : Frame.Ok w s.rt (.dispatch d none)).1
  | @selfEnter s k d e me ctx s' hself he hme hc hd hh hs' =>
    have hdis : Frame.InPlace s.rt (.dispatch d none) := hin.frames _ List.mem_cons_self
    have hcaller : d.caller < s.rt.nregions :=
      (hwf.top rfl : Frame.Ok w s.rt (.dispatch d none)).1
    refine hpush ⟨hdis.1.keep (heff.kept (by simp)), fun _ x hx => ?_, fun _ => ?_⟩
      (htail (by simp))
    · cases hx
      exact (hdis.2.1 hself e he).keep hwf hok hin.entries heff hcaller
    · have hhead : s.tls.current = d.home := htop
      unfold Dispatch.restored
      rw [if_neg (by simp [Dispatch.enter, hself]), hs']
      exact hhead
  | @slotSkip s k d slot me hself =>
    have hdis : Frame.InPlace s.rt (.dispatch d none) := hin.frames _ List.mem_cons_self
    exact hpush ⟨hdis.1, hdis.2.1, fun hne => absurd rfl hne⟩ (htail (by simp))
  | @slotEnter s k d d' slot me ctx s' hself hmi hslots hcell hme hc hcb hd' hs' =>
    have hdis : Frame.InPlace s.rt (.dispatch d none) := hin.frames _ List.mem_cons_self
    have hhead : s.tls.current = d.home := htop
    subst hd' hs'
    refine hpush ⟨hdis.1.keep (heff.kept (by simp)), fun hf => ?_, fun _ => ?_⟩ (htail (by simp))
    · exact absurd (hself.symm.trans hf) (by simp)
    · by_cases hch : me.regionEntry ≠ some d.caller
      · unfold Dispatch.restored
        rw [if_pos ⟨hself, by simpa [Dispatch.enter] using hch⟩]
        simp [Dispatch.enter, Dispatch.home, hhead]
      · unfold Dispatch.restored
        rw [if_neg (by simp [Dispatch.enter, hch])]
        unfold Dispatch.switch
        rw [if_neg hch]
        exact hhead
  | @selfListened s k d e me bytes hself hme =>
    have hdis : Frame.InPlace s.rt (.dispatch d (some e)) := hin.frames _ List.mem_cons_self
    have hrt : ((s.writeBuf d.retp bytes).lastPublish (d.ran + 1) d.retp d.reg).rt = s.rt :=
      (State.still_writeBuf ..).rt
    refine hpush ?_ (htail (by simp))
    show Frame.InPlace (State.rt _) _
    rw [hrt]
    exact ⟨hdis.1, fun _ => (hdis.2.1 hself e rfl).next hwf.heap hme, fun hne => absurd rfl hne⟩
  | @slotListened s s' k d e bytes hself hs' =>
    have hdis := hold (by simp) _ List.mem_cons_self
    refine hpush ⟨hdis.1, fun hf => ?_, fun hne => absurd rfl hne⟩ (htail (by simp))
    exact absurd (hself.symm.trans hf) (by simp)

/-! ## The call on top -/

theorem topInPlace_of_parked {s : State} {k : List Frame} (h : ∀ f ∈ k, f.parked = true) :
    Config.TopInPlace ⟨s, k⟩ := by
  unfold Config.TopInPlace
  split
  · next d k' hk =>
    have := h (.dispatch d none) (by rw [show k = _ from hk]; exact List.mem_cons_self)
    cases this
  · next tx k' hk =>
    have := h (.load tx .bind) (by rw [show k = _ from hk]; exact List.mem_cons_self)
    cases this
  · trivial

/-- After every step, the call on top finds what it relies on. -/
theorem Step.topInPlace (hp : c.Parked) (hok : KeepsRegions w c a) (hin : c.InPlace)
    (h : Step w c a c' ev) : c'.TopInPlace := by
  have htop := hin.top
  cases h with
  | load | scope | eachFirst | shutdown | dlopened | claimFlat | claimRefused | claimAsked
  | notGranted | granted | rekey | link | installMissing | install | cascadeSkip | reloadLoad
  | selfEnter | slotEnter | eachNext => trivial
  | answered hw | direct hw | dispatchDone hw => exact topInPlace_of_parked (hp.all hw)
  | unload hw hu => exact topInPlace_of_parked (hu.parked (hp.all hw))
  | reload hw hl hme hu =>
    exact topInPlace_of_parked (hu.parked (List.forall_mem_cons.mpr ⟨rfl, hp.all hw⟩))
  | @dispatchLoop _ retp reg exactOnly s d hw hd =>
    have hstart := dispatchBegin_loop hd
    obtain ⟨r, hr, hentry, hid⟩ := hin.current
    have hcaller : some d.caller = some r := by
      rw [← hstart.caller, State.callerRegion, hentry]
      rfl
    show s.tls.current = d.home
    rw [hstart.current, Dispatch.home, hstart.regionId, hcaller, ← hentry]
  | dlopenFailed hr => exact topInPlace_of_parked (resume_parked hr hp)
  | reuse hl hme hr => exact topInPlace_of_parked (resume_parked hr hp)
  | installed hr => exact topInPlace_of_parked (resume_parked hr hp)
  | abort ha hr => exact topInPlace_of_parked (resume_parked hr hp)
  | remove hme hr => exact topInPlace_of_parked (resume_parked hr hp)
  | cascade hme hps hs hu =>
    exact topInPlace_of_parked (hu.parked (List.forall_mem_cons.mpr ⟨rfl, hp⟩))
  | reinsert | reloadEnd | dispatchEnd | scopeEnd | eachEnd => exact topInPlace_of_parked hp
  | @publish s k tx hl =>
    intro e he me hme
    cases he
    have hnew : some (tx.freshEntry s.tls.loadingMod) = some me := by
      rw [← hme]
      simp [modLoadAllocPublish, publishEntry]
    cases hnew
    rfl
  | @bind s k tx =>
    by_cases hret : (modLoadBindXy w s tx).2 = xyOk
    · rw [if_pos hret]
      trivial
    · rw [if_neg hret]
      trivial
  | selfSkip | selfDeaf | slotSkip => exact htop
  | @selfListened s k d e me bytes hself hme =>
    have hdis : Frame.InPlace s.rt (.dispatch d (some e)) := hin.frames _ List.mem_cons_self
    have hback := hdis.2.2 (by simp)
    unfold Dispatch.restored at hback
    rw [if_neg (by simp [hself])] at hback
    exact ((State.still_writeBuf ..).current.trans hok).trans hback
  | @slotListened s s' k d e bytes hself hs' =>
    have hdis : Frame.InPlace s.rt (.dispatch d (some e)) := hin.frames _ List.mem_cons_self
    have hback := hdis.2.2 (by simp)
    unfold Dispatch.restored at hback
    subst hs'
    by_cases hch : d.regionChanged = true
    · rw [if_pos ⟨hself, hch⟩] at hback
      rw [if_pos hch]
      exact hback
    · rw [if_neg (by simp [hch])] at hback
      rw [if_neg hch]
      exact ((State.still_writeBuf ..).current.trans hok).trans hback

/-! ## Runs -/

theorem inPlace_of_keepsRegions (h : ReachableBy w (KeepsRegions w) c) : c.InPlace := by
  have hknown : ∀ c, ReachableBy w (KeepsRegions w) c →
      c.Wf w ∧ c.st.rt.CellsSettled ∧ c.Parked :=
    fun c hc => ⟨.of_reachable hc, cellsSettled_of_reachable hc, parked_of_reachable hc⟩
  refine h.invariant_of hknown (fun c hc => ?_)
    fun c a c' ⟨hwf, hcells, hp⟩ hin hok ⟨ev, hs⟩ => ?_
  · obtain ⟨ctxs, adapters, mem, rfl⟩ := hc
    exact
      { current := ⟨0, Nat.one_pos, rfl, rfl⟩
        entries := fun e me hme => by cases hme
        frames := fun f hf => (List.not_mem_nil hf).elim
        top := trivial }
  · have hstep := Step.of_step hs
    have heff := hstep.effect hwf
    exact
      { current := hstep.names hwf hcells hin
        entries := fun e me hme =>
          ⟨fun r hr => heff.entryRegion hwf hme (fun _ h => hok.leavesListed h)
              (fun me h => (hin.entries e me h).region) hr,
            Step.entryCtx hwf hok hin.entries hin.top hs hme⟩
        frames := hstep.framesInPlace hwf hok hin
        top := hstep.topInPlace hp hok hin }

/-- A listener is entered where the dispatch is, or in the region of its slot. -/
theorem Step.listener_region {e : EntryRef} {cb : FnSlot}
    (h : Step w c a c' (.enterListener e cb)) :
    ∃ d k me ctx, c.stack = .dispatch d none :: k ∧ c.st.rt.mods e = some me ∧ me.ctx = some ctx
      ∧ (∃ me', c'.st.rt.mods e = some me' ∧ me'.core = me.core)
      ∧ c'.st.rt.regions = c.st.rt.regions
      ∧ ((d.selfOnly = true ∧ d.me = some e ∧ c'.st.tls.current = c.st.tls.current)
        ∨ (d.selfOnly = false ∧ (c.st.rt.hookVec d.caller d.hookId).cells[d.mi]? = some ⟨e, cb⟩
          ∧ c'.st.tls.current = if me.regionEntry ≠ some d.caller
            then ⟨(c.st.ctxs ctx).regionId, me.regionEntry⟩ else c.st.tls.current)) := by
  obtain ⟨rfl, d, k, hstack⟩ := h.enters
  obtain ⟨s, stack⟩ := c
  obtain rfl : stack = _ := hstack
  cases h with
  | @selfEnter _ _ _ x me ctx s' hself he hme hc hd hh hs' =>
    subst hs'
    refine ⟨d, k, me, ctx, rfl, hme, hc, ⟨me.resolved w d.hookId d.name, ?_, ?_⟩, rfl,
      Or.inl ⟨hself, he, rfl⟩⟩
    · show (s.rt.modifyMod e _).mods e = _
      simp [modifyMod, hme]
    · exact me.core_resolved ..
  | @slotEnter _ _ _ d' slot me ctx s' hself hmi hslots hcell hme hc hcb hd' hs' =>
    subst hd' hs'
    have hrt : ∀ (d : Dispatch) (s : State), (d.switch s ctx me).rt = s.rt := by
      intro d s
      unfold Dispatch.switch
      split <;> rfl
    refine ⟨d, k, me, ctx, rfl, hme, hc, ⟨me, ?_, rfl⟩, ?_, Or.inr ⟨hself, hcell, ?_⟩⟩
    · exact (congrArg (fun rt : Runtime => rt.mods slot.me) (hrt ..)).trans hme
    · exact congrArg Runtime.regions (hrt ..)
    · unfold Dispatch.switch
      dsimp only
      split
      · simp [injectCtx]
      · rfl

/-- In a run whose loads keep the contexts and the regions of the modules together,
and whose listeners leave the current region as they found it, every listener is
entered in the region of its own module, and loads into that region. -/
theorem entered_in_own_region {e : EntryRef} {cb : FnSlot}
    (h : ReachableBy w (KeepsRegions w) c) (hs : step w c a = .next c' (.enterListener e cb)) :
    ∃ me, c'.st.rt.mods e = some me
      ∧ (c'.st.tls.current.id, c'.st.regionCurrentPlen) = (me.regionId, me.regionPlen)
      ∧ ∀ fname, (modLoadStart w c'.st fname).inheritedKey = ⟨me.regionId, me.regionPlen⟩ := by
  have hin := inPlace_of_keepsRegions h
  obtain ⟨d, k, me, ctx, hstack, hme, hctx, ⟨me', hme', hcore⟩, hregions, hcur⟩ :=
    (Step.of_step hs).listener_region
  have hplace := hin.entries e me hme
  have hdis : Frame.InPlace c.st.rt (.dispatch d none) :=
    hin.frames _ (hstack ▸ List.mem_cons_self)
  have hhead : c.st.tls.current = d.home := by
    have htop := hin.top
    unfold Config.TopInPlace at htop
    rwa [hstack] at htop
  have hlocal : me.regionEntry = some d.caller → c.st.tls.current = ⟨me.regionId, some d.caller⟩ := by
    intro hr
    obtain ⟨r, -, hentry, hid⟩ := hdis.1
    cases hentry
    have hkey := congrArg RegionKey.id (hplace.region d.caller hr)
    rw [hhead, Dispatch.home]
    exact congrArg (CurrentRegion.mk · (some d.caller)) (hid.symm.trans hkey)
  have hlisted : ∃ r, me.regionEntry = some r ∧ c'.st.tls.current = ⟨me.regionId, some r⟩ := by
    rcases hcur with ⟨hself, he, hcur⟩ | ⟨hself, hcell, hcur⟩
    · have hr := (hdis.2.1 hself e he).2 me hme
      exact ⟨d.caller, hr, hcur.trans (hlocal hr)⟩
    · by_cases hr : me.regionEntry = some d.caller
      · rw [if_neg (not_not.mpr hr)] at hcur
        exact ⟨d.caller, hr, hcur.trans (hlocal hr)⟩
      · have hcaller := ((Config.Wf.of_reachable h).top hstack).1
        have hsettled := cellsSettled_of_reachable h d.caller hcaller d.hookId _
          (List.mem_of_getElem? hcell)
        obtain ⟨r, hr'⟩ := Option.ne_none_iff_exists'.mp (hsettled.2 me hme)
        rw [if_pos hr, hr', hplace.ctx ctx hctx] at hcur
        exact ⟨r, hr', hcur⟩
  obtain ⟨r, hr, hcur'⟩ := hlisted
  have hkey := hplace.region r hr
  have hplen : c'.st.regionCurrentPlen = me.regionPlen := by
    simp only [State.regionCurrentPlen, hcur', hregions]
    exact congrArg RegionKey.plen hkey
  have hfields : me'.regionId = me.regionId ∧ me'.regionPlen = me.regionPlen := by
    have hid : me'.core.regionId = me.core.regionId := by rw [hcore]
    have hwidth : me'.core.regionPlen = me.core.regionPlen := by rw [hcore]
    exact ⟨hid, hwidth⟩
  refine ⟨me', hme', ?_, fun fname => ?_⟩
  · rw [hcur', hplen, hfields.1, hfields.2]
  · simp only [modLoadStart, LoadTxn.inheritedKey, hplen, hcur', hfields]

end

/-- Two modules are loaded into nested regions, and the dispatch from the outer
one has come to the module of the inner one. -/
def nestedDispatch (h h' : Handle) : List Action :=
  [.call (.areg sampleHook 0), .call (.claimAt 0x1000000000000 16 none)] ++ loadRun sampleFile h
    ++ [.call (.claimAt 0 0 none)] ++ loadRun sampleFile h'
    ++ [.call (.call none (some 0) false), .tau, .ret (.listened [])]

/-- The modules are of two objects. -/
theorem entered_in_own_region_nested :
    let c := runChecked sampleWorld (KeepsRegions sampleWorld) (Config.boot sampleHook)
      (nestedDispatch 1 2)
    let c' := c.after sampleWorld [.tau]
    ∃ me, c'.st.rt.mods 0 = some me
      ∧ (c'.st.tls.current.id, c'.st.regionCurrentPlen) = (me.regionId, me.regionPlen) := by
  intro c c'
  have hreach : ReachableBy sampleWorld (KeepsRegions sampleWorld) c :=
    ReachableBy.checked (.start (Config.boot_initial _)) _
  have hs : step sampleWorld c .tau = .next c' (.enterListener 0 (.fn 22)) :=
    step_of_events (by decide +kernel)
  obtain ⟨me, hme, hcur, -⟩ := entered_in_own_region hreach hs
  exact ⟨me, hme, hcur⟩

/-- A listener returns with the current region it was entered with. -/
def LeavesRegion (c : Config) (a : Action) : Prop :=
  match c.stack, a with
  | .dispatch d (some _) :: _, .ret (.listened _) => c.st.tls.current = d.atEntry
  | _, _ => True

instance (c : Config) (a : Action) : Decidable (LeavesRegion c a) := by
  unfold LeavesRegion
  split <;> infer_instance

/-- The modules are of one object, and the second load has written the id of the
outer region to the context that they share. -/
theorem not_entered_in_own_region :
    ∃ c c' e cb me, ReachableBy sampleWorld LeavesRegion c
      ∧ step sampleWorld c .tau = .next c' (.enterListener e cb) ∧ c'.st.rt.mods e = some me
      ∧ (c'.st.tls.current.id, c'.st.regionCurrentPlen) ≠ (me.regionId, me.regionPlen) := by
  let c := runChecked sampleWorld LeavesRegion (Config.boot sampleHook) (nestedDispatch 1 1)
  let c' := c.after sampleWorld [.tau]
  have hreach : ReachableBy sampleWorld LeavesRegion c :=
    ReachableBy.checked (.start (Config.boot_initial _)) _
  have hs : step sampleWorld c .tau = .next c' (.enterListener 0 (.fn 22)) :=
    step_of_events (by decide +kernel)
  obtain ⟨me, hme⟩ : ∃ me, c'.st.rt.mods 0 = some me :=
    Option.isSome_iff_exists.mp (by decide +kernel)
  have hid : ∀ me ∈ c'.st.rt.mods 0,
      (c'.st.tls.current.id, c'.st.regionCurrentPlen) ≠ (me.regionId, me.regionPlen) := by
    decide +kernel
  exact ⟨c, c', 0, .fn 22, me, hreach, hs, hme, hid me hme⟩

end Xylem
