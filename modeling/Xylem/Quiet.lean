import Xylem.Calls

/-!
# Steps that move no module

Loads, unloads and reloads write the module table, the module lists and the
reference counts; nothing else does.  `Config.loading` are the loads, unloads and
reloads in progress, `Config.Quiet` says of a step that it is none of theirs, and
`Step.sameModules` that it then leaves the modules alone.

Two invariants of all runs are part of this: `xy_loading_mod` is NULL while no
load is in `xy_install`, and a region that requires a claim has a claim handler.
-/

namespace Xylem

open Xylem.Runtime

/-- Whether a frame is a load, an unload or a reload. -/
def Frame.isLoading : Frame → Bool
  | .load .. | .unload .. | .reload .. => true
  | _ => false

/-- The loads, unloads and reloads in progress. -/
def Config.loading (c : Config) : List Frame := c.stack.filter Frame.isLoading

/-- The step is no part of a load, an unload or a reload, and starts none. -/
def Config.Quiet (c : Config) : Action → Prop
  | .call (.load _) | .call (.unload _) | .call (.reload _) | .call .shutdown => False
  | .call _ => True
  | _ => ∀ f ∈ c.stack.head?, f.isLoading = false

/-- What a quiet step keeps: the entries but for their caches, the table and the
lists. -/
structure Runtime.SameModules (rt rt' : Runtime) : Prop where
  core : rt'.core = rt.core
  heap : rt.SameHeap rt'
  regions : rt.RegionsKept rt'

section

variable {w : World} {c c' : Config} {a : Action} {ev : Event} {rt rt' : Runtime}

theorem Runtime.SameModules.refl (rt : Runtime) : rt.SameModules rt :=
  ⟨rfl, .refl rt, .of_tree rfl⟩

theorem sameModules_onlyCaches (h : rt.OnlyCaches rt') : rt.SameModules rt' :=
  ⟨h.core, h.same, .of_tree h.tree⟩

theorem CallEffect.sameModules (hwf : c.Wf w) {q : Call} (h : CallEffect w c q rt) :
    c.st.rt.SameModules rt := by
  cases h with
  | same => exact .refl _
  | @deny r what type hcur hr =>
    refine ⟨?_, sameHeap_recordDeny .., .of_tree (recordDeny_tree ..)⟩
    cases type <;> rfl
  | requireClaim | setHandler =>
    exact ⟨rfl, sameHeap_modifyRegion (by intro _; rfl) _ _,
      .of_tree (modifyRegion_tree _ (by intro _; rfl) _)⟩
  | claimAt => exact ⟨rfl, sameHeap_addRegion hwf.heap .., .of_add (addRegion_tree ..)⟩
  | areg => exact ⟨registerHook_core .., sameHeap_registerHook .., .of_tree rfl⟩

theorem callDirect_sameModules (hwf : c.Wf w) {q : Call} {s : State} {v : Value}
    (h : callDirect w c.st q = some (s, v)) :
    c.st.rt.SameModules s.rt ∧ s.tls.loadingMod = c.st.tls.loadingMod :=
  ⟨(callDirect_callEffect hwf h).sameModules hwf, (callDirect_keeps h).1.loadingMod⟩

/-- A quiet step leaves the modules alone, `xy_loading_mod`, and the loads that are
in progress. -/
theorem Step.sameModules (hwf : c.Wf w) (h : Step w c a c' ev) (hq : c.Quiet a) :
    c.st.rt.SameModules c'.st.rt ∧ c'.st.tls.loadingMod = c.st.tls.loadingMod
      ∧ c'.loading = c.loading := by
  have hstill : ∀ {s s' : State} {k k' : List Frame}, s.Still s' →
      k'.filter Frame.isLoading = k.filter Frame.isLoading →
      s.rt.SameModules s'.rt ∧ s'.tls.loadingMod = s.tls.loadingMod
        ∧ Config.loading ⟨s', k'⟩ = Config.loading ⟨s, k⟩ := fun hs hk =>
    ⟨hs.rt ▸ .refl _, hs.loadingMod, hk⟩
  cases h with
  | load | unload | reload | shutdown => exact hq.elim
  | dlopenFailed | dlopened | reuse | publish | bind | claimFlat | claimRefused | claimAsked
  | notGranted | granted | rekey | link | installMissing | install | installed | abort
  | cascadeSkip | cascade | remove | reloadLoad | reinsert | reloadEnd =>
    exact absurd (hq _ rfl) (by simp [Frame.isLoading])
  | scope | scopeEnd | eachNext => exact ⟨.refl _, rfl, rfl⟩
  | eachFirst => exact ⟨.refl _, rfl, rfl⟩
  | answered => exact ⟨.refl _, rfl, rfl⟩
  | eachEnd => exact ⟨.refl _, rfl, rfl⟩
  | direct hw hq' =>
    have hsame := callDirect_sameModules hwf hq'
    exact ⟨hsame.1, hsame.2, rfl⟩
  | dispatchDone hw hd => exact hstill (dispatchBegin_done hd) rfl
  | @dispatchLoop _ retp reg selfOnly s d hw hd =>
    have hstart := dispatchBegin_loop hd
    refine ⟨?_, hstart.loadingMod, rfl⟩
    cases selfOnly with
    | true => exact (hstart.self rfl).1 ▸ .refl _
    | false =>
      have hv := (hstart.subtree rfl).1
      exact ⟨(prepareVec_keeps hv).1, sameHeap_prepareVec hv, .of_tree (prepareVec_tree hv)⟩
  | dispatchEnd hend => exact hstill (still_dispatchEnd ..) rfl
  | selfSkip => exact ⟨.refl _, rfl, rfl⟩
  | selfDeaf hself he hme =>
    exact ⟨sameModules_onlyCaches (onlyCaches_modifyMod hme (ModEntry.core_resolved ..)), rfl, rfl⟩
  | selfEnter hself he hme hc hd hh hs' =>
    subst hs'
    exact ⟨sameModules_onlyCaches (onlyCaches_modifyMod hme (ModEntry.core_resolved ..)), rfl, rfl⟩
  | slotSkip => exact ⟨.refl _, rfl, rfl⟩
  | slotEnter hself hmi hslots hcell hme hc hcb hd' hs' =>
    subst hs'
    unfold Dispatch.switch
    split <;> exact ⟨.refl _, rfl, rfl⟩
  | selfListened =>
    exact hstill ((State.still_writeBuf ..).trans (State.still_lastPublish ..)) rfl
  | slotListened hself hs' =>
    subst hs'
    split
    · exact ⟨(State.still_writeBuf ..).rt ▸ .refl _, (State.still_writeBuf ..).loadingMod, rfl⟩
    · exact hstill ((State.still_writeBuf ..).trans (State.still_lastPublish ..)) rfl

/-! ## The loading module -/

/-- The value of `xy_loading_mod` under calls in progress: each `xy_install` has
saved the one before, and the first of these is NULL. -/
def LoaderOk : Option EntryRef → List Frame → Prop
  | cur, [] => cur = none
  | _, .load _ (.installing prev) :: k => LoaderOk prev k
  | cur, _ :: k => LoaderOk cur k

theorem loaderOk_filter {cur : Option EntryRef} {k : List Frame} :
    LoaderOk cur (k.filter Frame.isLoading) ↔ LoaderOk cur k := by
  induction k generalizing cur with
  | nil => rfl
  | cons f k ih =>
    cases f with
    | load tx pc =>
      cases pc with
      | installing prev => exact ih
      | opening | opened | bind | claim | handler | rekey | link | install | aborting => exact ih
    | unload | reload | dispatch | scope | each => exact ih

/-- The same, and the value is that of the `xy_install` that runs. -/
def LoaderIs : Option EntryRef → List Frame → Prop
  | cur, [] => cur = none
  | cur, .load tx (.installing prev) :: k => cur = tx.modEntry ∧ LoaderIs prev k
  | cur, _ :: k => LoaderIs cur k

theorem LoaderIs.ok {cur : Option EntryRef} {k : List Frame} (h : LoaderIs cur k) :
    LoaderOk cur k := by
  induction k generalizing cur with
  | nil => exact h
  | cons f k ih =>
    cases f with
    | load tx pc =>
      cases pc with
      | installing prev => exact ih h.2
      | opening | opened | bind | claim | handler | rekey | link | install | aborting => exact ih h
    | unload | reload | dispatch | scope | each => exact ih h

/-- The calls in progress determine the value. -/
theorem LoaderIs.unique {cur cur' : Option EntryRef} {k : List Frame} (h : LoaderIs cur k)
    (h' : LoaderIs cur' k) : cur' = cur := by
  induction k generalizing cur cur' with
  | nil => exact Eq.trans h' h.symm
  | cons f k ih =>
    cases f with
    | load tx pc =>
      cases pc with
      | installing prev => exact h'.1.trans h.1.symm
      | opening | opened | bind | claim | handler | rekey | link | install | aborting => exact ih h h'
    | unload | reload | dispatch | scope | each => exact ih h h'

theorem loaderIs_filter {cur : Option EntryRef} {k : List Frame} :
    LoaderIs cur (k.filter Frame.isLoading) ↔ LoaderIs cur k := by
  induction k generalizing cur with
  | nil => rfl
  | cons f k ih =>
    cases f with
    | load tx pc =>
      cases pc with
      | installing prev => exact and_congr_right fun _ => ih
      | opening | opened | bind | claim | handler | rekey | link | install | aborting => exact ih
    | unload | reload | dispatch | scope | each => exact ih

theorem LoaderIs.resumed {cur : Option EntryRef} {k k' : List Frame} (h : LoaderIs cur k)
    (hk : Resumed k k') : LoaderIs cur k' := by
  cases hk with
  | same => exact h
  | reload rl pc pc' k => exact h

theorem resume_loader {s : State} {ret : Int} {k : List Frame}
    (hr : resume s ret k = .next c' ev) (h : LoaderIs s.tls.loadingMod k) :
    LoaderIs c'.st.tls.loadingMod c'.stack := by
  obtain ⟨hstill, hk⟩ := resume_spec hr
  rw [hstill.loadingMod]
  exact h.resumed hk

theorem Unloads.loader {s : State} {fname : CStr} {id : RegionId} {plen : Nat} {k : List Frame}
    (h : LoaderIs s.tls.loadingMod k) (hu : Unloads w s fname id plen k c' ev) :
    LoaderIs c'.st.tls.loadingMod c'.stack := by
  cases hu with
  | notFound hl hr => exact resume_loader hr h
  | shared hl hme href hr => exact resume_loader hr h
  | cascade hl hme href => exact h

theorem Step.loader (hwf : c.Wf w) (h : Step w c a c' ev)
    (hok : LoaderIs c.st.tls.loadingMod c.stack) : LoaderIs c'.st.tls.loadingMod c'.stack := by
  have hquiet : c.Quiet a → LoaderIs c'.st.tls.loadingMod c'.stack := fun hq => by
    obtain ⟨-, htls, hstack⟩ := h.sameModules hwf hq
    rw [← loaderIs_filter, htls]
    unfold Config.loading at hstack
    rw [hstack]
    exact loaderIs_filter.mpr hok
  cases h with
  | load => exact hok
  | unload hw hu => exact hu.loader hok
  | reload hw hl hme hu => exact hu.loader (k := .reload _ .unloading :: c.stack) hok
  | scope | eachFirst | dispatchDone | dispatchLoop => exact hquiet trivial
  | answered => exact hok
  | direct hw hq' =>
    rw [(callDirect_sameModules hwf hq').2]
    exact hok
  | @shutdown s =>
    show (xyShutdown w s).tls.loadingMod = none
    rw [(xyShutdown_spec w s).2.2.2]
    exact hok
  | dlopenFailed hr => exact resume_loader hr hok
  | dlopened | claimFlat | claimRefused | claimAsked | publish | notGranted | link
  | installMissing => exact hok
  | reuse hl hme hr => exact resume_loader hr hok
  | @bind s k tx =>
    rw [(modLoadBindXy_spec w s tx).2.1]
    split <;> exact hok
  | granted hg =>
    obtain ⟨-, -, -, -, rfl⟩ := xyClaimGranted_ok hg
    exact hok
  | @rekey s k tx child e me he hme =>
    show LoaderIs (moduleRekeyForClaim w s tx.fname tx.inheritedKey child).tls.loadingMod k
    rw [(moduleRekeyForClaim_spec ..).1]
    exact hok
  | install he hi => exact ⟨he.symm, hok⟩
  | installed hr =>
    refine resume_loader hr ?_
    rw [(modLoadRestoreContext_spec _ _).2.2.1]
    exact hok.2
  | abort ha hr =>
    obtain ⟨e, he, -, -⟩ := (hwf.top rfl).late rfl
    obtain ⟨me, hme, -, -, hload, -⟩ := modLoadAbort_spec he ha
    refine resume_loader hr ?_
    rw [hload]
    exact hok
  | cascadeSkip => exact hok
  | @cascade s k e child rest me p path c' ev hme hp hs hu =>
    exact hu.loader (k := .unload e rest :: k) hok
  | remove hme hr =>
    refine resume_loader hr ?_
    rw [(modUnloadFinish_spec ..).2.2.2]
    exact hok
  | reloadLoad | reinsert | reloadEnd => exact hok
  | dispatchEnd | selfSkip | selfDeaf | selfEnter | slotSkip | slotEnter | selfListened
  | slotListened | scopeEnd | eachNext | eachEnd =>
    exact hquiet fun f hf => by
      cases hf
      rfl

theorem loaderIs_of_reachable {ok : Config → Action → Prop} (h : ReachableBy w ok c) :
    LoaderIs c.st.tls.loadingMod c.stack := by
  refine h.invariant_wf (fun c => LoaderIs c.st.tls.loadingMod c.stack) ?_
    fun c a c' ev hwf hok _ hs => hs.loader hwf hok
  rintro c ⟨ctxs, adapters, mem, rfl⟩
  rfl

theorem loader_of_reachable {ok : Config → Action → Prop} (h : ReachableBy w ok c) :
    LoaderOk c.st.tls.loadingMod c.stack := (loaderIs_of_reachable h).ok

end

/-! ## The gate of a region -/

/-- The claim handler of a region, and whether a claim is required. -/
def RegionEntry.gate (e : RegionEntry) : Option HandlerRef × Bool :=
  (e.claimHandler, e.requireClaim)

/-- A region that requires a claim has a claim handler. -/
def RegionEntry.GateOk (e : RegionEntry) : Prop := e.requireClaim = true → e.claimHandler ≠ none

theorem RegionEntry.GateOk.of_gate {e e' : RegionEntry} (h : e.GateOk) (heq : e'.gate = e.gate) :
    e'.GateOk := by
  obtain ⟨hfn, hreq⟩ := Prod.mk.inj heq
  unfold GateOk
  rw [hfn, hreq]
  exact h

namespace Runtime

variable {w : World} {rt rt' : Runtime}

def gates (rt : Runtime) : RegionRef → Option HandlerRef × Bool := fun r => (rt.regions r).gate

theorem modifyRegion_gates {f : RegionEntry → RegionEntry} (h : ∀ e, (f e).gate = e.gate)
    (rt : Runtime) (r : RegionRef) : (rt.modifyRegion r f).gates = rt.gates :=
  funext (modifyRegion_proj rt RegionEntry.gate h r)

theorem regionMarkSubtreeDirty_gates (rt : Runtime) (r : RegionRef) :
    (rt.regionMarkSubtreeDirty r).gates = rt.gates :=
  funext (regionMarkSubtreeDirty_proj rt RegionEntry.gate (by intro _ _; rfl) (by intro _ _; rfl) r)

theorem recordDeny_gates (w : World) (rt : Runtime) (r : RegionRef) (what : CStr)
    (type : DenyType) : (rt.recordDeny w r what type).gates = rt.gates := by
  unfold recordDeny
  refine (funext (regionDispatchGenBump_proj _ RegionEntry.gate (by intro _ _; rfl) r)).trans ?_
  refine (funext (modifyRegions_proj _ RegionEntry.gate (by intro _; rfl) _)).trans ?_
  cases type <;> exact modifyRegion_gates (by intro _; rfl) rt r

theorem moduleRegionDetach_gates (rt : Runtime) (e : EntryRef) :
    (rt.moduleRegionDetach e).gates = rt.gates := by
  unfold moduleRegionDetach
  split
  · rfl
  · rw [regionMarkSubtreeDirty_gates]
    exact modifyRegion_gates (by intro _; rfl) rt _

theorem moduleRegionInsertAfter_gates (rt : Runtime) (r : RegionRef) (e : EntryRef)
    (after : Option EntryRef) : (rt.moduleRegionInsertAfter r e after).gates = rt.gates := by
  unfold moduleRegionInsertAfter
  rw [regionMarkSubtreeDirty_gates]
  exact modifyRegion_gates (by intro _; rfl) (rt.modifyMod e _) r

theorem removeEntry_gates (w : World) (rt : Runtime) (e : EntryRef) (me : ModEntry) :
    (rt.removeEntry w e me).gates = rt.gates := by
  have hclear : (rt.moduleClearFnCacheForHandle w e me.handle).gates = rt.gates := by
    funext y
    simp only [gates, (moduleClearFnCacheForHandle_keeps w rt e me.handle).regions]
  refine (moduleRegionDetach_gates _ e).trans (Eq.trans ?_ hclear)
  unfold moduleRemovePathOwnedEntries
  split
  · rfl
  · exact modifyRegion_gates (by intro _; rfl) _ _

theorem linkEntry_gates (rt : Runtime) (e : EntryRef) (me : ModEntry) (size : Nat) :
    (rt.linkEntry e me size).gates = rt.gates := by
  have hcount : (rt.countEntry e size).gates = rt.gates := by
    unfold countEntry
    dsimp only
    split <;> rfl
  unfold linkEntry
  dsimp only
  split
  · exact hcount
  · exact (moduleRegionInsertAfter_gates ..).trans hcount

theorem reinsert_gates {r : RegionRef} {e : EntryRef} {after : Option EntryRef}
    (h : Xylem.reinsert rt r e after = some rt') : rt'.gates = rt.gates := by
  unfold Xylem.reinsert at h
  dsimp only at h
  split at h
  · cases h
    rw [moduleRegionInsertAfter_gates, moduleRegionDetach_gates]
  · cases h

theorem prepareVec_gates {r : RegionRef} {hookId : Nat} {name : CStr} {anc : List RegionRef}
    (h : rt.prepareVec w r hookId name anc = some rt') : rt'.gates = rt.gates := by
  have h1 : (rt.refreshSubtreeMods r).gates = rt.gates := by
    unfold refreshSubtreeMods
    split
    · exact modifyRegion_gates (by intro _; rfl) rt r
    · rfl
  have h2 : ∀ rt1 : Runtime, (rt1.regionEnsureHookDispatchCap r hookId).gates = rt1.gates := by
    intro rt1
    unfold regionEnsureHookDispatchCap
    split
    · rfl
    · exact modifyRegion_gates (by intro _; rfl) rt1 r
  have h3 : ∀ rt1 : Runtime, rt1.regionRebuildHookDispatch w r hookId name anc = some rt' →
      rt'.gates = rt1.gates := by
    intro rt1 hrt1
    unfold regionRebuildHookDispatch at hrt1
    split at hrt1
    · cases hrt1; rfl
    · obtain ⟨⟨rt2, v⟩, hloop, rfl⟩ := Option.map_eq_some_iff.mp hrt1
      have hregions := (rebuildLoop_onlyCaches hloop).regions
      refine (modifyRegion_gates (by intro _; rfl) rt2 r).trans ?_
      funext x
      simp only [gates, hregions]
  exact (h3 _ h).trans ((h2 _).trans h1)

theorem addRegion_gates (rt : Runtime) {p : Nat} (hp : p < rt.nregions) (id : RegionId)
    (plen bits : Nat) (fn : Option HandlerRef) (x : RegionRef) :
    (rt.addRegion p id plen bits fn).gates x
      = if x = rt.nregions then (fn, false) else rt.gates x := by
  unfold addRegion
  rw [regionMarkSubtreeDirty_gates]
  simp only [gates]
  by_cases hxp : x = p
  · subst hxp
    simp [Nat.ne_of_lt hp, RegionEntry.gate]
  · by_cases hxn : x = rt.nregions
    · subst hxn
      simp [hxp, RegionEntry.fresh, RegionEntry.gate]
    · simp [hxp, hxn]

end Runtime

section

variable {w : World} {c c' : Config} {a : Action} {ev : Event}

/-- The gates of the regions there are. -/
def GatesOk (rt : Runtime) : Prop := ∀ r < rt.nregions, (rt.regions r).GateOk

theorem GatesOk.of_gates {rt rt' : Runtime} (h : GatesOk rt) (hn : rt'.nregions = rt.nregions)
    (hgates : rt'.gates = rt.gates) : GatesOk rt' := fun r hr =>
  (h r (hn ▸ hr)).of_gate (congrFun hgates r)

theorem GatesOk.of_add {rt : Runtime} (h : GatesOk rt) {p : Nat} (hp : p < rt.nregions)
    {id : RegionId} {plen bits : Nat} {fn : Option HandlerRef} :
    GatesOk (rt.addRegion p id plen bits fn) := by
  intro x hx
  have hgate := addRegion_gates rt hp id plen bits fn x
  split at hgate
  · intro hreq
    rw [(Prod.mk.inj hgate).2] at hreq
    cases hreq
  · next hne => exact (h x (Nat.lt_of_le_of_ne (Nat.le_of_lt_succ hx) hne)).of_gate hgate

/-- An effect that does not set a handler. -/
theorem Effect.gatesOk {rt' : Runtime} (h : Effect w c a rt') (hok : GatesOk c.st.rt)
    (hcall : ∀ q, a ≠ .call q) : GatesOk rt' := by
  cases h with
  | same | refcount | publish | bind | rekey | prewarm | resolve => exact hok
  | grant hstack ha hbits hslot hid hadd => exact hok.of_add hadd.1
  | link => exact hok.of_gates (congrArg Tree.count (linkEntry_tree ..)) (linkEntry_gates ..)
  | @abort tx k err e me =>
    exact hok.of_gates (congrArg Tree.count (discardEntry_tree w c.st.rt e me))
      (moduleRegionDetach_gates ..)
  | remove => exact hok.of_gates (congrArg Tree.count (removeEntry_tree ..)) (removeEntry_gates ..)
  | reinsert ha hstack hl hre hr hi =>
    exact hok.of_gates (congrArg Tree.count (reinsert_tree hi)) (reinsert_gates hi)
  | deny ha | handler ha | claimAt ha | vector ha | register ha | shutdown ha =>
    exact absurd ha (hcall _)

theorem CallEffect.gatesOk {q : Call} (h : CallEffect w c q rt) (hok : GatesOk c.st.rt) :
    GatesOk rt := by
  have hset : ∀ {r : Nat} {f : RegionEntry → RegionEntry}, (f (c.st.rt.regions r)).GateOk →
      GatesOk (c.st.rt.modifyRegion r f) := by
    intro r f hf x hx
    rw [modifyRegion_apply]
    split
    · next heq => exact heq ▸ hf
    · exact hok x hx
  cases h with
  | same | areg => exact hok
  | deny => exact hok.of_gates (congrArg Tree.count (recordDeny_tree ..)) (recordDeny_gates ..)
  | requireClaim =>
    refine hset fun hreq hnone => ?_
    dsimp only at hreq hnone
    rw [hnone] at hreq
    cases hreq
  | setHandler => exact hset fun _ => by simp
  | claimAt hnear hadd => exact hok.of_add hadd.1

theorem Unloads.gatesOk {s : State} {fname : CStr} {id : RegionId} {plen : Nat} {k : List Frame}
    (hu : Unloads w s fname id plen k c' ev) (hok : GatesOk s.rt) : GatesOk c'.st.rt := by
  cases hu with
  | notFound hl hr => exact (resume_spec hr).1.rt ▸ hok
  | shared hl hme href hr => exact (resume_spec hr).1.rt ▸ hok
  | cascade hl hme href => exact hok

theorem Step.gatesOk (hwf : c.Wf w) (h : Step w c a c' ev) (hok : GatesOk c.st.rt) :
    GatesOk c'.st.rt := by
  by_cases hcall : ∀ q, a ≠ .call q
  · exact (h.effect hwf).gatesOk hok hcall
  · obtain ⟨q, ha⟩ := not_forall_not.mp hcall
    cases h with
    | load | scope | eachFirst | answered => exact hok
    | unload hw hu => exact hu.gatesOk hok
    | reload hw hl hme hu => exact hu.gatesOk hok
    | direct hw hq => exact (callDirect_callEffect hwf hq).gatesOk hok
    | dispatchDone hw hd => exact (dispatchBegin_done hd).rt ▸ hok
    | @dispatchLoop _ retp reg selfOnly s d hw hd =>
      have hstart := dispatchBegin_loop hd
      cases selfOnly with
      | true => exact (hstart.self rfl).1 ▸ hok
      | false =>
        have hv := (hstart.subtree rfl).1
        exact hok.of_gates (congrArg Tree.count (prepareVec_tree hv)) (prepareVec_gates hv)
    | @shutdown s =>
      rw [show (Config.mk (xyShutdown w s) []).st.rt = _ from (xyShutdown_spec w s).1]
      exact fun r hr hreq => by cases hreq
    | dlopenFailed | dlopened | reuse | publish | bind | claimFlat | claimRefused | claimAsked
    | notGranted | granted | rekey | link | installMissing | install | installed | abort
    | cascadeSkip | cascade | remove | reloadLoad | reinsert | reloadEnd | dispatchEnd | selfSkip
    | selfDeaf | selfEnter | slotSkip | slotEnter | selfListened | slotListened | scopeEnd
    | eachNext | eachEnd => cases ha

theorem gatesOk_of_reachable {ok : Config → Action → Prop} (h : ReachableBy w ok c) :
    GatesOk c.st.rt := by
  refine h.invariant_wf (fun c => GatesOk c.st.rt) ?_ fun c a c' ev hwf hok _ hs =>
    hs.gatesOk hwf hok
  rintro c ⟨ctxs, adapters, mem, rfl⟩ r hr hreq
  cases hreq

end

end Xylem
