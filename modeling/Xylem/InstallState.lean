import Xylem.Lifecycle
import Xylem.RegionState

/-!
# The region state in `xy_install`

* The loader allocates the block of a region state before it calls
  `xy_install`, but the pointer that `XY_RS` reads, `region_state` of the
  module's `xy_ctx`, is written by a dispatch only.
* A new block is no block that an entry or a context has had before
  (`BlocksMade`), so the context does not point to it when `xy_install` is
  called (`not_stateAvailable_at_install`).
-/

namespace Xylem

/-- The result of `xy_region_state_size`, and zero for an object without it. -/
def World.stateSize (w : World) (h : Handle) : Nat :=
  ((w.dlsym h .xyRegionStateSize).map w.regionStateSize).getD 0

/-- A configuration to start from.  `xy-mod.h` makes the context of a module a
`static struct xy_ctx`, so its pointers are NULL before the module is loaded. -/
def Config.Zeroed (c : Config) : Prop :=
  c.Initial ∧ ∀ ctx, (c.st.ctxs ctx).regionState = none

/-- The configurations of the runs with such contexts. -/
abbrev ReachableZeroed (w : World) : Config → Prop :=
  Run.ReachBy Config.Zeroed (Next w) (fun _ _ => True)

/-- `XY_RS` of the entry's module points to the block that was allocated for the
entry. -/
def Config.StateAvailable (c : Config) (e : EntryRef) : Prop :=
  ∃ me ctx b, c.st.rt.mods e = some me ∧ me.ctx = some ctx ∧ me.regionState = some b
    ∧ (c.st.ctxs ctx).regionState = some b

/-! ## Blocks that have been allocated -/

/-- The blocks that entries and contexts point to have been allocated. -/
structure BlocksMade (c : Config) : Prop where
  entry : ∀ e me b, c.st.rt.mods e = some me → me.regionState = some b → b < c.st.rt.nblocks
  ctx : ∀ ctx b, (c.st.ctxs ctx).regionState = some b → b < c.st.rt.nblocks

section

open Xylem.Runtime

variable {w : World} {c c' : Config} {a : Action} {ev : Event} {rt rt' : Runtime}

theorem moduleRegionDetach_nblocks (rt : Runtime) (e : EntryRef) :
    (rt.moduleRegionDetach e).nblocks = rt.nblocks := by
  unfold moduleRegionDetach
  split <;> rfl

/-- The link allocates the region state. -/
theorem linkEntry_nblocks (rt : Runtime) (e : EntryRef) (me : ModEntry) (size : Nat) :
    (rt.linkEntry e me size).nblocks = if size = 0 then rt.nblocks else rt.nblocks + 1 := by
  have hcount : (rt.countEntry e size).nblocks
      = if size = 0 then rt.nblocks else rt.nblocks + 1 := by
    unfold countEntry
    dsimp only
    split <;> rfl
  unfold linkEntry
  dsimp only
  split
  · exact hcount
  · exact hcount

theorem prepareVec_nblocks {r : RegionRef} {hookId : Nat} {name : CStr} {anc : List RegionRef}
    (h : rt.prepareVec w r hookId name anc = some rt') : rt.nblocks ≤ rt'.nblocks := by
  have hrefresh : (rt.refreshSubtreeMods r).nblocks = rt.nblocks := by
    unfold refreshSubtreeMods
    split <;> rfl
  have hcap : ∀ rt : Runtime, (rt.regionEnsureHookDispatchCap r hookId).nblocks = rt.nblocks := by
    intro rt
    unfold regionEnsureHookDispatchCap
    split <;> rfl
  unfold prepareVec regionRebuildHookDispatch at h
  split at h
  · cases h
    rw [hcap, hrefresh]
  · obtain ⟨⟨rt3, v⟩, hloop, rfl⟩ := Option.map_eq_some_iff.mp h
    have hle := (rebuildLoop_spec hloop (Nat.zero_le _) (Nat.zero_le _)).nblocks
    rw [hcap, hrefresh] at hle
    exact hle

/-- Blocks are never given out twice. -/
theorem Effect.nblocks_le (h : Effect w c a rt') : c.st.rt.nblocks ≤ rt'.nblocks := by
  cases h with
  | same | handler | claimAt | grant | refcount | publish | bind | rekey | prewarm | resolve
  | register | shutdown => exact le_rfl
  | @deny r what type => cases type <;> exact le_rfl
  | @link tx k e me size =>
    rw [linkEntry_nblocks]
    split <;> omega
  | @abort tx k err e me => exact Nat.le_of_eq (moduleRegionDetach_nblocks c.st.rt e).symm
  | @remove k e me =>
    have hclear : ((c.st.rt.moduleClearFnCacheForHandle w e me.handle).moduleRemovePathOwnedEntries
        me).nblocks = c.st.rt.nblocks := by
      unfold moduleRemovePathOwnedEntries moduleClearFnCacheForHandle
      split <;> split <;> rfl
    exact Nat.le_of_eq ((moduleRegionDetach_nblocks _ e).trans hclear).symm
  | @reinsert rl k e r rt' ha hstack hl hre hr hi =>
    unfold Xylem.reinsert at hi
    dsimp only at hi
    split at hi
    · cases hi
      exact Nat.le_of_eq (moduleRegionDetach_nblocks c.st.rt e).symm
    · cases hi
  | vector ha hcaller hr hv => exact prepareVec_nblocks hv

/-- The step after the claim. -/
theorem Step.of_link {s : State} {k : List Frame} {tx : LoadTxn}
    (h : Step w ⟨s, .load tx .link :: k⟩ .tau c' ev) :
    ∃ e me, tx.modEntry = some e ∧ s.rt.mods e = some me
      ∧ c' = ⟨modLoadLink w s tx e me, .load tx .install :: k⟩ := by
  cases h with
  | link he hme => exact ⟨_, _, he, hme, rfl⟩

/-- The call of `xy_install`. -/
theorem Step.of_install {s : State} {k : List Frame} {tx : LoadTxn} {e : EntryRef} {me : ModEntry}
    (h : Step w ⟨s, .load tx .install :: k⟩ .tau c' ev) (he : tx.modEntry = some e)
    (hme : s.rt.mods e = some me) :
    ∃ me', c'.st.rt.mods e = some me' ∧ me'.regionState = me.regionState
      ∧ c'.st.ctxs = s.ctxs := by
  have hcore := me.core_fnCachePrewarm (w := w) s.rt.hookIdHd.entries s.rt.hookIdCounter
  have hmods : (modLoadPrewarm w s e).rt.mods e
      = some (me.fnCachePrewarm w s.rt.hookIdHd.entries s.rt.hookIdCounter) := by
    simp [modLoadPrewarm, modifyMod, hme]
  have hstate : (me.fnCachePrewarm w s.rt.hookIdHd.entries s.rt.hookIdCounter).core.regionState
      = me.core.regionState := by rw [hcore]
  cases h with
  | install he' hi | installMissing he' hi =>
    obtain rfl := Option.some.inj (he'.symm.trans he)
    exact ⟨_, hmods, hstate, rfl⟩

/-- Only the link leads to the call of `xy_install`. -/
theorem Step.to_install (hp : c.Parked) (h : Step w c a c' ev) {tx : LoadTxn} {k : List Frame}
    (hstack : c'.stack = .load tx .install :: k) :
    ∃ s, c = ⟨s, .load tx .link :: k⟩ ∧ a = .tau := by
  have hparked : ¬ ∀ f ∈ c'.stack, f.parked = true := fun hall => by
    have htop := hall (.load tx .install) (hstack ▸ List.mem_cons_self)
    cases htop
  cases h with
  | link he hme =>
    cases hstack
    exact ⟨_, rfl, rfl⟩
  | answered hw | direct hw | dispatchDone hw => exact absurd (hp.all hw) hparked
  | unload hw hu => exact absurd (hu.parked (hp.all hw)) hparked
  | reload hw hl hme hu =>
    exact absurd (hu.parked (List.forall_mem_cons.mpr ⟨rfl, hp.all hw⟩)) hparked
  | dlopenFailed hr => exact absurd (resume_parked hr hp) hparked
  | reuse hl hme hr => exact absurd (resume_parked hr hp) hparked
  | installed hr => exact absurd (resume_parked hr hp) hparked
  | abort ha hr => exact absurd (resume_parked hr hp) hparked
  | remove hme hr => exact absurd (resume_parked hr hp) hparked
  | cascade hme hps hs hu => exact absurd (hu.parked (List.forall_mem_cons.mpr ⟨rfl, hp⟩)) hparked
  | reinsert | reloadEnd | dispatchEnd | scopeEnd | eachEnd => exact absurd hp hparked
  | @bind s k tx =>
    have hpc : LoadPc.install ≠ (if (modLoadBindXy w s tx).2 = xyOk then LoadPc.claim
        else .aborting (modLoadBindXy w s tx).2) := by split <;> exact nofun
    injection hstack with hframe
    injection hframe with htx hframe
    exact absurd hframe.symm hpc
  | load | scope | eachFirst | dispatchLoop | shutdown | dlopened | publish | claimFlat
  | claimRefused | claimAsked | notGranted | granted | rekey | installMissing | install
  | cascadeSkip | reloadLoad | selfSkip | selfDeaf | selfEnter | slotSkip | slotEnter
  | selfListened | slotListened | eachNext => cases hstack

/-- Only a dispatch stores a region state in a context. -/
theorem Step.regionState_of (hwf : c.Wf w) (h : Step w c a c' ev) (ctx : CtxRef) :
    (c'.st.ctxs ctx).regionState = (c.st.ctxs ctx).regionState
      ∨ ∃ d k e me, c.stack = .dispatch d none :: k ∧ c.st.rt.mods e = some me
        ∧ (c'.st.ctxs ctx).regionState = me.regionState := by
  cases h.ctxs hwf with
  | same hctxs => exact Or.inl (by rw [hctxs])
  | @bind tx k e ctx₀ ha hstack he hctx₀ hrt hctxs =>
    left
    rw [hctxs]
    by_cases hc : ctx = ctx₀
    · subst hc
      rw [Function.update_self]
      rfl
    · rw [Function.update_of_ne hc]
  | @rekey tx k child e me ctx₀ ha hstack hl hme hctx₀ hrt hctxs =>
    left
    rw [hctxs]
    by_cases hc : ctx = ctx₀
    · subst hc
      rw [Function.update_self]
    · rw [Function.update_of_ne hc]
  | @inject d d' k e me ctx₀ ha hstack hstack' hme hctx₀ hctxs =>
    rw [hctxs]
    by_cases hc : ctx = ctx₀
    · subst hc
      right
      refine ⟨d, k, e, me, hstack, hme, ?_⟩
      rw [Function.update_self]
    · left
      rw [Function.update_of_ne hc]

/-- The region state of an entry is of the entry before, or it is the block that the
link allocates. -/
theorem Step.entry_block (hwf : c.Wf w) (h : Step w c a c' ev) {e : EntryRef} {me' : ModEntry}
    {b : BlockRef} (hme' : c'.st.rt.mods e = some me') (hb : me'.regionState = some b) :
    (∃ me, c.st.rt.mods e = some me ∧ me.regionState = some b)
      ∨ b = c.st.rt.nblocks ∧ c'.st.rt.nblocks = c.st.rt.nblocks + 1 := by
  have hb' : me'.core.regionState = some b := hb
  rcases (h.effect hwf).entry hme' with ⟨tx, k, -, -, -, -, rfl⟩ | ⟨me, hme, hch⟩
  · cases hb
  · generalize me'.core = m at hch hb'
    cases hch with
    | same | refcount | bind | rekey | reinsert => exact Or.inl ⟨me, hme, hb'⟩
    | @link tx k ha hstack hx hun state =>
      obtain ⟨s, stack⟩ := c
      subst ha
      cases hstack
      obtain ⟨e₁, me₁, he₁, hme₁, rfl⟩ := h.of_link
      obtain rfl : e₁ = e := Option.some.inj (he₁.symm.trans hx)
      have hmods := linkEntry_mods_eq s.rt e₁ me₁ (w.stateSize tx.handle) hme₁
      have hcount := linkEntry_nblocks s.rt e₁ me₁ (w.stateSize tx.handle)
      have hself := (congrFun hmods e₁).symm.trans hme'
      rw [Function.update_self] at hself
      cases hself
      split at hb
      · exact Or.inl ⟨me₁, hme₁, hb⟩
      · next hsize =>
        rw [if_neg hsize] at hcount
        exact Or.inr ⟨(Option.some.inj hb).symm, hcount⟩

theorem BlocksMade.step (hwf : c.Wf w) (hinv : BlocksMade c) (h : Step w c a c' ev) :
    BlocksMade c' := by
  have hle := (h.effect hwf).nblocks_le
  constructor
  · intro e me' b hme' hb
    rcases h.entry_block hwf hme' hb with ⟨me, hme, hold⟩ | ⟨hnew, hcount⟩
    · exact Nat.lt_of_lt_of_le (hinv.entry e me b hme hold) hle
    · rw [hnew, hcount]
      exact Nat.lt_succ_self _
  · intro ctx b hb
    rcases h.regionState_of hwf ctx with hsame | ⟨d, k, e, me, -, hme, hstate⟩
    · exact Nat.lt_of_lt_of_le (hinv.ctx ctx b (hsame ▸ hb)) hle
    · exact Nat.lt_of_lt_of_le (hinv.entry e me b hme (hstate ▸ hb)) hle

/-! ## The call of `xy_install` -/

/-- A block has been allocated for the entry, and no context points to it. -/
def Config.StateUnseen (c : Config) (e : EntryRef) : Prop :=
  ∃ me b, c.st.rt.mods e = some me ∧ me.regionState = some b
    ∧ ∀ ctx, (c.st.ctxs ctx).regionState ≠ some b

theorem Config.StateUnseen.not_available {e : EntryRef} (h : c.StateUnseen e) :
    ¬ c.StateAvailable e := by
  intro havail
  obtain ⟨me, b, hme, hb, hunseen⟩ := h
  obtain ⟨me', ctx, b', hme', -, hb', hctx⟩ := havail
  obtain rfl : me' = me := Option.some.inj (hme'.symm.trans hme)
  obtain rfl : b' = b := Option.some.inj (hb'.symm.trans hb)
  exact hunseen ctx hctx

/-- The link allocates a block that no context points to. -/
theorem BlocksMade.unseen (hinv : BlocksMade c) {s : State} {k : List Frame} {tx : LoadTxn}
    {e : EntryRef} (hc : c = ⟨s, .load tx .link :: k⟩) (hsize : 0 < w.stateSize tx.handle)
    (h : Step w c .tau c' ev) (he : tx.modEntry = some e) : c'.StateUnseen e := by
  subst hc
  obtain ⟨e₁, me, he₁, hme, rfl⟩ := h.of_link
  obtain rfl : e₁ = e := Option.some.inj (he₁.symm.trans he)
  have hmods := congrFun (linkEntry_mods_eq s.rt e₁ me (w.stateSize tx.handle) hme) e₁
  rw [Function.update_self, if_neg (Nat.ne_of_gt hsize)] at hmods
  refine ⟨_, s.rt.nblocks, hmods, rfl, fun ctx hctx => ?_⟩
  exact absurd (hinv.ctx ctx _ hctx) (Nat.lt_irrefl _)

theorem reachable_of_zeroed (h : ReachableZeroed w c) : Reachable w c :=
  h.of_init fun _ hc => hc.1

theorem blocksMade_of_reachable (h : ReachableZeroed w c) : BlocksMade c := by
  refine h.invariant_of (fun c h => Config.Wf.of_reachable (reachable_of_zeroed h)) (fun c hc => ?_)
    fun c a c' hwf hinv _ ⟨ev, hs⟩ => hinv.step hwf (.of_step hs)
  obtain ⟨⟨ctxs, adapters, mem, rfl⟩, hnone⟩ := hc
  constructor
  · intro e me b hme
    cases hme
  · intro ctx b hb
    rw [hnone ctx] at hb
    cases hb

/-- When a load is about to call `xy_install`, no context points to the block that it
has allocated. -/
theorem stateUnseen_of_reachable (h : ReachableZeroed w c) {tx : LoadTxn} {k : List Frame}
    {e : EntryRef} (hstack : c.stack = .load tx .install :: k) (he : tx.modEntry = some e)
    (hsize : 0 < w.stateSize tx.handle) : c.StateUnseen e := by
  cases h with
  | start hc =>
    obtain ⟨⟨ctxs, adapters, mem, rfl⟩, -⟩ := hc
    cases hstack
  | @step c₀ _ a h₀ hok hs =>
    obtain ⟨ev, hs⟩ := hs
    have hstep := Step.of_step hs
    obtain ⟨s, hc₀, rfl⟩ := hstep.to_install (parked_of_reachable (reachable_of_zeroed h₀)) hstack
    exact (blocksMade_of_reachable h₀).unseen hc₀ hsize hstep he

/-- In no run, and in no region, does a module that exports a positive
`xy_region_state_size` find its region state when its `xy_install` is called,
whatever has been loaded or dispatched to before. -/
theorem not_stateAvailable_at_install (h : ReachableZeroed w c) {e : EntryRef}
    (hs : step w c a = .next c' (.enterInstall e)) {tx : LoadTxn} {k : List Frame}
    (hstack : c.stack = .load tx .install :: k) (hsize : 0 < w.stateSize tx.handle) :
    c'.StateUnseen e ∧ ¬ c'.StateAvailable e := by
  suffices hunseen : c'.StateUnseen e from ⟨hunseen, hunseen.not_available⟩
  obtain ⟨rfl, tx', k', hstack', he⟩ := (Step.of_step hs).install_top
  obtain ⟨s, stack⟩ := c
  cases hstack
  cases hstack'
  obtain ⟨me, b, hme, hb, hunseen⟩ := stateUnseen_of_reachable h rfl he hsize
  obtain ⟨me', hme', hstate, hctxs⟩ := (Step.of_step hs).of_install he hme
  refine ⟨me', b, hme', hstate.trans hb, fun ctx => ?_⟩
  rw [hctxs]
  exact hunseen ctx

end

/-! ## Two instances -/

/-- A module is dispatched to in one region, and is loaded into a child region as
well, up to the call of its `xy_install` there. -/
def secondInstance (h : Handle) : List Action :=
  [.call (.areg sampleHook 0), .call (.claimAt 0x1000000000000 16 none)] ++ loadRun sampleFile h
    ++ [.call (.call none (some 0) false), .tau, .ret (.listened []), .tau,
      .call (.claimAt 0x1000100000000 32 none)]
    ++ (loadRun sampleFile h).take 6

theorem boot_zeroed (hook : CStr) : (Config.boot hook).Zeroed :=
  ⟨Config.boot_initial _, fun _ => rfl⟩

/-- The object that a load has opened. -/
def Frame.object : Frame → Option Handle
  | .load tx _ => some tx.handle
  | _ => none

/-- The run gets there, and the module has a region state of eight bytes. -/
theorem secondInstance_installs :
    let c := (Config.boot sampleHook).after statefulWorld (secondInstance 1)
    step statefulWorld c .tau = .next (c.after statefulWorld [.tau]) (.enterInstall 1)
      ∧ ∃ tx k, c.stack = .load tx .install :: k ∧ 0 < statefulWorld.stateSize tx.handle := by
  intro c
  have hs : step statefulWorld c .tau = .next (c.after statefulWorld [.tau]) (.enterInstall 1) :=
    step_of_events (by decide +kernel)
  obtain ⟨-, tx, k, hstack, -⟩ := (Step.of_step hs).install_top
  have hobject : ∀ f ∈ c.stack.head?, f.object = some 1 := by decide +kernel
  have hhandle : tx.handle = 1 := Option.some.inj (hobject (.load tx .install) (by rw [hstack]; rfl))
  refine ⟨hs, tx, k, hstack, ?_⟩
  rw [hhandle]
  decide

theorem not_stateAvailable_at_second_install :
    let c := (Config.boot sampleHook).after statefulWorld (secondInstance 1)
    let c' := c.after statefulWorld [.tau]
    c'.StateUnseen 1 ∧ ¬ c'.StateAvailable 1 := by
  intro c c'
  obtain ⟨hs, tx, k, hstack, hsize⟩ := secondInstance_installs
  exact not_stateAvailable_at_install
    (ReachableBy.after (.start (boot_zeroed sampleHook)) fun _ _ _ => trivial) hs hstack hsize

/-- `XY_RS` points to the block of the other instance. -/
theorem stateUnavailable_of_second_instance :
    ∃ c c' e tx k, ReachableZeroed statefulWorld c
      ∧ step statefulWorld c .tau = .next c' (.enterInstall e) ∧ c.stack = .load tx .install :: k
      ∧ 0 < statefulWorld.stateSize tx.handle ∧ ¬ c'.StateAvailable e := by
  let c := (Config.boot sampleHook).after statefulWorld (secondInstance 1)
  obtain ⟨hs, tx, k, hstack, hsize⟩ := secondInstance_installs
  refine ⟨c, c.after statefulWorld [.tau], 1, tx, k,
    ReachableBy.after (.start (boot_zeroed sampleHook)) fun _ _ _ => trivial, hs, hstack, hsize, ?_⟩
  intro havail
  obtain ⟨me, ctx, b, hme, hctx, hb, hstate⟩ := havail
  have hblocks : ∀ me ∈ (c.after statefulWorld [.tau]).st.rt.mods 1, me.ctx = some 1
      ∧ ((c.after statefulWorld [.tau]).st.ctxs 1).regionState ≠ me.regionState := by
    decide +kernel
  obtain ⟨hone, hne⟩ := hblocks me hme
  obtain rfl : ctx = 1 := Option.some.inj (hctx.symm.trans hone)
  exact hne (hstate.trans hb.symm)

end Xylem
