import Xylem.HookDeny
import Xylem.LastReturn
import Xylem.Symbols

/-!
# Adapters of one hook name

`xy_areg` takes the first adapter of a name as the one that dispatches may fall
back on, and ignores the others.  `Canonical` is what is then known of this
adapter, and `canonical_of_trace` says that it is kept by every later step.

A dispatch calls through its own adapter's trampoline, or else through that of
the canonical adapter.  `dispatch_runs_iff`: with a listener below the caller, the
listeners run exactly when one of these two is there.
-/

namespace Xylem

open Xylem.Runtime

/-! ## The hook tables -/

/-- The tables of the hook names. -/
structure HookTables where
  sicaHd : AList (fun _ : CStr => AdapterRef)
  hookIdHd : AList (fun _ : CStr => Nat)
  hookIdCounter : Nat
  adapterById : List (Option AdapterRef)

def Runtime.hooks (rt : Runtime) : HookTables :=
  { sicaHd := rt.sicaHd, hookIdHd := rt.hookIdHd, hookIdCounter := rt.hookIdCounter
    adapterById := rt.adapterById }

section

variable {w : World} {rt rt' : Runtime}

theorem moduleRegionDetach_hooks (rt : Runtime) (e : EntryRef) :
    (rt.moduleRegionDetach e).hooks = rt.hooks := by
  unfold Runtime.moduleRegionDetach
  split <;> rfl

theorem discardEntry_hooks (rt : Runtime) (e : EntryRef) (me : ModEntry) :
    (rt.discardEntry w e me).hooks = rt.hooks :=
  moduleRegionDetach_hooks rt e

theorem Runtime.OnlyCaches.hooks (h : rt.OnlyCaches rt') : rt'.hooks = rt.hooks := by
  obtain ⟨m, n, rfl⟩ := h.rest
  rfl

theorem linkEntry_hooks (rt : Runtime) (e : EntryRef) (me : ModEntry) (size : Nat) :
    (rt.linkEntry e me size).hooks = rt.hooks := by
  have hcount : (rt.countEntry e size).hooks = rt.hooks := by
    unfold Runtime.countEntry
    dsimp only
    split <;> rfl
  unfold Runtime.linkEntry
  dsimp only
  split
  · exact hcount
  · exact hcount

theorem removeEntry_hooks (rt : Runtime) (e : EntryRef) (me : ModEntry) :
    (rt.removeEntry w e me).hooks = rt.hooks := by
  have hclear : ((rt.moduleClearFnCacheForHandle w e me.handle).moduleRemovePathOwnedEntries
      me).hooks = rt.hooks := by
    unfold Runtime.moduleRemovePathOwnedEntries
    split
    · exact (moduleClearFnCacheForHandle_keeps w rt e me.handle).hooks
    · exact (moduleClearFnCacheForHandle_keeps w rt e me.handle).hooks
  exact (discardEntry_hooks (w := w) _ e me).trans hclear

theorem prepareVec_hooks {r : RegionRef} {hookId : Nat} {name : CStr} {anc : List RegionRef}
    (h : rt.prepareVec w r hookId name anc = some rt') : rt'.hooks = rt.hooks := by
  have h1 : (rt.refreshSubtreeMods r).hooks = rt.hooks := by
    unfold Runtime.refreshSubtreeMods
    split <;> rfl
  have h2 : ((rt.refreshSubtreeMods r).regionEnsureHookDispatchCap r hookId).hooks = rt.hooks := by
    unfold Runtime.regionEnsureHookDispatchCap
    split <;> exact h1
  unfold Runtime.prepareVec Runtime.regionRebuildHookDispatch at h
  split at h
  · cases h
    exact h2
  · obtain ⟨⟨rt₁, v⟩, hloop, rfl⟩ := Option.map_eq_some_iff.mp h
    exact (rebuildLoop_onlyCaches hloop).hooks.trans h2

/-- Only `xy_areg` writes the hook tables. -/
theorem Effect.hooks {c : Config} {a : Action} (h : Effect w c a rt') :
    rt'.hooks = c.st.rt.hooks
      ∨ ∃ name reg, a = .call (.areg name reg) ∧ rt' = c.st.rt.registerHook w name reg := by
  cases h with
  | same | handler | claimAt | grant | refcount | publish | bind | rekey | prewarm | resolve
  | shutdown => exact Or.inl rfl
  | @deny r what type => cases type <;> exact Or.inl rfl
  | link => exact Or.inl (linkEntry_hooks ..)
  | abort => exact Or.inl (discardEntry_hooks ..)
  | remove => exact Or.inl (removeEntry_hooks ..)
  | @reinsert rl k e r rt' ha hstack hl hre hr hi =>
    unfold Xylem.reinsert at hi
    dsimp only at hi
    split at hi
    · cases hi
      exact Or.inl (moduleRegionDetach_hooks c.st.rt e)
    · cases hi
  | vector ha hcaller hr hv => exact Or.inl (prepareVec_hooks hv)
  | register ha => exact Or.inr ⟨_, _, ha, rfl⟩

end

/-! ## The adapter of a name -/

/-- The adapter that a move registers under a name, unless it is refused. -/
def Move.registers (name : CStr) (m : Move) : Option AdapterRef :=
  match m.act with
  | .call (.areg n reg) =>
    if n = name ∧ (m.before.st.adapters reg).retSize ≤ xyMaxRetSize then some reg else none
  | _ => none

/-- The adapters that `xy_areg` was given under a name, in order. -/
def registered (name : CStr) (log : List Move) : List AdapterRef := log.filterMap (·.registers name)

/-- What is known of the first adapter of a name. -/
structure Canonical (s : State) (name : CStr) (reg : AdapterRef) (hookId : Nat) : Prop where
  known : s.rt.sicaHd.lookup name = some reg
  named : s.rt.hookIdHd.lookup name = some hookId
  byId : s.rt.adapterById[hookId]? = some (some reg)
  lt : hookId < s.rt.hookIdCounter
  resolved : 0 ≤ (s.adapters reg).hookId
  size : (s.adapters reg).retSize ≤ xyMaxRetSize

/-- The first adapter of a name is the canonical one. -/
def NameKnown (s : State) (name : CStr) : List AdapterRef → Prop
  | [] => s.rt.sicaHd.lookup name = none
  | first :: _ => ∃ hookId, Canonical s name first hookId

section

variable {w : World} {c c' : Config} {a : Action} {ev : Event} {name name' : CStr}
  {reg reg' : AdapterRef} {hookId : Nat} {log : List Move} {s s' : State} {l : List AdapterRef}

theorem Canonical.keep (h : Canonical s name reg hookId) (hhooks : s'.rt.hooks = s.rt.hooks)
    (hsize : s.KeepsSize s' reg) : Canonical s' name reg hookId := by
  obtain ⟨hid, hret⟩ := hsize h.resolved
  simp only [Runtime.hooks, HookTables.mk.injEq] at hhooks
  obtain ⟨hsica, hids, hcount, hby⟩ := hhooks
  exact
    { known := by rw [hsica]; exact h.known
      named := by rw [hids]; exact h.named
      byId := by rw [hby]; exact h.byId
      lt := by rw [hcount]; exact h.lt
      resolved := hid, size := by rw [hret]; exact h.size }

theorem NameKnown.keep (h : NameKnown s name l) (hhooks : s'.rt.hooks = s.rt.hooks)
    (hsize : ∀ reg, s.KeepsSize s' reg) : NameKnown s' name l := by
  cases l with
  | nil =>
    have hsica : s'.rt.sicaHd = s.rt.sicaHd := congrArg HookTables.sicaHd hhooks
    show s'.rt.sicaHd.lookup name = none
    rw [hsica]
    exact h
  | cons first rest =>
    obtain ⟨hookId, h⟩ := h
    exact ⟨hookId, h.keep hhooks (hsize first)⟩

/-- A new name gets the next number, and its adapter. -/
theorem canonical_of_new (hsize : (s.adapters reg).retSize ≤ xyMaxRetSize)
    (hnew : s.rt.sicaHd.lookup name = none) :
    Canonical (xyAreg w s name reg).1 name reg s.rt.hookIdCounter := by
  have hareg : (xyAreg w s name reg).1 = { s with
      rt := s.rt.registerHook w name reg
      adapters := Function.update s.adapters reg
        { s.adapters reg with hookId := s.rt.hookIdCounter }
      err := xyOk } := by
    unfold xyAreg
    rw [if_neg (Nat.not_lt.mpr hsize), hnew]
  rw [hareg]
  exact
    { known := AList.lookup_insert _
      named := AList.lookup_insert _
      byId := by
        simp only [registerHook]
        rw [List.getElem?_set_self]
        rw [List.length_append, List.length_replicate]
        split <;> omega
      lt := Nat.lt_succ_self _
      resolved := by simp
      size := by simpa using hsize }

/-- A new name does not disturb another one. -/
theorem Canonical.areg (h : Canonical s name reg hookId) (name' : CStr) (reg' : AdapterRef) :
    Canonical (xyAreg w s name' reg').1 name reg hookId := by
  unfold xyAreg
  split
  · exact h.keep rfl fun hid => ⟨hid, rfl⟩
  · split
    · exact h
    · next hnew =>
      have hne : name ≠ name' := by
        rintro rfl
        rw [h.known] at hnew
        cases hnew
      obtain ⟨hlen, -⟩ := List.getElem?_eq_some_iff.mp h.byId
      have hlt := h.lt
      exact
        { known := (AList.lookup_insert_ne hne).trans h.known
          named := (AList.lookup_insert_ne hne).trans h.named
          byId := by
            simp only [registerHook]
            rw [List.getElem?_set_ne (by omega), List.getElem?_append_left hlen]
            exact h.byId
          lt := Nat.lt_succ_of_lt hlt
          resolved := by
            dsimp only
            by_cases hreg : reg = reg'
            · subst hreg
              simp
            · rw [Function.update_of_ne hreg]
              exact h.resolved
          size := by
            dsimp only
            by_cases hreg : reg = reg'
            · subst hreg
              simpa using h.size
            · rw [Function.update_of_ne hreg]
              exact h.size }

/-- One call of `xy_areg`. -/
theorem NameKnown.areg (h : NameKnown s name l) (name' : CStr) (reg' : AdapterRef) :
    NameKnown (xyAreg w s name' reg').1 name
      (l ++ if name' = name ∧ (s.adapters reg').retSize ≤ xyMaxRetSize then [reg'] else []) := by
  cases l with
  | cons first rest =>
    obtain ⟨hookId, h⟩ := h
    exact ⟨hookId, h.areg name' reg'⟩
  | nil =>
    have hnone : s.rt.sicaHd.lookup name = none := h
    rw [List.nil_append]
    split
    · next hif =>
      obtain ⟨rfl, hsize⟩ := hif
      exact ⟨_, canonical_of_new hsize hnone⟩
    · next hif =>
      show (xyAreg w s name' reg').1.rt.sicaHd.lookup name = none
      unfold xyAreg
      split
      · exact hnone
      · next hsize =>
        split
        · exact hnone
        · have hne : name ≠ name' := fun heq =>
            hif ⟨heq.symm, Nat.le_of_not_lt hsize⟩
          exact (AList.lookup_insert_ne hne).trans hnone

theorem step_areg (h : step w c (.call (.areg name reg)) = .next c' ev) :
    c'.st = (xyAreg w c.st name reg).1 := by
  unfold step at h
  dsimp only at h
  split at h
  · cases h
    rfl
  · cases h

/-- In a run, the first adapter that was registered under a name is canonical. -/
theorem nameKnown_of_trace (h : Trace w log c) (name : CStr) :
    NameKnown c.st name (registered name log) := by
  induction h with
  | start h =>
    obtain ⟨ctxs, adapters, mem, rfl⟩ := h
    rfl
  | @move log c c' a ev htr hs ih =>
    have hstep := Step.of_step hs
    have hwf : c.Wf w := .of_reachable htr.reachable
    unfold registered at ih ⊢
    rw [List.filterMap_append]
    by_cases hareg : ∃ name' reg', a = .call (.areg name' reg')
    · obtain ⟨name', reg', rfl⟩ := hareg
      have hmove : List.filterMap (·.registers name) [(⟨c, .call (.areg name' reg'), ev, c'⟩ : Move)]
          = if name' = name ∧ (c.st.adapters reg').retSize ≤ xyMaxRetSize then [reg'] else [] := by
        by_cases hif : name' = name ∧ (c.st.adapters reg').retSize ≤ xyMaxRetSize
        · rw [if_pos hif]
          exact List.filterMap_cons_some (if_pos hif)
        · rw [if_neg hif]
          exact List.filterMap_cons_none (if_neg hif)
      rw [hmove, step_areg hs]
      exact ih.areg name' reg'
    · have hnone : (⟨c, a, ev, c'⟩ : Move).registers name = none := by
        unfold Move.registers
        split
        · next n reg heq => exact absurd ⟨n, reg, heq⟩ hareg
        · rfl
      rw [List.filterMap_cons_none hnone, List.filterMap_nil, List.append_nil]
      rcases (hstep.effect hwf).hooks with hhooks | ⟨name', reg', ha, -⟩
      · exact ih.keep hhooks hstep.keepsSize
      · exact absurd ⟨name', reg', ha⟩ hareg

/-! ## The trampoline of a dispatch -/

/-- An adapter of a name, registered or not, that can be called through. -/
structure State.AdapterOf (s : State) (reg : AdapterRef) (name : CStr) : Prop where
  named : (s.adapters reg).name = name
  hookId : 0 ≤ (s.adapters reg).hookId →
    s.rt.hookIdHd.lookup name = some (s.adapters reg).hookId.toNat
  size : (s.adapters reg).retSize ≤ xyMaxRetSize

/-- What the resolution makes of an adapter of the name. -/
theorem Canonical.resolve {first : AdapterRef} (h : Canonical s name first hookId)
    (hreg : s.AdapterOf reg name) :
    ∃ a call, resolveAdapter s (s.adapters reg) = some (a, call) ∧ a.hookId = hookId
      ∧ a.retSize ≤ xyMaxRetSize
      ∧ (fallbackCall { s with adapters := Function.update s.adapters reg a } a.hookId.toNat
          call).isSome = ((s.adapters reg).call.isSome || (s.adapters first).call.isSome) := by
  have hjoin : (s.rt.adapterById[hookId]?).join = some first := by rw [h.byId]; rfl
  have hfall : ∀ (a : Adapter) (call : Option Addr), (reg = first → a = s.adapters first) →
      a.hookId = hookId →
      (fallbackCall { s with adapters := Function.update s.adapters reg a } a.hookId.toNat
        call).isSome = (call.isSome || (s.adapters first).call.isSome) := by
    intro a call hself hid
    unfold fallbackCall
    rw [hid, Int.toNat_natCast]
    dsimp only
    rw [hjoin]
    cases call with
    | some f => rfl
    | none =>
      show (Function.update s.adapters reg a first).call.isSome = _
      by_cases hx : reg = first
      · rw [hx, Function.update_self, hself hx, Option.isSome_none, Bool.false_or]
      · rw [Function.update_of_ne (Ne.symm hx), Option.isSome_none, Bool.false_or]
  unfold resolveAdapter
  dsimp only
  split
  · next hneg =>
    have hne : reg ≠ first := by
      rintro rfl
      have := h.resolved
      omega
    rw [hreg.named, h.named]
    dsimp only
    rw [hjoin]
    dsimp only [Option.map_some]
    cases hcall : (s.adapters reg).call with
    | some f =>
      refine ⟨_, _, rfl, rfl, hreg.size, ?_⟩
      exact hfall _ _ (fun heq => absurd heq hne) rfl
    | none =>
      refine ⟨_, _, rfl, rfl, h.size, ?_⟩
      rw [hfall _ _ (fun heq => absurd heq hne) rfl]
      simp
  · next hpos =>
    have hid := hreg.hookId (by omega)
    rw [h.named] at hid
    have hid' : (s.adapters reg).hookId = hookId := by
      have := Option.some.inj hid
      omega
    exact ⟨_, _, rfl, hid', hreg.size, hfall _ _ (fun heq => by rw [heq]) hid'⟩

/-- A dispatch finds a trampoline exactly when its own adapter or the canonical
one has it. -/
theorem Canonical.callable_iff {first : AdapterRef} (h : Canonical s name first hookId)
    (hreg : s.AdapterOf reg name) :
    s.Callable reg ↔ (s.adapters reg).call ≠ none ∨ (s.adapters first).call ≠ none := by
  obtain ⟨a, call, hres, -, hsize, hfall⟩ := h.resolve hreg
  have hiff : s.Callable reg ↔ ((s.adapters reg).call.isSome || (s.adapters first).call.isSome)
      = true := by
    rw [← hfall]
    constructor
    · rintro ⟨a', call', hres', -, htramp⟩
      rw [hres] at hres'
      cases hres'
      exact htramp
    · exact fun htramp => ⟨a, call, hres, hsize, htramp⟩
  rw [hiff]
  simp [Option.isSome_iff_ne_none]

/-- Without a trampoline, a dispatch fails. -/
theorem Canonical.not_callable {first : AdapterRef} (h : Canonical s name first hookId)
    (hreg : s.AdapterOf reg name) (hnot : ¬ s.Callable reg) (retp : Option BufRef)
    (selfOnly : Bool) :
    ∃ s', dispatchBegin w s retp (some reg) selfOnly = some (.done s' xyErrNotfound) := by
  obtain ⟨a, call, hres, -, hsize, -⟩ := h.resolve hreg
  have hnone : (fallbackCall { s with adapters := Function.update s.adapters reg a }
      a.hookId.toNat call).isNone = true := by
    rw [Option.isNone_iff_eq_none]
    by_contra hne
    exact hnot ⟨a, call, hres, hsize, Option.isSome_iff_ne_none.mpr hne⟩
  unfold dispatchBegin
  simp only [hres, if_neg (Nat.not_lt.mpr hsize), hnone, if_true]
  exact ⟨_, rfl⟩

/-! ## To the first listener -/

theorem rebuildLoop_isSome {anc : List RegionRef} {es : List EntryRef} {rt : Runtime}
    {v : HookDispatchCache} (h : ∀ e ∈ es, rt.mods e ≠ none) :
    ∃ rt' v', rebuildLoop w anc hookId name es rt v = some (rt', v') := by
  induction es generalizing rt v with
  | nil => exact ⟨rt, v, rfl⟩
  | cons e es ih =>
    obtain ⟨he, hes⟩ := List.forall_mem_cons.mp h
    obtain ⟨me, hme⟩ := Option.ne_none_iff_exists'.mp he
    have hlive : ∀ x ∈ es, (rt.modifyMod e fun _ => me.resolved w hookId name).mods x ≠ none := by
      intro x hx
      have := hes x hx
      by_cases hxe : x = e
      · subst hxe
        simp [modifyMod, hme]
      · simpa [modifyMod, hxe] using this
    unfold rebuildLoop
    simp only [hme]
    split
    · exact ih hes
    · split
      · exact ih hes
      · split
        · refine ih fun x hx => ?_
          rcases pushSlot_spec (rt.modifyMod e fun _ => me.resolved w hookId name) v
            ⟨e, (me.resolved w hookId name).fnCell hookId⟩ with heq | heq
          · rw [heq]
            exact hlive x hx
          · rw [heq]
            exact hlive x hx
        · exact ih hlive

/-- The modules of a subtree are live, so that its vectors can be brought up to
date. -/
theorem prepareVec_of_wf {rt : Runtime} {r : Nat} (ht : rt.tree.Wf) (hheap : rt.HeapWf)
    (hl : rt.SubtreeLists) (hr : r < rt.nregions) (hookId : Nat) (name : CStr)
    (anc : List RegionRef) : ∃ rt', rt.prepareVec w r hookId name anc = some rt' := by
  have hlive : ∀ e ∈ rt.walked r, rt.mods e ≠ none := by
    intro e he hnone
    rw [walked_eq ht hl hr] at he
    obtain ⟨x, -, hx⟩ := List.mem_flatMap.mp he
    have hhome := hheap.mem_iff.mp hx
    simp [Runtime.home, hnone] at hhome
  obtain ⟨-, hc₁, hm₁, -, -⟩ := rt.refreshSubtreeMods_spec r
  obtain ⟨-, ⟨vecs, hc₂, -⟩, -, hm₂, -, -⟩ :=
    (rt.refreshSubtreeMods r).regionEnsureHookDispatchCap_spec r hookId
  unfold prepareVec regionRebuildHookDispatch
  generalize (rt.refreshSubtreeMods r).regionEnsureHookDispatchCap r hookId = rt₁ at hc₂ hm₂ ⊢
  have hlist : (rt₁.regions r).subtreeMods = rt.walked r := by
    have := congrArg RegionCaches.subtreeMods hc₂
    rwa [hc₁] at this
  have hloop : ∀ v, ∃ rt' v', rebuildLoop w anc hookId name (rt.walked r) rt₁ v = some (rt', v') :=
    fun v => rebuildLoop_isSome (by rw [hm₂, hm₁]; exact hlive)
  split
  · exact ⟨_, rfl⟩
  · obtain ⟨rt', v', hloop⟩ := hloop { rt₁.hookVec r hookId with count := 0 }
    rw [hlist, hloop]
    exact ⟨_, rfl⟩

/-- From the head of the loop, the first listener of the cells that are left is
entered. -/
theorem enters_first {k : List Frame} {d : Dispatch} {cells : List DispatchSlot} {e : EntryRef}
    (hself : d.selfOnly = false) (hslots : (s.rt.hookVec d.caller d.hookId).slots = d.slots)
    (hcells : ((s.rt.hookVec d.caller d.hookId).cells.take d.n).drop d.mi = cells)
    (hlive : ∀ cell ∈ cells, s.rt.mods cell.me ≠ none)
    (hfirst : ((cells.filter (slotListens s.rt)).map (·.me)).head? = some e) :
    ∃ n c₁ c₂ cb, runActions w ⟨s, .dispatch d none :: k⟩ (List.replicate n .tau) = some c₁
      ∧ step w c₁ .tau = .next c₂ (.enterListener e cb) := by
  induction cells generalizing d with
  | nil => cases hfirst
  | cons cell cells ih =>
    obtain ⟨hme, hrest⟩ := List.forall_mem_cons.mp hlive
    obtain ⟨me, hme⟩ := Option.ne_none_iff_exists'.mp hme
    have hget : ((s.rt.hookVec d.caller d.hookId).cells.take d.n)[d.mi]? = some cell := by
      have := congrArg List.head? hcells
      rwa [List.head?_drop] at this
    have hmi : d.mi < d.n := by
      obtain ⟨hlt, -⟩ := List.getElem?_eq_some_iff.mp hget
      rw [List.length_take] at hlt
      omega
    rw [List.getElem?_take_of_lt hmi] at hget
    have htail : ((s.rt.hookVec d.caller d.hookId).cells.take d.n).drop (d.mi + 1) = cells := by
      rw [← List.drop_drop, hcells]
      rfl
    have hskip : slotListens s.rt cell = false →
        step w ⟨s, .dispatch d none :: k⟩ .tau
          = .next ⟨s, .dispatch { d with mi := d.mi + 1 } none :: k⟩ .internal →
        ∃ n c₁ c₂ cb, runActions w ⟨s, .dispatch d none :: k⟩ (List.replicate n .tau) = some c₁
          ∧ step w c₁ .tau = .next c₂ (.enterListener e cb) := by
      intro hdeaf hstep
      rw [List.filter_cons_of_neg (by simp [hdeaf])] at hfirst
      obtain ⟨n, c₁, c₂, cb, hrun, henter⟩ := ih (d := { d with mi := d.mi + 1 }) hself hslots htail
        hrest hfirst
      refine ⟨n + 1, c₁, c₂, cb, ?_, henter⟩
      rw [List.replicate_succ, runActions, hstep]
      exact hrun
    have htau : step w ⟨s, .dispatch d none :: k⟩ .tau = tauSubtree s k d := by
      simp [step, tau, hself]
    unfold tauSubtree at htau
    rw [if_pos hmi] at htau
    dsimp only at htau
    rw [if_pos hslots, hget] at htau
    dsimp only at htau
    rw [hme] at htau
    dsimp only at htau
    cases hctx : me.ctx with
    | none =>
      rw [hctx] at htau
      exact hskip (by simp [slotListens, hme, hctx]) htau
    | some ctx =>
      rw [hctx] at htau
      dsimp only at htau
      by_cases hcb : cell.cb = .null
      · rw [if_pos hcb] at htau
        exact hskip (by simp [slotListens, hcb]) htau
      · rw [if_neg hcb] at htau
        rw [List.filter_cons_of_pos (by simp [slotListens, hme, hctx, hcb])] at hfirst
        obtain rfl : cell.me = e := Option.some.inj hfirst
        exact ⟨0, _, _, cell.cb, rfl, htau⟩

/-- The module with the entry `e` listens to a hook below the region: it is bound,
no region from the root to `r` has denied it, and the host has a callback for it
or finds one.  If the vector of `r` is up to date already, the module is in it,
and so are live modules only. -/
structure Runtime.Listener (w : World) (rt : Runtime) (r : RegionRef) (hookId : Nat) (name : CStr)
    (e : EntryRef) (me : ModEntry) : Prop where
  entry : rt.mods e = some me
  below : e ∈ (rt.subtree r).flatMap rt.modsOf
  bound : me.ctx ≠ none
  undenied : rt.moduleDeniedByAncestors (rt.regionAncestorChain r 65) me.loadPath = false
  implements : (me.resolved w hookId name).hasHookImplemented hookId = true
  callback : (me.resolved w hookId name).fnCell hookId ≠ .null
  listed : rt.Warm r hookId →
    ∃ cell ∈ (rt.hookVec r hookId).cells.take (rt.hookVec r hookId).count,
      cell.me = e ∧ cell.cb ≠ .null
  live : rt.Warm r hookId →
    ∀ cell ∈ (rt.hookVec r hookId).cells.take (rt.hookVec r hookId).count,
      rt.mods cell.me ≠ none

/-- A dispatch over the subtree comes to its loop, has the module among its
listeners, and enters the first of them. -/
def RunsListeners (w : World) (c : Config) (retp : Option BufRef) (reg : AdapterRef)
    (e : EntryRef) : Prop :=
  ∃ s d, step w c (.call (.call retp (some reg) false))
      = .next ⟨s, .dispatch d none :: c.stack⟩ .internal
    ∧ e ∈ d.startSeq
    ∧ ∃ n c₁ c₂ e₁ cb, d.startSeq.head? = some e₁
      ∧ runActions w ⟨s, .dispatch d none :: c.stack⟩ (List.replicate n .tau) = some c₁
      ∧ step w c₁ .tau = .next c₂ (.enterListener e₁ cb)

/-- The listener has its slot in the vector of the dispatch. -/
theorem Runtime.Listener.slot {rt rt' : Runtime} {r : Nat} {e : EntryRef} {me : ModEntry}
    (h : rt.Listener w r hookId name e me) (ht : rt.tree.Wf) (hl : rt.SubtreeLists)
    (hr : r < rt.nregions)
    (hv : rt.prepareVec w r hookId name (rt.regionAncestorChain r 65) = some rt') :
    (∀ cell ∈ (rt'.hookVec r hookId).cells.take (rt'.hookVec r hookId).count,
        rt'.mods cell.me ≠ none)
      ∧ ∃ cell ∈ (rt'.hookVec r hookId).cells.take (rt'.hookVec r hookId).count,
        cell.me = e ∧ slotListens rt' cell = true := by
  have hp := prepareVec_spec hv
  have hcore := (prepareVec_keeps hv).1
  have hlive : ∀ {x}, rt.mods x ≠ none → rt'.mods x ≠ none := fun hx hnone =>
    hx ((none_of_core hcore).mp hnone)
  have hlistens : ∀ cell : DispatchSlot, cell.me = e → cell.cb ≠ .null →
      slotListens rt' cell = true := by
    rintro cell rfl hcb
    have hctx := map_of_core (fun me : ModEntry => me.ctx) (fun _ => rfl) hcore cell.me
    rw [h.entry, Option.map_some] at hctx
    obtain ⟨me', hme', hctx'⟩ := Option.map_eq_some_iff.mp hctx
    have hsome : me'.ctx.isSome = true := by
      rw [hctx']
      exact Option.isSome_iff_ne_none.mpr h.bound
    simp [slotListens, hme', hsome, hcb]
  by_cases hwarm : rt.Warm r hookId
  · rw [(hp.warm hwarm).1]
    obtain ⟨cell, hcell, hme, hcb⟩ := h.listed hwarm
    exact ⟨fun cell hcell => hlive (h.live hwarm cell hcell), cell, hcell, hme,
      hlistens cell hme hcb⟩
  · rw [hp.cells hwarm, hp.count hwarm, List.take_left]
    have hcons : rt.consulted (rt.regionAncestorChain r 65) me = true := by
      simp [Runtime.consulted, Option.isSome_iff_ne_none, h.bound, h.undenied]
    refine ⟨fun cell hcell => hlive (hp.live hwarm _ (mem_listing hcell)),
      ⟨e, (me.resolved w hookId name).fnCell hookId⟩, ?_, rfl, hlistens _ rfl h.callback⟩
    refine List.mem_filterMap.mpr ⟨e, by rw [walked_eq ht hl hr]; exact h.below, ?_⟩
    unfold Runtime.slotOf
    rw [h.entry]
    exact if_pos ⟨hcons, h.implements⟩

theorem dispatchScope_of_vec {d : Dispatch} {rt' : Runtime} (hself : d.selfOnly = false)
    (hv : s.rt.prepareVec w d.caller d.hookId d.name d.anc = some rt') :
    ∃ s' d', dispatchScope w s d = some (.loop s' d') ∧ d'.hookId = d.hookId
      ∧ d'.name = d.name := by
  unfold dispatchScope
  rw [if_neg (by simp [hself]), hv]
  exact ⟨_, _, rfl, rfl, rfl⟩

/-- Past the resolution, a dispatch that is not refused comes to its loop. -/
theorem dispatchBegin_of_vec {r : Nat} {rt' : Runtime} (hcall : s.Callable reg)
    (hr : s.callerRegion = some r)
    (hid : ∀ a call, resolveAdapter s (s.adapters reg) = some (a, call) →
      a.hookId = hookId ∧ a.name = name)
    (hallowed : hookRefused s.rt (s.rt.ancChain (some r)) name = false)
    (hv : s.rt.prepareVec w r hookId name (s.rt.regionAncestorChain r 65) = some rt')
    (retp : Option BufRef) :
    ∃ s' d, dispatchBegin w s retp (some reg) false = some (.loop s' d) ∧ d.hookId = hookId
      ∧ d.name = name := by
  obtain ⟨a, call, hres, hbegin⟩ := dispatchBegin_callable (w := w) hcall retp false
  obtain ⟨hhook, rfl⟩ := hid a call hres
  have hcaller : State.callerRegion { s with adapters := Function.update s.adapters reg a }
      = some r := hr
  have hcaller' : (({ s with adapters := Function.update s.adapters reg a } : State).lastPublish 0
      retp reg).callerRegion = some r := hr
  rw [hbegin]
  unfold dispatchResolved
  dsimp only
  rw [hcaller, hallowed, if_neg (by simp), hcaller', hhook, Int.toNat_natCast]
  exact dispatchScope_of_vec rfl hv

/-- With a trampoline and a listener, the listeners run. -/
theorem runsListeners_of_callable {r : Nat} {e : EntryRef} {me : ModEntry} (hreach : Reachable w c)
    (hw : c.waiting = true) (hr : c.st.callerRegion = some r) (hcall : c.st.Callable reg)
    (hid : ∀ a call, resolveAdapter c.st (c.st.adapters reg) = some (a, call) →
      a.hookId = hookId ∧ a.name = name)
    (hallowed : hookRefused c.st.rt (c.st.rt.ancChain (some r)) name = false)
    (hlistener : c.st.rt.Listener w r hookId name e me) (retp : Option BufRef) :
    RunsListeners w c retp reg e := by
  have hwf : c.Wf w := .of_reachable hreach
  have hl := subtreeLists_of_reachable hreach
  have hlt := hwf.callerRegion_lt hr
  obtain ⟨rt', hv⟩ := prepareVec_of_wf (w := w) hwf.tree hwf.heap hl hlt hookId name
    (c.st.rt.regionAncestorChain r 65)
  obtain ⟨hlive, cell, hcell, hme, hlistens⟩ := hlistener.slot hwf.tree hl hlt hv
  obtain ⟨s, d, hloop, rfl, rfl⟩ := dispatchBegin_of_vec hcall hr hid hallowed hv retp
  have hstart := dispatchBegin_loop hloop
  obtain rfl : d.caller = r := Option.some.inj (hstart.caller.symm.trans hr)
  obtain ⟨hv', hslots, hn, hseq⟩ := hstart.subtree rfl
  rw [hstart.anc, hv] at hv'
  cases hv'
  have hmem : cell ∈ ((s.rt.hookVec d.caller d.hookId).cells.take d.n).filter (slotListens s.rt) :=
    List.mem_filter.mpr ⟨hn ▸ hcell, hlistens⟩
  have hin : e ∈ d.startSeq := by
    rw [hseq, ← hme]
    exact List.mem_map_of_mem hmem
  obtain ⟨e₁, he₁⟩ : ∃ e₁, d.startSeq.head? = some e₁ := by
    cases hstarts : d.startSeq with
    | nil => exact absurd hin (by simp [hstarts])
    | cons e₁ l => exact ⟨e₁, rfl⟩
  obtain ⟨n, c₁, c₂, cb, hrun, henter⟩ := enters_first (w := w) (k := c.stack) hstart.selfOnly
    hslots.symm (by rw [hstart.mi, List.drop_zero]) (fun cell hcell => hlive cell (hn ▸ hcell))
    (hseq ▸ he₁)
  refine ⟨s, d, ?_, hin, n, c₁, c₂, e₁, cb, he₁, hrun, henter⟩
  simp [step, hw, beginCall, hloop]

/-- With a trampoline, a dispatch that is not refused comes to its loop. -/
theorem loop_of_callable {r : Nat} (hreach : Reachable w c) (hw : c.waiting = true)
    (hr : c.st.callerRegion = some r) (hcall : c.st.Callable reg)
    (hid : ∀ a call, resolveAdapter c.st (c.st.adapters reg) = some (a, call) →
      a.hookId = hookId ∧ a.name = name)
    (hallowed : hookRefused c.st.rt (c.st.rt.ancChain (some r)) name = false)
    (retp : Option BufRef) :
    ∃ s d, step w c (.call (.call retp (some reg) false))
      = .next ⟨s, .dispatch d none :: c.stack⟩ .internal := by
  have hwf : c.Wf w := .of_reachable hreach
  have hl := subtreeLists_of_reachable hreach
  obtain ⟨rt', hv⟩ := prepareVec_of_wf (w := w) hwf.tree hwf.heap hl (hwf.callerRegion_lt hr) hookId
    name (c.st.rt.regionAncestorChain r 65)
  obtain ⟨s, d, hloop, -, -⟩ := dispatchBegin_of_vec hcall hr hid hallowed hv retp
  exact ⟨s, d, by simp [step, hw, beginCall, hloop]⟩

/-- In a run, a dispatch through an adapter of the name comes to its loop exactly
when this adapter or the first that was registered has a trampoline, and otherwise
it fails; so the listeners below the caller run exactly then. -/
theorem dispatch_runs_iff {r : Nat} {first : AdapterRef} {rest : List AdapterRef}
    {retp : Option BufRef} (h : Trace w log c) (hfirst : registered name log = first :: rest)
    (hw : c.waiting = true) (hreg : c.st.AdapterOf reg name) (hr : c.st.callerRegion = some r)
    (hallowed : ¬ c.st.rt.DeniedAbove r name) :
    ((∃ s d, step w c (.call (.call retp (some reg) false))
        = .next ⟨s, .dispatch d none :: c.stack⟩ .internal)
        ↔ (c.st.adapters reg).call ≠ none ∨ (c.st.adapters first).call ≠ none)
      ∧ ((c.st.adapters reg).call = none ∧ (c.st.adapters first).call = none →
        ∃ s, step w c (.call (.call retp (some reg) false))
          = .next ⟨s, c.stack⟩ (.returned (.int xyErrNotfound)))
      ∧ ∀ hookId e me, c.st.rt.hookIdHd.lookup name = some hookId →
        c.st.rt.Listener w r hookId name e me →
        (RunsListeners w c retp reg e
          ↔ (c.st.adapters reg).call ≠ none ∨ (c.st.adapters first).call ≠ none) := by
  have hwf : c.Wf w := .of_reachable h.reachable
  have hknown := nameKnown_of_trace h name
  rw [hfirst] at hknown
  obtain ⟨hookId, hcan⟩ := hknown
  have hrefused : hookRefused c.st.rt (c.st.rt.ancChain (some r)) name = false := by
    rw [← Bool.not_eq_true, hookRefused_iff hwf.tree (denyFlag_of_reachable h.reachable)
      (hwf.callerRegion_lt hr) name]
    exact hallowed
  have hid : ∀ a call, resolveAdapter c.st (c.st.adapters reg) = some (a, call) →
      a.hookId = hookId ∧ a.name = name := by
    intro a call hres
    obtain ⟨a', call', hres', hhook, -⟩ := hcan.resolve hreg
    rw [hres] at hres'
    cases hres'
    exact ⟨hhook, (resolveAdapter_name hres).trans hreg.named⟩
  have hfails : ¬ c.st.Callable reg → ∃ s, step w c (.call (.call retp (some reg) false))
      = .next ⟨s, c.stack⟩ (.returned (.int xyErrNotfound)) := by
    intro hnot
    obtain ⟨s', hdone⟩ := hcan.not_callable (w := w) hreg hnot retp false
    exact ⟨s', by simp [step, hw, beginCall, hdone]⟩
  have hcallable : ∀ s d, step w c (.call (.call retp (some reg) false))
      = .next ⟨s, .dispatch d none :: c.stack⟩ .internal → c.st.Callable reg := by
    intro s' d hs'
    by_contra hnot
    obtain ⟨s, hs⟩ := hfails hnot
    rw [hs] at hs'
    injection hs' with hc hev
    cases hev
  rw [← hcan.callable_iff hreg]
  refine ⟨⟨fun hloop => ?_, fun hcall =>
      loop_of_callable h.reachable hw hr hcall hid hrefused retp⟩,
    fun hnone => hfails fun hcall => ?_, fun hookId' e me hlookup hlistener => ?_⟩
  · obtain ⟨s, d, hs⟩ := hloop
    exact hcallable s d hs
  · rw [hcan.callable_iff hreg] at hcall
    exact hcall.elim (fun h => h hnone.1) fun h => h hnone.2
  · obtain rfl : hookId = hookId' := Option.some.inj (hcan.named.symm.trans hlookup)
    constructor
    · intro hruns
      obtain ⟨s, d, hs, -⟩ := hruns
      exact hcallable s d hs
    · intro hcall
      exact runsListeners_of_callable h.reachable hw hr hcall hid hrefused hlistener retp

end

/-- The start of a run in which only the adapter `reg` has a trampoline. -/
def Config.bootWith (hook : CStr) (reg : AdapterRef) : Config :=
  ⟨State.boot (fun _ => { adapter := none, modulePath := none, regionId := 0, regionState := none })
    (fun i => { Adapter.plain hook with call := if i = reg then some 1 else none }) (fun _ => []),
    []⟩

/-- Two adapters are registered, the first of which has a trampoline, and a module
is loaded; the dispatch goes through the second. -/
theorem dispatch_runs_of_first :
    ∃ c, Reachable sampleWorld c ∧ (c.st.adapters 1).call = none
      ∧ RunsListeners sampleWorld c none 1 0 := by
  let l : List Action :=
    [.call (.areg sampleHook 0), .call (.areg sampleHook 1)] ++ loadRun sampleFile 1
  let c := (Config.bootWith sampleHook 0).after sampleWorld l
  have htrace : Trace sampleWorld (movesOf sampleWorld (Config.bootWith sampleHook 0) l) c :=
    .of_actions ⟨_, _, _, rfl⟩ (by decide +kernel)
  obtain ⟨me, hme⟩ : ∃ me, c.st.rt.mods 0 = some me :=
    Option.isSome_iff_exists.mp (by decide +kernel)
  have hcold : ¬ c.st.rt.Warm 0 0 := by decide +kernel
  have hmod : ∀ me ∈ c.st.rt.mods 0, me.ctx ≠ none
      ∧ c.st.rt.moduleDeniedByAncestors (c.st.rt.regionAncestorChain 0 65) me.loadPath = false
      ∧ (me.resolved sampleWorld 0 sampleHook).hasHookImplemented 0 = true
      ∧ (me.resolved sampleWorld 0 sampleHook).fnCell 0 ≠ .null := by decide +kernel
  obtain ⟨hbound, hundenied, himpl, hcallback⟩ := hmod me hme
  have hlistener : c.st.rt.Listener sampleWorld 0 0 sampleHook 0 me :=
    { entry := hme, below := by decide +kernel, bound := hbound, undenied := hundenied
      implements := himpl, callback := hcallback
      listed := fun hwarm => absurd hwarm hcold, live := fun hwarm => absurd hwarm hcold }
  have hreg : c.st.AdapterOf 1 sampleHook := by constructor <;> decide +kernel
  have hruns := (@dispatch_runs_iff _ _ _ _ _ 0 0 [1] none htrace (by decide +kernel)
    (by decide +kernel) hreg (by decide +kernel) (by decide +kernel)).2.2 0 0 me
    (by decide +kernel) hlistener |>.mpr (Or.inr (by decide +kernel))
  exact ⟨c, htrace.reachable, by decide +kernel, hruns⟩

/-- The same, but that the second adapter has the trampoline, and a dispatch goes
through the first. -/
theorem dispatch_fails_of_second :
    ∃ log c e me s, Trace sampleWorld log c ∧ registered sampleHook log = [0, 1]
      ∧ (c.st.adapters 1).call ≠ none ∧ c.waiting = true ∧ c.st.AdapterOf 0 sampleHook
      ∧ c.st.callerRegion = some 0 ∧ ¬ c.st.rt.DeniedAbove 0 sampleHook
      ∧ c.st.rt.hookIdHd.lookup sampleHook = some 0
      ∧ c.st.rt.Listener sampleWorld 0 0 sampleHook e me
      ∧ step sampleWorld c (.call (.call none (some 0) false))
        = .next ⟨s, c.stack⟩ (.returned (.int xyErrNotfound)) := by
  let l : List Action :=
    [.call (.areg sampleHook 0), .call (.areg sampleHook 1)] ++ loadRun sampleFile 1
  let c := (Config.bootWith sampleHook 1).after sampleWorld l
  have htrace : Trace sampleWorld (movesOf sampleWorld (Config.bootWith sampleHook 1) l) c :=
    .of_actions ⟨_, _, _, rfl⟩ (by decide +kernel)
  obtain ⟨me, hme⟩ : ∃ me, c.st.rt.mods 0 = some me :=
    Option.isSome_iff_exists.mp (by decide +kernel)
  have hcold : ¬ c.st.rt.Warm 0 0 := by decide +kernel
  have hmod : ∀ me ∈ c.st.rt.mods 0, me.ctx ≠ none
      ∧ c.st.rt.moduleDeniedByAncestors (c.st.rt.regionAncestorChain 0 65) me.loadPath = false
      ∧ (me.resolved sampleWorld 0 sampleHook).hasHookImplemented 0 = true
      ∧ (me.resolved sampleWorld 0 sampleHook).fnCell 0 ≠ .null := by decide +kernel
  obtain ⟨hbound, hundenied, himpl, hcallback⟩ := hmod me hme
  have hreg : c.st.AdapterOf 0 sampleHook := by constructor <;> decide +kernel
  have hcan : ∃ hookId, Canonical c.st sampleHook 0 hookId :=
    nameKnown_of_trace htrace sampleHook
  obtain ⟨hookId, hcan⟩ := hcan
  have hnot : ¬ c.st.Callable 0 := fun hcall => by
    have hsome := (hcan.callable_iff hreg).mp hcall
    exact absurd hsome (by decide +kernel)
  obtain ⟨s, hs⟩ := hcan.not_callable (w := sampleWorld) hreg hnot none false
  exact ⟨_, c, 0, me, s, htrace, by decide +kernel, by decide +kernel, by decide +kernel, hreg,
    by decide +kernel, by decide +kernel, by decide +kernel,
    { entry := hme, below := by decide +kernel, bound := hbound, undenied := hundenied
      implements := himpl, callback := hcallback
      listed := fun hwarm => absurd hwarm hcold, live := fun hwarm => absurd hwarm hcold },
    by simp only [step, beginCall, hs]; rfl⟩

end Xylem
