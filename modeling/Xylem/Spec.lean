import Xylem.Ops

/-!
# What the functions of the host do to a state

One lemma for each function: which parts of the state it writes, and what it
does to the runtime.  The invariants use these and do not unfold the functions.
-/

namespace Xylem

/-- Nothing has changed but return buffers, the error code and the adapters. -/
structure State.Still (s s' : State) : Prop where
  rt : s'.rt = s.rt
  ctxs : s'.ctxs = s.ctxs
  current : s'.tls.current = s.tls.current
  loadingMod : s'.tls.loadingMod = s.tls.loadingMod
  pendingCtx : s'.tls.pendingCtx = s.tls.pendingCtx
  strs : s'.strs = s.strs

namespace State

variable {s s' s'' : State}

theorem Still.refl (s : State) : s.Still s := ⟨rfl, rfl, rfl, rfl, rfl, rfl⟩

theorem Still.trans (h : s.Still s') (h' : s'.Still s'') : s.Still s'' :=
  ⟨h'.rt.trans h.rt, h'.ctxs.trans h.ctxs, h'.current.trans h.current,
    h'.loadingMod.trans h.loadingMod, h'.pendingCtx.trans h.pendingCtx, h'.strs.trans h.strs⟩

theorem still_setErr (s : State) (e : Int) : s.Still (s.setErr e) := ⟨rfl, rfl, rfl, rfl, rfl, rfl⟩

theorem still_writeBuf (s : State) (p : Option BufRef) (bytes : List UInt8) :
    s.Still (s.writeBuf p bytes) := by
  cases p <;> exact ⟨rfl, rfl, rfl, rfl, rfl, rfl⟩

theorem still_setLastRet (s : State) (p : Option BufRef) (n : Nat) : s.Still (s.setLastRet p n) := by
  unfold setLastRet
  split
  · split <;> exact ⟨rfl, rfl, rfl, rfl, rfl, rfl⟩
  · exact ⟨rfl, rfl, rfl, rfl, rfl, rfl⟩

theorem still_lastPublish (s : State) (ran : Nat) (p : Option BufRef) (reg : AdapterRef) :
    s.Still (s.lastPublish ran p reg) := ⟨rfl, rfl, rfl, rfl, rfl, rfl⟩

end State

theorem still_xyLast (s : State) (ret : Option BufRef) : s.Still (xyLast s ret).1 := by
  unfold xyLast
  split
  · exact ⟨rfl, rfl, rfl, rfl, rfl, rfl⟩
  · split
    · exact ⟨rfl, rfl, rfl, rfl, rfl, rfl⟩
    · dsimp only
      split
      · exact ⟨rfl, rfl, rfl, rfl, rfl, rfl⟩
      · exact (s.still_writeBuf ..).trans (State.still_setErr ..)
      · exact (s.still_writeBuf ..).trans (State.still_setErr ..)

theorem still_dispatchFail (s : State) (p : Option BufRef) (reg : AdapterRef) (err : Int) :
    s.Still (dispatchFail s p reg err).1 := by
  have h1 : s.Still { s with tls := { s.tls with lastRan := 0 } } := ⟨rfl, rfl, rfl, rfl, rfl, rfl⟩
  have h2 := (h1.trans (State.still_setLastRet _ none (s.adapters reg).retSize)).trans
    (State.still_writeBuf _ p (List.replicate (s.adapters reg).retSize 0))
  exact ⟨h2.rt, h2.ctxs, h2.current, h2.loadingMod, h2.pendingCtx, h2.strs⟩

theorem still_dispatchEnd (s : State) (p : Option BufRef) (reg : AdapterRef) (ran : Nat) :
    s.Still (dispatchEnd s p reg ran).1 := by
  unfold dispatchEnd
  have h1 : s.Still { s with tls := { s.tls with lastRan := ran } } := ⟨rfl, rfl, rfl, rfl, rfl, rfl⟩
  dsimp only
  split
  · exact ((h1.trans (State.still_setLastRet ..)).trans (State.still_writeBuf ..)).trans
      (State.still_setErr ..)
  · exact (h1.trans (State.still_setLastRet ..)).trans (State.still_setErr ..)

theorem still_xyRegionExists (s : State) (id : RegionId) (plen : Nat) :
    s.Still (xyRegionExists s id plen).1 := by
  unfold xyRegionExists
  split <;> exact ⟨rfl, rfl, rfl, rfl, rfl, rfl⟩

theorem still_xyRegionAt (s : State) (id : RegionId) (plen : Nat) :
    s.Still (xyRegionAt s id plen).1 := by
  unfold xyRegionAt
  split
  · exact ⟨rfl, rfl, rfl, rfl, rfl, rfl⟩
  · split <;> exact ⟨rfl, rfl, rfl, rfl, rfl, rfl⟩

/-! ## Returning -/

/-- The stack after a return differs from the one before in the place of a
reload at most. -/
inductive Resumed : List Frame → List Frame → Prop
  | same (k : List Frame) : Resumed k k
  | reload (rl : Reload) (pc pc' : ReloadPc) (k : List Frame) :
    Resumed (.reload rl pc :: k) (.reload rl pc' :: k)

theorem resume_spec {s : State} {ret : Int} {k : List Frame} {c' : Config} {ev : Event}
    (h : resume s ret k = .next c' ev) : s.Still c'.st ∧ Resumed k c'.stack := by
  unfold resume at h
  split at h <;> cases h
  · exact ⟨.refl s, .same _⟩
  · exact ⟨.refl s, .reload ..⟩
  · exact ⟨.refl s, .reload ..⟩
  · exact ⟨s.still_setErr ret, .same _⟩

/-! ## The start of a dispatch -/

/-- What holds at the head of the loop of a dispatch from `s`. -/
structure DispatchStarted (w : World) (s : State) (exactOnly : Bool) (s' : State) (d : Dispatch) :
    Prop where
  caller : s.callerRegion = some d.caller
  anc : d.anc = s.rt.regionAncestorChain d.caller 65
  regionId : d.regionId = s.tls.current.id
  selfOnly : d.selfOnly = exactOnly
  mi : d.mi = 0
  prevEntry : d.prevEntry = none
  entered : d.entered = []
  ctxs : s'.ctxs = s.ctxs
  current : s'.tls.current = s.tls.current
  loadingMod : s'.tls.loadingMod = s.tls.loadingMod
  self : exactOnly = true → s'.rt = s.rt ∧ d.me = (s.rt.modsOf d.caller).head?
    ∧ d.startSeq = (s.rt.modsOf d.caller).filter (selfListens w s.rt d.anc d.hookId d.name)
  subtree : exactOnly = false → s.rt.prepareVec w d.caller d.hookId d.name d.anc = some s'.rt
    ∧ d.slots = (s'.rt.hookVec d.caller d.hookId).slots
    ∧ d.n = (s'.rt.hookVec d.caller d.hookId).count
    ∧ d.startSeq = (((s'.rt.hookVec d.caller d.hookId).cells.take d.n).filter
        (slotListens s'.rt)).map (·.me)

theorem dispatchScope_spec {w : World} {s : State} {d : Dispatch} {start : DispatchStart}
    (h : dispatchScope w s d = some start) :
    (d.selfOnly = true ∧ start = .loop s { d with
        me := (s.rt.modsOf d.caller).head?
        startSeq := (s.rt.modsOf d.caller).filter (selfListens w s.rt d.anc d.hookId d.name) })
      ∨ (d.selfOnly = false ∧ ∃ rt, s.rt.prepareVec w d.caller d.hookId d.name d.anc = some rt
        ∧ start = .loop { s with rt := rt } { d with
            slots := (rt.hookVec d.caller d.hookId).slots
            n := (rt.hookVec d.caller d.hookId).count
            startSeq := (((rt.hookVec d.caller d.hookId).cells.take
              (rt.hookVec d.caller d.hookId).count).filter (slotListens rt)).map (·.me) }) := by
  unfold dispatchScope at h
  split at h
  · next hself =>
    cases h
    exact Or.inl ⟨hself, rfl⟩
  · next hself =>
    obtain ⟨rt, hrt, rfl⟩ := Option.map_eq_some_iff.mp h
    exact Or.inr ⟨by simpa using hself, rt, hrt, rfl⟩

theorem dispatchResolved_spec {w : World} {s : State} {retp : Option BufRef} {reg : AdapterRef}
    {a : Adapter} {exactOnly : Bool} {start : DispatchStart}
    (h : dispatchResolved w s retp reg a exactOnly = some start) :
    (∃ s' ret, start = .done s' ret ∧ s.Still s')
      ∨ ∃ s' d, start = .loop s' d ∧ DispatchStarted w s exactOnly s' d := by
  unfold dispatchResolved at h
  dsimp only at h
  split at h
  · cases h
    exact Or.inl ⟨_, _, rfl, still_dispatchFail ..⟩
  · have hpub : (s.lastPublish 0 retp reg).callerRegion = s.callerRegion := rfl
    rw [hpub] at h
    cases hcr : s.callerRegion with
    | none =>
      rw [hcr] at h
      cases h
      exact Or.inl ⟨_, _, rfl, (s.still_lastPublish ..).trans (still_dispatchEnd ..)⟩
    | some r =>
      rw [hcr] at h
      refine Or.inr ?_
      rcases dispatchScope_spec h with ⟨hself, rfl⟩ | ⟨hself, rt, hrt, rfl⟩
      · refine ⟨_, _, rfl, ?_⟩
        dsimp only at hself
        exact
          { caller := hcr, anc := rfl, regionId := rfl, selfOnly := rfl, mi := rfl
            prevEntry := rfl, entered := rfl, ctxs := rfl, current := rfl, loadingMod := rfl
            self := fun _ => ⟨rfl, rfl, rfl⟩
            subtree := fun hf => by rw [hself] at hf; cases hf }
      · refine ⟨_, _, rfl, ?_⟩
        dsimp only at hself
        exact
          { caller := hcr, anc := rfl, regionId := rfl, selfOnly := rfl, mi := rfl
            prevEntry := rfl, entered := rfl, ctxs := rfl, current := rfl, loadingMod := rfl
            self := fun hf => by rw [hself] at hf; cases hf
            subtree := fun _ => ⟨hrt, rfl, rfl, rfl⟩ }

theorem dispatchBegin_spec {w : World} {s : State} {retp : Option BufRef}
    {regp : Option AdapterRef} {exactOnly : Bool} {start : DispatchStart}
    (h : dispatchBegin w s retp regp exactOnly = some start) :
    (∃ s' ret, start = .done s' ret ∧ s.Still s')
      ∨ ∃ s' d, start = .loop s' d ∧ DispatchStarted w s exactOnly s' d := by
  unfold dispatchBegin at h
  dsimp only at h
  split at h
  · cases h
    exact Or.inl ⟨_, _, rfl, s.still_setErr _⟩
  · next reg =>
    split at h
    · cases h
      exact Or.inl ⟨_, _, rfl, still_dispatchFail ..⟩
    · next a call _ =>
      have h1 : s.Still { s with adapters := Function.update s.adapters reg a } :=
        ⟨rfl, rfl, rfl, rfl, rfl, rfl⟩
      generalize hs1 : ({ s with adapters := Function.update s.adapters reg a } : State) = s1
        at h h1
      split at h
      · cases h
        exact Or.inl ⟨_, _, rfl, h1.trans (still_dispatchFail ..)⟩
      · split at h
        · cases h
          exact Or.inl ⟨_, _, rfl, h1.trans (still_dispatchFail ..)⟩
        · rcases dispatchResolved_spec h with ⟨s', ret, rfl, hs'⟩ | ⟨s', d, rfl, hd⟩
          · exact Or.inl ⟨_, _, rfl, h1.trans hs'⟩
          · refine Or.inr ⟨_, _, rfl, ?_⟩
            subst hs1
            exact ⟨hd.caller, hd.anc, hd.regionId, hd.selfOnly, hd.mi, hd.prevEntry, hd.entered,
              hd.ctxs, hd.current, hd.loadingMod, hd.self, hd.subtree⟩

theorem dispatchBegin_done {w : World} {s s' : State} {retp : Option BufRef}
    {regp : Option AdapterRef} {exactOnly : Bool} {ret : Int}
    (h : dispatchBegin w s retp regp exactOnly = some (.done s' ret)) : s.Still s' := by
  rcases dispatchBegin_spec h with ⟨_, _, heq, hs'⟩ | ⟨_, _, heq, -⟩ <;> cases heq
  exact hs'

theorem dispatchBegin_loop {w : World} {s s' : State} {retp : Option BufRef}
    {regp : Option AdapterRef} {exactOnly : Bool} {d : Dispatch}
    (h : dispatchBegin w s retp regp exactOnly = some (.loop s' d)) :
    DispatchStarted w s exactOnly s' d := by
  rcases dispatchBegin_spec h with ⟨_, _, heq, -⟩ | ⟨_, _, heq, hd⟩ <;> cases heq
  exact hd

/-! ## What loads and unloads alone write -/

/-- The contexts, their path strings, the module that is being loaded and the blocks that have
been cleaned up are as they were. -/
structure State.KeepsModules (s s' : State) : Prop where
  ctxs : s'.ctxs = s.ctxs
  loadingMod : s'.tls.loadingMod = s.tls.loadingMod
  strs : s'.strs = s.strs
  nstrs : s'.nstrs = s.nstrs
  cleanups : s'.cleanups = s.cleanups

namespace State

theorem KeepsModules.trans {s s' s'' : State} (h : s.KeepsModules s') (h' : s'.KeepsModules s'') :
    s.KeepsModules s'' :=
  ⟨h'.ctxs.trans h.ctxs, h'.loadingMod.trans h.loadingMod, h'.strs.trans h.strs,
    h'.nstrs.trans h.nstrs, h'.cleanups.trans h.cleanups⟩

theorem keepsModules_writeBuf (s : State) (p : Option BufRef) (bytes : List UInt8) :
    s.KeepsModules (s.writeBuf p bytes) := by
  cases p <;> exact ⟨rfl, rfl, rfl, rfl, rfl⟩

theorem keepsModules_setLastRet (s : State) (p : Option BufRef) (n : Nat) :
    s.KeepsModules (s.setLastRet p n) := by
  unfold setLastRet
  split
  · split <;> exact ⟨rfl, rfl, rfl, rfl, rfl⟩
  · exact ⟨rfl, rfl, rfl, rfl, rfl⟩

end State

theorem keepsModules_xyLast (s : State) (ret : Option BufRef) :
    s.KeepsModules (xyLast s ret).1 := by
  unfold xyLast
  split
  · exact ⟨rfl, rfl, rfl, rfl, rfl⟩
  · split
    · exact ⟨rfl, rfl, rfl, rfl, rfl⟩
    · dsimp only
      split
      · exact ⟨rfl, rfl, rfl, rfl, rfl⟩
      · exact (s.keepsModules_writeBuf ..).trans ⟨rfl, rfl, rfl, rfl, rfl⟩
      · exact (s.keepsModules_writeBuf ..).trans ⟨rfl, rfl, rfl, rfl, rfl⟩

theorem keepsModules_dispatchFail (s : State) (p : Option BufRef) (reg : AdapterRef) (err : Int) :
    s.KeepsModules (dispatchFail s p reg err).1 := by
  have h1 : s.KeepsModules { s with tls := { s.tls with lastRan := 0 } } :=
    ⟨rfl, rfl, rfl, rfl, rfl⟩
  have h2 := (h1.trans (State.keepsModules_setLastRet _ none (s.adapters reg).retSize)).trans
    (State.keepsModules_writeBuf _ p (List.replicate (s.adapters reg).retSize 0))
  exact h2.trans ⟨rfl, rfl, rfl, rfl, rfl⟩

theorem keepsModules_dispatchEnd (s : State) (p : Option BufRef) (reg : AdapterRef) (ran : Nat) :
    s.KeepsModules (dispatchEnd s p reg ran).1 := by
  have h1 : s.KeepsModules { s with tls := { s.tls with lastRan := ran } } :=
    ⟨rfl, rfl, rfl, rfl, rfl⟩
  unfold dispatchEnd
  dsimp only
  split
  · exact ((h1.trans (State.keepsModules_setLastRet ..)).trans
      (State.keepsModules_writeBuf ..)).trans ⟨rfl, rfl, rfl, rfl, rfl⟩
  · exact (h1.trans (State.keepsModules_setLastRet ..)).trans ⟨rfl, rfl, rfl, rfl, rfl⟩

/-- The state with which a dispatch returns, or comes to its loop. -/
def DispatchStart.st : DispatchStart → State
  | .done s _ => s
  | .loop s _ => s

theorem keepsModules_dispatchResolved {w : World} {s : State} {retp : Option BufRef}
    {reg : AdapterRef} {a : Adapter} {selfOnly : Bool} {start : DispatchStart}
    (h : dispatchResolved w s retp reg a selfOnly = some start) : s.KeepsModules start.st := by
  have hpub : s.KeepsModules (s.lastPublish 0 retp reg) := ⟨rfl, rfl, rfl, rfl, rfl⟩
  unfold dispatchResolved at h
  dsimp only at h
  split at h
  · cases h
    exact keepsModules_dispatchFail ..
  · split at h
    · cases h
      exact hpub.trans (keepsModules_dispatchEnd ..)
    · rcases dispatchScope_spec h with ⟨-, rfl⟩ | ⟨-, rt, -, rfl⟩
      · exact hpub
      · exact hpub.trans ⟨rfl, rfl, rfl, rfl, rfl⟩

theorem keepsModules_dispatchBegin {w : World} {s : State} {retp : Option BufRef}
    {regp : Option AdapterRef} {selfOnly : Bool} {start : DispatchStart}
    (h : dispatchBegin w s retp regp selfOnly = some start) : s.KeepsModules start.st := by
  unfold dispatchBegin at h
  dsimp only at h
  split at h
  · cases h
    exact ⟨rfl, rfl, rfl, rfl, rfl⟩
  · next reg =>
    split at h
    · cases h
      exact keepsModules_dispatchFail ..
    · next a call _ =>
      have h1 : s.KeepsModules { s with adapters := Function.update s.adapters reg a } :=
        ⟨rfl, rfl, rfl, rfl, rfl⟩
      split at h
      · cases h
        exact h1.trans (keepsModules_dispatchFail ..)
      · split at h
        · cases h
          exact h1.trans (keepsModules_dispatchFail ..)
        · exact h1.trans (keepsModules_dispatchResolved h)

/-- A call that returns at once.  Only `xy_claim_at` writes the current region. -/
theorem callDirect_keeps {w : World} {s s' : State} {q : Call} {v : Value}
    (h : callDirect w s q = some (s', v)) :
    s.KeepsModules s'
      ∧ (s'.tls.current = s.tls.current ∨ ∃ id plen fn, q = .claimAt id plen fn) := by
  cases q with
  | deny what type =>
    obtain rfl : (xyDeny w s what type).1 = s' := congrArg Prod.fst (Option.some.inj h)
    unfold xyDeny
    split <;> exact ⟨⟨rfl, rfl, rfl, rfl, rfl⟩, Or.inl rfl⟩
  | requireClaim fn =>
    obtain rfl : (xyRequireClaim s fn).1 = s' := congrArg Prod.fst (Option.some.inj h)
    unfold xyRequireClaim
    split <;> exact ⟨⟨rfl, rfl, rfl, rfl, rfl⟩, Or.inl rfl⟩
  | claimAt id plen fn =>
    obtain rfl : (xyClaimAt s id plen fn).1 = s' := congrArg Prod.fst (Option.some.inj h)
    refine ⟨?_, Or.inr ⟨id, plen, fn, rfl⟩⟩
    unfold xyClaimAt
    split
    · exact ⟨rfl, rfl, rfl, rfl, rfl⟩
    · split
      · exact ⟨rfl, rfl, rfl, rfl, rfl⟩
      · split
        · exact ⟨rfl, rfl, rfl, rfl, rfl⟩
        · split
          · exact ⟨rfl, rfl, rfl, rfl, rfl⟩
          · dsimp only
            split <;> exact ⟨rfl, rfl, rfl, rfl, rfl⟩
  | regionExists id plen =>
    obtain rfl : (xyRegionExists s id plen).1 = s' := congrArg Prod.fst (Option.some.inj h)
    unfold xyRegionExists
    split <;> exact ⟨⟨rfl, rfl, rfl, rfl, rfl⟩, Or.inl rfl⟩
  | regionAt id plen =>
    obtain rfl : (xyRegionAt s id plen).1 = s' := congrArg Prod.fst (Option.some.inj h)
    unfold xyRegionAt
    split
    · exact ⟨⟨rfl, rfl, rfl, rfl, rfl⟩, Or.inl rfl⟩
    · split <;> exact ⟨⟨rfl, rfl, rfl, rfl, rfl⟩, Or.inl rfl⟩
  | areg name reg =>
    obtain rfl : (xyAreg w s name reg).1 = s' := congrArg Prod.fst (Option.some.inj h)
    unfold xyAreg
    split
    · exact ⟨⟨rfl, rfl, rfl, rfl, rfl⟩, Or.inl rfl⟩
    · split <;> exact ⟨⟨rfl, rfl, rfl, rfl, rfl⟩, Or.inl rfl⟩
  | last ret =>
    obtain rfl : (xyLast s ret).1 = s' := congrArg Prod.fst (Option.some.inj h)
    exact ⟨keepsModules_xyLast s ret, Or.inl (still_xyLast s ret).current⟩
  | currentRegion | currentRegionPlen | errno | selfInitCtx =>
    cases h
    exact ⟨⟨rfl, rfl, rfl, rfl, rfl⟩, Or.inl rfl⟩
  | load | unload | reload | withRegion | regionEach | call | shutdown => cases h

/-! ## The steps of a load -/

theorem modLoadBindXy_spec (w : World) (s : State) (tx : LoadTxn) :
    (modLoadBindXy w s tx).1.tls.current = s.tls.current
      ∧ (modLoadBindXy w s tx).1.tls.loadingMod = s.tls.loadingMod
      ∧ (((modLoadBindXy w s tx).1.rt = s.rt ∧ (modLoadBindXy w s tx).1.ctxs = s.ctxs)
        ∨ ∃ c e, modLoadCtx w s tx = some c ∧ tx.modEntry = some e
          ∧ (modLoadBindXy w s tx).2 = xyOk
          ∧ (modLoadBindXy w s tx).1.rt = s.rt.modifyMod e (fun me => { me with ctx := some c })
          ∧ (modLoadBindXy w s tx).1.ctxs = Function.update s.ctxs c
              (xyInit (s.ctxs c) tx.stableFname tx.inheritedRegionId)) := by
  unfold modLoadBindXy
  dsimp only
  split
  · next c e hc he =>
    split
    · exact ⟨rfl, rfl, Or.inl ⟨rfl, rfl⟩⟩
    · exact ⟨rfl, rfl, Or.inr ⟨c, e, hc, he, rfl, rfl, rfl⟩⟩
  · exact ⟨rfl, rfl, Or.inl ⟨rfl, rfl⟩⟩

/-- The handler that is asked is the one of the region that is loaded into. -/
theorem modLoadClaimGate_ask {w : World} {s : State} {tx : LoadTxn} {parent : RegionRef}
    {fn : HandlerRef} {bits : Nat} (h : modLoadClaimGate w s tx = .ask parent fn bits) :
    s.rt.regionLookup tx.inheritedRegionId tx.inheritedRegionPlen = some parent := by
  unfold modLoadClaimGate at h
  split at h
  · cases h
  · split at h <;> cases h
  · split at h
    · cases h
    · split at h
      · cases h
      · split at h
        · cases h
        · split at h
          · cases h
          · cases h
            assumption

/-- What a granted claim does. -/
theorem xyClaimGranted_ok {s s' : State} {parent : RegionRef} {ret : Int} {bits : Nat}
    {child : RegionKey} (h : xyClaimGranted s parent ret bits = .ok (s', child)) :
    ret = xyOk ∧ (0 < bits ∧ bits ≤ 64)
      ∧ child = ⟨s.rt.regionAllocSlot parent bits,
          Runtime.childPlen (s.rt.regions parent).toRegionNode bits⟩
      ∧ child.id ≠ xyRegionInvalid
      ∧ s' = { s with rt := s.rt.addRegion parent child.id child.plen bits none }.setCurrentRegion
          ⟨child.id, some s.rt.nregions⟩ := by
  unfold xyClaimGranted at h
  split at h
  · cases h
  · next hret =>
    split at h
    · cases h
    · next hbits =>
      dsimp only at h
      split at h
      · cases h
      · next hslot =>
        cases h
        exact ⟨not_not.mp hret, by omega, rfl, hslot, rfl⟩

theorem modLoadRestoreContext_spec (s : State) (tx : LoadTxn) :
    (modLoadRestoreContext s tx).rt = s.rt ∧ (modLoadRestoreContext s tx).ctxs = s.ctxs
      ∧ (modLoadRestoreContext s tx).tls.loadingMod = s.tls.loadingMod
      ∧ (modLoadRestoreContext s tx).strs = s.strs
      ∧ (modLoadRestoreContext s tx).tls.current
        = if tx.contextActive then tx.prevRegion else s.tls.current := by
  unfold modLoadRestoreContext
  split <;> exact ⟨rfl, rfl, rfl, rfl, rfl⟩

theorem moduleCleanupRegionState_still (w : World) (s : State) (me : ModEntry) :
    s.Still (moduleCleanupRegionState w s me) := by
  unfold moduleCleanupRegionState
  split <;> exact ⟨rfl, rfl, rfl, rfl, rfl, rfl⟩

theorem modLoadFreeFname_spec (s : State) (tx : LoadTxn) :
    (modLoadFreeFname s tx).rt = s.rt ∧ (modLoadFreeFname s tx).ctxs = s.ctxs
      ∧ (modLoadFreeFname s tx).tls = s.tls := by
  unfold modLoadFreeFname
  split <;> exact ⟨rfl, rfl, rfl⟩

theorem modLoadAbort_spec {w : World} {s s' : State} {tx : LoadTxn} {e : EntryRef}
    (he : tx.modEntry = some e) (h : modLoadAbort w s tx = some s') :
    ∃ me, s.rt.mods e = some me ∧ s'.rt = s.rt.abortEntry w e me tx.publishedEntry
      ∧ s'.ctxs = s.ctxs ∧ s'.tls.loadingMod = s.tls.loadingMod
      ∧ s'.tls.current = if tx.contextActive then tx.prevRegion else s.tls.current := by
  obtain ⟨hrt, hctxs, hload, -, hcur⟩ := modLoadRestoreContext_spec s tx
  obtain ⟨hrt2, hctxs2, htls2⟩ := modLoadFreeFname_spec (modLoadRestoreContext s tx) tx
  unfold modLoadAbort at h
  dsimp only at h
  rw [he] at h
  dsimp only at h
  rw [hrt2, hrt] at h
  split at h
  · cases h
  · next me hme =>
    have hclean := moduleCleanupRegionState_still w
      (modLoadFreeFname (modLoadRestoreContext s tx) tx) me
    cases h
    refine ⟨me, hme, ?_, ?_, ?_, ?_⟩
    · rw [hclean.rt, hrt2, hrt]
    · exact hclean.ctxs.trans (hctxs2.trans hctxs)
    · exact hclean.loadingMod.trans ((congrArg Tls.loadingMod htls2).trans hload)
    · exact hclean.current.trans ((congrArg Tls.current htls2).trans hcur)

theorem modUnloadFinish_spec (w : World) (s : State) (e : EntryRef) (me : ModEntry) :
    (modUnloadFinish w s e me).rt = s.rt.removeEntry w e me
      ∧ (modUnloadFinish w s e me).ctxs = s.ctxs
      ∧ (modUnloadFinish w s e me).tls.current = s.tls.current
      ∧ (modUnloadFinish w s e me).tls.loadingMod = s.tls.loadingMod := by
  have h := moduleCleanupRegionState_still w { s with rt := s.rt.removeEntry w e me } me
  exact ⟨h.rt, h.ctxs, h.current, h.loadingMod⟩

/-- A re-keying either finds no entry, or writes the one that it finds under the
parent's key. -/
theorem moduleRekeyForClaim_spec (w : World) (s : State) (caller : CStr) (pk ck : RegionKey) :
    (moduleRekeyForClaim w s caller pk ck).tls = s.tls
      ∧ ((s.rt.modHd.lookup (modKey (w.loadPath caller) pk.id pk.plen) = none
          ∧ moduleRekeyForClaim w s caller pk ck = s)
        ∨ ∃ e, s.rt.modHd.lookup (modKey (w.loadPath caller) pk.id pk.plen) = some e
          ∧ (moduleRekeyForClaim w s caller pk ck).rt
            = s.rt.moduleRekeyLoadedEntry e (modKey (w.loadPath caller) pk.id pk.plen)
                (w.loadPath caller) pk ck
          ∧ (moduleRekeyForClaim w s caller pk ck).ctxs
            = match (s.rt.mods e).bind (·.ctx) with
              | none => s.ctxs
              | some c => Function.update s.ctxs c { s.ctxs c with regionId := ck.id }) := by
  simp only [moduleRekeyForClaim, moduleLookupFromFname]
  cases s.rt.modHd.lookup (modKey (w.loadPath caller) pk.id pk.plen) with
  | none => exact ⟨rfl, Or.inl ⟨rfl, rfl⟩⟩
  | some e => exact ⟨rfl, Or.inr ⟨e, rfl, rfl, rfl⟩⟩

theorem xyShutdown_spec (w : World) (s : State) :
    (xyShutdown w s).rt = s.rt.bootstrap ∧ (xyShutdown w s).ctxs = s.ctxs
      ∧ (xyShutdown w s).tls.current = ⟨0, some 0⟩
      ∧ (xyShutdown w s).tls.loadingMod = s.tls.loadingMod := by
  have hfold : ∀ (l : List EntryRef) (s0 : State),
      s0.Still (l.foldl (fun s e => (s.rt.mods e).elim s (moduleCleanupRegionState w s)) s0) := by
    intro l
    induction l with
    | nil => exact .refl
    | cons e l ih =>
      intro s0
      have hone : s0.Still ((s0.rt.mods e).elim s0 (moduleCleanupRegionState w s0)) := by
        cases s0.rt.mods e with
        | none => exact .refl s0
        | some me => exact moduleCleanupRegionState_still w s0 me
      exact hone.trans (ih _)
  have h := hfold (s.rt.modHdValues w) s
  exact ⟨congrArg Runtime.bootstrap h.rt, h.ctxs, rfl, h.loadingMod⟩

end Xylem
