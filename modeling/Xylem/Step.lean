import Xylem.Machine

/-!
# What one step can do

`step` is a function with many branches.  `Step` lists them, one constructor for
each way a step can go, with the tests that lead there, and `Step.of_step` says
that the list is complete.  An invariant is then a case analysis over `Step`.
-/

namespace Xylem

/-- What `_mod_unload` does up to its cascade. -/
inductive Unloads (w : World) (s : State) (fname : CStr) (id : RegionId) (plen : Nat)
    (k : List Frame) : Config → Event → Prop
  | notFound {c' : Config} {ev : Event}
      (hl : s.rt.modHd.lookup (modKey (w.loadPath fname) id plen) = none)
      (hr : resume (s.setErr xyErrNotfound) xyErrNotfound k = .next c' ev) :
      Unloads w s fname id plen k c' ev
  | shared {e : EntryRef} {me : ModEntry} {c' : Config} {ev : Event}
      (hl : s.rt.modHd.lookup (modKey (w.loadPath fname) id plen) = some e)
      (hme : s.rt.mods e = some me) (href : 0 < me.refcount - 1)
      (hr : resume (s.release e) xyOk k = .next c' ev) : Unloads w s fname id plen k c' ev
  | cascade {e : EntryRef} {me : ModEntry}
      (hl : s.rt.modHd.lookup (modKey (w.loadPath fname) id plen) = some e)
      (hme : s.rt.mods e = some me) (href : ¬ 0 < me.refcount - 1) :
      Unloads w s fname id plen k
        ⟨s.release e, .unload e ((s.release e).rt.cascadeChildren w e) :: k⟩ .internal

theorem Unloads.of_beginUnload {w : World} {s : State} {fname : CStr} {id : RegionId} {plen : Nat}
    {k : List Frame} {c' : Config} {ev : Event}
    (h : beginUnload w s fname id plen k = .next c' ev) : Unloads w s fname id plen k c' ev := by
  unfold beginUnload moduleLookupFromFname at h
  dsimp only at h
  split at h
  · exact .notFound ‹_› h
  · split at h
    · cases h
    · split at h
      · exact .shared ‹_› ‹_› ‹_› h
      · cases h
        exact .cascade ‹_› ‹_› ‹_›

/-- The ways a step can go. -/
inductive Step (w : World) : Config → Action → Config → Event → Prop
  -- Calls of the API
  | load {c : Config} {fname : CStr} (hw : c.waiting) :
      Step w c (.call (.load fname))
        ⟨c.st, .load (modLoadStart w c.st fname) .opening :: c.stack⟩ (.enterConstructor fname)
  | unload {c c' : Config} {ev : Event} {fname : CStr} (hw : c.waiting)
      (hu : Unloads w c.st fname c.st.tls.current.id c.st.regionCurrentPlen c.stack c' ev) :
      Step w c (.call (.unload fname)) c' ev
  | reload {c c' : Config} {ev : Event} {fname : CStr} {e : EntryRef} {me : ModEntry}
      (hw : c.waiting)
      (hl : c.st.rt.modHd.lookup
        (modKey (w.loadPath fname) c.st.tls.current.id c.st.regionCurrentPlen) = some e)
      (hme : c.st.rt.mods e = some me)
      (hu : Unloads w c.st fname c.st.tls.current.id c.st.regionCurrentPlen
        (.reload
          { fname := fname, id := c.st.tls.current.id, plen := c.st.regionCurrentPlen,
            insertAfter := c.st.rt.regionPrev e me, re := me.regionEntry } .unloading
          :: c.stack) c' ev) :
      Step w c (.call (.reload fname)) c' ev
  | scope {c : Config} {id : RegionId} {plen : Nat} {target : RegionRef} (hw : c.waiting)
      (hl : c.st.rt.regionLookup id plen = some target) :
      Step w c (.call (.withRegion id plen true))
        ⟨c.st.setCurrentRegion ⟨id, some target⟩, .scope c.st.tls.current :: c.stack⟩ .enterScope
  | eachFirst {c : Config} {parent child : RegionRef} (hw : c.waiting)
      (hp : c.st.tls.current.entry = some parent)
      (hc : (c.st.rt.regions parent).children.head? = some child) :
      Step w c (.call .regionEach) ⟨c.st, .each child :: c.stack⟩
        (.enterVisit (c.st.rt.regions child).id (c.st.rt.regions child).plen)
  /-- A call that stores a return code and returns. -/
  | answered {c : Config} {q : Call} {n : Int} (hw : c.waiting) :
      Step w c (.call q) ⟨c.st.setErr n, c.stack⟩ (.returned (.int n))
  | direct {c : Config} {q : Call} {s : State} {v : Value} (hw : c.waiting)
      (hq : callDirect w c.st q = some (s, v)) :
      Step w c (.call q) ⟨s, c.stack⟩ (.returned v)
  | dispatchDone {c : Config} {retp : Option BufRef} {reg : Option AdapterRef} {selfOnly : Bool}
      {s : State} {ret : Int} (hw : c.waiting)
      (hd : dispatchBegin w c.st retp reg selfOnly = some (.done s ret)) :
      Step w c (.call (.call retp reg selfOnly)) ⟨s, c.stack⟩ (.returned (.int ret))
  | dispatchLoop {c : Config} {retp : Option BufRef} {reg : Option AdapterRef} {selfOnly : Bool}
      {s : State} {d : Dispatch} (hw : c.waiting)
      (hd : dispatchBegin w c.st retp reg selfOnly = some (.loop s d)) :
      Step w c (.call (.call retp reg selfOnly)) ⟨s, .dispatch d none :: c.stack⟩ .internal
  | shutdown {s : State} :
      Step w ⟨s, []⟩ (.call .shutdown) ⟨xyShutdown w s, []⟩ (.returned .void)
  -- `_mod_load`
  | dlopenFailed {s : State} {k : List Frame} {tx : LoadTxn} {c' : Config} {ev : Event}
      (hr : resume (s.setErr xyErrNotfound) xyErrNotfound k = .next c' ev) :
      Step w ⟨s, .load tx .opening :: k⟩ (.ret (.dlopened none)) c' ev
  | dlopened {s : State} {k : List Frame} {tx : LoadTxn} {h : Handle} :
      Step w ⟨s, .load tx .opening :: k⟩ (.ret (.dlopened (some h)))
        ⟨s, .load { tx with handle := h } .opened :: k⟩ .internal
  | reuse {s : State} {k : List Frame} {tx : LoadTxn} {e : EntryRef} {me : ModEntry}
      {c' : Config} {ev : Event} (hl : tx.lookup.entry = some e) (hme : s.rt.mods e = some me)
      (hr : resume (modLoadReuse s e) xyOk k = .next c' ev) :
      Step w ⟨s, .load tx .opened :: k⟩ .tau c' ev
  | publish {s : State} {k : List Frame} {tx : LoadTxn} (hl : tx.lookup.entry = none) :
      Step w ⟨s, .load tx .opened :: k⟩ .tau
        ⟨(modLoadAllocPublish s tx).1, .load (modLoadAllocPublish s tx).2 .bind :: k⟩ .internal
  | bind {s : State} {k : List Frame} {tx : LoadTxn} :
      Step w ⟨s, .load tx .bind :: k⟩ .tau
        ⟨(modLoadBindXy w s tx).1,
          .load tx (if (modLoadBindXy w s tx).2 = xyOk then .claim
            else .aborting (modLoadBindXy w s tx).2) :: k⟩ .internal
  | claimFlat {s : State} {k : List Frame} {tx : LoadTxn}
      (hg : modLoadClaimGate w (modLoadEnterContext s tx).1 (modLoadEnterContext s tx).2 = .flat) :
      Step w ⟨s, .load tx .claim :: k⟩ .tau
        ⟨(modLoadEnterContext s tx).1, .load (modLoadEnterContext s tx).2 .link :: k⟩ .internal
  | claimRefused {s : State} {k : List Frame} {tx : LoadTxn} {err : Int}
      (hg : modLoadClaimGate w (modLoadEnterContext s tx).1 (modLoadEnterContext s tx).2
        = .refuse err) :
      Step w ⟨s, .load tx .claim :: k⟩ .tau
        ⟨(modLoadEnterContext s tx).1.setErr err,
          .load (modLoadEnterContext s tx).2 (.aborting err) :: k⟩ .internal
  | claimAsked {s : State} {k : List Frame} {tx : LoadTxn} {parent : RegionRef} {fn : HandlerRef}
      {bits : Nat}
      (hg : modLoadClaimGate w (modLoadEnterContext s tx).1 (modLoadEnterContext s tx).2
        = .ask parent fn bits) :
      Step w ⟨s, .load tx .claim :: k⟩ .tau
        ⟨(modLoadEnterContext s tx).1, .load (modLoadEnterContext s tx).2 (.handler parent) :: k⟩
        (.enterHandler fn bits)
  | notGranted {s : State} {k : List Frame} {tx : LoadTxn} {parent : RegionRef} {ret err : Int}
      {bits : Nat} (hg : xyClaimGranted s parent ret bits = .error err) :
      Step w ⟨s, .load tx (.handler parent) :: k⟩ (.ret (.granted ret bits))
        ⟨s.setErr err, .load tx (.aborting err) :: k⟩ .internal
  | granted {s s' : State} {k : List Frame} {tx : LoadTxn} {parent : RegionRef} {ret : Int}
      {bits : Nat} {child : RegionKey} (hg : xyClaimGranted s parent ret bits = .ok (s', child)) :
      Step w ⟨s, .load tx (.handler parent) :: k⟩ (.ret (.granted ret bits))
        ⟨s', .load tx (.rekey child) :: k⟩ .internal
  | rekey {s : State} {k : List Frame} {tx : LoadTxn} {child : RegionKey} {e : EntryRef}
      {me : ModEntry} (he : tx.modEntry = some e) (hme : s.rt.mods e = some me) :
      Step w ⟨s, .load tx (.rekey child) :: k⟩ .tau
        ⟨(moduleRekeyForClaim w s tx.fname tx.inheritedKey child).setErr xyOk,
          .load tx .link :: k⟩ .internal
  | link {s : State} {k : List Frame} {tx : LoadTxn} {e : EntryRef} {me : ModEntry}
      (he : tx.modEntry = some e) (hme : s.rt.mods e = some me) :
      Step w ⟨s, .load tx .link :: k⟩ .tau ⟨modLoadLink w s tx e me, .load tx .install :: k⟩
        .internal
  | installMissing {s : State} {k : List Frame} {tx : LoadTxn} {e : EntryRef}
      (he : tx.modEntry = some e) (hi : w.dlsym tx.handle .xyInstall = none) :
      Step w ⟨s, .load tx .install :: k⟩ .tau
        ⟨modLoadPrewarm w s e, .load tx (.aborting xyErrNotfound) :: k⟩ .internal
  | install {s : State} {k : List Frame} {tx : LoadTxn} {e : EntryRef}
      (he : tx.modEntry = some e) (hi : w.dlsym tx.handle .xyInstall ≠ none) :
      Step w ⟨s, .load tx .install :: k⟩ .tau
        ⟨{ modLoadPrewarm w s e with tls := { s.tls with loadingMod := some e } },
          .load tx (.installing s.tls.loadingMod) :: k⟩ (.enterInstall e)
  | installed {s : State} {k : List Frame} {tx : LoadTxn} {prev : Option EntryRef}
      {c' : Config} {ev : Event}
      (hr : resume (modLoadRestoreContext { s with tls := { s.tls with loadingMod := prev } } tx)
        xyOk k = .next c' ev) :
      Step w ⟨s, .load tx (.installing prev) :: k⟩ (.ret .installed) c' ev
  | abort {s s' : State} {k : List Frame} {tx : LoadTxn} {err : Int} {c' : Config} {ev : Event}
      (ha : modLoadAbort w s tx = some s') (hr : resume s' err k = .next c' ev) :
      Step w ⟨s, .load tx (.aborting err) :: k⟩ .tau c' ev
  -- `_mod_unload`
  | cascadeSkip {s : State} {k : List Frame} {e child : EntryRef} {rest : List EntryRef}
      {me : ModEntry} (hme : s.rt.mods child = some me)
      (hp : me.ctx.bind (fun c => (s.ctxs c).modulePath) = none) :
      Step w ⟨s, .unload e (child :: rest) :: k⟩ .tau ⟨s, .unload e rest :: k⟩ .internal
  | cascade {s : State} {k : List Frame} {e child : EntryRef} {rest : List EntryRef}
      {me : ModEntry} {p : StrRef} {path : CStr} {c' : Config} {ev : Event}
      (hme : s.rt.mods child = some me)
      (hp : me.ctx.bind (fun c => (s.ctxs c).modulePath) = some p) (hs : s.strs p = some path)
      (hu : Unloads w s path me.regionId me.regionPlen (.unload e rest :: k) c' ev) :
      Step w ⟨s, .unload e (child :: rest) :: k⟩ .tau c' ev
  | remove {s : State} {k : List Frame} {e : EntryRef} {me : ModEntry} {c' : Config} {ev : Event}
      (hme : s.rt.mods e = some me) (hr : resume (modUnloadFinish w s e me) xyOk k = .next c' ev) :
      Step w ⟨s, .unload e [] :: k⟩ .tau c' ev
  -- `xy_reload`
  | reloadLoad {s : State} {k : List Frame} {rl : Reload} :
      Step w ⟨s, .reload rl (.unloaded xyOk) :: k⟩ .tau
        ⟨s, .load (modLoadStart w s rl.fname) .opening :: .reload rl .loading :: k⟩
        (.enterConstructor rl.fname)
  | reinsert {s : State} {k : List Frame} {rl : Reload} {e : EntryRef} {r : RegionRef}
      {rt : Runtime}
      (hl : s.rt.modHd.lookup (modKey (w.loadPath rl.fname) rl.id rl.plen) = some e)
      (hre : rl.re = some r) (hi : Xylem.reinsert s.rt r e rl.insertAfter = some rt) :
      Step w ⟨s, .reload rl (.loaded xyOk) :: k⟩ .tau ⟨{ s with rt := rt, err := xyOk }, k⟩
        (.returned (.int xyOk))
  | reloadEnd {s : State} {k : List Frame} {rl : Reload} {pc : ReloadPc} {n : Int} :
      Step w ⟨s, .reload rl pc :: k⟩ .tau ⟨s.setErr n, k⟩ (.returned (.int n))
  -- `xy_dispatch`
  | dispatchEnd {s : State} {k : List Frame} {d : Dispatch}
      (hend : if d.selfOnly then d.me = none else d.n ≤ d.mi) :
      Step w ⟨s, .dispatch d none :: k⟩ .tau
        ⟨(dispatchEnd s d.retp d.reg d.ran).1, k⟩
        (.returned (.int (dispatchEnd s d.retp d.reg d.ran).2))
  | selfSkip {s : State} {k : List Frame} {d : Dispatch} {e : EntryRef} {me : ModEntry}
      (hself : d.selfOnly = true) (he : d.me = some e) (hme : s.rt.mods e = some me)
      (hskip : me.ctx = none ∨ s.rt.moduleDeniedByAncestors d.anc me.loadPath = true) :
      Step w ⟨s, .dispatch d none :: k⟩ .tau
        ⟨s, .dispatch { d with me := s.rt.regionNext e me } none :: k⟩ .internal
  | selfDeaf {s : State} {k : List Frame} {d : Dispatch} {e : EntryRef} {me : ModEntry}
      {c : CtxRef} (hself : d.selfOnly = true) (he : d.me = some e) (hme : s.rt.mods e = some me)
      (hc : me.ctx = some c) (hd : s.rt.moduleDeniedByAncestors d.anc me.loadPath = false)
      (hh : (me.resolved w d.hookId d.name).hasHookImplemented d.hookId = false) :
      Step w ⟨s, .dispatch d none :: k⟩ .tau
        ⟨{ s with rt := s.rt.modifyMod e (fun _ => me.resolved w d.hookId d.name) },
          .dispatch { d with me := s.rt.regionNext e me } none :: k⟩ .internal
  | selfEnter {s : State} {k : List Frame} {d : Dispatch} {e : EntryRef} {me : ModEntry}
      {c : CtxRef} {s' : State} (hself : d.selfOnly = true) (he : d.me = some e)
      (hme : s.rt.mods e = some me)
      (hc : me.ctx = some c) (hd : s.rt.moduleDeniedByAncestors d.anc me.loadPath = false)
      (hh : (me.resolved w d.hookId d.name).hasHookImplemented d.hookId = true)
      (hs' : s' = injectCtx
        { s with rt := s.rt.modifyMod e (fun _ => me.resolved w d.hookId d.name) } c d.reg
        (me.resolved w d.hookId d.name)) :
      Step w ⟨s, .dispatch d none :: k⟩ .tau ⟨s', .dispatch (d.enter s' e) (some e) :: k⟩
        (.enterListener e ((me.resolved w d.hookId d.name).fnCell d.hookId))
  | slotSkip {s : State} {k : List Frame} {d : Dispatch} {slot : DispatchSlot} {me : ModEntry}
      (hself : d.selfOnly = false) (hmi : d.mi < d.n)
      (hslots : (s.rt.hookVec d.caller d.hookId).slots = d.slots)
      (hcell : (s.rt.hookVec d.caller d.hookId).cells[d.mi]? = some slot)
      (hme : s.rt.mods slot.me = some me) (hskip : me.ctx = none ∨ slot.cb = .null) :
      Step w ⟨s, .dispatch d none :: k⟩ .tau
        ⟨s, .dispatch { d with mi := d.mi + 1 } none :: k⟩ .internal
  | slotEnter {s : State} {k : List Frame} {d d' : Dispatch} {slot : DispatchSlot} {me : ModEntry}
      {c : CtxRef} {s' : State} (hself : d.selfOnly = false) (hmi : d.mi < d.n)
      (hslots : (s.rt.hookVec d.caller d.hookId).slots = d.slots)
      (hcell : (s.rt.hookVec d.caller d.hookId).cells[d.mi]? = some slot)
      (hme : s.rt.mods slot.me = some me) (hc : me.ctx = some c) (hcb : slot.cb ≠ .null)
      (hd' : d' = { d with
        prevEntry := s.tls.current.entry
        regionChanged := decide (me.regionEntry ≠ some d.caller) })
      (hs' : s' = d'.switch (injectCtx s c d.reg me) c me) :
      Step w ⟨s, .dispatch d none :: k⟩ .tau
        ⟨s', .dispatch (d'.enter s' slot.me) (some slot.me) :: k⟩ (.enterListener slot.me slot.cb)
  | selfListened {s : State} {k : List Frame} {d : Dispatch} {e : EntryRef} {me : ModEntry}
      {bytes : List UInt8} (hself : d.selfOnly = true) (hme : s.rt.mods e = some me) :
      Step w ⟨s, .dispatch d (some e) :: k⟩ (.ret (.listened bytes))
        ⟨(s.writeBuf d.retp bytes).lastPublish (d.ran + 1) d.retp d.reg,
          .dispatch { d with ran := d.ran + 1, me := s.rt.regionNext e me } none :: k⟩ .internal
  | slotListened {s s' : State} {k : List Frame} {d : Dispatch} {e : EntryRef}
      {bytes : List UInt8} (hself : d.selfOnly = false)
      (hs' : s' = if d.regionChanged then
          (s.writeBuf d.retp bytes).setCurrentRegion ⟨d.regionId, d.prevEntry⟩
        else s.writeBuf d.retp bytes) :
      Step w ⟨s, .dispatch d (some e) :: k⟩ (.ret (.listened bytes))
        ⟨s'.lastPublish (d.ran + 1) d.retp d.reg,
          .dispatch { d with ran := d.ran + 1, mi := d.mi + 1 } none :: k⟩ .internal
  -- Callbacks of `xy_with_region` and `xy_region_each`
  | scopeEnd {s : State} {k : List Frame} {prev : CurrentRegion} {ret : Int} :
      Step w ⟨s, .scope prev :: k⟩ (.ret (.scoped ret))
        ⟨(s.setCurrentRegion prev).setErr ret, k⟩ (.returned (.int ret))
  | eachNext {s : State} {k : List Frame} {cursor parent child : RegionRef}
      (hp : (s.rt.regions cursor).parent = some parent)
      (hc : Runtime.nextIn cursor (s.rt.regions parent).children = some child) :
      Step w ⟨s, .each cursor :: k⟩ (.ret (.visited xyOk)) ⟨s, .each child :: k⟩
        (.enterVisit (s.rt.regions child).id (s.rt.regions child).plen)
  | eachEnd {s : State} {k : List Frame} {cursor : RegionRef} {ret : Int} :
      Step w ⟨s, .each cursor :: k⟩ (.ret (.visited ret)) ⟨s.setErr xyOk, k⟩
        (.returned (.int ret))

/-! ## The list is complete -/

section

variable {w : World} {s : State} {k : List Frame} {c' : Config} {ev : Event}

theorem Step.of_tauLoad {tx : LoadTxn} {pc : LoadPc} (h : tauLoad w s k tx pc = .next c' ev) :
    Step w ⟨s, .load tx pc :: k⟩ .tau c' ev := by
  cases pc with
  | opening | handler | installing => cases h
  | opened =>
    simp only [tauLoad] at h
    split at h
    · split at h
      · cases h
      · exact .reuse ‹_› ‹_› h
    · cases h
      exact .publish ‹_›
  | bind => cases h; exact .bind
  | claim =>
    simp only [tauLoad] at h
    split at h <;> cases h
    · exact .claimFlat ‹_›
    · exact .claimRefused ‹_›
    · exact .claimAsked ‹_›
  | rekey child =>
    simp only [tauLoad] at h
    split at h
    · cases h
    · next hme =>
      obtain ⟨e, he, hme⟩ := Option.bind_eq_some_iff.mp hme
      cases h
      exact .rekey he hme
  | link =>
    simp only [tauLoad] at h
    split at h
    · cases h
    · split at h
      · cases h
      · cases h
        exact .link ‹_› ‹_›
  | install =>
    simp only [tauLoad] at h
    split at h
    · cases h
    · next he =>
      split at h
      · next hi => cases h; exact .installMissing he hi
      · next hi => cases h; exact .install he (by simp [hi])
  | aborting err =>
    simp only [tauLoad] at h
    split at h
    · cases h
    · exact .abort ‹_› h

theorem Step.of_tauUnload {e : EntryRef} {children : List EntryRef}
    (h : tauUnload w s k e children = .next c' ev) :
    Step w ⟨s, .unload e children :: k⟩ .tau c' ev := by
  unfold tauUnload at h
  split at h
  · split at h
    · cases h
    · split at h
      · cases h
        exact .cascadeSkip ‹_› ‹_›
      · split at h
        · cases h
        · exact .cascade ‹_› ‹_› ‹_› (.of_beginUnload h)
  · split at h
    · cases h
    · exact .remove ‹_› h

theorem Step.of_tauReload {rl : Reload} {pc : ReloadPc}
    (h : tauReload w s k rl pc = .next c' ev) : Step w ⟨s, .reload rl pc :: k⟩ .tau c' ev := by
  unfold tauReload at h
  split at h
  · split at h
    · next ret hret =>
      cases h
      exact hret ▸ .reloadLoad
    · cases h
      exact .reloadEnd
  · split at h
    · next ret hret =>
      subst hret
      split at h
      · next hl hre =>
        split at h
        · cases h
        · next hi =>
          cases h
          exact .reinsert hl hre hi
      · cases h
        exact .reloadEnd
    · cases h
      exact .reloadEnd
  · cases h

theorem Step.of_tauSelf {d : Dispatch} (hself : d.selfOnly = true)
    (h : tauSelf w s k d = .next c' ev) : Step w ⟨s, .dispatch d none :: k⟩ .tau c' ev := by
  unfold tauSelf at h
  split at h
  · next hend =>
    cases h
    exact .dispatchEnd (by rw [hself]; exact hend)
  · next e he =>
    split at h
    · cases h
    · next me hme =>
      dsimp only at h
      split at h
      · next hc =>
        cases h
        exact .selfSkip hself he hme (Or.inl hc)
      · next c hc =>
        split at h
        · next hd =>
          cases h
          exact .selfSkip hself he hme (Or.inr hd)
        · next hd =>
          rw [Bool.not_eq_true] at hd
          split at h
          · next hh =>
            cases h
            exact .selfEnter hself he hme hc hd hh rfl
          · next hh =>
            cases h
            exact .selfDeaf hself he hme hc hd (by simpa using hh)

theorem Step.of_tauSubtree {d : Dispatch} (hself : d.selfOnly = false)
    (h : tauSubtree s k d = .next c' ev) : Step w ⟨s, .dispatch d none :: k⟩ .tau c' ev := by
  unfold tauSubtree at h
  split at h
  · next hmi =>
    dsimp only at h
    split at h
    · next hslots =>
      split at h
      · cases h
      · next slot hcell =>
        split at h
        · cases h
        · next me hme =>
          split at h
          · next hc =>
            cases h
            exact .slotSkip hself hmi hslots hcell hme (Or.inl hc)
          · next c hc =>
            split at h
            · next hcb =>
              cases h
              exact .slotSkip hself hmi hslots hcell hme (Or.inr hcb)
            · next hcb =>
              cases h
              exact .slotEnter hself hmi hslots hcell hme hc hcb rfl rfl
    · cases h
  · next hmi =>
    cases h
    exact .dispatchEnd (by rw [hself]; exact Nat.le_of_not_lt hmi)

theorem Step.of_retListener {d : Dispatch} {e : EntryRef} {bytes : List UInt8}
    (h : retListener s k d e bytes = .next c' ev) :
    Step w ⟨s, .dispatch d (some e) :: k⟩ (.ret (.listened bytes)) c' ev := by
  unfold retListener at h
  dsimp only at h
  split at h
  · next hself =>
    have hmods : ((s.writeBuf d.retp bytes).lastPublish (d.ran + 1) d.retp d.reg).rt = s.rt := by
      cases hp : d.retp <;> rfl
    split at h
    · cases h
    · next me hme =>
      cases h
      rw [hmods] at hme ⊢
      exact .selfListened hself hme
  · next hself =>
    cases h
    exact .slotListened (by simpa using hself) rfl

theorem Step.of_beginCall {c : Config} {q : Call} (hw : c.waiting)
    (h : beginCall w c q = .next c' ev) : Step w c (.call q) c' ev := by
  unfold beginCall at h
  split at h
  · cases h; exact .load hw
  · exact .unload hw (.of_beginUnload h)
  · unfold beginReload moduleLookupFromFname at h
    dsimp only at h
    split at h
    · cases h; exact .answered hw
    · split at h
      · cases h
      · exact .reload hw ‹_› ‹_› (.of_beginUnload h)
  · unfold beginScope at h
    split at h
    · next hfn =>
      subst hfn
      split at h
      · cases h; exact .answered hw
      · cases h; exact .scope hw ‹_›
    · cases h; exact .answered hw
  · unfold beginEach at h
    split at h
    · cases h; exact .answered hw
    · next parent hp =>
      unfold visit at h
      split at h
      · cases h; exact .answered hw
      · cases h; exact .eachFirst hw hp ‹_›
  · split at h
    · cases h
    · cases h; exact .dispatchDone hw ‹_›
    · cases h; exact .dispatchLoop hw ‹_›
  · split at h
    · next hempty =>
      obtain ⟨s, stack⟩ := c
      obtain rfl : stack = [] := by simpa using hempty
      cases h
      exact .shutdown
    · cases h
  · split at h
    · cases h
    · cases h; exact .direct hw ‹_›

theorem Step.of_giveBack {c : Config} {r : Return} (h : giveBack c r = .next c' ev) :
    Step w c (.ret r) c' ev := by
  obtain ⟨s, stack⟩ := c
  unfold giveBack at h
  dsimp only at h
  split at h
  · next k tx h' =>
    unfold retDlopen at h
    split at h
    · exact .dlopenFailed h
    · cases h; exact .dlopened
  · unfold retHandler at h
    split at h
    · cases h; exact .notGranted ‹_›
    · cases h; exact .granted ‹_›
  · exact .installed h
  · exact .of_retListener h
  · cases h; exact .scopeEnd
  · next cursor k ret =>
    unfold retVisit at h
    split at h
    · next hret =>
      subst hret
      unfold visit at h
      split at h
      · cases h; exact .eachEnd
      · next child hchild =>
        obtain ⟨parent, hp, hc⟩ := Option.bind_eq_some_iff.mp hchild
        cases h
        exact .eachNext hp hc
    · cases h; exact .eachEnd
  · cases h

theorem Step.of_tau {c : Config} (h : tau w c = .next c' ev) : Step w c .tau c' ev := by
  obtain ⟨s, stack⟩ := c
  unfold tau at h
  dsimp only at h
  split at h
  · exact .of_tauLoad h
  · exact .of_tauUnload h
  · exact .of_tauReload h
  · next d k =>
    split at h
    · next hself => exact .of_tauSelf hself h
    · next hself => exact .of_tauSubtree (by simpa using hself) h
  · cases h

/-- Every step goes one of the ways of the list. -/
theorem Step.of_step {c : Config} {a : Action} (h : step w c a = .next c' ev) :
    Step w c a c' ev := by
  unfold step at h
  split at h
  · exact .of_tau h
  · split at h
    · next hw => exact .of_beginCall hw h
    · cases h
  · exact .of_giveBack h

end

end Xylem
