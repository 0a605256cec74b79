import Xylem.Calls

/-!
# What a step does to the last return

`xy_last` reads a count, a pointer and an adapter, and what they lead to.
`LastChange` lists the steps that write any of these; all the others leave the
whole of it alone (`KeepsLast`).  `AdaptersChange` lists those that write an adapter;
none of them changes the size of one that has its hook id.
-/

namespace Xylem

/-- Nothing that `xy_last` reads has changed, nor any adapter or buffer. -/
structure State.KeepsLast (s s' : State) : Prop where
  ran : s'.tls.lastRan = s.tls.lastRan
  retp : s'.tls.lastRetp = s.tls.lastRetp
  retbuf : s'.tls.lastRetbuf = s.tls.lastRetbuf
  adapter : s'.adapter = s.adapter
  adapters : s'.adapters = s.adapters
  mem : s'.mem = s.mem

namespace State

variable {s s' s'' : State}

theorem KeepsLast.refl (s : State) : s.KeepsLast s := ⟨rfl, rfl, rfl, rfl, rfl, rfl⟩

theorem KeepsLast.trans (h : s.KeepsLast s') (h' : s'.KeepsLast s'') : s.KeepsLast s'' :=
  ⟨h'.ran.trans h.ran, h'.retp.trans h.retp, h'.retbuf.trans h.retbuf,
    h'.adapter.trans h.adapter, h'.adapters.trans h.adapters, h'.mem.trans h.mem⟩

end State

theorem keepsLast_setErr (s : State) (e : Int) : s.KeepsLast (s.setErr e) :=
  ⟨rfl, rfl, rfl, rfl, rfl, rfl⟩

theorem keepsLast_resume {s : State} {ret : Int} {k : List Frame} {c' : Config} {ev : Event}
    (h : resume s ret k = .next c' ev) : s.KeepsLast c'.st := by
  unfold resume at h
  split at h <;> cases h
  · exact .refl s
  · exact .refl s
  · exact .refl s
  · exact keepsLast_setErr s ret

theorem keepsLast_bindXy (w : World) (s : State) (tx : LoadTxn) :
    s.KeepsLast (modLoadBindXy w s tx).1 := by
  unfold modLoadBindXy
  dsimp only
  split
  · split <;> exact ⟨rfl, rfl, rfl, rfl, rfl, rfl⟩
  · exact ⟨rfl, rfl, rfl, rfl, rfl, rfl⟩

theorem keepsLast_rekeyForClaim (w : World) (s : State) (caller : CStr) (pk ck : RegionKey) :
    s.KeepsLast (moduleRekeyForClaim w s caller pk ck) := by
  unfold moduleRekeyForClaim
  dsimp only
  split <;> exact ⟨rfl, rfl, rfl, rfl, rfl, rfl⟩

theorem keepsLast_restoreContext (s : State) (tx : LoadTxn) :
    s.KeepsLast (modLoadRestoreContext s tx) := by
  unfold modLoadRestoreContext
  split <;> exact ⟨rfl, rfl, rfl, rfl, rfl, rfl⟩

theorem keepsLast_freeFname (s : State) (tx : LoadTxn) : s.KeepsLast (modLoadFreeFname s tx) := by
  unfold modLoadFreeFname
  split <;> exact ⟨rfl, rfl, rfl, rfl, rfl, rfl⟩

theorem keepsLast_cleanup (w : World) (s : State) (me : ModEntry) :
    s.KeepsLast (moduleCleanupRegionState w s me) := by
  unfold moduleCleanupRegionState
  split <;> exact ⟨rfl, rfl, rfl, rfl, rfl, rfl⟩

theorem keepsLast_abort {w : World} {s s' : State} {tx : LoadTxn}
    (h : modLoadAbort w s tx = some s') : s.KeepsLast s' := by
  have hbefore := (keepsLast_restoreContext s tx).trans
    (keepsLast_freeFname (modLoadRestoreContext s tx) tx)
  unfold modLoadAbort at h
  dsimp only at h
  split at h
  · cases h
    exact hbefore
  · split at h
    · cases h
    · next me _ =>
      cases h
      have hclean := hbefore.trans (keepsLast_cleanup w _ me)
      exact ⟨hclean.ran, hclean.retp, hclean.retbuf, hclean.adapter, hclean.adapters, hclean.mem⟩

theorem keepsLast_unloadFinish (w : World) (s : State) (e : EntryRef) (me : ModEntry) :
    s.KeepsLast (modUnloadFinish w s e me) := by
  have h := keepsLast_cleanup w { s with rt := s.rt.removeEntry w e me } me
  exact ⟨h.ran, h.retp, h.retbuf, h.adapter, h.adapters, h.mem⟩

theorem keepsLast_granted {s s' : State} {parent : RegionRef} {ret : Int} {bits : Nat}
    {child : RegionKey} (h : xyClaimGranted s parent ret bits = .ok (s', child)) :
    s.KeepsLast s' := by
  obtain ⟨-, -, -, -, rfl⟩ := xyClaimGranted_ok h
  exact ⟨rfl, rfl, rfl, rfl, rfl, rfl⟩

theorem keepsLast_switch (d : Dispatch) (s : State) (c : CtxRef) (reg : AdapterRef) (me : ModEntry) :
    s.KeepsLast (d.switch (injectCtx s c reg me) c me) := by
  unfold Dispatch.switch
  split <;> exact ⟨rfl, rfl, rfl, rfl, rfl, rfl⟩

theorem Unloads.keepsLast {w : World} {s : State} {fname : CStr} {id : RegionId} {plen : Nat}
    {k : List Frame} {c' : Config} {ev : Event} (h : Unloads w s fname id plen k c' ev) :
    s.KeepsLast c'.st := by
  cases h with
  | notFound hl hr => exact (keepsLast_setErr s _).trans (keepsLast_resume hr)
  | @shared e me c' ev hl hme href hr =>
    have hrelease : s.KeepsLast (s.release e) := ⟨rfl, rfl, rfl, rfl, rfl, rfl⟩
    exact hrelease.trans (keepsLast_resume hr)
  | cascade hl hme href => exact ⟨rfl, rfl, rfl, rfl, rfl, rfl⟩

/-- `xy_set_last_ret` keeps the first bytes of the buffer. -/
theorem setLastRet_take {s : State} {b : BufRef} {v : List UInt8} (hpos : 0 < v.length)
    (hv : (s.mem b).take v.length = v) :
    (s.setLastRet (some b) v.length).tls.lastRetp = .lastRetbuf
      ∧ (s.setLastRet (some b) v.length).tls.lastRetbuf.take v.length = v := by
  unfold State.setLastRet
  simp only [Nat.ne_of_gt hpos, if_false, hv, true_and]
  show (overwrite _ (if v.length ≤ 8 then overwrite (List.replicate 8 0) v else v)).take v.length = v
  split
  · have hle : v.length ≤ (overwrite (List.replicate 8 0) v).length := by
      unfold overwrite
      rw [List.length_append]
      omega
    unfold overwrite at hle ⊢
    rw [List.take_append_of_le_length hle, List.take_append_of_le_length le_rfl, List.take_length]
  · exact overwrite_take _ v

/-! ## Steps -/

/-- How a step changes what `xy_last` reads. -/
inductive LastChange (w : World) (c : Config) (a : Action) (s' : State) : Prop
  | kept (h : c.st.KeepsLast s')
  | areg {name : CStr} {reg : AdapterRef} (ha : a = .call (.areg name reg))
      (hs : s' = (xyAreg w c.st name reg).1)
  | read {ret : Option BufRef} (ha : a = .call (.last ret)) (hs : s' = (xyLast c.st ret).1)
  | refused {retp : Option BufRef} {reg : Option AdapterRef} {selfOnly : Bool} {n : Int}
      (ha : a = .call (.call retp reg selfOnly))
      (hd : dispatchBegin w c.st retp reg selfOnly = some (.done s' n))
  | started {retp : Option BufRef} {reg : Option AdapterRef} {selfOnly : Bool} {d : Dispatch}
      (ha : a = .call (.call retp reg selfOnly))
      (hd : dispatchBegin w c.st retp reg selfOnly = some (.loop s' d))
  | listened {d : Dispatch} {e : EntryRef} {k : List Frame} {bytes : List UInt8} {s : State}
      (ha : a = .ret (.listened bytes)) (hstack : c.stack = .dispatch d (some e) :: k)
      (hs : (c.st.writeBuf d.retp bytes).KeepsLast s)
      (hs' : s' = s.lastPublish (d.ran + 1) d.retp d.reg)
  | ended {d : Dispatch} {k : List Frame} (ha : a = .tau) (hstack : c.stack = .dispatch d none :: k)
      (hs : s' = (dispatchEnd c.st d.retp d.reg d.ran).1)
  | shutdown (ha : a = .call .shutdown) (hstack : c.stack = []) (hs : s' = xyShutdown w c.st)

section

variable {w : World} {c c' : Config} {a : Action} {ev : Event}

theorem callDirect_last {q : Call} {s : State} {v : Value}
    (h : callDirect w c.st q = some (s, v)) : LastChange w c (.call q) s := by
  cases q with
  | areg name reg =>
    obtain rfl : (xyAreg w c.st name reg).1 = s := congrArg Prod.fst (Option.some.inj h)
    exact .areg rfl rfl
  | last ret =>
    obtain rfl : (xyLast c.st ret).1 = s := congrArg Prod.fst (Option.some.inj h)
    exact .read rfl rfl
  | deny what type =>
    obtain rfl : (xyDeny w c.st what type).1 = s := congrArg Prod.fst (Option.some.inj h)
    unfold xyDeny
    split <;> exact .kept ⟨rfl, rfl, rfl, rfl, rfl, rfl⟩
  | requireClaim fn =>
    obtain rfl : (xyRequireClaim c.st fn).1 = s := congrArg Prod.fst (Option.some.inj h)
    unfold xyRequireClaim
    split <;> exact .kept ⟨rfl, rfl, rfl, rfl, rfl, rfl⟩
  | claimAt id plen fn =>
    obtain rfl : (xyClaimAt c.st id plen fn).1 = s := congrArg Prod.fst (Option.some.inj h)
    refine .kept ?_
    unfold xyClaimAt
    split
    · exact ⟨rfl, rfl, rfl, rfl, rfl, rfl⟩
    · split
      · exact ⟨rfl, rfl, rfl, rfl, rfl, rfl⟩
      · split
        · exact ⟨rfl, rfl, rfl, rfl, rfl, rfl⟩
        · split
          · exact ⟨rfl, rfl, rfl, rfl, rfl, rfl⟩
          · dsimp only
            split <;> exact ⟨rfl, rfl, rfl, rfl, rfl, rfl⟩
  | regionExists id plen =>
    obtain rfl : (xyRegionExists c.st id plen).1 = s := congrArg Prod.fst (Option.some.inj h)
    unfold xyRegionExists
    split <;> exact .kept ⟨rfl, rfl, rfl, rfl, rfl, rfl⟩
  | regionAt id plen =>
    obtain rfl : (xyRegionAt c.st id plen).1 = s := congrArg Prod.fst (Option.some.inj h)
    refine .kept ?_
    unfold xyRegionAt
    split
    · exact ⟨rfl, rfl, rfl, rfl, rfl, rfl⟩
    · split <;> exact ⟨rfl, rfl, rfl, rfl, rfl, rfl⟩
  | currentRegion | currentRegionPlen | errno | selfInitCtx =>
    cases h
    exact .kept ⟨rfl, rfl, rfl, rfl, rfl, rfl⟩
  | load | unload | reload | withRegion | regionEach | call | shutdown => cases h

theorem Step.last (h : Step w c a c' ev) : LastChange w c a c'.st := by
  cases h with
  | load | scope | eachFirst | answered | scopeEnd | eachNext | eachEnd | dlopened | publish
  | claimFlat | claimRefused | claimAsked | notGranted | link | installMissing | install
  | cascadeSkip | reloadLoad | reinsert | reloadEnd | selfSkip | selfDeaf | slotSkip =>
    exact .kept ⟨rfl, rfl, rfl, rfl, rfl, rfl⟩
  | unload hw hu => exact .kept hu.keepsLast
  | reload hw hl hme hu => exact .kept hu.keepsLast
  | cascade hme hp hs hu => exact .kept hu.keepsLast
  | direct hw hq => exact callDirect_last hq
  | dispatchDone hw hd => exact .refused rfl hd
  | dispatchLoop hw hd => exact .started rfl hd
  | shutdown => exact .shutdown rfl rfl rfl
  | dlopenFailed hr => exact .kept ((keepsLast_setErr _ _).trans (keepsLast_resume hr))
  | @reuse s k tx e me c' ev hl hme hr =>
    have hreuse : s.KeepsLast (modLoadReuse s e) := ⟨rfl, rfl, rfl, rfl, rfl, rfl⟩
    exact .kept (hreuse.trans (keepsLast_resume hr))
  | bind => exact .kept (keepsLast_bindXy ..)
  | granted hg => exact .kept (keepsLast_granted hg)
  | rekey he hme => exact .kept ((keepsLast_rekeyForClaim ..).trans (keepsLast_setErr _ _))
  | @installed s k tx prev c' ev hr =>
    have hload : s.KeepsLast { s with tls := { s.tls with loadingMod := prev } } :=
      ⟨rfl, rfl, rfl, rfl, rfl, rfl⟩
    exact .kept ((hload.trans (keepsLast_restoreContext _ tx)).trans (keepsLast_resume hr))
  | abort ha hr => exact .kept ((keepsLast_abort ha).trans (keepsLast_resume hr))
  | remove hme hr => exact .kept ((keepsLast_unloadFinish ..).trans (keepsLast_resume hr))
  | dispatchEnd hend => exact .ended rfl rfl rfl
  | selfEnter hself he hme hc hd hh hs' =>
    subst hs'
    exact .kept ⟨rfl, rfl, rfl, rfl, rfl, rfl⟩
  | @slotEnter s k d d' slot me c s' hself hmi hslots hcell hme hc hcb hd' hs' =>
    subst hs'
    exact .kept (keepsLast_switch d' s c d.reg me)
  | selfListened hself hme => exact .listened rfl rfl (.refl _) rfl
  | slotListened hself hs' =>
    refine .listened rfl rfl ?_ rfl
    subst hs'
    split
    · exact ⟨rfl, rfl, rfl, rfl, rfl, rfl⟩
    · exact .refl _

/-! ## Adapters -/

/-- The adapter keeps its hook id, if it has one, and then its size. -/
def State.KeepsSize (s s' : State) (reg : AdapterRef) : Prop :=
  0 ≤ (s.adapters reg).hookId →
    0 ≤ (s'.adapters reg).hookId ∧ (s'.adapters reg).retSize = (s.adapters reg).retSize

theorem State.KeepsSize.of_eq {s s' : State} {reg : AdapterRef} (h : s'.adapters = s.adapters) :
    s.KeepsSize s' reg := fun hid => by rw [h]; exact ⟨hid, rfl⟩

theorem resolveAdapter_hookId {s : State} {a a' : Adapter} {call : Option Addr}
    (h : resolveAdapter s a = some (a', call)) :
    0 ≤ a'.hookId ∧ (0 ≤ a.hookId → a' = a) := by
  unfold resolveAdapter at h
  dsimp only at h
  split at h
  · next hneg =>
    refine ⟨?_, fun hpos => absurd hpos (by omega)⟩
    split at h
    · cases h
    · split at h <;> cases h <;> exact Int.natCast_nonneg _
  · next hpos =>
    cases h
    exact ⟨by omega, fun _ => rfl⟩

theorem dispatchFail_last (s : State) (retp : Option BufRef) (reg : AdapterRef) (err : Int) :
    (dispatchFail s retp reg err).1.adapters = s.adapters
      ∧ (dispatchFail s retp reg err).1.adapter = some reg
      ∧ (dispatchFail s retp reg err).1.tls.lastRan = 0 := by
  cases retp <;> exact ⟨rfl, rfl, rfl⟩

theorem dispatchEnd_last (s : State) (retp : Option BufRef) (reg : AdapterRef) (ran : Nat) :
    (dispatchEnd s retp reg ran).1.adapters = s.adapters
      ∧ (dispatchEnd s retp reg ran).1.adapter = s.adapter
      ∧ (dispatchEnd s retp reg ran).1.tls.lastRan = ran := by
  have hset : ∀ s : State, (s.setLastRet retp (s.adapters reg).retSize).adapters = s.adapters
      ∧ (s.setLastRet retp (s.adapters reg).retSize).adapter = s.adapter
      ∧ (s.setLastRet retp (s.adapters reg).retSize).tls.lastRan = s.tls.lastRan := by
    intro s
    unfold State.setLastRet
    split
    · split <;> exact ⟨rfl, rfl, rfl⟩
    · exact ⟨rfl, rfl, rfl⟩
  unfold dispatchEnd
  dsimp only
  split
  · cases retp <;> exact ⟨rfl, rfl, rfl⟩
  · exact hset { s with tls := { s.tls with lastRan := ran } }

/-- What the start of a dispatch leaves, whether it fails or comes to its loop. -/
inductive StartsLast (s : State) (retp : Option BufRef) (reg : AdapterRef) : DispatchStart → Prop
  | done {s' : State} {n : Int} (hran : s'.tls.lastRan = 0) (hreg : s'.adapter = some reg)
      (hadapters : s'.adapters = s.adapters) : StartsLast s retp reg (.done s' n)
  | loop {s' : State} {d : Dispatch} (hran : s'.tls.lastRan = 0)
      (hretp : s'.tls.lastRetp = .ofBuf retp) (hreg : s'.adapter = some reg)
      (hadapters : s'.adapters = s.adapters) (hd : d.retp = retp ∧ d.reg = reg ∧ d.ran = 0) :
      StartsLast s retp reg (.loop s' d)

theorem dispatchResolved_last {s : State} {retp : Option BufRef} {reg : AdapterRef} {b : Adapter}
    {selfOnly : Bool} {start : DispatchStart}
    (h : dispatchResolved w s retp reg b selfOnly = some start) : StartsLast s retp reg start := by
  unfold dispatchResolved at h
  dsimp only at h
  split at h
  · cases h
    obtain ⟨hadapters, hreg, hran⟩ := dispatchFail_last s retp reg xyErrEperm
    exact .done hran hreg hadapters
  · split at h
    · cases h
      obtain ⟨hadapters, hreg, hran⟩ := dispatchEnd_last (s.lastPublish 0 retp reg) retp reg 0
      exact .done hran hreg hadapters
    · rcases dispatchScope_spec h with ⟨-, rfl⟩ | ⟨-, rt, -, rfl⟩
      · exact .loop rfl rfl rfl rfl ⟨rfl, rfl, rfl⟩
      · exact .loop rfl rfl rfl rfl ⟨rfl, rfl, rfl⟩

/-- A dispatch fails before its adapter is resolved, or resolves it and goes on;
one that comes to its loop has resolved it. -/
theorem dispatchBegin_last {s : State} {retp : Option BufRef} {reg : AdapterRef} {selfOnly : Bool}
    {start : DispatchStart} (h : dispatchBegin w s retp (some reg) selfOnly = some start) :
    (StartsLast s retp reg start ∧ ∀ s' d, start ≠ .loop s' d)
      ∨ ∃ b call, resolveAdapter s (s.adapters reg) = some (b, call)
        ∧ StartsLast { s with adapters := Function.update s.adapters reg b } retp reg start := by
  unfold dispatchBegin at h
  dsimp only at h
  split at h
  · cases h
    obtain ⟨hadapters, hreg, hran⟩ := dispatchFail_last s retp reg xyErrNotfound
    exact Or.inl ⟨.done hran hreg hadapters, fun s' d heq => by injection heq⟩
  · next b call hres =>
    refine Or.inr ⟨b, call, hres, ?_⟩
    split at h
    · cases h
      obtain ⟨hadapters, hreg, hran⟩ := dispatchFail_last
        { s with adapters := Function.update s.adapters reg b } retp reg xyErrToobig
      exact .done hran hreg hadapters
    · split at h
      · cases h
        obtain ⟨hadapters, hreg, hran⟩ := dispatchFail_last
          { s with adapters := Function.update s.adapters reg b } retp reg xyErrNotfound
        exact .done hran hreg hadapters
      · exact dispatchResolved_last h

theorem StartsLast.adapters {s s' : State} {retp : Option BufRef} {reg : AdapterRef}
    {start : DispatchStart} (h : StartsLast s retp reg start)
    (hs : (∃ n, start = .done s' n) ∨ ∃ d, start = .loop s' d) : s'.adapters = s.adapters := by
  rcases hs with ⟨n, rfl⟩ | ⟨d, rfl⟩
  · cases h
    assumption
  · cases h
    assumption

theorem keepsSize_update {s s' : State} {reg : AdapterRef} {b : Adapter} {call : Option Addr}
    (hres : resolveAdapter s (s.adapters reg) = some (b, call))
    (hs : s'.adapters = Function.update s.adapters reg b) (x : AdapterRef) : s.KeepsSize s' x := by
  intro hid
  rw [hs]
  by_cases hx : x = reg
  · subst hx
    rw [Function.update_self, (resolveAdapter_hookId hres).2 hid]
    exact ⟨hid, rfl⟩
  · rw [Function.update_of_ne hx]
    exact ⟨hid, rfl⟩

theorem xyShutdown_adapters (w : World) (s : State) : (xyShutdown w s).adapters = s.adapters := by
  have hfold : ∀ (l : List EntryRef) (s₀ : State),
      (l.foldl (fun s e => (s.rt.mods e).elim s (moduleCleanupRegionState w s)) s₀).adapters
        = s₀.adapters := by
    intro l
    induction l with
    | nil => exact fun _ => rfl
    | cons e l ih =>
      intro s₀
      rw [List.foldl_cons, ih]
      cases s₀.rt.mods e with
      | none => rfl
      | some me => exact (keepsLast_cleanup w s₀ me).adapters
  exact hfold _ s

/-- How a step changes the adapters. -/
inductive AdaptersChange (w : World) (c : Config) (a : Action) (s' : State) : Prop
  | kept (h : s'.adapters = c.st.adapters)
  | areg {name : CStr} {reg : AdapterRef} (ha : a = .call (.areg name reg))
      (hs : s' = (xyAreg w c.st name reg).1)
  | resolved {retp : Option BufRef} {reg : AdapterRef} {selfOnly : Bool} {b : Adapter}
      {call : Option Addr} (ha : a = .call (.call retp (some reg) selfOnly))
      (hres : resolveAdapter c.st (c.st.adapters reg) = some (b, call))
      (hs : s'.adapters = Function.update c.st.adapters reg b)

/-- A registration writes the hook id of its adapter, and a dispatch resolves its
own. -/
theorem Step.adapters (h : Step w c a c' ev) : AdaptersChange w c a c'.st := by
  have hbegin : ∀ {retp : Option BufRef} {reg : Option AdapterRef} {selfOnly : Bool}
      {start : DispatchStart}, a = .call (.call retp reg selfOnly) →
      dispatchBegin w c.st retp reg selfOnly = some start →
      ((∃ n, start = .done c'.st n) ∨ ∃ d, start = .loop c'.st d) →
      AdaptersChange w c a c'.st := by
    intro retp reg selfOnly start ha hd hs
    cases reg with
    | none =>
      cases hd
      rcases hs with ⟨n, hn⟩ | ⟨d, hd⟩
      · refine .kept ?_
        injection hn with hst
        rw [← hst]
        rfl
      · cases hd
    | some reg =>
      rcases dispatchBegin_last hd with ⟨hstart, -⟩ | ⟨b, call, hres, hstart⟩
      · exact .kept (hstart.adapters hs)
      · exact .resolved ha hres (hstart.adapters hs)
  cases h.last with
  | kept hk => exact .kept hk.adapters
  | areg ha hs => exact .areg ha hs
  | @read ret ha hs =>
    refine .kept ?_
    rw [hs]
    unfold xyLast
    split
    · rfl
    · split
      · rfl
      · dsimp only
        split
        · rfl
        · cases ret <;> rfl
        · cases ret <;> rfl
  | refused ha hd => exact hbegin ha hd (Or.inl ⟨_, rfl⟩)
  | started ha hd => exact hbegin ha hd (Or.inr ⟨_, rfl⟩)
  | @listened d e k bytes s ha hstack hs hs' =>
    refine .kept ?_
    rw [hs']
    have hwrite : (c.st.writeBuf d.retp bytes).adapters = c.st.adapters := by
      cases d.retp <;> rfl
    exact hs.adapters.trans hwrite
  | @ended d k ha hstack hs =>
    refine .kept ?_
    rw [hs]
    exact (dispatchEnd_last ..).1
  | shutdown ha hstack hs => exact .kept (hs ▸ xyShutdown_adapters w c.st)

/-- An adapter that has its hook id keeps its size. -/
theorem Step.keepsSize (h : Step w c a c' ev) (reg : AdapterRef) : c.st.KeepsSize c'.st reg := by
  cases h.adapters with
  | kept hk => exact .of_eq hk
  | resolved ha hres hs => exact keepsSize_update hres hs reg
  | @areg name reg' ha hs =>
    rw [hs]
    unfold xyAreg
    split
    · exact .of_eq rfl
    · split
      · exact .of_eq rfl
      · intro hid
        dsimp only
        by_cases hx : reg = reg'
        · subst hx
          rw [Function.update_self]
          exact ⟨Int.natCast_nonneg _, rfl⟩
        · rw [Function.update_of_ne hx]
          exact ⟨hid, rfl⟩

end

end Xylem
