import Xylem.Heap

/-!
# Well-formed configurations, and the effect of a step on the runtime

`Config.Wf` collects what holds of every configuration that a run reaches: the
tree, the heap of module entries, and for each call in progress that the
regions it refers to exist and that the entry a load has published is in no list
before the load links it (`Frame.raw`).

`Effect` lists what one step can do to the runtime, as the operations of the
source with the conditions under which they are called.  `Step.effect` derives
it from `Step`, so that an invariant of the runtime is a case analysis over
`Effect` alone.
-/

namespace Xylem

/-! ## Calls in progress -/

/-- The load has not published an entry yet. -/
def LoadPc.early : LoadPc → Bool
  | .opening | .opened => true
  | _ => false

/-- The load has published an entry and has not linked it yet. -/
def LoadPc.raw : LoadPc → Bool
  | .bind | .claim | .handler _ | .rekey _ | .link => true
  | _ => false

/-- The entry of a load that is published and in no list. -/
def Frame.raw : Frame → Option EntryRef
  | .load tx pc => if pc.raw then tx.modEntry else none
  | _ => none

/-- The key a call in progress will look up again. -/
def Frame.key (w : World) : Frame → Option (List UInt8)
  | .load tx pc => if pc.raw then some tx.lookup.key else none
  | .reload rl _ =>
    if rl.re.isSome then some (modKey (w.loadPath rl.fname) rl.id rl.plen) else none
  | _ => none

/-- What holds of a load in progress. -/
structure LoadTxn.Ok (w : World) (rt : Runtime) (tx : LoadTxn) (pc : LoadPc) : Prop where
  path : tx.lookup.loadPath = w.loadPath tx.fname
  key : tx.lookup.key = modKey (w.loadPath tx.fname) tx.inheritedRegionId tx.inheritedRegionPlen
  early : pc.early = true → tx.modEntry = none
  late : pc.early = false →
    ∃ e, tx.modEntry = some e ∧ e < rt.nmods ∧ tx.publishedEntry = true
  raw : pc.raw = true → ∀ e ∈ tx.modEntry, rt.home e = none
  handler : ∀ p, pc = .handler p → p < rt.nregions
  prev : ∀ r ∈ tx.prevRegion.entry, r < rt.nregions

/-- What holds of a call in progress. -/
def Frame.Ok (w : World) (rt : Runtime) : Frame → Prop
  | .load tx pc => tx.Ok w rt pc
  | .unload _ _ => True
  | .reload rl _ => ∀ r ∈ rl.re, r < rt.nregions
  | .dispatch d _ => d.caller < rt.nregions ∧ d.anc = (rt.chain d.caller).reverse
      ∧ ∀ r ∈ d.prevEntry, r < rt.nregions
  | .scope prev => ∀ r ∈ prev.entry, r < rt.nregions
  | .each r => r < rt.nregions

/-- The entry that a call lower in the stack has yet to link is neither the one
that the upper call is about to link nor one that it can find in the table. -/
def Frame.Apart (w : World) (rt : Runtime) (upper lower : Frame) : Prop :=
  ∀ e ∈ lower.raw, e ∉ upper.raw ∧ ∀ k ∈ upper.key w, rt.modHd.lookup k ≠ some e

/-- What holds of the stack. -/
structure StackWf (w : World) (rt : Runtime) (stack : List Frame) : Prop where
  ok : ∀ f ∈ stack, f.Ok w rt
  apart : stack.Pairwise (Frame.Apart w rt)

/-- What holds of a configuration in any run. -/
structure Config.Wf (w : World) (c : Config) : Prop where
  tree : c.st.rt.tree.Wf
  heap : c.st.rt.HeapWf
  current : ∀ r ∈ c.st.tls.current.entry, r < c.st.rt.nregions
  stack : StackWf w c.st.rt c.stack

/-! ## Effects -/

/-- What a step can do to the runtime. -/
inductive Effect (w : World) (c : Config) (a : Action) : Runtime → Prop
  | same : Effect w c a c.st.rt
  | deny {r : Nat} {what : CStr} {type : DenyType} (ha : a = .call (.deny what type))
      (hcur : c.st.tls.current.entry = some r) (hr : r < c.st.rt.nregions) :
      Effect w c a (c.st.rt.recordDeny w r what type)
  /-- `xy_require_claim`, or `xy_claim_at` on a region that exists. -/
  | handler {r : Nat} {f : RegionEntry → RegionEntry} {q : Call} (ha : a = .call q)
      (hr : r < c.st.rt.nregions)
      (hf : ∀ e, f e = { e with
        claimHandler := (f e).claimHandler, requireClaim := (f e).requireClaim }) :
      Effect w c a (c.st.rt.modifyRegion r f)
  | claimAt {p : Nat} {id : RegionId} {plen : Nat} {fn : Option HandlerRef}
      (ha : a = .call (.claimAt id plen fn))
      (hnear : c.st.rt.regionNearestAncestor id plen = some p)
      (hadd : c.st.rt.tree.CanAdd p id plen (plen - (c.st.rt.regions p).plen)) :
      Effect w c a (c.st.rt.addRegion p id plen (plen - (c.st.rt.regions p).plen) fn)
  | grant {tx : LoadTxn} {k : List Frame} {p : Nat} {bits : Nat} {id : RegionId}
      (hstack : c.stack = .load tx (.handler p) :: k) (ha : a = .ret (.granted xyOk bits))
      (hbits : 0 < bits ∧ bits ≤ 64) (hslot : c.st.rt.regionAllocSlot p bits = id)
      (hid : id ≠ xyRegionInvalid)
      (hadd : c.st.rt.tree.CanAdd p id ((c.st.rt.regions p).plen + bits) bits) :
      Effect w c a (c.st.rt.addRegion p id ((c.st.rt.regions p).plen + bits) bits none)
  | refcount {e : EntryRef} {f : Int → Int} :
      Effect w c a (c.st.rt.modifyMod e (fun me => { me with refcount := f me.refcount }))
  | publish {tx : LoadTxn} {k : List Frame} (ha : a = .tau)
      (hstack : c.stack = .load tx .opened :: k) (hl : tx.lookup.entry = none) :
      Effect w c a (c.st.rt.publishEntry (tx.freshEntry c.st.tls.loadingMod))
  | bind {tx : LoadTxn} {k : List Frame} {e : EntryRef} {ctx : CtxRef} (ha : a = .tau)
      (hstack : c.stack = .load tx .bind :: k) (he : tx.modEntry = some e)
      (hhome : c.st.rt.home e = none) (hctx : modLoadCtx w c.st tx = some ctx) :
      Effect w c a (c.st.rt.modifyMod e (fun me => { me with ctx := some ctx }))
  | rekey {tx : LoadTxn} {k : List Frame} {child : RegionKey} {e : EntryRef} (ha : a = .tau)
      (hstack : c.stack = .load tx (.rekey child) :: k)
      (hl : c.st.rt.modHd.lookup tx.lookup.key = some e) :
      Effect w c a (c.st.rt.moduleRekeyLoadedEntry e tx.lookup.key (w.loadPath tx.fname)
        tx.inheritedKey child)
  | link {tx : LoadTxn} {k : List Frame} {e : EntryRef} {me : ModEntry} {size : Nat}
      (ha : a = .tau) (hstack : c.stack = .load tx .link :: k) (he : tx.modEntry = some e)
      (hme : c.st.rt.mods e = some me) (hun : me.regionEntry = none) :
      Effect w c a (c.st.rt.linkEntry e me size)
  | prewarm {tx : LoadTxn} {k : List Frame} {e : EntryRef} (ha : a = .tau)
      (hstack : c.stack = .load tx .install :: k) (he : tx.modEntry = some e) :
      Effect w c a (c.st.rt.modifyMod e
        (fun me => me.fnCachePrewarm w c.st.rt.hookIdHd.entries c.st.rt.hookIdCounter))
  | abort {tx : LoadTxn} {k : List Frame} {err : Int} {e : EntryRef} {me : ModEntry}
      (ha : a = .tau) (hstack : c.stack = .load tx (.aborting err) :: k)
      (he : tx.modEntry = some e) (hme : c.st.rt.mods e = some me) :
      Effect w c a (c.st.rt.discardEntry w e me)
  | remove {k : List Frame} {e : EntryRef} {me : ModEntry} (ha : a = .tau)
      (hstack : c.stack = .unload e [] :: k) (hme : c.st.rt.mods e = some me) :
      Effect w c a (c.st.rt.removeEntry w e me)
  | reinsert {rl : Reload} {k : List Frame} {e : EntryRef} {r : Nat} {rt' : Runtime}
      (ha : a = .tau) (hstack : c.stack = .reload rl (.loaded xyOk) :: k)
      (hl : c.st.rt.modHd.lookup (modKey (w.loadPath rl.fname) rl.id rl.plen) = some e)
      (hre : rl.re = some r) (hr : r < c.st.rt.nregions)
      (hi : Xylem.reinsert c.st.rt r e rl.insertAfter = some rt') : Effect w c a rt'
  | vector {r : Nat} {hookId : Nat} {name : CStr} {rt' : Runtime} {q : Call}
      (ha : a = .call q) (hcaller : c.st.callerRegion = some r) (hr : r < c.st.rt.nregions)
      (hv : c.st.rt.prepareVec w r hookId name (c.st.rt.chain r).reverse = some rt') :
      Effect w c a rt'
  | resolve {d : Dispatch} {k : List Frame} {e : EntryRef} {me : ModEntry} (ha : a = .tau)
      (hstack : c.stack = .dispatch d none :: k) (hself : d.selfOnly = true)
      (hme : c.st.rt.mods e = some me) :
      Effect w c a (c.st.rt.modifyMod e (fun _ => me.resolved w d.hookId d.name))
  | register {name : CStr} {reg : AdapterRef} (ha : a = .call (.areg name reg)) :
      Effect w c a (c.st.rt.registerHook w name reg)
  | shutdown (ha : a = .call .shutdown) (hstack : c.stack = []) : Effect w c a c.st.rt.bootstrap

section

variable {w : World} {c c' : Config} {a : Action} {ev : Event}

theorem Config.Wf.callerRegion_lt (hwf : c.Wf w) {r : Nat} (h : c.st.callerRegion = some r) :
    r < c.st.rt.nregions := by
  unfold State.callerRegion at h
  cases hcur : c.st.tls.current.entry with
  | none =>
    rw [hcur] at h
    exact (Runtime.regionLookup_eq_some hwf.tree).mp h |>.1
  | some r' =>
    rw [hcur] at h
    cases h
    exact hwf.current r hcur

theorem Config.Wf.top (hwf : c.Wf w) {f : Frame} {k : List Frame} (h : c.stack = f :: k) :
    f.Ok w c.st.rt :=
  hwf.stack.ok f (h ▸ List.mem_cons_self)

/-- The releases of `_mod_unload` change a reference count at most. -/
theorem Unloads.effect {s : State} {fname : CStr} {id : RegionId} {plen : Nat} {k : List Frame}
    (hs : s.rt = c.st.rt) (h : Unloads w s fname id plen k c' ev) : Effect w c a c'.st.rt := by
  have hrel : ∀ e, Effect w c a (s.release e).rt := fun e => by
    show Effect w c a (s.rt.modifyMod e _)
    rw [hs]
    exact .refcount (f := fun n => n - 1)
  cases h with
  | notFound hl hr =>
    rw [(resume_spec hr).1.rt]
    exact hs ▸ .same
  | shared hl hme href hr =>
    rw [(resume_spec hr).1.rt]
    exact hrel _
  | cascade hl hme href => exact hrel _

/-- `xy_claim_at` fails, or enters a region that exists, or makes one under the
widest region that contains it. -/
theorem xyClaimAt_cases {s : State} (ht : s.rt.tree.Wf) (id : RegionId) (plen : Nat)
    (fn : Option HandlerRef) :
    ((64 < plen ∨ ¬ (RegionKey.mk id plen).block.Aligned)
        ∧ (xyClaimAt s id plen fn).1.rt = s.rt
        ∧ (xyClaimAt s id plen fn).1.tls.current = s.tls.current)
      ∨ (∃ r, s.rt.regionLookup id plen = some r
        ∧ (xyClaimAt s id plen fn).1.rt = (match fn with
          | none => s.rt
          | some _ => s.rt.modifyRegion r (fun e => { e with claimHandler := fn }))
        ∧ (xyClaimAt s id plen fn).1.tls.current = ⟨id, some r⟩)
      ∨ (∃ p, s.rt.regionNearestAncestor id plen = some p
        ∧ s.rt.tree.CanAdd p id plen (plen - (s.rt.regions p).plen)
        ∧ (xyClaimAt s id plen fn).1.rt
          = s.rt.addRegion p id plen (plen - (s.rt.regions p).plen) fn
        ∧ (xyClaimAt s id plen fn).1.tls.current = ⟨id, some s.rt.nregions⟩) := by
  unfold xyClaimAt
  split
  · next hgt => exact Or.inl ⟨Or.inl hgt, rfl, rfl⟩
  · next hle =>
    split
    · next halign => exact Or.inl ⟨Or.inr halign, rfl, rfl⟩
    · next halign =>
      split
      · next r hr => exact Or.inr (Or.inl ⟨r, hr, rfl, rfl⟩)
      · next habsent =>
        split
        · next hnear => exact absurd hnear (Runtime.regionNearestAncestor_ne_none ht (not_not.mp halign) habsent)
        · next p hnear =>
          dsimp only
          split
          · next hge =>
            have hp := Runtime.regionNearestAncestor_lt ht hnear
            omega
          · next hlt =>
            have hp := Runtime.regionNearestAncestor_lt ht hnear
            have hbits : (plen - (s.rt.regions p).plen) % 256
                = plen - (s.rt.regions p).plen := Nat.mod_eq_of_lt (by omega)
            rw [hbits]
            refine Or.inr (Or.inr ⟨p, hnear, ⟨hp.1, hp.2.1, by omega, rfl, ?_, habsent⟩, rfl, rfl⟩)
            show id &&& Prefix.mask 64 plen = id
            rw [← regionMask_eq]
            exact not_not.mp halign

/-- What a call that returns at once can do to the runtime. -/
inductive CallEffect (w : World) (c : Config) : Call → Runtime → Prop
  | same {q : Call} : CallEffect w c q c.st.rt
  | deny {r : Nat} {what : CStr} {type : DenyType} (hcur : c.st.tls.current.entry = some r)
      (hr : r < c.st.rt.nregions) : CallEffect w c (.deny what type) (c.st.rt.recordDeny w r what type)
  | requireClaim {r : Nat} {fn : Option HandlerRef} (hr : r < c.st.rt.nregions) :
      CallEffect w c (.requireClaim fn)
        (c.st.rt.modifyRegion r fun e => { e with claimHandler := fn, requireClaim := fn.isSome })
  | setHandler {r : Nat} {id : RegionId} {plen : Nat} {fn : HandlerRef} (hr : r < c.st.rt.nregions) :
      CallEffect w c (.claimAt id plen (some fn))
        (c.st.rt.modifyRegion r fun e => { e with claimHandler := some fn })
  | claimAt {p : Nat} {id : RegionId} {plen : Nat} {fn : Option HandlerRef}
      (hnear : c.st.rt.regionNearestAncestor id plen = some p)
      (hadd : c.st.rt.tree.CanAdd p id plen (plen - (c.st.rt.regions p).plen)) :
      CallEffect w c (.claimAt id plen fn)
        (c.st.rt.addRegion p id plen (plen - (c.st.rt.regions p).plen) fn)
  | areg {name : CStr} {reg : AdapterRef} :
      CallEffect w c (.areg name reg) (c.st.rt.registerHook w name reg)

theorem callDirect_callEffect (hwf : c.Wf w) {q : Call} {s : State} {v : Value}
    (h : callDirect w c.st q = some (s, v)) : CallEffect w c q s.rt := by
  cases q with
  | deny what type =>
    obtain rfl : (xyDeny w c.st what type).1 = s := congrArg Prod.fst (Option.some.inj h)
    unfold xyDeny
    split
    · exact .same
    · next r hr => exact .deny hr (hwf.current r hr)
  | requireClaim fn =>
    obtain rfl : (xyRequireClaim c.st fn).1 = s := congrArg Prod.fst (Option.some.inj h)
    unfold xyRequireClaim
    split
    · exact .same
    · next r hr => exact .requireClaim (hwf.current r hr)
  | claimAt id plen fn =>
    obtain rfl : (xyClaimAt c.st id plen fn).1 = s := congrArg Prod.fst (Option.some.inj h)
    rcases xyClaimAt_cases hwf.tree id plen fn with
      ⟨-, hrt, -⟩ | ⟨r, hr, hrt, -⟩ | ⟨p, hnear, hadd, hrt, -⟩
    · exact hrt ▸ .same
    · rw [hrt]
      cases fn with
      | none => exact .same
      | some fn => exact .setHandler ((Runtime.regionLookup_eq_some hwf.tree).mp hr).1
    · exact hrt ▸ .claimAt hnear hadd
  | regionExists id plen =>
    obtain rfl : (xyRegionExists c.st id plen).1 = s := congrArg Prod.fst (Option.some.inj h)
    rw [(still_xyRegionExists ..).rt]
    exact .same
  | regionAt id plen =>
    obtain rfl : (xyRegionAt c.st id plen).1 = s := congrArg Prod.fst (Option.some.inj h)
    rw [(still_xyRegionAt ..).rt]
    exact .same
  | areg name reg =>
    obtain rfl : (xyAreg w c.st name reg).1 = s := congrArg Prod.fst (Option.some.inj h)
    unfold xyAreg
    split
    · exact .same
    · split
      · exact .same
      · exact .areg
  | last ret =>
    obtain rfl : (xyLast c.st ret).1 = s := congrArg Prod.fst (Option.some.inj h)
    rw [(still_xyLast ..).rt]
    exact .same
  | currentRegion | currentRegionPlen | errno | selfInitCtx => cases h; exact .same
  | load | unload | reload | withRegion | regionEach | call | shutdown => cases h

theorem CallEffect.effect {q : Call} {rt : Runtime} (h : CallEffect w c q rt) :
    Effect w c (.call q) rt := by
  cases h with
  | same => exact .same
  | deny hcur hr => exact .deny rfl hcur hr
  | @requireClaim r fn hr =>
    exact .handler (f := fun e => { e with claimHandler := fn, requireClaim := fn.isSome }) rfl hr
      (fun _ => rfl)
  | @setHandler r id plen fn hr =>
    exact .handler (f := fun e => { e with claimHandler := some fn }) rfl hr (fun _ => rfl)
  | claimAt hnear hadd => exact .claimAt rfl hnear hadd
  | areg => exact .register rfl

/-- The effect of a step on the runtime. -/
theorem Step.effect (hwf : c.Wf w) (h : Step w c a c' ev) : Effect w c a c'.st.rt := by
  cases h with
  | load | scope | eachFirst | answered | scopeEnd | eachNext | eachEnd | dlopened | cascadeSkip
  | reloadLoad | reloadEnd | claimFlat | claimRefused | claimAsked | notGranted | selfSkip
  | slotSkip => exact .same
  | unload hw hu => exact hu.effect rfl
  | reload hw hl hme hu => exact hu.effect rfl
  | direct hw hq => exact (callDirect_callEffect hwf hq).effect
  | dispatchDone hw hd => exact (dispatchBegin_done hd).rt ▸ .same
  | @dispatchLoop _ retp reg selfOnly s d hw hd =>
    have hstart := dispatchBegin_loop hd
    have hlt := hwf.callerRegion_lt hstart.caller
    cases selfOnly with
    | true => exact (hstart.self rfl).1 ▸ .same
    | false =>
      have hv := (hstart.subtree rfl).1
      rw [hstart.anc, Runtime.regionAncestorChain_eq hwf.tree hlt] at hv
      exact .vector rfl hstart.caller hlt hv
  | shutdown => exact (xyShutdown_spec w _).1 ▸ .shutdown rfl rfl
  | dlopenFailed hr => exact (resume_spec hr).1.rt ▸ .same
  | reuse hl hme hr => exact (resume_spec hr).1.rt ▸ .refcount (f := fun n => n + 1)
  | publish hl => exact .publish rfl rfl hl
  | @bind s k tx =>
    obtain ⟨-, -, ⟨hrt, -⟩ | ⟨ctx, e, hctx, he, -, hrt, -⟩⟩ := modLoadBindXy_spec w s tx
    · exact hrt ▸ .same
    · rw [show (Config.mk _ _).st.rt = _ from hrt]
      exact .bind rfl rfl he ((hwf.top rfl).raw rfl e he) hctx
  | granted hg =>
    obtain ⟨hret, hbits, hchild, hid, hs'⟩ := xyClaimGranted_ok hg
    have hp := (hwf.top rfl).handler _ rfl
    subst hs' hchild hret
    have hspec := Runtime.regionAllocSlot_spec hwf.tree hp hbits rfl hid
    have hplen : Runtime.childPlen _ _ = _ :=
      Nat.mod_eq_of_lt (Nat.lt_of_le_of_lt hspec.1 (by decide : 64 < 256))
    show Effect w _ _ (Runtime.addRegion _ _ _ (Runtime.childPlen _ _) _ _)
    rw [hplen]
    exact .grant rfl rfl hbits rfl hid hspec.2.1
  | @rekey s k tx child e me he hme =>
    rcases moduleRekeyForClaim_spec w s tx.fname tx.inheritedKey child with
      ⟨-, ⟨-, hsame⟩ | ⟨e', hl, hrt, -⟩⟩
    · show Effect w _ _ (moduleRekeyForClaim w s tx.fname tx.inheritedKey child).rt
      rw [hsame]
      exact .same
    · show Effect w _ _ (moduleRekeyForClaim w s tx.fname tx.inheritedKey child).rt
      have hkey : tx.lookup.key
          = modKey (w.loadPath tx.fname) tx.inheritedKey.id tx.inheritedKey.plen :=
        (hwf.top rfl).key
      rw [hrt, ← hkey]
      rw [← hkey] at hl
      exact .rekey rfl rfl hl
  | @link s k tx e me he hme =>
    have hun : s.rt.home e = none := (hwf.top rfl).raw rfl e he
    rw [Runtime.home_of_mods hme] at hun
    exact .link rfl rfl he hme hun
  | installMissing he hi => exact .prewarm rfl rfl he
  | install he hi => exact .prewarm rfl rfl he
  | installed hr =>
    rw [(resume_spec hr).1.rt, (modLoadRestoreContext_spec _ _).1]
    exact .same
  | abort ha hr =>
    obtain ⟨e, he, -, hpub⟩ := (hwf.top rfl).late rfl
    obtain ⟨me, hme, hrt, -⟩ := modLoadAbort_spec he ha
    rw [(resume_spec hr).1.rt, hrt, hpub]
    exact .abort rfl rfl he hme
  | cascade hme hp hs hu => exact hu.effect rfl
  | remove hme hr =>
    rw [(resume_spec hr).1.rt, (modUnloadFinish_spec ..).1]
    exact .remove rfl rfl hme
  | reinsert hl hre hi => exact .reinsert rfl rfl hl hre (hwf.top rfl _ hre) hi
  | dispatchEnd hend =>
    show Effect w _ _ (Xylem.dispatchEnd _ _ _ _).1.rt
    rw [(still_dispatchEnd ..).rt]
    exact .same
  | selfDeaf hself he hme => exact .resolve rfl rfl hself hme
  | selfEnter hself he hme hc hd hh hs' => subst hs'; exact .resolve rfl rfl hself hme
  | slotEnter hself hmi hslots hcell hme hc hcb hd' hs' =>
    subst hs'
    unfold Dispatch.switch
    split <;> exact .same
  | selfListened hself hme =>
    show Effect w _ _ (State.writeBuf _ _ _).rt
    rw [(State.still_writeBuf ..).rt]
    exact .same
  | slotListened hself hs' =>
    subst hs'
    show Effect w _ _ (State.rt (if _ then _ else _))
    split
    · show Effect w _ _ (State.writeBuf _ _ _).rt
      rw [(State.still_writeBuf ..).rt]
      exact .same
    · rw [(State.still_writeBuf ..).rt]
      exact .same

end

end Xylem
