import Xylem.Load
import Xylem.Lib.Run

/-!
# The runtime as a machine

Control passes back and forth between the host and the code of modules.  A
configuration is a state and the stack of API calls that have not returned.  The
host moves by `tau` when the top of the stack is a call that is at work.  When
the stack is empty, or its top is a call that has passed control to a module (a
constructor, a claim handler, `xy_install`, a listener, a callback), the module
moves: it calls an API function, or it returns what it likes.

* One `tau` is the code between two points where a module may have control, or a
  part of it.
* `undef` is undefined behaviour: a read through a pointer to a freed entry or
  to a replaced array.
* `xy_region_cleanup`, `get_xy_ptr`, `xy_ctx_abi` and `xy_region_state_size` are
  module code as well; these do not call back.  `xy_shutdown` is called from
  outside of any module.
-/

namespace Xylem

/-! ## Calls in progress -/

/-- Where a `_mod_load` stands. -/
inductive LoadPc where
  /-- In `dlopen`, with a constructor in control. -/
  | opening
  | opened
  | bind
  | claim
  /-- In the claim handler of `parent`. -/
  | handler (parent : RegionRef)
  | rekey (child : RegionKey)
  | link
  | install
  /-- In `xy_install`; the argument is `prev_loading_mod`. -/
  | installing (prevLoading : Option EntryRef)
  | aborting (err : Int)

/-- The variables of one `xy_reload`. -/
structure Reload where
  fname : CStr
  id : RegionId
  plen : Nat
  insertAfter : Option EntryRef
  re : Option RegionRef

/-- Where an `xy_reload` stands: in `_mod_unload`, in `_mod_load`, or after one
of these has returned. -/
inductive ReloadPc where
  | unloading
  | loading
  | unloaded (ret : Int)
  | loaded (ret : Int)

/-- A call that has not returned.

* `unload e children` is the cascade of `_mod_unload` on `e`.
* `dispatch d running` is at the head of its loop, or in the listener of the
  entry `running`.
* `scope prev` is an `xy_with_region`, `each cursor` an `xy_region_each`. -/
inductive Frame where
  | load (tx : LoadTxn) (pc : LoadPc)
  | unload (e : EntryRef) (children : List EntryRef)
  | reload (rl : Reload) (pc : ReloadPc)
  | dispatch (d : Dispatch) (running : Option EntryRef)
  | scope (prev : CurrentRegion)
  | each (cursor : RegionRef)

/-- Whether a module has control while the frame is on top. -/
def Frame.waiting : Frame → Bool
  | .load _ .opening => true
  | .load _ (.handler _) => true
  | .load _ (.installing _) => true
  | .dispatch _ (some _) => true
  | .scope _ => true
  | .each _ => true
  | _ => false

structure Config where
  st : State
  stack : List Frame

/-- Whether a module, or the host program, is to move. -/
def Config.waiting (c : Config) : Bool :=
  match c.stack with
  | [] => true
  | f :: _ => f.waiting

/-! ## Moves -/

/-- A call of an API function. -/
inductive Call where
  | load (fname : CStr)
  | unload (fname : CStr)
  | reload (fname : CStr)
  | deny (what : CStr) (type : DenyType)
  | requireClaim (fn : Option HandlerRef)
  | claimAt (id : RegionId) (plen : Nat) (fn : Option HandlerRef)
  | withRegion (id : RegionId) (plen : Nat) (hasFn : Bool)
  | regionEach
  | regionExists (id : RegionId) (plen : Nat)
  | regionAt (id : RegionId) (plen : Nat)
  | currentRegion
  | currentRegionPlen
  | errno
  | call (retp : Option BufRef) (reg : Option AdapterRef) (selfOnly : Bool)
  | areg (name : CStr) (reg : AdapterRef)
  | last (ret : Option BufRef)
  | selfInitCtx (ctx : CtxRef)
  | shutdown

/-- What module code hands back when it returns to the host. -/
inductive Return where
  | dlopened (h : Option Handle)
  | granted (ret : Int) (bits : Nat)
  | installed
  | listened (bytes : List UInt8)
  | scoped (ret : Int)
  | visited (ret : Int)

inductive Action where
  | tau
  | call (q : Call)
  | ret (r : Return)

/-- The value of an API function. -/
inductive Value where
  | void
  | int (n : Int)
  | region (id : RegionId) (plen : Nat)
  | hook (id : BitVec 32)
deriving DecidableEq

/-- What can be seen of a step. -/
inductive Event where
  | internal
  | returned (v : Value)
  | enterConstructor (fname : CStr)
  | enterHandler (fn : HandlerRef) (bits : Nat)
  | enterInstall (e : EntryRef)
  | enterListener (e : EntryRef) (cb : FnSlot)
  | enterScope
  | enterVisit (id : RegionId) (plen : Nat)
deriving DecidableEq

inductive Outcome where
  | next (c : Config) (ev : Event)
  | undef
  | disabled

/-! ## Returning -/

/-- `_mod_load` or `_mod_unload` returns `ret` to its caller: to `xy_reload`, to
the cascade of an unload, or to `xy_load` and `xy_unload`. -/
def resume (s : State) (ret : Int) : List Frame → Outcome
  | .unload e children :: k => .next ⟨s, .unload e children :: k⟩ .internal
  | .reload rl .unloading :: k => .next ⟨s, .reload rl (.unloaded ret) :: k⟩ .internal
  | .reload rl .loading :: k => .next ⟨s, .reload rl (.loaded ret) :: k⟩ .internal
  | k => .next ⟨s.setErr ret, k⟩ (.returned (.int ret))

/-! ## Calls that return at once -/

/-- The API functions that never pass control to a module. -/
def callDirect (w : World) (s : State) : Call → Option (State × Value)
  | .deny what type => let (s, ret) := xyDeny w s what type; some (s, .int ret)
  | .requireClaim fn => let (s, ret) := xyRequireClaim s fn; some (s, .int ret)
  | .claimAt id plen fn => let (s, ret) := xyClaimAt s id plen fn; some (s, .int ret)
  | .regionExists id plen => let (s, ret) := xyRegionExists s id plen; some (s, .int ret)
  | .regionAt id plen => let (s, hit, width) := xyRegionAt s id plen; some (s, .region hit width)
  | .currentRegion => some (s, .region s.tls.current.id s.regionCurrentPlen)
  | .currentRegionPlen => some (s.setErr xyOk, .int s.regionCurrentPlen)
  | .errno => some (s, .int s.err)
  | .areg name reg => let (s, id) := xyAreg w s name reg; some (s, .hook id)
  | .last ret => let (s, rc) := xyLast s ret; some (s, .int rc)
  | .selfInitCtx ctx => some ({ s with tls := { s.tls with pendingCtx := some ctx } }, .void)
  | _ => none

/-! ## Load -/

/-- `_mod_load` up to the `dlopen`. -/
def beginLoad (w : World) (s : State) (fname : CStr) (k : List Frame) : Outcome :=
  .next ⟨s, .load (modLoadStart w s fname) .opening :: k⟩ (.enterConstructor fname)

/-- One move of the host in `_mod_load`. -/
def tauLoad (w : World) (s : State) (k : List Frame) (tx : LoadTxn) : LoadPc → Outcome
  | .opened =>
    match tx.lookup.entry with
    | some e =>
      match s.rt.mods e with
      | none => .undef
      | some _ => resume (modLoadReuse s e) xyOk k
    | none =>
      let (s, tx) := modLoadAllocPublish s tx
      .next ⟨s, .load tx .bind :: k⟩ .internal
  | .bind =>
    let (s, ret) := modLoadBindXy w s tx
    .next ⟨s, .load tx (if ret = xyOk then .claim else .aborting ret) :: k⟩ .internal
  | .claim =>
    let (s, tx) := modLoadEnterContext s tx
    match modLoadClaimGate w s tx with
    | .flat => .next ⟨s, .load tx .link :: k⟩ .internal
    | .refuse err => .next ⟨s.setErr err, .load tx (.aborting err) :: k⟩ .internal
    | .ask parent fn bits => .next ⟨s, .load tx (.handler parent) :: k⟩ (.enterHandler fn bits)
  | .rekey child =>
    -- The entry is read again right after; a handler may have unloaded it.
    match tx.modEntry.bind s.rt.mods with
    | none => .undef
    | some _ =>
      .next ⟨(moduleRekeyForClaim w s tx.fname tx.inheritedKey child).setErr xyOk,
        .load tx .link :: k⟩ .internal
  | .link =>
    match tx.modEntry with
    | none => .undef
    | some e =>
      match s.rt.mods e with
      | none => .undef
      | some me => .next ⟨modLoadLink w s tx e me, .load tx .install :: k⟩ .internal
  | .install =>
    match tx.modEntry with
    | none => .undef
    | some e =>
      let s := modLoadPrewarm w s e
      match w.dlsym tx.handle .xyInstall with
      | none => .next ⟨s, .load tx (.aborting xyErrNotfound) :: k⟩ .internal
      | some _ =>
        .next ⟨{ s with tls := { s.tls with loadingMod := some e } },
          .load tx (.installing s.tls.loadingMod) :: k⟩ (.enterInstall e)
  | .aborting err =>
    match modLoadAbort w s tx with
    | none => .undef
    | some s => resume s err k
  | _ => .disabled

/-- `dlopen` returns. -/
def retDlopen (s : State) (k : List Frame) (tx : LoadTxn) : Option Handle → Outcome
  | none => resume (s.setErr xyErrNotfound) xyErrNotfound k
  | some h => .next ⟨s, .load { tx with handle := h } .opened :: k⟩ .internal

/-- The claim handler returns. -/
def retHandler (s : State) (k : List Frame) (tx : LoadTxn) (parent : RegionRef) (ret : Int)
    (bits : Nat) : Outcome :=
  match xyClaimGranted s parent ret bits with
  | .error err => .next ⟨s.setErr err, .load tx (.aborting err) :: k⟩ .internal
  | .ok (s, child) => .next ⟨s, .load tx (.rekey child) :: k⟩ .internal

/-- `xy_install` returns. -/
def retInstall (s : State) (k : List Frame) (tx : LoadTxn) (prev : Option EntryRef) : Outcome :=
  resume (modLoadRestoreContext { s with tls := { s.tls with loadingMod := prev } } tx) xyOk k

/-! ## Unload and reload -/

/-- `entry->refcount--`. -/
def State.release (s : State) (e : EntryRef) : State :=
  { s with rt := s.rt.modifyMod e (fun me => { me with refcount := me.refcount - 1 }) }

/-- `_mod_unload` up to the cascade. -/
def beginUnload (w : World) (s : State) (fname : CStr) (id : RegionId) (plen : Nat)
    (k : List Frame) : Outcome :=
  match (moduleLookupFromFname w s.rt fname id plen).entry with
  | none => resume (s.setErr xyErrNotfound) xyErrNotfound k
  | some e =>
    match s.rt.mods e with
    | none => .undef
    | some me =>
      let s := s.release e
      if 0 < me.refcount - 1 then resume s xyOk k
      else .next ⟨s, .unload e (s.rt.cascadeChildren w e) :: k⟩ .internal

/-- One round of the cascade, or what follows it. -/
def tauUnload (w : World) (s : State) (k : List Frame) (e : EntryRef) :
    List EntryRef → Outcome
  | child :: rest =>
    match s.rt.mods child with
    | none => .undef
    | some me =>
      match me.ctx.bind (fun c => (s.ctxs c).modulePath) with
      | none => .next ⟨s, .unload e rest :: k⟩ .internal
      | some p =>
        match s.strs p with
        | none => .undef
        | some path => beginUnload w s path me.regionId me.regionPlen (.unload e rest :: k)
  | [] =>
    match s.rt.mods e with
    | none => .undef
    | some me => resume (modUnloadFinish w s e me) xyOk k

/-- `xy_reload` up to the return of `_mod_unload`. -/
def beginReload (w : World) (s : State) (fname : CStr) (k : List Frame) : Outcome :=
  let id := s.tls.current.id
  let plen := s.regionCurrentPlen
  match (moduleLookupFromFname w s.rt fname id plen).entry with
  | none => .next ⟨s.setErr xyErrNotfound, k⟩ (.returned (.int xyErrNotfound))
  | some e =>
    match s.rt.mods e with
    | none => .undef
    | some me =>
      let rl : Reload :=
        { fname := fname, id := id, plen := plen, insertAfter := s.rt.regionPrev e me,
          re := me.regionEntry }
      beginUnload w s fname id plen (.reload rl .unloading :: k)

/-- Put a reloaded entry back where it was.  `none` is undefined behaviour: the
entry to insert after is no longer in the list. -/
def reinsert (rt : Runtime) (r : RegionRef) (e : EntryRef) (after : Option EntryRef) :
    Option Runtime :=
  let rt := rt.moduleRegionDetach e
  if ∀ a ∈ after, a ∈ (rt.regions r).mods then some (rt.moduleRegionInsertAfter r e after)
  else none

/-- One move of `xy_reload` itself. -/
def tauReload (w : World) (s : State) (k : List Frame) (rl : Reload) : ReloadPc → Outcome
  | .unloaded ret =>
    if ret = xyOk then beginLoad w s rl.fname (.reload rl .loading :: k)
    else .next ⟨s.setErr ret, k⟩ (.returned (.int ret))
  | .loaded ret =>
    if ret = xyOk then
      match (moduleLookupFromFname w s.rt rl.fname rl.id rl.plen).entry, rl.re with
      | some e, some r =>
        match reinsert s.rt r e rl.insertAfter with
        | none => .undef
        | some rt => .next ⟨{ s with rt := rt, err := xyOk }, k⟩ (.returned (.int xyOk))
      | _, _ => .next ⟨s.setErr xyOk, k⟩ (.returned (.int xyOk))
    else .next ⟨s.setErr ret, k⟩ (.returned (.int ret))
  | _ => .disabled

/-! ## Dispatch -/

/-- The stores into the context of a listener before it is called. -/
def injectCtx (s : State) (c : CtxRef) (reg : AdapterRef) (me : ModEntry) : State :=
  let ctx := { s.ctxs c with adapter := some reg, regionState := me.regionState }
  { s with ctxs := Function.update s.ctxs c ctx }

/-- The dispatch as it calls the listener of `e`. -/
def Dispatch.enter (d : Dispatch) (s : State) (e : EntryRef) : Dispatch :=
  { d with entered := d.entered ++ [e], atEntry := s.tls.current }

/-- The region that is current in the listener of an entry of a subtree
dispatch. -/
def Dispatch.switch (d : Dispatch) (s : State) (c : CtxRef) (me : ModEntry) : State :=
  if me.regionEntry ≠ some d.caller then s.setCurrentRegion ⟨(s.ctxs c).regionId, me.regionEntry⟩
  else s

/-- One round of the exact-region loop, up to the call of the listener. -/
def tauSelf (w : World) (s : State) (k : List Frame) (d : Dispatch) : Outcome :=
  match d.me with
  | none =>
    let (s, ret) := dispatchEnd s d.retp d.reg d.ran
    .next ⟨s, k⟩ (.returned (.int ret))
  | some e =>
    match s.rt.mods e with
    | none => .undef
    | some me =>
      let skip (s : State) : Outcome :=
        .next ⟨s, .dispatch { d with me := s.rt.regionNext e me } none :: k⟩ .internal
      match me.ctx with
      | none => skip s
      | some c =>
        if s.rt.moduleDeniedByAncestors d.anc me.loadPath then skip s
        else
          let me := me.resolved w d.hookId d.name
          let s : State := { s with rt := s.rt.modifyMod e (fun _ => me) }
          if me.hasHookImplemented d.hookId then
            let s := injectCtx s c d.reg me
            .next ⟨s, .dispatch (d.enter s e) (some e) :: k⟩
              (.enterListener e (me.fnCell d.hookId))
          else skip s

/-- One round of the loop over a hook vector, up to the call of the listener. -/
def tauSubtree (s : State) (k : List Frame) (d : Dispatch) : Outcome :=
  if d.mi < d.n then
    let vec := s.rt.hookVec d.caller d.hookId
    if vec.slots = d.slots then
      match vec.cells[d.mi]? with
      | none => .undef
      | some slot =>
        match s.rt.mods slot.me with
        | none => .undef
        | some me =>
          match me.ctx with
          | none => .next ⟨s, .dispatch { d with mi := d.mi + 1 } none :: k⟩ .internal
          | some c =>
            if slot.cb = .null then
              .next ⟨s, .dispatch { d with mi := d.mi + 1 } none :: k⟩ .internal
            else
              let s := injectCtx s c d.reg me
              let d := { d with
                prevEntry := s.tls.current.entry
                regionChanged := decide (me.regionEntry ≠ some d.caller) }
              let s := d.switch s c me
              .next ⟨s, .dispatch (d.enter s slot.me) (some slot.me) :: k⟩
                (.enterListener slot.me slot.cb)
    else .undef
  else
    let (s, ret) := dispatchEnd s d.retp d.reg d.ran
    .next ⟨s, k⟩ (.returned (.int ret))

/-- The trampoline has stored `bytes` and returns to the loop. -/
def retListener (s : State) (k : List Frame) (d : Dispatch) (e : EntryRef) (bytes : List UInt8) :
    Outcome :=
  let s := s.writeBuf d.retp bytes
  let d := { d with ran := d.ran + 1 }
  if d.selfOnly then
    let s := s.lastPublish d.ran d.retp d.reg
    match s.rt.mods e with
    | none => .undef
    | some me => .next ⟨s, .dispatch { d with me := s.rt.regionNext e me } none :: k⟩ .internal
  else
    let s := if d.regionChanged then s.setCurrentRegion ⟨d.regionId, d.prevEntry⟩ else s
    .next ⟨s.lastPublish d.ran d.retp d.reg, .dispatch { d with mi := d.mi + 1 } none :: k⟩
      .internal

/-! ## Scopes, enumeration, shutdown -/

/-- `xy_with_region` up to the call of the scope function. -/
def beginScope (s : State) (k : List Frame) (id : RegionId) (plen : Nat) (hasFn : Bool) :
    Outcome :=
  if hasFn then
    match s.rt.regionLookup id plen with
    | none => .next ⟨s.setErr xyErrNotfound, k⟩ (.returned (.int xyErrNotfound))
    | some target =>
      .next ⟨s.setCurrentRegion ⟨id, some target⟩, .scope s.tls.current :: k⟩ .enterScope
  else .next ⟨s.setErr xyErrInvalid, k⟩ (.returned (.int xyErrInvalid))

/-- The loop of `xy_region_each` at a child, or at its end. -/
def visit (s : State) (k : List Frame) : Option RegionRef → Outcome
  | none => .next ⟨s.setErr xyOk, k⟩ (.returned (.int xyOk))
  | some r =>
    .next ⟨s, .each r :: k⟩ (.enterVisit (s.rt.regions r).id (s.rt.regions r).plen)

/-- `xy_region_each` up to the first call of its callback. -/
def beginEach (s : State) (k : List Frame) : Outcome :=
  match s.tls.current.entry with
  | none => .next ⟨s.setErr xyErrNotfound, k⟩ (.returned (.int xyErrNotfound))
  | some parent => visit s k (s.rt.regions parent).children.head?

/-- The callback of `xy_region_each` returns. -/
def retVisit (s : State) (k : List Frame) (cursor : RegionRef) (ret : Int) : Outcome :=
  if ret = xyOk then
    visit s k ((s.rt.regions cursor).parent.bind
      (fun p => Runtime.nextIn cursor (s.rt.regions p).children))
  else .next ⟨s.setErr xyOk, k⟩ (.returned (.int ret))

/-- The runtime after a bootstrap: the hook tables outlive a shutdown. -/
def Runtime.bootstrap (rt : Runtime) : Runtime :=
  { rt with
    regions := fun _ => .root
    nregions := 1
    regionHd := AList.singleton ⟨0, 0⟩ 0
    mods := fun _ => none
    modHd := ∅
    modByRegionHd := fun _ => []
    modCount := 0 }

/-- `xy_shutdown`, and the bootstrap that the next call makes. -/
def xyShutdown (w : World) (s : State) : State :=
  let s := (s.rt.modHdValues w).foldl
    (fun s e => (s.rt.mods e).elim s (moduleCleanupRegionState w s)) s
  { s with
    rt := s.rt.bootstrap
    tls := { s.tls with current := ⟨0, some 0⟩, lastRan := 0, lastRetp := .null }
    adapter := none
    err := xyOk }

/-! ## Steps -/

/-- A module calls an API function. -/
def beginCall (w : World) (c : Config) (q : Call) : Outcome :=
  match q with
  | .load fname => beginLoad w c.st fname c.stack
  | .unload fname => beginUnload w c.st fname c.st.tls.current.id c.st.regionCurrentPlen c.stack
  | .reload fname => beginReload w c.st fname c.stack
  | .withRegion id plen hasFn => beginScope c.st c.stack id plen hasFn
  | .regionEach => beginEach c.st c.stack
  | .call retp reg selfOnly =>
    match dispatchBegin w c.st retp reg selfOnly with
    | none => .undef
    | some (.done s ret) => .next ⟨s, c.stack⟩ (.returned (.int ret))
    | some (.loop s d) => .next ⟨s, .dispatch d none :: c.stack⟩ .internal
  | .shutdown =>
    if c.stack.isEmpty then .next ⟨xyShutdown w c.st, []⟩ (.returned .void) else .disabled
  | q =>
    match callDirect w c.st q with
    | none => .disabled
    | some (s, v) => .next ⟨s, c.stack⟩ (.returned v)

/-- The host moves. -/
def tau (w : World) (c : Config) : Outcome :=
  match c.stack with
  | .load tx pc :: k => tauLoad w c.st k tx pc
  | .unload e children :: k => tauUnload w c.st k e children
  | .reload rl pc :: k => tauReload w c.st k rl pc
  | .dispatch d none :: k => if d.selfOnly then tauSelf w c.st k d else tauSubtree c.st k d
  | _ => .disabled

/-- Module code returns to the host. -/
def giveBack (c : Config) (r : Return) : Outcome :=
  match c.stack, r with
  | .load tx .opening :: k, .dlopened h => retDlopen c.st k tx h
  | .load tx (.handler parent) :: k, .granted ret bits => retHandler c.st k tx parent ret bits
  | .load tx (.installing prev) :: k, .installed => retInstall c.st k tx prev
  | .dispatch d (some e) :: k, .listened bytes => retListener c.st k d e bytes
  | .scope prev :: k, .scoped ret =>
    .next ⟨(c.st.setCurrentRegion prev).setErr ret, k⟩ (.returned (.int ret))
  | .each cursor :: k, .visited ret => retVisit c.st k cursor ret
  | _, _ => .disabled

/-- One step of the machine. -/
def step (w : World) (c : Config) : Action → Outcome
  | .tau => tau w c
  | .call q => if c.waiting then beginCall w c q else .disabled
  | .ret r => giveBack c r

/-! ## Runs -/

/-- The state that the library's constructor leaves, in any memory of modules
and callers. -/
def State.boot (ctxs : CtxRef → Ctx) (adapters : AdapterRef → Adapter)
    (mem : BufRef → List UInt8) : State :=
  { rt := Runtime.bootstrap
      { regions := fun _ => .root, nregions := 0, regionHd := ∅, mods := fun _ => none
        nmods := 0, modHd := ∅, modByRegionHd := fun _ => [], sicaHd := ∅, hookIdHd := ∅
        hookIdCounter := 0, adapterById := [], modCount := 0, nblocks := 0, genBumps := 0 }
    tls := { current := ⟨0, some 0⟩, loadingMod := none, pendingCtx := none, lastRan := 0
             lastRetbuf := List.replicate xyMaxRetSize 0, lastRetp := .null }
    err := xyOk
    adapter := none
    ctxs := ctxs
    adapters := adapters
    strs := fun _ => none
    nstrs := 0
    mem := mem
    cleanups := [] }

/-- A configuration to start from. -/
def Config.Initial (c : Config) : Prop :=
  ∃ ctxs adapters mem, c = ⟨State.boot ctxs adapters mem, []⟩

/-- A step that neither is undefined nor blocked. -/
def Next (w : World) (c : Config) (a : Action) (c' : Config) : Prop :=
  ∃ ev, step w c a = .next c' ev

/-- The configurations of the runs all of whose steps meet `ok`. -/
abbrev ReachableBy (w : World) (ok : Config → Action → Prop) : Config → Prop :=
  Run.ReachBy Config.Initial (Next w) ok

/-- The configurations of all runs. -/
abbrev Reachable (w : World) : Config → Prop := ReachableBy w (fun _ _ => True)

/-- The run that takes the actions of a list, when it gets to their end. -/
def runActions (w : World) (c : Config) : List Action → Option Config
  | [] => some c
  | a :: as =>
    match step w c a with
    | .next c' _ => runActions w c' as
    | _ => none

end Xylem
