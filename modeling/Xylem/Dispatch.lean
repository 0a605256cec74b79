import Xylem.Module

/-!
# Dispatch

`xy_dispatch` up to its loop, the rebuild of a hook vector, what the loop does
with one listener, and the bookkeeping of `xy_last`.

The loop itself is part of the machine in `Xylem.Machine`, because control is in
a module's code between two of its rounds.

A function that reads a module entry through a pointer returns `none` when the
entry has been freed: that read is undefined behaviour.
-/

namespace Xylem

namespace Runtime

/-! ## The hook vectors of a region -/

/-- `&re->hook_dispatch[hook_id]`. -/
def hookVec (rt : Runtime) (r : RegionRef) (hookId : Nat) : HookDispatchCache :=
  (rt.regions r).hookDispatch.getD hookId .empty

/-- `region_ensure_hook_dispatch_cap`. -/
def regionEnsureHookDispatchCap (rt : Runtime) (r : RegionRef) (hookId : Nat) : Runtime :=
  if hookId < (rt.regions r).hookDispatch.length then rt
  else rt.modifyRegion r (fun e =>
    { e with hookDispatch := e.hookDispatch
        ++ List.replicate (hookId + 16 - e.hookDispatch.length) .empty })

/-- The append of one listener in `region_rebuild_hook_dispatch`.  A full array
is replaced by a larger one; a cell that was written before is written over. -/
def pushSlot (rt : Runtime) (v : HookDispatchCache) (slot : DispatchSlot) :
    Runtime × HookDispatchCache :=
  let grown := v.cap ≤ v.count
  let rt' := if grown then { rt with nblocks := rt.nblocks + 1 } else rt
  (rt',
    { v with
      slots := if grown then rt.nblocks else v.slots
      cap := if grown then (if v.cap = 0 then 8 else v.cap * 2) else v.cap
      cells := if v.count < v.cells.length then v.cells.set v.count slot else v.cells ++ [slot]
      count := v.count + 1 })

/-- The loop of `region_rebuild_hook_dispatch` over the modules of the
subtree. -/
def rebuildLoop (w : World) (anc : List RegionRef) (hookId : Nat) (name : CStr) :
    List EntryRef → Runtime → HookDispatchCache → Option (Runtime × HookDispatchCache)
  | [], rt, v => some (rt, v)
  | e :: es, rt, v =>
    match rt.mods e with
    | none => none
    | some me =>
      if me.ctx.isNone then rebuildLoop w anc hookId name es rt v
      else if rt.moduleDeniedByAncestors anc me.loadPath then
        rebuildLoop w anc hookId name es rt v
      else
        let me := me.resolved w hookId name
        let rt := rt.modifyMod e (fun _ => me)
        if me.hasHookImplemented hookId then
          let (rt, v) := rt.pushSlot v ⟨e, me.fnCell hookId⟩
          rebuildLoop w anc hookId name es rt v
        else rebuildLoop w anc hookId name es rt v

/-- `region_rebuild_hook_dispatch`, once the subtree list is up to date and the
vector exists. -/
def regionRebuildHookDispatch (w : World) (rt : Runtime) (r : RegionRef) (hookId : Nat)
    (name : CStr) (anc : List RegionRef) : Option Runtime :=
  if (rt.hookVec r hookId).regionGen = (rt.regions r).dispatchGen then some rt
  else
    (rebuildLoop w anc hookId name (rt.regions r).subtreeMods rt
        { rt.hookVec r hookId with count := 0 }).map
      (fun (rt, v) => rt.modifyRegion r (fun e =>
        { e with hookDispatch :=
            e.hookDispatch.set hookId { v with regionGen := e.dispatchGen } }))

/-- The test of `subtree_mods_dirty`, and the rebuild if it is set. -/
def refreshSubtreeMods (rt : Runtime) (r : RegionRef) : Runtime :=
  if (rt.regions r).subtreeModsDirty then rt.regionRebuildSubtreeMods r else rt

/-- The vector a subtree dispatch from `r` walks: the subtree list and the
vector are brought up to date first. -/
def prepareVec (w : World) (rt : Runtime) (r : RegionRef) (hookId : Nat) (name : CStr)
    (anc : List RegionRef) : Option Runtime :=
  ((rt.refreshSubtreeMods r).regionEnsureHookDispatchCap r hookId).regionRebuildHookDispatch w r
    hookId name anc

end Runtime

/-! ## Return buffers -/

/-- `memset` and `memcpy` of `bytes` to the start of a buffer. -/
def overwrite (old bytes : List UInt8) : List UInt8 := bytes ++ old.drop bytes.length

theorem overwrite_take (old bytes : List UInt8) : (overwrite old bytes).take bytes.length = bytes := by
  simp [overwrite]

/-- A buffer copied onto itself stays as it is. -/
theorem overwrite_take_self (l : List UInt8) (n : Nat) : overwrite l (l.take n) = l := by
  unfold overwrite
  rcases Nat.le_total n l.length with h | h
  · rw [List.length_take_of_le h, List.take_append_drop]
  · rw [List.take_of_length_le h, List.drop_length, List.append_nil]

/-- A store through a `void *` that may be NULL. -/
def State.writeBuf (s : State) (p : Option BufRef) (bytes : List UInt8) : State :=
  match p with
  | none => s
  | some b => { s with mem := Function.update s.mem b (overwrite (s.mem b) bytes) }

/-- `xy_set_last_ret`. -/
def State.setLastRet (s : State) (p : Option BufRef) (size : Nat) : State :=
  match p with
  | some b =>
    if size = 0 then { s with tls := { s.tls with lastRetp := .null } }
    else
      let v := if size ≤ 8 then overwrite (List.replicate 8 0) ((s.mem b).take size)
        else (s.mem b).take size
      { s with tls := { s.tls with
          lastRetbuf := overwrite s.tls.lastRetbuf v, lastRetp := .lastRetbuf } }
  | none => { s with tls := { s.tls with lastRetp := .null } }

/-- The pointer `xy_last_retp` when it is set to a caller's buffer. -/
def RetPtr.ofBuf : Option BufRef → RetPtr
  | none => .null
  | some b => .buf b

/-- `xy_last_publish`. -/
def State.lastPublish (s : State) (ran : Nat) (retp : Option BufRef) (reg : AdapterRef) : State :=
  { s with
    adapter := some reg
    tls := { s.tls with lastRan := ran, lastRetp := .ofBuf retp } }

/-- `xy_last`, with the buffer it is given. -/
def xyLast (s : State) (ret : Option BufRef) : State × Int :=
  match s.adapter with
  | none => (s.setErr xyErrInvalid, xyErrInvalid)
  | some a =>
    if s.tls.lastRan = 0 then (s.setErr xyErrNotfound, xyErrNotfound)
    else
      let size := (s.adapters a).retSize
      let s := match s.tls.lastRetp with
        | .null => s
        | .lastRetbuf => s.writeBuf ret (s.tls.lastRetbuf.take size)
        | .buf b => s.writeBuf ret ((s.mem b).take size)
      (s.setErr xyOk, xyOk)

/-! ## xy_dispatch up to the loop -/

/-- The variables of one running `xy_dispatch`.

`me` is the loop pointer of the exact-region scope and `mi` the loop index of
the subtree scope, whose array is `slots`.  The last three fields are not in the
source: the listeners that the dispatch started with, those entered so far, and
the current region as the running listener found it. -/
structure Dispatch where
  retp : Option BufRef
  reg : AdapterRef
  selfOnly : Bool
  hookId : Nat
  name : CStr
  regionId : RegionId
  caller : RegionRef
  anc : List RegionRef
  slots : BlockRef
  n : Nat
  mi : Nat
  me : Option EntryRef
  prevEntry : Option RegionRef
  regionChanged : Bool
  ran : Nat
  startSeq : List EntryRef
  entered : List EntryRef
  atEntry : CurrentRegion

/-- Where the prologue of a dispatch leads: it returns, or the loop starts. -/
inductive DispatchStart where
  | done (s : State) (ret : Int)
  | loop (s : State) (d : Dispatch)

/-- The `fail` label. -/
def dispatchFail (s : State) (retp : Option BufRef) (reg : AdapterRef) (err : Int) :
    State × Int :=
  let s : State := { s with tls := { s.tls with lastRan := 0 } }
  let s := s.setLastRet none (s.adapters reg).retSize
  let s := s.writeBuf retp (List.replicate (s.adapters reg).retSize 0)
  ({ s with adapter := some reg, err := err }, err)

/-- The code after the loop. -/
def dispatchEnd (s : State) (retp : Option BufRef) (reg : AdapterRef) (ran : Nat) : State × Int :=
  let s : State := { s with tls := { s.tls with lastRan := ran } }
  let size := (s.adapters reg).retSize
  if ran = 0 then
    (((s.setLastRet none size).writeBuf retp (List.replicate size 0)).setErr xyErrNotfound,
      xyErrNotfound)
  else ((s.setLastRet retp size).setErr xyOk, xyOk)

/-- The resolution of the adapter's hook id and trampoline: the adapter as it is
left, and the trampoline to call. -/
def resolveAdapter (s : State) (a : Adapter) : Option (Adapter × Option Addr) :=
  let canonical (hookId : Nat) : Option Adapter :=
    ((s.rt.adapterById[hookId]?).join).map s.adapters
  if a.hookId < 0 then
    match s.rt.hookIdHd.lookup a.name with
    | none => none
    | some hookId =>
      let a := { a with hookId := hookId }
      match canonical hookId, a.call with
      | some c, none =>
        some ({ a with call := c.call, retSize := c.retSize, argSize := c.argSize }, c.call)
      | _, _ => some (a, a.call)
  else some (a, a.call)

/-- The trampoline, from the canonical adapter when there is still none. -/
def fallbackCall (s : State) (hookId : Nat) (call : Option Addr) : Option Addr :=
  call.orElse fun _ => ((s.rt.adapterById[hookId]?).join).bind (fun c => (s.adapters c).call)

/-- Whether a hook deny above the caller refuses the dispatch. -/
def hookRefused (rt : Runtime) (anc : List RegionRef) (name : CStr) : Bool :=
  match anc with
  | [] => false
  | root :: _ =>
    (rt.regions root).subtreeFlags
      && anc.dropLast.any (fun r => decide (name ∈ (rt.regions r).deniedHooks))

/-- Whether the exact-region loop runs an entry. -/
def selfListens (w : World) (rt : Runtime) (anc : List RegionRef) (hookId : Nat) (name : CStr)
    (e : EntryRef) : Bool :=
  (rt.mods e).any fun me =>
    me.ctx.isSome && !rt.moduleDeniedByAncestors anc me.loadPath
      && (me.hasHookImplemented hookId || (me.fnCacheResolve w hookId name).2.isSome)

/-- Whether the subtree loop runs a slot. -/
def slotListens (rt : Runtime) (slot : DispatchSlot) : Bool :=
  (rt.mods slot.me).any (fun me => me.ctx.isSome) && decide (slot.cb ≠ .null)

/-- `caller_region_entry`. -/
def State.callerRegion (s : State) : Option RegionRef :=
  s.tls.current.entry.orElse fun _ => s.rt.regionLookup s.tls.current.id s.regionCurrentPlen

/-- `anc_chain`. -/
def Runtime.ancChain (rt : Runtime) (caller : Option RegionRef) : List RegionRef :=
  match caller with
  | none => []
  | some r => rt.regionAncestorChain r 65

/-- From the choice of the scope to the head of its loop, for a dispatch whose
variables are in `d`. -/
def dispatchScope (w : World) (s : State) (d : Dispatch) : Option DispatchStart :=
  if d.selfOnly then
    some (.loop s { d with
      me := (s.rt.regions d.caller).mods.head?
      startSeq := (s.rt.regions d.caller).mods.filter
        (selfListens w s.rt d.anc d.hookId d.name) })
  else
    (s.rt.prepareVec w d.caller d.hookId d.name d.anc).map fun rt =>
      let v := rt.hookVec d.caller d.hookId
      .loop { s with rt := rt } { d with
        slots := v.slots
        n := v.count
        startSeq := ((v.cells.take v.count).filter (slotListens rt)).map (·.me) }

/-- `xy_dispatch` from the resolution of the adapter to the head of its loop. -/
def dispatchResolved (w : World) (s : State) (retp : Option BufRef) (reg : AdapterRef)
    (a : Adapter) (selfOnly : Bool) : Option DispatchStart :=
  let anc := s.rt.ancChain s.callerRegion
  if hookRefused s.rt anc a.name then
    let (s, ret) := dispatchFail s retp reg xyErrEperm
    some (.done s ret)
  else
    let s := s.lastPublish 0 retp reg
    match s.callerRegion with
    | none =>
      let (s, ret) := dispatchEnd s retp reg 0
      some (.done s ret)
    | some r =>
      dispatchScope w s
        { retp := retp, reg := reg, selfOnly := selfOnly, hookId := a.hookId.toNat, name := a.name
          regionId := s.tls.current.id, caller := r, anc := anc, slots := 0, n := 0, mi := 0
          me := none, prevEntry := none, regionChanged := false, ran := 0
          startSeq := [], entered := [], atEntry := s.tls.current }

/-- `xy_dispatch` from its entry to the head of its loop.  `none` is undefined
behaviour in the rebuild of the vector. -/
def dispatchBegin (w : World) (s : State) (retp : Option BufRef) (regp : Option AdapterRef)
    (selfOnly : Bool) : Option DispatchStart :=
  match regp with
  | none => some (.done (s.setErr xyErrNotfound) xyErrNotfound)
  | some reg =>
    let fail (s : State) (err : Int) : Option DispatchStart :=
      let (s, ret) := dispatchFail s retp reg err
      some (.done s ret)
    match resolveAdapter s (s.adapters reg) with
    | none => fail s xyErrNotfound
    | some (a, call) =>
      let s : State := { s with adapters := Function.update s.adapters reg a }
      if a.retSize > xyMaxRetSize then fail s xyErrToobig
      else if (fallbackCall s a.hookId.toNat call).isNone then fail s xyErrNotfound
      else dispatchResolved w s retp reg a selfOnly

/-! ## Hook registration -/

/-- `XY_INVALID`. -/
def xyInvalid : BitVec 32 := BitVec.allOnes 32

/-- What `xy_areg` does for a name that is new. -/
def Runtime.registerHook (w : World) (rt : Runtime) (name : CStr) (reg : AdapterRef) : Runtime :=
  let hookId := rt.hookIdCounter
  let hookIdHd := rt.hookIdHd.insert name hookId
  let byId := rt.adapterById
    ++ List.replicate (if hookId < rt.adapterById.length then 0
        else hookId + 16 - rt.adapterById.length) none
  { rt with
    sicaHd := rt.sicaHd.insert name reg
    hookIdHd := hookIdHd
    hookIdCounter := hookId + 1
    adapterById := byId.set hookId (some reg)
    mods := fun m =>
      if m ∈ rt.modHdValues w then
        (rt.mods m).map (fun me => me.fnCachePrewarm w hookIdHd.entries (hookId + 1))
      else rt.mods m }

/-- `xy_areg`, with the number it returns: for a name that is already known, the
first four bytes of the stored adapter pointer. -/
def xyAreg (w : World) (s : State) (name : CStr) (reg : AdapterRef) : State × BitVec 32 :=
  if (s.adapters reg).retSize > xyMaxRetSize then (s.setErr xyErrToobig, xyInvalid)
  else match s.rt.sicaHd.lookup name with
    | some existing => (s, (w.adapterAddr existing).setWidth 32)
    | none =>
      ({ s with
          rt := s.rt.registerHook w name reg
          adapters := Function.update s.adapters reg
            { s.adapters reg with hookId := s.rt.hookIdCounter }
          err := xyOk }, 0)

end Xylem
