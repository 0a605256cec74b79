import Xylem.Dispatch

/-!
# The load transaction

The steps of `_mod_load` on an `xy_load_txn_t`, each a function of the state and
the transaction, and `mod_load_abort`, which every failure after the allocation
goes through.  `Xylem.Machine` runs them in order.

The temporary copy of a reload, the `dlclose` calls and the `unlink` calls
change nothing that the model holds.
-/

namespace Xylem

/-- `xy_load_txn_t`.  `fname` is the argument of the call. -/
structure LoadTxn where
  fname : CStr
  lookup : LookupResult
  handle : Handle
  stableFname : Option StrRef
  modEntry : Option EntryRef
  inheritedReg : Option RegionRef
  inheritedRegionId : RegionId
  inheritedRegionPlen : Nat
  prevRegion : CurrentRegion
  publishedEntry : Bool
  contextActive : Bool

/-- The identity of the region that is loaded into. -/
def LoadTxn.inheritedKey (tx : LoadTxn) : RegionKey :=
  ⟨tx.inheritedRegionId, tx.inheritedRegionPlen⟩

/-- The transaction at the start of `_mod_load`, with the lookup that
`mod_load_open_handle` makes before it calls `dlopen`. -/
def modLoadStart (w : World) (s : State) (fname : CStr) : LoadTxn :=
  { fname := fname
    lookup := moduleLookupFromFname w s.rt fname s.tls.current.id s.regionCurrentPlen
    handle := 0
    stableFname := none
    modEntry := none
    inheritedReg := none
    inheritedRegionId := s.tls.current.id
    inheritedRegionPlen := s.regionCurrentPlen
    prevRegion := ⟨0, none⟩
    publishedEntry := false
    contextActive := false }

/-- `mod_load_try_reuse_existing`, once the lookup has found an entry. -/
def modLoadReuse (s : State) (e : EntryRef) : State :=
  { s with rt := s.rt.modifyMod e (fun me => { me with refcount := me.refcount + 1 }) }

/-- The entry that `mod_load_alloc_entry` fills in. -/
def LoadTxn.freshEntry (tx : LoadTxn) (loading : Option EntryRef) : ModEntry :=
  { ctx := none, fnCache := [], regionState := none, loadPath := tx.lookup.loadPath
    handle := tx.handle, regionEntry := none, regionId := tx.inheritedRegionId
    regionPlen := tx.inheritedRegionPlen, refcount := 1, parentEntry := loading
    hookImplBits := [], modKey := tx.lookup.key }

/-- The entry is allocated, and put into both tables. -/
def Runtime.publishEntry (rt : Runtime) (me : ModEntry) : Runtime :=
  let k : RegionKey := ⟨me.regionId, me.regionPlen⟩
  { rt with
    mods := Function.update rt.mods rt.nmods (some me)
    nmods := rt.nmods + 1
    modHd := rt.modHd.insert me.modKey rt.nmods
    modByRegionHd := Function.update rt.modByRegionHd k (rt.modByRegionHd k ++ [rt.nmods]) }

/-- `mod_load_alloc_entry` and `mod_load_publish_entry`. -/
def modLoadAllocPublish (s : State) (tx : LoadTxn) : State × LoadTxn :=
  ({ s with
      rt := s.rt.publishEntry (tx.freshEntry s.tls.loadingMod)
      strs := Function.update s.strs s.nstrs (some tx.fname)
      nstrs := s.nstrs + 1 },
    { tx with stableFname := some s.nstrs, modEntry := some s.rt.nmods, publishedEntry := true })

/-- `_xy_init`: the fields that are not function pointers. -/
def xyInit (ctx : Ctx) (fname : Option StrRef) (id : RegionId) : Ctx :=
  { ctx with modulePath := fname, regionId := id }

/-- `mod_load_check_ctx_abi`. -/
def modLoadCheckCtxAbi (w : World) (tx : LoadTxn) : Int :=
  match w.dlsym tx.handle .xyCtxAbi with
  | none => xyErrAbi
  | some fn => if w.ctxAbi fn = xyCtxAbiDesc then xyOk else xyErrAbi

/-- The context that `mod_load_bind_xy` finds: from `get_xy_ptr`, else the one a
constructor has left. -/
def modLoadCtx (w : World) (s : State) (tx : LoadTxn) : Option CtxRef :=
  ((w.dlsym tx.handle .getXyPtr).bind w.getXy).orElse fun _ => s.tls.pendingCtx

/-- `mod_load_bind_xy`. -/
def modLoadBindXy (w : World) (s : State) (tx : LoadTxn) : State × Int :=
  let ctx := modLoadCtx w s tx
  let s : State := { s with tls := { s.tls with pendingCtx := none } }
  match ctx, tx.modEntry with
  | some c, some e =>
    if modLoadCheckCtxAbi w tx ≠ xyOk then (s.setErr xyErrAbi, xyErrAbi)
    else
      ({ s with
          ctxs := Function.update s.ctxs c
            (xyInit (s.ctxs c) tx.stableFname tx.inheritedRegionId)
          rt := s.rt.modifyMod e (fun me => { me with ctx := some c }) }, xyOk)
  | _, _ => (s, xyOk)

/-- `mod_load_enter_context`. -/
def modLoadEnterContext (s : State) (tx : LoadTxn) : State × LoadTxn :=
  let reg := s.rt.regionLookup tx.inheritedRegionId tx.inheritedRegionPlen
  (s.setCurrentRegion ⟨tx.inheritedRegionId, reg⟩,
    { tx with inheritedReg := reg, prevRegion := s.tls.current, contextActive := true })

/-- Where `mod_load_claim_if_needed` leads before a claim handler runs. -/
inductive ClaimGate where
  | flat
  | refuse (err : Int)
  | ask (parent : RegionRef) (handler : HandlerRef) (bits : Nat)

/-- `mod_load_claim_if_needed`, and `_xy_claim_for_load` up to the call of the
handler. -/
def modLoadClaimGate (w : World) (s : State) (tx : LoadTxn) : ClaimGate :=
  match tx.inheritedReg, (w.dlsym tx.handle .xyClaim).map w.claimBits with
  | none, _ => .flat
  | some r, none => if (s.rt.regions r).requireClaim then .refuse xyErrEperm else .flat
  | some r, some bits =>
    if (s.rt.regions r).claimHandler.isNone ∧ (s.rt.regions r).requireClaim = false then .flat
    else if bits = 0 ∨ bits > 64 then .refuse xyErrInvalid
    else match s.rt.regionLookup tx.inheritedRegionId tx.inheritedRegionPlen with
      | none => .refuse xyErrNotfound
      | some parent =>
        match (s.rt.regions parent).claimHandler with
        | none => .refuse xyErrEperm
        | some handler => .ask parent handler bits

/-- `_xy_claim_for_load` from the handler's return to the switch of the current
region: the error, or the state and the identity of the child. -/
def xyClaimGranted (s : State) (parent : RegionRef) (hret : Int) (granted : Nat) :
    Except Int (State × RegionKey) :=
  if hret ≠ xyOk then .error xyErrEperm
  else if granted = 0 ∨ granted > 64 then .error xyErrEperm
  else
    let childId := s.rt.regionAllocSlot parent granted
    if childId = xyRegionInvalid then .error xyErrToobig
    else
      let plen := Runtime.childPlen (s.rt.regions parent).toRegionNode granted
      let rt := s.rt.addRegion parent childId plen granted none
      .ok ({ s with rt := rt }.setCurrentRegion ⟨childId, some s.rt.nregions⟩, ⟨childId, plen⟩)

/-- The count, and the region state of `size` bytes. -/
def Runtime.countEntry (rt : Runtime) (e : EntryRef) (size : Nat) : Runtime :=
  let rt : Runtime := { rt with modCount := rt.modCount + 1 }
  if size = 0 then rt
  else ({ rt with nblocks := rt.nblocks + 1 } : Runtime).modifyMod e
    (fun me => { me with regionState := some rt.nblocks })

/-- The code of `_mod_load` between the claim and the prewarming: the count, the
region state, and the link into the region's list. -/
def Runtime.linkEntry (rt : Runtime) (e : EntryRef) (me : ModEntry) (size : Nat) : Runtime :=
  let rt := rt.countEntry e size
  match rt.regionLookup me.regionId me.regionPlen with
  | none => rt
  | some r => rt.moduleRegionAppend r e

def modLoadLink (w : World) (s : State) (tx : LoadTxn) (e : EntryRef) (me : ModEntry) : State :=
  let size := ((w.dlsym tx.handle .xyRegionStateSize).map w.regionStateSize).getD 0
  { s with rt := s.rt.linkEntry e me size }

/-- `fn_cache_prewarm` of the entry that is being loaded. -/
def modLoadPrewarm (w : World) (s : State) (e : EntryRef) : State :=
  { s with
    rt := s.rt.modifyMod e
      (fun me => me.fnCachePrewarm w s.rt.hookIdHd.entries s.rt.hookIdCounter) }

/-- `mod_load_restore_context`. -/
def modLoadRestoreContext (s : State) (tx : LoadTxn) : State :=
  if tx.contextActive then s.setCurrentRegion tx.prevRegion else s

/-- What `mod_load_abort` does to the tables. -/
def Runtime.abortEntry (w : World) (rt : Runtime) (e : EntryRef) (me : ModEntry)
    (published : Bool) : Runtime :=
  if published then rt.discardEntry w e me
  else
    let rt := rt.moduleRegionDetach e
    { rt with mods := Function.update rt.mods e none }

/-- `free(tx->stable_fname)`. -/
def modLoadFreeFname (s : State) (tx : LoadTxn) : State :=
  match tx.stableFname with
  | none => s
  | some p => { s with strs := Function.update s.strs p none }

/-- `mod_load_abort`.  `none` is undefined behaviour: the entry has been freed
by another call in the meantime. -/
def modLoadAbort (w : World) (s : State) (tx : LoadTxn) : Option State :=
  let s := modLoadFreeFname (modLoadRestoreContext s tx) tx
  match tx.modEntry with
  | none => some s
  | some e =>
    match s.rt.mods e with
    | none => none
    | some me =>
      let s := moduleCleanupRegionState w s me
      some { s with rt := s.rt.abortEntry w e me tx.publishedEntry }

/-- `_mod_unload` after the cascade. -/
def modUnloadFinish (w : World) (s : State) (e : EntryRef) (me : ModEntry) : State :=
  moduleCleanupRegionState w { s with rt := s.rt.removeEntry w e me } me

end Xylem
