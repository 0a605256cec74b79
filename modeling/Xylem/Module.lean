import Xylem.Region

/-!
# Module entries

The module table, the module list of a region, the callback cache of an entry
and the bitmap of the hooks it implements.

An entry is resolved by name once.  `fn_cache` holds the callback or the mark
that there is none; `hook_impl_bits` says which hooks have a callback, and is
what the dispatcher asks.  The two are written together by `fn_cache_resolve`
and `fn_cache_prewarm`, but `module_clear_fn_cache_for_handle` clears cells of
the cache and leaves the bits.
-/

namespace Xylem

/-! ## The hook bitmap and the callback cache of one entry -/

namespace ModEntry

/-- `module_has_hook_implemented`. -/
def hasHookImplemented (me : ModEntry) (hookId : Nat) : Bool :=
  (me.hookImplBits.getD (hookId / 64) 0).getLsbD (hookId % 64)

/-- `module_ensure_hook_impl_words`, when the allocation succeeds. -/
def ensureHookImplWords (me : ModEntry) (hookId : Nat) : ModEntry :=
  { me with hookImplBits := me.hookImplBits
      ++ List.replicate (hookId / 64 + 1 - me.hookImplBits.length) 0 }

/-- `module_mark_hook_implemented`. -/
def markHookImplemented (me : ModEntry) (hookId : Nat) : ModEntry :=
  let me := me.ensureHookImplWords hookId
  { me with hookImplBits := me.hookImplBits.modify (hookId / 64) (· ||| (1 <<< (hookId % 64))) }

/-- `module_ensure_fn_cache_cap`, when the allocation succeeds. -/
def ensureFnCacheCap (me : ModEntry) (needed : Nat) : ModEntry :=
  { me with fnCache := me.fnCache ++ List.replicate (needed - me.fnCache.length) .null }

/-- `fn_cache[hook_id]`. -/
def fnCell (me : ModEntry) (hookId : Nat) : FnSlot := me.fnCache.getD hookId .null

/-- `fn_cache[hook_id] = cell`. -/
def setFnCell (me : ModEntry) (hookId : Nat) (cell : FnSlot) : ModEntry :=
  { me with fnCache := me.fnCache.set hookId cell }

end ModEntry

/-- `module_symbol_is_local`, on a platform with `dlinfo`. -/
def World.moduleSymbolIsLocal (w : World) (handle : Handle) (sym : Addr) : Bool :=
  match w.linkBase handle, w.fbase sym with
  | some lm, some base => decide (base = lm)
  | _, _ => false

/-- The lookup of a hook callback by name: the symbol when the module itself
defines it. -/
def World.hookSymbol (w : World) (handle : Handle) (name : CStr) : Option Addr :=
  (w.dlsym handle (.hook name)).filter (w.moduleSymbolIsLocal handle)

/-- `module_base_from_symbol` of what `module_handle_base` finds. -/
def World.moduleHandleBase (w : World) (handle : Handle) : Option Addr :=
  ((w.dlsym handle .xyInstall).orElse (fun _ => w.dlsym handle .getXyPtr)).bind w.fbase

namespace ModEntry

/-- The store at the end of a resolution: the callback and its bit, or the mark
that there is none. -/
def storeFn (me : ModEntry) (hookId : Nat) (cb : Option Addr) : ModEntry :=
  match cb with
  | some a => (me.setFnCell hookId (.fn a)).markHookImplemented hookId
  | none => me.setFnCell hookId .notFound

/-- `fn_cache_resolve` for a hook id that is not negative: the entry afterwards
and the callback. -/
def fnCacheResolve (w : World) (me : ModEntry) (hookId : Nat) (name : CStr) :
    ModEntry × Option Addr :=
  match me.fnCell hookId with
  | .fn a => (me, some a)
  | .notFound => (me, none)
  | .null =>
    let cb := w.hookSymbol me.handle name
    ((me.ensureFnCacheCap
        (if hookId < me.fnCache.length then me.fnCache.length else hookId + 16)).storeFn
      hookId cb, cb)

/-- One round of the loop of `fn_cache_prewarm`. -/
def prewarmOne (w : World) (me : ModEntry) (name : CStr) (hookId : Nat) : ModEntry :=
  if hookId < me.fnCache.length then
    match me.fnCell hookId with
    | .null => me.storeFn hookId (w.hookSymbol me.handle name)
    | _ => me
  else me

/-- The entry after a dispatch has made sure that its callback is resolved. -/
def resolved (w : World) (me : ModEntry) (hookId : Nat) (name : CStr) : ModEntry :=
  if me.hasHookImplemented hookId then me else (me.fnCacheResolve w hookId name).1

/-- `fn_cache_prewarm`: every hook name known so far. -/
def fnCachePrewarm (w : World) (me : ModEntry) (hooks : List (Sigma fun _ : CStr => Nat))
    (needed : Nat) : ModEntry :=
  if needed = 0 then me
  else hooks.foldl (fun me h => me.prewarmOne w h.1 h.2) (me.ensureFnCacheCap (needed + 16))

/-- The body of the loop of `module_clear_fn_cache_for_handle`: the callbacks
that lie in the mapping at `base` are forgotten. -/
def clearFnCache (w : World) (me : ModEntry) (base : Addr) : ModEntry :=
  { me with fnCache := me.fnCache.map (fun cell =>
      match cell with
      | .fn a => if w.fbase a = some base then .null else cell
      | _ => cell) }

end ModEntry

namespace Runtime

/-! ## Entries and the table -/

/-- A write to one module entry that is allocated. -/
def modifyMod (rt : Runtime) (e : EntryRef) (f : ModEntry → ModEntry) : Runtime :=
  { rt with mods := Function.update rt.mods e ((rt.mods e).map f) }

/-- The values of `mod_hd` in the order `corm_iter` yields them. -/
def modHdValues (w : World) (rt : Runtime) : List EntryRef :=
  w.iterOrder (rt.modHd.entries.map Sigma.snd)

/-- `corm_del(mod_by_region_hd, key)`. -/
def delModByRegion (w : World) (rt : Runtime) (k : RegionKey) : Runtime :=
  { rt with modByRegionHd :=
      Function.update rt.modByRegionHd k (w.delMulti (rt.modByRegionHd k)) }

/-! ## The module list of a region -/

/-- `module_region_detach`. -/
def moduleRegionDetach (rt : Runtime) (e : EntryRef) : Runtime :=
  match (rt.mods e).bind (·.regionEntry) with
  | none => rt
  | some r =>
    (rt.modifyRegion r (fun re => { re with mods := re.mods.erase e })).regionMarkSubtreeDirty r

/-- The list with `e` put in after `after`, or at the head. -/
def insertAfter (e : EntryRef) : Option EntryRef → List EntryRef → List EntryRef
  | none, l => e :: l
  | some _, [] => []
  | some a, x :: l => if x = a then x :: e :: l else x :: insertAfter e (some a) l

/-- `module_region_insert_after`. -/
def moduleRegionInsertAfter (rt : Runtime) (r : RegionRef) (e : EntryRef)
    (after : Option EntryRef) : Runtime :=
  ((rt.modifyMod e (fun me => { me with regionEntry := some r })).modifyRegion r
    (fun re => { re with mods := insertAfter e after re.mods })).regionMarkSubtreeDirty r

/-- `module_region_append`. -/
def moduleRegionAppend (rt : Runtime) (r : RegionRef) (e : EntryRef) : Runtime :=
  rt.moduleRegionInsertAfter r e (rt.regions r).mods.getLast?

/-- The entry before `e` in a list, `region_prev`. -/
def prevIn (e : EntryRef) : List EntryRef → Option EntryRef
  | [] => none
  | [_] => none
  | x :: y :: l => if y = e then some x else prevIn e (y :: l)

/-- The entry after `e` in a list, `region_next` or `sibling_next`. -/
def nextIn (e : EntryRef) : List EntryRef → Option EntryRef
  | [] => none
  | x :: l => if x = e then l.head? else nextIn e l

/-- `me->region_next`. -/
def regionNext (rt : Runtime) (e : EntryRef) (me : ModEntry) : Option EntryRef :=
  me.regionEntry.bind (fun r => nextIn e (rt.regions r).mods)

/-- `me->region_prev`. -/
def regionPrev (rt : Runtime) (e : EntryRef) (me : ModEntry) : Option EntryRef :=
  me.regionEntry.bind (fun r => prevIn e (rt.regions r).mods)

/-! ## Unload -/

/-- `module_clear_fn_cache_for_handle`: every other entry of the table forgets
the callbacks in the mapping of this one. -/
def moduleClearFnCacheForHandle (w : World) (rt : Runtime) (e : EntryRef) (handle : Handle) :
    Runtime :=
  match w.moduleHandleBase handle with
  | none => rt
  | some base =>
    { rt with mods := fun m =>
        if m ≠ e ∧ m ∈ rt.modHdValues w then (rt.mods m).map (·.clearFnCache w base)
        else rt.mods m }

/-- The entries that `_mod_unload` collects before it removes `e`. -/
def cascadeChildren (w : World) (rt : Runtime) (e : EntryRef) : List EntryRef :=
  (rt.modHdValues w).filter
    (fun m => m ≠ e ∧ (rt.mods m).any (fun me => me.parentEntry = some e))

/-- `module_remove_path_owned_entries`, for an entry that is linked. -/
def moduleRemovePathOwnedEntries (rt : Runtime) (me : ModEntry) : Runtime :=
  match me.regionEntry with
  | none => rt
  | some r => rt.moduleRemoveDenies r me.loadPath

/-- An entry is unlinked, its keys are deleted, and it is freed. -/
def discardEntry (w : World) (rt : Runtime) (e : EntryRef) (me : ModEntry) : Runtime :=
  let rt := (rt.moduleRegionDetach e).delModByRegion w ⟨me.regionId, me.regionPlen⟩
  { rt with modHd := rt.modHd.erase me.modKey, mods := Function.update rt.mods e none }

/-- The part of `_mod_unload` after the cascade. -/
def removeEntry (w : World) (rt : Runtime) (e : EntryRef) (me : ModEntry) : Runtime :=
  let rt := (rt.moduleClearFnCacheForHandle w e me.handle).moduleRemovePathOwnedEntries me
  { rt.discardEntry w e me with modCount := rt.modCount - 1 }

/-! ## Re-keying after a claim -/

/-- `module_rekey_region_index`. -/
def moduleRekeyRegionIndex (rt : Runtime) (e : EntryRef) (pk ck : RegionKey) : Runtime :=
  let others := ((rt.modByRegionHd pk).filter (· ≠ e)).take 512
  let byRegion := Function.update rt.modByRegionHd pk others
  { rt with modByRegionHd := Function.update byRegion ck (byRegion ck ++ [e]) }

/-- `module_rekey_loaded_entry`, but for the context: the table first, then the
index. -/
def moduleRekeyLoadedEntry (rt : Runtime) (e : EntryRef) (oldKey : List UInt8) (path : CStr)
    (pk ck : RegionKey) : Runtime :=
  let newKey := modKey path ck.id ck.plen
  let rt := rt.modifyMod e (fun me =>
    { me with regionId := ck.id, regionPlen := ck.plen, modKey := newKey })
  let rt := { rt with modHd := (rt.modHd.insert newKey e).erase oldKey }
  rt.moduleRekeyRegionIndex e pk ck

end Runtime

/-- `module_lookup_from_fname`. -/
structure LookupResult where
  loadPath : CStr
  key : List UInt8
  entry : Option EntryRef

def moduleLookupFromFname (w : World) (rt : Runtime) (fname : CStr) (id : RegionId)
    (plen : Nat) : LookupResult :=
  let path := w.loadPath fname
  let key := modKey path id plen
  { loadPath := path, key := key, entry := rt.modHd.lookup key }

/-- `module_rekey_for_claim`. -/
def moduleRekeyForClaim (w : World) (s : State) (caller : CStr) (pk ck : RegionKey) : State :=
  let lookup := moduleLookupFromFname w s.rt caller pk.id pk.plen
  match lookup.entry with
  | none => s
  | some e =>
    let rt := s.rt.moduleRekeyLoadedEntry e lookup.key lookup.loadPath pk ck
    let ctxs := match (s.rt.mods e).bind (·.ctx) with
      | none => s.ctxs
      | some c => Function.update s.ctxs c { s.ctxs c with regionId := ck.id }
    { s with rt := rt, ctxs := ctxs }

/-- `module_cleanup_region_state`, as the call it makes into the module.  The function that is
called is the module's own, and is taken to make no call of the API. -/
def moduleCleanupRegionState (w : World) (s : State) (me : ModEntry) : State :=
  match me.regionState, w.dlsym me.handle .xyRegionCleanup with
  | some block, some fn => { s with cleanups := (fn, block) :: s.cleanups }
  | _, _ => s

end Xylem
