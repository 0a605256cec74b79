import Xylem.Lib.Fallible
import Xylem.Callbacks

/-!
# The bounds of the callback cache

The dispatcher reads `fn_cache[hook_id]` without a test of its own: it asks
`module_has_hook_implemented` first.  The bitmap behind that test and the cache
are two arrays, which grow in different functions, and either growth may fail.

* `moduleEnsureFnCacheCap`, `moduleMarkHookImplemented`, `fnCacheResolve`,
  `fnCachePrewarm` and `registerHook` are the functions that write the two
  arrays, with allocations that may fail.  The functions of the same names in
  the other modules are these when no allocation fails
  (`returns_fnCacheResolve`, `returns_fnCachePrewarm`, `returns_rebuildLoop`).
* `regionRebuildHookDispatch` and `selfRound` are the two loops with the
  unguarded reads.
* `Bounded me` says that a hook with a bit has a cell.  Each function keeps it
  (`safe_fnCacheResolve`, `safe_fnCachePrewarm`), so a run of operations in any
  order keeps it (`safe_run`), and so does the runtime in which no allocation
  fails (`cacheBounded_of_reachable`).
-/

namespace Xylem

open Fallible

/-! ## The functions, with allocations that may fail -/

namespace Alloc

/-- `module_ensure_hook_impl_words`. -/
def moduleEnsureHookImplWords (me : ModEntry) (hookId : Nat) : Prog (Bool × ModEntry) := do
  let r ← grow 0 me.hookImplBits (hookId / 64 + 1)
  return (r.1, { me with hookImplBits := r.2 })

/-- `module_mark_hook_implemented`. -/
def moduleMarkHookImplemented (me : ModEntry) (hookId : Nat) : Prog ModEntry := do
  let r ← moduleEnsureHookImplWords me hookId
  if r.1 then
    let word ← load r.2.hookImplBits (hookId / 64)
    let bits ← store r.2.hookImplBits (hookId / 64) (word ||| (1 <<< (hookId % 64)))
    return { r.2 with hookImplBits := bits }
  else return r.2

/-- `module_ensure_fn_cache_cap`. -/
def moduleEnsureFnCacheCap (me : ModEntry) (needed : Nat) : Prog (Bool × ModEntry) := do
  let r ← grow FnSlot.null me.fnCache needed
  return (r.1, { me with fnCache := r.2 })

/-- The store at the end of a resolution: the cell, and the bit of a hook that
has a callback. -/
def storeFn (me : ModEntry) (hookId : Nat) (cb : Option Addr) : Prog ModEntry := do
  let cells ← store me.fnCache hookId (cb.elim .notFound .fn)
  let me : ModEntry := { me with fnCache := cells }
  if cb.isSome then moduleMarkHookImplemented me hookId else return me

/-- What `fn_cache_resolve` returns: `XY_FN_RESOLVE_OOM`, or the callback. -/
inductive Resolution where
  | oom
  | found (cb : Option Addr)

/-- `fn_cache_resolve` for a hook id that is not negative. -/
def fnCacheResolve (w : World) (me : ModEntry) (hookId : Nat) (name : CStr) :
    Prog (Resolution × ModEntry) :=
  let resolve (me : ModEntry) : Prog (Resolution × ModEntry) := do
    let cb := w.hookSymbol me.handle name
    let me ← storeFn me hookId cb
    return (.found cb, me)
  if hookId < me.fnCache.length then do
    match ← load me.fnCache hookId with
    | .fn a => return (.found (some a), me)
    | .notFound => return (.found none, me)
    | .null => resolve me
  else do
    let r ← moduleEnsureFnCacheCap me (hookId + 16)
    if r.1 then resolve r.2 else return (.oom, r.2)

/-- One round of the loop of `fn_cache_prewarm`. -/
def prewarmOne (w : World) (me : ModEntry) (hook : Sigma fun _ : CStr => Nat) : Prog ModEntry :=
  if hook.2 < me.fnCache.length then do
    match ← load me.fnCache hook.2 with
    | .null => storeFn me hook.2 (w.hookSymbol me.handle hook.1)
    | _ => return me
  else return me

/-- `fn_cache_prewarm`: the entry afterwards, whether or not the growth has
failed. -/
def fnCachePrewarm (w : World) (me : ModEntry) (hooks : List (Sigma fun _ : CStr => Nat))
    (needed : Nat) : Prog ModEntry :=
  if needed = 0 then return me
  else do
    let r ← moduleEnsureFnCacheCap me (needed + 16)
    if r.1 then hooks.foldlM (prewarmOne w) r.2 else return r.2

/-- `fn_cache_prewarm` of an entry of the table. -/
def prewarmEntry (w : World) (rt : Runtime) (e : EntryRef) : Prog Runtime :=
  match rt.mods e with
  | none => return rt
  | some me => do
    let me ← fnCachePrewarm w me rt.hookIdHd.entries rt.hookIdCounter
    return rt.modifyMod e fun _ => me

/-- What `xy_areg` does for a name that is new: whether the array of the adapters
had room.  The hook has its id in any case. -/
def registerHook (w : World) (rt : Runtime) (name : CStr) (reg : AdapterRef) :
    Prog (Bool × Runtime) := do
  let hookId := rt.hookIdCounter
  let rt : Runtime :=
    { rt with
      sicaHd := rt.sicaHd.insert name reg
      hookIdHd := rt.hookIdHd.insert name hookId
      hookIdCounter := hookId + 1 }
  let r ← (if hookId < rt.adapterById.length then pure (true, rt.adapterById)
    else grow none rt.adapterById (hookId + 16))
  if r.1 then
    let byId ← store r.2 hookId (some reg)
    let rt ← (rt.modHdValues w).foldlM (prewarmEntry w) { rt with adapterById := byId }
    return (true, rt)
  else return (false, rt)

/-- What the two loops find out about a module before they read its cell. -/
inductive Listening where
  | oom
  | no
  | yes

/-- The test of `module_has_hook_implemented`, the resolution if it fails, and
the test again. -/
def askListener (w : World) (me : ModEntry) (hookId : Nat) (name : CStr) :
    Prog (Listening × ModEntry) :=
  if me.hasHookImplemented hookId then return (.yes, me)
  else do
    let r ← fnCacheResolve w me hookId name
    match r.1 with
    | .oom => return (.oom, r.2)
    | .found none => return (.no, r.2)
    | .found (some _) => return (if r.2.hasHookImplemented hookId then .yes else .no, r.2)

/-- The loop of `region_rebuild_hook_dispatch`: whether it has come to its
end. -/
def rebuildLoop (w : World) (anc : List RegionRef) (hookId : Nat) (name : CStr) :
    List EntryRef → Runtime → HookDispatchCache → Prog (Bool × Runtime × HookDispatchCache)
  | [], rt, v => return (true, rt, v)
  | e :: es, rt, v =>
    match rt.mods e with
    | none => rebuildLoop w anc hookId name es rt v
    | some me =>
      if me.ctx.isNone then rebuildLoop w anc hookId name es rt v
      else if rt.moduleDeniedByAncestors anc me.loadPath then
        rebuildLoop w anc hookId name es rt v
      else do
        let r ← askListener w me hookId name
        let rt := rt.modifyMod e fun _ => r.2
        match r.1 with
        | .oom => return (false, rt, v)
        | .no => rebuildLoop w anc hookId name es rt v
        | .yes =>
          if ← (if v.cap ≤ v.count then alloc else pure true) then
            let cb ← load r.2.fnCache hookId
            let pushed := rt.pushSlot v ⟨e, cb⟩
            rebuildLoop w anc hookId name es pushed.1 pushed.2
          else return (false, rt, v)

/-- `region_collect_subtree_mods` over the modules that it meets.  Each push is
taken to allocate; one that has room is one whose allocation succeeds. -/
def collectMods : List EntryRef → Prog (Bool × List EntryRef)
  | [] => return (true, [])
  | e :: es => do
    if ← alloc then
      let r ← collectMods es
      return (r.1, e :: r.2)
    else return (false, [])

/-- `region_rebuild_subtree_mods`. -/
def regionRebuildSubtreeMods (rt : Runtime) (r : RegionRef) : Prog (Bool × Runtime) := do
  let l ← collectMods (rt.collectSubtreeMods rt.nregions r)
  return (l.1, rt.modifyRegion r fun re =>
    { re with subtreeMods := l.2, subtreeModsDirty := re.subtreeModsDirty && !l.1 })

/-- `region_ensure_hook_dispatch_cap`. -/
def regionEnsureHookDispatchCap (rt : Runtime) (r : RegionRef) (hookId : Nat) :
    Prog (Bool × Runtime) :=
  if hookId < (rt.regions r).hookDispatch.length then return (true, rt)
  else do
    let l ← grow HookDispatchCache.empty (rt.regions r).hookDispatch (hookId + 16)
    return (l.1, rt.modifyRegion r fun re => { re with hookDispatch := l.2 })

/-- `region_rebuild_hook_dispatch`, once the subtree list is up to date: the
vector keeps what was written to it when the loop is broken off. -/
def rebuildVector (w : World) (rt : Runtime) (r : RegionRef) (hookId : Nat) (name : CStr)
    (anc : List RegionRef) : Prog (Bool × Runtime) := do
  let cap ← regionEnsureHookDispatchCap rt r hookId
  if cap.1 then
    let rt := cap.2
    if (rt.hookVec r hookId).regionGen = (rt.regions r).dispatchGen then return (true, rt)
    else
      let l ← rebuildLoop w anc hookId name (rt.regions r).subtreeMods rt
        { rt.hookVec r hookId with count := 0 }
      return (l.1, l.2.1.modifyRegion r fun re =>
        let gen := if l.1 then re.dispatchGen else l.2.2.regionGen
        { re with hookDispatch := re.hookDispatch.set hookId { l.2.2 with regionGen := gen } })
  else return cap

/-- `region_rebuild_hook_dispatch`. -/
def regionRebuildHookDispatch (w : World) (rt : Runtime) (r : RegionRef) (hookId : Nat)
    (name : CStr) (anc : List RegionRef) : Prog (Bool × Runtime) := do
  let mods ← (if (rt.regions r).subtreeModsDirty then regionRebuildSubtreeMods rt r
    else pure (true, rt))
  if mods.1 then rebuildVector w mods.2 r hookId name anc else return mods

/-- What one round of the exact-region loop does with its module. -/
inductive SelfRound where
  | skip
  | oom
  | call (cb : FnSlot)

/-- One round of the exact-region loop of `xy_dispatch`, up to the call of the
listener. -/
def selfRound (w : World) (rt : Runtime) (e : EntryRef) (anc : List RegionRef) (hookId : Nat)
    (name : CStr) : Prog (SelfRound × Runtime) :=
  match rt.mods e with
  | none => return (.skip, rt)
  | some me =>
    if me.ctx.isNone then return (.skip, rt)
    else if rt.moduleDeniedByAncestors anc me.loadPath then return (.skip, rt)
    else do
      let r ← askListener w me hookId name
      let rt := rt.modifyMod e fun _ => r.2
      match r.1 with
      | .oom => return (.oom, rt)
      | .no => return (.skip, rt)
      | .yes =>
        let cb ← load r.2.fnCache hookId
        return (.call cb, rt)

end Alloc

/-! ## One entry -/

/-- Every hook with a bit has a cell. -/
def ModEntry.Bounded (me : ModEntry) : Prop :=
  ∀ h, me.hasHookImplemented h = true → h < me.fnCache.length

namespace Alloc

variable {w : World} {me : ModEntry} {hookId : Nat}

/-- The bitmap grows by empty words, and the cache stays as it is. -/
theorem safe_moduleEnsureHookImplWords (me : ModEntry) (hookId : Nat) :
    Safe (moduleEnsureHookImplWords me hookId) fun r =>
      (Grown 0 me.hookImplBits r.2.hookImplBits ∧ r.2.fnCache = me.fnCache)
        ∧ (r.1 = true → hookId / 64 < r.2.hookImplBits.length) := by
  refine Safe.bind (Safe.grow 0 _ _) fun r hr => Safe.pure ⟨⟨hr.1, rfl⟩, fun hok => ?_⟩
  have hlen := hr.2.1 hok
  show hookId / 64 < r.2.length
  omega

/-- The cache grows by empty cells, and the bitmap stays as it is. -/
theorem safe_moduleEnsureFnCacheCap (me : ModEntry) (needed : Nat) :
    Safe (moduleEnsureFnCacheCap me needed) fun r =>
      (Grown .null me.fnCache r.2.fnCache ∧ r.2.hookImplBits = me.hookImplBits)
        ∧ (r.1 = true → needed ≤ r.2.fnCache.length) :=
  Safe.bind (Safe.grow _ _ _) fun _ hr => Safe.pure ⟨⟨hr.1, rfl⟩, hr.2.1⟩

/-- Words that are added hold no bit. -/
theorem hasHook_of_grown {me' : ModEntry} (h : Grown 0 me.hookImplBits me'.hookImplBits)
    (k : Nat) : me'.hasHookImplemented k = me.hasHookImplemented k := by
  unfold ModEntry.hasHookImplemented
  rw [h.getD]

/-- A bitmap that has the word of a hook needs no growth for it. -/
theorem ensureHookImplWords_of_lt (h : hookId / 64 < me.hookImplBits.length) :
    me.ensureHookImplWords hookId = me := by
  unfold ModEntry.ensureHookImplWords
  rw [Nat.sub_eq_zero_of_le (by omega), List.replicate_zero, List.append_nil]

/-- The write of the bit, once the word is there. -/
theorem markHookImplemented_of_word {word : BitVec 64}
    (h : me.hookImplBits[hookId / 64]? = some word) :
    { me with hookImplBits :=
        me.hookImplBits.set (hookId / 64) (word ||| (1 <<< (hookId % 64))) }
      = me.markHookImplemented hookId := by
  obtain ⟨hlt, -⟩ := List.getElem?_eq_some_iff.mp h
  unfold ModEntry.markHookImplemented
  rw [ensureHookImplWords_of_lt hlt]
  dsimp only
  rw [List.modify_eq_set_getElem?, h]
  rfl

/-- A mark sets no bit but that of its hook, and none if the bitmap cannot
grow. -/
theorem safe_moduleMarkHookImplemented (me : ModEntry) (hookId : Nat) :
    Safe (moduleMarkHookImplemented me hookId) fun me' =>
      me'.fnCache = me.fnCache
        ∧ ∀ h, me'.hasHookImplemented h = true → h = hookId ∨ me.hasHookImplemented h = true := by
  refine Safe.bind (safe_moduleEnsureHookImplWords me hookId) fun r hr => ?_
  obtain ⟨⟨hgrown, hcells⟩, hroom⟩ := hr
  split
  · next hok =>
    refine Safe.bind (Safe.load (hroom hok)) fun word hword => ?_
    refine Safe.bind (Safe.store _ (hroom hok)) fun bits hbits => Safe.pure ?_
    rw [hbits, markHookImplemented_of_word hword]
    refine ⟨hcells, fun h hh => ?_⟩
    rw [ModEntry.hasHook_markHookImplemented, hasHook_of_grown hgrown] at hh
    simpa using hh
  · refine Safe.pure ⟨hcells, fun h hh => Or.inr ?_⟩
    rwa [hasHook_of_grown hgrown] at hh

/-- A resolution that stores into a cell of the array keeps the bound, and the
length of the array. -/
theorem safe_storeFn (hb : me.Bounded) (hlt : hookId < me.fnCache.length) (cb : Option Addr) :
    Safe (storeFn me hookId cb) ModEntry.Bounded := by
  refine Safe.bind (Safe.store _ hlt) fun cells hcells => ?_
  have hlen : cells.length = me.fnCache.length := by rw [hcells, List.length_set]
  dsimp only
  split
  · refine (safe_moduleMarkHookImplemented _ hookId).mono fun me' hme h hh => ?_
    rw [hme.1]
    show h < cells.length
    rcases hme.2 h hh with rfl | hold
    · omega
    · rw [hlen]
      exact hb h hold
  · refine Safe.pure fun h hh => ?_
    show h < cells.length
    rw [hlen]
    exact hb h hh

/-- A larger cache keeps the bound. -/
theorem bounded_of_grown {me' : ModEntry} (hb : me.Bounded)
    (h : Grown .null me.fnCache me'.fnCache ∧ me'.hookImplBits = me.hookImplBits) :
    me'.Bounded := by
  intro k hk
  have hold : me.hasHookImplemented k = true := by
    rw [← hk]
    simp only [ModEntry.hasHookImplemented, h.2]
  exact Nat.lt_of_lt_of_le (hb k hold) h.1.le

theorem safe_fnCacheResolve (hb : me.Bounded) (hookId : Nat) (name : CStr) :
    Safe (fnCacheResolve w me hookId name) fun r => r.2.Bounded := by
  have hresolve : ∀ me' : ModEntry, me'.Bounded → hookId < me'.fnCache.length →
      Safe (do
        let me'' ← storeFn me' hookId (w.hookSymbol me'.handle name)
        return (Resolution.found (w.hookSymbol me'.handle name), me'')) fun r => r.2.Bounded := by
    intro me' hb' hlt
    exact Safe.bind (safe_storeFn hb' hlt _) fun me'' h => Safe.pure h
  unfold fnCacheResolve
  dsimp only
  split
  · next hlt =>
    refine Safe.bind (Safe.load hlt) fun cell _ => ?_
    cases cell with
    | fn a => exact Safe.pure hb
    | notFound => exact Safe.pure hb
    | null => exact hresolve me hb hlt
  · refine Safe.bind (safe_moduleEnsureFnCacheCap me _) fun r hr => ?_
    have hb' : r.2.Bounded := bounded_of_grown hb hr.1
    split
    · next hok =>
      have hlen := hr.2 hok
      exact hresolve r.2 hb' (by omega)
    · exact Safe.pure hb'

theorem safe_prewarmOne (hb : me.Bounded) (hook : Sigma fun _ : CStr => Nat) :
    Safe (prewarmOne w me hook) ModEntry.Bounded := by
  unfold prewarmOne
  split
  · next hlt =>
    refine Safe.bind (Safe.load hlt) fun cell _ => ?_
    cases cell with
    | fn a => exact Safe.pure hb
    | notFound => exact Safe.pure hb
    | null => exact safe_storeFn hb hlt _
  · exact Safe.pure hb

/-- The names that are known do not matter: the loop stays below the length of
the array. -/
theorem safe_fnCachePrewarm (hb : me.Bounded) (hooks : List (Sigma fun _ : CStr => Nat))
    (needed : Nat) : Safe (fnCachePrewarm w me hooks needed) ModEntry.Bounded := by
  unfold fnCachePrewarm
  split
  · exact Safe.pure hb
  · refine Safe.bind (safe_moduleEnsureFnCacheCap me _) fun r hr => ?_
    have hb' : r.2.Bounded := bounded_of_grown hb hr.1
    split
    · exact Safe.foldlM (fun me hook _ hme => safe_prewarmOne hme hook) hb'
    · exact Safe.pure hb'

/-- A module that is found to listen has a cell for the hook. -/
theorem safe_askListener (hb : me.Bounded) (hookId : Nat) (name : CStr) :
    Safe (askListener w me hookId name) fun r =>
      r.2.Bounded ∧ (r.1 = .yes → hookId < r.2.fnCache.length) := by
  unfold askListener
  split
  · next hbit => exact Safe.pure ⟨hb, fun _ => hb hookId hbit⟩
  · refine Safe.bind (safe_fnCacheResolve hb hookId name) fun r hr => ?_
    generalize r.1 = res
    cases res with
    | oom => exact Safe.pure ⟨hr, by simp⟩
    | found cb =>
      cases cb with
      | none => exact Safe.pure ⟨hr, by simp⟩
      | some a =>
        refine Safe.pure ⟨hr, fun hyes => hr hookId ?_⟩
        by_contra hbit
        simp [hbit] at hyes

end Alloc

/-! ## All the entries -/

/-- Every entry has a cell for each hook with a bit. -/
def Runtime.CacheBounded (rt : Runtime) : Prop :=
  ∀ e me, rt.mods e = some me → me.Bounded

namespace Runtime

variable {rt rt' : Runtime}

theorem CacheBounded.of_mods (h : rt.CacheBounded) (hmods : rt'.mods = rt.mods) :
    rt'.CacheBounded := by
  intro e me hme
  rw [hmods] at hme
  exact h e me hme

theorem CacheBounded.modifyMod (h : rt.CacheBounded) {e : EntryRef} {f : ModEntry → ModEntry}
    (hf : ∀ me, rt.mods e = some me → (f me).Bounded) : (rt.modifyMod e f).CacheBounded := by
  intro x me hme
  obtain ⟨old, hold, rfl⟩ := modifyMod_some hme
  split
  · next hx =>
    subst hx
    exact hf old hold
  · exact h x old hold

/-- An entry that is freed is bounded no longer, and needs not be. -/
theorem CacheBounded.free (h : rt.CacheBounded) (e : EntryRef)
    (hmods : rt'.mods = Function.update rt.mods e none) : rt'.CacheBounded := by
  intro x me hme
  rw [hmods] at hme
  by_cases hx : x = e
  · subst hx
    simp at hme
  · rw [Function.update_of_ne hx] at hme
    exact h x me hme

/-- A clear empties cells, and takes none away. -/
theorem CacheBounded.clear (h : rt.CacheBounded) (w : World) (e : EntryRef) (handle : Handle) :
    (rt.moduleClearFnCacheForHandle w e handle).CacheBounded := by
  unfold moduleClearFnCacheForHandle
  split
  · exact h
  · next base hbase =>
    intro x me hme
    dsimp only at hme
    split at hme
    · obtain ⟨old, hold, rfl⟩ := Option.map_eq_some_iff.mp hme
      intro k hk
      have hlt := h x old hold k hk
      unfold ModEntry.clearFnCache
      rwa [List.length_map]
    · exact h x me hme

theorem cacheBounded_bootstrap (rt : Runtime) : rt.bootstrap.CacheBounded := by
  intro e me hme
  cases hme

end Runtime

/-! ## Each function keeps the bounds -/

namespace Alloc

variable {w : World} {rt : Runtime} {hookId : Nat} {name : CStr} {anc : List RegionRef}

theorem safe_prewarmEntry (h : rt.CacheBounded) (e : EntryRef) :
    Safe (prewarmEntry w rt e) Runtime.CacheBounded := by
  unfold prewarmEntry
  split
  · exact Safe.pure h
  · next me hme =>
    refine Safe.bind (safe_fnCachePrewarm (h e me hme) _ _) fun me' hme' => ?_
    exact Safe.pure (h.modifyMod fun _ _ => hme')

/-- A registration resolves its hook, and every hook before it, in every module
of the table. -/
theorem safe_registerHook (h : rt.CacheBounded) (name : CStr) (reg : AdapterRef) :
    Safe (registerHook w rt name reg) fun r => r.2.CacheBounded := by
  have hroom : Safe (if rt.hookIdCounter < rt.adapterById.length
        then pure (true, rt.adapterById)
        else grow none rt.adapterById (rt.hookIdCounter + 16)) fun r =>
      r.1 = true → rt.hookIdCounter < r.2.length := by
    split
    · next hlt => exact Safe.pure fun _ => hlt
    · refine (Safe.grow none _ _).mono fun r hr hok => ?_
      have hlen := hr.2.1 hok
      omega
  unfold registerHook
  dsimp only
  refine Safe.bind hroom fun r hr => ?_
  split
  · next hok =>
    refine Safe.bind (Safe.store _ (hr hok)) fun byId _ => ?_
    refine Safe.bind (Safe.foldlM (fun rt e _ hrt => safe_prewarmEntry hrt e)
      (h.of_mods rfl)) fun rt' hrt' => Safe.pure hrt'
  · exact Safe.pure (h.of_mods rfl)

theorem mods_pushSlot (rt : Runtime) (v : HookDispatchCache) (slot : DispatchSlot) :
    (rt.pushSlot v slot).1.mods = rt.mods := by
  rcases Runtime.pushSlot_spec rt v slot with h | h <;> rw [h]

/-- The loop of the rebuild reads no cell outside a cache. -/
theorem safe_rebuildLoop (h : rt.CacheBounded) (es : List EntryRef) (v : HookDispatchCache) :
    Safe (rebuildLoop w anc hookId name es rt v) fun r => r.2.1.CacheBounded := by
  induction es generalizing rt v with
  | nil => exact Safe.pure h
  | cons e es ih =>
    unfold rebuildLoop
    split
    · exact ih h v
    · next me hme =>
      split
      · exact ih h v
      · split
        · exact ih h v
        · refine Safe.bind (safe_askListener (h e me hme) hookId name) fun r hr => ?_
          have hrt : (rt.modifyMod e fun _ => r.2).CacheBounded := h.modifyMod fun _ _ => hr.1
          generalize r.1 = ans at hr
          cases ans with
          | oom => exact Safe.pure hrt
          | no => exact ih hrt v
          | yes =>
            have hroom : Safe (if v.cap ≤ v.count then alloc else pure true) fun _ => True := by
              split
              · exact Safe.alloc
              · exact Safe.pure trivial
            refine Safe.bind hroom fun ok _ => ?_
            cases ok with
            | false => exact Safe.pure hrt
            | true =>
              refine Safe.bind (Safe.load (hr.2 rfl)) fun cb _ => ih (hrt.of_mods ?_) _
              exact mods_pushSlot _ _ _

theorem safe_collectMods (l : List EntryRef) : Safe (collectMods l) fun _ => True := by
  induction l with
  | nil => exact Safe.pure trivial
  | cons e l ih =>
    refine Safe.bind Safe.alloc fun ok _ => ?_
    cases ok with
    | false => exact Safe.pure trivial
    | true => exact Safe.bind ih fun _ _ => Safe.pure trivial

theorem safe_regionRebuildSubtreeMods (h : rt.CacheBounded) (r : RegionRef) :
    Safe (regionRebuildSubtreeMods rt r) fun out => out.2.CacheBounded :=
  Safe.bind (safe_collectMods _) fun _ _ => Safe.pure (h.of_mods rfl)

theorem safe_regionEnsureHookDispatchCap (h : rt.CacheBounded) (r : RegionRef) (hookId : Nat) :
    Safe (regionEnsureHookDispatchCap rt r hookId) fun out => out.2.CacheBounded := by
  unfold regionEnsureHookDispatchCap
  split
  · exact Safe.pure h
  · exact Safe.bind (Safe.grow _ _ _) fun _ _ => Safe.pure (h.of_mods rfl)

theorem safe_rebuildVector (h : rt.CacheBounded) (r : RegionRef) :
    Safe (rebuildVector w rt r hookId name anc) fun out => out.2.CacheBounded := by
  refine Safe.bind (safe_regionEnsureHookDispatchCap h r hookId) fun cap hcap => ?_
  split
  · dsimp only
    split
    · exact Safe.pure hcap
    · exact Safe.bind (safe_rebuildLoop hcap _ _) fun l hl => Safe.pure (hl.of_mods rfl)
  · exact Safe.pure hcap

theorem safe_regionRebuildHookDispatch (h : rt.CacheBounded) (r : RegionRef) :
    Safe (regionRebuildHookDispatch w rt r hookId name anc) fun out => out.2.CacheBounded := by
  have hmods : Safe (if (rt.regions r).subtreeModsDirty then regionRebuildSubtreeMods rt r
      else pure (true, rt)) fun out => out.2.CacheBounded := by
    split
    · exact safe_regionRebuildSubtreeMods h r
    · exact Safe.pure h
  refine Safe.bind hmods fun mods hmods => ?_
  split
  · exact safe_rebuildVector hmods r
  · exact Safe.pure hmods

/-- A round of the exact-region loop reads no cell outside a cache. -/
theorem safe_selfRound (h : rt.CacheBounded) (e : EntryRef) :
    Safe (selfRound w rt e anc hookId name) fun r => r.2.CacheBounded := by
  unfold selfRound
  split
  · exact Safe.pure h
  · next me hme =>
    split
    · exact Safe.pure h
    · split
      · exact Safe.pure h
      · refine Safe.bind (safe_askListener (h e me hme) hookId name) fun r hr => ?_
        have hrt : (rt.modifyMod e fun _ => r.2).CacheBounded := h.modifyMod fun _ _ => hr.1
        generalize r.1 = ans at hr
        cases ans with
        | oom => exact Safe.pure hrt
        | no => exact Safe.pure hrt
        | yes => exact Safe.bind (Safe.load (hr.2 rfl)) fun _ _ => Safe.pure hrt

end Alloc

/-! ## When no allocation fails -/

namespace Alloc

variable {w : World} {me : ModEntry} {hookId : Nat}

theorem returns_moduleEnsureHookImplWords (me : ModEntry) (hookId : Nat) :
    Returns (moduleEnsureHookImplWords me hookId) (true, me.ensureHookImplWords hookId) :=
  Returns.bind (Returns.grow _ _ _) (Returns.pure _)

theorem returns_moduleEnsureFnCacheCap (me : ModEntry) (needed : Nat) :
    Returns (moduleEnsureFnCacheCap me needed) (true, me.ensureFnCacheCap needed) :=
  Returns.bind (Returns.grow _ _ _) (Returns.pure _)

theorem returns_moduleMarkHookImplemented (me : ModEntry) (hookId : Nat) :
    Returns (moduleMarkHookImplemented me hookId) (me.markHookImplemented hookId) := by
  have hlt : hookId / 64 < (me.ensureHookImplWords hookId).hookImplBits.length := by
    simp only [ModEntry.ensureHookImplWords, List.length_append, List.length_replicate]
    omega
  have hword := List.getElem?_eq_getElem hlt
  have hmark : (me.ensureHookImplWords hookId).markHookImplemented hookId
      = me.markHookImplemented hookId := by
    unfold ModEntry.markHookImplemented
    rw [ensureHookImplWords_of_lt hlt]
  refine Returns.bind (returns_moduleEnsureHookImplWords me hookId) ?_
  refine Returns.bind (Returns.load hword) (Returns.bind (Returns.store hlt) ?_)
  rw [← hmark, ← markHookImplemented_of_word hword]
  exact Returns.pure _

theorem returns_storeFn (hlt : hookId < me.fnCache.length) (cb : Option Addr) :
    Returns (storeFn me hookId cb) (me.storeFn hookId cb) := by
  refine Returns.bind (Returns.store hlt) ?_
  cases cb with
  | none => exact Returns.pure _
  | some a => exact returns_moduleMarkHookImplemented _ hookId

/-- A cell that is there reads as the cell of the model. -/
theorem getElem?_fnCache (hlt : hookId < me.fnCache.length) :
    me.fnCache[hookId]? = some (me.fnCell hookId) := by
  unfold ModEntry.fnCell
  rw [List.getD_eq_getElem?_getD, List.getElem?_eq_getElem hlt]
  rfl

theorem ensureFnCacheCap_length (me : ModEntry) : me.ensureFnCacheCap me.fnCache.length = me := by
  unfold ModEntry.ensureFnCacheCap
  rw [Nat.sub_self, List.replicate_zero, List.append_nil]

theorem returns_fnCacheResolve (me : ModEntry) (hookId : Nat) (name : CStr) :
    Returns (fnCacheResolve w me hookId name)
      (.found (me.fnCacheResolve w hookId name).2, (me.fnCacheResolve w hookId name).1) := by
  unfold fnCacheResolve ModEntry.fnCacheResolve
  dsimp only
  by_cases hlt : hookId < me.fnCache.length
  · rw [if_pos hlt]
    refine Returns.bind (Returns.load (getElem?_fnCache hlt)) ?_
    cases me.fnCell hookId with
    | fn a => exact Returns.pure _
    | notFound => exact Returns.pure _
    | null =>
      rw [if_pos hlt, ensureFnCacheCap_length]
      exact Returns.bind (returns_storeFn hlt _) (Returns.pure _)
  · have hnull : me.fnCell hookId = .null := by
      unfold ModEntry.fnCell
      rw [List.getD_eq_getElem?_getD, List.getElem?_eq_none (Nat.not_lt.mp hlt)]
      rfl
    have hroom : hookId < (me.ensureFnCacheCap (hookId + 16)).fnCache.length := by
      simp only [ModEntry.ensureFnCacheCap, List.length_append, List.length_replicate]
      omega
    rw [if_neg hlt, hnull]
    dsimp only
    rw [if_neg hlt]
    refine Returns.bind (returns_moduleEnsureFnCacheCap me _) ?_
    exact Returns.bind (returns_storeFn hroom _) (Returns.pure _)

theorem returns_prewarmOne (me : ModEntry) (hook : Sigma fun _ : CStr => Nat) :
    Returns (prewarmOne w me hook) (me.prewarmOne w hook.1 hook.2) := by
  unfold prewarmOne ModEntry.prewarmOne
  split
  · next hlt =>
    refine Returns.bind (Returns.load (getElem?_fnCache hlt)) ?_
    cases me.fnCell hook.2 with
    | fn a => exact Returns.pure _
    | notFound => exact Returns.pure _
    | null => exact returns_storeFn hlt _
  · exact Returns.pure _

theorem returns_fnCachePrewarm (me : ModEntry) (hooks : List (Sigma fun _ : CStr => Nat))
    (needed : Nat) :
    Returns (fnCachePrewarm w me hooks needed) (me.fnCachePrewarm w hooks needed) := by
  unfold fnCachePrewarm ModEntry.fnCachePrewarm
  split
  · exact Returns.pure _
  · refine Returns.bind (returns_moduleEnsureFnCacheCap me _) ?_
    exact Returns.foldlM fun me hook _ => returns_prewarmOne me hook

theorem returns_askListener (me : ModEntry) (hookId : Nat) (name : CStr) :
    Returns (askListener w me hookId name)
      (if (me.resolved w hookId name).hasHookImplemented hookId then .yes else .no,
        me.resolved w hookId name) := by
  unfold askListener ModEntry.resolved
  by_cases hbit : me.hasHookImplemented hookId = true
  · simp only [hbit, if_true]
    exact Returns.pure _
  · have hspec := me.fnCacheResolve_spec (w := w) hookId name
    simp only [if_neg hbit]
    refine Returns.bind (returns_fnCacheResolve me hookId name) ?_
    cases hcb : (me.fnCacheResolve w hookId name).2 with
    | some a => exact Returns.pure _
    | none =>
      have hno : (me.fnCacheResolve w hookId name).1.hasHookImplemented hookId = false := by
        rw [hspec.2]
        unfold ModEntry.fnCacheResolve at hcb
        split at hcb
        · cases hcb
        · next hcell => simp [hcell, hbit]
        · next hcell =>
          have hnone : w.hookSymbol me.handle name = none := hcb
          simp [hcell, hbit, hnone]
      rw [hno]
      exact Returns.pure _

variable {rt rt' : Runtime} {anc : List RegionRef} {name : CStr} {r : RegionRef}

/-- The resolution of a dispatch keeps the bound. -/
theorem bounded_resolved (hb : me.Bounded) (hookId : Nat) (name : CStr) :
    (me.resolved w hookId name).Bounded :=
  ((returns_askListener me hookId name).of_safe (safe_askListener hb hookId name)).1

theorem returns_rebuildLoop {es : List EntryRef} {v v' : HookDispatchCache}
    (hb : rt.CacheBounded) (h : rt.rebuildLoop w anc hookId name es v = some (rt', v')) :
    Returns (rebuildLoop w anc hookId name es rt v) (true, rt', v') := by
  induction es generalizing rt v with
  | nil =>
    cases h
    exact Returns.pure _
  | cons e es ih =>
    unfold rebuildLoop
    simp only [Runtime.rebuildLoop] at h
    cases hme : rt.mods e with
    | none =>
      rw [hme] at h
      cases h
    | some me =>
      have hrt : (rt.modifyMod e fun _ => me.resolved w hookId name).CacheBounded :=
        hb.modifyMod fun _ _ => bounded_resolved (hb e me hme) hookId name
      rw [hme] at h
      dsimp only at h ⊢
      split at h
      · next hctx =>
        rw [if_pos hctx]
        exact ih hb h
      · next hctx =>
        rw [if_neg hctx]
        split at h
        · next hdenied =>
          rw [if_pos hdenied]
          exact ih hb h
        · next hdenied =>
          rw [if_neg hdenied]
          refine Returns.bind (returns_askListener me hookId name) ?_
          split at h
          · next hbit =>
            have hcell := getElem?_fnCache (bounded_resolved (hb e me hme) hookId name hookId hbit)
            simp only [hbit, if_true]
            have hroom : Returns (if v.cap ≤ v.count then alloc else pure true) true := by
              split
              · exact Returns.alloc
              · exact Returns.pure _
            refine Returns.bind hroom (Returns.bind (Returns.load hcell) ?_)
            refine ih (hrt.of_mods ?_) h
            exact mods_pushSlot _ _ _
          · next hbit =>
            simp only [hbit]
            exact ih hrt h

theorem returns_collectMods (l : List EntryRef) : Returns (collectMods l) (true, l) := by
  induction l with
  | nil => exact Returns.pure _
  | cons e l ih => exact Returns.bind Returns.alloc (Returns.bind ih (Returns.pure _))

theorem returns_regionEnsureHookDispatchCap (rt : Runtime) (r : RegionRef) (hookId : Nat) :
    Returns (regionEnsureHookDispatchCap rt r hookId)
      (true, rt.regionEnsureHookDispatchCap r hookId) := by
  unfold regionEnsureHookDispatchCap Runtime.regionEnsureHookDispatchCap
  split
  · exact Returns.pure _
  · exact Returns.bind (Returns.grow _ _ _) (Returns.pure _)

/-- The vector that a dispatch prepares is the one that these functions build. -/
theorem returns_regionRebuildHookDispatch (hb : rt.CacheBounded)
    (h : rt.prepareVec w r hookId name anc = some rt') :
    Returns (regionRebuildHookDispatch w rt r hookId name anc) (true, rt') := by
  have hmods : Returns (if (rt.regions r).subtreeModsDirty then regionRebuildSubtreeMods rt r
      else pure (true, rt)) (true, rt.refreshSubtreeMods r) := by
    unfold Runtime.refreshSubtreeMods
    split
    · refine Returns.bind (returns_collectMods _) ?_
      unfold Returns Runtime.regionRebuildSubtreeMods
      simp only [Bool.not_true, Bool.and_false]
      rfl
    · exact Returns.pure _
  refine Returns.bind hmods (Returns.bind (returns_regionEnsureHookDispatchCap _ r hookId) ?_)
  unfold Runtime.prepareVec at h
  have hb' : ((rt.refreshSubtreeMods r).regionEnsureHookDispatchCap r hookId).CacheBounded := by
    refine hb.of_mods ?_
    unfold Runtime.regionEnsureHookDispatchCap Runtime.refreshSubtreeMods
    split <;> split <;> rfl
  revert h hb'
  generalize (rt.refreshSubtreeMods r).regionEnsureHookDispatchCap r hookId = rt₁
  intro h hb'
  unfold Runtime.regionRebuildHookDispatch at h
  dsimp only
  split at h
  · next hgen =>
    cases h
    simp only [hgen, if_true]
    exact Returns.pure _
  · next hgen =>
    obtain ⟨⟨rt₂, v⟩, hloop, hrt⟩ := Option.map_eq_some_iff.mp h
    subst hrt
    simp only [if_neg hgen, if_true]
    exact Returns.bind (returns_rebuildLoop hb' hloop) (Returns.pure _)

theorem returns_prewarmEntry (rt : Runtime) (e : EntryRef) :
    Returns (prewarmEntry w rt e) (rt.modifyMod e fun me =>
      me.fnCachePrewarm w rt.hookIdHd.entries rt.hookIdCounter) := by
  unfold prewarmEntry
  split
  · next hme =>
    have hsame : (rt.modifyMod e fun me =>
        me.fnCachePrewarm w rt.hookIdHd.entries rt.hookIdCounter) = rt := by
      unfold Runtime.modifyMod
      rw [hme, Option.map_none, ← hme, Function.update_eq_self]
    rw [hsame]
    exact Returns.pure _
  · next me hme =>
    have hone : (rt.modifyMod e fun me =>
        me.fnCachePrewarm w rt.hookIdHd.entries rt.hookIdCounter)
          = rt.modifyMod e fun _ => me.fnCachePrewarm w rt.hookIdHd.entries rt.hookIdCounter := by
      unfold Runtime.modifyMod
      rw [hme]
      rfl
    rw [hone]
    exact Returns.bind (returns_fnCachePrewarm me _ _) (Returns.pure _)

/-- The rounds of the loop of `xy_areg` meet each entry once. -/
theorem foldl_prewarm {l : List EntryRef} (hl : l.Nodup) (rt : Runtime) :
    l.foldl (fun rt e => rt.modifyMod e fun me =>
        me.fnCachePrewarm w rt.hookIdHd.entries rt.hookIdCounter) rt
      = { rt with mods := fun m =>
          if m ∈ l then
            (rt.mods m).map fun me => me.fnCachePrewarm w rt.hookIdHd.entries rt.hookIdCounter
          else rt.mods m } := by
  induction l generalizing rt with
  | nil => simp
  | cons e l ih =>
    obtain ⟨he, hl⟩ := List.nodup_cons.mp hl
    rw [List.foldl_cons, ih hl]
    unfold Runtime.modifyMod
    dsimp only
    congr 1
    funext m
    by_cases hm : m = e
    · subst hm
      rw [if_neg he, if_pos List.mem_cons_self, Function.update_self]
    · rw [Function.update_of_ne hm]
      simp only [List.mem_cons, hm, false_or]

/-- The registration of the model is this one, when no entry is in the table
twice. -/
theorem returns_registerHook (hnodup : (rt.modHdValues w).Nodup) (name : CStr)
    (reg : AdapterRef) :
    Returns (registerHook w rt name reg) (true, rt.registerHook w name reg) := by
  have hroom : Returns (if rt.hookIdCounter < rt.adapterById.length
        then pure (true, rt.adapterById)
        else grow none rt.adapterById (rt.hookIdCounter + 16))
      (true, rt.adapterById ++ List.replicate (if rt.hookIdCounter < rt.adapterById.length then 0
        else rt.hookIdCounter + 16 - rt.adapterById.length) none) := by
    split
    · rw [List.replicate_zero, List.append_nil]
      exact Returns.pure _
    · exact Returns.grow _ _ _
  have hlt : rt.hookIdCounter < (rt.adapterById ++ List.replicate
      (if rt.hookIdCounter < rt.adapterById.length then 0
        else rt.hookIdCounter + 16 - rt.adapterById.length) none).length := by
    rw [List.length_append, List.length_replicate]
    split <;> omega
  unfold registerHook
  dsimp only
  refine Returns.bind hroom ?_
  rw [if_pos rfl]
  refine Returns.bind (Returns.store hlt) ?_
  refine Returns.bind (Returns.foldlM fun rt e _ => returns_prewarmEntry rt e) ?_
  rw [foldl_prewarm (by exact hnodup)]
  exact Returns.pure _

end Alloc

/-! ## The runtime -/

section

variable {w : World} {c : Config} {a : Action} {rt' : Runtime}

theorem ModEntry.Bounded.congr {me me' : ModEntry} (h : me.Bounded) (hf : me'.fns = me.fns) :
    me'.Bounded := by
  have hcells : me'.fnCache = me.fnCache := congrArg Prod.fst hf
  have hbits : me'.hookImplBits = me.hookImplBits := congrArg Prod.snd hf
  intro k hk
  rw [hcells]
  exact h k (by simpa only [ModEntry.hasHookImplemented, hbits] using hk)

/-- A prewarm keeps the bound. -/
theorem ModEntry.Bounded.prewarm {me : ModEntry} (h : me.Bounded)
    (hooks : List (Sigma fun _ : CStr => Nat)) (n : Nat) :
    (me.fnCachePrewarm w hooks n).Bounded :=
  (Alloc.returns_fnCachePrewarm me hooks n).of_safe (Alloc.safe_fnCachePrewarm h hooks n)

/-- A step of the runtime keeps the bounds. -/
theorem Effect.cacheBounded (hb : c.st.rt.CacheBounded) (h : Effect w c a rt') :
    rt'.CacheBounded := by
  intro x me' hx
  rcases h.fnsBy hx with ⟨-, hnew⟩ | ⟨me, hme, -, hfns⟩
  · intro k hk
    have hbits : me'.hookImplBits = [] := congrArg Prod.snd hnew
    simp [ModEntry.hasHookImplemented, hbits] at hk
  · have hold := hb x me hme
    generalize hf : me'.fns = f at hfns
    cases hfns with
    | same => exact hold.congr hf
    | resolved _ => exact (Alloc.bounded_resolved hold _ _).congr hf
    | prewarm _ => exact (hold.prewarm _ _).congr hf
    | clear _ _ _ _ _ =>
      refine ModEntry.Bounded.congr (fun k hk => ?_) hf
      have hlt := hold k hk
      unfold ModEntry.clearFnCache
      rwa [List.length_map]

/-- In every state that the runtime comes to, a hook with a bit has a cell. -/
theorem cacheBounded_of_reachable {ok : Config → Action → Prop} (h : ReachableBy w ok c) :
    c.st.rt.CacheBounded := by
  refine ReachableBy.invariant_wf (fun c => c.st.rt.CacheBounded) (fun c hc => ?_)
    (fun c a c' ev hwf hb _ hstep => (hstep.effect hwf).cacheBounded hb) h
  obtain ⟨ctxs, adapters, mem, rfl⟩ := hc
  exact Runtime.cacheBounded_bootstrap _

end

/-! ## Runs -/

/-- The operations on the caches, in the order in which a run makes them. -/
inductive CacheCall where
  /-- `xy_areg`. -/
  | areg (name : CStr) (reg : AdapterRef)
  /-- `mod_load_alloc_entry` and `mod_load_publish_entry`. -/
  | publish (tx : LoadTxn) (loading : Option EntryRef)
  /-- `fn_cache_prewarm`. -/
  | prewarm (e : EntryRef)
  /-- `fn_cache_resolve`. -/
  | resolve (e : EntryRef) (hookId : Nat) (name : CStr)
  /-- `module_ensure_hook_impl_words`. -/
  | growBits (e : EntryRef) (hookId : Nat)
  /-- `module_ensure_fn_cache_cap`. -/
  | growCache (e : EntryRef) (needed : Nat)
  /-- `region_rebuild_hook_dispatch`. -/
  | rebuild (r : RegionRef) (hookId : Nat) (name : CStr) (anc : List RegionRef)
  /-- One round of the exact-region loop. -/
  | selfRound (e : EntryRef) (anc : List RegionRef) (hookId : Nat) (name : CStr)
  /-- `module_clear_fn_cache_for_handle`. -/
  | clear (e : EntryRef) (handle : Handle)
  /-- The end of `_mod_unload`, with the clear that belongs to it. -/
  | unload (e : EntryRef)
  /-- The end of `mod_load_abort`. -/
  | abort (e : EntryRef)
  /-- `xy_shutdown`, and the bootstrap after it. -/
  | shutdown
  /-- Any write to the other fields of an entry. -/
  | entry (e : EntryRef) (f : ModEntry → ModEntry)
  /-- Any write to the other tables. -/
  | tables (f : Runtime → Runtime)

namespace Alloc

/-- An operation on one entry of the table, if it is there. -/
def onEntry (rt : Runtime) (e : EntryRef) (f : ModEntry → Prog ModEntry) : Prog Runtime :=
  match rt.mods e with
  | none => return rt
  | some me => do
    let me ← f me
    return rt.modifyMod e fun _ => me

/-- One operation.  What it returns is of no concern here. -/
def runCall (w : World) (rt : Runtime) : CacheCall → Prog Runtime
  | .areg name reg =>
    match rt.sicaHd.lookup name with
    | some _ => return rt
    | none => (·.2) <$> registerHook w rt name reg
  | .publish tx loading => do
    if ← alloc then return rt.publishEntry (tx.freshEntry loading) else return rt
  | .prewarm e => prewarmEntry w rt e
  | .resolve e hookId name => onEntry rt e fun me => (·.2) <$> fnCacheResolve w me hookId name
  | .growBits e hookId => onEntry rt e fun me => (·.2) <$> moduleEnsureHookImplWords me hookId
  | .growCache e needed => onEntry rt e fun me => (·.2) <$> moduleEnsureFnCacheCap me needed
  | .rebuild r hookId name anc => (·.2) <$> regionRebuildHookDispatch w rt r hookId name anc
  | .selfRound e anc hookId name => (·.2) <$> selfRound w rt e anc hookId name
  | .clear e handle => return rt.moduleClearFnCacheForHandle w e handle
  | .unload e =>
    match rt.mods e with
    | none => return rt
    | some me => return rt.removeEntry w e me
  | .abort e =>
    match rt.mods e with
    | none => return rt
    | some me => return rt.discardEntry w e me
  | .shutdown => return rt.bootstrap
  | .entry e f => return rt.modifyMod e fun me =>
      { f me with fnCache := me.fnCache, hookImplBits := me.hookImplBits }
  | .tables f => return { f rt with mods := rt.mods }

/-- The operations of a run, one after the other. -/
def run (w : World) (calls : List CacheCall) (rt : Runtime) : Prog Runtime :=
  calls.foldlM (runCall w) rt

variable {w : World} {rt : Runtime}

theorem safe_onEntry (h : rt.CacheBounded) (e : EntryRef) {f : ModEntry → Prog ModEntry}
    (hf : ∀ me : ModEntry, me.Bounded → Safe (f me) ModEntry.Bounded) :
    Safe (onEntry rt e f) Runtime.CacheBounded := by
  unfold onEntry
  split
  · exact Safe.pure h
  · next me hme =>
    exact Safe.bind (hf me (h e me hme)) fun me' hme' => Safe.pure (h.modifyMod fun _ _ => hme')

/-- An operation of any kind keeps the bounds. -/
theorem safe_runCall (h : rt.CacheBounded) (call : CacheCall) :
    Safe (runCall w rt call) Runtime.CacheBounded := by
  cases call with
  | areg name reg =>
    simp only [runCall]
    split
    · exact Safe.pure h
    · exact Safe.map (safe_registerHook h name reg)
  | publish tx loading =>
    refine Safe.bind Safe.alloc fun ok _ => ?_
    cases ok with
    | false => exact Safe.pure h
    | true =>
      refine Safe.pure fun x me hme => ?_
      by_cases hx : x = rt.nmods
      · have hnew : some (tx.freshEntry loading) = some me := by
          simpa [Runtime.publishEntry, hx] using hme
        cases hnew
        intro k hk
        simp [ModEntry.hasHookImplemented, LoadTxn.freshEntry] at hk
      · exact h x me (by simpa [Runtime.publishEntry, hx] using hme)
  | prewarm e => exact safe_prewarmEntry h e
  | resolve e hookId name =>
    exact safe_onEntry h e fun me hme => Safe.map (safe_fnCacheResolve hme hookId name)
  | growBits e hookId =>
    refine safe_onEntry h e fun me hme => Safe.map ?_
    refine (safe_moduleEnsureHookImplWords me hookId).mono fun r hr k hk => ?_
    rw [hasHook_of_grown hr.1.1] at hk
    rw [hr.1.2]
    exact hme k hk
  | growCache e needed =>
    refine safe_onEntry h e fun me hme => Safe.map ?_
    exact (safe_moduleEnsureFnCacheCap me needed).mono fun r hr => bounded_of_grown hme hr.1
  | rebuild r hookId name anc => exact Safe.map (safe_regionRebuildHookDispatch h r)
  | selfRound e anc hookId name => exact Safe.map (safe_selfRound h e)
  | clear e handle => exact Safe.pure (h.clear w e handle)
  | unload e =>
    simp only [runCall]
    split
    · exact Safe.pure h
    · next me hme =>
      exact Safe.pure ((h.clear w e me.handle).free e (rt.removeEntry_cleared e me))
  | abort e =>
    simp only [runCall]
    split
    · exact Safe.pure h
    · next me hme => exact Safe.pure (h.free e (Runtime.discardEntry_mods rt e me))
  | shutdown => exact Safe.pure (Runtime.cacheBounded_bootstrap rt)
  | entry e f => exact Safe.pure (h.modifyMod fun me hme k hk => h e me hme k hk)
  | tables f => exact Safe.pure (h.of_mods rfl)

/-- In every run, whichever of its allocations fail, no read and no write leaves
its array, and a hook with a bit has a cell.  An array that grows keeps its
cells, and the new ones are empty. -/
theorem safe_run (w : World) (calls : List CacheCall) (rt : Runtime) :
    Safe (run w calls rt.bootstrap) Runtime.CacheBounded
      ∧ (∀ me needed, Safe (moduleEnsureFnCacheCap me needed) fun r =>
          Grown .null me.fnCache r.2.fnCache ∧ r.2.hookImplBits = me.hookImplBits)
      ∧ ∀ me hookId, Safe (moduleEnsureHookImplWords me hookId) fun r =>
          Grown 0 me.hookImplBits r.2.hookImplBits ∧ r.2.fnCache = me.fnCache := by
  refine ⟨?_, fun me needed => ?_, fun me hookId => ?_⟩
  · exact Safe.foldlM (fun rt call _ h => safe_runCall h call) (Runtime.cacheBounded_bootstrap rt)
  · exact (safe_moduleEnsureFnCacheCap me needed).mono fun _ hr => hr.1
  · exact (safe_moduleEnsureHookImplWords me hookId).mono fun _ hr => hr.1

end Alloc

end Xylem
