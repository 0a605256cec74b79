import Mathlib.Algebra.Group.Nat.Defs
import Mathlib.Data.List.AList
import Mathlib.Data.List.Nodup
import Mathlib.Logic.Function.Basic

/-!
# The data of the runtime

The types of `papi.h` and `libxylem-internal.h`, as the runtime keeps them.

* Pointers are numbers.  A region entry is never freed while the runtime is up,
  so `regions` is a total function and `nregions` counts the entries made so
  far.  A module entry is freed by an unload or by an aborted load, so `mods`
  is partial: `none` is freed memory, and a step that reads it is undefined
  behaviour.  An address is not used twice.
* The intrusive lists are lists.  `mods` of a region is the list from
  `mods_head` along `region_next`, `children` the list from `children_head`
  along `sibling_next`.
* A corm table with one value a key is an `AList`.  The interned module paths
  are compared by content, which is what comparing the interned pointers comes
  to, and a deny list stands for the hash set that mirrors it as well.
* What no function of the model reads is left out: `xy_reloading` and the
  temporary copy that `xy_reload` opens, `owner_path`, and the function table
  that `_xy_init` writes into every context.
-/

namespace Xylem

/-- A C string: the bytes before its terminating NUL. -/
structure CStr where
  bytes : List UInt8
  nulFree : 0 ∉ bytes
deriving DecidableEq

abbrev RegionId := BitVec 64
abbrev RegionRef := Nat
abbrev EntryRef := Nat
abbrev CtxRef := Nat
abbrev AdapterRef := Nat
/-- A claim handler together with its user data. -/
abbrev HandlerRef := Nat
abbrev StrRef := Nat
/-- The identity of one heap allocation: a region state or a slots array. -/
abbrev BlockRef := Nat
/-- A return buffer of a caller. -/
abbrev BufRef := Nat
/-- What `dlopen` returns. -/
abbrev Handle := Nat
/-- The address of a symbol. -/
abbrev Addr := Nat

/-! ## Return codes -/

def xyOk : Int := 0
def xyErrNotfound : Int := -1
def xyErrInvalid : Int := -2
def xyErrToobig : Int := -3
def xyErrEperm : Int := -5
def xyErrAbi : Int := -6

/-- `XY_REGION_INVALID`, the all-ones id. -/
def xyRegionInvalid : RegionId := BitVec.allOnes 64

/-- `XY_MAX_RET_SIZE`. -/
def xyMaxRetSize : Nat := 4096

/-- `XY_CTX_ABI_DESC`: the generation above the context size. -/
def xyCtxAbiDesc : BitVec 64 := (3#64 <<< 32) ||| 184#64

/-! ## Regions -/

/-- The identity of a region, which is the key of the region table. -/
structure RegionKey where
  id : RegionId
  plen : Nat
deriving DecidableEq, Repr

/-- The part of a region entry that only its creation and the creation of its
children write: the identity and the tree links. -/
structure RegionNode where
  id : RegionId
  depth : Nat
  plen : Nat
  childBits : Nat
  parent : Option RegionRef
  children : List RegionRef

/-- The identity of the region as a table key. -/
def RegionNode.key (n : RegionNode) : RegionKey := ⟨n.id, n.plen⟩

/-- The content of a cell of `fn_cache`: `NULL`, `XY_FN_NOT_FOUND` or the
address of a callback. -/
inductive FnSlot where
  | null
  | notFound
  | fn (a : Addr)
deriving DecidableEq, Repr

/-- A listener of a hook vector: the module entry and its callback. -/
structure DispatchSlot where
  me : EntryRef
  cb : FnSlot
deriving DecidableEq, Repr

/-- `xy_hook_dispatch_cache_t`.  `cells` is what has been written to the slots
array so far, `count` how many of these a dispatch may use, and `slots` the
identity of the array, which a growing `realloc` replaces. -/
structure HookDispatchCache where
  slots : BlockRef
  cells : List DispatchSlot
  count : Nat
  cap : Nat
  regionGen : Nat
deriving DecidableEq, Repr

/-- What `region_ensure_hook_dispatch_cap` fills new vectors with. -/
def HookDispatchCache.empty : HookDispatchCache :=
  { slots := 0, cells := [], count := 0, cap := 0, regionGen := 0 }

/-- `xy_region_entry_t`. -/
structure RegionEntry extends RegionNode where
  deniedHooks : List CStr
  deniedModules : List CStr
  /-- `XY_SUBTREE_HAS_DENY`, the one flag of `subtree_flags`. -/
  subtreeFlags : Bool
  dispatchGen : Nat
  claimHandler : Option HandlerRef
  requireClaim : Bool
  mods : List EntryRef
  subtreeMods : List EntryRef
  subtreeModsDirty : Bool
  hookDispatch : List HookDispatchCache

/-- A fresh entry, as `calloc` and the assignments after it leave it. -/
def RegionEntry.fresh (node : RegionNode) (fn : Option HandlerRef) : RegionEntry :=
  { toRegionNode := node
    deniedHooks := []
    deniedModules := []
    subtreeFlags := false
    dispatchGen := 1
    claimHandler := fn
    requireClaim := false
    mods := []
    subtreeMods := []
    subtreeModsDirty := false
    hookDispatch := [] }

/-- The root region `(0, 0)`, which `region_ensure_root` makes. -/
def RegionEntry.root : RegionEntry :=
  .fresh { id := 0, depth := 0, plen := 0, childBits := 0, parent := none, children := [] } none

/-! ## Modules -/

/-- `xy_mod_entry_t`.  `fnCache` has `fn_cache_cap` cells and `hookImplBits`
has `hook_impl_words` words. -/
structure ModEntry where
  ctx : Option CtxRef
  fnCache : List FnSlot
  regionState : Option BlockRef
  loadPath : CStr
  handle : Handle
  regionEntry : Option RegionRef
  regionId : RegionId
  regionPlen : Nat
  refcount : Int
  parentEntry : Option EntryRef
  hookImplBits : List (BitVec 64)
  modKey : List UInt8

/-- The fields of a module's `xy_ctx` that the host writes and reads back. -/
structure Ctx where
  adapter : Option AdapterRef
  modulePath : Option StrRef
  regionId : RegionId
  regionState : Option BlockRef

/-- `xy_adapter_t`. -/
structure Adapter where
  name : CStr
  argSize : Nat
  retSize : Nat
  call : Option Addr
  hookId : Int

/-! ## The whole state -/

/-- The tables of `xy_rt` and the heap they point into. -/
structure Runtime where
  regions : RegionRef → RegionEntry
  nregions : Nat
  regionHd : AList (fun _ : RegionKey => RegionRef)
  mods : EntryRef → Option ModEntry
  nmods : Nat
  modHd : AList (fun _ : List UInt8 => EntryRef)
  modByRegionHd : RegionKey → List EntryRef
  sicaHd : AList (fun _ : CStr => AdapterRef)
  hookIdHd : AList (fun _ : CStr => Nat)
  hookIdCounter : Nat
  adapterById : List (Option AdapterRef)
  modCount : Int
  /-- How many blocks have been allocated so far. -/
  nblocks : Nat
  /-- Not in the source: how often `region_dispatch_gen_bump` has run. -/
  genBumps : Nat

/-- The current region of a thread: its id and its entry, two variables. -/
structure CurrentRegion where
  id : RegionId
  entry : Option RegionRef
deriving DecidableEq, Repr

/-- What `xy_last_retp` points to. -/
inductive RetPtr where
  | null
  | lastRetbuf
  | buf (b : BufRef)
deriving DecidableEq, Repr

/-- The thread-local variables. -/
structure Tls where
  current : CurrentRegion
  loadingMod : Option EntryRef
  pendingCtx : Option CtxRef
  lastRan : Nat
  lastRetbuf : List UInt8
  lastRetp : RetPtr

/-- The runtime, one thread's variables, the process-wide variables beside
`xy_rt`, and the memory of modules and callers that the host writes to. -/
structure State where
  rt : Runtime
  tls : Tls
  /-- `xy_err_val`. -/
  err : Int
  /-- `xy.adapter`. -/
  adapter : Option AdapterRef
  ctxs : CtxRef → Ctx
  adapters : AdapterRef → Adapter
  strs : StrRef → Option CStr
  nstrs : Nat
  mem : BufRef → List UInt8
  /-- The calls made to `xy_region_cleanup` so far: the function and the block
  it was given. -/
  cleanups : List (Addr × BlockRef)

/-- `XY_SET_ERR`. -/
def State.setErr (s : State) (e : Int) : State := { s with err := e }

/-- `set_current_region`. -/
def State.setCurrentRegion (s : State) (c : CurrentRegion) : State :=
  { s with tls := { s.tls with current := c } }

@[simp] theorem State.setErr_rt (s : State) (e : Int) : (s.setErr e).rt = s.rt := rfl
@[simp] theorem State.setErr_tls (s : State) (e : Int) : (s.setErr e).tls = s.tls := rfl
@[simp] theorem State.setErr_ctxs (s : State) (e : Int) : (s.setErr e).ctxs = s.ctxs := rfl

@[simp] theorem State.setCurrentRegion_rt (s : State) (c : CurrentRegion) :
    (s.setCurrentRegion c).rt = s.rt := rfl
@[simp] theorem State.setCurrentRegion_current (s : State) (c : CurrentRegion) :
    (s.setCurrentRegion c).tls.current = c := rfl
@[simp] theorem State.setCurrentRegion_ctxs (s : State) (c : CurrentRegion) :
    (s.setCurrentRegion c).ctxs = s.ctxs := rfl

/-! ## Code outside the repository -/

/-- The names that the host looks up in a module. -/
inductive Symbol where
  | getXyPtr
  | xyCtxAbi
  | xyClaim
  | xyRegionStateSize
  | xyRegionCleanup
  | xyInstall
  | hook (name : CStr)
deriving DecidableEq

/-- The file system, the dynamic loader and the corm library, as far as the
host depends on them.

* `loadPath` is the resolution of `module_load_path`: one path for a name in all of a run.  The
  source asks `getenv` and `realpath` at each lookup, so that this holds as long as the variables,
  the working directory and the files that are looked for stay as they are.
* `dlsym` and `fbase` are `dlsym` and the `dli_fbase` of `dladdr`; `linkBase`
  is the load base that `dlinfo` reports for a handle.
* `getXy`, `ctxAbi` and `regionStateSize` are the results of calling the
  exported function at an address, `claimBits` the byte stored there.  What is called so
  makes no call of the API itself.
* `iterOrder` is the order in which `corm_iter` yields the values of a table,
  and `delMulti` what is left of a key's values after `corm_del`.
* `adapterAddr` is the address of an adapter object. -/
structure World where
  loadPath : CStr → CStr
  dlsym : Handle → Symbol → Option Addr
  fbase : Addr → Option Addr
  linkBase : Handle → Option Addr
  getXy : Addr → Option CtxRef
  ctxAbi : Addr → BitVec 64
  claimBits : Addr → Nat
  regionStateSize : Addr → Nat
  iterOrder : List EntryRef → List EntryRef
  iterOrder_perm : ∀ l, (iterOrder l).Perm l
  delMulti : List EntryRef → List EntryRef
  adapterAddr : AdapterRef → BitVec 64

end Xylem
