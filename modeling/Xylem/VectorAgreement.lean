import Xylem.ModuleDeny
import Xylem.Callbacks

/-!
# Vectors that agree with the entries

A hook vector that is up to date keeps the callbacks that a rebuild found.  What a
rebuild would find now may be something else: a deny of a module does not reach
the vectors below, nor does the end of a deny, and
`module_clear_fn_cache_for_handle` makes an entry forget callbacks that the vectors
still have.

* `VectorsKept` is what the steps of a run have to heed for this not to happen:
  denies come and go only where no vector is the worse for it, and the removal of
  an entry makes no other forget a callback.
* `Agreed`: a vector that is up to date is what a rebuild would make of it, and a
  hook has its bit in an entry if and only if its callback is cached.
  `agreed_of_vectorsKept` says that this holds in the runs that heed it.
-/

namespace Xylem

open Xylem.Runtime

/-! ## What the steps heed -/

/-- A callback in the mapping of the object. -/
def FnSlot.mapped (w : World) (handle : Handle) : FnSlot → Bool
  | .fn a => (w.moduleHandleBase handle).isSome && decide (w.fbase a = w.moduleHandleBase handle)
  | _ => false

/-- No other entry of the table has a callback in the mapping of `gone`. -/
def Runtime.ClearsNothing (w : World) (rt : Runtime) (e : EntryRef) (gone : ModEntry) : Prop :=
  ∀ m ∈ rt.modHdValues w, m ≠ e → ∀ me ∈ rt.mods m, ∀ cell ∈ me.fnCache,
    cell.mapped w gone.handle = false

/-- No module with this path is in the subtree of a region with a vector that is up
to date. -/
def Runtime.PathUnheard (rt : Runtime) (r : RegionRef) (path : CStr) : Prop :=
  ∀ h < (rt.regions r).hookDispatch.length, rt.Warm r h →
    ∀ m ∈ rt.walked r, ∀ me ∈ rt.mods m, me.loadPath ≠ path

/-- A deny that goes with `gone` does not keep a module out of a vector that stays. -/
def Runtime.LiftsNothing (rt : Runtime) (gone : ModEntry) : Prop :=
  ∀ x ∈ gone.regionEntry, gone.loadPath ∈ (rt.regions x).deniedModules →
    ∀ r < rt.nregions, x ∈ rt.parentChain r → x ≠ r → rt.PathUnheard r gone.loadPath

/-- No vector of a region below the denier that is up to date has a slot of the
module. -/
def Runtime.DeniesNothing (rt : Runtime) (denier : RegionRef) (path : CStr) : Prop :=
  ∀ r < rt.nregions, denier ∈ rt.parentChain r → denier ≠ r →
    ∀ h < (rt.regions r).hookDispatch.length, rt.Warm r h →
      rt.VecSpares r h 0 (rt.hookVec r h).count path

/-- What the steps heed.

* A module is denied only when no vector below that is up to date has a slot of it.
* The removal of an entry clears no cell of another, and lifts no deny of a module
  below with a vector that is up to date.
* The counters have not come back to old values. -/
def VectorsKept (w : World) (c : Config) (a : Action) : Prop :=
  c.st.rt.BumpsLeft ∧
    match a, c.stack with
    | .call (.deny what .module), _ =>
      ∀ denier ∈ c.st.tls.current.entry, c.st.rt.DeniesNothing denier (w.loadPath what)
    | .tau, .unload e [] :: _ =>
      ∀ gone ∈ c.st.rt.mods e, c.st.rt.ClearsNothing w e gone ∧ c.st.rt.LiftsNothing gone
    | _, _ => True

instance (w : World) (rt : Runtime) (e : EntryRef) (gone : ModEntry) :
    Decidable (rt.ClearsNothing w e gone) := by
  unfold Runtime.ClearsNothing; infer_instance

instance (rt : Runtime) (r : RegionRef) (path : CStr) : Decidable (rt.PathUnheard r path) := by
  unfold Runtime.PathUnheard; infer_instance

instance (rt : Runtime) (gone : ModEntry) : Decidable (rt.LiftsNothing gone) := by
  unfold Runtime.LiftsNothing; infer_instance

instance (rt : Runtime) (denier : RegionRef) (path : CStr) :
    Decidable (rt.DeniesNothing denier path) := by
  unfold Runtime.DeniesNothing; infer_instance

instance (w : World) (c : Config) (a : Action) : Decidable (VectorsKept w c a) := by
  unfold VectorsKept Runtime.BumpsLeft
  refine @instDecidableAnd _ _ inferInstance ?_
  generalize c.stack = k
  induction a using Action.casesOn with
  | call q =>
    induction q using Call.casesOn with
    | deny what type => induction type using DenyType.casesOn <;> infer_instance
    | _ => infer_instance
  | ret v => infer_instance
  | tau =>
    induction k using List.casesOn with
    | nil => infer_instance
    | cons f k =>
      induction f using Frame.casesOn with
      | unload e children => induction children using List.casesOn <;> infer_instance
      | _ => infer_instance

/-! ## The callback cache of an entry -/

namespace ModEntry

variable {w : World} {me me' me'' : ModEntry} {h hookId : Nat} {name : CStr}

/-- A hook has its bit if and only if its callback is cached. -/
def Bitted (me : ModEntry) : Prop :=
  ∀ h, me.hasHookImplemented h = true ↔ ∃ a, me.fnCell h = .fn a

/-- Cells that were `NULL` have been filled, at most. -/
structure Fills (me me' : ModEntry) : Prop where
  bitted : me.Bitted → me'.Bitted
  bit : ∀ h, me.hasHookImplemented h = true → me'.hasHookImplemented h = true
  cell : ∀ h, me.fnCell h ≠ .null → me'.fnCell h = me.fnCell h

theorem Fills.refl (me : ModEntry) : me.Fills me := ⟨fun h => h, fun _ h => h, fun _ _ => rfl⟩

theorem Fills.trans (h : me.Fills me') (h' : me'.Fills me'') : me.Fills me'' where
  bitted hb := h'.bitted (h.bitted hb)
  bit k hk := h'.bit k (h.bit k hk)
  cell k hk := by
    have hcell := h.cell k hk
    rw [h'.cell k (by rw [hcell]; exact hk), hcell]

/-- What a dispatch sees of an entry, besides its context and its path. -/
theorem Fills.of_fns (h : me'.fns = me.fns) : me.Fills me' := by
  have hcache : me'.fnCache = me.fnCache := congrArg Prod.fst h
  have hbits : me'.hookImplBits = me.hookImplBits := congrArg Prod.snd h
  refine ⟨fun hb k => ?_, fun k hk => ?_, fun k _ => ?_⟩
  · unfold hasHookImplemented fnCell
    rw [hcache, hbits]
    exact hb k
  · unfold hasHookImplemented at hk ⊢
    rw [hbits]
    exact hk
  · unfold fnCell
    rw [hcache]

theorem fills_resolved (me : ModEntry) (hookId : Nat) (name : CStr) :
    me.Fills (me.resolved w hookId name) := by
  obtain ⟨hcell, hbit⟩ := me.resolved_spec (w := w) hookId name
  refine ⟨fun hb k => ?_, fun k hk => ?_, fun k hk => ?_⟩
  · rw [hcell, hbit]
    by_cases hun : k = hookId ∧ me.Unresolved hookId
    · have hno : me.hasHookImplemented k = false := by
        rw [hun.1]
        exact hun.2.1
      unfold World.symbolSlot
      cases w.hookSymbol me.handle name <;> simp [hun, hun.1 ▸ hno]
    · rw [if_neg hun]
      simp only [hun, decide_false, Bool.false_and, Bool.false_or]
      exact hb k
  · rw [hbit, hk, Bool.or_true]
  · rw [hcell]
    refine if_neg fun hun => hk ?_
    rw [hun.1]
    exact hun.2.2

theorem fills_prewarmOne (me : ModEntry) (name : CStr) (hookId : Nat) :
    me.Fills (me.prewarmOne w name hookId) := by
  unfold prewarmOne
  split
  · next hlt =>
    split
    · next hnull =>
      refine ⟨fun hb k => ?_, fun k hk => ?_, fun k hk => ?_⟩
      · rw [fnCell_storeFn _ _ hlt, hasHook_storeFn]
        by_cases hk : k = hookId
        · have hno : me.hasHookImplemented k = false := by
            rw [Bool.eq_false_iff, Ne, hb k, hk, hnull]
            simp
          cases w.hookSymbol me.handle name <;> simp [hk, hk ▸ hno]
        · simp only [hk, decide_false, Bool.false_and, Bool.false_or, if_false]
          exact hb k
      · rw [hasHook_storeFn, hk, Bool.or_true]
      · rw [fnCell_storeFn _ _ hlt]
        refine if_neg fun heq => hk ?_
        rw [heq]
        exact hnull
    · exact .refl me
  · exact .refl me

theorem fills_ensureFnCacheCap (me : ModEntry) (n : Nat) : me.Fills (me.ensureFnCacheCap n) where
  bitted hb k := by
    rw [fnCell_ensureFnCacheCap, hasHook_ensureFnCacheCap]
    exact hb k
  bit k hk := by rwa [hasHook_ensureFnCacheCap]
  cell k _ := me.fnCell_ensureFnCacheCap n

theorem fills_fnCachePrewarm (me : ModEntry) (hooks : List (Sigma fun _ : CStr => Nat)) (n : Nat) :
    me.Fills (me.fnCachePrewarm w hooks n) := by
  unfold fnCachePrewarm
  split
  · exact .refl me
  · have hcap := me.fills_ensureFnCacheCap (n + 16)
    generalize me.ensureFnCacheCap (n + 16) = m at hcap
    induction hooks generalizing m with
    | nil => exact hcap
    | cons hook hooks ih => exact ih _ (hcap.trans (m.fills_prewarmOne hook.1 hook.2))

/-- A mapping with none of the callbacks makes the entry forget nothing. -/
theorem clearFnCache_eq {handle : Handle} {base : Addr}
    (hbase : w.moduleHandleBase handle = some base)
    (hno : ∀ cell ∈ me.fnCache, cell.mapped w handle = false) : me.clearFnCache w base = me := by
  have hmap : me.fnCache.map (fun cell =>
      match cell with
      | .fn a => if w.fbase a = some base then .null else cell
      | _ => cell) = me.fnCache := by
    refine (List.map_congr_left fun cell hcell => ?_).trans (List.map_id _)
    have hout := hno cell hcell
    cases cell with
    | fn a =>
      refine if_neg fun ha => ?_
      simp [FnSlot.mapped, hbase, ha] at hout
    | null | notFound => rfl
  exact congrArg (fun l => { me with fnCache := l }) hmap

theorem fnCell_clearFnCache {handle : Handle} {base : Addr}
    (hbase : w.moduleHandleBase handle = some base) (me : ModEntry) :
    (me.clearFnCache w base).fnCell hookId
      = if (me.fnCell hookId).mapped w handle then .null else me.fnCell hookId := by
  simp only [fnCell, clearFnCache, List.getD_eq_getElem?_getD, List.getElem?_map]
  cases hcell : me.fnCache[hookId]? with
  | none => simp [FnSlot.mapped]
  | some cell =>
    cases cell with
    | fn b => simp [FnSlot.mapped, hbase]
    | null | notFound => simp [FnSlot.mapped]

theorem bitted_of_empty (h : me.fns = ([], [])) : me.Bitted := by
  have hcache : me.fnCache = [] := congrArg Prod.fst h
  have hbits : me.hookImplBits = [] := congrArg Prod.snd h
  intro k
  simp [hasHookImplemented, fnCell, hcache, hbits]

end ModEntry

/-! ## Vectors that agree with the entries -/

/-- The vector is what a rebuild would make of it, and nothing is left to resolve. -/
structure Runtime.VecAgrees (w : World) (rt : Runtime) (r hookId : Nat) : Prop where
  listed : ∀ name, (rt.hookVec r hookId).cells.take (rt.hookVec r hookId).count
    = rt.listing w (rt.chain r).reverse hookId name (rt.walked r)
  resolved : ∀ e ∈ rt.walked r, ∀ me, rt.mods e = some me →
    rt.consulted (rt.chain r).reverse me = true → me.fnCell hookId ≠ .null

/-- The vectors that are up to date agree with the entries, and the bits of the
entries with their cells. -/
structure Runtime.Agreed (w : World) (rt : Runtime) : Prop where
  stamps : rt.Stamps
  bitted : ∀ x me, rt.mods x = some me → me.Bitted
  vecs : ∀ r < rt.nregions, ∀ hookId, rt.Warm r hookId → rt.VecAgrees w r hookId

section

variable {w : World} {c c' : Config} {a : Action} {ev : Event} {rt rt' : Runtime} {r hookId : Nat}
  {name : CStr} {x e : EntryRef} {me me' : ModEntry} {anc : List RegionRef}

/-- Where nothing is cleared, a step fills cells at most. -/
theorem Effect.fills (hok : VectorsKept w c a) (h : Effect w c a rt') (hx : rt'.mods x = some me') :
    (x = c.st.rt.nmods ∧ me'.fns = ([], []))
      ∨ ∃ me, c.st.rt.mods x = some me ∧ me.Fills me' := by
  rcases h.fns hx with hnew | ⟨me, hme, -, hch⟩
  · exact Or.inl hnew
  refine Or.inr ⟨me, hme, ?_⟩
  generalize hf : me'.fns = f at hch
  cases hch with
  | same => exact .of_fns hf
  | resolved hookId name => exact (me.fills_resolved hookId name).trans (.of_fns hf)
  | prewarm hooks n => exact (me.fills_fnCachePrewarm hooks n).trans (.of_fns hf)
  | @clear k e gone base ha hstack hne hgone hbase hin =>
    obtain ⟨-, hok⟩ := hok
    rw [ha, hstack] at hok
    have hno := (hok gone hgone).1 x hin hne me hme
    rw [ModEntry.clearFnCache_eq hbase hno] at hf
    exact .of_fns hf

theorem Effect.bitted (hok : VectorsKept w c a) (h : Effect w c a rt')
    (hin : ∀ x me, c.st.rt.mods x = some me → me.Bitted) :
    ∀ x me, rt'.mods x = some me → me.Bitted := by
  intro x me' hx
  rcases h.fills hok hx with ⟨-, hnew⟩ | ⟨me, hme, hfill⟩
  · exact ModEntry.bitted_of_empty hnew
  · exact hfill.bitted (hin x me hme)

/-- What a resolved entry adds to a vector. -/
theorem Runtime.slotOf_resolved (hme : rt.mods e = some me)
    (hcell : rt.consulted anc me = true → me.fnCell hookId ≠ .null) (name : CStr) :
    rt.slotOf w anc hookId name e
      = if rt.consulted anc me = true ∧ me.hasHookImplemented hookId = true
        then some ⟨e, me.fnCell hookId⟩ else none := by
  unfold slotOf
  rw [hme, Option.bind_some]
  by_cases hcons : rt.consulted anc me = true
  · have hres : me.resolved w hookId name = me :=
      me.resolved_of_not (fun hun => hcell hcons hun.2) name
    rw [hres]
  · simp [hcons]

/-- The entry adds to the vector what it added before. -/
structure Runtime.SameSlot (w : World) (rt rt' : Runtime) (anc : List RegionRef) (hookId : Nat)
    (e : EntryRef) : Prop where
  slot : ∀ name, rt'.slotOf w anc hookId name e = rt.slotOf w anc hookId name e
  resolved : ∀ me, rt'.mods e = some me → rt'.consulted anc me = true → me.fnCell hookId ≠ .null

/-- An entry that is consulted as before, and has had cells filled at most, adds
what it added before. -/
theorem Runtime.sameSlot_of_fills (hme : rt.mods e = some me) (hme' : rt'.mods e = some me')
    (hcons : rt'.consulted anc me' = rt.consulted anc me) (hb : me.Bitted) (hfill : me.Fills me')
    (hcell : rt.consulted anc me = true → me.fnCell hookId ≠ .null) :
    SameSlot w rt rt' anc hookId e := by
  have hsame : rt.consulted anc me = true → me'.fnCell hookId = me.fnCell hookId :=
    fun hc => hfill.cell hookId (hcell hc)
  have hcell' : rt'.consulted anc me' = true → me'.fnCell hookId ≠ .null := by
    intro hc
    rw [hcons] at hc
    rw [hsame hc]
    exact hcell hc
  refine ⟨fun name => ?_, fun m hm hc => ?_⟩
  · rw [slotOf_resolved hme' hcell' name, slotOf_resolved hme hcell name, hcons]
    by_cases hc : rt.consulted anc me = true
    · have hbit : me'.hasHookImplemented hookId = true ↔ me.hasHookImplemented hookId = true := by
        rw [hfill.bitted hb hookId, hb hookId, hsame hc]
      simp only [hc, hbit, hsame hc, true_and]
    · simp [hc]
  · obtain rfl : me' = m := Option.some.inj (hme'.symm.trans hm)
    exact hcell' hc

/-- An entry that added nothing, and is not consulted any more, adds nothing. -/
theorem Runtime.sameSlot_of_unheard (hslot : ∀ name, rt.slotOf w anc hookId name e = none)
    (hme' : rt'.mods e = some me') (hcons : rt'.consulted anc me' = false) :
    SameSlot w rt rt' anc hookId e := by
  refine ⟨fun name => ?_, fun m hm hc => ?_⟩
  · rw [hslot name]
    unfold slotOf
    simp [hme', hcons]
  · obtain rfl : me' = m := Option.some.inj (hme'.symm.trans hm)
    rw [hcons] at hc
    cases hc

/-- A vector that nobody has written agrees with entries that add what they added. -/
theorem Runtime.VecAgrees.keep (hold : rt.VecAgrees w r hookId)
    (hvec : rt'.hookVec r hookId = rt.hookVec r hookId) (hchain : rt'.chain r = rt.chain r)
    (hwalked : rt'.walked r = rt.walked r)
    (hslots : ∀ e ∈ rt.walked r, SameSlot w rt rt' (rt.chain r).reverse hookId e) :
    rt'.VecAgrees w r hookId := by
  refine ⟨fun name => ?_, fun e he me hme hcons => ?_⟩
  · rw [hvec, hchain, hwalked, hold.listed name]
    exact List.filterMap_congr fun e he => ((hslots e he).slot name).symm
  · rw [hwalked] at he
    rw [hchain] at hcons
    exact (hslots e he).resolved me hme hcons

/-! ## Steps -/

theorem Runtime.moduleDeniedByAncestors_iff {path : CStr} :
    rt.moduleDeniedByAncestors anc path = true ↔ ∃ x ∈ anc, path ∈ (rt.denies x).modules := by
  unfold moduleDeniedByAncestors moduleIsDenied
  simp [denies, RegionEntry.denies]

/-- The same denies along the chain keep the same modules out. -/
theorem Runtime.moduleDeniedByAncestors_congr {path : CStr}
    (h : ∀ x ∈ anc, (path ∈ (rt'.denies x).modules ↔ path ∈ (rt.denies x).modules)) :
    rt'.moduleDeniedByAncestors anc path = rt.moduleDeniedByAncestors anc path := by
  rw [Bool.eq_iff_iff, moduleDeniedByAncestors_iff, moduleDeniedByAncestors_iff]
  constructor
  · rintro ⟨x, hx, hin⟩
    exact ⟨x, hx, (h x hx).mp hin⟩
  · rintro ⟨x, hx, hin⟩
    exact ⟨x, hx, (h x hx).mpr hin⟩

theorem Runtime.genBump_ne (g : Nat) (hg : g < 2 ^ 64) : genBump g ≠ g := by
  unfold genBump
  split <;> omega

/-- A module that a warm vector has a slot of is not denied just now. -/
theorem Runtime.VecAgrees.slotOf_eq_none (h : rt.VecAgrees w r hookId) (he : e ∈ rt.walked r)
    (hme : rt.mods e = some me)
    (hspare : rt.VecSpares r hookId 0 (rt.hookVec r hookId).count me.loadPath) (name : CStr) :
    rt.slotOf w (rt.chain r).reverse hookId name e = none := by
  cases hslot : rt.slotOf w (rt.chain r).reverse hookId name e with
  | none => rfl
  | some slot =>
    have hmem : slot ∈ (rt.hookVec r hookId).cells.take (rt.hookVec r hookId).count := by
      rw [h.listed name]
      exact List.mem_filterMap.mpr ⟨e, he, hslot⟩
    have hslotme : slot.me = e := by
      unfold slotOf at hslot
      obtain ⟨m, -, hif⟩ := Option.bind_eq_some_iff.mp hslot
      split at hif
      · obtain rfl := Option.some.inj hif
        rfl
      · cases hif
    obtain ⟨i, hi⟩ := List.mem_iff_getElem?.mp hmem
    rw [List.getElem?_take] at hi
    split at hi
    · next hlt =>
      exact absurd rfl (hspare i hlt (Nat.zero_le i) slot hi me (by rw [hslotme]; exact hme))
    · cases hi

/-- A vector that is up to date is in the array of its region. -/
theorem Runtime.Stamps.lt_length (hs : rt.Stamps) (hr : r < rt.nregions) (hwarm : rt.Warm r hookId) :
    hookId < (rt.regions r).hookDispatch.length := by
  by_contra hge
  have hnone : (rt.regions r).hookDispatch[hookId]? = none :=
    List.getElem?_eq_none (Nat.le_of_not_lt hge)
  have hgen := hs.gen_pos r hr
  unfold Warm hookVec at hwarm
  rw [List.getD_eq_getElem?_getD, hnone] at hwarm
  have hzero : 0 = (rt.caches r).gen := hwarm
  omega

/-- An entry that is removed from a region leaves no list above it as it was. -/
theorem Runtime.Kept.not_removed (hwf : c.Wf w) (h : Effect w c a rt')
    (hkept : Kept c.st.rt rt' r) (hx : x ∈ c.st.rt.subtree r) (hgone : rt'.mods e = none) :
    c.st.rt.home e ≠ some x := by
  intro hhome
  have hin : e ∈ rt'.modsOf x := by
    rw [hkept.modsOf x hx]
    exact hwf.heap.mem_iff.mpr hhome
  have hhome' := (h.heap hwf).mem_iff.mp hin
  simp [Runtime.home, hgone] at hhome'

/-- A vector that stays up to date consults the module as before, unless the module
is denied now and had no slot. -/
theorem Effect.denied_of_warm (hwf : c.Wf w) (hin : c.st.rt.Agreed w) (hok : VectorsKept w c a)
    (h : Effect w c a rt') (hr : r < c.st.rt.nregions) (hkept : Kept c.st.rt rt' r)
    (hwarm : c.st.rt.Warm r hookId) (hshut : rt' ≠ c.st.rt.bootstrap) (he : e ∈ c.st.rt.walked r)
    (hme : c.st.rt.mods e = some me) :
    rt'.moduleDeniedByAncestors (c.st.rt.chain r).reverse me.loadPath
        = c.st.rt.moduleDeniedByAncestors (c.st.rt.chain r).reverse me.loadPath
      ∨ rt'.moduleDeniedByAncestors (c.st.rt.chain r).reverse me.loadPath = true
        ∧ ∀ name, c.st.rt.slotOf w (c.st.rt.chain r).reverse hookId name e = none := by
  have hlen := hin.stamps.lt_length hr hwarm
  have hlt : ∀ x ∈ (c.st.rt.chain r).reverse, x < c.st.rt.nregions := fun x hx =>
    lt_of_mem_chain hwf.tree hr (List.mem_reverse.mp hx)
  have hchain := parentChain_eq hwf.tree hr
  obtain ⟨hbumps, hok⟩ := hok
  cases h.denies with
  | same hold hnew =>
    exact Or.inl (moduleDeniedByAncestors_congr fun x hx => by rw [hold x (hlt x hx)])
  | shutdown ha hrt => exact absurd hrt hshut
  | @deny denier what type ha hcur hd hrt =>
    have hdenies := recordDeny_denies (w := w) hwf.tree hd what type
    cases type with
    | hook =>
      refine Or.inl (moduleDeniedByAncestors_congr fun x hx => ?_)
      rw [hrt, hdenies]
      dsimp only
      split <;> exact Iff.rfl
    | module =>
      by_cases hhit : denier ∈ c.st.rt.chain r ∧ me.loadPath = w.loadPath what
      · obtain ⟨hmem, hpath⟩ := hhit
        refine Or.inr ⟨moduleDeniedByAncestors_iff.mpr ⟨denier, List.mem_reverse.mpr hmem, ?_⟩, ?_⟩
        · rw [hrt, hdenies]
          simp [RegionDenies.add, hpath]
        · have hne : denier ≠ r := by
            rintro rfl
            have hgen := congrArg RegionCaches.gen hkept.caches
            rw [hrt, recordDeny_caches, if_pos (by rw [hchain]; exact hmem)] at hgen
            have hle := hin.stamps.gen_le denier hr
            unfold BumpsLeft at hbumps
            exact genBump_ne _ (by omega) hgen
          subst ha
          have hspare := hok denier hcur r hr (by rw [hchain]; exact hmem) hne hookId hlen hwarm
          exact (hin.vecs r hr hookId hwarm).slotOf_eq_none he hme (by rw [hpath]; exact hspare)
      · refine Or.inl (moduleDeniedByAncestors_congr fun x hx => ?_)
        rw [hrt, hdenies]
        by_cases hxd : x = denier
        · subst hxd
          have hne : me.loadPath ≠ w.loadPath what := fun heq =>
            hhit ⟨List.mem_reverse.mp hx, heq⟩
          simp [RegionDenies.add, hne]
        · rw [if_neg hxd]
  | @remove k e₀ gone ha hstack hgone hrt =>
    refine Or.inl (moduleDeniedByAncestors_congr fun x hx => ?_)
    rw [hrt, removeEntry_denies]
    split
    · next hre =>
      have hmem : me.loadPath ∈ ((c.st.rt.denies x).lift gone.loadPath).modules
          ↔ me.loadPath ∈ (c.st.rt.denies x).modules ∧ me.loadPath ≠ gone.loadPath := by
        simp [RegionDenies.lift]
      rw [hmem]
      refine and_iff_left_of_imp fun hden heq => ?_
      have hgone' : rt'.mods e₀ = none := by
        rw [hrt, removeEntry_cleared]
        exact Function.update_self ..
      have hne : x ≠ r := by
        rintro rfl
        have hself := (mem_subtree_iff hwf.tree hr).mpr ⟨hr, Forest.Links.self_mem_anc _⟩
        refine hkept.not_removed hwf h hself hgone' ?_
        rw [home_of_mods hgone, hre]
      subst ha
      rw [hstack] at hok
      have hlifts := (hok gone hgone).2 x hre (by rw [← heq]; exact hden) r hr
        (by rw [hchain]; exact List.mem_reverse.mp hx) hne
      exact hlifts hookId hlen hwarm e he me hme heq
    · exact Iff.rfl

/-- An entry below a region with a vector that stays adds what it added before. -/
theorem Effect.sameSlot (hwf : c.Wf w) (hl : c.st.rt.SubtreeLists) (hin : c.st.rt.Agreed w)
    (hok : VectorsKept w c a) (h : Effect w c a rt') (hr : r < c.st.rt.nregions)
    (hwarm : c.st.rt.Warm r hookId) (he : e ∈ c.st.rt.walked r) (hlive : rt'.mods e ≠ none)
    (hdenied : ∀ me, c.st.rt.mods e = some me →
      rt'.moduleDeniedByAncestors (c.st.rt.chain r).reverse me.loadPath
          = c.st.rt.moduleDeniedByAncestors (c.st.rt.chain r).reverse me.loadPath
        ∨ rt'.moduleDeniedByAncestors (c.st.rt.chain r).reverse me.loadPath = true
          ∧ ∀ name, c.st.rt.slotOf w (c.st.rt.chain r).reverse hookId name e = none) :
    SameSlot w c.st.rt rt' (c.st.rt.chain r).reverse hookId e := by
  have hset : c.st.rt.Settled e := by
    rw [walked_eq hwf.tree hl hr, List.mem_flatMap] at he
    obtain ⟨y, -, hy⟩ := he
    exact hwf.heap.settled hy
  obtain ⟨me', hme'⟩ := Option.ne_none_iff_exists'.mp hlive
  obtain ⟨me, hme, hctx, -, hpath, -⟩ := h.settled_entry hset hme'
  rcases hdenied me hme with hsame | ⟨hden, hslot⟩
  · obtain ⟨me₀, hme₀, hfill⟩ : ∃ me, c.st.rt.mods e = some me ∧ me.Fills me' := by
      rcases h.fills hok hme' with ⟨hnew, -⟩ | hold
      · exact absurd (hnew ▸ hset.1) (Nat.lt_irrefl _)
      · exact hold
    obtain rfl : me = me₀ := Option.some.inj (hme.symm.trans hme₀)
    refine sameSlot_of_fills hme hme' ?_ (hin.bitted e me hme) hfill
      ((hin.vecs r hr hookId hwarm).resolved e he me hme)
    unfold consulted
    rw [hctx, hpath, hsame]
  · refine sameSlot_of_unheard hslot hme' ?_
    unfold consulted
    rw [hpath, hden]
    simp

/-- What is resolved, in an entry whose bits agree with its cells, is not `NULL`. -/
theorem ModEntry.Bitted.cell_ne_null (hb : (me.resolved w hookId name).Bitted) :
    (me.resolved w hookId name).fnCell hookId ≠ .null := by
  intro hnull
  refine me.not_unresolved_resolved (w := w) hookId name ⟨?_, hnull⟩
  rw [Bool.eq_false_iff, Ne, hb hookId, hnull]
  simp

theorem Runtime.Rebuild.walked (ht : rt.tree.Wf) (hl : rt.SubtreeLists) (h : Rebuild rt rt' x)
    (hl' : rt'.SubtreeLists) (hr : r < rt.nregions) : rt'.walked r = rt.walked r := by
  have hr' : r < rt'.nregions := by
    rw [h.nregions]
    exact hr
  rw [walked_eq (h.tree ▸ ht) hl' hr', walked_eq ht hl hr, h.subtree, h.modsOf]

/-- A rebuild makes a vector that agrees. -/
theorem vecAgrees_of_prepareVec (ht : rt.tree.Wf) (hl : rt.SubtreeLists) (hl' : rt'.SubtreeLists)
    (hb : ∀ x me, rt'.mods x = some me → me.Bitted) (hr : r < rt.nregions)
    (hv : rt.prepareVec w r hookId name (rt.chain r).reverse = some rt')
    (hcold : ¬ rt.Warm r hookId) : rt'.VecAgrees w r hookId := by
  have hp := prepareVec_spec hv
  have hreb := rebuild_of_prepareVec hv
  have hchain : rt'.chain r = rt.chain r := by
    unfold chain
    rw [hreb.tree]
  have hwalked := hreb.walked ht hl hl' hr
  have hdenies : rt'.deniesOf = rt.deniesOf :=
    funext fun y => congrArg RegionDenies.modules (congrFun (prepareVec_denies hv) y)
  have hmods : ∀ e ∈ rt.walked r,
      rt'.mods e = rt.resolvedEntry w (rt.chain r).reverse hookId name e := by
    intro e he
    rw [hp.mods hcold, if_pos he]
  have hresolved : ∀ e ∈ rt.walked r, ∀ me, rt'.mods e = some me →
      rt'.consulted (rt.chain r).reverse me = true → me.fnCell hookId ≠ .null := by
    intro e he me' hme' hcons
    have hentry := hmods e he
    rw [hme'] at hentry
    obtain ⟨me, hme, heq⟩ := Option.map_eq_some_iff.mp hentry.symm
    obtain ⟨hctx, hpath, -⟩ := ModEntry.eq_of_core (me.core_resolved (w := w) hookId name)
    have hden : ∀ p, rt'.moduleDeniedByAncestors (rt.chain r).reverse p
        = rt.moduleDeniedByAncestors (rt.chain r).reverse p := fun p =>
      moduleDeniedByAncestors_congr fun x _ => by rw [prepareVec_denies hv]
    split at heq
    · subst heq
      exact (hb e _ hme').cell_ne_null
    · next hno =>
      subst heq
      unfold consulted at hcons hno
      rw [hden] at hcons
      exact absurd hcons hno
  refine ⟨fun name' => ?_, fun e he me hme hcons => ?_⟩
  · rw [hp.cells hcold, hp.count hcold, List.take_left, hchain, hwalked]
    refine List.filterMap_congr fun e he => ?_
    have hcongr : rt'.slotOf w (rt.chain r).reverse hookId name e
        = rt.slotOf w (rt.chain r).reverse hookId name e :=
      (slotOf_congr hdenies (Or.inr (hmods e he))).1
    rw [← hcongr]
    cases hme : rt'.mods e with
    | none =>
      unfold slotOf
      rw [hme]
      rfl
    | some me =>
      rw [slotOf_resolved hme (hresolved e he me hme) name,
        slotOf_resolved hme (hresolved e he me hme) name']
  · rw [hwalked] at he
    rw [hchain] at hcons
    exact hresolved e he me hme hcons

/-- A vector that is up to date after a step has been built by it, or has been left as
it was; and it is over the list that it was over. -/
theorem Effect.warmed (hwf : c.Wf w) (hl : c.st.rt.SubtreeLists) (hs : c.st.rt.Stamps)
    (hb : c.st.rt.BumpsLeft) (h : Effect w c a rt') (hr : r < rt'.nregions)
    (hwarm : rt'.Warm r hookId) :
    r < c.st.rt.nregions ∧ rt' ≠ c.st.rt.bootstrap ∧ rt'.walked r = c.st.rt.walked r
      ∧ ((¬ c.st.rt.Warm r hookId
          ∧ ∃ name, c.st.rt.prepareVec w r hookId name (c.st.rt.chain r).reverse = some rt')
        ∨ (c.st.rt.Warm r hookId ∧ rt'.hookVec r hookId = c.st.rt.hookVec r hookId
          ∧ (rt'.denies = c.st.rt.denies ∨ Kept c.st.rt rt' r))) := by
  have hlen := (h.stamps hwf hs hb).lt_length hr hwarm
  have hl' := h.subtreeLists hwf hl
  have hshut : rt' ≠ c.st.rt.bootstrap := by
    rintro rfl
    exact Nat.not_lt_zero _ hlen
  rcases h.touched hwf with ⟨-, hrt⟩ | ⟨x, k, name, q, ha, hcaller, hx, hv⟩ | ⟨hold, hnew⟩
  · exact absurd hrt hshut
  · have hp := prepareVec_spec hv
    have hreb := rebuild_of_prepareVec hv
    have hlt : r < c.st.rt.nregions := by
      rw [← hreb.nregions]
      exact hr
    refine ⟨hlt, hshut, hreb.walked hwf.tree hl hl' hlt, ?_⟩
    by_cases hbuilt : (r = x ∧ hookId = k) ∧ ¬ c.st.rt.Warm x k
    · obtain ⟨⟨rfl, rfl⟩, hcold⟩ := hbuilt
      exact Or.inl ⟨hcold, name, hv⟩
    · have hvec : rt'.hookVec r hookId = c.st.rt.hookVec r hookId := by
        by_cases hrk : r = x ∧ hookId = k
        · have hwarm₀ : c.st.rt.Warm x k := by
            by_contra hcold
            exact hbuilt ⟨hrk, hcold⟩
          rw [hrk.1, hrk.2]
          exact (hp.warm hwarm₀).1
        · exact hp.vec_ne r hookId (by tauto)
      refine Or.inr ⟨?_, hvec, Or.inl (prepareVec_denies hv)⟩
      unfold Warm at hwarm ⊢
      rw [hvec, hreb.gen_eq] at hwarm
      exact hwarm
  · rcases Nat.lt_or_ge r c.st.rt.nregions with hlt | hge
    · have hwrap : rt'.genBumps + 1 < 2 ^ 64 := by
        have hle := h.genBumps_le
        unfold BumpsLeft at hb
        omega
      obtain ⟨hkept, hwarm₀, hvec⟩ := (hold r hlt).warm hs hlt hwrap hwarm
      refine ⟨hlt, hshut, ?_, Or.inr ⟨hwarm₀, hvec, Or.inr hkept⟩⟩
      rw [walked_eq (h.tree hwf) hl' hr, walked_eq hwf.tree hl hlt, hkept.subtree]
      exact List.flatMap_congr hkept.modsOf
    · have hnil : (rt'.regions r).hookDispatch = [] :=
        congrArg RegionCaches.vecs (hnew r hge hr).caches
      rw [hnil] at hlen
      exact absurd hlen (Nat.not_lt_zero _)

theorem Effect.agreed (hwf : c.Wf w) (hl : c.st.rt.SubtreeLists) (hin : c.st.rt.Agreed w)
    (hok : VectorsKept w c a) (h : Effect w c a rt') : rt'.Agreed w := by
  have hl' := h.subtreeLists hwf hl
  have hb := h.bitted hok hin.bitted
  refine ⟨h.stamps hwf hin.stamps hok.1, hb, fun r hr hookId hwarm => ?_⟩
  obtain ⟨hlt, hshut, hwalked, ⟨hcold, name, hv⟩ | ⟨hwarm₀, hvec, hdenies⟩⟩ :=
    h.warmed hwf hl hin.stamps hok.1 hr hwarm
  · exact vecAgrees_of_prepareVec hwf.tree hl hl' hb hlt hv hcold
  have hchain : rt'.chain r = c.st.rt.chain r := by
    rcases h.evolves hwf with ⟨-, -, hrt⟩ | hev
    · exact absurd hrt hshut
    · exact hev.chain hlt
  refine (hin.vecs r hlt hookId hwarm₀).keep hvec hchain hwalked fun e he => ?_
  refine h.sameSlot hwf hl hin hok hlt hwarm₀ he ?_ fun me hme => ?_
  · rw [← hwalked, walked_eq (h.tree hwf) hl' hr, List.mem_flatMap] at he
    obtain ⟨y, -, hy⟩ := he
    have hhome := (h.heap hwf).mem_iff.mp hy
    intro hnone
    simp [Runtime.home, hnone] at hhome
  · rcases hdenies with hsame | hkept
    · exact Or.inl (moduleDeniedByAncestors_congr fun y _ => by rw [hsame])
    · exact h.denied_of_warm hwf hin hok hlt hkept hwarm₀ hshut he hme

/-- In a run that heeds this, the vectors agree with the entries. -/
theorem agreed_of_vectorsKept (h : ReachableBy w (VectorsKept w) c) : c.st.rt.Agreed w := by
  refine h.invariant_cells (fun c => c.st.rt.Agreed w) (fun c hc => ?_)
    fun c a c' ev hwf hl hcells hin hok hstep => (hstep.effect hwf).agreed hwf hl hin hok
  obtain ⟨ctxs, adapters, mem, rfl⟩ := hc
  refine ⟨stamps_bootstrap _, fun x me hx => ?_, fun r hr hookId hwarm => ?_⟩
  · cases hx
  · have hlen := (stamps_bootstrap _).lt_length hr hwarm
    exact absurd hlen (Nat.not_lt_zero _)

end

end Xylem
