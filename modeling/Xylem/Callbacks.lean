import Xylem.Entries

/-!
# What a step does to the callback caches

`FnsChange` lists what can happen to the callback cache and the bitmap of an
entry that lives on: a resolution, a prewarming, or the loss of the callbacks in
a mapping that goes away.  `Effect.fns` says that the list is complete, and
`Effect.fnsBy` also under which names a step resolves (`Resolves`).

It follows that a cell of a cache holds only what was found under a name that
goes with its number (`FnsNamed`), and the hook vectors likewise
(`CallbacksNamed`).  `CallbacksFound` is the same without the number.
-/

namespace Xylem

open Xylem.Runtime

/-- The callback cache and the bitmap of an entry. -/
def ModEntry.fns (me : ModEntry) : List FnSlot × List (BitVec 64) := (me.fnCache, me.hookImplBits)

/-- What a step can do to the callback cache and the bitmap of an entry. -/
inductive FnsChange (w : World) (c : Config) (a : Action) (x : EntryRef) (me : ModEntry) :
    List FnSlot × List (BitVec 64) → Prop
  | same : FnsChange w c a x me me.fns
  | resolved (hookId : Nat) (name : CStr) : FnsChange w c a x me (me.resolved w hookId name).fns
  | prewarm (hooks : List (Sigma fun _ : CStr => Nat)) (n : Nat) :
      FnsChange w c a x me (me.fnCachePrewarm w hooks n).fns
  | clear {k : List Frame} {e : EntryRef} {gone : ModEntry} {base : Addr} (ha : a = .tau)
      (hstack : c.stack = .unload e [] :: k) (hne : x ≠ e) (hgone : c.st.rt.mods e = some gone)
      (hbase : w.moduleHandleBase gone.handle = some base) (hin : x ∈ c.st.rt.modHdValues w) :
      FnsChange w c a x me (me.clearFnCache w base).fns

/-- The numbers and names under which a step may resolve callbacks. -/
inductive Resolves (w : World) (c : Config) (a : Action) (rt' : Runtime) : Nat → CStr → Prop
  | table {hook : Sigma fun _ : CStr => Nat} (h : hook ∈ c.st.rt.hookIdHd.entries) :
      Resolves w c a rt' hook.2 hook.1
  | register {name : CStr} {reg : AdapterRef} {hook : Sigma fun _ : CStr => Nat}
      (ha : a = .call (.areg name reg)) (hrt : rt' = c.st.rt.registerHook w name reg)
      (h : hook ∈ rt'.hookIdHd.entries) : Resolves w c a rt' hook.2 hook.1
  | running {d : Dispatch} {k : List Frame} (ha : a = .tau)
      (hstack : c.stack = .dispatch d none :: k) : Resolves w c a rt' d.hookId d.name
  | vector {r hookId : Nat} {name : CStr} {q : Call} (ha : a = .call q)
      (hv : c.st.rt.prepareVec w r hookId name (c.st.rt.chain r).reverse = some rt') :
      Resolves w c a rt' hookId name

/-- What a step can do to the callback cache and the bitmap of an entry, when it
resolves under the numbers and names of `named` only. -/
inductive FnsChangeBy (named : Nat → CStr → Prop) (w : World) (c : Config) (a : Action)
    (x : EntryRef) (me : ModEntry) : List FnSlot × List (BitVec 64) → Prop
  | same : FnsChangeBy named w c a x me me.fns
  | resolved {hookId : Nat} {name : CStr} (hn : named hookId name) :
      FnsChangeBy named w c a x me (me.resolved w hookId name).fns
  | prewarm {hooks : List (Sigma fun _ : CStr => Nat)} {n : Nat}
      (hn : ∀ hook ∈ hooks, named hook.2 hook.1) :
      FnsChangeBy named w c a x me (me.fnCachePrewarm w hooks n).fns
  | clear {k : List Frame} {e : EntryRef} {gone : ModEntry} {base : Addr} (ha : a = .tau)
      (hstack : c.stack = .unload e [] :: k) (hne : x ≠ e) (hgone : c.st.rt.mods e = some gone)
      (hbase : w.moduleHandleBase gone.handle = some base) (hin : x ∈ c.st.rt.modHdValues w) :
      FnsChangeBy named w c a x me (me.clearFnCache w base).fns

section

variable {w : World} {c : Config} {a : Action} {rt' : Runtime} {x : EntryRef} {me me' : ModEntry}

theorem FnsChangeBy.of_modifyMod {named : Nat → CStr → Prop} {e : EntryRef}
    {f : ModEntry → ModEntry}
    (hf : ∀ me, x = e → c.st.rt.mods e = some me →
      (f me).handle = me.handle ∧ FnsChangeBy named w c a e me (f me).fns)
    (hx : (c.st.rt.modifyMod e f).mods x = some me') :
    ∃ me, c.st.rt.mods x = some me ∧ me'.handle = me.handle
      ∧ FnsChangeBy named w c a x me me'.fns := by
  obtain ⟨me, hme, rfl⟩ := modifyMod_some hx
  refine ⟨me, hme, ?_⟩
  split
  · next hxe =>
    subst hxe
    exact hf me rfl hme
  · exact ⟨rfl, .same⟩

theorem ModEntry.handle_of_core {me me' : ModEntry} (h : me'.core = me.core) :
    me'.handle = me.handle := (ModEntry.eq_of_core h).2.2.1

/-- The callback cache of a live entry is new, or comes from the one before by
what the step resolves. -/
theorem Effect.fnsBy (h : Effect w c a rt') (hx : rt'.mods x = some me') :
    (x = c.st.rt.nmods ∧ me'.fns = ([], []))
      ∨ ∃ me, c.st.rt.mods x = some me ∧ me'.handle = me.handle
        ∧ FnsChangeBy (Resolves w c a rt') w c a x me me'.fns := by
  cases h with
  | same | handler | claimAt | grant => exact Or.inr ⟨me', hx, rfl, .same⟩
  | @deny r what type =>
    have hmods : (c.st.rt.recordDeny w r what type).mods = c.st.rt.mods := by
      unfold recordDeny
      cases type <;> rfl
    exact Or.inr ⟨me', hmods ▸ hx, rfl, .same⟩
  | refcount | bind =>
    refine Or.inr (FnsChangeBy.of_modifyMod (fun _ _ _ => ?_) hx)
    exact ⟨rfl, .same⟩
  | @publish tx k ha hstack hl =>
    by_cases hnew : x = c.st.rt.nmods
    · subst hnew
      have hme : some (tx.freshEntry c.st.tls.loadingMod) = some me' := by
        simpa [publishEntry] using hx
      cases hme
      exact Or.inl ⟨rfl, rfl⟩
    · have hme : c.st.rt.mods x = some me' := by simpa [publishEntry, hnew] using hx
      exact Or.inr ⟨me', hme, rfl, .same⟩
  | @rekey tx k child e ha hstack hl =>
    have hx' : (c.st.rt.modifyMod e fun me => { me with
        regionId := child.id, regionPlen := child.plen
        modKey := modKey (w.loadPath tx.fname) child.id child.plen }).mods x = some me' := hx
    refine Or.inr (FnsChangeBy.of_modifyMod (fun _ _ _ => ?_) hx')
    exact ⟨rfl, .same⟩
  | @link tx k e me size ha hstack he hme hun =>
    obtain ⟨state, hmods⟩ := linkEntry_mods c.st.rt e me size hme
    rw [hmods] at hx
    by_cases hxe : x = e
    · subst hxe
      rw [Function.update_self] at hx
      cases hx
      exact Or.inr ⟨me, hme, rfl, .same⟩
    · rw [Function.update_of_ne hxe] at hx
      exact Or.inr ⟨me', hx, rfl, .same⟩
  | prewarm =>
    refine Or.inr (FnsChangeBy.of_modifyMod (fun me _ _ => ⟨?_, .prewarm fun _ hook => .table hook⟩) hx)
    exact ModEntry.handle_of_core (me.core_fnCachePrewarm _ _)
  | @abort tx k err e me ha hstack he hme =>
    rw [discardEntry_mods] at hx
    by_cases hxe : x = e
    · subst hxe
      rw [Function.update_self] at hx
      cases hx
    · rw [Function.update_of_ne hxe] at hx
      exact Or.inr ⟨me', hx, rfl, .same⟩
  | @remove k e me ha hstack hme =>
    have hmods : (c.st.rt.removeEntry w e me).mods
        = Function.update (c.st.rt.moduleClearFnCacheForHandle w e me.handle).mods e none := by
      unfold removeEntry
      dsimp only
      rw [discardEntry_mods]
      congr 1
      unfold moduleRemovePathOwnedEntries
      split <;> rfl
    rw [hmods] at hx
    by_cases hxe : x = e
    · subst hxe
      rw [Function.update_self] at hx
      cases hx
    · rw [Function.update_of_ne hxe] at hx
      unfold moduleClearFnCacheForHandle at hx
      split at hx
      · exact Or.inr ⟨me', hx, rfl, .same⟩
      · next base hbase =>
        dsimp only at hx
        split at hx
        · next hin =>
          obtain ⟨m, hm, rfl⟩ := Option.map_eq_some_iff.mp hx
          exact Or.inr ⟨m, hm, rfl, .clear ha hstack hxe hme hbase hin.2⟩
        · exact Or.inr ⟨me', hx, rfl, .same⟩
  | @reinsert rl k e r rt' ha hstack hl hre hr hi =>
    rw [reinsert_mods hi] at hx
    by_cases hxe : x = e
    · subst hxe
      rw [Function.update_self] at hx
      obtain ⟨me, hme, rfl⟩ := Option.map_eq_some_iff.mp hx
      exact Or.inr ⟨me, hme, rfl, .same⟩
    · rw [Function.update_of_ne hxe] at hx
      exact Or.inr ⟨me', hx, rfl, .same⟩
  | @vector r hookId name rt' q ha hcaller hr hv =>
    have hp := prepareVec_spec hv
    refine Or.inr ?_
    by_cases hwarm : c.st.rt.Warm r hookId
    · rw [(hp.warm hwarm).2] at hx
      exact ⟨me', hx, rfl, .same⟩
    · rw [hp.mods hwarm] at hx
      split at hx
      · obtain ⟨me, hme, rfl⟩ := Option.map_eq_some_iff.mp hx
        refine ⟨me, hme, ?_⟩
        split
        · exact ⟨ModEntry.handle_of_core (me.core_resolved ..), .resolved (.vector ha hv)⟩
        · exact ⟨rfl, .same⟩
      · exact ⟨me', hx, rfl, .same⟩
  | @resolve d k e me ha hstack hself hme =>
    refine Or.inr (FnsChangeBy.of_modifyMod (fun m _ hm => ?_) hx)
    rw [hme] at hm
    cases hm
    exact ⟨ModEntry.handle_of_core (me.core_resolved ..), .resolved (.running ha hstack)⟩
  | @register name reg ha =>
    simp only [registerHook] at hx
    split at hx
    · obtain ⟨me, hme, rfl⟩ := Option.map_eq_some_iff.mp hx
      exact Or.inr ⟨me, hme, ModEntry.handle_of_core (me.core_fnCachePrewarm ..),
        .prewarm fun _ hook => .register ha rfl hook⟩
    · exact Or.inr ⟨me', hx, rfl, .same⟩
  | shutdown => cases hx

/-- The callback cache of a live entry is new, or comes from the one before. -/
theorem Effect.fns (h : Effect w c a rt') (hx : rt'.mods x = some me') :
    (x = c.st.rt.nmods ∧ me'.fns = ([], []))
      ∨ ∃ me, c.st.rt.mods x = some me ∧ me'.handle = me.handle
        ∧ FnsChange w c a x me me'.fns := by
  rcases h.fnsBy hx with hnew | ⟨me, hme, hhandle, hch⟩
  · exact Or.inl hnew
  refine Or.inr ⟨me, hme, hhandle, ?_⟩
  generalize me'.fns = f at hch
  cases hch with
  | same => exact .same
  | resolved hn => exact .resolved _ _
  | prewarm hn => exact .prewarm _ _
  | clear ha hstack hne hgone hbase hin => exact .clear ha hstack hne hgone hbase hin

end

/-! ## Where callbacks come from -/

/-- Every callback that is cached was found by a lookup of a hook name. -/
def ModEntry.FnsFound (w : World) (me : ModEntry) : Prop :=
  ∀ a, .fn a ∈ me.fnCache → ∃ name, w.hookSymbol me.handle name = some a

/-- Every callback that is cached was found by a lookup of a name that goes with the
number of its cell. -/
def ModEntry.FnsNamed (w : World) (named : Nat → CStr → Prop) (me : ModEntry) : Prop :=
  ∀ i a, me.fnCache[i]? = some (.fn a) →
    ∃ name, named i name ∧ w.hookSymbol me.handle name = some a

namespace ModEntry

variable {w : World} {me : ModEntry} {named named' : Nat → CStr → Prop} {hookId : Nat}
  {name : CStr}

theorem fnsFound_iff : me.FnsFound w ↔ me.FnsNamed w fun _ _ => True := by
  constructor
  · intro h i a ha
    obtain ⟨name, hname⟩ := h a (List.mem_of_getElem? ha)
    exact ⟨name, trivial, hname⟩
  · intro h a ha
    obtain ⟨i, hi⟩ := List.mem_iff_getElem?.mp ha
    obtain ⟨name, -, hname⟩ := h i a hi
    exact ⟨name, hname⟩

theorem FnsNamed.mono (h : me.FnsNamed w named) (hle : ∀ i n, named i n → named' i n) :
    me.FnsNamed w named' := by
  intro i a ha
  obtain ⟨name, hn, hname⟩ := h i a ha
  exact ⟨name, hle i name hn, hname⟩

theorem FnsNamed.ensureFnCacheCap (h : me.FnsNamed w named) (n : Nat) :
    (me.ensureFnCacheCap n).FnsNamed w named := by
  intro i a ha
  simp only [ModEntry.ensureFnCacheCap, List.getElem?_append, List.getElem?_replicate] at ha
  split at ha
  · exact h i a ha
  · split at ha <;> cases ha

theorem FnsNamed.setFnCell (h : me.FnsNamed w named) {cell : FnSlot}
    (hcell : ∀ a, cell = .fn a → ∃ name, named hookId name ∧ w.hookSymbol me.handle name = some a) :
    (me.setFnCell hookId cell).FnsNamed w named := by
  intro i a ha
  simp only [ModEntry.setFnCell, List.getElem?_set] at ha
  split at ha
  · next heq =>
    split at ha
    · exact heq ▸ hcell a (Option.some.inj ha)
    · cases ha
  · exact h i a ha

theorem FnsNamed.storeFn (h : me.FnsNamed w named) (hn : named hookId name) :
    (me.storeFn hookId (w.hookSymbol me.handle name)).FnsNamed w named := by
  unfold ModEntry.storeFn
  split
  · next cb hcb =>
    exact FnsNamed.setFnCell h fun a ha => ⟨name, hn, by cases ha; exact hcb⟩
  · exact h.setFnCell fun a ha => by cases ha

theorem FnsNamed.resolved (h : me.FnsNamed w named) (hn : named hookId name) :
    (me.resolved w hookId name).FnsNamed w named := by
  unfold ModEntry.resolved
  split
  · exact h
  · unfold ModEntry.fnCacheResolve
    split
    · exact h
    · exact h
    · exact (h.ensureFnCacheCap _).storeFn hn

theorem FnsNamed.prewarmOne (h : me.FnsNamed w named) (hn : named hookId name) :
    (me.prewarmOne w name hookId).FnsNamed w named := by
  unfold ModEntry.prewarmOne
  split
  · split
    · exact h.storeFn hn
    · exact h
  · exact h

theorem FnsNamed.fnCachePrewarm (h : me.FnsNamed w named)
    {hooks : List (Sigma fun _ : CStr => Nat)} (hn : ∀ hook ∈ hooks, named hook.2 hook.1)
    (n : Nat) : (me.fnCachePrewarm w hooks n).FnsNamed w named := by
  unfold ModEntry.fnCachePrewarm
  split
  · exact h
  · have hcap := h.ensureFnCacheCap (n + 16)
    generalize me.ensureFnCacheCap (n + 16) = m at hcap
    induction hooks generalizing m with
    | nil => exact hcap
    | cons hook hooks ih =>
      have hrest : ∀ hook' ∈ hooks, named hook'.2 hook'.1 := fun hook' hmem =>
        hn hook' (List.mem_cons_of_mem _ hmem)
      exact ih hrest _ (hcap.prewarmOne (hn hook List.mem_cons_self))

theorem FnsNamed.clearFnCache (h : me.FnsNamed w named) (base : Addr) :
    (me.clearFnCache w base).FnsNamed w named := by
  intro i a ha
  simp only [ModEntry.clearFnCache, List.getElem?_map] at ha
  obtain ⟨cell, hcell, heq⟩ := Option.map_eq_some_iff.mp ha
  split at heq
  · split at heq
    · cases heq
    · exact h i a (heq ▸ hcell)
  · subst heq
    exact h i a hcell

/-- The cells that can be read are among these. -/
theorem FnsNamed.fnCell (h : me.FnsNamed w named) {a : Addr} (hcell : me.fnCell hookId = .fn a) :
    ∃ name, named hookId name ∧ w.hookSymbol me.handle name = some a := by
  refine h hookId a ?_
  unfold ModEntry.fnCell at hcell
  rw [List.getD_eq_getElem?_getD] at hcell
  cases hget : me.fnCache[hookId]? with
  | none =>
    rw [hget] at hcell
    cases hcell
  | some cell =>
    rw [hget] at hcell
    exact congrArg some hcell

theorem FnsNamed.congr {me' : ModEntry} (h : me.FnsNamed w named) (hhandle : me'.handle = me.handle)
    (hfns : me'.fns = me.fns) : me'.FnsNamed w named := by
  intro i a ha
  have hcache : me'.fnCache = me.fnCache := congrArg Prod.fst hfns
  rw [hcache] at ha
  rw [hhandle]
  exact h i a ha

end ModEntry

section

variable {w : World} {c : Config} {a : Action} {rt rt' : Runtime} {x : EntryRef}
  {me me' : ModEntry} {named named' : Nat → CStr → Prop} {hookId : Nat} {name : CStr}

theorem FnsChangeBy.keepsNamed {m : ModEntry} (h : FnsChangeBy named w c a x me m.fns)
    (hhandle : m.handle = me.handle) (hme : me.FnsNamed w named) : m.FnsNamed w named := by
  generalize hf : m.fns = f at h
  cases h with
  | same => exact hme.congr hhandle hf
  | @resolved hookId name hn =>
    exact (hme.resolved hn).congr
      (hhandle.trans (ModEntry.handle_of_core (me.core_resolved ..)).symm) hf
  | @prewarm hooks n hn =>
    exact (hme.fnCachePrewarm hn n).congr
      (hhandle.trans (ModEntry.handle_of_core (me.core_fnCachePrewarm ..)).symm) hf
  | clear => exact (hme.clearFnCache _).congr hhandle hf

theorem FnsChangeBy.mono {f : List FnSlot × List (BitVec 64)}
    (h : FnsChangeBy named w c a x me f) (hle : ∀ i n, named i n → named' i n) :
    FnsChangeBy named' w c a x me f := by
  cases h with
  | same => exact .same
  | resolved hn => exact .resolved (hle _ _ hn)
  | prewarm hn => exact .prewarm fun hook hmem => hle _ _ (hn hook hmem)
  | clear ha hstack hne hgone hbase hin => exact .clear ha hstack hne hgone hbase hin

/-- The callback caches of all entries, and the hook vectors, hold callbacks only
that were found by name. -/
structure Runtime.CallbacksFound (w : World) (rt : Runtime) : Prop where
  entries : ∀ x me, rt.mods x = some me → me.FnsFound w
  cells : ∀ r < rt.nregions, ∀ hookId, ∀ cell ∈ (rt.hookVec r hookId).cells,
    ∀ a me, cell.cb = .fn a → rt.mods cell.me = some me →
      ∃ name, w.hookSymbol me.handle name = some a

/-- The callback caches of all entries, and the hook vectors, hold callbacks only
that were found under a name that goes with the number of the hook. -/
structure Runtime.CallbacksNamed (w : World) (named : Nat → CStr → Prop) (rt : Runtime) :
    Prop where
  entries : ∀ x me, rt.mods x = some me → me.FnsNamed w named
  cells : ∀ r < rt.nregions, ∀ hookId, ∀ cell ∈ (rt.hookVec r hookId).cells,
    ∀ a me, cell.cb = .fn a → rt.mods cell.me = some me →
      ∃ name, named hookId name ∧ w.hookSymbol me.handle name = some a

theorem Runtime.callbacksFound_iff : rt.CallbacksFound w ↔ rt.CallbacksNamed w fun _ _ => True := by
  constructor
  · intro h
    refine ⟨fun x me hx => ModEntry.fnsFound_iff.mp (h.entries x me hx), ?_⟩
    intro r hr hookId cell hcell a me hcb hme
    obtain ⟨name, hname⟩ := h.cells r hr hookId cell hcell a me hcb hme
    exact ⟨name, trivial, hname⟩
  · intro h
    refine ⟨fun x me hx => ModEntry.fnsFound_iff.mpr (h.entries x me hx), ?_⟩
    intro r hr hookId cell hcell a me hcb hme
    obtain ⟨name, -, hname⟩ := h.cells r hr hookId cell hcell a me hcb hme
    exact ⟨name, hname⟩

theorem Runtime.CallbacksNamed.mono (h : rt.CallbacksNamed w named)
    (hle : ∀ i n, named i n → named' i n) : rt.CallbacksNamed w named' where
  entries x me hx := (h.entries x me hx).mono hle
  cells r hr hookId cell hcell a me hcb hme := by
    obtain ⟨name, hn, hname⟩ := h.cells r hr hookId cell hcell a me hcb hme
    exact ⟨name, hle _ _ hn, hname⟩

theorem Effect.entriesNamed (h : Effect w c a rt')
    (hres : ∀ i n, Resolves w c a rt' i n → named i n)
    (hinv : ∀ x me, c.st.rt.mods x = some me → me.FnsNamed w named) :
    ∀ x me, rt'.mods x = some me → me.FnsNamed w named := by
  intro x me' hx
  rcases h.fnsBy hx with ⟨-, hnew⟩ | ⟨me, hme, hhandle, hch⟩
  · intro i a ha
    have hnil : me'.fnCache = [] := congrArg Prod.fst hnew
    rw [hnil] at ha
    cases ha
  · exact (hch.mono hres).keepsNamed hhandle (hinv x me hme)

/-- A listing holds what the entries have cached. -/
theorem listing_named {anc : List RegionRef} {l : List EntryRef} {cell : DispatchSlot}
    (hinv : ∀ x me, rt.mods x = some me → me.FnsNamed w named) (hn : named hookId name)
    (h : cell ∈ rt.listing w anc hookId name l) {a : Addr} {me : ModEntry}
    (hcb : cell.cb = .fn a) (hme : rt.mods cell.me = some me) :
    ∃ name, named hookId name ∧ w.hookSymbol me.handle name = some a := by
  obtain ⟨e, he, hslot⟩ := List.mem_filterMap.mp h
  unfold Runtime.slotOf at hslot
  obtain ⟨m, hm, hif⟩ := Option.bind_eq_some_iff.mp hslot
  have hhandle := ModEntry.handle_of_core (m.core_resolved (w := w) hookId name)
  have hfound := (hinv e m hm).resolved hn
  split at hif
  · cases hif
    have heq : m = me := Option.some.inj (hm.symm.trans hme)
    obtain ⟨nm, hnm, hsym⟩ := hfound.fnCell hcb
    exact ⟨nm, hnm, heq ▸ hhandle ▸ hsym⟩
  · cases hif

/-- A step keeps the callbacks with their names. -/
theorem Effect.callbacksNamed (hwf : c.Wf w) (hl : c.st.rt.SubtreeLists)
    (hset : c.st.rt.CellsSettled) (h : Effect w c a rt')
    (hres : ∀ i n, Resolves w c a rt' i n → named i n) (hinv : c.st.rt.CallbacksNamed w named) :
    rt'.CallbacksNamed w named where
  entries := h.entriesNamed hres hinv.entries
  cells := by
    intro r hr k cell hcell b me' hcb hme'
    obtain ⟨hlt, horigin⟩ := h.cell_origin hwf hr hcell
    have hsettled : c.st.rt.Settled cell.me := by
      rcases horigin with hold | ⟨name, q, -, -, -, -, hnew⟩
      · exact hset r hlt k cell hold
      · have hmem := mem_listing hnew
        rw [walked_eq hwf.tree hl hlt, List.mem_flatMap] at hmem
        obtain ⟨y, -, hy⟩ := hmem
        exact hwf.heap.settled hy
    obtain ⟨me, hme, -, -, -, hhandle, -⟩ := h.settled_entry hsettled hme'
    rw [hhandle]
    rcases horigin with hold | ⟨name, q, ha, -, -, hv, hnew⟩
    · exact hinv.cells r hlt k cell hold b me hcb hme
    · exact listing_named hinv.entries (hres k name (.vector ha hv)) hnew hcb hme

theorem callbacksNamed_of_initial (hc : c.Initial) : c.st.rt.CallbacksNamed w named := by
  obtain ⟨ctxs, adapters, mem, rfl⟩ := hc
  constructor
  · intro x me hx
    cases hx
  · intro r _ hookId cell hcell
    rw [hookVec_of_nil rfl] at hcell
    cases hcell

theorem callbacksFound_of_reachable {ok : Config → Action → Prop} (h : ReachableBy w ok c) :
    c.st.rt.CallbacksFound w := by
  rw [callbacksFound_iff]
  refine h.invariant_cells (fun c => c.st.rt.CallbacksNamed w fun _ _ => True)
    (fun c hc => callbacksNamed_of_initial hc) fun c a c' ev hwf hl hset hinv _ hstep => ?_
  exact (hstep.effect hwf).callbacksNamed hwf hl hset (fun _ _ _ => trivial) hinv

end

end Xylem
