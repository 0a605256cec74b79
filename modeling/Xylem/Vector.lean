import Xylem.Caches

/-!
# The listener vectors

What `region_rebuild_hook_dispatch` puts into a vector.  `slotOf` is the slot of
one module, if it has one, and `rebuildLoop_spec` says that the loop writes the
slots of the modules of a list over the start of the array, and resolves those
modules.  `prepareVec_spec` puts this together with the test of the counter.

The invariants `SubtreeLists` and `Stamps` of the caches close the module.
-/

namespace Xylem

open Xylem.Runtime

/-! ## The callback cache of an entry -/

/-- What a resolution stores for a name. -/
def World.symbolSlot (w : World) (handle : Handle) (name : CStr) : FnSlot :=
  match w.hookSymbol handle name with
  | some a => .fn a
  | none => .notFound

namespace ModEntry

variable {w : World} (me : ModEntry) {h h' : Nat}

@[simp] theorem fnCell_ensureFnCacheCap (n : Nat) :
    (me.ensureFnCacheCap n).fnCell h = me.fnCell h := by
  simp only [fnCell, ensureFnCacheCap, List.getD_eq_getElem?_getD]
  rcases Nat.lt_or_ge h me.fnCache.length with hlt | hge
  · rw [List.getElem?_append_left hlt]
  · rw [List.getElem?_append_right hge, List.getElem?_replicate, List.getElem?_eq_none hge]
    split <;> rfl

@[simp] theorem fnCell_markHookImplemented : (me.markHookImplemented h').fnCell h = me.fnCell h :=
  rfl

theorem fnCell_setFnCell (cell : FnSlot) (hlt : h' < me.fnCache.length) :
    (me.setFnCell h' cell).fnCell h = if h = h' then cell else me.fnCell h := by
  simp only [fnCell, setFnCell, List.getD_eq_getElem?_getD]
  split
  · next heq =>
    subst heq
    rw [List.getElem?_set_self hlt]
    rfl
  · next hne => rw [List.getElem?_set_ne (Ne.symm hne)]

@[simp] theorem hasHook_ensureFnCacheCap (n : Nat) :
    (me.ensureFnCacheCap n).hasHookImplemented h = me.hasHookImplemented h := rfl

@[simp] theorem hasHook_setFnCell (cell : FnSlot) :
    (me.setFnCell h' cell).hasHookImplemented h = me.hasHookImplemented h := rfl

theorem hasHook_ensureHookImplWords :
    (me.ensureHookImplWords h').hasHookImplemented h = me.hasHookImplemented h := by
  simp only [hasHookImplemented, ensureHookImplWords, List.getD_eq_getElem?_getD]
  rcases Nat.lt_or_ge (h / 64) me.hookImplBits.length with hlt | hge
  · rw [List.getElem?_append_left hlt]
  · rw [List.getElem?_append_right hge, List.getElem?_replicate, List.getElem?_eq_none hge]
    split <;> rfl

/-- A mark sets the bit of its hook and no other. -/
theorem hasHook_markHookImplemented :
    (me.markHookImplemented h').hasHookImplemented h
      = (decide (h = h') || me.hasHookImplemented h) := by
  have hold : (me.ensureHookImplWords h').hasHookImplemented h = me.hasHookImplemented h :=
    hasHook_ensureHookImplWords ..
  rw [← hold]
  have hlen : h' / 64 < (me.ensureHookImplWords h').hookImplBits.length := by
    simp only [ensureHookImplWords, List.length_append, List.length_replicate]
    omega
  simp only [markHookImplemented, hasHookImplemented]
  generalize (me.ensureHookImplWords h').hookImplBits = l at hlen
  simp only [List.getD_eq_getElem?_getD, List.getElem?_modify]
  by_cases hword : h' / 64 = h / 64
  · obtain ⟨b, hb⟩ : ∃ b, l[h / 64]? = some b :=
      ⟨_, List.getElem?_eq_getElem (hword ▸ hlen)⟩
    have hbit : (h' % 64 = h % 64) ↔ h = h' := by omega
    have hshift : ((1 <<< (h' % 64) : Nat) : BitVec 64).getLsbD (h % 64)
        = decide (h' % 64 = h % 64) := by
      have hlt : h % 64 < 64 := Nat.mod_lt _ (by decide)
      show (BitVec.ofNat 64 (1 <<< (h' % 64))).getLsbD (h % 64) = _
      rw [BitVec.getLsbD_ofNat, Nat.one_shiftLeft, Nat.testBit_two_pow]
      simp [hlt]
    rw [hb]
    simp only [hword, if_true, Option.map_eq_map, Option.map_some, Option.getD_some,
      BitVec.getLsbD_or, hshift]
    rw [decide_eq_decide.mpr hbit, Bool.or_comm]
  · have hne : h ≠ h' := fun heq => hword (by rw [heq])
    simp [hword, hne]

/-- The end of a resolution: the cell, and the bit if there is a callback. -/
theorem fnCell_storeFn (cb : Option Addr) (hlt : h' < me.fnCache.length) :
    (me.storeFn h' cb).fnCell h
      = if h = h' then (match cb with | some a => .fn a | none => .notFound) else me.fnCell h := by
  cases cb with
  | none => exact me.fnCell_setFnCell .notFound hlt
  | some a => exact me.fnCell_setFnCell (.fn a) hlt

theorem hasHook_storeFn (cb : Option Addr) :
    (me.storeFn h' cb).hasHookImplemented h
      = ((decide (h = h') && cb.isSome) || me.hasHookImplemented h) := by
  cases cb with
  | none => simp [storeFn]
  | some a => simp [storeFn, hasHook_markHookImplemented]

/-- A resolution writes a cell that is `NULL`, and no other. -/
theorem fnCacheResolve_spec (hookId : Nat) (name : CStr) :
    (∀ h, (me.fnCacheResolve w hookId name).1.fnCell h
        = if h = hookId ∧ me.fnCell hookId = .null then w.symbolSlot me.handle name
          else me.fnCell h)
      ∧ ∀ h, (me.fnCacheResolve w hookId name).1.hasHookImplemented h
        = ((decide (h = hookId ∧ me.fnCell hookId = .null)
            && (w.hookSymbol me.handle name).isSome) || me.hasHookImplemented h) := by
  unfold fnCacheResolve
  split
  · next a ha => simp [ha]
  · next hnf => simp [hnf]
  · next hnull =>
    dsimp only
    generalize hcap : (if hookId < me.fnCache.length then me.fnCache.length else hookId + 16) = cap
    have hlen : hookId < (me.ensureFnCacheCap cap).fnCache.length := by
      simp only [ensureFnCacheCap, List.length_append, List.length_replicate]
      split at hcap <;> omega
    constructor
    · intro h
      rw [fnCell_storeFn _ _ hlen, fnCell_ensureFnCacheCap]
      simp [hnull, World.symbolSlot]
    · intro h
      rw [hasHook_storeFn, hasHook_ensureFnCacheCap]
      simp [hnull]

/-- Whether the resolution of a dispatch writes the cell. -/
def Unresolved (hookId : Nat) : Prop :=
  me.hasHookImplemented hookId = false ∧ me.fnCell hookId = .null

instance (hookId : Nat) : Decidable (me.Unresolved hookId) := by
  unfold Unresolved; infer_instance

theorem resolved_of_not {hookId : Nat} (hun : ¬ me.Unresolved hookId) (name : CStr) :
    me.resolved w hookId name = me := by
  unfold resolved
  split
  · rfl
  · next hbit =>
    unfold fnCacheResolve
    split
    · rfl
    · rfl
    · next hnull => exact absurd ⟨by simpa using hbit, hnull⟩ hun

theorem resolved_spec (hookId : Nat) (name : CStr) :
    (∀ h, (me.resolved w hookId name).fnCell h
        = if h = hookId ∧ me.Unresolved hookId then w.symbolSlot me.handle name else me.fnCell h)
      ∧ ∀ h, (me.resolved w hookId name).hasHookImplemented h
        = ((decide (h = hookId ∧ me.Unresolved hookId)
            && (w.hookSymbol me.handle name).isSome) || me.hasHookImplemented h) := by
  by_cases hun : me.Unresolved hookId
  · have hres : me.resolved w hookId name = (me.fnCacheResolve w hookId name).1 := by
      simp [resolved, hun.1]
    rw [hres]
    obtain ⟨hcell, hbit⟩ := me.fnCacheResolve_spec (w := w) hookId name
    refine ⟨fun h => ?_, fun h => ?_⟩
    · rw [hcell]
      simp [hun, hun.2]
    · rw [hbit]
      simp [hun, hun.2]
  · rw [me.resolved_of_not hun]
    simp [hun]

theorem not_unresolved_resolved (hookId : Nat) (name : CStr) :
    ¬ (me.resolved w hookId name).Unresolved hookId := by
  intro hun
  have hcell := (me.resolved_spec (w := w) hookId name).1 hookId
  by_cases hme : me.Unresolved hookId
  · rw [if_pos ⟨rfl, hme⟩, hun.2] at hcell
    unfold World.symbolSlot at hcell
    split at hcell <;> cases hcell
  · rw [me.resolved_of_not hme] at hun
    exact hme hun

/-- A second resolution changes nothing. -/
theorem resolved_resolved (hookId : Nat) (name : CStr) :
    (me.resolved w hookId name).resolved w hookId name = me.resolved w hookId name :=
  (me.resolved w hookId name).resolved_of_not (me.not_unresolved_resolved hookId name) name

end ModEntry

/-! ## The slots of a list of modules -/

namespace Runtime

variable {w : World} {rt rt' : Runtime} {anc : List RegionRef} {hookId : Nat} {name : CStr}

/-- Whether a rebuild asks for the callback of an entry at all. -/
def consulted (rt : Runtime) (anc : List RegionRef) (me : ModEntry) : Bool :=
  me.ctx.isSome && !rt.moduleDeniedByAncestors anc me.loadPath

/-- The slot of a module in a vector, if it has one. -/
def slotOf (w : World) (rt : Runtime) (anc : List RegionRef) (hookId : Nat) (name : CStr)
    (e : EntryRef) : Option DispatchSlot :=
  (rt.mods e).bind fun me =>
    if rt.consulted anc me ∧ (me.resolved w hookId name).hasHookImplemented hookId then
      some ⟨e, (me.resolved w hookId name).fnCell hookId⟩
    else none

/-- The slots of the modules of a list. -/
def listing (w : World) (rt : Runtime) (anc : List RegionRef) (hookId : Nat) (name : CStr)
    (l : List EntryRef) : List DispatchSlot :=
  l.filterMap (rt.slotOf w anc hookId name)

/-- A module entry after a rebuild that met it. -/
def resolvedEntry (w : World) (rt : Runtime) (anc : List RegionRef) (hookId : Nat) (name : CStr)
    (e : EntryRef) : Option ModEntry :=
  (rt.mods e).map fun me => if rt.consulted anc me then me.resolved w hookId name else me

/-- The two views do not tell a module from the same module resolved. -/
theorem slotOf_congr {e : EntryRef} (hdenies : rt'.deniesOf = rt.deniesOf)
    (hmods : rt'.mods e = rt.mods e ∨ rt'.mods e = rt.resolvedEntry w anc hookId name e) :
    rt'.slotOf w anc hookId name e = rt.slotOf w anc hookId name e
      ∧ rt'.resolvedEntry w anc hookId name e = rt.resolvedEntry w anc hookId name e := by
  have hden : ∀ p, rt'.moduleDeniedByAncestors anc p = rt.moduleDeniedByAncestors anc p := by
    intro p
    have hone : ∀ r, (rt'.regions r).deniedModules = (rt.regions r).deniedModules :=
      congrFun hdenies
    simp only [moduleDeniedByAncestors, moduleIsDenied, hone]
  have hcons : ∀ me, rt'.consulted anc me = rt.consulted anc me := by
    intro me
    simp only [consulted, hden]
  rcases hmods with h | h
  · simp only [slotOf, resolvedEntry, h, hcons, and_self]
  · cases hme : rt.mods e with
    | none =>
      simp only [resolvedEntry, hme, Option.map_none] at h
      simp [slotOf, resolvedEntry, h, hme]
    | some me =>
      simp only [resolvedEntry, hme, Option.map_some] at h
      by_cases hc : rt.consulted anc me = true
      · rw [if_pos hc] at h
        obtain ⟨hctx, hpath, -⟩ := ModEntry.eq_of_core (me.core_resolved (w := w) hookId name)
        have hc' : rt.consulted anc (me.resolved w hookId name) = true := by
          rw [← hc]
          simp only [consulted, hctx, hpath]
        simp [slotOf, resolvedEntry, h, hme, hcons, hc, hc', me.resolved_resolved]
      · rw [if_neg hc] at h
        simp only [slotOf, resolvedEntry, h, hme, hcons, and_self]

/-! ## The rebuild loop -/

/-- What a rebuild makes of a vector and of the modules of a list. -/
structure Rebuilt (w : World) (anc : List RegionRef) (hookId : Nat) (name : CStr)
    (es : List EntryRef) (rt : Runtime) (v : HookDispatchCache) (rt' : Runtime)
    (v' : HookDispatchCache) : Prop where
  live : ∀ e ∈ es, rt.mods e ≠ none
  regions : rt'.regions = rt.regions
  mods : ∀ e, rt'.mods e
    = if e ∈ es then rt.resolvedEntry w anc hookId name e else rt.mods e
  nblocks : rt.nblocks ≤ rt'.nblocks
  cells : v'.cells = v.cells.take v.count ++ rt.listing w anc hookId name es
    ++ v.cells.drop (v.count + (rt.listing w anc hookId name es).length)
  count : v'.count = v.count + (rt.listing w anc hookId name es).length
  slots : v'.count ≤ v.cap → v'.slots = v.slots
  moved : v.cap < v'.count → rt.nblocks ≤ v'.slots ∧ v'.slots < rt'.nblocks
  regionGen : v'.regionGen = v.regionGen

section cons

variable {e : EntryRef} {es : List EntryRef} {rt1 : Runtime} {v v1 v' : HookDispatchCache}

/-- One module of the list has been met. -/
structure Met (w : World) (anc : List RegionRef) (hookId : Nat) (name : CStr) (e : EntryRef)
    (rt rt1 : Runtime) : Prop where
  live : rt.mods e ≠ none
  regions : rt1.regions = rt.regions
  mods : ∀ x, rt1.mods x = if x = e then rt.resolvedEntry w anc hookId name e else rt.mods x
  nblocks : rt.nblocks ≤ rt1.nblocks

theorem Met.congr (h : Met w anc hookId name e rt rt1) (x : EntryRef) :
    rt1.slotOf w anc hookId name x = rt.slotOf w anc hookId name x
      ∧ rt1.resolvedEntry w anc hookId name x = rt.resolvedEntry w anc hookId name x := by
  refine slotOf_congr (funext fun r => by rw [deniesOf, h.regions]; rfl) ?_
  rw [h.mods x]
  split
  · next hx => exact Or.inr (hx ▸ rfl)
  · exact Or.inl rfl

theorem Met.listing (h : Met w anc hookId name e rt rt1) (l : List EntryRef) :
    rt1.listing w anc hookId name l = rt.listing w anc hookId name l :=
  List.filterMap_congr fun x _ => (h.congr x).1

theorem Met.live_iff (h : Met w anc hookId name e rt rt1) (x : EntryRef) :
    rt1.mods x ≠ none ↔ rt.mods x ≠ none := by
  rw [h.mods x]
  split
  · next hx => subst hx; simp [resolvedEntry]
  · rfl

theorem Met.mods_rest (hm : Met w anc hookId name e rt rt1)
    (h : ∀ x, rt'.mods x = if x ∈ es then rt1.resolvedEntry w anc hookId name x else rt1.mods x)
    (x : EntryRef) :
    rt'.mods x = if x ∈ e :: es then rt.resolvedEntry w anc hookId name x else rt.mods x := by
  rw [h x, (hm.congr x).2, hm.mods x]
  by_cases hx : x = e
  · subst hx
    simp
  · simp [hx]

/-- A module without a slot. -/
theorem Rebuilt.cons_none (hm : Met w anc hookId name e rt rt1)
    (hslot : rt.slotOf w anc hookId name e = none)
    (h : Rebuilt w anc hookId name es rt1 v rt' v') :
    Rebuilt w anc hookId name (e :: es) rt v rt' v' := by
  have hlist : rt.listing w anc hookId name (e :: es) = rt1.listing w anc hookId name es := by
    rw [hm.listing, Runtime.listing, List.filterMap_cons_none hslot]
    rfl
  exact
    { live := List.forall_mem_cons.mpr ⟨hm.live, fun x hx => (hm.live_iff x).mp (h.live x hx)⟩
      regions := h.regions.trans hm.regions
      mods := hm.mods_rest h.mods
      nblocks := Nat.le_trans hm.nblocks h.nblocks
      cells := by rw [hlist]; exact h.cells
      count := by rw [hlist]; exact h.count
      slots := h.slots
      moved := fun hlt => ⟨Nat.le_trans hm.nblocks (h.moved hlt).1, (h.moved hlt).2⟩
      regionGen := h.regionGen }

/-- A module with a slot, which goes to the next cell of the array. -/
theorem Rebuilt.cons_some {slot : DispatchSlot} (hm : Met w anc hookId name e rt rt1)
    (hslot : rt.slotOf w anc hookId name e = some slot)
    (hcount : v.count ≤ v.cells.length) (hcap : v.count ≤ v.cap)
    (hv1 : v1.count = v.count + 1) (hgen : v1.regionGen = v.regionGen)
    (hcells : v1.cells
      = if v.count < v.cells.length then v.cells.set v.count slot else v.cells ++ [slot])
    (hroom : v.count < v.cap → v1.cap = v.cap ∧ v1.slots = v.slots)
    (hfull : v.cap ≤ v.count → v.count < v1.cap ∧ rt.nblocks ≤ v1.slots ∧ v1.slots < rt1.nblocks)
    (h : Rebuilt w anc hookId name es rt1 v1 rt' v') :
    Rebuilt w anc hookId name (e :: es) rt v rt' v' := by
  have hlist : rt.listing w anc hookId name (e :: es)
      = slot :: rt1.listing w anc hookId name es := by
    rw [hm.listing, Runtime.listing, List.filterMap_cons_some hslot]
    rfl
  have htake : v1.cells.take (v.count + 1) = v.cells.take v.count ++ [slot] := by
    rw [hcells]
    split
    · next hlt =>
      rw [List.take_add_one, List.take_set_of_le (Nat.le_refl _), List.getElem?_set_self hlt]
      rfl
    · next hge =>
      have heq : v.count = v.cells.length := by omega
      rw [heq, List.take_of_length_le (by simp), List.take_length]
  have hdrop : ∀ k, v1.cells.drop (v.count + 1 + k) = v.cells.drop (v.count + 1 + k) := by
    intro k
    rw [hcells]
    split
    · next hlt => exact List.drop_set_of_lt (by omega)
    · next hge =>
      rw [List.drop_eq_nil_of_le (by simp; omega), List.drop_eq_nil_of_le (by omega)]
  have hcount' := h.count
  rw [hv1] at hcount'
  refine
    { live := List.forall_mem_cons.mpr ⟨hm.live, fun x hx => (hm.live_iff x).mp (h.live x hx)⟩
      regions := h.regions.trans hm.regions
      mods := hm.mods_rest h.mods
      nblocks := Nat.le_trans hm.nblocks h.nblocks
      cells := ?_, count := ?_, slots := fun hle => ?_, moved := fun hlt => ?_
      regionGen := h.regionGen.trans hgen }
  · have hc := h.cells
    rw [hv1, htake, hdrop] at hc
    rw [hlist, hc]
    simp [Nat.add_assoc, Nat.add_comm 1]
  · rw [hlist, hcount', List.length_cons]
    omega
  · obtain ⟨hcap1, hslots1⟩ := hroom (by omega)
    exact (h.slots (by omega)).trans hslots1
  · rcases Nat.lt_or_ge v.count v.cap with hlt' | hge
    · obtain ⟨hcap1, hslots1⟩ := hroom hlt'
      have hmoved := h.moved (by omega)
      exact ⟨Nat.le_trans hm.nblocks hmoved.1, hmoved.2⟩
    · obtain ⟨-, hlow, hhigh⟩ := hfull hge
      rcases Nat.lt_or_ge v1.cap v'.count with hgrown | hfits
      · have hmoved := h.moved hgrown
        exact ⟨Nat.le_trans hm.nblocks hmoved.1, hmoved.2⟩
      · rw [h.slots hfits]
        exact ⟨hlow, Nat.lt_of_lt_of_le hhigh h.nblocks⟩

end cons

/-- A push takes a block at most. -/
theorem Met.pushSlot {e : EntryRef} {rt1 : Runtime} (hm : Met w anc hookId name e rt rt1)
    (v : HookDispatchCache) (slot : DispatchSlot) :
    Met w anc hookId name e rt (rt1.pushSlot v slot).1 := by
  rcases pushSlot_spec rt1 v slot with h | h
  · rw [h]
    exact hm
  · rw [h]
    exact ⟨hm.live, hm.regions, hm.mods, Nat.le_succ_of_le hm.nblocks⟩

theorem pushSlot_room (rt : Runtime) (v : HookDispatchCache) (slot : DispatchSlot)
    (hcount : v.count ≤ v.cells.length) (hcap : v.count ≤ v.cap) :
    (rt.pushSlot v slot).2.count ≤ (rt.pushSlot v slot).2.cells.length
      ∧ (rt.pushSlot v slot).2.count ≤ (rt.pushSlot v slot).2.cap := by
  simp only [Runtime.pushSlot]
  constructor
  · split
    · rw [List.length_set]
      omega
    · rw [List.length_append, List.length_singleton]
      omega
  · split
    · split <;> omega
    · omega

/-- The loop of a rebuild. -/
theorem rebuildLoop_spec {es : List EntryRef} {v v' : HookDispatchCache}
    (h : rebuildLoop w anc hookId name es rt v = some (rt', v'))
    (hcount : v.count ≤ v.cells.length) (hcap : v.count ≤ v.cap) :
    Rebuilt w anc hookId name es rt v rt' v' := by
  induction es generalizing rt v with
  | nil =>
    cases h
    exact
      { live := fun _ he => (List.not_mem_nil he).elim, regions := rfl
        mods := fun _ => by simp, nblocks := le_rfl
        cells := by simp [listing]
        count := rfl, slots := fun _ => rfl, moved := fun hlt => by omega, regionGen := rfl }
  | cons e es ih =>
    simp only [rebuildLoop] at h
    split at h
    · cases h
    · next me hme =>
      have hskip : rt.consulted anc me = false → Met w anc hookId name e rt rt
          ∧ rt.slotOf w anc hookId name e = none := by
        intro hc
        refine ⟨⟨by simp [hme], rfl, fun x => ?_, le_rfl⟩, ?_⟩
        · split
          · next hx => subst hx; simp [resolvedEntry, hme, hc]
          · rfl
        · simp [slotOf, hme, hc]
      split at h
      · next hctx =>
        obtain ⟨hm, hslot⟩ := hskip (by
          rw [Option.isNone_iff_eq_none] at hctx
          simp [consulted, hctx])
        exact .cons_none hm hslot (ih h hcount hcap)
      · next hctx =>
        split at h
        · next hden =>
          obtain ⟨hm, hslot⟩ := hskip (by simp [consulted, hden])
          exact .cons_none hm hslot (ih h hcount hcap)
        · next hden =>
          have hcons : rt.consulted anc me = true := by
            simp only [Bool.not_eq_true] at hden
            cases hc : me.ctx with
            | none => simp [hc] at hctx
            | some c => simp [consulted, hc, hden]
          have hm : Met w anc hookId name e rt
              (rt.modifyMod e fun _ => me.resolved w hookId name) := by
            refine ⟨by simp [hme], rfl, fun x => ?_, le_rfl⟩
            by_cases hx : x = e
            · subst hx
              simp [modifyMod, resolvedEntry, hme, hcons]
            · simp [modifyMod, hx]
          split at h
          · next hbit =>
            have hslot : rt.slotOf w anc hookId name e
                = some ⟨e, (me.resolved w hookId name).fnCell hookId⟩ := by
              simp [slotOf, hme, hcons, hbit]
            generalize hrt1 : rt.modifyMod e (fun _ => me.resolved w hookId name) = rt1 at h hm
            have hroom := pushSlot_room rt1 v ⟨e, (me.resolved w hookId name).fnCell hookId⟩
              hcount hcap
            have hrest := ih h hroom.1 hroom.2
            refine .cons_some (hm.pushSlot v _) hslot hcount hcap ?_ ?_ ?_ ?_ ?_ hrest
            · rfl
            · rfl
            · rfl
            · intro hlt
              simp only [pushSlot, if_neg (Nat.not_le.mpr hlt), and_self]
            · intro hle
              have hnb := hm.nblocks
              simp only [pushSlot, if_pos hle]
              refine ⟨?_, hnb, Nat.lt_succ_self _⟩
              split <;> omega
          · next hbit =>
            have hslot : rt.slotOf w anc hookId name e = none := by
              simp [slotOf, hme, hbit]
            exact .cons_none hm hslot (ih h hcount hcap)

/-! ## Bringing a vector up to date -/

/-- The vector of a hook is up to date. -/
def Warm (rt : Runtime) (r : RegionRef) (hookId : Nat) : Prop :=
  (rt.hookVec r hookId).regionGen = (rt.caches r).gen

instance (rt : Runtime) (r : RegionRef) (hookId : Nat) : Decidable (rt.Warm r hookId) := by
  unfold Warm; infer_instance

/-- The subtree list that a dispatch from `r` walks. -/
def walked (rt : Runtime) (r : RegionRef) : List EntryRef :=
  (rt.refreshSubtreeMods r).caches r |>.subtreeMods

/-- What bringing a vector up to date does. -/
structure Prepared (w : World) (rt : Runtime) (r : RegionRef) (hookId : Nat) (name : CStr)
    (anc : List RegionRef) (rt' : Runtime) : Prop where
  regions : ∀ x, x ≠ r → rt'.regions x = rt.regions x
  subtreeMods : (rt'.caches r).subtreeMods = rt.walked r
  dirty : (rt'.caches r).dirty = false
  gen : (rt'.caches r).gen = (rt.caches r).gen
  genBumps : rt'.genBumps = rt.genBumps
  vec_ne : ∀ x h, x ≠ r ∨ h ≠ hookId → rt'.hookVec x h = rt.hookVec x h
  warm : rt.Warm r hookId → rt'.hookVec r hookId = rt.hookVec r hookId ∧ rt'.mods = rt.mods
  live : ¬ rt.Warm r hookId → ∀ e ∈ rt.walked r, rt.mods e ≠ none
  mods : ¬ rt.Warm r hookId → ∀ e, rt'.mods e
    = if e ∈ rt.walked r then rt.resolvedEntry w anc hookId name e else rt.mods e
  cells : ¬ rt.Warm r hookId → (rt'.hookVec r hookId).cells
    = rt.listing w anc hookId name (rt.walked r)
      ++ (rt.hookVec r hookId).cells.drop (rt.listing w anc hookId name (rt.walked r)).length
  count : ¬ rt.Warm r hookId → (rt'.hookVec r hookId).count
    = (rt.listing w anc hookId name (rt.walked r)).length
  slots : ¬ rt.Warm r hookId → (rt.listing w anc hookId name (rt.walked r)).length
    ≤ (rt.hookVec r hookId).cap → (rt'.hookVec r hookId).slots = (rt.hookVec r hookId).slots
  stamped : rt'.Warm r hookId

theorem hookVec_eq (rt : Runtime) (r : RegionRef) (hookId : Nat) :
    rt.hookVec r hookId = (rt.caches r).vecs.getD hookId .empty := rfl

theorem refreshSubtreeMods_spec (rt : Runtime) (r : RegionRef) :
    (∀ x, x ≠ r → (rt.refreshSubtreeMods r).regions x = rt.regions x)
      ∧ (rt.refreshSubtreeMods r).caches r
        = { rt.caches r with subtreeMods := rt.walked r, dirty := false }
      ∧ (rt.refreshSubtreeMods r).mods = rt.mods
      ∧ (rt.refreshSubtreeMods r).deniesOf = rt.deniesOf
      ∧ (rt.refreshSubtreeMods r).genBumps = rt.genBumps := by
  unfold walked refreshSubtreeMods
  split
  · refine ⟨fun x hx => ?_, ?_, rfl, ?_, rfl⟩
    · rw [regionRebuildSubtreeMods, modifyRegion_apply, if_neg hx]
    · simp only [caches, regionRebuildSubtreeMods, modifyRegion_apply, if_true]
    · exact funext (modifyRegion_proj rt RegionEntry.deniedModules (by intro _; rfl) r)
  · next hdirty =>
    refine ⟨fun _ _ => rfl, ?_, rfl, rfl, rfl⟩
    simp only [caches, RegionCaches.mk.injEq, true_and, and_true]
    simpa using hdirty

theorem regionEnsureHookDispatchCap_spec (rt : Runtime) (r : RegionRef) (hookId : Nat) :
    (∀ x, x ≠ r → (rt.regionEnsureHookDispatchCap r hookId).regions x = rt.regions x)
      ∧ (∃ vecs, (rt.regionEnsureHookDispatchCap r hookId).caches r = { rt.caches r with vecs := vecs }
        ∧ hookId < vecs.length)
      ∧ (∀ x h, (rt.regionEnsureHookDispatchCap r hookId).hookVec x h = rt.hookVec x h)
      ∧ (rt.regionEnsureHookDispatchCap r hookId).mods = rt.mods
      ∧ (rt.regionEnsureHookDispatchCap r hookId).deniesOf = rt.deniesOf
      ∧ (rt.regionEnsureHookDispatchCap r hookId).genBumps = rt.genBumps := by
  unfold regionEnsureHookDispatchCap
  split
  · next hlt => exact ⟨fun _ _ => rfl, ⟨_, rfl, hlt⟩, fun _ _ => rfl, rfl, rfl, rfl⟩
  · refine ⟨fun x hx => ?_, ?_, fun x h => ?_, rfl, ?_, rfl⟩
    · rw [modifyRegion_apply, if_neg hx]
    · refine ⟨(rt.regions r).hookDispatch
        ++ List.replicate (hookId + 16 - (rt.regions r).hookDispatch.length) .empty, ?_, ?_⟩
      · simp only [caches, modifyRegion_apply, if_true]
      · rw [List.length_append, List.length_replicate]
        omega
    · simp only [hookVec, modifyRegion_apply]
      split
      · next hx =>
        subst hx
        simp only [List.getD_eq_getElem?_getD]
        rcases Nat.lt_or_ge h (rt.regions x).hookDispatch.length with hlt | hge
        · rw [List.getElem?_append_left hlt]
        · rw [List.getElem?_append_right hge, List.getElem?_replicate, List.getElem?_eq_none hge]
          split <;> rfl
      · rfl
    · exact funext (modifyRegion_proj rt RegionEntry.deniedModules (by intro _; rfl) r)

theorem listing_congr (hdenies : rt'.deniesOf = rt.deniesOf) (hmods : rt'.mods = rt.mods)
    (anc : List RegionRef) (hookId : Nat) (name : CStr) (l : List EntryRef) :
    rt'.listing w anc hookId name l = rt.listing w anc hookId name l :=
  List.filterMap_congr fun e _ => (slotOf_congr hdenies (Or.inl (by rw [hmods]))).1

/-- The write of a new vector. -/
def storeVec (rt : Runtime) (r : RegionRef) (hookId : Nat) (v : HookDispatchCache) : Runtime :=
  rt.modifyRegion r fun e =>
    { e with hookDispatch := e.hookDispatch.set hookId { v with regionGen := e.dispatchGen } }

theorem storeVec_spec {r : RegionRef} (v : HookDispatchCache)
    (hlen : hookId < (rt.caches r).vecs.length) :
    (∀ x, x ≠ r → (rt.storeVec r hookId v).regions x = rt.regions x)
      ∧ (∃ vecs, (rt.storeVec r hookId v).caches r = { rt.caches r with vecs := vecs })
      ∧ (rt.storeVec r hookId v).hookVec r hookId = { v with regionGen := (rt.caches r).gen }
      ∧ ∀ x k, x ≠ r ∨ k ≠ hookId → (rt.storeVec r hookId v).hookVec x k = rt.hookVec x k := by
  refine ⟨fun x hx => ?_, ⟨((rt.regions r).hookDispatch.set hookId
    { v with regionGen := (rt.regions r).dispatchGen }), ?_⟩, ?_, fun x k hne => ?_⟩
  · rw [storeVec, modifyRegion_apply, if_neg hx]
  · simp only [caches, storeVec, modifyRegion_apply, if_true]
  · have hset := List.getElem?_set_self (a := { v with regionGen := (rt.caches r).gen }) hlen
    simp only [hookVec, storeVec, modifyRegion_apply, if_true, List.getD_eq_getElem?_getD]
    exact congrArg (fun o => o.getD HookDispatchCache.empty) hset
  · simp only [hookVec, storeVec, modifyRegion_apply]
    split
    · next hx =>
      have hk : hookId ≠ k := fun hk => hne.elim (fun h => h hx) (fun h => h hk.symm)
      simp only [List.getD_eq_getElem?_getD, List.getElem?_set_ne hk]
    · rfl

theorem rebuildLoop_genBumps {es : List EntryRef} {v v' : HookDispatchCache}
    (h : rebuildLoop w anc hookId name es rt v = some (rt', v')) : rt'.genBumps = rt.genBumps := by
  obtain ⟨mods, nblocks, rfl⟩ := (rebuildLoop_onlyCaches h).rest
  rfl

theorem prepareVec_spec {r : RegionRef} (h : rt.prepareVec w r hookId name anc = some rt') :
    Prepared w rt r hookId name anc rt' := by
  unfold prepareVec at h
  obtain ⟨hreg1, hc1, hm1, hd1, hg1⟩ := rt.refreshSubtreeMods_spec r
  have hv1 : ∀ x k, (rt.refreshSubtreeMods r).hookVec x k = rt.hookVec x k := by
    intro x k
    by_cases hx : x = r
    · subst hx
      rw [hookVec_eq, hc1]
      rfl
    · rw [hookVec, hreg1 x hx]
      rfl
  generalize rt.refreshSubtreeMods r = rt1 at h hreg1 hc1 hm1 hd1 hg1 hv1
  obtain ⟨hreg2, ⟨vecs, hc2, hlen⟩, hv2, hm2, hd2, hg2⟩ :=
    rt1.regionEnsureHookDispatchCap_spec r hookId
  generalize rt1.regionEnsureHookDispatchCap r hookId = rt2 at h hreg2 hc2 hv2 hm2 hd2 hg2
  have hvec : ∀ x k, rt2.hookVec x k = rt.hookVec x k := fun x k => (hv2 x k).trans (hv1 x k)
  have hreg : ∀ x, x ≠ r → rt2.regions x = rt.regions x :=
    fun x hx => (hreg2 x hx).trans (hreg1 x hx)
  rw [hc1] at hc2
  have hgen : (rt2.regions r).dispatchGen = (rt.caches r).gen := congrArg RegionCaches.gen hc2
  have hlist : (rt2.regions r).subtreeMods = rt.walked r := congrArg RegionCaches.subtreeMods hc2
  have hcong : ∀ l, rt2.listing w anc hookId name l = rt.listing w anc hookId name l :=
    listing_congr (hd2.trans hd1) (hm2.trans hm1) anc hookId name
  unfold regionRebuildHookDispatch at h
  rw [hvec, hgen] at h
  split at h
  · next hwarm =>
    cases h
    exact
      { regions := hreg, subtreeMods := hlist
        dirty := congrArg RegionCaches.dirty hc2, gen := hgen, genBumps := hg2.trans hg1
        vec_ne := fun x k _ => hvec x k
        warm := fun _ => ⟨hvec r hookId, hm2.trans hm1⟩
        live := fun hcold => absurd hwarm hcold, mods := fun hcold => absurd hwarm hcold
        cells := fun hcold => absurd hwarm hcold, count := fun hcold => absurd hwarm hcold
        slots := fun hcold => absurd hwarm hcold
        stamped := by rw [Warm, hvec]; exact hwarm.trans hgen.symm }
  · next hcold =>
    obtain ⟨⟨rt3, v⟩, hloop, rfl⟩ := Option.map_eq_some_iff.mp h
    have hb := rebuildLoop_spec hloop (Nat.zero_le _) (Nat.zero_le _)
    rw [hlist] at hb
    have hc3 : rt3.caches r = rt2.caches r := by simp only [caches, hb.regions]
    have hlen3 : hookId < (rt3.caches r).vecs.length := by
      rw [hc3, hc2]
      exact hlen
    obtain ⟨hreg4, ⟨vecs', hc4⟩, hself, hother⟩ := storeVec_spec v hlen3
    have hvec3 : ∀ x k, rt3.hookVec x k = rt.hookVec x k := by
      intro x k
      rw [← hvec, hookVec, hb.regions]
      rfl
    have hg3 : rt3.genBumps = rt2.genBumps := rebuildLoop_genBumps hloop
    rw [hc3, hc2] at hc4
    rw [hc3, hc2] at hself
    have hmods : ∀ e, rt3.mods e
        = if e ∈ rt.walked r then rt.resolvedEntry w anc hookId name e else rt.mods e := by
      intro e
      have hres : rt2.resolvedEntry w anc hookId name e = rt.resolvedEntry w anc hookId name e :=
        (slotOf_congr (hd2.trans hd1) (Or.inl (congrFun (hm2.trans hm1) e))).2
      rw [hb.mods e, hm2, hm1, hres]
    show Prepared w rt r hookId name anc (rt3.storeVec r hookId v)
    refine
      { regions := fun x hx => ?_, subtreeMods := by rw [hc4]
        dirty := by rw [hc4], gen := by rw [hc4]
        genBumps := hg3.trans (hg2.trans hg1)
        vec_ne := fun x k hne => (hother x k hne).trans (hvec3 x k)
        warm := fun hwarm => absurd hwarm hcold
        live := fun _ e he => ?_, mods := fun _ => hmods, cells := fun _ => ?_
        count := fun _ => ?_, slots := fun _ hle => ?_, stamped := ?_ }
    · rw [hreg4 x hx, hb.regions]
      exact hreg x hx
    · have hlive := hb.live e he
      rwa [hm2, hm1] at hlive
    · have hcells := hb.cells
      rw [hcong] at hcells
      rw [hself, hcells]
      simp
    · have hcount := hb.count
      rw [hcong] at hcount
      rw [hself, hcount]
      exact Nat.zero_add _
    · have hcount := hb.count
      rw [hcong, Nat.zero_add] at hcount
      rw [hself]
      exact hb.slots (hcount ▸ hle)
    · rw [Warm, hself, hc4]

/-! ## The invariants of the caches -/

/-- A subtree list that is not dirty is the list of the subtree. -/
def SubtreeLists (rt : Runtime) : Prop :=
  ∀ r < rt.nregions, (rt.caches r).dirty = false →
    (rt.caches r).subtreeMods = (rt.subtree r).flatMap rt.modsOf

/-- The counters have not wrapped, and no vector is stamped ahead of its
counter. -/
structure Stamps (rt : Runtime) : Prop where
  gen_pos : ∀ r < rt.nregions, 0 < (rt.caches r).gen
  gen_le : ∀ r < rt.nregions, (rt.caches r).gen ≤ 1 + rt.genBumps
  stamp_le : ∀ r < rt.nregions, ∀ h, (rt.hookVec r h).regionGen ≤ (rt.caches r).gen

/-- One more step cannot make a counter wrap. -/
def BumpsLeft (rt : Runtime) : Prop := rt.genBumps + 3 < 2 ^ 64

/-- What a dispatch walks is the list of the subtree. -/
theorem walked_eq (ht : rt.tree.Wf) (hl : rt.SubtreeLists) {r : Nat} (hr : r < rt.nregions) :
    rt.walked r = (rt.subtree r).flatMap rt.modsOf := by
  unfold walked refreshSubtreeMods
  split
  · rw [← collectSubtreeMods_eq ht hr]
    simp only [caches, regionRebuildSubtreeMods, modifyRegion_apply, if_true]
  · next hdirty => exact hl r hr (by simpa [caches] using hdirty)

theorem subtreeLists_bootstrap (rt : Runtime) : rt.bootstrap.SubtreeLists := by
  intro r _ _
  have hnil : ∀ x ∈ rt.bootstrap.subtree r, rt.bootstrap.modsOf x = [] := fun _ _ => rfl
  rw [List.flatMap_eq_nil_iff.mpr hnil]
  rfl

theorem hookVec_of_vecs {r r' : RegionRef} (h : (rt'.caches r').vecs = (rt.caches r).vecs)
    (hookId : Nat) : rt'.hookVec r' hookId = rt.hookVec r hookId := by
  rw [hookVec_eq, hookVec_eq, h]

theorem hookVec_of_nil {r : RegionRef} (h : (rt.caches r).vecs = []) (hookId : Nat) :
    rt.hookVec r hookId = .empty := by
  rw [hookVec_eq, h]
  rfl

theorem stamps_bootstrap (rt : Runtime) : rt.bootstrap.Stamps where
  gen_pos _ _ := Nat.one_pos
  gen_le _ _ := Nat.le_add_right 1 _
  stamp_le r _ h := by
    rw [hookVec_of_nil rfl]
    exact Nat.zero_le _

/-- A bump moves the counter past every stamp. -/
theorem Bumped.gen_eq {r : RegionRef} (h : Bumped rt rt' r) (hs : rt.Stamps)
    (hr : r < rt.nregions) (hb : rt'.genBumps + 1 < 2 ^ 64) :
    (rt.caches r).gen < (rt'.caches r).gen ∧ (rt'.caches r).gen ≤ 1 + rt'.genBumps := by
  obtain ⟨k, hk, hle, hgen⟩ := h.gen
  have hold := hs.gen_le r hr
  rw [hgen, genBump_iterate (by omega)]
  omega

theorem Denied.gen_eq {r : RegionRef} (h : Denied rt rt' r) (hs : rt.Stamps)
    (hr : r < rt.nregions) (hb : rt'.genBumps + 1 < 2 ^ 64) :
    (rt.caches r).gen < (rt'.caches r).gen ∧ (rt'.caches r).gen ≤ 1 + rt'.genBumps := by
  have hold := hs.gen_le r hr
  have hle := h.genBumps
  have hgen : (rt'.caches r).gen = genBump (rt.caches r).gen := by rw [h.caches]
  rw [hgen, genBump_of_lt (by omega)]
  omega

/-- A counter does not go back, and stays within the number of bumps. -/
theorem Touched.gen_le {r : RegionRef} (h : Touched rt rt' r) (hs : rt.Stamps)
    (hr : r < rt.nregions) (hmono : rt.genBumps ≤ rt'.genBumps) (hb : rt'.genBumps + 1 < 2 ^ 64) :
    (rt.caches r).gen ≤ (rt'.caches r).gen ∧ (rt'.caches r).gen ≤ 1 + rt'.genBumps := by
  cases h with
  | kept h =>
    have hle := hs.gen_le r hr
    rw [h.caches]
    exact ⟨le_rfl, by omega⟩
  | bumped h =>
    have hgen := h.gen_eq hs hr hb
    exact ⟨Nat.le_of_lt hgen.1, hgen.2⟩
  | denied h =>
    have hgen := h.gen_eq hs hr hb
    exact ⟨Nat.le_of_lt hgen.1, hgen.2⟩

/-- No vector is written. -/
theorem Touched.hookVec {r : RegionRef} (h : Touched rt rt' r) (hookId : Nat) :
    rt'.hookVec r hookId = rt.hookVec r hookId := by
  cases h with
  | kept h => exact hookVec_of_vecs (by rw [h.caches]) hookId
  | bumped h => exact hookVec_of_vecs h.vecs hookId
  | denied h => exact hookVec_of_vecs (by rw [h.caches]) hookId

/-- A vector that is up to date after a step was so before, and nothing that it
depends on has changed. -/
theorem Touched.warm {r : RegionRef} (h : Touched rt rt' r) (hs : rt.Stamps) (hr : r < rt.nregions)
    (hb : rt'.genBumps + 1 < 2 ^ 64) {hookId : Nat} (hw : rt'.Warm r hookId) :
    Kept rt rt' r ∧ rt.Warm r hookId ∧ rt'.hookVec r hookId = rt.hookVec r hookId := by
  have hle := hs.stamp_le r hr hookId
  cases h with
  | kept h =>
    have hv : rt'.hookVec r hookId = rt.hookVec r hookId := hookVec_of_vecs (by rw [h.caches]) hookId
    refine ⟨h, ?_, hv⟩
    rw [Warm, hv, h.caches] at hw
    exact hw
  | bumped h =>
    have hlt := (h.gen_eq hs hr hb).1
    rw [Warm, hookVec_of_vecs h.vecs hookId] at hw
    omega
  | denied h =>
    have hlt := (h.gen_eq hs hr hb).1
    have hv : rt'.hookVec r hookId = rt.hookVec r hookId :=
      hookVec_of_vecs (by rw [h.caches]) hookId
    rw [Warm, hv] at hw
    omega

/-! ## What happens to the caches -/

/-- What a rebuild at `r` does to the caches, and to what they depend on. -/
structure Rebuild (rt rt' : Runtime) (r : RegionRef) : Prop where
  tree : rt'.tree = rt.tree
  modsOf : rt'.modsOf = rt.modsOf
  genBumps : rt'.genBumps = rt.genBumps
  caches : ∀ x, x ≠ r → rt'.caches x = rt.caches x
  gen : (rt'.caches r).gen = (rt.caches r).gen
  list : (rt'.caches r).dirty = false → (rt'.caches r).subtreeMods = rt.walked r
  stamp : ∀ h, rt'.Warm r h ∨ (rt'.hookVec r h).regionGen = (rt.hookVec r h).regionGen

theorem Rebuild.nregions {r : RegionRef} (h : Rebuild rt rt' r) : rt'.nregions = rt.nregions :=
  congrArg Tree.count h.tree

theorem Rebuild.subtree {r : RegionRef} (h : Rebuild rt rt' r) (x : RegionRef) :
    rt'.subtree x = rt.subtree x := by
  simp only [Runtime.subtree, h.tree, h.nregions]

theorem Rebuild.gen_eq {r : RegionRef} (h : Rebuild rt rt' r) (x : RegionRef) :
    (rt'.caches x).gen = (rt.caches x).gen := by
  by_cases hx : x = r
  · rw [hx, h.gen]
  · rw [h.caches x hx]

/-- Bringing a vector up to date is a rebuild. -/
theorem rebuild_of_prepareVec {r : RegionRef} (h : rt.prepareVec w r hookId name anc = some rt') :
    Rebuild rt rt' r := by
  have hp := prepareVec_spec h
  exact
    { tree := prepareVec_tree h, modsOf := (sameHeap_prepareVec h).modsOf
      genBumps := hp.genBumps
      caches := fun x hx => by simp only [caches, hp.regions x hx]
      gen := hp.gen
      list := fun _ => hp.subtreeMods
      stamp := fun k => by
        by_cases hk : k = hookId
        · exact Or.inl (hk ▸ hp.stamped)
        · exact Or.inr (by rw [hp.vec_ne r k (Or.inr hk)]) }

/-- Each region is touched, and the new ones are fresh. -/
structure Changed (rt rt' : Runtime) : Prop where
  genBumps : rt.genBumps ≤ rt'.genBumps
  old : ∀ r < rt.nregions, Touched rt rt' r
  fresh : ∀ r, rt.nregions ≤ r → r < rt'.nregions → Fresh rt' r

theorem changed_of_tree (htree : rt'.tree = rt.tree) (hmono : rt.genBumps ≤ rt'.genBumps)
    (hold : ∀ r < rt.nregions, Touched rt rt' r) : Changed rt rt' := by
  refine ⟨hmono, hold, fun r h1 h2 => ?_⟩
  have hn : rt'.nregions = rt.nregions := congrArg Tree.count htree
  exact absurd (hn ▸ h2) (Nat.not_lt.mpr h1)

/-- A rebuild at one region, or a change. -/
inductive Turned (rt rt' : Runtime) : Prop
  | rebuilt {r : Nat} (hr : r < rt.nregions) (h : Rebuild rt rt' r)
  | changed (h : Changed rt rt')

theorem Turned.subtreeLists (ht : rt.tree.Wf) (hl : rt.SubtreeLists) (h : Turned rt rt') :
    rt'.SubtreeLists := by
  cases h with
  | @rebuilt r hr hp =>
    intro x hx hd
    rw [hp.subtree, hp.modsOf]
    by_cases hxr : x = r
    · subst hxr
      rw [hp.list hd, walked_eq ht hl hr]
    · rw [hp.caches x hxr] at hd ⊢
      exact hl x (hp.nregions ▸ hx) hd
  | changed h =>
    intro r hr hd
    rcases Nat.lt_or_ge r rt.nregions with hlt | hge
    · have hcong : ∀ {rt'' : Runtime}, rt''.subtree r = rt.subtree r →
          (∀ x ∈ rt.subtree r, rt''.modsOf x = rt.modsOf x) →
          (rt''.subtree r).flatMap rt''.modsOf = (rt.subtree r).flatMap rt.modsOf := by
        intro rt'' hs hm
        rw [hs]
        exact List.flatMap_congr hm
      cases h.old r hlt with
      | kept h =>
        rw [hcong h.subtree h.modsOf, h.caches]
        exact hl r hlt (by rw [← h.caches]; exact hd)
      | bumped h =>
        rw [h.dirty] at hd
        cases hd
      | denied h =>
        rw [hcong h.subtree h.modsOf, h.caches]
        exact hl r hlt (by rw [h.caches] at hd; exact hd)
    · have hf := h.fresh r hge hr
      rw [List.flatMap_eq_nil_iff.mpr hf.modsOf, hf.caches]
      rfl

/-- As long as no counter can have wrapped, the stamps stay behind. -/
theorem Turned.stamps (hs : rt.Stamps) (hwrap : rt'.genBumps + 1 < 2 ^ 64) (h : Turned rt rt') :
    rt'.Stamps := by
  cases h with
  | @rebuilt r hr hp =>
    refine ⟨fun x hx => ?_, fun x hx => ?_, fun x hx k => ?_⟩
    · rw [hp.gen_eq]
      exact hs.gen_pos x (hp.nregions ▸ hx)
    · rw [hp.gen_eq, hp.genBumps]
      exact hs.gen_le x (hp.nregions ▸ hx)
    · by_cases hxr : x = r
      · subst hxr
        rcases hp.stamp k with hwarm | hold
        · exact Nat.le_of_eq hwarm
        · rw [hold, hp.gen]
          exact hs.stamp_le x hr k
      · have hv : rt'.hookVec x k = rt.hookVec x k := hookVec_of_vecs (by rw [hp.caches x hxr]) k
        rw [hv, hp.gen_eq]
        exact hs.stamp_le x (hp.nregions ▸ hx) k
  | changed h =>
    have hone : ∀ x < rt'.nregions, 0 < (rt'.caches x).gen ∧ (rt'.caches x).gen ≤ 1 + rt'.genBumps
        ∧ ∀ k, (rt'.hookVec x k).regionGen ≤ (rt'.caches x).gen := by
      intro x hx
      rcases Nat.lt_or_ge x rt.nregions with hlt | hge
      · have hpos := hs.gen_pos x hlt
        have hstamp := hs.stamp_le x hlt
        have hle := (h.old x hlt).gen_le hs hlt h.genBumps hwrap
        refine ⟨by omega, hle.2, fun k => ?_⟩
        rw [(h.old x hlt).hookVec k]
        exact Nat.le_trans (hstamp k) hle.1
      · have hf := (h.fresh x hge hx).caches
        rw [hf]
        refine ⟨Nat.one_pos, Nat.le_add_right 1 _, fun k => ?_⟩
        rw [hookVec_of_nil (by rw [hf]; rfl)]
        exact Nat.zero_le _
    exact ⟨fun x hx => (hone x hx).1, fun x hx => (hone x hx).2.1, fun x hx => (hone x hx).2.2⟩

end Runtime

section

variable {w : World} {c : Config} {a : Action} {rt' : Runtime}

theorem Effect.genBumps_le (h : Effect w c a rt') :
    c.st.rt.genBumps ≤ rt'.genBumps ∧ rt'.genBumps ≤ c.st.rt.genBumps + 2 := by
  have hdetach := fun (rt : Runtime) e => moduleRegionDetach_genBumps rt e
  cases h with
  | same | refcount | publish | bind | rekey | prewarm | resolve | register | handler | shutdown =>
    exact ⟨le_rfl, Nat.le_add_right _ 2⟩
  | @deny r what type => cases type <;> exact ⟨Nat.le_succ _, Nat.le_succ _⟩
  | claimAt | grant => exact ⟨Nat.le_succ _, Nat.le_succ _⟩
  | @link tx k e me size =>
    have hcount : (c.st.rt.countEntry e size).genBumps = c.st.rt.genBumps := by
      unfold Runtime.countEntry
      dsimp only
      split <;> rfl
    unfold Runtime.linkEntry
    dsimp only
    split
    · rw [hcount]
      exact ⟨le_rfl, Nat.le_add_right _ 2⟩
    · show _ ≤ (c.st.rt.countEntry e size).genBumps + 1 ∧ (c.st.rt.countEntry e size).genBumps + 1 ≤ _
      omega
  | @abort tx k err e me =>
    have h := hdetach c.st.rt e
    exact ⟨h.1, Nat.le_trans h.2 (Nat.le_succ _)⟩
  | @remove k e me =>
    have hone : ((c.st.rt.moduleClearFnCacheForHandle w e me.handle).moduleRemovePathOwnedEntries
        me).genBumps = c.st.rt.genBumps := by
      obtain ⟨m, n, hrest⟩ := (moduleClearFnCacheForHandle_keeps w c.st.rt e me.handle).rest
      rw [hrest]
      unfold Runtime.moduleRemovePathOwnedEntries
      split <;> rfl
    have h := hdetach ((c.st.rt.moduleClearFnCacheForHandle w e
      me.handle).moduleRemovePathOwnedEntries me) e
    rw [hone] at h
    exact ⟨h.1, Nat.le_trans h.2 (Nat.le_succ _)⟩
  | @reinsert rl k e r rt' ha hstack hl hre hr hi =>
    have h := hdetach c.st.rt e
    unfold Xylem.reinsert at hi
    dsimp only at hi
    split at hi
    · cases hi
      show _ ≤ (c.st.rt.moduleRegionDetach e).genBumps + 1
        ∧ (c.st.rt.moduleRegionDetach e).genBumps + 1 ≤ _
      omega
    · cases hi
  | vector ha hcaller hr hv =>
    rw [(prepareVec_spec hv).genBumps]
    exact ⟨le_rfl, Nat.le_add_right _ 2⟩

/-- Between two bootstraps, every effect is of this kind. -/
theorem Effect.turned (hwf : c.Wf w) (h : Effect w c a rt') :
    (a = .call .shutdown ∧ rt' = c.st.rt.bootstrap) ∨ Turned c.st.rt rt' := by
  rcases h.touched hwf with h | ⟨r, hookId, name, q, -, -, hr, hv⟩ | ⟨hold, hnew⟩
  · exact Or.inl h
  · exact Or.inr (.rebuilt hr (rebuild_of_prepareVec hv))
  · exact Or.inr (.changed ⟨h.genBumps_le.1, hold, hnew⟩)

theorem Effect.subtreeLists (hwf : c.Wf w) (hl : c.st.rt.SubtreeLists) (h : Effect w c a rt') :
    rt'.SubtreeLists := by
  rcases h.turned hwf with ⟨-, rfl⟩ | h
  · exact subtreeLists_bootstrap _
  · exact h.subtreeLists hwf.tree hl

theorem Effect.stamps (hwf : c.Wf w) (hs : c.st.rt.Stamps) (hb : c.st.rt.BumpsLeft)
    (h : Effect w c a rt') : rt'.Stamps := by
  have hle := h.genBumps_le
  have hwrap : rt'.genBumps + 1 < 2 ^ 64 := by
    unfold BumpsLeft at hb
    omega
  rcases h.turned hwf with ⟨-, rfl⟩ | h
  · exact stamps_bootstrap _
  · exact h.stamps hs hwrap

/-- In every state, a subtree list that is not dirty is the list of the
subtree. -/
theorem subtreeLists_of_reachable {ok : Config → Action → Prop} (h : ReachableBy w ok c) :
    c.st.rt.SubtreeLists := by
  refine ReachableBy.invariant_wf (fun c => c.st.rt.SubtreeLists) (fun c hc => ?_)
    (fun c a c' ev hwf hl _ hstep => (hstep.effect hwf).subtreeLists hwf hl) h
  obtain ⟨ctxs, adapters, mem, rfl⟩ := hc
  exact subtreeLists_bootstrap _

end

end Xylem
