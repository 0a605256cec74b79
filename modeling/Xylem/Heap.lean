import Xylem.Spec
import Xylem.Tree

/-!
# Module entries, module lists and the module table

`HeapWf` relates the three places that know of a module entry: the heap, the
list of its region, and `mod_hd`.

* An entry is in the list of the region that its `region_entry` names, once, and
  in no other.
* What the table holds under a key is an entry with that `mod_key`.

The table may still lack an entry, or hold another under its key; what that
takes is the subject of `Xylem.Table`.

`OffList` is the same with one entry taken out of its list, which is how the
runtime stands between a detach and what follows it.
-/

namespace Xylem

namespace Runtime

/-- The region an entry is linked in. -/
def home (rt : Runtime) (e : EntryRef) : Option RegionRef := (rt.mods e).bind (·.regionEntry)

/-- The key that an entry was stored under last. -/
def keyOf (rt : Runtime) (e : EntryRef) : Option (List UInt8) := (rt.mods e).map (·.modKey)

structure HeapWf (rt : Runtime) : Prop where
  nodup : ∀ r, (rt.modsOf r).Nodup
  mem_iff : ∀ {r e}, e ∈ rt.modsOf r ↔ rt.home e = some r
  home_lt : ∀ {r e}, rt.home e = some r → r < rt.nregions
  table : ∀ {k e}, rt.modHd.lookup k = some e → rt.keyOf e = some k
  fresh : ∀ {e}, rt.nmods ≤ e → rt.mods e = none

structure OffList (rt : Runtime) (e : EntryRef) : Prop where
  nodup : ∀ r, (rt.modsOf r).Nodup
  not_mem : ∀ r, e ∉ rt.modsOf r
  mem_iff : ∀ {r x}, x ≠ e → (x ∈ rt.modsOf r ↔ rt.home x = some r)
  home_lt : ∀ {r x}, x ≠ e → rt.home x = some r → r < rt.nregions
  table : ∀ {k x}, rt.modHd.lookup k = some x → rt.keyOf x = some k
  fresh : ∀ {x}, rt.nmods ≤ x → rt.mods x = none

variable {w : World} {rt rt' : Runtime}

theorem keyOf_eq_none {e : EntryRef} : rt.keyOf e = none ↔ rt.mods e = none := by
  simp [keyOf]

theorem home_of_mods {e : EntryRef} {me : ModEntry} (h : rt.mods e = some me) :
    rt.home e = me.regionEntry := by
  simp [home, h]

theorem home_congr {x : EntryRef}
    (h : (rt'.mods x).map (·.regionEntry) = (rt.mods x).map (·.regionEntry)) :
    rt'.home x = rt.home x := by
  unfold home
  cases hx : rt.mods x <;> cases hx' : rt'.mods x <;> simp_all

/-- A write keeps whatever it does not write. -/
theorem modifyMod_proj {α : Type*} (g : ModEntry → α) {f : ModEntry → ModEntry}
    (h : ∀ me, g (f me) = g me) (rt : Runtime) (e x : EntryRef) :
    ((rt.modifyMod e f).mods x).map g = (rt.mods x).map g := by
  unfold modifyMod
  by_cases hx : x = e
  · subst hx
    simp only [Function.update_self, Option.map_map]
    congr 1
    exact funext h
  · simp [hx]

theorem map_of_core {α : Type*} (g : ModEntry → α) (h : ∀ me : ModEntry, g me.core = g me)
    (hcore : rt'.core = rt.core) (x : EntryRef) : (rt'.mods x).map g = (rt.mods x).map g := by
  have hx := congrArg (Option.map g) (congrFun hcore x)
  simpa only [core, Option.map_map, Function.comp_def, h] using hx

/-! ## Writes that keep the lists and the table -/

/-- What an operation on other data keeps. -/
structure SameHeap (rt rt' : Runtime) : Prop where
  modsOf : rt'.modsOf = rt.modsOf
  home : ∀ x, rt'.home x = rt.home x
  keyOf : ∀ x, rt'.keyOf x = rt.keyOf x
  modHd : rt'.modHd = rt.modHd
  nmods : rt'.nmods = rt.nmods
  nregions : rt.nregions ≤ rt'.nregions

theorem SameHeap.refl (rt : Runtime) : rt.SameHeap rt :=
  ⟨rfl, fun _ => rfl, fun _ => rfl, rfl, rfl, le_rfl⟩

theorem SameHeap.trans {rt'' : Runtime} (h : rt.SameHeap rt') (h' : rt'.SameHeap rt'') :
    rt.SameHeap rt'' :=
  ⟨h'.modsOf.trans h.modsOf, fun x => (h'.home x).trans (h.home x),
    fun x => (h'.keyOf x).trans (h.keyOf x), h'.modHd.trans h.modHd, h'.nmods.trans h.nmods,
    Nat.le_trans h.nregions h'.nregions⟩

theorem HeapWf.of_same (h : rt.HeapWf) (hs : rt.SameHeap rt') : rt'.HeapWf where
  nodup r := by rw [hs.modsOf]; exact h.nodup r
  mem_iff := by rw [hs.modsOf]; intro r e; rw [hs.home]; exact h.mem_iff
  home_lt := by
    intro r e he
    rw [hs.home] at he
    exact Nat.lt_of_lt_of_le (h.home_lt he) hs.nregions
  table := by rw [hs.modHd]; intro k e he; rw [hs.keyOf]; exact h.table he
  fresh := by
    intro e he
    rw [hs.nmods] at he
    rw [← keyOf_eq_none, hs.keyOf, keyOf_eq_none]
    exact h.fresh he

theorem OffList.of_same {e : EntryRef} (h : rt.OffList e) (hs : rt.SameHeap rt') :
    rt'.OffList e where
  nodup r := by rw [hs.modsOf]; exact h.nodup r
  not_mem r := by rw [hs.modsOf]; exact h.not_mem r
  mem_iff := by rw [hs.modsOf]; intro r x hx; rw [hs.home]; exact h.mem_iff hx
  home_lt := by
    intro r x hx he
    rw [hs.home] at he
    exact Nat.lt_of_lt_of_le (h.home_lt hx he) hs.nregions
  table := by rw [hs.modHd]; intro k x hx; rw [hs.keyOf]; exact h.table hx
  fresh := by
    intro x hx
    rw [hs.nmods] at hx
    rw [← keyOf_eq_none, hs.keyOf, keyOf_eq_none]
    exact h.fresh hx

/-- A write to a region that keeps its module list. -/
theorem sameHeap_modifyRegion {f : RegionEntry → RegionEntry} (hf : ∀ e, (f e).mods = e.mods)
    (rt : Runtime) (r : RegionRef) : rt.SameHeap (rt.modifyRegion r f) :=
  ⟨modsOf_eq (modifyRegion_proj rt RegionEntry.mods hf r), fun _ => rfl, fun _ => rfl, rfl, rfl,
    le_rfl⟩

theorem sameHeap_regionPropagateDeny (rt : Runtime) (r : RegionRef) :
    rt.SameHeap (rt.regionPropagateDeny r) :=
  ⟨regionPropagateDeny_modsOf rt r, fun _ => rfl, fun _ => rfl, rfl, rfl, le_rfl⟩

theorem sameHeap_regionDispatchGenBump (rt : Runtime) (r : RegionRef) :
    rt.SameHeap (rt.regionDispatchGenBump r) :=
  ⟨regionDispatchGenBump_modsOf rt r, fun _ => rfl, fun _ => rfl, rfl, rfl, le_rfl⟩

theorem sameHeap_recordDeny (w : World) (rt : Runtime) (r : RegionRef) (what : CStr)
    (type : DenyType) : rt.SameHeap (rt.recordDeny w r what type) := by
  have hpropagated : ∀ {rt₁ : Runtime}, rt.SameHeap rt₁ →
      rt.SameHeap ((rt₁.regionPropagateDeny r).regionDispatchGenBump r) := fun h1 =>
    (h1.trans (sameHeap_regionPropagateDeny _ r)).trans (sameHeap_regionDispatchGenBump _ r)
  unfold recordDeny
  cases type with
  | hook => exact hpropagated (sameHeap_modifyRegion (by intro _; rfl) rt r)
  | module => exact hpropagated (sameHeap_modifyRegion (by intro _; rfl) rt r)

/-- A write to a module entry that keeps its place and its key. -/
theorem sameHeap_modifyMod {f : ModEntry → ModEntry}
    (hf : ∀ me, (f me).regionEntry = me.regionEntry ∧ (f me).modKey = me.modKey) (rt : Runtime)
    (e : EntryRef) : rt.SameHeap (rt.modifyMod e f) :=
  ⟨rfl, fun x => home_congr (modifyMod_proj _ (fun me => (hf me).1) rt e x),
    fun x => modifyMod_proj _ (fun me => (hf me).2) rt e x, rfl, rfl, le_rfl⟩

theorem sameHeap_of_core (hcore : rt'.core = rt.core) (hmods : rt'.modsOf = rt.modsOf)
    (hHd : rt'.modHd = rt.modHd) (hn : rt'.nmods = rt.nmods) (hr : rt'.nregions = rt.nregions) :
    rt.SameHeap rt' :=
  ⟨hmods, fun x => home_congr (map_of_core _ (fun _ => rfl) hcore x),
    fun x => map_of_core _ (fun _ => rfl) hcore x, hHd, hn, Nat.le_of_eq hr.symm⟩

/-! ## Vectors -/

theorem pushSlot_spec (rt : Runtime) (v : HookDispatchCache) (slot : DispatchSlot) :
    (rt.pushSlot v slot).1 = rt
      ∨ (rt.pushSlot v slot).1 = { rt with nblocks := rt.nblocks + 1 } := by
  simp only [pushSlot]
  split
  · exact Or.inr rfl
  · exact Or.inl rfl

/-- The loop of a rebuild writes callback caches and takes blocks. -/
structure OnlyCaches (rt rt' : Runtime) : Prop where
  core : rt'.core = rt.core
  rest : ∃ mods nblocks, rt' = { rt with mods := mods, nblocks := nblocks }

theorem OnlyCaches.refl (rt : Runtime) : rt.OnlyCaches rt := ⟨rfl, rt.mods, rt.nblocks, rfl⟩

theorem OnlyCaches.trans {rt'' : Runtime} (h : rt.OnlyCaches rt') (h' : rt'.OnlyCaches rt'') :
    rt.OnlyCaches rt'' := by
  refine ⟨h'.core.trans h.core, ?_⟩
  obtain ⟨m, n, rfl⟩ := h.rest
  obtain ⟨m', n', rfl⟩ := h'.rest
  exact ⟨m', n', rfl⟩

theorem OnlyCaches.same (h : rt.OnlyCaches rt') : rt.SameHeap rt' := by
  have hcore := h.core
  obtain ⟨m, n, rfl⟩ := h.rest
  exact sameHeap_of_core hcore rfl rfl rfl rfl

theorem OnlyCaches.tree (h : rt.OnlyCaches rt') : rt'.tree = rt.tree := by
  obtain ⟨m, n, rfl⟩ := h.rest
  rfl

theorem OnlyCaches.regions (h : rt.OnlyCaches rt') : rt'.regions = rt.regions := by
  obtain ⟨m, n, rfl⟩ := h.rest
  rfl

theorem onlyCaches_modifyMod {e : EntryRef} {me me' : ModEntry} (hme : rt.mods e = some me)
    (hcore : me'.core = me.core) : rt.OnlyCaches (rt.modifyMod e (fun _ => me')) := by
  refine ⟨modifyMod_core rt fun m hm => ?_, _, rt.nblocks, rfl⟩
  rw [hme] at hm
  cases hm
  exact hcore

theorem onlyCaches_pushSlot (rt : Runtime) (v : HookDispatchCache) (slot : DispatchSlot) :
    rt.OnlyCaches (rt.pushSlot v slot).1 := by
  rcases pushSlot_spec rt v slot with h | h <;> rw [h]
  · exact .refl rt
  · exact ⟨rfl, rt.mods, rt.nblocks + 1, rfl⟩

theorem rebuildLoop_onlyCaches {rt rt' : Runtime} {anc : List RegionRef} {hookId : Nat} {name : CStr}
    {es : List EntryRef} {v v' : HookDispatchCache}
    (h : rebuildLoop w anc hookId name es rt v = some (rt', v')) : rt.OnlyCaches rt' := by
  induction es generalizing rt v with
  | nil =>
    cases h
    exact .refl _
  | cons e es ih =>
    simp only [rebuildLoop] at h
    split at h
    · cases h
    · next me hme =>
      split at h
      · exact ih h
      · split at h
        · exact ih h
        · have hres : rt.OnlyCaches (rt.modifyMod e (fun _ => me.resolved w hookId name)) :=
            onlyCaches_modifyMod hme (me.core_resolved hookId name)
          split at h
          · exact (hres.trans (onlyCaches_pushSlot ..)).trans (ih h)
          · exact hres.trans (ih h)

/-- What bringing a vector up to date keeps. -/
theorem prepareVec_keeps {r : RegionRef} {hookId : Nat} {name : CStr} {anc : List RegionRef}
    (h : rt.prepareVec w r hookId name anc = some rt') :
    rt'.core = rt.core ∧ rt'.modsOf = rt.modsOf ∧ rt'.tree = rt.tree ∧ rt'.modHd = rt.modHd
      ∧ rt'.nmods = rt.nmods ∧ rt'.deniesOf = rt.deniesOf := by
  unfold prepareVec at h
  have h1 : (rt.refreshSubtreeMods r).core = rt.core ∧ (rt.refreshSubtreeMods r).modsOf = rt.modsOf
      ∧ (rt.refreshSubtreeMods r).tree = rt.tree ∧ (rt.refreshSubtreeMods r).modHd = rt.modHd
      ∧ (rt.refreshSubtreeMods r).nmods = rt.nmods
      ∧ (rt.refreshSubtreeMods r).deniesOf = rt.deniesOf := by
    unfold refreshSubtreeMods
    split
    · exact ⟨rfl, regionRebuildSubtreeMods_modsOf rt r, regionRebuildSubtreeMods_tree rt r, rfl,
        rfl, funext (modifyRegion_proj rt RegionEntry.deniedModules (by intro _; rfl) r)⟩
    · exact ⟨rfl, rfl, rfl, rfl, rfl, rfl⟩
  generalize rt.refreshSubtreeMods r = rt1 at h h1
  obtain ⟨hc1, hm1, ht1, hh1, hn1, hd1⟩ := h1
  have h2 : (rt1.regionEnsureHookDispatchCap r hookId).core = rt1.core
      ∧ (rt1.regionEnsureHookDispatchCap r hookId).modHd = rt1.modHd
      ∧ (rt1.regionEnsureHookDispatchCap r hookId).nmods = rt1.nmods
      ∧ (rt1.regionEnsureHookDispatchCap r hookId).deniesOf = rt1.deniesOf := by
    unfold regionEnsureHookDispatchCap
    split
    · exact ⟨rfl, rfl, rfl, rfl⟩
    · exact ⟨rfl, rfl, rfl,
        funext (modifyRegion_proj rt1 RegionEntry.deniedModules (by intro _; rfl) r)⟩
  have hm2 := regionEnsureHookDispatchCap_modsOf rt1 r hookId
  have ht2 := regionEnsureHookDispatchCap_tree rt1 r hookId
  generalize rt1.regionEnsureHookDispatchCap r hookId = rt2 at h h2 hm2 ht2
  obtain ⟨hc2, hh2, hn2, hd2⟩ := h2
  unfold regionRebuildHookDispatch at h
  split at h
  · cases h
    exact ⟨hc2.trans hc1, hm2.trans hm1, ht2.trans ht1, hh2.trans hh1, hn2.trans hn1,
      hd2.trans hd1⟩
  · obtain ⟨⟨rt3, v⟩, hloop, rfl⟩ := Option.map_eq_some_iff.mp h
    have honly := rebuildLoop_onlyCaches hloop
    have hsame := honly.same
    have hden : rt3.deniesOf = rt2.deniesOf :=
      funext fun x => by simp only [deniesOf, honly.regions]
    refine ⟨?_, ?_, ?_, ?_, ?_, ?_⟩
    · exact honly.core.trans (hc2.trans hc1)
    · refine Eq.trans ?_ (hsame.modsOf.trans (hm2.trans hm1))
      exact modsOf_eq (modifyRegion_proj rt3 RegionEntry.mods (by intro _; rfl) r)
    · refine Eq.trans ?_ (honly.tree.trans (ht2.trans ht1))
      exact modifyRegion_tree rt3 (by intro _; rfl) r
    · exact hsame.modHd.trans (hh2.trans hh1)
    · exact hsame.nmods.trans (hn2.trans hn1)
    · refine Eq.trans ?_ (hden.trans (hd2.trans hd1))
      exact funext (modifyRegion_proj rt3 RegionEntry.deniedModules (by intro _; rfl) r)

theorem sameHeap_prepareVec {r : RegionRef} {hookId : Nat} {name : CStr} {anc : List RegionRef}
    (h : rt.prepareVec w r hookId name anc = some rt') : rt.SameHeap rt' := by
  obtain ⟨hcore, hmods, htree, hHd, hn, -⟩ := prepareVec_keeps h
  exact sameHeap_of_core hcore hmods hHd hn (congrArg Tree.count htree)

theorem registerHook_core (w : World) (rt : Runtime) (name : CStr) (reg : AdapterRef) :
    (rt.registerHook w name reg).core = rt.core := by
  funext x
  simp only [core, registerHook]
  split
  · cases rt.mods x <;> simp
  · rfl

theorem sameHeap_registerHook (w : World) (rt : Runtime) (name : CStr) (reg : AdapterRef) :
    rt.SameHeap (rt.registerHook w name reg) :=
  sameHeap_of_core (registerHook_core w rt name reg) rfl rfl rfl rfl

theorem moduleClearFnCacheForHandle_keeps (w : World) (rt : Runtime) (e : EntryRef)
    (handle : Handle) : rt.OnlyCaches (rt.moduleClearFnCacheForHandle w e handle) := by
  unfold moduleClearFnCacheForHandle
  split
  · exact .refl rt
  · refine ⟨?_, _, rt.nblocks, rfl⟩
    funext x
    simp only [core]
    split
    · cases rt.mods x <;> simp
    · rfl

/-- A listed entry is in the list of a region that exists. -/
theorem HeapWf.mem_lt (h : rt.HeapWf) {r : RegionRef} {e : EntryRef} (he : e ∈ rt.modsOf r) :
    r < rt.nregions :=
  h.home_lt (h.mem_iff.mp he)

/-- A region that has just been made has no modules. -/
theorem addRegion_modsOf (hlt : ∀ {r e}, e ∈ rt.modsOf r → r < rt.nregions) (p : RegionRef)
    (id : RegionId) (plen bits : Nat) (fn : Option HandlerRef) :
    (rt.addRegion p id plen bits fn).modsOf = rt.modsOf := by
  have hnew : rt.modsOf rt.nregions = [] := by
    rw [List.eq_nil_iff_forall_not_mem]
    exact fun e he => absurd (hlt he) (Nat.lt_irrefl _)
  unfold addRegion
  rw [regionMarkSubtreeDirty_modsOf]
  funext x
  simp only [modsOf] at hnew ⊢
  by_cases hx : x = p
  · subst hx; simp
  · by_cases hn : x = rt.nregions
    · subst hn; simp [hx, RegionEntry.fresh, hnew]
    · simp [hx, hn]

theorem sameHeap_addRegion (h : rt.HeapWf) (p : RegionRef) (id : RegionId) (plen bits : Nat)
    (fn : Option HandlerRef) : rt.SameHeap (rt.addRegion p id plen bits fn) :=
  ⟨addRegion_modsOf h.mem_lt p id plen bits fn, fun _ => rfl, fun _ => rfl, rfl, rfl,
    Nat.le_succ _⟩

/-! ## Out of a list, and into one -/

theorem HeapWf.off (h : rt.HeapWf) {e : EntryRef} (he : rt.home e = none) : rt.OffList e where
  nodup := h.nodup
  not_mem r hr := by rw [h.mem_iff, he] at hr; cases hr
  mem_iff _ := h.mem_iff
  home_lt _ := h.home_lt
  table := h.table
  fresh := h.fresh

/-- Detaching takes an entry out of its list. -/
theorem HeapWf.detach (h : rt.HeapWf) (e : EntryRef) : (rt.moduleRegionDetach e).OffList e := by
  cases he : rt.home e with
  | none =>
    rw [moduleRegionDetach_modsOf_of_none rt he]
    exact h.off he
  | some r =>
    have hmods := moduleRegionDetach_modsOf rt he
    have hheap := moduleRegionDetach_mods rt e
    have hcount : (rt.moduleRegionDetach e).nregions = rt.nregions :=
      congrArg Tree.count (moduleRegionDetach_tree rt e)
    have hother : (rt.moduleRegionDetach e).modHd = rt.modHd
        ∧ (rt.moduleRegionDetach e).nmods = rt.nmods := by
      unfold moduleRegionDetach
      split <;> exact ⟨rfl, rfl⟩
    have hhome : ∀ x, (rt.moduleRegionDetach e).home x = rt.home x := fun x => by
      simp only [home, hheap]
    refine
      { nodup := ?_, not_mem := ?_, mem_iff := ?_, home_lt := ?_, table := ?_, fresh := ?_ }
    · intro x
      rw [hmods]
      by_cases hx : x = r
      · subst hx; simpa using (h.nodup x).erase e
      · simpa [hx] using h.nodup x
    · intro x hx
      rw [hmods] at hx
      by_cases hxr : x = r
      · subst hxr
        rw [Function.update_self] at hx
        exact (h.nodup x).not_mem_erase hx
      · rw [Function.update_of_ne hxr, h.mem_iff, he] at hx
        exact hxr (Option.some.inj hx).symm
    · intro x y hy
      rw [hmods, hhome]
      by_cases hxr : x = r
      · subst hxr
        rw [Function.update_self, List.mem_erase_of_ne hy, h.mem_iff]
      · rw [Function.update_of_ne hxr, h.mem_iff]
    · intro x y _ hxy
      rw [hhome] at hxy
      rw [hcount]
      exact h.home_lt hxy
    · intro k x hk
      rw [hother.1] at hk
      simpa only [keyOf, hheap] using h.table hk
    · intro x hx
      rw [hother.2] at hx
      rw [hheap]
      exact h.fresh hx

theorem insertAfter_perm (e : EntryRef) (after : Option EntryRef) (l : List EntryRef)
    (h : ∀ a ∈ after, a ∈ l) : (insertAfter e after l).Perm (e :: l) := by
  cases after with
  | none => rw [show insertAfter e none l = e :: l by cases l <;> rfl]
  | some a =>
    have ha : a ∈ l := h a rfl
    clear h
    induction l with
    | nil => cases ha
    | cons x l ih =>
      simp only [insertAfter]
      split
      · exact .swap ..
      · next hne =>
        have hal : a ∈ l := (List.mem_cons.mp ha).resolve_left (fun h => hne h.symm)
        exact ((ih hal).cons x).trans (.swap ..)

/-- Linking an entry that is in no list. -/
theorem OffList.insert {e : EntryRef} (h : rt.OffList e) (hlive : rt.mods e ≠ none) {r : Nat}
    (hr : r < rt.nregions) {after : Option EntryRef} (hafter : ∀ a ∈ after, a ∈ rt.modsOf r) :
    (rt.moduleRegionInsertAfter r e after).HeapWf := by
  have hmods := moduleRegionInsertAfter_modsOf rt r e after
  have hperm := insertAfter_perm e after (rt.modsOf r) hafter
  have hcount : (rt.moduleRegionInsertAfter r e after).nregions = rt.nregions :=
    congrArg Tree.count (moduleRegionInsertAfter_tree rt r e after)
  have hhome : ∀ x, (rt.moduleRegionInsertAfter r e after).home x
      = if x = e then some r else rt.home x := by
    intro x
    simp only [home, moduleRegionInsertAfter_mods]
    by_cases hx : x = e
    · subst hx
      obtain ⟨me, hme⟩ := Option.ne_none_iff_exists'.mp hlive
      simp [hme]
    · simp [hx]
  refine { nodup := ?_, mem_iff := ?_, home_lt := ?_, table := ?_, fresh := ?_ }
  · intro x
    rw [hmods]
    by_cases hx : x = r
    · subst hx
      rw [Function.update_self, hperm.nodup_iff, List.nodup_cons]
      exact ⟨h.not_mem x, h.nodup x⟩
    · rw [Function.update_of_ne hx]
      exact h.nodup x
  · intro x y
    rw [hmods, hhome]
    by_cases hx : x = r
    · subst hx
      rw [Function.update_self, hperm.mem_iff, List.mem_cons]
      by_cases hy : y = e
      · simp [hy]
      · simp [hy, h.mem_iff hy]
    · rw [Function.update_of_ne hx]
      by_cases hy : y = e
      · subst hy
        simp only [if_true, Option.some.injEq]
        exact ⟨fun hmem => absurd hmem (h.not_mem x), fun heq => absurd heq.symm hx⟩
      · simp [hy, h.mem_iff hy]
  · intro x y hxy
    rw [hhome] at hxy
    rw [hcount]
    split at hxy
    · cases hxy
      exact hr
    · next hy => exact h.home_lt hy hxy
  · intro k x hk
    have hkey : (rt.moduleRegionInsertAfter r e after).keyOf x = rt.keyOf x := by
      simp only [keyOf, moduleRegionInsertAfter_mods]
      by_cases hx : x = e
      · subst hx; simp [Option.map_map, Function.comp_def]
      · simp [hx]
    rw [hkey]
    exact h.table hk
  · intro x hx
    rw [moduleRegionInsertAfter_mods]
    have hnone : rt.mods x = none := h.fresh hx
    by_cases hxe : x = e
    · subst hxe; simp [hnone]
    · simp [hxe, hnone]

/-- Freeing an entry that is in no list, and taking its key out of the table. -/
theorem OffList.free {e : EntryRef} {k : List UInt8} (h : rt.OffList e) (hk : rt.keyOf e = some k)
    (hmodsOf : rt'.modsOf = rt.modsOf) (hmods : rt'.mods = Function.update rt.mods e none)
    (hHd : rt'.modHd = rt.modHd.erase k) (hn : rt'.nmods = rt.nmods)
    (hr : rt'.nregions = rt.nregions) : rt'.HeapWf := by
  have hhome : ∀ x, rt'.home x = if x = e then none else rt.home x := by
    intro x
    simp only [home, hmods]
    by_cases hx : x = e
    · subst hx; simp
    · simp [hx]
  refine { nodup := ?_, mem_iff := ?_, home_lt := ?_, table := ?_, fresh := ?_ }
  · intro r
    rw [hmodsOf]
    exact h.nodup r
  · intro r x
    rw [hmodsOf, hhome]
    by_cases hx : x = e
    · subst hx
      simpa using h.not_mem r
    · simp [hx, h.mem_iff hx]
  · intro r x hx
    rw [hhome] at hx
    rw [hr]
    split at hx
    · cases hx
    · next hne => exact h.home_lt hne hx
  · intro k' x hx
    rw [hHd] at hx
    have hne : k' ≠ k := by
      rintro rfl
      rw [AList.lookup_erase] at hx
      cases hx
    rw [AList.lookup_erase_ne hne] at hx
    have hkx := h.table hx
    have hxe : x ≠ e := by
      rintro rfl
      rw [hk] at hkx
      exact hne (Option.some.inj hkx).symm
    simpa [keyOf, hmods, hxe] using hkx
  · intro x hx
    rw [hn] at hx
    rw [hmods]
    by_cases hxe : x = e
    · simp [hxe]
    · simp [hxe, h.fresh hx]

/-! ## The operations on module entries -/

theorem HeapWf.publish (h : rt.HeapWf) {me : ModEntry} (hme : me.regionEntry = none) :
    (rt.publishEntry me).HeapWf := by
  have hhome : ∀ x, (rt.publishEntry me).home x = if x = rt.nmods then none else rt.home x := by
    intro x
    simp only [home, publishEntry]
    by_cases hx : x = rt.nmods
    · subst hx; simp [hme]
    · simp [hx]
  have hnew : rt.home rt.nmods = none := by simp [home, h.fresh (le_refl _)]
  have hsame : ∀ x, (rt.publishEntry me).home x = rt.home x := by
    intro x
    rw [hhome]
    split
    · next hx => rw [hx, hnew]
    · rfl
  refine { nodup := h.nodup, mem_iff := ?_, home_lt := ?_, table := ?_, fresh := ?_ }
  · intro r x
    rw [hsame]
    exact h.mem_iff
  · intro r x hx
    rw [hsame] at hx
    exact h.home_lt hx
  · intro k x hk
    have hlk : (rt.modHd.insert me.modKey rt.nmods).lookup k = some x := hk
    simp only [keyOf, publishEntry]
    by_cases hkk : k = me.modKey
    · subst hkk
      rw [AList.lookup_insert] at hlk
      cases hlk
      simp
    · rw [AList.lookup_insert_ne hkk] at hlk
      have hkx := h.table hlk
      have hx : x ≠ rt.nmods := by
        rintro rfl
        simp [keyOf, h.fresh (le_refl _)] at hkx
      simpa [hx, keyOf] using hkx
  · intro x hx
    have hlt : rt.nmods + 1 ≤ x := hx
    have hne : x ≠ rt.nmods := by omega
    simpa [publishEntry, hne] using h.fresh (e := x) (by omega)

/-- The entry that is linked is the one that has no list yet. -/
theorem HeapWf.link (h : rt.HeapWf) (ht : rt.tree.Wf) {e : EntryRef} {me : ModEntry}
    (hme : rt.mods e = some me) (hun : me.regionEntry = none) (size : Nat) :
    (rt.linkEntry e me size).HeapWf := by
  have hsame : rt.SameHeap (rt.countEntry e size) := by
    unfold countEntry
    dsimp only
    split
    · exact ⟨rfl, fun _ => rfl, fun _ => rfl, rfl, rfl, le_rfl⟩
    · have h1 : rt.SameHeap { rt with modCount := rt.modCount + 1, nblocks := rt.nblocks + 1 } :=
        ⟨rfl, fun _ => rfl, fun _ => rfl, rfl, rfl, le_rfl⟩
      exact h1.trans (sameHeap_modifyMod (by intro _; exact ⟨rfl, rfl⟩) _ e)
  have hHd : (rt.countEntry e size).regionHd = rt.regionHd := by
    unfold countEntry
    dsimp only
    split <;> rfl
  simp only [linkEntry, regionLookup]
  generalize rt.countEntry e size = rt1 at hsame hHd ⊢
  rw [hHd]
  split
  · exact h.of_same hsame
  · next r hr =>
    have hlt : r < rt1.nregions :=
      Nat.lt_of_lt_of_le (ht.table.mp hr).1 hsame.nregions
    have hnone : rt.home e = none := by rw [home_of_mods hme, hun]
    have hlive : rt1.mods e ≠ none := by
      rw [Ne, ← keyOf_eq_none, hsame.keyOf, keyOf_eq_none, hme]
      simp
    exact ((h.off hnone).of_same hsame).insert hlive hlt fun a ha => List.mem_of_getLast? ha

theorem HeapWf.discard (h : rt.HeapWf) {e : EntryRef} {me : ModEntry}
    (hkey : rt.keyOf e = some me.modKey) : (rt.discardEntry w e me).HeapWf := by
  have hkey' : (rt.moduleRegionDetach e).keyOf e = some me.modKey := by
    simpa [keyOf] using hkey
  exact (h.detach e).free hkey' rfl rfl rfl rfl rfl

theorem HeapWf.remove (h : rt.HeapWf) {e : EntryRef} {me : ModEntry} (hme : rt.mods e = some me) :
    (rt.removeEntry w e me).HeapWf := by
  have hclear := (moduleClearFnCacheForHandle_keeps w rt e me.handle).same
  have hsame : rt.SameHeap
      ((rt.moduleClearFnCacheForHandle w e me.handle).moduleRemovePathOwnedEntries me) := by
    unfold moduleRemovePathOwnedEntries
    split
    · exact hclear
    · exact hclear.trans (sameHeap_modifyRegion (by intro _; rfl) _ _)
  have hkey := hsame.keyOf e
  have hkey' : ((rt.moduleClearFnCacheForHandle w e me.handle).moduleRemovePathOwnedEntries
      me).keyOf e = some me.modKey := by
    rw [hkey]
    simp [keyOf, hme]
  have hfree := (h.of_same hsame).discard (w := w) hkey'
  exact ⟨hfree.nodup, hfree.mem_iff, hfree.home_lt, hfree.table, hfree.fresh⟩

theorem HeapWf.rekey (h : rt.HeapWf) {e : EntryRef} {old : List UInt8} (path : CStr)
    (pk ck : RegionKey) (hold : rt.modHd.lookup old = some e) :
    (rt.moduleRekeyLoadedEntry e old path pk ck).HeapWf := by
  have hkey : rt.keyOf e = some old := h.table hold
  obtain ⟨me, hme, hmk⟩ := Option.map_eq_some_iff.mp hkey
  have hhome : ∀ x, (rt.moduleRekeyLoadedEntry e old path pk ck).home x = rt.home x := by
    intro x
    refine home_congr ?_
    exact modifyMod_proj (·.regionEntry) (f := fun me : ModEntry => { me with
      regionId := ck.id, regionPlen := ck.plen, modKey := modKey path ck.id ck.plen })
      (fun _ => rfl) rt e x
  have hmods : (rt.moduleRekeyLoadedEntry e old path pk ck).mods
      = Function.update rt.mods e ((rt.mods e).map fun me => { me with
          regionId := ck.id, regionPlen := ck.plen, modKey := modKey path ck.id ck.plen }) := rfl
  refine { nodup := h.nodup, mem_iff := ?_, home_lt := ?_, table := ?_, fresh := ?_ }
  · intro r x
    rw [hhome]
    exact h.mem_iff
  · intro r x hx
    rw [hhome] at hx
    exact h.home_lt hx
  · intro k x hk
    have hlk : ((rt.modHd.insert (modKey path ck.id ck.plen) e).erase old).lookup k = some x := hk
    have hne : k ≠ old := by
      rintro rfl
      rw [AList.lookup_erase] at hlk
      cases hlk
    rw [AList.lookup_erase_ne hne] at hlk
    simp only [keyOf, hmods]
    by_cases hkn : k = modKey path ck.id ck.plen
    · subst hkn
      rw [AList.lookup_insert] at hlk
      cases hlk
      simp [hme]
    · rw [AList.lookup_insert_ne hkn] at hlk
      have hkx := h.table hlk
      have hxe : x ≠ e := by
        rintro rfl
        rw [hkey] at hkx
        exact hne (Option.some.inj hkx).symm
      simpa [hxe, keyOf] using hkx
  · intro x hx
    rw [hmods]
    have hnone := h.fresh (e := x) hx
    by_cases hxe : x = e
    · subst hxe; simp [hnone]
    · simp [hxe, hnone]

theorem HeapWf.reinsert (h : rt.HeapWf) {e : EntryRef} (hlive : rt.mods e ≠ none) {r : Nat}
    (hr : r < rt.nregions) {after : Option EntryRef}
    (hi : Xylem.reinsert rt r e after = some rt') : rt'.HeapWf := by
  unfold Xylem.reinsert at hi
  dsimp only at hi
  split at hi
  · next hafter =>
    cases hi
    have hcount : (rt.moduleRegionDetach e).nregions = rt.nregions :=
      congrArg Tree.count (moduleRegionDetach_tree rt e)
    refine (h.detach e).insert ?_ (by rw [hcount]; exact hr) hafter
    rwa [moduleRegionDetach_mods]
  · cases hi

theorem heapWf_bootstrap (rt : Runtime) : rt.bootstrap.HeapWf where
  nodup _ := List.nodup_nil
  mem_iff := by simp [bootstrap, modsOf, home, RegionEntry.root, RegionEntry.fresh]
  home_lt := by simp [bootstrap, home]
  table := by simp [bootstrap]
  fresh := by simp [bootstrap]

end Runtime

end Xylem
