import Xylem.ModTable
import Xylem.Quiet
import Xylem.ModLists
import Xylem.Lib.Holdings

/-!
# The lifecycle of a module

A module is loaded by its first `xy_load` and unloaded by the `xy_unload` that
gives back the last of its loads.  The calls of a run, by the path that each
names, are uses in the sense of `Holdings`; what these say is held is what the
list of the region has, in the same order, each entry with its balance for a
reference count.

`HeldAt` is the invariant between two calls, and `Phase` says how far the call in
progress has come.
-/

namespace Xylem

open Xylem.Runtime Holdings

/-! ## The calls of a run -/

/-- A run from `c₀`, with its moves, all of which meet `ok`. -/
inductive RunLog (w : World) (ok : Config → Action → Prop) (c₀ : Config) :
    List Move → Config → Prop
  | start : RunLog w ok c₀ [] c₀
  | move {log : List Move} {c c' : Config} {a : Action} {ev : Event} (h : RunLog w ok c₀ log c)
      (hok : ok c a) (hs : step w c a = .next c' ev) :
      RunLog w ok c₀ (log ++ [⟨c, a, ev, c'⟩]) c'

/-- The module that a call loads or unloads. -/
def Move.use (w : World) (m : Move) : Option (Use CStr) :=
  match m.act with
  | .call (.load fname) => some (.acquire (w.loadPath fname))
  | .call (.unload fname) => some (.release (w.loadPath fname))
  | _ => none

def uses (w : World) (log : List Move) : List (Use CStr) := log.filterMap (Move.use w)

/-- The module whose `xy_install` is entered. -/
def Move.installed (m : Move) : Option CStr :=
  match m.event with
  | .enterInstall e => (m.after.st.rt.mods e).map (·.loadPath)
  | _ => none

def installs (log : List Move) : List CStr := log.filterMap Move.installed

/-- The current region is `r`. -/
def Config.At (c : Config) (r : RegionRef) : Prop :=
  c.st.tls.current = ⟨(c.st.rt.regions r).id, some r⟩

instance (c : Config) (r : RegionRef) : Decidable (c.At r) := by
  unfold Config.At; infer_instance

/-- Modules are loaded and unloaded in `r` one after the other, and load cleanly.

* While a module is loaded or unloaded, no other is: modules load nothing.
* A module file opens; its context, if it has one, is of the right layout; it has an
  `xy_install`.
* `r` has no claim handler as a load comes to its gate. -/
def Cleanly (w : World) (r : RegionRef) (c : Config) (a : Action) : Prop :=
  match a, c.stack with
  | .call (.load _), _ => c.loading.isEmpty = true ∧ c.At r
  | .call (.unload _), _ => c.loading.isEmpty = true ∧ c.At r
  | .call (.reload _), _ => False
  | .call .shutdown, _ => False
  | .ret (.dlopened h), _ => h ≠ none
  | .tau, .load tx .bind :: _ => modLoadCtx w c.st tx = none ∨ modLoadCheckCtxAbi w tx = xyOk
  | .tau, .load _ .claim :: _ => (c.st.rt.regions r).claimHandler = none
  | .tau, .load tx .install :: _ => w.dlsym tx.handle .xyInstall ≠ none
  | _, _ => True

instance (w : World) (r : RegionRef) (c : Config) (a : Action) : Decidable (Cleanly w r c a) := by
  unfold Cleanly
  generalize c.stack = k
  induction a using Action.casesOn with
  | call q => induction q using Call.casesOn <;> infer_instance
  | ret v => induction v using Return.casesOn <;> infer_instance
  | tau =>
    induction k using List.casesOn with
    | nil => infer_instance
    | cons f k =>
      induction f using Frame.casesOn with
      | load tx pc => induction pc using LoadPc.casesOn <;> infer_instance
      | _ => infer_instance

/-! ## What is held in a region -/

def Runtime.pathOf (rt : Runtime) (e : EntryRef) : Option CStr := (rt.mods e).map (·.loadPath)

/-- The list of `r` has what the uses `held` leave, with the counts of the uses
`counted`.  But for `extra`, which is not linked yet, there are no other entries. -/
structure HeldAt (rt : Runtime) (r : RegionRef) (held counted : List (Use CStr))
    (extra : Option EntryRef) : Prop where
  lists : ∃ h, Lists held h ∧ (rt.modsOf r).map rt.pathOf = h.map some
  count : ∀ e ∈ rt.modsOf r, ∀ me, rt.mods e = some me →
    me.refcount = balance me.loadPath counted
  only : ∀ e me, rt.mods e = some me → e ∈ rt.modsOf r ∨ extra = some e
  region : ∀ e me, rt.mods e = some me → (rt.regions r).key = ⟨me.regionId, me.regionPlen⟩
  parent : ∀ e me, rt.mods e = some me → me.parentEntry = none
  key : ∀ e me, rt.mods e = some me → me.modKey = rt.keyIn me.loadPath r
  table : ∀ e me, rt.mods e = some me → rt.modHd.lookup me.modKey = some e

section

variable {w : World} {rt rt' : Runtime} {r : Nat} {held counted us : List (Use CStr)}
  {extra : Option EntryRef} {e : EntryRef} {me : ModEntry}

theorem keyIn_inj {p p' : CStr} : rt.keyIn p r = rt.keyIn p' r ↔ p = p' := by
  unfold Runtime.keyIn
  refine (@modKey_eq_iff p p' (rt.regions r).key (rt.regions r).key).trans ?_
  exact and_iff_left (.refl _)

theorem Runtime.RegionsKept.keyIn (h : rt.RegionsKept rt') (hr : r < rt.nregions) (path : CStr) :
    rt'.keyIn path r = rt.keyIn path r := by
  have hkey := h.key r hr
  have hid : (rt'.regions r).id = (rt.regions r).id := congrArg RegionKey.id hkey
  have hplen : (rt'.regions r).plen = (rt.regions r).plen := congrArg RegionKey.plen hkey
  unfold Runtime.keyIn
  rw [hid, hplen]

namespace HeldAt

/-- The table finds the entry of a module. -/
theorem lookup_iff (h : HeldAt rt r held counted extra) (hheap : rt.HeapWf) {path : CStr} :
    rt.modHd.lookup (rt.keyIn path r) = some e
      ↔ ∃ me, rt.mods e = some me ∧ me.loadPath = path := by
  constructor
  · intro hl
    obtain ⟨me, hme, hkey⟩ := Option.map_eq_some_iff.mp (hheap.table hl)
    exact ⟨me, hme, keyIn_inj.mp ((h.key e me hme).symm.trans hkey)⟩
  · rintro ⟨me, hme, rfl⟩
    rw [← h.key e me hme]
    exact h.table e me hme

/-- There is one entry for a module. -/
theorem eq_of_path (h : HeldAt rt r held counted extra) {e' : EntryRef} {me' : ModEntry}
    (hme : rt.mods e = some me) (hme' : rt.mods e' = some me')
    (hpath : me'.loadPath = me.loadPath) : e' = e := by
  have hl := h.table e me hme
  have hl' := h.table e' me' hme'
  rw [h.key e me hme] at hl
  rw [h.key e' me' hme', hpath, hl] at hl'
  exact (Option.some.inj hl').symm

/-- A module is in the list exactly when it is held. -/
theorem listed_iff (h : HeldAt rt r held counted extra) {path : CStr} :
    (∃ e ∈ rt.modsOf r, ∃ me, rt.mods e = some me ∧ me.loadPath = path)
      ↔ 0 < balance path held := by
  obtain ⟨l, hl, hpaths⟩ := h.lists
  rw [← hl.mem_iff]
  have hmem : some path ∈ (rt.modsOf r).map rt.pathOf ↔ path ∈ l := by
    rw [hpaths]
    simp
  rw [← hmem, List.mem_map]
  simp only [Runtime.pathOf, Option.map_eq_some_iff]

/-- What a quiet step leaves. -/
theorem same (h : HeldAt rt r held counted extra) (hs : rt.SameModules rt')
    (hr : r < rt.nregions) : HeldAt rt' r held counted extra := by
  have hpath : rt'.pathOf = rt.pathOf :=
    funext fun e => map_of_core ModEntry.loadPath (fun _ => rfl) hs.core e
  have hfields : ∀ e me', rt'.mods e = some me' → ∃ me, rt.mods e = some me
      ∧ me'.loadPath = me.loadPath ∧ me'.refcount = me.refcount
      ∧ (⟨me'.regionId, me'.regionPlen⟩ : RegionKey) = ⟨me.regionId, me.regionPlen⟩
      ∧ me'.parentEntry = me.parentEntry ∧ me'.modKey = me.modKey := fun e me' hme' => by
    obtain ⟨me, hme, hcore⟩ := mods_of_core hs.core hme'
    simp only [ModEntry.core, ModEntry.mk.injEq] at hcore
    exact ⟨me, hme, by simp [hcore]⟩
  refine ⟨?_, ?_, ?_, ?_, ?_, ?_, ?_⟩
  · rw [hs.heap.modsOf, hpath]
    exact h.lists
  · intro e he me' hme'
    rw [hs.heap.modsOf] at he
    obtain ⟨me, hme, hp, hcount, -⟩ := hfields e me' hme'
    rw [hp, hcount]
    exact h.count e he me hme
  · intro e me' hme'
    obtain ⟨me, hme, -⟩ := hfields e me' hme'
    rw [hs.heap.modsOf]
    exact h.only e me hme
  · intro e me' hme'
    obtain ⟨me, hme, -, -, hregion, -⟩ := hfields e me' hme'
    exact (hs.regions.key r hr).trans ((h.region e me hme).trans hregion.symm)
  · intro e me' hme'
    obtain ⟨me, hme, -, -, -, hparent, -⟩ := hfields e me' hme'
    exact hparent.trans (h.parent e me hme)
  · intro e me' hme'
    obtain ⟨me, hme, hp, -, -, -, hkey⟩ := hfields e me' hme'
    rw [hkey, hp, hs.regions.keyIn hr]
    exact h.key e me hme
  · intro e me' hme'
    obtain ⟨me, hme, -, -, -, -, hkey⟩ := hfields e me' hme'
    rw [hkey, hs.heap.modHd]
    exact h.table e me hme

/-- Nothing is loaded. -/
theorem nil (hheap : rt.HeapWf) (hnone : ∀ e, rt.mods e = none) : HeldAt rt r [] [] none := by
  have hempty : rt.modsOf r = [] := List.eq_nil_iff_forall_not_mem.mpr fun e he => by
    have hhome := hheap.mem_iff.mp he
    rw [Runtime.home, hnone e] at hhome
    cases hhome
  refine ⟨⟨[], .nil, by simp [hempty]⟩, ?_, ?_, ?_, ?_, ?_, ?_⟩
  · intro e he
    rw [hempty] at he
    cases he
  all_goals
    intro e me hme
    rw [hnone e] at hme
    cases hme

/-- A write to one entry that keeps what it is known by. -/
theorem modify (h : HeldAt rt r held counted extra) {held' counted' : List (Use CStr)}
    {f : ModEntry → ModEntry}
    (hf : ∀ me, (f me).ident = me.ident ∧ (f me).parentEntry = me.parentEntry)
    (hlists : ∀ l, Lists held l → Lists held' l) (hme : rt.mods e = some me)
    (hcount : e ∈ rt.modsOf r → (f me).refcount = balance me.loadPath counted')
    (hother : ∀ path, path ≠ me.loadPath → balance path counted' = balance path counted) :
    HeldAt (rt.modifyMod e f) r held' counted' extra := by
  have hpath : (rt.modifyMod e f).pathOf = rt.pathOf :=
    funext fun x => modifyMod_proj ModEntry.loadPath
      (fun me => congrArg Ident.path (hf me).1) rt e x
  have hfields : ∀ x mx', (rt.modifyMod e f).mods x = some mx' → ∃ mx, rt.mods x = some mx
      ∧ mx'.ident = mx.ident ∧ mx'.parentEntry = mx.parentEntry
      ∧ mx' = if x = e then f mx else mx := by
    intro x mx' hx
    obtain ⟨mx, hmx, rfl⟩ := modifyMod_some hx
    refine ⟨mx, hmx, ?_, ?_, rfl⟩
    · split
      · exact (hf mx).1
      · rfl
    · split
      · exact (hf mx).2
      · rfl
  refine ⟨?_, ?_, ?_, ?_, ?_, ?_, ?_⟩
  · obtain ⟨l, hl, hpaths⟩ := h.lists
    rw [hpath]
    exact ⟨l, hlists l hl, hpaths⟩
  · intro x hx mx' hmx'
    obtain ⟨mx, hmx, hident, -, heq⟩ := hfields x mx' hmx'
    rw [show mx'.loadPath = mx.loadPath from congrArg Ident.path hident]
    by_cases hxe : x = e
    · subst hxe
      rw [if_pos rfl] at heq
      obtain rfl : me = mx := Option.some.inj (hme.symm.trans hmx)
      rw [heq]
      exact hcount hx
    · rw [if_neg hxe] at heq
      rw [heq, h.count x hx mx hmx, hother]
      exact fun hp => hxe (h.eq_of_path hme hmx hp)
  · intro x mx' hmx'
    obtain ⟨mx, hmx, -⟩ := hfields x mx' hmx'
    exact h.only x mx hmx
  · intro x mx' hmx'
    obtain ⟨mx, hmx, hident, -⟩ := hfields x mx' hmx'
    exact (h.region x mx hmx).trans (congrArg Ident.region hident).symm
  · intro x mx' hmx'
    obtain ⟨mx, hmx, -, hparent, -⟩ := hfields x mx' hmx'
    exact hparent.trans (h.parent x mx hmx)
  · intro x mx' hmx'
    obtain ⟨mx, hmx, hident, -⟩ := hfields x mx' hmx'
    rw [show mx'.modKey = mx.modKey from congrArg Ident.key hident,
      show mx'.loadPath = mx.loadPath from congrArg Ident.path hident]
    exact h.key x mx hmx
  · intro x mx' hmx'
    obtain ⟨mx, hmx, hident, -⟩ := hfields x mx' hmx'
    rw [show mx'.modKey = mx.modKey from congrArg Ident.key hident]
    exact h.table x mx hmx

/-- An entry is published for a module that is not held. -/
theorem publish (h : HeldAt rt r us us none) (hheap : rt.HeapWf) {tx : LoadTxn}
    (hregion : (rt.regions r).key = tx.inheritedKey)
    (hkey : tx.lookup.key = rt.keyIn tx.lookup.loadPath r)
    (habsent : balance tx.lookup.loadPath us = 0) :
    HeldAt (rt.publishEntry (tx.freshEntry none)) r us us (some rt.nmods) := by
  have hfresh : rt.mods rt.nmods = none := hheap.fresh le_rfl
  have hout : ∀ x ∈ rt.modsOf r, x ≠ rt.nmods := by
    rintro x hx rfl
    have hhome := hheap.mem_iff.mp hx
    rw [Runtime.home, hfresh] at hhome
    cases hhome
  have hmods : (rt.publishEntry (tx.freshEntry none)).mods
      = Function.update rt.mods rt.nmods (some (tx.freshEntry none)) := rfl
  have hcases : ∀ x mx, (rt.publishEntry (tx.freshEntry none)).mods x = some mx →
      (x = rt.nmods ∧ mx = tx.freshEntry none) ∨ (x ≠ rt.nmods ∧ rt.mods x = some mx) := by
    intro x mx hx
    rw [hmods] at hx
    by_cases hxn : x = rt.nmods
    · subst hxn
      rw [Function.update_self] at hx
      exact Or.inl ⟨rfl, (Option.some.inj hx).symm⟩
    · rw [Function.update_of_ne hxn] at hx
      exact Or.inr ⟨hxn, hx⟩
  have hpath : ∀ x ∈ rt.modsOf r,
      (rt.publishEntry (tx.freshEntry none)).pathOf x = rt.pathOf x := fun x hx => by
    unfold Runtime.pathOf
    rw [hmods, Function.update_of_ne (hout x hx)]
  refine ⟨?_, ?_, ?_, ?_, ?_, ?_, ?_⟩
  · obtain ⟨l, hl, hpaths⟩ := h.lists
    exact ⟨l, hl, (List.map_congr_left hpath).trans hpaths⟩
  · intro x hx mx hmx
    rcases hcases x mx hmx with ⟨hxn, -⟩ | ⟨-, hmx⟩
    · exact absurd hxn (hout x hx)
    · exact h.count x hx mx hmx
  · intro x mx hmx
    rcases hcases x mx hmx with ⟨rfl, -⟩ | ⟨-, hmx⟩
    · exact Or.inr rfl
    · exact Or.inl ((h.only x mx hmx).resolve_right (by simp))
  · intro x mx hmx
    rcases hcases x mx hmx with ⟨-, rfl⟩ | ⟨-, hmx⟩
    · exact hregion
    · exact h.region x mx hmx
  · intro x mx hmx
    rcases hcases x mx hmx with ⟨-, rfl⟩ | ⟨-, hmx⟩
    · rfl
    · exact h.parent x mx hmx
  · intro x mx hmx
    rcases hcases x mx hmx with ⟨-, rfl⟩ | ⟨-, hmx⟩
    · exact hkey
    · exact h.key x mx hmx
  · intro x mx hmx
    show (rt.modHd.insert tx.lookup.key rt.nmods).lookup mx.modKey = some x
    rcases hcases x mx hmx with ⟨rfl, rfl⟩ | ⟨-, hmx⟩
    · exact AList.lookup_insert _
    · rw [AList.lookup_insert_ne, h.table x mx hmx]
      rw [h.key x mx hmx, hkey]
      intro heq
      have hlisted := h.listed_iff.mp
        ⟨x, (h.only x mx hmx).resolve_right (by simp), mx, hmx, keyIn_inj.mp heq⟩
      omega

/-- The entry is linked: a lifetime begins. -/
theorem link (h : HeldAt rt r us us (some e)) (hheap : rt.HeapWf) (ht : rt.tree.Wf)
    (hr : r < rt.nregions) (hme : rt.mods e = some me) (hun : me.regionEntry = none)
    (hone : me.refcount = 1) (habsent : balance me.loadPath us = 0) (size : Nat) :
    HeldAt (rt.linkEntry e me size) r (us ++ [.acquire me.loadPath])
      (us ++ [.acquire me.loadPath]) none := by
  have hlookup : rt.regionLookup me.regionId me.regionPlen = some r :=
    (regionLookup_eq_some ht).mpr ⟨hr, h.region e me hme⟩
  have hlist := @linkEntry_modsOf rt e hheap me size r hlookup
  obtain ⟨state, hmods⟩ := linkEntry_mods rt e me size hme
  have hkept : rt.RegionsKept (rt.linkEntry e me size) := .of_tree (linkEntry_tree ..)
  have hnotin : e ∉ rt.modsOf r := fun hin => by
    have hhome := hheap.mem_iff.mp hin
    rw [home_of_mods hme, hun] at hhome
    cases hhome
  have hcases : ∀ x mx', (rt.linkEntry e me size).mods x = some mx' → ∃ mx, rt.mods x = some mx
      ∧ mx'.ident = mx.ident ∧ mx'.parentEntry = mx.parentEntry ∧ mx'.refcount = mx.refcount := by
    intro x mx' hx
    rw [hmods] at hx
    by_cases hxe : x = e
    · subst hxe
      rw [Function.update_self] at hx
      cases hx
      exact ⟨me, hme, rfl, rfl, rfl⟩
    · rw [Function.update_of_ne hxe] at hx
      exact ⟨mx', hx, rfl, rfl, rfl⟩
  have hpath : ∀ x, (rt.linkEntry e me size).pathOf x = rt.pathOf x := by
    intro x
    unfold Runtime.pathOf
    rw [hmods]
    by_cases hxe : x = e
    · subst hxe
      rw [Function.update_self, hme]
      rfl
    · rw [Function.update_of_ne hxe]
  have hmem : ∀ x, x ∈ (rt.linkEntry e me size).modsOf r ↔ x ∈ rt.modsOf r ∨ x = e := by
    intro x
    rw [hlist, Function.update_self, List.mem_append, List.mem_singleton]
  refine ⟨?_, ?_, ?_, ?_, ?_, ?_, ?_⟩
  · obtain ⟨l, hl, hpaths⟩ := h.lists
    refine ⟨l ++ [me.loadPath], hl.born habsent, ?_⟩
    rw [hlist, Function.update_self, List.map_congr_left fun x _ => hpath x, List.map_append,
      hpaths, List.map_append]
    simp [Runtime.pathOf, hme]
  · intro x hx mx' hmx'
    obtain ⟨mx, hmx, hident, -, hcount⟩ := hcases x mx' hmx'
    rw [show mx'.loadPath = mx.loadPath from congrArg Ident.path hident, hcount, balance_concat,
      Use.count]
    rcases (hmem x).mp hx with hin | rfl
    · rw [h.count x hin mx hmx, if_neg]
      exact fun heq => hnotin (h.eq_of_path hmx hme heq ▸ hin)
    · obtain rfl : me = mx := Option.some.inj (hme.symm.trans hmx)
      rw [if_pos rfl, habsent, hone]
      rfl
  · intro x mx' hmx'
    obtain ⟨mx, hmx, -⟩ := hcases x mx' hmx'
    refine Or.inl ((hmem x).mpr ?_)
    rcases h.only x mx hmx with hin | hextra
    · exact Or.inl hin
    · exact Or.inr (Option.some.inj hextra).symm
  · intro x mx' hmx'
    obtain ⟨mx, hmx, hident, -⟩ := hcases x mx' hmx'
    exact (hkept.key r hr).trans ((h.region x mx hmx).trans (congrArg Ident.region hident).symm)
  · intro x mx' hmx'
    obtain ⟨mx, hmx, -, hparent, -⟩ := hcases x mx' hmx'
    exact hparent.trans (h.parent x mx hmx)
  · intro x mx' hmx'
    obtain ⟨mx, hmx, hident, -⟩ := hcases x mx' hmx'
    rw [show mx'.modKey = mx.modKey from congrArg Ident.key hident,
      show mx'.loadPath = mx.loadPath from congrArg Ident.path hident, hkept.keyIn hr]
    exact h.key x mx hmx
  · intro x mx' hmx'
    obtain ⟨mx, hmx, hident, -⟩ := hcases x mx' hmx'
    rw [show mx'.modKey = mx.modKey from congrArg Ident.key hident, (linkEntry_modHd ..).1]
    exact h.table x mx hmx

/-- The entry is unloaded: its lifetime has ended. -/
theorem remove (h : HeldAt rt r us (us ++ [.release me.loadPath]) none) (hheap : rt.HeapWf)
    (hr : r < rt.nregions) (hme : rt.mods e = some me) (hone : balance me.loadPath us = 1) :
    HeldAt (rt.removeEntry w e me) r (us ++ [.release me.loadPath])
      (us ++ [.release me.loadPath]) none := by
  have hin : e ∈ rt.modsOf r := (h.only e me hme).resolve_right nofun
  have hlist : (rt.removeEntry w e me).modsOf r = _ := removeEntry_modsOf hheap e me r
  obtain ⟨rt₁, hcore, hmods⟩ := removeEntry_mods (w := w) rt e me
  have hkept : rt.RegionsKept (rt.removeEntry w e me) := .of_tree (removeEntry_tree ..)
  have hcases : ∀ x mx', (rt.removeEntry w e me).mods x = some mx' → x ≠ e ∧ ∃ mx,
      rt.mods x = some mx ∧ mx'.ident = mx.ident ∧ mx'.parentEntry = mx.parentEntry
        ∧ mx'.refcount = mx.refcount := by
    intro x mx' hx
    rw [hmods] at hx
    by_cases hxe : x = e
    · subst hxe
      rw [Function.update_self] at hx
      cases hx
    · rw [Function.update_of_ne hxe] at hx
      obtain ⟨mx, hmx, hc⟩ := mods_of_core hcore hx
      simp only [ModEntry.core, ModEntry.mk.injEq] at hc
      exact ⟨hxe, mx, hmx, by simp [ModEntry.ident, hc], by simp [hc], by simp [hc]⟩
  have hpath : ∀ x, x ≠ e → (rt.removeEntry w e me).pathOf x = rt.pathOf x := by
    intro x hxe
    unfold Runtime.pathOf
    rw [hmods, Function.update_of_ne hxe]
    exact map_of_core ModEntry.loadPath (fun _ => rfl) hcore x
  have hnodup := hheap.nodup r
  refine ⟨?_, ?_, ?_, ?_, ?_, ?_, ?_⟩
  · obtain ⟨l, hl, hpaths⟩ := h.lists
    refine ⟨l.erase me.loadPath, hl.gone hone, ?_⟩
    rw [hlist, hnodup.erase_eq_filter, hl.nodup.erase_eq_filter]
    have hfilter : (rt.modsOf r).filter (· != e)
        = (rt.modsOf r).filter ((fun p => decide (p ≠ some me.loadPath)) ∘ rt.pathOf) := by
      refine List.filter_congr fun x hx => ?_
      have hiff : x = e ↔ rt.pathOf x = some me.loadPath := by
        constructor
        · rintro rfl
          simp [Runtime.pathOf, hme]
        · intro hp
          obtain ⟨mx, hmx, hp⟩ := Option.map_eq_some_iff.mp hp
          exact h.eq_of_path hme hmx hp
      rw [Bool.eq_iff_iff]
      simp [hiff]
    rw [List.map_congr_left fun x hx => hpath x (by simpa using (List.mem_filter.mp hx).2),
      hfilter, ← List.filter_map, hpaths, List.filter_map]
    refine congrArg _ (List.filter_congr fun p _ => ?_)
    rw [Bool.eq_iff_iff]
    simp
  · intro x hx mx' hmx'
    obtain ⟨hne, mx, hmx, hident, -, hcount⟩ := hcases x mx' hmx'
    rw [show mx'.loadPath = mx.loadPath from congrArg Ident.path hident, hcount]
    rw [hlist] at hx
    exact h.count x (List.mem_of_mem_erase hx) mx hmx
  · intro x mx' hmx'
    obtain ⟨hne, mx, hmx, -⟩ := hcases x mx' hmx'
    rw [hlist]
    exact Or.inl ((hnodup.mem_erase_iff).mpr ⟨hne, (h.only x mx hmx).resolve_right nofun⟩)
  · intro x mx' hmx'
    obtain ⟨-, mx, hmx, hident, -⟩ := hcases x mx' hmx'
    exact (hkept.key r hr).trans ((h.region x mx hmx).trans (congrArg Ident.region hident).symm)
  · intro x mx' hmx'
    obtain ⟨-, mx, hmx, -, hparent, -⟩ := hcases x mx' hmx'
    exact hparent.trans (h.parent x mx hmx)
  · intro x mx' hmx'
    obtain ⟨-, mx, hmx, hident, -⟩ := hcases x mx' hmx'
    rw [show mx'.modKey = mx.modKey from congrArg Ident.key hident,
      show mx'.loadPath = mx.loadPath from congrArg Ident.path hident, hkept.keyIn hr]
    exact h.key x mx hmx
  · intro x mx' hmx'
    obtain ⟨hne, mx, hmx, hident, -⟩ := hcases x mx' hmx'
    rw [show mx'.modKey = mx.modKey from congrArg Ident.key hident, removeEntry_modHd,
      AList.lookup_erase_ne, h.table x mx hmx]
    rw [h.key x mx hmx, h.key e me hme]
    exact fun heq => hne (h.eq_of_path hme hmx (keyIn_inj.mp heq))

end HeldAt

/-! ## The call in progress -/

/-- How far the call in progress has come, after the uses `us` and the `xy_install`s
of `inst`. -/
inductive Phase (r : RegionRef) (us : List (Use CStr)) (inst : List CStr) (c : Config) : Prop
  | idle (hload : c.loading = []) (hheld : HeldAt c.st.rt r us us none)
    (hinst : inst = births us)
  /-- The lookup has been made, and the file is being opened. -/
  | opening {tx : LoadTxn} {pc : LoadPc} {us' : List (Use CStr)}
    (hload : c.loading = [.load tx pc]) (hpc : pc = .opening ∨ pc = .opened)
    (hus : us = us' ++ [.acquire tx.lookup.loadPath]) (hheld : HeldAt c.st.rt r us' us' none)
    (hinst : inst = births us') (hregion : (c.st.rt.regions r).key = tx.inheritedKey)
    (hkey : tx.lookup.key = c.st.rt.keyIn tx.lookup.loadPath r)
    (hentry : tx.lookup.entry = c.st.rt.modHd.lookup tx.lookup.key)
  /-- The entry is published, and not linked yet. -/
  | early {tx : LoadTxn} {pc : LoadPc} {us' : List (Use CStr)} {e : EntryRef} {me : ModEntry}
    (hload : c.loading = [.load tx pc]) (hpc : pc = .bind ∨ pc = .claim ∨ pc = .link)
    (hus : us = us' ++ [.acquire me.loadPath]) (hheld : HeldAt c.st.rt r us' us' (some e))
    (hinst : inst = births us') (hregion : (c.st.rt.regions r).key = tx.inheritedKey)
    (he : tx.modEntry = some e) (hme : c.st.rt.mods e = some me) (hun : me.regionEntry = none)
    (hone : me.refcount = 1) (habsent : balance me.loadPath us' = 0)
  | linked {tx : LoadTxn} {us' : List (Use CStr)} {e : EntryRef} {me : ModEntry}
    (hload : c.loading = [.load tx .install]) (hus : us = us' ++ [.acquire me.loadPath])
    (hheld : HeldAt c.st.rt r us us none) (hinst : inst = births us')
    (he : tx.modEntry = some e) (hme : c.st.rt.mods e = some me)
    (habsent : balance me.loadPath us' = 0)
  | installing {tx : LoadTxn} {prev : Option EntryRef}
    (hload : c.loading = [.load tx (.installing prev)]) (hheld : HeldAt c.st.rt r us us none)
    (hinst : inst = births us)
  | unloading {e : EntryRef} {me : ModEntry} {us' : List (Use CStr)}
    (hload : c.loading = [.unload e []]) (hus : us = us' ++ [.release me.loadPath])
    (hheld : HeldAt c.st.rt r us' us none) (hinst : inst = births us)
    (hme : c.st.rt.mods e = some me) (hone : balance me.loadPath us' = 1)

variable {c c' : Config} {a : Action} {ev : Event} {inst : List CStr}

/-- The step that enters an `xy_install`. -/
theorem Step.install_top (h : Step w c a c' (.enterInstall e)) :
    a = .tau ∧ ∃ tx k, c.stack = .load tx .install :: k ∧ tx.modEntry = some e := by
  have hres : ∀ {s ret k}, resume s ret k ≠ .next c' (.enterInstall e) := fun hr => by
    have hev := resume_event hr
    cases hev
  cases h with
  | install he hi => exact ⟨rfl, _, _, rfl, he⟩
  | unload hw hu => exact absurd hu.event (by simp [Event.enters])
  | reload hw hl hme hu => exact absurd hu.event (by simp [Event.enters])
  | cascade hme hp hs hu => exact absurd hu.event (by simp [Event.enters])
  | dlopenFailed hr => exact absurd hr hres
  | reuse hl hme hr => exact absurd hr hres
  | installed hr => exact absurd hr hres
  | abort ha hr => exact absurd hr hres
  | remove hme hr => exact absurd hr hres

theorem Phase.quiet (h : Phase r us inst c) (hs : c.st.rt.SameModules c'.st.rt)
    (hload : c'.loading = c.loading) (hr : r < c.st.rt.nregions) : Phase r us inst c' := by
  have hkey : ∀ path, c'.st.rt.keyIn path r = c.st.rt.keyIn path r := hs.regions.keyIn hr
  have hmods : ∀ {e me}, c.st.rt.mods e = some me → ∃ me', c'.st.rt.mods e = some me'
      ∧ me'.loadPath = me.loadPath ∧ me'.regionEntry = me.regionEntry
      ∧ me'.refcount = me.refcount := by
    intro e me hme
    have hcore := congrFun hs.core e
    simp only [Runtime.core, hme, Option.map_some] at hcore
    obtain ⟨me', hme', hc⟩ := Option.map_eq_some_iff.mp hcore
    simp only [ModEntry.core, ModEntry.mk.injEq] at hc
    exact ⟨me', hme', by simp [hc]⟩
  cases h with
  | idle hl hheld hinst => exact .idle (hload.trans hl) (hheld.same hs hr) hinst
  | opening hl hpc hus hheld hinst hregion hk hentry =>
    exact .opening (hload.trans hl) hpc hus (hheld.same hs hr) hinst
      ((hs.regions.key r hr).trans hregion) (hk.trans (hkey _).symm)
      (hentry.trans (by rw [hs.heap.modHd]))
  | early hl hpc hus hheld hinst hregion he hme hun hone habsent =>
    obtain ⟨me', hme', hp, hreg, hcount⟩ := hmods hme
    exact .early (hload.trans hl) hpc (hp ▸ hus) (hheld.same hs hr) hinst
      ((hs.regions.key r hr).trans hregion) he hme' (hreg.trans hun) (hcount.trans hone)
      (hp ▸ habsent)
  | linked hl hus hheld hinst he hme habsent =>
    obtain ⟨me', hme', hp, -⟩ := hmods hme
    exact .linked (hload.trans hl) (hp ▸ hus) (hheld.same hs hr) hinst he hme' (hp ▸ habsent)
  | installing hl hheld hinst => exact .installing (hload.trans hl) (hheld.same hs hr) hinst
  | unloading hl hus hheld hinst hme hone =>
    obtain ⟨me', hme', hp, -⟩ := hmods hme
    exact .unloading (hload.trans hl) (hp ▸ hus) (hheld.same hs hr) hinst hme' (hp ▸ hone)

/-- A return to a stack with no load on it. -/
theorem resume_idle {s : State} {ret : Int} {k : List Frame}
    (hk : k.filter Frame.isLoading = []) (hr : resume s ret k = .next c' ev) :
    c'.st = s.setErr ret ∧ c'.loading = [] ∧ ev = .returned (.int ret) := by
  unfold resume at hr
  split at hr
  · cases hk
  · cases hk
  · cases hk
  · cases hr
    exact ⟨rfl, hk, rfl⟩

/-- What is asked of the configuration before a step of the run. -/
structure Ready (w : World) (r : RegionRef) (c : Config) : Prop where
  wf : c.Wf w
  loader : LoaderOk c.st.tls.loadingMod c.stack
  gates : GatesOk c.st.rt
  lt : r < c.st.rt.nregions

/-- The width of the current region. -/
theorem Config.At.plen (h : c.At r) :
    c.st.tls.current.id = (c.st.rt.regions r).id
      ∧ c.st.regionCurrentPlen = (c.st.rt.regions r).plen := by
  unfold State.regionCurrentPlen
  rw [h]
  exact ⟨rfl, rfl⟩

theorem phase_load {fname : CStr} (hidle : c.loading = []) (hheld : HeldAt c.st.rt r us us none)
    (hinst : inst = births us) (hat : c.At r)
    (hs : step w c (.call (.load fname)) = .next c' ev) :
    Phase r (us ++ [.acquire (w.loadPath fname)]) inst c' := by
  unfold Xylem.step at hs
  dsimp only at hs
  split at hs
  · cases hs
    obtain ⟨hid, hplen⟩ := hat.plen
    refine @Phase.opening _ _ _ _ (modLoadStart w c.st fname) _ _ ?_ (Or.inl rfl) rfl hheld hinst
      ?_ ?_ rfl
    · show Frame.load _ _ :: c.stack.filter Frame.isLoading = _
      rw [show c.stack.filter Frame.isLoading = [] from hidle]
    · show _ = (⟨c.st.tls.current.id, c.st.regionCurrentPlen⟩ : RegionKey)
      rw [hid, hplen]
      rfl
    · show modKey (w.loadPath fname) c.st.tls.current.id c.st.regionCurrentPlen = _
      rw [hid, hplen]
      rfl
  · cases hs

/-- A call of `xy_unload` in the region: nothing is held, or one use is given back,
or the last one is. -/
theorem phase_unload {fname : CStr} (hidle : c.loading = [])
    (hheld : HeldAt c.st.rt r us us none) (hinst : inst = births us) (hheap : c.st.rt.HeapWf)
    (hat : c.At r) (hs : step w c (.call (.unload fname)) = .next c' ev) :
    Phase r (us ++ [.release (w.loadPath fname)]) inst c'
      ∧ (balance (w.loadPath fname) us = 0 →
        c' = ⟨c.st.setErr xyErrNotfound, c.stack⟩ ∧ ev = .returned (.int xyErrNotfound)) := by
  unfold Xylem.step at hs
  dsimp only at hs
  split at hs
  swap
  · cases hs
  have hu := Unloads.of_beginUnload hs
  obtain ⟨hid, hplen⟩ := hat.plen
  have hbirths : births (us ++ [.release (w.loadPath fname)]) = births us := by
    rw [births_concat]
    exact List.append_nil _
  have hother : ∀ path, path ≠ w.loadPath fname →
      balance path (us ++ [.release (w.loadPath fname)]) = balance path us := fun path hne => by
    rw [balance_concat, Use.count, if_neg (Ne.symm hne)]
  have hself : balance (w.loadPath fname) (us ++ [.release (w.loadPath fname)])
      = balance (w.loadPath fname) us - 1 := by
    rw [balance_concat, Use.count, if_pos rfl]
  have hfound : ∀ e, c.st.rt.modHd.lookup
      (modKey (w.loadPath fname) c.st.tls.current.id c.st.regionCurrentPlen) = some e →
      ∃ me, c.st.rt.mods e = some me ∧ me.loadPath = w.loadPath fname
        ∧ e ∈ c.st.rt.modsOf r ∧ me.refcount = balance (w.loadPath fname) us
        ∧ 0 < balance (w.loadPath fname) us := by
    intro e hl
    rw [hid, hplen] at hl
    obtain ⟨me, hme, hp⟩ := (hheld.lookup_iff hheap).mp hl
    have hin := (hheld.only e me hme).resolve_right (by simp)
    exact ⟨me, hme, hp, hin, hp ▸ hheld.count e hin me hme,
      hheld.listed_iff.mp ⟨e, hin, me, hme, hp⟩⟩
  cases hu with
  | notFound hl hr =>
    have habsent : balance (w.loadPath fname) us = 0 := by
      refine Nat.eq_zero_of_not_pos fun hpos => ?_
      obtain ⟨e, hin, me, hme, hp⟩ := hheld.listed_iff.mpr hpos
      rw [hid, hplen] at hl
      have hl' := (hheld.lookup_iff hheap).mpr ⟨me, hme, hp⟩
      exact absurd (hl.symm.trans hl') (by simp)
    obtain ⟨hst, hload, hev⟩ := resume_idle hidle hr
    have hrt : c'.st.rt = c.st.rt := by rw [hst]; rfl
    refine ⟨.idle hload ?_ (hinst.trans hbirths.symm), fun _ => ⟨?_, hev⟩⟩
    · rw [hrt]
      refine { hheld with lists := ?_, count := ?_ }
      · obtain ⟨l, hl, hpaths⟩ := hheld.lists
        exact ⟨l, hl.kept (by omega), hpaths⟩
      · intro e he me hme
        rw [hother, hheld.count e he me hme]
        intro hp
        have hpos := hheld.listed_iff.mp ⟨e, he, me, hme, hp⟩
        omega
    · obtain ⟨s', k'⟩ := c'
      unfold resume at hr
      split at hr
      · exact absurd hidle (by simp [Config.loading, *, Frame.isLoading])
      · exact absurd hidle (by simp [Config.loading, *, Frame.isLoading])
      · exact absurd hidle (by simp [Config.loading, *, Frame.isLoading])
      · cases hr
        rfl
  | @shared e me c' ev hl hme href hr =>
    obtain ⟨me', hme', hp, hin, hcount, hpos⟩ := hfound e hl
    obtain rfl : me = me' := Option.some.inj (hme.symm.trans hme')
    obtain ⟨hst, hload, -⟩ := resume_idle hidle hr
    refine ⟨.idle hload ?_ (hinst.trans hbirths.symm), fun habsent => by omega⟩
    rw [hst]
    refine hheld.modify (fun _ => ⟨rfl, rfl⟩) (fun l hl => hl.kept (by omega)) hme (fun _ => ?_)
      (fun path hne => hother path (hp ▸ hne))
    rw [hp, hself]
    show me.refcount - 1 = _
    omega
  | @cascade e me hl hme href =>
    obtain ⟨me', hme', hp, hin, hcount, hpos⟩ := hfound e hl
    obtain rfl : me = me' := Option.some.inj (hme.symm.trans hme')
    have hheld' : HeldAt (c.st.release e).rt r us (us ++ [.release (w.loadPath fname)]) none := by
      refine hheld.modify (fun _ => ⟨rfl, rfl⟩) (fun _ hl => hl) hme (fun _ => ?_)
        (fun path hne => hother path (hp ▸ hne))
      rw [hp, hself]
      show me.refcount - 1 = _
      omega
    have hchildren : (c.st.release e).rt.cascadeChildren w e = [] := by
      refine List.filter_eq_nil_iff.mpr fun x _ hx => ?_
      simp only [decide_eq_true_eq] at hx
      obtain ⟨mx, hmx, hparent⟩ := (Option.any_eq_true ..).mp hx.2
      rw [hheld'.parent x mx hmx] at hparent
      simp at hparent
    refine ⟨@Phase.unloading _ _ _ _ e { me with refcount := me.refcount - 1 } _ ?_ ?_ hheld'
      (hinst.trans hbirths.symm) ?_ ?_, fun habsent => by omega⟩
    · show Frame.unload e _ :: c.stack.filter Frame.isLoading = _
      rw [hchildren, show c.stack.filter Frame.isLoading = [] from hidle]
    · exact congrArg (fun p => us ++ [Use.release p]) hp.symm
    · show (Function.update c.st.rt.mods e ((c.st.rt.mods e).map _)) e = _
      rw [Function.update_self, hme]
      rfl
    · show balance me.loadPath us = 1
      rw [hp]
      omega

/-- A load of a module that is loaded takes one more use; else the entry is
published. -/
theorem phase_opened {s : State} {k : List Frame} {tx : LoadTxn} {us' : List (Use CStr)}
    (hready : Ready w r ⟨s, .load tx .opened :: k⟩) (hk : k.filter Frame.isLoading = [])
    (hus : us = us' ++ [.acquire tx.lookup.loadPath]) (hheld : HeldAt s.rt r us' us' none)
    (hinst : inst = births us') (hregion : (s.rt.regions r).key = tx.inheritedKey)
    (hkey : tx.lookup.key = s.rt.keyIn tx.lookup.loadPath r)
    (hentry : tx.lookup.entry = s.rt.modHd.lookup tx.lookup.key)
    (hs : Step w ⟨s, .load tx .opened :: k⟩ .tau c' ev) :
    Phase r us inst c' ∧ ∀ v, ev = .returned v → v = .int xyOk := by
  have hheap : s.rt.HeapWf := hready.wf.heap
  rw [hkey] at hentry
  cases hs with
  | @reuse _ _ _ e me _ _ hl hme hr =>
    obtain ⟨me', hme', hp⟩ := (hheld.lookup_iff hheap).mp (hentry.symm.trans hl)
    obtain rfl : me = me' := Option.some.inj (hme.symm.trans hme')
    have hin := (hheld.only e me hme).resolve_right (by simp)
    have hpos := hheld.listed_iff.mp ⟨e, hin, me, hme, rfl⟩
    have hcount := hheld.count e hin me hme
    obtain ⟨hst, hload, hev⟩ := resume_idle hk hr
    rw [← hp] at hus
    subst hus
    refine ⟨.idle hload ?_ ?_, fun v hv => ?_⟩
    · rw [hst]
      refine hheld.modify (fun _ => ⟨rfl, rfl⟩) (fun l hl => hl.again hpos) hme (fun _ => ?_)
        (fun path hne => ?_)
      · rw [balance_concat, Use.count, if_pos rfl]
        show me.refcount + 1 = _
        omega
      · rw [balance_concat, Use.count, if_neg (Ne.symm hne)]
    · rw [hinst, births_concat, Use.birth, if_neg (by omega), List.append_nil]
    · rw [hev] at hv
      cases hv
      rfl
  | publish hl =>
    have hnone := hready.loader
    have habsent : balance tx.lookup.loadPath us' = 0 := by
      refine Nat.eq_zero_of_not_pos fun hpos => ?_
      obtain ⟨e, -, me, hme, hp⟩ := hheld.listed_iff.mpr hpos
      have hl' := (hheld.lookup_iff hheap).mpr ⟨me, hme, hp⟩
      rw [← hentry, hl] at hl'
      cases hl'
    have hloading : s.tls.loadingMod = none := by
      have hok := loaderOk_filter.mpr hnone
      simp only [List.filter_cons, Frame.isLoading, hk, if_true] at hok
      exact hok
    refine ⟨@Phase.early _ _ _ _ (modLoadAllocPublish s tx).2 _ _ s.rt.nmods (tx.freshEntry none) ?_
      (Or.inl rfl) hus ?_ hinst hregion rfl ?_ rfl rfl habsent, by simp⟩
    · show Frame.load _ _ :: k.filter Frame.isLoading = _
      rw [hk]
    · show HeldAt (s.rt.publishEntry (tx.freshEntry s.tls.loadingMod)) r us' us' _
      rw [hloading]
      exact hheld.publish hheap hregion hkey habsent
    · show (s.rt.publishEntry (tx.freshEntry s.tls.loadingMod)).mods s.rt.nmods = _
      rw [hloading]
      exact Function.update_self ..

theorem modLoadBindXy_clean {s : State} {tx : LoadTxn}
    (h : modLoadCtx w s tx = none ∨ modLoadCheckCtxAbi w tx = xyOk) :
    (modLoadBindXy w s tx).2 = xyOk := by
  unfold modLoadBindXy
  dsimp only
  split
  · next hctx he =>
    rcases h with hnone | hok
    · rw [hnone] at hctx
      cases hctx
    · rw [if_neg (not_not.mpr hok)]
  · rfl

/-- A region without a handler lets a load pass. -/
theorem claimGate_flat {s : State} {tx : LoadTxn} (hgates : GatesOk s.rt) (ht : s.rt.tree.Wf)
    (hr : r < s.rt.nregions) (hregion : (s.rt.regions r).key = tx.inheritedKey)
    (hnone : (s.rt.regions r).claimHandler = none) :
    modLoadClaimGate w (modLoadEnterContext s tx).1 (modLoadEnterContext s tx).2 = .flat := by
  have hreq : (s.rt.regions r).requireClaim = false := by
    rw [← Bool.not_eq_true]
    exact fun hreq => hgates r hr hreq hnone
  have hlookup : s.rt.regionLookup tx.inheritedRegionId tx.inheritedRegionPlen = some r :=
    (regionLookup_eq_some ht).mpr ⟨hr, hregion⟩
  unfold modLoadClaimGate modLoadEnterContext
  dsimp only
  rw [hlookup]
  cases (w.dlsym tx.handle .xyClaim).map w.claimBits with
  | none => simp [hreq]
  | some bits => simp [hreq, hnone]

/-- The context is bound, the gate is passed, and the entry is linked. -/
theorem phase_early {s : State} {k : List Frame} {tx : LoadTxn} {pc : LoadPc}
    {us' : List (Use CStr)} (hready : Ready w r ⟨s, .load tx pc :: k⟩)
    (hk : k.filter Frame.isLoading = []) (hpc : pc = .bind ∨ pc = .claim ∨ pc = .link)
    (hus : us = us' ++ [.acquire me.loadPath]) (hheld : HeldAt s.rt r us' us' (some e))
    (hinst : inst = births us') (hregion : (s.rt.regions r).key = tx.inheritedKey)
    (he : tx.modEntry = some e) (hme : s.rt.mods e = some me) (hun : me.regionEntry = none)
    (hone : me.refcount = 1) (habsent : balance me.loadPath us' = 0)
    (hclean : Cleanly w r ⟨s, .load tx pc :: k⟩ a) (hcall : ∀ q, a ≠ .call q)
    (hs : Step w ⟨s, .load tx pc :: k⟩ a c' ev) : Phase r us inst c' ∧ ∀ v, ev ≠ .returned v := by
  have hload : ∀ {s' : State} {tx' : LoadTxn} {pc' : LoadPc},
      Config.loading ⟨s', .load tx' pc' :: k⟩ = [.load tx' pc'] := by
    intro s' tx' pc'
    show Frame.load _ _ :: k.filter Frame.isLoading = _
    rw [hk]
  have hheap : s.rt.HeapWf := hready.wf.heap
  have hnotin : e ∉ s.rt.modsOf r := fun hin => by
    have hhome := hheap.mem_iff.mp hin
    rw [home_of_mods hme, hun] at hhome
    cases hhome
  rcases hpc with rfl | rfl | rfl
  · cases hs with
    | answered | direct | load | unload | reload | scope | eachFirst | dispatchDone
    | dispatchLoop => exact absurd rfl (hcall _)
    | bind =>
      have hok := modLoadBindXy_clean (w := w) hclean
      refine ⟨?_, nofun⟩
      rw [if_pos hok]
      rcases (modLoadBindXy_spec w s tx).2.2 with ⟨hrt, -⟩ | ⟨ctx, e', -, he', -, hrt, -⟩
      · refine .early hload (Or.inr (Or.inl rfl)) hus (hrt.symm ▸ hheld) hinst ?_ he ?_ hun hone
          habsent
        · exact hrt.symm ▸ hregion
        · exact hrt.symm ▸ hme
      · obtain rfl : e = e' := Option.some.inj (he.symm.trans he')
        have hheld' : HeldAt (modLoadBindXy w s tx).1.rt r us' us' (some e) := by
          rw [hrt]
          exact hheld.modify (fun _ => ⟨rfl, rfl⟩) (fun _ hl => hl) hme
            (fun hin => absurd hin hnotin) (fun _ _ => rfl)
        refine @Phase.early _ _ _ _ _ _ _ _ { me with ctx := some ctx } hload (Or.inr (Or.inl rfl))
          hus hheld' hinst ?_ he ?_ hun hone habsent
        · show ((modLoadBindXy w s tx).1.rt.regions r).key = _
          rw [hrt]
          exact hregion
        · show (modLoadBindXy w s tx).1.rt.mods e = _
          rw [hrt]
          show Function.update s.rt.mods e _ e = _
          rw [Function.update_self, hme]
          rfl
  · have hflat := @claimGate_flat w r s tx hready.gates hready.wf.tree hready.lt hregion
    cases hs with
    | answered | direct | load | unload | reload | scope | eachFirst | dispatchDone
    | dispatchLoop => exact absurd rfl (hcall _)
    | claimFlat hg =>
      exact ⟨.early hload (Or.inr (Or.inr rfl)) hus hheld hinst hregion he hme hun hone habsent,
        nofun⟩
    | claimRefused hg =>
      rw [hflat hclean] at hg
      cases hg
    | claimAsked hg =>
      rw [hflat hclean] at hg
      cases hg
  · cases hs with
    | answered | direct | load | unload | reload | scope | eachFirst | dispatchDone
    | dispatchLoop => exact absurd rfl (hcall _)
    | @link _ _ _ e' me' he' hme' =>
      obtain rfl : e = e' := Option.some.inj (he.symm.trans he')
      obtain rfl : me = me' := Option.some.inj (hme.symm.trans hme')
      subst hus
      obtain ⟨state, hmods⟩ := linkEntry_mods s.rt e me
        (((w.dlsym tx.handle .xyRegionStateSize).map w.regionStateSize).getD 0) hme
      refine ⟨@Phase.linked _ _ _ _ _ _ _ { me with
          regionState := state
          regionEntry := (s.rt.regionLookup me.regionId me.regionPlen).orElse
            (fun _ => me.regionEntry) } hload rfl
        (hheld.link hheap hready.wf.tree hready.lt hme hun hone habsent _) hinst he ?_ habsent,
        nofun⟩
      show (s.rt.linkEntry e me _).mods e = _
      rw [hmods, Function.update_self]

/-- The `xy_install` of a new entry is entered. -/
theorem phase_linked {s : State} {k : List Frame} {tx : LoadTxn} {us' : List (Use CStr)}
    (hready : Ready w r ⟨s, .load tx .install :: k⟩) (hk : k.filter Frame.isLoading = [])
    (hus : us = us' ++ [.acquire me.loadPath]) (hheld : HeldAt s.rt r us us none)
    (hinst : inst = births us') (he : tx.modEntry = some e) (hme : s.rt.mods e = some me)
    (habsent : balance me.loadPath us' = 0) (hclean : w.dlsym tx.handle .xyInstall ≠ none)
    (hs : Step w ⟨s, .load tx .install :: k⟩ .tau c' ev) :
    Phase r us (inst ++ (Move.installed ⟨⟨s, .load tx .install :: k⟩, .tau, ev, c'⟩).toList) c'
      ∧ ∀ v, ev ≠ .returned v := by
  cases hs with
  | installMissing he' hi => exact absurd hi hclean
  | @install _ _ _ e' he' hi =>
    obtain rfl : e = e' := Option.some.inj (he.symm.trans he')
    have hcore : (modLoadPrewarm w s e).rt.core = s.rt.core :=
      modifyMod_core _ fun me _ => me.core_fnCachePrewarm _ _
    have hsame : s.rt.SameModules (modLoadPrewarm w s e).rt :=
      ⟨hcore, sameHeap_of_core hcore rfl rfl rfl rfl, .of_tree rfl⟩
    have hpath : ((modLoadPrewarm w s e).rt.mods e).map (·.loadPath) = some me.loadPath := by
      rw [map_of_core ModEntry.loadPath (fun _ => rfl) hcore e, hme]
      rfl
    refine ⟨@Phase.installing _ _ _ _ tx s.tls.loadingMod ?_ (hheld.same hsame hready.lt) ?_, nofun⟩
    · show Frame.load _ _ :: k.filter Frame.isLoading = _
      rw [hk]
    · show inst ++ (((modLoadPrewarm w s e).rt.mods e).map (·.loadPath)).toList = births us
      rw [hpath, hinst, hus, births_concat, Use.birth, if_pos habsent]
      rfl

/-- A step of the load or the unload itself. -/
theorem Phase.own {f : Frame} {k : List Frame} (h : Phase r us inst c) (hready : Ready w r c)
    (hstack : c.stack = f :: k) (hf : f.isLoading = true) (hcall : ∀ q, a ≠ .call q)
    (hclean : Cleanly w r c a) (hs : Step w c a c' ev) :
    Phase r us (inst ++ (Move.installed ⟨c, a, ev, c'⟩).toList) c'
      ∧ ((∃ tx pc, f = .load tx pc) → ∀ v, ev = .returned v → v = .int xyOk) := by
  have hloading : c.loading = f :: k.filter Frame.isLoading := by
    rw [Config.loading, hstack, List.filter_cons, if_pos hf]
  have hnone : (∀ tx, f ≠ .load tx .install) →
      inst ++ (Move.installed ⟨c, a, ev, c'⟩).toList = inst := fun hne => by
    have hinst : Move.installed ⟨c, a, ev, c'⟩ = none := by
      unfold Move.installed
      dsimp only
      split
      · obtain ⟨-, tx, k', hstack', -⟩ := hs.install_top
        rw [hstack] at hstack'
        exact absurd (List.cons.inj hstack').1 (hne tx)
      · rfl
    simp only [hinst, Option.toList_none, List.append_nil]
  have htop : ∀ {g : Frame}, c.loading = [g] → f = g ∧ k.filter Frame.isLoading = [] := fun hg =>
    List.cons.inj (hloading.symm.trans hg)
  obtain ⟨s, stack⟩ := c
  obtain rfl : stack = f :: k := hstack
  cases h with
  | idle hl =>
    rw [hl] at hloading
    cases hloading
  | @opening tx pc us' hl hpc hus hheld hinst hregion hkey hentry =>
    obtain ⟨rfl, hk⟩ := htop hl
    rw [hnone fun tx' heq => by rcases hpc with rfl | rfl <;> cases heq]
    rcases hpc with rfl | rfl
    · cases hs with
      | answered | direct | load | unload | reload | scope | eachFirst | dispatchDone
      | dispatchLoop => exact absurd rfl (hcall _)
      | dlopenFailed hr => exact absurd rfl hclean
      | @dlopened _ _ _ handle =>
        refine ⟨@Phase.opening _ _ _ _ { tx with handle := handle } _ _ ?_ (Or.inr rfl) hus hheld
          hinst hregion hkey hentry, fun _ => nofun⟩
        show Frame.load _ _ :: k.filter Frame.isLoading = _
        rw [hk]
    · cases a with
      | call q => exact absurd rfl (hcall q)
      | ret => cases hs
      | tau =>
        have hres := phase_opened hready hk hus hheld hinst hregion hkey hentry hs
        exact ⟨hres.1, fun _ => hres.2⟩
  | @early tx pc us' e me hl hpc hus hheld hinst hregion he hme hun hone habsent =>
    obtain ⟨rfl, hk⟩ := htop hl
    rw [hnone fun tx' heq => by rcases hpc with rfl | rfl | rfl <;> cases heq]
    have hres := phase_early hready hk hpc hus hheld hinst hregion he hme hun hone habsent hclean
      hcall hs
    exact ⟨hres.1, fun _ v hv => absurd hv (hres.2 v)⟩
  | @linked tx us' e me hl hus hheld hinst he hme habsent =>
    obtain ⟨rfl, hk⟩ := htop hl
    cases a with
    | call q => exact absurd rfl (hcall q)
    | ret => cases hs
    | tau =>
      have hres := phase_linked hready hk hus hheld hinst he hme habsent hclean hs
      exact ⟨hres.1, fun _ v hv => absurd hv (hres.2 v)⟩
  | @installing tx prev hl hheld hinst =>
    obtain ⟨rfl, hk⟩ := htop hl
    rw [hnone fun tx' => nofun]
    cases hs with
    | answered | direct | load | unload | reload | scope | eachFirst | dispatchDone
    | dispatchLoop => exact absurd rfl (hcall _)
    | installed hr =>
      obtain ⟨hst, hload, hev⟩ := resume_idle hk hr
      have hrt : c'.st.rt = s.rt := by
        rw [hst]
        exact (modLoadRestoreContext_spec _ tx).1
      refine ⟨.idle hload (hrt ▸ hheld) hinst, fun _ v hv => ?_⟩
      rw [hev] at hv
      cases hv
      rfl
  | @unloading e me us' hl hus hheld hinst hme hone =>
    obtain ⟨rfl, hk⟩ := htop hl
    rw [hnone fun tx' => nofun]
    refine ⟨?_, fun ⟨tx, pc, heq⟩ => nomatch heq⟩
    cases hs with
    | answered | direct | load | unload | reload | scope | eachFirst | dispatchDone
    | dispatchLoop => exact absurd rfl (hcall _)
    | @remove _ _ _ me' _ _ hme' hr =>
      obtain rfl : me = me' := Option.some.inj (hme.symm.trans hme')
      obtain ⟨hst, hload, -⟩ := resume_idle hk hr
      have hrt : c'.st.rt = s.rt.removeEntry w e me := by
        rw [hst]
        exact (modUnloadFinish_spec w s e me).1
      subst hus
      refine .idle hload ?_ hinst
      rw [hrt]
      exact hheld.remove hready.wf.heap hready.lt hme hone

/-- A step of the run, with what it returns. -/
theorem Phase.step (h : Phase r us inst c) (hready : Ready w r c) (hclean : Cleanly w r c a)
    (hs : Xylem.step w c a = .next c' ev) :
    Phase r (us ++ (Move.use w ⟨c, a, ev, c'⟩).toList)
        (inst ++ (Move.installed ⟨c, a, ev, c'⟩).toList) c'
      ∧ (∀ tx pc k v, c.stack = .load tx pc :: k → ev = .returned v → (∀ q, a ≠ .call q) →
        v = .int xyOk)
      ∧ ∀ fname, a = .call (.unload fname) → balance (w.loadPath fname) us = 0 →
        c' = ⟨c.st.setErr xyErrNotfound, c.stack⟩ ∧ ev = .returned (.int xyErrNotfound) := by
  have hstep := Step.of_step hs
  have hnoinst : (∀ tx k, c.stack ≠ .load tx .install :: k) ∨ a ≠ .tau →
      Move.installed ⟨c, a, ev, c'⟩ = none := by
    intro hnot
    unfold Move.installed
    dsimp only
    split
    · next e =>
      obtain ⟨ha, tx, k, hstack, -⟩ := hstep.install_top
      rcases hnot with hnot | hnot
      · exact absurd hstack (hnot tx k)
      · exact absurd ha hnot
    · rfl
  by_cases hq : c.Quiet a
  · obtain ⟨hsame, -, hload⟩ := hstep.sameModules hready.wf hq
    have huse : Move.use w ⟨c, a, ev, c'⟩ = none := by
      unfold Move.use
      dsimp only
      split
      · exact hq.elim
      · exact hq.elim
      · rfl
    have hinst : Move.installed ⟨c, a, ev, c'⟩ = none := by
      by_cases ha : a = .tau
      · refine hnoinst (Or.inl fun tx k hstack => ?_)
        subst ha
        have hf := hq _ (by rw [hstack]; rfl)
        cases hf
      · exact hnoinst (Or.inr ha)
    simp only [huse, hinst, Option.toList_none, List.append_nil]
    refine ⟨h.quiet hsame hload hready.lt, ?_, ?_⟩
    · rintro tx pc k v hstack rfl hcall
      cases a with
      | call q => exact absurd rfl (hcall q)
      | tau | ret =>
        have hf := hq _ (by rw [hstack]; rfl)
        cases hf
    · rintro fname rfl
      exact hq.elim
  · cases a with
    | call q =>
      have hinst : Move.installed ⟨c, .call q, ev, c'⟩ = none := hnoinst (Or.inr (by simp))
      simp only [hinst, Option.toList_none, List.append_nil]
      have hempty : c.loading.isEmpty = true → c.loading = [] := List.isEmpty_iff.mp
      cases q with
      | load fname =>
        obtain ⟨hidle, hat⟩ := hclean
        have hidle := hempty hidle
        refine ⟨?_, fun tx pc k v hstack => absurd hidle ?_, by simp⟩
        · cases h with
          | idle hl hheld hinst => exact phase_load hidle hheld hinst hat hs
          | opening hl | early hl | linked hl | installing hl | unloading hl =>
            rw [hl] at hidle
            cases hidle
        · simp [Config.loading, hstack, Frame.isLoading]
      | unload fname =>
        obtain ⟨hidle, hat⟩ := hclean
        have hidle := hempty hidle
        cases h with
        | idle hl hheld hinst =>
          have hres := phase_unload hidle hheld hinst hready.wf.heap hat hs
          refine ⟨hres.1, fun tx pc k v hstack => absurd hidle ?_, ?_⟩
          · simp [Config.loading, hstack, Frame.isLoading]
          · rintro fname' heq habsent
            cases heq
            exact hres.2 habsent
        | opening hl | early hl | linked hl | installing hl | unloading hl =>
          rw [hl] at hidle
          cases hidle
      | reload | shutdown => exact hclean.elim
      | deny | requireClaim | claimAt | withRegion | regionEach | regionExists | regionAt
      | currentRegion | currentRegionPlen | errno | call | areg | last | selfInitCtx =>
        exact absurd trivial hq
    | tau | ret =>
      obtain ⟨f, hhead, hf⟩ : ∃ f ∈ c.stack.head?, f.isLoading = true := by
        simpa [Config.Quiet] using hq
      obtain ⟨k, hstack⟩ := List.head?_eq_some_iff.mp hhead
      have hown := h.own hready hstack hf (fun _ heq => by cases heq) hclean hstep
      refine ⟨?_, fun tx pc k' v hstack' hv _ => ?_, by simp⟩
      · simp only [Move.use, Option.toList_none, List.append_nil]
        exact hown.1
      · rw [hstack] at hstack'
        exact hown.2 ⟨tx, pc, (List.cons.inj hstack').1⟩ v hv

end

/-! ## Runs -/

section

variable {w : World} {ok : Config → Action → Prop} {c₀ c c' : Config} {log pre : List Move}
  {r : Nat}

theorem RunLog.reachable (h : RunLog w ok c₀ log c) (h₀ : Reachable w c₀) : Reachable w c := by
  induction h with
  | start => exact h₀
  | move _ _ hs ih => exact ih.step trivial ⟨_, hs⟩

/-- The run of a list of actions. -/
theorem RunLog.moves {l : List Action} (h : RunLog w ok c₀ pre c)
    (hlen : (movesOf w c l).length = l.length) (hok : ∀ m ∈ movesOf w c l, ok m.before m.act) :
    RunLog w ok c₀ (pre ++ movesOf w c l) (c.after w l) := by
  induction l generalizing c pre with
  | nil => simpa [movesOf, Config.after, runActions] using h
  | cons a l ih =>
    cases hs : step w c a with
    | undef | disabled =>
      simp only [movesOf, hs] at hlen
      cases hlen
    | next c₁ ev =>
      simp only [movesOf, hs] at hlen hok ⊢
      have hafter : c.after w (a :: l) = c₁.after w l ∨ runActions w c₁ l = none := by
        unfold Config.after
        simp only [runActions, hs]
        cases runActions w c₁ l with
        | none => exact Or.inr rfl
        | some c₂ => exact Or.inl rfl
      have hlen' : (movesOf w c₁ l).length = l.length := Nat.succ.inj hlen
      rw [hafter.resolve_right (by simp [runActions_of_length hlen']),
        ← List.singleton_append, ← List.append_assoc]
      exact ih (h.move (hok _ List.mem_cons_self) hs) hlen'
        fun m hm => hok m (List.mem_cons_of_mem _ hm)

theorem uses_concat (log : List Move) (m : Move) :
    uses w (log ++ [m]) = uses w log ++ (m.use w).toList := by
  unfold uses
  rw [List.filterMap_append]
  cases h : m.use w <;> simp [h]

theorem installs_concat (log : List Move) (m : Move) :
    installs (log ++ [m]) = installs log ++ m.installed.toList := by
  unfold installs
  rw [List.filterMap_append]
  cases h : m.installed <;> simp [h]

/-- What the calls of a run have returned: a load succeeds, and the unload of a module
that is not held changes nothing. -/
structure ReturnsMeet (w : World) (log : List Move) : Prop where
  load : ∀ m ∈ log, ∀ tx pc k v, m.before.stack = .load tx pc :: k → m.event = .returned v →
    (∀ q, m.act ≠ .call q) → v = .int xyOk
  absent : ∀ pre m post, log = pre ++ m :: post → ∀ fname, m.act = .call (.unload fname) →
    balance (w.loadPath fname) (uses w pre) = 0 →
      m.after = ⟨m.before.st.setErr xyErrNotfound, m.before.stack⟩
        ∧ m.event = .returned (.int xyErrNotfound)

/-- The modules of `r` after a run. -/
structure LifecycleMet (w : World) (r : RegionRef) (log : List Move) (c : Config) : Prop where
  listed : ∀ path, (∃ e ∈ c.st.rt.modsOf r, c.st.rt.pathOf e = some path)
    ↔ 0 < balance path (uses w log)
  refcount : ∀ e ∈ c.st.rt.modsOf r, ∀ me, c.st.rt.mods e = some me →
    me.refcount = balance me.loadPath (uses w log)
  order : (c.st.rt.modsOf r).Pairwise fun e e' => ∀ p p', c.st.rt.pathOf e = some p →
    c.st.rt.pathOf e' = some p' → bornAt p (uses w log) < bornAt p' (uses w log)
  installs : installs log = births (uses w log)
  returns : ReturnsMeet w log

theorem phase_of_run (h₀ : Reachable w c₀) (hnone : ∀ e, c₀.st.rt.mods e = none)
    (hidle : c₀.loading = []) (hr : r < c₀.st.rt.nregions)
    (h : RunLog w (Cleanly w r) c₀ log c) :
    Phase r (uses w log) (installs log) c ∧ ReturnsMeet w log ∧ r < c.st.rt.nregions := by
  induction h with
  | start =>
    have hwf : c₀.Wf w := .of_reachable h₀
    exact ⟨.idle hidle (.nil hwf.heap hnone) rfl,
      ⟨by simp, fun pre m post heq => absurd heq (by simp)⟩, hr⟩
  | @move log c c' a ev hrun hok hs ih =>
    obtain ⟨hphase, hreturns, hlt⟩ := ih
    have hreach := hrun.reachable h₀
    have hwf : c.Wf w := .of_reachable hreach
    have hready : Ready w r c :=
      ⟨hwf, loader_of_reachable hreach, gatesOk_of_reachable hreach, hlt⟩
    obtain ⟨hphase', hload, habsent⟩ := hphase.step hready hok hs
    have hlt' : r < c'.st.rt.nregions := by
      rcases ((Step.of_step hs).effect hwf).regionsKept with ⟨rfl, -⟩ | hkept
      · exact hok.elim
      · exact Nat.lt_of_lt_of_le hlt hkept.count
    refine ⟨?_, ⟨fun m hm => ?_, fun pre m post heq => ?_⟩, hlt'⟩
    · rw [uses_concat, installs_concat]
      exact hphase'
    · rcases List.mem_append.mp hm with hm | hm
      · exact hreturns.load m hm
      · rw [List.mem_singleton.mp hm]
        exact fun tx pc k v hstack hev hcall => hload tx pc k v hstack hev hcall
    · rcases List.eq_nil_or_concat post with rfl | ⟨post, x, rfl⟩
      · obtain ⟨rfl, hm⟩ := List.append_inj' heq rfl
        obtain rfl := (List.cons.inj hm).1
        exact fun fname ha hzero => habsent fname ha hzero
      · have hsplit : log ++ [⟨c, a, ev, c'⟩] = (pre ++ m :: post) ++ [x] := by
          rw [heq]
          simp
        exact hreturns.absent pre m post (List.append_inj' hsplit rfl).1

/-- After every call the list of the region has the modules that are held, in the
order in which their lifetimes began, with the number of uses that are left for a
reference count; `xy_install` has run once for each lifetime; a load succeeds, and
an unload of what is absent changes nothing. -/
theorem lifecycle_of_run (h₀ : Reachable w c₀) (hnone : ∀ e, c₀.st.rt.mods e = none)
    (hidle : c₀.loading = []) (hr : r < c₀.st.rt.nregions)
    (h : RunLog w (Cleanly w r) c₀ log c) (hidle' : c.loading = []) :
    LifecycleMet w r log c := by
  obtain ⟨hphase, hreturns, -⟩ := phase_of_run h₀ hnone hidle hr h
  cases hphase with
  | opening hl | early hl | linked hl | installing hl | unloading hl =>
    rw [hl] at hidle'
    cases hidle'
  | idle hl hheld hinst =>
    refine ⟨fun path => ?_, hheld.count, ?_, hinst, hreturns⟩
    · rw [← hheld.listed_iff]
      simp only [Runtime.pathOf, Option.map_eq_some_iff]
    · obtain ⟨l, hlists, hpaths⟩ := hheld.lists
      have hsome : (l.map some).Pairwise fun q q' => ∀ p p', q = some p → q' = some p' →
          bornAt p (uses w log) < bornAt p' (uses w log) := by
        refine List.pairwise_map.mpr (hlists.order.imp fun hlt p p' hp hp' => ?_)
        cases hp
        cases hp'
        exact hlt
      rw [← hpaths] at hsome
      exact List.pairwise_map.mp hsome

end

/-- Two modules are loaded, one of them twice; it is given back once, and the other
one altogether. -/
theorem lifecycle_of_two_modules :
    let l := loadRun sampleFile 1 ++ loadRun sampleFile' 2
      ++ [.call (.load sampleFile'), .ret (.dlopened (some 2)), .tau,
        .call (.unload sampleFile), .tau, .call (.unload sampleFile), .call (.unload sampleFile')]
    LifecycleMet sampleWorld 0 (movesOf sampleWorld (Config.boot sampleHook) l)
        ((Config.boot sampleHook).after sampleWorld l)
      ∧ uses sampleWorld (movesOf sampleWorld (Config.boot sampleHook) l)
        = [.acquire sampleFile, .acquire sampleFile', .acquire sampleFile', .release sampleFile,
          .release sampleFile, .release sampleFile'] := by
  intro l
  have hrun : RunLog sampleWorld (Cleanly sampleWorld 0) (Config.boot sampleHook)
      ([] ++ movesOf sampleWorld (Config.boot sampleHook) l)
      ((Config.boot sampleHook).after sampleWorld l) :=
    RunLog.moves .start (by decide +kernel) (by decide +kernel)
  refine ⟨lifecycle_of_run (.start (Config.boot_initial sampleHook)) (fun _ => rfl) rfl
    (by decide) hrun ?_, ?_⟩
  · have hempty : ((Config.boot sampleHook).after sampleWorld l).loading.isEmpty = true := by
      decide +kernel
    exact List.isEmpty_iff.mp hempty
  · decide +kernel

end Xylem
