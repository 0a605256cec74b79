import Xylem.Table

/-!
# The module table and the module lists

`mod_hd` finds a module entry by its path and its region, and the list of the
region holds it.  `TablesAgree` says that the two know of the same entries.

The table is kept by three writes: an entry is published under the key of the
region that is loaded into, it is re-keyed after a claim, and it is deleted with
its key.  They agree as long as keys tell the regions apart, which the last digit
of the width is missing for, and as long as no load publishes under a key that has
been taken since it looked it up (`KeysApart`).
-/

namespace Xylem

open Xylem.Runtime

/-- No entry of a list, or of a load in progress if `pending`, is in a region that its
key does not tell from `key`. -/
def Runtime.NoTwin (rt : Runtime) (key : RegionKey) (pending : Bool) : Prop :=
  ∀ e < rt.nmods, ∀ me ∈ rt.mods e, pending = true ∨ me.regionEntry ≠ none →
    ¬ key.Twin ⟨me.regionId, me.regionPlen⟩

instance (rt : Runtime) (key : RegionKey) (pending : Bool) : Decidable (rt.NoTwin key pending) := by
  unfold Runtime.NoTwin; infer_instance

/-- What a step has to heed.

* `xy_claim_at` makes no region that a key does not tell from the region of a
  module, and a granted claim none that it does not tell from the region of an entry.
* A load publishes its entry for a region that exists, and under a key that no other
  load has taken since its own lookup.
* A load links its entry into a region that its key tells from all others.
* A reload puts the entry that it finds back into the region of that entry. -/
def KeysApart (w : World) (c : Config) (a : Action) : Prop :=
  match a with
  | .call (.claimAt id plen _) =>
    plen ≤ 64 → id &&& regionMask plen = id → c.st.rt.regionLookup id plen = none →
      c.st.rt.NoTwin ⟨id, plen⟩ false
  | .ret (.granted ret bits) =>
    match c.stack with
    | .load _ (.handler p) :: _ =>
      ret = xyOk → 0 < bits ∧ bits ≤ 64 → c.st.rt.regionAllocSlot p bits ≠ xyRegionInvalid →
        c.st.rt.NoTwin ⟨c.st.rt.regionAllocSlot p bits, (c.st.rt.regions p).plen + bits⟩ true
    | _ => True
  | .tau =>
    match c.stack with
    | .load tx .opened :: _ =>
      tx.lookup.entry = none → c.st.rt.modHd.lookup tx.lookup.key = none
        ∧ c.st.rt.regionLookup tx.inheritedRegionId tx.inheritedRegionPlen ≠ none
    | .load tx .link :: _ =>
      ∀ e ∈ tx.modEntry, ∀ me ∈ c.st.rt.mods e, ∀ r < c.st.rt.nregions,
        (c.st.rt.regions r).key.Twin ⟨me.regionId, me.regionPlen⟩ →
          (c.st.rt.regions r).key = ⟨me.regionId, me.regionPlen⟩
    | .reload rl (.loaded _) :: _ =>
      ∀ e ∈ c.st.rt.modHd.lookup (modKey (w.loadPath rl.fname) rl.id rl.plen),
        ∀ me ∈ c.st.rt.mods e, ∀ r ∈ rl.re,
          (c.st.rt.regions r).key = ⟨me.regionId, me.regionPlen⟩
    | _ => True
  | _ => True

instance (w : World) (c : Config) (a : Action) : Decidable (KeysApart w c a) := by
  unfold KeysApart
  generalize c.stack = k
  induction a using Action.casesOn with
  | call q => induction q using Call.casesOn <;> infer_instance
  | ret v =>
    induction v using Return.casesOn with
    | granted ret bits =>
      induction k using List.casesOn with
      | nil => infer_instance
      | cons f k =>
        induction f using Frame.casesOn with
        | load tx pc => induction pc using LoadPc.casesOn <;> infer_instance
        | _ => infer_instance
    | _ => infer_instance
  | tau =>
    induction k using List.casesOn with
    | nil => infer_instance
    | cons f k =>
      induction f using Frame.casesOn with
      | load tx pc => induction pc using LoadPc.casesOn <;> infer_instance
      | reload rl pc => induction pc using ReloadPc.casesOn <;> infer_instance
      | _ => infer_instance

/-- The key of a module in a region. -/
def Runtime.keyIn (rt : Runtime) (path : CStr) (r : RegionRef) : List UInt8 :=
  modKey path (rt.regions r).id (rt.regions r).plen

/-- The module table and the lists of the regions know of the same entries.

* An entry is in the list of a region exactly when the table has it under its path
  and that region.
* Each entry is in the list of its own region.
* The table has no entry under two regions. -/
structure TablesAgree (rt : Runtime) : Prop where
  linked_iff : ∀ e me, rt.mods e = some me → ∀ r < rt.nregions,
    (e ∈ rt.modsOf r ↔ rt.modHd.lookup (rt.keyIn me.loadPath r) = some e)
  own : ∀ e me, rt.mods e = some me →
    ∃ r < rt.nregions, (rt.regions r).key = ⟨me.regionId, me.regionPlen⟩ ∧ e ∈ rt.modsOf r
  apart : ∀ path e, ∀ r < rt.nregions, ∀ r' < rt.nregions,
    rt.modHd.lookup (rt.keyIn path r) = some e → rt.modHd.lookup (rt.keyIn path r') = some e →
      r = r'

/-! ## What identifies an entry -/

/-- What an entry is known by, and its key in the table. -/
structure Ident where
  path : CStr
  region : RegionKey
  key : List UInt8

def ModEntry.ident (me : ModEntry) : Ident :=
  ⟨me.loadPath, ⟨me.regionId, me.regionPlen⟩, me.modKey⟩

def Runtime.idents (rt : Runtime) (e : EntryRef) : Option Ident := (rt.mods e).map (·.ident)

theorem Runtime.idents_of_mods {rt : Runtime} {e : EntryRef} {me : ModEntry}
    (h : rt.mods e = some me) : rt.idents e = some me.ident := by
  rw [Runtime.idents, h]
  rfl

/-- What a step can do to the table together with the entries. -/
inductive TableChange (w : World) (c : Config) (a : Action) (rt' : Runtime) : Prop
  | same (htable : rt'.modHd = c.st.rt.modHd) (hidents : rt'.idents = c.st.rt.idents)
  | publish {tx : LoadTxn} {k : List Frame} (ha : a = .tau)
      (hstack : c.stack = .load tx .opened :: k) (hl : tx.lookup.entry = none)
      (hrt : rt' = c.st.rt.publishEntry (tx.freshEntry c.st.tls.loadingMod))
  | rekey {tx : LoadTxn} {k : List Frame} {child : RegionKey} {e : EntryRef} (ha : a = .tau)
      (hstack : c.stack = .load tx (.rekey child) :: k)
      (hl : c.st.rt.modHd.lookup tx.lookup.key = some e)
      (hrt : rt' = c.st.rt.moduleRekeyLoadedEntry e tx.lookup.key (w.loadPath tx.fname)
        tx.inheritedKey child)
  | free {e : EntryRef} {me : ModEntry} (hme : c.st.rt.mods e = some me)
      (htable : rt'.modHd = c.st.rt.modHd.erase me.modKey) (hgone : rt'.mods e = none)
      (hidents : ∀ x, x ≠ e → rt'.idents x = c.st.rt.idents x)
  | shutdown (ha : a = .call .shutdown) (hrt : rt' = c.st.rt.bootstrap)

/-- The step frees the entry, at the end of its unload or of a load that fails. -/
def Config.Frees (c : Config) (a : Action) (e : EntryRef) : Prop :=
  a = .tau ∧ ((∃ tx err k, c.stack = .load tx (.aborting err) :: k ∧ tx.modEntry = some e)
    ∨ ∃ k, c.stack = .unload e [] :: k)

/-- What a step can do to the table and to the index of the regions, together with
the entries. -/
inductive TablesChange (w : World) (c : Config) (a : Action) (rt' : Runtime) : Prop
  | same (htable : rt'.modHd = c.st.rt.modHd)
      (hindex : rt'.modByRegionHd = c.st.rt.modByRegionHd) (hidents : rt'.idents = c.st.rt.idents)
  | publish {tx : LoadTxn} {k : List Frame} (ha : a = .tau)
      (hstack : c.stack = .load tx .opened :: k) (hl : tx.lookup.entry = none)
      (hrt : rt' = c.st.rt.publishEntry (tx.freshEntry c.st.tls.loadingMod))
  | rekey {tx : LoadTxn} {k : List Frame} {child : RegionKey} {e : EntryRef} (ha : a = .tau)
      (hstack : c.stack = .load tx (.rekey child) :: k)
      (hl : c.st.rt.modHd.lookup tx.lookup.key = some e)
      (hrt : rt' = c.st.rt.moduleRekeyLoadedEntry e tx.lookup.key (w.loadPath tx.fname)
        tx.inheritedKey child)
  | free {e : EntryRef} {me : ModEntry} (hfrees : c.Frees a e) (hme : c.st.rt.mods e = some me)
      (htable : rt'.modHd = c.st.rt.modHd.erase me.modKey)
      (hindex : rt'.modByRegionHd = Function.update c.st.rt.modByRegionHd me.ident.region
        (w.delMulti (c.st.rt.modByRegionHd me.ident.region)))
      (hgone : rt'.mods e = none) (hidents : ∀ x, x ≠ e → rt'.idents x = c.st.rt.idents x)
  | shutdown (ha : a = .call .shutdown) (hrt : rt' = c.st.rt.bootstrap)

section

variable {w : World} {c c' : Config} {a : Action} {ev : Event} {rt rt' : Runtime} {x : EntryRef}
  {me' : ModEntry}

theorem idents_of_core (hcore : rt'.core = rt.core) : rt'.idents = rt.idents :=
  funext fun x => map_of_core ModEntry.ident (fun _ => rfl) hcore x

theorem idents_modifyMod {f : ModEntry → ModEntry} (hf : ∀ me, (f me).ident = me.ident)
    (rt : Runtime) (e : EntryRef) : (rt.modifyMod e f).idents = rt.idents :=
  funext fun x => modifyMod_proj ModEntry.ident hf rt e x

theorem moduleRegionDetach_modByRegionHd (rt : Runtime) (e : EntryRef) :
    (rt.moduleRegionDetach e).modByRegionHd = rt.modByRegionHd := by
  unfold moduleRegionDetach
  split <;> rfl

theorem discardEntry_modByRegionHd (rt : Runtime) (e : EntryRef) (me : ModEntry) :
    (rt.discardEntry w e me).modByRegionHd = Function.update rt.modByRegionHd me.ident.region
      (w.delMulti (rt.modByRegionHd me.ident.region)) := by
  unfold discardEntry delModByRegion
  dsimp only
  rw [moduleRegionDetach_modByRegionHd]
  rfl

theorem removeEntry_modByRegionHd (rt : Runtime) (e : EntryRef) (me : ModEntry) :
    (rt.removeEntry w e me).modByRegionHd = Function.update rt.modByRegionHd me.ident.region
      (w.delMulti (rt.modByRegionHd me.ident.region)) := by
  have hclear : (rt.moduleClearFnCacheForHandle w e me.handle).modByRegionHd
      = rt.modByRegionHd := by
    unfold moduleClearFnCacheForHandle
    split <;> rfl
  have hdenies : ((rt.moduleClearFnCacheForHandle w e me.handle).moduleRemovePathOwnedEntries
      me).modByRegionHd = rt.modByRegionHd := by
    unfold moduleRemovePathOwnedEntries
    split
    · exact hclear
    · exact hclear
  rw [← hdenies]
  exact discardEntry_modByRegionHd _ e me

theorem linkEntry_modByRegionHd (rt : Runtime) (e : EntryRef) (me : ModEntry) (size : Nat) :
    (rt.linkEntry e me size).modByRegionHd = rt.modByRegionHd := by
  have hcount : (rt.countEntry e size).modByRegionHd = rt.modByRegionHd := by
    unfold countEntry
    dsimp only
    split <;> rfl
  unfold linkEntry
  dsimp only
  split <;> exact hcount

theorem prepareVec_modByRegionHd {r : RegionRef} {hookId : Nat} {name : CStr} {anc : List RegionRef}
    (h : rt.prepareVec w r hookId name anc = some rt') : rt'.modByRegionHd = rt.modByRegionHd := by
  have hready : ((rt.refreshSubtreeMods r).regionEnsureHookDispatchCap r hookId).modByRegionHd
      = rt.modByRegionHd := by
    have hlist : (rt.refreshSubtreeMods r).modByRegionHd = rt.modByRegionHd := by
      unfold refreshSubtreeMods
      split <;> rfl
    unfold regionEnsureHookDispatchCap
    split <;> exact hlist
  unfold prepareVec regionRebuildHookDispatch at h
  split at h
  · cases h
    exact hready
  · obtain ⟨⟨rt₁, v⟩, hloop, rfl⟩ := Option.map_eq_some_iff.mp h
    obtain ⟨mods, nblocks, rfl⟩ := (rebuildLoop_onlyCaches hloop).rest
    exact hready

theorem Effect.tablesChange (h : Effect w c a rt') : TablesChange w c a rt' := by
  cases h with
  | same | handler | claimAt | grant => exact .same rfl rfl rfl
  | @deny r what type =>
    refine .same ?_ ?_ (funext fun x => ?_)
    · unfold recordDeny
      cases type <;> rfl
    · unfold recordDeny
      cases type <;> rfl
    · unfold Runtime.idents recordDeny
      cases type <;> rfl
  | refcount => exact .same rfl rfl (idents_modifyMod (by intro _; rfl) _ _)
  | bind => exact .same rfl rfl (idents_modifyMod (by intro _; rfl) _ _)
  | publish ha hstack hl => exact .publish ha hstack hl rfl
  | rekey ha hstack hl => exact .rekey ha hstack hl rfl
  | @link tx k e me size ha hstack he hme hun =>
    refine .same (linkEntry_modHd ..).1 (linkEntry_modByRegionHd ..) (funext fun x => ?_)
    obtain ⟨state, hmods⟩ := linkEntry_mods c.st.rt e me size hme
    unfold Runtime.idents
    rw [hmods]
    by_cases hx : x = e
    · subst hx
      rw [Function.update_self, hme]
      rfl
    · rw [Function.update_of_ne hx]
  | prewarm =>
    exact .same rfl rfl (idents_of_core (modifyMod_core _ fun me _ => me.core_fnCachePrewarm _ _))
  | @abort tx k err e me ha hstack he hme =>
    refine .free ⟨ha, Or.inl ⟨tx, err, k, hstack, he⟩⟩ hme (discardEntry_modHd ..).1
      (discardEntry_modByRegionHd ..) ?_ fun x hx => ?_
    · rw [discardEntry_mods, Function.update_self]
    · unfold Runtime.idents
      rw [discardEntry_mods, Function.update_of_ne hx]
  | @remove k e me ha hstack hme =>
    obtain ⟨rt1, hcore, hmods⟩ := removeEntry_mods (w := w) c.st.rt e me
    refine .free ⟨ha, Or.inr ⟨k, hstack⟩⟩ hme (removeEntry_modHd ..)
      (removeEntry_modByRegionHd ..) ?_ fun x hx => ?_
    · rw [hmods, Function.update_self]
    · unfold Runtime.idents
      rw [hmods, Function.update_of_ne hx]
      exact congrFun (idents_of_core hcore) x
  | @reinsert rl k e r rt' ha hstack hl hre hr hi =>
    have hindex : rt'.modByRegionHd = c.st.rt.modByRegionHd := by
      unfold Xylem.reinsert at hi
      dsimp only at hi
      split at hi
      · cases hi
        exact moduleRegionDetach_modByRegionHd ..
      · cases hi
    refine .same (reinsert_modHd hi) hindex (funext fun x => ?_)
    unfold Runtime.idents
    rw [reinsert_mods hi]
    by_cases hx : x = e
    · subst hx
      rw [Function.update_self, Option.map_map]
      rfl
    · rw [Function.update_of_ne hx]
  | vector ha hcaller hr hv =>
    exact .same (sameHeap_prepareVec hv).modHd (prepareVec_modByRegionHd hv)
      (idents_of_core (prepareVec_keeps hv).1)
  | @resolve d k e me ha hstack hself hme =>
    exact .same rfl rfl (idents_of_core (onlyCaches_modifyMod hme (me.core_resolved ..)).core)
  | register => exact .same rfl rfl (idents_of_core (registerHook_core ..))
  | shutdown ha hstack => exact .shutdown ha rfl

theorem Effect.tableChange (h : Effect w c a rt') : TableChange w c a rt' := by
  cases h.tablesChange with
  | same htable hindex hidents => exact .same htable hidents
  | publish ha hstack hl hrt => exact .publish ha hstack hl hrt
  | rekey ha hstack hl hrt => exact .rekey ha hstack hl hrt
  | free hfrees hme htable hindex hgone hidents => exact .free hme htable hgone hidents
  | shutdown ha hrt => exact .shutdown ha hrt

/-! ## The keys -/

/-- The key of a module tells its region from all others. -/
def Runtime.KeysTell (rt : Runtime) : Prop :=
  ∀ e me, rt.mods e = some me → me.regionEntry ≠ none → ∀ r < rt.nregions,
    (rt.regions r).key.Twin ⟨me.regionId, me.regionPlen⟩ →
      (rt.regions r).key = ⟨me.regionId, me.regionPlen⟩

/-- The entry is found under its key, which is made of its path and its region. -/
structure Runtime.Keyed (rt : Runtime) (e : EntryRef) (i : Ident) : Prop where
  found : rt.modHd.lookup i.key = some e
  key : i.key = modKey i.path i.region.id i.region.plen
  region : ∃ r < rt.nregions, (rt.regions r).key = i.region

/-- After every step, each entry is found under its key. -/
theorem Effect.keyed (hwf : c.Wf w) (hok : KeysApart w c a)
    (hin : ∀ e i, c.st.rt.idents e = some i → c.st.rt.Keyed e i)
    (hchild : ∀ tx k child, c.stack = .load tx (.rekey child) :: k →
      (∃ r < c.st.rt.nregions, (c.st.rt.regions r).key = child)
        ∧ ∀ e i, c.st.rt.idents e = some i → ¬ child.Twin i.region)
    (h : Effect w c a rt') : ∀ e i, rt'.idents e = some i → rt'.Keyed e i := by
  intro e i hi
  rcases h.regionsKept with ⟨-, rfl⟩ | hkept
  · cases hi
  have hregion : ∀ {key : RegionKey}, (∃ r < c.st.rt.nregions, (c.st.rt.regions r).key = key) →
      ∃ r < rt'.nregions, (rt'.regions r).key = key := by
    rintro key ⟨r, hr, hkey⟩
    exact ⟨r, Nat.lt_of_lt_of_le hr hkept.count, (hkept.key r hr).trans hkey⟩
  cases h.tableChange with
  | same htable hidents =>
    rw [hidents] at hi
    have hk := hin e i hi
    exact ⟨by rw [htable]; exact hk.found, hk.key, hregion hk.region⟩
  | @publish tx k ha hstack hl hrt =>
    subst ha
    have htx : tx.Ok w c.st.rt .opened := hwf.top hstack
    unfold KeysApart at hok
    rw [hstack] at hok
    obtain ⟨hfree, hreg⟩ := hok hl
    subst hrt
    by_cases he : e = c.st.rt.nmods
    · subst he
      simp only [Runtime.idents, publishEntry, Function.update_self, Option.map_some,
        Option.some.injEq] at hi
      subst hi
      obtain ⟨r, hr⟩ := Option.ne_none_iff_exists'.mp hreg
      refine ⟨AList.lookup_insert _, ?_, r, (Runtime.regionLookup_eq_some hwf.tree).mp hr⟩
      show tx.lookup.key = modKey tx.lookup.loadPath _ _
      rw [htx.path]
      exact htx.key
    · have hi' : c.st.rt.idents e = some i := by
        simpa [Runtime.idents, publishEntry, he] using hi
      have hk := hin e i hi'
      refine ⟨?_, hk.key, hk.region⟩
      have hne : i.key ≠ tx.lookup.key := fun heq => by
        have := hk.found
        rw [heq, hfree] at this
        cases this
      exact (AList.lookup_insert_ne hne).trans hk.found
  | @rekey tx k child x ha hstack hl hrt =>
    have htx : tx.Ok w c.st.rt (.rekey child) := hwf.top hstack
    obtain ⟨⟨rc, hrc, hrckey⟩, hnew⟩ := hchild tx k child hstack
    subst hrt
    obtain ⟨me, hme, hkey⟩ := Option.map_eq_some_iff.mp (hwf.heap.table hl)
    have hident : c.st.rt.idents x = some me.ident := Runtime.idents_of_mods hme
    have hapart : ∀ e i path, c.st.rt.idents e = some i →
        i.key ≠ modKey path child.id child.plen := by
      intro e i path hi heq
      have hk := hin e i hi
      rw [hk.key] at heq
      exact hnew e i hi (modKey_eq_iff.mp heq).2.symm
    have hpath : me.loadPath = w.loadPath tx.fname := by
      have hold := (hin x me.ident hident).key
      have heq : modKey me.loadPath me.ident.region.id me.ident.region.plen
          = modKey (w.loadPath tx.fname) tx.inheritedKey.id tx.inheritedKey.plen :=
        hold.symm.trans (hkey.trans htx.key)
      exact (modKey_eq_iff.mp heq).1
    have hmods : (c.st.rt.modifyMod x fun me => { me with
        regionId := child.id, regionPlen := child.plen
        modKey := modKey (w.loadPath tx.fname) child.id child.plen }).idents e = some i := hi
    obtain ⟨me', hme', rfl⟩ := Option.map_eq_some_iff.mp hmods
    obtain ⟨me₀, hme₀, rfl⟩ := modifyMod_some hme'
    by_cases hex : e = x
    · subst hex
      rw [hme] at hme₀
      cases hme₀
      rw [if_pos rfl]
      refine ⟨?_, ?_, rc, hrc, hrckey⟩
      · have hne := hapart e me.ident (w.loadPath tx.fname) hident
        show ((c.st.rt.modHd.insert _ e).erase tx.lookup.key).lookup _ = some e
        rw [AList.lookup_erase_ne (hkey ▸ hne.symm)]
        exact AList.lookup_insert _
      · exact congrArg (modKey · child.id child.plen) hpath.symm
    · rw [if_neg hex]
      have hident₀ : c.st.rt.idents e = some me₀.ident := Runtime.idents_of_mods hme₀
      have hk := hin e me₀.ident hident₀
      have hne : me₀.ident.key ≠ tx.lookup.key := fun heq => by
        have := hk.found
        rw [heq, hl] at this
        cases this
        exact hex rfl
      refine ⟨?_, hk.key, hk.region⟩
      show ((c.st.rt.modHd.insert _ x).erase tx.lookup.key).lookup _ = some e
      rw [AList.lookup_erase_ne hne,
        AList.lookup_insert_ne (hapart e me₀.ident (w.loadPath tx.fname) hident₀)]
      exact hk.found
  | @free x me hme htable hgone hidents =>
    have hne : e ≠ x := by
      rintro rfl
      simp [Runtime.idents, hgone] at hi
    rw [hidents e hne] at hi
    have hk := hin e i hi
    refine ⟨?_, hk.key, hregion hk.region⟩
    have hx : c.st.rt.modHd.lookup me.modKey = some x :=
      (hin x me.ident (Runtime.idents_of_mods hme)).found
    have hkey : i.key ≠ me.modKey := fun heq => by
      have := hk.found
      rw [heq, hx] at this
      cases this
      exact hne rfl
    rw [htable, AList.lookup_erase_ne hkey]
    exact hk.found
  | shutdown ha hrt =>
    subst hrt
    cases hi

end

/-! ## Loads in progress -/

/-- The entry of the load has the key that the load looked up. -/
def LoadPc.keyed : LoadPc → Bool
  | .bind | .claim | .handler _ | .rekey _ => true
  | _ => false

/-- The entry of a load that is in no list yet, or comes to be discarded. -/
def Frame.unlinked : Frame → Option EntryRef
  | .load tx (.aborting _) => tx.modEntry
  | .load tx pc => if pc.raw then tx.modEntry else none
  | _ => none

/-- What a load in progress relies on. -/
def Frame.Tabled (rt : Runtime) : Frame → Prop
  | .load tx pc =>
    pc.keyed = true → ∀ e ∈ tx.modEntry, ∀ i, rt.idents e = some i → i.key = tx.lookup.key
  | _ => True

/-- The child of a claim that has been granted is a region, and no key of an entry
takes it for that of the entry. -/
def Config.TopTabled (c : Config) : Prop :=
  match c.stack with
  | .load _ (.rekey child) :: _ =>
    (∃ r < c.st.rt.nregions, (c.st.rt.regions r).key = child)
      ∧ ∀ e i, c.st.rt.idents e = some i → ¬ child.Twin i.region
  | _ => True

/-- The invariant of the table. -/
structure Config.Tabled (c : Config) : Prop where
  tell : c.st.rt.KeysTell
  keyed : ∀ e i, c.st.rt.idents e = some i → c.st.rt.Keyed e i
  listed : ∀ e me, c.st.rt.mods e = some me → ∀ r ∈ me.regionEntry,
    (c.st.rt.regions r).key = ⟨me.regionId, me.regionPlen⟩
  loads : ∀ f ∈ c.stack, f.Tabled c.st.rt
  linked : ∀ e me, c.st.rt.mods e = some me → me.regionEntry = none →
    ∃ f ∈ c.stack, f.unlinked = some e
  top : c.TopTabled

section

variable {w : World} {c c' : Config} {a : Action} {ev : Event} {rt rt' : Runtime} {x : EntryRef}
  {me' : ModEntry}

/-- The entry that a re-keying finds is the one of the load, which is in no list. -/
theorem Config.Tabled.rekeyed (hwf : c.Wf w) (hin : c.Tabled) {tx : LoadTxn} {k : List Frame}
    {child : RegionKey} (hstack : c.stack = .load tx (.rekey child) :: k) {e : EntryRef}
    {me : ModEntry} (he : tx.modEntry = some e) (hme : c.st.rt.mods e = some me) :
    c.st.rt.modHd.lookup tx.lookup.key = some e ∧ me.regionEntry = none := by
  have hident : c.st.rt.idents e = some me.ident := Runtime.idents_of_mods hme
  have hload : Frame.Tabled c.st.rt (.load tx (.rekey child)) :=
    hin.loads _ (hstack ▸ List.mem_cons_self)
  have hkey : me.ident.key = tx.lookup.key := hload rfl e he me.ident hident
  have htx : tx.Ok w c.st.rt (.rekey child) := hwf.top hstack
  have hhome := htx.raw rfl e he
  rw [Runtime.home_of_mods hme] at hhome
  exact ⟨hkey ▸ (hin.keyed e me.ident hident).found, hhome⟩

theorem Config.Tabled.leavesListed (hwf : c.Wf w) (hok : KeysApart w c a) (hin : c.Tabled)
    {me : ModEntry} (hme : c.st.rt.mods x = some me) (hs : step w c a = .next c' ev) :
    c.LeavesListed w a x me where
  rekey tx k child ha hstack hl := by
    subst ha
    cases Step.of_step hs with
    | rekey he hx =>
      cases hstack
      obtain ⟨hl', hun⟩ := hin.rekeyed hwf rfl he hx
      rw [hl] at hl'
      cases hl'
      rw [hme] at hx
      cases hx
      exact hun
    | _ => cases hstack
  reload rl k r ha hstack hl hre := by
    subst ha
    unfold KeysApart at hok
    rw [hstack] at hok
    exact hok x hl me hme r hre

/-- The entry that a reload puts back is in a list. -/
theorem Config.Tabled.reloaded (hwf : c.Wf w) (hp : c.Parked) (hin : c.Tabled) {rl : Reload}
    {pc : ReloadPc} {k : List Frame} (hstack : c.stack = .reload rl pc :: k) (hre : rl.re.isSome)
    {e : EntryRef} {me : ModEntry} (hme : c.st.rt.mods e = some me)
    (hl : c.st.rt.modHd.lookup (modKey (w.loadPath rl.fname) rl.id rl.plen) = some e) :
    me.regionEntry ≠ none := by
  intro hun
  obtain ⟨f, hf, hfe⟩ := hin.linked e me hme hun
  rw [hstack] at hf
  rcases List.mem_cons.mp hf with rfl | hf
  · cases hfe
  have hraw : e ∈ f.raw := by
    have hpark : f.parked = true := hp f (by rw [hstack]; exact hf)
    cases f with
    | load tx pc => cases pc <;> first | exact hfe | cases hpark
    | unload | reload | dispatch | scope | each => cases hfe
  have happart := hwf.stack.apart
  rw [hstack] at happart
  refine ((List.pairwise_cons.mp happart).1 f hf e hraw).2 _ ?_ hl
  simp [Frame.key, hre]

/-- After every step, the key of a module tells its region from all others. -/
theorem Effect.keysTell (hwf : c.Wf w) (hp : c.Parked) (hok : KeysApart w c a) (hin : c.Tabled)
    (hs : step w c a = .next c' ev) (h : Effect w c a rt') : rt'.KeysTell := by
  intro x me' hx hlisted r hr htwin
  rcases h.regionsKept with ⟨-, rfl⟩ | hkept
  · cases hx
  rcases h.entry hx with ⟨tx, k, -, -, -, -, rfl⟩ | ⟨me, hme, hch⟩
  · exact absurd rfl hlisted
  have hleaves := hin.leavesListed hwf hok hme hs
  rcases Nat.lt_or_ge r c.st.rt.nregions with hlt | hge
  · rw [hkept.key r hlt] at htwin ⊢
    have hlisted' : me'.core.regionEntry ≠ none := hlisted
    change (c.st.rt.regions r).key.Twin ⟨me'.core.regionId, me'.core.regionPlen⟩ at htwin
    show (c.st.rt.regions r).key = ⟨me'.core.regionId, me'.core.regionPlen⟩
    generalize me'.core = m at hch hlisted' htwin ⊢
    cases hch with
    | same | refcount | bind => exact hin.tell x me hme hlisted' r hlt htwin
    | rekey ha hstack hl => exact absurd (hleaves.rekey _ _ _ ha hstack hl) hlisted'
    | @link tx k ha hstack hx =>
      subst ha
      unfold KeysApart at hok
      rw [hstack] at hok
      exact hok x hx me hme r hlt htwin
    | @reinsert rl k r' ha hstack hl hre =>
      exact hin.tell x me hme (hin.reloaded hwf hp hstack (by simp [hre]) hme hl) r hlt htwin
  · have hnew : ∀ {key : RegionKey} {pending : Bool}, a ≠ .tau → c.st.rt.NoTwin key pending →
        (rt'.regions r).key = key → (rt'.regions r).key = ⟨me'.regionId, me'.regionPlen⟩ := by
      intro key pending hne htell hkey
      have hlisted' : me'.core.regionEntry ≠ none := hlisted
      have htwin' : key.Twin ⟨me'.core.regionId, me'.core.regionPlen⟩ := hkey ▸ htwin
      generalize me'.core = m at hch hlisted' htwin'
      cases hch with
      | same | refcount =>
        exact absurd htwin' (htell x (hwf.heap.lt_of_mods hme) me hme (Or.inr hlisted'))
      | bind ha | rekey ha | link ha | reinsert ha => exact absurd ha hne
    rcases h.tree_cases with htree | ⟨p, id, plen, fn, rfl, -, hadd, htree⟩
      | ⟨tx, k, p, bits, id, hstack, rfl, hbits, rfl, hid, hadd, htree⟩ | ⟨-, rfl⟩
    · have hn : rt'.nregions = c.st.rt.nregions := congrArg Tree.count htree
      omega
    · have hn : rt'.nregions = c.st.rt.nregions + 1 := congrArg Tree.count htree
      obtain rfl : r = c.st.rt.nregions := by omega
      have hmask : id &&& regionMask plen = id := by
        rw [regionMask_eq]
        exact hadd.aligned
      refine hnew (by simp) (hok hadd.plen_le hmask hadd.absent) ?_
      exact (congrArg RegionNode.key (congrFun (congrArg Tree.node htree) _)).trans
        (Tree.add_key_new hadd.parent_lt)
    · have hn : rt'.nregions = c.st.rt.nregions + 1 := congrArg Tree.count htree
      obtain rfl : r = c.st.rt.nregions := by omega
      unfold KeysApart at hok
      rw [hstack] at hok
      refine hnew (by simp) (hok rfl hbits hid) ?_
      exact (congrArg RegionNode.key (congrFun (congrArg Tree.node htree) _)).trans
        (Tree.add_key_new hadd.parent_lt)
    · cases hx

/-- The entry of a load that does not move keeps its key. -/
theorem Frame.Tabled.keep (hwf : c.Wf w) (h : Effect w c a rt')
    (hold : ∀ e i, c.st.rt.idents e = some i → c.st.rt.Keyed e i)
    (hnew : ∀ e i, rt'.idents e = some i → rt'.Keyed e i) {f : Frame} (hf : f ∈ c.below a)
    (hin : f.Tabled c.st.rt) : f.Tabled rt' := by
  cases f with
  | load tx pc =>
    intro hpc e he i hi
    have hraw : e ∈ Frame.raw (.load tx pc) := by
      have : pc.raw = true := by cases pc <;> first | rfl | cases hpc
      simp only [Frame.raw, this, if_true]
      exact he
    obtain ⟨me', hme', rfl⟩ := Option.map_eq_some_iff.mp hi
    obtain ⟨me, hme, -, hpath, hid, hplen⟩ := h.raw_entry hwf hf hraw hme'
    have hident : c.st.rt.idents e = some me.ident := Runtime.idents_of_mods hme
    have hkey := hin hpc e he me.ident hident
    rw [← hkey, (hold e _ hident).key, (hnew e _ hi).key]
    simp only [ModEntry.ident, hpath, hid, hplen]
  | unload | reload | dispatch | scope | each => trivial

/-- After every step, the loads in progress find their entries under their keys. -/
theorem Step.loadsTabled (hwf : c.Wf w) (hin : c.Tabled)
    (hnew : ∀ e i, c'.st.rt.idents e = some i → c'.st.rt.Keyed e i) (h : Step w c a c' ev) :
    ∀ f ∈ c'.stack, f.Tabled c'.st.rt := by
  have heff := h.effect hwf
  have hbelow : ∀ f ∈ c.below a, f.Tabled c'.st.rt := fun f hf =>
    (hin.loads f (c.mem_stack_of_below hf)).keep hwf heff hin.keyed hnew hf
  have hpush : ∀ {f : Frame} {k : List Frame}, f.Tabled c'.st.rt →
      (∀ g ∈ k, g.Tabled c'.st.rt) → ∀ g ∈ f :: k, g.Tabled c'.st.rt :=
    fun hf hk => List.forall_mem_cons.mpr ⟨hf, hk⟩
  have hreload : ∀ rl pc, Frame.Tabled c'.st.rt (.reload rl pc) := fun _ _ => trivial
  have hunload : ∀ e l, Frame.Tabled c'.st.rt (.unload e l) := fun _ _ => trivial
  have hgo : ∀ {tx tx' : LoadTxn} {pc pc' : LoadPc}, .load tx pc ∈ c.stack → pc.keyed = true →
      tx'.modEntry = tx.modEntry → tx'.lookup = tx.lookup → c'.st.rt.idents = c.st.rt.idents →
      Frame.Tabled c'.st.rt (.load tx' pc') := by
    intro tx tx' pc pc' hmem hpc he hl hidents _ e he' i hi
    rw [hidents] at hi
    rw [he] at he'
    rw [hl]
    exact hin.loads _ hmem hpc e he' i hi
  cases h with
  | answered | direct | dispatchDone => exact hbelow
  | shutdown => exact fun f hf => (List.not_mem_nil hf).elim
  | load => exact hpush (fun h => by cases h) hbelow
  | scope | eachFirst | dispatchLoop => exact hpush trivial hbelow
  | unload hw hu => exact hu.forall hreload hunload hbelow
  | reload hw hl hme hu => exact hu.forall hreload hunload (hpush trivial hbelow)
  | dlopenFailed hr => exact (resume_spec hr).2.forall hreload hbelow
  | reuse hl hme hr => exact (resume_spec hr).2.forall hreload hbelow
  | installed hr => exact (resume_spec hr).2.forall hreload hbelow
  | abort ha hr => exact (resume_spec hr).2.forall hreload hbelow
  | remove hme hr => exact (resume_spec hr).2.forall hreload hbelow
  | cascade hme hp hs hu => exact hu.forall hreload hunload (hpush trivial hbelow)
  | dlopened | link | installMissing | install | rekey =>
    exact hpush (fun h => by cases h) hbelow
  | @publish s k tx hl =>
    refine hpush (fun _ e he i hi => ?_) hbelow
    cases he
    simp only [modLoadAllocPublish, Runtime.idents, publishEntry, Function.update_self,
      Option.map_some, Option.some.injEq] at hi
    subst hi
    rfl
  | @bind s k tx =>
    refine hpush (hgo List.mem_cons_self rfl rfl rfl ?_) hbelow
    obtain ⟨-, -, ⟨hrt, -⟩ | ⟨ctx, e, -, -, -, hrt, -⟩⟩ := modLoadBindXy_spec w s tx
    · exact congrArg Runtime.idents hrt
    · exact (congrArg Runtime.idents hrt).trans (idents_modifyMod (by intro _; rfl) _ _)
  | claimFlat | claimRefused | claimAsked | notGranted =>
    exact hpush (hgo List.mem_cons_self rfl rfl rfl rfl) hbelow
  | granted hg =>
    obtain ⟨-, -, -, -, hs'⟩ := xyClaimGranted_ok hg
    exact hpush (hgo List.mem_cons_self rfl rfl rfl (by rw [hs']; rfl)) hbelow
  | cascadeSkip | eachNext | selfSkip | selfDeaf | selfEnter | slotSkip | slotEnter | selfListened
  | slotListened => exact hpush trivial hbelow
  | reloadLoad => exact hpush (fun h => by cases h) (hpush trivial hbelow)
  | reinsert | reloadEnd | dispatchEnd | scopeEnd | eachEnd => exact hbelow

/-- A call that holds an unlinked entry stays in the stack when others return. -/
theorem unlinked_resumed {k k' : List Frame} (h : ∃ f ∈ k, f.unlinked = some x)
    (hr : Resumed k k') : ∃ f ∈ k', f.unlinked = some x := by
  cases hr with
  | same => exact h
  | reload rl pc pc' k =>
    obtain ⟨f, hf, hx⟩ := h
    rcases List.mem_cons.mp hf with rfl | hf
    · cases hx
    · exact ⟨f, List.mem_cons_of_mem _ hf, hx⟩

theorem Unloads.unlinked {s : State} {fname : CStr} {id : RegionId} {plen : Nat} {k : List Frame}
    (h : Unloads w s fname id plen k c' ev) (hk : ∃ f ∈ k, f.unlinked = some x) :
    ∃ f ∈ c'.stack, f.unlinked = some x := by
  cases h with
  | notFound hl hr => exact unlinked_resumed hk (resume_spec hr).2
  | shared hl hme href hr => exact unlinked_resumed hk (resume_spec hr).2
  | cascade hl hme href =>
    obtain ⟨f, hf, hx⟩ := hk
    exact ⟨f, List.mem_cons_of_mem _ hf, hx⟩

/-- An entry in no list was in none before, or has just been published. -/
theorem Effect.unlinked_old (hin : c.Tabled) (h : Effect w c a rt') (hx : rt'.mods x = some me')
    (hun : me'.regionEntry = none) :
    (∃ tx k, a = .tau ∧ c.stack = .load tx .opened :: k ∧ tx.lookup.entry = none
        ∧ x = c.st.rt.nmods)
      ∨ ∃ f ∈ c.stack, f.unlinked = some x := by
  rcases h.entry hx with ⟨tx, k, ha, hstack, hl, hnew, -⟩ | ⟨me, hme, hch⟩
  · exact Or.inl ⟨tx, k, ha, hstack, hl, hnew⟩
  · refine Or.inr (hin.linked x me hme ?_)
    have hun' : me'.core.regionEntry = none := hun
    generalize me'.core = m at hch hun'
    cases hch with
    | same | refcount | bind | rekey => exact hun'
    | link ha hstack hx hnone => exact hnone
    | reinsert => cases hun'

/-- After every step, an entry in no list is held by a load in progress. -/
theorem Step.unlinkedHeld (hwf : c.Wf w) (hin : c.Tabled) (h : Step w c a c' ev)
    (hx : c'.st.rt.mods x = some me') (hun : me'.regionEntry = none) :
    ∃ f ∈ c'.stack, f.unlinked = some x := by
  have hold := (h.effect hwf).unlinked_old hin hx hun
  have hcall : ∀ q, a = .call q → ∃ f ∈ c.stack, f.unlinked = some x := by
    rintro q rfl
    exact hold.resolve_left (by rintro ⟨tx, k, ha, -⟩; cases ha)
  have hmove : ∀ {f : Frame} {k : List Frame}, c.stack = f :: k →
      (∀ tx, f = .load tx .opened → a = .tau → tx.lookup.entry ≠ none) →
      f.unlinked = some x ∨ ∃ g ∈ k, g.unlinked = some x := by
    intro f k hstack hne
    obtain ⟨g, hg, hgx⟩ := hold.resolve_left (by
      rintro ⟨tx, k', ha, hs, hl, -⟩
      rw [hstack] at hs
      cases hs
      exact hne tx rfl ha hl)
    rw [hstack] at hg
    rcases List.mem_cons.mp hg with rfl | hg
    · exact Or.inl hgx
    · exact Or.inr ⟨g, hg, hgx⟩
  have htail : ∀ {f : Frame} {k : List Frame}, c.stack = f :: k → f.unlinked = none →
      (∀ tx, f = .load tx .opened → a = .tau → tx.lookup.entry ≠ none) →
      ∃ g ∈ k, g.unlinked = some x := by
    intro f k hstack hnone hne
    refine (hmove hstack hne).resolve_left fun hf => ?_
    rw [hnone] at hf
    cases hf
  have hpush : ∀ {f : Frame} {k : List Frame}, (∃ g ∈ k, g.unlinked = some x) →
      ∃ g ∈ f :: k, g.unlinked = some x :=
    fun ⟨g, hg, hgx⟩ => ⟨g, List.mem_cons_of_mem _ hg, hgx⟩
  have hgo : ∀ {f f' : Frame} {k : List Frame}, c.stack = f :: k →
      (∀ tx, f = .load tx .opened → a = .tau → tx.lookup.entry ≠ none) →
      (f.unlinked = some x → f'.unlinked = some x) → ∃ g ∈ f' :: k, g.unlinked = some x := by
    intro f f' k hstack hne hf
    rcases hmove hstack hne with htop | hk
    · exact ⟨f', List.mem_cons_self, hf htop⟩
    · exact hpush hk
  cases h with
  | answered | direct | dispatchDone => exact hcall _ rfl
  | shutdown => exact absurd (hcall _ rfl) (by simp)
  | load | scope | eachFirst | dispatchLoop => exact hpush (hcall _ rfl)
  | unload hw hu => exact hu.unlinked (hcall _ rfl)
  | reload hw hl hme hu => exact hu.unlinked (hpush (hcall _ rfl))
  | dlopenFailed hr => exact unlinked_resumed (htail rfl rfl (by simp)) (resume_spec hr).2
  | dlopened => exact hpush (htail rfl rfl (by simp))
  | reuse hl hme hr =>
    refine unlinked_resumed (htail rfl rfl fun tx heq _ => ?_) (resume_spec hr).2
    cases heq
    rw [hl]
    simp
  | @publish s k tx hl =>
    rcases hold with ⟨tx', k', -, -, -, rfl⟩ | ⟨g, hg, hgx⟩
    · exact ⟨_, List.mem_cons_self, rfl⟩
    · rcases List.mem_cons.mp hg with rfl | hg
      · cases hgx
      · exact hpush ⟨g, hg, hgx⟩
  | @bind s k tx =>
    refine hgo rfl (by simp) fun hf => ?_
    split <;> exact hf
  | claimFlat | claimRefused | claimAsked | notGranted | granted | rekey =>
    exact hgo rfl (by simp) fun hf => hf
  | @link s k tx e me he hme =>
    rcases hmove rfl (by simp) with htop | hk
    · obtain rfl : e = x := Option.some.inj (he.symm.trans htop)
      have hident : s.rt.idents e = some me.ident := Runtime.idents_of_mods hme
      obtain ⟨r, hr, hkey⟩ := (hin.keyed e me.ident hident).region
      have hl : s.rt.regionLookup me.regionId me.regionPlen = some r :=
        (Runtime.regionLookup_eq_some hwf.tree).mpr ⟨hr, hkey⟩
      obtain ⟨state, hmods⟩ := linkEntry_mods s.rt e me
        (((w.dlsym tx.handle .xyRegionStateSize).map w.regionStateSize).getD 0) hme
      have hnew : (modLoadLink w s tx e me).rt.mods e = some me' := hx
      simp only [modLoadLink, hmods, Function.update_self, hl, Option.some.injEq] at hnew
      subst hnew
      cases hun
    · exact hpush hk
  | installMissing => exact hpush (htail rfl rfl (by simp))
  | install => exact hpush (htail rfl rfl (by simp))
  | installed hr => exact unlinked_resumed (htail rfl rfl (by simp)) (resume_spec hr).2
  | @abort s s' k tx err c' ev ha hr =>
    rcases hmove rfl (by simp) with htop | hk
    · obtain ⟨e, he, -, hpub⟩ := (hwf.top rfl : tx.Ok w s.rt (.aborting err)).late rfl
      obtain rfl : e = x := Option.some.inj (he.symm.trans htop)
      obtain ⟨me, -, hrt, -⟩ := modLoadAbort_spec he ha
      rw [(resume_spec hr).1.rt, hrt, hpub, abortEntry, if_pos rfl, discardEntry_mods,
        Function.update_self] at hx
      cases hx
    · exact unlinked_resumed hk (resume_spec hr).2
  | remove hme hr => exact unlinked_resumed (htail rfl rfl (by simp)) (resume_spec hr).2
  | cascade hme hp hs hu => exact hu.unlinked (hpush (htail rfl rfl (by simp)))
  | cascadeSkip | eachNext | selfSkip | selfDeaf | selfEnter | slotSkip | slotEnter | selfListened
  | slotListened => exact hpush (htail rfl rfl (by simp))
  | reloadLoad => exact hpush (hpush (htail rfl rfl (by simp)))
  | reinsert | reloadEnd | dispatchEnd | scopeEnd | eachEnd => exact htail rfl rfl (by simp)

theorem topTabled_of_parked {s : State} {k : List Frame} (h : ∀ f ∈ k, f.parked = true) :
    Config.TopTabled ⟨s, k⟩ := by
  unfold Config.TopTabled
  split
  · next tx child k' hk =>
    have := h (.load tx (.rekey child)) (by rw [show k = _ from hk]; exact List.mem_cons_self)
    cases this
  · trivial

/-- After every step, the child that the load on top has claimed is a region of its
own. -/
theorem Step.topTabled (hwf : c.Wf w) (hp : c.Parked) (hok : KeysApart w c a)
    (h : Step w c a c' ev) : c'.TopTabled := by
  have hreload : ∀ rl pc, Frame.parked (.reload rl pc) = true := fun _ _ => rfl
  have hunload : ∀ e l, Frame.parked (.unload e l) = true := fun _ _ => rfl
  cases h with
  | load | scope | eachFirst | shutdown | dlopened | publish | claimFlat | claimRefused
  | claimAsked | notGranted | rekey | link | installMissing | install | cascadeSkip | reloadLoad
  | dispatchLoop | selfSkip | selfDeaf | slotSkip | selfEnter | slotEnter | selfListened
  | slotListened | eachNext => trivial
  | answered hw | direct hw | dispatchDone hw => exact topTabled_of_parked (hp.all hw)
  | unload hw hu => exact topTabled_of_parked (hu.forall hreload hunload (hp.all hw))
  | reload hw hl hme hu =>
    exact topTabled_of_parked (hu.forall hreload hunload (List.forall_mem_cons.mpr ⟨rfl, hp.all hw⟩))
  | dlopenFailed hr => exact topTabled_of_parked ((resume_spec hr).2.forall hreload hp)
  | reuse hl hme hr => exact topTabled_of_parked ((resume_spec hr).2.forall hreload hp)
  | installed hr => exact topTabled_of_parked ((resume_spec hr).2.forall hreload hp)
  | abort ha hr => exact topTabled_of_parked ((resume_spec hr).2.forall hreload hp)
  | remove hme hr => exact topTabled_of_parked ((resume_spec hr).2.forall hreload hp)
  | cascade hme hps hs hu =>
    exact topTabled_of_parked (hu.forall hreload hunload (List.forall_mem_cons.mpr ⟨rfl, hp⟩))
  | reinsert | reloadEnd | dispatchEnd | scopeEnd | eachEnd => exact topTabled_of_parked hp
  | @bind s k tx =>
    by_cases hret : (modLoadBindXy w s tx).2 = xyOk
    · rw [if_pos hret]
      trivial
    · rw [if_neg hret]
      trivial
  | @granted s s' k tx parent ret bits child hg =>
    have hlt : parent < s.rt.nregions :=
      (hwf.top rfl : tx.Ok w s.rt (.handler parent)).handler _ rfl
    obtain ⟨hret, hbits, hchild, hid, hs'⟩ := xyClaimGranted_ok hg
    subst hs'
    have hnew : ((s.rt.addRegion parent child.id child.plen bits none).regions s.rt.nregions).key
        = child := by
      have hnode := congrFun
        (congrArg Tree.node (addRegion_tree s.rt parent child.id child.plen bits none)) s.rt.nregions
      exact (congrArg RegionNode.key hnode).trans (Tree.add_key_new hlt)
    refine ⟨⟨s.rt.nregions, Nat.lt_succ_self _, hnew⟩, fun e i hi => ?_⟩
    obtain ⟨me, hme, rfl⟩ := Option.map_eq_some_iff.mp hi
    have hslot : s.rt.regionAllocSlot parent bits ≠ xyRegionInvalid := by
      rw [hchild] at hid
      exact hid
    have hplen : childPlen (s.rt.regions parent).toRegionNode bits
        = (s.rt.regions parent).plen + bits :=
      Nat.mod_eq_of_lt (Nat.lt_of_le_of_lt (regionAllocSlot_spec hwf.tree hlt hbits rfl hslot).1
        (by decide))
    have htell : s.rt.NoTwin child true := by
      rw [hchild, hplen]
      exact hok hret hbits hslot
    exact htell e (hwf.heap.lt_of_mods hme) me hme (Or.inl rfl)

/-- The invariant of the table, in a run that keeps the keys apart. -/
theorem tabled_of_keysApart (h : ReachableBy w (KeysApart w) c) : c.Tabled := by
  have hknown : ∀ c, ReachableBy w (KeysApart w) c → c.Wf w ∧ c.Parked :=
    fun c hc => ⟨.of_reachable hc, parked_of_reachable hc⟩
  refine h.invariant_of hknown (fun c hc => ?_) fun c a c' ⟨hwf, hp⟩ hin hok ⟨ev, hs⟩ => ?_
  · obtain ⟨ctxs, adapters, mem, rfl⟩ := hc
    exact
      { tell := fun e me hme => by cases hme
        keyed := fun e i hi => by cases hi
        listed := fun e me hme => by cases hme
        loads := fun f hf => (List.not_mem_nil hf).elim
        linked := fun e me hme => by cases hme
        top := trivial }
  · have hstep := Step.of_step hs
    have heff := hstep.effect hwf
    have hkeyed : ∀ e i, c'.st.rt.idents e = some i → c'.st.rt.Keyed e i := by
      refine heff.keyed hwf hok hin.keyed fun tx k child hstack => ?_
      have htop := hin.top
      unfold Config.TopTabled at htop
      rwa [hstack] at htop
    exact
      { tell := heff.keysTell hwf hp hok hin hs
        keyed := hkeyed
        listed := fun e me hme r hr =>
          heff.entryRegion hwf hme (fun _ h => hin.leavesListed hwf hok h hs)
            (fun me h => hin.listed e me h) hr
        loads := hstep.loadsTabled hwf hin hkeyed
        linked := fun e me hme hun => hstep.unlinkedHeld hwf hin hme hun
        top := hstep.topTabled hwf hp hok }

/-- Without a call in progress, each entry is in the list of its region. -/
theorem Config.Tabled.homed (hwf : c.Wf w) (hin : c.Tabled) (hidle : c.stack = []) {me : ModEntry}
    (hme : c.st.rt.mods x = some me) :
    ∃ r < c.st.rt.nregions, (c.st.rt.regions r).key = ⟨me.regionId, me.regionPlen⟩
      ∧ x ∈ c.st.rt.modsOf r ∧ me.regionEntry = some r := by
  have hne : me.regionEntry ≠ none := fun hun => by
    obtain ⟨f, hf, -⟩ := hin.linked x me hme hun
    rw [hidle] at hf
    cases hf
  obtain ⟨r, hr⟩ := Option.ne_none_iff_exists'.mp hne
  have hhome : c.st.rt.home x = some r := (Runtime.home_of_mods hme).trans hr
  exact ⟨r, hwf.heap.home_lt hhome, hin.listed x me hme r hr, hwf.heap.mem_iff.mpr hhome, hr⟩

/-- A key that finds an entry of a list names its region. -/
theorem Config.Tabled.region_of_found (hwf : c.Wf w) (hin : c.Tabled) {me : ModEntry} {r : Nat}
    {path : CStr} (hme : c.st.rt.mods x = some me) (hlisted : me.regionEntry ≠ none)
    (hr : r < c.st.rt.nregions) (hl : c.st.rt.modHd.lookup (c.st.rt.keyIn path r) = some x) :
    (c.st.rt.regions r).key = ⟨me.regionId, me.regionPlen⟩ := by
  have hkey : me.modKey = c.st.rt.keyIn path r := by
    have := hwf.heap.table hl
    simpa [keyOf, hme] using this
  have hown : me.modKey = modKey me.loadPath me.regionId me.regionPlen :=
    (hin.keyed x me.ident (Runtime.idents_of_mods hme)).key
  have heq : modKey path (c.st.rt.regions r).key.id (c.st.rt.regions r).key.plen
      = modKey me.loadPath me.ident.region.id me.ident.region.plen := hkey.symm.trans hown
  exact hin.tell x me hme hlisted r hr (modKey_eq_iff.mp heq).2

/-- The table has an entry of a list under its path and its region. -/
theorem Config.Tabled.found (hin : c.Tabled) {me : ModEntry} {r : Nat}
    (hme : c.st.rt.mods x = some me) (hr : me.regionEntry = some r) :
    c.st.rt.modHd.lookup (c.st.rt.keyIn me.loadPath r) = some x := by
  have hk := hin.keyed x me.ident (Runtime.idents_of_mods hme)
  have hkey : c.st.rt.keyIn me.loadPath r = me.ident.key :=
    (congrArg (fun k : RegionKey => modKey me.loadPath k.id k.plen)
      (hin.listed x me hme r hr)).trans hk.key.symm
  rw [hkey]
  exact hk.found

/-- In a run that keeps the keys apart, the table and the lists agree whenever no
call is in progress. -/
theorem tablesAgree_of_keysApart (h : ReachableBy w (KeysApart w) c) (hidle : c.stack = []) :
    TablesAgree c.st.rt := by
  have hin := tabled_of_keysApart h
  have hwf := Config.Wf.of_reachable h
  have hregion : ∀ e path r, r < c.st.rt.nregions →
      c.st.rt.modHd.lookup (c.st.rt.keyIn path r) = some e →
      ∃ me, c.st.rt.mods e = some me
        ∧ (c.st.rt.regions r).key = ⟨me.regionId, me.regionPlen⟩ := by
    intro e path r hr hl
    obtain ⟨me, hme, -⟩ := Option.map_eq_some_iff.mp (hwf.heap.table hl)
    obtain ⟨r', -, -, -, hre⟩ := hin.homed hwf hidle hme
    exact ⟨me, hme, hin.region_of_found hwf hme (by simp [hre]) hr hl⟩
  constructor
  case linked_iff =>
    intro e me hme r hr
    constructor
    · intro he
      exact hin.found hme ((Runtime.home_of_mods hme).symm.trans (hwf.heap.mem_iff.mp he))
    · intro hl
      obtain ⟨r', hr', hkey', he, -⟩ := hin.homed hwf hidle hme
      obtain ⟨me', hme', hkey⟩ := hregion e _ r hr hl
      rw [hme] at hme'
      cases hme'
      rw [hwf.tree.key_inj hr hr' (hkey.trans hkey'.symm)]
      exact he
  case own =>
    intro e me hme
    obtain ⟨r, hr, hkey, he, -⟩ := hin.homed hwf hidle hme
    exact ⟨r, hr, hkey, he⟩
  case apart =>
    intro path e r hr r' hr' hl hl'
    obtain ⟨me, hme, hkey⟩ := hregion e path r hr hl
    obtain ⟨me', hme', hkey'⟩ := hregion e path r' hr' hl'
    rw [hme] at hme'
    cases hme'
    exact hwf.tree.key_inj hr hr' (hkey.trans hkey'.symm)

end

/-- One object is loaded into a region and into the root. -/
def twoRegions : List Action :=
  [.call (.areg sampleHook 0), .call (.claimAt 0x1000000000000 16 none)] ++ loadRun sampleFile 1
    ++ [.call (.claimAt 0 0 none)] ++ loadRun sampleFile 1

theorem tablesAgree_of_two_regions :
    let c := runChecked sampleWorld (KeysApart sampleWorld) (Config.boot sampleHook) twoRegions
    c.st.rt.modsOf 0 = [1] ∧ c.st.rt.modsOf 1 = [0] ∧ TablesAgree c.st.rt := by
  intro c
  exact ⟨by decide +kernel, by decide +kernel,
    tablesAgree_of_keysApart (ReachableBy.checked (.start (Config.boot_initial _)) _)
      (by decide +kernel)⟩

/-- The module asks for a region and is granted the first one of eight bits. -/
theorem not_tablesAgree_of_eight_bits :
    ∃ c, Reachable claimingWorld c ∧ c.stack = [] ∧ ¬ TablesAgree c.st.rt := by
  let c := (Config.boot sampleHook).after claimingWorld
    ([.call (.areg sampleHook 0), .call (.requireClaim (some 7))] ++ claimRun sampleFile 1 8)
  have hreach : Reachable claimingWorld c :=
    ReachableBy.after (.start (Config.boot_initial _)) fun _ _ _ => trivial
  refine ⟨c, hreach, by decide +kernel, fun hagree => ?_⟩
  have hlinked : c.st.rt.modsOf 1 = [0] ∧ 1 < c.st.rt.nregions := by decide +kernel
  obtain ⟨me, hme⟩ : ∃ me, c.st.rt.mods 0 = some me :=
    Option.isSome_iff_exists.mp (by decide +kernel)
  have hlost : ∀ me ∈ c.st.rt.mods 0, c.st.rt.modHd.lookup (c.st.rt.keyIn me.loadPath 1) = none := by
    decide +kernel
  have hfound := (hagree.linked_iff 0 me hme 1 hlinked.2).mp
    (by rw [hlinked.1]; exact List.mem_cons_self)
  rw [hlost me hme] at hfound
  cases hfound

end Xylem
