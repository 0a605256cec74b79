import Xylem.Lib.Run
import Xylem.Effect

/-!
# Every reachable configuration is well formed

`Effect.tree` and `Effect.heap`: every effect keeps the tree and the heap of
module entries.  `Effect.evolves` says what an effect may do to the facts that
calls in progress rely on, and `Step.stack` that the stack stays well formed.
`Config.Wf.of_reachable` puts these together.
-/

namespace Xylem

namespace Runtime

variable {w : World} {rt rt' : Runtime}

/-! ## The tree -/

theorem recordDeny_tree (w : World) (rt : Runtime) (r : RegionRef) (what : CStr)
    (type : DenyType) : (rt.recordDeny w r what type).tree = rt.tree := by
  unfold recordDeny
  rw [regionDispatchGenBump_tree, regionPropagateDeny_tree]
  cases type <;> exact modifyRegion_tree rt (by intro _; rfl) r

theorem countEntry_tree (rt : Runtime) (e : EntryRef) (size : Nat) :
    (rt.countEntry e size).tree = rt.tree := by
  unfold countEntry
  dsimp only
  split <;> rfl

theorem linkEntry_tree (rt : Runtime) (e : EntryRef) (me : ModEntry) (size : Nat) :
    (rt.linkEntry e me size).tree = rt.tree := by
  unfold linkEntry
  dsimp only
  split
  · exact countEntry_tree rt e size
  · rw [moduleRegionAppend_tree]
    exact countEntry_tree rt e size

theorem discardEntry_tree (w : World) (rt : Runtime) (e : EntryRef) (me : ModEntry) :
    (rt.discardEntry w e me).tree = rt.tree :=
  moduleRegionDetach_tree rt e

theorem moduleRemovePathOwnedEntries_tree (rt : Runtime) (me : ModEntry) :
    (rt.moduleRemovePathOwnedEntries me).tree = rt.tree := by
  unfold moduleRemovePathOwnedEntries
  split
  · rfl
  · exact moduleRemoveDenies_tree ..

theorem removeEntry_tree (w : World) (rt : Runtime) (e : EntryRef) (me : ModEntry) :
    (rt.removeEntry w e me).tree = rt.tree :=
  (discardEntry_tree w _ e me).trans <| (moduleRemovePathOwnedEntries_tree _ me).trans
    (moduleClearFnCacheForHandle_keeps w rt e me.handle).tree

theorem reinsert_tree {r : RegionRef} {e : EntryRef} {after : Option EntryRef}
    (h : Xylem.reinsert rt r e after = some rt') : rt'.tree = rt.tree := by
  unfold Xylem.reinsert at h
  dsimp only at h
  split at h
  · cases h
    rw [moduleRegionInsertAfter_tree, moduleRegionDetach_tree]
  · cases h

theorem prepareVec_tree {r : RegionRef} {hookId : Nat} {name : CStr} {anc : List RegionRef}
    (h : rt.prepareVec w r hookId name anc = some rt') : rt'.tree = rt.tree :=
  (prepareVec_keeps h).2.2.1

theorem lookup_singleton (k k' : RegionKey) (r : RegionRef) :
    AList.lookup (β := fun _ => RegionRef) k (AList.singleton k' r)
      = if k = k' then some r else none := by
  split
  · next hk =>
    subst hk
    exact AList.lookup_insert (s := ∅)
  · next hk =>
    have hempty : AList.lookup k (AList.insert k' r (∅ : AList fun _ : RegionKey => RegionRef))
        = none := by rw [AList.lookup_insert_ne hk, AList.lookup_empty]
    exact hempty

theorem tree_bootstrap (rt : Runtime) : rt.bootstrap.tree.Wf := by
  have hnode : ∀ r, rt.bootstrap.tree.node r
      = { id := 0, depth := 0, plen := 0, childBits := 0, parent := none, children := [] } :=
    fun _ => rfl
  have hcount : rt.bootstrap.tree.count = 1 := rfl
  have hzero : ∀ {r}, r < rt.bootstrap.tree.count → r = 0 := by
    intro r hr
    rw [hcount] at hr
    omega
  refine
    { forest := ⟨?_, ?_, ?_⟩, pos := Nat.one_pos, root := rfl, root_depth := rfl
      root_orphan := rfl, orphan := fun hr _ => hzero hr, child_plen := ?_, child_bits := ?_
      child_depth := ?_, plen_le := ?_, aligned := ?_, table := ?_ }
  · intro c p _ hp
    cases hp
  · intro p c _
    constructor
    · intro hc
      cases hc
    · rintro ⟨-, hp⟩
      cases hp
  · intro p _
    exact List.nodup_nil
  · intro r p _ hp
    cases hp
  · intro r p _ hp
    cases hp
  · intro r p _ hp
    cases hp
  · intro r _
    exact Nat.zero_le 64
  · intro r _
    show (0 : BitVec 64) &&& Prefix.mask 64 0 = 0
    decide
  · intro k r
    have hlookup : rt.bootstrap.tree.table.lookup k = if k = ⟨0, 0⟩ then some 0 else none :=
      lookup_singleton k ⟨0, 0⟩ 0
    rw [hlookup]
    split
    · next hk =>
      subst hk
      exact ⟨fun h => by cases h; exact ⟨Nat.one_pos, rfl⟩, fun h => by rw [hzero h.1]⟩
    · next hk =>
      constructor
      · intro h
        cases h
      · rintro ⟨-, hkey⟩
        exact absurd hkey.symm hk

end Runtime

open Xylem.Runtime

section

variable {w : World} {c c' : Config} {a : Action} {ev : Event} {rt' : Runtime}

/-- What an effect does to the tree: nothing, or a region is made by one of the
two ways to make one, or all starts again. -/
theorem Effect.tree_cases (h : Effect w c a rt') :
    rt'.tree = c.st.rt.tree
      ∨ (∃ p id plen fn, a = .call (.claimAt id plen fn)
        ∧ c.st.rt.regionNearestAncestor id plen = some p
        ∧ c.st.rt.tree.CanAdd p id plen (plen - (c.st.rt.regions p).plen)
        ∧ rt'.tree = c.st.rt.tree.add p id plen (plen - (c.st.rt.regions p).plen))
      ∨ (∃ tx k p bits id, c.stack = .load tx (.handler p) :: k
        ∧ a = .ret (.granted xyOk bits) ∧ (0 < bits ∧ bits ≤ 64)
        ∧ c.st.rt.regionAllocSlot p bits = id ∧ id ≠ xyRegionInvalid
        ∧ c.st.rt.tree.CanAdd p id ((c.st.rt.regions p).plen + bits) bits
        ∧ rt'.tree = c.st.rt.tree.add p id ((c.st.rt.regions p).plen + bits) bits)
      ∨ (a = .call .shutdown ∧ rt' = c.st.rt.bootstrap) := by
  cases h with
  | same | refcount | publish | bind | rekey | prewarm | resolve | register => exact Or.inl rfl
  | deny => exact Or.inl (recordDeny_tree ..)
  | handler ha hr hf =>
    exact Or.inl (modifyRegion_tree _ (by intro e; rw [hf e]) _)
  | claimAt ha hnear hadd =>
    exact Or.inr (Or.inl ⟨_, _, _, _, ha, hnear, hadd, addRegion_tree ..⟩)
  | grant hstack ha hbits hslot hid hadd =>
    exact Or.inr (Or.inr (Or.inl
      ⟨_, _, _, _, _, hstack, ha, hbits, hslot, hid, hadd, addRegion_tree ..⟩))
  | link => exact Or.inl (linkEntry_tree ..)
  | abort => exact Or.inl (discardEntry_tree ..)
  | remove => exact Or.inl (removeEntry_tree ..)
  | reinsert ha hstack hl hre hr hi => exact Or.inl (reinsert_tree hi)
  | vector ha hcaller hr hv => exact Or.inl (prepareVec_tree hv)
  | shutdown ha hstack => exact Or.inr (Or.inr (Or.inr ⟨ha, rfl⟩))

theorem Effect.tree (hwf : c.Wf w) (h : Effect w c a rt') : rt'.tree.Wf := by
  rcases h.tree_cases with heq | ⟨p, id, plen, fn, -, -, hadd, heq⟩
    | ⟨tx, k, p, bits, id, -, -, -, -, -, hadd, heq⟩ | ⟨-, rfl⟩
  · rw [heq]
    exact hwf.tree
  · rw [heq]
    exact hwf.tree.add hadd
  · rw [heq]
    exact hwf.tree.add hadd
  · exact tree_bootstrap _

/-! ## The heap -/

theorem Effect.heap (hwf : c.Wf w) (h : Effect w c a rt') : rt'.HeapWf := by
  have hheap := hwf.heap
  cases h with
  | same => exact hheap
  | deny => exact hheap.of_same (sameHeap_recordDeny ..)
  | handler ha hr hf =>
    exact hheap.of_same (sameHeap_modifyRegion (by intro e; rw [hf e]) _ _)
  | claimAt => exact hheap.of_same (sameHeap_addRegion hheap ..)
  | grant => exact hheap.of_same (sameHeap_addRegion hheap ..)
  | refcount => exact hheap.of_same (sameHeap_modifyMod (by intro _; exact ⟨rfl, rfl⟩) _ _)
  | publish => exact hheap.publish rfl
  | bind => exact hheap.of_same (sameHeap_modifyMod (by intro _; exact ⟨rfl, rfl⟩) _ _)
  | rekey ha hstack hl => exact hheap.rekey _ _ _ hl
  | link ha hstack he hme hun => exact hheap.link hwf.tree hme hun _
  | prewarm =>
    refine hheap.of_same (sameHeap_of_core ?_ rfl rfl rfl rfl)
    exact modifyMod_core _ fun me _ => me.core_fnCachePrewarm _ _
  | abort ha hstack he hme => exact hheap.discard (by simp [keyOf, hme])
  | remove ha hstack hme => exact hheap.remove hme
  | reinsert ha hstack hl hre hr hi =>
    have hlive := hheap.table hl
    exact hheap.reinsert (fun hnone => by simp [keyOf, hnone] at hlive) hr hi
  | vector ha hcaller hr hv => exact hheap.of_same (sameHeap_prepareVec hv)
  | resolve ha hstack hself hme =>
    exact hheap.of_same (onlyCaches_modifyMod hme (ModEntry.core_resolved ..)).same
  | register => exact hheap.of_same (sameHeap_registerHook ..)
  | shutdown => exact heapWf_bootstrap _

/-! ## What calls in progress rely on -/

/-- How the runtime may change under calls in progress, when the call that moves
has the raw entry `raw` and the key `key`. -/
structure Evolves (rt rt' : Runtime) (raw : Option EntryRef) (key : Option (List UInt8)) :
    Prop where
  nregions : rt.nregions ≤ rt'.nregions
  nmods : rt.nmods ≤ rt'.nmods
  chain : ∀ {r}, r < rt.nregions → rt'.chain r = rt.chain r
  home : ∀ {e}, e < rt.nmods → rt.home e = none → e ∉ raw →
    (∀ k ∈ key, rt.modHd.lookup k ≠ some e) → rt'.home e = none
  lookup : ∀ {k e}, e < rt.nmods → rt'.modHd.lookup k = some e →
    rt.modHd.lookup k = some e ∨ ∃ k' ∈ key, rt.modHd.lookup k' = some e

theorem Evolves.of_same {rt rt' : Runtime} {raw : Option EntryRef} {key : Option (List UInt8)}
    (hs : rt.SameHeap rt') (htree : rt'.tree = rt.tree) : Evolves rt rt' raw key where
  nregions := hs.nregions
  nmods := Nat.le_of_eq hs.nmods.symm
  chain _ := by simp only [Runtime.chain, htree]
  home _ he _ _ := by rw [hs.home, he]
  lookup _ hk := Or.inl (by rwa [hs.modHd] at hk)

theorem lookup_of_lookup_erase {m : AList (fun _ : List UInt8 => EntryRef)} {k k' : List UInt8}
    {e : EntryRef} (h : (m.erase k').lookup k = some e) : m.lookup k = some e := by
  by_cases hk : k = k'
  · subst hk
    rw [AList.lookup_erase] at h
    cases h
  · rwa [AList.lookup_erase_ne hk] at h

theorem Evolves.addRegion {raw : Option EntryRef} {key : Option (List UInt8)} (hwf : c.Wf w)
    {p : Nat} {id : RegionId} {plen bits : Nat} (hadd : c.st.rt.tree.CanAdd p id plen bits)
    (fn : Option HandlerRef) : Evolves c.st.rt (c.st.rt.addRegion p id plen bits fn) raw key := by
  have hs := sameHeap_addRegion hwf.heap p id plen bits fn
  refine ⟨hs.nregions, Nat.le_of_eq hs.nmods.symm, fun hr => ?_, fun _ he _ _ => ?_,
    fun _ hk => Or.inl ?_⟩
  · simp only [Runtime.chain, addRegion_tree, Tree.add_links hadd.parent_lt]
    exact Forest.Links.addLeaf_anc_old hwf.tree.forest hr
  · rw [hs.home, he]
  · rwa [hs.modHd] at hk

theorem linkEntry_home {rt : Runtime} {e : EntryRef} {me : ModEntry} {size : Nat} {x : EntryRef}
    (hx : x ≠ e) : (rt.linkEntry e me size).home x = rt.home x := by
  have hcount : (rt.countEntry e size).mods x = rt.mods x := by
    unfold countEntry modifyMod
    dsimp only
    split
    · rfl
    · exact Function.update_of_ne hx ..
  unfold linkEntry
  dsimp only
  split
  · simp only [home, hcount]
  · simp only [home, moduleRegionAppend, moduleRegionInsertAfter_mods, Function.update_of_ne hx,
      hcount]

theorem linkEntry_modHd (rt : Runtime) (e : EntryRef) (me : ModEntry) (size : Nat) :
    (rt.linkEntry e me size).modHd = rt.modHd ∧ (rt.linkEntry e me size).nmods = rt.nmods := by
  have hcount : (rt.countEntry e size).modHd = rt.modHd
      ∧ (rt.countEntry e size).nmods = rt.nmods := by
    unfold countEntry
    dsimp only
    split <;> exact ⟨rfl, rfl⟩
  unfold linkEntry
  dsimp only
  split <;> exact hcount

theorem discardEntry_home (rt : Runtime) (e : EntryRef) (me : ModEntry) {x : EntryRef}
    (hx : x ≠ e) : (rt.discardEntry w e me).home x = rt.home x := by
  simp only [home, discardEntry, delModByRegion, Function.update_of_ne hx, moduleRegionDetach_mods]

theorem discardEntry_home_self (rt : Runtime) (e : EntryRef) (me : ModEntry) :
    (rt.discardEntry w e me).home e = none := by
  simp [home, discardEntry]

theorem discardEntry_modHd (rt : Runtime) (e : EntryRef) (me : ModEntry) :
    (rt.discardEntry w e me).modHd = rt.modHd.erase me.modKey
      ∧ (rt.discardEntry w e me).nmods = rt.nmods := by
  unfold discardEntry moduleRegionDetach
  dsimp only
  split <;> exact ⟨rfl, rfl⟩

theorem Evolves.discard {rt : Runtime} {raw : Option EntryRef} {key : Option (List UInt8)}
    (e : EntryRef) (me : ModEntry) : Evolves rt (rt.discardEntry w e me) raw key where
  nregions := Nat.le_of_eq (congrArg Tree.count (discardEntry_tree w rt e me)).symm
  nmods := Nat.le_of_eq (discardEntry_modHd rt e me).2.symm
  chain _ := by simp only [Runtime.chain, discardEntry_tree]
  home := by
    intro x _ hx _ _
    by_cases hxe : x = e
    · rw [hxe]
      exact discardEntry_home_self rt e me
    · rw [discardEntry_home rt e me hxe, hx]
  lookup := by
    intro k x _ hk
    rw [(discardEntry_modHd rt e me).1] at hk
    exact Or.inl (lookup_of_lookup_erase hk)

theorem Evolves.trans_same {rt rt1 rt2 : Runtime} {raw : Option EntryRef}
    {key : Option (List UInt8)} (hs : rt.SameHeap rt1) (htree : rt1.tree = rt.tree)
    (h : Evolves rt1 rt2 raw key) : Evolves rt rt2 raw key where
  nregions := Nat.le_trans hs.nregions h.nregions
  nmods := by rw [← hs.nmods]; exact h.nmods
  chain {r} hr := by
    have hr' : r < rt1.nregions := Nat.lt_of_lt_of_le hr hs.nregions
    rw [h.chain hr']
    simp only [Runtime.chain, htree]
  home := by
    intro e he hnone hraw hkey
    refine h.home (by rwa [hs.nmods]) (by rw [hs.home, hnone]) hraw ?_
    rwa [hs.modHd]
  lookup := by
    intro k e he hk
    have := h.lookup (by rwa [hs.nmods]) hk
    rwa [hs.modHd] at this

theorem Evolves.reinsert {rt rt' : Runtime} {r : RegionRef} {e : EntryRef}
    {after : Option EntryRef} {raw : Option EntryRef} {key : Option (List UInt8)}
    (hi : Xylem.reinsert rt r e after = some rt')
    (hkey : ∃ k ∈ key, rt.modHd.lookup k = some e) : Evolves rt rt' raw key := by
  have htree := reinsert_tree hi
  have hkeep : rt'.modHd = rt.modHd ∧ rt'.nmods = rt.nmods
      ∧ ∀ x, x ≠ e → rt'.mods x = rt.mods x := by
    unfold Xylem.reinsert at hi
    dsimp only at hi
    split at hi
    · cases hi
      refine ⟨?_, ?_, fun x hx => ?_⟩
      · unfold moduleRegionDetach
        split <;> rfl
      · unfold moduleRegionDetach
        split <;> rfl
      · rw [moduleRegionInsertAfter_mods, Function.update_of_ne hx, moduleRegionDetach_mods]
    · cases hi
  refine ⟨Nat.le_of_eq (congrArg Tree.count htree).symm, Nat.le_of_eq hkeep.2.1.symm, fun _ => ?_,
    fun {x} _ hnone _ hne => ?_, fun _ hk => Or.inl ?_⟩
  · simp only [Runtime.chain, htree]
  · obtain ⟨k, hk, hke⟩ := hkey
    have hx : rt'.mods x = rt.mods x := by
      refine hkeep.2.2 x ?_
      rintro rfl
      exact hne k hk hke
    simp only [Runtime.home, hx]
    exact hnone
  · rwa [hkeep.1] at hk

theorem moduleRekeyLoadedEntry_home (rt : Runtime) (e : EntryRef) (old : List UInt8) (path : CStr)
    (pk ck : RegionKey) (x : EntryRef) :
    (rt.moduleRekeyLoadedEntry e old path pk ck).home x = rt.home x :=
  home_congr <| modifyMod_proj (·.regionEntry)
    (f := fun me : ModEntry => { me with
      regionId := ck.id, regionPlen := ck.plen, modKey := modKey path ck.id ck.plen })
    (fun _ => rfl) rt e x

/-- The call that a step moves, if the step is not a call of the API. -/
def Config.mover (c : Config) : Action → Option Frame
  | .call _ => none
  | _ => c.stack.head?

/-- How an effect changes the runtime under the calls in progress. -/
theorem Effect.evolves (hwf : c.Wf w) (h : Effect w c a rt') :
    (a = .call .shutdown ∧ c.stack = [] ∧ rt' = c.st.rt.bootstrap)
      ∨ Evolves c.st.rt rt' ((c.mover a).bind Frame.raw) ((c.mover a).bind (Frame.key w)) := by
  cases h with
  | same => exact Or.inr (.of_same (.refl _) rfl)
  | deny => exact Or.inr (.of_same (sameHeap_recordDeny ..) (recordDeny_tree ..))
  | handler ha hr hf =>
    exact Or.inr (.of_same
      (sameHeap_modifyRegion (by intro e; rw [hf e]) _ _)
      (modifyRegion_tree _ (by intro e; rw [hf e]) _))
  | claimAt ha hnear hadd => exact Or.inr (.addRegion hwf hadd _)
  | grant hstack ha hbits hslot hid hadd => exact Or.inr (.addRegion hwf hadd _)
  | refcount =>
    exact Or.inr (.of_same (sameHeap_modifyMod (by intro _; exact ⟨rfl, rfl⟩) _ _) rfl)
  | publish ha hstack hl =>
    refine Or.inr ⟨le_rfl, Nat.le_succ _, fun _ => rfl, fun he hnone _ _ => ?_,
      fun he hk => Or.inl ?_⟩
    · simpa [Runtime.home, publishEntry, Nat.ne_of_lt he] using hnone
    · rename_i k e
      have hlk : (c.st.rt.modHd.insert _ c.st.rt.nmods).lookup k = some e := hk
      have hne : ∀ key', (c.st.rt.modHd.insert key' c.st.rt.nmods).lookup k = some e →
          c.st.rt.modHd.lookup k = some e := by
        intro key' hk'
        by_cases hkk : k = key'
        · subst hkk
          rw [AList.lookup_insert] at hk'
          cases hk'
          exact absurd he (Nat.lt_irrefl _)
        · rwa [AList.lookup_insert_ne hkk] at hk'
      exact hne _ hlk
  | bind => exact Or.inr (.of_same (sameHeap_modifyMod (by intro _; exact ⟨rfl, rfl⟩) _ _) rfl)
  | @rekey tx k child e ha hstack hl =>
    have hkey : (c.mover a).bind (Frame.key w) = some tx.lookup.key := by
      subst ha
      simp only [Config.mover, hstack]
      rfl
    refine Or.inr ⟨le_rfl, le_rfl, fun _ => rfl, fun _ hnone _ _ => ?_, fun {k x} _ hk => ?_⟩
    · rw [← hnone]
      exact moduleRekeyLoadedEntry_home ..
    · have hlk := lookup_of_lookup_erase (m := c.st.rt.modHd.insert _ e) hk
      by_cases hkn : k = modKey (w.loadPath tx.fname) child.id child.plen
      · subst hkn
        rw [AList.lookup_insert] at hlk
        cases hlk
        exact Or.inr ⟨_, hkey, hl⟩
      · rw [AList.lookup_insert_ne hkn] at hlk
        exact Or.inl hlk
  | @link tx k e me size ha hstack he hme hun =>
    have hraw : (c.mover a).bind Frame.raw = some e := by
      subst ha
      simp only [Config.mover, hstack]
      exact he
    have htree := linkEntry_tree c.st.rt e me size
    refine Or.inr ⟨Nat.le_of_eq (congrArg Tree.count htree).symm,
      Nat.le_of_eq (linkEntry_modHd c.st.rt e me size).2.symm, fun _ => ?_,
      fun {x} _ hnone hne _ => ?_, fun _ hk => Or.inl ?_⟩
    · simp only [Runtime.chain, htree]
    · rw [linkEntry_home, hnone]
      rintro rfl
      exact hne hraw
    · rwa [(linkEntry_modHd c.st.rt e me size).1] at hk
  | prewarm =>
    refine Or.inr (.of_same (sameHeap_of_core ?_ rfl rfl rfl rfl) rfl)
    exact modifyMod_core _ fun me _ => me.core_fnCachePrewarm _ _
  | abort => exact Or.inr (.discard _ _)
  | @remove k e me ha hstack hme =>
    have hclear := moduleClearFnCacheForHandle_keeps w c.st.rt e me.handle
    have hsame : c.st.rt.SameHeap
        ((c.st.rt.moduleClearFnCacheForHandle w e me.handle).moduleRemovePathOwnedEntries me) := by
      unfold moduleRemovePathOwnedEntries
      split
      · exact hclear.same
      · exact hclear.same.trans (sameHeap_modifyRegion (by intro _; rfl) _ _)
    have hev : Evolves c.st.rt _ ((c.mover a).bind Frame.raw) ((c.mover a).bind (Frame.key w)) :=
      Evolves.trans_same hsame ((moduleRemovePathOwnedEntries_tree _ me).trans hclear.tree)
        (.discard (w := w) e me)
    exact Or.inr ⟨hev.nregions, hev.nmods, hev.chain, hev.home, hev.lookup⟩
  | @reinsert rl k e r rt' ha hstack hl hre hr hi =>
    refine Or.inr (.reinsert hi ⟨_, ?_, hl⟩)
    subst ha
    simp only [Config.mover, hstack, List.head?_cons, Option.bind_some, Frame.key, hre,
      Option.isSome_some, if_true, Option.mem_def]
  | vector ha hcaller hr hv =>
    exact Or.inr (.of_same (sameHeap_prepareVec hv) (prepareVec_tree hv))
  | @resolve d k e me ha hstack hself hme =>
    have honly := onlyCaches_modifyMod hme (me.core_resolved (w := w) d.hookId d.name)
    exact Or.inr (.of_same honly.same honly.tree)
  | register => exact Or.inr (.of_same (sameHeap_registerHook ..) rfl)
  | shutdown ha hstack => exact Or.inl ⟨ha, hstack, rfl⟩

/-! ## The stack -/

/-- The calls that a step does not move. -/
def Config.below (c : Config) : Action → List Frame
  | .call _ => c.stack
  | _ => c.stack.tail

theorem Config.mem_stack_of_below {f : Frame} (h : f ∈ c.below a) : f ∈ c.stack := by
  cases a with
  | call => exact h
  | tau | ret => exact List.mem_of_mem_tail h

theorem Config.Wf.below_apart (hwf : c.Wf w) {f g : Frame} (hf : c.mover a = some f)
    (hg : g ∈ c.below a) : f.Apart w c.st.rt g := by
  have hcases : ∃ k, c.stack = f :: k ∧ g ∈ k := by
    cases a with
    | call => cases hf
    | tau | ret =>
      obtain ⟨k, hk⟩ := List.head?_eq_some_iff.mp hf
      exact ⟨k, hk, by simpa [Config.below, hk] using hg⟩
  obtain ⟨k, hk, hgk⟩ := hcases
  have hpair := hwf.stack.apart
  rw [hk] at hpair
  exact List.rel_of_pairwise_cons hpair hgk

/-- A call that does not move is apart from the one that does. -/
theorem Config.Wf.below_raw (hwf : c.Wf w) {g : Frame} (hg : g ∈ c.below a) {e : EntryRef}
    (he : e ∈ g.raw) : e ∉ (c.mover a).bind Frame.raw
      ∧ ∀ k ∈ (c.mover a).bind (Frame.key w), c.st.rt.modHd.lookup k ≠ some e := by
  cases hm : c.mover a with
  | none => simp
  | some f => simpa using hwf.below_apart hm hg e he

/-- The entry that a call has yet to link is an entry that was made. -/
theorem Frame.Ok.raw_lt {rt : Runtime} {f : Frame} (h : f.Ok w rt) {e : EntryRef}
    (he : e ∈ f.raw) : e < rt.nmods ∧ rt.home e = none := by
  cases f with
  | load tx pc =>
    simp only [Frame.raw] at he
    split at he
    · next hraw =>
      have hlate : pc.early = false := by cases pc <;> simp_all [LoadPc.raw, LoadPc.early]
      obtain ⟨e', he', hlt, -⟩ := LoadTxn.Ok.late h hlate
      rw [he'] at he
      cases he
      exact ⟨hlt, LoadTxn.Ok.raw h hraw _ he'⟩
    · cases he
  | unload | reload | dispatch | scope | each => cases he

theorem Frame.Ok.evolves {rt rt' : Runtime} {raw : Option EntryRef} {key : Option (List UInt8)}
    (hev : Evolves rt rt' raw key) {f : Frame} (h : f.Ok w rt)
    (hne : ∀ e ∈ f.raw, e ∉ raw ∧ ∀ k ∈ key, rt.modHd.lookup k ≠ some e) : f.Ok w rt' := by
  have hn := hev.nregions
  cases f with
  | load tx pc =>
    refine
      { path := LoadTxn.Ok.path h, key := LoadTxn.Ok.key h, early := LoadTxn.Ok.early h
        late := fun hl => ?_, raw := fun hraw e he => ?_, handler := fun p hp => ?_
        prev := fun r hr => ?_ }
    · obtain ⟨e, he, hlt, hpub⟩ := LoadTxn.Ok.late h hl
      exact ⟨e, he, Nat.lt_of_lt_of_le hlt hev.nmods, hpub⟩
    · have hin : e ∈ Frame.raw (.load tx pc) := by
        simp only [Frame.raw, hraw, if_true]
        exact he
      obtain ⟨hlt, hnone⟩ := Frame.Ok.raw_lt h hin
      exact hev.home hlt hnone (hne e hin).1 (hne e hin).2
    · exact Nat.lt_of_lt_of_le (LoadTxn.Ok.handler h p hp) hn
    · exact Nat.lt_of_lt_of_le (LoadTxn.Ok.prev h r hr) hn
  | unload => trivial
  | reload rl pc => exact fun r hr => Nat.lt_of_lt_of_le (h r hr) hn
  | dispatch d running =>
    obtain ⟨hc, hanc, hprev⟩ := h
    exact ⟨Nat.lt_of_lt_of_le hc hn, by rw [hanc, hev.chain hc],
      fun r hr => Nat.lt_of_lt_of_le (hprev r hr) hn⟩
  | scope prev => exact fun r hr => Nat.lt_of_lt_of_le (h r hr) hn
  | each r => exact Nat.lt_of_lt_of_le h hn

theorem Frame.Apart.evolves {rt rt' : Runtime} {raw : Option EntryRef} {key : Option (List UInt8)}
    (hev : Evolves rt rt' raw key) {f g : Frame} (h : f.Apart w rt g) (hg : g.Ok w rt)
    (hne : ∀ e ∈ g.raw, e ∉ raw ∧ ∀ k ∈ key, rt.modHd.lookup k ≠ some e) :
    f.Apart w rt' g := by
  intro e he
  refine ⟨(h e he).1, fun k hk hlk => ?_⟩
  rcases hev.lookup (hg.raw_lt he).1 hlk with hold | ⟨k', hk', hold⟩
  · exact (h e he).2 k hk hold
  · exact (hne e he).2 k' hk' hold

/-- What a step does not move stays well formed. -/
theorem Effect.below (hwf : c.Wf w) (h : Effect w c a rt') : StackWf w rt' (c.below a) := by
  rcases h.evolves hwf with ⟨-, hnil, -⟩ | hev
  · have hbelow : c.below a = [] := by cases a <;> simp [Config.below, hnil]
    rw [hbelow]
    exact ⟨fun _ hf => (List.not_mem_nil hf).elim, .nil⟩
  · have hok : ∀ g ∈ c.below a, g.Ok w c.st.rt :=
      fun g hg => hwf.stack.ok g (c.mem_stack_of_below hg)
    refine ⟨fun g hg => (hok g hg).evolves hev fun e he => hwf.below_raw hg he, ?_⟩
    have hpair : (c.below a).Pairwise (Frame.Apart w c.st.rt) := by
      cases a with
      | call => exact hwf.stack.apart
      | tau | ret => exact hwf.stack.apart.tail
    refine hpair.imp_of_mem fun {f g} _ hg hap => ?_
    exact hap.evolves hev (hok g hg) fun e he => hwf.below_raw hg he

/-- The call that moves stays apart from those below it, as long as it takes on
no new entry and no new key. -/
theorem Effect.apart (hwf : c.Wf w) (h : Effect w c a rt') {f f' g : Frame}
    (hf : c.mover a = some f) (hg : g ∈ c.below a) (hraw : ∀ e ∈ f'.raw, e ∈ f.raw)
    (hkey : ∀ k ∈ f'.key w, k ∈ f.key w) : f'.Apart w rt' g := by
  rcases h.evolves hwf with ⟨-, hnil, -⟩ | hev
  · have := c.mem_stack_of_below hg
    rw [hnil] at this
    cases this
  · have hold := hwf.below_apart hf hg
    have hnew : f'.Apart w c.st.rt g :=
      fun e he => ⟨fun he' => (hold e he).1 (hraw e he'), fun k hk => (hold e he).2 k (hkey k hk)⟩
    exact hnew.evolves hev (hwf.stack.ok g (c.mem_stack_of_below hg))
      fun e he => hwf.below_raw hg he

theorem StackWf.push {rt : Runtime} {k : List Frame} {f : Frame} (h : StackWf w rt k)
    (hok : f.Ok w rt) (hap : ∀ g ∈ k, f.Apart w rt g) : StackWf w rt (f :: k) :=
  ⟨List.forall_mem_cons.mpr ⟨hok, h.ok⟩, List.pairwise_cons.mpr ⟨hap, h.apart⟩⟩

/-- A call with no entry to link and no key to look up is apart from any. -/
theorem Frame.apart_of_none {rt : Runtime} {f : Frame} (hkey : f.key w = none)
    (hraw : f.raw = none) (g : Frame) : f.Apart w rt g := by
  intro e _
  rw [hkey, hraw]
  simp

theorem StackWf.pushPlain {rt : Runtime} {k : List Frame} {f : Frame} (h : StackWf w rt k)
    (hok : f.Ok w rt) (hkey : f.key w = none) (hraw : f.raw = none) : StackWf w rt (f :: k) :=
  h.push hok fun g _ => Frame.apart_of_none hkey hraw g

theorem StackWf.resumed {rt : Runtime} {k k' : List Frame} (h : StackWf w rt k)
    (hr : Resumed k k') : StackWf w rt k' := by
  cases hr with
  | same => exact h
  | reload rl pc pc' k =>
    have hpair := List.pairwise_cons.mp h.apart
    have htail : StackWf w rt k := ⟨fun f hf => h.ok f (List.mem_cons_of_mem _ hf), hpair.2⟩
    have hok : Frame.Ok w rt (.reload rl pc) := h.ok _ List.mem_cons_self
    exact htail.push hok hpair.1

/-! ## Steps -/

theorem mem_of_nextIn {e x : EntryRef} {l : List EntryRef} (h : nextIn e l = some x) : x ∈ l := by
  induction l with
  | nil => cases h
  | cons y l ih =>
    unfold nextIn at h
    split at h
    · exact List.mem_cons_of_mem _ (List.mem_of_mem_head? h)
    · exact List.mem_cons_of_mem _ (ih h)

theorem home_publishEntry_new (rt : Runtime) (tx : LoadTxn) (loading : Option EntryRef) :
    (rt.publishEntry (tx.freshEntry loading)).home rt.nmods = none := by
  simp [home, publishEntry, LoadTxn.freshEntry]

/-- A load that goes on with the entry it has published. -/
theorem LoadTxn.Ok.go {rt rt' : Runtime} {tx : LoadTxn} {pc pc' : LoadPc} (h : tx.Ok w rt pc)
    (hpc : pc.early = false) (hpc' : pc'.early = false) (hregions : rt.nregions ≤ rt'.nregions)
    (hmods : rt.nmods ≤ rt'.nmods)
    (hraw : pc'.raw = true → ∀ e ∈ tx.modEntry, rt'.home e = none)
    (hhandler : ∀ p, pc' = .handler p → p < rt'.nregions) : tx.Ok w rt' pc' where
  path := h.path
  key := h.key
  early he := by rw [hpc'] at he; cases he
  late _ := by
    obtain ⟨e, he, hlt, hpub⟩ := h.late hpc
    exact ⟨e, he, Nat.lt_of_lt_of_le hlt hmods, hpub⟩
  raw := hraw
  handler := hhandler
  prev r hr := Nat.lt_of_lt_of_le (h.prev r hr) hregions

theorem modLoadStart_ok (w : World) (s : State) (fname : CStr) (rt : Runtime) :
    (modLoadStart w s fname).Ok w rt .opening where
  path := rfl
  key := rfl
  early _ := rfl
  late h := by cases h
  raw h := by cases h
  handler _ h := by cases h
  prev _ h := by cases h

theorem modLoadEnterContext_ok {s : State} {tx : LoadTxn} {pc : LoadPc}
    (h : tx.Ok w s.rt pc) (hcur : ∀ r ∈ s.tls.current.entry, r < s.rt.nregions) :
    (modLoadEnterContext s tx).2.Ok w s.rt pc :=
  { h with prev := hcur }

/-- What `_mod_unload` leaves on the stack up to its cascade. -/
theorem Unloads.stack {s : State} {fname : CStr} {id : RegionId} {plen : Nat} {k : List Frame}
    (h : Unloads w s fname id plen k c' ev) (hk : StackWf w c'.st.rt k) :
    StackWf w c'.st.rt c'.stack := by
  cases h with
  | notFound hl hr => exact hk.resumed (resume_spec hr).2
  | shared hl hme href hr => exact hk.resumed (resume_spec hr).2
  | cascade hl hme href =>
    exact hk.pushPlain trivial rfl rfl

theorem Unloads.sameHeap {s : State} {fname : CStr} {id : RegionId} {plen : Nat} {k : List Frame}
    (h : Unloads w s fname id plen k c' ev) : s.rt.SameHeap c'.st.rt := by
  have hrel : ∀ e, s.rt.SameHeap (s.release e).rt := fun e =>
    sameHeap_modifyMod (by intro _; exact ⟨rfl, rfl⟩) _ _
  cases h with
  | notFound hl hr => exact (resume_spec hr).1.rt ▸ .refl _
  | shared hl hme href hr => exact (resume_spec hr).1.rt ▸ hrel _
  | cascade hl hme href => exact hrel _

/-- What holds of a call goes on holding of it, if it has nothing to link. -/
theorem Effect.ok (hwf : c.Wf w) (h : Effect w c a rt') {f : Frame} (hok : f.Ok w c.st.rt)
    (hraw : f.raw = none) (hne : a ≠ .call .shutdown) : f.Ok w rt' := by
  rcases h.evolves hwf with ⟨hshut, -⟩ | hev
  · exact absurd hshut hne
  · refine hok.evolves hev fun e he => ?_
    rw [hraw] at he
    cases he

/-- A load that has published its entry goes on. -/
theorem Effect.load_go {s : State} {k : List Frame} {tx tx' : LoadTxn} {pc pc' : LoadPc}
    (hwf : Config.Wf w ⟨s, .load tx pc :: k⟩) (h : Effect w ⟨s, .load tx pc :: k⟩ a rt')
    (ha : ∀ q, a ≠ .call q) (hpc : pc.raw = true ∨ pc'.raw = false)
    (he : tx'.modEntry = tx.modEntry) (hl : tx'.lookup = tx.lookup) (hok : tx'.Ok w rt' pc') :
    StackWf w rt' (.load tx' pc' :: k) := by
  have hbelow := h.below hwf
  have hm : Config.mover ⟨s, .load tx pc :: k⟩ a = some (.load tx pc)
      ∧ Config.below ⟨s, .load tx pc :: k⟩ a = k := by
    cases a with
    | call q => exact absurd rfl (ha q)
    | tau | ret => exact ⟨rfl, rfl⟩
  rw [hm.2] at hbelow
  refine hbelow.push (f := .load tx' pc') hok fun g hg => ?_
  refine h.apart hwf hm.1 (hm.2.symm ▸ hg) (fun e he' => ?_) fun key hkey => ?_
  · simp only [Frame.raw, he] at he' ⊢
    rcases hpc with hpc | hpc
    · rw [if_pos hpc]
      split at he'
      · exact he'
      · cases he'
    · rw [hpc] at he'
      cases he'
  · simp only [Frame.key, hl] at hkey ⊢
    rcases hpc with hpc | hpc
    · rw [if_pos hpc]
      split at hkey
      · exact hkey
      · cases hkey
    · rw [hpc] at hkey
      cases hkey

/-- Every step keeps the stack well formed. -/
theorem Step.stack (hwf : c.Wf w) (h : Step w c a c' ev) : StackWf w c'.st.rt c'.stack := by
  have heff := h.effect hwf
  have hbelow := heff.below hwf
  have hcur := hwf.current
  cases h with
  | load hw => exact hbelow.pushPlain (modLoadStart_ok ..) rfl rfl
  | unload hw hu => exact hu.stack hbelow
  | @reload _ _ _ fname e me hw hl hme hu =>
    refine hu.stack (hbelow.push ?_ fun g hg e' he' => ⟨fun h => (by cases h), fun k hk hlk => ?_⟩)
    · intro r hr
      have hr' : r ∈ c.st.rt.home e := by
        rw [Runtime.home_of_mods hme]
        exact hr
      exact Nat.lt_of_lt_of_le (hwf.heap.home_lt hr') hu.sameHeap.nregions
    · simp only [Frame.key] at hk
      split at hk
      · next hsome =>
        cases hk
        rw [hu.sameHeap.modHd, hl] at hlk
        cases hlk
        have hun := ((hwf.stack.ok g hg).raw_lt he').2
        rw [Runtime.home_of_mods hme] at hun
        rw [hun] at hsome
        cases hsome
      · cases hk
  | scope hw hl => exact hbelow.pushPlain hcur rfl rfl
  | eachFirst hw hp hc =>
    exact hbelow.pushPlain (hwf.tree.child_lt (hcur _ hp) (List.mem_of_mem_head? hc)) rfl rfl
  | answered | direct | dispatchDone | shutdown | scopeEnd | eachEnd | reloadEnd | dispatchEnd
  | reinsert => exact hbelow
  | dispatchLoop hw hd =>
    have hstart := dispatchBegin_loop hd
    have hlt := hwf.callerRegion_lt hstart.caller
    have hok : Frame.Ok w c.st.rt (.dispatch _ none) :=
      ⟨hlt, hstart.anc.trans (regionAncestorChain_eq hwf.tree hlt),
        fun r hr => by rw [hstart.prevEntry] at hr; cases hr⟩
    exact hbelow.pushPlain (heff.ok hwf hok rfl (by simp)) rfl rfl
  | dlopenFailed hr => exact hbelow.resumed (resume_spec hr).2
  | reuse hl hme hr => exact hbelow.resumed (resume_spec hr).2
  | installed hr => exact hbelow.resumed (resume_spec hr).2
  | abort ha hr => exact hbelow.resumed (resume_spec hr).2
  | remove hme hr => exact hbelow.resumed (resume_spec hr).2
  | @dlopened s k tx h =>
    have hok : tx.Ok w s.rt .opening := hwf.top rfl
    refine hbelow.pushPlain (f := .load _ .opened) ?_ rfl rfl
    exact
      { path := hok.path, key := hok.key, early := fun _ => hok.early rfl
        late := fun h => by cases h
        raw := fun h => by cases h
        handler := fun _ h => by cases h
        prev := hok.prev }
  | @publish s k tx hl =>
    have hok : tx.Ok w s.rt .opened := hwf.top rfl
    refine hbelow.push (f := .load _ .bind) ?_ fun g hg e he => ?_
    · exact
        { path := hok.path, key := hok.key, early := fun h => by cases h
          late := fun _ => ⟨s.rt.nmods, rfl, Nat.lt_succ_self _, rfl⟩
          raw := fun _ e he => by cases he; exact home_publishEntry_new ..
          handler := fun _ h => by cases h
          prev := hok.prev }
    · have hlt := ((hwf.stack.ok g (List.mem_cons_of_mem _ hg)).raw_lt he).1
      refine ⟨fun h => ?_, fun key hkey hlk => ?_⟩
      · cases h
        exact Nat.lt_irrefl _ hlt
      · cases hkey
        have hnew : (s.rt.modHd.insert tx.lookup.key s.rt.nmods).lookup tx.lookup.key = some e :=
          hlk
        rw [AList.lookup_insert] at hnew
        cases hnew
        exact Nat.lt_irrefl _ hlt
  | @bind s k tx =>
    have hok : tx.Ok w s.rt .bind := hwf.top rfl
    have hpc : ∀ n : Int, (if n = xyOk then LoadPc.claim else .aborting n).early = false
        ∧ ∀ p, (if n = xyOk then LoadPc.claim else .aborting n) ≠ .handler p := by
      intro n
      split <;> simp [LoadPc.early]
    have hsame : s.rt.SameHeap (modLoadBindXy w s tx).1.rt := by
      obtain ⟨-, -, ⟨hrt, -⟩ | ⟨ctx, e, -, -, -, hrt, -⟩⟩ := modLoadBindXy_spec w s tx
      · exact hrt ▸ .refl _
      · exact hrt ▸ sameHeap_modifyMod (by intro _; exact ⟨rfl, rfl⟩) _ _
    refine heff.load_go hwf (by intro _ h; cases h) (Or.inl rfl) rfl rfl ?_
    exact hok.go rfl (hpc _).1 hsame.nregions (Nat.le_of_eq hsame.nmods.symm)
      (fun _ e he => (hsame.home e).trans (hok.raw rfl e he))
      (fun p hp => absurd hp ((hpc _).2 p))
  | @claimFlat s k tx hg =>
    have hok := modLoadEnterContext_ok (hwf.top rfl) hcur
    refine heff.load_go hwf (by intro _ h; cases h) (Or.inl rfl) rfl rfl ?_
    exact hok.go rfl rfl le_rfl le_rfl (fun _ => hok.raw rfl) (fun _ h => by cases h)
  | @claimRefused s k tx err hg =>
    have hok := modLoadEnterContext_ok (hwf.top rfl) hcur
    refine heff.load_go hwf (by intro _ h; cases h) (Or.inl rfl) rfl rfl ?_
    exact hok.go rfl rfl le_rfl le_rfl (fun h => by cases h) (fun _ h => by cases h)
  | @claimAsked s k tx parent fn bits hg =>
    have hok := modLoadEnterContext_ok (hwf.top rfl) hcur
    refine heff.load_go hwf (by intro _ h; cases h) (Or.inl rfl) rfl rfl ?_
    refine hok.go rfl rfl le_rfl le_rfl (fun _ => hok.raw rfl) fun p hp => ?_
    cases hp
    exact ((regionLookup_eq_some hwf.tree).mp (modLoadClaimGate_ask hg)).1
  | @notGranted s k tx parent ret err bits hg =>
    have hok : tx.Ok w s.rt (.handler parent) := hwf.top rfl
    refine heff.load_go hwf (by intro _ h; cases h) (Or.inl rfl) rfl rfl ?_
    exact hok.go rfl rfl le_rfl le_rfl (fun h => by cases h) (fun _ h => by cases h)
  | @granted s s' k tx parent ret bits child hg =>
    have hok : tx.Ok w s.rt (.handler parent) := hwf.top rfl
    obtain ⟨-, -, -, -, hs'⟩ := xyClaimGranted_ok hg
    have hsame : s.rt.SameHeap s'.rt := hs' ▸ sameHeap_addRegion hwf.heap ..
    refine heff.load_go hwf (by intro _ h; cases h) (Or.inl rfl) rfl rfl ?_
    exact hok.go rfl rfl hsame.nregions (Nat.le_of_eq hsame.nmods.symm)
      (fun _ e he => (hsame.home e).trans (hok.raw rfl e he)) (fun _ h => by cases h)
  | @rekey s k tx child e me he hme =>
    have hok : tx.Ok w s.rt (.rekey child) := hwf.top rfl
    refine heff.load_go hwf (by intro _ h; cases h) (Or.inl rfl) rfl rfl ?_
    have hkeep : ∃ rt, (moduleRekeyForClaim w s tx.fname tx.inheritedKey child).rt = rt
        ∧ rt.nregions = s.rt.nregions ∧ rt.nmods = s.rt.nmods ∧ ∀ x, rt.home x = s.rt.home x := by
      refine ⟨_, rfl, ?_⟩
      rcases moduleRekeyForClaim_spec w s tx.fname tx.inheritedKey child with
        ⟨-, ⟨-, hsame⟩ | ⟨e', hl, hrt, -⟩⟩
      · rw [hsame]
        exact ⟨rfl, rfl, fun _ => rfl⟩
      · rw [hrt]
        exact ⟨rfl, rfl, fun _ => moduleRekeyLoadedEntry_home ..⟩
    obtain ⟨rt, hrt, hn, hm, hhome⟩ := hkeep
    exact hok.go rfl rfl (hrt ▸ Nat.le_of_eq hn.symm) (hrt ▸ Nat.le_of_eq hm.symm)
      (fun _ x hx => by
        rw [← hok.raw rfl x hx, ← hhome, ← hrt]
        rfl)
      (fun _ h => by cases h)
  | @link s k tx e me he hme =>
    have hok : tx.Ok w s.rt .link := hwf.top rfl
    have htree := linkEntry_tree s.rt e me
      (((w.dlsym tx.handle .xyRegionStateSize).map w.regionStateSize).getD 0)
    refine heff.load_go hwf (by intro _ h; cases h) (Or.inl rfl) rfl rfl ?_
    exact hok.go rfl rfl (Nat.le_of_eq (congrArg Tree.count htree).symm)
      (Nat.le_of_eq (linkEntry_modHd ..).2.symm) (fun h => by cases h) (fun _ h => by cases h)
  | @installMissing s k tx e he hi =>
    have hok : tx.Ok w s.rt .install := hwf.top rfl
    refine heff.load_go hwf (by intro _ h; cases h) (Or.inr rfl) rfl rfl ?_
    exact hok.go rfl rfl le_rfl le_rfl (fun h => by cases h) (fun _ h => by cases h)
  | @install s k tx e he hi =>
    have hok : tx.Ok w s.rt .install := hwf.top rfl
    refine heff.load_go hwf (by intro _ h; cases h) (Or.inr rfl) rfl rfl ?_
    exact hok.go rfl rfl le_rfl le_rfl (fun h => by cases h) (fun _ h => by cases h)
  | cascadeSkip => exact hbelow.pushPlain trivial rfl rfl
  | cascade hme hp hs hu => exact hu.stack (hbelow.pushPlain trivial rfl rfl)
  | @reloadLoad s k rl =>
    have hreload : StackWf w s.rt (.reload rl .loading :: k) :=
      hwf.stack.resumed (.reload rl (.unloaded xyOk) .loading k)
    exact hreload.pushPlain (f := .load _ .opening) (modLoadStart_ok ..) rfl rfl
  | @selfSkip s k d | @slotSkip s k d | @selfDeaf s k d | @selfEnter s k d =>
    have hok : Frame.Ok w s.rt (.dispatch d none) := hwf.top rfl
    exact hbelow.pushPlain (heff.ok hwf (f := .dispatch _ _) hok rfl (by simp)) rfl rfl
  | @selfListened s k d e | @slotListened s s' k d e =>
    have hok : Frame.Ok w s.rt (.dispatch d (some e)) := hwf.top rfl
    exact hbelow.pushPlain (heff.ok hwf (f := .dispatch _ _) hok rfl (by simp)) rfl rfl
  | @slotEnter s k d d' slot me ctx s' hself hmi hslots hcell hme hc hcb hd' hs' =>
    subst hd'
    have hok : Frame.Ok w s.rt (.dispatch d none) := hwf.top rfl
    refine hbelow.pushPlain (heff.ok hwf (f := .dispatch _ _) ?_ rfl (by simp)) rfl rfl
    exact ⟨hok.1, hok.2.1, hcur⟩
  | @eachNext s k cursor parent child hp hc =>
    have hcursor : cursor < s.rt.nregions := hwf.top rfl
    have hlt := hwf.tree.forest.parent_lt hcursor hp
    exact hbelow.pushPlain (f := .each child)
      (hwf.tree.child_lt (Nat.lt_trans hlt hcursor) (mem_of_nextIn hc)) rfl rfl

/-! ## The current region -/

/-- `xy_claim_at` enters the region it has found or made, or leaves the current
one. -/
theorem xyClaimAt_current {s : State} (ht : s.rt.tree.Wf) (id : RegionId) (plen : Nat)
    (fn : Option HandlerRef) :
    (xyClaimAt s id plen fn).1.tls.current = s.tls.current
      ∨ ∃ r < (xyClaimAt s id plen fn).1.rt.nregions,
        (xyClaimAt s id plen fn).1.tls.current = ⟨id, some r⟩
          ∧ ((xyClaimAt s id plen fn).1.rt.regions r).id = id := by
  rcases xyClaimAt_cases ht id plen fn with
    ⟨-, -, heq⟩ | ⟨r, hr, hrt, heq⟩ | ⟨p, -, hadd, hrt, heq⟩
  · exact Or.inl heq
  · obtain ⟨hlt, hkey⟩ := (regionLookup_eq_some ht).mp hr
    have htree : (xyClaimAt s id plen fn).1.rt.tree = s.rt.tree := by
      rw [hrt]
      cases fn with
      | none => rfl
      | some fn => exact modifyRegion_tree _ (by intro _; rfl) _
    refine Or.inr ⟨r, Nat.lt_of_lt_of_eq hlt (congrArg Tree.count htree).symm, heq, ?_⟩
    exact (congrArg (fun t => (t.node r).id) htree).trans (congrArg RegionKey.id hkey)
  · refine Or.inr ⟨s.rt.nregions, ?_, heq, ?_⟩
    · rw [hrt]
      exact Nat.lt_succ_self _
    · have hnew : ((s.rt.tree.add p id plen (plen - (s.rt.regions p).plen)).node
          s.rt.tree.count).key = ⟨id, plen⟩ := Tree.add_key_new hadd.parent_lt
      rw [← addRegion_tree s.rt p id plen _ fn, ← hrt] at hnew
      exact congrArg RegionKey.id hnew

theorem callDirect_current {q : Call} {s s' : State} {v : Value} (ht : s.rt.tree.Wf)
    (hcur : ∀ r ∈ s.tls.current.entry, r < s.rt.nregions)
    (hn : s.rt.nregions ≤ s'.rt.nregions) (h : callDirect w s q = some (s', v)) :
    ∀ r ∈ s'.tls.current.entry, r < s'.rt.nregions := by
  have hkeep : s'.tls.current = s.tls.current → ∀ r ∈ s'.tls.current.entry, r < s'.rt.nregions :=
    fun heq r hr => Nat.lt_of_lt_of_le (hcur r (heq ▸ hr)) hn
  rcases (callDirect_keeps h).2 with heq | ⟨id, plen, fn, rfl⟩
  · exact hkeep heq
  · obtain rfl : (xyClaimAt s id plen fn).1 = s' := congrArg Prod.fst (Option.some.inj h)
    rcases xyClaimAt_current ht id plen fn with heq | ⟨r, hr, heq, -⟩
    · exact hkeep heq
    · rw [heq]
      rintro _ ⟨rfl⟩
      exact hr

theorem Unloads.current {s : State} {fname : CStr} {id : RegionId} {plen : Nat} {k : List Frame}
    (h : Unloads w s fname id plen k c' ev) : c'.st.tls.current = s.tls.current := by
  cases h with
  | notFound hl hr => exact (resume_spec hr).1.current
  | shared hl hme href hr => exact (resume_spec hr).1.current
  | cascade hl hme href => rfl

/-- After every step the current region is a region. -/
theorem Step.current (hwf : c.Wf w) (h : Step w c a c' ev) :
    ∀ r ∈ c'.st.tls.current.entry, r < c'.st.rt.nregions := by
  have hn : a ≠ .call .shutdown → c.st.rt.nregions ≤ c'.st.rt.nregions := fun hne => by
    rcases (h.effect hwf).evolves hwf with ⟨ha, -⟩ | hev
    · exact absurd ha hne
    · exact hev.nregions
  have hkeep : ∀ {cur : CurrentRegion}, (∀ r ∈ cur.entry, r < c.st.rt.nregions) →
      a ≠ .call .shutdown → c'.st.tls.current = cur →
      ∀ r ∈ c'.st.tls.current.entry, r < c'.st.rt.nregions :=
    fun hcur hne heq r hr => Nat.lt_of_lt_of_le (hcur r (heq ▸ hr)) (hn hne)
  cases h with
  | answered => exact hwf.current
  | load | eachFirst | dlopened | publish | notGranted | link
  | installMissing | install | cascadeSkip | reloadLoad | reinsert | reloadEnd
  | selfSkip | selfDeaf | slotSkip | eachNext | eachEnd => exact hkeep hwf.current (by simp) rfl
  | unload hw hu => exact hkeep hwf.current (by simp) hu.current
  | reload hw hl hme hu => exact hkeep hwf.current (by simp) hu.current
  | cascade hme hp hs hu => exact hkeep hwf.current (by simp) hu.current
  | scope hw hl => exact fun r hr => by cases hr; exact ((regionLookup_eq_some hwf.tree).mp hl).1
  | direct hw hq =>
    exact callDirect_current hwf.tree hwf.current (hn (by intro h; cases h; cases hq)) hq
  | dispatchDone hw hd => exact hkeep hwf.current (by simp) (dispatchBegin_done hd).current
  | dispatchLoop hw hd => exact hkeep hwf.current (by simp) (dispatchBegin_loop hd).current
  | @shutdown s =>
    obtain ⟨hrt, -, hcur, -⟩ := xyShutdown_spec w s
    intro r hr
    rw [hcur] at hr
    cases hr
    rw [hrt]
    exact Nat.one_pos
  | dlopenFailed hr => exact hkeep hwf.current (by simp) (resume_spec hr).1.current
  | reuse hl hme hr => exact hkeep hwf.current (by simp) (resume_spec hr).1.current
  | bind => exact hkeep hwf.current (by simp) (modLoadBindXy_spec ..).1
  | claimFlat | claimRefused | claimAsked =>
    exact fun r hr => ((regionLookup_eq_some hwf.tree).mp hr).1
  | granted hg =>
    obtain ⟨-, -, -, -, hs'⟩ := xyClaimGranted_ok hg
    subst hs'
    intro r hr
    cases hr
    exact Nat.lt_succ_self _
  | rekey =>
    exact hkeep hwf.current (by simp) (congrArg Tls.current (moduleRekeyForClaim_spec ..).1)
  | @installed s k tx prev c' ev hr =>
    have htx : tx.Ok w s.rt (.installing prev) := hwf.top rfl
    have hcur := (resume_spec hr).1.current.trans (modLoadRestoreContext_spec _ tx).2.2.2.2
    split at hcur
    · exact hkeep htx.prev (by simp) hcur
    · exact hkeep hwf.current (by simp) hcur
  | @abort s s' k tx err c' ev ha hr =>
    have htx : tx.Ok w s.rt (.aborting err) := hwf.top rfl
    obtain ⟨e, he, -⟩ := htx.late rfl
    obtain ⟨-, -, -, -, -, hcur⟩ := modLoadAbort_spec he ha
    rw [← (resume_spec hr).1.current] at hcur
    split at hcur
    · exact hkeep htx.prev (by simp) hcur
    · exact hkeep hwf.current (by simp) hcur
  | remove hme hr =>
    exact hkeep hwf.current (by simp)
      ((resume_spec hr).1.current.trans (modUnloadFinish_spec ..).2.2.1)
  | dispatchEnd hend => exact hkeep hwf.current (by simp) (still_dispatchEnd ..).current
  | selfEnter hself he hme hc hd hh hs' => exact hkeep hwf.current (by simp) (hs' ▸ rfl)
  | @slotEnter s k d d' slot me ctx s' hself hmi hslots hcell hme hc hcb hd' hs' =>
    subst hs'
    unfold Dispatch.switch
    split
    · intro r hr
      have hhome : r ∈ s.rt.home slot.me := by
        rw [Runtime.home_of_mods hme]
        exact hr
      exact hwf.heap.home_lt hhome
    · exact hwf.current
  | selfListened => exact hkeep hwf.current (by simp) (State.still_writeBuf ..).current
  | @slotListened s s' k d e bytes hself hs' =>
    have hok : Frame.Ok w s.rt (.dispatch d (some e)) := hwf.top rfl
    subst hs'
    by_cases hch : d.regionChanged = true
    · have hprev : ∀ r ∈ (CurrentRegion.mk d.regionId d.prevEntry).entry, r < s.rt.nregions :=
        hok.2.2
      refine hkeep hprev (by simp) ?_
      simp [hch, State.lastPublish]
    · refine hkeep hwf.current (by simp) ?_
      simp [hch, State.lastPublish, (State.still_writeBuf ..).current]
  | @scopeEnd s k prev ret =>
    have hok : Frame.Ok w s.rt (.scope prev) := hwf.top rfl
    exact hkeep hok (by simp) rfl

/-! ## Runs -/

/-- Every step keeps a configuration well formed. -/
theorem Config.Wf.step (hwf : c.Wf w) (h : Step w c a c' ev) : c'.Wf w where
  tree := (h.effect hwf).tree hwf
  heap := (h.effect hwf).heap hwf
  current := h.current hwf
  stack := h.stack hwf

theorem Config.Wf.of_initial (h : c.Initial) : c.Wf w := by
  obtain ⟨ctxs, adapters, mem, rfl⟩ := h
  exact
    { tree := tree_bootstrap _
      heap := heapWf_bootstrap _
      current := by rintro _ ⟨rfl⟩; exact Nat.one_pos
      stack := ⟨fun _ hf => (List.not_mem_nil hf).elim, .nil⟩ }

/-- Every configuration of every run is well formed. -/
theorem Config.Wf.of_reachable {ok : Config → Action → Prop} (h : ReachableBy w ok c) : c.Wf w :=
  h.invariant (fun _ => Config.Wf.of_initial) fun _ _ _ hwf _ ⟨_, hstep⟩ =>
    hwf.step (Step.of_step hstep)

/-- An invariant of runs, relative to the well-formedness of configurations. -/
theorem ReachableBy.invariant_wf {ok : Config → Action → Prop} (inv : Config → Prop)
    (hinit : ∀ c, c.Initial → inv c)
    (hstep : ∀ c a c' ev, c.Wf w → inv c → ok c a → Step w c a c' ev → inv c')
    (h : ReachableBy w ok c) : inv c :=
  h.invariant_of (fun _ => Config.Wf.of_reachable) hinit
    fun c a c' hwf hinv hok ⟨ev, hs⟩ => hstep c a c' ev hwf hinv hok (Step.of_step hs)

end

end Xylem
