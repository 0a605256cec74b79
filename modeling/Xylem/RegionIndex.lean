import Xylem.ModTable
import Xylem.Symbols

/-!
# The index of the regions

`mod_by_region_hd` lists the modules of each region next to the module table.  It is
to hold the entries that are loaded in a region, each once (`Indexed`).

* A publication adds to it, and a claim moves one entry from the parent's key to that
  of the child, through a buffer of 512.
* An unload, and a load that fails, delete by the key alone: what is left is what
  `corm_del` leaves of all the values of the key (`DeletesOwn`).
* `indexed_iff`: the index is right in all of a run exactly when its deletions leave
  the other entries there and its claims move the entry out of its own region, with at
  most 512 others in it (`IndexKept`).
-/

namespace Xylem

open Xylem.Runtime

/-- The index of every region holds the entries that are loaded in it, each once. -/
structure Runtime.Indexed (rt : Runtime) : Prop where
  nodup : ∀ k, (rt.modByRegionHd k).Nodup
  mem_iff : ∀ k e, e ∈ rt.modByRegionHd k
    ↔ ∃ me, rt.mods e = some me ∧ (⟨me.regionId, me.regionPlen⟩ : RegionKey) = k

/-- Deleting by the key of the entry takes out this entry and no other. -/
def DeletesOwn (w : World) (rt : Runtime) (e : EntryRef) : Prop :=
  ∀ me ∈ rt.mods e, (w.delMulti (rt.modByRegionHd ⟨me.regionId, me.regionPlen⟩)).Perm
    ((rt.modByRegionHd ⟨me.regionId, me.regionPlen⟩).erase e)

/-- The entry is loaded in the region with this key, and at most 512 others are. -/
def MovesOwn (rt : Runtime) (pk : RegionKey) (e : EntryRef) : Prop :=
  (∀ me ∈ rt.mods e, (⟨me.regionId, me.regionPlen⟩ : RegionKey) = pk)
    ∧ ((rt.modByRegionHd pk).filter (· ≠ e)).length ≤ 512

/-- What a step has to heed for the index. -/
def IndexKept (w : World) (c : Config) (a : Action) : Prop :=
  match a, c.stack with
  | .tau, .load tx (.rekey _) :: _ =>
    ∀ e ∈ c.st.rt.modHd.lookup tx.lookup.key, MovesOwn c.st.rt tx.inheritedKey e
  | .tau, .load tx (.aborting _) :: _ => ∀ e ∈ tx.modEntry, DeletesOwn w c.st.rt e
  | .tau, .unload e [] :: _ => DeletesOwn w c.st.rt e
  | _, _ => True

instance (w : World) (rt : Runtime) (e : EntryRef) : Decidable (DeletesOwn w rt e) := by
  unfold DeletesOwn; infer_instance

instance (rt : Runtime) (pk : RegionKey) (e : EntryRef) : Decidable (MovesOwn rt pk e) := by
  unfold MovesOwn; infer_instance

instance (w : World) (c : Config) (a : Action) : Decidable (IndexKept w c a) := by
  unfold IndexKept
  generalize c.stack = k
  induction a using Action.casesOn with
  | tau =>
    induction k using List.casesOn with
    | nil => infer_instance
    | cons f k =>
      induction f using Frame.casesOn with
      | load tx pc => induction pc using LoadPc.casesOn <;> infer_instance
      | unload e l => induction l using List.casesOn <;> infer_instance
      | _ => infer_instance
  | _ => infer_instance

section

variable {w : World} {c c' : Config} {a : Action} {ev : Event} {rt rt' : Runtime} {e : EntryRef}
  {me : ModEntry} {pk ck : RegionKey} {log : List Move}

/-! ## The index -/

theorem Runtime.Indexed.iff_idents : rt.Indexed ↔ (∀ k, (rt.modByRegionHd k).Nodup)
    ∧ ∀ k e, e ∈ rt.modByRegionHd k ↔ (rt.idents e).map (·.region) = some k := by
  have hregion : ∀ k e, (∃ me, rt.mods e = some me
      ∧ (⟨me.regionId, me.regionPlen⟩ : RegionKey) = k) ↔ (rt.idents e).map (·.region) = some k := by
    intro k e
    unfold Runtime.idents
    rw [Option.map_map, Option.map_eq_some_iff]
    exact Iff.rfl
  constructor
  · intro h
    exact ⟨h.nodup, fun k e => (h.mem_iff k e).trans (hregion k e)⟩
  · intro h
    exact ⟨h.1, fun k e => (h.2 k e).trans (hregion k e).symm⟩

theorem Runtime.Indexed.congr (h : rt.Indexed) (hindex : rt'.modByRegionHd = rt.modByRegionHd)
    (hidents : rt'.idents = rt.idents) : rt'.Indexed := by
  rw [Runtime.Indexed.iff_idents] at h ⊢
  rw [hindex, hidents]
  exact h

theorem indexed_bootstrap (rt : Runtime) : rt.bootstrap.Indexed where
  nodup k := List.nodup_nil
  mem_iff k e := by
    constructor
    · intro h
      cases h
    · intro h
      obtain ⟨me, hme, -⟩ := h
      cases hme

/-- A publication puts the new entry under the key of its region. -/
theorem Runtime.Indexed.publishEntry (h : rt.Indexed) (hfresh : rt.mods rt.nmods = none)
    (me : ModEntry) : (rt.publishEntry me).Indexed := by
  have hout : ∀ k, rt.nmods ∉ rt.modByRegionHd k := by
    intro k hin
    obtain ⟨me', hme', -⟩ := (h.mem_iff k _).mp hin
    rw [hfresh] at hme'
    cases hme'
  have hindex : ∀ k, (rt.publishEntry me).modByRegionHd k
      = if k = ⟨me.regionId, me.regionPlen⟩ then rt.modByRegionHd k ++ [rt.nmods]
        else rt.modByRegionHd k := by
    intro k
    simp only [Runtime.publishEntry, Function.update_apply]
    split
    · next heq => rw [heq]
    · rfl
  constructor
  · intro k
    rw [hindex]
    split
    · exact (h.nodup k).append (List.nodup_singleton _)
        (List.disjoint_singleton.mpr (hout k))
    · exact h.nodup k
  · intro k x
    have hmods : (rt.publishEntry me).mods = Function.update rt.mods rt.nmods (some me) := rfl
    rw [hindex, hmods]
    by_cases hx : x = rt.nmods
    · subst hx
      rw [Function.update_self]
      split
      · next heq => simp [heq]
      · next hne => simpa [hout k] using Ne.symm hne
    · rw [Function.update_of_ne hx, ← h.mem_iff k x]
      split
      · simp [hx]
      · exact Iff.rfl

/-- A deletion by the key is right exactly when it takes out this entry. -/
theorem Runtime.Indexed.free_iff (h : rt.Indexed) (hme : rt.mods e = some me)
    (hindex : rt'.modByRegionHd = Function.update rt.modByRegionHd me.ident.region
      (w.delMulti (rt.modByRegionHd me.ident.region)))
    (hgone : rt'.mods e = none) (hidents : ∀ x, x ≠ e → rt'.idents x = rt.idents x) :
    rt'.Indexed ↔ DeletesOwn w rt e := by
  have hown : DeletesOwn w rt e ↔ (w.delMulti (rt.modByRegionHd me.ident.region)).Perm
      ((rt.modByRegionHd me.ident.region).erase e) := by
    constructor
    · intro hd
      exact hd me hme
    · intro hp me' hme'
      obtain rfl : me' = me := Option.some.inj (hme'.symm.trans hme)
      exact hp
  have hnodup := h.nodup me.ident.region
  have hafter : ∀ k x, ((rt'.idents x).map (·.region) = some k
      ↔ x ≠ e ∧ x ∈ rt.modByRegionHd k) := by
    intro k x
    by_cases hx : x = e
    · subst hx
      simp [Runtime.idents, hgone]
    · rw [hidents x hx, (Runtime.Indexed.iff_idents.mp h).2 k x]
      simp [hx]
  rw [hown, Runtime.Indexed.iff_idents]
  constructor
  · intro hi
    have hk := hi.2 me.ident.region
    have hn := hi.1 me.ident.region
    rw [hindex, Function.update_self] at hn
    refine (List.perm_ext_iff_of_nodup hn (hnodup.erase e)).mpr fun x => ?_
    have hx := (hk x).trans (hafter _ x)
    rw [hindex, Function.update_self] at hx
    rw [hx, hnodup.mem_erase_iff]
  · intro hp
    refine ⟨fun k => ?_, fun k x => ?_⟩
    · rw [hindex, Function.update_apply]
      split
      · exact hp.nodup_iff.mpr (hnodup.erase e)
      · exact h.nodup k
    · rw [hafter, hindex, Function.update_apply]
      split
      · next heq => rw [hp.mem_iff, hnodup.mem_erase_iff, heq]
      · next hne =>
        have hout : e ∉ rt.modByRegionHd k := by
          intro hin
          obtain ⟨me', hme', hk⟩ := (h.mem_iff k e).mp hin
          obtain rfl : me' = me := Option.some.inj (hme'.symm.trans hme)
          exact hne hk.symm
        constructor
        · intro hin
          refine ⟨?_, hin⟩
          rintro rfl
          exact hout hin
        · exact fun hin => hin.2

/-- A claim moves an entry rightly exactly when the entry is in the region that it is
moved out of, and the buffer holds all the others there. -/
theorem Runtime.Indexed.rekey_iff (h : rt.Indexed) (hme : rt.mods e = some me)
    (oldKey : List UInt8) (path : CStr) :
    (rt.moduleRekeyLoadedEntry e oldKey path pk ck).Indexed ↔ MovesOwn rt pk e := by
  generalize hrt : rt.moduleRekeyLoadedEntry e oldKey path pk ck = rt'
  generalize hothers : ((rt.modByRegionHd pk).filter (· ≠ e)).take 512 = others
  have hindex : ∀ k, rt'.modByRegionHd k
      = if k = ck then (if ck = pk then others else rt.modByRegionHd ck) ++ [e]
        else if k = pk then others else rt.modByRegionHd k := by
    intro k
    subst hrt
    subst hothers
    simp only [moduleRekeyLoadedEntry, moduleRekeyRegionIndex, modifyMod, Function.update_apply]
  have hregion : ∀ x, (rt'.idents x).map (·.region)
      = if x = e then some ck else (rt.idents x).map (·.region) := by
    intro x
    subst hrt
    unfold Runtime.idents moduleRekeyLoadedEntry moduleRekeyRegionIndex modifyMod
    dsimp only
    by_cases hx : x = e
    · subst hx
      rw [Function.update_self, hme, if_pos rfl]
      rfl
    · rw [Function.update_of_ne hx, if_neg hx]
  have hfilter : ∀ x, x ∈ (rt.modByRegionHd pk).filter (· ≠ e)
      ↔ x ∈ rt.modByRegionHd pk ∧ x ≠ e := by
    intro x
    rw [List.mem_filter, decide_eq_true_eq]
  have hout : e ∉ others := by
    intro hin
    subst hothers
    exact ((hfilter e).mp (List.mem_of_mem_take hin)).2 rfl
  have hnodup : others.Nodup := by
    subst hothers
    exact ((h.nodup pk).filter _).sublist (List.take_sublist _ _)
  obtain ⟨-, hmem⟩ := Runtime.Indexed.iff_idents.mp h
  rw [Runtime.Indexed.iff_idents]
  constructor
  · intro hi
    obtain ⟨hn', hmem'⟩ := hi
    constructor
    · intro me' hme'
      obtain rfl : me' = me := Option.some.inj (hme'.symm.trans hme)
      by_contra hne
      have hin : e ∈ rt.modByRegionHd ⟨me'.regionId, me'.regionPlen⟩ :=
        (h.mem_iff _ e).mpr ⟨me', hme, rfl⟩
      by_cases hck : (⟨me'.regionId, me'.regionPlen⟩ : RegionKey) = ck
      · have hn := hn' ck
        rw [hindex, if_pos rfl, if_neg (fun heq => hne (hck.trans heq))] at hn
        exact (List.nodup_append.mp hn).2.2 e (hck ▸ hin) e List.mem_cons_self rfl
      · have hin' : e ∈ rt'.modByRegionHd ⟨me'.regionId, me'.regionPlen⟩ := by
          rw [hindex, if_neg hck, if_neg hne]
          exact hin
        rw [hmem', hregion, if_pos rfl] at hin'
        exact hck (Option.some.inj hin').symm
    · have hsub : ∀ x ∈ (rt.modByRegionHd pk).filter (· ≠ e), x ∈ others := by
        intro x hx
        obtain ⟨hx, hxe⟩ := (hfilter x).mp hx
        have hx' : x ∈ rt'.modByRegionHd pk := by
          rw [hmem', hregion, if_neg hxe, ← hmem]
          exact hx
        rw [hindex] at hx'
        split at hx'
        · next heq =>
          rw [if_pos heq.symm] at hx'
          simpa [hxe] using hx'
        · rwa [if_pos rfl] at hx'
      calc ((rt.modByRegionHd pk).filter (· ≠ e)).length
          ≤ others.length := (List.subperm_of_subset ((h.nodup pk).filter _) hsub).length_le
        _ ≤ 512 := by
          rw [← hothers, List.length_take]
          omega
  · intro hmoves
    obtain ⟨hpk, hlen⟩ := hmoves
    have hall : others = (rt.modByRegionHd pk).filter (· ≠ e) := by
      rw [← hothers]
      exact List.take_of_length_le hlen
    have honly : ∀ k, k ≠ pk → e ∉ rt.modByRegionHd k := by
      intro k hk hin
      obtain ⟨me', hme', hkey⟩ := (h.mem_iff k e).mp hin
      exact hk (hkey.symm.trans (hpk me' hme'))
    constructor
    · intro k
      rw [hindex]
      split
      · have hbefore : (if ck = pk then others else rt.modByRegionHd ck).Nodup
            ∧ e ∉ (if ck = pk then others else rt.modByRegionHd ck) := by
          split
          · exact ⟨hnodup, hout⟩
          · next hne => exact ⟨h.nodup ck, honly ck hne⟩
        exact hbefore.1.append (List.nodup_singleton _) (List.disjoint_singleton.mpr hbefore.2)
      · split
        · exact hnodup
        · exact h.nodup k
    · intro k x
      rw [hindex, hregion]
      by_cases hx : x = e
      · subst hx
        rw [if_pos rfl, Option.some.injEq]
        split
        · next heq => simp [heq]
        · next hne =>
          split
          · exact ⟨fun hin => absurd hin hout, fun heq => absurd heq.symm hne⟩
          · next hk => exact ⟨fun hin => absurd hin (honly k hk), fun heq => absurd heq.symm hne⟩
      · rw [if_neg hx, ← hmem]
        have hothers' : x ∈ others ↔ x ∈ rt.modByRegionHd pk := by
          rw [hall, hfilter]
          exact ⟨fun hin => hin.1, fun hin => ⟨hin, hx⟩⟩
        split
        · next heq =>
          rw [List.mem_append, List.mem_singleton, heq]
          split
          · next hck => rw [hothers', hck]; simp [hx]
          · simp [hx]
        · split
          · next heq => rw [hothers', heq]
          · exact Iff.rfl

/-! ## Steps -/

/-- Apart from claims and deletions, a step keeps the index right. -/
theorem Effect.indexed (hwf : c.Wf w) (h : c.st.rt.Indexed) (heff : Effect w c a rt')
    (hrekey : ∀ tx child k, a = .tau → c.stack ≠ .load tx (.rekey child) :: k)
    (hfrees : ∀ e, ¬ c.Frees a e) : rt'.Indexed := by
  cases heff.tablesChange with
  | same htable hindex hidents => exact h.congr hindex hidents
  | publish ha hstack hl hrt =>
    rw [hrt]
    exact h.publishEntry (hwf.heap.fresh le_rfl) _
  | rekey ha hstack hl hrt => exact absurd hstack (hrekey _ _ _ ha)
  | free hfree => exact absurd hfree (hfrees _)
  | shutdown ha hrt =>
    rw [hrt]
    exact indexed_bootstrap _

/-- A step keeps the index right exactly when it heeds the condition. -/
theorem Step.indexed_iff_kept (hwf : c.Wf w) (h : c.st.rt.Indexed) (hs : Step w c a c' ev) :
    c'.st.rt.Indexed ↔ IndexKept w c a := by
  have heff := hs.effect hwf
  have hother : (∀ tx child k, a = .tau → c.stack ≠ .load tx (.rekey child) :: k) →
      (∀ e, ¬ c.Frees a e) → c'.st.rt.Indexed := heff.indexed hwf h
  cases hs with
  | @rekey s k tx child e me he hme =>
    have hok : tx.Ok w s.rt (.rekey child) := hwf.top rfl
    obtain ⟨-, hspec⟩ := moduleRekeyForClaim_spec w s tx.fname tx.inheritedKey child
    show (moduleRekeyForClaim w s tx.fname tx.inheritedKey child).rt.Indexed ↔ _
    have hkey : modKey (w.loadPath tx.fname) tx.inheritedKey.id tx.inheritedKey.plen
        = tx.lookup.key := hok.key.symm
    rw [hkey] at hspec
    unfold IndexKept
    dsimp only
    rcases hspec with ⟨hnone, heq⟩ | ⟨x, hx, hrt, -⟩
    · rw [heq, hnone]
      simpa using h
    · obtain ⟨mx, hmx⟩ : ∃ mx, s.rt.mods x = some mx := by
        have hlive := hwf.heap.table hx
        exact Option.ne_none_iff_exists'.mp fun hnone =>
          absurd (keyOf_eq_none.mpr hnone) (by rw [hlive]; simp)
      rw [hrt, Runtime.Indexed.rekey_iff h hmx, hx]
      simp
  | @abort s s' k tx err c' ev ha hr =>
    have hok : tx.Ok w s.rt (.aborting err) := hwf.top rfl
    obtain ⟨e, he, -, hpub⟩ := hok.late rfl
    obtain ⟨me, hme, hrt, -⟩ := modLoadAbort_spec he ha
    rw [hpub] at hrt
    have hdiscard : c'.st.rt = s.rt.discardEntry w e me := by
      rw [(resume_spec hr).1.rt, hrt]
      exact if_pos rfl
    have hkept : IndexKept w ⟨s, .load tx (.aborting err) :: k⟩ .tau ↔ DeletesOwn w s.rt e := by
      unfold IndexKept
      dsimp only
      rw [he]
      simp
    rw [hkept, hdiscard]
    refine h.free_iff hme (discardEntry_modByRegionHd ..) ?_ fun x hx => ?_
    · rw [discardEntry_mods, Function.update_self]
    · unfold Runtime.idents
      rw [discardEntry_mods, Function.update_of_ne hx]
  | @remove s k e me c' ev hme hr =>
    have hremove : c'.st.rt = s.rt.removeEntry w e me := by
      rw [(resume_spec hr).1.rt, (modUnloadFinish_spec ..).1]
    obtain ⟨rt1, hcore, hmods⟩ := removeEntry_mods (w := w) s.rt e me
    show _ ↔ DeletesOwn w s.rt e
    rw [hremove]
    refine h.free_iff hme (removeEntry_modByRegionHd ..) ?_ fun x hx => ?_
    · rw [hmods, Function.update_self]
    · unfold Runtime.idents
      rw [hmods, Function.update_of_ne hx]
      exact congrFun (idents_of_core hcore) x
  | _ =>
    refine iff_of_true (hother ?_ ?_) trivial
    · intro tx child k ha hstack
      first | cases hstack | cases ha
    · intro e hfrees
      obtain ⟨ha, ⟨tx, err, k, hstack, -⟩ | ⟨k, hstack⟩⟩ := hfrees <;>
        first | cases hstack | cases ha

/-! ## Runs -/

/-- In a run, the index is right in every state reached exactly when every step heeds
the condition: a deletion by the key takes out the entry alone, and a claim moves an
entry out of its own region, with at most 512 others in it. -/
theorem indexed_iff (h : Trace w log c) :
    (∀ m ∈ log, m.after.st.rt.Indexed) ↔ ∀ m ∈ log, IndexKept w m.before m.act := by
  suffices hboth : ((∀ m ∈ log, m.after.st.rt.Indexed) ↔ ∀ m ∈ log, IndexKept w m.before m.act)
      ∧ ((∀ m ∈ log, m.after.st.rt.Indexed) → c.st.rt.Indexed) from hboth.1
  induction h with
  | start h =>
    refine ⟨⟨fun _ m hm => ?_, fun _ m hm => ?_⟩, fun _ => ?_⟩
    · cases hm
    · cases hm
    obtain ⟨ctxs, adapters, mem, rfl⟩ := h
    exact indexed_bootstrap _
  | @move log c c' a ev htr hs ih =>
    obtain ⟨hiff, hlast⟩ := ih
    have hwf : c.Wf w := .of_reachable htr.reachable
    simp only [List.forall_mem_append, List.forall_mem_singleton]
    refine ⟨?_, fun h => h.2⟩
    constructor
    · intro h
      exact ⟨hiff.mp h.1, ((Step.of_step hs).indexed_iff_kept hwf (hlast h.1)).mp h.2⟩
    · intro h
      have hbefore := hiff.mpr h.1
      exact ⟨hbefore, ((Step.of_step hs).indexed_iff_kept hwf (hlast hbefore)).mpr h.2⟩

/-- A corm that deletes all values of a key takes out the entry alone only if it is the
one value. -/
theorem deletesOwn_iff_of_all (hall : ∀ l, w.delMulti l = []) (h : rt.Indexed)
    (hme : rt.mods e = some me) :
    DeletesOwn w rt e ↔ rt.modByRegionHd ⟨me.regionId, me.regionPlen⟩ = [e] := by
  have hin : e ∈ rt.modByRegionHd ⟨me.regionId, me.regionPlen⟩ :=
    (h.mem_iff _ e).mpr ⟨me, hme, rfl⟩
  constructor
  · intro hd
    have hp := hd me hme
    rw [hall] at hp
    have hnil := List.nil_perm.mp hp
    obtain ⟨l, hl⟩ : ∃ l, rt.modByRegionHd ⟨me.regionId, me.regionPlen⟩ = l := ⟨_, rfl⟩
    have hlen := List.length_erase_of_mem hin
    rw [hl] at hin hnil hlen ⊢
    rw [hnil] at hlen
    obtain ⟨x, hx⟩ := List.length_eq_one_iff.mp
      (show l.length = 1 by have := List.length_pos_of_mem hin; simp at hlen; omega)
    rw [hx] at hin ⊢
    rw [List.mem_singleton.mp hin]
  · intro heq me' hme'
    obtain rfl : me' = me := Option.some.inj (hme'.symm.trans hme)
    rw [heq, hall, List.erase_cons_head]

end

/-- A module is loaded into a region of its own, and unloaded from there. -/
theorem indexed_of_claimed :
    let l : List Action := .call (.requireClaim (some 7)) :: claimRun sampleFile 1 16
      ++ [.call (.claimAt 0 16 none), .call (.unload sampleFile), .tau]
    ∀ m ∈ movesOf claimingWorld (Config.boot sampleHook) l, m.after.st.rt.Indexed := by
  intro l
  have htrace : Trace claimingWorld (movesOf claimingWorld (Config.boot sampleHook) l)
      ((Config.boot sampleHook).after claimingWorld l) :=
    .of_actions (Config.boot_initial sampleHook) (by decide +kernel)
  exact (indexed_iff htrace).mpr (by decide +kernel)

/-- Two modules are loaded into the root, and one is unloaded.  A corm that deletes all
values of the key loses the one that is still loaded; a corm that deletes the first
keeps the one that is gone. -/
theorem not_indexed_of_sibling :
    (∃ c, Reachable sampleWorld c ∧ (∀ l, sampleWorld.delMulti l = []) ∧ c.stack = []
      ∧ ¬ c.st.rt.Indexed)
    ∧ ∃ w c, Reachable w c ∧ (∀ l, w.delMulti l = l.tail) ∧ c.stack = [] ∧ ¬ c.st.rt.Indexed := by
  let first : World := { sampleWorld with delMulti := List.tail }
  let l (fname : CStr) : List Action :=
    loadRun sampleFile 1 ++ loadRun sampleFile' 2 ++ [.call (.unload fname), .tau]
  have hreach : ∀ w fname,
      (movesOf w (Config.boot sampleHook) (l fname)).length = (l fname).length →
      Reachable w ((Config.boot sampleHook).after w (l fname)) := fun w fname hlen =>
    (Trace.of_actions (Config.boot_initial sampleHook) hlen).reachable
  refine ⟨⟨_, hreach sampleWorld sampleFile (by decide +kernel), fun _ => rfl, by decide +kernel,
    fun h => ?_⟩, first, _, hreach first sampleFile' (by decide +kernel), fun _ => rfl,
    by decide +kernel, fun h => ?_⟩
  · have hloaded : (((Config.boot sampleHook).after sampleWorld (l sampleFile)).st.rt.mods 1).any
        (fun me => me.regionId = 0 ∧ me.regionPlen = 0) = true := by decide +kernel
    obtain ⟨me, hme, hkey⟩ := (Option.any_eq_true _ _).mp hloaded
    obtain ⟨hid, hplen⟩ := of_decide_eq_true hkey
    have hin := (h.mem_iff ⟨0, 0⟩ 1).mpr ⟨me, hme, by rw [hid, hplen]⟩
    exact absurd hin (by decide +kernel)
  · have hin : 1 ∈ ((Config.boot sampleHook).after first (l sampleFile')).st.rt.modByRegionHd
        ⟨0, 0⟩ := by decide +kernel
    obtain ⟨me, hme, -⟩ := (h.mem_iff ⟨0, 0⟩ 1).mp hin
    have hgone : ((Config.boot sampleHook).after first (l sampleFile')).st.rt.mods 1 = none := by
      decide +kernel
    rw [hgone] at hme
    cases hme

end Xylem
