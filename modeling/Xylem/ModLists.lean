import Xylem.Entries

/-!
# Module lists

The dispatch order of a region is the order of its module list.  A load appends
to it, an unload takes an entry out, and a reload moves one (`Effect.lists`).
`prevIn` is the place that a reload remembers: to put an entry there is to put it
where the old one was (`insertAfter_prevIn`).
-/

namespace Xylem

open Xylem.Runtime

namespace Runtime

variable {w : World} {rt rt' : Runtime} {e e' z : EntryRef} {l l' : List EntryRef}
  {after : Option EntryRef} {P : EntryRef → Bool}

/-! ## Places in a list -/

/-- To put an entry after the last one is to append it. -/
theorem insertAfter_getLast? (e : EntryRef) {l : List EntryRef} (h : l.Nodup) :
    insertAfter e l.getLast? l = l ++ [e] := by
  induction l with
  | nil => rfl
  | cons x l ih =>
    rw [List.nodup_cons] at h
    cases l with
    | nil => simp [insertAfter]
    | cons y l =>
      have hne : x ≠ (y :: l).getLast (by simp) := fun heq =>
        h.1 (heq ▸ List.getLast_mem (by simp))
      have hlast : (x :: y :: l).getLast? = (y :: l).getLast? := rfl
      rw [hlast]
      rw [List.getLast?_eq_some_getLast (by simp)] at ih ⊢
      simp only [insertAfter, if_neg hne, List.cons_append]
      exact congrArg _ (ih h.2)

theorem prevIn_of_not_mem (h : e ∉ l) : prevIn e l = none := by
  induction l with
  | nil => rfl
  | cons x l ih =>
    cases l with
    | nil => rfl
    | cons y l =>
      have hne : y ≠ e := fun heq => h (heq ▸ by simp)
      rw [prevIn, if_neg hne]
      exact ih fun hin => h (List.mem_cons_of_mem _ hin)

theorem prevIn_head (h : e ∉ l) : prevIn e (e :: l) = none := by
  cases l with
  | nil => rfl
  | cons y l =>
    have hne : y ≠ e := fun heq => h (heq ▸ List.mem_cons_self)
    rw [prevIn, if_neg hne]
    exact prevIn_of_not_mem h

/-- What is not the head has something before it. -/
theorem prevIn_of_mem {x : EntryRef} (h : e ∈ l) : ∃ a ∈ x :: l, prevIn e (x :: l) = some a := by
  induction l generalizing x with
  | nil => cases h
  | cons y l ih =>
    rw [prevIn]
    by_cases hy : y = e
    · exact ⟨x, List.mem_cons_self, if_pos hy⟩
    · rw [if_neg hy]
      obtain ⟨a, ha, hprev⟩ := ih (x := y) ((List.mem_cons.mp h).resolve_left (Ne.symm hy))
      exact ⟨a, List.mem_cons_of_mem _ ha, hprev⟩

theorem prevIn_mem {a : EntryRef} (h : prevIn e l = some a) : a ∈ l ∧ e ∈ l := by
  have he : e ∈ l := by
    by_contra hnot
    rw [prevIn_of_not_mem hnot] at h
    cases h
  refine ⟨?_, he⟩
  cases l with
  | nil => cases h
  | cons x l =>
    by_cases hin : e ∈ l
    · obtain ⟨b, hb, hprev⟩ := prevIn_of_mem (x := x) hin
      rw [hprev] at h
      cases h
      exact hb
    · cases l with
      | nil => cases h
      | cons y l =>
        have hne : y ≠ e := fun heq => hin (heq ▸ List.mem_cons_self)
        rw [prevIn, if_neg hne, prevIn_of_not_mem hin] at h
        cases h

theorem prevIn_ne {a : EntryRef} (hl : l.Nodup) (h : prevIn e l = some a) : a ≠ e := by
  induction l with
  | nil => cases h
  | cons x l ih =>
    cases l with
    | nil => cases h
    | cons y l =>
      rw [prevIn] at h
      split at h
      · next hy =>
        cases h
        rintro rfl
        exact (List.nodup_cons.mp hl).1 (hy ▸ List.mem_cons_self)
      · exact ih (List.nodup_cons.mp hl).2 h

/-- To put an entry after the old predecessor of another is to put it in the place
of the other. -/
theorem insertAfter_prevIn (e' : EntryRef) (hl : l.Nodup) (he : e ∈ l) :
    insertAfter e' (prevIn e l) (l.erase e) = l.map fun x => if x = e then e' else x := by
  induction l with
  | nil => cases he
  | cons x l ih =>
    obtain ⟨hx, hl'⟩ := List.nodup_cons.mp hl
    by_cases hxe : x = e
    · subst hxe
      have hmap : (l.map fun y => if y = x then e' else y) = l.map id :=
        List.map_congr_left fun y hy => if_neg fun heq : y = x => hx (heq ▸ hy)
      rw [prevIn_head hx, List.erase_cons_head, List.map_cons, if_pos rfl, hmap, List.map_id,
        insertAfter]
    · have hin : e ∈ l := (List.mem_cons.mp he).resolve_left (Ne.symm hxe)
      obtain ⟨y, l, rfl⟩ := List.exists_cons_of_ne_nil (List.ne_nil_of_mem hin)
      rw [List.erase_cons_tail (by simpa using hxe), List.map_cons, if_neg hxe, ← ih hl' hin]
      rw [prevIn]
      by_cases hy : y = e
      · subst hy
        rw [if_pos rfl, prevIn_head (List.nodup_cons.mp hl').1]
        simp [insertAfter]
      · obtain ⟨a, ha, hprev⟩ := prevIn_of_mem (x := y)
          ((List.mem_cons.mp hin).resolve_left (Ne.symm hy))
        rw [if_neg hy, hprev, insertAfter, if_neg fun heq : x = a => hx (heq ▸ ha)]

/-- To take out what does not count changes nothing. -/
theorem filter_erase_of_not {P : EntryRef → Bool} {l : List EntryRef} (hx : P x = false) :
    (l.erase x).filter P = l.filter P := by
  rw [← List.erase_filter]
  exact List.erase_of_not_mem fun hin => by
    rw [(List.mem_filter.mp hin).2] at hx
    cases hx

theorem filter_insertAfter_of_not (hz : P z = false) (ha : ∀ a ∈ after, a ∈ l) :
    (insertAfter z after l).filter P = l.filter P := by
  cases after with
  | none => rw [insertAfter, List.filter_cons_of_neg (by simp [hz])]
  | some a =>
    have ha : a ∈ l := ha a rfl
    induction l with
    | nil => cases ha
    | cons x l ih =>
      rw [insertAfter]
      split
      · rw [List.filter_cons, List.filter_cons_of_neg (by simp [hz]), ← List.filter_cons]
      · next hne =>
        rw [List.filter_cons, List.filter_cons,
          ih fun b hb => by cases hb; exact (List.mem_cons.mp ha).resolve_left (Ne.symm hne)]
        exact (List.mem_cons.mp ha).resolve_left (Ne.symm hne)

theorem filter_insertAfter_of_mem (hz : P z = true) (ha : ∀ a ∈ after, P a = true) :
    (insertAfter z after l).filter P = insertAfter z after (l.filter P) := by
  cases after with
  | none => rw [insertAfter, List.filter_cons_of_pos hz, insertAfter]
  | some a =>
    have ha : P a = true := ha a rfl
    induction l with
    | nil => rfl
    | cons x l ih =>
      rw [insertAfter, List.filter_cons]
      split
      · next heq =>
        subst heq
        rw [if_pos ha, List.filter_cons_of_pos ha, List.filter_cons_of_pos hz, insertAfter,
          if_pos rfl]
      · next hne =>
        rw [List.filter_cons, ih]
        split
        · rw [insertAfter, if_neg hne]
        · rfl

/-! ## The lists of the regions -/

theorem countEntry_modsOf (rt : Runtime) (e : EntryRef) (size : Nat) :
    (rt.countEntry e size).modsOf = rt.modsOf
      ∧ (rt.countEntry e size).regionLookup = rt.regionLookup := by
  unfold countEntry
  dsimp only
  split <;> exact ⟨rfl, rfl⟩

theorem linkEntry_modsOf_none {me : ModEntry} {size : Nat}
    (hl : rt.regionLookup me.regionId me.regionPlen = none) :
    (rt.linkEntry e me size).modsOf = rt.modsOf := by
  obtain ⟨hmods, hlookup⟩ := countEntry_modsOf rt e size
  unfold linkEntry
  dsimp only
  rw [hlookup, hl]
  exact hmods

theorem linkEntry_modsOf (h : rt.HeapWf) {me : ModEntry} {size : Nat} {r : RegionRef}
    (hl : rt.regionLookup me.regionId me.regionPlen = some r) :
    (rt.linkEntry e me size).modsOf = Function.update rt.modsOf r (rt.modsOf r ++ [e]) := by
  obtain ⟨hmods, hlookup⟩ := countEntry_modsOf rt e size
  unfold linkEntry
  dsimp only
  rw [hlookup, hl]
  dsimp only
  rw [moduleRegionAppend, moduleRegionInsertAfter_modsOf, hmods]
  refine congrArg _ ?_
  show insertAfter e ((rt.countEntry e size).modsOf r).getLast? _ = _
  rw [hmods]
  exact insertAfter_getLast? e (h.nodup r)

theorem detach_modsOf (h : rt.HeapWf) (e : EntryRef) (r : RegionRef) :
    (rt.moduleRegionDetach e).modsOf r = (rt.modsOf r).erase e := by
  have hother : rt.home e ≠ some r → (rt.modsOf r).erase e = rt.modsOf r := fun hne =>
    List.erase_of_not_mem fun hin => hne (h.mem_iff.mp hin)
  cases hhome : rt.home e with
  | none =>
    rw [moduleRegionDetach_modsOf_of_none rt hhome, hother (by simp [hhome])]
  | some r' =>
    rw [moduleRegionDetach_modsOf rt hhome]
    by_cases hr : r = r'
    · rw [hr, Function.update_self]
    · rw [Function.update_of_ne hr, hother (by rw [hhome]; simpa using Ne.symm hr)]

theorem removeEntry_modsOf (h : rt.HeapWf) (e : EntryRef) (me : ModEntry) (r : RegionRef) :
    (rt.removeEntry w e me).modsOf r = (rt.modsOf r).erase e := by
  have hclear := (moduleClearFnCacheForHandle_keeps w rt e me.handle).same
  have hsame : rt.SameHeap
      ((rt.moduleClearFnCacheForHandle w e me.handle).moduleRemovePathOwnedEntries me) := by
    unfold moduleRemovePathOwnedEntries
    split
    · exact hclear
    · exact hclear.trans (sameHeap_modifyRegion (by intro _; rfl) _ _)
  refine (detach_modsOf (h.of_same hsame) e r).trans ?_
  rw [hsame.modsOf]

theorem reinsert_modsOf (h : rt.HeapWf) {r' : RegionRef}
    (hi : Xylem.reinsert rt r' e after = some rt') (r : RegionRef) :
    rt'.modsOf r = if r = r' then insertAfter e after ((rt.modsOf r).erase e)
        else (rt.modsOf r).erase e := by
  unfold Xylem.reinsert at hi
  dsimp only at hi
  split at hi
  · cases hi
    rw [moduleRegionInsertAfter_modsOf]
    by_cases hr : r = r'
    · subst hr
      rw [Function.update_self, if_pos rfl, detach_modsOf h]
    · rw [Function.update_of_ne hr, if_neg hr, detach_modsOf h]
  · cases hi

end Runtime

/-! ## What a step does to a list -/

section

variable {w : World} {c c' : Config} {a : Action} {ev : Event} {rt' : Runtime}

/-- What a step can do to the list of a region: an entry that was in no list is
appended, an entry is freed, or a reload ends. -/
inductive ListChange (w : World) (c : Config) (a : Action) (rt' : Runtime) (r : RegionRef) : Prop
  | same (h : rt'.modsOf r = c.st.rt.modsOf r)
  | append {e : EntryRef} (hnew : e ∉ c.st.rt.modsOf r)
      (h : rt'.modsOf r = c.st.rt.modsOf r ++ [e])
  | free {e : EntryRef} (hgone : rt'.mods e = none)
      (hothers : ∀ x, x ≠ e → (rt'.mods x = none ↔ c.st.rt.mods x = none))
      (h : rt'.modsOf r = (c.st.rt.modsOf r).erase e)
  | reinsert {rl : Reload} {k : List Frame} {e : EntryRef} {r' : RegionRef} (ha : a = .tau)
      (hstack : c.stack = .reload rl (.loaded xyOk) :: k)
      (hl : c.st.rt.modHd.lookup (modKey (w.loadPath rl.fname) rl.id rl.plen) = some e)
      (hre : rl.re = some r') (hi : Xylem.reinsert c.st.rt r' e rl.insertAfter = some rt')
  | shutdown (ha : a = .call .shutdown) (hstack : c.stack = [])

theorem Effect.lists (hwf : c.Wf w) (h : Effect w c a rt') (r : RegionRef) :
    ListChange w c a rt' r := by
  have hsame : c.st.rt.SameHeap rt' → ListChange w c a rt' r := fun hs =>
    .same (congrFun hs.modsOf r)
  have hheap := hwf.heap
  cases h with
  | same => exact .same rfl
  | deny => exact hsame (sameHeap_recordDeny ..)
  | handler ha hr hf => exact hsame (sameHeap_modifyRegion (by intro e; rw [hf e]) _ _)
  | claimAt => exact hsame (sameHeap_addRegion hheap ..)
  | grant => exact hsame (sameHeap_addRegion hheap ..)
  | refcount | publish | bind | rekey | prewarm => exact .same rfl
  | @link tx k e me size ha hstack he hme hun =>
    have hnew : e ∉ c.st.rt.modsOf r := fun hin => by
      have hhome := hheap.mem_iff.mp hin
      rw [home_of_mods hme, hun] at hhome
      cases hhome
    cases hl : c.st.rt.regionLookup me.regionId me.regionPlen with
    | none =>
      refine .same ?_
      rw [linkEntry_modsOf_none hl]
    | some r' =>
      by_cases hr : r = r'
      · subst hr
        refine .append hnew ?_
        rw [linkEntry_modsOf hheap hl, Function.update_self]
      · refine .same ?_
        rw [linkEntry_modsOf hheap hl, Function.update_of_ne hr]
  | @abort tx k err e me ha hstack he hme =>
    refine .free (e := e) ?_ (fun x hx => ?_) (detach_modsOf hheap e r)
    · rw [discardEntry_mods, Function.update_self]
    · rw [discardEntry_mods, Function.update_of_ne hx]
  | @remove k e me ha hstack hme =>
    obtain ⟨rt₁, hcore, hmods⟩ := removeEntry_mods (w := w) c.st.rt e me
    refine .free (e := e) ?_ (fun x hx => ?_) (removeEntry_modsOf hheap e me r)
    · rw [hmods, Function.update_self]
    · rw [hmods, Function.update_of_ne hx]
      have hiff := congrArg Option.isNone (congrFun hcore x)
      simp only [Runtime.core, Option.isNone_map] at hiff
      rw [← Option.isNone_iff_eq_none, hiff, Option.isNone_iff_eq_none]
  | reinsert ha hstack hl hre hr hi => exact .reinsert ha hstack hl hre hi
  | vector ha hcaller hr hv => exact hsame (sameHeap_prepareVec hv)
  | resolve ha hstack hself hme => exact .same rfl
  | register => exact hsame (sameHeap_registerHook ..)
  | shutdown ha hstack => exact .shutdown ha hstack

end

end Xylem
