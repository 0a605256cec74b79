import Xylem.Coherence
import Xylem.Lib.IntrusiveList
import Xylem.ModLists

/-!
# The pointers of the module lists

The runtime of the model keeps the modules of a region in a list.  In memory the list
is made of pointers: `region_prev`, `region_next` and `region_entry` in each entry,
`mods_head` and `mods_tail` in each region.

* `moduleRegionDetach`, `moduleRegionInsertAfter`, `moduleRegionAppend` and
  `modLoadAbortUnlink` are the writes to these pointers, in the order of the source.
* `LinkRun` is a sequence of them from empty lists, next to the same insertions and
  deletions on plain lists.
* `linked_of_linkRun`: the pointers hold the plain lists.
* `cacheRun_pointers`: the lists of the runtime are such lists, and it reads from them
  what the pointers say.
-/

namespace Xylem

/-- The pointers between the entries and the regions. -/
structure ModLinks where
  regionPrev : EntryRef → Option EntryRef
  regionNext : EntryRef → Option EntryRef
  regionEntry : EntryRef → Option RegionRef
  modsHead : RegionRef → Option EntryRef
  modsTail : RegionRef → Option EntryRef

namespace ModLinks

/-! ## The writes -/

@[simp] def setPrev (s : ModLinks) (e : EntryRef) (p : Option EntryRef) : ModLinks :=
  { s with regionPrev := Function.update s.regionPrev e p }

@[simp] def setNext (s : ModLinks) (e : EntryRef) (p : Option EntryRef) : ModLinks :=
  { s with regionNext := Function.update s.regionNext e p }

@[simp] def setEntry (s : ModLinks) (e : EntryRef) (r : Option RegionRef) : ModLinks :=
  { s with regionEntry := Function.update s.regionEntry e r }

@[simp] def setHead (s : ModLinks) (re : RegionRef) (p : Option EntryRef) : ModLinks :=
  { s with modsHead := Function.update s.modsHead re p }

@[simp] def setTail (s : ModLinks) (re : RegionRef) (p : Option EntryRef) : ModLinks :=
  { s with modsTail := Function.update s.modsTail re p }

/-- The two branches that both unlinkings begin with. -/
def unlink (s : ModLinks) (re : RegionRef) (entry : EntryRef) : ModLinks :=
  let s := match s.regionPrev entry with
    | some prev => s.setNext prev (s.regionNext entry)
    | none => s.setHead re (s.regionNext entry)
  match s.regionNext entry with
  | some next => s.setPrev next (s.regionPrev entry)
  | none => s.setTail re (s.regionPrev entry)

/-- `module_region_detach`. -/
def moduleRegionDetach (s : ModLinks) (entry : EntryRef) : ModLinks :=
  match s.regionEntry entry with
  | none => s
  | some re => ((s.unlink re entry).setPrev entry none).setNext entry none

/-- The unlinking in `mod_load_abort`, which leaves the pointers of the entry. -/
def modLoadAbortUnlink (s : ModLinks) (entry : EntryRef) : ModLinks :=
  match s.regionEntry entry with
  | none => s
  | some re => (s.unlink re entry).setEntry entry none

/-- `module_region_insert_after`. -/
def moduleRegionInsertAfter (s : ModLinks) (re : RegionRef) (entry : EntryRef)
    (after : Option EntryRef) : ModLinks :=
  let s := s.setEntry entry (some re)
  match after with
  | none =>
    let s := (s.setPrev entry none).setNext entry (s.modsHead re)
    let s := match s.modsHead re with
      | some head => s.setPrev head (some entry)
      | none => s.setTail re (some entry)
    s.setHead re (some entry)
  | some after =>
    let s := (s.setPrev entry (some after)).setNext entry (s.regionNext after)
    let s := match s.regionNext after with
      | some next => s.setPrev next (some entry)
      | none => s.setTail re (some entry)
    s.setNext after (some entry)

/-- `module_region_append`. -/
def moduleRegionAppend (s : ModLinks) (re : RegionRef) (entry : EntryRef) : ModLinks :=
  s.moduleRegionInsertAfter re entry (s.modsTail re)

/-- The pointers hold these lists. -/
def Holds (s : ModLinks) (lists : RegionRef → List EntryRef) : Prop :=
  IntrusiveList.Lists s.regionNext s.regionPrev s.modsHead s.modsTail s.regionEntry lists

end ModLinks

/-- One operation on the lists. -/
inductive LinkOp where
  | append (re : RegionRef) (entry : EntryRef)
  | insertAfter (re : RegionRef) (entry : EntryRef) (after : Option EntryRef)
  | detach (entry : EntryRef)
  | abort (entry : EntryRef)

namespace LinkOp

/-- The operation on the pointers. -/
def run (s : ModLinks) : LinkOp → ModLinks
  | append re entry => s.moduleRegionAppend re entry
  | insertAfter re entry after => s.moduleRegionInsertAfter re entry after
  | detach entry => s.moduleRegionDetach entry
  | abort entry => s.modLoadAbortUnlink entry

/-- The operation on plain lists. -/
def onLists (lists : RegionRef → List EntryRef) : LinkOp → RegionRef → List EntryRef
  | append re entry => Function.update lists re (lists re ++ [entry])
  | insertAfter re entry after =>
    Function.update lists re (Runtime.insertAfter entry after (lists re))
  | detach entry | abort entry => fun r => (lists r).erase entry

/-- What the callers see to: what is put in is in no list, and the predecessor in that
of the region; what is taken out is in a list, or a load is abandoned before it has
linked its entry. -/
def Allowed (s : ModLinks) (lists : RegionRef → List EntryRef) : LinkOp → Prop
  | append _ entry => ∀ r, entry ∉ lists r
  | insertAfter re entry after => (∀ r, entry ∉ lists r) ∧ ∀ a ∈ after, a ∈ lists re
  | detach entry => ∃ r, entry ∈ lists r
  | abort entry => (∃ r, entry ∈ lists r) ∨ s.regionEntry entry = none

end LinkOp

/-- A sequence of operations from empty lists, on the pointers and on plain lists. -/
inductive LinkRun : List LinkOp → ModLinks → (RegionRef → List EntryRef) → Prop
  | start {s : ModLinks} (hhead : ∀ r, s.modsHead r = none) (htail : ∀ r, s.modsTail r = none) :
    LinkRun [] s fun _ => []
  | op {ops : List LinkOp} {s : ModLinks} {lists : RegionRef → List EntryRef}
      (h : LinkRun ops s lists) (op : LinkOp) (hop : op.Allowed s lists) :
      LinkRun (ops ++ [op]) (op.run s) (op.onLists lists)

namespace ModLinks

variable {s : ModLinks} {re : RegionRef} {entry : EntryRef} {lists : RegionRef → List EntryRef}

/-! ## What the writes leave -/

/-- An entry that does not point to itself is taken out of the way. -/
theorem unlink_spec (re : RegionRef) (hself : s.regionPrev entry ≠ some entry) :
    (∀ y, (s.unlink re entry).regionNext y
        = if s.regionPrev entry = some y then s.regionNext entry else s.regionNext y)
      ∧ (∀ y, (s.unlink re entry).regionPrev y
        = if s.regionNext entry = some y then s.regionPrev entry else s.regionPrev y)
      ∧ (∀ i, (s.unlink re entry).modsHead i
        = if i = re ∧ s.regionPrev entry = none then s.regionNext entry else s.modsHead i)
      ∧ (∀ i, (s.unlink re entry).modsTail i
        = if i = re ∧ s.regionNext entry = none then s.regionPrev entry else s.modsTail i)
      ∧ (s.unlink re entry).regionEntry = s.regionEntry := by
  cases hp : s.regionPrev entry with
  | none =>
    cases hn : s.regionNext entry with
    | none =>
      simp [unlink, hp, hn, Function.update_apply]
    | some n =>
      simp [unlink, hp, hn, Function.update_apply, eq_comm]
  | some p =>
    have hpe : entry ≠ p := fun heq => hself (hp.trans (congrArg some heq.symm))
    cases hn : s.regionNext entry with
    | none =>
      simp [unlink, hp, hn, Function.update_apply, hpe, eq_comm]
    | some n =>
      simp [unlink, hp, hn, Function.update_apply, hpe, eq_comm]

/-- What comes next after `after`, or at the head. -/
def nextOf (s : ModLinks) (re : RegionRef) : Option EntryRef → Option EntryRef
  | none => s.modsHead re
  | some a => s.regionNext a

/-- An entry is put after its predecessor, or at the head. -/
theorem moduleRegionInsertAfter_spec {after succ : Option EntryRef}
    (hsucc : succ = s.nextOf re after)
    (hafter : after ≠ some entry) (hself : succ ≠ some entry) :
    let s' := s.moduleRegionInsertAfter re entry after
    s'.regionNext entry = succ ∧ s'.regionPrev entry = after
      ∧ (∀ y, y ≠ entry → s'.regionNext y
        = if after = some y then some entry else s.regionNext y)
      ∧ (∀ y, y ≠ entry → s'.regionPrev y = if succ = some y then some entry else s.regionPrev y)
      ∧ (∀ i, s'.modsHead i = if i = re ∧ after = none then some entry else s.modsHead i)
      ∧ (∀ i, s'.modsTail i = if i = re ∧ succ = none then some entry else s.modsTail i)
      ∧ ∀ y, s'.regionEntry y = if y = entry then some re else s.regionEntry y := by
  intro s'
  subst hsucc
  cases after with
  | none =>
    dsimp only [nextOf] at hself
    cases hh : s.modsHead re with
    | none =>
      simp +contextual [s', moduleRegionInsertAfter, nextOf, hh, Function.update_apply]
    | some x =>
      have hx : entry ≠ x := fun heq => hself (hh.trans (congrArg some heq.symm))
      simp +contextual [s', moduleRegionInsertAfter, nextOf, hh, Function.update_apply, hx, eq_comm]
  | some a =>
    have ha : entry ≠ a := fun heq => hafter (congrArg some heq.symm)
    dsimp only [nextOf] at hself
    cases hn : s.regionNext a with
    | none =>
      simp +contextual [s', moduleRegionInsertAfter, nextOf, hn, Function.update_apply, ha,
        ha.symm, eq_comm]
    | some x =>
      have hx : entry ≠ x := fun heq => hself (hn.trans (congrArg some heq.symm))
      simp +contextual [s', moduleRegionInsertAfter, nextOf, hn, Function.update_apply, ha,
        ha.symm, hx, eq_comm]

/-! ## Each operation -/

/-- Behind an entry that is in the list once. -/
theorem insertAfter_middle {a : EntryRef} {l₁ l₂ : List EntryRef} (h : a ∉ l₁) :
    Runtime.insertAfter entry (some a) (l₁ ++ a :: l₂) = l₁ ++ a :: entry :: l₂ := by
  induction l₁ with
  | nil => simp [Runtime.insertAfter]
  | cons x l₁ ih =>
    rw [List.mem_cons, not_or] at h
    simp [Runtime.insertAfter, Ne.symm h.1, ih h.2]

theorem Holds.detach (h : s.Holds lists) (he : entry ∈ lists re) :
    (s.moduleRegionDetach entry).Holds fun r => (lists r).erase entry := by
  have hself : s.regionPrev entry ≠ some entry := fun heq =>
    (IntrusiveList.Lists.neighbour h he (Or.inl heq)).2 rfl
  obtain ⟨hnext, hprev, hhead, htail, howner⟩ := unlink_spec re hself
  have hdetach : s.moduleRegionDetach entry
      = ((s.unlink re entry).setPrev entry none).setNext entry none := by
    unfold moduleRegionDetach
    rw [IntrusiveList.Lists.owner h re entry he]
  unfold Holds
  rw [hdetach]
  refine IntrusiveList.Lists.unlink h he (fun y hy => ?_) (fun y hy => ?_) hhead htail
    fun y _ => congrFun howner y
  · show Function.update (s.unlink re entry).regionNext entry none y = _
    rw [Function.update_of_ne hy, hnext]
  · show Function.update (s.unlink re entry).regionPrev entry none y = _
    rw [Function.update_of_ne hy, hprev]

theorem Holds.abort (h : s.Holds lists) (he : entry ∈ lists re) :
    (s.modLoadAbortUnlink entry).Holds fun r => (lists r).erase entry := by
  have hself : s.regionPrev entry ≠ some entry := fun heq =>
    (IntrusiveList.Lists.neighbour h he (Or.inl heq)).2 rfl
  obtain ⟨hnext, hprev, hhead, htail, howner⟩ := unlink_spec re hself
  have habort : s.modLoadAbortUnlink entry = (s.unlink re entry).setEntry entry none := by
    unfold modLoadAbortUnlink
    rw [IntrusiveList.Lists.owner h re entry he]
  unfold Holds
  rw [habort]
  refine IntrusiveList.Lists.unlink h he (fun y _ => hnext y) (fun y _ => hprev y) hhead htail
    fun y hy => ?_
  show Function.update (s.unlink re entry).regionEntry entry none y = _
  rw [Function.update_of_ne hy, howner]

theorem Holds.insertAfter (h : s.Holds lists) (he : ∀ r, entry ∉ lists r) {after : Option EntryRef}
    (ha : ∀ a ∈ after, a ∈ lists re) :
    (s.moduleRegionInsertAfter re entry after).Holds
      (Function.update lists re (Runtime.insertAfter entry after (lists re))) := by
  have hafter : after ≠ some entry := fun heq => he re (ha entry heq)
  have hhead := IntrusiveList.Lists.head h re
  obtain ⟨l₁, l₂, hre, hlast, hsucc, hins⟩ : ∃ l₁ l₂, lists re = l₁ ++ l₂
      ∧ l₁.getLast? = after
      ∧ l₂.head? = s.nextOf re after
      ∧ Runtime.insertAfter entry after (lists re) = l₁ ++ entry :: l₂ := by
    cases after with
    | none => exact ⟨[], lists re, rfl, rfl, hhead.symm, by simp [Runtime.insertAfter]⟩
    | some a =>
      obtain ⟨m₁, m₂, hm⟩ := List.append_of_mem (ha a rfl)
      have hchain := IntrusiveList.Lists.chain h re
      have hnodup := IntrusiveList.Lists.nodup h re
      rw [hm] at hchain hnodup
      refine ⟨m₁ ++ [a], m₂, by simp [hm], List.getLast?_concat, hchain.neighbours.2.symm, ?_⟩
      rw [hm, insertAfter_middle]
      · simp
      · intro hin
        exact (List.nodup_append.mp hnodup).2.2 a hin a List.mem_cons_self rfl
  have hself : l₂.head? ≠ some entry := by
    intro heq
    refine he re ?_
    rw [hre]
    exact List.mem_append_right _ (List.mem_of_mem_head? heq)
  obtain ⟨hnext_self, hprev_self, hnext, hprev, hhead', htail', howner⟩ :=
    moduleRegionInsertAfter_spec hsucc hafter hself
  rw [hins]
  refine IntrusiveList.Lists.link h he hre hnext_self (hprev_self.trans hlast.symm)
    (fun y hy => ?_) hprev (fun i => ?_) (fun i => ?_) ?_ fun y hy => ?_
  · rw [hnext y hy, hlast]
  · have hfirst : after = none ↔ l₁ = [] := by rw [← hlast, List.getLast?_eq_none_iff]
    simp only [hhead', hfirst]
  · simp only [htail', List.head?_eq_none_iff]
  · rw [howner, if_pos rfl]
  · rw [howner, if_neg hy]

/-- One operation does to the plain lists what it does to the pointers. -/
theorem Holds.op (h : s.Holds lists) {op : LinkOp} (hop : op.Allowed s lists) :
    (op.run s).Holds (op.onLists lists) := by
  cases op with
  | append re entry =>
    have htail := IntrusiveList.Lists.tail h re
    have hnodup := IntrusiveList.Lists.nodup h re
    have hafter : ∀ a ∈ (lists re).getLast?, a ∈ lists re := fun a ha => List.mem_of_getLast? ha
    have hins := h.insertAfter hop hafter
    rw [Runtime.insertAfter_getLast? entry hnodup, ← htail] at hins
    exact hins
  | insertAfter re entry after => exact h.insertAfter hop.1 hop.2
  | detach entry =>
    obtain ⟨re, he⟩ := hop
    exact h.detach he
  | abort entry =>
    rcases hop with ⟨re, he⟩ | hnone
    · exact h.abort he
    · have hout : ∀ r, entry ∉ lists r := by
        intro r hin
        rw [IntrusiveList.Lists.owner h r entry hin] at hnone
        cases hnone
      have hlists : (LinkOp.abort entry).onLists lists = lists :=
        funext fun r => List.erase_of_not_mem (hout r)
      have hrun : (LinkOp.abort entry).run s = s := by
        show s.modLoadAbortUnlink entry = s
        unfold modLoadAbortUnlink
        rw [hnone]
      rw [hlists, hrun]
      exact h

end ModLinks

/-! ## Sequences of operations -/

section

open Xylem.Runtime

variable {w : World} {s : ModLinks} {ops : List LinkOp} {lists : RegionRef → List EntryRef}
  {rt : Runtime} {log : List CacheMove} {e : EntryRef} {l₁ l₂ : List EntryRef}

theorem holds_of_linkRun (h : LinkRun ops s lists) : s.Holds lists := by
  induction h with
  | start hhead htail =>
    exact
      { head := hhead, tail := htail, nodup := fun _ => List.nodup_nil
        chain := fun _ => trivial, owner := fun _ _ hx => (List.not_mem_nil hx).elim }
  | op h op hop ih => exact ih.op hop

/-- What following the pointers of a region yields. -/
structure Linked (s : ModLinks) (lists : RegionRef → List EntryRef) : Prop where
  /-- `region_next` from `mods_head` leads through the list and to NULL. -/
  forward : ∀ r, IntrusiveList.Follows s.regionNext (s.modsHead r) (lists r)
  /-- `region_prev` from `mods_tail` leads through the same entries the other way. -/
  backward : ∀ r, IntrusiveList.Follows s.regionPrev (s.modsTail r) (lists r).reverse
  nodup : ∀ r, (lists r).Nodup
  /-- An entry of a list is in no other, and points to the region. -/
  own : ∀ r e, e ∈ lists r → s.regionEntry e = some r ∧ ∀ r', e ∈ lists r' → r' = r

/-- After every sequence of operations, over any number of regions, the pointers lead
through the lists that the same insertions and deletions make. -/
theorem linked_of_linkRun (h : LinkRun ops s lists) : Linked s lists := by
  have hholds := holds_of_linkRun h
  exact
    { forward := hholds.forward, backward := hholds.backward
      nodup := IntrusiveList.Lists.nodup hholds
      own := fun r e he =>
        ⟨IntrusiveList.Lists.owner hholds r e he, fun r' he' => hholds.unique he' he⟩ }

/-- Two entries are appended and a third is put between them; then the first is
detached and put into another region, and the load of the second is given up. -/
theorem linked_of_six : ∃ ops s lists, LinkRun ops s lists ∧ ops.length = 6
    ∧ lists 0 = [3] ∧ lists 1 = [1] ∧ Linked s lists := by
  have hstart : LinkRun [] ⟨fun _ => none, fun _ => none, fun _ => none, fun _ => none,
      fun _ => none⟩ fun _ => [] := .start (fun _ => rfl) fun _ => rfl
  have happend := hstart.op (.append 0 1) fun r => List.not_mem_nil
  have htwo := happend.op (.append 0 2) fun r => by
    by_cases hr : r = 0 <;> simp [LinkOp.onLists, hr]
  have hthree := htwo.op (.insertAfter 0 3 (some 1)) ⟨fun r => by
    by_cases hr : r = 0 <;> simp [LinkOp.onLists, hr], by decide⟩
  have hdetach := hthree.op (.detach 1) ⟨0, by decide⟩
  have hmoved := hdetach.op (.append 1 1) fun r => by
    by_cases hr : r = 0 <;> simp [LinkOp.onLists, hr, Runtime.insertAfter]
  have habort := hmoved.op (.abort 2) (Or.inl ⟨0, by decide⟩)
  exact ⟨_, _, _, habort, rfl, by decide, by decide, linked_of_linkRun habort⟩

/-! ## The lists of the runtime -/

theorem nextIn_middle (h : e ∉ l₁) : nextIn e (l₁ ++ e :: l₂) = l₂.head? := by
  induction l₁ with
  | nil => simp [nextIn]
  | cons x l ih =>
    rw [List.mem_cons, not_or] at h
    simp [nextIn, Ne.symm h.1, ih h.2]

theorem prevIn_middle (h : e ∉ l₁) (h₂ : e ∉ l₂) : prevIn e (l₁ ++ e :: l₂) = l₁.getLast? := by
  induction l₁ with
  | nil => exact prevIn_head h₂
  | cons x l ih =>
    rw [List.mem_cons, not_or] at h
    cases l with
    | nil => simp [prevIn]
    | cons y l =>
      have hy : y ≠ e := fun heq => h.2 (heq ▸ List.mem_cons_self)
      show (if y = e then some x else prevIn e (y :: l ++ e :: l₂)) = _
      rw [if_neg hy, ih h.2, List.getLast?_cons_cons]

/-- The pointers of an entry are what the runtime reads from its list. -/
theorem ModLinks.Holds.read (h : s.Holds lists) {r : RegionRef} (he : e ∈ lists r) :
    s.regionNext e = nextIn e (lists r) ∧ s.regionPrev e = prevIn e (lists r) := by
  obtain ⟨l₁, l₂, hr⟩ := List.append_of_mem he
  have hchain := IntrusiveList.Lists.chain h r
  have hnodup := IntrusiveList.Lists.nodup h r
  rw [hr] at hchain hnodup ⊢
  obtain ⟨-, hn₂, hdisj⟩ := List.nodup_append.mp hnodup
  have hout : e ∉ l₁ := fun hin => hdisj e hin e List.mem_cons_self rfl
  obtain ⟨hprev, hnext⟩ := hchain.neighbours
  exact ⟨by rw [hnext, nextIn_middle hout],
    by rw [hprev, prevIn_middle hout (List.nodup_cons.mp hn₂).1]⟩

/-- One operation of the runtime on its lists is one on the pointers, or none. -/
theorem CacheStep.linkOp {rt' : Runtime} {op : CacheOp} (hwf : rt.CachesWf)
    (h : CacheStep w rt op rt') (s : ModLinks) :
    rt'.modsOf = rt.modsOf
      ∨ ∃ l : LinkOp, l.Allowed s rt.modsOf ∧ rt'.modsOf = l.onLists rt.modsOf := by
  cases h with
  | @append r e hr hlive hout =>
    refine Or.inr ⟨.append r e, hout, ?_⟩
    refine (moduleRegionInsertAfter_modsOf rt r e _).trans ?_
    exact congrArg (Function.update rt.modsOf r) (insertAfter_getLast? e (hwf.lists.nodup r))
  | @insertAfter r e after hr hlive hout hafter =>
    refine Or.inr ⟨.insertAfter r e after, ⟨hout, hafter⟩, ?_⟩
    exact moduleRegionInsertAfter_modsOf rt r e after
  | @detach r e he =>
    refine Or.inr ⟨.detach e, ⟨r, he⟩, ?_⟩
    rw [moduleRegionDetach_modsOf rt (hwf.lists.home he)]
    funext x
    by_cases hx : x = r
    · rw [hx, Function.update_self]
      rfl
    · rw [Function.update_of_ne hx]
      refine (List.erase_of_not_mem fun hin => hx ?_).symm
      exact Option.some.inj ((hwf.lists.home hin).symm.trans (hwf.lists.home he))
  | claimAt hs =>
    subst hs
    rcases xyClaimAt_added hwf.tree _ _ _ with h | ⟨p, bits, -, hrt⟩
    · exact Or.inl h.modsOf
    · exact Or.inl (hrt ▸ addRegion_modsOf hwf.lists.lt ..)
  | claimForLoad hs hp h =>
    subst hs
    obtain ⟨-, hrt⟩ := xyClaimGranted_added hwf.tree hp h
    exact Or.inl (hrt ▸ addRegion_modsOf hwf.lists.lt ..)
  | dispatch hr h => exact Or.inl (sameHeap_prepareVec h).modsOf
  | stopped hr h => exact Or.inl h.unstamped.modsOf
  | deny hr => exact Or.inl (sameHeap_recordDeny ..).modsOf
  | other h => exact Or.inl h.modsOf

/-- The lists that the runtime comes to are those of a sequence of operations on the
pointers, which say what the runtime reads. -/
theorem cacheRun_pointers (h : CacheRun w log rt) :
    ∃ ops s, LinkRun ops s rt.modsOf ∧ ∀ r, ∀ e ∈ rt.modsOf r,
      s.regionNext e = nextIn e (rt.modsOf r) ∧ s.regionPrev e = prevIn e (rt.modsOf r) := by
  suffices hrun : ∃ ops s, LinkRun ops s rt.modsOf by
    obtain ⟨ops, s, hrun⟩ := hrun
    exact ⟨ops, s, hrun, fun r e he => (holds_of_linkRun hrun).read he⟩
  obtain ⟨rt₀, -, h⟩ := h
  induction h with
  | nil =>
    exact ⟨[], ⟨fun _ => none, fun _ => none, fun _ => none, fun _ => none, fun _ => none⟩,
      .start (fun _ => rfl) fun _ => rfl⟩
  | concat h hs ih =>
    obtain ⟨ops, s, hrun⟩ := ih
    rcases hs.linkOp (h.cachesWf (cachesWf_bootstrap rt₀)) s with hsame | ⟨op, hop, hop'⟩
    · exact ⟨ops, s, hsame ▸ hrun⟩
    · exact ⟨ops ++ [op], op.run s, hop' ▸ .op hrun op hop⟩

end

end Xylem
