import Xylem.Denies

/-!
# Module denies

A dispatch leaves out the modules that an ancestor of its caller has denied: the
exact-region loop asks before each listener, and the subtree loop relies on the
rebuild of its vector.  A deny bumps the counters of the denying region and of its
ancestors, so that the vectors of the regions below it, which it is about, stay up
to date with the listeners that they have.

`DeniesUncached` says that no such vector has a slot of the module when it is
denied.
-/

namespace Xylem

open Xylem.Runtime

/-- A region strictly above `r` has denied the module. -/
def Runtime.ModuleDeniedAbove (rt : Runtime) (r : RegionRef) (path : CStr) : Prop :=
  ∃ x ∈ rt.parentChain r, x ≠ r ∧ path ∈ (rt.regions x).deniedModules

instance (rt : Runtime) (r : RegionRef) (path : CStr) : Decidable (rt.ModuleDeniedAbove r path) := by
  unfold Runtime.ModuleDeniedAbove; infer_instance

/-- No cell of the vector from `lo` up to `hi` is of the module. -/
def Runtime.VecSpares (rt : Runtime) (r : RegionRef) (hookId lo hi : Nat) (path : CStr) : Prop :=
  ∀ i < hi, lo ≤ i → ∀ slot ∈ (rt.hookVec r hookId).cells[i]?, ∀ me ∈ rt.mods slot.me,
    me.loadPath ≠ path

instance (rt : Runtime) (r : RegionRef) (hookId lo hi : Nat) (path : CStr) :
    Decidable (rt.VecSpares r hookId lo hi path) := by
  unfold Runtime.VecSpares; infer_instance

/-- The first cell that the loop of a dispatch has still to come to. -/
def Dispatch.next (d : Dispatch) (running : Option EntryRef) : Nat :=
  if running.isSome then d.mi + 1 else d.mi

/-- A subtree dispatch from below `denier` comes to no cell of the module any more. -/
def Frame.WalkSpares (rt : Runtime) (denier : RegionRef) (path : CStr) : Frame → Prop
  | .dispatch d running => d.selfOnly = false → denier ∈ rt.parentChain d.caller →
      denier ≠ d.caller → rt.VecSpares d.caller d.hookId (d.next running) d.n path
  | _ => True

instance (rt : Runtime) (denier : RegionRef) (path : CStr) (f : Frame) :
    Decidable (f.WalkSpares rt denier path) := by
  unfold Frame.WalkSpares
  split <;> infer_instance

/-- What a step has to heed.

* A module is denied only when no vector of a region below that is up to date, and
  none that a dispatch from below still walks, has a slot of it.
* The counters have not come back to old values. -/
def DeniesUncached (w : World) (c : Config) (a : Action) : Prop :=
  c.st.rt.BumpsLeft ∧
    match a with
    | .call (.deny what .module) => ∀ denier ∈ c.st.tls.current.entry,
        (∀ r < c.st.rt.nregions, denier ∈ c.st.rt.parentChain r → denier ≠ r →
          ∀ h < (c.st.rt.regions r).hookDispatch.length, c.st.rt.Warm r h →
            c.st.rt.VecSpares r h 0 (c.st.rt.hookVec r h).count (w.loadPath what))
        ∧ ∀ f ∈ c.stack, f.WalkSpares c.st.rt denier (w.loadPath what)
    | _ => True

instance (w : World) (c : Config) (a : Action) : Decidable (DeniesUncached w c a) := by
  unfold DeniesUncached Runtime.BumpsLeft
  refine @instDecidableAnd _ _ inferInstance ?_
  induction a using Action.casesOn with
  | call q =>
    induction q using Call.casesOn with
    | deny what type => induction type using DenyType.casesOn <;> infer_instance
    | _ => infer_instance
  | _ => infer_instance

/-- The module of the slot is not denied above `r`. -/
def Runtime.Allows (rt : Runtime) (r : RegionRef) (slot : DispatchSlot) : Prop :=
  ∀ me, rt.mods slot.me = some me → ¬ rt.ModuleDeniedAbove r me.loadPath

def Runtime.VecAllows (rt : Runtime) (r : RegionRef) (hookId lo hi : Nat) : Prop :=
  ∀ i slot, lo ≤ i → i < hi → (rt.hookVec r hookId).cells[i]? = some slot → rt.Allows r slot

/-- What a dispatch in progress still comes to is not denied. -/
def Frame.WalkAllows (rt : Runtime) : Frame → Prop
  | .dispatch d running => d.selfOnly = false →
      rt.VecAllows d.caller d.hookId (d.next running) d.n
  | _ => True

/-- The vectors that are up to date, and those that are walked, have no denied
module. -/
structure Config.Enforced (c : Config) : Prop where
  stamps : c.st.rt.Stamps
  warm : ∀ r < c.st.rt.nregions, ∀ h, c.st.rt.Warm r h →
    c.st.rt.VecAllows r h 0 (c.st.rt.hookVec r h).count
  walks : ∀ f ∈ c.stack, f.WalkAllows c.st.rt

section

variable {w : World} {c c' : Config} {a : Action} {ev : Event} {rt rt' : Runtime} {r : Nat}

/-- The chain that a dispatch filters by has no deny of the module. -/
theorem Runtime.not_moduleDeniedAbove (ht : rt.tree.Wf) (hr : r < rt.nregions) {path : CStr}
    (h : rt.moduleDeniedByAncestors (rt.chain r).reverse path = false) :
    ¬ rt.ModuleDeniedAbove r path := by
  rintro ⟨x, hx, -, hden⟩
  rw [parentChain_eq ht hr] at hx
  have hnone := List.any_eq_false.mp h x (List.mem_reverse.mpr hx)
  simp [moduleIsDenied, hden] at hnone

/-- A region keeps its ancestors, unless all starts again. -/
theorem Effect.parentChain (hwf : c.Wf w) (h : Effect w c a rt') (hr : r < c.st.rt.nregions) :
    rt' = c.st.rt.bootstrap ∨ rt'.parentChain r = c.st.rt.parentChain r := by
  rcases h.evolves hwf with ⟨-, -, hrt⟩ | hev
  · exact Or.inl hrt
  · refine Or.inr ?_
    rw [parentChain_eq (h.tree hwf) (Nat.lt_of_lt_of_le hr hev.nregions),
      parentChain_eq hwf.tree hr, hev.chain hr]

theorem Runtime.not_moduleDeniedAbove_bootstrap {path : CStr} :
    ¬ rt.bootstrap.ModuleDeniedAbove r path := by
  rintro ⟨x, -, -, hin⟩
  cases hin

/-- A region has denied what it had denied, and what it denies by the step. -/
theorem Effect.path_denied (hwf : c.Wf w) (h : Effect w c a rt') {x : Nat}
    (hx : x < c.st.rt.nregions) {path : CStr} (hpath : path ∈ (rt'.denies x).modules) :
    path ∈ (c.st.rt.denies x).modules
      ∨ ∃ what, a = .call (.deny what .module) ∧ c.st.tls.current.entry = some x
        ∧ path = w.loadPath what := by
  cases h.denies with
  | same hold hnew =>
    rw [hold x hx] at hpath
    exact Or.inl hpath
  | @deny d what type ha hcur hd hrt =>
    subst hrt
    rw [recordDeny_denies hwf.tree hd] at hpath
    by_cases hxd : x = d
    · subst hxd
      cases type with
      | hook => exact Or.inl (by simpa [RegionDenies.add] using hpath)
      | module =>
        simp only [if_true, RegionDenies.add, List.mem_cons] at hpath
        rcases hpath with rfl | hold
        · exact Or.inr ⟨what, ha, hcur, rfl⟩
        · exact Or.inl hold
    · rw [if_neg hxd] at hpath
      exact Or.inl hpath
  | remove ha hstack hme hrt =>
    subst hrt
    rw [removeEntry_denies] at hpath
    split at hpath
    · exact Or.inl (List.mem_filter.mp hpath).1
    · exact Or.inl hpath
  | shutdown ha hrt =>
    subst hrt
    cases hpath

/-- A module that is denied above a region was so before, or is denied by the step. -/
theorem Effect.moduleDenied (hwf : c.Wf w) (h : Effect w c a rt') (hr : r < c.st.rt.nregions)
    {path : CStr} (hden : rt'.ModuleDeniedAbove r path) :
    c.st.rt.ModuleDeniedAbove r path
      ∨ ∃ denier what, a = .call (.deny what .module) ∧ c.st.tls.current.entry = some denier
        ∧ denier ∈ c.st.rt.parentChain r ∧ denier ≠ r ∧ path = w.loadPath what := by
  rcases h.parentChain hwf hr with rfl | hchain
  · exact absurd hden not_moduleDeniedAbove_bootstrap
  obtain ⟨x, hx, hxr, hpath⟩ := hden
  rw [hchain] at hx
  have hlt : x < c.st.rt.nregions := lt_of_mem_chain hwf.tree hr (parentChain_eq hwf.tree hr ▸ hx)
  rcases h.path_denied hwf hlt hpath with hold | ⟨what, ha, hcur, heq⟩
  · exact Or.inl ⟨x, hx, hxr, hold⟩
  · exact Or.inr ⟨x, what, ha, hcur, hx, hxr, heq⟩

/-- A slot that was allowed stays so, if its module is not denied just now. -/
theorem Runtime.Allows.keep (hwf : c.Wf w) (h : Effect w c a rt') (hr : r < c.st.rt.nregions)
    {slot : DispatchSlot} (hset : c.st.rt.Settled slot.me) (hallow : c.st.rt.Allows r slot)
    (hspare : ∀ denier what, a = .call (.deny what .module) →
      c.st.tls.current.entry = some denier → denier ∈ c.st.rt.parentChain r → denier ≠ r →
      ∀ me ∈ c.st.rt.mods slot.me, me.loadPath ≠ w.loadPath what) :
    rt'.Allows r slot := by
  intro me' hme' hden
  obtain ⟨me, hme, -, -, hpath, -⟩ := h.settled_entry hset hme'
  rw [hpath] at hden
  rcases h.moduleDenied hwf hr hden with hold | ⟨denier, what, ha, hcur, hin, hne', heq⟩
  · exact hallow me hme hold
  · exact hspare denier what ha hcur hin hne' me hme heq

/-- A cell of a vector has just been listed, or was there before: and if the vector
is up to date and has it, the old vector was and had it. -/
theorem Effect.cell_at (hwf : c.Wf w) (hs : c.st.rt.Stamps) (hb : c.st.rt.BumpsLeft)
    (h : Effect w c a rt') (hr : r < rt'.nregions) {k i : Nat} {slot : DispatchSlot}
    (hcell : (rt'.hookVec r k).cells[i]? = some slot) :
    r < c.st.rt.nregions ∧ ((∃ name, rt'.denies = c.st.rt.denies
          ∧ slot ∈ c.st.rt.listing w (c.st.rt.chain r).reverse k name (c.st.rt.walked r))
      ∨ (c.st.rt.hookVec r k).cells[i]? = some slot
        ∧ (rt'.Warm r k → i < (rt'.hookVec r k).count →
          c.st.rt.Warm r k ∧ i < (c.st.rt.hookVec r k).count)) := by
  have hwrap : rt'.genBumps + 1 < 2 ^ 64 := by
    have := h.genBumps_le
    unfold BumpsLeft at hb
    omega
  rcases h.touched hwf with ⟨-, rfl⟩ | ⟨x, hookId, name, q, ha, hcaller, hx, hv⟩ | ⟨hold, hnew⟩
  · rw [hookVec_of_nil rfl] at hcell
    cases hcell
  · have hp := prepareVec_spec hv
    have hreb := rebuild_of_prepareVec hv
    refine ⟨hreb.nregions ▸ hr, ?_⟩
    by_cases hrk : r = x ∧ k = hookId
    · obtain ⟨rfl, rfl⟩ := hrk
      by_cases hwarm : c.st.rt.Warm r k
      · rw [(hp.warm hwarm).1] at hcell ⊢
        exact Or.inr ⟨hcell, fun _ hi => ⟨hwarm, hi⟩⟩
      · rw [hp.cells hwarm] at hcell
        rw [hp.count hwarm]
        rcases Nat.lt_or_ge i (c.st.rt.listing w (c.st.rt.chain r).reverse k name
          (c.st.rt.walked r)).length with hlt | hge
        · rw [List.getElem?_append_left hlt] at hcell
          exact Or.inl ⟨name, prepareVec_denies hv, List.mem_of_getElem? hcell⟩
        · rw [List.getElem?_append_right hge, List.getElem?_drop, Nat.add_sub_cancel' hge] at hcell
          exact Or.inr ⟨hcell, fun _ hi => absurd hi (Nat.not_lt.mpr hge)⟩
    · have hvec := hp.vec_ne r k (by tauto)
      rw [Warm, hreb.gen_eq, hvec]
      rw [hvec] at hcell
      exact Or.inr ⟨hcell, fun hw hi => ⟨hw, hi⟩⟩
  · rcases Nat.lt_or_ge r c.st.rt.nregions with hlt | hge
    · have hvec := (hold r hlt).hookVec k
      refine ⟨hlt, Or.inr ⟨hvec ▸ hcell, fun hw hi => ?_⟩⟩
      rw [hvec] at hi
      exact ⟨((hold r hlt).warm hs hlt hwrap hw).2.1, hi⟩
    · rw [hookVec_of_nil (by rw [(hnew r hge hr).caches]; rfl)] at hcell
      cases hcell

/-- What a rebuild lists is not denied. -/
theorem Effect.allows_listed (hwf : c.Wf w) (hl : c.st.rt.SubtreeLists) (h : Effect w c a rt')
    (hr : r < c.st.rt.nregions) {k : Nat} {name : CStr} {slot : DispatchSlot}
    (hdenies : rt'.denies = c.st.rt.denies)
    (hlisted : slot ∈ c.st.rt.listing w (c.st.rt.chain r).reverse k name (c.st.rt.walked r)) :
    rt'.Allows r slot := by
  have hset : c.st.rt.Settled slot.me := by
    have hmem := mem_listing hlisted
    rw [walked_eq hwf.tree hl hr, List.mem_flatMap] at hmem
    obtain ⟨y, -, hy⟩ := hmem
    exact hwf.heap.settled hy
  intro me' hme' hden
  obtain ⟨me, hme, -, -, hpath, -⟩ := h.settled_entry hset hme'
  rcases h.parentChain hwf hr with rfl | hchain
  · exact not_moduleDeniedAbove_bootstrap hden
  obtain ⟨x, hx, hxr, hin⟩ := hden
  rw [hchain] at hx
  have hin' : me.loadPath ∈ (c.st.rt.denies x).modules := by
    rw [← hdenies, ← hpath]
    exact hin
  have hold : ¬ c.st.rt.ModuleDeniedAbove r me.loadPath := by
    refine not_moduleDeniedAbove hwf.tree hr ?_
    obtain ⟨e, -, hslot⟩ := List.mem_filterMap.mp hlisted
    unfold slotOf at hslot
    obtain ⟨me₀, hme₀, hif⟩ := Option.bind_eq_some_iff.mp hslot
    split at hif
    · next hcons =>
      cases hif
      rw [hme₀] at hme
      cases hme
      have := hcons.1
      simp only [consulted, Bool.and_eq_true, Bool.not_eq_true'] at this
      exact this.2
    · cases hif
  exact hold ⟨x, hx, hxr, hin'⟩

/-- What stays allowed in a vector, or comes to be. -/
theorem Runtime.VecAllows.keep (hwf : c.Wf w) (hl : c.st.rt.SubtreeLists)
    (hcells : c.st.rt.CellsSettled) (hs : c.st.rt.Stamps) (hb : c.st.rt.BumpsLeft)
    (h : Effect w c a rt') (hr : r < rt'.nregions) {k lo hi : Nat}
    (hallow : r < c.st.rt.nregions → ∀ i slot, lo ≤ i → i < hi →
      (c.st.rt.hookVec r k).cells[i]? = some slot →
      (rt'.Warm r k → i < (rt'.hookVec r k).count →
        c.st.rt.Warm r k ∧ i < (c.st.rt.hookVec r k).count) →
      c.st.rt.Allows r slot ∧ ∀ denier what, a = .call (.deny what .module) →
        c.st.tls.current.entry = some denier → denier ∈ c.st.rt.parentChain r → denier ≠ r →
        ∀ me ∈ c.st.rt.mods slot.me, me.loadPath ≠ w.loadPath what) :
    rt'.VecAllows r k lo hi := by
  intro i slot hlo hhi hcell
  obtain ⟨hlt, ⟨name, hdenies, hlisted⟩ | ⟨hold, hwarm⟩⟩ := h.cell_at hwf hs hb hr hcell
  · exact h.allows_listed hwf hl hlt hdenies hlisted
  · obtain ⟨hok, hspare⟩ := hallow hlt i slot hlo hhi hold hwarm
    exact hok.keep hwf h hlt (hcells r hlt k slot (List.mem_of_getElem? hold)) hspare

/-- A cell of a vector is in the array of the region. -/
theorem Runtime.lt_of_cell {rt : Runtime} {r k i : Nat} {slot : DispatchSlot}
    (h : (rt.hookVec r k).cells[i]? = some slot) : k < (rt.regions r).hookDispatch.length := by
  by_contra hge
  have hnone : (rt.regions r).hookDispatch[k]? = none :=
    List.getElem?_eq_none (Nat.le_of_not_lt hge)
  rw [hookVec, List.getD_eq_getElem?_getD, hnone] at h
  cases h

/-- After every step, the vectors that are up to date have no denied module. -/
theorem Effect.warmAllows (hwf : c.Wf w) (hl : c.st.rt.SubtreeLists)
    (hcells : c.st.rt.CellsSettled) (hok : DeniesUncached w c a) (hin : c.Enforced)
    (h : Effect w c a rt') (hr : r < rt'.nregions) {k : Nat}
    (hwarm : rt'.Warm r k) : rt'.VecAllows r k 0 (rt'.hookVec r k).count := by
  refine VecAllows.keep hwf hl hcells hin.stamps hok.1 h hr
    fun hlt i slot _ hi hcell hkeep => ?_
  obtain ⟨hwarm₀, hi₀⟩ := hkeep hwarm hi
  refine ⟨hin.warm r hlt k hwarm₀ i slot (Nat.zero_le i) hi₀ hcell, ?_⟩
  rintro denier what rfl hcur hden hne' me hme
  exact (hok.2 denier hcur).1 r hlt hden hne' k (lt_of_cell hcell) hwarm₀ i hi₀ (Nat.zero_le i)
    slot hcell me hme

/-- What a dispatch below still comes to stays allowed. -/
theorem Frame.WalkAllows.keep (hwf : c.Wf w) (hl : c.st.rt.SubtreeLists)
    (hcells : c.st.rt.CellsSettled) (hok : DeniesUncached w c a) (hin : c.Enforced)
    (h : Effect w c a rt') {f : Frame} (hf : f ∈ c.stack) :
    f.WalkAllows rt' := by
  cases f with
  | dispatch d running =>
    intro hself
    have hcaller : d.caller < c.st.rt.nregions := (hwf.stack.ok _ hf).1
    have hlt : d.caller < rt'.nregions := by
      rcases h.evolves hwf with ⟨-, hidle, -⟩ | hev
      · rw [hidle] at hf
        cases hf
      · exact Nat.lt_of_lt_of_le hcaller hev.nregions
    refine VecAllows.keep hwf hl hcells hin.stamps hok.1 h hlt
      fun _ i slot hlo hhi hcell _ => ?_
    refine ⟨hin.walks _ hf hself i slot hlo hhi hcell, ?_⟩
    rintro denier what rfl hcur hden hne' me hme
    exact (hok.2 denier hcur).2 _ hf hself hden hne' i hhi hlo slot hcell me hme
  | load | unload | reload | scope | each => trivial

/-- A loop that has moved on comes to fewer cells. -/
theorem Step.loopAllows (h : Step w c a c' ev) (hold : ∀ f ∈ c.stack, f.WalkAllows c'.st.rt)
    (ha : a = .tau ∨ ∃ bytes, a = .ret (.listened bytes)) {d d₀ : Dispatch}
    {run run₀ : Option EntryRef} {k : List Frame} (hstack : c.stack = .dispatch d₀ run₀ :: k)
    (hstack' : c'.stack = .dispatch d run :: k) : Frame.WalkAllows c'.st.rt (.dispatch d run) := by
  have hbefore : Frame.WalkAllows c'.st.rt (.dispatch d₀ run₀) :=
    hold _ (hstack ▸ List.mem_cons_self)
  have hon : d.selfOnly = d₀.selfOnly → d.caller = d₀.caller → d.hookId = d₀.hookId → d.n = d₀.n →
      d₀.next run₀ ≤ d.next run → Frame.WalkAllows c'.st.rt (.dispatch d run) := by
    intro hself hcaller hhook hn hnext hself'
    rw [hcaller, hhook, hn]
    intro i slot hlo hhi hcell
    exact hbefore (hself.symm.trans hself') i slot (Nat.le_trans hnext hlo) hhi hcell
  obtain ⟨s, stack⟩ := c
  obtain rfl : stack = _ := hstack
  rcases ha with rfl | ⟨bytes, rfl⟩
  · cases h with
    | dispatchEnd => cases hstack'
    | selfSkip hself | selfDeaf hself | selfEnter hself =>
      cases hstack'
      exact fun hf => absurd (hself.symm.trans hf) (by simp)
    | slotSkip =>
      cases hstack'
      exact hon rfl rfl rfl rfl (Nat.le_succ _)
    | slotEnter hself hmi hslots hcell hme hc hcb hd' =>
      subst hd'
      cases hstack'
      exact hon rfl rfl rfl rfl (Nat.le_succ _)
  · cases h with
    | selfListened hself =>
      cases hstack'
      exact fun hf => absurd (hself.symm.trans hf) (by simp)
    | slotListened =>
      cases hstack'
      exact hon rfl rfl rfl rfl le_rfl

/-- After every step, the dispatches in progress still come to no denied module. -/
theorem Step.walkAllows (hwf : c.Wf w) (hl : c.st.rt.SubtreeLists)
    (hcells : c.st.rt.CellsSettled) (hok : DeniesUncached w c a) (hin : c.Enforced)
    (h : Step w c a c' ev) : ∀ f ∈ c'.stack, f.WalkAllows c'.st.rt := by
  have heff := h.effect hwf
  have hold : ∀ f ∈ c.stack, f.WalkAllows c'.st.rt :=
    fun f hf => Frame.WalkAllows.keep hwf hl hcells hok hin heff hf
  intro f hf
  cases f with
  | load | unload | reload | scope | each => trivial
  | dispatch d run =>
    rcases h.dispatch_origin hf with hmem | ⟨rfl, retp, reg, selfOnly, rfl, -, hbegin⟩
      | ⟨rfl, d₀, k, hstack, hstack'⟩ | ⟨d₀, e, bytes, k, rfl, hstack, hstack'⟩
    · exact hold _ hmem
    · intro hself
      have hstart := dispatchBegin_loop hbegin
      obtain ⟨hv, -, hn, -⟩ := hstart.subtree (hstart.selfOnly.symm.trans hself)
      have hlt : d.caller < c.st.rt.nregions := hwf.callerRegion_lt hstart.caller
      have hnext : d.next none = 0 := hstart.mi
      rw [hn, hnext]
      exact heff.warmAllows hwf hl hcells hok hin ((rebuild_of_prepareVec hv).nregions ▸ hlt)
        (prepareVec_spec hv).stamped
    · exact h.loopAllows hold (Or.inl rfl) hstack hstack'
    · exact h.loopAllows hold (Or.inr ⟨bytes, rfl⟩) hstack hstack'

theorem enforced_of_deniesUncached (h : ReachableBy w (DeniesUncached w) c) : c.Enforced := by
  refine h.invariant_cells Config.Enforced (fun c hc => ?_)
    fun c a c' ev hwf hl hcells hin hok hstep => ?_
  · obtain ⟨ctxs, adapters, mem, rfl⟩ := hc
    refine ⟨stamps_bootstrap _, fun r _ k _ i slot _ _ hcell => ?_,
      fun f hf => (List.not_mem_nil hf).elim⟩
    rw [hookVec_of_nil rfl] at hcell
    cases hcell
  · have heff := hstep.effect hwf
    exact ⟨heff.stamps hwf hin.stamps hok.1,
      fun r hr k hwarm => heff.warmAllows hwf hl hcells hok hin hr hwarm,
      hstep.walkAllows hwf hl hcells hok hin⟩

/-- In a run where no module is denied while a vector of a region below has it, no
listener is entered whose module is denied above the region of the caller. -/
theorem not_denied_of_deniesUncached {e : EntryRef} {cb : FnSlot}
    (h : ReachableBy w (DeniesUncached w) c) (hs : step w c a = .next c' (.enterListener e cb)) :
    ∃ d k me, c.stack = .dispatch d none :: k ∧ c.st.rt.mods e = some me
      ∧ ¬ c.st.rt.ModuleDeniedAbove d.caller me.loadPath := by
  have hin := enforced_of_deniesUncached h
  have hwf := Config.Wf.of_reachable h
  have hstep := Step.of_step hs
  obtain ⟨rfl, d, k, hstack⟩ := hstep.enters
  obtain ⟨s, stack⟩ := c
  obtain rfl : stack = _ := hstack
  cases hstep with
  | @selfEnter _ _ _ x me ctx s' hself he hme hc hd hh hs' =>
    have hdis : Frame.Ok w s.rt (.dispatch d none) := hwf.top rfl
    refine ⟨d, k, me, rfl, hme, not_moduleDeniedAbove hwf.tree hdis.1 ?_⟩
    rw [← hdis.2.1]
    exact hd
  | @slotEnter _ _ _ d' slot me ctx s' hself hmi hslots hcell hme hc hcb hd' hs' =>
    refine ⟨d, k, me, rfl, hme, ?_⟩
    exact hin.walks _ List.mem_cons_self hself d.mi slot le_rfl hmi hcell me hme

end

/-- Two modules of a region, and the way from there to the root and back. -/
def claimedPair : List Action :=
  [.call (.areg sampleHook 0), .call (.claimAt 0x1000000000000 16 none)] ++ loadRun sampleFile 1
    ++ loadRun sampleFile' 2

def denyFromRoot (what : CStr) : List Action :=
  [.call (.claimAt 0 0 none), .call (.deny what .module),
    .call (.claimAt 0x1000000000000 16 none)]

/-- The caller of the dispatch on top. -/
def Config.dispatcher (c : Config) : Option RegionRef :=
  match c.stack with
  | .dispatch d _ :: _ => some d.caller
  | _ => none

/-- The second module is denied before the first dispatch. -/
theorem not_denied_of_early_deny :
    let c := runChecked sampleWorld (DeniesUncached sampleWorld) (Config.boot sampleHook)
      (claimedPair ++ denyFromRoot sampleFile' ++ [.call (.call none (some 0) false)])
    c.st.rt.ModuleDeniedAbove 1 sampleFile' ∧ ∃ d k me, c.stack = .dispatch d none :: k
      ∧ c.st.rt.mods 0 = some me ∧ ¬ c.st.rt.ModuleDeniedAbove d.caller me.loadPath := by
  intro c
  have hreach : ReachableBy sampleWorld (DeniesUncached sampleWorld) c :=
    ReachableBy.checked (.start (Config.boot_initial _)) _
  have hs : step sampleWorld c .tau = .next (c.after sampleWorld [.tau])
      (.enterListener 0 (.fn 22)) :=
    step_of_events (by decide +kernel)
  exact ⟨by decide +kernel, not_denied_of_deniesUncached hreach hs⟩

/-- The region has dispatched the hook before the root denies its module. -/
theorem denied_of_late_deny :
    ∃ c c' e cb d k me, Reachable sampleWorld c
      ∧ step sampleWorld c .tau = .next c' (.enterListener e cb) ∧ c.stack = .dispatch d none :: k
      ∧ c.st.rt.mods e = some me ∧ c.st.rt.ModuleDeniedAbove d.caller me.loadPath := by
  let c := (Config.boot sampleHook).after sampleWorld
    (claimedPair ++ [.call (.call none (some 0) false), .tau, .ret (.listened []), .tau,
      .ret (.listened []), .tau] ++ denyFromRoot sampleFile ++ [.call (.call none (some 0) false)])
  have hreach : Reachable sampleWorld c :=
    ReachableBy.after (.start (Config.boot_initial _)) fun _ _ _ => trivial
  have hs : step sampleWorld c .tau = .next (c.after sampleWorld [.tau])
      (.enterListener 0 (.fn 22)) :=
    step_of_events (by decide +kernel)
  obtain ⟨me, hme⟩ : ∃ me, c.st.rt.mods 0 = some me :=
    Option.isSome_iff_exists.mp (by decide +kernel)
  have hden : ∀ me ∈ c.st.rt.mods 0, c.st.rt.ModuleDeniedAbove 1 me.loadPath := by decide +kernel
  have hcaller : c.dispatcher = some 1 := by decide +kernel
  obtain ⟨d, k, -, hstack, -⟩ := (Step.of_step hs).enter_listener
  rw [Config.dispatcher, hstack] at hcaller
  refine ⟨c, _, 0, .fn 22, d, k, me, hreach, hs, hstack, hme, ?_⟩
  rw [Option.some.inj hcaller]
  exact hden me hme

end Xylem
