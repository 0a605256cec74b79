import Xylem.Lib.Descent
import Xylem.LoopPlaces
import Xylem.Refcounts

/-!
# The host comes to an end

Between two points where a module has control the host moves by itself, through the
rest of a load, the loops of its dispatches and the cascades of its unloads.

* `Config.work` bounds these moves.  A child has a greater number than its parent, so
  that a cascade that finds its children goes down (`Descent.cost`).
* `OnCourse` is what a stack has to be for the host to have a move.
* `Step.work` : each move lowers the bound.
* `host_ends` : the host hands control back within the bound.
-/

namespace Xylem

open Xylem.Runtime

/-! ## The bound -/

/-- The moves of a load until a module has control, or it returns. -/
def LoadPc.work : LoadPc → Nat
  | .opened => 6
  | .bind => 5
  | .claim | .rekey _ => 4
  | .link => 3
  | .install => 2
  | .aborting _ => 1
  | .opening | .handler _ | .installing _ => 0

/-- The moves of an `xy_reload`, without those of its unload and its load. -/
def ReloadPc.work : ReloadPc → Nat
  | .unloading | .unloaded _ => 2
  | .loading | .loaded _ => 1

/-- The entries that a walk of a module list still comes to. -/
def Runtime.left (rt : Runtime) : Option EntryRef → Nat
  | none => 0
  | some e => 1 + (rt.home e).elim 0 fun r => (Cursor.ahead e (rt.modsOf r)).length

/-- The moves of a call until a module has control, or it returns. -/
def Frame.work (rt : Runtime) : Frame → Nat
  | .load _ pc => pc.work
  | .unload e children => Descent.cost rt.nmods e children.length
  | .reload _ pc => pc.work
  | .dispatch d none => (if d.selfOnly then rt.left d.me else d.n - d.mi) + 1
  | .dispatch _ (some _) | .scope _ | .each _ => 0

def stackWork (rt : Runtime) (k : List Frame) : Nat := (k.map (Frame.work rt)).sum

/-- A bound on the moves of the host until it hands control to a module. -/
def Config.work (c : Config) : Nat := stackWork c.st.rt c.stack

/-- A cascade finds the child that it is at, or nothing. -/
def Config.FindsChild (w : World) (c : Config) : Prop :=
  ∀ e child rest k, c.stack = .unload e (child :: rest) :: k →
    ∀ me ∈ c.st.rt.mods child, ∀ x ∈ c.st.cascadeLookup w me, x = child

/-- A move of the host, in which a cascade finds its child. -/
def HostMove (w : World) (c c' : Config) : Prop := c.FindsChild w ∧ Next w c .tau c'

/-! ## Stacks on which the host can move -/

/-- The `xy_reload` waits for its own `_mod_unload` or `_mod_load`. -/
def Frame.called : Frame → Bool
  | .reload _ .unloading | .reload _ .loading => true
  | _ => false

/-- The call is a `_mod_load` or a `_mod_unload`. -/
def Frame.isModCall : Frame → Bool
  | .load .. | .unload .. => true
  | _ => false

/-- The call is a `_mod_load` that is about to allocate its entry. -/
def Frame.opened : Frame → Bool
  | .load _ .opened => true
  | _ => false

/-- The children that are still to be let go are younger. -/
def Frame.Upward : Frame → Prop
  | .unload e children => ∀ x ∈ children, e < x
  | _ => True

/-- An `xy_reload` that waits has what it waits for right above it, and cascades go up.
The flag says whether a `_mod_load` or a `_mod_unload` is right above the stack. -/
def OnCourse : Bool → List Frame → Prop
  | _, [] => True
  | b, f :: k => (f.called = true → b = true) ∧ f.Upward ∧ OnCourse f.isModCall k

section

variable {w : World} {c c' : Config} {a : Action} {ev : Event} {rt rt' : Runtime}
  {s : State} {f : Frame} {k : List Frame} {b : Bool}

theorem OnCourse.weaken (h : OnCourse false k) (b : Bool) : OnCourse b k := by
  cases k with
  | nil => trivial
  | cons f k => exact ⟨fun hf => absurd (h.1 hf) (by simp), h.2⟩

theorem OnCourse.cons (hf : f.called = false) (hup : f.Upward) (h : OnCourse f.isModCall k) :
    OnCourse b (f :: k) :=
  ⟨fun hf' => absurd (hf.symm.trans hf') (by simp), hup, h⟩

/-- A `_mod_load` or a `_mod_unload` returns. -/
theorem resume_onCourse {ret : Int} (hr : resume s ret k = .next c' ev) (h : OnCourse b k) :
    OnCourse false c'.stack := by
  unfold resume at hr
  split at hr
  · cases hr
    exact .cons rfl h.2.1 h.2.2
  · cases hr
    exact .cons rfl trivial h.2.2
  · cases hr
    exact .cons rfl trivial h.2.2
  · next hload hunl hrel =>
    cases hr
    cases k with
    | nil => trivial
    | cons f k =>
      refine .cons ?_ h.2.1 h.2.2
      cases f with
      | reload rl pc =>
        cases pc with
        | unloading => exact absurd rfl (hunl rl k)
        | loading => exact absurd rfl (hrel rl k)
        | unloaded | loaded => rfl
      | load | unload | dispatch | scope | each => rfl

/-- The children that a cascade collects are younger than the entry. -/
theorem older_of_mem_cascadeChildren {e x : EntryRef}
    (hold : ∀ x me, s.rt.mods x = some me → ∀ p ∈ me.parentEntry, p < x)
    (hx : x ∈ (s.release e).rt.cascadeChildren w e) : e < x := by
  obtain ⟨-, hany⟩ := of_decide_eq_true (List.mem_filter.mp hx).2
  obtain ⟨me', hme', hparent⟩ := (Option.any_eq_true _ _).mp hany
  obtain ⟨me, hme, rfl⟩ := modifyMod_some hme'
  refine hold x me hme e ?_
  have hparent := of_decide_eq_true hparent
  split at hparent <;> exact hparent

theorem Unloads.onCourse {fname : CStr} {id : RegionId} {plen : Nat}
    (hold : ∀ x me, s.rt.mods x = some me → ∀ p ∈ me.parentEntry, p < x)
    (hu : Unloads w s fname id plen k c' ev) (hk : OnCourse true k) : OnCourse false c'.stack := by
  cases hu with
  | notFound hl hr => exact resume_onCourse hr hk
  | shared hl hme href hr => exact resume_onCourse hr hk
  | cascade hl hme href =>
    exact .cons rfl (fun x hx => older_of_mem_cascadeChildren hold hx) hk

theorem Step.onCourse (hold : c.ParentsOlder) (h : OnCourse false c.stack)
    (hs : Step w c a c' ev) : OnCourse false c'.stack := by
  cases hs with
  | load hw | scope hw | eachFirst hw | dispatchLoop hw => exact .cons rfl trivial (h.weaken _)
  | answered hw | direct hw | dispatchDone hw => exact h
  | unload hw hu => exact hu.onCourse hold.older (h.weaken true)
  | reload hw hl hme hu => exact hu.onCourse hold.older ⟨fun _ => rfl, trivial, h⟩
  | shutdown => trivial
  | dlopenFailed hr => exact resume_onCourse hr h.2.2
  | reuse hl hme hr => exact resume_onCourse hr h.2.2
  | installed hr => exact resume_onCourse hr h.2.2
  | abort ha hr => exact resume_onCourse hr h.2.2
  | remove hme hr => exact resume_onCourse hr h.2.2
  | dlopened | publish | bind | claimFlat | claimRefused | claimAsked | notGranted | granted | rekey
  | link | installMissing | install => exact .cons rfl trivial h.2.2
  | cascadeSkip =>
    exact .cons rfl (fun x hx => h.2.1 x (List.mem_cons_of_mem _ hx)) h.2.2
  | cascade hme hp hst hu =>
    refine hu.onCourse hold.older (.cons rfl (fun x hx => ?_) h.2.2)
    exact h.2.1 x (List.mem_cons_of_mem _ hx)
  | reloadLoad => exact .cons rfl trivial ⟨fun _ => rfl, trivial, h.2.2⟩
  | selfSkip | selfDeaf | selfEnter | slotSkip | slotEnter | selfListened | slotListened | eachNext =>
    exact .cons rfl trivial h.2.2
  | reinsert | reloadEnd | dispatchEnd | scopeEnd | eachEnd => exact h.2.2

theorem onCourse_of_reachable (h : Reachable w c) : OnCourse false c.stack := by
  have hknown : ∀ c, Reachable w c → c.ParentsOlder := fun c hc => parentsOlder_of_reachable hc
  refine h.invariant_of hknown ?_
    fun c a c' hold hc _ ⟨ev, hs⟩ => Step.onCourse hold hc (.of_step hs)
  rintro _ ⟨ctxs, adapters, mem, rfl⟩
  trivial

/-! ## What a move costs -/

theorem stackWork_cons (rt : Runtime) (f : Frame) (k : List Frame) :
    stackWork rt (f :: k) = f.work rt + stackWork rt k := by
  simp [stackWork]

/-- A call below others is known by the number of the entries. -/
theorem work_of_parked (hf : f.parked = true) (hn : rt'.nmods = rt.nmods) :
    f.work rt' = f.work rt := by
  cases f with
  | unload e children => rw [Frame.work, hn]; rfl
  | dispatch d running =>
    cases running with
    | none => cases hf
    | some e => rfl
  | load | reload | scope | each => rfl

theorem stackWork_parked (hk : ∀ f ∈ k, f.parked = true) (hn : rt'.nmods = rt.nmods) :
    stackWork rt' k = stackWork rt k :=
  congrArg List.sum (List.map_congr_left fun f hf => work_of_parked (hk f hf) hn)

/-- Where no cascade is at work, the entries do not count. -/
theorem stackWork_idle (hk : ∀ f ∈ k, f.parked = true) (hfall : falling k = []) :
    stackWork rt' k = stackWork rt k := by
  refine congrArg List.sum (List.map_congr_left fun f hf => ?_)
  have hnone : f.unloads = none := by
    cases hu : f.unloads with
    | none => rfl
    | some e =>
      have hmem : e ∈ falling k := List.mem_filterMap.mpr ⟨f, hf, hu⟩
      rw [hfall] at hmem
      cases hmem
  have hpark := hk f hf
  cases f with
  | unload e children => cases hnone
  | dispatch d running =>
    cases running with
    | none => cases hpark
    | some e => rfl
  | load | reload | scope | each => rfl

/-- A return makes no work. -/
theorem resume_work {ret : Int} (hr : resume s ret k = .next c' ev) (rt : Runtime) :
    stackWork rt c'.stack ≤ stackWork rt k := by
  unfold resume at hr
  split at hr <;> cases hr <;> exact Nat.le_refl _

/-- Only a load allocates an entry. -/
theorem Effect.nmods (h : Effect w c a rt')
    (hstack : ∀ f k, a = .tau → c.stack = f :: k → f.opened = false) :
    rt'.nmods = c.st.rt.nmods := by
  cases h with
  | same | handler | claimAt | grant | refcount | bind | rekey | prewarm | resolve | shutdown => rfl
  | deny => exact (sameHeap_recordDeny ..).nmods
  | publish ha hs hl => exact absurd (hstack _ _ ha hs) (by simp [Frame.opened])
  | link => exact (linkEntry_modHd ..).2
  | abort => exact (discardEntry_modHd ..).2
  | @remove k e me =>
    refine (discardEntry_modHd (w := w) _ e me).2.trans ?_
    have hclear := (moduleClearFnCacheForHandle_keeps w c.st.rt e me.handle).same.nmods
    unfold moduleRemovePathOwnedEntries
    split <;> exact hclear
  | reinsert ha hs hl hre hr hi =>
    unfold Xylem.reinsert at hi
    dsimp only at hi
    split at hi
    · obtain rfl := Option.some.inj hi
      unfold moduleRegionDetach
      split <;> rfl
    · cases hi
  | vector ha hcaller hr hv => exact (prepareVec_keeps hv).2.2.2.2.1
  | register => exact (sameHeap_registerHook ..).nmods

/-- The walk of a module list goes on. -/
theorem left_regionNext {e : EntryRef} {me : ModEntry} (hheap : rt.HeapWf)
    (hme : rt.mods e = some me) : rt.left (rt.regionNext e me) < rt.left (some e) := by
  have hhome := home_of_mods hme
  unfold regionNext
  cases hr : me.regionEntry with
  | none => exact Nat.zero_lt_one.trans_le (Nat.le_add_right _ _)
  | some r =>
    rw [hr] at hhome
    show rt.left (nextIn e (rt.modsOf r)) < _
    have hwalk := Cursor.fromHere_head (a := e) (hheap.nodup r)
    rw [nextIn_eq]
    rw [Runtime.left, hhome, Option.elim_some]
    cases hnext : (Cursor.ahead e (rt.modsOf r)).head? with
    | none => exact Nat.zero_lt_one.trans_le (Nat.le_add_right _ _)
    | some y =>
      rw [hnext] at hwalk
      have hy : y ∈ rt.modsOf r := Cursor.mem_of_ahead (List.mem_of_mem_head? hnext)
      rw [Runtime.left, hheap.mem_iff.mp hy, Option.elim_some, ← hwalk, Cursor.fromHere]
      simp only [List.length_cons]
      omega

theorem left_congr (hmods : rt'.modsOf = rt.modsOf) (hhome : ∀ x, rt'.home x = rt.home x)
    (next : Option EntryRef) : rt'.left next = rt.left next := by
  cases next with
  | none => rfl
  | some e => simp only [Runtime.left, hmods, hhome]

/-- No more children than entries. -/
theorem length_cascadeChildren (hheap : rt.HeapWf) (e : EntryRef) :
    (rt.cascadeChildren w e).length ≤ rt.nmods := by
  have hlive : ∀ {κ x}, rt.modHd.lookup κ = some x → x < rt.nmods := fun hκ => by
    by_contra hge
    have hkey := hheap.table hκ
    rw [keyOf_eq_none.mpr (hheap.fresh (Nat.le_of_not_lt hge))] at hkey
    cases hkey
  obtain ⟨hnodup, hmem⟩ := @cascadeChildren_spec rt w e fun hκ hκ' =>
    Option.some.inj ((hheap.table hκ).symm.trans (hheap.table hκ'))
  have hsub : rt.cascadeChildren w e ⊆ List.range rt.nmods := fun x hx => by
    obtain ⟨⟨κ, hκ⟩, -⟩ := (hmem x).mp hx
    exact List.mem_range.mpr (hlive hκ)
  simpa using (List.subperm_of_subset hnodup hsub).length_le

/-! ## Every move lowers the bound -/

/-- The call on top goes on, and has less to do. -/
theorem work_go {f' : Frame} (hk : ∀ f ∈ k, f.parked = true)
    (hn : c'.st.rt.nmods = c.st.rt.nmods) (hs : c.stack = f :: k) (hs' : c'.stack = f' :: k)
    (hlt : f'.work c'.st.rt < f.work c.st.rt) : c'.work < c.work := by
  unfold Config.work
  rw [hs, hs', stackWork_cons, stackWork_cons, stackWork_parked hk hn]
  exact Nat.add_lt_add_right hlt _

/-- The call on top returns. -/
theorem work_pop (hk : ∀ f ∈ k, f.parked = true) (hn : c'.st.rt.nmods = c.st.rt.nmods)
    (hs : c.stack = f :: k) (hle : stackWork c'.st.rt c'.stack ≤ stackWork c'.st.rt k)
    (hpos : 0 < f.work c.st.rt) : c'.work < c.work := by
  rw [stackWork_parked hk hn] at hle
  unfold Config.work
  rw [hs, stackWork_cons]
  omega

/-- A round of a cascade: the child is let go, and it may fall. -/
theorem Unloads.work_lt {e child : EntryRef} {rest : List EntryRef} {path : CStr} {id : RegionId}
    {plen : Nat} (hheap : s.rt.HeapWf) (hk : ∀ f ∈ k, f.parked = true) (hlt : e < child)
    (hfind : ∀ x ∈ s.rt.modHd.lookup (modKey (w.loadPath path) id plen), x = child)
    (hu : Unloads w s path id plen (.unload e rest :: k) c' ev) :
    c'.work < stackWork s.rt (.unload e (child :: rest) :: k) := by
  have hround : stackWork s.rt (.unload e rest :: k) + Descent.price s.rt.nmods e
      = stackWork s.rt (.unload e (child :: rest) :: k) := by
    rw [stackWork_cons, stackWork_cons, Frame.work, Frame.work, List.length_cons, Descent.cost_succ]
    omega
  have hpos := Descent.price_pos s.rt.nmods e
  have hparked : ∀ f ∈ Frame.unload e rest :: k, f.parked = true :=
    List.forall_mem_cons.mpr ⟨rfl, hk⟩
  have hreturn : ∀ (s' : State) {ret : Int} {c' : Config} {ev : Event},
      s'.rt.nmods = s.rt.nmods → resume s' ret (.unload e rest :: k) = .next c' ev →
      c'.work < stackWork s.rt (.unload e (child :: rest) :: k) := fun s' _ _ _ hn hr => by
    have hle := resume_work hr s.rt
    rw [Config.work, (resume_spec hr).1.rt]
    rw [stackWork_parked ?_ hn]
    · omega
    · exact (resume_spec hr).2.forall (fun _ _ => rfl) hparked
  cases hu with
  | notFound hl hr => exact hreturn (s.setErr xyErrNotfound) rfl hr
  | @shared x me c' ev hl hme href hr => exact hreturn (s.release x) rfl hr
  | @cascade x me hl hme href =>
    obtain rfl := hfind x hl
    have hlive : x < s.rt.nmods := by
      by_contra hge
      rw [hheap.fresh (Nat.le_of_not_lt hge)] at hme
      cases hme
    have hrel : (s.release x).rt.HeapWf := hheap.of_same (sameHeap_modifyMod (by simp) s.rt x)
    have hcost := Descent.cost_lt_price hlt hlive (length_cascadeChildren (w := w) hrel x)
    have hbelow : stackWork (s.release x).rt (.unload e rest :: k)
        = stackWork s.rt (.unload e rest :: k) := stackWork_parked hparked rfl
    rw [Config.work, stackWork_cons, hbelow]
    show Descent.cost s.rt.nmods x _ + _ < _
    have hlower : Descent.cost s.rt.nmods x ((s.release x).rt.cascadeChildren w x).length
      < Descent.price s.rt.nmods e := hcost
    omega

theorem Step.work_lt (hwf : c.Wf w) (hpark : c.Parked) (hcounted : c.Counted)
    (hcourse : OnCourse false c.stack) (hfind : c.FindsChild w) (hs : Step w c .tau c' ev) :
    c'.work < c.work := by
  have heff := hs.effect hwf
  have hn : ∀ {f : Frame} {k : List Frame}, c.stack = f :: k → f.opened = false →
      c'.st.rt.nmods = c.st.rt.nmods := fun hstack hf =>
    heff.nmods fun g l _ hg => (List.cons.inj (hstack.symm.trans hg)).1 ▸ hf
  have hgo : ∀ {f f' : Frame} {k : List Frame}, c.stack = f :: k → c'.stack = f' :: k →
      f.opened = false → f'.work c'.st.rt < f.work c.st.rt → c'.work < c.work :=
    fun hstack hstack' hf hlt =>
      work_go (fun g hg => hpark g (hstack ▸ hg)) (hn hstack hf) hstack hstack' hlt
  have hpop : ∀ {f : Frame} {k : List Frame}, c.stack = f :: k → f.opened = false →
      stackWork c'.st.rt c'.stack ≤ stackWork c'.st.rt k → 0 < f.work c.st.rt →
      c'.work < c.work := fun hstack hf hle hpos =>
    work_pop (fun g hg => hpark g (hstack ▸ hg)) (hn hstack hf) hstack hle hpos
  cases hs with
  | @publish s k tx hl =>
    have hidle : stackWork (modLoadAllocPublish s tx).1.rt k = stackWork s.rt k :=
      stackWork_idle hpark (hcounted.onTop.below rfl)
    show stackWork (modLoadAllocPublish s tx).1.rt _ < stackWork s.rt _
    rw [stackWork_cons, stackWork_cons, hidle]
    exact Nat.add_lt_add_right (by decide : 5 < 6) _
  | @reuse s k tx e me c' ev hl hme hr =>
    have hn : c'.st.rt.nmods = s.rt.nmods := (congrArg Runtime.nmods (resume_spec hr).1.rt).trans rfl
    exact work_pop hpark hn rfl (resume_work hr _) (by decide : 0 < 6)
  | @bind s k tx =>
    refine hgo rfl rfl rfl ?_
    show LoadPc.work _ < 5
    split
    · exact (by decide : 4 < 5)
    · exact (by decide : 1 < 5)
  | claimFlat hg => exact hgo rfl rfl rfl (by decide : 3 < 4)
  | claimRefused hg => exact hgo rfl rfl rfl (by decide : 1 < 4)
  | claimAsked hg => exact hgo rfl rfl rfl (by decide : 0 < 4)
  | rekey he hme => exact hgo rfl rfl rfl (by decide : 3 < 4)
  | link he hme => exact hgo rfl rfl rfl (by decide : 2 < 3)
  | installMissing he hi => exact hgo rfl rfl rfl (by decide : 1 < 2)
  | install he hi => exact hgo rfl rfl rfl (by decide : 0 < 2)
  | abort ha hr => exact hpop rfl rfl (resume_work hr _) (by decide : 0 < 1)
  | @cascadeSkip s k e child rest me hme hp =>
    refine hgo rfl rfl rfl ?_
    show Descent.cost _ _ _ < Descent.cost _ _ _
    rw [List.length_cons, Descent.cost_succ]
    exact Nat.lt_add_of_pos_left (Descent.price_pos _ _)
  | @cascade s k e child rest me p path c' ev hme hp hst hu =>
    refine hu.work_lt hwf.heap hpark (hcourse.2.1 child List.mem_cons_self) fun x hx => ?_
    refine hfind e child rest k rfl me hme x ?_
    simp only [State.cascadeLookup, hp, hst, Option.bind_some]
    exact hx
  | remove hme hr => exact hpop rfl rfl (resume_work hr _) (Descent.cost_pos _ _ _)
  | reloadLoad =>
    simp only [Config.work, stackWork_cons]
    show 0 + (1 + _) < 2 + _
    omega
  | reinsert hl hre hi => exact hpop rfl rfl (Nat.le_refl _) (by decide : 0 < 1)
  | @reloadEnd s k rl pc n =>
    refine hpop rfl rfl (Nat.le_refl _) ?_
    show 0 < pc.work
    cases pc <;> exact Nat.succ_pos _
  | dispatchEnd hend => exact hpop rfl rfl (Nat.le_refl _) (Nat.succ_pos _)
  | @selfSkip s k d e me hself he hme hskip =>
    refine hgo rfl rfl rfl ?_
    simp only [Frame.work, hself, he, if_true]
    exact Nat.succ_lt_succ (left_regionNext hwf.heap hme)
  | @selfDeaf s k d e me ctx hself he hme hc hd hh =>
    refine hgo rfl rfl rfl ?_
    have hsame := (onlyCaches_modifyMod hme (me.core_resolved (w := w) d.hookId d.name)).same
    simp only [Frame.work, hself, he, if_true]
    rw [left_congr hsame.modsOf hsame.home]
    exact Nat.succ_lt_succ (left_regionNext hwf.heap hme)
  | selfEnter hself he hme hc hd hh hs' => exact hgo rfl rfl rfl (Nat.succ_pos _)
  | @slotSkip s k d slot me hself hmi hslots hcell hme hskip =>
    refine hgo rfl rfl rfl ?_
    simp only [Frame.work, hself, if_false, Bool.false_eq_true]
    omega
  | slotEnter hself hmi hslots hcell hme hc hcb hd' hs' => exact hgo rfl rfl rfl (Nat.succ_pos _)

/-! ## The host has a move -/

@[simp] theorem resume_ne_disabled (s : State) (ret : Int) (k : List Frame) :
    resume s ret k ≠ .disabled := by
  unfold resume
  split <;> simp

@[simp] theorem beginUnload_ne_disabled (s : State) (fname : CStr) (id : RegionId) (plen : Nat)
    (k : List Frame) : beginUnload w s fname id plen k ≠ .disabled := by
  unfold beginUnload
  split
  · simp
  · split
    · simp
    · dsimp only
      split <;> simp

theorem tauLoad_ne_disabled {tx : LoadTxn} {pc : LoadPc}
    (hw : (Frame.load tx pc).waiting = false) : tauLoad w s k tx pc ≠ .disabled := by
  cases pc with
  | opening | handler | installing => cases hw
  | opened =>
    simp only [tauLoad]
    split
    · split <;> simp
    · simp
  | bind => simp [tauLoad]
  | claim =>
    simp only [tauLoad]
    split <;> simp
  | rekey child =>
    simp only [tauLoad]
    split <;> simp
  | link =>
    simp only [tauLoad]
    split
    · simp
    · split <;> simp
  | install =>
    simp only [tauLoad]
    split
    · simp
    · split <;> simp
  | aborting err =>
    simp only [tauLoad]
    split <;> simp

theorem tauUnload_ne_disabled (e : EntryRef) (children : List EntryRef) :
    tauUnload w s k e children ≠ .disabled := by
  cases children with
  | nil =>
    simp only [tauUnload]
    split <;> simp
  | cons child rest =>
    simp only [tauUnload]
    split
    · simp
    · split
      · simp
      · split <;> simp

theorem tauDispatch_ne_disabled (d : Dispatch) :
    (if d.selfOnly then tauSelf w s k d else tauSubtree s k d) ≠ .disabled := by
  split
  · unfold tauSelf
    split
    · simp
    · split
      · simp
      · dsimp only
        split
        · simp
        · split
          · simp
          · split <;> simp
  · unfold tauSubtree
    split
    · dsimp only
      split
      · split
        · simp
        · split
          · simp
          · split
            · simp
            · split <;> simp
      · simp
    · simp

/-- When no module has control, the host has a move. -/
theorem tau_ne_disabled (h : OnCourse false c.stack) (hw : c.waiting = false) :
    step w c .tau ≠ .disabled := by
  obtain ⟨s, k⟩ := c
  cases k with
  | nil => cases hw
  | cons f k =>
    cases f with
    | load tx pc => exact tauLoad_ne_disabled hw
    | unload e children => exact tauUnload_ne_disabled e children
    | reload rl pc =>
      show tauReload w s k rl pc ≠ .disabled
      cases pc with
      | unloading | loading => exact absurd (h.1 rfl) (by simp)
      | unloaded ret =>
        simp only [tauReload]
        split <;> simp [beginLoad]
      | loaded ret =>
        simp only [tauReload]
        repeat' split
        all_goals simp
    | dispatch d running =>
      cases running with
      | some e => cases hw
      | none => exact tauDispatch_ne_disabled d
    | scope | each => cases hw

/-! ## The end -/

/-- The host makes no more moves by itself than `Config.work` counts, and when its
cascades find their children it comes to a point where a module has control, or where
what it does is undefined. -/
theorem host_ends (h : Reachable w c) :
    (∀ n c', Descent.Steps (HostMove w) n c c' → n + c'.work ≤ c.work)
      ∧ ∃ n c', Descent.Steps (HostMove w) n c c'
        ∧ (c'.waiting = true ∨ step w c' .tau = .undef ∨ ¬ c'.FindsChild w) := by
  have hknown : ∀ c c', Reachable w c → HostMove w c c' → Reachable w c' :=
    fun c c' hc hm => hc.step trivial hm.2
  have hlow : ∀ c c', Reachable w c → HostMove w c c' → c'.work < c.work := by
    rintro c c' hc ⟨hfind, ev, hs⟩
    exact (Step.of_step hs).work_lt (.of_reachable hc) (parked_of_reachable hc)
      (counted_invariant hc) (onCourse_of_reachable hc) hfind
  refine ⟨fun n c' hrun => hrun.add_le hknown hlow h, ?_⟩
  obtain ⟨n, c', hrun, hend⟩ := Descent.exists_end hknown hlow h
  refine ⟨n, c', hrun, ?_⟩
  by_cases hw : c'.waiting = true
  · exact Or.inl hw
  · have hmove := tau_ne_disabled (w := w) (onCourse_of_reachable (hrun.stays hknown h))
      (Bool.not_eq_true _ ▸ hw)
    by_cases hfind : c'.FindsChild w
    · cases hs : step w c' .tau with
      | next c'' ev => exact absurd ⟨hfind, ev, hs⟩ (hend c'')
      | undef => exact Or.inr (Or.inl rfl)
      | disabled => exact absurd hs hmove
    · exact Or.inr (Or.inr hfind)

/-- The entry that a call unloads, with the children that it has yet to let go. -/
def Frame.cascade : Frame → Option (EntryRef × List EntryRef)
  | .unload e children => some (e, children)
  | _ => none

/-- A cascade that finds the entry itself where it looks for its child. -/
structure Spins (w : World) (e y : EntryRef) (c : Config) : Prop where
  stack : c.stack.head?.bind Frame.cascade = some (e, [y])
  ne : y ≠ e
  child : ∃ me, c.st.rt.mods y = some me ∧ c.st.cascadeLookup w me = some e
  self : ∃ me, c.st.rt.mods e = some me ∧ me.refcount ≤ 0
  children : c.st.rt.cascadeChildren w e = [y]

theorem cascadeChildren_release (s : State) (e : EntryRef) :
    (s.release e).rt.cascadeChildren w e = s.rt.cascadeChildren w e := by
  refine List.filter_congr fun x _ => decide_eq_decide.mpr (and_congr_right fun hx => ?_)
  rw [show (s.release e).rt.mods x = s.rt.mods x from Function.update_of_ne hx ..]

theorem Spins.move {e y : EntryRef} (h : Spins w e y c) :
    ∃ c', Next w c .tau c' ∧ Spins w e y c' := by
  obtain ⟨k, hstack⟩ : ∃ k, c.stack = .unload e [y] :: k := by
    obtain ⟨f, hf, hcascade⟩ := Option.bind_eq_some_iff.mp h.stack
    obtain ⟨k, hk⟩ := List.head?_eq_some_iff.mp hf
    cases f with
    | unload => cases hcascade; exact ⟨k, hk⟩
    | load | reload | dispatch | scope | each => cases hcascade
  obtain ⟨me, hme, hfind⟩ := h.child
  obtain ⟨m, hm, hcount⟩ := h.self
  have hne := h.ne
  have hchildren := h.children
  obtain ⟨s, stack⟩ := c
  dsimp only at hstack hme hfind hm hchildren
  subst hstack
  obtain ⟨path, hpath, hl⟩ := Option.bind_eq_some_iff.mp hfind
  obtain ⟨p, hp, hs⟩ := Option.bind_eq_some_iff.mp hpath
  refine ⟨⟨s.release e, .unload e ((s.release e).rt.cascadeChildren w e) :: .unload e [] :: k⟩,
    ⟨.internal, ?_⟩, ?_⟩
  · show tauUnload w s k e [y] = _
    simp only [tauUnload, hme, hp, hs, beginUnload, moduleLookupFromFname, hl, hm]
    rw [if_neg (by omega)]
  · have hself : (s.release e).rt.mods e = some { m with refcount := m.refcount - 1 } := by
      simp [State.release, modifyMod, hm]
    have hother : (s.release e).rt.mods y = some me := by
      simp [State.release, modifyMod, hne, hme]
    rw [cascadeChildren_release, hchildren]
    refine ⟨rfl, hne, ⟨me, hother, hfind⟩, ⟨_, hself, ?_⟩, ?_⟩
    · show m.refcount - 1 ≤ 0
      omega
    · exact (cascadeChildren_release s e).trans hchildren

theorem Spins.runs_on {e y : EntryRef} (h : Spins w e y c) (n : Nat) :
    ∃ c', Descent.Steps (fun c c' => Next w c .tau c') n c c' ∧ Spins w e y c' := by
  induction n with
  | zero => exact ⟨c, .none c, h⟩
  | succ n ih =>
    obtain ⟨c', hrun, hspins⟩ := ih
    obtain ⟨c'', hmove, hspins'⟩ := hspins.move
    exact ⟨c'', .move hrun hmove, hspins'⟩

end

/-- A module that has loaded another is about to be unloaded with it. -/
theorem host_ends_of_nested :
    let c := (Config.boot sampleHook).after sampleWorld (nestedRun ++ [.call (.unload sampleFile)])
    (∀ n c', Descent.Steps (HostMove sampleWorld) n c c' → n + c'.work ≤ 5)
      ∧ ∃ n c', Descent.Steps (HostMove sampleWorld) n c c'
        ∧ (c'.waiting = true ∨ step sampleWorld c' .tau = .undef ∨ ¬ c'.FindsChild sampleWorld) := by
  intro c
  have hreach : Reachable sampleWorld c :=
    ReachableBy.after (.start (Config.boot_initial sampleHook)) fun _ _ _ => trivial
  have hwork : c.work = 5 := by decide +kernel
  rw [← hwork]
  exact host_ends hreach

/-- A world in which all modules have one context. -/
def oneContextWorld : World := { sampleWorld with getXy := fun _ => some 0 }

/-- A module has loaded another, and is loaded once more into another region.  The one
context now has its path, so that the unload of it never comes to its end. -/
theorem host_runs_on :
    ∃ c, Reachable oneContextWorld c
      ∧ ∀ n, ∃ c', Descent.Steps (fun c c' => Next oneContextWorld c .tau c') n c c' := by
  let run := nestedRun ++ [.call (.claimAt 0 16 none)] ++ loadRun sampleFile 1
    ++ [.call (.claimAt 0 0 none), .call (.unload sampleFile)]
  let c := (Config.boot sampleHook).after oneContextWorld run
  have hreach : Reachable oneContextWorld c :=
    ReachableBy.after (.start (Config.boot_initial sampleHook)) fun _ _ _ => trivial
  have hspins : Spins oneContextWorld 0 1 c := by
    have hchild : ((c.st.rt.mods 1).bind fun me => c.st.cascadeLookup oneContextWorld me)
        = some 0 := by decide +kernel
    have hself : (c.st.rt.mods 0).map (·.refcount) = some 0 := by decide +kernel
    have hlist : c.st.rt.cascadeChildren oneContextWorld 0 = [1] := by decide +kernel
    obtain ⟨me, hme, hfind⟩ := Option.bind_eq_some_iff.mp hchild
    obtain ⟨m, hm, hcount⟩ := Option.map_eq_some_iff.mp hself
    exact ⟨by decide +kernel, by decide, ⟨me, hme, hfind⟩, ⟨m, hm, Int.le_of_eq hcount⟩, hlist⟩
  refine ⟨c, hreach, fun n => ?_⟩
  obtain ⟨c', hrun, -⟩ := hspins.runs_on n
  exact ⟨c', hrun⟩

end Xylem
