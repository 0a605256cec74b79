import Xylem.LoopPlaces

/-!
# The turns of the listeners

Every listener that a dispatch starts with has its turn, if it is still loaded then,
and none has two.

* `Config.TakesTurns`: no dispatch in progress reads what has been freed, enters a
  module that is not loaded or one that it has entered before, or leaves out a module
  that it started with and that is still loaded.
* `takesTurns_of_turnsKept`: this holds in the runs that heed `TurnsKept`.
* `not_takesTurns_of_unload_inside`: it does not hold in a run in which a listener
  unloads its own module and dispatches its hook again.
-/

namespace Xylem

open Xylem.Runtime

/-- What holds of the dispatches in progress.

* `once`: no module is entered twice.
* `waits`: a module that the dispatch started with, and that is still loaded, has
  been entered or is to come.
* `turn`: when the turn of a module comes, it is loaded; and if the dispatch started
  with it, its listener is called.
* `enters`: a listener is of a module that is loaded, and not for the second time.
* `goesOn`, `comesBack`: the loop reads no entry and no array that has been freed.
* `ends`: when the dispatch returns, nothing is to come. -/
structure Config.TakesTurns (w : World) (c : Config) : Prop where
  once : ∀ d run, .dispatch d run ∈ c.stack → d.entered.Nodup
  waits : ∀ d run, .dispatch d run ∈ c.stack → ∀ x ∈ d.startSeq, c.st.rt.Loaded x →
    x ∈ d.entered ∨ x ∈ d.toCome c.st.rt run
  turn : ∀ d k, c.stack = .dispatch d none :: k → ∀ x ∈ (d.toCome c.st.rt none).head?,
    c.st.rt.Loaded x ∧ (x ∈ d.startSeq →
      ∃ c' cb, step w c .tau = .next c' (.enterListener x cb) ∧ cb ≠ .null)
  enters : ∀ d k, c.stack = .dispatch d none :: k → ∀ c' e cb,
    step w c .tau = .next c' (.enterListener e cb) → c.st.rt.Loaded e ∧ e ∉ d.entered
  goesOn : ∀ d k, c.stack = .dispatch d none :: k → step w c .tau ≠ .undef
  comesBack : ∀ d e k bytes, c.stack = .dispatch d (some e) :: k →
    step w c (.ret (.listened bytes)) ≠ .undef
  ends : ∀ d k, c.stack = .dispatch d none :: k → ∀ c' v,
    step w c .tau = .next c' (.returned v) → d.toCome c.st.rt none = []

section

variable {w : World} {c c' : Config} {a : Action} {ev : Event} {rt : Runtime} {e : EntryRef}
  {me : ModEntry} {d : Dispatch} {run : Option EntryRef}

/-! ## Steps -/

/-- Where a call in progress is, if it is a dispatch. -/
def Frame.InTurn (rt : Runtime) : Frame → Prop
  | .dispatch d run => if d.selfOnly then d.SelfTurn rt run else d.VecTurn rt run
  | _ => True

/-- The dispatches in progress keep their place, and the next one will have a vector
to walk. -/
structure Config.InTurns (c : Config) : Prop where
  stamps : c.st.rt.Stamps
  vecs : ∀ r < c.st.rt.nregions, ∀ k, c.st.rt.Warm r k → c.st.rt.VecSound r k
  turns : ∀ f ∈ c.stack, f.InTurn c.st.rt

theorem Frame.InTurn.self (h : (Frame.dispatch d run).InTurn rt) (hself : d.selfOnly = true) :
    d.SelfTurn rt run := by
  rwa [Frame.InTurn, if_pos hself] at h

theorem Frame.InTurn.vec (h : (Frame.dispatch d run).InTurn rt) (hself : d.selfOnly = false) :
    d.VecTurn rt run := by
  rwa [Frame.InTurn, if_neg (by simp [hself])] at h

theorem Dispatch.SelfTurn.inTurn (h : d.SelfTurn rt run) (hself : d.selfOnly = true) :
    (Frame.dispatch d run).InTurn rt := by
  rwa [Frame.InTurn, if_pos hself]

theorem Dispatch.VecTurn.inTurn (h : d.VecTurn rt run) (hself : d.selfOnly = false) :
    (Frame.dispatch d run).InTurn rt := by
  rwa [Frame.InTurn, if_neg (by simp [hself])]

theorem Frame.InTurn.keep (hwf : c.Wf w) (hok : TurnsKept w c a) (h : Step w c a c' ev)
    {f : Frame} (hf : f ∈ c.stack) (hin : f.InTurn c.st.rt) : f.InTurn c'.st.rt := by
  cases f with
  | dispatch d run =>
    cases hself : d.selfOnly with
    | true => exact ((hin.self hself).keep hwf hok (h.effect hwf) hf hself).inTurn hself
    | false => exact ((hin.vec hself).keep hwf hok h hf hself).inTurn hself
  | load | unload | reload | scope | each => trivial

/-- The dispatch that starts has its turns before it. -/
theorem Config.InTurns.start (hwf : c.Wf w) (hl : c.st.rt.SubtreeLists) (hok : TurnsKept w c a)
    (hin : c.InTurns) {retp : Option BufRef} {reg : Option AdapterRef} {selfOnly : Bool}
    {s : State} (ha : a = .call (.call retp reg selfOnly))
    (h : Step w c a ⟨s, .dispatch d none :: c.stack⟩ ev)
    (hd : dispatchBegin w c.st retp reg selfOnly = some (.loop s d)) :
    (Frame.dispatch d none).InTurn s.rt := by
  subst ha
  have heff : Effect w c _ s.rt := h.effect hwf
  have hstart := dispatchBegin_loop hd
  have hlt : d.caller < c.st.rt.nregions := hwf.callerRegion_lt hstart.caller
  cases hself : d.selfOnly with
  | true =>
    refine Dispatch.SelfTurn.inTurn ?_ hself
    obtain ⟨hrt, hme, hseq⟩ := hstart.self (hstart.selfOnly ▸ hself)
    have hheeds : c.StartHeeds w (some (.loop s d)) := hd ▸ hok.2
    rw [Config.StartHeeds, if_pos hself] at hheeds
    rw [hrt]
    exact .start hwf.heap hstart.entered hme hseq hheeds
  | false =>
    refine Dispatch.VecTurn.inTurn ?_ hself
    obtain ⟨hv, hslots, hn, hseq⟩ := hstart.subtree (hstart.selfOnly ▸ hself)
    have hlt' : d.caller < s.rt.nregions := by
      rw [(rebuild_of_prepareVec hv).nregions]
      exact hlt
    have hwalked := walked_eq (heff.tree hwf) (heff.subtreeLists hwf hl) hlt'
    refine .start ?_ (fun x hx => ?_) ?_ hstart.mi hstart.entered hslots hn hseq
    · rw [hwalked]
      exact (heff.heap hwf).lists.nodup_subtree (heff.tree hwf) hlt'
    · rw [hwalked, List.mem_flatMap] at hx
      obtain ⟨y, -, hy⟩ := hx
      exact (heff.heap hwf).loaded hy
    · exact heff.vecSound hwf hl hin.stamps hok.1 hin.vecs _ hlt' _ (prepareVec_spec hv).stamped

/-- What the exact-region loop leaves out, it did not start with. -/
theorem Dispatch.SelfTurn.not_mem_startSeq (hin : d.SelfTurn rt none) (he : d.me = some e)
    (hme : rt.mods e = some me)
    (hout : rt.consulted d.anc me = false
      ∨ (me.resolved w d.hookId d.name).hasHookImplemented d.hookId = false) :
    e ∉ d.startSeq := by
  intro hseq
  have hleft : e ∈ d.modsLeft rt none := by
    rw [d.modsLeft_of_me he]
    exact List.mem_cons_self
  obtain ⟨hcons, hbit, -⟩ := hin.ready e hseq hleft me hme
  rcases hout with hno | hno
  · rw [hcons] at hno
    cases hno
  · rw [ModEntry.resolved, if_pos hbit, hbit] at hno
    cases hno

/-- What the subtree loop leaves out, it did not start with. -/
theorem Dispatch.VecTurn.not_mem_startSeq {slot : DispatchSlot} (hin : d.VecTurn rt none)
    (hmi : d.mi < d.n) (hcell : (rt.hookVec d.caller d.hookId).cells[d.mi]? = some slot)
    (hme : rt.mods slot.me = some me) (hout : me.ctx = none ∨ slot.cb = .null) :
    slot.me ∉ d.startSeq := by
  intro hseq
  have hleft : slot ∈ d.cellsLeft rt none := by
    rw [d.cellsLeft_eq_cons hmi hcell]
    exact List.mem_cons_self
  have hlistens := hin.ready slot hleft hseq
  rcases hout with hno | hno <;> simp [slotListens, hme, hno] at hlistens

/-- The loop of a dispatch goes on to where it should be. -/
theorem Step.loopTurn (hwf : c.Wf w) (hok : TurnsKept w c a) (hin : c.InTurns)
    (h : Step w c a c' ev) (ha : a = .tau ∨ ∃ bytes, a = .ret (.listened bytes)) {d₀ : Dispatch}
    {run₀ : Option EntryRef} {k : List Frame} (hstack : c.stack = .dispatch d₀ run₀ :: k)
    (hstack' : c'.stack = .dispatch d run :: k) : (Frame.dispatch d run).InTurn c'.st.rt := by
  have hheap := (h.effect hwf).heap hwf
  have hmem : .dispatch d₀ run₀ ∈ c.stack := hstack ▸ List.mem_cons_self
  have hbefore := hin.turns _ hmem
  have hafter := hbefore.keep hwf hok h hmem
  obtain ⟨s, stack⟩ := c
  obtain rfl : stack = _ := hstack
  rcases ha with rfl | ⟨bytes, rfl⟩
  · cases h with
    | dispatchEnd => cases hstack'
    | @selfSkip _ _ _ e me hself he hme hskip =>
      cases hstack'
      have hturn := hafter.self hself
      have hdeaf : e ∉ d₀.startSeq := by
        refine hturn.not_mem_startSeq (w := w) he hme (Or.inl ?_)
        rcases hskip with hctx | hden
        · simp [Runtime.consulted, hctx]
        · simp [Runtime.consulted, hden]
      have hnext := regionNext_eq hheap hme (hturn.stands e he)
      exact (hturn.skip hheap he hdeaf hnext).inTurn hself
    | @selfDeaf _ _ _ e me ctx hself he hme hc hd hh =>
      cases hstack'
      have hturn₀ := hbefore.self hself
      have hdeaf := hturn₀.not_mem_startSeq he hme (Or.inr hh)
      have hnext := regionNext_eq hwf.heap hme (hturn₀.stands e he)
      exact ((hafter.self hself).skip hheap he hdeaf hnext).inTurn hself
    | @selfEnter _ _ _ e me ctx s' hself he hme hc hd hh hs' =>
      cases hstack'
      exact ((hafter.self hself).enter hheap he s').inTurn hself
    | @slotSkip _ _ _ slot me hself hmi hslots hcell hme hskip =>
      cases hstack'
      have hturn := hafter.vec hself
      have hdeaf := hturn.not_mem_startSeq hmi hcell hme hskip
      exact (hturn.skip hmi hcell hdeaf).inTurn hself
    | @slotEnter _ _ _ d' slot me ctx s' hself hmi hslots hcell hme hc hcb hd' hs' =>
      have hrt : s'.rt = s.rt := by
        rw [hs', Dispatch.switch]
        split <;> rfl
      have hcell' : (s'.rt.hookVec d₀.caller d₀.hookId).cells[d₀.mi]? = some slot := by
        rw [hrt]
        exact hcell
      subst hd'
      cases hstack'
      exact ((hafter.vec hself).enter hmi hcell' s' _ _).inTurn hself
  · cases h with
    | @selfListened _ _ _ e me _ hself hme =>
      cases hstack'
      have hrt : (s.writeBuf d₀.retp bytes).rt = s.rt := (State.still_writeBuf ..).rt
      have hnext := (regionNext_eq hwf.heap hme ((hbefore.self hself).stands e rfl)).trans
        (congrArg (fun rt : Runtime => nextIn e (rt.modsOf d₀.caller)) hrt.symm)
      exact ((hafter.self hself).back hheap (d₀.ran + 1) hnext).inTurn hself
    | slotListened hself =>
      cases hstack'
      exact ((hafter.vec hself).back _).inTurn hself

/-- After every step, the dispatches in progress are where they should be. -/
theorem Step.inTurn (hwf : c.Wf w) (hl : c.st.rt.SubtreeLists) (hok : TurnsKept w c a)
    (hin : c.InTurns) (h : Step w c a c' ev) : ∀ f ∈ c'.stack, f.InTurn c'.st.rt := by
  intro f hf
  cases f with
  | load | unload | reload | scope | each => trivial
  | dispatch d run =>
    rcases h.dispatch_origin hf with hmem | ⟨rfl, retp, reg, selfOnly, ha, hstack', hbegin⟩
      | ⟨rfl, d₀, k, hstack, hstack'⟩ | ⟨d₀, e, bytes, k, rfl, hstack, hstack'⟩
    · exact (hin.turns _ hmem).keep hwf hok h hmem
    · obtain ⟨s', stack'⟩ := c'
      obtain rfl : stack' = _ := hstack'
      exact hin.start hwf hl hok ha h hbegin
    · exact h.loopTurn hwf hok hin (Or.inl rfl) hstack hstack'
    · exact h.loopTurn hwf hok hin (Or.inr ⟨bytes, rfl⟩) hstack hstack'

/-- In the runs that heed this. -/
theorem inTurns_of_turnsKept (h : ReachableBy w (TurnsKept w) c) : c.InTurns := by
  refine h.invariant_cells Config.InTurns (fun c hc => ?_)
    fun c a c' ev hwf hl _ hin hok hstep => ?_
  · obtain ⟨ctxs, adapters, mem, rfl⟩ := hc
    refine ⟨stamps_bootstrap _, fun r hr k hwarm => ?_, fun f hf => (List.not_mem_nil hf).elim⟩
    exact absurd ((stamps_bootstrap _).lt_length hr hwarm) (Nat.not_lt_zero _)
  · have heff := hstep.effect hwf
    exact ⟨heff.stamps hwf hin.stamps hok.1, heff.vecSound hwf hl hin.stamps hok.1 hin.vecs,
      hstep.inTurn hwf hl hok hin⟩

/-! ## Turns -/

variable {s : State} {k : List Frame}

theorem step_tauSelf (hself : d.selfOnly = true) :
    step w ⟨s, .dispatch d none :: k⟩ .tau = tauSelf w s k d := if_pos hself

theorem step_tauSubtree (hself : d.selfOnly = false) :
    step w ⟨s, .dispatch d none :: k⟩ .tau = tauSubtree s k d := if_neg (by simp [hself])

/-- A call of a listener that the loop has started with is a step of the exact-region
loop. -/
theorem Dispatch.SelfTurn.calls (hin : d.SelfTurn s.rt none) (he : d.me = some e)
    (hseq : e ∈ d.startSeq) (hload : s.rt.Loaded e) :
    ∃ c' cb, tauSelf w s k d = .next c' (.enterListener e cb) ∧ cb ≠ .null := by
  obtain ⟨me, hme⟩ := hload.exists_mods
  have hleft : e ∈ d.modsLeft s.rt none := by
    rw [d.modsLeft_of_me he]
    exact List.mem_cons_self
  obtain ⟨hcons, hbit, hcell⟩ := hin.ready e hseq hleft me hme
  simp only [Runtime.consulted, Bool.and_eq_true, Bool.not_eq_true'] at hcons
  obtain ⟨ctx, hctx⟩ := Option.isSome_iff_exists.mp hcons.1
  have hres : me.resolved w d.hookId d.name = me := by rw [ModEntry.resolved, if_pos hbit]
  unfold tauSelf
  simp only [he, hme, hctx, hcons.2, hres, hbit, if_true, Bool.false_eq_true, if_false]
  exact ⟨_, _, rfl, hcell⟩

/-- The exact-region loop reads live entries. -/
theorem Dispatch.SelfTurn.goesOn (hheap : s.rt.HeapWf) (hin : d.SelfTurn s.rt none) :
    tauSelf w s k d ≠ .undef := by
  unfold tauSelf
  cases he : d.me with
  | none => simp
  | some e =>
    obtain ⟨me, hme⟩ := (hheap.loaded (hin.stands e he)).exists_mods
    simp only [hme]
    split
    · simp
    · split
      · simp
      · split <;> simp

/-- The slot at the index of a subtree loop. -/
theorem Dispatch.VecTurn.slot (hin : d.VecTurn rt none) (hmi : d.mi < d.n) :
    ∃ slot, (rt.hookVec d.caller d.hookId).cells[d.mi]? = some slot
      ∧ d.cellsLeft rt none
        = slot :: Cursor.upTo (d.mi + 1) d.n (rt.hookVec d.caller d.hookId).cells
      ∧ (rt.hookVec d.caller d.hookId).slots = d.slots ∧ rt.Loaded slot.me := by
  have hlen : (d.cellsLeft rt none).length = d.n - d.mi := hin.length
  have hne : d.cellsLeft rt none ≠ [] := List.ne_nil_of_length_pos (by omega)
  obtain ⟨slot, l, hl⟩ := List.exists_cons_of_ne_nil hne
  have hfirst : (Cursor.upTo d.mi d.n (rt.hookVec d.caller d.hookId).cells)[0]? = some slot :=
    (congrArg (·[0]?) hl).trans rfl
  rw [Cursor.getElem?_upTo, Nat.add_zero, if_pos hmi] at hfirst
  exact ⟨slot, hfirst, d.cellsLeft_eq_cons hmi hfirst, hin.slots hne,
    hin.loaded slot (by rw [hl]; exact List.mem_cons_self)⟩

theorem Dispatch.VecTurn.cellsLeft_nil (hin : d.VecTurn rt none) (hmi : d.n ≤ d.mi) :
    d.cellsLeft rt none = [] := by
  have hlen : (d.cellsLeft rt none).length = d.n - d.mi := hin.length
  exact List.eq_nil_of_length_eq_zero (by omega)

/-- A call of a listener that the loop has started with is a step of the subtree
loop. -/
theorem Dispatch.VecTurn.calls {slot : DispatchSlot} {l : List DispatchSlot}
    (hin : d.VecTurn s.rt none) (hleft : d.cellsLeft s.rt none = slot :: l)
    (hseq : slot.me ∈ d.startSeq) :
    ∃ c' cb, tauSubtree s k d = .next c' (.enterListener slot.me cb) ∧ cb ≠ .null := by
  have hmi : d.mi < d.n := by
    by_contra hge
    rw [hin.cellsLeft_nil (Nat.le_of_not_lt hge)] at hleft
    cases hleft
  obtain ⟨slot', hcell, hcons, hslots, -⟩ := hin.slot hmi
  rw [hleft] at hcons
  obtain ⟨rfl, -⟩ := List.cons.inj hcons
  have hlistens := hin.ready slot (by rw [hleft]; exact List.mem_cons_self) hseq
  rw [slotListens, Bool.and_eq_true, Option.any_eq_true] at hlistens
  obtain ⟨⟨me, hme, hctx⟩, hcb⟩ := hlistens
  obtain ⟨ctx, hctx⟩ := Option.isSome_iff_exists.mp hctx
  have hcb : slot.cb ≠ .null := of_decide_eq_true hcb
  unfold tauSubtree
  simp only [if_pos hmi, hslots, if_true, hcell, hme, hctx, if_neg hcb]
  exact ⟨_, _, rfl, hcb⟩

/-- The subtree loop reads its own array, and live entries. -/
theorem Dispatch.VecTurn.goesOn (hin : d.VecTurn s.rt none) : tauSubtree s k d ≠ .undef := by
  unfold tauSubtree
  split
  · next hmi =>
    obtain ⟨slot, hcell, -, hslots, hload⟩ := hin.slot hmi
    obtain ⟨me, hme⟩ := hload.exists_mods
    simp only [hslots, if_true, hcell, hme]
    split
    · simp
    · split <;> simp
  · simp

theorem Config.InTurns.takesTurns (hwf : c.Wf w) (hin : c.InTurns) : c.TakesTurns w := by
  obtain ⟨s, stack⟩ := c
  have hself : ∀ {d run}, .dispatch d run ∈ stack → d.selfOnly = true → d.SelfTurn s.rt run :=
    fun hd h => (hin.turns _ hd).self h
  have hvec : ∀ {d run}, .dispatch d run ∈ stack → d.selfOnly = false → d.VecTurn s.rt run :=
    fun hd h => (hin.turns _ hd).vec h
  refine
    { once := fun d run hd => ?_, waits := fun d run hd x hx hload => ?_
      turn := fun d k hstack x hx => ?_, enters := fun d k hstack c' e cb hs => ?_
      goesOn := fun d k hstack => ?_, comesBack := fun d e k bytes hstack => ?_
      ends := fun d k hstack c' v hs => ?_ }
  · cases h : d.selfOnly with
    | true => exact (hself hd h).once
    | false => exact (List.nodup_append.mp (hvec hd h).once).1
  · cases h : d.selfOnly with
    | true =>
      rw [Dispatch.toCome, if_pos h]
      exact (hself hd h).waits x hx hload
    | false =>
      rw [Dispatch.toCome, if_neg (by simp [h])]
      exact (hvec hd h).waits x hx
  all_goals
    obtain rfl : stack = _ := hstack
  · cases h : d.selfOnly with
    | true =>
      have hturn := hself List.mem_cons_self h
      rw [Dispatch.toCome, if_pos h] at hx
      have he : d.me = some x := by
        cases he : d.me with
        | none =>
          rw [Dispatch.modsLeft, he] at hx
          cases hx
        | some e =>
          rw [d.modsLeft_of_me he] at hx
          exact hx
      have hload : s.rt.Loaded x := hwf.heap.loaded (hturn.stands x he)
      refine ⟨hload, fun hseq => ?_⟩
      obtain ⟨c', cb, hs, hcb⟩ := hturn.calls (w := w) (k := k) he hseq hload
      exact ⟨c', cb, (step_tauSelf h).trans hs, hcb⟩
    | false =>
      have hturn := hvec List.mem_cons_self h
      rw [Dispatch.toCome, if_neg (by simp [h]), List.head?_map] at hx
      obtain ⟨slot, hslot, rfl⟩ := Option.map_eq_some_iff.mp hx
      obtain ⟨l, hl⟩ := List.head?_eq_some_iff.mp hslot
      refine ⟨hturn.loaded slot (List.mem_of_head? hslot), fun hseq => ?_⟩
      obtain ⟨c', cb, hs, hcb⟩ := hturn.calls (k := k) hl hseq
      exact ⟨c', cb, (step_tauSubtree h).trans hs, hcb⟩
  · have hstep := Step.of_step hs
    cases hstep with
    | selfEnter h he hme hc hd hh hs' =>
      have hturn := hself List.mem_cons_self h
      refine ⟨hwf.heap.loaded (hturn.stands e he), fun hent => hturn.apart e hent ?_⟩
      rw [d.modsLeft_of_me he]
      exact List.mem_cons_self
    | @slotEnter _ _ _ _ slot me ctx s' h hmi hslots hcell hme hc hcb hd' hs' =>
      have hturn := hvec List.mem_cons_self h
      have hmem : slot ∈ d.cellsLeft s.rt none := by
        rw [d.cellsLeft_eq_cons hmi hcell]
        exact List.mem_cons_self
      refine ⟨hturn.loaded slot hmem, fun hent => ?_⟩
      exact (List.nodup_append.mp hturn.once).2.2 _ hent _ (List.mem_map_of_mem hmem) rfl
  · cases h : d.selfOnly with
    | true =>
      rw [step_tauSelf h]
      exact (hself List.mem_cons_self h).goesOn hwf.heap
    | false =>
      rw [step_tauSubtree h]
      exact (hvec List.mem_cons_self h).goesOn
  · show retListener s k d e bytes ≠ .undef
    unfold retListener
    cases h : d.selfOnly with
    | true =>
      have hstands := (hself List.mem_cons_self h).stands e rfl
      obtain ⟨me, hme⟩ := (hwf.heap.loaded hstands).exists_mods
      have hme : s.rt.mods e = some me := hme
      have hrt : ((s.writeBuf d.retp bytes).lastPublish (d.ran + 1) d.retp d.reg).rt = s.rt :=
        (State.still_writeBuf ..).rt
      simp [hrt, hme]
    | false => simp
  · have hstep := Step.of_step hs
    cases hstep with
    | dispatchEnd hend =>
      cases h : d.selfOnly with
      | true =>
        rw [h, if_pos rfl] at hend
        rw [Dispatch.toCome, if_pos h, Dispatch.modsLeft, hend]
        rfl
      | false =>
        rw [h, if_neg (by simp)] at hend
        rw [Dispatch.toCome, if_neg (by simp [h]),
          (hvec List.mem_cons_self h).cellsLeft_nil hend]
        rfl

/-- In a run that heeds this, every dispatch calls the listeners that it started with
as long as they are loaded, each once, and reads nothing that has been freed. -/
theorem takesTurns_of_turnsKept (h : ReachableBy w (TurnsKept w) c) : c.TakesTurns w :=
  (inTurns_of_turnsKept h).takesTurns (.of_reachable h)

end

/-! ## A listener that changes the modules -/

/-- A third module. -/
def sampleFile'' : CStr := ⟨[99], by decide⟩

/-- What the dispatch on top has entered. -/
def Config.entered (c : Config) : List EntryRef :=
  match c.stack with
  | .dispatch d _ :: _ => d.entered
  | _ => []

/-- Two modules, and a dispatch whose first listener loads a third and dispatches the
hook again. -/
def loadInside : List Action :=
  [.call (.areg sampleHook 0)] ++ loadRun sampleFile 1 ++ loadRun sampleFile' 2
    ++ [.call (.call none (some 0) false), .tau] ++ loadRun sampleFile'' 3
    ++ [.call (.call none (some 0) false), .tau, .ret (.listened []), .tau, .ret (.listened []),
      .tau, .ret (.listened []), .tau]

/-- Three modules, and a dispatch whose first listener unloads its own module and
dispatches the hook again. -/
def unloadInside : List Action :=
  [.call (.areg sampleHook 0)] ++ loadRun sampleFile 1 ++ loadRun sampleFile' 2
    ++ loadRun sampleFile'' 3
    ++ [.call (.call none (some 0) false), .tau, .call (.unload sampleFile), .tau,
      .call (.call none (some 0) false), .tau, .ret (.listened []), .tau, .ret (.listened []), .tau]

/-- The new vector begins like the old one, in the same array. -/
theorem takesTurns_of_load_inside :
    let c := runChecked sampleWorld (TurnsKept sampleWorld) (Config.boot sampleHook)
      (loadInside ++ [.ret (.listened []), .tau])
    c.entered = [0, 1] ∧ c.TakesTurns sampleWorld := by
  intro c
  have hreach : ReachableBy sampleWorld (TurnsKept sampleWorld) c :=
    ReachableBy.checked (.start (Config.boot_initial _)) _
  exact ⟨by decide +kernel, takesTurns_of_turnsKept hreach⟩

/-- The new vector has the third module where the old one had the second: the first
dispatch enters the third module twice, and the second not at all. -/
theorem not_takesTurns_of_unload_inside :
    let c := (Config.boot sampleHook).after sampleWorld
      (unloadInside ++ [.ret (.listened []), .tau, .ret (.listened []), .tau])
    Reachable sampleWorld c ∧ c.st.rt.Loaded 1 ∧ c.entered = [0, 2, 2]
      ∧ ¬ c.TakesTurns sampleWorld := by
  intro c
  have hentered : c.entered = [0, 2, 2] := by decide +kernel
  refine ⟨ReachableBy.after (.start (Config.boot_initial _)) fun _ _ _ => trivial,
    by decide +kernel, hentered, fun h => ?_⟩
  obtain ⟨d, run, k, hstack⟩ : ∃ d run k, c.stack = .dispatch d run :: k := by
    unfold Config.entered at hentered
    split at hentered
    · next d run k hstack => exact ⟨d, run, k, hstack⟩
    · cases hentered
  have honce := h.once d run (hstack ▸ List.mem_cons_self)
  rw [Config.entered, hstack] at hentered
  have hent : d.entered = [0, 2, 2] := hentered
  rw [hent] at honce
  exact absurd honce (by decide)

end Xylem
