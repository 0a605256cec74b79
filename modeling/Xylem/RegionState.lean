import Xylem.Calls

/-!
# The region state in the context of a listener

`xy_dispatch` stores the region state of a module entry into the context of its
shared object just before it calls the listener, and does not store back what was
there.  Two entries of one object share the context, so that a listener that
dispatches to another instance of its own object finds the state of that instance
when the dispatch returns.

`StatesOwn` says that every listener that runs has the state of its own entry in
its context, and `InjectsOwn` what a dispatch has to heed as it enters a listener.
-/

namespace Xylem

open Xylem.Runtime

/-- The entry whose listener has not returned. -/
def Frame.running : Frame → Option EntryRef
  | .dispatch _ e => e
  | _ => none

/-- The listener that the next round of a dispatch calls. -/
def Dispatch.upcoming (w : World) (rt : Runtime) (d : Dispatch) : Option EntryRef :=
  if d.selfOnly then
    d.me.filter fun e => (rt.mods e).any fun me =>
      !rt.moduleDeniedByAncestors d.anc me.loadPath
        && (me.resolved w d.hookId d.name).hasHookImplemented d.hookId
  else if d.mi < d.n then
    ((rt.hookVec d.caller d.hookId).cells[d.mi]?.filter (slotListens rt)).map (·.me)
  else none

/-- A dispatch enters a listener only if every other listener that runs in the same
context is of an entry with the same region state. -/
def InjectsOwn (w : World) (c : Config) (a : Action) : Prop :=
  match c.stack, a with
  | .dispatch d none :: k, .tau =>
    ∀ e ∈ d.upcoming w c.st.rt, ∀ me ∈ c.st.rt.mods e, ∀ f ∈ k, ∀ x ∈ f.running,
      ∀ mx ∈ c.st.rt.mods x, mx.ctx = me.ctx → mx.regionState = me.regionState
  | _, _ => True

instance (w : World) (c : Config) (a : Action) : Decidable (InjectsOwn w c a) := by
  unfold InjectsOwn
  generalize c.stack = k
  induction k using List.casesOn with
  | nil => infer_instance
  | cons f k =>
    induction f using Frame.casesOn with
    | dispatch d running =>
      induction running using Option.casesOn <;> induction a using Action.casesOn <;> infer_instance
    | _ => infer_instance

/-- Every listener that runs has the state of its own entry. -/
def StatesOwn (c : Config) : Prop :=
  ∀ f ∈ c.stack, ∀ e ∈ f.running, ∀ me, c.st.rt.mods e = some me →
    ∀ ctx ∈ me.ctx, (c.st.ctxs ctx).regionState = me.regionState

/-- The entries of a dispatch have been linked. -/
def Frame.Listed (rt : Runtime) : Frame → Prop
  | .dispatch d running =>
    (∀ e ∈ running, rt.Settled e) ∧ (d.selfOnly = true → ∀ e ∈ d.me, rt.Settled e)
  | _ => True

section

variable {w : World} {c c' : Config} {a : Action} {ev : Event} {rt rt' : Runtime} {x : EntryRef}

theorem Frame.Listed.keep (hwf : c.Wf w) (h : Effect w c a rt') {f : Frame}
    (hf : f.Listed c.st.rt) : f.Listed rt' := by
  cases f with
  | dispatch d running =>
    exact ⟨fun e he => h.settled hwf (hf.1 e he),
      fun hself e he => h.settled hwf (hf.2 hself e he)⟩
  | load | unload | reload | scope | each => trivial

/-- The entry after one in the list of a region. -/
theorem Runtime.HeapWf.settled_next (h : rt.HeapWf) {e : EntryRef} {me : ModEntry} :
    ∀ x ∈ rt.regionNext e me, rt.Settled x := by
  intro x hx
  obtain ⟨r, -, hnext⟩ := Option.bind_eq_some_iff.mp hx
  exact h.settled (r := r) (mem_of_nextIn hnext)

/-- The entries of a loop that goes on have been linked. -/
theorem Step.loopListed (hwf : c.Wf w) (hcells : c.st.rt.CellsSettled)
    (h : Step w c a c' ev) (ha : a = .tau ∨ ∃ bytes, a = .ret (.listened bytes))
    {d d₀ : Dispatch} {run run₀ : Option EntryRef} {k : List Frame}
    (hstack : c.stack = .dispatch d₀ run₀ :: k) (hstack' : c'.stack = .dispatch d run :: k)
    (hdis : Frame.Listed c'.st.rt (.dispatch d₀ run₀)) :
    Frame.Listed c'.st.rt (.dispatch d run) := by
  have heff := h.effect hwf
  have hlt : d₀.caller < c.st.rt.nregions := (hwf.top hstack).1
  obtain ⟨s, stack⟩ := c
  obtain rfl : stack = _ := hstack
  rcases ha with rfl | ⟨bytes, rfl⟩
  · cases h with
    | dispatchEnd => cases hstack'
    | selfSkip | selfDeaf =>
      cases hstack'
      exact ⟨fun e he => (by cases he),
        fun _ x hx => heff.settled hwf (hwf.heap.settled_next x hx)⟩
    | selfEnter hself he =>
      cases hstack'
      refine ⟨fun x hx => ?_, hdis.2⟩
      cases hx
      exact hdis.2 hself _ he
    | slotSkip =>
      cases hstack'
      exact hdis
    | @slotEnter _ _ _ d' slot me ctx s' hself hmi hslots hcell hme hc hcb hd' =>
      subst hd'
      cases hstack'
      refine ⟨fun x hx => ?_, fun hf => absurd (hself.symm.trans hf) (by simp)⟩
      cases hx
      exact heff.settled hwf (hcells d₀.caller hlt d₀.hookId slot (List.mem_of_getElem? hcell))
  · cases h with
    | selfListened =>
      cases hstack'
      exact ⟨fun e he => (by cases he),
        fun _ x hx => heff.settled hwf (hwf.heap.settled_next x hx)⟩
    | slotListened =>
      cases hstack'
      exact ⟨fun e he => (by cases he), hdis.2⟩

/-- After every step, the entries of all dispatches have been linked. -/
theorem Step.listed (hwf : c.Wf w) (hcells : c.st.rt.CellsSettled)
    (hin : ∀ f ∈ c.stack, f.Listed c.st.rt) (h : Step w c a c' ev) :
    ∀ f ∈ c'.stack, f.Listed c'.st.rt := by
  have heff := h.effect hwf
  have hold : ∀ f ∈ c.stack, f.Listed c'.st.rt := fun f hf => (hin f hf).keep hwf heff
  intro f hf
  cases f with
  | load | unload | reload | scope | each => trivial
  | dispatch d run =>
    rcases h.dispatch_origin hf with hmem | ⟨rfl, retp, reg, selfOnly, rfl, -, hbegin⟩
      | ⟨rfl, d₀, k, hstack, hstack'⟩ | ⟨d₀, e, bytes, k, rfl, hstack, hstack'⟩
    · exact hold _ hmem
    · have hstart := dispatchBegin_loop hbegin
      refine ⟨fun e he => (by cases he), fun hself e he => ?_⟩
      obtain ⟨hrt, hme, -⟩ := hstart.self (hstart.selfOnly.symm.trans hself)
      have hmem : e ∈ c'.st.rt.modsOf d.caller := by
        rw [hrt]
        exact List.mem_of_mem_head? (hme.symm.trans he)
      exact (heff.heap hwf).settled hmem
    · exact h.loopListed hwf hcells (Or.inl rfl) hstack hstack'
        (hold _ (hstack ▸ List.mem_cons_self))
    · exact h.loopListed hwf hcells (Or.inr ⟨bytes, rfl⟩) hstack hstack'
        (hold _ (hstack ▸ List.mem_cons_self))

/-- A listener that is entered is the upcoming one, and finds its own state. -/
theorem Step.enters_upcoming {d d' : Dispatch} {k : List Frame} {e : EntryRef}
    (h : Step w c a c' ev) (ha : a = .tau) (hstack : c.stack = .dispatch d none :: k)
    (hstack' : c'.stack = .dispatch d' (some e) :: k) :
    d.upcoming w c.st.rt = some e ∧ ∀ me, c'.st.rt.mods e = some me → ∀ ctx ∈ me.ctx,
      (c'.st.ctxs ctx).regionState = me.regionState := by
  have hne : ∀ (f : Frame), k ≠ f :: k := fun f hf => by
    have := congrArg List.length hf
    simp at this
  cases h with
  | load | unload | reload | scope | eachFirst | answered | direct | dispatchDone | dispatchLoop
  | shutdown => cases ha
  | dlopenFailed | dlopened | reuse | publish | bind | claimFlat | claimRefused | claimAsked
  | notGranted | granted | rekey | link | installMissing | install | installed | abort | cascadeSkip
  | cascade | remove | reloadLoad | reinsert | reloadEnd | selfListened | slotListened | scopeEnd
  | eachNext | eachEnd => cases hstack
  | dispatchEnd =>
    cases hstack
    exact absurd hstack' (hne _)
  | selfSkip | selfDeaf | slotSkip => cases hstack'
  | @selfEnter s k d x me ctx s' hself he hme hc hd hh hs' =>
    cases hstack
    cases hstack'
    refine ⟨?_, fun me' hme' ctx' hctx' => ?_⟩
    · unfold Dispatch.upcoming
      rw [if_pos hself, he]
      simp [hme, hd, hh]
    · subst hs'
      have hmods : (s.rt.modifyMod e fun _ => me.resolved w d.hookId d.name).mods e = some me' := hme'
      simp only [modifyMod, Function.update_self, hme, Option.map_some, Option.some.injEq] at hmods
      subst hmods
      have hcore : (me.resolved w d.hookId d.name).core = me.core := me.core_resolved ..
      have hsame : (me.resolved w d.hookId d.name).core.ctx = some ctx := by
        rw [hcore]
        exact hc
      have hctx : some ctx = some ctx' := hsame.symm.trans hctx'
      cases hctx
      simp [injectCtx]
  | @slotEnter s k d₀ d₁ slot me ctx s' hself hmi hslots hcell hme hc hcb hd' hs' =>
    cases hstack
    cases hstack'
    refine ⟨?_, fun me' hme' ctx' hctx' => ?_⟩
    · unfold Dispatch.upcoming
      rw [if_neg (by simp [hself]), if_pos hmi, hcell]
      simp [slotListens, hme, hc, hcb]
    · subst hs'
      have hswitch : (d₁.switch (injectCtx s ctx d.reg me) ctx me).rt = s.rt
          ∧ (d₁.switch (injectCtx s ctx d.reg me) ctx me).ctxs
            = (injectCtx s ctx d.reg me).ctxs := by
        unfold Dispatch.switch
        split <;> exact ⟨rfl, rfl⟩
      rw [hswitch.1, hme] at hme'
      cases hme'
      rw [hc] at hctx'
      cases hctx'
      rw [hswitch.2]
      simp [injectCtx]

/-- A listener that runs after a step ran before, or is entered by it. -/
theorem Step.running (h : Step w c a c' ev) :
    (∃ d d' k e, a = .tau ∧ c.stack = .dispatch d none :: k
        ∧ c'.stack = .dispatch d' (some e) :: k)
      ∨ ∀ f ∈ c'.stack, ∀ e ∈ f.running, ∃ g ∈ c.stack, e ∈ g.running := by
  by_cases henter : ∃ d d' k e, a = .tau ∧ c.stack = .dispatch d none :: k
      ∧ c'.stack = .dispatch d' (some e) :: k
  · exact Or.inl henter
  refine Or.inr fun f hf e he => ?_
  cases f with
  | load | unload | reload | scope | each => cases he
  | dispatch d run =>
    obtain rfl : run = some e := he
    rcases h.dispatch_origin hf with hmem | ⟨hrun, -⟩ | ⟨rfl, d₀, k, hstack, hstack'⟩
      | ⟨d₀, e₀, bytes, k, rfl, hstack, hstack'⟩
    · exact ⟨_, hmem, rfl⟩
    · cases hrun
    · exact absurd ⟨d₀, d, k, e, rfl, hstack, hstack'⟩ henter
    · obtain ⟨s, stack⟩ := c
      obtain rfl : stack = _ := hstack
      cases h with
      | selfListened | slotListened => cases hstack'

/-- The context of a listener that runs on. -/
theorem Step.runs_on (hwf : c.Wf w) (hin : ∀ f ∈ c.stack, f.Listed c.st.rt) (hok : InjectsOwn w c a)
    (hinv : StatesOwn c) (h : Step w c a c' ev) {g : Frame} (hg : g ∈ c.stack) (hx : x ∈ g.running)
    {mx : ModEntry} (hmx : c'.st.rt.mods x = some mx) :
    ∀ ctx ∈ mx.ctx, (c'.st.ctxs ctx).regionState = mx.regionState := by
  intro ctx hctx
  have hsettled : c.st.rt.Settled x := by
    cases g with
    | dispatch d running => exact (hin _ hg).1 x hx
    | load | unload | reload | scope | each => cases hx
  obtain ⟨me, hme, hctx', hstate, -⟩ := (h.effect hwf).settled_entry hsettled hmx
  rw [hctx'] at hctx
  have hown := hinv g hg x hx me hme ctx hctx
  rw [hstate]
  cases h.ctxs hwf with
  | same hctxs => rw [hctxs, hown]
  | @bind tx k e ctx₀ ha hstack he hctx₀ hrt hctxs =>
    rw [hctxs]
    by_cases hc : ctx = ctx₀
    · subst hc
      rw [Function.update_self]
      exact hown
    · rw [Function.update_of_ne hc, hown]
  | @rekey tx k child e me₀ ctx₀ ha hstack hl hme₀ hctx₀ hrt hctxs =>
    rw [hctxs]
    by_cases hc : ctx = ctx₀
    · subst hc
      rw [Function.update_self]
      exact hown
    · rw [Function.update_of_ne hc, hown]
  | @inject d d' k e me₀ ctx₀ ha hstack hstack' hme₀ hctx₀ hctxs =>
    rw [hctxs]
    by_cases hc : ctx = ctx₀
    · subst hc
      rw [Function.update_self]
      have hup := (h.enters_upcoming ha hstack hstack').1
      have hgk : g ∈ k := by
        rw [hstack] at hg
        rcases List.mem_cons.mp hg with rfl | hgk
        · cases hx
        · exact hgk
      subst ha
      unfold InjectsOwn at hok
      rw [hstack] at hok
      exact (hok e hup me₀ hme₀ g hgk x hx me hme (hctx.trans hctx₀.symm)).symm
    · rw [Function.update_of_ne hc, hown]

/-- In a run whose dispatches enter no listener in a context where one of another
region state runs, every listener has the state of its own module entry from its
entry to its return, nested dispatches included. -/
theorem statesOwn_of_injectsOwn (h : ReachableBy w (InjectsOwn w) c) : StatesOwn c := by
  have hboth : (∀ f ∈ c.stack, f.Listed c.st.rt) ∧ StatesOwn c := by
    refine h.invariant_cells (fun c => (∀ f ∈ c.stack, f.Listed c.st.rt) ∧ StatesOwn c)
      (fun c hc => ?_) fun c a c' ev hwf _ hcells ⟨hin, hinv⟩ hok hstep => ?_
    · obtain ⟨ctxs, adapters, mem, rfl⟩ := hc
      exact ⟨fun f hf => (List.not_mem_nil hf).elim, fun f hf => (List.not_mem_nil hf).elim⟩
    · refine ⟨hstep.listed hwf hcells hin, fun f hf x hx me hme => ?_⟩
      rcases hstep.running with ⟨d, d', k, e, ha, hstack, hstack'⟩ | hold
      · rw [hstack'] at hf
        rcases List.mem_cons.mp hf with rfl | hfk
        · cases hx
          exact (hstep.enters_upcoming ha hstack hstack').2 me hme
        · exact hstep.runs_on hwf hin hok hinv (hstack ▸ List.mem_cons_of_mem _ hfk) hx hme
      · obtain ⟨g, hg, hxg⟩ := hold f hf x hx
        exact hstep.runs_on hwf hin hok hinv hg hxg hme
  exact hboth.2

end

/-- A world in which every module has a region state. -/
def statefulWorld : World :=
  .ofObjects fun _ => { SharedObject.listener sampleHook with stateSize := some 8 }

/-- Two modules are loaded into nested regions, and the listener of the outer one
has dispatched the same hook once more. -/
def nestedListener (h h' : Handle) : List Action :=
  [.call (.areg sampleHook 0), .call (.claimAt 0x1000000000000 16 none)] ++ loadRun sampleFile h
    ++ [.call (.claimAt 0 0 none)] ++ loadRun sampleFile h'
    ++ [.call (.call none (some 0) false), .tau, .call (.call none (some 0) false), .tau,
      .ret (.listened []), .tau, .ret (.listened []), .tau]

/-- The modules are of two objects. -/
theorem statesOwn_of_two_objects :
    let c := runChecked statefulWorld (InjectsOwn statefulWorld) (Config.boot sampleHook)
      (nestedListener 1 2)
    (∃ f ∈ c.stack, f.running = some 1) ∧ StatesOwn c := by
  intro c
  exact ⟨by decide +kernel,
    statesOwn_of_injectsOwn (ReachableBy.checked (.start (Config.boot_initial _)) _)⟩

/-- The modules are of one object, and the inner dispatch has left the state of the
other region in the context that they share. -/
theorem not_statesOwn_of_one_object :
    ∃ c e me ctx, Reachable statefulWorld c ∧ (∃ f ∈ c.stack.head?, f.running = some e)
      ∧ c.st.rt.mods e = some me ∧ me.ctx = some ctx
      ∧ (c.st.ctxs ctx).regionState ≠ me.regionState := by
  let c := (Config.boot sampleHook).after statefulWorld (nestedListener 1 1)
  have hreach : Reachable statefulWorld c :=
    ReachableBy.after (.start (Config.boot_initial _)) fun _ _ _ => trivial
  obtain ⟨me, hme⟩ : ∃ me, c.st.rt.mods 1 = some me :=
    Option.isSome_iff_exists.mp (by decide +kernel)
  have hctx : ∀ me ∈ c.st.rt.mods 1, me.ctx = some 1 ∧ (c.st.ctxs 1).regionState ≠ me.regionState := by
    decide +kernel
  exact ⟨c, 1, me, 1, hreach, by decide +kernel, hme, hctx me hme⟩

end Xylem
