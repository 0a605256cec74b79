import Xylem.DispatchTurns
import Xylem.ReloadPlace

/-!
# Dispatches stay in their subtree

A dispatch calls listeners of the modules in the region of its caller and below, and an
exact-region dispatch those of the region itself.  The vectors that it walks were built from
lists that may have changed since, and listeners change them while it walks.

* `HomesKept`: what the steps heed.  A reload puts the entry that it finds back into the
  region that the entry is in.
* `Config.Scoped`: what the dispatches in progress and the hook vectors hold is inside.
* `confined_of_homesKept`: whatever listeners, handlers and installs do, a listener is called
  only for a module of the subtree, and stays there while it runs.
-/

namespace Xylem

open Xylem.Runtime

/-- A reload puts the entry that it finds back into the region that the entry is in. -/
def HomesKept (w : World) (c : Config) (a : Action) : Prop :=
  match a, c.stack with
  | .tau, .reload rl (.loaded _) :: _ =>
    ∀ e ∈ c.st.rt.modHd.lookup (rl.key w), ∀ r ∈ rl.re, ∀ r' ∈ c.st.rt.home e, r' = r
  | _, _ => True

instance (w : World) (c : Config) (a : Action) : Decidable (HomesKept w c a) := by
  unfold HomesKept
  generalize c.stack = k
  induction a using Action.casesOn with
  | call q => infer_instance
  | ret v => infer_instance
  | tau =>
    induction k using List.casesOn with
    | nil => infer_instance
    | cons f k =>
      induction f using Frame.casesOn with
      | reload rl pc => induction pc using ReloadPc.casesOn <;> infer_instance
      | _ => infer_instance

/-- The regions whose modules a dispatch may call. -/
def Dispatch.scope (d : Dispatch) (rt : Runtime) : List RegionRef :=
  if d.selfOnly then [d.caller] else rt.subtree d.caller

/-- A listener is called for a module of the scope, and its module stays there. -/
structure Config.Confined (w : World) (c : Config) : Prop where
  enters : ∀ d k, c.stack = .dispatch d none :: k → ∀ c' e cb,
    step w c .tau = .next c' (.enterListener e cb) →
      ∃ r ∈ d.scope c.st.rt, c.st.rt.home e = some r
  stays : ∀ d e, .dispatch d (some e) ∈ c.stack → ∀ r, c.st.rt.home e = some r →
    r ∈ d.scope c.st.rt

/-! ## What is inside -/

/-- The entry has been linked in one of the regions, and is there if it still lives. -/
def Runtime.Within (rt : Runtime) (l : List RegionRef) (e : EntryRef) : Prop :=
  rt.Settled e ∧ ∀ r, rt.home e = some r → r ∈ l

/-- What a dispatch is at. -/
def Frame.Scoped (rt : Runtime) : Frame → Prop
  | .dispatch d run =>
    (∀ e ∈ run, rt.Within (d.scope rt) e) ∧
      (d.selfOnly = true → ∀ e ∈ d.cursor run, rt.Within (d.scope rt) e)
  | _ => True

/-- What the dispatches in progress and those to come are at. -/
structure Config.Scoped (c : Config) : Prop where
  frames : ∀ f ∈ c.stack, f.Scoped c.st.rt
  cells : ∀ r < c.st.rt.nregions, ∀ k, ∀ cell ∈ (c.st.rt.hookVec r k).cells,
    c.st.rt.Within (c.st.rt.subtree r) cell.me

section

variable {w : World} {c c' : Config} {a : Action} {ev : Event} {rt rt' : Runtime}
  {f : Frame} {d : Dispatch} {run : Option EntryRef} {x e : EntryRef} {me : ModEntry}
  {r : RegionRef} {l l' : List RegionRef}

/-! ## What a step keeps -/

/-- The chain of a region is kept. -/
theorem Runtime.RegionsKept.chain (ht : rt.tree.Wf) (h : rt.RegionsKept rt') {x : Nat}
    (hx : x < rt.nregions) : rt'.chain x = rt.chain x :=
  Forest.Links.anc_congr ht.forest hx fun y hy => h.parent y hy

/-- Subtrees only grow. -/
theorem Runtime.RegionsKept.subtree (ht : rt.tree.Wf) (ht' : rt'.tree.Wf)
    (h : rt.RegionsKept rt') {r : Nat} (hr : r < rt.nregions) : rt.subtree r ⊆ rt'.subtree r := by
  intro x hx
  obtain ⟨hlt, hin⟩ := (mem_subtree_iff ht hr).mp hx
  refine (mem_subtree_iff ht' (Nat.lt_of_lt_of_le hr h.count)).mpr ⟨Nat.lt_of_lt_of_le hlt h.count, ?_⟩
  rw [h.chain ht hlt]
  exact hin

/-- A linked entry changes its region only in a reload. -/
theorem Effect.home_of_settled (hok : HomesKept w c a) (h : Effect w c a rt')
    (hs : c.st.rt.Settled x) (hr : rt'.home x = some r) : c.st.rt.home x = some r := by
  obtain ⟨me', hx, hre⟩ := Option.bind_eq_some_iff.mp hr
  rcases h.entry hx with ⟨tx, k, -, -, -, rfl, -⟩ | ⟨me, hme, hch⟩
  · exact absurd hs.1 (Nat.lt_irrefl _)
  · have hlinked := hs.2 me hme
    have hhome := home_of_mods hme
    have hre : me'.core.regionEntry = some r := hre
    rw [hhome]
    generalize me'.core = m at hch hre
    cases hch with
    | same | refcount | bind | rekey => exact hre
    | link ha hstack hx hun => exact absurd hun hlinked
    | @reinsert rl k r' ha hstack hl hre' =>
      subst ha
      unfold HomesKept at hok
      rw [hstack] at hok
      obtain ⟨r₀, hr₀⟩ := Option.ne_none_iff_exists'.mp hlinked
      rw [hr₀, hok x hl r' hre' r₀ (hhome.trans hr₀)]
      exact hre

/-- What is inside stays inside. -/
theorem Effect.within (hwf : c.Wf w) (hok : HomesKept w c a) (h : Effect w c a rt')
    (hl : l ⊆ l') (hx : c.st.rt.Within l x) : rt'.Within l' x :=
  ⟨h.settled hwf hx.1, fun r hr => hl (hx.2 r (h.home_of_settled hok hx.1 hr))⟩

/-- The scope of a dispatch only grows. -/
theorem Effect.scope_le (hwf : c.Wf w) (h : Effect w c a rt') (hne : a ≠ .call .shutdown)
    (hd : d.caller < c.st.rt.nregions) : d.scope c.st.rt ⊆ d.scope rt' := by
  unfold Dispatch.scope
  split
  · exact List.Subset.refl _
  · exact (h.kept hne).subtree hwf.tree (h.tree hwf) hd

/-- What a list holds is inside. -/
theorem Runtime.HeapWf.within (hheap : rt.HeapWf) (hx : x ∈ rt.modsOf r) (hr : r ∈ l) :
    rt.Within l x := by
  refine ⟨hheap.settled hx, fun r' hr' => ?_⟩
  rw [hheap.mem_iff.mp hx] at hr'
  exact Option.some.inj hr' ▸ hr

/-- The exact-region loop goes on inside. -/
theorem Runtime.Within.next (hheap : rt.HeapWf) (hx : rt.Within l e) (hme : rt.mods e = some me)
    (hn : rt.regionNext e me = some x) : rt.Within l x := by
  obtain ⟨r, hre, hn⟩ := Option.bind_eq_some_iff.mp hn
  rw [Runtime.nextIn_eq] at hn
  have hin := Cursor.mem_of_ahead (List.mem_of_head? hn)
  exact hheap.within hin (hx.2 r ((home_of_mods hme).trans hre))

/-- The vectors stay in their subtrees: what a rebuild lists is in the subtree. -/
theorem Effect.cellsScoped (hwf : c.Wf w) (hl : c.st.rt.SubtreeLists) (hok : HomesKept w c a)
    (hin : c.Scoped) (h : Effect w c a rt') {r : Nat} (hr : r < rt'.nregions) {k : Nat}
    {cell : DispatchSlot} (hcell : cell ∈ (rt'.hookVec r k).cells) :
    rt'.Within (rt'.subtree r) cell.me := by
  rcases h.regionsKept with ⟨-, rfl⟩ | hkept
  · rw [hookVec_of_nil rfl] at hcell
    cases hcell
  obtain ⟨hlt, hcell⟩ := h.cell_origin hwf hr hcell
  refine h.within hwf hok (hkept.subtree hwf.tree (h.tree hwf) hlt) ?_
  rcases hcell with hold | ⟨name, q, -, -, -, -, hnew⟩
  · exact hin.cells r hlt k cell hold
  · have hmem := mem_listing hnew
    rw [walked_eq hwf.tree hl hlt, List.mem_flatMap] at hmem
    obtain ⟨y, hy, hmem⟩ := hmem
    exact hwf.heap.within hmem hy

/-! ## Steps -/

/-- The dispatches in progress stay inside. -/
theorem Frame.Scoped.keep (hwf : c.Wf w) (hok : HomesKept w c a) (h : Effect w c a rt')
    (hne : a ≠ .call .shutdown) (hf : f ∈ c.stack) (hin : f.Scoped c.st.rt) : f.Scoped rt' := by
  cases f with
  | load | unload | reload | scope | each => trivial
  | dispatch d run =>
    have hle := h.scope_le hwf hne (hwf.stack.ok _ hf).1
    exact ⟨fun e he => h.within hwf hok hle (hin.1 e he),
      fun hself e he => h.within hwf hok hle (hin.2 hself e he)⟩

/-- A dispatch that is at its loop, and at no entry outside. -/
theorem Frame.Scoped.atLoop (h : d.selfOnly = true → ∀ e ∈ d.me, rt.Within (d.scope rt) e) :
    (Frame.dispatch d none).Scoped rt :=
  ⟨fun _ he => (by cases he), h⟩

/-- A dispatch that is in a listener inside. -/
theorem Frame.Scoped.inListener (h : rt.Within (d.scope rt) e) :
    (Frame.dispatch d (some e)).Scoped rt := by
  have hall : ∀ x ∈ some e, rt.Within (d.scope rt) x := fun x hx => Option.some.inj hx ▸ h
  exact ⟨hall, fun _ => hall⟩

theorem Config.Scoped.start (hwf : c.Wf w) {retp : Option BufRef} {reg : Option AdapterRef}
    {selfOnly : Bool} {s : State}
    (hd : dispatchBegin w c.st retp reg selfOnly = some (.loop s d)) :
    (Frame.dispatch d none).Scoped s.rt := by
  have hstart := dispatchBegin_loop hd
  refine .atLoop fun hself x hx => ?_
  obtain ⟨hrt, hme, -⟩ := hstart.self (hstart.selfOnly ▸ hself)
  rw [hme] at hx
  rw [hrt, Dispatch.scope, if_pos hself]
  exact hwf.heap.within (List.mem_of_head? hx) List.mem_cons_self

/-- The loop of a dispatch goes on inside. -/
theorem Step.loopScoped (hwf : c.Wf w) (hok : HomesKept w c a) (hin : c.Scoped)
    (h : Step w c a c' ev) (ha : a = .tau ∨ ∃ bytes, a = .ret (.listened bytes)) {d₀ : Dispatch}
    {run run₀ : Option EntryRef} {k : List Frame} (hstack : c.stack = .dispatch d₀ run₀ :: k)
    (hstack' : c'.stack = .dispatch d run :: k) : (Frame.dispatch d run).Scoped c'.st.rt := by
  have heff := h.effect hwf
  have hdown : a ≠ .call .shutdown := by rcases ha with rfl | ⟨bytes, rfl⟩ <;> rintro ⟨⟩
  have hat : (Frame.dispatch d₀ run₀).Scoped c.st.rt :=
    hin.frames _ (hstack ▸ List.mem_cons_self)
  have hlt : d₀.caller < c.st.rt.nregions := (hwf.top hstack).1
  have hstay : ∀ {x}, c.st.rt.Within (d₀.scope c.st.rt) x →
      c'.st.rt.Within (d₀.scope c'.st.rt) x :=
    fun hx => heff.within hwf hok (heff.scope_le hwf hdown hlt) hx
  obtain ⟨s, stack⟩ := c
  obtain rfl : stack = _ := hstack
  rcases ha with rfl | ⟨bytes, rfl⟩
  · cases h with
    | dispatchEnd => cases hstack'
    | selfSkip hself he hme =>
      cases hstack'
      exact .atLoop fun _ x hx => hstay ((hat.2 hself _ he).next hwf.heap hme hx)
    | selfDeaf hself he hme =>
      cases hstack'
      exact .atLoop fun _ x hx => hstay ((hat.2 hself _ he).next hwf.heap hme hx)
    | selfEnter hself he =>
      cases hstack'
      exact .inListener (hstay (hat.2 hself _ he))
    | slotSkip hself =>
      cases hstack'
      exact .atLoop fun hself' => absurd hself' (by simp [hself])
    | @slotEnter _ _ _ d' slot me ctx s' hself hmi hslots hcell hme hc hcb hd' =>
      have hcellIn := hin.cells d₀.caller hlt d₀.hookId slot (List.mem_of_getElem? hcell)
      have hscope : d₀.scope s.rt = s.rt.subtree d₀.caller := if_neg (by simp [hself])
      subst hd'
      cases hstack'
      exact .inListener (hstay (hscope ▸ hcellIn))
  · cases h with
    | selfListened hself hme =>
      cases hstack'
      exact .atLoop fun _ x hx => hstay ((hat.1 _ rfl).next hwf.heap hme hx)
    | slotListened hself =>
      cases hstack'
      exact .atLoop fun hself' => absurd hself' (by simp [hself])

/-- After every step, the dispatches in progress are inside. -/
theorem Step.scoped (hwf : c.Wf w) (hok : HomesKept w c a) (hin : c.Scoped)
    (h : Step w c a c' ev) : ∀ f ∈ c'.stack, f.Scoped c'.st.rt := by
  have heff := h.effect hwf
  by_cases hdown : a = .call .shutdown
  · subst hdown
    cases h with
    | shutdown => exact fun f hf => (List.not_mem_nil hf).elim
    | answered => exact hin.frames
    | direct hw hq => cases hq
  intro f hf
  cases f with
  | load | unload | reload | scope | each => trivial
  | dispatch d run =>
    rcases h.dispatch_origin hf with hmem | ⟨rfl, retp, reg, selfOnly, rfl, -, hbegin⟩
      | ⟨rfl, d₀, k, hstack, hstack'⟩ | ⟨d₀, e, bytes, k, rfl, hstack, hstack'⟩
    · exact (hin.frames _ hmem).keep hwf hok heff hdown hmem
    · exact Config.Scoped.start hwf hbegin
    · exact h.loopScoped hwf hok hin (Or.inl rfl) hstack hstack'
    · exact h.loopScoped hwf hok hin (Or.inr ⟨bytes, rfl⟩) hstack hstack'

theorem scoped_of_homesKept (h : ReachableBy w (HomesKept w) c) : c.Scoped := by
  refine h.invariant_cells Config.Scoped (fun c hc => ?_)
    fun c a c' ev hwf hl _ hin hok hstep => ?_
  · obtain ⟨ctxs, adapters, mem, rfl⟩ := hc
    refine ⟨fun f hf => (List.not_mem_nil hf).elim, fun r _ k cell hcell => ?_⟩
    rw [hookVec_of_nil rfl] at hcell
    cases hcell
  · exact ⟨hstep.scoped hwf hok hin,
      fun r hr k cell hcell => (hstep.effect hwf).cellsScoped hwf hl hok hin hr hcell⟩

/-- What lives inside is linked inside. -/
theorem Runtime.Within.home (h : rt.Within l e) (hme : rt.mods e = some me) :
    ∃ r ∈ l, rt.home e = some r := by
  obtain ⟨r, hr⟩ := Option.ne_none_iff_exists'.mp (h.1.2 me hme)
  have hhome : rt.home e = some r := (home_of_mods hme).trans hr
  exact ⟨r, h.2 r hhome, hhome⟩

/-- In a run whose reloads put entries back where they are, a dispatch calls listeners of the
subtree of its caller only, and an exact-region dispatch those of its region only, whatever
module code does in between. -/
theorem confined_of_homesKept (h : ReachableBy w (HomesKept w) c) : c.Confined w := by
  have hwf := Config.Wf.of_reachable (h.mono fun _ _ _ => trivial)
  have hin := scoped_of_homesKept h
  refine ⟨fun d k hstack c' e cb hs => ?_, fun d e hd r hr => ((hin.frames _ hd).1 e rfl).2 r hr⟩
  obtain ⟨s, stack⟩ := c
  obtain rfl : stack = _ := hstack
  cases Step.of_step hs with
  | selfEnter hself he hme => exact ((hin.frames _ List.mem_cons_self).2 hself e he).home hme
  | @slotEnter _ _ _ _ slot me ctx s' hself hmi hslots hcell hme =>
    have hat := hin.cells d.caller (hwf.top rfl).1 d.hookId slot (List.mem_of_getElem? hcell)
    rw [Dispatch.scope, if_neg (by simp [hself])]
    exact hat.home hme

end

/-- Two regions beside each other with a module each, and a dispatch from the second whose
listener goes to the first and dispatches the hook there. -/
def siblingsRun : List Action :=
  [.call (.areg sampleHook 0), .call (.claimAt 0x1000000000000 16 none)] ++ loadRun sampleFile 1
    ++ [.call (.claimAt 0x2000000000000 16 none)] ++ loadRun sampleFile' 2
    ++ [.call (.call none (some 0) false), .tau, .call (.withRegion 0x1000000000000 16 true),
      .call (.call none (some 0) false), .tau]

/-- Each dispatch calls the module of its own region. -/
theorem confined_of_siblings :
    let c := runChecked sampleWorld (HomesKept sampleWorld) (Config.boot sampleHook) siblingsRun
    c.stack.length = 3 ∧ c.entered = [0] ∧ c.st.rt.home 0 = some 1 ∧ c.st.rt.home 1 = some 2
      ∧ c.Confined sampleWorld := by
  intro c
  exact ⟨by decide +kernel, by decide +kernel, by decide +kernel, by decide +kernel,
    confined_of_homesKept (ReachableBy.checked (.start (Config.boot_initial _)) _)⟩

end Xylem
