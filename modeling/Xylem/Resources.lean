import Xylem.HostWork
import Xylem.Lib.Tally
import Xylem.StateBlocks

/-!
# Handles and temporary copies

What the host has of the dynamic loader and of the file system: the handles that
`dlopen` gives it, and the copies that `copy_to_tmp` makes of a file that is reloaded.
`Resources` runs beside the machine, with the calls of `dlopen`, `dlclose`,
`copy_to_tmp` and `unlink` that the source makes at each step.

* `Config.held`: the handles that live entries and loads in progress have.
* `Resources.Keeps`: which load or entry has a copy.
* `sound_of_run`: no handle is closed more often than it was opened, and no copy is
  unlinked twice or while something keeps it.
* `complete_of_run`: nothing is left behind.
-/

namespace Xylem

open Xylem.Runtime

/-- What the host has of the loader and of the file system. -/
structure Resources where
  /-- `xy_reloading`. -/
  reloading : Bool
  /-- What `dlopen` has returned. -/
  opens : List Handle
  /-- What `dlclose` has been given. -/
  closes : List Handle
  /-- The copies made so far, which are numbered. -/
  copies : Nat
  /-- The copies unlinked so far. -/
  unlinks : List Nat
  /-- `tx->tmp_load_path` of each load in progress, the innermost first. -/
  txTmps : List (Option Nat)
  /-- `entry->tmp_load_path`. -/
  tmps : EntryRef → Option Nat

namespace Resources

/-- Before the first call. -/
def start : Resources :=
  { reloading := false, opens := [], closes := [], copies := 0, unlinks := [], txTmps := []
    tmps := fun _ => none }

/-- `tx->tmp_load_path` of the innermost load. -/
def txTmp (r : Resources) : Option Nat := r.txTmps.head?.join

/-- `stl_dlclose`. -/
def close (r : Resources) (h : Handle) : Resources := { r with closes := h :: r.closes }

/-- `unlink`, of a path that may be NULL. -/
def unlink (r : Resources) (tmp : Option Nat) : Resources :=
  { r with unlinks := tmp.toList ++ r.unlinks }

/-- The copy of an entry that is freed is unlinked. -/
def dropTmp (r : Resources) (e : EntryRef) : Resources :=
  { r.unlink (r.tmps e) with tmps := Function.update r.tmps e none }

/-- `mod_load_open_handle` up to `dlopen`. -/
def beginLoad (r : Resources) (copied : Bool) : Resources :=
  if r.reloading && copied then
    { r with copies := r.copies + 1, txTmps := some r.copies :: r.txTmps }
  else { r with txTmps := none :: r.txTmps }

/-- `_mod_load` returns, to `xy_reload` perhaps, which resets `xy_reloading`. -/
def endLoad (r : Resources) (k : List Frame) : Resources :=
  { r with
    reloading := match k with
      | .reload _ .loading :: _ => false
      | _ => r.reloading
    txTmps := r.txTmps.tail }

/-- What a step does, with `copied` for the result of `copy_to_tmp`. -/
def step (w : World) (copied : Bool) (c : Config) (a : Action) (r : Resources) : Resources :=
  match a, c.stack with
  | .call (.load _), _ => r.beginLoad copied
  | .tau, .reload _ (.unloaded ret) :: _ =>
    if ret = xyOk then { r with reloading := true }.beginLoad copied else r
  | .ret (.dlopened none), .load _ .opening :: k => (r.unlink r.txTmp).endLoad k
  | .ret (.dlopened (some h)), .load _ .opening :: _ => { r with opens := h :: r.opens }
  | .tau, .load tx .opened :: k =>
    match tx.lookup.entry with
    | some _ => ((r.close tx.handle).unlink r.txTmp).endLoad k
    | none =>
      { r with
        tmps := Function.update r.tmps c.st.rt.nmods r.txTmp
        txTmps := none :: r.txTmps.tail }
  | .ret .installed, .load _ (.installing _) :: k => r.endLoad k
  | .tau, .load tx (.aborting _) :: k =>
    let r := tx.modEntry.elim r r.dropTmp
    ((r.unlink r.txTmp).close tx.handle).endLoad k
  | .tau, .unload e [] :: _ =>
    match c.st.rt.mods e with
    | none => r
    | some me => (r.close me.handle).dropTmp e
  | .call .shutdown, _ =>
    let es := (c.st.rt.modHdValues w).filter fun e => (c.st.rt.mods e).isSome
    { r with
      closes := es.filterMap (fun e => (c.st.rt.mods e).map (·.handle)) ++ r.closes
      unlinks := es.filterMap r.tmps ++ r.unlinks
      tmps := fun _ => none }
  | _, _ => r

end Resources

/-- A configuration and its resources, from one step to the next. -/
def ResourceNext (w : World) (s : Config × Resources) (a : Action × Bool)
    (s' : Config × Resources) : Prop :=
  Next w s.1 a.1 s'.1 ∧ s'.2 = s.2.step w a.2 s.1 a.1

/-- The configurations with their resources of the runs whose steps meet `ok`. -/
abbrev ResourceReachable (w : World) (ok : Config × Resources → Action × Bool → Prop) :
    Config × Resources → Prop :=
  Run.ReachBy (fun s => s.1.Initial ∧ s.2 = .start) (ResourceNext w) ok

/-! ## What should hold -/

/-- The handle of an entry. -/
def Runtime.handleOf (rt : Runtime) (e : EntryRef) : Option Handle := (rt.mods e).map (·.handle)

/-- What a load in progress has: whether it has yet to allocate its entry, and the
handle that it has not given to an entry. -/
def Frame.mark : Frame → Option (Bool × Option Handle)
  | .load _ .opening => some (true, none)
  | .load tx .opened => some (true, some tx.handle)
  | .load _ _ => some (false, none)
  | _ => none

def marks (k : List Frame) : List (Bool × Option Handle) := k.filterMap Frame.mark

/-- How often a handle is held by entries and by loads in progress. -/
def Config.held (c : Config) (h : Handle) : Nat :=
  Tally.tally c.st.rt.handleOf c.st.rt.nmods h + ((marks c.stack).filterMap Prod.snd).count h

/-- What can keep a temporary copy: a load, which is known by the number of loads below
it, or an entry. -/
inductive Keeper where
  | load (depth : Nat)
  | entry (e : EntryRef)

def Resources.Keeps (r : Resources) : Keeper → Nat → Prop
  | .load i, b => r.txTmps.reverse[i]? = some (some b)
  | .entry e, b => r.tmps e = some b

/-- Nothing is given back twice, or while it is in use. -/
structure Resources.Sound (c : Config) (r : Resources) : Prop where
  closed : ∀ h, r.closes.count h + c.held h ≤ r.opens.count h
  unlinked : r.unlinks.Nodup
  one : ∀ x y b, r.Keeps x b → r.Keeps y b → x = y
  there : ∀ x b, r.Keeps x b → b ∉ r.unlinks

/-- All that is not in use has been given back. -/
structure Resources.Complete (c : Config) (r : Resources) : Prop where
  closed : ∀ h, r.opens.count h = r.closes.count h + c.held h
  unlinked : ∀ b < r.copies, b ∈ r.unlinks ∨ ∃ x, r.Keeps x b

section

variable {w : World} {c c' : Config} {a : Action} {ev : Event} {rt rt' : Runtime} {r r' : Resources}
  {s : State} {f : Frame} {k k' : List Frame} {e : EntryRef} {me : ModEntry}

/-! ## The handles of entries -/

theorem EntryChange.handle {x : EntryRef} {m : ModEntry} (h : EntryChange w c a x me m) :
    m.handle = me.handle := by
  cases h <;> rfl

/-- An entry that is live after a step and is not new has kept its handle. -/
theorem Effect.handleOf_some (h : Effect w c a rt') (he : e < c.st.rt.nmods) {x : Handle}
    (hx : rt'.handleOf e = some x) : c.st.rt.handleOf e = some x := by
  obtain ⟨me', hme', rfl⟩ := Option.map_eq_some_iff.mp hx
  rcases h.entry hme' with ⟨tx, k, -, -, -, rfl, -⟩ | ⟨me, hme, hch⟩
  · exact absurd he (Nat.lt_irrefl _)
  · rw [Runtime.handleOf, hme, Option.map_some]
    exact congrArg some hch.handle.symm

theorem handleOf_fresh (hheap : rt.HeapWf) (he : rt.nmods ≤ e) : rt.handleOf e = none := by
  rw [Runtime.handleOf, hheap.fresh he]
  rfl

/-- A step that neither frees nor allocates leaves the handles alone. -/
theorem Effect.handleOf_eq (hwf : c.Wf w) (h : Effect w c a rt') (hne : a ≠ .call .shutdown)
    (hstack : ∀ f k, a = .tau → c.stack = f :: k → f.frees = false ∧ f.opened = false)
    (e : EntryRef) : rt'.handleOf e = c.st.rt.handleOf e := by
  cases hold : c.st.rt.handleOf e with
  | none =>
    by_contra hnew
    obtain ⟨x, hx⟩ := Option.ne_none_iff_exists'.mp hnew
    obtain ⟨me', hme', -⟩ := Option.map_eq_some_iff.mp hx
    rcases h.entry hme' with ⟨tx, k, ha, hs, -⟩ | ⟨me, hme, -⟩
    · exact absurd (hstack _ k ha hs).2 (by simp [Frame.opened])
    · rw [Runtime.handleOf, hme] at hold
      cases hold
  | some x =>
    obtain ⟨me, hme, rfl⟩ := Option.map_eq_some_iff.mp hold
    have hlive := h.live hne (fun f k ha hs => (hstack f k ha hs).1) e (by simp [hme])
    obtain ⟨me', hme'⟩ := Option.ne_none_iff_exists'.mp hlive
    have hlt : e < c.st.rt.nmods := hwf.heap.lt_of_mods hme
    rw [← hold, h.handleOf_some hlt (x := me'.handle)]
    · rw [Runtime.handleOf, hme']
      rfl
    · rw [Runtime.handleOf, hme']
      rfl

/-! ## What a step does -/

/-- The entries and their handles are as before. -/
structure SameHandles (c c' : Config) : Prop where
  handleOf : ∀ e, c'.st.rt.handleOf e = c.st.rt.handleOf e
  nmods : c'.st.rt.nmods = c.st.rt.nmods

/-- The entry `e`, which has the handle `h`, is freed. -/
structure FreesHandle (c c' : Config) (e : EntryRef) (h : Handle) : Prop where
  had : c.st.rt.handleOf e = some h
  gone : c'.st.rt.handleOf e = none
  others : ∀ x ≠ e, c'.st.rt.handleOf x = c.st.rt.handleOf x
  nmods : c'.st.rt.nmods = c.st.rt.nmods

/-- What a step does with handles and copies. -/
inductive Uses (w : World) (copied : Bool) (c : Config) (a : Action) (r : Resources)
    (c' : Config) : Resources → Prop
  | idle (hm : marks c'.stack = marks c.stack) (hh : SameHandles c c') : Uses w copied c a r c' r
  | begins (b : Bool) (hm : marks c'.stack = (true, none) :: marks c.stack)
      (hh : SameHandles c c') : Uses w copied c a r c' ({ r with reloading := b }.beginLoad copied)
  | fails (k : List Frame) (hm : marks c.stack = (true, none) :: marks c'.stack)
      (hh : SameHandles c c') : Uses w copied c a r c' ((r.unlink r.txTmp).endLoad k)
  | opens {m : List (Bool × Option Handle)} (h : Handle) (hm : marks c.stack = (true, none) :: m)
      (hm' : marks c'.stack = (true, some h) :: m) (hh : SameHandles c c') :
      Uses w copied c a r c' { r with opens := h :: r.opens }
  | reuses (h : Handle) (k : List Frame) (hm : marks c.stack = (true, some h) :: marks c'.stack)
      (hh : SameHandles c c') :
      Uses w copied c a r c' (((r.close h).unlink r.txTmp).endLoad k)
  | publishes {m : List (Bool × Option Handle)} (h : Handle)
      (hm : marks c.stack = (true, some h) :: m) (hm' : marks c'.stack = (false, none) :: m)
      (hnew : c'.st.rt.handleOf c.st.rt.nmods = some h)
      (hold : ∀ e < c.st.rt.nmods, c'.st.rt.handleOf e = c.st.rt.handleOf e)
      (hn : c'.st.rt.nmods = c.st.rt.nmods + 1) :
      Uses w copied c a r c' { r with
        tmps := Function.update r.tmps c.st.rt.nmods r.txTmp
        txTmps := none :: r.txTmps.tail }
  | installs (k : List Frame) (hm : marks c.stack = (false, none) :: marks c'.stack)
      (hh : SameHandles c c') : Uses w copied c a r c' (r.endLoad k)
  | aborts (e : EntryRef) (h : Handle) (k : List Frame)
      (hm : marks c.stack = (false, none) :: marks c'.stack) (hh : FreesHandle c c' e h) :
      Uses w copied c a r c'
        ((((r.dropTmp e).unlink (r.dropTmp e).txTmp).close h).endLoad k)
  | frees (e : EntryRef) (h : Handle) (hm : marks c'.stack = marks c.stack)
      (hh : FreesHandle c c' e h) : Uses w copied c a r c' ((r.close h).dropTmp e)
  | shuts (ha : a = .call .shutdown) (hm : marks c.stack = []) (hm' : marks c'.stack = [])
      (hh : ∀ e, c'.st.rt.handleOf e = none) :
      Uses w copied c a r c' (r.step w copied c (.call .shutdown))

@[simp] theorem marks_cons (f : Frame) (k : List Frame) :
    marks (f :: k) = f.mark.toList ++ marks k := by
  cases h : f.mark <;> simp [marks, h]

theorem Resumed.marks (h : Resumed k k') : marks k' = marks k := by
  cases h <;> rfl

theorem resume_marks {ret : Int} (hr : resume s ret k = .next c' ev) :
    Xylem.marks c'.stack = Xylem.marks k := (resume_spec hr).2.marks

theorem Unloads.marks {fname : CStr} {id : RegionId} {plen : Nat}
    (h : Unloads w s fname id plen k c' ev) : Xylem.marks c'.stack = Xylem.marks k := by
  cases h with
  | notFound hl hr => exact resume_marks hr
  | shared hl hme href hr => exact resume_marks hr
  | cascade hl hme href => rfl

/-- The entry of a load in progress has the handle of the load. -/
def Frame.OwnHandle (rt : Runtime) : Frame → Prop
  | .load tx _ => ∀ e ∈ tx.modEntry, ∀ x ∈ rt.handleOf e, x = tx.handle
  | _ => True

theorem Effect.ownHandle (hwf : c.Wf w) (h : Effect w c a rt') (hf : f ∈ c.stack)
    (hown : f.OwnHandle c.st.rt) : f.OwnHandle rt' := by
  cases f with
  | load tx pc =>
    intro e he x hx
    have hok : tx.Ok w c.st.rt pc := hwf.stack.ok _ hf
    have hlt : e < c.st.rt.nmods := by
      cases hearly : pc.early with
      | true =>
        rw [hok.early hearly] at he
        cases he
      | false =>
        obtain ⟨e', he', hlt, -⟩ := hok.late hearly
        obtain rfl : e = e' := Option.some.inj (he.symm.trans he')
        exact hlt
    exact hown e he x (h.handleOf_some hlt hx)
  | unload | reload | dispatch | scope | each => trivial

theorem publish_handleOf (s : State) (tx : LoadTxn) :
    (modLoadAllocPublish s tx).1.rt.handleOf s.rt.nmods = some tx.handle
      ∧ (∀ e < s.rt.nmods, (modLoadAllocPublish s tx).1.rt.handleOf e = s.rt.handleOf e)
      ∧ (modLoadAllocPublish s tx).1.rt.nmods = s.rt.nmods + 1 := by
  refine ⟨?_, fun e he => ?_, rfl⟩
  · show (Function.update s.rt.mods s.rt.nmods _ s.rt.nmods).map _ = _
    rw [Function.update_self]
    rfl
  · show (Function.update s.rt.mods s.rt.nmods _ e).map _ = _
    rw [Function.update_of_ne (Nat.ne_of_lt he)]
    rfl

theorem Step.ownHandle (hwf : c.Wf w) (h : ∀ f ∈ c.stack, f.OwnHandle c.st.rt)
    (hs : Step w c a c' ev) : ∀ f ∈ c'.stack, f.OwnHandle c'.st.rt := by
  have heff := hs.effect hwf
  have hold : ∀ f ∈ c.stack, f.OwnHandle c'.st.rt := fun f hf => heff.ownHandle hwf hf (h f hf)
  have htail : ∀ {f : Frame} {k : List Frame}, c.stack = f :: k →
      ∀ g ∈ k, g.OwnHandle c'.st.rt := fun hstack g hg =>
    hold g (hstack ▸ List.mem_cons_of_mem _ hg)
  have hresume : ∀ {s : State} {ret : Int} {k : List Frame}, resume s ret k = .next c' ev →
      (∀ g ∈ k, g.OwnHandle c'.st.rt) → ∀ g ∈ c'.stack, g.OwnHandle c'.st.rt := fun hr hk =>
    (resume_spec hr).2.forall (fun _ _ => trivial) hk
  have hgo : ∀ {tx tx' : LoadTxn} {pc pc' : LoadPc} {k : List Frame}, c.stack = .load tx pc :: k →
      tx'.modEntry = tx.modEntry → tx'.handle = tx.handle →
      ∀ g ∈ .load tx' pc' :: k, g.OwnHandle c'.st.rt := fun {tx _ pc _ k} hstack hme hh => by
    refine List.forall_mem_cons.mpr ⟨fun e he x hx => ?_, htail hstack⟩
    rw [hme] at he
    rw [hh]
    exact hold (.load tx pc) (hstack ▸ List.mem_cons_self) e he x hx
  have hstart : ∀ (s : State) (fname : CStr),
      Frame.OwnHandle c'.st.rt (.load (modLoadStart w s fname) .opening) := fun s fname e he => by
    cases he
  cases hs with
  | load hw => exact List.forall_mem_cons.mpr ⟨hstart _ _, hold⟩
  | scope hw | eachFirst hw | dispatchLoop hw => exact List.forall_mem_cons.mpr ⟨trivial, hold⟩
  | answered hw | direct hw | dispatchDone hw => exact hold
  | unload hw hu => exact hu.forall (fun _ _ => trivial) (fun _ _ => trivial) hold
  | reload hw hl hme hu =>
    exact hu.forall (fun _ _ => trivial) (fun _ _ => trivial)
      (List.forall_mem_cons.mpr ⟨trivial, hold⟩)
  | shutdown => exact hold
  | dlopenFailed hr => exact hresume hr (htail rfl)
  | reuse hl hme hr => exact hresume hr (htail rfl)
  | installed hr => exact hresume hr (htail rfl)
  | abort ha hr => exact hresume hr (htail rfl)
  | remove hme hr => exact hresume hr (htail rfl)
  | @dlopened s k tx h =>
    refine List.forall_mem_cons.mpr ⟨fun e he => ?_, htail rfl⟩
    have hnone : tx.modEntry = none := (hwf.top rfl).early rfl
    have he : tx.modEntry = some e := he
    rw [hnone] at he
    cases he
  | @publish s k tx hl =>
    refine List.forall_mem_cons.mpr ⟨fun e he x hx => ?_, htail rfl⟩
    obtain rfl : s.rt.nmods = e := Option.some.inj he
    exact Option.some.inj (hx.symm.trans (publish_handleOf s tx).1)
  | bind | claimFlat | claimRefused | claimAsked | notGranted | granted | rekey
  | link | installMissing | install => exact hgo rfl rfl rfl
  | cascadeSkip => exact List.forall_mem_cons.mpr ⟨trivial, htail rfl⟩
  | cascade hme hp hst hu =>
    exact hu.forall (fun _ _ => trivial) (fun _ _ => trivial)
      (List.forall_mem_cons.mpr ⟨trivial, htail rfl⟩)
  | reloadLoad =>
    exact List.forall_mem_cons.mpr ⟨hstart _ _, List.forall_mem_cons.mpr ⟨trivial, htail rfl⟩⟩
  | selfSkip | selfDeaf | selfEnter | slotSkip | slotEnter | selfListened | slotListened | eachNext =>
    exact List.forall_mem_cons.mpr ⟨trivial, htail rfl⟩
  | reinsert | reloadEnd | dispatchEnd | scopeEnd | eachEnd => exact htail rfl

theorem ownHandle_of_reachable (h : Reachable w c) : ∀ f ∈ c.stack, f.OwnHandle c.st.rt := by
  refine h.invariant_wf (fun c => ∀ f ∈ c.stack, f.OwnHandle c.st.rt) (fun c hc => ?_)
    fun c a c' ev hwf hown _ hs => hs.ownHandle hwf hown
  obtain ⟨ctxs, adapters, mem, rfl⟩ := hc
  exact fun f hf => (List.not_mem_nil hf).elim

theorem Resources.step_call {q : Call} {copied : Bool} (hload : ∀ fname, q ≠ .load fname)
    (hshut : q ≠ .shutdown) : r.step w copied c (.call q) = r := by
  cases q with
  | load fname => exact absurd rfl (hload fname)
  | shutdown => exact absurd rfl hshut
  | _ => rfl

theorem FreesHandle.of_mods {rt₁ : Runtime} (hme : c.st.rt.mods e = some me)
    (hcore : rt₁.core = c.st.rt.core) (h : c'.st.rt.mods = Function.update rt₁.mods e none)
    (hn : c'.st.rt.nmods = c.st.rt.nmods) : FreesHandle c c' e me.handle where
  had := by rw [Runtime.handleOf, hme]; rfl
  gone := by rw [Runtime.handleOf, h, Function.update_self]; rfl
  others x hx := by
    rw [Runtime.handleOf, h, Function.update_of_ne hx]
    exact map_of_core (·.handle) (fun _ => rfl) hcore x
  nmods := hn

/-- The steps that neither start a load nor shut the runtime down. -/
theorem Step.uses (hwf : c.Wf w) (hown : ∀ f ∈ c.stack, f.OwnHandle c.st.rt)
    (hload : ∀ fname, a ≠ .call (.load fname)) (hshut : a ≠ .call .shutdown)
    (hreload : ∀ rl k, a = .tau → c.stack ≠ .reload rl (.unloaded xyOk) :: k)
    (hs : Step w c a c' ev) (copied : Bool) (r : Resources) :
    Uses w copied c a r c' (r.step w copied c a) := by
  have heff := hs.effect hwf
  have hsame : (∀ f k, a = .tau → c.stack = f :: k → f.frees = false ∧ f.opened = false) →
      SameHandles c c' := fun hstack =>
    ⟨heff.handleOf_eq hwf hshut hstack, heff.nmods fun f k ha hs => (hstack f k ha hs).2⟩
  have hat : ∀ {f : Frame} {k : List Frame}, c.stack = f :: k →
      f.frees = false ∧ f.opened = false → SameHandles c c' := fun hstack hf =>
    hsame fun g l _ hg => (List.cons.inj (hstack.symm.trans hg)).1 ▸ hf
  have hcall : ∀ {q : Call}, a = .call q → marks c'.stack = marks c.stack →
      Uses w copied c a r c' (r.step w copied c a) := fun {q} ha hm => by
    have hidle : r.step w copied c a = r := by
      rw [ha]
      exact Resources.step_call (fun f hq => hload f (hq ▸ ha)) fun hq => hshut (hq ▸ ha)
    rw [hidle]
    refine .idle hm (hsame fun f k htau => ?_)
    rw [ha] at htau
    cases htau
  cases hs with
  | load hw => exact absurd rfl (hload _)
  | shutdown => exact absurd rfl hshut
  | answered hw | direct hw hq | dispatchDone hw hd | scope hw hl | eachFirst hw hp hc
  | dispatchLoop hw hd => exact hcall rfl rfl
  | unload hw hu => exact hcall rfl hu.marks
  | reload hw hl hme hu => exact hcall rfl hu.marks
  | @dlopenFailed s k tx c' ev hr =>
    refine .fails k ?_ (hat rfl ⟨rfl, rfl⟩)
    rw [resume_marks hr]
    rfl
  | dlopened => exact .opens _ rfl rfl (hat rfl ⟨rfl, rfl⟩)
  | @reuse s k tx e me c' ev hl hme hr =>
    have hstep : r.step w copied ⟨s, .load tx .opened :: k⟩ .tau
        = ((r.close tx.handle).unlink r.txTmp).endLoad k := by
      simp only [Resources.step, hl]
    rw [hstep]
    refine .reuses tx.handle k ?_ ⟨fun x => ?_, ?_⟩
    · rw [resume_marks hr]
      rfl
    · rw [(resume_spec hr).1.rt]
      exact modifyMod_proj (·.handle)
        (f := fun me => { me with refcount := me.refcount + 1 }) (fun _ => rfl) s.rt e x
    · rw [(resume_spec hr).1.rt]
      rfl
  | @publish s k tx hl =>
    have hstep : r.step w copied ⟨s, .load tx .opened :: k⟩ .tau
        = { r with
            tmps := Function.update r.tmps s.rt.nmods r.txTmp
            txTmps := none :: r.txTmps.tail } := by
      simp only [Resources.step, hl]
    rw [hstep]
    obtain ⟨hnew, hold, hn⟩ := publish_handleOf s tx
    exact .publishes tx.handle rfl rfl hnew hold hn
  | @installed s k tx prev c' ev hr =>
    refine .installs k ?_ (hat rfl ⟨rfl, rfl⟩)
    rw [resume_marks hr]
    rfl
  | @abort s s' k tx err c' ev ha hr =>
    obtain ⟨e, he, -, hpub⟩ := (hwf.top rfl).late rfl
    obtain ⟨me, hme, hrt, -⟩ := modLoadAbort_spec he ha
    have hhandle : me.handle = tx.handle := by
      refine hown (.load tx (.aborting err)) List.mem_cons_self e he me.handle ?_
      rw [Runtime.handleOf, hme]
      rfl
    have hstep : r.step w copied ⟨s, .load tx (.aborting err) :: k⟩ .tau
        = (((r.dropTmp e).unlink (r.dropTmp e).txTmp).close tx.handle).endLoad k := by
      simp only [Resources.step, he, Option.elim_some]
    rw [hstep]
    refine .aborts e tx.handle k ?_ ?_
    · rw [resume_marks hr]
      rfl
    · rw [← hhandle]
      refine .of_mods hme rfl ?_ (heff.nmods fun f l _ hf => ?_)
      · rw [(resume_spec hr).1.rt, hrt, hpub]
        exact discardEntry_mods s.rt e me
      · obtain ⟨rfl, -⟩ := List.cons.inj hf
        rfl
  | @remove s k e me c' ev hme hr =>
    have hstep : r.step w copied ⟨s, .unload e [] :: k⟩ .tau = (r.close me.handle).dropTmp e := by
      simp only [Resources.step, hme]
    rw [hstep]
    obtain ⟨rt₁, hcore, hmods⟩ := removeEntry_mods (w := w) s.rt e me
    refine .frees e me.handle ?_ (.of_mods hme hcore ?_ (heff.nmods fun f l _ hf => ?_))
    · rw [resume_marks hr]
      rfl
    · rw [(resume_spec hr).1.rt, (modUnloadFinish_spec ..).1]
      exact hmods
    · obtain ⟨rfl, -⟩ := List.cons.inj hf
      rfl
  | @bind s k tx =>
    refine .idle ?_ (hat rfl ⟨rfl, rfl⟩)
    rw [marks_cons, marks_cons]
    split <;> rfl
  | claimFlat | claimRefused | claimAsked | notGranted | granted | rekey
  | link | installMissing | install | cascadeSkip | reinsert | dispatchEnd | scopeEnd
  | eachEnd | selfSkip | selfDeaf | selfEnter | slotSkip | slotEnter | selfListened | slotListened
  | eachNext => exact .idle rfl (hat rfl ⟨rfl, rfl⟩)
  | cascade hme hp hst hu => exact .idle hu.marks (hat rfl ⟨rfl, rfl⟩)
  | @reloadLoad s k rl => exact absurd rfl (hreload rl k rfl)
  | @reloadEnd s k rl pc n =>
    have hstep : r.step w copied ⟨s, .reload rl pc :: k⟩ .tau = r := by
      cases pc with
      | unloading | loading | loaded => rfl
      | unloaded ret =>
        have hret : ret ≠ xyOk := fun hret => hreload rl k rfl (hret ▸ rfl)
        simp only [Resources.step, if_neg hret]
    rw [hstep]
    exact .idle rfl (hat rfl ⟨rfl, rfl⟩)

/-- What any step does with handles and copies. -/
theorem uses_of_step (hwf : c.Wf w) (hown : ∀ f ∈ c.stack, f.OwnHandle c.st.rt)
    (hs : step w c a = .next c' ev) (copied : Bool) (r : Resources) :
    Uses w copied c a r c' (r.step w copied c a) := by
  by_cases hload : ∃ fname, a = .call (.load fname)
  · obtain ⟨fname, rfl⟩ := hload
    simp only [Xylem.step, beginCall, beginLoad] at hs
    split at hs
    · cases hs
      exact .begins r.reloading rfl ⟨fun _ => rfl, rfl⟩
    · cases hs
  by_cases hshut : a = .call .shutdown
  · subst hshut
    obtain ⟨s, stack⟩ := c
    simp only [Xylem.step, beginCall] at hs
    split at hs
    · split at hs
      · next hnil =>
        cases hs
        obtain rfl := List.isEmpty_iff.mp hnil
        refine .shuts rfl rfl rfl fun e => ?_
        rw [(xyShutdown_spec w s).1]
        rfl
      · cases hs
    · cases hs
  by_cases hreload : ∃ rl k, a = .tau ∧ c.stack = .reload rl (.unloaded xyOk) :: k
  · obtain ⟨rl, k, rfl, hstack⟩ := hreload
    obtain ⟨s, stack⟩ := c
    dsimp only at hstack
    subst hstack
    cases hs
    exact .begins true rfl ⟨fun _ => rfl, rfl⟩
  exact (Step.of_step hs).uses hwf hown (fun fname ha => hload ⟨fname, ha⟩) hshut
    (fun rl k ha hstack => hreload ⟨rl, k, ha, hstack⟩) copied r

/-! ## Who keeps a copy -/

/-- The innermost load in progress. -/
def Resources.inner (r : Resources) : Keeper := .load (r.txTmps.length - 1)

theorem keeps_load_cons {t : Option Nat} {l : List (Option Nat)} {i b : Nat}
    (h : r.txTmps = t :: l) :
    r.Keeps (.load i) b ↔ l.reverse[i]? = some (some b) ∨ i = l.length ∧ t = some b := by
  show r.txTmps.reverse[i]? = some (some b) ↔ _
  rw [h, List.reverse_cons, List.getElem?_append]
  split
  · next hlt =>
    rw [List.length_reverse] at hlt
    exact ⟨Or.inl, fun h => h.resolve_right fun ⟨heq, _⟩ => by omega⟩
  · next hge =>
    rw [List.length_reverse] at hge ⊢
    have hnone : l.reverse[i]? = none := by
      rw [List.getElem?_eq_none_iff, List.length_reverse]
      omega
    rw [hnone, List.getElem?_singleton]
    by_cases hi : i = l.length
    · simp [hi]
    · have : ¬ i - l.length = 0 := by omega
      simp [this, hi]

theorem keeps_inner {b : Nat} : r.Keeps r.inner b ↔ r.txTmp = some b := by
  unfold Resources.inner Resources.txTmp
  cases h : r.txTmps with
  | nil => simp [Resources.Keeps, h]
  | cons t l =>
    rw [keeps_load_cons h, List.length_cons, Nat.add_sub_cancel, List.getElem?_eq_none (by simp)]
    simp

theorem keeps_endLoad {x : Keeper} {b : Nat} :
    (r.endLoad k).Keeps x b ↔ r.Keeps x b ∧ x ≠ r.inner := by
  cases x with
  | entry e => simp [Resources.Keeps, Resources.endLoad, Resources.inner]
  | load i =>
    show r.txTmps.tail.reverse[i]? = _ ↔ _
    unfold Resources.inner
    cases h : r.txTmps with
    | nil => simp [Resources.Keeps, h]
    | cons t l =>
      rw [keeps_load_cons h, List.tail_cons, List.length_cons, Nat.add_sub_cancel, ne_eq,
        Keeper.load.injEq]
      constructor
      · intro hl
        have hi : i < l.reverse.length := (List.getElem?_eq_some_iff.mp hl).1
        rw [List.length_reverse] at hi
        exact ⟨Or.inl hl, Nat.ne_of_lt hi⟩
      · rintro ⟨hl | ⟨rfl, -⟩, hne⟩
        · exact hl
        · exact absurd rfl hne

theorem keeps_dropTmp {x : Keeper} {b : Nat} :
    (r.dropTmp e).Keeps x b ↔ r.Keeps x b ∧ x ≠ .entry e := by
  cases x with
  | load i => simp [Resources.Keeps, Resources.dropTmp, Resources.unlink]
  | entry y =>
    show Function.update r.tmps e none y = some b ↔ r.tmps y = some b ∧ _
    by_cases hy : y = e
    · subst hy
      simp
    · simp [hy]

theorem keeps_begin (copied : Bool) {x : Keeper} {b : Nat} :
    (r.beginLoad copied).Keeps x b ↔ r.Keeps x b
      ∨ ((r.reloading && copied) = true ∧ x = .load r.txTmps.length ∧ b = r.copies) := by
  cases x with
  | entry e =>
    unfold Resources.beginLoad
    split <;> simp [Resources.Keeps]
  | load i =>
    unfold Resources.beginLoad
    split
    · next h =>
      rw [keeps_load_cons rfl, h]
      simp [Resources.Keeps, eq_comm]
    · next h =>
      rw [keeps_load_cons rfl]
      simp [Resources.Keeps, h]

/-- The copy of a load goes to the entry that it allocates. -/
theorem keeps_publish {n : EntryRef} {x : Keeper} {b : Nat} :
    ({ r with tmps := Function.update r.tmps n r.txTmp
              txTmps := none :: r.txTmps.tail } : Resources).Keeps x b
      ↔ (r.Keeps x b ∧ x ≠ r.inner ∧ x ≠ .entry n) ∨ (x = .entry n ∧ r.Keeps r.inner b) := by
  cases x with
  | load i =>
    have hend := keeps_endLoad (r := r) (k := []) (x := .load i) (b := b)
    rw [keeps_load_cons rfl]
    simpa [Resources.Keeps, Resources.endLoad] using hend
  | entry y =>
    rw [keeps_inner]
    show Function.update r.tmps n r.txTmp y = some b ↔ (r.tmps y = some b ∧ _) ∨ _
    by_cases hy : y = n
    · subst hy
      simp
    · simp [hy, Resources.inner]

/-! ## The copies -/

/-- What holds of the copies in any run.

* `tmps`: there is a `tmp_load_path` for each load in progress, and it is NULL once the
  load has allocated its entry.
* `live`: what has a copy is live. -/
structure Resources.Copies (c : Config) (r : Resources) : Prop where
  tmps : List.Forall₂ (fun m t => m.1 = false → t = none) (marks c.stack) r.txTmps
  live : ∀ e b, r.tmps e = some b → c.st.rt.handleOf e ≠ none
  custody : Custody.Ok r.Keeps r.unlinks r.copies

/-- Each entry is in the table when the runtime is shut down. -/
def ShutsListed (s : Config × Resources) (a : Action × Bool) : Prop :=
  a.1 = .call .shutdown → ∀ e, s.1.st.rt.mods e ≠ none → ∃ κ, s.1.st.rt.modHd.lookup κ = some e

theorem txTmp_of_late {m : List (Bool × Option Handle)} {x : Option Handle}
    (h : List.Forall₂ (fun m t => m.1 = false → t = none) ((false, x) :: m) r.txTmps) :
    r.txTmp = none := by
  cases h' : r.txTmps with
  | nil => simp [Resources.txTmp, h']
  | cons t l =>
    rw [h'] at h
    cases h with
    | cons hhead _ => simp [Resources.txTmp, h', hhead rfl]

theorem SameHandles.live (h : SameHandles c c')
    (hlive : ∀ e b, r.tmps e = some b → c.st.rt.handleOf e ≠ none) (e : EntryRef) (b : Nat)
    (hb : r.tmps e = some b) : c'.st.rt.handleOf e ≠ none := by
  rw [h.handleOf]
  exact hlive e b hb

/-- The copy of the innermost load is unlinked, and the load returns. -/
theorem custody_endLoad (h : Custody.Ok r.Keeps r.unlinks r.copies) (k : List Frame) :
    Custody.Ok ((r.unlink r.txTmp).endLoad k).Keeps ((r.unlink r.txTmp).endLoad k).unlinks
      ((r.unlink r.txTmp).endLoad k).copies := by
  refine h.release (r.txTmp.toList.map fun b => (r.inner, b)) ?_ ?_ ?_ ?_ (Nat.le_refl _)
  · rw [List.map_map]
    exact List.Perm.of_eq (by simp [Resources.endLoad, Resources.unlink])
  · rintro p hp
    obtain ⟨b, hb, rfl⟩ := List.mem_map.mp hp
    exact keeps_inner.mpr (Option.mem_toList.mp hb)
  · cases r.txTmp <;> simp
  · intro x b hx
    obtain ⟨hold, hne⟩ := keeps_endLoad.mp hx
    refine ⟨hold, fun hmem => hne ?_⟩
    obtain ⟨p, hp, rfl⟩ := List.mem_map.mp hmem
    obtain ⟨b', -, rfl⟩ := List.mem_map.mp hp
    rfl

theorem custody_dropTmp (h : Custody.Ok r.Keeps r.unlinks r.copies) (e : EntryRef) :
    Custody.Ok (r.dropTmp e).Keeps (r.dropTmp e).unlinks (r.dropTmp e).copies := by
  refine h.release ((r.tmps e).toList.map fun b => (.entry e, b)) ?_ ?_ ?_ ?_ (Nat.le_refl _)
  · rw [List.map_map]
    exact List.Perm.of_eq (by simp [Resources.dropTmp, Resources.unlink])
  · rintro p hp
    obtain ⟨b, hb, rfl⟩ := List.mem_map.mp hp
    exact Option.mem_toList.mp hb
  · cases r.tmps e <;> simp
  · intro x b hx
    obtain ⟨hold, hne⟩ := keeps_dropTmp.mp hx
    refine ⟨hold, fun hmem => hne ?_⟩
    obtain ⟨p, hp, rfl⟩ := List.mem_map.mp hmem
    obtain ⟨b', -, rfl⟩ := List.mem_map.mp hp
    rfl

theorem dropTmp_live (hlive : ∀ x b, r.tmps x = some b → c.st.rt.handleOf x ≠ none) {h : Handle}
    (hh : FreesHandle c c' e h) (x : EntryRef) (b : Nat) (hb : (r.dropTmp e).tmps x = some b) :
    c'.st.rt.handleOf x ≠ none := by
  obtain ⟨hold, hne⟩ : r.Keeps (.entry x) b ∧ .entry x ≠ Keeper.entry e := keeps_dropTmp.mp hb
  rw [hh.others x fun heq => hne (heq ▸ rfl)]
  exact hlive x b hold

/-- A shutdown unlinks the copies of the entries of the table. -/
theorem custody_shutdown (hwf : c.Wf w) (h : Custody.Ok r.Keeps r.unlinks r.copies)
    (htx : r.txTmps = []) (copied : Bool) :
    Custody.Ok (r.step w copied c (.call .shutdown)).Keeps
      (r.step w copied c (.call .shutdown)).unlinks
      (r.step w copied c (.call .shutdown)).copies := by
  let es := (c.st.rt.modHdValues w).filter fun e => (c.st.rt.mods e).isSome
  have hes : es.Nodup := hwf.heap.values_nodup.filter _
  refine h.release (es.filterMap fun e => (r.tmps e).map fun b => (.entry e, b)) ?_ ?_ ?_ ?_
    (Nat.le_refl _)
  · refine List.Perm.of_eq ?_
    show es.filterMap r.tmps ++ r.unlinks = _
    rw [List.map_filterMap]
    congr 1
    refine List.filterMap_congr fun e _ => ?_
    cases r.tmps e <;> rfl
  · intro p hp
    obtain ⟨e, -, hp⟩ := List.mem_filterMap.mp hp
    obtain ⟨b, hb, rfl⟩ := Option.map_eq_some_iff.mp hp
    exact hb
  · refine hes.filterMap fun e e' p hp hp' => ?_
    obtain ⟨b, -, rfl⟩ := Option.map_eq_some_iff.mp hp
    obtain ⟨b', -, heq⟩ := Option.map_eq_some_iff.mp hp'
    injection heq with heq
    injection heq with heq
    exact heq.symm
  · intro x b hx
    exfalso
    cases x with
    | load i =>
      have hx : r.txTmps.reverse[i]? = some (some b) := hx
      rw [htx] at hx
      simp at hx
    | entry e => cases hx

theorem Uses.copies {copied : Bool} (hwf : c.Wf w) (h : r.Copies c)
    (hu : Uses w copied c a r c' r') : r'.Copies c' := by
  have htail : ∀ {m : Bool × Option Handle} {l : List (Bool × Option Handle)},
      marks c.stack = m :: l → List.Forall₂ (fun m t => m.1 = false → t = none) l r.txTmps.tail := by
    intro m l hm
    have htmps := h.tmps
    rw [hm] at htmps
    cases hr : r.txTmps with
    | nil => rw [hr] at htmps; cases htmps
    | cons t l' =>
      rw [hr] at htmps
      exact (List.forall₂_cons.mp htmps).2
  cases hu with
  | idle hm hh => exact ⟨hm ▸ h.tmps, hh.live h.live, h.custody⟩
  | begins b hm hh =>
    have htmps : (({ r with reloading := b } : Resources).beginLoad copied).tmps = r.tmps := by
      unfold Resources.beginLoad
      split <;> rfl
    have hunlinks : (({ r with reloading := b } : Resources).beginLoad copied).unlinks
        = r.unlinks := by
      unfold Resources.beginLoad
      split <;> rfl
    refine ⟨?_, ?_, ?_⟩
    · rw [hm]
      unfold Resources.beginLoad
      split <;> exact .cons (fun h => nomatch h) h.tmps
    · rw [htmps]
      exact hh.live h.live
    · rw [hunlinks]
      cases hcopied : b && copied with
      | false =>
        refine h.custody.mono (fun x n hn => ?_) ?_
        · exact ((keeps_begin copied).mp hn).resolve_right fun hnew =>
            absurd (hcopied.symm.trans hnew.1) Bool.false_ne_true
        · unfold Resources.beginLoad
          simp [hcopied]
      | true =>
        have hnext : (({ r with reloading := b } : Resources).beginLoad copied).copies
            = r.copies + 1 := by
          unfold Resources.beginLoad
          simp [hcopied]
        rw [hnext]
        exact h.custody.make (.load r.txTmps.length) fun x n hn =>
          ((keeps_begin copied).mp hn).imp_right fun hnew => hnew.2
  | fails k hm hh => exact ⟨htail hm, hh.live h.live, custody_endLoad h.custody k⟩
  | @opens m x hm hm' hh =>
    refine ⟨?_, hh.live h.live, h.custody⟩
    have htmps := h.tmps
    rw [hm] at htmps
    rw [hm']
    cases hr : r.txTmps with
    | nil => rw [hr] at htmps; cases htmps
    | cons t l =>
      rw [hr] at htmps
      exact .cons (fun h => nomatch h) (List.forall₂_cons.mp htmps).2
  | reuses x k hm hh =>
    exact ⟨htail hm, hh.live h.live, custody_endLoad (r := r.close x) h.custody k⟩
  | @publishes m x hm hm' hnew hold hn =>
    refine ⟨?_, fun e b hb => ?_, ?_⟩
    · rw [hm']
      exact .cons (fun _ => rfl) (htail hm)
    · have hb : ({ r with
          tmps := Function.update r.tmps c.st.rt.nmods r.txTmp
          txTmps := none :: r.txTmps.tail } : Resources).Keeps (.entry e) b := hb
      rcases keeps_publish.mp hb with ⟨hb, -⟩ | ⟨heq, -⟩
      · have hlive := h.live e b hb
        have hlt : e < c.st.rt.nmods := by
          by_contra hge
          exact hlive (handleOf_fresh hwf.heap (Nat.le_of_not_lt hge))
        rw [hold e hlt]
        exact hlive
      · injection heq with heq
        rw [heq, hnew]
        exact Option.some_ne_none x
    · refine h.custody.pass r.inner (.entry c.st.rt.nmods) fun x b hb => ?_
      exact (keeps_publish.mp hb).imp_left fun ⟨hb, hne, _⟩ => ⟨hb, hne⟩
  | installs k hm hh =>
    refine ⟨htail hm, hh.live h.live, h.custody.mono (fun x b hb => ?_) (Nat.le_refl _)⟩
    exact (keeps_endLoad.mp hb).1
  | aborts e x k hm hh =>
    exact ⟨htail hm, dropTmp_live h.live hh,
      custody_endLoad (r := (r.dropTmp e).close x) (custody_dropTmp h.custody e) k⟩
  | frees e x hm hh =>
    refine ⟨hm ▸ h.tmps, dropTmp_live h.live hh, custody_dropTmp (r := r.close x) h.custody e⟩
  | shuts ha hm hm' hh =>
    have htx : r.txTmps = [] := by
      have htmps := h.tmps
      rw [hm] at htmps
      exact List.forall₂_nil_left_iff.mp htmps
    refine ⟨?_, fun e b hb => ?_, custody_shutdown hwf h.custody htx copied⟩
    · rw [hm']
      show List.Forall₂ _ _ r.txTmps
      rw [htx]
      exact .nil
    · cases hb

/-! ## The handles -/

theorem held_cons {m : Bool × Option Handle} {l : List (Bool × Option Handle)}
    (hm : marks c.stack = m :: l) (h : Handle) :
    c.held h = Tally.tally c.st.rt.handleOf c.st.rt.nmods h + m.2.toList.count h
      + (l.filterMap Prod.snd).count h := by
  have hsplit : (m :: l).filterMap Prod.snd = m.2.toList ++ l.filterMap Prod.snd := by
    cases hm2 : m.2 <;> simp [hm2]
  rw [Config.held, hm, hsplit, List.count_append, Nat.add_assoc]

theorem SameHandles.tally (hh : SameHandles c c') (h : Handle) :
    Tally.tally c'.st.rt.handleOf c'.st.rt.nmods h
      = Tally.tally c.st.rt.handleOf c.st.rt.nmods h := by
  rw [hh.nmods]
  exact Tally.tally_congr fun e _ => hh.handleOf e

theorem FreesHandle.tally {x : Handle} (hheap : c.st.rt.HeapWf) (hh : FreesHandle c c' e x)
    (h : Handle) :
    Tally.tally c.st.rt.handleOf c.st.rt.nmods h
      = Tally.tally c'.st.rt.handleOf c'.st.rt.nmods h + if x = h then 1 else 0 := by
  rw [hh.nmods]
  refine Tally.tally_take ?_ hh.had hh.gone hh.others
  by_contra hge
  exact Option.some_ne_none x (hh.had.symm.trans (handleOf_fresh hheap (Nat.le_of_not_lt hge)))

/-- A shutdown closes the handles of the entries of the table. -/
theorem shutdown_closes (hheap : c.st.rt.HeapWf) (copied : Bool) (h : Handle) :
    (r.step w copied c (.call .shutdown)).closes.count h
        ≤ Tally.tally c.st.rt.handleOf c.st.rt.nmods h + r.closes.count h
      ∧ (ShutsListed (c, r) (.call .shutdown, copied) →
        (r.step w copied c (.call .shutdown)).closes.count h
          = Tally.tally c.st.rt.handleOf c.st.rt.nmods h + r.closes.count h) := by
  let es := (c.st.rt.modHdValues w).filter fun e => (c.st.rt.mods e).isSome
  have hes : es.Nodup := hheap.values_nodup.filter _
  have hlt : ∀ e ∈ es, e < c.st.rt.nmods := fun e he => by
    obtain ⟨me, hme⟩ := Option.isSome_iff_exists.mp (List.mem_filter.mp he).2
    exact hheap.lt_of_mods hme
  have hcount : (r.step w copied c (.call .shutdown)).closes.count h
      = (es.filterMap c.st.rt.handleOf).count h + r.closes.count h := by
    show (es.filterMap _ ++ r.closes).count h = _
    rw [List.count_append]
    rfl
  rw [hcount]
  refine ⟨Nat.add_le_add_right (Tally.count_filterMap_le hes hlt) _, fun hlisted => ?_⟩
  congr 1
  refine Tally.count_filterMap hes hlt fun e _ he => List.mem_filter.mpr ?_
  have hlive : c.st.rt.mods e ≠ none := fun hnone => he (by rw [Runtime.handleOf, hnone]; rfl)
  obtain ⟨κ, hκ⟩ := hlisted rfl e hlive
  refine ⟨(w.iterOrder_perm _).mem_iff.mpr ?_, Option.isSome_iff_ne_none.mpr hlive⟩
  exact List.mem_map.mpr ⟨⟨κ, e⟩, AList.mem_lookup_iff.mp hκ, rfl⟩

theorem count_cons_handle (x h : Handle) (l : List Handle) :
    (x :: l).count h = l.count h + if x = h then 1 else 0 := by
  rw [List.count_cons]
  simp only [beq_iff_eq]

/-- A handle that is closed is one that was held, and nothing else stops being held. -/
theorem Uses.balance {copied : Bool} (hwf : c.Wf w) (hu : Uses w copied c a r c' r') (h : Handle) :
    r'.closes.count h + c'.held h + r.opens.count h
        ≤ r.closes.count h + c.held h + r'.opens.count h
      ∧ (ShutsListed (c, r) (a, copied) →
        r'.closes.count h + c'.held h + r.opens.count h
          = r.closes.count h + c.held h + r'.opens.count h) := by
  have hbalance {p q : Nat} (heq : p = q) : p ≤ q ∧ (ShutsListed (c, r) (a, copied) → p = q) :=
    ⟨Nat.le_of_eq heq, fun _ => heq⟩
  have hone : ∀ x : Handle, [x].count h = if x = h then 1 else 0 := fun x => by
    rw [count_cons_handle, List.count_nil, Nat.zero_add]
  have hbefore : c.held h = Tally.tally c.st.rt.handleOf c.st.rt.nmods h
      + ((marks c.stack).filterMap Prod.snd).count h := rfl
  have hafter : c'.held h = Tally.tally c'.st.rt.handleOf c'.st.rt.nmods h
      + ((marks c'.stack).filterMap Prod.snd).count h := rfl
  cases hu with
  | idle hm hh =>
    refine hbalance ?_
    rw [hafter, hbefore, hm, hh.tally]
  | begins b hm hh =>
    refine hbalance ?_
    have hopens : (({ r with reloading := b } : Resources).beginLoad copied).opens = r.opens := by
      unfold Resources.beginLoad
      split <;> rfl
    have hcloses : (({ r with reloading := b } : Resources).beginLoad copied).closes
        = r.closes := by
      unfold Resources.beginLoad
      split <;> rfl
    rw [hopens, hcloses, held_cons hm, hh.tally, hbefore]
    rfl
  | fails k hm hh =>
    refine hbalance ?_
    rw [hafter, held_cons hm, hh.tally]
    rfl
  | opens x hm hm' hh =>
    refine hbalance ?_
    show r.closes.count h + _ + _ = _ + (x :: r.opens).count h
    rw [held_cons hm, held_cons hm', hh.tally, count_cons_handle, Option.toList_some,
      Option.toList_none, hone, List.count_nil]
    omega
  | reuses x k hm hh =>
    refine hbalance ?_
    show (x :: r.closes).count h + _ + _ = _ + r.opens.count h
    rw [hafter, held_cons hm, hh.tally, count_cons_handle, Option.toList_some, hone]
    omega
  | publishes x hm hm' hnew hold hn =>
    refine hbalance ?_
    rw [held_cons hm, held_cons hm', hn, Tally.tally_grow hnew hold, Option.toList_some,
      Option.toList_none, hone, List.count_nil]
    dsimp only
    omega
  | installs k hm hh =>
    refine hbalance ?_
    rw [hafter, held_cons hm, hh.tally]
    rfl
  | aborts e x k hm hh =>
    refine hbalance ?_
    show (x :: r.closes).count h + _ + _ = _ + r.opens.count h
    rw [hafter, held_cons hm, hh.tally hwf.heap, count_cons_handle, Option.toList_none,
      List.count_nil]
    omega
  | frees e x hm hh =>
    refine hbalance ?_
    show (x :: r.closes).count h + _ + _ = _ + r.opens.count h
    rw [hafter, hbefore, hm, hh.tally hwf.heap, count_cons_handle]
    omega
  | shuts ha hm hm' hh =>
    obtain ⟨hle, heq⟩ := shutdown_closes (w := w) (r := r) hwf.heap copied h
    have hnone : c'.held h = 0 := by
      rw [hafter, hm', Tally.tally_none fun e _ => hh e]
      rfl
    have hall : c.held h = Tally.tally c.st.rt.handleOf c.st.rt.nmods h := by
      rw [hbefore, hm]
      rfl
    have hopens : (r.step w copied c (.call .shutdown)).opens = r.opens := rfl
    rw [hnone, hall, hopens]
    refine ⟨by omega, fun hlisted => ?_⟩
    have := heq fun _ => hlisted ha
    omega

/-! ## All runs -/

theorem Resources.Copies.start (hc : c.Initial) : Resources.start.Copies c := by
  obtain ⟨ctxs, adapters, mem, rfl⟩ := hc
  refine ⟨.nil, fun _ _ hb => (Option.some_ne_none _ hb.symm).elim, .nil fun x b hx => ?_⟩
  cases x with
  | load i =>
    have hx : ([] : List (Option Nat))[i]? = some (some b) := hx
    cases hx
  | entry e => cases hx

theorem reachable_of_resources {ok : Config × Resources → Action × Bool → Prop}
    {s : Config × Resources} (h : ResourceReachable w ok s) : Reachable w s.1 := by
  induction h with
  | start h => exact .start h.1
  | step _ _ hs ih => exact .step ih trivial hs.1

/-- What holds after each step of a run with its resources. -/
theorem ResourceNext.uses {s s' : Config × Resources} {a : Action × Bool}
    (h : Reachable w s.1) (hs : ResourceNext w s a s') : Uses w a.2 s.1 a.1 s.2 s'.1 s'.2 := by
  obtain ⟨⟨ev, hev⟩, hr⟩ := hs
  rw [hr]
  exact uses_of_step (Config.Wf.of_reachable h) (ownHandle_of_reachable h) hev a.2 s.2

/-- In any run, no handle is closed more often than it has been opened, less the times
that it is held; and no temporary copy is unlinked twice, or has two owners, or is
unlinked while something keeps it. -/
theorem sound_of_run {s : Config × Resources} (h : ResourceReachable w (fun _ _ => True) s) :
    s.2.Sound s.1 := by
  have hinv : s.2.Copies s.1 ∧ ∀ x, s.2.closes.count x + s.1.held x ≤ s.2.opens.count x := by
    induction h with
    | @start s h =>
      obtain ⟨c, r⟩ := s
      obtain ⟨hc, rfl⟩ := h
      refine ⟨.start hc, fun x => ?_⟩
      obtain ⟨ctxs, adapters, mem, rfl⟩ := hc
      exact Nat.le_refl 0
    | step hr _ hs ih =>
      obtain ⟨hcopies, hle⟩ := ih
      have hreach := reachable_of_resources hr
      have hwf := Config.Wf.of_reachable hreach
      have hu := ResourceNext.uses hreach hs
      refine ⟨hu.copies hwf hcopies, fun x => ?_⟩
      have := (hu.balance hwf x).1
      have := hle x
      omega
  exact ⟨hinv.2, hinv.1.custody.once, hinv.1.custody.owner, hinv.1.custody.kept⟩

/-- A copy whose owner goes away is unlinked. -/
theorem full_endLoad (h : Custody.Full r.Keeps r.unlinks r.copies) (k : List Frame) :
    Custody.Full ((r.unlink r.txTmp).endLoad k).Keeps ((r.unlink r.txTmp).endLoad k).unlinks
      ((r.unlink r.txTmp).endLoad k).copies := by
  refine h.mono (fun b hb => List.mem_append_right _ hb) fun x b hx => ?_
  by_cases hin : x = r.inner
  · rw [hin, keeps_inner] at hx
    exact Or.inl (List.mem_append_left _ (Option.mem_toList.mpr hx))
  · exact Or.inr ⟨x, keeps_endLoad.mpr ⟨hx, hin⟩⟩

theorem full_dropTmp (h : Custody.Full r.Keeps r.unlinks r.copies) (e : EntryRef) :
    Custody.Full (r.dropTmp e).Keeps (r.dropTmp e).unlinks (r.dropTmp e).copies := by
  refine h.mono (fun b hb => List.mem_append_right _ hb) fun x b hx => ?_
  by_cases hin : x = .entry e
  · rw [hin] at hx
    exact Or.inl (List.mem_append_left _ (Option.mem_toList.mpr hx))
  · exact Or.inr ⟨x, keeps_dropTmp.mpr ⟨hx, hin⟩⟩

theorem Uses.full {copied : Bool} (hwf : c.Wf w) (hcopies : r.Copies c)
    (hlisted : ShutsListed (c, r) (a, copied)) (h : Custody.Full r.Keeps r.unlinks r.copies)
    (hu : Uses w copied c a r c' r') : Custody.Full r'.Keeps r'.unlinks r'.copies := by
  cases hu with
  | idle hm hh => exact h
  | opens x hm hm' hh => exact h
  | begins b hm hh =>
    have hkeep : ∀ x n, r.Keeps x n →
        (({ r with reloading := b } : Resources).beginLoad copied).Keeps x n := fun x n hx =>
      (keeps_begin (r := { r with reloading := b }) copied).mpr (Or.inl hx)
    have hunlinks : (({ r with reloading := b } : Resources).beginLoad copied).unlinks
        = r.unlinks := by
      unfold Resources.beginLoad
      split <;> rfl
    rw [hunlinks]
    cases hcopied : b && copied with
    | false =>
      have hnext : (({ r with reloading := b } : Resources).beginLoad copied).copies
          = r.copies := by
        unfold Resources.beginLoad
        simp [hcopied]
      rw [hnext]
      exact h.mono (fun _ hb => hb) fun x n hx => Or.inr ⟨x, hkeep x n hx⟩
    | true =>
      have hnext : (({ r with reloading := b } : Resources).beginLoad copied).copies
          = r.copies + 1 := by
        unfold Resources.beginLoad
        simp [hcopied]
      rw [hnext]
      exact h.make (.load r.txTmps.length) ((keeps_begin copied).mpr (Or.inr ⟨hcopied, rfl, rfl⟩))
        hkeep
  | fails k hm hh => exact full_endLoad h k
  | reuses x k hm hh => exact full_endLoad (r := r.close x) h k
  | @publishes m x hm hm' hnew hold hn =>
    refine h.mono (fun _ hb => hb) fun x b hx => Or.inr ?_
    by_cases hin : x = r.inner
    · exact ⟨.entry c.st.rt.nmods, keeps_publish.mpr (Or.inr ⟨rfl, hin ▸ hx⟩)⟩
    · refine ⟨x, keeps_publish.mpr (Or.inl ⟨hx, hin, ?_⟩)⟩
      rintro rfl
      exact hcopies.live _ b hx (handleOf_fresh hwf.heap (Nat.le_refl _))
  | installs k hm hh =>
    have htmp : r.txTmp = none := by
      have htmps := hcopies.tmps
      rw [hm] at htmps
      exact txTmp_of_late htmps
    refine h.mono (fun _ hb => hb) fun x b hx => Or.inr ⟨x, keeps_endLoad.mpr ⟨hx, ?_⟩⟩
    rintro rfl
    rw [keeps_inner, htmp] at hx
    cases hx
  | aborts e x k hm hh =>
    exact full_endLoad (r := (r.dropTmp e).close x) (full_dropTmp h e) k
  | frees e x hm hh => exact full_dropTmp (r := r.close x) h e
  | shuts ha hm hm' hh =>
    refine h.mono (fun b hb => List.mem_append_right _ hb) fun x b hx => Or.inl ?_
    cases x with
    | load i =>
      have htx : r.txTmps = [] := by
        have htmps := hcopies.tmps
        rw [hm] at htmps
        exact List.forall₂_nil_left_iff.mp htmps
      have hx : r.txTmps.reverse[i]? = some (some b) := hx
      rw [htx] at hx
      cases hx
    | entry e =>
      have hlive : c.st.rt.mods e ≠ none := fun hnone =>
        hcopies.live e b hx (by rw [Runtime.handleOf, hnone]; rfl)
      obtain ⟨κ, hκ⟩ := hlisted ha e hlive
      refine List.mem_append_left _ (List.mem_filterMap.mpr ⟨e, List.mem_filter.mpr ⟨?_, ?_⟩, hx⟩)
      · refine (w.iterOrder_perm _).mem_iff.mpr ?_
        exact List.mem_map.mpr ⟨⟨κ, e⟩, AList.mem_lookup_iff.mp hκ, rfl⟩
      · exact Option.isSome_iff_ne_none.mpr hlive

/-- While each entry is in the table when the runtime is shut down, nothing is left
behind: a handle is open as often as it is held, and a temporary copy is there as long
as a load or an entry keeps it. -/
theorem complete_of_run {s : Config × Resources} (h : ResourceReachable w ShutsListed s) :
    s.2.Complete s.1 := by
  have hinv : s.2.Copies s.1 ∧ Custody.Full s.2.Keeps s.2.unlinks s.2.copies
      ∧ ∀ x, s.2.opens.count x = s.2.closes.count x + s.1.held x := by
    induction h with
    | @start s h =>
      obtain ⟨c, r⟩ := s
      obtain ⟨hc, rfl⟩ := h
      refine ⟨.start hc, Custody.Full.nil, fun x => ?_⟩
      obtain ⟨ctxs, adapters, mem, rfl⟩ := hc
      rfl
    | step hr hlisted hs ih =>
      obtain ⟨hcopies, hfull, heq⟩ := ih
      have hreach := reachable_of_resources hr
      have hwf := Config.Wf.of_reachable hreach
      have hu := ResourceNext.uses hreach hs
      refine ⟨hu.copies hwf hcopies, hu.full hwf hcopies hlisted hfull, fun x => ?_⟩
      have := (hu.balance hwf x).2 hlisted
      have := heq x
      omega
  exact ⟨hinv.2.2, hinv.2.1⟩

/-! ## A module that is reloaded from a copy -/

def Action.shuts : Action → Bool
  | .call .shutdown => true
  | _ => false

/-- A step with its resources, if there is one. -/
def resourceStep (w : World) (s : Config × Resources) (a : Action × Bool) :
    Option (Config × Resources) :=
  match Xylem.step w s.1 a.1 with
  | .next c' _ => some (c', s.2.step w a.2 s.1 a.1)
  | _ => none

theorem ResourceNext.of_step {s s' : Config × Resources} {a : Action × Bool}
    (h : resourceStep w s a = some s') : ResourceNext w s a s' := by
  unfold resourceStep at h
  split at h
  · next hstep =>
    cases h
    exact ⟨⟨_, hstep⟩, rfl⟩
  · cases h

/-- A module is loaded, reloaded from a copy, and loaded again. -/
def copiedRun : List Action :=
  loadRun sampleFile 1
    ++ [.call (.reload sampleFile), .tau, .tau, .ret (.dlopened (some 2)), .tau, .tau, .tau, .tau,
      .tau, .ret .installed, .tau]
    ++ [.call (.load sampleFile), .ret (.dlopened (some 2)), .tau]

def copiedEnd : Config × Resources :=
  Run.follow (resourceStep sampleWorld) (fun _ a => a.1.shuts = false)
    (Config.boot sampleHook, .start) (copiedRun.map fun a => (a, true))

theorem copiedEnd_reachable :
    ResourceReachable sampleWorld (fun _ a => a.1.shuts = false) copiedEnd :=
  Run.ReachBy.follow (fun _ _ _ => ResourceNext.of_step) (.start ⟨Config.boot_initial _, rfl⟩) _

/-- The entry keeps the copy, and the second handle has been opened twice and closed once. -/
theorem sound_of_copied :
    copiedEnd.2.Sound copiedEnd.1 ∧ copiedEnd.2.opens = [2, 2, 1] ∧ copiedEnd.2.closes = [2, 1]
      ∧ copiedEnd.1.held 2 = 1 ∧ copiedEnd.2.unlinks = [] ∧ copiedEnd.2.tmps 1 = some 0 := by
  refine ⟨sound_of_run (copiedEnd_reachable.mono fun _ _ _ => trivial), ?_, ?_, ?_, ?_, ?_⟩ <;>
    decide +kernel

/-- After the shutdown all is closed, and the copy is unlinked. -/
theorem complete_of_copied :
    ∃ s, ResourceNext sampleWorld copiedEnd (.call .shutdown, true) s ∧ s.2.Complete s.1
      ∧ s.2.opens = [2, 2, 1] ∧ s.2.closes = [2, 2, 1] ∧ s.2.copies = 1 ∧ s.2.unlinks = [0] := by
  have hreach : ResourceReachable sampleWorld ShutsListed copiedEnd := by
    refine copiedEnd_reachable.mono fun s a hok ha => ?_
    rw [ha] at hok
    cases hok
  have hlisted : ShutsListed copiedEnd (.call .shutdown, true) := fun _ e he => by
    have hwf := Config.Wf.of_reachable (reachable_of_resources hreach)
    obtain ⟨me, hme⟩ := Option.ne_none_iff_exists'.mp he
    have htwo : copiedEnd.1.st.rt.nmods = 2 := by decide +kernel
    have hlt : e < 2 := htwo ▸ hwf.heap.lt_of_mods hme
    have hgone : copiedEnd.1.st.rt.handleOf 0 = none := by decide +kernel
    have hlive : copiedEnd.1.st.rt.handleOf e ≠ none := by
      rw [Runtime.handleOf, hme]
      exact Option.some_ne_none _
    obtain rfl : e = 1 := by
      rcases Nat.le_one_iff_eq_zero_or_eq_one.mp (Nat.le_of_lt_succ hlt) with rfl | rfl
      · exact absurd hgone hlive
      · rfl
    have hkey : ((copiedEnd.1.st.rt.keyOf 1).bind fun κ => copiedEnd.1.st.rt.modHd.lookup κ)
        = some 1 := by decide +kernel
    obtain ⟨κ, -, hκ⟩ := Option.bind_eq_some_iff.mp hkey
    exact ⟨κ, hκ⟩
  cases hs : resourceStep sampleWorld copiedEnd (.call .shutdown, true) with
  | none => exact absurd hs (by decide +kernel)
  | some s =>
    have hnext := ResourceNext.of_step hs
    obtain rfl : (resourceStep sampleWorld copiedEnd (.call .shutdown, true)).getD copiedEnd = s :=
      congrArg (·.getD copiedEnd) hs
    exact ⟨_, hnext, complete_of_run (hreach.step hlisted hnext), by decide +kernel,
      by decide +kernel, by decide +kernel, by decide +kernel⟩

end

end Xylem
