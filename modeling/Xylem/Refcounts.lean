import Xylem.Quiet
import Xylem.UnloadTree

/-!
# Reference counts

A module entry has a holder for as long as it is in place.

* `CascadesOnTop`: the unloads in progress are together on top of the stack, for a
  cascade hands control to no module.
* `Unloads.counted`: a `_mod_unload` that takes the last holder away puts its entry
  among the falling ones.
* `counted_of_reachable`: the count of an entry is positive, but while `_mod_unload`
  is at work on it.  So it is positive whenever a module has control.
-/

namespace Xylem

open Xylem.Runtime

/-- The entry that a call in progress unloads. -/
def Frame.unloads : Frame → Option EntryRef
  | .unload e _ => some e
  | _ => none

/-- The entries that are being unloaded. -/
def falling (k : List Frame) : List EntryRef := k.filterMap Frame.unloads

/-- Above an unload there are only unloads. -/
def CascadesOnTop : List Frame → Prop
  | [] => True
  | f :: k => if f.unloads.isSome then CascadesOnTop k else falling k = []

/-- The count of an entry that is allocated. -/
def Runtime.refs (rt : Runtime) (e : EntryRef) : Option Int := (rt.mods e).map (·.refcount)

/-- An entry has a holder, unless it is being unloaded. -/
structure Config.Counted (c : Config) : Prop where
  onTop : CascadesOnTop c.stack
  held : ∀ e n, c.st.rt.refs e = some n → (n ≤ 0 ↔ e ∈ falling c.stack)

section

variable {w : World} {c c' : Config} {a : Action} {ev : Event} {rt rt' : Runtime} {s s' : State}
  {e : EntryRef} {me : ModEntry} {f : Frame} {k k' : List Frame}

/-! ## The stack -/

theorem falling_cons (f : Frame) (k : List Frame) :
    falling (f :: k) = f.unloads.toList ++ falling k := by
  cases h : f.unloads <;> simp [falling, h]

theorem falling_skip (hf : f.unloads = none) : falling (f :: k) = falling k := by
  rw [falling_cons, hf]
  rfl

theorem CascadesOnTop.cons (hf : f.unloads = none) (h : falling k = []) :
    CascadesOnTop (f :: k) := by
  rw [CascadesOnTop, hf, if_neg (by simp)]
  exact h

theorem CascadesOnTop.of_none (h : falling k = []) : CascadesOnTop k := by
  induction k with
  | nil => trivial
  | cons f k ih =>
    rw [falling_cons, List.append_eq_nil_iff] at h
    rw [CascadesOnTop]
    split
    · exact ih h.2
    · exact h.2

/-- Below a call that is no unload there is none. -/
theorem CascadesOnTop.below (h : CascadesOnTop (f :: k)) (hf : f.unloads = none) :
    falling k = [] := by
  rwa [CascadesOnTop, hf, if_neg (by simp)] at h

theorem CascadesOnTop.tail (h : CascadesOnTop (f :: k)) : CascadesOnTop k := by
  rw [CascadesOnTop] at h
  split at h
  · exact h
  · exact .of_none h

theorem CascadesOnTop.waiting (h : CascadesOnTop c.stack) (hw : c.waiting = true) :
    falling c.stack = [] := by
  unfold Config.waiting at hw
  cases hs : c.stack with
  | nil => rfl
  | cons f k =>
    rw [hs] at h hw
    have hf : f.unloads = none := by
      cases f with
      | unload => cases hw
      | load | reload | dispatch | scope | each => rfl
    rw [falling_skip hf, h.below hf]

theorem Resumed.falling (h : Resumed k k') : falling k' = falling k := by
  cases h <;> rfl

theorem Resumed.onTop (h : Resumed k k') (hk : CascadesOnTop k) : CascadesOnTop k' := by
  cases h with
  | same => exact hk
  | reload => exact hk

/-! ## The counts -/

theorem Runtime.refs_of_core (h : rt'.core = rt.core) (e : EntryRef) : rt'.refs e = rt.refs e :=
  map_of_core (·.refcount) (fun _ => rfl) h e

theorem Runtime.refs_modifyMod {g : ModEntry → ModEntry} (hg : ∀ me, (g me).refcount = me.refcount)
    (x e : EntryRef) : (rt.modifyMod x g).refs e = rt.refs e :=
  modifyMod_proj (·.refcount) hg rt x e

/-- An entry that is changed keeps its count, and no other is changed. -/
theorem Runtime.refs_update {x : EntryRef} {m : ModEntry} (hme : rt.mods x = some me)
    (hm : m.refcount = me.refcount) (h : rt'.mods = Function.update rt.mods x (some m))
    (e : EntryRef) : rt'.refs e = rt.refs e := by
  unfold Runtime.refs
  rw [h]
  by_cases he : e = x
  · rw [he, Function.update_self, hme, Option.map_some, Option.map_some, hm]
  · rw [Function.update_of_ne he]

/-- An entry is freed, and no other is changed. -/
theorem Runtime.refs_freed {x : EntryRef} {rt₁ : Runtime} (hcore : rt₁.core = rt.core)
    (h : rt'.mods = Function.update rt₁.mods x none) {n : Int} (he : rt'.refs e = some n) :
    e ≠ x ∧ rt.refs e = some n := by
  unfold Runtime.refs at he
  rw [h] at he
  by_cases hx : e = x
  · rw [hx, Function.update_self] at he
    cases he
  · rw [Function.update_of_ne hx] at he
    exact ⟨hx, (Runtime.refs_of_core hcore e).symm.trans he⟩

/-- The count of an entry is set. -/
theorem Runtime.refs_count {f : Int → Int} (x e : EntryRef) :
    (rt.modifyMod x fun me => { me with refcount := f me.refcount }).refs e
      = if e = x then (rt.refs x).map f else rt.refs e := by
  show (Function.update rt.mods x _ e).map _ = _
  split
  · next he =>
    rw [he, Function.update_self, Runtime.refs]
    cases rt.mods x <;> rfl
  · next he =>
    rw [Function.update_of_ne he]
    rfl

/-! ## What keeps the invariant -/

/-- No count changes, though an entry may be freed. -/
def Runtime.NoneCounted (rt rt' : Runtime) : Prop :=
  ∀ e n, rt'.refs e = some n → rt.refs e = some n

theorem Runtime.NoneCounted.of_eq (h : ∀ e, rt'.refs e = rt.refs e) : rt.NoneCounted rt' :=
  fun e _ he => (h e).symm.trans he

theorem Runtime.NoneCounted.refl (rt : Runtime) : rt.NoneCounted rt := fun _ _ h => h

theorem Config.Counted.kept (h : c.Counted) (hrt : c.st.rt.NoneCounted c'.st.rt)
    (htop : CascadesOnTop c'.stack) (hk : falling c'.stack = falling c.stack) : c'.Counted where
  onTop := htop
  held e n he := hk ▸ h.held e n (hrt e n he)

/-- The call on top goes on, and it is no unload. -/
theorem Config.Counted.go (h : c.Counted) (hrt : c.st.rt.NoneCounted c'.st.rt)
    {f f' : Frame} (hs : c.stack = f :: k) (hs' : c'.stack = f' :: k) (hf : f.unloads = none)
    (hf' : f'.unloads = none) : c'.Counted := by
  refine h.kept hrt ?_ ?_
  · rw [hs']
    exact .cons hf' ((hs ▸ h.onTop).below hf)
  · rw [hs, hs', falling_skip hf, falling_skip hf']

/-- A call comes on top that is no unload. -/
theorem Config.Counted.push (h : c.Counted) (hrt : c.st.rt.NoneCounted c'.st.rt)
    (hw : c.waiting = true) (hs : c'.stack = f :: c.stack) (hf : f.unloads = none) :
    c'.Counted := by
  refine h.kept hrt ?_ ?_
  · rw [hs]
    exact .cons hf (h.onTop.waiting hw)
  · rw [hs, falling_skip hf]

/-- The call on top returns, and it is no unload. -/
theorem Config.Counted.pop (h : c.Counted) (hrt : c.st.rt.NoneCounted c'.st.rt)
    (hs : c.stack = f :: k) (hf : f.unloads = none) (hr : Resumed k c'.stack) : c'.Counted := by
  refine h.kept hrt (hr.onTop (hs ▸ h.onTop).tail) ?_
  rw [hr.falling, hs, falling_skip hf]

/-- A `_mod_unload` is called. -/
theorem Unloads.counted {fname : CStr} {id : RegionId} {plen : Nat}
    (hu : Unloads w s fname id plen k c' ev) (hk : CascadesOnTop k)
    (h : ∀ e n, s.rt.refs e = some n → (n ≤ 0 ↔ e ∈ falling k)) : c'.Counted := by
  have hrel : ∀ e x, (s.release e).rt.refs x
      = if x = e then (s.rt.refs e).map (· - 1) else s.rt.refs x := fun e x =>
    Runtime.refs_count (f := (· - 1)) e x
  cases hu with
  | notFound hl hr =>
    obtain ⟨hst, hres⟩ := resume_spec hr
    refine ⟨hres.onTop hk, fun e n he => ?_⟩
    rw [hres.falling]
    exact h e n (by rw [hst.rt] at he; exact he)
  | @shared e me c' ev hl hme href hr =>
    obtain ⟨hst, hres⟩ := resume_spec hr
    have hrefs : s.rt.refs e = some me.refcount := by rw [Runtime.refs, hme]; rfl
    refine ⟨hres.onTop hk, fun x n hx => ?_⟩
    rw [hst.rt, hrel] at hx
    rw [hres.falling]
    split at hx
    · next hxe =>
      rw [hrefs, Option.map_some, Option.some.injEq] at hx
      have hold := h e _ hrefs
      rw [hxe]
      constructor
      · intro hn
        omega
      · intro hmem
        have := hold.mpr hmem
        omega
    · exact h x n hx
  | @cascade e me hl hme href =>
    have hrefs : s.rt.refs e = some me.refcount := by rw [Runtime.refs, hme]; rfl
    constructor
    · exact hk
    · intro x n hx
      rw [show falling _ = e :: falling k from rfl, List.mem_cons]
      replace hx := (hrel e x).symm.trans hx
      split at hx
      · next hxe =>
        rw [hrefs, Option.map_some, Option.some.injEq] at hx
        exact ⟨fun _ => Or.inl hxe, fun _ => by omega⟩
      · next hxe => rw [h x n hx, or_iff_right hxe]

/-! ## Every step -/

theorem callDirect_refs (hwf : c.Wf w) {q : Call} {v : Value}
    (h : callDirect w c.st q = some (s, v)) (e : EntryRef) : s.rt.refs e = c.st.rt.refs e :=
  Runtime.refs_of_core (callDirect_sameModules hwf h).1.core e

theorem modLoadBindXy_refs (w : World) (s : State) (tx : LoadTxn) (e : EntryRef) :
    (modLoadBindXy w s tx).1.rt.refs e = s.rt.refs e := by
  rcases (modLoadBindXy_spec w s tx).2.2 with ⟨hrt, -⟩ | ⟨ctx, x, -, -, -, hrt, -⟩
  · rw [hrt]
  · rw [hrt]
    exact Runtime.refs_modifyMod (g := fun me => { me with ctx := some ctx }) (fun _ => rfl) x e

theorem moduleRekeyForClaim_refs (w : World) (s : State) (caller : CStr) (pk ck : RegionKey)
    (e : EntryRef) : (moduleRekeyForClaim w s caller pk ck).rt.refs e = s.rt.refs e := by
  rcases (moduleRekeyForClaim_spec w s caller pk ck).2 with ⟨-, h⟩ | ⟨x, -, hrt, -⟩
  · rw [h]
  · rw [hrt]
    have hkey : ∀ me : ModEntry, ({ me with
        regionId := ck.id, regionPlen := ck.plen
        modKey := modKey (w.loadPath caller) ck.id ck.plen } : ModEntry).refcount = me.refcount :=
      fun _ => rfl
    exact Runtime.refs_modifyMod hkey x e

theorem modLoadLink_refs (w : World) (s : State) (tx : LoadTxn) (x : EntryRef)
    (hme : s.rt.mods x = some me) (e : EntryRef) :
    (modLoadLink w s tx x me).rt.refs e = s.rt.refs e := by
  obtain ⟨state, hmods⟩ := linkEntry_mods s.rt x me
    (((w.dlsym tx.handle .xyRegionStateSize).map w.regionStateSize).getD 0) hme
  refine Runtime.refs_update hme ?_ hmods e
  rfl

theorem ModEntry.refcount_of_core {m : ModEntry} (h : m.core = me.core) :
    m.refcount = me.refcount := by
  show m.core.refcount = _
  rw [h]
  rfl

theorem modLoadPrewarm_refs (w : World) (s : State) (x e : EntryRef) :
    (modLoadPrewarm w s x).rt.refs e = s.rt.refs e :=
  Runtime.refs_modifyMod
    (g := fun me => me.fnCachePrewarm w s.rt.hookIdHd.entries s.rt.hookIdCounter)
    (fun me => ModEntry.refcount_of_core (me.core_fnCachePrewarm (w := w) _ _)) x e

theorem reinsert_refs {r : RegionRef} {x : EntryRef} {after : Option EntryRef}
    (h : reinsert rt r x after = some rt') (e : EntryRef) : rt'.refs e = rt.refs e := by
  unfold Runtime.refs
  rw [reinsert_mods h]
  by_cases he : e = x
  · rw [he, Function.update_self]
    cases rt.mods x <;> rfl
  · rw [Function.update_of_ne he]

theorem resolved_refs {x : EntryRef} (hme : rt.mods x = some me) (hookId : Nat) (name : CStr)
    (e : EntryRef) :
    (rt.modifyMod x fun _ => me.resolved w hookId name).refs e = rt.refs e :=
  Runtime.refs_of_core
    (onlyCaches_modifyMod hme (me.core_resolved (w := w) hookId name)).core e

theorem Step.counted (hwf : c.Wf w) (h : c.Counted) (hs : Step w c a c' ev) : c'.Counted := by
  have hsame : ∀ {rt rt' : Runtime}, rt' = rt → rt.NoneCounted rt' := fun h => h ▸ .refl _
  cases hs with
  | answered hw => exact h.kept (.refl _) h.onTop rfl
  | direct hw hq => exact h.kept (.of_eq (callDirect_refs hwf hq)) h.onTop rfl
  | dispatchDone hw hd => exact h.kept (hsame (dispatchBegin_done hd).rt) h.onTop rfl
  | load hw | scope hw | eachFirst hw => exact h.push (.refl _) hw rfl rfl
  | @dispatchLoop _ retp reg selfOnly s d hw hd =>
    refine h.push ?_ hw rfl rfl
    have hstart := dispatchBegin_loop hd
    cases selfOnly with
    | true => exact hsame (hstart.self rfl).1
    | false => exact .of_eq (Runtime.refs_of_core (prepareVec_keeps (hstart.subtree rfl).1).1)
  | unload hw hu => exact hu.counted h.onTop h.held
  | reload hw hl hme hu =>
    exact hu.counted (.cons rfl (h.onTop.waiting hw)) h.held
  | shutdown => exact h.kept (fun e n he => by rw [(xyShutdown_spec w _).1] at he; cases he) trivial rfl
  | dlopenFailed hr =>
    exact h.pop (hsame (resume_spec hr).1.rt) rfl rfl (resume_spec hr).2
  | @reuse s k tx e me c' ev hl hme hr =>
    obtain ⟨hst, hres⟩ := resume_spec hr
    have hbelow := h.onTop.below rfl
    refine ⟨hres.onTop h.onTop.tail, fun x n hx => ?_⟩
    rw [hres.falling, hbelow]
    have hold := h.held x
    rw [falling_cons, hbelow] at hold
    rw [hst.rt] at hx
    replace hx := (Runtime.refs_count (f := (· + 1)) e x).symm.trans hx
    split at hx
    · next hxe =>
      subst hxe
      obtain ⟨m, hm, rfl⟩ := Option.map_eq_some_iff.mp hx
      have := hold m hm
      simp only [Frame.unloads, Option.toList_none, List.append_nil, List.not_mem_nil,
        iff_false] at this ⊢
      omega
    · exact hold n hx
  | @publish s k tx hl =>
    have hbelow := h.onTop.below rfl
    refine ⟨h.onTop, fun x n hx => ?_⟩
    have hold := h.held x
    rw [falling_cons, hbelow] at hold ⊢
    by_cases hnew : x = s.rt.nmods
    · subst hnew
      have hone : (Runtime.publishEntry s.rt (tx.freshEntry s.tls.loadingMod)).refs s.rt.nmods
          = some 1 := by
        simp [Runtime.refs, Runtime.publishEntry, LoadTxn.freshEntry]
      obtain rfl : 1 = n := Option.some.inj (hone.symm.trans hx)
      simp [Frame.unloads]
    · refine hold n (Eq.trans ?_ hx)
      show _ = (Function.update s.rt.mods s.rt.nmods _ x).map _
      rw [Function.update_of_ne hnew]
      rfl
  | dlopened | claimFlat | claimRefused | claimAsked | notGranted | eachNext | selfSkip | slotSkip =>
    exact h.go (.refl _) rfl rfl rfl rfl
  | bind => exact h.go (.of_eq fun e => modLoadBindXy_refs ..) rfl rfl rfl rfl
  | granted hg =>
    obtain ⟨-, -, -, -, hs'⟩ := xyClaimGranted_ok hg
    exact h.go (hs' ▸ .refl _) rfl rfl rfl rfl
  | rekey he hme => exact h.go (.of_eq fun e => moduleRekeyForClaim_refs ..) rfl rfl rfl rfl
  | link he hme => exact h.go (.of_eq (modLoadLink_refs _ _ _ _ hme)) rfl rfl rfl rfl
  | installMissing he hi => exact h.go (.of_eq fun x => modLoadPrewarm_refs ..) rfl rfl rfl rfl
  | install he hi => exact h.go (.of_eq fun x => modLoadPrewarm_refs ..) rfl rfl rfl rfl
  | @installed s k tx prev c' ev hr =>
    obtain ⟨hst, hres⟩ := resume_spec hr
    exact h.pop (hsame (hst.rt.trans (modLoadRestoreContext_spec _ tx).1)) rfl rfl hres
  | @abort s s' k tx err c' ev ha hr =>
    obtain ⟨hst, hres⟩ := resume_spec hr
    obtain ⟨x, hx, -, hpub⟩ := (hwf.top rfl).late rfl
    obtain ⟨me, -, hrt, -⟩ := modLoadAbort_spec hx ha
    rw [hpub] at hrt
    refine h.pop (fun e n he => ?_) rfl rfl hres
    rw [hst.rt, hrt] at he
    exact (Runtime.refs_freed rfl (discardEntry_mods s.rt x me) he).2
  | cascadeSkip hme hp => exact h.kept (.refl _) h.onTop rfl
  | cascade hme hp hst hu => exact hu.counted h.onTop h.held
  | @remove s k e me c' ev hme hr =>
    obtain ⟨hst, hres⟩ := resume_spec hr
    refine ⟨hres.onTop h.onTop.tail, fun x n hx => ?_⟩
    obtain ⟨rt₁, hcore, hmods⟩ := removeEntry_mods (w := w) s.rt e me
    rw [hst.rt, (modUnloadFinish_spec ..).1] at hx
    obtain ⟨hxe, hold⟩ := Runtime.refs_freed hcore hmods hx
    rw [hres.falling, h.held x n hold]
    show x ∈ e :: falling k ↔ _
    rw [List.mem_cons, or_iff_right hxe]
  | reloadLoad =>
    have hbelow := h.onTop.below rfl
    exact h.kept (.refl _) (.cons rfl ((falling_skip rfl).trans hbelow)) rfl
  | reinsert hl hre hi => exact h.pop (.of_eq (reinsert_refs hi)) rfl rfl (.same _)
  | reloadEnd => exact h.pop (.refl _) rfl rfl (.same _)
  | dispatchEnd hend => exact h.pop (hsame (still_dispatchEnd ..).rt) rfl rfl (.same _)
  | selfDeaf hself he hme hc hd hh => exact h.go (.of_eq (resolved_refs hme _ _)) rfl rfl rfl rfl
  | selfEnter hself he hme hc hd hh hs' =>
    exact h.go (hs' ▸ .of_eq (resolved_refs hme _ _)) rfl rfl rfl rfl
  | slotEnter hself hmi hslots hcell hme hc hcb hd' hs' =>
    refine h.go (hsame ?_) rfl rfl rfl rfl
    subst hs'
    unfold Dispatch.switch
    split <;> rfl
  | selfListened hself hme =>
    exact h.go (hsame (((State.still_writeBuf ..).trans (State.still_lastPublish ..)).rt)) rfl rfl
      rfl rfl
  | @slotListened s s' k d e bytes hself hs' =>
    refine h.go (hsame ((State.still_lastPublish ..).rt.trans ?_)) rfl rfl rfl rfl
    subst hs'
    split
    · exact (State.still_writeBuf s d.retp bytes).rt
    · exact (State.still_writeBuf s d.retp bytes).rt
  | scopeEnd => exact h.pop (.refl _) rfl rfl (.same _)
  | eachEnd => exact h.pop (.refl _) rfl rfl (.same _)

theorem counted_invariant (h : Reachable w c) : c.Counted := by
  refine h.invariant_wf Config.Counted (fun c hc => ?_)
    fun c a c' ev hwf hcounted _ hstep => hstep.counted hwf hcounted
  obtain ⟨ctxs, adapters, mem, rfl⟩ := hc
  exact ⟨trivial, fun e n he => by cases he⟩

/-- The count of an entry is positive, but while `_mod_unload` is at work on it, with
the calls of it together on top of the stack.  So each entry has a holder whenever a
module has control. -/
theorem counted_of_reachable (h : Reachable w c) :
    c.Counted ∧ (c.waiting = true → ∀ e n, c.st.rt.refs e = some n → 0 < n) := by
  refine ⟨counted_invariant h, fun hw e n he => ?_⟩
  have hnot : e ∉ falling c.stack := by
    rw [(counted_invariant h).onTop.waiting hw]
    exact List.not_mem_nil
  by_contra hn
  exact hnot (((counted_invariant h).held e n he).mp (by omega))

/-- A module is loaded twice, and the second of two unloads is at work on it. -/
theorem counted_of_two_holders :
    let twice := loadRun sampleFile 1 ++ [.call (.load sampleFile), .ret (.dlopened (some 1)), .tau]
    let c := (Config.boot sampleHook).after sampleWorld twice
    let c' := c.after sampleWorld [.call (.unload sampleFile), .call (.unload sampleFile)]
    (c.waiting = true ∧ c.st.rt.refs 0 = some 2 ∧ (0 : Int) < 2)
      ∧ (c'.st.rt.refs 0 = some 0 ∧ c'.Counted ∧ 0 ∈ falling c'.stack) := by
  intro twice c c'
  have hreach : Reachable sampleWorld c :=
    ReachableBy.after (.start (Config.boot_initial sampleHook)) fun _ _ _ => trivial
  have hreach' : Reachable sampleWorld c' := ReachableBy.after hreach fun _ _ _ => trivial
  have hrefs : c.st.rt.refs 0 = some 2 := by decide +kernel
  have hrefs' : c'.st.rt.refs 0 = some 0 := by decide +kernel
  have hw : c.waiting = true := by decide +kernel
  have hcounted := (counted_of_reachable hreach').1
  exact ⟨⟨hw, hrefs, (counted_of_reachable hreach).2 hw 0 2 hrefs⟩, hrefs', hcounted,
    (hcounted.held 0 0 hrefs').mp (Int.le_refl 0)⟩

end

end Xylem
