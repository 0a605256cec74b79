import Xylem.Calls
import Xylem.Sample

/-!
# Parent links

`parent_entry` points to the module in whose `xy_install` an entry was loaded.
It is written when the entry is allocated and never again.  `_mod_unload` first
unloads the children of an entry, those that it finds in the table, and frees the
entry whatever has become of them: a child that has another holder survives, and
keeps its link.

`KeepsParents` is what a step has to heed for the links to stay live.  `Cascades`
is the invariant of the calls in progress: every child of an entry that is being
unloaded is still to be unloaded.
-/

namespace Xylem

open Xylem.Runtime

/-- The parent of every loaded entry is loaded. -/
def ParentsLive (rt : Runtime) : Prop :=
  ∀ x me, rt.mods x = some me → ∀ p ∈ me.parentEntry, rt.mods p ≠ none

namespace Runtime

/-- The children of `e` are in the module table. -/
def ChildrenListed (w : World) (rt : Runtime) (e : EntryRef) : Prop :=
  ∀ x < rt.nmods, ∀ me ∈ rt.mods x, me.parentEntry = some e → x ∈ rt.modHdValues w

instance (w : World) (rt : Runtime) (e : EntryRef) : Decidable (rt.ChildrenListed w e) := by
  unfold ChildrenListed; infer_instance

/-- No other entry has a link to `e`. -/
def Childless (rt : Runtime) (e : EntryRef) : Prop :=
  ∀ x < rt.nmods, x ≠ e → ∀ me ∈ rt.mods x, me.parentEntry ≠ some e

instance (rt : Runtime) (e : EntryRef) : Decidable (rt.Childless e) := by
  unfold Childless; infer_instance

/-- The last holder of `e` is about to let it go, and its children are in the
table. -/
def LastHeld (w : World) (rt : Runtime) (e : EntryRef) : Prop :=
  (∀ me ∈ rt.mods e, me.refcount ≤ 1) ∧ rt.ChildrenListed w e

instance (w : World) (rt : Runtime) (e : EntryRef) : Decidable (rt.LastHeld w e) := by
  unfold LastHeld; infer_instance

end Runtime

/-- What a cascade looks up to unload the child `me`. -/
def State.cascadeLookup (w : World) (s : State) (me : ModEntry) : Option EntryRef :=
  ((me.ctx.bind fun c => (s.ctxs c).modulePath).bind s.strs).bind fun path =>
    s.rt.modHd.lookup (modKey (w.loadPath path) me.regionId me.regionPlen)

/-- The entry that a call of the module finds in the current region. -/
def State.find (w : World) (s : State) (fname : CStr) : Option EntryRef :=
  s.rt.modHd.lookup (modKey (w.loadPath fname) s.tls.current.id s.regionCurrentPlen)

/-- What a step has to heed.

* The last holder of a module unloads it: its children are in the table.
* In a cascade, the child that is next has no other holder, its children are in
  the table, and the path in its context leads back to it.
* An entry is allocated while the module that `xy_loading_mod` points to, if
  any, is loaded.
* An entry whose load fails has no children. -/
def KeepsParents (w : World) (c : Config) (a : Action) : Prop :=
  match a, c.stack with
  | .call (.unload fname), _ => ∀ e ∈ c.st.find w fname, ∀ me ∈ c.st.rt.mods e,
      me.refcount ≤ 1 → c.st.rt.ChildrenListed w e
  | .call (.reload fname), _ => ∀ e ∈ c.st.find w fname, ∀ me ∈ c.st.rt.mods e,
      me.refcount ≤ 1 → c.st.rt.ChildrenListed w e
  | .tau, .unload _ (child :: _) :: _ => c.st.rt.LastHeld w child
      ∧ ∀ me ∈ c.st.rt.mods child, c.st.cascadeLookup w me = some child
  | .tau, .load tx .opened :: _ =>
    tx.lookup.entry = none → ∀ p ∈ c.st.tls.loadingMod, (c.st.rt.mods p).isSome = true
  | .tau, .load tx (.aborting _) :: _ => ∀ e ∈ tx.modEntry, c.st.rt.Childless e
  | _, _ => True

instance (w : World) (c : Config) (a : Action) : Decidable (KeepsParents w c a) := by
  unfold KeepsParents
  generalize c.stack = k
  induction a using Action.casesOn with
  | call q => induction q using Call.casesOn <;> infer_instance
  | ret v => infer_instance
  | tau =>
    induction k using List.casesOn with
    | nil => infer_instance
    | cons f k =>
      induction f using Frame.casesOn with
      | load tx pc => induction pc using LoadPc.casesOn <;> infer_instance
      | unload x children => induction children using List.casesOn <;> infer_instance
      | _ => infer_instance

/-! ## The calls in progress -/

/-- Whether the frame is a cascade. -/
def Frame.isUnload : Frame → Bool
  | .unload .. => true
  | _ => false

/-- The children of the entries that are being unloaded: each is still to come,
or the cascade above is its own. -/
def CascadesOk (rt : Runtime) : Option EntryRef → List Frame → Prop
  | above, .unload e children :: k =>
    (∀ x me, rt.mods x = some me → x ≠ e → me.parentEntry = some e →
      x ∈ children ∨ above = some x) ∧ CascadesOk rt (some e) k
  | _, k => ∀ f ∈ k, f.isUnload = false

def Cascades (c : Config) : Prop := CascadesOk c.st.rt none c.stack

theorem CascadesOk.of_none {rt : Runtime} {above : Option EntryRef} {k : List Frame}
    (h : ∀ f ∈ k, f.isUnload = false) : CascadesOk rt above k := by
  unfold CascadesOk
  split
  · next e children k => exact absurd (h _ List.mem_cons_self) (by simp [Frame.isUnload])
  · exact h

/-- A stack whose top is no cascade has no cascade in it. -/
theorem CascadesOk.idle {rt : Runtime} {above : Option EntryRef} {k : List Frame}
    (h : CascadesOk rt above k) (hk : ∀ f ∈ k.head?, f.isUnload = false) :
    ∀ f ∈ k, f.isUnload = false := by
  unfold CascadesOk at h
  split at h
  · exact absurd (hk _ rfl) (by simp [Frame.isUnload])
  · exact h

/-- Entries may go, as long as no link appears. -/
theorem CascadesOk.mono {rt rt' : Runtime} {above above' : Option EntryRef} {k : List Frame}
    (h : CascadesOk rt above k)
    (hmods : ∀ x me', rt'.mods x = some me' →
      ∃ me, rt.mods x = some me ∧ me'.parentEntry = me.parentEntry)
    (habove : ∀ x, above = some x → rt'.mods x = none ∨ above' = some x) :
    CascadesOk rt' above' k := by
  induction k generalizing above above' with
  | nil => exact .of_none h
  | cons f k ih =>
    cases f with
    | unload e children =>
      refine ⟨fun x me' hx hne hp => ?_, ih h.2 fun x hx => Or.inr hx⟩
      obtain ⟨me, hme, hpar⟩ := hmods x me' hx
      rcases h.1 x me hme hne (hpar ▸ hp) with hin | ha
      · exact Or.inl hin
      · rcases habove x ha with hgone | ha'
        · rw [hgone] at hx
          cases hx
        · exact Or.inr ha'
    | load | reload | dispatch | scope | each => exact h

theorem CascadesOk.resumed {rt : Runtime} {above : Option EntryRef} {k k' : List Frame}
    (h : CascadesOk rt above k) (hr : Resumed k k') : CascadesOk rt above k' := by
  cases hr with
  | same => exact h
  | reload rl pc pc' k =>
    have hk := h.idle (by simp [Frame.isUnload])
    exact .of_none (List.forall_mem_cons.mpr
      ⟨rfl, fun f hf => hk f (List.mem_cons_of_mem _ hf)⟩)

section

variable {w : World} {c c' : Config} {a : Action} {ev : Event} {rt' : Runtime} {x : EntryRef}
  {me m : ModEntry}

theorem EntryChange.parentEntry (h : EntryChange w c a x me m) : m.parentEntry = me.parentEntry := by
  cases h <;> rfl

theorem release_mods {s : State} {e y : EntryRef} {me' : ModEntry}
    (h : (s.release e).rt.mods y = some me') :
    ∃ me, s.rt.mods y = some me ∧ me'.parentEntry = me.parentEntry := by
  obtain ⟨me, hme, rfl⟩ := modifyMod_some h
  refine ⟨me, hme, ?_⟩
  split <;> rfl

/-- The frame of a new cascade knows all children that are in the table. -/
theorem mem_cascadeChildren {s : State} {e y : EntryRef} {me' : ModEntry} (hheap : s.rt.HeapWf)
    (hlisted : s.rt.ChildrenListed w e) (hy : (s.release e).rt.mods y = some me') (hne : y ≠ e)
    (hp : me'.parentEntry = some e) : y ∈ (s.release e).rt.cascadeChildren w e := by
  obtain ⟨me, hme, hpar⟩ := release_mods hy
  refine List.mem_filter.mpr ⟨hlisted y (hheap.lt_of_mods hme) me hme (hpar ▸ hp), ?_⟩
  simp [hne, hy, hp]

/-- A `_mod_unload` that a module calls. -/
theorem Unloads.cascades_call {s : State} {fname : CStr} {id : RegionId} {plen : Nat}
    {k : List Frame} (hheap : s.rt.HeapWf) (hk : ∀ f ∈ k, f.isUnload = false)
    (hlisted : ∀ e ∈ s.rt.modHd.lookup (modKey (w.loadPath fname) id plen), ∀ me ∈ s.rt.mods e,
      me.refcount ≤ 1 → s.rt.ChildrenListed w e)
    (h : Unloads w s fname id plen k c' ev) : Cascades c' := by
  have hres : Resumed k c'.stack → Cascades c' := fun hr =>
    (CascadesOk.of_none hk).resumed hr
  cases h with
  | notFound hl hr => exact hres (resume_spec hr).2
  | shared hl hme href hr => exact hres (resume_spec hr).2
  | @cascade e me hl hme href =>
    refine ⟨fun y me' hy hne hp => Or.inl ?_, .of_none hk⟩
    exact mem_cascadeChildren hheap (hlisted e hl me hme (by omega)) hy hne hp

theorem Step.cascades (hwf : c.Wf w) (hinv : Cascades c) (hok : KeepsParents w c a)
    (h : Step w c a c' ev) : Cascades c' := by
  have hwait : c.waiting = true → ∀ f ∈ c.stack, f.isUnload = false := by
    intro hw
    refine CascadesOk.idle hinv fun f hf => ?_
    have hf' := Config.head_waiting hw f hf
    cases f <;> first | rfl | cases hf'
  have hpush : ∀ {f : Frame} {s : State} {k : List Frame}, (∀ f ∈ k, f.isUnload = false) →
      f.isUnload = false → Cascades ⟨s, f :: k⟩ := fun hk hf =>
    .of_none (List.forall_mem_cons.mpr ⟨hf, hk⟩)
  cases h with
  | load hw | scope hw | eachFirst hw | dispatchLoop hw => exact hpush (hwait hw) rfl
  | answered hw | direct hw | dispatchDone hw => exact .of_none (hwait hw)
  | shutdown => exact .of_none (by simp)
  | unload hw hu =>
    exact hu.cascades_call hwf.heap (hwait hw) hok
  | reload hw hl hme hu =>
    exact hu.cascades_call hwf.heap (List.forall_mem_cons.mpr ⟨rfl, hwait hw⟩) hok
  | cascadeSkip hme hp =>
    unfold KeepsParents at hok
    have hfind := hok.2 _ hme
    simp [State.cascadeLookup, hp] at hfind
  | @cascade s k e child rest me p path c' ev hme hp hs hu =>
    unfold KeepsParents at hok
    obtain ⟨⟨href, hlisted⟩, hfind⟩ := hok
    have hl : s.rt.modHd.lookup (modKey (w.loadPath path) me.regionId me.regionPlen)
        = some child := by
      simpa [State.cascadeLookup, hp, hs] using hfind me hme
    cases hu with
    | notFound hl' hr =>
      rw [hl] at hl'
      cases hl'
    | @shared e' me' _ _ hl' hme' href' hr =>
      rw [hl] at hl'
      cases hl'
      have := href me' hme'
      omega
    | @cascade e' me' hl' hme' href' =>
      rw [hl] at hl'
      cases hl'
      refine ⟨fun y m' hy hne hpar => Or.inl (mem_cascadeChildren hwf.heap hlisted hy hne hpar),
        fun y m' hy hne hpar => ?_, ?_⟩
      · obtain ⟨m, hm, hpar'⟩ := release_mods hy
        rcases hinv.1 y m hm hne (hpar' ▸ hpar) with hin | habove
        · rcases List.mem_cons.mp hin with rfl | hin
          · exact Or.inr rfl
          · exact Or.inl hin
        · cases habove
      · exact CascadesOk.mono hinv.2 (fun y m' hy => release_mods hy) fun y hy => Or.inr hy
  | @remove s k e me c' ev hme hr =>
    have heff : Effect w ⟨s, .unload e [] :: k⟩ .tau c'.st.rt := by
      rw [(resume_spec hr).1.rt, (modUnloadFinish_spec ..).1]
      exact .remove rfl rfl hme
    have hgone : c'.st.rt.mods e = none := by
      obtain ⟨rt1, -, hmods⟩ := removeEntry_mods (w := w) s.rt e me
      rw [(resume_spec hr).1.rt, (modUnloadFinish_spec ..).1, hmods, Function.update_self]
    refine CascadesOk.resumed ?_ (resume_spec hr).2
    refine CascadesOk.mono hinv.2 (fun y m' hy => ?_) fun y hy => Or.inl (by cases hy; exact hgone)
    rcases heff.entry hy with ⟨tx, k', -, hs, -⟩ | ⟨m, hm, hch⟩
    · cases hs
    · exact ⟨m, hm, hch.parentEntry⟩
  | dlopenFailed hr | reuse hl hme hr | installed hr | abort ha hr =>
    have hk := CascadesOk.idle hinv (by simp [Frame.isUnload])
    exact (CascadesOk.of_none fun f hf => hk f (List.mem_cons_of_mem _ hf)).resumed
      (resume_spec hr).2
  | reloadLoad =>
    have hk := CascadesOk.idle hinv (by simp [Frame.isUnload])
    exact hpush (List.forall_mem_cons.mpr
      ⟨rfl, fun f hf => hk f (List.mem_cons_of_mem _ hf)⟩) rfl
  | reinsert | reloadEnd | dispatchEnd | scopeEnd | eachEnd =>
    have hk := CascadesOk.idle hinv (by simp [Frame.isUnload])
    exact .of_none fun f hf => hk f (List.mem_cons_of_mem _ hf)
  | _ =>
    have hk := CascadesOk.idle hinv (by simp [Frame.isUnload])
    exact hpush (fun f hf => hk f (List.mem_cons_of_mem _ hf)) rfl

/-! ## The links -/

/-- A step that heeds the children frees no parent of an entry that lives on. -/
theorem Effect.parent_kept (hwf : c.Wf w) (hinv : Cascades c) (h : Effect w c a rt')
    (hok : KeepsParents w c a) {p : EntryRef} (hx : c.st.rt.mods x = some me)
    (hx' : rt'.mods x ≠ none) (hp : me.parentEntry = some p) (hlive : c.st.rt.mods p ≠ none) :
    rt'.mods p ≠ none := by
  intro hfree
  obtain ⟨pe, hpe⟩ := Option.ne_none_iff_exists'.mp hlive
  have hxp : x ≠ p := by
    rintro rfl
    exact hx' hfree
  unfold KeepsParents at hok
  rcases h.freed hpe hfree with ⟨k, rfl, hstack⟩ | ⟨tx, k, err, rfl, hstack, htx⟩ | ⟨rfl, -, rfl⟩
  · unfold Cascades at hinv
    rw [hstack] at hinv
    rcases hinv.1 x me hx hxp hp with hin | habove
    · cases hin
    · cases habove
  · rw [hstack] at hok
    exact hok p htx x (hwf.heap.lt_of_mods hx) hxp me hx hp
  · exact hx' rfl

theorem Effect.parentsLive (hwf : c.Wf w) (hcas : Cascades c) (hinv : ParentsLive c.st.rt)
    (hok : KeepsParents w c a) (h : Effect w c a rt') : ParentsLive rt' := by
  intro x me' hx p hp
  rcases h.entry hx with ⟨tx, k, rfl, hstack, hl, rfl, rfl⟩ | ⟨me, hme, hch⟩
  · unfold KeepsParents at hok
    rw [hstack] at hok
    have hsome : (c.st.rt.mods p).isSome = true := hok hl p hp
    obtain ⟨pe, hpe⟩ := Option.isSome_iff_exists.mp hsome
    intro hfree
    rcases h.freed hpe hfree with ⟨k', -, hs⟩ | ⟨tx', k', err, -, hs, -⟩ | ⟨ha, -⟩
    · rw [hstack] at hs
      cases hs
    · rw [hstack] at hs
      cases hs
    · cases ha
  · have hpar : me.parentEntry = some p := hch.parentEntry ▸ hp
    exact h.parent_kept hwf hcas hok hme (by rw [hx]; simp) hpar (hinv x me hme p hpar)

/-- In a run that loses no child in a cascade, and loads nothing on behalf of a
module that is gone, the parent of every loaded entry is loaded. -/
theorem parentsLive_of_keepsParents (h : ReachableBy w (KeepsParents w) c) :
    ParentsLive c.st.rt := by
  have hboth : Cascades c ∧ ParentsLive c.st.rt := by
    refine h.invariant_wf (fun c => Cascades c ∧ ParentsLive c.st.rt) (fun c hc => ?_)
      fun c a c' ev hwf hinv hok hstep => ?_
    · obtain ⟨ctxs, adapters, mem, rfl⟩ := hc
      refine ⟨.of_none fun f hf => (List.not_mem_nil hf).elim, ?_⟩
      intro x me hx
      cases hx
    · exact ⟨hstep.cascades hwf hinv.1 hok,
        (hstep.effect hwf).parentsLive hwf hinv.1 hinv.2 hok⟩
  exact hboth.2

end

/-- A load whose `xy_install` loads another module. -/
def nestedRun : List Action := (loadRun sampleFile 1).take 7 ++ loadRun sampleFile' 2
  ++ [.ret .installed]

/-- A module that loaded another is unloaded, with its child. -/
theorem parentsLive_of_cascade :
    ParentsLive (runChecked sampleWorld (KeepsParents sampleWorld) (Config.boot sampleHook)
      (nestedRun ++ [.call (.unload sampleFile), .tau, .tau, .tau])).st.rt :=
  parentsLive_of_keepsParents (.checked (.start (Config.boot_initial _)) _)

/-- The child has another holder, and survives the unload of its parent. -/
theorem not_parentsLive_of_shared :
    ∃ c, Reachable sampleWorld c ∧ c.stack = [] ∧ ¬ ParentsLive c.st.rt := by
  let c := (Config.boot sampleHook).after sampleWorld (nestedRun
    ++ [.call (.load sampleFile'), .ret (.dlopened (some 2)), .tau,
      .call (.unload sampleFile), .tau, .tau])
  have hempty : c.stack.isEmpty = true := by decide +kernel
  have hlink : (c.st.rt.mods 1).bind (·.parentEntry) = some 0 := by decide +kernel
  have hgone : (c.st.rt.mods 0).isNone = true := by decide +kernel
  refine ⟨c, ReachableBy.after (.start (Config.boot_initial _)) (fun _ _ _ => trivial),
    List.isEmpty_iff.mp hempty, fun h => ?_⟩
  obtain ⟨me, hme, hp⟩ := Option.bind_eq_some_iff.mp hlink
  exact h 1 me hme 0 hp (Option.isNone_iff_eq_none.mp hgone)

end Xylem
