import Xylem.ContextPaths
import Xylem.DispatchTurns
import Xylem.HostWork
import Xylem.Refcounts
import Xylem.Registration
import Xylem.ReloadPlace
import Xylem.StateBlocks
import Xylem.UnloadTree

/-!
# The pointers of the calls in progress

The calls in progress hold pointers to module entries, to the array of a vector and to
path strings, and module code that runs above them may free what they point to.  The
machine is `undef` where a call reads through such a pointer.

* `Frame.pointers`: the entries that a call reads again when it goes on.
* `Careful`: what the steps heed, so that nothing is freed or replaced below them.  An
  unload removes no entry that another call reads again; the rebuild of a vector has room
  in the array that a dispatch walks.
* `Config.Pointing`: what holds of the pointers then.
* `no_undef_of_careful`: no step from there is undefined, careful or not.
* `gives_back_of_careful`: the host comes to a point where a module has control.
-/

namespace Xylem

open Xylem.Runtime

/-! ## Pointers -/

/-- The entries that a call reads again when it goes on. -/
def Frame.pointers (rt : Runtime) : Frame → List EntryRef
  | .load tx .opening => tx.lookup.entry.toList
  | .load tx .opened => tx.lookup.entry.toList
  | .load _ (.installing _) => []
  | .load tx _ => tx.modEntry.toList
  | .unload e children => e :: children
  | .reload rl _ => rl.insertAfter.toList
  | .dispatch d run => if d.selfOnly then (d.cursor run).toList else d.toCome rt run
  | .scope _ => []
  | .each _ => []

/-- The entry that a load frees if it fails from here on. -/
def Frame.owned : Frame → Option EntryRef
  | .load _ (.installing _) => none
  | .load tx _ => tx.modEntry
  | _ => none

/-! ## What the steps heed -/

/-- A vector that is rebuilt with `n` slots stays in the array that a dispatch walks. -/
def Frame.HasRoom (rt : Runtime) (r : RegionRef) (hookId n : Nat) : Frame → Prop
  | .dispatch d run => d.selfOnly = false → d.caller = r → d.hookId = hookId →
      d.next run < d.n → n ≤ (rt.hookVec r hookId).cap
  | _ => True

/-- What a dispatch heeds that comes to its loop. -/
def Config.StartHasRoom (w : World) (c : Config) : Option DispatchStart → Prop
  | some (.loop _ d) => d.selfOnly = false → ¬ c.st.rt.Warm d.caller d.hookId → ∀ f ∈ c.stack,
      f.HasRoom c.st.rt d.caller d.hookId
        (c.st.rt.listing w d.anc d.hookId d.name (c.st.rt.walked d.caller)).length
  | _ => True

/-- What the steps heed.

* The paths and the keys of the modules stay good.
* `_mod_unload` removes no entry that a call below, other than a cascade, reads again.
* A vector that a dispatch below walks is rebuilt in its array.
* The counters have not come back to old values. -/
def Careful (w : World) (c : Config) (a : Action) : Prop :=
  LeadsKept w c a ∧ c.st.rt.BumpsLeft ∧
    match a, c.stack with
    | .tau, .unload x [] :: k => ∀ f ∈ k, f.isUnload = false → x ∉ f.pointers c.st.rt
    | .call (.call retp reg selfOnly), _ =>
        c.StartHasRoom w (dispatchBegin w c.st retp reg selfOnly)
    | _, _ => True

instance (rt : Runtime) (r : RegionRef) (hookId n : Nat) (f : Frame) :
    Decidable (f.HasRoom rt r hookId n) := by
  induction f using Frame.casesOn <;> unfold Frame.HasRoom <;> infer_instance

instance (w : World) (c : Config) (start : Option DispatchStart) :
    Decidable (c.StartHasRoom w start) := by
  unfold Config.StartHasRoom
  induction start using Option.casesOn with
  | none => infer_instance
  | some start => induction start using DispatchStart.casesOn <;> infer_instance

instance (w : World) (c : Config) (a : Action) : Decidable (Careful w c a) := by
  unfold Careful Runtime.BumpsLeft
  refine @instDecidableAnd _ _ inferInstance (@instDecidableAnd _ _ inferInstance ?_)
  generalize c.stack = k
  induction a using Action.casesOn with
  | call q => induction q using Call.casesOn <;> infer_instance
  | ret v => infer_instance
  | tau =>
    induction k using List.casesOn with
    | nil => infer_instance
    | cons f k =>
      induction f using Frame.casesOn with
      | unload e children => induction children using List.casesOn <;> infer_instance
      | _ => infer_instance

/-! ## What holds of the pointers -/

/-- What the upper of two calls frees, the lower one does not read: the entry of a load
that may fail, and what a cascade goes down to. -/
structure Frame.SparesPointers (rt : Runtime) (f g : Frame) : Prop where
  load : ∀ x ∈ f.owned, x ∉ g.pointers rt
  cascade : ∀ e l e' l', f = .unload e l → g = .unload e' l' → e' < e ∧ e ∉ l'

/-- The call is where its pointers say: a cascade before entries that its own has loaded,
a dispatch in the array of its vector. -/
def Frame.PointsInPlace (rt : Runtime) : Frame → Prop
  | .unload e children => children.Nodup ∧ ∀ x ∈ children, rt.loaderOf x = some e
  | .dispatch d run => d.selfOnly = false → d.next run < d.n →
      (rt.hookVec d.caller d.hookId).slots = d.slots
        ∧ d.n ≤ (rt.hookVec d.caller d.hookId).cells.length
  | _ => True

/-- What holds of the calls in progress. -/
structure Pointing (rt : Runtime) (k : List Frame) : Prop where
  live : ∀ f ∈ k, ∀ x ∈ f.pointers rt, rt.mods x ≠ none
  spares : k.Pairwise (Frame.SparesPointers rt)
  inPlace : ∀ f ∈ k, f.PointsInPlace rt

/-- What holds of the pointers in a configuration.  The next dispatch will have a vector to
walk. -/
structure Config.Pointing (c : Config) : Prop where
  stack : Xylem.Pointing c.st.rt c.stack
  stamps : c.st.rt.Stamps
  vecs : ∀ r < c.st.rt.nregions, ∀ k, c.st.rt.Warm r k → c.st.rt.VecSound r k

section

variable {w : World} {c c' : Config} {a : Action} {ev : Event} {rt rt' : Runtime} {s : State}
  {f : Frame} {k k' : List Frame} {d : Dispatch} {run : Option EntryRef} {x e : EntryRef}
  {me : ModEntry}

/-! ## The calls below a step -/

theorem Step.waiting {q : Call} (h : Step w c (.call q) c' ev) : c.waiting = true := by
  cases h with
  | shutdown => rfl
  | load hw | unload hw | reload hw | scope hw | eachFirst hw | answered hw | direct hw
  | dispatchDone hw | dispatchLoop hw => exact hw

/-- What the vector of a dispatch in progress is after a step: the same, or the slots of
modules of the region, written over it in the same array. -/
theorem Step.vec_cases (hwf : c.Wf w) (hok : Careful w c a) (h : Step w c a c' ev)
    (hf : .dispatch d run ∈ c.stack) (hself : d.selfOnly = false) :
    c'.st.rt.hookVec d.caller d.hookId = c.st.rt.hookVec d.caller d.hookId
      ∨ c.waiting = true ∧ ∃ l : List DispatchSlot,
        (∀ slot ∈ l, slot.me ∈ c.st.rt.walked d.caller)
        ∧ (c'.st.rt.hookVec d.caller d.hookId).cells
          = l ++ (c.st.rt.hookVec d.caller d.hookId).cells.drop l.length
        ∧ (d.next run < d.n → (c'.st.rt.hookVec d.caller d.hookId).slots
          = (c.st.rt.hookVec d.caller d.hookId).slots) := by
  have hcaller := (hwf.stack.ok _ hf).1
  rcases h.hookVec_cases hwf hcaller d.hookId (List.ne_nil_of_mem hf) with
    hvec | ⟨retp, reg, s, d', rfl, hd, hrt⟩
  · exact Or.inl hvec
  have hstart := dispatchBegin_loop hd
  have hp := prepareVec_spec (hstart.subtree rfl).1
  rw [hrt]
  by_cases hhit : (d.caller = d'.caller ∧ d.hookId = d'.hookId)
      ∧ ¬ c.st.rt.Warm d'.caller d'.hookId
  · obtain ⟨⟨hr, hk⟩, hcold⟩ := hhit
    have hroom : c.StartHasRoom w (some (.loop s d')) := hd ▸ hok.2.2
    refine Or.inr ⟨h.waiting, c.st.rt.listing w d'.anc d'.hookId d'.name
      (c.st.rt.walked d'.caller), fun slot hslot => ?_, ?_, fun hnext => ?_⟩
    · rw [hr]
      exact (c.st.rt.listing_sublist d'.anc d'.hookId d'.name _).subset
        (List.mem_map_of_mem hslot)
    · rw [hr, hk]
      exact hp.cells hcold
    · rw [hr, hk]
      exact hp.slots hcold (hroom hstart.selfOnly hcold _ hf hself hr hk hnext)
  · refine Or.inl ?_
    by_cases hrk : d.caller = d'.caller ∧ d.hookId = d'.hookId
    · have hwarm : c.st.rt.Warm d'.caller d'.hookId := by
        by_contra hcold
        exact hhit ⟨hrk, hcold⟩
      rw [hrk.1, hrk.2]
      exact (hp.warm hwarm).1
    · exact hp.vec_ne _ _ (by tauto)

/-- What a call reads after a step, it read before, or a region lists it. -/
theorem Step.pointers (hwf : c.Wf w) (hl : c.st.rt.SubtreeLists) (hok : Careful w c a)
    (h : Step w c a c' ev) (hf : f ∈ c.stack) (hx : x ∈ f.pointers c'.st.rt) :
    x ∈ f.pointers c.st.rt ∨ c.waiting = true ∧ c.st.rt.Loaded x := by
  cases f with
  | load tx pc => cases pc <;> exact Or.inl hx
  | unload | reload | scope | each => exact Or.inl hx
  | dispatch d run =>
    cases hself : d.selfOnly with
    | true =>
      rw [Frame.pointers, if_pos hself] at hx ⊢
      exact Or.inl hx
    | false =>
      rw [Frame.pointers, if_neg (by simp [hself]), Dispatch.toCome, if_neg (by simp [hself])]
        at hx ⊢
      obtain ⟨slot, hslot, rfl⟩ := List.mem_map.mp hx
      rcases h.vec_cases hwf hok hf hself with hvec | ⟨hw, l, hl', hcells, -⟩
      · rw [Dispatch.cellsLeft, hvec] at hslot
        exact Or.inl (List.mem_map_of_mem hslot)
      · obtain ⟨i, hi⟩ := List.mem_iff_getElem?.mp hslot
        rw [Dispatch.cellsLeft, hcells, Cursor.getElem?_upTo] at hi
        split at hi
        · next hlt =>
          rcases Nat.lt_or_ge (d.next run + i) l.length with hin | hge
          · rw [List.getElem?_append_left hin] at hi
            have hwalked := hl' slot (List.mem_of_getElem? hi)
            rw [walked_eq hwf.tree hl (hwf.stack.ok _ hf).1, List.mem_flatMap] at hwalked
            obtain ⟨y, -, hy⟩ := hwalked
            exact Or.inr ⟨hw, hwf.heap.loaded hy⟩
          · rw [List.getElem?_append_right hge, List.getElem?_drop, Nat.add_sub_cancel' hge] at hi
            refine Or.inl (List.mem_map_of_mem (List.mem_iff_getElem?.mpr ⟨i, ?_⟩))
            rw [Dispatch.cellsLeft, Cursor.getElem?_upTo, if_pos hlt, hi]
        · cases hi

/-- The loader of an entry that lives on is the same. -/
theorem Effect.loaderOf_eq (hwf : c.Wf w) (h : Effect w c a rt') (hme : c.st.rt.mods x = some me)
    (hlive : rt'.mods x ≠ none) : rt'.loaderOf x = c.st.rt.loaderOf x := by
  obtain ⟨me', hme'⟩ := Option.ne_none_iff_exists'.mp hlive
  rcases h.entry hme' with ⟨-, -, -, -, -, rfl, -⟩ | ⟨m, hm, hch⟩
  · exact absurd (hwf.heap.lt_of_mods hme) (Nat.lt_irrefl _)
  · obtain rfl := Option.some.inj (hme.symm.trans hm)
    simp only [loaderOf, hme, hme', Option.bind_some]
    exact hch.parentEntry

/-- The step frees no entry. -/
def Config.FreesNone (c : Config) (a : Action) : Prop :=
  ∀ f k, a = .tau → c.stack = f :: k → f.frees = false

/-- A call below keeps its pointers to live entries. -/
theorem Step.live_below (hwf : c.Wf w) (hl : c.st.rt.SubtreeLists) (hok : Careful w c a)
    (hin : c.Pointing) (h : Step w c a c' ev) (hf : f ∈ c.stack)
    (hbelow : f ∈ c.stack.tail ∨ c.FreesNone a) (hx : x ∈ f.pointers c'.st.rt) :
    c'.st.rt.mods x ≠ none := by
  have hold := h.pointers hwf hl hok hf hx
  obtain ⟨me, hme⟩ : ∃ me, c.st.rt.mods x = some me := by
    rcases hold with hx | ⟨-, hload⟩
    · exact Option.ne_none_iff_exists'.mp (hin.stack.live f hf x hx)
    · exact hload.exists_mods
  intro hgone
  have hspares := hin.stack.spares
  rcases (h.effect hwf).freed hme hgone with
    ⟨k, rfl, hstack⟩ | ⟨tx, k, err, rfl, hstack, htx⟩ | ⟨-, hidle, -⟩
  · have hk : f ∈ k := hbelow.elim (fun hk => by rwa [hstack] at hk)
      fun hno => nomatch hno _ k rfl hstack
    have hx : x ∈ f.pointers c.st.rt := by
      rcases hold with hx | ⟨hw, -⟩
      · exact hx
      · rw [Config.waiting, hstack] at hw
        cases hw
    rw [hstack] at hspares
    have hf := (List.pairwise_cons.mp hspares).1 f hk
    cases hun : f.isUnload with
    | true =>
      cases f with
      | unload e' l' =>
        obtain ⟨hlt, hnot⟩ := hf.cascade x [] e' l' rfl rfl
        rcases List.mem_cons.mp hx with rfl | hx
        · exact Nat.lt_irrefl _ hlt
        · exact hnot hx
      | load | reload | dispatch | scope | each => cases hun
    | false =>
      have hheeds := hok.2.2
      rw [hstack] at hheeds
      exact hheeds f hk hun hx
  · have hk : f ∈ k := hbelow.elim (fun hk => by rwa [hstack] at hk)
      fun hno => nomatch hno _ k rfl hstack
    have hx : x ∈ f.pointers c.st.rt := by
      rcases hold with hx | ⟨hw, -⟩
      · exact hx
      · rw [Config.waiting, hstack] at hw
        cases hw
    rw [hstack] at hspares
    exact ((List.pairwise_cons.mp hspares).1 f hk).load x htx hx
  · rw [hidle] at hf
    cases hf

/-- What a load may free is in no list while others have control. -/
theorem Frame.owned_off (hwf : c.Wf w) (hf : f ∈ c.stack) (hpark : f.parked = true)
    (hx : x ∈ f.owned) : ¬ c.st.rt.Loaded x := by
  cases f with
  | unload | reload | dispatch | scope | each => cases hx
  | load tx pc =>
    have hok : tx.Ok w c.st.rt pc := hwf.stack.ok _ hf
    cases pc with
    | opening =>
      have hx : tx.modEntry = some x := hx
      rw [hok.early rfl] at hx
      cases hx
    | handler => exact fun hload => hload (hok.raw rfl x hx)
    | installing => cases hx
    | opened | bind | claim | rekey | link | install | aborting => cases hpark

/-- The calls that were in progress still point to what they may read. -/
theorem Step.pointing_below (hwf : c.Wf w) (hl : c.st.rt.SubtreeLists) (hpark : c.Parked)
    (hok : Careful w c a) (hin : c.Pointing) (h : Step w c a c' ev) (hk : k.Sublist c.stack)
    (hbelow : k = c.stack.tail ∨ c.FreesNone a) : Pointing c'.st.rt k := by
  have hlive : ∀ f ∈ k, ∀ x ∈ f.pointers c'.st.rt, c'.st.rt.mods x ≠ none := fun f hf x hx =>
    h.live_below hwf hl hok hin (hk.subset hf) (hbelow.imp_left fun heq : k = c.stack.tail => heq ▸ hf) hx
  refine ⟨hlive, ?_, fun f hf => ?_⟩
  · refine (hin.stack.spares.sublist hk).imp_of_mem fun {f g} hf hg hfg => ⟨fun x hx hg' => ?_,
      hfg.cascade⟩
    rcases h.pointers hwf hl hok (hk.subset hg) hg' with hold | ⟨hw, hload⟩
    · exact hfg.load x hx hold
    · exact Frame.owned_off hwf (hk.subset hf) (hpark.all hw f (hk.subset hf)) hx hload
  · have hplace := hin.stack.inPlace f (hk.subset hf)
    cases f with
    | load | reload | scope | each => trivial
    | unload e l =>
      refine ⟨hplace.1, fun x hx => ?_⟩
      have hx' : x ∈ (Frame.unload e l).pointers c.st.rt := List.mem_cons_of_mem _ hx
      obtain ⟨me, hme⟩ := Option.ne_none_iff_exists'.mp
        (hin.stack.live _ (hk.subset hf) x hx')
      rw [(h.effect hwf).loaderOf_eq hwf hme (hlive _ hf x hx')]
      exact hplace.2 x hx
    | dispatch d run =>
      intro hself hnext
      obtain ⟨hslots, hlen⟩ := hplace hself hnext
      rcases h.vec_cases hwf hok (hk.subset hf) hself with hvec | ⟨-, l, -, hcells, hslots'⟩
      · rw [hvec]
        exact ⟨hslots, hlen⟩
      · refine ⟨(hslots' hnext).trans hslots, ?_⟩
        rw [hcells, List.length_append, List.length_drop]
        omega

/-! ## The call on top -/

theorem Pointing.nil : Pointing rt [] :=
  ⟨fun _ hf => (List.not_mem_nil hf).elim, .nil, fun _ hf => (List.not_mem_nil hf).elim⟩

theorem Pointing.cons (hk : Pointing rt k) (hlive : ∀ x ∈ f.pointers rt, rt.mods x ≠ none)
    (hspares : ∀ g ∈ k, f.SparesPointers rt g) (hplace : f.PointsInPlace rt) : Pointing rt (f :: k) :=
  ⟨List.forall_mem_cons.mpr ⟨hlive, hk.live⟩, List.pairwise_cons.mpr ⟨hspares, hk.spares⟩,
    List.forall_mem_cons.mpr ⟨hplace, hk.inPlace⟩⟩

theorem Pointing.tail (hk : Pointing rt (f :: k)) : Pointing rt k :=
  ⟨(List.forall_mem_cons.mp hk.live).2, (List.pairwise_cons.mp hk.spares).2,
    (List.forall_mem_cons.mp hk.inPlace).2⟩

/-- A call that is neither a load nor an unload frees nothing. -/
theorem Frame.SparesPointers.of_plain (hown : f.owned = none) (hun : f.unloads = none)
    (g : Frame) : f.SparesPointers rt g := by
  refine ⟨fun x hx => ?_, fun e l e' l' hf => ?_⟩
  · rw [hown] at hx
    cases hx
  · subst hf
    cases hun

/-- Another call is put on top. -/
theorem Pointing.push (hk : Pointing rt k) (hlive : ∀ x ∈ f.pointers rt, rt.mods x ≠ none)
    (hown : f.owned = none) (hun : f.unloads = none) (hplace : f.PointsInPlace rt) :
    Pointing rt (f :: k) :=
  hk.cons hlive (fun g _ => .of_plain hown hun g) hplace

/-- The call on top goes on, and may free no more than before. -/
theorem Pointing.go {f' : Frame} (hk : Pointing rt (f :: k))
    (hlive : ∀ x ∈ f'.pointers rt, rt.mods x ≠ none) (hown : ∀ x ∈ f'.owned, x ∈ f.owned)
    (hun : f'.unloads = none) (hplace : f'.PointsInPlace rt) : Pointing rt (f' :: k) := by
  refine hk.tail.cons hlive (fun g hg => ⟨fun x hx => ?_, fun e l e' l' hf => ?_⟩) hplace
  · exact ((List.pairwise_cons.mp hk.spares).1 g hg).load x (hown x hx)
  · subst hf
    cases hun

/-- The call on top goes on with the same pointers. -/
theorem Pointing.goOn {f' : Frame} (hk : Pointing rt (f :: k))
    (hptr : f'.pointers rt = f.pointers rt) (hown : f'.owned = f.owned)
    (hun : f'.unloads = none) (hplace : f'.PointsInPlace rt) : Pointing rt (f' :: k) :=
  hk.go (fun x hx => hk.live f List.mem_cons_self x (hptr ▸ hx)) (fun _ hx => hown ▸ hx) hun hplace

/-- An exact-region loop stands at another entry. -/
theorem Pointing.turn {d' : Dispatch} {run' : Option EntryRef}
    (hk : Pointing rt (.dispatch d run :: k)) (hself : d'.selfOnly = true)
    (hlive : ∀ x ∈ d'.cursor run', rt.mods x ≠ none) : Pointing rt (.dispatch d' run' :: k) := by
  refine hk.go (fun x hx => ?_) (fun _ hx => by cases hx) rfl fun hno => ?_
  · rw [Frame.pointers, if_pos hself] at hx
    exact hlive x (Option.mem_toList.mp hx)
  · rw [hself] at hno
    cases hno

/-- A subtree loop leaves slots behind. -/
theorem Pointing.advance {d' : Dispatch} {run' : Option EntryRef}
    (hk : Pointing rt (.dispatch d run :: k)) (hself : d.selfOnly = false)
    (hnext : d.next run ≤ d'.next run')
    (hsame : d'.selfOnly = d.selfOnly ∧ d'.caller = d.caller ∧ d'.hookId = d.hookId
      ∧ d'.slots = d.slots ∧ d'.n = d.n) : Pointing rt (.dispatch d' run' :: k) := by
  obtain ⟨hself', hcaller, hhook, hslots, hn⟩ := hsame
  rw [hself] at hself'
  refine hk.go (fun x hx => hk.live _ List.mem_cons_self x ?_) (fun _ hx => by cases hx) rfl
    fun _ hlt => ?_
  · rw [Frame.pointers, if_neg (by simp [hself']), Dispatch.toCome, if_neg (by simp [hself']),
      Dispatch.cellsLeft, hcaller, hhook, hn] at hx
    rw [Frame.pointers, if_neg (by simp [hself]), Dispatch.toCome, if_neg (by simp [hself])]
    exact ((List.drop_sublist_drop_left _ hnext).map _).subset hx
  · rw [hcaller, hhook, hslots, hn]
    exact hk.inPlace _ List.mem_cons_self hself (by omega)

theorem Pointing.resumed (hk : Pointing rt k) (h : Resumed k k') : Pointing rt k' := by
  cases h with
  | same => exact hk
  | reload rl pc pc' k =>
    exact hk.go (fun x hx => hk.live _ List.mem_cons_self x hx) (fun _ hx => hx) rfl trivial

/-- `_mod_unload` up to its cascade.  What it unloads is below no other cascade, or the
child that the cascade below has come to. -/
theorem Unloads.pointing {fname : CStr} {id : RegionId} {plen : Nat}
    (hkey : ∀ {κ κ' y}, s.rt.modHd.lookup κ = some y → s.rt.modHd.lookup κ' = some y → κ = κ')
    (h : Unloads w s fname id plen k c' ev) (hk : Pointing c'.st.rt k)
    (hbelow : ∀ e ∈ s.rt.modHd.lookup (modKey (w.loadPath fname) id plen), ∀ e' l',
      .unload e' l' ∈ k → e' < e ∧ e ∉ l') : Pointing c'.st.rt c'.stack := by
  cases h with
  | notFound hl hr => exact hk.resumed (resume_spec hr).2
  | shared hl hme href hr => exact hk.resumed (resume_spec hr).2
  | @cascade e me hl hme href =>
    obtain ⟨hnodup, hmem⟩ := @cascadeChildren_spec (s.release e).rt w e hkey
    have hself : (s.release e).rt.mods e ≠ none := by
      simp [State.release, modifyMod, hme]
    have hloader : ∀ x ∈ (s.release e).rt.cascadeChildren w e,
        (s.release e).rt.loaderOf x = some e := fun x hx => ((hmem x).mp hx).2.2
    refine hk.cons (fun x hx => ?_) (fun g hg => ⟨fun _ hx => (by cases hx), ?_⟩) ⟨hnodup, hloader⟩
    · rcases List.mem_cons.mp hx with rfl | hx
      · exact hself
      · intro hnone
        have hx := hloader x hx
        rw [loaderOf, hnone] at hx
        cases hx
    · intro e₁ l₁ e' l' hf hg'
      cases hf
      exact hbelow e hl e' l' (hg' ▸ hg)

/-- What an exact-region loop goes on to is in the list. -/
theorem Runtime.HeapWf.regionNext_live (hheap : rt.HeapWf) (hx : rt.regionNext e me = some x) :
    rt.mods x ≠ none := by
  obtain ⟨r, -, hnext⟩ := Option.bind_eq_some_iff.mp hx
  rw [Runtime.nextIn_eq] at hnext
  have hin := Cursor.mem_of_ahead (List.mem_of_head? hnext)
  exact Option.isSome_iff_ne_none.mp (hheap.live_of_listed (r := r) hin)

theorem Runtime.HeapWf.regionPrev_live (hheap : rt.HeapWf) (hx : rt.regionPrev e me = some x) :
    rt.mods x ≠ none := by
  obtain ⟨r, -, hprev⟩ := Option.bind_eq_some_iff.mp hx
  exact Option.isSome_iff_ne_none.mp (hheap.live_of_listed (r := r) (prevIn_mem hprev).1)

theorem Runtime.HeapWf.table_live (hheap : rt.HeapWf) {κ : List UInt8}
    (hx : rt.modHd.lookup κ = some x) : rt.mods x ≠ none := by
  have hkey := hheap.table hx
  intro hnone
  rw [keyOf, hnone] at hkey
  cases hkey

theorem Runtime.HeapWf.key_inj (hheap : rt.HeapWf) {κ κ' : List UInt8}
    (hκ : rt.modHd.lookup κ = some x) (hκ' : rt.modHd.lookup κ' = some x) : κ = κ' :=
  Option.some.inj ((hheap.table hκ).symm.trans (hheap.table hκ'))

/-- The dispatch that comes to its loop points to live entries. -/
theorem Config.Pointing.start (hwf : c.Wf w) (hl : c.st.rt.SubtreeLists) (hok : Careful w c a)
    (hin : c.Pointing) {retp : Option BufRef} {reg : Option AdapterRef} {selfOnly : Bool}
    (heff : Effect w c a s.rt)
    (hd : dispatchBegin w c.st retp reg selfOnly = some (.loop s d)) :
    (∀ x ∈ (Frame.dispatch d none).pointers s.rt, s.rt.mods x ≠ none)
      ∧ (Frame.dispatch d none).PointsInPlace s.rt := by
  have hstart := dispatchBegin_loop hd
  have hheap : s.rt.HeapWf := heff.heap hwf
  have hlive : ∀ {r x}, x ∈ s.rt.modsOf r → s.rt.mods x ≠ none := fun hx =>
    Option.isSome_iff_ne_none.mp (hheap.live_of_listed hx)
  cases hself : d.selfOnly with
  | true =>
    obtain ⟨hrt, hme, -⟩ := hstart.self (hstart.selfOnly ▸ hself)
    refine ⟨fun x hx => ?_, fun hfalse => absurd hfalse (by simp [hself])⟩
    rw [Frame.pointers, if_pos hself, Dispatch.cursor, hme, ← hrt] at hx
    exact hlive (List.mem_of_head? (Option.mem_toList.mp hx))
  | false =>
    obtain ⟨hv, hslots, hn, -⟩ := hstart.subtree (hstart.selfOnly ▸ hself)
    have hlt : d.caller < s.rt.nregions := by
      rw [(rebuild_of_prepareVec hv).nregions]
      exact hwf.callerRegion_lt hstart.caller
    have hvec := heff.vecSound hwf hl hin.stamps hok.2.1 hin.vecs _ hlt _ (prepareVec_spec hv).stamped
    refine ⟨fun x hx => ?_, fun _ _ => ⟨hslots.symm, hn ▸ hvec.count_le⟩⟩
    rw [Frame.pointers, if_neg (by simp [hself]), Dispatch.toCome, if_neg (by simp [hself]),
      Dispatch.cellsLeft, Cursor.upTo, show d.next none = 0 from hstart.mi, List.drop_zero, hn] at hx
    have hwalked := hvec.sublist.subset hx
    rw [walked_eq (heff.tree hwf) (heff.subtreeLists hwf hl) hlt, List.mem_flatMap] at hwalked
    obtain ⟨y, -, hy⟩ := hwalked
    exact hlive hy

/-- The child that a cascade has come to is below no other cascade. -/
theorem Pointing.child {child : EntryRef} {rest : List EntryRef}
    (hk : Pointing rt (.unload e (child :: rest) :: k)) (holder : e < child) {e' : EntryRef}
    {l' : List EntryRef} (hin : .unload e' l' ∈ Frame.unload e rest :: k) :
    e' < child ∧ child ∉ l' := by
  obtain ⟨hnodup, hloader⟩ := (List.forall_mem_cons.mp hk.inPlace).1
  rcases List.mem_cons.mp hin with heq | hin
  · cases heq
    exact ⟨holder, (List.nodup_cons.mp hnodup).1⟩
  · obtain ⟨hlt, -⟩ := ((List.pairwise_cons.mp hk.spares).1 _ hin).cascade _ _ _ _ rfl rfl
    refine ⟨Nat.lt_trans hlt holder, fun hmem => ?_⟩
    have hloader' := ((List.forall_mem_cons.mp hk.inPlace).2 _ hin).2 child hmem
    rw [hloader child List.mem_cons_self] at hloader'
    exact Nat.ne_of_gt hlt (Option.some.inj hloader')

/-- A cascade goes on to its next child. -/
theorem Pointing.skip {child : EntryRef} {rest : List EntryRef}
    (hk : Pointing rt (.unload e (child :: rest) :: k)) : Pointing rt (.unload e rest :: k) := by
  have hlive := (List.forall_mem_cons.mp hk.live).1
  have hplace := (List.forall_mem_cons.mp hk.inPlace).1
  refine hk.tail.cons (fun x hx => ?_) (fun g hg => ⟨fun _ hx => (by cases hx), fun e₁ l₁ e' l' hf hg' => ?_⟩)
    ⟨(List.nodup_cons.mp hplace.1).2, fun x hx => hplace.2 x (List.mem_cons_of_mem _ hx)⟩
  · rcases List.mem_cons.mp hx with rfl | hx
    · exact hlive _ List.mem_cons_self
    · exact hlive x (List.mem_cons_of_mem _ (List.mem_cons_of_mem _ hx))
  · cases hf
    exact ((List.pairwise_cons.mp hk.spares).1 g hg).cascade _ _ _ _ rfl hg'

/-- What is known of a configuration that careful steps reach. -/
structure Config.Known (w : World) (c : Config) : Prop where
  wf : c.Wf w
  subtrees : c.st.rt.SubtreeLists
  parked : c.Parked
  onTop : CascadesOnTop c.stack
  paths : c.PathsLead w
  tabled : c.Tabled
  older : c.ParentsOlder

/-- A module calls with no cascade in progress. -/
theorem Config.Known.no_cascade (h : c.Known w) (hw : c.waiting = true) {l : List EntryRef}
    (hin : .unload e l ∈ c.stack) : False := by
  have hfalls : e ∈ falling c.stack := List.mem_filterMap.mpr ⟨_, hin, rfl⟩
  rw [h.onTop.waiting hw] at hfalls
  cases hfalls

theorem Config.FreesNone.of_top (hstack : c.stack = f :: k) (hf : f.frees = false) :
    c.FreesNone a := fun g l _ heq => by
  rw [← (List.cons.inj (hstack.symm.trans heq)).1]
  exact hf

theorem Config.FreesNone.of_ne (ha : a ≠ .tau) : c.FreesNone a := fun _ _ htau => absurd htau ha

/-- After a careful step, the calls in progress point to what they may read. -/
theorem Step.pointing (hc : c.Known w) (hok : Careful w c a) (hin : c.Pointing)
    (h : Step w c a c' ev) : Pointing c'.st.rt c'.stack := by
  have hwf := hc.wf
  have heff := h.effect hwf
  have hheap := heff.heap hwf
  have htail : Pointing c'.st.rt c.stack.tail :=
    h.pointing_below hwf hc.subtrees hc.parked hok hin (List.tail_sublist _) (Or.inl rfl)
  have hall : c.FreesNone a → Pointing c'.st.rt c.stack := fun hno =>
    h.pointing_below hwf hc.subtrees hc.parked hok hin (List.Sublist.refl _) (Or.inr hno)
  have hnotau : a ≠ .tau → c.FreesNone a := .of_ne
  have htop : ∀ {f k}, c.stack = f :: k → f.frees = false → Pointing c'.st.rt (f :: k) :=
    fun hstack hf => hstack ▸ hall (.of_top hstack hf)
  have hstep := h
  cases h with
  | shutdown => exact .nil
  | answered | direct | dispatchDone => exact hall (hnotau (by rintro ⟨⟩))
  | load =>
    refine (hall (hnotau (by rintro ⟨⟩))).push (fun x hx => ?_) rfl rfl trivial
    exact hheap.table_live (Option.mem_toList.mp hx)
  | scope | eachFirst => exact (hall (hnotau (by rintro ⟨⟩))).push (fun x hx => nomatch hx) rfl rfl trivial
  | unload hw hu =>
    exact hu.pointing hwf.heap.key_inj (hall (hnotau (by rintro ⟨⟩))) fun e he e' l' hmem =>
      (hc.no_cascade hw hmem).elim
  | @reload _ _ _ fname e me hw hl hme hu =>
    refine hu.pointing hwf.heap.key_inj ((hall (hnotau (by rintro ⟨⟩))).push (fun x hx => ?_) rfl rfl trivial)
      fun e he e' l' hmem => ?_
    · exact heff.live (by rintro ⟨⟩) (hnotau (by rintro ⟨⟩)) _ (hwf.heap.regionPrev_live (Option.mem_toList.mp hx))
    · rcases List.mem_cons.mp hmem with heq | hmem
      · cases heq
      · exact (hc.no_cascade hw hmem).elim
  | dispatchLoop hw hd =>
    obtain ⟨hlive, hplace⟩ := hin.start hwf hc.subtrees hok heff hd
    exact (hall (hnotau (by rintro ⟨⟩))).push hlive rfl rfl hplace
  | dlopenFailed hr => exact htail.resumed (resume_spec hr).2
  | reuse hl hme hr => exact htail.resumed (resume_spec hr).2
  | installed hr => exact htail.resumed (resume_spec hr).2
  | abort ha hr => exact htail.resumed (resume_spec hr).2
  | remove hme hr => exact htail.resumed (resume_spec hr).2
  | dlopened | notGranted => exact (htop rfl rfl).goOn rfl rfl rfl trivial
  | granted hg =>
    exact (htop rfl rfl).goOn rfl rfl rfl trivial
  | @publish s k tx hnew =>
    have hself : (s.rt.publishEntry (tx.freshEntry s.tls.loadingMod)).mods s.rt.nmods ≠ none := by
      simp [publishEntry]
    refine htail.cons (fun x hx => ?_) (fun g hg => ⟨fun x hx hread => ?_, fun _ _ _ _ hf => by cases hf⟩) trivial
    · obtain rfl : s.rt.nmods = x := Option.some.inj (Option.mem_toList.mp hx)
      exact hself
    · obtain rfl : s.rt.nmods = x := Option.some.inj hx
      rcases hstep.pointers hwf hc.subtrees hok (List.mem_cons_of_mem _ hg) hread with
        hold | ⟨hw, -⟩
      · exact hin.stack.live g (List.mem_cons_of_mem _ hg) _ hold (hwf.heap.fresh le_rfl)
      · cases hw
  | @bind s k tx =>
    have hold := htop rfl rfl
    split
    · exact hold.goOn rfl rfl rfl trivial
    · exact hold.goOn rfl rfl rfl trivial
  | claimFlat | claimRefused | claimAsked | rekey | link | installMissing =>
    exact (htop rfl rfl).goOn rfl rfl rfl trivial
  | install =>
    exact (htop rfl rfl).go (fun x hx => by cases hx) (fun x hx => by cases hx) rfl trivial
  | cascadeSkip => exact (htop rfl rfl).skip
  | @cascade s k e child rest me p path c' ev hme hp hs hu =>
    have hold : Pointing c'.st.rt (.unload e (child :: rest) :: k) := htop rfl rfl
    refine hu.pointing hwf.heap.key_inj hold.skip fun e₁ he₁ e' l' hmem => ?_
    have hctx : me.ctx ≠ none := fun hnone => by
      rw [hnone] at hp
      cases hp
    have hback := hc.paths.leadsBack hc.tabled hme hctx
    simp only [State.cascadeLookup, hp, hs, Option.bind_some] at hback
    obtain rfl : e₁ = child := Option.some.inj (he₁.symm.trans hback)
    have hloader := (hin.stack.inPlace _ List.mem_cons_self).2 e₁ List.mem_cons_self
    rw [loaderOf, hme] at hloader
    exact hin.stack.child (hc.older.older e₁ me hme e hloader) hmem
  | @reloadLoad s k rl =>
    have hrest : Pointing s.rt (.reload rl .loading :: k) :=
      (htop rfl rfl).goOn rfl rfl rfl trivial
    refine hrest.push (fun x hx => ?_) rfl rfl trivial
    exact hheap.table_live (Option.mem_toList.mp hx)
  | reinsert | reloadEnd | dispatchEnd | scopeEnd | eachEnd => exact htail
  | eachNext => exact (htop rfl rfl).goOn rfl rfl rfl trivial
  | selfSkip hself he hme hskip =>
    exact (htop rfl rfl).turn hself fun x hx => hheap.regionNext_live hx
  | selfDeaf hself he hme hc hd hh =>
    exact (htop rfl rfl).turn hself fun x hx =>
      heff.live (by rintro ⟨⟩) (Config.FreesNone.of_top rfl rfl) _ (hwf.heap.regionNext_live hx)
  | selfEnter hself he hme hc hd hh hs' =>
    refine (htop rfl rfl).turn hself fun x hx => ?_
    cases hx
    exact heff.live (by rintro ⟨⟩) (Config.FreesNone.of_top rfl rfl) _ (by simp [hme])
  | selfListened hself hme =>
    exact (htop rfl rfl).turn hself fun x hx =>
      heff.live (by rintro ⟨⟩) (hnotau (by rintro ⟨⟩)) _ (hwf.heap.regionNext_live hx)
  | @slotSkip s k d slot me hself hmi hslots hcell hme hskip =>
    exact (htop rfl rfl).advance hself (Nat.le_succ d.mi) ⟨rfl, rfl, rfl, rfl, rfl⟩
  | @slotEnter s k d d' slot me ctx s' hself hmi hslots hcell hme hc hcb hd' hs' =>
    subst hd'
    exact (htop rfl rfl).advance hself (Nat.le_succ d.mi) ⟨rfl, rfl, rfl, rfl, rfl⟩
  | @slotListened s s' k d e bytes hself hs' =>
    exact (htop rfl rfl).advance hself (Nat.le_refl _) ⟨rfl, rfl, rfl, rfl, rfl⟩

theorem known_of_careful (h : ReachableBy w (Careful w) c) : c.Known w where
  wf := .of_reachable h
  subtrees := subtreeLists_of_reachable h
  parked := parked_of_reachable h
  onTop := (counted_invariant (h.mono fun _ _ _ => trivial)).onTop
  paths := pathsLead_of_pathsKept (fun _ _ hok => hok.1.1) h
  tabled := tabled_of_keysApart (h.mono fun _ _ hok => hok.1.2)
  older := parentsOlder_of_reachable h

theorem pointing_of_careful (h : ReachableBy w (Careful w) c) : c.Pointing := by
  refine h.invariant_of (fun _ => known_of_careful) (fun c hc => ?_)
    fun c a c' hc hin hok ⟨ev, hs⟩ => ?_
  · obtain ⟨ctxs, adapters, mem, rfl⟩ := hc
    refine ⟨.nil, stamps_bootstrap _, fun r hr k hwarm => ?_⟩
    exact absurd ((stamps_bootstrap _).lt_length hr hwarm) (Nat.not_lt_zero _)
  · have hstep := Step.of_step hs
    have heff := hstep.effect hc.wf
    exact ⟨hstep.pointing hc hok hin, heff.stamps hc.wf hin.stamps hok.2.1,
      heff.vecSound hc.wf hc.subtrees hin.stamps hok.2.1 hin.vecs⟩

/-! ## No step is undefined -/

@[simp] theorem resume_ne_undef (s : State) (ret : Int) (k : List Frame) :
    resume s ret k ≠ .undef := by
  unfold resume
  split <;> rintro ⟨⟩

theorem beginUnload_ne_undef (hheap : s.rt.HeapWf) (fname : CStr) (id : RegionId) (plen : Nat)
    (k : List Frame) : beginUnload w s fname id plen k ≠ .undef := by
  unfold beginUnload moduleLookupFromFname
  dsimp only
  split
  · exact resume_ne_undef _ _ _
  · next e hl =>
    obtain ⟨me, hme⟩ := Option.ne_none_iff_exists'.mp (hheap.table_live hl)
    simp only [hme]
    split
    · exact resume_ne_undef _ _ _
    · rintro ⟨⟩

theorem beginReload_ne_undef (hheap : s.rt.HeapWf) (fname : CStr) (k : List Frame) :
    beginReload w s fname k ≠ .undef := by
  unfold beginReload moduleLookupFromFname
  dsimp only
  split
  · rintro ⟨⟩
  · next e hl =>
    obtain ⟨me, hme⟩ := Option.ne_none_iff_exists'.mp (hheap.table_live hl)
    simp only [hme]
    exact beginUnload_ne_undef hheap _ _ _ _

theorem dispatchScope_ne_none (ht : s.rt.tree.Wf) (hheap : s.rt.HeapWf)
    (hl : s.rt.SubtreeLists) (hlt : d.caller < s.rt.nregions) : dispatchScope w s d ≠ none := by
  unfold dispatchScope
  split
  · rintro ⟨⟩
  · obtain ⟨rt', hv⟩ := prepareVec_of_wf (w := w) ht hheap hl hlt d.hookId d.name d.anc
    rw [hv]
    rintro ⟨⟩

theorem dispatchBegin_ne_none (hwf : c.Wf w) (hl : c.st.rt.SubtreeLists) (retp : Option BufRef)
    (reg : Option AdapterRef) (selfOnly : Bool) :
    dispatchBegin w c.st retp reg selfOnly ≠ none := by
  unfold dispatchBegin
  dsimp only
  split
  · rintro ⟨⟩
  · split
    · rintro ⟨⟩
    · split
      · rintro ⟨⟩
      · split
        · rintro ⟨⟩
        · unfold dispatchResolved
          dsimp only
          split
          · rintro ⟨⟩
          · split
            · rintro ⟨⟩
            · next r hr =>
              exact dispatchScope_ne_none hwf.tree hwf.heap hl (hwf.callerRegion_lt (r := r) hr)

/-- A reload that lists its entry again finds the entry before it where it was. -/
theorem reinsert_ne_none {r : RegionRef} {rl : Reload} {e' : EntryRef}
    (hheap : rt.HeapWf) (hkept : ∃ rt₀ e me, KeptSince w r rt₀ rt k.length k' ∧ rl.Of w rt₀ e me)
    (hlive : ∀ x ∈ rl.insertAfter, rt.mods x ≠ none) (hre : rl.re = some r)
    (hl : rt.modHd.lookup (rl.key w) = some e') : reinsert rt r e' rl.insertAfter ≠ none := by
  obtain ⟨rt₀, e, me, hkept, hof⟩ := hkept
  have hhome : me.regionEntry = some r := hof.re.symm.trans hre
  have hafter : rl.insertAfter = prevIn e (rt₀.modsOf r) := by
    rw [hof.insertAfter, regionPrev, hhome]
    rfl
  obtain ⟨rt', hrt'⟩ : ∃ rt', reinsert rt r e' rl.insertAfter = some rt' :=
    reinsert_of_listed hheap fun x hx => by
      have hprev : prevIn e (rt₀.modsOf r) = some x := hafter ▸ hx
      have hin := (prevIn_mem hprev).1
      refine (List.mem_erase_of_ne fun heq => ?_).mpr
        (hkept.listed hin (Option.isSome_iff_ne_none.mpr (hlive x hx)))
      subst heq
      obtain ⟨rfl, -⟩ := hkept.found hof hl hin
      exact prevIn_ne (hkept.heap.nodup r) hprev rfl
  rw [hrt']
  exact Option.some_ne_none rt'

/-- Since each of the reloads in progress was called, the lists are kept. -/
theorem placed_of_reachable (h : Reachable w c) (r : RegionRef) :
    ∃ base, Placed w r 0 base c.st.rt c.stack (fun _ => True) c.stack := by
  refine h.invariant_wf (fun c => ∃ base, Placed w r 0 base c.st.rt c.stack (fun _ => True) c.stack)
    (fun c hc => ?_) fun c a c' ev hwf ⟨base, hin⟩ _ hs => ?_
  · obtain ⟨ctxs, adapters, mem, rfl⟩ := hc
    exact ⟨(State.boot ctxs adapters mem).rt, .of_length_le le_rfl⟩
  · by_cases hdown : a = .call .shutdown
    · subst hdown
      cases hs with
      | shutdown => exact ⟨base, .of_length_le le_rfl⟩
      | answered => exact ⟨base, hin⟩
      | direct hw hq => cases hq
    · by_cases hend : ∃ rl k, a = .tau ∧ c.stack = .reload rl (.loaded xyOk) :: k
      · obtain ⟨rl, k, rfl, hstack⟩ := hend
        exact ⟨base, hs.placed_reinsert hwf hstack (Nat.zero_le _) hin⟩
      · have hnot : ∀ rl k, a = .tau → c.stack ≠ .reload rl (.loaded xyOk) :: k :=
          fun rl k ha hk => hend ⟨rl, k, ha, hk⟩
        by_cases hempty : c.stack.length = 0
        · exact ⟨c.st.rt, hs.placed hwf hnot hdown (fun _ => rfl) (.of_length_le hempty.le)⟩
        · exact ⟨base, hs.placed hwf hnot hdown (fun heq => absurd heq hempty) hin⟩

/-- What a call on top that is at work points to. -/
theorem Pointing.tauLoad_ne_undef {tx : LoadTxn} {pc : LoadPc} (hk : Pointing s.rt (.load tx pc :: k))
    (hok : tx.Ok w s.rt pc) : tauLoad w s k tx pc ≠ .undef := by
  have hlive := hk.live _ List.mem_cons_self
  have hentry : pc.early = false → (∀ prev, pc ≠ .installing prev) →
      ∃ e me, tx.modEntry = some e ∧ s.rt.mods e = some me := fun hpc hinst => by
    obtain ⟨e, he, -⟩ := hok.late hpc
    have hread : e ∈ (Frame.load tx pc).pointers s.rt := by
      cases pc with
      | opening | opened => cases hpc
      | installing prev => exact absurd rfl (hinst prev)
      | bind | claim | handler | rekey | link | install | aborting =>
        exact Option.mem_toList.mpr he
    obtain ⟨me, hme⟩ := Option.ne_none_iff_exists'.mp (hlive e hread)
    exact ⟨e, me, he, hme⟩
  cases pc with
  | opening | handler | installing => rintro ⟨⟩
  | opened =>
    simp only [tauLoad]
    split
    · next e hl =>
      obtain ⟨me, hme⟩ := Option.ne_none_iff_exists'.mp (hlive e (Option.mem_toList.mpr hl))
      simp only [hme]
      exact resume_ne_undef _ _ _
    · rintro ⟨⟩
  | bind => rintro ⟨⟩
  | claim =>
    simp only [tauLoad]
    split <;> rintro ⟨⟩
  | rekey child =>
    obtain ⟨e, me, he, hme⟩ := hentry rfl fun _ => by rintro ⟨⟩
    simp [tauLoad, he, hme]
  | link =>
    obtain ⟨e, me, he, hme⟩ := hentry rfl fun _ => by rintro ⟨⟩
    simp [tauLoad, he, hme]
  | install =>
    obtain ⟨e, me, he, hme⟩ := hentry rfl fun _ => by rintro ⟨⟩
    simp only [tauLoad, he]
    split <;> rintro ⟨⟩
  | aborting err =>
    obtain ⟨e, me, he, hme⟩ := hentry rfl fun _ => by rintro ⟨⟩
    have hrt := (modLoadFreeFname_spec (modLoadRestoreContext s tx) tx).1.trans
      (modLoadRestoreContext_spec s tx).1
    simp only [tauLoad, modLoadAbort, he, hrt, hme]
    exact resume_ne_undef _ _ _

theorem Pointing.tauUnload_ne_undef {l : List EntryRef} (hheap : s.rt.HeapWf)
    (hk : Pointing s.rt (.unload e l :: k))
    (hpath : ∀ x me ctx p, s.rt.mods x = some me → me.ctx = some ctx →
      (s.ctxs ctx).modulePath = some p → s.strs p ≠ none) : tauUnload w s k e l ≠ .undef := by
  have hlive := hk.live _ List.mem_cons_self
  cases l with
  | nil =>
    obtain ⟨me, hme⟩ := Option.ne_none_iff_exists'.mp (hlive e List.mem_cons_self)
    simp [tauUnload, hme]
  | cons child rest =>
    obtain ⟨me, hme⟩ := Option.ne_none_iff_exists'.mp
      (hlive child (List.mem_cons_of_mem _ List.mem_cons_self))
    simp only [tauUnload, hme]
    split
    · rintro ⟨⟩
    · next p hp =>
      obtain ⟨ctx, hctx, hmod⟩ := Option.bind_eq_some_iff.mp hp
      obtain ⟨path, hpath⟩ := Option.ne_none_iff_exists'.mp (hpath child me ctx p hme hctx hmod)
      simp only [hpath]
      exact beginUnload_ne_undef hheap _ _ _ _

theorem tauReload_ne_undef {rl : Reload} {pc : ReloadPc}
    (h : ∀ r e, rl.re = some r → s.rt.modHd.lookup (rl.key w) = some e →
      reinsert s.rt r e rl.insertAfter ≠ none) : tauReload w s k rl pc ≠ .undef := by
  cases pc with
  | unloading | loading => rintro ⟨⟩
  | unloaded ret =>
    simp only [tauReload]
    split <;> rintro ⟨⟩
  | loaded ret =>
    simp only [tauReload, moduleLookupFromFname]
    split
    · split
      · next e r hl hre =>
        obtain ⟨rt, hrt⟩ := Option.ne_none_iff_exists'.mp (h r e hre hl)
        simp only [hrt]
        rintro ⟨⟩
      · rintro ⟨⟩
    · rintro ⟨⟩

theorem Pointing.tauSelf_ne_undef (hk : Pointing s.rt (.dispatch d none :: k))
    (hself : d.selfOnly = true) : tauSelf w s k d ≠ .undef := by
  have hlive := hk.live _ List.mem_cons_self
  unfold tauSelf
  split
  · rintro ⟨⟩
  · next e he =>
    have hread : e ∈ (Frame.dispatch d none).pointers s.rt := by
      rw [Frame.pointers, if_pos hself]
      exact Option.mem_toList.mpr he
    obtain ⟨me, hme⟩ := Option.ne_none_iff_exists'.mp (hlive e hread)
    simp only [hme]
    split
    · rintro ⟨⟩
    · split
      · rintro ⟨⟩
      · split <;> rintro ⟨⟩

theorem Pointing.tauSubtree_ne_undef (hk : Pointing s.rt (.dispatch d none :: k))
    (hself : d.selfOnly = false) : tauSubtree s k d ≠ .undef := by
  have hlive := hk.live _ List.mem_cons_self
  unfold tauSubtree
  split
  · next hmi =>
    obtain ⟨hslots, hlen⟩ := hk.inPlace _ List.mem_cons_self hself hmi
    have hin : d.mi < (s.rt.hookVec d.caller d.hookId).cells.length := Nat.lt_of_lt_of_le hmi hlen
    have hcell := List.getElem?_eq_getElem hin
    have hread : (s.rt.hookVec d.caller d.hookId).cells[d.mi].me
        ∈ (Frame.dispatch d none).pointers s.rt := by
      rw [Frame.pointers, if_neg (by simp [hself]), Dispatch.toCome, if_neg (by simp [hself]),
        d.cellsLeft_eq_cons hmi hcell]
      exact List.mem_cons_self
    obtain ⟨me, hme⟩ := Option.ne_none_iff_exists'.mp (hlive _ hread)
    simp only [hslots, if_true, hcell, hme]
    split
    · rintro ⟨⟩
    · split <;> rintro ⟨⟩
  · rintro ⟨⟩

theorem Pointing.retListener_ne_undef {bytes : List UInt8}
    (hk : Pointing s.rt (.dispatch d (some e) :: k)) : retListener s k d e bytes ≠ .undef := by
  unfold retListener
  dsimp only
  split
  · next hself =>
    have hread : e ∈ (Frame.dispatch d (some e)).pointers s.rt := by
      rw [Frame.pointers, if_pos hself]
      exact Option.mem_toList.mpr rfl
    obtain ⟨me, hme⟩ := Option.ne_none_iff_exists'.mp (hk.live _ List.mem_cons_self e hread)
    have hrt : ((s.writeBuf d.retp bytes).lastPublish (d.ran + 1) d.retp d.reg).rt = s.rt := by
      cases hp : d.retp <;> rfl
    simp only [hrt, hme]
    rintro ⟨⟩
  · rintro ⟨⟩

theorem Config.Pointing.tau_ne_undef (hc : c.Known w) (hin : c.Pointing)
    (hplaced : ∀ r, ∃ base, Placed w r 0 base c.st.rt c.stack (fun _ => True) c.stack) :
    tau w c ≠ .undef := by
  obtain ⟨s, stack⟩ := c
  cases stack with
  | nil => rintro ⟨⟩
  | cons f k =>
    cases f with
    | load tx pc => exact hin.stack.tauLoad_ne_undef (hc.wf.top rfl)
    | unload e l =>
      refine hin.stack.tauUnload_ne_undef hc.wf.heap fun x me ctx p hme hctx hp hnone => ?_
      obtain ⟨p', path, hp', hpath, -⟩ := hc.paths.leads x me hme ctx hctx
      obtain rfl := Option.some.inj (hp.symm.trans hp')
      exact absurd (hnone.symm.trans hpath) (Option.some_ne_none _).symm
    | reload rl pc =>
      refine tauReload_ne_undef fun r e' hre hl => ?_
      obtain ⟨base, hplaced⟩ := hplaced r
      obtain ⟨rt₀, e, me, -, hkept, hof, -⟩ := hplaced (Nat.zero_le _)
      exact reinsert_ne_none hc.wf.heap ⟨rt₀, e, me, hkept, hof⟩
        (fun x hx => hin.stack.live _ List.mem_cons_self x (Option.mem_toList.mpr hx)) hre hl
    | dispatch d run =>
      cases run with
      | some e => rintro ⟨⟩
      | none =>
        cases hself : d.selfOnly with
        | true =>
          show step w ⟨s, .dispatch d none :: k⟩ .tau ≠ .undef
          rw [step_tauSelf hself]
          exact hin.stack.tauSelf_ne_undef hself
        | false =>
          show step w ⟨s, .dispatch d none :: k⟩ .tau ≠ .undef
          rw [step_tauSubtree hself]
          exact hin.stack.tauSubtree_ne_undef hself
    | scope | each => rintro ⟨⟩

theorem beginCall_ne_undef (hc : c.Known w) (q : Call) : beginCall w c q ≠ .undef := by
  unfold beginCall
  split
  · rintro ⟨⟩
  · exact beginUnload_ne_undef hc.wf.heap _ _ _ _
  · exact beginReload_ne_undef hc.wf.heap _ _
  · unfold beginScope
    split
    · split <;> rintro ⟨⟩
    · rintro ⟨⟩
  · unfold beginEach visit
    split
    · rintro ⟨⟩
    · split <;> rintro ⟨⟩
  · next retp reg selfOnly =>
    cases hd : dispatchBegin w c.st retp reg selfOnly with
    | none => exact absurd hd (dispatchBegin_ne_none hc.wf hc.subtrees retp reg selfOnly)
    | some start => cases start <;> rintro ⟨⟩
  · split <;> rintro ⟨⟩
  · split <;> rintro ⟨⟩

theorem Config.Pointing.giveBack_ne_undef (hin : c.Pointing) (v : Return) :
    giveBack c v ≠ .undef := by
  obtain ⟨s, stack⟩ := c
  unfold giveBack
  split
  · unfold retDlopen
    split
    · exact resume_ne_undef _ _ _
    · rintro ⟨⟩
  · unfold retHandler
    split <;> rintro ⟨⟩
  · exact resume_ne_undef _ _ _
  · next d e k bytes hstack =>
    obtain rfl : stack = .dispatch d (some e) :: k := hstack
    exact hin.stack.retListener_ne_undef
  · rintro ⟨⟩
  · unfold retVisit visit
    split
    · split <;> rintro ⟨⟩
    · rintro ⟨⟩
  · rintro ⟨⟩

/-- In a run whose steps are careful, no call reads through a pointer to what has been freed
or replaced, whatever comes next. -/
theorem no_undef_of_careful (h : ReachableBy w (Careful w) c) (a : Action) :
    step w c a ≠ .undef := by
  have hc := known_of_careful h
  have hin := pointing_of_careful h
  cases a with
  | tau => exact hin.tau_ne_undef hc (placed_of_reachable (h.mono fun _ _ _ => trivial))
  | call q =>
    show (if c.waiting then beginCall w c q else .disabled) ≠ .undef
    split
    · exact beginCall_ne_undef hc q
    · rintro ⟨⟩
  | ret v => exact hin.giveBack_ne_undef v

end

/-- A dispatch over three modules stands at the last when the first is unloaded, which has
loaded the second. -/
def unloadBehind : List Action :=
  [.call (.areg sampleHook 0)] ++ nestedRun ++ loadRun sampleFile'' 3
    ++ [.call (.call none (some 0) false), .tau, .ret (.listened []), .tau, .ret (.listened []),
      .tau, .call (.unload sampleFile)]

/-- The cascade and the dispatch below it read what is there. -/
theorem no_undef_of_unload_behind :
    let c := runChecked sampleWorld (Careful sampleWorld) (Config.boot sampleHook) unloadBehind
    falling c.stack = [0] ∧ c.stack.length = 2 ∧ ∀ a, step sampleWorld c a ≠ .undef := by
  intro c
  have hreach : ReachableBy sampleWorld (Careful sampleWorld) c :=
    ReachableBy.checked (.start (Config.boot_initial _)) _
  exact ⟨by decide +kernel, by decide +kernel, no_undef_of_careful hreach⟩

/-! ## The host gives control back -/

/-- A move of the host that heeds what it should. -/
def CarefulMove (w : World) (c c' : Config) : Prop := Careful w c .tau ∧ Next w c .tau c'

section

variable {w : World} {c : Config}

/-- A cascade finds its child by the path in the context of it. -/
theorem Config.Known.findsChild (h : c.Known w) : c.FindsChild w := by
  intro e child rest k _ me hme x hx
  have hctx : me.ctx ≠ none := fun hnone => by
    rw [State.cascadeLookup, hnone] at hx
    cases hx
  have hback := h.paths.leadsBack h.tabled hme hctx
  exact Option.some.inj (hx.symm.trans hback)

/-- From every configuration that careful steps reach, the host comes to a point where a
module has control, by careful moves of which there are no more than `Config.work` counts;
or it is about to make one that is not careful. -/
theorem gives_back_of_careful (h : ReachableBy w (Careful w) c) :
    ∃ n c', Descent.Steps (CarefulMove w) n c c' ∧ n ≤ c.work
      ∧ (c'.waiting = true ∨ ¬ Careful w c' .tau) := by
  have hknown : ∀ c c', ReachableBy w (Careful w) c → CarefulMove w c c' →
      ReachableBy w (Careful w) c' := fun c c' hc hm => hc.step hm.1 hm.2
  have hreach : ∀ {c}, ReachableBy w (Careful w) c → Reachable w c :=
    fun hc => hc.mono fun _ _ _ => trivial
  have hlow : ∀ c c', ReachableBy w (Careful w) c → CarefulMove w c c' → c'.work < c.work := by
    rintro c c' hc ⟨-, ev, hs⟩
    have hk := known_of_careful hc
    exact (Step.of_step hs).work_lt hk.wf hk.parked (counted_invariant (hreach hc))
      (onCourse_of_reachable (hreach hc)) hk.findsChild
  obtain ⟨n, c', hrun, hend⟩ := Descent.exists_end hknown hlow h
  have hle := hrun.add_le hknown hlow h
  have hc' := hrun.stays hknown h
  refine ⟨n, c', hrun, by omega, ?_⟩
  by_contra hno
  rw [not_or, not_not] at hno
  have hmove := tau_ne_disabled (w := w) (onCourse_of_reachable (hreach hc'))
    (Bool.not_eq_true _ ▸ hno.1)
  cases hs : step w c' .tau with
  | next c'' ev => exact hend c'' ⟨hno.2, ev, hs⟩
  | undef =>
    exact (pointing_of_careful hc').tau_ne_undef (known_of_careful hc')
      (placed_of_reachable (hreach hc')) hs
  | disabled => exact hmove hs

/-- The cascade above the dispatch comes to its end. -/
theorem gives_back_of_unload_behind :
    let c := runChecked sampleWorld (Careful sampleWorld) (Config.boot sampleHook) unloadBehind
    c.waiting = false ∧ ∃ n c', Descent.Steps (CarefulMove sampleWorld) n c c' ∧ n ≤ c.work
      ∧ (c'.waiting = true ∨ ¬ Careful sampleWorld c' .tau) := by
  intro c
  have hreach : ReachableBy sampleWorld (Careful sampleWorld) c :=
    ReachableBy.checked (.start (Config.boot_initial _)) _
  exact ⟨by decide +kernel, gives_back_of_careful hreach⟩

end

end Xylem
