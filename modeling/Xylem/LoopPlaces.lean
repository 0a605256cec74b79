import Xylem.Lib.Cursor
import Xylem.ModLists
import Xylem.Coherence
import Xylem.VectorAgreement

/-!
# Where the loops of the dispatcher are

A listener may change what the dispatch that runs it has still to come to.  The
exact-region loop follows the list of the region from the entry at which it stands;
the subtree loop keeps a pointer to the array of its vector, and a nested dispatch of
the same hook writes the new vector over the old one.

* `Dispatch.toCome`: what a dispatch in progress still comes to.
* `TurnsKept`: what the steps of a run have to heed for the loops to keep their
  place.
* `Dispatch.SelfTurn`, `Dispatch.VecTurn`: where the two loops are.  They stay there
  while others move (`keep`), and go on from there (`start`, `skip`, `enter`, `back`).
-/

namespace Xylem

open Xylem.Runtime

/-! ## What a dispatch still comes to -/

/-- A region lists the entry. -/
def Runtime.Loaded (rt : Runtime) (e : EntryRef) : Prop := rt.home e ≠ none

instance (rt : Runtime) (e : EntryRef) : Decidable (rt.Loaded e) := by
  unfold Runtime.Loaded; infer_instance

/-- The entry at which an exact-region loop stands. -/
def Dispatch.cursor (d : Dispatch) (run : Option EntryRef) : Option EntryRef :=
  run.orElse fun _ => d.me

/-- The modules of its region that an exact-region loop still comes to. -/
def Dispatch.modsLeft (d : Dispatch) (rt : Runtime) (run : Option EntryRef) : List EntryRef :=
  match run with
  | some e => Cursor.ahead e (rt.modsOf d.caller)
  | none => Cursor.fromHere d.me (rt.modsOf d.caller)

/-- The cells of its vector that a subtree loop still comes to. -/
def Dispatch.cellsLeft (d : Dispatch) (rt : Runtime) (run : Option EntryRef) :
    List DispatchSlot :=
  Cursor.upTo (d.next run) d.n (rt.hookVec d.caller d.hookId).cells

def Dispatch.toCome (d : Dispatch) (rt : Runtime) (run : Option EntryRef) : List EntryRef :=
  if d.selfOnly then d.modsLeft rt run else (d.cellsLeft rt run).map (·.me)

/-! ## What the steps heed -/

/-- The hook has its bit, and a callback is cached. -/
def ModEntry.Hears (me : ModEntry) (hookId : Nat) : Prop :=
  me.hasHookImplemented hookId = true ∧ me.fnCell hookId ≠ .null

instance (me : ModEntry) (hookId : Nat) : Decidable (me.Hears hookId) := by
  unfold ModEntry.Hears; infer_instance

/-- The dispatch does without the entry: an exact-region loop does not stand at it,
and a subtree loop has no cell of it to come. -/
def Frame.LetsGo (rt : Runtime) (x : EntryRef) : Frame → Prop
  | .dispatch d run => if d.selfOnly then d.cursor run ≠ some x else x ∉ d.toCome rt run
  | _ => True

/-- No listener that an exact-region dispatch waits for has its callback in the
mapping of the object. -/
def Frame.SparesCallbacks (w : World) (rt : Runtime) (x : EntryRef) (handle : Handle) :
    Frame → Prop
  | .dispatch d run => d.selfOnly = true → ∀ y ∈ d.startSeq, y ∈ d.modsLeft rt run → y ≠ x →
      y ∈ rt.modHdValues w → ∀ me ∈ rt.mods y, (me.fnCell d.hookId).mapped w handle = false
  | _ => True

/-- No exact-region dispatch that is under the deny waits for a module with the
path. -/
def Frame.SparesPath (rt : Runtime) (denier : RegionRef) (path : CStr) : Frame → Prop
  | .dispatch d run => d.selfOnly = true → denier ∈ d.anc → ∀ y ∈ d.startSeq,
      y ∈ d.modsLeft rt run → ∀ me ∈ rt.mods y, me.loadPath ≠ path
  | _ => True

/-- The list of a region when an entry is put into `r`, after another. -/
def Runtime.listMoved (rt : Runtime) (r : RegionRef) (e : EntryRef) (after : Option EntryRef)
    (x : RegionRef) : List EntryRef :=
  if x = r then insertAfter e after ((rt.modsOf x).erase e) else (rt.modsOf x).erase e

/-- The move carries no module across the place where an exact-region loop stands. -/
def Frame.KeepsPlaces (rt : Runtime) (r : RegionRef) (e : EntryRef) (after : Option EntryRef) :
    Frame → Prop
  | .dispatch d run => d.selfOnly = true → ∀ x ∈ d.cursor run,
      x ∈ rt.listMoved r e after d.caller ∧ ∀ y ∈ d.startSeq ++ d.entered,
        (y ∈ Cursor.ahead x (rt.listMoved r e after d.caller)
          ↔ y ∈ Cursor.ahead x (rt.modsOf d.caller))
  | _ => True

/-- A vector that is rebuilt as `l` stays in its array, and the cells that a subtree
loop has still to come to stay as they are. -/
def Frame.KeepsCells (rt : Runtime) (r : RegionRef) (hookId : Nat) (l : List DispatchSlot) :
    Frame → Prop
  | .dispatch d run => d.selfOnly = false → d.caller = r → d.hookId = hookId →
      d.cellsLeft rt run ≠ [] → l.length ≤ (rt.hookVec r hookId).cap
        ∧ ∀ i < d.n, d.next run ≤ i → ∀ slot ∈ l[i]?,
          (rt.hookVec r hookId).cells[i]? = some slot
  | _ => True

/-- What a dispatch heeds that comes to its loop: the exact-region loop, that the
callbacks of its listeners are cached; the subtree loop, what its rebuild writes. -/
def Config.StartHeeds (w : World) (c : Config) : Option DispatchStart → Prop
  | some (.loop _ d) =>
    if d.selfOnly then
      ∀ x ∈ c.st.rt.modsOf d.caller, selfListens w c.st.rt d.anc d.hookId d.name x = true →
        ∀ me ∈ c.st.rt.mods x, me.Hears d.hookId
    else
      ¬ c.st.rt.Warm d.caller d.hookId → ∀ f ∈ c.stack,
        f.KeepsCells c.st.rt d.caller d.hookId
          (c.st.rt.listing w d.anc d.hookId d.name (c.st.rt.walked d.caller))
  | _ => True

/-- What the steps heed.

* An entry is freed only when every dispatch below does without it, and makes no
  listener that one waits for forget its callback.
* A reload carries no module across the place where a dispatch below stands.
* A module is denied only when no dispatch below waits for it.
* A dispatch starts as `Config.StartHeeds` says.
* The counters have not come back to old values. -/
def TurnsKept (w : World) (c : Config) (a : Action) : Prop :=
  c.st.rt.BumpsLeft ∧
    match a, c.stack with
    | .tau, .unload x [] :: k => ∀ f ∈ k, f.LetsGo c.st.rt x ∧
        ∀ gone ∈ c.st.rt.mods x, f.SparesCallbacks w c.st.rt x gone.handle
    | .tau, .load tx (.aborting _) :: k => ∀ x ∈ tx.modEntry, ∀ f ∈ k, f.LetsGo c.st.rt x
    | .tau, .reload rl (.loaded ret) :: k => ret = xyOk →
        ∀ e ∈ c.st.rt.modHd.lookup (modKey (w.loadPath rl.fname) rl.id rl.plen), ∀ r ∈ rl.re,
          ∀ f ∈ k, f.KeepsPlaces c.st.rt r e rl.insertAfter
    | .call (.deny what .module), k => ∀ denier ∈ c.st.tls.current.entry,
        ∀ f ∈ k, f.SparesPath c.st.rt denier (w.loadPath what)
    | .call (.call retp reg selfOnly), _ =>
        c.StartHeeds w (dispatchBegin w c.st retp reg selfOnly)
    | _, _ => True

instance (rt : Runtime) (x : EntryRef) (f : Frame) : Decidable (f.LetsGo rt x) := by
  unfold Frame.LetsGo
  induction f using Frame.casesOn <;> infer_instance

instance (w : World) (rt : Runtime) (x : EntryRef) (handle : Handle) (f : Frame) :
    Decidable (f.SparesCallbacks w rt x handle) := by
  unfold Frame.SparesCallbacks
  induction f using Frame.casesOn <;> infer_instance

instance (rt : Runtime) (denier : RegionRef) (path : CStr) (f : Frame) :
    Decidable (f.SparesPath rt denier path) := by
  unfold Frame.SparesPath
  induction f using Frame.casesOn <;> infer_instance

instance (rt : Runtime) (r : RegionRef) (e : EntryRef) (after : Option EntryRef) (f : Frame) :
    Decidable (f.KeepsPlaces rt r e after) := by
  unfold Frame.KeepsPlaces
  induction f using Frame.casesOn <;> infer_instance

instance (rt : Runtime) (r : RegionRef) (hookId : Nat) (l : List DispatchSlot) (f : Frame) :
    Decidable (f.KeepsCells rt r hookId l) := by
  unfold Frame.KeepsCells
  induction f using Frame.casesOn <;> infer_instance

instance (w : World) (c : Config) (start : Option DispatchStart) :
    Decidable (c.StartHeeds w start) := by
  unfold Config.StartHeeds
  induction start using Option.casesOn with
  | none => infer_instance
  | some start => induction start using DispatchStart.casesOn <;> infer_instance

instance (w : World) (c : Config) (a : Action) : Decidable (TurnsKept w c a) := by
  unfold TurnsKept Runtime.BumpsLeft
  refine @instDecidableAnd _ _ inferInstance ?_
  generalize c.stack = k
  induction a using Action.casesOn with
  | call q =>
    induction q using Call.casesOn with
    | deny what type => induction type using DenyType.casesOn <;> infer_instance
    | _ => infer_instance
  | ret v => infer_instance
  | tau =>
    induction k using List.casesOn with
    | nil => infer_instance
    | cons f k =>
      induction f using Frame.casesOn with
      | unload e children => induction children using List.casesOn <;> infer_instance
      | load tx pc => induction pc using LoadPc.casesOn <;> infer_instance
      | reload rl pc => induction pc using ReloadPc.casesOn <;> infer_instance
      | _ => infer_instance

section

variable {w : World} {c c' : Config} {a : Action} {ev : Event} {rt rt' : Runtime} {hookId : Nat}
  {x y e : EntryRef} {me me' : ModEntry} {anc : List RegionRef} {d : Dispatch}
  {run : Option EntryRef}

/-! ## Entries -/

theorem Runtime.HeapWf.loaded (h : rt.HeapWf) {r : RegionRef} (hx : x ∈ rt.modsOf r) :
    rt.Loaded x := by
  rw [Loaded, h.mem_iff.mp hx]
  simp

theorem Runtime.Loaded.settled (hx : rt.Loaded x) (h : rt.HeapWf) : rt.Settled x := by
  obtain ⟨r, hr⟩ := Option.ne_none_iff_exists'.mp hx
  exact h.settled (h.mem_iff.mpr hr)

theorem Runtime.Loaded.exists_mods (hx : rt.Loaded x) : ∃ me, rt.mods x = some me := by
  obtain ⟨r, hr⟩ := Option.ne_none_iff_exists'.mp hx
  obtain ⟨me, hme, -⟩ := Option.bind_eq_some_iff.mp hr
  exact ⟨me, hme⟩

/-- An entry that has been linked before, and is loaded after a step, was loaded. -/
theorem Effect.loaded_before (h : Effect w c a rt') (hs : c.st.rt.Settled x)
    (hx : rt'.Loaded x) : c.st.rt.Loaded x := by
  obtain ⟨me', hme'⟩ := hx.exists_mods
  obtain ⟨me, hme, -⟩ := h.settled_entry hs hme'
  rw [Loaded, home_of_mods hme]
  exact hs.2 me hme

/-- An entry that is loaded stays so, if it is not freed. -/
theorem Effect.loaded_after (hwf : c.Wf w) (h : Effect w c a rt') (hx : c.st.rt.Loaded x)
    (hlive : rt'.mods x ≠ none) : rt'.Loaded x := by
  obtain ⟨me', hme'⟩ := Option.ne_none_iff_exists'.mp hlive
  rw [Loaded, home_of_mods hme']
  exact (h.settled hwf (hx.settled hwf.heap)).2 me' hme'

/-- The dispatches in progress do without what a step frees. -/
theorem Effect.letsGo (hok : TurnsKept w c a) (h : Effect w c a rt')
    (hf : .dispatch d run ∈ c.stack) (hx : c.st.rt.mods x = some me) (hgone : rt'.mods x = none) :
    (Frame.dispatch d run).LetsGo c.st.rt x := by
  obtain ⟨-, hok⟩ := hok
  rcases h.freed hx hgone with ⟨k, rfl, hstack⟩ | ⟨tx, k, err, rfl, hstack, htx⟩ | ⟨-, hidle, -⟩
  · rw [hstack] at hok hf
    exact (hok _ (by simpa using hf)).1
  · rw [hstack] at hok hf
    exact hok x htx _ (by simpa using hf)
  · rw [hidle] at hf
    cases hf

/-! ## Lists -/

/-- What the end of a reload does to the lists. -/
theorem Effect.of_reload (hwf : c.Wf w) (h : Effect w c a rt') {rl : Reload} {k : List Frame}
    (ha : a = .tau) (hstack : c.stack = .reload rl (.loaded xyOk) :: k) :
    rt'.modsOf = c.st.rt.modsOf
      ∨ ∃ e r, c.st.rt.modHd.lookup (modKey (w.loadPath rl.fname) rl.id rl.plen) = some e
        ∧ rl.re = some r ∧ ∀ x, rt'.modsOf x = c.st.rt.listMoved r e rl.insertAfter x := by
  subst ha
  cases h with
  | same | refcount => exact Or.inl rfl
  | reinsert ha hs hl hre hr hi =>
    obtain ⟨⟨⟩, rfl⟩ := List.cons.inj (hstack.symm.trans hs)
    exact Or.inr ⟨_, _, hl, hre, reinsert_modsOf hwf.heap hi⟩
  | deny ha | handler ha | claimAt ha | vector ha | register ha | shutdown ha => cases ha
  | grant hs ha => cases ha
  | publish ha hs | bind ha hs | rekey ha hs | link ha hs | prewarm ha hs | abort ha hs
  | remove ha hs | resolve ha hs => cases hstack.symm.trans hs

/-- An exact-region loop keeps its place in the list, and the modules that have been
linked before are ahead of it if and only if they were. -/
theorem Effect.ahead_iff (hwf : c.Wf w) (hok : TurnsKept w c a) (h : Effect w c a rt')
    (hf : .dispatch d run ∈ c.stack) (hself : d.selfOnly = true) (hcur : d.cursor run = some x)
    (hx : x ∈ c.st.rt.modsOf d.caller) :
    x ∈ rt'.modsOf d.caller ∧ ∀ y ∈ d.startSeq ++ d.entered, c.st.rt.Settled y → rt'.Loaded y →
      (y ∈ Cursor.ahead x (rt'.modsOf d.caller)
        ↔ y ∈ Cursor.ahead x (c.st.rt.modsOf d.caller)) := by
  by_cases hreload : ∃ rl k, a = .tau ∧ c.stack = .reload rl (.loaded xyOk) :: k
  · obtain ⟨rl, k, ha, hstack⟩ := hreload
    rcases h.of_reload hwf ha hstack with hsame | ⟨e, r, hl, hre, hmoved⟩
    · rw [hsame]
      exact ⟨hx, fun _ _ _ _ => Iff.rfl⟩
    · subst ha
      obtain ⟨-, hok⟩ := hok
      rw [hstack] at hok hf
      obtain ⟨hin, hiff⟩ := hok rfl e hl r hre (.dispatch d run) (by simpa using hf) hself x hcur
      rw [hmoved]
      exact ⟨hin, fun y hy _ _ => hiff y hy⟩
  cases h.lists hwf d.caller with
  | same heq =>
    rw [heq]
    exact ⟨hx, fun _ _ _ _ => Iff.rfl⟩
  | @append e hnew heq =>
    rw [heq, Cursor.ahead_append hx]
    refine ⟨List.mem_append_left _ hx, fun y hy hset hload => ?_⟩
    rw [List.mem_append, List.mem_singleton, or_iff_left_of_imp]
    rintro rfl
    have hin : y ∈ rt'.modsOf d.caller := by
      rw [heq]
      exact List.mem_append_right _ (List.mem_singleton_self y)
    obtain ⟨me', hme', hhome⟩ := Option.bind_eq_some_iff.mp ((h.heap hwf).mem_iff.mp hin)
    refine absurd ?_ hnew
    rcases h.entry hme' with ⟨tx, k, -, -, -, rfl, -⟩ | ⟨me, hme, hch⟩
    · exact absurd hset.1 (Nat.lt_irrefl _)
    rw [hwf.heap.mem_iff, home_of_mods hme]
    have hcore : me'.core.regionEntry = some d.caller := hhome
    generalize me'.core = m at hch hcore
    cases hch with
    | same | refcount | bind | rekey => exact hcore
    | link ha hstack hx hun => exact absurd hun (hset.2 me hme)
    | reinsert ha hstack => exact absurd ⟨_, _, ha, hstack⟩ hreload
  | @free e hgone hothers heq =>
    have hne : x ≠ e := by
      rintro rfl
      obtain ⟨me, hme⟩ := (hwf.heap.loaded hx).exists_mods
      have hlets := h.letsGo hok hf hme hgone
      rw [Frame.LetsGo, if_pos hself] at hlets
      exact hlets hcur
    rw [heq, Cursor.ahead_erase (hwf.heap.nodup _) (Ne.symm hne)]
    refine ⟨(List.mem_erase_of_ne hne).mpr hx, fun y _ _ hload => ?_⟩
    have hye : y ≠ e := by
      rintro rfl
      obtain ⟨me', hme'⟩ := hload.exists_mods
      rw [hgone] at hme'
      cases hme'
    simp [List.mem_filter, hye]
  | reinsert ha hstack => exact absurd ⟨_, _, ha, hstack⟩ hreload
  | shutdown ha hstack =>
    rw [hstack] at hf
    cases hf

/-- What an exact-region loop comes to next. -/
theorem Runtime.nextIn_eq (e : EntryRef) (l : List EntryRef) :
    nextIn e l = (Cursor.ahead e l).head? := by
  induction l with
  | nil => rfl
  | cons x l ih =>
    rw [nextIn, Cursor.ahead]
    split
    · rfl
    · exact ih

/-! ## Callbacks -/

theorem ModEntry.Fills.hears (h : me.Fills me') (hh : me.Hears hookId) : me'.Hears hookId :=
  ⟨h.bit hookId hh.1, by rw [h.cell hookId hh.2]; exact hh.2⟩

/-- A callback that is cached stays so, if it is not in a mapping that goes. -/
theorem Effect.hears_after (hwf : c.Wf w) (h : Effect w c a rt') (hme : c.st.rt.mods x = some me)
    (hx : rt'.mods x = some me') (hh : me.Hears hookId)
    (hkeep : ∀ k e gone, a = .tau → c.stack = .unload e [] :: k → c.st.rt.mods e = some gone →
      x ≠ e → x ∈ c.st.rt.modHdValues w → (me.fnCell hookId).mapped w gone.handle = false) :
    me'.Hears hookId := by
  rcases h.fns hx with ⟨hnew, -⟩ | ⟨me₀, hme₀, -, hch⟩
  · rw [hwf.heap.fresh (Nat.le_of_eq hnew.symm)] at hme
    cases hme
  obtain rfl : me = me₀ := Option.some.inj (hme.symm.trans hme₀)
  generalize hf : me'.fns = f at hch
  cases hch with
  | same => exact (ModEntry.Fills.of_fns hf).hears hh
  | resolved k name => exact (ModEntry.Fills.of_fns hf).hears ((me.fills_resolved k name).hears hh)
  | prewarm hooks n =>
    exact (ModEntry.Fills.of_fns hf).hears ((me.fills_fnCachePrewarm hooks n).hears hh)
  | @clear k e gone base ha hstack hne hgone hbase hin =>
    refine (ModEntry.Fills.of_fns hf).hears ⟨hh.1, ?_⟩
    rw [ModEntry.fnCell_clearFnCache hbase, hkeep k e gone ha hstack hgone hne hin]
    exact hh.2

/-- A module that is asked for its callback stays so, if it is not denied just now. -/
theorem Effect.consulted_after (hwf : c.Wf w) (h : Effect w c a rt') (hset : c.st.rt.Settled x)
    (hme : c.st.rt.mods x = some me) (hx : rt'.mods x = some me')
    (hanc : ∀ z ∈ anc, z < c.st.rt.nregions) (hcons : c.st.rt.consulted anc me = true)
    (hspare : ∀ denier what, a = .call (.deny what .module) →
      c.st.tls.current.entry = some denier → denier ∈ anc → me.loadPath ≠ w.loadPath what) :
    rt'.consulted anc me' = true := by
  obtain ⟨me₀, hme₀, hctx, -, hpath, -⟩ := h.settled_entry hset hx
  obtain rfl : me = me₀ := Option.some.inj (hme.symm.trans hme₀)
  simp only [Runtime.consulted, Bool.and_eq_true, Bool.not_eq_true'] at hcons ⊢
  rw [hctx, hpath]
  refine ⟨hcons.1, Bool.eq_false_iff.mpr fun hden => ?_⟩
  obtain ⟨z, hz, hin⟩ := moduleDeniedByAncestors_iff.mp hden
  rcases h.path_denied hwf (hanc z hz) hin with hold | ⟨what, ha, hcur, heq⟩
  · have := moduleDeniedByAncestors_iff.mpr ⟨z, hz, hold⟩
    rw [hcons.2] at this
    cases this
  · exact hspare z what ha hcur hz heq

/-! ## The exact-region loop -/

theorem Dispatch.mem_of_modsLeft (hstands : ∀ x ∈ d.cursor run, x ∈ rt.modsOf d.caller)
    (hy : y ∈ d.modsLeft rt run) : y ∈ rt.modsOf d.caller := by
  unfold Dispatch.modsLeft at hy
  cases run with
  | some e => exact Cursor.mem_of_ahead hy
  | none =>
    cases hme : d.me with
    | none =>
      rw [hme] at hy
      cases hy
    | some e =>
      rw [hme] at hy
      rcases List.mem_cons.mp hy with rfl | hy
      · exact hstands y hme
      · exact Cursor.mem_of_ahead hy

/-- Where an exact-region loop is: it stands at an entry of its list, has entered
what is behind it, and the listeners that it started with are behind it, or ahead and
will be called, or gone. -/
structure Dispatch.SelfTurn (d : Dispatch) (rt : Runtime) (run : Option EntryRef) : Prop where
  once : d.entered.Nodup
  settled : ∀ x ∈ d.startSeq ++ d.entered, rt.Settled x
  stands : ∀ x ∈ d.cursor run, x ∈ rt.modsOf d.caller
  apart : ∀ x ∈ d.entered, x ∉ d.modsLeft rt run
  waits : ∀ x ∈ d.startSeq, rt.Loaded x → x ∈ d.entered ∨ x ∈ d.modsLeft rt run
  ready : ∀ x ∈ d.startSeq, x ∈ d.modsLeft rt run → ∀ me, rt.mods x = some me →
    rt.consulted d.anc me = true ∧ me.Hears d.hookId

theorem Effect.mem_modsLeft_iff (hwf : c.Wf w) (hok : TurnsKept w c a) (h : Effect w c a rt')
    (hf : .dispatch d run ∈ c.stack) (hself : d.selfOnly = true) (hin : d.SelfTurn c.st.rt run)
    (hy : y ∈ d.startSeq ++ d.entered) (hload : rt'.Loaded y) :
    y ∈ d.modsLeft rt' run ↔ y ∈ d.modsLeft c.st.rt run := by
  have hset := hin.settled y hy
  have hahead : ∀ x ∈ d.cursor run, (y ∈ Cursor.ahead x (rt'.modsOf d.caller)
      ↔ y ∈ Cursor.ahead x (c.st.rt.modsOf d.caller)) := fun x hx =>
    (h.ahead_iff hwf hok hf hself hx (hin.stands x hx)).2 y hy hset hload
  unfold Dispatch.modsLeft
  cases run with
  | some e => exact hahead e rfl
  | none =>
    cases hme : d.me with
    | none => exact Iff.rfl
    | some e =>
      have hcur : d.cursor none = some e := hme
      exact (List.mem_cons.trans (or_congr_right (hahead e hcur))).trans List.mem_cons.symm

/-- The loop keeps its place while others move. -/
theorem Dispatch.SelfTurn.keep (hwf : c.Wf w) (hok : TurnsKept w c a) (h : Effect w c a rt')
    (hf : .dispatch d run ∈ c.stack) (hself : d.selfOnly = true) (hin : d.SelfTurn c.st.rt run) :
    d.SelfTurn rt' run := by
  have hstands : ∀ x ∈ d.cursor run, x ∈ rt'.modsOf d.caller := fun x hx =>
    (h.ahead_iff hwf hok hf hself hx (hin.stands x hx)).1
  have hloaded : ∀ x ∈ d.modsLeft rt' run, rt'.Loaded x := fun x hx =>
    (h.heap hwf).loaded (d.mem_of_modsLeft hstands hx)
  refine ⟨hin.once, fun x hx => h.settled hwf (hin.settled x hx), hstands, fun x hx hleft => ?_,
    fun x hx hload => ?_, fun x hx hleft me' hme' => ?_⟩
  · have hmem := List.mem_append_right d.startSeq hx
    exact hin.apart x hx
      ((h.mem_modsLeft_iff hwf hok hf hself hin hmem (hloaded x hleft)).mp hleft)
  · have hmem := List.mem_append_left d.entered hx
    rcases hin.waits x hx (h.loaded_before (hin.settled x hmem) hload) with hent | hleft
    · exact Or.inl hent
    · exact Or.inr ((h.mem_modsLeft_iff hwf hok hf hself hin hmem hload).mpr hleft)
  · have hmem := List.mem_append_left d.entered hx
    have hset := hin.settled x hmem
    have hleft₀ := (h.mem_modsLeft_iff hwf hok hf hself hin hmem (hloaded x hleft)).mp hleft
    obtain ⟨me, hme, -⟩ := h.settled_entry hset hme'
    obtain ⟨hcons, hhears⟩ := hin.ready x hx hleft₀ me hme
    obtain ⟨hcaller, hanc, -⟩ := hwf.stack.ok _ hf
    obtain ⟨-, hok⟩ := hok
    refine ⟨h.consulted_after hwf hset hme hme' (fun z hz => ?_) hcons ?_,
      h.hears_after hwf hme hme' hhears ?_⟩
    · rw [hanc] at hz
      exact lt_of_mem_chain hwf.tree hcaller (List.mem_reverse.mp hz)
    · rintro denier what rfl hcur hden
      exact hok denier hcur (.dispatch d run) hf hself hden x hx hleft₀ me hme
    · rintro k e gone rfl hstack hgone hne htab
      rw [hstack] at hok hf
      obtain ⟨-, hspare⟩ := hok (.dispatch d run) (by simpa using hf)
      exact hspare gone hgone hself x hx hleft₀ hne htab me hme

theorem Dispatch.modsLeft_of_me (he : d.me = some e) :
    d.modsLeft rt none = e :: Cursor.ahead e (rt.modsOf d.caller) := by
  unfold Dispatch.modsLeft
  rw [he]
  rfl

/-- The loop goes on to what is next. -/
theorem Dispatch.modsLeft_next (hheap : rt.HeapWf) {d' : Dispatch} (hcaller : d'.caller = d.caller)
    (hme : d'.me = nextIn e (rt.modsOf d.caller)) :
    d'.modsLeft rt none = Cursor.ahead e (rt.modsOf d.caller) := by
  unfold Dispatch.modsLeft
  rw [hme, hcaller, nextIn_eq]
  exact Cursor.fromHere_head (hheap.nodup d.caller)

theorem Runtime.regionNext_eq (hheap : rt.HeapWf) {r : RegionRef} (hme : rt.mods e = some me)
    (hin : e ∈ rt.modsOf r) : rt.regionNext e me = nextIn e (rt.modsOf r) := by
  have hhome := hheap.mem_iff.mp hin
  rw [home_of_mods hme] at hhome
  rw [regionNext, hhome]
  rfl

/-- The loop leaves out an entry that it did not start with. -/
theorem Dispatch.SelfTurn.skip (hheap : rt.HeapWf) (hin : d.SelfTurn rt none) (he : d.me = some e)
    (hdeaf : e ∉ d.startSeq) {next : Option EntryRef}
    (hme : next = nextIn e (rt.modsOf d.caller)) :
    ({ d with me := next } : Dispatch).SelfTurn rt none := by
  have hleft : d.modsLeft rt none = e :: Cursor.ahead e (rt.modsOf d.caller) := d.modsLeft_of_me he
  have hnext : ({ d with me := next } : Dispatch).modsLeft rt none
      = Cursor.ahead e (rt.modsOf d.caller) := Dispatch.modsLeft_next hheap rfl hme
  have hsub : ∀ x, x ∈ Cursor.ahead e (rt.modsOf d.caller) → x ∈ d.modsLeft rt none := by
    intro x hx
    rw [hleft]
    exact List.mem_cons_of_mem e hx
  refine ⟨hin.once, hin.settled, fun x hx => mem_of_nextIn (hme ▸ hx), fun x hx hmem => ?_,
    fun x hx hload => ?_, fun x hx hmem => ?_⟩
  · rw [hnext] at hmem
    exact hin.apart x hx (hsub x hmem)
  · rcases hin.waits x hx hload with hent | hmem
    · exact Or.inl hent
    · rw [hleft] at hmem
      rcases List.mem_cons.mp hmem with rfl | hmem
      · exact absurd hx hdeaf
      · exact Or.inr (hnext ▸ hmem)
  · rw [hnext] at hmem
    exact hin.ready x hx (hsub x hmem)

/-- The loop calls the listener that it stands at. -/
theorem Dispatch.SelfTurn.enter (hheap : rt.HeapWf) (hin : d.SelfTurn rt none) (he : d.me = some e)
    (s : State) : (d.enter s e).SelfTurn rt (some e) := by
  have hleft : d.modsLeft rt none = e :: Cursor.ahead e (rt.modsOf d.caller) := d.modsLeft_of_me he
  have hmem : e ∈ rt.modsOf d.caller := hin.stands e he
  refine ⟨?_, fun x hx => ?_, fun x hx => ?_, fun x hx hahead => ?_, fun x hx hload => ?_,
    fun x hx hahead => ?_⟩
  · refine List.nodup_append.mpr ⟨hin.once, List.nodup_singleton e, fun x hx z hz heq => ?_⟩
    obtain rfl := List.mem_singleton.mp hz
    subst heq
    exact hin.apart x hx (by rw [hleft]; exact List.mem_cons_self)
  · have hx : x ∈ d.startSeq ++ (d.entered ++ [e]) := hx
    rw [← List.append_assoc] at hx
    rcases List.mem_append.mp hx with hx | hx
    · exact hin.settled x hx
    · rw [List.mem_singleton.mp hx]
      exact hheap.settled hmem
  · obtain rfl : e = x := Option.some.inj hx
    exact hmem
  · have hahead : x ∈ Cursor.ahead e (rt.modsOf d.caller) := hahead
    rcases List.mem_append.mp hx with hx | hx
    · exact hin.apart x hx (by rw [hleft]; exact List.mem_cons_of_mem e hahead)
    · rw [List.mem_singleton.mp hx] at hahead
      exact Cursor.not_mem_ahead (hheap.nodup d.caller) hahead
  · rcases hin.waits x hx hload with hent | hmem
    · exact Or.inl (List.mem_append_left _ hent)
    · rw [hleft] at hmem
      rcases List.mem_cons.mp hmem with rfl | hmem
      · exact Or.inl (List.mem_append_right _ (List.mem_singleton_self x))
      · exact Or.inr hmem
  · exact hin.ready x hx (by rw [hleft]; exact List.mem_cons_of_mem e hahead)

/-- The listener returns. -/
theorem Dispatch.SelfTurn.back (hheap : rt.HeapWf) (hin : d.SelfTurn rt (some e)) (n : Nat)
    {next : Option EntryRef} (hme : next = nextIn e (rt.modsOf d.caller)) :
    ({ d with ran := n, me := next } : Dispatch).SelfTurn rt none := by
  have hnext : ({ d with ran := n, me := next } : Dispatch).modsLeft rt none
      = Cursor.ahead e (rt.modsOf d.caller) := Dispatch.modsLeft_next hheap rfl hme
  refine ⟨hin.once, hin.settled, fun x hx => mem_of_nextIn (hme ▸ hx), fun x hx => ?_,
    fun x hx => ?_, fun x hx => ?_⟩
  · rw [hnext]
    exact hin.apart x hx
  · rw [hnext]
    exact hin.waits x hx
  · rw [hnext]
    exact hin.ready x hx

/-- The loop starts. -/
theorem Dispatch.SelfTurn.start (hheap : rt.HeapWf) (hentered : d.entered = [])
    (hme : d.me = (rt.modsOf d.caller).head?)
    (hseq : d.startSeq
      = (rt.modsOf d.caller).filter (selfListens w rt d.anc d.hookId d.name))
    (hhears : ∀ x ∈ rt.modsOf d.caller, selfListens w rt d.anc d.hookId d.name x = true →
      ∀ me ∈ rt.mods x, me.Hears d.hookId) : d.SelfTurn rt none := by
  have hleft : d.modsLeft rt none = rt.modsOf d.caller := by
    unfold Dispatch.modsLeft
    rw [hme]
    exact Cursor.fromHere_head? _
  have hmem : ∀ x ∈ d.startSeq, x ∈ rt.modsOf d.caller
      ∧ selfListens w rt d.anc d.hookId d.name x = true := by
    intro x hx
    rw [hseq] at hx
    exact List.mem_filter.mp hx
  refine ⟨by rw [hentered]; exact List.nodup_nil, fun x hx => ?_, fun x hx => ?_, fun x hx => ?_,
    fun x hx _ => ?_, fun x hx _ me hmods => ?_⟩
  · rw [hentered, List.append_nil] at hx
    exact hheap.settled (hmem x hx).1
  · have hx : d.me = some x := hx
    rw [hme] at hx
    exact List.mem_of_head? hx
  · rw [hentered] at hx
    cases hx
  · rw [hleft]
    exact Or.inr (hmem x hx).1
  · obtain ⟨hin, hlistens⟩ := hmem x hx
    refine ⟨?_, hhears x hin hlistens me hmods⟩
    unfold selfListens at hlistens
    rw [hmods, Option.any_some, Bool.and_eq_true] at hlistens
    exact hlistens.1

/-! ## Vectors -/

/-- What is called directly writes no vector. -/
theorem CallEffect.vecs (hwf : c.Wf w) {q : Call} {rt : Runtime} (h : CallEffect w c q rt) {r : Nat}
    (hr : r < c.st.rt.nregions) : (rt.caches r).vecs = (c.st.rt.caches r).vecs := by
  cases h with
  | same | areg => rfl
  | deny =>
    rw [recordDeny_caches]
    split <;> rfl
  | requireClaim | setHandler =>
    rw [modifyRegion_caches]
    intro _
    exact ⟨rfl, rfl, rfl, rfl⟩
  | claimAt hnear hadd =>
    rw [addRegion_caches hwf.tree hadd, if_neg (Nat.ne_of_lt hr)]
    split <;> rfl

/-- A vector is written by a subtree dispatch that comes to its loop, and by nothing
else. -/
theorem Step.hookVec_cases (hwf : c.Wf w) (h : Step w c a c' ev) {r : Nat}
    (hr : r < c.st.rt.nregions) (k : Nat) (hbusy : c.stack ≠ []) :
    c'.st.rt.hookVec r k = c.st.rt.hookVec r k
      ∨ ∃ retp reg s d, a = .call (.call retp reg false)
        ∧ dispatchBegin w c.st retp reg false = some (.loop s d) ∧ c'.st.rt = s.rt := by
  have heffect : ∀ a', (∀ q, a' ≠ .call q) → Effect w c a' c'.st.rt →
      c'.st.rt.hookVec r k = c.st.rt.hookVec r k := by
    intro a' hcall heff
    rcases heff.touched hwf with ⟨ha, -⟩ | ⟨_, _, _, q, ha, -⟩ | ⟨hold, -⟩
    · exact absurd ha (hcall _)
    · exact absurd ha (hcall q)
    · exact (hold r hr).hookVec k
  cases a with
  | tau => exact Or.inl (heffect .tau (fun q hq => by cases hq) (h.effect hwf))
  | ret v => exact Or.inl (heffect (.ret v) (fun q hq => by cases hq) (h.effect hwf))
  | call q =>
    have hunload : ∀ {fname : CStr} {id : RegionId} {plen : Nat} {k' : List Frame},
        Unloads w c.st fname id plen k' c' ev → c'.st.rt.hookVec r k = c.st.rt.hookVec r k :=
      fun hu => heffect .tau (fun q hq => by cases hq) (hu.effect rfl)
    cases h with
    | load | scope | eachFirst | answered => exact Or.inl rfl
    | unload hw hu => exact Or.inl (hunload hu)
    | reload hw hl hme hu => exact Or.inl (hunload hu)
    | direct hw hq => exact Or.inl (hookVec_of_vecs ((callDirect_callEffect hwf hq).vecs hwf hr) k)
    | dispatchDone hw hd =>
      refine Or.inl ?_
      rw [(dispatchBegin_done hd).rt]
    | @dispatchLoop _ retp reg selfOnly s d hw hd =>
      cases selfOnly with
      | true =>
        have hrt := ((dispatchBegin_loop hd).self rfl).1
        exact Or.inl (by rw [hrt])
      | false => exact Or.inr ⟨retp, reg, s, d, rfl, hd, rfl⟩
    | shutdown => exact absurd rfl hbusy

/-- The slots that a rebuild lists are of modules of the list, in its order. -/
theorem Runtime.listing_sublist (rt : Runtime) (anc : List RegionRef) (hookId : Nat) (name : CStr)
    (l : List EntryRef) : ((rt.listing w anc hookId name l).map (·.me)).Sublist l := by
  induction l with
  | nil => exact .slnil
  | cons e l ih =>
    rw [listing, List.filterMap_cons]
    cases hslot : rt.slotOf w anc hookId name e with
    | none => exact ih.cons e
    | some slot =>
      have hmem : slot ∈ rt.listing w anc hookId name [e] := by simp [listing, hslot]
      rw [List.map_cons, List.mem_singleton.mp (mem_listing hmem)]
      exact ih.cons_cons e

/-- The slots of a vector are in its array, and they are of modules of the subtree, in
the order of its list. -/
structure Runtime.VecSound (rt : Runtime) (r : RegionRef) (hookId : Nat) : Prop where
  count_le : (rt.hookVec r hookId).count ≤ (rt.hookVec r hookId).cells.length
  sublist : (((rt.hookVec r hookId).cells.take (rt.hookVec r hookId).count).map (·.me)).Sublist
    (rt.walked r)

theorem Effect.vecSound (hwf : c.Wf w) (hl : c.st.rt.SubtreeLists) (hs : c.st.rt.Stamps)
    (hb : c.st.rt.BumpsLeft)
    (hin : ∀ r < c.st.rt.nregions, ∀ k, c.st.rt.Warm r k → c.st.rt.VecSound r k)
    (h : Effect w c a rt') : ∀ r < rt'.nregions, ∀ k, rt'.Warm r k → rt'.VecSound r k := by
  intro r hr k hwarm
  obtain ⟨hlt, -, hwalked, ⟨hcold, name, hv⟩ | ⟨hwarm₀, hvec, -⟩⟩ := h.warmed hwf hl hs hb hr hwarm
  · have hp := prepareVec_spec hv
    refine ⟨?_, ?_⟩
    · rw [hp.count hcold, hp.cells hcold, List.length_append]
      exact Nat.le_add_right _ _
    · rw [hp.count hcold, hp.cells hcold, List.take_left, hwalked]
      exact c.st.rt.listing_sublist _ k name _
  · obtain ⟨hcount, hsub⟩ := hin r hlt k hwarm₀
    exact ⟨by rw [hvec]; exact hcount, by rw [hvec, hwalked]; exact hsub⟩

/-! ## The subtree loop -/

/-- Where a subtree loop is: the cells to come are of modules that are loaded and have
not been entered, and the listeners that it started with have been entered, or have a
cell to come whose callback is called. -/
structure Dispatch.VecTurn (d : Dispatch) (rt : Runtime) (run : Option EntryRef) : Prop where
  slots : d.cellsLeft rt run ≠ [] → (rt.hookVec d.caller d.hookId).slots = d.slots
  length : (d.cellsLeft rt run).length = d.n - d.next run
  loaded : ∀ slot ∈ d.cellsLeft rt run, rt.Loaded slot.me
  once : (d.entered ++ (d.cellsLeft rt run).map (·.me)).Nodup
  waits : ∀ x ∈ d.startSeq, x ∈ d.entered ∨ x ∈ (d.cellsLeft rt run).map (·.me)
  ready : ∀ slot ∈ d.cellsLeft rt run, slot.me ∈ d.startSeq → slotListens rt slot = true

/-- The cells to come are written over by no step. -/
theorem Step.cellsLeft_eq (hwf : c.Wf w) (hok : TurnsKept w c a) (h : Step w c a c' ev)
    (hf : .dispatch d run ∈ c.stack) (hself : d.selfOnly = false)
    (hlen : (d.cellsLeft c.st.rt run).length = d.n - d.next run) :
    d.cellsLeft c'.st.rt run = d.cellsLeft c.st.rt run
      ∧ (d.cellsLeft c.st.rt run ≠ [] → (c'.st.rt.hookVec d.caller d.hookId).slots
        = (c.st.rt.hookVec d.caller d.hookId).slots) := by
  have hcaller := (hwf.stack.ok _ hf).1
  have hsame : c'.st.rt.hookVec d.caller d.hookId = c.st.rt.hookVec d.caller d.hookId →
      d.cellsLeft c'.st.rt run = d.cellsLeft c.st.rt run
        ∧ (d.cellsLeft c.st.rt run ≠ [] → (c'.st.rt.hookVec d.caller d.hookId).slots
          = (c.st.rt.hookVec d.caller d.hookId).slots) := by
    intro hvec
    rw [Dispatch.cellsLeft, Dispatch.cellsLeft, hvec]
    exact ⟨rfl, fun _ => rfl⟩
  rcases h.hookVec_cases hwf hcaller d.hookId (List.ne_nil_of_mem hf) with
    hvec | ⟨retp, reg, s, d', rfl, hd, hrt⟩
  · exact hsame hvec
  have hstart := dispatchBegin_loop hd
  have hv := (hstart.subtree rfl).1
  have hp := prepareVec_spec hv
  rw [hrt] at hsame ⊢
  by_cases hhit : (d.caller = d'.caller ∧ d.hookId = d'.hookId)
      ∧ ¬ c.st.rt.Warm d'.caller d'.hookId
  · obtain ⟨⟨hr, hk⟩, hcold⟩ := hhit
    by_cases hnil : d.cellsLeft c.st.rt run = []
    · have hend : d.n ≤ d.next run := by
        rw [hnil, List.length_nil] at hlen
        omega
      have hnil' : d.cellsLeft s.rt run = [] := by
        refine List.drop_eq_nil_of_le ?_
        rw [List.length_take]
        omega
      exact ⟨hnil'.trans hnil.symm, fun hne => absurd hnil hne⟩
    · have hheeds : c.StartHeeds w (some (.loop s d')) := hd ▸ hok.2
      rw [Config.StartHeeds, if_neg (by rw [hstart.selfOnly]; simp)] at hheeds
      obtain ⟨hcap, hagree⟩ := hheeds hcold (.dispatch d run) hf hself hr hk hnil
      rw [Dispatch.cellsLeft, Dispatch.cellsLeft, hr, hk]
      refine ⟨Cursor.upTo_congr fun i hi hin => ?_, fun _ => hp.slots hcold hcap⟩
      rw [hp.cells hcold]
      rcases Nat.lt_or_ge i (c.st.rt.listing w d'.anc d'.hookId d'.name
        (c.st.rt.walked d'.caller)).length with hlt | hge
      · rw [List.getElem?_append_left hlt, List.getElem?_eq_getElem hlt]
        exact (hagree i hin hi _ (List.getElem?_eq_getElem hlt)).symm
      · rw [List.getElem?_append_right hge, List.getElem?_drop, Nat.add_sub_cancel' hge]
  · refine hsame ?_
    by_cases hrk : d.caller = d'.caller ∧ d.hookId = d'.hookId
    · have hwarm : c.st.rt.Warm d'.caller d'.hookId := by
        by_contra hcold
        exact hhit ⟨hrk, hcold⟩
      rw [hrk.1, hrk.2]
      exact (hp.warm hwarm).1
    · exact hp.vec_ne _ _ (by tauto)

/-- A slot is listened to by what the step leaves loaded. -/
theorem Effect.slotListens_eq (hwf : c.Wf w) (h : Effect w c a rt') {slot : DispatchSlot}
    (hload : c.st.rt.Loaded slot.me) (hlive : rt'.mods slot.me ≠ none) :
    slotListens rt' slot = slotListens c.st.rt slot := by
  obtain ⟨me', hme'⟩ := Option.ne_none_iff_exists'.mp hlive
  obtain ⟨me, hme, hctx, -⟩ := h.settled_entry (hload.settled hwf.heap) hme'
  simp [slotListens, hme, hme', hctx]

/-- The loop keeps its place while others move. -/
theorem Dispatch.VecTurn.keep (hwf : c.Wf w) (hok : TurnsKept w c a) (h : Step w c a c' ev)
    (hf : .dispatch d run ∈ c.stack) (hself : d.selfOnly = false) (hin : d.VecTurn c.st.rt run) :
    d.VecTurn c'.st.rt run := by
  obtain ⟨hcells, hslots⟩ := h.cellsLeft_eq hwf hok hf hself hin.length
  have heff := h.effect hwf
  have hlive : ∀ slot ∈ d.cellsLeft c.st.rt run, c'.st.rt.mods slot.me ≠ none := by
    intro slot hslot hgone
    obtain ⟨me, hme⟩ := (hin.loaded slot hslot).exists_mods
    have hlets := heff.letsGo hok hf hme hgone
    rw [Frame.LetsGo, if_neg (by simp [hself]), Dispatch.toCome, if_neg (by simp [hself])] at hlets
    exact hlets (List.mem_map_of_mem hslot)
  constructor
  · rw [hcells]
    exact fun hne => (hslots hne).trans (hin.slots hne)
  · rw [hcells]
    exact hin.length
  · rw [hcells]
    exact fun slot hslot => heff.loaded_after hwf (hin.loaded slot hslot) (hlive slot hslot)
  · rw [hcells]
    exact hin.once
  · rw [hcells]
    exact hin.waits
  · rw [hcells]
    intro slot hslot hseq
    rw [heff.slotListens_eq hwf (hin.loaded slot hslot) (hlive slot hslot)]
    exact hin.ready slot hslot hseq

/-- The next cell, and the rest. -/
theorem Dispatch.cellsLeft_eq_cons {slot : DispatchSlot} (hmi : d.mi < d.n)
    (hcell : (rt.hookVec d.caller d.hookId).cells[d.mi]? = some slot) :
    d.cellsLeft rt none
      = slot :: Cursor.upTo (d.mi + 1) d.n (rt.hookVec d.caller d.hookId).cells :=
  Cursor.upTo_eq_cons hmi hcell

/-- The loop leaves out a slot whose module it did not start with. -/
theorem Dispatch.VecTurn.skip {slot : DispatchSlot} (hin : d.VecTurn rt none) (hmi : d.mi < d.n)
    (hcell : (rt.hookVec d.caller d.hookId).cells[d.mi]? = some slot)
    (hdeaf : slot.me ∉ d.startSeq) : ({ d with mi := d.mi + 1 } : Dispatch).VecTurn rt none := by
  have hleft := d.cellsLeft_eq_cons hmi hcell
  obtain ⟨hslots, hlength, hloaded, honce, hwaits, hready⟩ := hin
  rw [hleft] at hslots hlength hloaded honce hwaits hready
  refine ⟨fun _ => hslots (List.cons_ne_nil _ _), ?_,
    fun x hx => hloaded x (List.mem_cons_of_mem _ hx), ?_, fun x hx => ?_,
    fun x hx => hready x (List.mem_cons_of_mem _ hx)⟩
  · have hlength : (Cursor.upTo (d.mi + 1) d.n (rt.hookVec d.caller d.hookId).cells).length + 1
        = d.n - d.mi := hlength
    show (Cursor.upTo (d.mi + 1) d.n (rt.hookVec d.caller d.hookId).cells).length
      = d.n - (d.mi + 1)
    omega
  · exact honce.sublist ((List.sublist_cons_self _ _).append_left _)
  · rcases hwaits x hx with hent | hmem
    · exact Or.inl hent
    · rcases List.mem_cons.mp hmem with rfl | hmem
      · exact absurd hx hdeaf
      · exact Or.inr hmem

/-- The loop calls the listener of a slot. -/
theorem Dispatch.VecTurn.enter {slot : DispatchSlot} (hin : d.VecTurn rt none) (hmi : d.mi < d.n)
    (hcell : (rt.hookVec d.caller d.hookId).cells[d.mi]? = some slot) (s : State)
    (prev : Option RegionRef) (changed : Bool) :
    (({ d with prevEntry := prev, regionChanged := changed } : Dispatch).enter s slot.me).VecTurn rt
      (some slot.me) := by
  have hleft := d.cellsLeft_eq_cons hmi hcell
  obtain ⟨hslots, hlength, hloaded, honce, hwaits, hready⟩ := hin
  rw [hleft] at hslots hlength hloaded honce hwaits hready
  refine ⟨fun _ => hslots (List.cons_ne_nil _ _), ?_,
    fun x hx => hloaded x (List.mem_cons_of_mem _ hx), ?_, fun x hx => ?_,
    fun x hx => hready x (List.mem_cons_of_mem _ hx)⟩
  · have hlength : (Cursor.upTo (d.mi + 1) d.n (rt.hookVec d.caller d.hookId).cells).length + 1
        = d.n - d.mi := hlength
    show (Cursor.upTo (d.mi + 1) d.n (rt.hookVec d.caller d.hookId).cells).length
      = d.n - (d.mi + 1)
    omega
  · rw [List.map_cons, ← List.singleton_append, ← List.append_assoc] at honce
    exact honce
  · rcases hwaits x hx with hent | hmem
    · exact Or.inl (List.mem_append_left _ hent)
    · rcases List.mem_cons.mp hmem with rfl | hmem
      · exact Or.inl (List.mem_append_right _ (List.mem_singleton_self _))
      · exact Or.inr hmem

/-- The listener returns. -/
theorem Dispatch.VecTurn.back (hin : d.VecTurn rt (some e)) (n : Nat) :
    ({ d with ran := n, mi := d.mi + 1 } : Dispatch).VecTurn rt none :=
  ⟨hin.slots, hin.length, hin.loaded, hin.once, hin.waits, hin.ready⟩

/-- The loop starts, over a vector that is up to date. -/
theorem Dispatch.VecTurn.start (hnodup : (rt.walked d.caller).Nodup)
    (hwalked : ∀ x ∈ rt.walked d.caller, rt.Loaded x) (hvec : rt.VecSound d.caller d.hookId)
    (hmi : d.mi = 0) (hentered : d.entered = [])
    (hslots : d.slots = (rt.hookVec d.caller d.hookId).slots)
    (hn : d.n = (rt.hookVec d.caller d.hookId).count)
    (hseq : d.startSeq = (((rt.hookVec d.caller d.hookId).cells.take d.n).filter
      (slotListens rt)).map (·.me)) : d.VecTurn rt none := by
  have hnext : d.next none = 0 := hmi
  have hleft : d.cellsLeft rt none = (rt.hookVec d.caller d.hookId).cells.take d.n := by
    unfold Dispatch.cellsLeft Cursor.upTo
    rw [hnext, List.drop_zero]
  have hsub : ((d.cellsLeft rt none).map (·.me)).Sublist (rt.walked d.caller) := by
    rw [hleft, hn]
    exact hvec.sublist
  refine ⟨fun _ => hslots.symm, ?_, fun slot hslot => ?_, ?_, fun x hx => ?_,
    fun slot hslot hin => ?_⟩
  · rw [hleft, hnext, List.length_take, hn]
    exact Nat.min_eq_left hvec.count_le
  · exact hwalked _ (hsub.subset (List.mem_map_of_mem hslot))
  · rw [hentered]
    exact hnodup.sublist hsub
  · rw [hseq, ← hleft] at hx
    obtain ⟨slot, hslot, rfl⟩ := List.mem_map.mp hx
    exact Or.inr (List.mem_map_of_mem (List.mem_filter.mp hslot).1)
  · rw [hseq, ← hleft] at hin
    obtain ⟨slot', hslot', heq⟩ := List.mem_map.mp hin
    obtain ⟨hmem, hlistens⟩ := List.mem_filter.mp hslot'
    obtain rfl : slot' = slot :=
      List.inj_on_of_nodup_map (hnodup.sublist hsub) hmem hslot heq
    exact hlistens

end

end Xylem
