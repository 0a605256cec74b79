import Xylem.ClaimGate
import Xylem.CopyFile
import Xylem.Lifecycle
import Xylem.ReloadPlace

/-!
# What a reload has done when it returns

`xy_reload` is an unload and a load, and the refcount at the call decides what these
do.  Both cases are followed from phase to phase, with the moves since the call.

* The caller is the only holder (`Replacing`): the unload tears the entry down, after a
  cascade in which modules run, and the load binds a new one or fails.  There is no way
  back to the old entry (`failed_reload`).
* A name that no longer leads to the module, such as a relative one whose file is gone,
  fails before the unload, and the module stays as it is (`failed_reload`).
* There are other holders (`Sharing`): the unload takes one of them away, and the load
  finds the entry and adds it again.  The object that it has opened is closed, and the
  reload returns `XY_OK` for a module that has not been reloaded (`reload_ok_iff`).

An entry that has been freed has a number that no later one gets (`TornDown`), and a
load in progress owns the entry that it has allocated (`allocated_nodup`), so that the
`xy_install` of the new entry is counted once.
-/

namespace Xylem

open Xylem.Runtime

/-! ## The entries of the loads in progress -/

/-- The entry that a load in progress has allocated. -/
def Frame.allocated : Frame → Option EntryRef
  | .load tx _ => tx.modEntry
  | _ => none

/-- The entries of the loads in progress, the latest first. -/
def allocated (k : List Frame) : List EntryRef := k.filterMap Frame.allocated

section

variable {w : World} {c c' : Config} {a : Action} {ev : Event}

theorem Resumed.allocated {k k' : List Frame} (h : Resumed k k') :
    Xylem.allocated k' = Xylem.allocated k := by
  cases h <;> rfl

theorem Unloads.allocated {s : State} {fname : CStr} {id : RegionId} {plen : Nat} {k : List Frame}
    (h : Unloads w s fname id plen k c' ev) : Xylem.allocated c'.stack = Xylem.allocated k := by
  cases h with
  | notFound hl hr => exact (resume_spec hr).2.allocated
  | shared hl hme href hr => exact (resume_spec hr).2.allocated
  | cascade => rfl

/-- A step allocates one entry at most, which is new. -/
theorem Step.allocated (hwf : c.Wf w) (h : Step w c a c' ev) :
    (Xylem.allocated c'.stack).Sublist (Xylem.allocated c.stack)
      ∨ Xylem.allocated c'.stack = c.st.rt.nmods :: Xylem.allocated c.stack := by
  have hpop : ∀ {s ret k}, resume s ret k = .next c' ev → ∀ f,
      (Xylem.allocated c'.stack).Sublist (Xylem.allocated (f :: k)) := fun hr f => by
    rw [(resume_spec hr).2.allocated]
    exact (List.sublist_cons_self f _).filterMap _
  cases h with
  | load | scope | eachFirst | dispatchLoop | answered | direct | dispatchDone | shutdown =>
    exact Or.inl (.refl _)
  | unload hw hu | reload hw hl hme hu | cascade hme hp hs hu =>
    rw [hu.allocated]
    exact Or.inl (.refl _)
  | dlopenFailed hr => exact Or.inl (hpop hr _)
  | reuse hl hme hr => exact Or.inl (hpop hr _)
  | installed hr => exact Or.inl (hpop hr _)
  | abort ha hr => exact Or.inl (hpop hr _)
  | remove hme hr => exact Or.inl (hpop hr _)
  | @publish s k tx hl =>
    have hnone : Frame.allocated (.load tx .opened) = none := (hwf.top rfl).early rfl
    right
    show s.rt.nmods :: Xylem.allocated k = s.rt.nmods :: Xylem.allocated (.load tx .opened :: k)
    unfold Xylem.allocated
    rw [List.filterMap_cons_none hnone]
  | _ => exact Or.inl (.refl _)

theorem allocated_lt (hwf : c.Wf w) : ∀ x ∈ allocated c.stack, x < c.st.rt.nmods := by
  intro x hx
  obtain ⟨f, hf, hfx⟩ := List.mem_filterMap.mp hx
  cases f with
  | load tx pc =>
    have hok : tx.Ok w c.st.rt pc := hwf.stack.ok _ hf
    have hmod : tx.modEntry = some x := hfx
    cases hpc : pc.early with
    | true =>
      have hnone := hok.early hpc
      rw [hmod] at hnone
      cases hnone
    | false =>
      obtain ⟨e, he, hlt, -⟩ := hok.late hpc
      obtain rfl : e = x := Option.some.inj (he.symm.trans hmod)
      exact hlt
  | unload | reload | dispatch | scope | each => cases hfx

/-- No two loads in progress have allocated the same entry. -/
theorem allocated_nodup {ok : Config → Action → Prop} (h : ReachableBy w ok c) :
    (allocated c.stack).Nodup := by
  refine h.invariant_wf (fun c => (allocated c.stack).Nodup) ?_
    fun c a c' ev hwf hnodup _ hs => ?_
  · intro c hc
    obtain ⟨ctxs, adapters, mem, rfl⟩ := hc
    exact List.nodup_nil
  · rcases hs.allocated hwf with hsub | hnew
    · exact hnodup.sublist hsub
    · rw [hnew]
      exact List.nodup_cons.mpr
        ⟨fun hmem => Nat.lt_irrefl _ (allocated_lt hwf _ hmem), hnodup⟩

/-- An entry whose `xy_install` is called has been allocated. -/
theorem Step.install_lt (hwf : c.Wf w) {e : EntryRef} (h : Step w c a c' (.enterInstall e)) :
    e < c.st.rt.nmods := by
  obtain ⟨-, tx, k, hstack, he⟩ := h.install_top
  refine allocated_lt hwf e ?_
  rw [hstack]
  exact List.mem_filterMap.mpr ⟨_, List.mem_cons_self, he⟩

end

/-! ## The cascade of an unload -/

/-- One move of `_mod_unload` on `x`, in its cascade or after it. -/
inductive Round (w : World) (s : State) (x : EntryRef) (k : List Frame) :
    List EntryRef → Config → Event → Prop
  | skip {child : EntryRef} {rest : List EntryRef} :
    Round w s x k (child :: rest) ⟨s, .unload x rest :: k⟩ .internal
  | child {child : EntryRef} {rest : List EntryRef} {path : CStr} {id : RegionId} {plen : Nat}
      {c' : Config} {ev : Event} (hu : Unloads w s path id plen (.unload x rest :: k) c' ev) :
    Round w s x k (child :: rest) c' ev
  | finish {me : ModEntry} {c' : Config} {ev : Event} (hme : s.rt.mods x = some me)
      (hr : resume (modUnloadFinish w s x me) xyOk k = .next c' ev) : Round w s x k [] c' ev

/-- The stack of a cascade of `e` above `k`, with the cascades that it has started. -/
inductive Cascading (e : EntryRef) (k : List Frame) : List Frame → Prop
  | own (rest : List EntryRef) : Cascading e k (.unload e rest :: k)
  | above (x : EntryRef) (rest : List EntryRef) {t : List Frame} (h : Cascading e k t) :
    Cascading e k (.unload x rest :: t)

/-- The call that `module_cleanup_region_state` makes into the module. -/
def ModEntry.cleanup (w : World) (me : ModEntry) : List (Addr × BlockRef) :=
  match me.regionState, w.dlsym me.handle .xyRegionCleanup with
  | some block, some fn => [(fn, block)]
  | _, _ => []

section

variable {w : World} {c c' : Config} {a : Action} {ev : Event} {s : State} {k t : List Frame}
  {e x : EntryRef} {ys : List EntryRef} {me me' : ModEntry}

theorem moduleCleanupRegionState_cleanups (w : World) (s : State) (me : ModEntry) :
    (moduleCleanupRegionState w s me).cleanups = me.cleanup w ++ s.cleanups := by
  unfold moduleCleanupRegionState ModEntry.cleanup
  cases me.regionState with
  | none => rfl
  | some block =>
    cases w.dlsym me.handle .xyRegionCleanup <;> rfl

theorem ModEntry.cleanup_core (w : World) (me : ModEntry) : me.core.cleanup w = me.cleanup w := rfl

theorem Step.round (h : Step w ⟨s, .unload x ys :: k⟩ a c' ev) :
    a = .tau ∧ Round w s x k ys c' ev := by
  cases h with
  | cascadeSkip hme hp => exact ⟨rfl, .skip⟩
  | cascade hme hp hs hu => exact ⟨rfl, .child hu⟩
  | remove hme hr => exact ⟨rfl, .finish hme hr⟩
  | load hw | unload hw | reload hw | scope hw | eachFirst hw | answered hw | direct hw
  | dispatchDone hw | dispatchLoop hw => cases hw

/-- A cascade stays in the region of its call. -/
theorem Round.current (h : Round w s x k ys c' ev) : c'.st.tls.current = s.tls.current := by
  cases h with
  | skip => rfl
  | child hu =>
    cases hu with
    | notFound hl hr => exact (resume_spec hr).1.current
    | shared hl hme href hr => exact (resume_spec hr).1.current
    | cascade => rfl
  | finish hme hr =>
    exact (resume_spec hr).1.current.trans (modUnloadFinish_spec ..).2.2.1

/-- A cascade changes nothing of an entry that lives on but its refcount. -/
theorem Step.round_entry (hwf : c.Wf w) (h : Step w c a c' ev) (hstack : c.stack = .unload x ys :: k)
    (hme' : c'.st.rt.mods e = some me') :
    ∃ me, c.st.rt.mods e = some me ∧ me'.core = { me.core with refcount := me'.refcount } := by
  rcases (h.effect hwf).entry hme' with ⟨tx, t, -, hs, -⟩ | ⟨me, hme, hch⟩
  · rw [hstack] at hs
    cases hs
  · refine ⟨me, hme, ?_⟩
    have hcount : me'.core.refcount = me'.refcount := rfl
    rw [← hcount]
    generalize me'.core = m at hch ⊢
    cases hch with
    | same | refcount => rfl
    | bind ha hs | rekey ha hs | link ha hs | reinsert ha hs =>
      rw [hstack] at hs
      cases hs

theorem Cascading.resume (h : Cascading e k t) (s : State) (ret : Int) :
    Xylem.resume s ret t = .next ⟨s, t⟩ .internal := by
  cases h <;> rfl

/-- A cascade goes on, until the entry that it is of is taken out of the tables. -/
theorem Cascading.step {rl : Reload} (h : Cascading e (.reload rl .unloading :: k) c.stack)
    (hs : Step w c a c' ev) :
    Cascading e (.reload rl .unloading :: k) c'.stack
      ∨ ∃ me, c.stack = .unload e [] :: .reload rl .unloading :: k ∧ c.st.rt.mods e = some me
        ∧ c' = ⟨modUnloadFinish w c.st e me, .reload rl (.unloaded xyOk) :: k⟩ := by
  have hunloads : ∀ {s : State} {path : CStr} {id : RegionId} {plen : Nat} {t : List Frame},
      Cascading e (.reload rl .unloading :: k) t → Unloads w s path id plen t c' ev →
      Cascading e (.reload rl .unloading :: k) c'.stack := by
    intro s path id plen t ht hu
    cases hu with
    | notFound hl hr | shared hl hme href hr =>
      rw [ht.resume] at hr
      cases hr
      exact ht
    | cascade hl hme href => exact .above _ _ ht
  obtain ⟨s, stack⟩ := c
  dsimp only at h
  cases h with
  | own rest =>
    obtain ⟨rfl, hround⟩ := hs.round
    cases hround with
    | skip => exact Or.inl (.own _)
    | child hu => exact Or.inl (hunloads (.own _) hu)
    | finish hme hr =>
      cases hr
      exact Or.inr ⟨_, rfl, hme, rfl⟩
  | above x rest ht =>
    obtain ⟨rfl, hround⟩ := hs.round
    left
    cases hround with
    | skip => exact .above _ _ ht
    | child hu => exact hunloads (.above _ _ ht) hu
    | finish hme hr =>
      rw [ht.resume] at hr
      cases hr
      exact ht

end

/-! ## The reload of a module that has one holder -/

/-- The move frees `e`, and cleans up the region state that `me` has. -/
structure Move.TearsDown (w : World) (e : EntryRef) (me : ModEntry) (m : Move) : Prop where
  live : (m.before.st.rt.mods e).isSome
  freed : m.after.st.rt.mods e = none
  cleaned : m.after.st.cleanups = me.cleanup w ++ m.before.st.cleanups

/-- `dlopen` gives the object `h` to the call on top, which is the `n`th. -/
def Move.OpensAs (n : Nat) (h : Handle) (m : Move) : Prop :=
  m.before.stack.length = n ∧ m.act = .ret (.dlopened (some h))

/-- The move binds the object `h` under the key `κ`, as the new entry `e`. -/
structure Move.Binds (κ : List UInt8) (path : CStr) (h : Handle) (e : EntryRef) (m : Move) :
    Prop where
  fresh : m.before.st.rt.mods e = none
  entry : ∃ me, m.after.st.rt.mods e = some me ∧ me.handle = h ∧ me.loadPath = path
  key : m.after.st.rt.modHd.lookup κ = some e

/-- How often the `xy_install` of `e` has been called. -/
def installsOf (e : EntryRef) (log : List Move) : Nat :=
  (log.map (·.event)).count (.enterInstall e)

/-- The object `h` has been opened by the load above the reload, and bound as `e`. -/
structure BoundAs (n : Nat) (κ : List UInt8) (path : CStr) (h : Handle) (e : EntryRef)
    (log : List Move) : Prop where
  opened : ∃ m ∈ log, m.OpensAs (n + 2) h
  bound : ∃ m ∈ log, m.Binds κ path h e

/-- The entry `e` has been torn down. -/
structure TornDown (w : World) (e : EntryRef) (me : ModEntry) (log : List Move) (d : Config) :
    Prop where
  torn : ∃ m ∈ log, m.TearsDown w e me
  gone : d.st.rt.mods e = none

/-- Whether `xy_install` has been called. -/
def LoadPc.entered : LoadPc → Bool
  | .installing _ => true
  | _ => false

/-- How far the reload `rl` has come, which was called in `c` for the entry `e` and has
made the moves `log` since. -/
inductive Replacing (w : World) (c : Config) (rl : Reload) (e : EntryRef) (me : ModEntry) :
    List Move → Config → Prop
  | unloading {log : List Move} {d : Config}
      (hstack : Cascading e (.reload rl .unloading :: c.stack) d.stack)
      (hcur : d.st.tls.current = c.st.tls.current)
      (hme : ∀ me', d.st.rt.mods e = some me' →
        me'.core = { me.core with refcount := me'.refcount }) :
    Replacing w c rl e me log d
  | unloaded {log : List Move} {d : Config}
      (hstack : d.stack = .reload rl (.unloaded xyOk) :: c.stack)
      (hcur : d.st.tls.current = c.st.tls.current) (ht : TornDown w e me log d)
      (hkey : d.st.rt.modHd.lookup (rl.key w) = none) : Replacing w c rl e me log d
  | opening {log : List Move} {d : Config} {l : List Frame} {tx : LoadTxn}
      (hstack : d.stack = l ++ .load tx .opening :: .reload rl .loading :: c.stack)
      (ht : TornDown w e me log d) (hnew : tx.lookup.entry = none)
      (hkey : tx.lookup.key = rl.key w) (hpath : tx.lookup.loadPath = w.loadPath rl.fname) :
    Replacing w c rl e me log d
  | opened {log : List Move} {d : Config} {tx : LoadTxn}
      (hstack : d.stack = .load tx .opened :: .reload rl .loading :: c.stack)
      (ht : TornDown w e me log d) (hnew : tx.lookup.entry = none)
      (hkey : tx.lookup.key = rl.key w) (hpath : tx.lookup.loadPath = w.loadPath rl.fname)
      (hopen : ∃ m ∈ log, m.OpensAs (c.stack.length + 2) tx.handle) :
    Replacing w c rl e me log d
  | bound {log : List Move} {d : Config} {l : List Frame} {tx : LoadTxn} {pc : LoadPc}
      {e' : EntryRef} (hstack : d.stack = l ++ .load tx pc :: .reload rl .loading :: c.stack)
      (ht : TornDown w e me log d) (hpc : pc.early = false) (herr : pc ≠ .aborting xyOk)
      (he : tx.modEntry = some e')
      (hb : BoundAs c.stack.length (rl.key w) (w.loadPath rl.fname) tx.handle e' log)
      (hcount : installsOf e' log = if pc.entered then 1 else 0) : Replacing w c rl e me log d
  | loaded {log : List Move} {d : Config} {ret : Int}
      (hstack : d.stack = .reload rl (.loaded ret) :: c.stack) (ht : TornDown w e me log d)
      (hdone : ret = xyOk → ∃ h e',
        BoundAs c.stack.length (rl.key w) (w.loadPath rl.fname) h e' log ∧ installsOf e' log = 1) :
    Replacing w c rl e me log d

section

variable {w : World} {c d d' : Config} {a : Action} {ev : Event} {rl : Reload} {e e' : EntryRef}
  {me : ModEntry} {log : List Move} {m : Move} {n : Nat} {κ : List UInt8} {path : CStr} {h : Handle}

theorem BoundAs.concat (hb : BoundAs n κ path h e log) (m : Move) :
    BoundAs n κ path h e (log ++ [m]) := by
  obtain ⟨⟨m₁, hm₁, ho⟩, ⟨m₂, hm₂, hb⟩⟩ := hb
  exact ⟨⟨m₁, List.mem_append_left _ hm₁, ho⟩, ⟨m₂, List.mem_append_left _ hm₂, hb⟩⟩

theorem installsOf_concat (e : EntryRef) (log : List Move) (m : Move) :
    installsOf e (log ++ [m]) = installsOf e log + if m.event = .enterInstall e then 1 else 0 := by
  unfold installsOf
  rw [List.map_append, List.count_append, List.map_singleton, List.count_singleton]
  simp only [beq_iff_eq]

/-- What has been freed stays so. -/
theorem TornDown.step (hwf : d.Wf w) (ht : TornDown w e me log d) (hlt : e < d.st.rt.nmods)
    (hs : Step w d a d' ev) : TornDown w e me (log ++ [m]) d' := by
  obtain ⟨m₁, hm₁, htorn⟩ := ht.torn
  refine ⟨⟨m₁, List.mem_append_left _ hm₁, htorn⟩, ?_⟩
  by_contra hlive
  have hold := (hs.effect hwf).live_old hlt (Option.isSome_iff_ne_none.mpr hlive)
  rw [ht.gone] at hold
  cases hold

/-- A cascade stays in the region of its call. -/
theorem Cascading.current {k : List Frame} (hstack : Cascading e k d.stack) (hs : Step w d a d' ev) :
    d'.st.tls.current = d.st.tls.current := by
  obtain ⟨s, stack⟩ := d
  dsimp only at hstack
  cases hstack with
  | own | above => exact hs.round.2.current

/-- A cascade keeps the entry that it is of, but for its refcount. -/
theorem Cascading.entry {k : List Frame} (hwf : d.Wf w) (hstack : Cascading e k d.stack)
    (hs : Step w d a d' ev)
    (hme : ∀ me', d.st.rt.mods e = some me' → me'.core = { me.core with refcount := me'.refcount })
    {me' : ModEntry} (hme' : d'.st.rt.mods e = some me') :
    me'.core = { me.core with refcount := me'.refcount } := by
  obtain ⟨x, ys, t, htop⟩ : ∃ x ys t, d.stack = .unload x ys :: t := by
    generalize d.stack = stack at hstack ⊢
    cases hstack with
    | own | above => exact ⟨_, _, _, rfl⟩
  obtain ⟨me₁, hme₁, hcore⟩ := hs.round_entry hwf htop hme'
  rw [hcore, hme me₁ hme₁]

/-- The end of a cascade tears its entry down. -/
theorem modUnloadFinish_tearsDown {me' : ModEntry} {k : List Frame} (hme' : d.st.rt.mods e = some me')
    (hcore : me'.core = { me.core with refcount := me'.refcount })
    (hd' : d' = ⟨modUnloadFinish w d.st e me', k⟩) :
    Move.TearsDown w e me ⟨d, a, ev, d'⟩
      ∧ d'.st.rt.modHd = d.st.rt.modHd.erase me.modKey := by
  subst hd'
  have hrt : (modUnloadFinish w d.st e me').rt = d.st.rt.removeEntry w e me' :=
    (modUnloadFinish_spec ..).1
  have hkey : me'.core.modKey = me.core.modKey := by rw [hcore]
  have hclean : me'.core.cleanup w = me.core.cleanup w := by rw [hcore]; rfl
  rw [ModEntry.cleanup_core, ModEntry.cleanup_core] at hclean
  obtain ⟨rt₁, -, hmods⟩ := removeEntry_mods (w := w) d.st.rt e me'
  constructor
  · constructor
    · show (d.st.rt.mods e).isSome = true
      rw [hme']
      rfl
    · show (modUnloadFinish w d.st e me').rt.mods e = none
      rw [hrt, hmods, Function.update_self]
    · rw [← hclean]
      exact moduleCleanupRegionState_cleanups ..
  · show (modUnloadFinish w d.st e me').rt.modHd = _
    rw [hrt, removeEntry_modHd, show me'.modKey = me.modKey from hkey]

theorem Replacing.cascade_step (hwf : d.Wf w)
    (hstack : Cascading e (.reload rl .unloading :: c.stack) d.stack)
    (hcur : d.st.tls.current = c.st.tls.current)
    (hme : ∀ me', d.st.rt.mods e = some me' → me'.core = { me.core with refcount := me'.refcount })
    (hkey : me.modKey = rl.key w) (hs : Step w d a d' ev) :
    Replacing w c rl e me (log ++ [⟨d, a, ev, d'⟩]) d' := by
  have hcur' := (hstack.current hs).trans hcur
  rcases hstack.step hs with hgo | ⟨me', -, hme', hd'⟩
  · exact .unloading hgo hcur' fun me' hme' => hstack.entry hwf hs hme hme'
  · obtain ⟨htears, htable⟩ := modUnloadFinish_tearsDown hme' (hme me' hme') hd'
    have hlast : (⟨d, a, ev, d'⟩ : Move) ∈ log ++ [⟨d, a, ev, d'⟩] :=
      List.mem_append_right _ (List.mem_singleton.mpr rfl)
    refine .unloaded ?_ hcur' ⟨⟨_, hlast, htears⟩, htears.freed⟩ ?_
    · rw [hd']
    · rw [htable, hkey, AList.lookup_erase]

/-- The region that is current has the same width as long as it is the same. -/
theorem regionCurrentPlen_eq (hwf : c.Wf w) (hkept : c.st.rt.RegionsKept d.st.rt)
    (hcur : d.st.tls.current = c.st.tls.current) :
    d.st.regionCurrentPlen = c.st.regionCurrentPlen := by
  unfold State.regionCurrentPlen
  rw [hcur]
  cases hr : c.st.tls.current.entry with
  | none => rfl
  | some r => exact congrArg RegionKey.plen (hkept.key r (hwf.current r hr))

theorem Replacing.reload_step (hc : c.Wf w) (hwf : d.Wf w) (hkept : c.st.rt.RegionsKept d.st.rt)
    (hid : rl.id = c.st.tls.current.id) (hplen : rl.plen = c.st.regionCurrentPlen)
    (hlt : e < d.st.rt.nmods) (hstack : d.stack = .reload rl (.unloaded xyOk) :: c.stack)
    (hcur : d.st.tls.current = c.st.tls.current) (ht : TornDown w e me log d)
    (hkey : d.st.rt.modHd.lookup (rl.key w) = none) (hs : Step w d a d' ev)
    (hlen : c.stack.length < d'.stack.length) :
    Replacing w c rl e me (log ++ [⟨d, a, ev, d'⟩]) d' := by
  have ht' : TornDown w e me (log ++ [⟨d, a, ev, d'⟩]) d' := ht.step hwf hlt hs
  have hplen' := (regionCurrentPlen_eq hc hkept hcur).trans hplen.symm
  have hid' : d.st.tls.current.id = rl.id := by rw [hcur, hid]
  obtain ⟨s, stack⟩ := d
  cases hstack
  cases hs with
  | reloadLoad =>
    dsimp only at hplen' hid'
    have hsame : modKey (w.loadPath rl.fname) s.tls.current.id s.regionCurrentPlen = rl.key w := by
      rw [hid', hplen']
      rfl
    refine .opening (l := []) rfl ht' ?_ hsame rfl
    show s.rt.modHd.lookup (modKey _ s.tls.current.id s.regionCurrentPlen) = none
    rw [hsame]
    exact hkey
  | reloadEnd => exact absurd hlen (Nat.lt_irrefl _)
  | load hw | unload hw | reload hw | scope hw | eachFirst hw | answered hw | direct hw
  | dispatchDone hw | dispatchLoop hw => cases hw

/-- The constructors have returned, or the load has failed. -/
theorem Replacing.open_step {tx : LoadTxn} (hwf : d.Wf w) (hlt : e < d.st.rt.nmods)
    (hstack : d.stack = .load tx .opening :: .reload rl .loading :: c.stack)
    (ht : TornDown w e me log d) (hnew : tx.lookup.entry = none)
    (hkey : tx.lookup.key = rl.key w) (hpath : tx.lookup.loadPath = w.loadPath rl.fname)
    (ha : ∀ q, a ≠ .call q) (hs : Step w d a d' ev) :
    Replacing w c rl e me (log ++ [⟨d, a, ev, d'⟩]) d' := by
  have ht' : TornDown w e me (log ++ [⟨d, a, ev, d'⟩]) d' := ht.step hwf hlt hs
  have hlast : (⟨d, a, ev, d'⟩ : Move) ∈ log ++ [⟨d, a, ev, d'⟩] :=
    List.mem_append_right _ (List.mem_singleton.mpr rfl)
  obtain ⟨s, stack⟩ := d
  cases hstack
  cases hs with
  | dlopenFailed hr =>
    cases hr
    exact .loaded rfl ht' fun hok => absurd hok (by decide)
  | dlopened => exact .opened rfl ht' hnew hkey hpath ⟨_, hlast, rfl, rfl⟩
  | load | unload | reload | scope | eachFirst | answered | direct | dispatchDone | dispatchLoop =>
    exact absurd rfl (ha _)

/-- The object is bound as a new entry. -/
theorem Replacing.publish_step {tx : LoadTxn} (hwf : d.Wf w) (hlt : e < d.st.rt.nmods)
    (hlog : ∀ m ∈ log, ∀ x, m.event = .enterInstall x → x < d.st.rt.nmods)
    (hstack : d.stack = .load tx .opened :: .reload rl .loading :: c.stack)
    (ht : TornDown w e me log d) (hnew : tx.lookup.entry = none)
    (hkey : tx.lookup.key = rl.key w) (hpath : tx.lookup.loadPath = w.loadPath rl.fname)
    (hopen : ∃ m ∈ log, m.OpensAs (c.stack.length + 2) tx.handle) (hs : Step w d a d' ev) :
    Replacing w c rl e me (log ++ [⟨d, a, ev, d'⟩]) d' := by
  have ht' : TornDown w e me (log ++ [⟨d, a, ev, d'⟩]) d' := ht.step hwf hlt hs
  have hlast : (⟨d, a, ev, d'⟩ : Move) ∈ log ++ [⟨d, a, ev, d'⟩] :=
    List.mem_append_right _ (List.mem_singleton.mpr rfl)
  have hfresh : d.st.rt.mods d.st.rt.nmods = none := hwf.heap.fresh le_rfl
  have hnone : installsOf d.st.rt.nmods log = 0 := by
    refine List.count_eq_zero.mpr fun hmem => ?_
    obtain ⟨m, hm, hev⟩ := List.mem_map.mp hmem
    exact Nat.lt_irrefl _ (hlog m hm _ hev)
  obtain ⟨m, hm, hopen⟩ := hopen
  obtain ⟨s, stack⟩ := d
  cases hstack
  cases hs with
  | reuse hl hme hr =>
    rw [hnew] at hl
    cases hl
  | publish hl =>
    refine .bound (l := []) rfl ht' rfl nofun rfl
      ⟨⟨m, List.mem_append_left _ hm, hopen⟩, ⟨_, hlast, hfresh, ?_, ?_⟩⟩ ?_
    · exact ⟨tx.freshEntry s.tls.loadingMod, by simp [modLoadAllocPublish, publishEntry], rfl, hpath⟩
    · rw [← hkey]
      exact AList.lookup_insert _
    · rw [installsOf_concat, hnone]
      rfl
  | load hw | unload hw | reload hw | scope hw | eachFirst hw | answered hw | direct hw
  | dispatchDone hw | dispatchLoop hw => cases hw

/-- The load of the new entry goes on, or it returns. -/
theorem Replacing.bound_step {tx : LoadTxn} {pc : LoadPc} (hwf : d.Wf w) (hlt : e < d.st.rt.nmods)
    (hstack : d.stack = .load tx pc :: .reload rl .loading :: c.stack)
    (ht : TornDown w e me log d) (hpc : pc.early = false) (herr : pc ≠ .aborting xyOk)
    (he : tx.modEntry = some e')
    (hb : BoundAs c.stack.length (rl.key w) (w.loadPath rl.fname) tx.handle e' log)
    (hcount : installsOf e' log = if pc.entered then 1 else 0)
    (ha : ∀ q, a ≠ .call q) (hs : Step w d a d' ev) :
    Replacing w c rl e me (log ++ [⟨d, a, ev, d'⟩]) d' := by
  have ht' : TornDown w e me (log ++ [⟨d, a, ev, d'⟩]) d' := ht.step hwf hlt hs
  have hb' := hb.concat ⟨d, a, ev, d'⟩
  have hquiet : ev ≠ .enterInstall e' →
      installsOf e' (log ++ [⟨d, a, ev, d'⟩]) = if pc.entered then 1 else 0 := fun hev => by
    rw [installsOf_concat, if_neg hev, hcount]
    rfl
  obtain ⟨s, stack⟩ := d
  cases hstack
  cases hs with
  | bind =>
    have hentered : LoadPc.entered (if (modLoadBindXy w s tx).2 = xyOk then LoadPc.claim
        else .aborting (modLoadBindXy w s tx).2) = false := by split <;> rfl
    refine .bound (l := []) rfl ht' ?_ ?_ he hb' ((hquiet nofun).trans (by rw [hentered]; rfl))
    · split <;> rfl
    · split
      · exact nofun
      · next hne => exact fun heq => hne (LoadPc.aborting.inj heq)
  | claimFlat hg => exact .bound (l := []) rfl ht' rfl nofun he hb' (hquiet nofun)
  | claimRefused hg =>
    exact .bound (l := []) rfl ht' rfl (fun heq => modLoadClaimGate_refused hg (by cases heq; rfl))
      he hb' (hquiet nofun)
  | claimAsked hg => exact .bound (l := []) rfl ht' rfl nofun he hb' (hquiet nofun)
  | notGranted hg =>
    exact .bound (l := []) rfl ht' rfl (fun heq => xyClaimGranted_refused hg (by cases heq; rfl))
      he hb' (hquiet nofun)
  | granted hg => exact .bound (l := []) rfl ht' rfl nofun he hb' (hquiet nofun)
  | rekey he' hme => exact .bound (l := []) rfl ht' rfl nofun he hb' (hquiet nofun)
  | link he' hme => exact .bound (l := []) rfl ht' rfl nofun he hb' (hquiet nofun)
  | installMissing he' hi =>
    exact .bound (l := []) rfl ht' rfl (fun heq => absurd (LoadPc.aborting.inj heq) (by decide)) he hb'
      (hquiet nofun)
  | install he' hi =>
    refine .bound (l := []) rfl ht' rfl nofun he hb' ?_
    obtain rfl := Option.some.inj (he'.symm.trans he)
    rw [installsOf_concat, hcount]
    simp [LoadPc.entered]
  | installed hr =>
    cases hr
    exact .loaded rfl ht' fun _ => ⟨_, _, hb', hquiet nofun⟩
  | abort hab hr =>
    cases hr
    exact .loaded rfl ht' fun hok => absurd (by rw [hok]) herr
  | dlopenFailed | dlopened | reuse | publish => cases hpc
  | load | unload | reload | scope | eachFirst | answered | direct | dispatchDone | dispatchLoop =>
    exact absurd rfl (ha _)

/-- While the new load waits for its module, its `xy_install` is not called. -/
theorem Elsewhere.not_install {c₀ : Config} {tx : LoadTxn} {pc : LoadPc}
    (he : Elsewhere c₀ d d' tx pc a) (hnodup : (allocated d.stack).Nodup)
    (hmod : tx.modEntry = some e') (hs : Step w d a d' ev) : ev ≠ .enterInstall e' := by
  intro hev
  subst hev
  obtain ⟨rfl, tx', k, htop, hmod'⟩ := hs.install_top
  have hdeep := he.deep nofun
  obtain ⟨l, hl⟩ := he.frame
  rw [hl, List.length_append, List.length_cons] at hdeep
  obtain ⟨f, l, rfl⟩ := List.exists_cons_of_ne_nil (l := l) (by rintro rfl; simp at hdeep)
  rw [hl] at htop hnodup
  cases htop
  have hfst : Frame.allocated (.load tx' .install) = some e' := hmod'
  have hin : e' ∈ (l ++ .load tx pc :: c₀.stack).filterMap Frame.allocated :=
    List.mem_filterMap.mpr ⟨.load tx pc, by simp, hmod⟩
  rw [List.cons_append, allocated, List.filterMap_cons_some hfst] at hnodup
  exact (List.nodup_cons.mp hnodup).1 hin

/-- One move of the run. -/
theorem Replacing.step (hc : c.Wf w) (hreach : Reachable w d) (hkept : c.st.rt.RegionsKept d.st.rt)
    (hid : rl.id = c.st.tls.current.id) (hplen : rl.plen = c.st.regionCurrentPlen)
    (hkey : me.modKey = rl.key w) (hlt : e < d.st.rt.nmods)
    (hlog : ∀ m ∈ log, ∀ x, m.event = .enterInstall x → x < d.st.rt.nmods)
    (h : Replacing w c rl e me log d) (hs : Xylem.step w d a = .next d' ev)
    (hlen : c.stack.length < d'.stack.length) :
    Replacing w c rl e me (log ++ [⟨d, a, ev, d'⟩]) d' := by
  have hwf : d.Wf w := .of_reachable hreach
  have hstep := Step.of_step hs
  cases h with
  | unloading hstack hcur hme => exact Replacing.cascade_step hwf hstack hcur hme hkey hstep
  | unloaded hstack hcur ht hnone =>
    exact Replacing.reload_step hc hwf hkept hid hplen hlt hstack hcur ht hnone hstep hlen
  | opened hstack ht hnew hκ hpath hopen =>
    exact Replacing.publish_step hwf hlt hlog hstack ht hnew hκ hpath hopen hstep
  | loaded hstack ht hdone =>
    obtain ⟨s, stack⟩ := d
    cases hstack
    cases hstep with
    | reinsert | reloadEnd => exact absurd hlen (Nat.lt_irrefl _)
    | load hw | unload hw | reload hw | scope hw | eachFirst hw | answered hw | direct hw
    | dispatchDone hw | dispatchLoop hw => cases hw
  | @opening l tx hstack ht hnew hκ hpath =>
    by_cases hown : d.stack.length = c.stack.length + 2 → ∃ q, a = .call q
    · let c₀ : Config := ⟨c.st, .reload rl .loading :: c.stack⟩
      have he : Elsewhere c₀ d d' tx .opening a :=
        .of_step hs (parked_of_reachable hreach) ⟨l, hstack⟩ hown
      obtain ⟨l', hl'⟩ := he.frame'
      exact .opening hl' (ht.step hwf hlt hstep) hnew hκ hpath
    · rw [Classical.not_imp] at hown
      obtain rfl : l = [] := by
        have hlength := hown.1
        rw [hstack] at hlength
        simpa using hlength
      exact Replacing.open_step hwf hlt hstack ht hnew hκ hpath (fun q hq => hown.2 ⟨q, hq⟩) hstep
  | @bound l tx pc e' hstack ht hpc herr he hb hcount =>
    by_cases hown : d.stack.length = c.stack.length + 2 → ∃ q, a = .call q
    · let c₀ : Config := ⟨c.st, .reload rl .loading :: c.stack⟩
      have helse : Elsewhere c₀ d d' tx pc a :=
        .of_step hs (parked_of_reachable hreach) ⟨l, hstack⟩ hown
      obtain ⟨l', hl'⟩ := helse.frame'
      refine .bound hl' (ht.step hwf hlt hstep) hpc herr he (hb.concat _) ?_
      rw [installsOf_concat, if_neg (helse.not_install (allocated_nodup hreach) he hstep), hcount]
      rfl
    · rw [Classical.not_imp] at hown
      obtain rfl : l = [] := by
        have hlength := hown.1
        rw [hstack] at hlength
        simpa using hlength
      exact Replacing.bound_step hwf hlt hstack ht hpc herr he hb hcount
        (fun q hq => hown.2 ⟨q, hq⟩) hstep

/-- The run of a reload. -/
theorem Inside.replacing {c₁ : Config} (hc : Reachable w c) (hreach : Reachable w c₁)
    (hkept : c.st.rt.RegionsKept c₁.st.rt) (hid : rl.id = c.st.tls.current.id)
    (hplen : rl.plen = c.st.regionCurrentPlen) (hkey : me.modKey = rl.key w)
    (hlt : e < c₁.st.rt.nmods) (h : Replacing w c rl e me [] c₁)
    (hin : Inside w c.stack.length c₁ log d) :
    (c.st.rt.RegionsKept d.st.rt ∧ e < d.st.rt.nmods
      ∧ ∀ m ∈ log, ∀ x, m.event = .enterInstall x → x < d.st.rt.nmods)
      ∧ Replacing w c rl e me log d := by
  induction hin with
  | start => exact ⟨⟨hkept, hlt, fun m hm => absurd hm List.not_mem_nil⟩, h⟩
  | @move log d d' a ev hin hs hlen ih =>
    obtain ⟨⟨hkept₁, hlt₁, hlog⟩, hphase⟩ := ih
    have hreach₁ := hin.reachable (fun _ _ => trivial) hreach
    have hwf : d.Wf w := .of_reachable hreach₁
    have heff := (Step.of_step hs).effect hwf
    have hle := heff.nmods_le hwf
    have hne := step_ne_shutdown hs (List.ne_nil_of_length_pos (by have := hin.length_lt; omega))
    refine ⟨⟨hkept₁.trans (heff.kept hne), Nat.lt_of_lt_of_le hlt₁ hle, ?_⟩,
      hphase.step (.of_reachable hc) hreach₁ hkept₁ hid hplen hkey hlt₁ hlog hs hlen⟩
    refine forall_mem_concat (fun m hm x hev => Nat.lt_of_lt_of_le (hlog m hm x hev) hle) ?_
    intro x hev
    dsimp only at hev
    subst hev
    exact Nat.lt_of_lt_of_le ((Step.of_step hs).install_lt hwf) hle

end

/-! ## The reload of a module that has other holders -/

/-- A reload whose unload has released `e` is in the `dlopen` of its load. -/
def Config.reopening (w : World) (c : Config) (rl : Reload) (e : EntryRef) : Config :=
  ⟨c.st.release e, .load (modLoadStart w (c.st.release e) rl.fname) .opening
    :: .reload rl .loading :: c.stack⟩

/-- How far a reload has come that found other holders of `e`. -/
inductive Sharing (w : World) (c : Config) (rl : Reload) (e : EntryRef) :
    List Move → Config → Prop
  | unloaded : Sharing w c rl e [] ⟨c.st.release e, .reload rl (.unloaded xyOk) :: c.stack⟩
  | opening {m : Move} {inner : List Move} {d : Config} {l : List Frame}
      (hin : Inside w (c.stack.length + 1) (c.reopening w rl e) inner d)
      (hstack : d.stack = l ++ .load (modLoadStart w (c.st.release e) rl.fname) .opening
        :: .reload rl .loading :: c.stack) : Sharing w c rl e (m :: inner) d
  | opened {log : List Move} {d : Config} {tx : LoadTxn}
      (hstack : d.stack = .load tx .opened :: .reload rl .loading :: c.stack)
      (hentry : tx.lookup.entry = some e) : Sharing w c rl e log d
  | loaded {log : List Move} {d : Config} {ret : Int}
      (hstack : d.stack = .reload rl (.loaded ret) :: c.stack)
      (hok : ret = xyOk → (d.st.rt.mods e).isSome)
      (herr : ret ≠ xyOk → ∃ m inner m' d', log = m :: inner ++ [m']
        ∧ Inside w (c.stack.length + 1) (c.reopening w rl e) inner d'
        ∧ d.st.rt = d'.st.rt ∧ d.st.tls = d'.st.tls) : Sharing w c rl e log d

section

variable {w : World} {c c₁ d d' : Config} {a : Action} {ev : Event} {rl : Reload} {e : EntryRef}
  {me : ModEntry} {log : List Move}

theorem Sharing.step (hreach : Reachable w d)
    (hfind : (modLoadStart w (c.st.release e) rl.fname).lookup.entry = some e)
    (h : Sharing w c rl e log d) (hs : Xylem.step w d a = .next d' ev)
    (hlen : c.stack.length < d'.stack.length) : Sharing w c rl e (log ++ [⟨d, a, ev, d'⟩]) d' := by
  have hstep := Step.of_step hs
  cases h with
  | unloaded =>
    cases hstep with
    | reloadLoad => exact .opening (l := []) (.start (Nat.lt_succ_self _)) rfl
    | reloadEnd => exact absurd hlen (Nat.lt_irrefl _)
    | load hw | unload hw | reload hw | scope hw | eachFirst hw | answered hw | direct hw
    | dispatchDone hw | dispatchLoop hw => cases hw
  | @opening m inner _ l hin hstack =>
    by_cases hown : d.stack.length = c.stack.length + 2 → ∃ q, a = .call q
    · let c₀ : Config := ⟨c.st, .reload rl .loading :: c.stack⟩
      have he : Elsewhere c₀ d d' _ .opening a :=
        .of_step hs (parked_of_reachable hreach) ⟨l, hstack⟩ hown
      obtain ⟨l', hl'⟩ := he.frame'
      have hlen' : c.stack.length + 1 < d'.stack.length := by
        rw [hl', List.length_append, List.length_cons]
        show c.stack.length + 1 < l'.length + (c.stack.length + 1 + 1)
        omega
      exact .opening (hin.move hs hlen') hl'
    · rw [Classical.not_imp] at hown
      obtain ⟨hlength, ha⟩ := hown
      obtain rfl : l = [] := by
        rw [hstack] at hlength
        simpa using hlength
      obtain ⟨s, stack⟩ := d
      cases hstack
      cases hstep with
      | dlopenFailed hr =>
        cases hr
        exact .loaded rfl (fun hok => absurd hok (by decide))
          fun _ => ⟨m, inner, _, _, rfl, hin, rfl, rfl⟩
      | dlopened => exact .opened rfl hfind
      | load | unload | reload | scope | eachFirst | answered | direct | dispatchDone
      | dispatchLoop => exact absurd ⟨_, rfl⟩ ha
  | @opened _ _ tx hstack hentry =>
    obtain ⟨s, stack⟩ := d
    cases hstack
    cases hstep with
    | reuse hl hme hr =>
      rw [hentry] at hl
      cases hl
      cases hr
      refine .loaded rfl (fun _ => ?_) fun hne => absurd rfl hne
      rw [Option.isSome_iff_ne_none]
      intro hnone
      rw [modifyMod_none.mp hnone] at hme
      cases hme
    | publish hl =>
      rw [hentry] at hl
      cases hl
    | load hw | unload hw | reload hw | scope hw | eachFirst hw | answered hw | direct hw
    | dispatchDone hw | dispatchLoop hw => cases hw
  | loaded hstack =>
    obtain ⟨s, stack⟩ := d
    cases hstack
    cases hstep with
    | reinsert | reloadEnd => exact absurd hlen (Nat.lt_irrefl _)
    | load hw | unload hw | reload hw | scope hw | eachFirst hw | answered hw | direct hw
    | dispatchDone hw | dispatchLoop hw => cases hw

theorem Inside.sharing (hreach : Reachable w c₁)
    (hfind : (modLoadStart w (c.st.release e) rl.fname).lookup.entry = some e)
    (h : Sharing w c rl e [] c₁) (hin : Inside w c.stack.length c₁ log d) :
    Sharing w c rl e log d := by
  induction hin with
  | start => exact h
  | move hin hs hlen ih =>
    exact ih.step (hin.reachable (fun _ _ => trivial) hreach) hfind hs hlen

end

/-! ## What holds when a reload returns -/

/-- The reload has done what `XY_OK` says; `opens` is the open that a move comes back from.

* The old entry has been torn down, and is gone.
* What the open of the reload's own load has opened is a new copy of the file.
* The object has been bound as a new entry under the old key, and its `xy_install` has
  been called once. -/
structure Reloaded {ν : Type*} [DecidableEq ν] (w : World) (opens : Move → Opening ν) (c : Config)
    (fname : CStr) (e : EntryRef) (me : ModEntry) (log : List Move) (c' : Config) : Prop where
  torn : TornDown w e me log c'
  copy : ∀ m ∈ log, ∀ h, m.OpensAs (c.stack.length + 2) h →
    (opens m).OpensCopy (w.loadPath fname) h
  bound : ∃ h e', BoundAs c.stack.length
      (modKey (w.loadPath fname) c.st.tls.current.id c.st.regionCurrentPlen) (w.loadPath fname) h e'
      log
    ∧ installsOf e' log = 1

/-- The entry has been freed, and neither a region nor the table leads to it. -/
structure Config.Lost (c : Config) (e : EntryRef) : Prop where
  freed : c.st.rt.mods e = none
  unlisted : ∀ r, e ∉ c.st.rt.modsOf r
  unkeyed : ∀ κ, c.st.rt.modHd.lookup κ ≠ some e

/-- The module is as it was in `c`, but that it has one holder less. -/
structure Config.KeptLess (w : World) (c c' : Config) (fname : CStr) (e : EntryRef)
    (me : ModEntry) : Prop where
  find : c'.st.find w fname = some e
  entry : c'.st.rt.mods e = some { me with refcount := me.refcount - 1 }
  lists : c'.st.rt.modsOf = c.st.rt.modsOf
  others : ∀ x ≠ e, c'.st.rt.mods x = c.st.rt.mods x

/-- The small file of `builtFs`, at the path that the sample runs load. -/
def sampleFs : Files.Fs CStr :=
  { builtFs with link := fun v => if v = sampleFile then some 0 else none }

/-- The open of the small file, which gives what the move comes back with. -/
def sampleOpening (m : Move) : Opening CStr where
  place := id
  fs := sampleFs
  fuel := 4
  tries _ := slowAnswers
  dlopen _ := match m.act with
    | .ret (.dlopened h) => h
    | _ => none

/-- The host loads a module, and loads it again. -/
def twiceRun : List Action :=
  loadRun sampleFile 1 ++ [.call (.load sampleFile), .ret (.dlopened (some 1)), .tau]

section

variable {w : World} {c c₁ d c' : Config} {ev : Event} {fname : CStr} {e e' : EntryRef}
  {me : ModEntry} {log inner : List Move} {v : Value}

theorem Config.Lost.of_freed (hwf : c.Wf w) (h : c.st.rt.mods e = none) : c.Lost e where
  freed := h
  unlisted r hmem := by
    have hlive := hwf.heap.live_of_listed hmem
    rw [h] at hlive
    cases hlive
  unkeyed κ hl := by
    have hkey := hwf.heap.table hl
    rw [keyOf_eq_none.mpr h] at hkey
    cases hkey

theorem Inside.eq_of_nil {n : Nat} (h : Inside w n c log d) (hlog : log = []) : d = c := by
  cases h with
  | start => rfl
  | move => exact absurd hlog (by simp)

theorem Reloaded.not_live {ν : Type*} [DecidableEq ν] {opens : Move → Opening ν}
    (h : Reloaded w opens c fname e me log c') : ¬ (c'.st.rt.mods e).isSome := by
  rw [h.torn.gone]
  exact nofun

/-- A holder that lets go of a module leaves it where it is. -/
theorem Config.KeptLess.of_release (hl : c.st.find w fname = some e)
    (hme : c.st.rt.mods e = some me) (hrt : c'.st.rt = (c.st.release e).rt)
    (htls : c'.st.tls = c.st.tls) : c.KeptLess w c' fname e me := by
  have hmods : c'.st.rt.mods = Function.update c.st.rt.mods e
      ((c.st.rt.mods e).map fun me => { me with refcount := me.refcount - 1 }) := by
    rw [hrt]
    rfl
  refine ⟨?_, ?_, ?_, fun x hx => ?_⟩
  · unfold State.find State.regionCurrentPlen at hl ⊢
    rw [hrt, htls]
    exact hl
  · rw [hmods, Function.update_self, hme]
    rfl
  · rw [hrt]
    rfl
  · rw [hmods, Function.update_of_ne hx]

/-- The first step of the reload of a module that has one holder. -/
theorem Replacing.start (hl : c.st.find w fname = some e)
    (hme : c.st.rt.mods e = some me) (href : me.refcount ≤ 1)
    (hs : Xylem.step w c (.call (.reload fname)) = .next c₁ ev) :
    Replacing w c (.start c.st fname e me) e me [] c₁ := by
  cases step_reload_unloads hl hme hs with
  | notFound hl' hr =>
    cases hl.symm.trans hl'
  | shared hl' hme' href' hr =>
    cases hl.symm.trans hl'
    cases hme.symm.trans hme'
    omega
  | cascade hl' hme' href' =>
    cases hl.symm.trans hl'
    refine .unloading (.own _) rfl fun me' hme' => ?_
    obtain ⟨me₁, hme₁, rfl⟩ := modifyMod_some hme'
    cases hme.symm.trans hme₁
    rw [if_pos rfl]
    rfl

/-- The first step of the reload of a module that has other holders. -/
theorem Sharing.start (hl : c.st.find w fname = some e) (hme : c.st.rt.mods e = some me)
    (href : 1 < me.refcount) (hs : Xylem.step w c (.call (.reload fname)) = .next c₁ ev) :
    Sharing w c (.start c.st fname e me) e [] c₁ := by
  cases step_reload_unloads hl hme hs with
  | notFound hl' hr =>
    cases hl.symm.trans hl'
  | shared hl' hme' href' hr =>
    cases hl.symm.trans hl'
    cases hr
    exact .unloaded
  | cascade hl' hme' href' =>
    cases hl.symm.trans hl'
    cases hme.symm.trans hme'
    omega

theorem stack_ne_loading {rl : Reload} {pc : ReloadPc} {k l : List Frame} {f : Frame}
    (hstack : d.stack = .reload rl pc :: k) : d.stack ≠ l ++ f :: .reload rl .loading :: k := by
  intro heq
  have hlength := congrArg List.length (hstack.symm.trans heq)
  simp at hlength
  omega

/-- What holds of the result when a reload is about to return holds of what it returns:
an unload that has not failed is followed by a load. -/
theorem ReloadPc.of_returns {P : Int → Prop} {pc : ReloadPc} {ret : Int}
    (htop : pc = .unloaded xyOk ∨ ∃ ret', pc = .loaded ret' ∧ P ret')
    (hpc : pc = .loaded ret ∨ pc = .unloaded ret ∧ ret ≠ xyOk) : P ret := by
  rcases htop with rfl | ⟨ret', rfl, hp⟩
  · rcases hpc with hpc | ⟨hpc, hne⟩
    · cases hpc
    · cases hpc
      exact absurd rfl hne
  · rcases hpc with hpc | ⟨hpc, -⟩
    · cases hpc
      exact hp
    · cases hpc

/-- A reload is on top of its stack between its unload and its load, and when it is about
to return. -/
theorem Replacing.of_top {rl : Reload} {pc : ReloadPc} (h : Replacing w c rl e me log d)
    (hstack : d.stack = .reload rl pc :: c.stack) :
    pc = .unloaded xyOk ∨ ∃ ret, pc = .loaded ret ∧ TornDown w e me log d
      ∧ (ret = xyOk → ∃ h e',
        BoundAs c.stack.length (rl.key w) (w.loadPath rl.fname) h e' log ∧ installsOf e' log = 1) := by
  cases h with
  | unloading hcas =>
    rw [hstack] at hcas
    cases hcas
  | unloaded hstack' =>
    rw [hstack] at hstack'
    cases hstack'
    exact Or.inl rfl
  | opening hstack' => exact absurd hstack' (stack_ne_loading hstack)
  | opened hstack' => exact absurd (hstack'.trans (List.nil_append _).symm) (stack_ne_loading hstack)
  | bound hstack' => exact absurd hstack' (stack_ne_loading hstack)
  | loaded hstack' ht hdone =>
    rw [hstack] at hstack'
    cases hstack'
    exact Or.inr ⟨_, rfl, ht, hdone⟩

theorem Sharing.of_top {rl : Reload} {pc : ReloadPc} (h : Sharing w c rl e log d)
    (hstack : d.stack = .reload rl pc :: c.stack) :
    pc = .unloaded xyOk ∨ ∃ ret, pc = .loaded ret ∧ (ret = xyOk → (d.st.rt.mods e).isSome)
      ∧ (ret ≠ xyOk → ∃ m inner m' d', log = m :: inner ++ [m']
        ∧ Inside w (c.stack.length + 1) (c.reopening w rl e) inner d'
        ∧ d.st.rt = d'.st.rt ∧ d.st.tls = d'.st.tls) := by
  cases h with
  | unloaded =>
    cases hstack
    exact Or.inl rfl
  | opening hin hstack' => exact absurd hstack' (stack_ne_loading hstack)
  | opened hstack' => exact absurd (hstack'.trans (List.nil_append _).symm) (stack_ne_loading hstack)
  | loaded hstack' hok herr =>
    rw [hstack] at hstack'
    cases hstack'
    exact Or.inr ⟨_, rfl, hok, herr⟩

/-- A reload of a module that has one holder has torn the old entry down when it
returns, and when it returns `XY_OK` it has bound a new one. -/
theorem CallRun.replaced (hreach : Reachable w c) (hl : c.st.find w fname = some e)
    (hme : c.st.rt.mods e = some me) (href : me.refcount ≤ 1)
    (h : CallRun w c (.reload fname) log v c') :
    TornDown w e me log c'
      ∧ (v = .int xyOk → ∃ h e', BoundAs c.stack.length
          (modKey (w.loadPath fname) c.st.tls.current.id c.st.regionCurrentPlen)
          (w.loadPath fname) h e' log
        ∧ installsOf e' log = 1) := by
  have hwf : c.Wf w := .of_reachable hreach
  cases h with
  | atOnce hs hk => exact absurd hk (step_reload_ne hl hme hs)
  | @later c₁ d c' a ev inner v hs hin hr hk =>
    have hstep := Step.of_step hs
    have hreach₁ : Reachable w c₁ := hreach.step trivial ⟨_, hs⟩
    have heff := hstep.effect hwf
    have hkey : me.modKey = (Reload.start c.st fname e me).key w := by
      have htable := hwf.heap.table hl
      rw [keyOf, hme] at htable
      exact Option.some.inj htable
    have hlt : e < c₁.st.rt.nmods :=
      Nat.lt_of_lt_of_le (hwf.heap.lt_of_mods hme) (heff.nmods_le hwf)
    obtain ⟨-, hphase⟩ := hin.replacing hreach hreach₁ (heff.kept (by simp)) rfl rfl hkey hlt
      (Replacing.start hl hme href hs)
    obtain ⟨pc, hstack⟩ := hin.reload_returning hl hme hs hr hk
    obtain ⟨-, ret, rfl, hpc, hlive, -⟩ := step_reload_returns hstack hr
    obtain ⟨⟨htorn, hgone⟩, hdone⟩ := ReloadPc.of_returns (hphase.of_top hstack) hpc
    have hmem : ∀ {P : Move → Prop}, (∃ m ∈ inner, P m) →
        ∃ m ∈ ⟨c, .call (.reload fname), ev, c₁⟩ :: inner ++ [⟨d, a, .returned (.int ret), c'⟩],
          P m := fun hex => by
      obtain ⟨m, hm, hp⟩ := hex
      exact ⟨m, List.mem_append_left _ (List.mem_cons_of_mem _ hm), hp⟩
    refine ⟨⟨hmem htorn, ?_⟩, fun hok => ?_⟩
    · have hsame := hlive e
      rw [hgone] at hsame
      exact Option.isNone_iff_eq_none.mp (by rw [← Option.not_isSome, hsame]; rfl)
    · obtain ⟨h, e', ⟨hopen, hbound⟩, hcount⟩ := hdone (by cases hok; rfl)
      refine ⟨h, e', ⟨hmem hopen, hmem hbound⟩, ?_⟩
      rw [installsOf_concat, if_neg (by simp), Nat.add_zero, ← hcount]
      unfold installsOf
      rw [List.map_cons, List.count_cons_of_ne (hstep.call_event.2 e')]

/-- A reload of a module that has other holders leaves it loaded when it returns `XY_OK`.
Otherwise its `dlopen` has failed, and apart from the constructors that this has run,
nothing but the refcount has changed. -/
theorem CallRun.shared (hreach : Reachable w c) (hl : c.st.find w fname = some e)
    (hme : c.st.rt.mods e = some me) (href : 1 < me.refcount)
    (h : CallRun w c (.reload fname) log v c') :
    (v = .int xyOk → (c'.st.rt.mods e).isSome)
      ∧ (v ≠ .int xyOk → ∃ m₀ m₁ inner m₂ m₃ d, log = m₀ :: m₁ :: inner ++ [m₂, m₃]
        ∧ Inside w (c.stack.length + 1) (c.reopening w (.start c.st fname e me) e) inner d
        ∧ c'.st.rt = d.st.rt ∧ c'.st.tls = d.st.tls) := by
  cases h with
  | atOnce hs hk => exact absurd hk (step_reload_ne hl hme hs)
  | @later c₁ d c' a ev inner v hs hin hr hk =>
    have hreach₁ : Reachable w c₁ := hreach.step trivial ⟨_, hs⟩
    have hfind : (modLoadStart w (c.st.release e) (Reload.start c.st fname e me).fname).lookup.entry
        = some e := hl
    have hphase := hin.sharing hreach₁ hfind (Sharing.start hl hme href hs)
    obtain ⟨pc, hstack⟩ := hin.reload_returning hl hme hs hr hk
    obtain ⟨-, ret, rfl, hpc, hlive, hsame⟩ := step_reload_returns hstack hr
    obtain ⟨hok, herr⟩ := ReloadPc.of_returns (hphase.of_top hstack) hpc
    constructor
    · intro hv
      rw [hlive e]
      exact hok (Value.int.inj hv)
    · intro hv
      have hne : ret ≠ xyOk := fun heq => hv (by rw [heq])
      obtain ⟨m, inner', m', d', rfl, hin', hrt, htls⟩ := herr hne
      rw [hsame hne]
      exact ⟨⟨c, .call (.reload fname), ev, c₁⟩, m, inner', m',
        ⟨d, a, .returned (.int ret), c'⟩, d', by simp, hin', hrt, htls⟩

/-- When `xy_reload` returns `XY_OK`, it has reloaded the module exactly when it was
called by the only holder and `copy_to_tmp` makes the copy. -/
theorem reload_ok_iff {ν : Type*} [DecidableEq ν] (hreach : Reachable w c)
    (hl : c.st.find w fname = some e) (hme : c.st.rt.mods e = some me) {opens : Move → Opening ν}
    (hopens : ∀ m ∈ log, ∀ h, m.OpensAs (c.stack.length + 2) h →
      (opens m).Serves (w.loadPath fname) h)
    (h : CallRun w c (.reload fname) log (.int xyOk) c') :
    Reloaded w opens c fname e me log c' ↔ me.refcount ≤ 1
      ∧ ∀ m ∈ log, ∀ h, m.OpensAs (c.stack.length + 2) h →
        (opens m).Copies (w.loadPath fname) := by
  constructor
  · intro hdone
    constructor
    · by_contra href
      exact hdone.not_live ((h.shared hreach hl hme (by omega)).1 rfl)
    · intro m hm h hopen
      exact (hopens m hm h hopen).opensCopy_iff.mp (hdone.copy m hm h hopen)
  · intro hcond
    obtain ⟨href, hcopies⟩ := hcond
    obtain ⟨htorn, hbound⟩ := h.replaced hreach hl hme href
    refine ⟨htorn, fun m hm h hopen => ?_, hbound rfl⟩
    exact (hopens m hm h hopen).opensCopy_iff.mpr (hcopies m hm h hopen)

theorem copyToTmp_sampleFs :
    ∃ p fs', copyToTmp id 4 (fun _ => slowAnswers) sampleFile sampleFs = some (some (some p), fs') := by
  have hsrc : sampleFs.fileAt (id sampleFile) = some builtNode := by decide
  have hsib : siblingTemplate sampleFile = none := by decide
  obtain ⟨ret, fs', hret, -, hmade⟩ :=
    @copyOne_result CStr _ id sampleFs 5 4 builtNode slowAnswers sampleFile tmpTemplate slowTemp
      hsrc (by decide) (by decide)
  rw [hmade (slowAnswers_good ⟨by decide, by decide, rfl, rfl⟩)] at hret
  refine ⟨fill tmpTemplate slowTemp.six, fs', ?_⟩
  unfold copyToTmp
  simp only [hsib, tryNext]
  rw [hret]

theorem sampleOpening_copies (m : Move) :
    (sampleOpening m).Copies (sampleWorld.loadPath sampleFile) :=
  copyToTmp_sampleFs

theorem sampleOpening_serves {m : Move} {n : Nat} {h : Handle} (hopen : m.OpensAs n h) :
    (sampleOpening m).Serves (sampleWorld.loadPath sampleFile) h := by
  have hsrc : sampleFs.fileAt sampleFile = some builtNode := by decide
  have hfuel : builtNode.content.length < 4 := by decide
  refine ⟨?_, fun _ => ⟨builtNode, hsrc, hfuel⟩⟩
  obtain ⟨p, fs', hcopy⟩ := copyToTmp_sampleFs
  have hdlopen : (sampleOpening m).dlopen (some p) = some h := by
    show (match m.act with | .ret (.dlopened h) => h | _ => none) = _
    rw [hopen.2]
  refine ⟨some p, fs', ?_⟩
  show modLoadOpenHandle id 4 (fun _ => slowAnswers) (sampleOpening m).dlopen true sampleFile
    sampleFs = _
  unfold modLoadOpenHandle
  rw [if_pos rfl, hcopy]
  simp only [hdlopen]

/-- The host, which has loaded the module once, reloads it. -/
theorem reloaded_of_only_holder :
    ∃ c me log c', CallRun sampleWorld c (.reload sampleFile) log (.int xyOk) c'
      ∧ Reloaded sampleWorld sampleOpening c sampleFile 0 me log c' := by
  let c := (Config.boot sampleHook).after sampleWorld (loadRun sampleFile 1)
  let l : List Action := [.tau, .tau, .ret (.dlopened (some 2)), .tau, .tau, .tau, .tau, .tau,
    .ret .installed]
  have hreach : Reachable sampleWorld c :=
    ReachableBy.after (.start (Config.boot_initial sampleHook)) fun _ _ _ => trivial
  have hempty : c.stack = [] := List.length_eq_zero_iff.mp (by decide +kernel)
  have hfind : c.st.find sampleWorld sampleFile = some 0 := by decide +kernel
  have hheld : (c.st.rt.mods 0).map (·.refcount) = some 1 := by decide +kernel
  have hlen : (movesOf sampleWorld c (.call (.reload sampleFile) :: l)).length = l.length + 1 := by
    decide +kernel
  have hover : ∀ m ∈ movesOf sampleWorld c (.call (.reload sampleFile) :: l),
      0 < m.after.stack.length := by decide +kernel
  have hend : (movesOf sampleWorld (c.after sampleWorld (.call (.reload sampleFile) :: l)) [.tau]).map
      (fun m => (m.event, m.after.stack.length)) = [(.returned (.int xyOk), 0)] := by decide +kernel
  obtain ⟨me, hme, href⟩ := Option.map_eq_some_iff.mp hheld
  have hcall := CallRun.of_actions hempty hlen hover hend
  exact ⟨c, me, _, _, hcall,
    (reload_ok_iff hreach hfind hme (fun m _ _ hopen => sampleOpening_serves hopen) hcall).mpr
      ⟨by omega, fun m _ _ _ => sampleOpening_copies m⟩⟩

/-- The host has loaded the module twice when it reloads it. -/
theorem not_reloaded_of_other_holder :
    ∃ c me log c', Reachable sampleWorld c ∧ c.st.find sampleWorld sampleFile = some 0
      ∧ c.st.rt.mods 0 = some me
      ∧ CallRun sampleWorld c (.reload sampleFile) log (.int xyOk) c'
      ∧ ∀ opens : Move → Opening CStr, ¬ Reloaded sampleWorld opens c sampleFile 0 me log c' := by
  let c := (Config.boot sampleHook).after sampleWorld twiceRun
  let l : List Action := [.tau, .ret (.dlopened (some 2)), .tau]
  let d := c.after sampleWorld (.call (.reload sampleFile) :: l)
  have hreach : Reachable sampleWorld c :=
    ReachableBy.after (.start (Config.boot_initial sampleHook)) fun _ _ _ => trivial
  have hempty : c.stack = [] := List.length_eq_zero_iff.mp (by decide +kernel)
  have hfind : c.st.find sampleWorld sampleFile = some 0 := by decide +kernel
  have hlive : (c.st.rt.mods 0).isSome := by decide +kernel
  have hlen : (movesOf sampleWorld c (.call (.reload sampleFile) :: l)).length = l.length + 1 := by
    decide +kernel
  have hover : ∀ m ∈ movesOf sampleWorld c (.call (.reload sampleFile) :: l),
      0 < m.after.stack.length := by decide +kernel
  have hend : (movesOf sampleWorld d [.tau]).map
      (fun m => (m.event, m.after.stack.length)) = [(.returned (.int xyOk), 0)] := by decide +kernel
  have hstays : ((d.after sampleWorld [.tau]).st.rt.mods 0).isSome := by decide +kernel
  obtain ⟨me, hme⟩ := Option.isSome_iff_exists.mp hlive
  have hcall : CallRun sampleWorld c (.reload sampleFile) _ (.int xyOk) (d.after sampleWorld [.tau]) :=
    CallRun.of_actions hempty hlen hover hend
  exact ⟨c, me, _, _, hreach, hfind, hme, hcall, fun opens hdone => hdone.not_live hstays⟩

/-- A reload that does not find its module returns before the unload. -/
theorem CallRun.notFound (hl : c.st.find w fname = none) (h : CallRun w c (.reload fname) log v c') :
    v = .int xyErrNotfound ∧ c'.st.rt = c.st.rt := by
  have hnext : ∀ {c₁ ev}, step w c (.call (.reload fname)) = .next c₁ ev →
      c₁ = ⟨c.st.setErr xyErrNotfound, c.stack⟩ ∧ ev = .returned (.int xyErrNotfound) := fun hs => by
    have hw : c.waiting = true := by
      by_contra hw
      simp only [step, hw, if_false] at hs
      cases hs
    unfold State.find at hl
    simp only [step, hw, if_true, beginCall, beginReload, moduleLookupFromFname, hl] at hs
    cases hs
    exact ⟨rfl, rfl⟩
  cases h with
  | atOnce hs hk =>
    obtain ⟨rfl, hev⟩ := hnext hs
    cases hev
    exact ⟨rfl, rfl⟩
  | later hs hin hr hk =>
    obtain ⟨rfl, -⟩ := hnext hs
    exact absurd hin.length_start (Nat.lt_irrefl _)

/-- A reload that fails has lost a module that it was the only holder of, while names lead
where they have led.  A module that has other holders is left where it is, with one holder
less, as far as the constructors of the file that has not been opened leave it there.  When
the name no longer leads to a module, nothing has been done. -/
theorem failed_reload (hreach : Reachable w c) (hl : c.st.find w fname = some e)
    (hme : c.st.rt.mods e = some me) (paths : CStr → CStr)
    (h : CallRun { w with loadPath := paths } c (.reload fname) log v c') (hv : v ≠ .int xyOk) :
    (paths = w.loadPath →
      (me.refcount ≤ 1 → c'.Lost e)
      ∧ (1 < me.refcount → ∃ m₀ m₁ inner m₂ m₃ d, log = m₀ :: m₁ :: inner ++ [m₂, m₃]
        ∧ Inside w (c.stack.length + 1) (c.reopening w (.start c.st fname e me) e) inner d
        ∧ c'.st.rt = d.st.rt ∧ (inner = [] → c.KeptLess w c' fname e me)))
    ∧ (c.st.find { w with loadPath := paths } fname = none →
      v = .int xyErrNotfound ∧ c'.st.rt = c.st.rt) := by
  refine ⟨?_, h.notFound⟩
  rintro rfl
  constructor
  · intro href
    have hwf' : c'.Wf w := by
      cases h with
      | atOnce hs hk => exact .of_reachable (hreach.step trivial ⟨_, hs⟩)
      | later hs hin hr hk =>
        have hreach₁ := hreach.step trivial ⟨_, hs⟩
        exact .of_reachable ((hin.reachable (fun _ _ => trivial) hreach₁).step trivial ⟨_, hr⟩)
    exact .of_freed hwf' (h.replaced hreach hl hme href).1.gone
  · intro href
    obtain ⟨m₀, m₁, inner, m₂, m₃, d, hlog, hin, hrt, htls⟩ :=
      (h.shared hreach hl hme href).2 hv
    refine ⟨m₀, m₁, inner, m₂, m₃, d, hlog, hin, hrt, fun hinner => ?_⟩
    subst hinner
    cases hin.eq_of_nil rfl
    exact .of_release hl hme hrt htls

/-- A module that has been loaded twice is reloaded from a file that cannot be opened. -/
theorem failed_reload_of_other_holder :
    ∃ c me log c', c.st.rt.mods 0 = some me
      ∧ CallRun sampleWorld c (.reload sampleFile) log (.int xyErrNotfound) c'
      ∧ c.KeptLess sampleWorld c' sampleFile 0 me := by
  let c := (Config.boot sampleHook).after sampleWorld twiceRun
  let l : List Action := [.tau, .ret (.dlopened none)]
  let d := c.after sampleWorld (.call (.reload sampleFile) :: l)
  have hreach : Reachable sampleWorld c :=
    ReachableBy.after (.start (Config.boot_initial sampleHook)) fun _ _ _ => trivial
  have hempty : c.stack = [] := List.length_eq_zero_iff.mp (by decide +kernel)
  have hfind : c.st.find sampleWorld sampleFile = some 0 := by decide +kernel
  have hheld : (c.st.rt.mods 0).map (·.refcount) = some 2 := by decide +kernel
  have hlen : (movesOf sampleWorld c (.call (.reload sampleFile) :: l)).length = l.length + 1 := by
    decide +kernel
  have hover : ∀ m ∈ movesOf sampleWorld c (.call (.reload sampleFile) :: l),
      0 < m.after.stack.length := by decide +kernel
  have hlast : (movesOf sampleWorld d [.tau]).length = 1 := by decide +kernel
  have hend : (movesOf sampleWorld d [.tau]).map
      (fun m => (m.event, m.after.stack.length)) = [(.returned (.int xyErrNotfound), 0)] := by
    decide +kernel
  have hne : Value.int xyErrNotfound ≠ .int xyOk := by decide
  obtain ⟨me, hme, href⟩ := Option.map_eq_some_iff.mp hheld
  have hcall := CallRun.of_actions hempty hlen hover hend
  have htwo : 1 < me.refcount := by omega
  obtain ⟨m₀, m₁, inner, m₂, m₃, d', hlog, -, -, hkept⟩ :=
    ((failed_reload hreach hfind hme sampleWorld.loadPath hcall hne).1 rfl).2 htwo
  have hlength := congrArg List.length hlog
  rw [List.length_append, hlen, hlast] at hlength
  have hnone : inner = [] := List.length_eq_zero_iff.mp (by
    simp only [List.length_cons, List.length_append, List.length_nil, l] at hlength
    omega)
  exact ⟨c, me, _, _, hme, hcall, hkept hnone⟩

/-- A module that has been loaded once is reloaded from a file that cannot be opened, and
no later reload of the path finds it. -/
theorem not_failed_reload_keeps :
    ∃ c log c' c'' ev, Reachable sampleWorld c ∧ c.st.find sampleWorld sampleFile = some 0
      ∧ CallRun sampleWorld c (.reload sampleFile) log (.int xyErrNotfound) c'
      ∧ c'.st.rt.mods 0 = none ∧ c'.st.find sampleWorld sampleFile = none
      ∧ step sampleWorld c' (.call (.reload sampleFile)) = .next c'' ev
      ∧ ev = .returned (.int xyErrNotfound) := by
  let c := (Config.boot sampleHook).after sampleWorld (loadRun sampleFile 1)
  let l : List Action := [.tau, .tau, .ret (.dlopened none)]
  let d := c.after sampleWorld (.call (.reload sampleFile) :: l)
  let c' := d.after sampleWorld [.tau]
  have hreach : Reachable sampleWorld c :=
    ReachableBy.after (.start (Config.boot_initial sampleHook)) fun _ _ _ => trivial
  have hempty : c.stack = [] := List.length_eq_zero_iff.mp (by decide +kernel)
  have hfind : c.st.find sampleWorld sampleFile = some 0 := by decide +kernel
  have hlen : (movesOf sampleWorld c (.call (.reload sampleFile) :: l)).length = l.length + 1 := by
    decide +kernel
  have hover : ∀ m ∈ movesOf sampleWorld c (.call (.reload sampleFile) :: l),
      0 < m.after.stack.length := by decide +kernel
  have hend : (movesOf sampleWorld d [.tau]).map
      (fun m => (m.event, m.after.stack.length)) = [(.returned (.int xyErrNotfound), 0)] := by
    decide +kernel
  have hgone : (c'.st.rt.mods 0).isSome = false := by decide +kernel
  have hlost : c'.st.find sampleWorld sampleFile = none := by decide +kernel
  have hagain : (movesOf sampleWorld c' [.call (.reload sampleFile)]).map (·.event)
      = [.returned (.int xyErrNotfound)] := by decide +kernel
  have hstep := step_of_events hagain
  have hcall : CallRun sampleWorld c (.reload sampleFile) _ (.int xyErrNotfound) c' :=
    CallRun.of_actions hempty hlen hover hend
  exact ⟨c, _, c', _, _, hreach, hfind, hcall, Option.not_isSome_iff_eq_none.mp (by simp [hgone]), hlost,
    hstep, rfl⟩

end

end Xylem
