import Xylem.ModTable
import Xylem.Parents

/-!
# The path in a context

A cascade of `_mod_unload` finds the module that it comes to by the `module_path` in the
context of the module.  This is a string that a load has allocated: the load that bound
the context last.  `mod_load_abort` frees the string of its load, and nothing else frees
one.

* `LoadsMove`: what a step does with the loads in progress, and with the strings.
* `PathsKept`: what the steps have to heed for the paths to stay good.
* `leadsBack_of_pathsKept`: then the context of each module leads back to the module, and
  a cascade finds each child that has a context.
-/

namespace Xylem

open Xylem.Runtime

/-- The path strings, and the number of the next one. -/
def State.paths (s : State) : (StrRef → Option CStr) × Nat := (s.strs, s.nstrs)

def Frame.loadOf : Frame → Option (LoadTxn × LoadPc)
  | .load tx pc => some (tx, pc)
  | _ => none

def loadsOf (k : List Frame) : List (LoadTxn × LoadPc) := k.filterMap Frame.loadOf

/-- The load goes on with the same string and the same entry. -/
structure LoadTxn.Continues (tx tx' : LoadTxn) : Prop where
  fname : tx'.fname = tx.fname
  lookup : tx'.lookup = tx.lookup
  stableFname : tx'.stableFname = tx.stableFname
  modEntry : tx'.modEntry = tx.modEntry

/-- What a step does with the loads in progress, and with the path strings. -/
inductive LoadsMove (w : World) (c : Config) (a : Action) (c' : Config) : Prop
  | same (hl : loadsOf c'.stack = loadsOf c.stack) (hp : c'.st.paths = c.st.paths)
  | begins (fname : CStr)
      (hl : loadsOf c'.stack = (modLoadStart w c.st fname, .opening) :: loadsOf c.stack)
      (hp : c'.st.paths = c.st.paths)
  | goes {tx tx' : LoadTxn} {pc pc' : LoadPc} {l : List (LoadTxn × LoadPc)}
      (hl : loadsOf c.stack = (tx, pc) :: l) (hl' : loadsOf c'.stack = (tx', pc') :: l)
      (htx : tx.Continues tx') (hpc : pc'.early = pc.early) (hp : c'.st.paths = c.st.paths)
  | publishes {tx : LoadTxn} {k : List Frame} (ha : a = .tau)
      (hstack : c.stack = .load tx .opened :: k) (hnew : tx.lookup.entry = none)
      (hl : loadsOf c'.stack = ((modLoadAllocPublish c.st tx).2, .bind) :: loadsOf k)
      (hp : c'.st.paths = (modLoadAllocPublish c.st tx).1.paths)
      (hmods : c'.st.rt.mods = (modLoadAllocPublish c.st tx).1.rt.mods)
  | aborts {tx : LoadTxn} {err : Int} {k : List Frame} (ha : a = .tau)
      (hstack : c.stack = .load tx (.aborting err) :: k) (hl : loadsOf c'.stack = loadsOf k)
      (hp : c'.st.paths = (modLoadFreeFname c.st tx).paths)
      (hgone : ∀ e ∈ tx.modEntry, c'.st.rt.mods e = none)
  | ends {tx : LoadTxn} {pc : LoadPc} (hl : loadsOf c.stack = (tx, pc) :: loadsOf c'.stack)
      (hp : c'.st.paths = c.st.paths)

/-- What the steps heed.

* A load binds a context that no module of another file has.
* A load that fails frees no path that the context of another module has. -/
def PathsKept (w : World) (c : Config) (a : Action) : Prop :=
  match a, c.stack with
  | .tau, .load tx .bind :: _ => ∀ ctx ∈ modLoadCtx w c.st tx, ∀ e < c.st.rt.nmods,
      e ∉ tx.modEntry → ∀ me ∈ c.st.rt.mods e, me.ctx = some ctx →
        me.loadPath = w.loadPath tx.fname
  | .tau, .load tx (.aborting _) :: _ => ∀ e < c.st.rt.nmods, e ∉ tx.modEntry →
      ∀ me ∈ c.st.rt.mods e, ∀ ctx ∈ me.ctx, ∀ p ∈ tx.stableFname,
        (c.st.ctxs ctx).modulePath ≠ some p
  | _, _ => True

instance (w : World) (c : Config) (a : Action) : Decidable (PathsKept w c a) := by
  unfold PathsKept
  generalize c.stack = k
  induction a using Action.casesOn with
  | call | ret => infer_instance
  | tau =>
    induction k using List.casesOn with
    | nil => infer_instance
    | cons f k =>
      induction f using Frame.casesOn with
      | load tx pc => induction pc using LoadPc.casesOn <;> infer_instance
      | _ => infer_instance

/-- What holds of a load in progress: it has its string, and its entry is of its file,
from when it has allocated them. -/
structure LoadTxn.OwnPath (w : World) (s : State) (tx : LoadTxn) (pc : LoadPc) : Prop where
  early : pc.early = true → tx.stableFname = none
  late : pc.early = false → ∃ p, tx.stableFname = some p ∧ s.strs p = some tx.fname
  file : ∀ e ∈ tx.modEntry, ∀ me ∈ s.rt.mods e, me.loadPath = w.loadPath tx.fname

/-- The path strings of the loads in progress. -/
def pathsOf (l : List (LoadTxn × LoadPc)) : List StrRef := l.filterMap fun p => p.1.stableFname

/-- The path in the context of a module leads to the file of the module. -/
def State.PathLeads (w : World) (s : State) (ctx : CtxRef) (me : ModEntry) : Prop :=
  ∃ p path, (s.ctxs ctx).modulePath = some p ∧ s.strs p = some path
    ∧ w.loadPath path = me.loadPath

/-- What holds of the path strings. -/
structure Config.PathsLead (w : World) (c : Config) : Prop where
  fresh : ∀ p, c.st.nstrs ≤ p → c.st.strs p = none
  loads : ∀ p ∈ loadsOf c.stack, p.1.OwnPath w c.st p.2
  apart : (pathsOf (loadsOf c.stack)).Nodup
  leads : ∀ e me, c.st.rt.mods e = some me → ∀ ctx ∈ me.ctx, c.st.PathLeads w ctx me

section

variable {w : World} {c c' : Config} {a : Action} {ev : Event} {rt' : Runtime} {s s' : State}
  {k k' : List Frame} {tx : LoadTxn} {pc : LoadPc} {e : EntryRef} {me me' : ModEntry}

/-! ## What a step does with the loads -/

theorem Resumed.loads (h : Resumed k k') : loadsOf k' = loadsOf k := by
  cases h <;> rfl

theorem State.KeepsModules.paths (h : s.KeepsModules s') : s'.paths = s.paths :=
  Prod.ext h.strs h.nstrs

theorem paths_cleanup (w : World) (s : State) (me : ModEntry) :
    (moduleCleanupRegionState w s me).paths = s.paths := by
  unfold moduleCleanupRegionState
  split <;> rfl

theorem paths_shutdown (w : World) (s : State) : (xyShutdown w s).paths = s.paths := by
  have hfold : ∀ (l : List EntryRef) (s₀ : State),
      (l.foldl (fun s e => (s.rt.mods e).elim s (moduleCleanupRegionState w s)) s₀).paths
        = s₀.paths := by
    intro l
    induction l with
    | nil => exact fun _ => rfl
    | cons e l ih =>
      intro s₀
      refine (ih _).trans ?_
      dsimp only
      cases s₀.rt.mods e with
      | none => rfl
      | some me => exact paths_cleanup w s₀ me
  exact hfold (s.rt.modHdValues w) s

theorem paths_restoreContext (s : State) (tx : LoadTxn) :
    (modLoadRestoreContext s tx).paths = s.paths := by
  unfold modLoadRestoreContext
  split <;> rfl

theorem paths_abort (h : modLoadAbort w s tx = some s') :
    s'.paths = (modLoadFreeFname s tx).paths := by
  have hfree : (modLoadFreeFname (modLoadRestoreContext s tx) tx).paths
      = (modLoadFreeFname s tx).paths := by
    unfold modLoadFreeFname modLoadRestoreContext
    split <;> split <;> rfl
  unfold modLoadAbort at h
  dsimp only at h
  split at h
  · cases h
    exact hfree
  · split at h
    · cases h
    · cases h
      exact (paths_cleanup ..).trans hfree

theorem paths_bindXy (w : World) (s : State) (tx : LoadTxn) :
    (modLoadBindXy w s tx).1.paths = s.paths := by
  unfold modLoadBindXy
  dsimp only
  split
  · split <;> rfl
  · rfl

theorem paths_rekey (w : World) (s : State) (caller : CStr) (pk ck : RegionKey) :
    (moduleRekeyForClaim w s caller pk ck).paths = s.paths := by
  unfold moduleRekeyForClaim
  dsimp only
  split <;> rfl

theorem resume_loads {ret : Int} (hr : resume s ret k = .next c' ev) :
    loadsOf c'.stack = loadsOf k ∧ c'.st.paths = s.paths := by
  refine ⟨(resume_spec hr).2.loads, ?_⟩
  unfold resume at hr
  split at hr <;> cases hr <;> rfl

theorem Unloads.loads {fname : CStr} {id : RegionId} {plen : Nat}
    (h : Unloads w s fname id plen k c' ev) :
    loadsOf c'.stack = loadsOf k ∧ c'.st.paths = s.paths := by
  cases h with
  | notFound hl hr => exact (resume_loads hr).imp_right fun hp => hp.trans rfl
  | shared hl hme href hr => exact (resume_loads hr).imp_right fun hp => hp.trans rfl
  | cascade hl hme href => exact ⟨rfl, rfl⟩

theorem Step.loads (hwf : c.Wf w) (h : Step w c a c' ev) : LoadsMove w c a c' := by
  cases h with
  | load => exact .begins _ rfl rfl
  | unload hw hu => exact .same hu.loads.1 hu.loads.2
  | reload hw hl hme hu => exact .same hu.loads.1 hu.loads.2
  | scope | eachFirst | answered => exact .same rfl rfl
  | direct hw hq => exact .same rfl (callDirect_keeps hq).1.paths
  | dispatchDone hw hd => exact .same rfl (keepsModules_dispatchBegin hd).paths
  | dispatchLoop hw hd => exact .same rfl (keepsModules_dispatchBegin hd).paths
  | shutdown => exact .same rfl (paths_shutdown ..)
  | @dlopenFailed s k tx c' ev hr =>
    obtain ⟨hl, hp⟩ := resume_loads hr
    exact .ends (congrArg (List.cons (tx, LoadPc.opening)) hl.symm) hp
  | dlopened => exact .goes rfl rfl ⟨rfl, rfl, rfl, rfl⟩ rfl rfl
  | @reuse s k tx e me c' ev hle hme hr =>
    obtain ⟨hl, hp⟩ := resume_loads hr
    exact .ends (congrArg (List.cons (tx, LoadPc.opened)) hl.symm) (hp.trans rfl)
  | publish hl => exact .publishes rfl rfl hl rfl rfl rfl
  | @bind s k tx =>
    refine .goes rfl rfl ⟨rfl, rfl, rfl, rfl⟩ ?_ (paths_bindXy w s tx)
    split <;> rfl
  | claimFlat | claimRefused | claimAsked => exact .goes rfl rfl ⟨rfl, rfl, rfl, rfl⟩ rfl rfl
  | notGranted => exact .goes rfl rfl ⟨rfl, rfl, rfl, rfl⟩ rfl rfl
  | granted hg =>
    obtain ⟨-, -, -, -, rfl⟩ := xyClaimGranted_ok hg
    exact .goes rfl rfl ⟨rfl, rfl, rfl, rfl⟩ rfl rfl
  | rekey he hme => exact .goes rfl rfl ⟨rfl, rfl, rfl, rfl⟩ rfl (paths_rekey ..)
  | link | installMissing | install => exact .goes rfl rfl ⟨rfl, rfl, rfl, rfl⟩ rfl rfl
  | @installed s k tx prev c' ev hr =>
    obtain ⟨hl, hp⟩ := resume_loads hr
    exact .ends (congrArg (List.cons (tx, LoadPc.installing prev)) hl.symm)
      (hp.trans ((paths_restoreContext ..).trans rfl))
  | @abort s s' k tx err c' ev ha hr =>
    obtain ⟨hl, hp⟩ := resume_loads hr
    refine .aborts rfl rfl hl (hp.trans (paths_abort ha)) fun e he => ?_
    obtain ⟨e', he', -, hpub⟩ := (hwf.top rfl).late rfl
    obtain rfl : e = e' := Option.some.inj (he.symm.trans he')
    obtain ⟨me, -, hrt, -⟩ := modLoadAbort_spec he ha
    rw [hpub] at hrt
    rw [(resume_spec hr).1.rt, hrt]
    exact (congrFun (discardEntry_mods s.rt e me) e).trans (Function.update_self ..)
  | cascadeSkip => exact .same rfl rfl
  | cascade hme hp hst hu => exact .same hu.loads.1 hu.loads.2
  | @remove s k e me c' ev hme hr =>
    obtain ⟨hl, hp⟩ := resume_loads hr
    exact .same hl (hp.trans (paths_cleanup ..))
  | @reloadLoad s k rl => exact .begins rl.fname rfl rfl
  | reinsert | reloadEnd => exact .same rfl rfl
  | dispatchEnd => exact .same rfl (keepsModules_dispatchEnd ..).paths
  | selfSkip | selfDeaf | slotSkip => exact .same rfl rfl
  | selfEnter hself he hme hc hd hh hs' => exact .same rfl (by rw [hs']; rfl)
  | slotEnter hself hmi hslots hcell hme hc hcb hd' hs' =>
    refine .same rfl ?_
    rw [hs', Dispatch.switch]
    split <;> rfl
  | selfListened => exact .same rfl (State.keepsModules_writeBuf ..).paths
  | @slotListened s s' k d e bytes hself hs' =>
    refine .same rfl (Eq.trans ?_ (s.keepsModules_writeBuf d.retp bytes).paths)
    subst hs'
    show State.paths (if d.regionChanged then _ else _) = _
    split <;> rfl
  | scopeEnd | eachNext | eachEnd => exact .same rfl rfl

/-! ## The paths stay good -/

theorem mem_loadsOf (h : (tx, pc) ∈ loadsOf k) : .load tx pc ∈ k := by
  obtain ⟨f, hf, hload⟩ := List.mem_filterMap.mp h
  cases f with
  | load tx' pc' =>
    cases hload
    exact hf
  | unload | reload | dispatch | scope | each => cases hload

theorem paths_free (s : State) (tx : LoadTxn) :
    (modLoadFreeFname s tx).paths
      = (fun p => if tx.stableFname = some p then none else s.strs p, s.nstrs) := by
  unfold modLoadFreeFname
  cases h : tx.stableFname with
  | none => simp [State.paths]
  | some p =>
    refine Prod.ext (funext fun x => ?_) rfl
    show Function.update s.strs p none x = _
    by_cases hx : x = p
    · simp [hx]
    · simp [hx, Ne.symm hx]

/-- The context of an entry is written when a load binds it. -/
theorem EntryChange.ctx {m : ModEntry} (h : EntryChange w c a e me m) :
    m.ctx = me.ctx ∨ ∃ tx k ctx, a = .tau ∧ c.stack = .load tx .bind :: k
      ∧ tx.modEntry = some e ∧ modLoadCtx w c.st tx = some ctx ∧ m.ctx = some ctx := by
  cases h with
  | bind ha hstack hx hhome hctx => exact Or.inr ⟨_, _, _, ha, hstack, hx, hctx, rfl⟩
  | same | refcount | rekey | link | reinsert => exact Or.inl rfl

/-- A load keeps its string and its file while others move, and as it goes on. -/
theorem LoadTxn.OwnPath.keep (hwf : c.Wf w) (heff : Effect w c a c'.st.rt)
    (hin : (tx, pc) ∈ loadsOf c.stack) (h : tx.OwnPath w c.st pc)
    (hp : ∀ p ∈ tx.stableFname, c'.st.strs p = c.st.strs p) {tx' : LoadTxn} {pc' : LoadPc}
    (htx : tx.Continues tx') (hpc : pc'.early = pc.early) : tx'.OwnPath w c'.st pc' := by
  have hok : tx.Ok w c.st.rt pc := hwf.stack.ok _ (mem_loadsOf hin)
  refine ⟨fun hearly => ?_, fun hlate => ?_, fun e he me' hme' => ?_⟩
  · rw [htx.stableFname]
    exact h.early (hpc ▸ hearly)
  · obtain ⟨p, hstable, hstr⟩ := h.late (hpc ▸ hlate)
    exact ⟨p, htx.stableFname.trans hstable, by rw [htx.fname, hp p hstable, hstr]⟩
  · rw [htx.modEntry] at he
    have hlt : e < c.st.rt.nmods := by
      cases hpc : pc.early with
      | true =>
        rw [hok.early hpc] at he
        cases he
      | false =>
        obtain ⟨e', he', hlt, -⟩ := hok.late hpc
        exact Option.some.inj (he'.symm.trans he) ▸ hlt
    obtain ⟨me, hme, hpath⟩ := heff.loadPath hlt hme'
    rw [hpath, htx.fname]
    exact h.file e he me hme

theorem LoadTxn.Continues.refl (tx : LoadTxn) : tx.Continues tx := ⟨rfl, rfl, rfl, rfl⟩

theorem Config.PathsLead.lt_nstrs (hin : c.PathsLead w) {p : StrRef} {path : CStr}
    (h : c.st.strs p = some path) : p < c.st.nstrs := by
  by_contra hge
  rw [hin.fresh p (Nat.le_of_not_lt hge)] at h
  cases h

/-- The string of a load in progress is allocated. -/
theorem Config.PathsLead.live (hin : c.PathsLead w) {p : StrRef}
    (hp : p ∈ pathsOf (loadsOf c.stack)) : ∃ path, c.st.strs p = some path := by
  obtain ⟨⟨tx, pc⟩, hmem, hstable⟩ := List.mem_filterMap.mp hp
  have hown := hin.loads _ hmem
  cases hpc : pc.early with
  | true =>
    have hstable : tx.stableFname = some p := hstable
    rw [hown.early hpc] at hstable
    cases hstable
  | false =>
    obtain ⟨q, hq, hstr⟩ := hown.late hpc
    obtain rfl : q = p := Option.some.inj (hq.symm.trans hstable)
    exact ⟨_, hstr⟩

/-- The strings of the loads in progress. -/
theorem Step.ownPaths (hwf : c.Wf w) (hin : c.PathsLead w) (h : Step w c a c' ev) :
    (∀ p, c'.st.nstrs ≤ p → c'.st.strs p = none)
      ∧ (∀ p ∈ loadsOf c'.stack, p.1.OwnPath w c'.st p.2)
      ∧ (pathsOf (loadsOf c'.stack)).Nodup := by
  have heff := h.effect hwf
  have hsame : c'.st.paths = c.st.paths →
      (∀ p, c'.st.nstrs ≤ p → c'.st.strs p = none)
        ∧ ∀ p ∈ loadsOf c.stack, p.1.OwnPath w c'.st p.2 := fun hp => by
    have hstrs : c'.st.strs = c.st.strs := congrArg Prod.fst hp
    have hn : c'.st.nstrs = c.st.nstrs := congrArg Prod.snd hp
    refine ⟨by rw [hstrs, hn]; exact hin.fresh, fun ⟨tx, pc⟩ hmem => ?_⟩
    exact (hin.loads _ hmem).keep hwf heff hmem (fun p _ => congrFun hstrs p) (.refl tx) rfl
  cases h.loads hwf with
  | same hl hp => exact ⟨(hsame hp).1, hl ▸ (hsame hp).2, hl ▸ hin.apart⟩
  | begins fname hl hp =>
    refine ⟨(hsame hp).1, ?_, ?_⟩
    · rw [hl]
      refine List.forall_mem_cons.mpr ⟨⟨fun _ => rfl, fun hlate => ?_, fun e he => ?_⟩,
        (hsame hp).2⟩
      · cases hlate
      · cases he
    · rw [hl]
      exact hin.apart
  | @goes tx tx' pc pc' l hl hl' htx hpc hp =>
    have hall := (hsame hp).2
    rw [hl] at hall
    have hstrs : c'.st.strs = c.st.strs := congrArg Prod.fst hp
    have hmem : (tx, pc) ∈ loadsOf c.stack := hl ▸ List.mem_cons_self
    refine ⟨(hsame hp).1, ?_, ?_⟩
    · rw [hl']
      exact List.forall_mem_cons.mpr ⟨(hin.loads _ hmem).keep hwf heff hmem
        (fun p _ => congrFun hstrs p) htx hpc, (List.forall_mem_cons.mp hall).2⟩
    · have hapart := hin.apart
      rw [hl] at hapart
      rw [hl']
      show (((tx', pc') :: l).filterMap _).Nodup
      rw [List.filterMap_cons, htx.stableFname]
      exact hapart
  | @ends tx pc hl hp =>
    have hall := (hsame hp).2
    rw [hl] at hall
    have hapart := hin.apart
    rw [hl] at hapart
    refine ⟨(hsame hp).1, (List.forall_mem_cons.mp hall).2, hapart.sublist ?_⟩
    exact (List.sublist_cons_self _ _).filterMap _
  | @publishes tx k ha hstack hnew hl hp hmods =>
    have hstrs : c'.st.strs = Function.update c.st.strs c.st.nstrs (some tx.fname) :=
      congrArg Prod.fst hp
    have hn : c'.st.nstrs = c.st.nstrs + 1 := congrArg Prod.snd hp
    have hloads : loadsOf c.stack = (tx, .opened) :: loadsOf k := by rw [hstack]; rfl
    have hold : ∀ {p : StrRef} {path : CStr}, c.st.strs p = some path →
        c'.st.strs p = c.st.strs p := fun hpath => by
      rw [hstrs, Function.update_of_ne (Nat.ne_of_lt (hin.lt_nstrs hpath))]
    have htx := hin.loads (tx, .opened) (hloads ▸ List.mem_cons_self)
    refine ⟨fun p hp => ?_, ?_, ?_⟩
    · rw [hn] at hp
      rw [hstrs, Function.update_of_ne (show p ≠ c.st.nstrs by omega)]
      exact hin.fresh p (by omega)
    · rw [hl]
      refine List.forall_mem_cons.mpr ⟨⟨nofun, fun _ => ?_, ?_⟩, ?_⟩
      · exact ⟨c.st.nstrs, rfl, by rw [hstrs]; exact Function.update_self ..⟩
      · intro e he me hme
        obtain rfl : c.st.rt.nmods = e := Option.some.inj he
        have hfresh : (modLoadAllocPublish c.st tx).1.rt.mods c.st.rt.nmods
            = some (tx.freshEntry c.st.tls.loadingMod) :=
          Function.update_self c.st.rt.nmods _ c.st.rt.mods
        rw [hmods] at hme
        obtain rfl := Option.some.inj (hfresh.symm.trans hme)
        exact (hwf.top hstack).path
      · intro ⟨tx', pc'⟩ hmem
        have hin' : (tx', pc') ∈ loadsOf c.stack := hloads ▸ List.mem_cons_of_mem _ hmem
        refine (hin.loads _ hin').keep hwf heff hin' (fun p hp => ?_) (.refl tx') rfl
        obtain ⟨path, hpath⟩ := hin.live (List.mem_filterMap.mpr ⟨_, hin', hp⟩)
        exact hold hpath
    · rw [hl]
      show (c.st.nstrs :: pathsOf (loadsOf k)).Nodup
      have hapart := hin.apart
      rw [hloads] at hapart
      have hrest : pathsOf ((tx, .opened) :: loadsOf k) = pathsOf (loadsOf k) := by
        show ((tx, LoadPc.opened) :: loadsOf k).filterMap _ = _
        rw [List.filterMap_cons, htx.early rfl]
        rfl
      rw [hrest] at hapart
      refine List.nodup_cons.mpr ⟨fun hmem => ?_, hapart⟩
      rw [← hrest, ← hloads] at hmem
      obtain ⟨path, hpath⟩ := hin.live hmem
      exact absurd (hin.lt_nstrs hpath) (Nat.lt_irrefl _)
  | @aborts tx err k ha hstack hl hp hgone =>
    rw [paths_free] at hp
    have hstrs : c'.st.strs = fun p => if tx.stableFname = some p then none else c.st.strs p :=
      congrArg Prod.fst hp
    have hn : c'.st.nstrs = c.st.nstrs := congrArg Prod.snd hp
    have hloads : loadsOf c.stack = (tx, .aborting err) :: loadsOf k := by rw [hstack]; rfl
    obtain ⟨q, hq, -⟩ := (hin.loads (tx, .aborting err) (hloads ▸ List.mem_cons_self)).late rfl
    have hapart : (q :: pathsOf (loadsOf k)).Nodup := by
      have hapart := hin.apart
      rw [hloads] at hapart
      have hcons : pathsOf ((tx, .aborting err) :: loadsOf k) = q :: pathsOf (loadsOf k) := by
        show ((tx, LoadPc.aborting err) :: loadsOf k).filterMap _ = _
        rw [List.filterMap_cons, hq]
        rfl
      rwa [hcons] at hapart
    obtain ⟨hnot, hrest⟩ := List.nodup_cons.mp hapart
    refine ⟨fun p hp => ?_, ?_, hl ▸ hrest⟩
    · rw [hstrs]
      dsimp only
      split
      · rfl
      · exact hin.fresh p (hn ▸ hp)
    · rw [hl]
      intro ⟨tx', pc'⟩ hmem
      have hin' : (tx', pc') ∈ loadsOf c.stack := hloads ▸ List.mem_cons_of_mem _ hmem
      refine (hin.loads _ hin').keep hwf heff hin' (fun p hp => ?_) (.refl tx') rfl
      rw [hstrs]
      refine if_neg fun hpq => hnot ?_
      obtain rfl : q = p := Option.some.inj (hq.symm.trans hpq)
      exact List.mem_filterMap.mpr ⟨_, hmem, hp⟩

/-- The path of a module that lives on is not freed. -/
theorem Step.pathString (hwf : c.Wf w) (hok : PathsKept w c a) (hin : c.PathsLead w)
    (h : Step w c a c' ev) (hme : c.st.rt.mods e = some me) (hlive : c'.st.rt.mods e ≠ none)
    {ctx : CtxRef} (hctx : me.ctx = some ctx) {p : StrRef} {path : CStr}
    (hp : (c.st.ctxs ctx).modulePath = some p) (hpath : c.st.strs p = some path) :
    c'.st.strs p = some path := by
  have hsame : c'.st.paths = c.st.paths → c'.st.strs p = some path := fun hpaths => by
    rw [show c'.st.strs = c.st.strs from congrArg Prod.fst hpaths, hpath]
  cases h.loads hwf with
  | same hl hpaths => exact hsame hpaths
  | begins fname hl hpaths => exact hsame hpaths
  | goes hl hl' htx hpc hpaths => exact hsame hpaths
  | ends hl hpaths => exact hsame hpaths
  | @publishes tx k ha hstack hnew hl hpaths hmods =>
    have hstrs : c'.st.strs = Function.update c.st.strs c.st.nstrs (some tx.fname) :=
      congrArg Prod.fst hpaths
    rw [hstrs, Function.update_of_ne (Nat.ne_of_lt (hin.lt_nstrs hpath)), hpath]
  | @aborts tx err k ha hstack hl hpaths hgone =>
    rw [paths_free] at hpaths
    have hstrs : c'.st.strs = fun p => if tx.stableFname = some p then none else c.st.strs p :=
      congrArg Prod.fst hpaths
    rw [hstrs]
    refine (if_neg fun hfreed => ?_).trans hpath
    subst ha
    unfold PathsKept at hok
    rw [hstack] at hok
    exact hok e (hwf.heap.lt_of_mods hme) (fun hin => hlive (hgone e hin)) me hme ctx hctx p hfreed hp

theorem Step.pathLeads (hwf : c.Wf w) (hok : PathsKept w c a) (hin : c.PathsLead w)
    (h : Step w c a c' ev) (hme' : c'.st.rt.mods e = some me') :
    ∀ ctx ∈ me'.ctx, c'.st.PathLeads w ctx me' := by
  intro ctx hctx
  have hctx : me'.ctx = some ctx := hctx
  rcases (h.effect hwf).entry hme' with ⟨tx, k, -, -, -, -, rfl⟩ | ⟨me, hme, hch⟩
  · cases hctx
  have hlive : c'.st.rt.mods e ≠ none := by simp [hme']
  have hold : me.ctx = some ctx →
      (c'.st.ctxs ctx).modulePath = (c.st.ctxs ctx).modulePath → c'.st.PathLeads w ctx me' := by
    intro hold hsame
    obtain ⟨p, path, hp, hpath, hleads⟩ := hin.leads e me hme ctx hold
    exact ⟨p, path, hsame.trans hp, h.pathString hwf hok hin hme hlive hold hp hpath,
      hleads.trans hch.loadPath.symm⟩
  cases h.ctxs hwf with
  | same hctxs hbind hrekey =>
    refine hold ?_ (by rw [hctxs])
    rcases hch.ctx with heq | ⟨tx, k, -, ha, hstack, -⟩
    · exact heq.symm.trans hctx
    · rw [hbind tx k ha hstack, hme] at hme'
      rw [Option.some.inj hme']
      exact hctx
  | @bind tx k x ctx₀ ha hstack hx hctx₀ hrt hctxs =>
    have hpaths : c'.st.paths = c.st.paths := by
      cases h.loads hwf with
      | same _ hp => exact hp
      | begins _ _ hp => exact hp
      | goes _ _ _ _ hp => exact hp
      | ends _ hp => exact hp
      | publishes _ hstack' => cases hstack.symm.trans hstack'
      | aborts _ hstack' => cases hstack.symm.trans hstack'
    have hload : (tx, LoadPc.bind) ∈ loadsOf c.stack := by
      rw [hstack]
      exact List.mem_cons_self
    obtain ⟨p, hstable, hstr⟩ := (hin.loads _ hload).late rfl
    by_cases heq : ctx = ctx₀
    · subst heq
      refine ⟨p, tx.fname, ?_, ?_, ?_⟩
      · rw [hctxs, Function.update_self]
        exact hstable
      · rw [show c'.st.strs = c.st.strs from congrArg Prod.fst hpaths, hstr]
      · rw [show me'.loadPath = me.loadPath from hch.loadPath]
        by_cases hown : e ∈ tx.modEntry
        · exact ((hin.loads _ hload).file e hown me hme).symm
        · subst ha
          unfold PathsKept at hok
          rw [hstack] at hok
          refine (hok ctx hctx₀ e (hwf.heap.lt_of_mods hme) hown me hme ?_).symm
          rcases hch.ctx with hsame | ⟨tx', k', -, -, hstack', hx', -⟩
          · exact hsame.symm.trans hctx
          · cases hstack.symm.trans hstack'
            exact absurd hx' hown
    · refine hold ?_ (by rw [hctxs, Function.update_of_ne heq])
      rcases hch.ctx with hsame | ⟨tx', k', ctx', -, hstack', -, hctx', hm⟩
      · exact hsame.symm.trans hctx
      · cases hstack.symm.trans hstack'
        have hnew : some ctx = some ctx₀ := hctx.symm.trans (hm.trans (hctx'.symm.trans hctx₀))
        exact absurd (Option.some.inj hnew) heq
  | @rekey tx k child x m ctx₀ ha hstack hl hm hctx₀ hrt hctxs =>
    refine hold ?_ ?_
    · rcases hch.ctx with hsame | ⟨tx', k', -, -, hstack', -⟩
      · exact hsame.symm.trans hctx
      · cases hstack.symm.trans hstack'
    · rw [hctxs]
      by_cases heq : ctx = ctx₀
      · rw [heq, Function.update_self]
      · rw [Function.update_of_ne heq]
  | @inject d d' k x m ctx₀ ha hstack hstack' hm hctx₀ hctxs =>
    refine hold ?_ ?_
    · rcases hch.ctx with hsame | ⟨tx', k', -, -, hstack', -⟩
      · exact hsame.symm.trans hctx
      · cases hstack.symm.trans hstack'
    · rw [hctxs]
      by_cases heq : ctx = ctx₀
      · rw [heq, Function.update_self]
      · rw [Function.update_of_ne heq]

theorem pathsLead_of_pathsKept {ok : Config → Action → Prop}
    (hle : ∀ c a, ok c a → PathsKept w c a) (h : ReachableBy w ok c) : c.PathsLead w := by
  refine h.invariant_wf (Config.PathsLead w) (fun c hc => ?_) fun c a c' ev hwf hin hok hs => ?_
  · obtain ⟨ctxs, adapters, mem, rfl⟩ := hc
    exact ⟨fun _ _ => rfl, fun p hp => (List.not_mem_nil hp).elim, .nil,
      fun e me hme => by cases hme⟩
  · obtain ⟨hfresh, hloads, hapart⟩ := hs.ownPaths hwf hin
    exact ⟨hfresh, hloads, hapart, fun e me' hme' => hs.pathLeads hwf (hle c a hok) hin hme'⟩

/-! ## Cascades find their children -/

/-- What the steps heed for the paths and for the keys. -/
def LeadsKept (w : World) (c : Config) (a : Action) : Prop := PathsKept w c a ∧ KeysApart w c a

instance (w : World) (c : Config) (a : Action) : Decidable (LeadsKept w c a) := by
  unfold LeadsKept; infer_instance

/-- The path in the context of a module, in the region of its entry, leads back to the
module. -/
theorem Config.PathsLead.leadsBack (hin : c.PathsLead w) (htab : c.Tabled)
    (hme : c.st.rt.mods e = some me) (hctx : me.ctx ≠ none) :
    c.st.cascadeLookup w me = some e := by
  obtain ⟨ctx, hctx⟩ := Option.ne_none_iff_exists'.mp hctx
  obtain ⟨p, path, hp, hpath, hleads⟩ := hin.leads e me hme ctx hctx
  obtain ⟨hfound, hkey, -⟩ := htab.keyed e me.ident (Runtime.idents_of_mods hme)
  rw [hkey, show me.ident.path = w.loadPath path from hleads.symm] at hfound
  simp only [State.cascadeLookup, hctx, Option.bind_some, hp, hpath]
  exact hfound

/-- While the steps heed the paths and the keys, a lookup as the cascade of an unload
makes it finds the module that it is made for, if the module has a context. -/
theorem leadsBack_of_leadsKept (h : ReachableBy w (LeadsKept w) c) :
    ∀ e me, c.st.rt.mods e = some me → me.ctx ≠ none → c.st.cascadeLookup w me = some e := by
  intro e me hme hctx
  have hkeys : ReachableBy w (KeysApart w) c := h.mono fun _ _ hok => hok.2
  exact (pathsLead_of_pathsKept (fun _ _ hok => hok.1) h).leadsBack (tabled_of_keysApart hkeys) hme
    hctx

/-- A module loads another, and its file is loaded once more, into another region: the two
entries have one context. -/
theorem leadsBack_of_shared_context :
    let c := runChecked sampleWorld (LeadsKept sampleWorld) (Config.boot sampleHook)
      (nestedRun ++ [.call (.claimAt 0x1000000000000 16 none)] ++ loadRun sampleFile 1)
    c.st.rt.nmods = 3
      ∧ (c.st.rt.mods 0).bind (·.ctx) = some 1 ∧ (c.st.rt.mods 2).bind (·.ctx) = some 1
      ∧ ∀ e me, c.st.rt.mods e = some me → me.ctx ≠ none →
        c.st.cascadeLookup sampleWorld me = some e := by
  intro c
  exact ⟨by decide +kernel, by decide +kernel, by decide +kernel,
    leadsBack_of_leadsKept (ReachableBy.checked (.start (Config.boot_initial _)) _)⟩

end

end Xylem
