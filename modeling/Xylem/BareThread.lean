import Xylem.Invariant
import Xylem.Sample

/-!
# A thread that has set no region

The current entry of a thread is NULL until the thread sets its region.  Most of
the operations take NULL for the root: `region_current_plen` gives 0 for it, and
`xy_dispatch` looks the region up.  `xy_deny`, `xy_require_claim` and
`xy_region_each` use the entry as it is, and fail.

`Sim` relates the runs of two threads, one of which has NULL where the other has
the root: in the current region, and in what the calls in progress have saved.
`Step.sim` says that the two move in lockstep, as long as none of the three
operations is called where they differ.
-/

namespace Xylem

open Xylem.Runtime

/-- The current regions of the two threads: the same, or NULL in the one and the
root in the other (`b`). -/
inductive CurrentSim : Bool → CurrentRegion → CurrentRegion → Prop
  | same (cur : CurrentRegion) : CurrentSim false cur cur
  | bare : CurrentSim true ⟨0, none⟩ ⟨0, some 0⟩

/-- Whether a frame holds a region to be restored. -/
def Frame.saves : Frame → Bool
  | .load tx _ => tx.contextActive
  | .dispatch _ _ => true
  | .scope _ => true
  | _ => false

/-- Whether a dispatch restores a region when its listener returns. -/
def Dispatch.Restores (d : Dispatch) (run : Option EntryRef) : Prop :=
  run ≠ none ∧ d.selfOnly = false ∧ d.regionChanged = true

/-- The stacks of the two threads, under current regions that differ (`b`) or are
the same.  Regions that differ are saved below ones that do only, and a dispatch
that finds them different has been called with the id of the root. -/
inductive StackSim : Bool → List Frame → List Frame → Prop
  | nil (b : Bool) : StackSim b [] []
  | plain {b : Bool} {f : Frame} {k k' : List Frame} (hf : f.saves = false)
      (h : StackSim b k k') : StackSim b (f :: k) (f :: k')
  | load {b b' : Bool} {tx : LoadTxn} {prev : CurrentRegion} {pc : LoadPc} {k k' : List Frame}
      (hactive : tx.contextActive = true) (hle : b = true → b' = true)
      (hprev : CurrentSim b' tx.prevRegion prev) (h : StackSim b' k k') :
      StackSim b (.load tx pc :: k) (.load { tx with prevRegion := prev } pc :: k')
  | scope {b b' : Bool} {prev prev' : CurrentRegion} {k k' : List Frame}
      (hle : b = true → b' = true) (hprev : CurrentSim b' prev prev') (h : StackSim b' k k') :
      StackSim b (.scope prev :: k) (.scope prev' :: k')
  | dispatch {b : Bool} {d : Dispatch} {prev : Option RegionRef} {at' : CurrentRegion}
      {run : Option EntryRef} {k k' : List Frame} (hrun : ¬ d.Restores run)
      (hid : b = true → d.regionId = 0) (h : StackSim b k k') :
      StackSim b (.dispatch d run :: k)
        (.dispatch { d with prevEntry := prev, atEntry := at' } run :: k')
  | switched {b b' : Bool} {d : Dispatch} {prev : Option RegionRef} {at' : CurrentRegion}
      {run : Option EntryRef} {k k' : List Frame} (hrun : d.Restores run)
      (hle : b = true → b' = true) (hid : b' = true → d.regionId = 0)
      (hprev : CurrentSim b' ⟨d.regionId, d.prevEntry⟩ ⟨d.regionId, prev⟩) (h : StackSim b' k k') :
      StackSim b (.dispatch d run :: k)
        (.dispatch { d with prevEntry := prev, atEntry := at' } run :: k')

/-- The two threads, over one shared state. -/
structure Sim (c c' : Config) : Prop where
  state : c'.st = c.st.setCurrentRegion c'.st.tls.current
  regions : ∃ b, CurrentSim b c.st.tls.current c'.st.tls.current ∧ StackSim b c.stack c'.stack

/-- The steps of the two threads. -/
def OutcomeSim : Outcome → Outcome → Prop
  | .next c ev, .next c' ev' => ev' = ev ∧ Sim c c'
  | .undef, .undef => True
  | .disabled, .disabled => True
  | _, _ => False

/-- The operations that use the current entry as it is. -/
def Call.UsesEntry : Call → Prop
  | .deny _ _ | .requireClaim _ | .regionEach => True
  | _ => False

/-- One of these is called where the one thread has no entry, and the other has
one. -/
def BareCall (c c' : Config) : Action → Prop
  | .call q => q.UsesEntry ∧ c.waiting = true ∧ c.st.tls.current.entry = none
      ∧ c'.st.tls.current.entry ≠ none
  | _ => False

section

variable {w : World} {s : State} {cur' : CurrentRegion} {b : Bool} {k k' : List Frame}

theorem StackSim.weaken (h : StackSim b k k') : StackSim false k k' := by
  induction h with
  | nil => exact .nil _
  | plain hf h ih => exact .plain hf ih
  | load hactive hle hprev h => exact .load hactive nofun hprev h
  | scope hle hprev h => exact .scope nofun hprev h
  | dispatch hrun hid h ih => exact .dispatch hrun nofun ih
  | switched hrun hle hid hprev h => exact .switched hrun nofun hid hprev h

/-- Regions that differ may become the same. -/
theorem StackSim.mono {b' : Bool} (h : StackSim b' k k') (hle : b = true → b' = true) :
    StackSim b k k' := by
  cases b with
  | false => exact h.weaken
  | true => exact hle rfl ▸ h

theorem StackSim.waiting {f f' : Frame} (h : StackSim b (f :: k) (f' :: k')) :
    f'.waiting = f.waiting := by
  cases h with
  | plain | scope => rfl
  | @load _ _ tx prev pc => cases pc <;> rfl
  | @dispatch _ d prev at' run => cases run <;> rfl
  | @switched _ _ d prev at' run => cases run <;> rfl

theorem Sim.waiting {c c' : Config} (h : Sim c c') : c'.waiting = c.waiting := by
  obtain ⟨b, -, hstack⟩ := h.regions
  unfold Config.waiting
  generalize c.stack = k at hstack
  generalize c'.stack = k' at hstack
  cases k with
  | nil => cases hstack; rfl
  | cons f k =>
    cases k' with
    | nil => cases hstack
    | cons f' k' => exact hstack.waiting

theorem Sim.mk' {st : State} (hcur : CurrentSim b s.tls.current cur') (hk : StackSim b k k')
    (hst : st = s.setCurrentRegion cur') : Sim ⟨s, k⟩ ⟨st, k'⟩ := by
  subst hst
  exact ⟨rfl, b, hcur, hk⟩

/-- A step that leaves the current regions the same. -/
theorem Sim.same {st : State} (hk : StackSim false k k') (hst : st = s) : Sim ⟨s, k⟩ ⟨st, k'⟩ := by
  subst hst
  exact ⟨rfl, false, .same _, hk⟩

theorem CurrentSim.id {cur : CurrentRegion} (h : CurrentSim b cur cur') : cur'.id = cur.id := by
  cases h <;> rfl

/-- NULL has the width of the root. -/
theorem CurrentSim.plen (ht : s.rt.tree.Wf) (h : CurrentSim b s.tls.current cur') :
    (s.setCurrentRegion cur').regionCurrentPlen = s.regionCurrentPlen := by
  have hroot : (s.rt.regions 0).plen = 0 := congrArg RegionKey.plen ht.root
  unfold State.regionCurrentPlen
  rw [State.setCurrentRegion_current, State.setCurrentRegion_rt]
  generalize s.tls.current = cur at h
  cases h with
  | same => rfl
  | bare => exact hroot

/-- `xy_dispatch` looks the region of a NULL entry up. -/
theorem CurrentSim.callerRegion (ht : s.rt.tree.Wf) (h : CurrentSim b s.tls.current cur') :
    (s.setCurrentRegion cur').callerRegion = s.callerRegion := by
  have hplen := h.plen ht
  unfold State.callerRegion
  rw [hplen, State.setCurrentRegion_current, State.setCurrentRegion_rt, h.id]
  have hplen₀ : s.tls.current = ⟨0, none⟩ → s.regionCurrentPlen = 0 := by
    intro hcur
    unfold State.regionCurrentPlen
    rw [hcur]
  generalize s.tls.current = cur at h hplen₀
  cases h with
  | same => rfl
  | bare =>
    rw [hplen₀ rfl]
    exact (regionLookup_root ht).symm

/-! ## What does not depend on the current region -/

theorem resume_sim {st : State} (hcur : CurrentSim b s.tls.current cur') (hk : StackSim b k k')
    (hst : st = s.setCurrentRegion cur') (ret : Int) :
    OutcomeSim (resume s ret k) (resume st ret k') := by
  subst hst
  cases hk with
  | nil => exact ⟨rfl, .mk' hcur (.nil _) rfl⟩
  | @plain _ f k k' hf h =>
    cases f with
    | unload e children => exact ⟨rfl, .mk' hcur (.plain rfl h) rfl⟩
    | reload rl pc =>
      cases pc with
      | unloading | loading => exact ⟨rfl, .mk' hcur (.plain rfl h) rfl⟩
      | unloaded | loaded => exact ⟨rfl, .mk' hcur (.plain rfl h) rfl⟩
    | load | each => exact ⟨rfl, .mk' hcur (.plain hf h) rfl⟩
    | scope | dispatch => cases hf
  | load hactive hle hprev h => exact ⟨rfl, .mk' hcur (.load hactive hle hprev h) rfl⟩
  | scope hle hprev h => exact ⟨rfl, .mk' hcur (.scope hle hprev h) rfl⟩
  | dispatch hrun hid h => exact ⟨rfl, .mk' hcur (.dispatch hrun hid h) rfl⟩
  | switched hrun hle hid hprev h =>
    exact ⟨rfl, .mk' hcur (.switched hrun hle hid hprev h) rfl⟩

theorem beginUnload_sim (hcur : CurrentSim b s.tls.current cur') (hk : StackSim b k k')
    (fname : CStr) (id : RegionId) (plen : Nat) :
    OutcomeSim (beginUnload w s fname id plen k)
      (beginUnload w (s.setCurrentRegion cur') fname id plen k') := by
  unfold beginUnload
  rw [State.setCurrentRegion_rt]
  split
  · exact resume_sim (s := s.setErr xyErrNotfound) hcur hk rfl _
  · next e he =>
    split
    · trivial
    · next me hme =>
      dsimp only
      split
      · exact resume_sim (s := s.release e) hcur hk rfl _
      · exact ⟨rfl, .mk' (s := s.release e) hcur (.plain rfl hk) rfl⟩

theorem modLoadStart_sim (ht : s.rt.tree.Wf) (hcur : CurrentSim b s.tls.current cur')
    (fname : CStr) : modLoadStart w (s.setCurrentRegion cur') fname = modLoadStart w s fname := by
  unfold modLoadStart
  rw [hcur.plen ht, State.setCurrentRegion_current, hcur.id]
  rfl

theorem beginLoad_sim (ht : s.rt.tree.Wf) (hcur : CurrentSim b s.tls.current cur')
    (hk : StackSim b k k') (fname : CStr) :
    OutcomeSim (beginLoad w s fname k) (beginLoad w (s.setCurrentRegion cur') fname k') := by
  unfold beginLoad
  rw [modLoadStart_sim ht hcur]
  exact ⟨rfl, .mk' hcur (.plain rfl hk) rfl⟩

theorem modUnloadFinish_current (s : State) (cur : CurrentRegion) (e : EntryRef) (me : ModEntry) :
    modUnloadFinish w (s.setCurrentRegion cur) e me
      = (modUnloadFinish w s e me).setCurrentRegion cur := by
  unfold modUnloadFinish moduleCleanupRegionState
  split <;> rfl

theorem tauUnload_sim (hcur : CurrentSim b s.tls.current cur') (hk : StackSim b k k')
    (e : EntryRef) (children : List EntryRef) :
    OutcomeSim (tauUnload w s k e children)
      (tauUnload w (s.setCurrentRegion cur') k' e children) := by
  cases children with
  | nil =>
    unfold tauUnload
    dsimp only
    rw [State.setCurrentRegion_rt]
    cases s.rt.mods e with
    | none => trivial
    | some me =>
      refine resume_sim (s := modUnloadFinish w s e me) ?_ hk (modUnloadFinish_current ..) _
      rw [(modUnloadFinish_spec ..).2.2.1]
      exact hcur
  | cons child rest =>
    unfold tauUnload
    dsimp only
    rw [State.setCurrentRegion_rt, State.setCurrentRegion_ctxs]
    cases s.rt.mods child with
    | none => trivial
    | some me =>
      dsimp only
      cases me.ctx.bind (fun c => (s.ctxs c).modulePath) with
      | none => exact ⟨rfl, .mk' hcur (.plain rfl hk) rfl⟩
      | some p =>
        dsimp only
        rw [show (s.setCurrentRegion cur').strs = s.strs from rfl]
        cases s.strs p with
        | none => trivial
        | some path => exact beginUnload_sim hcur (.plain rfl hk) path _ _

theorem tauReload_sim (ht : s.rt.tree.Wf) (hcur : CurrentSim b s.tls.current cur')
    (hk : StackSim b k k') (rl : Reload) (pc : ReloadPc) :
    OutcomeSim (tauReload w s k rl pc) (tauReload w (s.setCurrentRegion cur') k' rl pc) := by
  cases pc with
  | unloading | loading => trivial
  | unloaded ret =>
    unfold tauReload
    dsimp only
    split
    · exact beginLoad_sim ht hcur (.plain rfl hk) _
    · exact ⟨rfl, .mk' (s := s.setErr ret) hcur hk rfl⟩
  | loaded ret =>
    unfold tauReload
    dsimp only
    rw [State.setCurrentRegion_rt]
    split
    · split
      · next e r he hre =>
        cases reinsert s.rt r e rl.insertAfter with
        | none => trivial
        | some rt => exact ⟨rfl, .mk' (s := { s with rt := rt, err := xyOk }) hcur hk rfl⟩
      · exact ⟨rfl, .mk' (s := s.setErr xyOk) hcur hk rfl⟩
    · exact ⟨rfl, .mk' (s := s.setErr ret) hcur hk rfl⟩

/-! ## Loads -/

/-- What two loads have saved, over the stacks below them. -/
inductive LoadSim (b : Bool) (active : Bool) (prev prev' : CurrentRegion) (k k' : List Frame) : Prop
  | inactive (hactive : active = false) (heq : prev' = prev) (hk : StackSim b k k') :
    LoadSim b active prev prev' k k'
  | active {b' : Bool} (hactive : active = true) (hle : b = true → b' = true)
    (hprev : CurrentSim b' prev prev') (hk : StackSim b' k k') : LoadSim b active prev prev' k k'

variable {tx : LoadTxn} {prev' : CurrentRegion}

theorem LoadSim.frame (tx : LoadTxn) (h : LoadSim b tx.contextActive tx.prevRegion prev' k k')
    (pc : LoadPc) :
    StackSim b (.load tx pc :: k) (.load { tx with prevRegion := prev' } pc :: k') := by
  cases h with
  | inactive hactive heq hk =>
    subst heq
    exact .plain hactive hk
  | active hactive hle hprev hk => exact .load hactive hle hprev hk

theorem LoadSim.below {active : Bool} {prev : CurrentRegion}
    (h : LoadSim b active prev prev' k k') :
    StackSim b k k' := by
  cases h with
  | inactive hactive heq hk => exact hk
  | active hactive hle hprev hk => exact hk.mono hle

theorem LoadSim.weaken {active : Bool} {prev : CurrentRegion}
    (h : LoadSim b active prev prev' k k') : LoadSim false active prev prev' k k' := by
  cases h with
  | inactive hactive heq hk => exact .inactive hactive heq hk.weaken
  | active hactive hle hprev hk => exact .active hactive nofun hprev hk

theorem LoadSim.restored (h : LoadSim b tx.contextActive tx.prevRegion prev' k k')
    (hcur : CurrentSim b s.tls.current cur') :
    ∃ b₁ cur₁, CurrentSim b₁ (modLoadRestoreContext s tx).tls.current cur₁ ∧ StackSim b₁ k k'
      ∧ modLoadRestoreContext (s.setCurrentRegion cur') { tx with prevRegion := prev' }
        = (modLoadRestoreContext s tx).setCurrentRegion cur₁ := by
  unfold modLoadRestoreContext
  cases h with
  | inactive hactive heq hk =>
    simp only [hactive]
    exact ⟨b, cur', hcur, hk, rfl⟩
  | @active b' hactive hle hprev hk =>
    simp only [hactive, if_true]
    exact ⟨b', prev', hprev, hk, rfl⟩

theorem modLoadBindXy_current (s : State) (cur : CurrentRegion) (tx : LoadTxn)
    (prev : CurrentRegion) :
    modLoadBindXy w (s.setCurrentRegion cur) { tx with prevRegion := prev }
      = ((modLoadBindXy w s tx).1.setCurrentRegion cur, (modLoadBindXy w s tx).2) := by
  unfold modLoadBindXy
  dsimp only
  rw [show modLoadCtx w (s.setCurrentRegion cur) { tx with prevRegion := prev }
    = modLoadCtx w s tx from rfl]
  split
  · split
    · next hab => rw [if_pos (show modLoadCheckCtxAbi w tx ≠ xyOk from hab)]; rfl
    · next hab => rw [if_neg (show ¬ modLoadCheckCtxAbi w tx ≠ xyOk from hab)]; rfl
  · rfl

theorem moduleRekeyForClaim_current (s : State) (cur : CurrentRegion) (caller : CStr)
    (pk ck : RegionKey) :
    moduleRekeyForClaim w (s.setCurrentRegion cur) caller pk ck
      = (moduleRekeyForClaim w s caller pk ck).setCurrentRegion cur := by
  unfold moduleRekeyForClaim
  rw [State.setCurrentRegion_rt]
  dsimp only
  split <;> rfl

theorem modLoadAbort_sim (h : LoadSim b tx.contextActive tx.prevRegion prev' k k')
    (hcur : CurrentSim b s.tls.current cur') (err : Int) :
    OutcomeSim
      (match modLoadAbort w s tx with
        | none => .undef
        | some s => resume s err k)
      (match modLoadAbort w (s.setCurrentRegion cur') { tx with prevRegion := prev' } with
        | none => .undef
        | some s => resume s err k') := by
  obtain ⟨b₁, cur₁, hcur₁, hk, heq⟩ := h.restored hcur
  unfold modLoadAbort
  rw [heq]
  generalize modLoadRestoreContext s tx = s₁ at hcur₁
  have hfree : modLoadFreeFname (s₁.setCurrentRegion cur₁) { tx with prevRegion := prev' }
      = (modLoadFreeFname s₁ tx).setCurrentRegion cur₁ := by
    unfold modLoadFreeFname
    dsimp only
    split <;> rfl
  have hkeep : (modLoadFreeFname s₁ tx).tls = s₁.tls := by
    unfold modLoadFreeFname
    split <;> rfl
  rw [hfree]
  generalize modLoadFreeFname s₁ tx = s₂ at hkeep
  rw [← hkeep] at hcur₁
  dsimp only
  cases tx.modEntry with
  | none => exact resume_sim hcur₁ hk rfl _
  | some e =>
    dsimp only
    rw [State.setCurrentRegion_rt]
    cases s₂.rt.mods e with
    | none => trivial
    | some me =>
      dsimp only
      unfold moduleCleanupRegionState
      split
      · exact resume_sim (s := { s₂ with
          cleanups := _, rt := s₂.rt.abortEntry w e me tx.publishedEntry }) hcur₁ hk rfl _
      · exact resume_sim (s := { s₂ with rt := s₂.rt.abortEntry w e me tx.publishedEntry })
          hcur₁ hk rfl _

theorem tauLoad_sim (h : LoadSim b tx.contextActive tx.prevRegion prev' k k')
    (hcur : CurrentSim b s.tls.current cur') (pc : LoadPc) :
    OutcomeSim (tauLoad w s k tx pc)
      (tauLoad w (s.setCurrentRegion cur') k' { tx with prevRegion := prev' } pc) := by
  cases pc with
  | opening | handler | installing => trivial
  | opened =>
    unfold tauLoad
    dsimp only
    cases tx.lookup.entry with
    | none =>
      exact ⟨rfl, .mk' (s := (modLoadAllocPublish s tx).1) hcur
        (h.frame (modLoadAllocPublish s tx).2 .bind) rfl⟩
    | some e =>
      dsimp only
      rw [State.setCurrentRegion_rt]
      cases s.rt.mods e with
      | none => trivial
      | some me => exact resume_sim (s := modLoadReuse s e) hcur h.below rfl _
  | bind =>
    unfold tauLoad
    dsimp only
    rw [modLoadBindXy_current]
    dsimp only
    refine ⟨rfl, .mk' (s := (modLoadBindXy w s tx).1) ?_ (h.frame tx _) rfl⟩
    rw [(modLoadBindXy_spec w s tx).1]
    exact hcur
  | claim =>
    unfold tauLoad
    dsimp only
    have hload : LoadSim false (modLoadEnterContext s tx).2.contextActive
        (modLoadEnterContext s tx).2.prevRegion cur' k k' := .active rfl nofun hcur h.below
    have hframe : ∀ pc, StackSim false (.load (modLoadEnterContext s tx).2 pc :: k)
        (.load (modLoadEnterContext (s.setCurrentRegion cur')
          { tx with prevRegion := prev' }).2 pc :: k') := fun pc => hload.frame _ pc
    have hstate : (modLoadEnterContext (s.setCurrentRegion cur') { tx with prevRegion := prev' }).1
        = (modLoadEnterContext s tx).1 := rfl
    have hgate : modLoadClaimGate w
        (modLoadEnterContext (s.setCurrentRegion cur') { tx with prevRegion := prev' }).1
        (modLoadEnterContext (s.setCurrentRegion cur') { tx with prevRegion := prev' }).2
          = modLoadClaimGate w (modLoadEnterContext s tx).1 (modLoadEnterContext s tx).2 := rfl
    rw [hgate]
    cases modLoadClaimGate w (modLoadEnterContext s tx).1 (modLoadEnterContext s tx).2 with
    | flat => exact ⟨rfl, .same (hframe _) hstate⟩
    | refuse err => exact ⟨rfl, .same (hframe _) (congrArg (State.setErr · err) hstate)⟩
    | ask parent fn bits => exact ⟨rfl, .same (hframe _) hstate⟩
  | rekey child =>
    unfold tauLoad
    dsimp only
    rw [State.setCurrentRegion_rt]
    cases tx.modEntry.bind s.rt.mods with
    | none => trivial
    | some me =>
      dsimp only
      rw [show LoadTxn.inheritedKey { tx with prevRegion := prev' } = tx.inheritedKey from rfl,
        moduleRekeyForClaim_current]
      refine ⟨rfl, .mk' (s := (moduleRekeyForClaim w s tx.fname tx.inheritedKey child).setErr xyOk)
        ?_ (h.frame tx _) rfl⟩
      rw [State.setErr_tls, (moduleRekeyForClaim_spec ..).1]
      exact hcur
  | link =>
    have hframe := h.frame tx .install
    generalize htx : ({ tx with prevRegion := prev' } : LoadTxn) = tx' at hframe ⊢
    have hmod : tx'.modEntry = tx.modEntry := htx ▸ rfl
    have hhandle : tx'.handle = tx.handle := htx ▸ rfl
    unfold tauLoad modLoadLink
    dsimp only
    rw [hmod, hhandle]
    cases tx.modEntry with
    | none => trivial
    | some e =>
      dsimp only
      rw [State.setCurrentRegion_rt]
      cases s.rt.mods e with
      | none => trivial
      | some me => exact ⟨rfl, .mk' (s := modLoadLink w s tx e me) hcur hframe rfl⟩
  | install =>
    have hframe := h.frame tx
    generalize htx : ({ tx with prevRegion := prev' } : LoadTxn) = tx' at hframe ⊢
    have hmod : tx'.modEntry = tx.modEntry := htx ▸ rfl
    have hhandle : tx'.handle = tx.handle := htx ▸ rfl
    unfold tauLoad
    dsimp only
    rw [hmod, hhandle]
    cases tx.modEntry with
    | none => trivial
    | some e =>
      dsimp only
      cases w.dlsym tx.handle .xyInstall with
      | none => exact ⟨rfl, .mk' (s := modLoadPrewarm w s e) hcur (hframe _) rfl⟩
      | some a =>
        exact ⟨rfl, .mk' (s := { modLoadPrewarm w s e with
          tls := { s.tls with loadingMod := some e } }) hcur (hframe _) rfl⟩
  | aborting err => exact modLoadAbort_sim h hcur err

theorem retDlopen_sim (h : LoadSim b tx.contextActive tx.prevRegion prev' k k')
    (hcur : CurrentSim b s.tls.current cur') (handle : Option Handle) :
    OutcomeSim (retDlopen s k tx handle)
      (retDlopen (s.setCurrentRegion cur') k' { tx with prevRegion := prev' } handle) := by
  cases handle with
  | none => exact resume_sim (s := s.setErr xyErrNotfound) hcur h.below rfl _
  | some x =>
    exact ⟨rfl, .mk' hcur (h.frame { tx with handle := x } .opened) rfl⟩

theorem retHandler_sim (h : LoadSim b tx.contextActive tx.prevRegion prev' k k')
    (hcur : CurrentSim b s.tls.current cur') (parent : RegionRef) (ret : Int) (bits : Nat) :
    OutcomeSim (retHandler s k tx parent ret bits)
      (retHandler (s.setCurrentRegion cur') k' { tx with prevRegion := prev' } parent ret
        bits) := by
  have hgrant : xyClaimGranted (s.setCurrentRegion cur') parent ret bits
      = xyClaimGranted s parent ret bits := rfl
  unfold retHandler
  rw [hgrant]
  cases xyClaimGranted s parent ret bits with
  | error err => exact ⟨rfl, .mk' (s := s.setErr err) hcur (h.frame tx _) rfl⟩
  | ok r => exact ⟨rfl, .same (h.weaken.frame tx _) rfl⟩

theorem retInstall_sim (h : LoadSim b tx.contextActive tx.prevRegion prev' k k')
    (hcur : CurrentSim b s.tls.current cur') (prev : Option EntryRef) :
    OutcomeSim (retInstall s k tx prev)
      (retInstall (s.setCurrentRegion cur') k' { tx with prevRegion := prev' } prev) := by
  obtain ⟨b₁, cur₁, hcur₁, hk, heq⟩ := h.restored
    (s := { s with tls := { s.tls with loadingMod := prev } }) hcur
  exact resume_sim hcur₁ hk heq _

/-! ## Dispatches -/

variable {d : Dispatch} {run : Option EntryRef} {prev : Option RegionRef} {at' : CurrentRegion}

theorem not_restores_none (d : Dispatch) : ¬ d.Restores none := fun h => h.1 rfl

theorem writeBuf_current (s : State) (cur : CurrentRegion) (p : Option BufRef)
    (bytes : List UInt8) :
    (s.setCurrentRegion cur).writeBuf p bytes = (s.writeBuf p bytes).setCurrentRegion cur := by
  cases p <;> rfl

theorem setLastRet_current (s : State) (cur : CurrentRegion) (p : Option BufRef) (size : Nat) :
    (s.setCurrentRegion cur).setLastRet p size = (s.setLastRet p size).setCurrentRegion cur := by
  unfold State.setLastRet
  cases p with
  | none => rfl
  | some b =>
    dsimp only
    split <;> rfl

theorem dispatchEnd_current (s : State) (cur : CurrentRegion) (retp : Option BufRef)
    (reg : AdapterRef) (ran : Nat) :
    dispatchEnd (s.setCurrentRegion cur) retp reg ran
      = ((dispatchEnd s retp reg ran).1.setCurrentRegion cur, (dispatchEnd s retp reg ran).2) := by
  unfold dispatchEnd
  dsimp only
  rw [show ({ s.setCurrentRegion cur with
      tls := { (s.setCurrentRegion cur).tls with lastRan := ran } } : State)
    = ({ s with tls := { s.tls with lastRan := ran } } : State).setCurrentRegion cur from rfl,
    setLastRet_current, setLastRet_current, writeBuf_current,
    show (s.setCurrentRegion cur).adapters = s.adapters from rfl]
  split <;> rfl

theorem dispatchEnd_sim (hcur : CurrentSim b s.tls.current cur') (hk : StackSim b k k')
    (retp : Option BufRef) (reg : AdapterRef) (ran : Nat) :
    OutcomeSim
      (match dispatchEnd s retp reg ran with
        | (s, ret) => .next ⟨s, k⟩ (.returned (.int ret)))
      (match dispatchEnd (s.setCurrentRegion cur') retp reg ran with
        | (s, ret) => .next ⟨s, k'⟩ (.returned (.int ret))) := by
  rw [dispatchEnd_current]
  refine ⟨rfl, .mk' (s := (dispatchEnd s retp reg ran).1) ?_ hk rfl⟩
  rw [(still_dispatchEnd ..).current]
  exact hcur

theorem tauSelf_sim {d' : Dispatch} (hd : d' = { d with prevEntry := prev, atEntry := at' })
    (hself : d.selfOnly = true) (hcur : CurrentSim b s.tls.current cur')
    (hid : b = true → d.regionId = 0) (hk : StackSim b k k') :
    OutcomeSim (tauSelf w s k d) (tauSelf w (s.setCurrentRegion cur') k' d') := by
  have hnot : ∀ (d' : Dispatch) run, d'.selfOnly = true → ¬ d'.Restores run :=
    fun d' run htrue h => absurd h.2.1 (by simp [htrue])
  unfold tauSelf
  rw [show d'.me = d.me from hd ▸ rfl]
  cases d.me with
  | none =>
    rw [show d'.retp = d.retp from hd ▸ rfl, show d'.reg = d.reg from hd ▸ rfl,
      show d'.ran = d.ran from hd ▸ rfl]
    exact dispatchEnd_sim hcur hk ..
  | some e =>
    dsimp only
    rw [State.setCurrentRegion_rt]
    cases s.rt.mods e with
    | none => trivial
    | some me =>
      subst hd
      dsimp only
      cases me.ctx with
      | none => exact ⟨rfl, .mk' hcur (.dispatch (hnot _ _ hself) hid hk) rfl⟩
      | some c =>
        dsimp only
        split
        · exact ⟨rfl, .mk' hcur (.dispatch (hnot _ _ hself) hid hk) rfl⟩
        · split
          · exact ⟨rfl, .mk' (s := injectCtx { s with
              rt := s.rt.modifyMod e fun _ => me.resolved w d.hookId d.name } c d.reg
              (me.resolved w d.hookId d.name)) hcur
              (.dispatch (d := d.enter _ e) (hnot _ _ hself) hid hk) rfl⟩
          · exact ⟨rfl, .mk' (s := { s with
              rt := s.rt.modifyMod e fun _ => me.resolved w d.hookId d.name }) hcur
              (.dispatch (hnot _ _ hself) hid hk) rfl⟩

/-- A dispatch that enters a listener of another region saves what it finds. -/
theorem CurrentSim.saved {cur : CurrentRegion} (h : CurrentSim b cur cur') {id : RegionId}
    (hid : b = true → id = 0) : CurrentSim b ⟨id, cur.entry⟩ ⟨id, cur'.entry⟩ := by
  cases h with
  | same => exact .same _
  | bare =>
    rw [hid rfl]
    exact .bare

theorem tauSubtree_sim (hself : d.selfOnly = false) (hcur : CurrentSim b s.tls.current cur')
    (hid : b = true → d.regionId = 0) (hk : StackSim b k k') :
    OutcomeSim (tauSubtree s k d)
      (tauSubtree (s.setCurrentRegion cur') k' { d with prevEntry := prev, atEntry := at' }) := by
  unfold tauSubtree
  dsimp only
  rw [State.setCurrentRegion_rt]
  split
  · split
    · cases (s.rt.hookVec d.caller d.hookId).cells[d.mi]? with
      | none => trivial
      | some slot =>
        dsimp only
        cases s.rt.mods slot.me with
        | none => trivial
        | some me =>
          dsimp only
          cases me.ctx with
          | none => exact ⟨rfl, .mk' hcur (.dispatch (not_restores_none _) hid hk) rfl⟩
          | some c =>
            dsimp only
            split
            · exact ⟨rfl, .mk' hcur (.dispatch (not_restores_none _) hid hk) rfl⟩
            · unfold Dispatch.switch
              dsimp only
              by_cases hch : me.regionEntry ≠ some d.caller
              · rw [if_pos hch, if_pos hch]
                refine ⟨rfl, .same ?_ rfl⟩
                refine .switched ⟨by simp, hself, by simpa [Dispatch.enter] using hch⟩ ?_ hid
                  (hcur.saved hid) hk
                intro h
                cases h
              · rw [if_neg hch, if_neg hch]
                refine ⟨rfl, .mk' (s := injectCtx s c d.reg me) hcur ?_ rfl⟩
                refine .dispatch (d := Dispatch.enter { d with
                  prevEntry := s.tls.current.entry
                  regionChanged := decide (me.regionEntry ≠ some d.caller) } _ slot.me) ?_ hid hk
                exact fun h => hch (by simpa [Dispatch.enter] using h.2.2)
    · trivial
  · exact dispatchEnd_sim hcur hk ..

/-- A listener of the caller's own region returns. -/
theorem retListener_sim (hrun : ¬ d.Restores run) {e : EntryRef} (he : run = some e)
    (hcur : CurrentSim b s.tls.current cur') (hid : b = true → d.regionId = 0)
    (hk : StackSim b k k') (bytes : List UInt8) :
    OutcomeSim (retListener s k d e bytes)
      (retListener (s.setCurrentRegion cur') k' { d with prevEntry := prev, atEntry := at' } e
        bytes) := by
  have hwrite : CurrentSim b (s.writeBuf d.retp bytes).tls.current cur' := by
    rw [(State.still_writeBuf ..).current]
    exact hcur
  unfold retListener
  dsimp only
  rw [writeBuf_current]
  generalize s.writeBuf d.retp bytes = s₁ at hwrite
  split
  · rw [show ((s₁.setCurrentRegion cur').lastPublish (d.ran + 1) d.retp d.reg).rt = s₁.rt from rfl,
      show (s₁.lastPublish (d.ran + 1) d.retp d.reg).rt = s₁.rt from rfl]
    cases s₁.rt.mods e with
    | none => trivial
    | some me =>
      exact ⟨rfl, .mk' (s := s₁.lastPublish (d.ran + 1) d.retp d.reg) hwrite
        (.dispatch (not_restores_none _) hid hk) rfl⟩
  · next hself =>
    have hch : ¬ d.regionChanged = true := fun hch =>
      hrun ⟨by rw [he]; simp, by simpa using hself, hch⟩
    rw [if_neg hch, if_neg hch]
    exact ⟨rfl, .mk' (s := s₁.lastPublish (d.ran + 1) d.retp d.reg) hwrite
      (.dispatch (not_restores_none _) hid hk) rfl⟩

/-- A listener of another region returns. -/
theorem retListener_switched {b' : Bool} {e : EntryRef} (hself : d.selfOnly = false)
    (hch : d.regionChanged = true) (hid : b' = true → d.regionId = 0)
    (hprev : CurrentSim b' ⟨d.regionId, d.prevEntry⟩ ⟨d.regionId, prev⟩) (hk : StackSim b' k k')
    (bytes : List UInt8) :
    OutcomeSim (retListener s k d e bytes)
      (retListener (s.setCurrentRegion cur') k' { d with prevEntry := prev, atEntry := at' } e
        bytes) := by
  unfold retListener
  dsimp only
  rw [writeBuf_current]
  generalize s.writeBuf d.retp bytes = s₁
  simp only [hself, hch, Bool.false_eq_true, if_false, if_true]
  exact ⟨rfl, .mk' (s := (s₁.setCurrentRegion ⟨d.regionId, d.prevEntry⟩).lastPublish (d.ran + 1)
    d.retp d.reg) hprev (.dispatch (not_restores_none _) hid hk) rfl⟩

/-- What a dispatch starts with on another thread. -/
def DispatchStart.withCurrent (cur : CurrentRegion) : DispatchStart → DispatchStart
  | .done s ret => .done (s.setCurrentRegion cur) ret
  | .loop s d => .loop (s.setCurrentRegion cur) { d with atEntry := cur }

theorem dispatchFail_current (s : State) (cur : CurrentRegion) (retp : Option BufRef)
    (reg : AdapterRef) (err : Int) :
    dispatchFail (s.setCurrentRegion cur) retp reg err
      = ((dispatchFail s retp reg err).1.setCurrentRegion cur, err) := by
  unfold dispatchFail
  cases retp <;> rfl

theorem dispatchScope_current (s : State) (cur : CurrentRegion) {d d' : Dispatch}
    (hd : d' = { d with atEntry := cur }) :
    dispatchScope w (s.setCurrentRegion cur) d'
      = (dispatchScope w s d).map (·.withCurrent cur) := by
  subst hd
  unfold dispatchScope
  dsimp only
  rw [State.setCurrentRegion_rt]
  split
  · rfl
  · cases s.rt.prepareVec w d.caller d.hookId d.name d.anc <;> rfl

theorem dispatchResolved_current (ht : s.rt.tree.Wf) (hcur : CurrentSim b s.tls.current cur')
    (retp : Option BufRef) (reg : AdapterRef) (a : Adapter) (selfOnly : Bool) :
    dispatchResolved w (s.setCurrentRegion cur') retp reg a selfOnly
      = (dispatchResolved w s retp reg a selfOnly).map (·.withCurrent cur') := by
  have hcaller : ((s.setCurrentRegion cur').lastPublish 0 retp reg).callerRegion
      = (s.lastPublish 0 retp reg).callerRegion := hcur.callerRegion ht
  unfold dispatchResolved
  dsimp only
  rw [hcaller, hcur.callerRegion ht, State.setCurrentRegion_rt, dispatchFail_current]
  split
  · rfl
  · cases (s.lastPublish 0 retp reg).callerRegion with
    | none =>
      dsimp only
      rw [show (s.setCurrentRegion cur').lastPublish 0 retp reg
        = (s.lastPublish 0 retp reg).setCurrentRegion cur' from rfl, dispatchEnd_current]
      rfl
    | some r =>
      dsimp only
      rw [show ((s.setCurrentRegion cur').lastPublish 0 retp reg).tls.current.id
        = s.tls.current.id from hcur.id]
      exact dispatchScope_current (s.lastPublish 0 retp reg) cur' rfl

theorem dispatchBegin_current (ht : s.rt.tree.Wf) (hcur : CurrentSim b s.tls.current cur')
    (retp : Option BufRef) (regp : Option AdapterRef) (selfOnly : Bool) :
    dispatchBegin w (s.setCurrentRegion cur') retp regp selfOnly
      = (dispatchBegin w s retp regp selfOnly).map (·.withCurrent cur') := by
  unfold dispatchBegin
  cases regp with
  | none => rfl
  | some reg =>
    dsimp only
    rw [show resolveAdapter (s.setCurrentRegion cur') ((s.setCurrentRegion cur').adapters reg)
      = resolveAdapter s (s.adapters reg) from rfl]
    cases resolveAdapter s (s.adapters reg) with
    | none =>
      dsimp only
      rw [dispatchFail_current]
      rfl
    | some p =>
      obtain ⟨a, call⟩ := p
      dsimp only
      generalize hs₁ : ({ s with adapters := Function.update s.adapters reg a } : State) = s₁
      have hs₁' : ({ s.setCurrentRegion cur' with
          adapters := Function.update (s.setCurrentRegion cur').adapters reg a } : State)
        = s₁.setCurrentRegion cur' := hs₁ ▸ rfl
      have ht₁ : s₁.rt.tree.Wf := hs₁ ▸ ht
      have hcur₁ : CurrentSim b s₁.tls.current cur' := hs₁ ▸ hcur
      rw [hs₁', dispatchFail_current, dispatchFail_current, dispatchResolved_current ht₁ hcur₁,
        show fallbackCall (s₁.setCurrentRegion cur') a.hookId.toNat call
          = fallbackCall s₁ a.hookId.toNat call from rfl]
      split
      · rfl
      · split
        · rfl
        · rfl

theorem beginDispatch_sim (ht : s.rt.tree.Wf) (hcur : CurrentSim b s.tls.current cur')
    (hk : StackSim b k k') (retp : Option BufRef) (regp : Option AdapterRef) (selfOnly : Bool) :
    OutcomeSim (beginCall w ⟨s, k⟩ (.call retp regp selfOnly))
      (beginCall w ⟨s.setCurrentRegion cur', k'⟩ (.call retp regp selfOnly)) := by
  unfold beginCall
  dsimp only
  rw [dispatchBegin_current ht hcur]
  cases hbegin : dispatchBegin w s retp regp selfOnly with
  | none => trivial
  | some start =>
    cases start with
    | done s₁ ret =>
      refine ⟨rfl, .mk' (s := s₁) ?_ hk rfl⟩
      rw [(dispatchBegin_done hbegin).current]
      exact hcur
    | loop s₁ d =>
      have hstart := dispatchBegin_loop hbegin
      refine ⟨rfl, .mk' (s := s₁) ?_ (.dispatch (not_restores_none _) ?_ hk) rfl⟩
      · rw [hstart.current]
        exact hcur
      · intro hb
        subst hb
        rw [hstart.regionId]
        generalize s.tls.current = cur at hcur
        cases hcur
        rfl

/-! ## Scopes and calls that return at once -/

theorem beginScope_sim (hcur : CurrentSim b s.tls.current cur') (hk : StackSim b k k')
    (id : RegionId) (plen : Nat) (hasFn : Bool) :
    OutcomeSim (beginScope s k id plen hasFn)
      (beginScope (s.setCurrentRegion cur') k' id plen hasFn) := by
  unfold beginScope
  rw [State.setCurrentRegion_rt]
  split
  · cases s.rt.regionLookup id plen with
    | none => exact ⟨rfl, .mk' (s := s.setErr xyErrNotfound) hcur hk rfl⟩
    | some target =>
      exact ⟨rfl, .same (s := s.setCurrentRegion ⟨id, some target⟩) (.scope nofun hcur hk) rfl⟩
  · exact ⟨rfl, .mk' (s := s.setErr xyErrInvalid) hcur hk rfl⟩

theorem visit_sim (hcur : CurrentSim b s.tls.current cur') (hk : StackSim b k k')
    (next : Option RegionRef) :
    OutcomeSim (visit s k next) (visit (s.setCurrentRegion cur') k' next) := by
  cases next with
  | none => exact ⟨rfl, .mk' (s := s.setErr xyOk) hcur hk rfl⟩
  | some r => exact ⟨rfl, .mk' hcur (.plain rfl hk) rfl⟩

theorem retVisit_sim (hcur : CurrentSim b s.tls.current cur') (hk : StackSim b k k')
    (cursor : RegionRef) (ret : Int) :
    OutcomeSim (retVisit s k cursor ret) (retVisit (s.setCurrentRegion cur') k' cursor ret) := by
  unfold retVisit
  rw [State.setCurrentRegion_rt]
  split
  · exact visit_sim hcur hk _
  · exact ⟨rfl, .mk' (s := s.setErr xyOk) hcur hk rfl⟩

theorem beginReload_sim (ht : s.rt.tree.Wf) (hcur : CurrentSim b s.tls.current cur')
    (hk : StackSim b k k') (fname : CStr) :
    OutcomeSim (beginReload w s fname k) (beginReload w (s.setCurrentRegion cur') fname k') := by
  unfold beginReload
  dsimp only
  rw [hcur.plen ht, State.setCurrentRegion_rt, State.setCurrentRegion_current, hcur.id]
  cases (moduleLookupFromFname w s.rt fname s.tls.current.id s.regionCurrentPlen).entry with
  | none => exact ⟨rfl, .mk' (s := s.setErr xyErrNotfound) hcur hk rfl⟩
  | some e =>
    dsimp only
    cases s.rt.mods e with
    | none => trivial
    | some me => exact beginUnload_sim hcur (.plain rfl hk) ..

/-- `xy_claim_at` names the region it enters. -/
theorem claimAt_sim (hcur : CurrentSim b s.tls.current cur') (hk : StackSim b k k')
    (id : RegionId) (plen : Nat) (fn : Option HandlerRef) :
    OutcomeSim (.next ⟨(xyClaimAt s id plen fn).1, k⟩ (.returned (.int (xyClaimAt s id plen fn).2)))
      (.next ⟨(xyClaimAt (s.setCurrentRegion cur') id plen fn).1, k'⟩
        (.returned (.int (xyClaimAt (s.setCurrentRegion cur') id plen fn).2))) := by
  have hfail : ∀ err, OutcomeSim (.next ⟨s.setErr err, k⟩ (.returned (.int err)))
      (.next ⟨(s.setCurrentRegion cur').setErr err, k'⟩ (.returned (.int err))) := fun err =>
    ⟨rfl, .mk' (s := s.setErr err) hcur hk rfl⟩
  unfold xyClaimAt
  rw [State.setCurrentRegion_rt]
  by_cases hplen : plen > 64
  · simp only [if_pos hplen]
    exact hfail _
  · simp only [if_neg hplen]
    by_cases hid : id &&& regionMask plen ≠ id
    · simp only [if_pos hid]
      exact hfail _
    · simp only [if_neg hid]
      cases s.rt.regionLookup id plen with
      | some existing => exact ⟨rfl, .same hk.weaken rfl⟩
      | none =>
        dsimp only
        cases s.rt.regionNearestAncestor id plen with
        | none => exact hfail _
        | some parent =>
          dsimp only
          by_cases hle : plen ≤ (s.rt.regions parent).plen
          · simp only [if_pos hle]
            exact hfail _
          · simp only [if_neg hle]
            exact ⟨rfl, .same hk.weaken rfl⟩

theorem xyRegionExists_current (s : State) (cur : CurrentRegion) (id : RegionId) (plen : Nat) :
    xyRegionExists (s.setCurrentRegion cur) id plen
      = ((xyRegionExists s id plen).1.setCurrentRegion cur, (xyRegionExists s id plen).2) := by
  unfold xyRegionExists
  rw [State.setCurrentRegion_rt]
  cases s.rt.regionLookup id plen <;> rfl

theorem xyRegionAt_current (s : State) (cur : CurrentRegion) (id : RegionId) (plen : Nat) :
    xyRegionAt (s.setCurrentRegion cur) id plen
      = ((xyRegionAt s id plen).1.setCurrentRegion cur, (xyRegionAt s id plen).2) := by
  unfold xyRegionAt
  rw [State.setCurrentRegion_rt]
  split
  · rfl
  · cases (s.rt.regionLookup 0 0).bind
        (fun root => s.rt.regionFindCoverRec id plen s.rt.nregions root none) <;> rfl

theorem xyAreg_current (s : State) (cur : CurrentRegion) (name : CStr) (reg : AdapterRef) :
    xyAreg w (s.setCurrentRegion cur) name reg
      = ((xyAreg w s name reg).1.setCurrentRegion cur, (xyAreg w s name reg).2) := by
  unfold xyAreg
  rw [State.setCurrentRegion_rt, show (s.setCurrentRegion cur).adapters = s.adapters from rfl]
  split
  · rfl
  · cases s.rt.sicaHd.lookup name <;> rfl

theorem xyLast_current (s : State) (cur : CurrentRegion) (ret : Option BufRef) :
    xyLast (s.setCurrentRegion cur) ret
      = ((xyLast s ret).1.setCurrentRegion cur, (xyLast s ret).2) := by
  unfold xyLast
  rw [show (s.setCurrentRegion cur).adapter = s.adapter from rfl]
  cases s.adapter with
  | none => rfl
  | some a =>
    dsimp only
    rw [show (s.setCurrentRegion cur).tls.lastRan = s.tls.lastRan from rfl,
      show (s.setCurrentRegion cur).tls.lastRetp = s.tls.lastRetp from rfl,
      show (s.setCurrentRegion cur).adapters = s.adapters from rfl]
    split
    · rfl
    · cases s.tls.lastRetp with
      | null => rfl
      | lastRetbuf =>
        dsimp only
        rw [writeBuf_current]
        rfl
      | buf p =>
        dsimp only
        rw [writeBuf_current]
        rfl

theorem xyShutdown_current (s : State) (cur : CurrentRegion) :
    xyShutdown w (s.setCurrentRegion cur) = xyShutdown w s := by
  have hfold : ∀ (l : List EntryRef) (s : State),
      l.foldl (fun s e => (s.rt.mods e).elim s (moduleCleanupRegionState w s))
          (s.setCurrentRegion cur)
        = (l.foldl (fun s e => (s.rt.mods e).elim s (moduleCleanupRegionState w s))
            s).setCurrentRegion cur := by
    intro l
    induction l with
    | nil => intro s; rfl
    | cons e l ih =>
      intro s
      rw [List.foldl_cons, List.foldl_cons, ← ih, State.setCurrentRegion_rt]
      congr 1
      cases s.rt.mods e with
      | none => rfl
      | some me =>
        simp only [Option.elim, moduleCleanupRegionState]
        split <;> rfl
  unfold xyShutdown
  dsimp only
  rw [State.setCurrentRegion_rt, hfold]
  rfl

/-! ## Every step -/

/-- Where the threads have the same entry, or have to, they have the same
region. -/
theorem CurrentSim.eq_of_entry {cur : CurrentRegion} (h : CurrentSim b cur cur')
    (hentry : ¬ (cur.entry = none ∧ cur'.entry ≠ none)) : b = false ∧ cur' = cur := by
  cases h with
  | same => exact ⟨rfl, rfl⟩
  | bare => exact absurd ⟨rfl, by simp⟩ hentry

theorem callDirect_sim {q : Call} (ht : s.rt.tree.Wf) (hcur : CurrentSim b s.tls.current cur')
    (hk : StackSim b k k')
    (hbare : q.UsesEntry → ¬ (s.tls.current.entry = none ∧ cur'.entry ≠ none)) :
    OutcomeSim
      (match callDirect w s q with
        | none => .disabled
        | some (s, v) => .next ⟨s, k⟩ (.returned v))
      (match callDirect w (s.setCurrentRegion cur') q with
        | none => .disabled
        | some (s, v) => .next ⟨s, k'⟩ (.returned v)) := by
  have hwith : ∀ (s₁ : State) {v : Value} {p : State × Value},
      s₁.tls.current = s.tls.current → p = (s₁.setCurrentRegion cur', v) →
      OutcomeSim (.next ⟨s₁, k⟩ (.returned v)) (.next ⟨p.1, k'⟩ (.returned p.2)) := by
    rintro s₁ v p hkeep rfl
    exact ⟨rfl, .mk' (s := s₁) (hkeep ▸ hcur) hk rfl⟩
  have heq : q.UsesEntry → s.setCurrentRegion cur' = s := fun hq => by
    obtain ⟨-, rfl⟩ := hcur.eq_of_entry (hbare hq)
    rfl
  have hsame : q.UsesEntry → ∀ s₁ v,
      OutcomeSim (.next ⟨s₁, k⟩ (.returned v)) (.next ⟨s₁, k'⟩ (.returned v)) := fun _ s₁ v =>
    ⟨rfl, .same hk.weaken rfl⟩
  unfold callDirect
  cases q with
  | load | unload | reload | withRegion | regionEach | call | shutdown => trivial
  | deny what type =>
    rw [heq trivial]
    exact hsame trivial _ _
  | requireClaim fn =>
    rw [heq trivial]
    exact hsame trivial _ _
  | claimAt id plen fn => exact claimAt_sim hcur hk id plen fn
  | regionExists id plen =>
    exact hwith _ (still_xyRegionExists ..).current
      (congrArg (fun p : State × Int => (p.1, Value.int p.2)) (xyRegionExists_current ..))
  | regionAt id plen =>
    exact hwith _ (still_xyRegionAt ..).current (congrArg
      (fun p : State × RegionId × Nat => (p.1, Value.region p.2.1 p.2.2)) (xyRegionAt_current ..))
  | currentRegion =>
    have hvalue : (Value.region (s.setCurrentRegion cur').tls.current.id
          (s.setCurrentRegion cur').regionCurrentPlen)
        = .region s.tls.current.id s.regionCurrentPlen := by
      rw [hcur.plen ht, State.setCurrentRegion_current, hcur.id]
    exact hwith s rfl (congrArg (Prod.mk (s.setCurrentRegion cur')) hvalue)
  | currentRegionPlen =>
    have hvalue : (Value.int (s.setCurrentRegion cur').regionCurrentPlen)
        = .int s.regionCurrentPlen := by
      rw [hcur.plen ht]
    exact hwith (s.setErr xyOk) rfl
      (congrArg (Prod.mk ((s.setCurrentRegion cur').setErr xyOk)) hvalue)
  | errno => exact hwith s rfl rfl
  | areg name reg =>
    refine hwith _ ?_ (congrArg (fun p : State × BitVec 32 => (p.1, Value.hook p.2))
      (xyAreg_current ..))
    unfold xyAreg
    split
    · rfl
    · cases s.rt.sicaHd.lookup name <;> rfl
  | last ret =>
    exact hwith _ (still_xyLast ..).current
      (congrArg (fun p : State × Int => (p.1, Value.int p.2)) (xyLast_current ..))
  | selfInitCtx ctx =>
    exact hwith { s with tls := { s.tls with pendingCtx := some ctx } } rfl rfl

theorem tau_sim (ht : s.rt.tree.Wf) (hcur : CurrentSim b s.tls.current cur')
    (hk : StackSim b k k') : OutcomeSim (tau w ⟨s, k⟩) (tau w ⟨s.setCurrentRegion cur', k'⟩) := by
  unfold tau
  cases hk with
  | nil => trivial
  | @plain _ f k k' hf h =>
    cases f with
    | load tx pc => exact tauLoad_sim (.inactive hf rfl h) hcur pc
    | unload e children => exact tauUnload_sim hcur h e children
    | reload rl pc => exact tauReload_sim ht hcur h rl pc
    | each => trivial
    | scope | dispatch => cases hf
  | @load _ b' tx prev pc k k' hactive hle hprev h =>
    exact tauLoad_sim (.active hactive hle hprev h) hcur pc
  | scope => trivial
  | @dispatch _ d prev at' run k k' hrun hid h =>
    cases run with
    | some e => trivial
    | none =>
      dsimp only
      split
      · next hself => exact tauSelf_sim rfl hself hcur hid h
      · next hself => exact tauSubtree_sim (by simpa using hself) hcur hid h
  | @switched _ b' d prev at' run k k' hrun hle hid hprev h =>
    cases run with
    | some e => trivial
    | none => exact absurd hrun (not_restores_none d)

theorem giveBack_sim (hcur : CurrentSim b s.tls.current cur') (hk : StackSim b k k')
    (r : Return) :
    OutcomeSim (giveBack ⟨s, k⟩ r) (giveBack ⟨s.setCurrentRegion cur', k'⟩ r) := by
  have hload : ∀ {tx prev' k k'} pc, LoadSim b tx.contextActive tx.prevRegion prev' k k' →
      OutcomeSim (giveBack ⟨s, .load tx pc :: k⟩ r)
        (giveBack ⟨s.setCurrentRegion cur', .load { tx with prevRegion := prev' } pc :: k'⟩ r) := by
    intro tx prev' k k' pc h
    unfold giveBack
    cases pc with
    | opening =>
      cases r with
      | dlopened handle => exact retDlopen_sim h hcur handle
      | granted | installed | listened | «scoped» | visited => trivial
    | handler parent =>
      cases r with
      | granted ret bits => exact retHandler_sim h hcur parent ret bits
      | dlopened | installed | listened | «scoped» | visited => trivial
    | installing prev =>
      cases r with
      | installed => exact retInstall_sim h hcur prev
      | dlopened | granted | listened | «scoped» | visited => trivial
    | opened | bind | claim | rekey | link | install | aborting => trivial
  cases hk with
  | nil => trivial
  | @plain _ f k k' hf h =>
    cases f with
    | load tx pc => exact hload pc (.inactive hf rfl h)
    | each cursor =>
      cases r with
      | visited ret => exact retVisit_sim hcur h cursor ret
      | dlopened | granted | installed | listened | «scoped» => trivial
    | unload | reload => trivial
    | scope | dispatch => cases hf
  | load hactive hle hprev h => exact hload _ (.active hactive hle hprev h)
  | @scope _ b' prev prev' k k' hle hprev h =>
    cases r with
    | «scoped» ret =>
      exact ⟨rfl, .mk' (s := (s.setCurrentRegion prev).setErr ret) hprev h rfl⟩
    | dlopened | granted | installed | listened | visited => trivial
  | @dispatch _ d prev at' run k k' hrun hid h =>
    cases run with
    | none => trivial
    | some e =>
      cases r with
      | listened bytes => exact retListener_sim hrun rfl hcur hid h bytes
      | dlopened | granted | installed | «scoped» | visited => trivial
  | @switched _ b' d prev at' run k k' hrun hle hid hprev h =>
    cases run with
    | none => trivial
    | some e =>
      cases r with
      | listened bytes => exact retListener_switched hrun.2.1 hrun.2.2 hid hprev h bytes
      | dlopened | granted | installed | «scoped» | visited => trivial

theorem beginCall_sim {q : Call} (ht : s.rt.tree.Wf) (hcur : CurrentSim b s.tls.current cur')
    (hk : StackSim b k k')
    (hbare : q.UsesEntry → ¬ (s.tls.current.entry = none ∧ cur'.entry ≠ none)) :
    OutcomeSim (beginCall w ⟨s, k⟩ q) (beginCall w ⟨s.setCurrentRegion cur', k'⟩ q) := by
  cases q with
  | load fname => exact beginLoad_sim ht hcur hk fname
  | unload fname =>
    unfold beginCall
    dsimp only
    rw [hcur.plen ht, State.setCurrentRegion_current, hcur.id]
    exact beginUnload_sim hcur hk ..
  | reload fname => exact beginReload_sim ht hcur hk fname
  | withRegion id plen hasFn => exact beginScope_sim hcur hk id plen hasFn
  | call retp reg selfOnly => exact beginDispatch_sim ht hcur hk retp reg selfOnly
  | regionEach =>
    obtain ⟨rfl, rfl⟩ := hcur.eq_of_entry (hbare trivial)
    unfold beginCall beginEach
    dsimp only
    rw [State.setCurrentRegion_current, State.setCurrentRegion_rt]
    cases s.tls.current.entry with
    | none => exact ⟨rfl, .same (s := s.setErr xyErrNotfound) hk rfl⟩
    | some parent => exact visit_sim hcur hk _
  | shutdown =>
    unfold beginCall
    dsimp only
    cases hk with
    | nil => exact ⟨rfl, .same (.nil _) (xyShutdown_current ..)⟩
    | plain | load | scope | dispatch | switched => trivial
  | deny | requireClaim | claimAt | regionExists | regionAt | currentRegion | currentRegionPlen
  | errno | areg | last | selfInitCtx => exact callDirect_sim (w := w) ht hcur hk hbare

/-- The two threads move in lockstep. -/
theorem step_sim {c c' : Config} {a : Action} (hwf : c.Wf w) (h : Sim c c')
    (hbare : ¬ BareCall c c' a) : OutcomeSim (step w c a) (step w c' a) := by
  have hwait := h.waiting
  obtain ⟨b, hcur, hk⟩ := h.regions
  have hstate := h.state
  have ht := hwf.tree
  obtain ⟨s, k⟩ := c
  obtain ⟨s', k'⟩ := c'
  dsimp only at hcur hk hstate ht
  rw [hstate] at hbare hwait ⊢
  generalize s'.tls.current = cur' at hcur hbare hwait ⊢
  cases a with
  | tau => exact tau_sim ht hcur hk
  | ret r => exact giveBack_sim hcur hk r
  | call q =>
    unfold step
    dsimp only
    rw [hwait]
    split
    · next hw => exact beginCall_sim ht hcur hk fun hq hentry => hbare ⟨hq, hw, hentry⟩
    · trivial

end

/-! ## Runs -/

/-- What happens next in a process with several threads: the one that moves goes
on, or another one moves, with what it holds in thread-local storage. -/
inductive Turn where
  | move (a : Action)
  | switch (t : Tls)

/-- Threads change at complete calls.  A thread is in a region of the table, or
has set none. -/
def TurnNext (w : World) (c : Config) : Turn → Config → Prop
  | .move a, c' => Next w c a c'
  | .switch t, c' => c.stack = [] ∧ (∀ r ∈ t.current.entry, r < c.st.rt.nregions)
      ∧ c' = ⟨{ c.st with tls := t }, []⟩

/-- The configurations of the runs of a process with any number of threads. -/
abbrev TurnReachable (w : World) : Config → Prop :=
  Run.ReachBy Config.Initial (TurnNext w) (fun _ _ => True)

/-- A list of actions gives the same values in the two runs, and the same shared
states. -/
def SameRun (w : World) : Config → Config → List Action → Prop
  | _, _, [] => True
  | c, c', a :: as =>
    match step w c a, step w c' a with
    | .next d ev, .next d' ev' =>
      ev' = ev ∧ d'.st = { d.st with tls := d'.st.tls } ∧ SameRun w d d' as
    | .undef, .undef => True
    | .disabled, .disabled => True
    | _, _ => False

/-- None of the actions is one of the three operations, made where the first
thread has no entry and the second has one. -/
def NeverBare (w : World) : Config → Config → List Action → Prop
  | _, _, [] => True
  | c, c', a :: as =>
    ¬ BareCall c c' a ∧
      match step w c a, step w c' a with
      | .next d _, .next d' _ => NeverBare w d d' as
      | _, _ => True

instance (q : Call) : Decidable q.UsesEntry := by
  unfold Call.UsesEntry
  split <;> infer_instance

instance (c c' : Config) (a : Action) : Decidable (BareCall c c' a) := by
  unfold BareCall
  split <;> infer_instance

instance decidableNeverBare (w : World) :
    ∀ (as : List Action) (c c' : Config), Decidable (NeverBare w c c' as)
  | [], _, _ => isTrue trivial
  | a :: as, c, c' => by
    unfold NeverBare
    refine @instDecidableAnd _ _ inferInstance ?_
    split
    · exact decidableNeverBare w as _ _
    · exact isTrue trivial

section

variable {w : World} {c c' : Config}

theorem TurnReachable.wf (h : TurnReachable w c) : c.Wf w := by
  refine h.invariant (fun _ => Config.Wf.of_initial) ?_
  intro c turn c' hwf _ hnext
  cases turn with
  | move a =>
    obtain ⟨ev, hs⟩ := hnext
    exact hwf.step (Step.of_step hs)
  | switch t =>
    obtain ⟨-, ht, rfl⟩ := hnext
    exact
      { tree := hwf.tree
        heap := hwf.heap
        current := ht
        stack := ⟨fun _ hf => (List.not_mem_nil hf).elim, .nil⟩ }

/-- Where one of the three operations is called with no entry, it answers
`XY_ERR_NOTFOUND`; with an entry, it does not. -/
theorem BareCall.differ {a : Action} (h : BareCall c c' a) (hwait : c'.waiting = c.waiting) :
    ∃ d, step w c a = .next d (.returned (.int xyErrNotfound))
      ∧ ∀ d', step w c' a ≠ .next d' (.returned (.int xyErrNotfound)) := by
  obtain ⟨s, k⟩ := c
  obtain ⟨s', k'⟩ := c'
  cases a with
  | tau | ret => cases h
  | call q =>
    obtain ⟨hq, hw, hnone, hsome⟩ := h
    obtain ⟨r, hr⟩ := Option.ne_none_iff_exists'.mp hsome
    unfold step
    dsimp only at hnone hr ⊢
    rw [hwait, if_pos hw, if_pos hw]
    cases q with
    | deny what type =>
      simp only [beginCall, callDirect, xyDeny, hnone, hr]
      exact ⟨_, rfl, by simp [xyOk, xyErrNotfound]⟩
    | requireClaim fn =>
      simp only [beginCall, callDirect, xyRequireClaim, hnone, hr]
      exact ⟨_, rfl, by simp [xyOk, xyErrNotfound]⟩
    | regionEach =>
      simp only [beginCall, beginEach, hnone, hr]
      refine ⟨_, rfl, fun d' => ?_⟩
      cases (s'.rt.regions r).children.head? <;> simp [visit, xyOk, xyErrNotfound]
    | load | unload | reload | withRegion | call | shutdown | claimAt | regionExists | regionAt
    | currentRegion | currentRegionPlen | errno | areg | last | selfInitCtx => cases hq

theorem sameRun_iff {as : List Action} (hwf : c.Wf w) (h : Sim c c') :
    SameRun w c c' as ↔ NeverBare w c c' as := by
  induction as generalizing c c' with
  | nil => exact Iff.rfl
  | cons a as ih =>
    unfold SameRun NeverBare
    by_cases hbare : BareCall c c' a
    · refine iff_of_false ?_ fun hnever => hnever.1 hbare
      obtain ⟨d, hd, hdiffer⟩ := hbare.differ (w := w) h.waiting
      rw [hd]
      cases hd' : step w c' a with
      | undef | disabled => exact id
      | next d' ev' =>
        rintro ⟨rfl, -⟩
        exact hdiffer d' hd'
    · have hsim := step_sim (a := a) hwf h hbare
      cases hd : step w c a with
      | undef =>
        rw [hd] at hsim
        cases hd' : step w c' a with
        | undef => exact iff_of_true trivial ⟨hbare, trivial⟩
        | next | disabled => rw [hd'] at hsim; cases hsim
      | disabled =>
        rw [hd] at hsim
        cases hd' : step w c' a with
        | disabled => exact iff_of_true trivial ⟨hbare, trivial⟩
        | next | undef => rw [hd'] at hsim; cases hsim
      | next d ev =>
        rw [hd] at hsim
        cases hd' : step w c' a with
        | undef | disabled => rw [hd'] at hsim; cases hsim
        | next d' ev' =>
          rw [hd'] at hsim
          obtain ⟨hev, hsim⟩ := hsim
          have hshared : d'.st = { d.st with tls := d'.st.tls } := by
            conv_lhs => rw [hsim.state]
            conv_rhs => rw [hsim.state]
            rfl
          have hrest := ih (hwf.step (Step.of_step hd)) hsim
          constructor
          · rintro ⟨-, -, hsame⟩
            exact ⟨hbare, hrest.mp hsame⟩
          · rintro ⟨-, hnever⟩
            exact ⟨hev, hshared, hrest.mpr hnever⟩

/-- A thread that has set no region behaves as one in the root, if and only if
none of the three operations is called where it has no entry. -/
theorem sameRun_of_bare (h : TurnReachable w c) {t : Tls} (ht : t.current = ⟨0, none⟩) (q : Call)
    (as : List Action) :
    SameRun w ⟨{ c.st with tls := t }, []⟩
        ⟨{ c.st with tls := { t with current := ⟨0, some 0⟩ } }, []⟩ (.call q :: as)
      ↔ NeverBare w ⟨{ c.st with tls := t }, []⟩
        ⟨{ c.st with tls := { t with current := ⟨0, some 0⟩ } }, []⟩ (.call q :: as) := by
  refine sameRun_iff ?_ ⟨rfl, true, ?_, .nil _⟩
  · exact
      { tree := h.wf.tree
        heap := h.wf.heap
        current := by simp [ht]
        stack := ⟨fun _ hf => (List.not_mem_nil hf).elim, .nil⟩ }
  · dsimp only
    rw [ht]
    exact .bare

end

/-- A thread as it starts. -/
def Tls.start : Tls :=
  { current := ⟨0, none⟩, loadingMod := none, pendingCtx := none, lastRan := 0
    lastRetbuf := List.replicate xyMaxRetSize 0, lastRetp := .null }

/-- In a new runtime, a thread loads a module, claims a region, enters the root
by name, and denies a hook there. -/
theorem sameRun_of_scope :
    SameRun sampleWorld ⟨{ (Config.boot sampleHook).st with tls := .start }, []⟩
      ⟨{ (Config.boot sampleHook).st with tls := { Tls.start with current := ⟨0, some 0⟩ } }, []⟩
      (.call (.load sampleFile) :: (loadRun sampleFile 1).tail
        ++ [.call (.withRegion 0 0 true), .call (.deny sampleHook .hook), .ret (.scoped xyOk),
          .call (.call none (some 7) false), .tau, .ret (.listened []), .tau]) :=
  (sameRun_of_bare (.start (Config.boot_initial sampleHook)) rfl _ _).mpr (by decide +kernel)

/-- The first call of a thread is `xy_deny`. -/
theorem not_sameRun_of_deny :
    ¬ ∀ (w : World) (c : Config) (t : Tls) (q : Call) (as : List Action), TurnReachable w c →
      t.current = ⟨0, none⟩ →
      SameRun w ⟨{ c.st with tls := t }, []⟩
        ⟨{ c.st with tls := { t with current := ⟨0, some 0⟩ } }, []⟩ (.call q :: as) := by
  intro hall
  have hrun := hall sampleWorld (Config.boot sampleHook) .start (.deny sampleHook .hook) []
    (.start (Config.boot_initial sampleHook)) rfl
  have hret : xyOk = xyErrNotfound := by
    simpa [SameRun, step, Config.waiting, beginCall, callDirect, xyDeny, Tls.start] using hrun.1
  exact absurd hret (by decide)

end Xylem
