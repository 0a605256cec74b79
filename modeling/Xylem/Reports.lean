import Xylem.LastReturn

/-!
# What calls report

The error code, the adapter of the last dispatch, the variables behind `xy_last`,
the buffers of the callers and the two fields that a dispatch stores into a
context are written by the host, and no decision of the host depends on them:
they are read by `xy_errno` and `xy_last` only (`Report`).

`StateAlike` relates two states that differ in these, and `step_alike` says that
the machine moves in lockstep from there.  The error code and the adapter are
those of the process.  `Foreign` notes whether they may differ; a step that
stores one of them makes it the same again.
-/

namespace Xylem

/-- What is written for the callers and the modules. -/
structure Report where
  err : Int
  adapter : Option AdapterRef
  lastRan : Nat
  lastRetbuf : List UInt8
  lastRetp : RetPtr
  mem : BufRef → List UInt8
  injected : CtxRef → Option AdapterRef × Option BlockRef

def State.report (s : State) : Report :=
  { err := s.err, adapter := s.adapter, lastRan := s.tls.lastRan, lastRetbuf := s.tls.lastRetbuf
    lastRetp := s.tls.lastRetp, mem := s.mem
    injected := fun c => ((s.ctxs c).adapter, (s.ctxs c).regionState) }

/-- The context with other values in the fields that a dispatch stores. -/
def Ctx.inject (x : Ctx) (p : Option AdapterRef × Option BlockRef) : Ctx :=
  { x with adapter := p.1, regionState := p.2 }

def State.withReport (s : State) (r : Report) : State :=
  { s with
    err := r.err
    adapter := r.adapter
    mem := r.mem
    ctxs := fun c => (s.ctxs c).inject (r.injected c)
    tls := { s.tls with
      lastRan := r.lastRan, lastRetbuf := r.lastRetbuf, lastRetp := r.lastRetp } }

/-- Whether the error code and the adapter of the process may be other ones in the
second run. -/
structure Foreign where
  err : Bool
  adapter : Bool

/-- What two runs have in common for a thread: what the thread has of its own
(`mine`), and the buffers of `own`. -/
structure Report.Agree (own : BufRef → Prop) (mine : Prop) (f : Foreign) (r r' : Report) :
    Prop where
  err : f.err = false → r'.err = r.err
  adapter : f.adapter = false → r'.adapter = r.adapter
  mem : ∀ b, own b → r'.mem b = r.mem b
  ran : mine → r'.lastRan = r.lastRan
  retbuf : mine → r'.lastRetbuf = r.lastRetbuf
  retp : mine → r'.lastRetp = r.lastRetp
  owned : mine → ∀ b, r.lastRetp = .buf b → own b

/-- Two states that differ in what has been reported. -/
structure StateAlike (own : BufRef → Prop) (mine : Prop) (f : Foreign) (s s' : State) : Prop where
  state : s' = s.withReport s'.report
  agree : s.report.Agree own mine f s'.report

structure Alike (own : BufRef → Prop) (mine : Prop) (f : Foreign) (c c' : Config) : Prop where
  stack : c'.stack = c.stack
  state : StateAlike own mine f c.st c'.st

/-- Whether the return of a call goes with the event. -/
def Event.returns : Event → Bool
  | .returned _ => true
  | _ => false

/-- What is left after a step that stores the error code when a call returns. -/
def Foreign.told (f : Foreign) (ev : Event) : Foreign :=
  { f with err := bif ev.returns then false else f.err }

/-- Two outcomes of which the second differs in what has been reported. -/
def OutcomeAlike (own : BufRef → Prop) (mine : Prop) (g : Event → Foreign) :
    Outcome → Outcome → Prop
  | .next c ev, .next c' ev' => ev' = ev ∧ Alike own mine (g ev) c c'
  | .undef, .undef => True
  | .disabled, .disabled => True
  | _, _ => False

section

variable {w : World} {own : BufRef → Prop} {mine : Prop} {f f' : Foreign} {r r' : Report}
  {s s' : State} {k : List Frame} {a : Action}

@[simp] theorem State.report_withReport (s : State) (r : Report) : (s.withReport r).report = r := rfl
@[simp] theorem State.withReport_rt (s : State) (r : Report) : (s.withReport r).rt = s.rt := rfl
@[simp] theorem State.withReport_strs (s : State) (r : Report) : (s.withReport r).strs = s.strs :=
  rfl
@[simp] theorem State.withReport_adapters (s : State) (r : Report) :
    (s.withReport r).adapters = s.adapters := rfl
@[simp] theorem State.withReport_current (s : State) (r : Report) :
    (s.withReport r).tls.current = s.tls.current := rfl
@[simp] theorem State.withReport_path (s : State) (r : Report) (c : CtxRef) :
    ((s.withReport r).ctxs c).modulePath = (s.ctxs c).modulePath := rfl
@[simp] theorem State.withReport_regionId (s : State) (r : Report) (c : CtxRef) :
    ((s.withReport r).ctxs c).regionId = (s.ctxs c).regionId := rfl

theorem StateAlike.of_eq (hs : s' = s.withReport r) (h : s.report.Agree own mine f r) :
    StateAlike own mine f s s' := by
  subst hs
  exact ⟨rfl, h⟩

/-- A write to a context that leaves what a dispatch has stored there. -/
theorem withReport_ctxs (ctxs : CtxRef → Ctx) (p : CtxRef → Option AdapterRef × Option BlockRef)
    (c : CtxRef) (x : Ctx) :
    Function.update (fun c => (ctxs c).inject (p c)) c (x.inject (p c))
      = fun c' => (Function.update ctxs c x c').inject (p c') := by
  funext c'
  by_cases h : c' = c
  · subst h
    simp only [Function.update_self]
  · simp only [Function.update_of_ne h]

/-! ## Reports -/

theorem Report.Agree.mono (h : r.Agree own mine f r') (herr : f.err = true → f'.err = true)
    (hadapter : f.adapter = true → f'.adapter = true) : r.Agree own mine f' r' where
  err hf := h.err (by
    rw [Bool.eq_false_iff] at hf ⊢
    exact fun ht => hf (herr ht))
  adapter hf := h.adapter (by
    rw [Bool.eq_false_iff] at hf ⊢
    exact fun ht => hf (hadapter ht))
  mem := h.mem
  ran := h.ran
  retbuf := h.retbuf
  retp := h.retp
  owned := h.owned

theorem Report.Agree.setErr (h : r.Agree own mine f r') (n : Int) :
    Report.Agree own mine { f with err := false } { r with err := n } { r' with err := n } :=
  ⟨fun _ => rfl, h.adapter, h.mem, h.ran, h.retbuf, h.retp, h.owned⟩

theorem OutcomeAlike.imp {g g' : Event → Foreign} {o o' : Outcome}
    (h : OutcomeAlike own mine g o o')
    (herr : ∀ c ev, o = .next c ev → (g ev).err = true → (g' ev).err = true)
    (hadapter : ∀ c ev, o = .next c ev → (g ev).adapter = true → (g' ev).adapter = true) :
    OutcomeAlike own mine g' o o' := by
  cases o <;> cases o' <;> try exact h
  next c ev c' ev' =>
    obtain ⟨hev, hstack, hstate, hagree⟩ := h
    exact ⟨hev, hstack, hstate, hagree.mono (herr c ev rfl) (hadapter c ev rfl)⟩

theorem OutcomeAlike.mono {o o' : Outcome} (h : OutcomeAlike own mine f.told o o')
    (herr : f.err = true → f'.err = true) (hadapter : f.adapter = true → f'.adapter = true) :
    OutcomeAlike own mine f'.told o o' := by
  refine h.imp (fun c ev _ => ?_) fun _ _ _ => hadapter
  unfold Foreign.told
  cases ev.returns
  · exact herr
  · exact nofun

/-! ## Calls that report nothing on the way -/

theorem resume_alike (h : s.report.Agree own mine f r) (ret : Int) (k : List Frame) :
    OutcomeAlike own mine f.told (resume s ret k) (resume (s.withReport r) ret k) := by
  cases k with
  | nil => exact ⟨rfl, rfl, rfl, h.setErr ret⟩
  | cons g k =>
    cases g with
    | unload e children => exact ⟨rfl, rfl, rfl, h⟩
    | reload rl pc =>
      cases pc with
      | unloading | loading => exact ⟨rfl, rfl, rfl, h⟩
      | unloaded | loaded => exact ⟨rfl, rfl, rfl, h.setErr ret⟩
    | load | dispatch | scope | each => exact ⟨rfl, rfl, rfl, h.setErr ret⟩

theorem beginUnload_alike (h : s.report.Agree own mine f r) (fname : CStr) (id : RegionId)
    (plen : Nat) (k : List Frame) :
    OutcomeAlike own mine f.told (beginUnload w s fname id plen k)
      (beginUnload w (s.withReport r) fname id plen k) := by
  unfold beginUnload
  rw [State.withReport_rt]
  split
  · exact (resume_alike (s := s.setErr xyErrNotfound) (h.setErr _) _ _).mono nofun fun hf => hf
  · next e he =>
    split
    · trivial
    · dsimp only
      split
      · exact resume_alike (s := s.release e) h _ _
      · exact ⟨rfl, rfl, rfl, h⟩

theorem tauUnload_alike (h : s.report.Agree own mine f r) (e : EntryRef)
    (children : List EntryRef) :
    OutcomeAlike own mine f.told (tauUnload w s k e children)
      (tauUnload w (s.withReport r) k e children) := by
  cases children with
  | nil =>
    unfold tauUnload
    dsimp only
    rw [State.withReport_rt]
    cases s.rt.mods e with
    | none => trivial
    | some me =>
      dsimp only
      have hfinish : modUnloadFinish w (s.withReport r) e me
          = (modUnloadFinish w s e me).withReport r
          ∧ (modUnloadFinish w s e me).report = s.report := by
        unfold modUnloadFinish moduleCleanupRegionState
        split <;> exact ⟨rfl, rfl⟩
      rw [hfinish.1]
      exact resume_alike (hfinish.2.symm ▸ h) _ _
  | cons child rest =>
    unfold tauUnload
    dsimp only
    rw [State.withReport_rt]
    cases s.rt.mods child with
    | none => trivial
    | some me =>
      dsimp only
      rw [show me.ctx.bind (fun c => ((s.withReport r).ctxs c).modulePath)
        = me.ctx.bind fun c => (s.ctxs c).modulePath from rfl]
      cases me.ctx.bind fun c => (s.ctxs c).modulePath with
      | none => exact ⟨rfl, rfl, rfl, h⟩
      | some p =>
        dsimp only
        rw [State.withReport_strs]
        cases s.strs p with
        | none => trivial
        | some path => exact beginUnload_alike h path _ _ _

theorem beginReload_alike (h : s.report.Agree own mine f r) (fname : CStr) (k : List Frame) :
    OutcomeAlike own mine f.told (beginReload w s fname k) (beginReload w (s.withReport r) fname k) := by
  unfold beginReload
  dsimp only
  rw [State.withReport_rt, show (s.withReport r).regionCurrentPlen = s.regionCurrentPlen from rfl,
    State.withReport_current]
  split
  · exact ⟨rfl, rfl, rfl, h.setErr _⟩
  · next e he =>
    split
    · trivial
    · exact beginUnload_alike h _ _ _ _

theorem tauReload_alike (h : s.report.Agree own mine f r) (rl : Reload) (pc : ReloadPc) :
    OutcomeAlike own mine f.told (tauReload w s k rl pc) (tauReload w (s.withReport r) k rl pc) := by
  cases pc with
  | unloading | loading => trivial
  | unloaded ret =>
    unfold tauReload
    dsimp only
    split
    · exact ⟨rfl, rfl, rfl, h⟩
    · exact ⟨rfl, rfl, rfl, h.setErr _⟩
  | loaded ret =>
    unfold tauReload
    dsimp only
    rw [State.withReport_rt]
    split
    · split
      · next e r' he hre =>
        cases reinsert s.rt r' e rl.insertAfter with
        | none => trivial
        | some rt => exact ⟨rfl, rfl, rfl, h.setErr _⟩
      · exact ⟨rfl, rfl, rfl, h.setErr _⟩
    · exact ⟨rfl, rfl, rfl, h.setErr _⟩

/-! ## Loads -/

variable {tx : LoadTxn}

theorem modLoadBindXy_alike (h : s.report.Agree own mine f r) (tx : LoadTxn) :
    (modLoadBindXy w (s.withReport r) tx).2 = (modLoadBindXy w s tx).2
      ∧ StateAlike own mine f (modLoadBindXy w s tx).1 (modLoadBindXy w (s.withReport r) tx).1 := by
  unfold modLoadBindXy
  dsimp only
  rw [show modLoadCtx w (s.withReport r) tx = modLoadCtx w s tx from rfl]
  split
  · next c e _ _ =>
    split
    · exact ⟨rfl, rfl, (h.setErr _).mono nofun fun hf => hf⟩
    · refine ⟨rfl, .of_eq (r := r) ?_ ⟨h.err, h.adapter, h.mem, h.ran, h.retbuf, h.retp, h.owned⟩⟩
      refine (State.mk.injEq ..).mpr ⟨rfl, rfl, rfl, rfl, ?_, rfl, rfl, rfl, rfl, rfl⟩
      exact withReport_ctxs s.ctxs r.injected c
        (xyInit (s.ctxs c) tx.stableFname tx.inheritedRegionId)
  · exact ⟨rfl, rfl, h⟩

theorem moduleRekeyForClaim_alike (h : s.report.Agree own mine f r) (caller : CStr)
    (pk ck : RegionKey) :
    StateAlike own mine f (moduleRekeyForClaim w s caller pk ck)
      (moduleRekeyForClaim w (s.withReport r) caller pk ck) := by
  unfold moduleRekeyForClaim
  dsimp only
  rw [State.withReport_rt]
  split
  · exact ⟨rfl, h⟩
  · next e he =>
    refine .of_eq (r := r) ?_ ?_
    · refine (State.mk.injEq ..).mpr ⟨rfl, rfl, rfl, rfl, ?_, rfl, rfl, rfl, rfl, rfl⟩
      cases (s.rt.mods e).bind (·.ctx) with
      | none => rfl
      | some c => exact withReport_ctxs s.ctxs r.injected c { s.ctxs c with regionId := ck.id }
    · exact ⟨h.err, h.adapter, h.mem, h.ran, h.retbuf, h.retp, h.owned⟩

theorem modLoadAbort_alike (h : s.report.Agree own mine f r) (err : Int) :
    OutcomeAlike own mine f.told
      (match modLoadAbort w s tx with
        | none => .undef
        | some s => resume s err k)
      (match modLoadAbort w (s.withReport r) tx with
        | none => .undef
        | some s => resume s err k) := by
  have hfree : modLoadFreeFname (modLoadRestoreContext (s.withReport r) tx) tx
        = (modLoadFreeFname (modLoadRestoreContext s tx) tx).withReport r
      ∧ (modLoadFreeFname (modLoadRestoreContext s tx) tx).report = s.report := by
    unfold modLoadFreeFname modLoadRestoreContext
    split <;> split <;> exact ⟨rfl, rfl⟩
  unfold modLoadAbort
  rw [hfree.1]
  replace h := hfree.2.symm ▸ h
  generalize modLoadFreeFname (modLoadRestoreContext s tx) tx = s₁ at h
  dsimp only
  cases tx.modEntry with
  | none => exact resume_alike h _ _
  | some e =>
    dsimp only
    rw [State.withReport_rt]
    cases s₁.rt.mods e with
    | none => trivial
    | some me =>
      dsimp only
      unfold moduleCleanupRegionState
      split
      · exact resume_alike (s := { s₁ with
          cleanups := _, rt := s₁.rt.abortEntry w e me tx.publishedEntry }) h _ _
      · exact resume_alike (s := { s₁ with rt := s₁.rt.abortEntry w e me tx.publishedEntry }) h _ _

/-- One move of the host in a load.  When the entry has been re-keyed, the error
code is stored. -/
theorem tauLoad_alike (h : s.report.Agree own mine f r) (pc : LoadPc) :
    OutcomeAlike own mine
      (Foreign.told { f with err := match pc with | .rekey _ => false | _ => f.err })
      (tauLoad w s k tx pc) (tauLoad w (s.withReport r) k tx pc) := by
  cases pc with
  | opening | handler | installing => trivial
  | opened =>
    unfold tauLoad
    dsimp only
    cases tx.lookup.entry with
    | none => exact ⟨rfl, rfl, rfl, h⟩
    | some e =>
      dsimp only
      rw [State.withReport_rt]
      cases s.rt.mods e with
      | none => trivial
      | some me => exact resume_alike (s := modLoadReuse s e) h _ _
  | bind =>
    unfold tauLoad
    dsimp only
    obtain ⟨hret, hstate⟩ := modLoadBindXy_alike (w := w) h tx
    rw [hret]
    exact ⟨rfl, rfl, hstate⟩
  | claim =>
    unfold tauLoad
    dsimp only
    rw [show modLoadClaimGate w (modLoadEnterContext (s.withReport r) tx).1
        (modLoadEnterContext (s.withReport r) tx).2
      = modLoadClaimGate w (modLoadEnterContext s tx).1 (modLoadEnterContext s tx).2 from rfl]
    cases modLoadClaimGate w (modLoadEnterContext s tx).1 (modLoadEnterContext s tx).2 with
    | flat => exact ⟨rfl, rfl, rfl, h⟩
    | refuse err => exact ⟨rfl, rfl, rfl, (h.setErr err).mono nofun fun hf => hf⟩
    | ask parent fn bits => exact ⟨rfl, rfl, rfl, h⟩
  | rekey child =>
    unfold tauLoad
    dsimp only
    rw [State.withReport_rt]
    cases tx.modEntry.bind s.rt.mods with
    | none => trivial
    | some me =>
      obtain ⟨hstate, hagree⟩ :=
        moduleRekeyForClaim_alike (w := w) h tx.fname tx.inheritedKey child
      refine ⟨rfl, rfl, ?_, hagree.setErr xyOk⟩
      exact congrArg (State.setErr · xyOk) hstate
  | link =>
    unfold tauLoad
    dsimp only
    cases tx.modEntry with
    | none => trivial
    | some e =>
      dsimp only
      rw [State.withReport_rt]
      cases s.rt.mods e with
      | none => trivial
      | some me => exact ⟨rfl, rfl, rfl, h⟩
  | install =>
    unfold tauLoad
    dsimp only
    cases tx.modEntry with
    | none => trivial
    | some e =>
      dsimp only
      cases w.dlsym tx.handle .xyInstall with
      | none => exact ⟨rfl, rfl, rfl, h⟩
      | some a => exact ⟨rfl, rfl, rfl, h⟩
  | aborting err => exact modLoadAbort_alike h err

theorem retDlopen_alike (h : s.report.Agree own mine f r) (handle : Option Handle) :
    OutcomeAlike own mine f.told (retDlopen s k tx handle)
      (retDlopen (s.withReport r) k tx handle) := by
  cases handle with
  | none =>
    exact (resume_alike (s := s.setErr xyErrNotfound) (h.setErr _) _ _).mono nofun fun hf => hf
  | some x => exact ⟨rfl, rfl, rfl, h⟩

theorem retHandler_alike (h : s.report.Agree own mine f r) (parent : RegionRef) (ret : Int)
    (bits : Nat) :
    OutcomeAlike own mine f.told (retHandler s k tx parent ret bits)
      (retHandler (s.withReport r) k tx parent ret bits) := by
  have hfail : ∀ err, OutcomeAlike own mine f.told
      (.next ⟨s.setErr err, .load tx (.aborting err) :: k⟩ .internal)
      (.next ⟨(s.withReport r).setErr err, .load tx (.aborting err) :: k⟩ .internal) := fun err =>
    ⟨rfl, rfl, rfl, (h.setErr err).mono nofun fun hf => hf⟩
  unfold retHandler xyClaimGranted
  dsimp only
  rw [State.withReport_rt]
  by_cases hret : ret ≠ xyOk
  · rw [if_pos hret, if_pos hret]
    exact hfail _
  · rw [if_neg hret, if_neg hret]
    by_cases hbits : bits = 0 ∨ bits > 64
    · rw [if_pos hbits, if_pos hbits]
      exact hfail _
    · rw [if_neg hbits, if_neg hbits]
      by_cases hslot : s.rt.regionAllocSlot parent bits = xyRegionInvalid
      · rw [if_pos hslot, if_pos hslot]
        exact hfail _
      · rw [if_neg hslot, if_neg hslot]
        exact ⟨rfl, rfl, rfl, h⟩

theorem retInstall_alike (h : s.report.Agree own mine f r) (prev : Option EntryRef) :
    OutcomeAlike own mine f.told (retInstall s k tx prev)
      (retInstall (s.withReport r) k tx prev) := by
  unfold retInstall modLoadRestoreContext
  split
  · exact resume_alike (s := ({ s with tls := { s.tls with loadingMod := prev } } :
      State).setCurrentRegion tx.prevRegion) h _ _
  · exact resume_alike (s := { s with tls := { s.tls with loadingMod := prev } }) h _ _

/-! ## Dispatches -/

/-- A store through a `void *` that may be NULL. -/
def Report.writeBuf (r : Report) (p : Option BufRef) (bytes : List UInt8) : Report :=
  match p with
  | none => r
  | some b => { r with mem := Function.update r.mem b (overwrite (r.mem b) bytes) }

theorem State.writeBuf_withReport (s : State) (r : Report) (p : Option BufRef)
    (bytes : List UInt8) :
    (s.withReport r).writeBuf p bytes = (s.writeBuf p bytes).withReport (r.writeBuf p bytes)
      ∧ (s.writeBuf p bytes).report = s.report.writeBuf p bytes := by
  cases p <;> exact ⟨rfl, rfl⟩

theorem Report.Agree.writeBuf (h : r.Agree own mine f r') (p : Option BufRef)
    (bytes : List UInt8) : (r.writeBuf p bytes).Agree own mine f (r'.writeBuf p bytes) := by
  cases p with
  | none => exact h
  | some b =>
    refine ⟨h.err, h.adapter, fun x hx => ?_, h.ran, h.retbuf, h.retp, h.owned⟩
    show Function.update r'.mem b _ x = Function.update r.mem b _ x
    by_cases hxb : x = b
    · subst hxb
      rw [Function.update_self, Function.update_self, h.mem x hx]
    · rw [Function.update_of_ne hxb, Function.update_of_ne hxb, h.mem x hx]

/-- `xy_set_last_ret`. -/
def Report.setLastRet (r : Report) (p : Option BufRef) (size : Nat) : Report :=
  match p with
  | some b =>
    if size = 0 then { r with lastRetp := .null }
    else
      { r with
        lastRetbuf := overwrite r.lastRetbuf (if size ≤ 8 then
          overwrite (List.replicate 8 0) ((r.mem b).take size) else (r.mem b).take size)
        lastRetp := .lastRetbuf }
  | none => { r with lastRetp := .null }

theorem State.setLastRet_withReport (s : State) (r : Report) (p : Option BufRef) (size : Nat) :
    (s.withReport r).setLastRet p size = (s.setLastRet p size).withReport (r.setLastRet p size)
      ∧ (s.setLastRet p size).report = s.report.setLastRet p size := by
  unfold State.setLastRet Report.setLastRet
  cases p with
  | none => exact ⟨rfl, rfl⟩
  | some b =>
    dsimp only
    split <;> exact ⟨rfl, rfl⟩

theorem Report.Agree.setLastRet (h : r.Agree own mine f r') {p : Option BufRef}
    (hp : mine → ∀ b ∈ p, own b) (size : Nat) :
    (r.setLastRet p size).Agree own mine f (r'.setLastRet p size) := by
  cases p with
  | none =>
    exact ⟨h.err, h.adapter, h.mem, h.ran, h.retbuf, fun _ => rfl, fun _ b hb => by cases hb⟩
  | some b =>
    unfold Report.setLastRet
    dsimp only
    split
    · exact ⟨h.err, h.adapter, h.mem, h.ran, h.retbuf, fun _ => rfl, fun _ b hb => by cases hb⟩
    · refine ⟨h.err, h.adapter, h.mem, h.ran, fun hm => ?_, fun _ => rfl, fun _ b hb => by cases hb⟩
      dsimp only
      rw [h.retbuf hm, h.mem b (hp hm b rfl)]

theorem Report.Agree.setRan (h : r.Agree own mine f r') (n : Nat) :
    Report.Agree own mine f { r with lastRan := n } { r' with lastRan := n } :=
  ⟨h.err, h.adapter, h.mem, fun _ => rfl, h.retbuf, h.retp, h.owned⟩

/-- `xy_last_publish`. -/
theorem Report.Agree.publish (h : r.Agree own mine f r') (n : Nat) {p : Option BufRef}
    (hp : mine → ∀ b ∈ p, own b) (reg : AdapterRef) :
    Report.Agree own mine { f with adapter := false }
      { r with lastRan := n, adapter := some reg, lastRetp := .ofBuf p }
      { r' with lastRan := n, adapter := some reg, lastRetp := .ofBuf p } := by
  refine ⟨h.err, fun _ => rfl, h.mem, fun _ => rfl, h.retbuf, fun _ => rfl, fun hm b hb => ?_⟩
  cases p with
  | none => cases hb
  | some b' =>
    cases hb
    exact hp hm b rfl

theorem StateAlike.writeBuf (h : StateAlike own mine f s s') (p : Option BufRef)
    (bytes : List UInt8) : StateAlike own mine f (s.writeBuf p bytes) (s'.writeBuf p bytes) := by
  obtain ⟨hs, ha⟩ := h
  generalize s'.report = r at hs ha
  subst hs
  obtain ⟨hwrite, hreport⟩ := State.writeBuf_withReport s r p bytes
  exact .of_eq hwrite (hreport.symm ▸ ha.writeBuf p bytes)

theorem StateAlike.setLastRet (h : StateAlike own mine f s s') {p : Option BufRef}
    (hp : mine → ∀ b ∈ p, own b) (size : Nat) :
    StateAlike own mine f (s.setLastRet p size) (s'.setLastRet p size) := by
  obtain ⟨hs, ha⟩ := h
  generalize s'.report = r at hs ha
  subst hs
  obtain ⟨hset, hreport⟩ := State.setLastRet_withReport s r p size
  exact .of_eq hset (hreport.symm ▸ ha.setLastRet hp size)

theorem StateAlike.setErr (h : StateAlike own mine f s s') (n : Int) :
    StateAlike own mine { f with err := false } (s.setErr n) (s'.setErr n) :=
  ⟨congrArg (State.setErr · n) h.state, h.agree.setErr n⟩

theorem dispatchFail_alike (h : s.report.Agree own mine f r) (retp : Option BufRef)
    (reg : AdapterRef) (err : Int) :
    StateAlike own mine ⟨false, false⟩ (dispatchFail s retp reg err).1
      (dispatchFail (s.withReport r) retp reg err).1 := by
  have hran : StateAlike own mine f { s with tls := { s.tls with lastRan := 0 } }
      { s.withReport r with tls := { (s.withReport r).tls with lastRan := 0 } } :=
    ⟨rfl, h.setRan 0⟩
  obtain ⟨hs, ha⟩ := (hran.setLastRet (p := none) (fun _ _ hb => by cases hb)
    (s.adapters reg).retSize).writeBuf retp (List.replicate (s.adapters reg).retSize 0)
  refine ⟨congrArg (fun s : State => { s with adapter := some reg, err := err }) hs, ?_⟩
  exact ⟨fun _ => rfl, fun _ => rfl, ha.mem, ha.ran, ha.retbuf, ha.retp, ha.owned⟩

theorem dispatchEnd_alike (h : s.report.Agree own mine f r) {retp : Option BufRef}
    (hp : mine → ∀ b ∈ retp, own b) (reg : AdapterRef) (ran : Nat) :
    (dispatchEnd (s.withReport r) retp reg ran).2 = (dispatchEnd s retp reg ran).2
      ∧ StateAlike own mine { f with err := false } (dispatchEnd s retp reg ran).1
        (dispatchEnd (s.withReport r) retp reg ran).1 := by
  have hran : StateAlike own mine f { s with tls := { s.tls with lastRan := ran } }
      { s.withReport r with tls := { (s.withReport r).tls with lastRan := ran } } :=
    ⟨rfl, h.setRan ran⟩
  unfold dispatchEnd
  dsimp only
  split
  · exact ⟨rfl, ((hran.setLastRet (p := none) (fun _ _ hb => by cases hb) _).writeBuf retp
      _).setErr _⟩
  · exact ⟨rfl, (hran.setLastRet hp _).setErr _⟩

/-- A dispatch that ends. -/
theorem OutcomeAlike.dispatchEnd (h : s.report.Agree own mine f r) {retp : Option BufRef}
    (hp : mine → ∀ b ∈ retp, own b) (reg : AdapterRef) (ran : Nat) :
    OutcomeAlike own mine f.told
      (match Xylem.dispatchEnd s retp reg ran with
        | (s, ret) => .next ⟨s, k⟩ (.returned (.int ret)))
      (match Xylem.dispatchEnd (s.withReport r) retp reg ran with
        | (s, ret) => .next ⟨s, k⟩ (.returned (.int ret))) := by
  obtain ⟨hret, hstate⟩ := dispatchEnd_alike h hp reg ran
  exact ⟨congrArg (fun n => Event.returned (.int n)) hret, rfl, hstate⟩

theorem injectCtx_alike (h : s.report.Agree own mine f r) (c : CtxRef) (reg : AdapterRef)
    (me : ModEntry) :
    StateAlike own mine f (injectCtx s c reg me) (injectCtx (s.withReport r) c reg me) := by
  let p : Option AdapterRef × Option BlockRef := (some reg, me.regionState)
  refine .of_eq (r := { r with injected := Function.update r.injected c p }) ?_
    ⟨h.err, h.adapter, h.mem, h.ran, h.retbuf, h.retp, h.owned⟩
  refine (State.mk.injEq ..).mpr ⟨rfl, rfl, rfl, rfl, ?_, rfl, rfl, rfl, rfl, rfl⟩
  funext x
  show Function.update (fun x => (s.ctxs x).inject (r.injected x)) c ((s.ctxs c).inject p) x
    = (Function.update s.ctxs c ((s.ctxs c).inject p) x).inject (Function.update r.injected c p x)
  by_cases hx : x = c
  · subst hx
    simp only [Function.update_self]
    rfl
  · simp only [Function.update_of_ne hx]

theorem tauSelf_alike (h : s.report.Agree own mine f r) (d : Dispatch)
    (hp : mine → ∀ b ∈ d.retp, own b) :
    OutcomeAlike own mine f.told (tauSelf w s k d) (tauSelf w (s.withReport r) k d) := by
  unfold tauSelf
  cases d.me with
  | none => exact .dispatchEnd h hp d.reg d.ran
  | some e =>
    dsimp only
    rw [State.withReport_rt]
    cases s.rt.mods e with
    | none => trivial
    | some me =>
      dsimp only
      cases me.ctx with
      | none => exact ⟨rfl, rfl, rfl, h⟩
      | some c =>
        dsimp only
        split
        · exact ⟨rfl, rfl, rfl, h⟩
        · split
          · exact ⟨rfl, rfl, injectCtx_alike (s := { s with
              rt := s.rt.modifyMod e fun _ => me.resolved w d.hookId d.name }) h c d.reg _⟩
          · exact ⟨rfl, rfl, rfl, h⟩

theorem tauSubtree_alike (h : s.report.Agree own mine f r) (d : Dispatch)
    (hp : mine → ∀ b ∈ d.retp, own b) :
    OutcomeAlike own mine f.told (tauSubtree s k d) (tauSubtree (s.withReport r) k d) := by
  unfold tauSubtree
  dsimp only
  rw [State.withReport_rt]
  split
  · split
    · cases (s.rt.hookVec d.caller d.hookId).cells[d.mi]? with
      | none => trivial
      | some slot =>
        dsimp only
        cases s.rt.mods slot.me with
        | none => trivial
        | some me =>
          dsimp only
          cases me.ctx with
          | none => exact ⟨rfl, rfl, rfl, h⟩
          | some c =>
            dsimp only
            split
            · exact ⟨rfl, rfl, rfl, h⟩
            · obtain ⟨hs, ha⟩ := injectCtx_alike h c d.reg me
              generalize injectCtx s c d.reg me = s₁ at hs ha
              generalize injectCtx (s.withReport r) c d.reg me = s₂ at hs ha
              generalize s₂.report = r₂ at hs ha
              subst hs
              unfold Dispatch.switch
              dsimp only
              split <;> exact ⟨rfl, rfl, rfl, ha⟩
    · trivial
  · exact .dispatchEnd h hp d.reg d.ran

theorem retListener_alike (h : s.report.Agree own mine f r) (d : Dispatch)
    (hp : mine → ∀ b ∈ d.retp, own b) (e : EntryRef) (bytes : List UInt8) :
    OutcomeAlike own mine (Foreign.told { f with adapter := false }) (retListener s k d e bytes)
      (retListener (s.withReport r) k d e bytes) := by
  obtain ⟨hwrite, hreport⟩ := State.writeBuf_withReport s r d.retp bytes
  have ha := hreport.symm ▸ h.writeBuf d.retp bytes
  unfold retListener
  dsimp only
  rw [hwrite]
  generalize s.writeBuf d.retp bytes = s₁ at ha
  generalize r.writeBuf d.retp bytes = r₁ at ha
  split
  · rw [show ((s₁.withReport r₁).lastPublish (d.ran + 1) d.retp d.reg).rt = s₁.rt from rfl,
      show (s₁.lastPublish (d.ran + 1) d.retp d.reg).rt = s₁.rt from rfl]
    cases s₁.rt.mods e with
    | none => trivial
    | some me => exact ⟨rfl, rfl, rfl, ha.publish (d.ran + 1) hp d.reg⟩
  · refine ⟨rfl, rfl, ?_⟩
    split <;> exact ⟨rfl, ha.publish (d.ran + 1) hp d.reg⟩

/-- Two starts of a dispatch of which the second differs in what has been
reported. -/
def StartAlike (own : BufRef → Prop) (mine : Prop) (f : Foreign) :
    Option DispatchStart → Option DispatchStart → Prop
  | some (.done s ret), some (.done s' ret') =>
    ret' = ret ∧ StateAlike own mine { f with err := false } s s'
  | some (.loop s d), some (.loop s' d') => d' = d ∧ StateAlike own mine f s s'
  | none, none => True
  | _, _ => False

/-- Where `xy_call` is after the start of its dispatch. -/
def startOutcome (k : List Frame) : Option DispatchStart → Outcome
  | none => .undef
  | some (.done s ret) => .next ⟨s, k⟩ (.returned (.int ret))
  | some (.loop s d) => .next ⟨s, .dispatch d none :: k⟩ .internal

theorem StartAlike.outcome {o o' : Option DispatchStart} (h : StartAlike own mine f o o') :
    OutcomeAlike own mine f.told (startOutcome k o) (startOutcome k o') := by
  rcases o with _ | ⟨s, ret⟩ | ⟨s, d⟩ <;> rcases o' with _ | ⟨s', ret'⟩ | ⟨s', d'⟩ <;>
    first | exact h.elim | skip
  · trivial
  · obtain ⟨rfl, hstate⟩ := h
    exact ⟨rfl, rfl, hstate⟩
  · obtain ⟨rfl, hstate⟩ := h
    exact ⟨rfl, rfl, hstate⟩

theorem dispatchScope_alike (h : s.report.Agree own mine f r) (d : Dispatch) :
    StartAlike own mine f (dispatchScope w s d) (dispatchScope w (s.withReport r) d) := by
  unfold dispatchScope
  rw [State.withReport_rt]
  split
  · exact ⟨rfl, rfl, h⟩
  · cases s.rt.prepareVec w d.caller d.hookId d.name d.anc with
    | none => trivial
    | some rt => exact ⟨rfl, rfl, h⟩

theorem dispatchResolved_alike (h : s.report.Agree own mine f r) {retp : Option BufRef}
    (hp : mine → ∀ b ∈ retp, own b) (reg : AdapterRef) (x : Adapter) (selfOnly : Bool) :
    StartAlike own mine { f with adapter := false } (dispatchResolved w s retp reg x selfOnly)
      (dispatchResolved w (s.withReport r) retp reg x selfOnly) := by
  have hpublish : (s.lastPublish 0 retp reg).report.Agree own mine { f with adapter := false }
      ((s.withReport r).lastPublish 0 retp reg).report := h.publish 0 hp reg
  unfold dispatchResolved
  dsimp only
  rw [show (s.withReport r).callerRegion = s.callerRegion from rfl, State.withReport_rt,
    show ((s.withReport r).lastPublish 0 retp reg).callerRegion
      = (s.lastPublish 0 retp reg).callerRegion from rfl]
  split
  · obtain ⟨hs, ha⟩ := dispatchFail_alike h retp reg xyErrEperm
    exact ⟨rfl, hs, ha.mono nofun nofun⟩
  · cases (s.lastPublish 0 retp reg).callerRegion with
    | none =>
      obtain ⟨hret, hstate⟩ := dispatchEnd_alike hpublish hp reg 0
      exact ⟨hret, hstate⟩
    | some caller => exact dispatchScope_alike hpublish _

/-- The start of a dispatch.  One without an adapter leaves that of the process. -/
theorem dispatchBegin_alike (h : s.report.Agree own mine f r) {retp : Option BufRef}
    (hp : mine → ∀ b ∈ retp, own b) (regp : Option AdapterRef) (selfOnly : Bool) :
    StartAlike own mine { f with adapter := bif regp.isSome then false else f.adapter }
      (dispatchBegin w s retp regp selfOnly)
      (dispatchBegin w (s.withReport r) retp regp selfOnly) := by
  unfold dispatchBegin
  cases regp with
  | none => exact ⟨rfl, rfl, h.setErr _⟩
  | some reg =>
    have hfail : ∀ {s : State} {r : Report} (err : Int), s.report.Agree own mine f r →
        StartAlike own mine { f with adapter := false }
          (some (.done (dispatchFail s retp reg err).1 err))
          (some (.done (dispatchFail (s.withReport r) retp reg err).1 err)) := fun err h => by
      obtain ⟨hs, ha⟩ := dispatchFail_alike h retp reg err
      exact ⟨rfl, hs, ha.mono nofun nofun⟩
    dsimp only
    rw [show resolveAdapter (s.withReport r) ((s.withReport r).adapters reg)
      = resolveAdapter s (s.adapters reg) from rfl]
    cases resolveAdapter s (s.adapters reg) with
    | none => exact hfail _ h
    | some x =>
      obtain ⟨x, call⟩ := x
      dsimp only
      split
      · exact hfail (s := { s with adapters := Function.update s.adapters reg x }) _ h
      · rw [show fallbackCall { s.withReport r with
            adapters := Function.update (s.withReport r).adapters reg x } x.hookId.toNat call
          = fallbackCall { s with adapters := Function.update s.adapters reg x } x.hookId.toNat call
          from rfl]
        split
        · exact hfail (s := { s with adapters := Function.update s.adapters reg x }) _ h
        · exact dispatchResolved_alike
            (s := { s with adapters := Function.update s.adapters reg x }) h hp reg x selfOnly

/-! ## The other calls -/

theorem beginScope_alike (h : s.report.Agree own mine f r) (id : RegionId) (plen : Nat)
    (hasFn : Bool) :
    OutcomeAlike own mine f.told (beginScope s k id plen hasFn)
      (beginScope (s.withReport r) k id plen hasFn) := by
  unfold beginScope
  split
  · rw [State.withReport_rt]
    cases s.rt.regionLookup id plen with
    | none => exact ⟨rfl, rfl, rfl, h.setErr _⟩
    | some target => exact ⟨rfl, rfl, rfl, h⟩
  · exact ⟨rfl, rfl, rfl, h.setErr _⟩

theorem visit_alike (h : s.report.Agree own mine f r) (child : Option RegionRef) :
    OutcomeAlike own mine f.told (visit s k child) (visit (s.withReport r) k child) := by
  cases child with
  | none => exact ⟨rfl, rfl, rfl, h.setErr _⟩
  | some child => exact ⟨rfl, rfl, rfl, h⟩

theorem beginEach_alike (h : s.report.Agree own mine f r) :
    OutcomeAlike own mine f.told (beginEach s k) (beginEach (s.withReport r) k) := by
  unfold beginEach
  rw [State.withReport_current]
  cases s.tls.current.entry with
  | none => exact ⟨rfl, rfl, rfl, h.setErr _⟩
  | some parent => exact visit_alike h _

theorem retVisit_alike (h : s.report.Agree own mine f r) (cursor : RegionRef) (ret : Int) :
    OutcomeAlike own mine f.told (retVisit s k cursor ret)
      (retVisit (s.withReport r) k cursor ret) := by
  unfold retVisit
  split
  · exact visit_alike h _
  · exact ⟨rfl, rfl, rfl, h.setErr _⟩

theorem xyShutdown_alike (h : s.report.Agree own mine f r) :
    StateAlike own mine ⟨false, false⟩ (xyShutdown w s) (xyShutdown w (s.withReport r)) := by
  have hfold : ∀ (l : List EntryRef) (s : State), s.report.Agree own mine f r →
      StateAlike own mine f
        (l.foldl (fun s e => (s.rt.mods e).elim s (moduleCleanupRegionState w s)) s)
        (l.foldl (fun s e => (s.rt.mods e).elim s (moduleCleanupRegionState w s))
          (s.withReport r)) := by
    intro l
    induction l with
    | nil => exact fun s h => ⟨rfl, h⟩
    | cons e l ih =>
      intro s h
      rw [List.foldl_cons, List.foldl_cons, State.withReport_rt]
      cases s.rt.mods e with
      | none => exact ih s h
      | some me =>
        have hclean : moduleCleanupRegionState w (s.withReport r) me
              = (moduleCleanupRegionState w s me).withReport r
            ∧ (moduleCleanupRegionState w s me).report = s.report := by
          unfold moduleCleanupRegionState
          split <;> exact ⟨rfl, rfl⟩
        show StateAlike own mine f (l.foldl _ (moduleCleanupRegionState w s me))
          (l.foldl _ (moduleCleanupRegionState w (s.withReport r) me))
        rw [hclean.1]
        exact ih _ (hclean.2.symm ▸ h)
  obtain ⟨hs, ha⟩ := hfold (s.rt.modHdValues w) s h
  refine ⟨congrArg (fun s : State => { s with
    rt := s.rt.bootstrap
    tls := { s.tls with current := ⟨0, some 0⟩, lastRan := 0, lastRetp := .null }
    adapter := none
    err := xyOk }) hs, ?_⟩
  exact ⟨fun _ => rfl, fun _ => rfl, ha.mem, fun _ => rfl, ha.retbuf, fun _ => rfl,
    fun _ b hb => by cases hb⟩

/-! ## What `xy_last` reads -/

/-- What `xy_last` copies. -/
def State.lastBytes (s : State) : List UInt8 :=
  match s.adapter with
  | none => []
  | some a =>
    if s.tls.lastRan = 0 then []
    else match s.tls.lastRetp with
      | .null => []
      | .lastRetbuf => s.tls.lastRetbuf.take (s.adapters a).retSize
      | .buf b => (s.mem b).take (s.adapters a).retSize

theorem State.writeBuf_nil (s : State) (p : Option BufRef) : s.writeBuf p [] = s := by
  cases p with
  | none => rfl
  | some b =>
    unfold State.writeBuf overwrite
    simp

/-- `xy_last` by what it copies. -/
theorem xyLast_eq (s : State) (ret : Option BufRef) :
    xyLast s ret = match s.adapter with
      | none => (s.setErr xyErrInvalid, xyErrInvalid)
      | some _ =>
        if s.tls.lastRan = 0 then (s.setErr xyErrNotfound, xyErrNotfound)
        else ((s.writeBuf ret s.lastBytes).setErr xyOk, xyOk) := by
  unfold xyLast State.lastBytes
  cases s.adapter with
  | none => rfl
  | some a =>
    dsimp only
    split
    · rfl
    · cases s.tls.lastRetp with
      | null => rw [State.writeBuf_nil]
      | lastRetbuf => rfl
      | buf b => rfl

/-- `xy_last` of the thread, when the adapter is its own. -/
theorem xyLast_alike (h : s.report.Agree own mine f r) (hmine : mine)
    (hclean : f.adapter = false) (ret : Option BufRef) :
    (s.withReport r).lastBytes = s.lastBytes
      ∧ (xyLast (s.withReport r) ret).2 = (xyLast s ret).2
      ∧ StateAlike own mine { f with err := false } (xyLast s ret).1
        (xyLast (s.withReport r) ret).1 := by
  have hadapter : (s.withReport r).adapter = s.adapter := h.adapter hclean
  have hran : (s.withReport r).tls.lastRan = s.tls.lastRan := h.ran hmine
  have hretp : (s.withReport r).tls.lastRetp = s.tls.lastRetp := h.retp hmine
  have hbytes : (s.withReport r).lastBytes = s.lastBytes := by
    unfold State.lastBytes
    rw [hadapter, hran, hretp, State.withReport_adapters]
    have hbuf : (s.withReport r).tls.lastRetbuf = s.tls.lastRetbuf := h.retbuf hmine
    have hmem : ∀ b, s.tls.lastRetp = .buf b → (s.withReport r).mem b = s.mem b :=
      fun b hb => h.mem b (h.owned hmine b hb)
    rw [hbuf]
    cases hp : s.tls.lastRetp with
    | null | lastRetbuf => rfl
    | buf b =>
      dsimp only
      rw [hmem b hp]
  rw [xyLast_eq, xyLast_eq, hadapter, hran, hbytes]
  have hwrite : StateAlike own mine f s (s.withReport r) := ⟨rfl, h⟩
  refine ⟨rfl, ?_⟩
  cases s.adapter with
  | none => exact ⟨rfl, hwrite.setErr _⟩
  | some a =>
    dsimp only
    split
    · exact ⟨rfl, hwrite.setErr _⟩
    · exact ⟨rfl, (hwrite.writeBuf ret _).setErr _⟩

/-- `xy_last` of another thread. -/
theorem xyLast_other (h : s.report.Agree own mine f r) (hother : ¬ mine) {ret : Option BufRef}
    (hret : ∀ b ∈ ret, ¬ own b) :
    StateAlike own mine { f with err := true } (xyLast s ret).1 (xyLast (s.withReport r) ret).1 := by
  have hplain : ∀ s : State, (xyLast s ret).1 = s.withReport (xyLast s ret).1.report
      ∧ (xyLast s ret).1.adapter = s.adapter ∧ ∀ b, own b → (xyLast s ret).1.mem b = s.mem b := by
    intro s
    rw [xyLast_eq]
    cases hs : s.adapter with
    | none => exact ⟨rfl, hs, fun _ _ => rfl⟩
    | some a =>
      dsimp only
      split
      · exact ⟨rfl, hs, fun _ _ => rfl⟩
      · cases ret with
        | none => exact ⟨rfl, hs, fun _ _ => rfl⟩
        | some b =>
          refine ⟨rfl, hs, fun x hx => ?_⟩
          exact Function.update_of_ne (fun heq : x = b => hret b rfl (heq ▸ hx)) _ _
  obtain ⟨hs, hadapter, hmem⟩ := hplain s
  obtain ⟨hs', hadapter', hmem'⟩ := hplain (s.withReport r)
  refine ⟨?_, nofun, fun hf => ?_, fun b hb => ?_, fun hm => absurd hm hother,
    fun hm => absurd hm hother, fun hm => absurd hm hother, fun hm => absurd hm hother⟩
  · conv_rhs => rw [hs]
    exact hs'
  · exact hadapter'.trans ((h.adapter hf).trans hadapter.symm)
  · exact (hmem' b hb).trans ((h.mem b hb).trans (hmem b hb).symm)

theorem xyDeny_alike (h : s.report.Agree own mine f r) (what : CStr) (type : DenyType) :
    (xyDeny w (s.withReport r) what type).2 = (xyDeny w s what type).2
      ∧ StateAlike own mine { f with err := false } (xyDeny w s what type).1
        (xyDeny w (s.withReport r) what type).1 := by
  unfold xyDeny
  rw [State.withReport_current]
  split <;> exact ⟨rfl, rfl, h.setErr _⟩

theorem xyRequireClaim_alike (h : s.report.Agree own mine f r) (fn : Option HandlerRef) :
    (xyRequireClaim (s.withReport r) fn).2 = (xyRequireClaim s fn).2
      ∧ StateAlike own mine { f with err := false } (xyRequireClaim s fn).1
        (xyRequireClaim (s.withReport r) fn).1 := by
  unfold xyRequireClaim
  rw [State.withReport_current]
  split <;> exact ⟨rfl, rfl, h.setErr _⟩

theorem xyClaimAt_alike (h : s.report.Agree own mine f r) (id : RegionId) (plen : Nat)
    (fn : Option HandlerRef) :
    (xyClaimAt (s.withReport r) id plen fn).2 = (xyClaimAt s id plen fn).2
      ∧ StateAlike own mine { f with err := false } (xyClaimAt s id plen fn).1
        (xyClaimAt (s.withReport r) id plen fn).1 := by
  unfold xyClaimAt
  rw [State.withReport_rt]
  split
  · exact ⟨rfl, rfl, h.setErr _⟩
  · split
    · exact ⟨rfl, rfl, h.setErr _⟩
    · split
      · exact ⟨rfl, rfl, h.setErr _⟩
      · split
        · exact ⟨rfl, rfl, h.setErr _⟩
        · dsimp only
          split <;> exact ⟨rfl, rfl, h.setErr _⟩

theorem xyRegionExists_alike (h : s.report.Agree own mine f r) (id : RegionId) (plen : Nat) :
    (xyRegionExists (s.withReport r) id plen).2 = (xyRegionExists s id plen).2
      ∧ StateAlike own mine { f with err := false } (xyRegionExists s id plen).1
        (xyRegionExists (s.withReport r) id plen).1 := by
  unfold xyRegionExists
  rw [State.withReport_rt]
  split <;> exact ⟨rfl, rfl, h.setErr _⟩

theorem xyRegionAt_alike (h : s.report.Agree own mine f r) (id : RegionId) (plen : Nat) :
    (xyRegionAt (s.withReport r) id plen).2 = (xyRegionAt s id plen).2
      ∧ StateAlike own mine { f with err := false } (xyRegionAt s id plen).1
        (xyRegionAt (s.withReport r) id plen).1 := by
  unfold xyRegionAt
  rw [State.withReport_rt]
  split
  · exact ⟨rfl, rfl, h.setErr _⟩
  · split <;> exact ⟨rfl, rfl, h.setErr _⟩

/-- Whether a call that returns at once stores the error code. -/
def State.callStores (s : State) : Call → Bool
  | .errno | .currentRegion | .selfInitCtx _ => false
  | .areg name reg =>
    decide (xyMaxRetSize < (s.adapters reg).retSize) || (s.rt.sicaHd.lookup name).isNone
  | _ => true

/-- `xy_areg` stores the error code unless it finds the name. -/
theorem xyAreg_alike (h : s.report.Agree own mine f r) (name : CStr) (reg : AdapterRef) :
    (xyAreg w (s.withReport r) name reg).2 = (xyAreg w s name reg).2
      ∧ StateAlike own mine { f with err := f.err && !s.callStores (.areg name reg) }
        (xyAreg w s name reg).1 (xyAreg w (s.withReport r) name reg).1 := by
  unfold xyAreg State.callStores
  rw [State.withReport_rt, State.withReport_adapters]
  split
  · exact ⟨rfl, rfl, (h.setErr _).mono nofun fun hf => hf⟩
  · next hsize =>
    split
    · next x hx =>
      refine ⟨rfl, rfl, h.mono (fun hf => ?_) fun hf => hf⟩
      show (f.err && !(decide _ || (s.rt.sicaHd.lookup name).isNone)) = true
      rw [hx, decide_eq_false hsize, hf]
      rfl
    · exact ⟨rfl, rfl, (h.setErr _).mono nofun fun hf => hf⟩

theorem callDirect_alike (h : s.report.Agree own mine f r) {q : Call} (herrno : q ≠ .errno)
    (hlast : ∀ ret, q ≠ .last ret) :
    OutcomeAlike own mine
      (fun _ => { f with err := f.err && !s.callStores q })
      (match callDirect w s q with
        | none => .disabled
        | some (s, v) => .next ⟨s, k⟩ (.returned v))
      (match callDirect w (s.withReport r) q with
        | none => .disabled
        | some (s, v) => .next ⟨s, k⟩ (.returned v)) := by
  have hstore : ∀ {s s' : State}, StateAlike own mine { f with err := false } s s' →
      StateAlike own mine { f with err := f.err && !true } s s' := fun h =>
    ⟨h.state, h.agree.mono nofun fun hf => hf⟩
  have hkeep : Report.Agree own mine { f with err := f.err && !false } s.report r :=
    h.mono (fun hf => by rw [hf]; rfl) fun hf => hf
  have hint : ∀ {n n' : Int}, n' = n → Event.returned (.int n') = .returned (.int n) :=
    fun heq => by rw [heq]
  cases q with
  | load | unload | reload | withRegion | regionEach | call | shutdown => trivial
  | errno => exact absurd rfl herrno
  | last ret => exact absurd rfl (hlast ret)
  | currentRegion | selfInitCtx => exact ⟨rfl, rfl, rfl, hkeep⟩
  | currentRegionPlen => exact ⟨rfl, rfl, hstore ⟨rfl, h.setErr _⟩⟩
  | deny what type =>
    obtain ⟨hret, hstate⟩ := xyDeny_alike (w := w) h what type
    exact ⟨hint hret, rfl, hstore hstate⟩
  | requireClaim fn =>
    obtain ⟨hret, hstate⟩ := xyRequireClaim_alike h fn
    exact ⟨hint hret, rfl, hstore hstate⟩
  | claimAt id plen fn =>
    obtain ⟨hret, hstate⟩ := xyClaimAt_alike h id plen fn
    exact ⟨hint hret, rfl, hstore hstate⟩
  | regionExists id plen =>
    obtain ⟨hret, hstate⟩ := xyRegionExists_alike h id plen
    exact ⟨hint hret, rfl, hstore hstate⟩
  | regionAt id plen =>
    obtain ⟨hret, hstate⟩ := xyRegionAt_alike h id plen
    exact ⟨congrArg (fun x : RegionId × Nat => Event.returned (.region x.1 x.2)) hret, rfl,
      hstore hstate⟩
  | areg name reg =>
    obtain ⟨hret, hstate⟩ := xyAreg_alike (w := w) h name reg
    exact ⟨congrArg (fun x => Event.returned (.hook x)) hret, rfl, hstate⟩

/-! ## Steps -/

/-- Whether a step stores the error code, apart from a call of `xy_last`. -/
def Config.storesErr (c : Config) (a : Action) (ev : Event) : Bool :=
  match a with
  | .call q => c.st.callStores q && ev.returns
  | .tau =>
    match c.stack with
    | .load _ (.rekey _) :: _ => true
    | _ => ev.returns
  | .ret _ => ev.returns

/-- Whether a step stores the adapter of the process. -/
def Action.setsAdapter : Action → Bool
  | .call (.call _ reg _) => reg.isSome
  | .call .shutdown => true
  | .ret (.listened _) => true
  | _ => false

/-- What may differ after a step of the thread `t`.  The answer of `xy_last` to
another thread may, and with it the error code. -/
def Foreign.after (t : Bool) (f : Foreign) (c : Config) (a : Action) (ev : Event) : Foreign where
  err :=
    match a with
    | .call (.last _) => !t
    | _ => f.err && !c.storesErr a ev
  adapter := f.adapter && !a.setsAdapter

section

variable {t : Bool} {c c' : Config}

/-- The thread's own dispatches have their buffers in `own`. -/
def Frame.Owned (own : BufRef → Prop) : Frame → Prop
  | .dispatch d _ => ∀ b ∈ d.retp, own b
  | _ => True

/-- A thread has its own buffers in `own`, and the other thread does not read its
last return into one of these. -/
def Action.Owned (own : BufRef → Prop) (t : Bool) : Action → Prop
  | .call (.call retp ..) => t = true → ∀ b ∈ retp, own b
  | .call (.last p) => t = false → ∀ b ∈ p, ¬ own b
  | _ => True

theorem Foreign.after_eq (t : Bool) (f : Foreign) (c : Config) {a : Action}
    (hlast : ∀ ret, a ≠ .call (.last ret)) (ev : Event) :
    f.after t c a ev = ⟨f.err && !c.storesErr a ev, f.adapter && !a.setsAdapter⟩ := by
  cases a with
  | tau | ret => rfl
  | call q =>
    cases q with
    | last ret => exact absurd rfl (hlast ret)
    | _ => rfl

/-- Where the error code is stored at a return at the earliest. -/
theorem OutcomeAlike.after {o o' : Outcome} (hlast : ∀ ret, a ≠ .call (.last ret))
    (hstores : ∀ ev, c.storesErr a ev = true → ev.returns = true)
    (h : OutcomeAlike own mine
      (Foreign.told { f with adapter := f.adapter && !a.setsAdapter }) o o') :
    OutcomeAlike own mine (f.after t c a) o o' := by
  refine h.imp (fun c' ev _ hf => ?_) fun c' ev _ hf => ?_ <;> rw [Foreign.after_eq t f c hlast]
  · have hs := hstores ev
    revert hf hs
    unfold Foreign.told
    cases ev.returns with
    | true => exact nofun
    | false =>
      intro hf hs
      rw [show f.err = true from hf, Bool.eq_false_iff.mpr fun h => nomatch hs h]
      rfl
  · exact hf

theorem OutcomeAlike.after_kept {o o' : Outcome} (hlast : ∀ ret, a ≠ .call (.last ret))
    (hadapter : a.setsAdapter = false) (hstores : ∀ ev, c.storesErr a ev = true → ev.returns = true)
    (h : OutcomeAlike own mine f.told o o') : OutcomeAlike own mine (f.after t c a) o o' := by
  refine OutcomeAlike.after hlast hstores (h.mono (fun hf => hf) fun hf => ?_)
  rw [hadapter, hf]
  rfl

theorem beginCall_alike (h : Alike own (t = true) f c c') {q : Call}
    (hq : Action.Owned own t (.call q)) (herrno : q ≠ .errno) (hlast : ∀ ret, q ≠ .last ret) :
    OutcomeAlike own (t = true) (f.after t c (.call q)) (beginCall w c q) (beginCall w c' q) := by
  obtain ⟨s, k⟩ := c
  obtain ⟨s', k'⟩ := c'
  obtain ⟨rfl, hs, ha⟩ := h
  dsimp only at hs ha
  generalize s'.report = r at hs ha
  subst hs
  have hlast' : ∀ ret, Action.call q ≠ .call (.last ret) := fun ret heq =>
    hlast ret (Action.call.inj heq)
  have hstores : ∀ ev, Config.storesErr ⟨s, k'⟩ (.call q) ev = true → ev.returns = true :=
    fun ev hev => ((Bool.and_eq_true _ _).mp hev).2
  have hdirect : (Action.call q).setsAdapter = false →
      OutcomeAlike own (t = true) (f.after t ⟨s, k'⟩ (.call q))
      (match callDirect w s q with
        | none => .disabled
        | some (s, v) => .next ⟨s, k'⟩ (.returned v))
      (match callDirect w (s.withReport r) q with
        | none => .disabled
        | some (s, v) => .next ⟨s, k'⟩ (.returned v)) := by
    intro hadapter
    refine (callDirect_alike ha herrno hlast).imp (fun c ev _ hf => ?_) fun c ev _ hf => ?_ <;>
      rw [Foreign.after_eq t f _ hlast']
    · have hf : (f.err && !s.callStores q) = true := hf
      rw [Bool.and_eq_true, Bool.not_eq_true'] at hf
      show (f.err && !(s.callStores q && ev.returns)) = true
      rw [hf.1, hf.2]
      rfl
    · rw [hadapter, show f.adapter = true from hf]
      rfl
  cases q with
  | errno => exact absurd rfl herrno
  | last ret => exact absurd rfl (hlast ret)
  | load fname => exact OutcomeAlike.after_kept nofun rfl hstores ⟨rfl, rfl, rfl, ha⟩
  | unload fname => exact (beginUnload_alike ha _ _ _ _).after_kept nofun rfl hstores
  | reload fname => exact (beginReload_alike ha _ _).after_kept nofun rfl hstores
  | withRegion id plen hasFn => exact (beginScope_alike ha _ _ _).after_kept nofun rfl hstores
  | regionEach => exact (beginEach_alike ha).after_kept nofun rfl hstores
  | call retp reg selfOnly =>
    have hstart := dispatchBegin_alike (w := w) ha hq reg selfOnly
    rw [show (bif reg.isSome then false else f.adapter) = (f.adapter && !reg.isSome) by
      cases reg.isSome <;> simp] at hstart
    have hbegin : ∀ s, beginCall w ⟨s, k'⟩ (.call retp reg selfOnly)
        = startOutcome k' (dispatchBegin w s retp reg selfOnly) := fun s => by
      unfold beginCall startOutcome
      rfl
    rw [hbegin, hbegin]
    exact hstart.outcome.after nofun hstores
  | shutdown =>
    cases k' with
    | cons => trivial
    | nil =>
      have hstate := xyShutdown_alike (w := w) ha
      exact ⟨rfl, rfl, hstate.state, hstate.agree.mono nofun nofun⟩
  | _ => exact hdirect rfl

/-- A move of the host stores the error code when a call returns, or when the entry
of a load has been re-keyed. -/
theorem tau_alike (h : Alike own (t = true) f c c')
    (hown : t = true → ∀ g ∈ c.stack, Frame.Owned own g) :
    OutcomeAlike own (t = true) (f.after t c .tau) (tau w c) (tau w c') := by
  obtain ⟨s, k⟩ := c
  obtain ⟨s', k'⟩ := c'
  obtain ⟨rfl, hs, ha⟩ := h
  dsimp only at hs ha hown
  generalize s'.report = r at hs ha
  subst hs
  cases k' with
  | nil => trivial
  | cons g k =>
    cases g with
    | load tx pc =>
      have hload : OutcomeAlike own (t = true) _ (tauLoad w s k tx pc)
        (tauLoad w (s.withReport r) k tx pc) := tauLoad_alike ha pc
      cases pc with
      | rekey child =>
        refine hload.imp (fun c ev _ hf => ?_) fun c ev _ hf => ?_
        · cases hev : ev.returns <;> simp [Foreign.told, hev] at hf
        · exact (Bool.and_true _).trans hf
      | _ => exact hload.after_kept nofun rfl fun ev hev => hev
    | unload e children =>
      exact (tauUnload_alike ha e children).after_kept nofun rfl fun ev hev => hev
    | reload rl pc => exact (tauReload_alike ha rl pc).after_kept nofun rfl fun ev hev => hev
    | dispatch d running =>
      cases running with
      | some e => trivial
      | none =>
        have hp : t = true → ∀ b ∈ d.retp, own b := fun ht =>
          hown ht (.dispatch d none) List.mem_cons_self
        refine OutcomeAlike.after_kept nofun rfl (fun ev hev => hev) ?_
        unfold tau
        dsimp only
        split
        · exact tauSelf_alike ha d hp
        · exact tauSubtree_alike ha d hp
    | scope | each => trivial

theorem giveBack_alike (h : Alike own (t = true) f c c')
    (hown : t = true → ∀ g ∈ c.stack, Frame.Owned own g) (ret : Return) :
    OutcomeAlike own (t = true) (f.after t c (.ret ret)) (giveBack c ret) (giveBack c' ret) := by
  obtain ⟨s, k⟩ := c
  obtain ⟨s', k'⟩ := c'
  obtain ⟨rfl, hs, ha⟩ := h
  dsimp only at hs ha hown
  generalize s'.report = r at hs ha
  subst hs
  unfold giveBack
  dsimp only
  split
  · exact (retDlopen_alike ha _).after_kept nofun rfl fun ev hev => hev
  · exact (retHandler_alike ha _ _ _).after_kept nofun rfl fun ev hev => hev
  · exact (retInstall_alike ha _).after_kept nofun rfl fun ev hev => hev
  · next d e k bytes =>
    have hp : t = true → ∀ b ∈ d.retp, own b := fun ht =>
      hown ht (.dispatch d (some e)) List.mem_cons_self
    exact OutcomeAlike.after nofun (fun ev hev => hev)
      ((retListener_alike ha d hp e bytes).mono (fun hf => hf) nofun)
  · exact OutcomeAlike.after_kept nofun rfl (fun ev hev => hev) ⟨rfl, rfl, rfl, ha.setErr _⟩
  · exact (retVisit_alike ha _ _).after_kept nofun rfl fun ev hev => hev
  · trivial

/-- The buffers of the calls in progress are the thread's own. -/
theorem Step.owned {ev : Event} (hown : t = true → ∀ g ∈ c.stack, Frame.Owned own g)
    (ha : Action.Owned own t a) (h : Step w c a c' ev) :
    t = true → ∀ g ∈ c'.stack, Frame.Owned own g := by
  intro ht f hf
  replace hown := hown ht
  cases f with
  | load | unload | reload | scope | each => trivial
  | dispatch d run =>
    rcases h.dispatch_origin hf with hmem | ⟨rfl, retp, reg, selfOnly, rfl, -, hbegin⟩
      | ⟨rfl, d₀, k, hstack, hstack'⟩ | ⟨d₀, e, bytes, k, rfl, hstack, hstack'⟩
    · exact hown _ hmem
    · intro b hb
      cases reg with
      | none => cases hbegin
      | some reg =>
        have hretp : d.retp = retp := by
          rcases dispatchBegin_last hbegin with ⟨-, hno⟩ | ⟨x, call, -, hstart⟩
          · exact absurd rfl (hno c'.st d)
          · cases hstart with
            | loop hran hretp hreg hadapters hd => exact hd.1
        exact ha ht b (hretp ▸ hb)
    · have hhead := hown _ (hstack ▸ List.mem_cons_self)
      obtain ⟨s, stack⟩ := c
      obtain rfl : stack = _ := hstack
      cases h with
      | dispatchEnd => cases hstack'
      | selfSkip | selfDeaf | selfEnter | slotSkip =>
        cases hstack'
        exact hhead
      | slotEnter hself hmi hslots hcell hme hc hcb hd' =>
        subst hd'
        cases hstack'
        exact hhead
    · have hhead := hown _ (hstack ▸ List.mem_cons_self)
      obtain ⟨s, stack⟩ := c
      obtain rfl : stack = _ := hstack
      cases h with
      | selfListened | slotListened =>
        cases hstack'
        exact hhead

/-- The calls whose answers are watched. -/
def Action.Query : Action → Prop
  | .call .errno | .call (.last _) => True
  | _ => False

/-- The machine moves in lockstep in two runs that differ in what has been
reported. -/
theorem step_alike (h : Alike own (t = true) f c c')
    (hown : t = true → ∀ g ∈ c.stack, Frame.Owned own g) (ha : Action.Owned own t a)
    (hquery : ¬ a.Query) :
    OutcomeAlike own (t = true) (f.after t c a) (step w c a) (step w c' a) := by
  cases a with
  | tau => exact tau_alike h hown
  | ret r => exact giveBack_alike h hown r
  | call q =>
    unfold step
    dsimp only
    rw [show c'.waiting = c.waiting by unfold Config.waiting; rw [h.stack]]
    split
    · refine beginCall_alike h ha (fun heq => hquery ?_) fun ret heq => hquery ?_ <;>
        rw [heq] <;> trivial
    · trivial

end

end

end Xylem
