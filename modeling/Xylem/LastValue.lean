import Xylem.Chaining
import Xylem.Symbols

/-!
# The value that `xy_last` hands out

`xy_last` answers `XY_OK` when `xy_last_ran` is positive, but what it copies
comes through `xy_last_retp`, which is NULL after a dispatch without a buffer.

* `reported` reads off a run which listener's return `xy_last` is to hand out.
* `Tells` is what the variables of `xy_last` know of it at any point of a run, and
  `HeadTells` what a dispatch at the head of its loop does.
* `lastMeets_iff`: an `XY_OK` comes with the value exactly when the dispatch that
  it reports on was given a buffer.
-/

namespace Xylem

/-- The return of a listener, with the buffer that its dispatch was given. -/
structure LastReport where
  retp : Option BufRef
  bytes : List UInt8

/-- What there is to report after a move.  A dispatch that has started has no
return yet, and neither has one that has failed. -/
def Move.report (m : Move) (r : Option LastReport) : Option LastReport :=
  match m.act with
  | .ret (.listened bytes) =>
    match m.before.stack with
    | .dispatch d _ :: _ => some ⟨d.retp, bytes⟩
    | _ => r
  | .call (.call _ (some _) _) => none
  | .call .shutdown => none
  | _ => r

/-- The return of the listener that has completed last in the dispatch that
`xy_last` reports on. -/
def reported (log : List Move) : Option LastReport := log.foldl (fun r m => m.report r) none

theorem reported_concat (log : List Move) (m : Move) :
    reported (log ++ [m]) = m.report (reported log) := by
  unfold reported
  rw [List.foldl_append]
  rfl

/-- The bytes that the `memcpy` of `xy_last` is given. -/
def State.lastCopy (s : State) : Option (List UInt8) :=
  s.adapter.bind fun a =>
    match s.tls.lastRetp with
    | .null => none
    | .lastRetbuf => some (s.tls.lastRetbuf.take (s.adapters a).retSize)
    | .buf b => some ((s.mem b).take (s.adapters a).retSize)

theorem State.lastCopy_eq {s : State} {reg : AdapterRef} (h : s.adapter = some reg) :
    s.lastCopy = match s.tls.lastRetp with
      | .null => none
      | .lastRetbuf => some (s.tls.lastRetbuf.take (s.adapters reg).retSize)
      | .buf b => some ((s.mem b).take (s.adapters reg).retSize) := by
  unfold State.lastCopy
  rw [h]
  rfl

/-- If the move is the return of a listener, its trampoline has stored a value of
the adapter's size. -/
def Move.Stores (m : Move) : Prop :=
  match m.act, m.before.stack with
  | .ret (.listened bytes), .dispatch d _ :: _ =>
    bytes.length = (m.before.st.adapters d.reg).retSize
  | _, _ => True

instance (m : Move) : Decidable m.Stores := by
  unfold Move.Stores; split <;> infer_instance

/-- The call of `xy_last` between `c` and `c'` has written the value to `ret`. -/
def LastMeets (log : List Move) (c c' : Config) (ret : BufRef) : Prop :=
  ∃ r ∈ reported log, c.st.lastCopy = some r.bytes
    ∧ (c'.st.mem ret).take r.bytes.length = r.bytes

/-! ## Calls of `xy_last` -/

/-- An `xy_last` that succeeds. -/
theorem xyLast_ok {s : State} {b : BufRef} (h : (xyLast s (some b)).2 = xyOk) :
    s.adapter ≠ none ∧ s.tls.lastRan ≠ 0
      ∧ ∀ bytes ∈ s.lastCopy, ((xyLast s (some b)).1.mem b).take bytes.length = bytes := by
  unfold xyLast at h ⊢
  unfold State.lastCopy
  cases hreg : s.adapter with
  | none =>
    rw [hreg] at h
    exact absurd (show xyErrInvalid = xyOk from h) (by decide)
  | some a =>
    rw [hreg] at h
    dsimp only at h ⊢
    split at h
    · exact absurd (show xyErrNotfound = xyOk from h) (by decide)
    · next hran =>
      rw [if_neg hran]
      refine ⟨nofun, hran, fun bytes hbytes => ?_⟩
      cases hretp : s.tls.lastRetp with
      | null =>
        rw [hretp] at hbytes
        cases hbytes
      | lastRetbuf | buf b' =>
        rw [hretp] at hbytes
        cases hbytes
        show (Function.update s.mem b _ b).take _ = _
        rw [Function.update_self, overwrite_take]

/-- Neither what `xy_last` copies nor whether it does has changed. -/
structure State.KeepsReport (s s' : State) : Prop where
  ran : s'.tls.lastRan = s.tls.lastRan
  retp : s'.tls.lastRetp = s.tls.lastRetp
  adapter : s'.adapter = s.adapter
  bytes : s'.lastCopy = s.lastCopy

theorem State.KeepsLast.report {s s' : State} (h : s.KeepsLast s') : s.KeepsReport s' := by
  refine ⟨h.ran, h.retp, h.adapter, ?_⟩
  unfold State.lastCopy
  rw [h.adapter, h.retp, h.retbuf, h.adapters, h.mem]

theorem keepsReport_areg (w : World) (s : State) (name : CStr) (reg : AdapterRef) :
    s.KeepsReport (xyAreg w s name reg).1 := by
  unfold xyAreg
  split
  · exact ⟨rfl, rfl, rfl, rfl⟩
  · split
    · exact ⟨rfl, rfl, rfl, rfl⟩
    · have hsize : ∀ x, ((Function.update s.adapters reg
          { s.adapters reg with hookId := (s.rt.hookIdCounter : Int) }) x).retSize
            = (s.adapters x).retSize := by
        intro x
        by_cases hx : x = reg
        · subst hx
          rw [Function.update_self]
        · rw [Function.update_of_ne hx]
      refine ⟨rfl, rfl, rfl, ?_⟩
      unfold State.lastCopy
      dsimp only
      simp only [hsize]

theorem keepsReport_last (s : State) (ret : Option BufRef) : s.KeepsReport (xyLast s ret).1 := by
  unfold xyLast
  cases hreg : s.adapter with
  | none => exact ⟨rfl, rfl, rfl, rfl⟩
  | some a =>
    dsimp only
    split
    · exact ⟨rfl, rfl, rfl, rfl⟩
    · cases hretp : s.tls.lastRetp with
      | null => exact ⟨rfl, rfl, rfl, rfl⟩
      | lastRetbuf =>
        cases ret with
        | none => exact ⟨rfl, rfl, rfl, rfl⟩
        | some r =>
          refine ⟨rfl, rfl, rfl, ?_⟩
          show State.lastCopy { s with
            mem := Function.update s.mem r (overwrite (s.mem r) _), err := xyOk } = _
          unfold State.lastCopy
          simp only [hreg, hretp, Option.bind_some]
      | buf b =>
        cases ret with
        | none => exact ⟨rfl, rfl, rfl, rfl⟩
        | some r =>
          refine ⟨rfl, rfl, rfl, ?_⟩
          show State.lastCopy { s with
            mem := Function.update s.mem r (overwrite (s.mem r) _), err := xyOk } = _
          unfold State.lastCopy
          simp only [hreg, hretp, Option.bind_some, Option.some.injEq]
          by_cases hb : b = r
          · subst hb
            rw [Function.update_self, overwrite_take_self]
          · rw [Function.update_of_ne hb]

/-! ## The invariant -/

/-- What the variables of `xy_last` know of the return that is to be reported. -/
inductive Tells (s : State) : Option LastReport → Prop
  | nothing (h : s.adapter = none ∨ s.tls.lastRan = 0) : Tells s none
  | value {r : LastReport} {reg : AdapterRef} (hreg : s.adapter = some reg) (hran : s.tls.lastRan ≠ 0)
      (hid : 0 ≤ (s.adapters reg).hookId) (hlen : r.bytes.length = (s.adapters reg).retSize)
      (hbytes : 0 < (s.adapters reg).retSize → s.lastCopy = r.retp.map fun _ => r.bytes) :
      Tells s (some r)

/-- At the head of its loop a dispatch reports on its own listeners. -/
def HeadTells (s : State) (d : Dispatch) (rep : Option LastReport) : Prop :=
  (d.ran = 0 ∧ rep = none)
    ∨ d.ran ≠ 0 ∧ ∃ r, rep = some r ∧ r.retp = d.retp ∧ s.adapter = some d.reg
      ∧ s.tls.lastRetp = .ofBuf d.retp

/-- What holds at every point of a run. -/
structure Reporting (c : Config) (rep : Option LastReport) : Prop where
  tells : Tells c.st rep
  resolved : ∀ d run, .dispatch d run ∈ c.stack → 0 ≤ (c.st.adapters d.reg).hookId
  head : ∀ d k, c.stack = .dispatch d none :: k → HeadTells c.st d rep

theorem Tells.keep {s s' : State} {rep : Option LastReport} (h : Tells s rep) (hk : s.KeepsReport s')
    (hsize : ∀ reg, s.KeepsSize s' reg) : Tells s' rep := by
  cases h with
  | nothing h =>
    rw [← hk.adapter, ← hk.ran] at h
    exact .nothing h
  | value hreg hran hid hlen hbytes =>
    obtain ⟨hid', hsame⟩ := hsize _ hid
    refine .value (hk.adapter.trans hreg) (hk.ran ▸ hran) hid' (hsame ▸ hlen) fun hpos => ?_
    rw [hk.bytes]
    exact hbytes (hsame ▸ hpos)

/-- The end of a dispatch copies the value out of the caller's buffer. -/
theorem Tells.dispatchEnd {s : State} {rep : Option LastReport} {d : Dispatch} (h : Tells s rep)
    (hd : HeadTells s d rep) : Tells (dispatchEnd s d.retp d.reg d.ran).1 rep := by
  obtain ⟨hadapters, hadapter, hran'⟩ := dispatchEnd_last s d.retp d.reg d.ran
  rcases hd with ⟨hran, rfl⟩ | ⟨hran, r, rfl, hretp, hreg, hptr⟩
  · exact .nothing (Or.inr (hran'.trans hran))
  · cases h with
    | @value r reg hreg' _ hid hlen hbytes =>
      obtain rfl : reg = d.reg := Option.some.inj (hreg'.symm.trans hreg)
      refine .value (hadapter.trans hreg) (ne_of_eq_of_ne hran' hran) (hadapters ▸ hid)
        (hadapters ▸ hlen) fun hpos => ?_
      rw [hadapters] at hpos
      have hbefore := hbytes hpos
      rw [State.lastCopy_eq hreg, hptr, hretp, ← hlen] at hbefore
      rw [State.lastCopy_eq (hadapter.trans hreg), hretp, hadapters, ← hlen]
      unfold Xylem.dispatchEnd
      simp only [if_neg hran, ← hlen]
      cases hbuf : d.retp with
      | none => rfl
      | some b =>
        rw [hbuf] at hbefore
        have hcopy := @setLastRet_take { s with tls := { s.tls with lastRan := d.ran } } b r.bytes
          (hlen ▸ hpos) (Option.some.inj hbefore)
        simp only [State.setErr_tls, hcopy.1, hcopy.2]
        rfl

section

variable {w : World} {c c' : Config} {a : Action} {ev : Event} {rep : Option LastReport}

/-- A dispatch in progress was in progress before, or the step has started it. -/
theorem Step.dispatch_before (h : Step w c a c' ev) {d : Dispatch} {run : Option EntryRef}
    (hd : .dispatch d run ∈ c'.stack) :
    (∃ d₀ run₀, .dispatch d₀ run₀ ∈ c.stack ∧ Frame.SameCall (.dispatch d₀ run₀) (.dispatch d run))
      ∨ ∃ retp reg selfOnly, dispatchBegin w c.st retp reg selfOnly = some (.loop c'.st d) := by
  rcases h.dispatch_origin hd with hmem | ⟨-, retp, reg, selfOnly, -, -, hbegin⟩
    | ⟨rfl, d₀, k, hstack, hstack'⟩ | ⟨d₀, e, bytes, k, rfl, hstack, hstack'⟩
  · exact Or.inl ⟨d, run, hmem, .refl _⟩
  · exact Or.inr ⟨retp, reg, selfOnly, hbegin⟩
  · refine Or.inl ⟨d₀, none, hstack ▸ List.mem_cons_self, ?_⟩
    obtain ⟨s, stack⟩ := c
    obtain rfl : stack = _ := hstack
    cases h with
    | dispatchEnd => cases hstack'
    | selfSkip | selfDeaf | selfEnter | slotSkip =>
      cases hstack'
      exact ⟨rfl, rfl, rfl, rfl, rfl, rfl, rfl⟩
    | slotEnter hself hmi hslots hcell hme hc hcb hd' =>
      subst hd'
      cases hstack'
      exact ⟨rfl, rfl, rfl, rfl, rfl, rfl, rfl⟩
  · refine Or.inl ⟨d₀, some e, hstack ▸ List.mem_cons_self, ?_⟩
    obtain ⟨s, stack⟩ := c
    obtain rfl : stack = _ := hstack
    cases h with
    | selfListened | slotListened =>
      cases hstack'
      exact ⟨rfl, rfl, rfl, rfl, rfl, rfl, rfl⟩

/-- How a dispatch gets to the head of its loop. -/
theorem Step.to_head (hp : c.Parked) (h : Step w c a c' ev) {d : Dispatch} {k : List Frame}
    (hstack : c'.stack = .dispatch d none :: k) :
    (∃ retp reg selfOnly, a = .call (.call retp reg selfOnly)
        ∧ dispatchBegin w c.st retp reg selfOnly = some (.loop c'.st d))
      ∨ (∃ d₀ e bytes, a = .ret (.listened bytes) ∧ c.stack = .dispatch d₀ (some e) :: k
        ∧ d.retp = d₀.retp ∧ d.reg = d₀.reg ∧ d.ran = d₀.ran + 1)
      ∨ a = .tau ∧ c.st.KeepsLast c'.st
        ∧ ∃ d₀, c.stack = .dispatch d₀ none :: k
          ∧ d.retp = d₀.retp ∧ d.reg = d₀.reg ∧ d.ran = d₀.ran := by
  have hparked : ¬ ∀ f ∈ c'.stack, f.parked = true := fun hall => by
    have htop := hall (.dispatch d none) (hstack ▸ List.mem_cons_self)
    cases htop
  cases h with
  | dispatchLoop hw hd =>
    cases hstack
    exact Or.inl ⟨_, _, _, rfl, hd⟩
  | selfListened hself hme =>
    cases hstack
    exact Or.inr (Or.inl ⟨_, _, _, rfl, rfl, rfl, rfl, rfl⟩)
  | slotListened hself hs' =>
    cases hstack
    exact Or.inr (Or.inl ⟨_, _, _, rfl, rfl, rfl, rfl, rfl⟩)
  | selfSkip | selfDeaf | slotSkip =>
    cases hstack
    exact Or.inr (Or.inr ⟨rfl, ⟨rfl, rfl, rfl, rfl, rfl, rfl⟩, _, rfl, rfl, rfl, rfl⟩)
  | answered hw | direct hw | dispatchDone hw => exact absurd (hp.all hw) hparked
  | unload hw hu => exact absurd (hu.parked (hp.all hw)) hparked
  | reload hw hl hme hu =>
    exact absurd (hu.parked (List.forall_mem_cons.mpr ⟨rfl, hp.all hw⟩)) hparked
  | dlopenFailed hr => exact absurd (resume_parked hr hp) hparked
  | reuse hl hme hr => exact absurd (resume_parked hr hp) hparked
  | installed hr => exact absurd (resume_parked hr hp) hparked
  | abort ha hr => exact absurd (resume_parked hr hp) hparked
  | remove hme hr => exact absurd (resume_parked hr hp) hparked
  | cascade hme hps hs hu => exact absurd (hu.parked (List.forall_mem_cons.mpr ⟨rfl, hp⟩)) hparked
  | reinsert | reloadEnd | dispatchEnd | scopeEnd | eachEnd => exact absurd hp hparked
  | load | scope | eachFirst | shutdown | dlopened | publish | bind | claimFlat | claimRefused
  | claimAsked | notGranted | granted | rekey | link | installMissing | install | cascadeSkip
  | reloadLoad | selfEnter | slotEnter | eachNext => cases hstack

/-- A call that is neither a dispatch nor the shutdown. -/
theorem LastChange.report {q : Call} {s' : State} (h : LastChange w c (.call q) s')
    (hcall : ∀ retp reg selfOnly, q ≠ .call retp reg selfOnly) (hshut : q ≠ .shutdown) :
    c.st.KeepsReport s' := by
  cases h with
  | kept hk => exact hk.report
  | areg ha hs => exact hs ▸ keepsReport_areg w c.st _ _
  | read ha hs => exact hs ▸ keepsReport_last c.st _
  | refused ha hd | started ha hd =>
    injection ha with hq
    exact absurd hq (hcall _ _ _)
  | listened ha | ended ha => cases ha
  | shutdown ha =>
    injection ha with hq
    exact absurd hq hshut

/-- The start of a dispatch leaves nothing to report. -/
theorem StartsLast.tells {s : State} {retp : Option BufRef} {reg : AdapterRef}
    {start : DispatchStart} (h : StartsLast s retp reg start) :
    (∀ s' n, start = .done s' n → Tells s' none) ∧ ∀ s' d, start = .loop s' d → Tells s' none := by
  constructor
  · intro s' n hs
    subst hs
    cases h with
    | done hran => exact .nothing (Or.inr hran)
  · intro s' d hs
    subst hs
    cases h with
    | loop hran => exact .nothing (Or.inr hran)

/-- A dispatch that is called, whether it fails or comes to its loop. -/
theorem Reporting.call_tells {retp : Option BufRef} {reg : Option AdapterRef} {selfOnly : Bool}
    (h : Reporting c rep) (hs : step w c (.call (.call retp reg selfOnly)) = .next c' ev) :
    Tells c'.st (Move.report ⟨c, .call (.call retp reg selfOnly), ev, c'⟩ rep) := by
  unfold step at hs
  dsimp only at hs
  split at hs
  · cases reg with
    | none =>
      cases hs
      exact h.tells.keep (keepsLast_setErr _ _).report fun _ => .of_eq rfl
    | some reg =>
      show Tells c'.st none
      have hstart : ∀ start, dispatchBegin w c.st retp (some reg) selfOnly = some start →
          ∃ s, StartsLast s retp reg start := by
        intro start hbegin
        rcases dispatchBegin_last hbegin with ⟨hstart, -⟩ | ⟨b, call, -, hstart⟩
        · exact ⟨_, hstart⟩
        · exact ⟨_, hstart⟩
      simp only [beginCall] at hs
      split at hs
      · cases hs
      · next hbegin =>
        cases hs
        obtain ⟨s, hstart⟩ := hstart _ hbegin
        exact hstart.tells.1 _ _ rfl
      · next hbegin =>
        cases hs
        obtain ⟨s, hstart⟩ := hstart _ hbegin
        exact hstart.tells.2 _ _ rfl
  · cases hs

/-- The publication after a listener has returned. -/
theorem tells_publish {s s' : State} {d : Dispatch} {bytes : List UInt8}
    (hid : 0 ≤ (s.adapters d.reg).hookId) (hlen : bytes.length = (s.adapters d.reg).retSize)
    (hk : (s.writeBuf d.retp bytes).KeepsLast s') :
    Tells (s'.lastPublish (d.ran + 1) d.retp d.reg) (some ⟨d.retp, bytes⟩) := by
  have hadapters : s'.adapters = s.adapters := by
    rw [hk.adapters]
    cases d.retp <;> rfl
  rw [← hadapters] at hid hlen
  refine .value rfl (Nat.succ_ne_zero _) hid hlen fun _ => ?_
  rw [State.lastCopy_eq (s := s'.lastPublish (d.ran + 1) d.retp d.reg) rfl]
  cases hretp : d.retp with
  | none => rfl
  | some b =>
    have hmem : s'.mem b = overwrite (s.mem b) bytes := by
      rw [hk.mem, hretp]
      exact Function.update_self ..
    show some ((s'.mem b).take (s'.adapters d.reg).retSize) = some bytes
    rw [hmem, ← hlen, overwrite_take]

theorem Reporting.ret_tells {r : Return} (h : Reporting c rep)
    (hs : step w c (.ret r) = .next c' ev) (hstores : Move.Stores ⟨c, .ret r, ev, c'⟩) :
    Tells c'.st (Move.report ⟨c, .ret r, ev, c'⟩ rep) := by
  have hstep := Step.of_step hs
  cases r with
  | listened bytes =>
    cases hstep with
    | selfListened hself hme =>
      exact tells_publish (h.resolved _ _ List.mem_cons_self) hstores (.refl _)
    | slotListened hself hs' =>
      refine tells_publish (h.resolved _ _ List.mem_cons_self) hstores ?_
      subst hs'
      split
      · exact ⟨rfl, rfl, rfl, rfl, rfl, rfl⟩
      · exact .refl _
  | _ =>
    show Tells c'.st rep
    cases hstep.last with
    | kept hk => exact h.tells.keep hk.report hstep.keepsSize
    | areg ha | read ha | refused ha | started ha | listened ha | ended ha | shutdown ha => cases ha

theorem Reporting.tells_step (h : Reporting c rep) (hs : step w c a = .next c' ev)
    (hstores : Move.Stores ⟨c, a, ev, c'⟩) : Tells c'.st (Move.report ⟨c, a, ev, c'⟩ rep) := by
  have hstep := Step.of_step hs
  have hsize := hstep.keepsSize
  cases a with
  | tau =>
    show Tells c'.st rep
    cases hstep.last with
    | kept hk => exact h.tells.keep hk.report hsize
    | ended ha hstack hst =>
      rw [hst]
      exact h.tells.dispatchEnd (h.head _ _ hstack)
    | areg ha | read ha | refused ha | started ha | listened ha | shutdown ha => cases ha
  | ret r => exact h.ret_tells hs hstores
  | call q =>
    cases q with
    | call retp reg selfOnly => exact h.call_tells hs
    | shutdown =>
      unfold step beginCall at hs
      dsimp only at hs
      split at hs
      · split at hs
        · cases hs
          exact .nothing (Or.inl rfl)
        · cases hs
      · cases hs
    | _ => exact h.tells.keep (hstep.last.report nofun nofun) hsize

/-- The adapter of a dispatch in progress has its hook id. -/
theorem Reporting.resolved_step (h : Reporting c rep) (hs : Step w c a c' ev) (d : Dispatch)
    (run : Option EntryRef) (hd : .dispatch d run ∈ c'.stack) :
    0 ≤ (c'.st.adapters d.reg).hookId := by
  rcases hs.dispatch_before hd with ⟨d₀, run₀, hd₀, -, hreg, -⟩ | ⟨retp, reg, selfOnly, hbegin⟩
  · rw [hreg]
    exact ((hs.keepsSize d₀.reg) (h.resolved d₀ run₀ hd₀)).1
  · cases reg with
    | none => cases hbegin
    | some reg =>
      rcases dispatchBegin_last hbegin with ⟨-, hnot⟩ | ⟨b, call, hres, hstart⟩
      · exact absurd rfl (hnot _ _)
      · cases hstart with
        | loop hran hretp hreg hadapters hd =>
          rw [hadapters, hd.2.1]
          show 0 ≤ (Function.update c.st.adapters reg b reg).hookId
          rw [Function.update_self]
          exact (resolveAdapter_hookId hres).1

theorem Reporting.head_step (h : Reporting c rep) (hp : c.Parked) (hs : Step w c a c' ev)
    (d : Dispatch) (k : List Frame) (hstack : c'.stack = .dispatch d none :: k) :
    HeadTells c'.st d (Move.report ⟨c, a, ev, c'⟩ rep) := by
  rcases hs.to_head hp hstack with ⟨retp, reg, selfOnly, rfl, hbegin⟩
    | ⟨d₀, e, bytes, rfl, hstack₀, hretp, hreg, hran⟩ | ⟨rfl, hk, d₀, hstack₀, hretp, hreg, hran⟩
  · cases reg with
    | none => cases hbegin
    | some reg =>
      rcases dispatchBegin_last hbegin with ⟨-, hnot⟩ | ⟨b, call, -, hstart⟩
      · exact absurd rfl (hnot _ _)
      · cases hstart with
        | loop _ _ _ _ hd => exact Or.inl ⟨hd.2.2, rfl⟩
  · obtain ⟨s, stack⟩ := c
    cases hstack₀
    right
    rw [hran, hretp, hreg]
    refine ⟨Nat.succ_ne_zero _, ⟨d₀.retp, bytes⟩, rfl, rfl, ?_⟩
    cases hs with
    | selfListened hself hme => exact ⟨rfl, rfl⟩
    | slotListened hself hs' => exact ⟨rfl, rfl⟩
  · show HeadTells c'.st d rep
    have hhead := h.head d₀ k hstack₀
    unfold HeadTells at hhead ⊢
    rw [hran, hretp, hreg, hk.adapter, hk.retp]
    exact hhead

theorem Reporting.step (h : Reporting c rep) (hp : c.Parked) (hs : step w c a = .next c' ev)
    (hstores : Move.Stores ⟨c, a, ev, c'⟩) : Reporting c' (Move.report ⟨c, a, ev, c'⟩ rep) where
  tells := h.tells_step hs hstores
  resolved := h.resolved_step (Step.of_step hs)
  head := h.head_step hp (Step.of_step hs)

/-- At every point of a run, the variables of `xy_last` know what is to be
reported. -/
theorem reporting_of_trace {log : List Move} (h : Trace w log c) (hstores : ∀ m ∈ log, m.Stores) :
    Reporting c (reported log) := by
  induction h with
  | start hc =>
    obtain ⟨ctxs, adapters, mem, rfl⟩ := hc
    exact
      { tells := .nothing (Or.inl rfl)
        resolved := fun d run hd => (List.not_mem_nil hd).elim
        head := fun d k hstack => by cases hstack }
  | @move log c c' a ev htr hs ih =>
    rw [reported_concat]
    have hbefore := ih fun m hm => hstores m (List.mem_append_left _ hm)
    exact hbefore.step (parked_of_reachable htr.reachable) hs
      (hstores _ (List.mem_append_right _ (List.mem_singleton.mpr rfl)))

/-- `xy_last` answers `XY_OK` for a return that has a value: at any point of any run,
within a dispatch or after it, it writes what the listener that has completed last
returned, exactly when the dispatch that it reports on was given a buffer. -/
theorem lastMeets_iff {log : List Move} (h : Trace w log c) (hstores : ∀ m ∈ log, m.Stores)
    {ret : BufRef} {reg : AdapterRef}
    (hs : step w c (.call (.last (some ret))) = .next c' (.returned (.int xyOk)))
    (hreg : c.st.adapter = some reg) (hsize : 0 < (c.st.adapters reg).retSize) :
    LastMeets log c c' ret ↔ ∃ r ∈ reported log, r.retp ≠ none := by
  have htells := (reporting_of_trace h hstores).tells
  obtain ⟨hok, hst⟩ : (xyLast c.st (some ret)).2 = xyOk ∧ c'.st = (xyLast c.st (some ret)).1 := by
    unfold step at hs
    dsimp only at hs
    split at hs
    · simp only [beginCall, callDirect] at hs
      injection hs with hc hev
      injection hev with hv
      injection hv with hv
      exact ⟨hv, by rw [← hc]⟩
    · cases hs
  obtain ⟨-, hran, hwrites⟩ := xyLast_ok hok
  unfold LastMeets
  rw [hst]
  generalize reported log = rep at htells
  cases htells with
  | nothing hnone =>
    rcases hnone with hnone | hnone
    · rw [hnone] at hreg
      cases hreg
    · exact absurd hnone hran
  | @value r reg' hreg' _ hid hlen hbytes =>
    obtain rfl : reg' = reg := Option.some.inj (hreg'.symm.trans hreg)
    have hlast := hbytes hsize
    constructor
    · intro hmeets
      obtain ⟨r', hr', hcopied, -⟩ := hmeets
      refine ⟨r', hr', fun hnone => ?_⟩
      cases hr'
      rw [hlast, hnone] at hcopied
      cases hcopied
    · intro hbuf
      obtain ⟨r', hr', hbuf⟩ := hbuf
      cases hr'
      obtain ⟨b, hb⟩ := Option.ne_none_iff_exists'.mp hbuf
      rw [hb] at hlast
      exact ⟨r, rfl, hlast, hwrites _ hlast⟩

end

/-! ## One byte -/

/-- Two modules are dispatched to.  The first has returned 5, and the second is in
control. -/
def firstReturned (retp : Option BufRef) : List Action :=
  .call (.areg sampleHook 0) :: loadRun sampleFile 1 ++ loadRun sampleFile' 2
    ++ [.call (.call retp (some 0) false), .tau, .ret (.listened [5]), .tau]

theorem lastMeets_mid_dispatch :
    let l := firstReturned (some 0)
    let c := (Config.bootByte sampleHook).after sampleWorld l
    LastMeets (movesOf sampleWorld (Config.bootByte sampleHook) l) c
      (c.after sampleWorld [.call (.last (some 1))]) 1 := by
  intro l c
  have htrace : Trace sampleWorld (movesOf sampleWorld (Config.bootByte sampleHook) l) c :=
    .of_actions ⟨_, _, _, rfl⟩ (by decide +kernel)
  have hs : step sampleWorld c (.call (.last (some 1)))
      = .next (c.after sampleWorld [.call (.last (some 1))]) (.returned (.int xyOk)) :=
    step_of_events (by decide +kernel)
  have hreg : c.st.adapter = some 0 := by decide +kernel
  have hsize : 0 < (c.st.adapters 0).retSize := by decide +kernel
  exact (lastMeets_iff htrace (by decide +kernel) hs hreg hsize).mpr (by decide +kernel)

/-- The dispatch has no buffer.  The second module asks for its predecessor's return,
is told `XY_OK`, and nothing is written. -/
theorem not_lastMeets_of_no_buffer :
    ∃ log c c' ret reg, Trace sampleWorld log c ∧ (∀ m ∈ log, m.Stores)
      ∧ step sampleWorld c (.call (.last (some ret))) = .next c' (.returned (.int xyOk))
      ∧ c.st.adapter = some reg ∧ 0 < (c.st.adapters reg).retSize ∧ ¬ LastMeets log c c' ret := by
  let c := (Config.bootByte sampleHook).after sampleWorld (firstReturned none)
  refine ⟨movesOf sampleWorld (Config.bootByte sampleHook) (firstReturned none), c,
    c.after sampleWorld [.call (.last (some 1))], 1, 0,
    .of_actions ⟨_, _, _, rfl⟩ (by decide +kernel), by decide +kernel,
    step_of_events (by decide +kernel), by decide +kernel, by decide +kernel, fun hmeets => ?_⟩
  obtain ⟨r, -, hcopied, -⟩ := hmeets
  have hnothing : c.st.lastCopy = none := by decide +kernel
  rw [hnothing] at hcopied
  cases hcopied

end Xylem
