import Xylem.Denies
import Xylem.Sample

/-!
# Hook denies

`xy_dispatch` walks the ancestors of the caller for a hook deny only when the
summary flag of the root is set.  The flag is set upward from a deny and never
taken back, so that it is set at the root as soon as any region denies a hook
(`DenyFlag`), and the walk sees every strict ancestor.

A refusal is the only way for a dispatch through a callable adapter to return
`XY_ERR_EPERM`.
-/

namespace Xylem

open Xylem.Runtime

/-- The adapter resolves to a hook id and a trampoline, and its return fits. -/
def State.Callable (s : State) (reg : AdapterRef) : Prop :=
  ∃ a call, resolveAdapter s (s.adapters reg) = some (a, call) ∧ a.retSize ≤ xyMaxRetSize
    ∧ (fallbackCall { s with adapters := Function.update s.adapters reg a } a.hookId.toNat
      call).isSome = true

/-- A region strictly above `r` has denied the hook. -/
def Runtime.DeniedAbove (rt : Runtime) (r : RegionRef) (name : CStr) : Prop :=
  ∃ x ∈ rt.parentChain r, x ≠ r ∧ name ∈ (rt.regions x).deniedHooks

instance (rt : Runtime) (r : RegionRef) (name : CStr) : Decidable (rt.DeniedAbove r name) := by
  unfold Runtime.DeniedAbove; infer_instance

/-- What a refused dispatch leaves. -/
structure Refused (s s' : State) (retp : Option BufRef) (reg : AdapterRef) : Prop where
  zeroed : ∀ b ∈ retp, (s'.mem b).take (s'.adapters reg).retSize
    = List.replicate (s'.adapters reg).retSize 0
  last : ∀ ret, (xyLast s' ret).2 = xyErrNotfound
  current : s'.tls.current = s.tls.current

/-! ## The flag of the root -/

/-- If any region denies a hook, the root has the summary flag. -/
def Runtime.DenyFlag (rt : Runtime) : Prop :=
  ∀ r < rt.nregions, (rt.regions r).deniedHooks ≠ [] → (rt.regions 0).subtreeFlags = true

section

variable {w : World} {c c' : Config} {a : Action} {ev : Event} {rt rt' : Runtime}

theorem Runtime.denyFlag_iff : rt.DenyFlag ↔
    ∀ r < rt.nregions, (rt.denies r).hooks ≠ [] → (rt.denies 0).flag = true := Iff.rfl

theorem Runtime.getLast?_chain (ht : rt.tree.Wf) {r : Nat} (hr : r < rt.nregions) :
    (rt.chain r).getLast? = some 0 :=
  Forest.Links.getLast?_anc ht.forest (fun _ hx hp => ht.orphan hx hp) hr

theorem Runtime.root_mem_chain (ht : rt.tree.Wf) {r : Nat} (hr : r < rt.nregions) :
    0 ∈ rt.chain r :=
  List.mem_of_getLast? (getLast?_chain ht hr)

theorem Effect.denyFlag (hwf : c.Wf w) (hflag : c.st.rt.DenyFlag) (h : Effect w c a rt') :
    rt'.DenyFlag := by
  rw [denyFlag_iff] at hflag ⊢
  intro r hr hhooks
  have hroot : 0 < c.st.rt.nregions := hwf.tree.pos
  cases h.denies with
  | same hold hnew =>
    rw [hold 0 hroot]
    rcases Nat.lt_or_ge r c.st.rt.nregions with hlt | hge
    · rw [hold r hlt] at hhooks
      exact hflag r hlt hhooks
    · rw [hnew r hge hr] at hhooks
      exact absurd rfl hhooks
  | deny ha hcur hd hrt =>
    subst hrt
    rw [recordDeny_denies hwf.tree hd]
    simp [root_mem_chain hwf.tree hd]
  | @remove k e me ha hstack hme hrt =>
    subst hrt
    have hkeep : ∀ x, ((c.st.rt.removeEntry w e me).denies x).hooks = (c.st.rt.denies x).hooks
        ∧ ((c.st.rt.removeEntry w e me).denies x).flag = (c.st.rt.denies x).flag := by
      intro x
      rw [removeEntry_denies]
      split <;> exact ⟨rfl, rfl⟩
    rw [(hkeep r).1] at hhooks
    rw [(hkeep 0).2]
    have hn : (c.st.rt.removeEntry w e me).nregions = c.st.rt.nregions :=
      congrArg Tree.count (removeEntry_tree w c.st.rt e me)
    exact hflag r (hn ▸ hr) hhooks
  | shutdown ha hrt =>
    subst hrt
    exact absurd rfl hhooks

theorem denyFlag_of_reachable {ok : Config → Action → Prop} (h : ReachableBy w ok c) :
    c.st.rt.DenyFlag := by
  refine h.invariant_wf (fun c => c.st.rt.DenyFlag) (fun c hc => ?_)
    fun c a c' ev hwf hflag _ hstep => (hstep.effect hwf).denyFlag hwf hflag
  obtain ⟨ctxs, adapters, mem, rfl⟩ := hc
  exact fun r _ hhooks => absurd rfl hhooks

/-! ## The walk -/

theorem Runtime.ancChain_some (ht : rt.tree.Wf) {r : Nat} (hr : r < rt.nregions) :
    rt.ancChain (some r) = (rt.chain r).reverse :=
  regionAncestorChain_eq ht hr

/-- The chain that a dispatch walks ends in the caller, which the walk leaves
out. -/
theorem Runtime.dropLast_ancChain (ht : rt.tree.Wf) {r : Nat} (hr : r < rt.nregions) :
    (rt.ancChain (some r)).dropLast = (rt.chain r).tail.reverse := by
  rw [ancChain_some ht hr, List.dropLast_reverse]

theorem Runtime.mem_tail_chain (ht : rt.tree.Wf) {r x : Nat} (hr : r < rt.nregions) :
    x ∈ (rt.chain r).tail ↔ x ∈ rt.chain r ∧ x ≠ r := by
  have hcons : ∃ l, rt.chain r = r :: l := ⟨_, rfl⟩
  obtain ⟨l, hl⟩ := hcons
  have hnodup : (rt.chain r).Nodup := Forest.Links.nodup_anc ht.forest hr
  rw [hl] at hnodup ⊢
  rw [List.tail_cons, List.mem_cons]
  constructor
  · intro hx
    refine ⟨Or.inr hx, ?_⟩
    rintro rfl
    exact (List.nodup_cons.mp hnodup).1 hx
  · rintro ⟨rfl | hx, hne⟩
    · exact absurd rfl hne
    · exact hx

/-- The gated walk refuses exactly what is denied above the caller. -/
theorem hookRefused_iff (ht : rt.tree.Wf) (hflag : rt.DenyFlag) {r : Nat} (hr : r < rt.nregions)
    (name : CStr) :
    hookRefused rt (rt.ancChain (some r)) name = true ↔ rt.DeniedAbove r name := by
  have hhead : (rt.ancChain (some r)).head? = some 0 := by
    rw [ancChain_some ht hr, List.head?_reverse]
    exact getLast?_chain ht hr
  obtain ⟨l, hl⟩ : ∃ l, rt.ancChain (some r) = 0 :: l := by
    cases hl : rt.ancChain (some r) with
    | nil =>
      rw [hl] at hhead
      cases hhead
    | cons x l =>
      rw [hl] at hhead
      cases hhead
      exact ⟨l, rfl⟩
  have hwalk : (∃ x ∈ (rt.ancChain (some r)).dropLast, name ∈ (rt.regions x).deniedHooks)
      ↔ rt.DeniedAbove r name := by
    unfold DeniedAbove
    rw [dropLast_ancChain ht hr, parentChain_eq ht hr]
    simp only [List.mem_reverse, mem_tail_chain ht hr, and_assoc]
  have hgate : hookRefused rt (rt.ancChain (some r)) name
      = ((rt.regions 0).subtreeFlags
        && (rt.ancChain (some r)).dropLast.any
          fun x => decide (name ∈ (rt.regions x).deniedHooks)) := by
    rw [hl]
    rfl
  rw [← hwalk, hgate]
  simp only [Bool.and_eq_true, List.any_eq_true, decide_eq_true_eq]
  constructor
  · exact fun h => h.2
  · rintro ⟨x, hx, hname⟩
    refine ⟨hflag x ?_ (List.ne_nil_of_mem hname), x, hx, hname⟩
    rw [dropLast_ancChain ht hr, List.mem_reverse] at hx
    exact lt_of_mem_chain ht hr (List.mem_of_mem_tail hx)

/-! ## The dispatch -/

theorem resolveAdapter_name {s : State} {a a' : Adapter} {call : Option Addr}
    (h : resolveAdapter s a = some (a', call)) : a'.name = a.name := by
  unfold resolveAdapter at h
  dsimp only at h
  split at h
  · split at h
    · cases h
    · split at h <;> cases h <;> rfl
  · cases h
    rfl

/-- Past the resolution of the adapter, a dispatch is refused or goes on. -/
theorem dispatchBegin_callable {s : State} {reg : AdapterRef} (h : s.Callable reg)
    (retp : Option BufRef) (selfOnly : Bool) :
    ∃ a call, resolveAdapter s (s.adapters reg) = some (a, call) ∧
      dispatchBegin w s retp (some reg) selfOnly
        = dispatchResolved w { s with adapters := Function.update s.adapters reg a } retp reg a
          selfOnly := by
  obtain ⟨a, call, hres, hsize, htramp⟩ := h
  refine ⟨a, call, hres, ?_⟩
  unfold dispatchBegin
  simp only [hres, if_neg (Nat.not_lt.mpr hsize), Option.isNone_iff_eq_none]
  rw [if_neg]
  intro hnone
  rw [hnone] at htramp
  cases htramp

theorem refused_dispatchFail (s : State) (retp : Option BufRef) (reg : AdapterRef) (err : Int) :
    Refused s (dispatchFail s retp reg err).1 retp reg where
  zeroed b hb := by
    cases hb
    have h := overwrite_take (s.mem b) (List.replicate (s.adapters reg).retSize 0)
    rw [List.length_replicate] at h
    simpa [dispatchFail, State.writeBuf, State.setLastRet] using h
  last ret := by
    cases retp <;> simp [dispatchFail, xyLast, State.writeBuf, State.setLastRet]
  current := (still_dispatchFail s retp reg err).current

theorem dispatchEnd_ret (s : State) (retp : Option BufRef) (reg : AdapterRef) (ran : Nat) :
    (dispatchEnd s retp reg ran).2 ≠ xyErrEperm := by
  unfold dispatchEnd
  dsimp only
  split <;> simp [xyErrNotfound, xyOk, xyErrEperm]

/-- A call of a dispatch that comes to its loop returns what the end of the loop
returns. -/
theorem CallRun.of_loop {retp : Option BufRef} {reg : AdapterRef} {selfOnly : Bool}
    {log : List Move} {v : Value} {s : State} {d : Dispatch}
    (h : CallRun w c (.call retp (some reg) selfOnly) log v c')
    (hloop : dispatchBegin w c.st retp (some reg) selfOnly = some (.loop s d)) :
    v ≠ .int xyErrEperm := by
  have hcall : ∀ {c₁ : Config} {ev : Event},
      step w c (.call (.call retp (some reg) selfOnly)) = .next c₁ ev →
      c₁ = ⟨s, .dispatch d none :: c.stack⟩ ∧ ev = .internal := by
    intro c₁ ev hs
    unfold step at hs
    dsimp only at hs
    split at hs
    · simp only [beginCall, hloop] at hs
      cases hs
      exact ⟨rfl, rfl⟩
    · cases hs
  cases h with
  | atOnce hs hk => cases (hcall hs).2
  | later hs hin hr hk =>
    obtain ⟨rfl, rfl⟩ := hcall hs
    obtain ⟨f', hf, hstack⟩ := hin.returning (l := []) rfl hr hk
    obtain ⟨d', run, rfl⟩ : ∃ d' run, f' = .dispatch d' run := by
      cases f' <;> first | exact hf.elim | exact ⟨_, _, rfl⟩
    obtain ⟨-, -, hv⟩ := (Step.of_step hr).dispatch_return hstack hk
    rw [Event.returned.injEq] at hv
    rw [hv]
    exact fun heq => dispatchEnd_ret _ _ _ _ (Value.int.inj heq)

theorem dispatchBegin_refused {s : State} {reg : AdapterRef} {r : Nat} (hcall : s.Callable reg)
    (retp : Option BufRef) (selfOnly : Bool) (hr : s.callerRegion = some r)
    (hrefused : hookRefused s.rt (s.rt.ancChain (some r)) (s.adapters reg).name = true) :
    ∃ s', dispatchBegin w s retp (some reg) selfOnly = some (.done s' xyErrEperm)
      ∧ Refused s s' retp reg := by
  obtain ⟨a, call, hres, hbegin⟩ := dispatchBegin_callable (w := w) hcall retp selfOnly
  have hname := resolveAdapter_name hres
  rw [hbegin]
  unfold dispatchResolved
  have hcaller : State.callerRegion { s with adapters := Function.update s.adapters reg a }
      = some r := hr
  have href := refused_dispatchFail { s with adapters := Function.update s.adapters reg a } retp reg
    xyErrEperm
  refine ⟨_, ?_, href.zeroed, href.last, href.current⟩
  dsimp only
  rw [hcaller, hname, if_pos hrefused]
  rfl

theorem dispatchBegin_allowed {s : State} {retp : Option BufRef} {reg : AdapterRef}
    {selfOnly : Bool} {r : Nat} (hcall : s.Callable reg) (hr : s.callerRegion = some r)
    (hallowed : hookRefused s.rt (s.rt.ancChain (some r)) (s.adapters reg).name = false)
    {start : DispatchStart} (h : dispatchBegin w s retp (some reg) selfOnly = some start) :
    ∃ s' d, start = .loop s' d := by
  obtain ⟨a, call, hres, hbegin⟩ := dispatchBegin_callable (w := w) hcall retp selfOnly
  have hname := resolveAdapter_name hres
  rw [hbegin] at h
  unfold dispatchResolved at h
  have hcaller : State.callerRegion { s with adapters := Function.update s.adapters reg a }
      = some r := hr
  have hcaller' : (({ s with adapters := Function.update s.adapters reg a } : State).lastPublish 0
      retp reg).callerRegion = some r := hr
  dsimp only at h
  rw [hcaller, hname, hallowed, if_neg (by simp), hcaller'] at h
  rcases dispatchScope_spec h with ⟨-, rfl⟩ | ⟨-, rt, -, rfl⟩
  · exact ⟨_, _, rfl⟩
  · exact ⟨_, _, rfl⟩

/-- A dispatch through a callable adapter is refused exactly when a strict
ancestor of the caller has denied the hook, and then it has no effect but to
say so. -/
theorem hookDeny_refuses {r : Nat} {retp : Option BufRef} {reg : AdapterRef} {selfOnly : Bool}
    (h : Reachable w c) (hcall : c.st.Callable reg) (hr : c.st.callerRegion = some r) :
    (c.waiting = true → c.st.rt.DeniedAbove r (c.st.adapters reg).name →
      ∃ log c', CallRun w c (.call retp (some reg) selfOnly) log (.int xyErrEperm) c')
    ∧ ∀ log v c', CallRun w c (.call retp (some reg) selfOnly) log v c' →
      (v = .int xyErrEperm ↔ c.st.rt.DeniedAbove r (c.st.adapters reg).name)
      ∧ (v = .int xyErrEperm → (∀ m ∈ log, ∀ e cb, m.event ≠ .enterListener e cb)
        ∧ Refused c.st c'.st retp reg) := by
  have hwf : c.Wf w := .of_reachable h
  have hiff := hookRefused_iff hwf.tree (denyFlag_of_reachable h) (hwf.callerRegion_lt hr)
    (c.st.adapters reg).name
  have hdone : ∀ s', dispatchBegin w c.st retp (some reg) selfOnly = some (.done s' xyErrEperm) →
      ∀ out, step w c (.call (.call retp (some reg) selfOnly)) = out → c.waiting = true →
        out = .next ⟨s', c.stack⟩ (.returned (.int xyErrEperm)) := by
    rintro s' hs' out rfl hw
    simp only [step, hw, if_true, beginCall, hs']
  refine ⟨fun hw hdenied => ?_, fun log v c' hrun => ?_⟩
  · obtain ⟨s', hs', -⟩ := dispatchBegin_refused hcall retp selfOnly hr (hiff.mpr hdenied)
    exact ⟨_, _, .atOnce (hdone s' hs' _ rfl hw) rfl⟩
  · have hw : c.waiting = true := by
      by_contra hw
      cases hrun <;> simp_all [step]
    by_cases hdenied : c.st.rt.DeniedAbove r (c.st.adapters reg).name
    · obtain ⟨s', hs', href⟩ := dispatchBegin_refused hcall retp selfOnly hr (hiff.mpr hdenied)
      cases hrun with
      | atOnce hs hk =>
        cases hdone s' hs' _ hs hw
        refine ⟨⟨fun _ => hdenied, fun _ => rfl⟩, fun _ => ⟨fun m hm e cb hev => ?_, href⟩⟩
        rw [List.mem_singleton.mp hm] at hev
        cases hev
      | later hs hin hr hk =>
        cases hdone s' hs' _ hs hw
        exact absurd hin.length_start (Nat.lt_irrefl _)
    · have hallowed : hookRefused c.st.rt (c.st.rt.ancChain (some r)) (c.st.adapters reg).name
          = false := by
        rw [Bool.eq_false_iff]
        exact fun hrefused => hdenied (hiff.mp hrefused)
      have hne : v ≠ .int xyErrEperm := by
        cases hbegin : dispatchBegin w c.st retp (some reg) selfOnly with
        | none => cases hrun <;> simp_all [step, beginCall]
        | some start =>
          obtain ⟨s', d, rfl⟩ := dispatchBegin_allowed hcall hr hallowed hbegin
          exact hrun.of_loop hbegin
      exact ⟨⟨fun hv => absurd hv hne, fun hd => absurd hd hdenied⟩, fun hv => absurd hv hne⟩

end

/-- The root denies a hook, and a region below it dispatches that hook. -/
theorem hookDeny_refuses_below_root :
    let c := (Config.boot sampleHook).after sampleWorld [.call (.areg sampleHook 0),
      .call (.deny sampleHook .hook), .call (.claimAt 0x1000000000000 16 none)]
    ∃ log c', CallRun sampleWorld c (.call (some 0) (some 0) false) log (.int xyErrEperm) c'
      ∧ Refused c.st c'.st (some 0) 0 := by
  intro c
  have hreach : Reachable sampleWorld c :=
    ReachableBy.after (.start (Config.boot_initial _)) fun _ _ _ => trivial
  have hcall : c.st.Callable 0 := ⟨_, some 1, rfl, by decide +kernel, by decide +kernel⟩
  have hcaller : c.st.callerRegion = some 1 := by decide +kernel
  have hdenies := @hookDeny_refuses _ _ 1 (some 0) 0 false hreach hcall hcaller
  obtain ⟨log, c', hrun⟩ := hdenies.1 (by decide +kernel) (by decide +kernel)
  exact ⟨log, c', hrun, (((hookDeny_refuses hreach hcall hcaller).2 _ _ _ hrun).2 rfl).2⟩

end Xylem
