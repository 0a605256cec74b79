import Xylem.FailedLoad
import Xylem.Quiet

/-!
# The region and the loading module behind a load and a scope

`xy_with_region` saves the current region when it switches, and `_mod_load` when it
enters its context.  Both put back what they have saved, whatever the code of modules
has done in between.

* `LoadTxn.Saved` says what a load in progress has done about the region that it is
  to leave behind.
* The loading module is a matter of the calls in progress (`LoaderIs`), which are
  the same again after any call.
-/

namespace Xylem

/-- The thread is in the region and loads the module that it was in and loaded
before. -/
structure Config.RestoredTo (c₀ c : Config) : Prop where
  current : c.st.tls.current = c₀.st.tls.current
  loading : c.st.tls.loadingMod = c₀.st.tls.loadingMod

/-- Whether a `dlopen` returns. -/
def Action.opens : Action → Bool
  | .ret (.dlopened _) => true
  | _ => false

/-- The `dlopen` of the load above `n` calls returns, after the constructors that it
has run. -/
def Move.Opens (n : Nat) (m : Move) : Prop :=
  m.before.stack.length = n + 1 ∧ m.act.opens = true

instance (n : Nat) (m : Move) : Decidable (m.Opens n) := by
  unfold Move.Opens; infer_instance

/-- What holds of a load that is to leave `cur` behind.  While the constructors run it
has saved nothing. -/
structure LoadTxn.Saved (cur : CurrentRegion) (tx : LoadTxn) (s : State) (pc : LoadPc) : Prop where
  active : (∀ err, pc ≠ .aborting err) → tx.contextActive = !pc.outside
  home : pc ≠ .opening → tx.home s = cur

/-- What holds of a load that is on the stack above `k`. -/
def InLoadFrom (k : List Frame) (cur : CurrentRegion) (c : Config) : Prop :=
  ∃ l tx pc, c.stack = l ++ .load tx pc :: k ∧ tx.Saved cur c.st pc

section

variable {w : World} {c c' : Config} {a : Action} {ev : Event} {k : List Frame}
  {cur : CurrentRegion} {log : List Move} {tx tx' : LoadTxn} {pc pc' : LoadPc} {s s' : State}

theorem resume_current {ret : Int} (h : resume s ret k = .next c' ev) :
    c'.st.tls.current = s.tls.current :=
  (resume_spec h).1.current

/-- The load goes on with what it has saved, if anything. -/
theorem LoadTxn.Saved.go (h : tx.Saved cur s pc) (hpc : pc ≠ .opening)
    (hactive : (∀ err, pc' ≠ .aborting err) → tx.contextActive = !pc'.outside)
    (hcur : tx.contextActive = true ∨ s'.tls.current = s.tls.current) : tx.Saved cur s' pc' := by
  refine ⟨hactive, fun _ => ?_⟩
  rw [← h.home hpc]
  unfold LoadTxn.home
  rcases hcur with hin | hcur
  · rw [if_pos hin, if_pos hin]
  · rw [hcur]

/-- A step of the load itself leads on to the next, or it returns to the region of
the caller. -/
theorem LoadTxn.Saved.step (hwf : Config.Wf w ⟨s, .load tx pc :: k⟩) (h : tx.Saved cur s pc)
    (hs : Step w ⟨s, .load tx pc :: k⟩ a c' ev) (ha : ∀ q, a ≠ .call q)
    (hctor : ∀ o, a = .ret (.dlopened o) → s.tls.current = cur) :
    (∃ tx' pc', c'.stack = .load tx' pc' :: k ∧ tx'.Saved cur c'.st pc')
      ∨ Resumed k c'.stack ∧ c'.st.tls.current = cur := by
  cases hs with
  | dlopenFailed hr => exact Or.inr ⟨(resume_spec hr).2, (resume_current hr).trans (hctor none rfl)⟩
  | @dlopened _ _ _ o =>
    have hout : tx.contextActive = false := h.active nofun
    refine Or.inl ⟨_, _, rfl, fun _ => hout, fun _ => ?_⟩
    unfold LoadTxn.home
    rw [if_neg (by simp [hout])]
    exact hctor (some o) rfl
  | reuse hl hme hr =>
    have hout : tx.contextActive = false := h.active nofun
    have hhome := h.home nofun
    unfold LoadTxn.home at hhome
    rw [if_neg (by simp [hout])] at hhome
    exact Or.inr ⟨(resume_spec hr).2, (resume_current hr).trans hhome⟩
  | publish hl => exact Or.inl ⟨_, _, rfl, fun _ => h.active nofun, fun _ => h.home nofun⟩
  | bind =>
    have hout : tx.contextActive = false := h.active nofun
    refine Or.inl ⟨_, _, rfl, h.go nofun (fun hpc => ?_) (Or.inr (modLoadBindXy_spec w s tx).1)⟩
    split at hpc
    · next hok => rw [if_pos hok, hout]; rfl
    · exact absurd rfl (hpc _)
  | claimFlat hg | claimAsked hg | claimRefused hg =>
    have hout : tx.contextActive = false := h.active nofun
    have hhome := h.home nofun
    unfold LoadTxn.home at hhome
    rw [if_neg (by simp [hout])] at hhome
    exact Or.inl ⟨_, _, rfl, fun _ => rfl, fun _ => hhome⟩
  | notGranted hg => exact Or.inl ⟨_, _, rfl, h.go nofun (fun hpc => absurd rfl (hpc _)) (Or.inr rfl)⟩
  | granted hg | rekey he hme | link he hme | install he hi =>
    have hin : tx.contextActive = true := h.active nofun
    exact Or.inl ⟨_, _, rfl, h.go nofun (fun _ => hin) (Or.inl hin)⟩
  | installMissing he hi =>
    exact Or.inl ⟨_, _, rfl, h.go nofun (fun hpc => absurd rfl (hpc _)) (Or.inr rfl)⟩
  | @installed _ _ _ prev _ _ hr =>
    have hrestore := (modLoadRestoreContext_spec
      { s with tls := { s.tls with loadingMod := prev } } tx).2.2.2.2
    exact Or.inr ⟨(resume_spec hr).2, (resume_current hr).trans (hrestore.trans (h.home nofun))⟩
  | abort hab hr =>
    obtain ⟨e, he, -, -⟩ := (hwf.top rfl).late rfl
    obtain ⟨me, -, -, -, -, hrestore⟩ := modLoadAbort_spec he hab
    exact Or.inr ⟨(resume_spec hr).2, (resume_current hr).trans (hrestore.trans (h.home nofun))⟩
  | _ => exact absurd rfl (ha _)

/-- What the modules do while the load waits for them. -/
theorem LoadTxn.Saved.elsewhere {c₀ : Config} (h : tx.Saved cur c.st pc)
    (he : Elsewhere c₀ c c' tx pc a) : tx.Saved cur c'.st pc := by
  refine ⟨h.active, fun hpc => ?_⟩
  rw [← h.home hpc]
  have hin : tx.contextActive = true := by
    have hw := he.waiting
    cases pc with
    | opening => exact absurd rfl hpc
    | handler | installing => exact h.active nofun
    | opened | bind | claim | rekey | link | install | aborting => cases hw
  unfold LoadTxn.home
  rw [if_pos hin, if_pos hin]

theorem InLoadFrom.step {c₀ : Config} (h : InLoadFrom c₀.stack cur c) (hwf : c.Wf w) (hp : c.Parked)
    (hs : Xylem.step w c a = .next c' ev)
    (hctor : Move.Opens c₀.stack.length ⟨c, a, ev, c'⟩ → c.st.tls.current = cur) :
    InLoadFrom c₀.stack cur c'
      ∨ c'.stack.length = c₀.stack.length ∧ c'.st.tls.current = cur := by
  obtain ⟨l, tx, pc, hstack, hsaved⟩ := h
  by_cases hown : c.stack.length = c₀.stack.length + 1 → ∃ q, a = .call q
  · have helse := Elsewhere.of_step hs hp ⟨l, hstack⟩ hown
    obtain ⟨l', hstack'⟩ := helse.frame'
    exact Or.inl ⟨l', tx, pc, hstack', hsaved.elsewhere helse⟩
  · rw [Classical.not_imp] at hown
    obtain ⟨hlength, ha⟩ := hown
    obtain rfl : l = [] := by
      rw [hstack] at hlength
      simpa using hlength
    obtain ⟨s, stack⟩ := c
    cases hstack
    rcases hsaved.step hwf (.of_step hs) (fun q hq => ha ⟨q, hq⟩)
      (fun o ho => hctor ⟨rfl, ho ▸ rfl⟩) with ⟨tx', pc', hstack', hsaved'⟩ | ⟨hres, hcur⟩
    · exact Or.inl ⟨[], tx', pc', hstack', hsaved'⟩
    · exact Or.inr ⟨hres.length, hcur⟩

/-- The step with which a scope returns. -/
theorem Step.scope_return {prev : CurrentRegion} (h : Step w c a c' ev)
    (hstack : c.stack = .scope prev :: k) (hk : c'.stack = k) : c'.st.tls.current = prev := by
  cases a with
  | call q =>
    obtain ⟨l, hl⟩ := h.call_push
    have hlength := congrArg List.length (hk.symm.trans hl)
    rw [hstack] at hlength
    simp at hlength
    omega
  | tau =>
    cases h with
    | _ => cases hstack
  | ret r =>
    cases h with
    | scopeEnd =>
      cases hstack
      rfl
    | _ => cases hstack

theorem InLoadFrom.run {c₀ c₁ : Config} (h : InLoadFrom c₀.stack cur c₁) (hreach : Reachable w c₁)
    (hin : Inside w c₀.stack.length c₁ log c)
    (hctor : ∀ m ∈ log, m.Opens c₀.stack.length → m.before.st.tls.current = cur) :
    InLoadFrom c₀.stack cur c := by
  induction hin with
  | start => exact h
  | move hin hs hlen ih =>
    have hc := hin.reachable (fun _ _ => trivial) hreach
    have hbefore := ih fun m hm => hctor m (List.mem_append_left _ hm)
    rcases hbefore.step (.of_reachable hc) (parked_of_reachable hc) hs
      (hctor _ (List.mem_append_right _ (List.mem_singleton.mpr rfl))) with hload | ⟨hret, -⟩
    · exact hload
    · omega

/-- A load leaves its caller in its region. -/
theorem CallRun.load_current {fname : CStr} {v : Value} (hreach : Reachable w c)
    (h : CallRun w c (.load fname) log v c')
    (hctor : ∀ m ∈ log, m.Opens c.stack.length → m.before.st.tls.current = c.st.tls.current) :
    c'.st.tls.current = c.st.tls.current := by
  cases h with
  | atOnce hs hk =>
    unfold Xylem.step beginCall beginLoad at hs
    dsimp only at hs
    split at hs
    · injection hs with hc hev
      cases hev
    · cases hs
  | @later c₁ c₂ _ a ev inner _ hs hin hr hk =>
    have hstart : InLoadFrom c.stack c.st.tls.current c₁ := by
      unfold Xylem.step beginCall beginLoad at hs
      dsimp only at hs
      split at hs
      · cases hs
        exact ⟨[], _, _, rfl, fun _ => rfl, fun hpc => absurd rfl hpc⟩
      · cases hs
    have hreach₁ : Reachable w c₁ := hreach.step trivial ⟨_, hs⟩
    have hreach₂ := hin.reachable (fun _ _ => trivial) hreach₁
    have hctor' : ∀ m ∈ inner ++ [⟨c₂, a, .returned v, c'⟩],
        m.Opens c.stack.length → m.before.st.tls.current = c.st.tls.current :=
      fun m hm => hctor m (List.mem_cons_of_mem _ hm)
    have hload := hstart.run hreach₁ hin fun m hm => hctor' m (List.mem_append_left _ hm)
    rcases hload.step (.of_reachable hreach₂) (parked_of_reachable hreach₂) hr
      (hctor' _ (List.mem_append_right _ (List.mem_singleton.mpr rfl))) with hstill | ⟨-, hcur⟩
    · obtain ⟨l, tx, pc, hstack, -⟩ := hstill
      have hlength := congrArg List.length (hk.symm.trans hstack)
      simp at hlength
      omega
    · exact hcur

/-- A scope leaves its caller in its region. -/
theorem CallRun.scope_current {id : RegionId} {plen : Nat} {hasFn : Bool} {v : Value}
    (h : CallRun w c (.withRegion id plen hasFn) log v c') :
    c'.st.tls.current = c.st.tls.current := by
  cases h with
  | atOnce hs hk =>
    cases Step.of_step hs with
    | answered hw => rfl
    | direct hw hq => cases hq
  | @later c₁ c₂ _ a ev inner _ hs hin hr hk =>
    have hstart : c₁.stack = .scope c.st.tls.current :: c.stack := by
      have hlen := hin.length_start
      cases Step.of_step hs with
      | scope hw hl => rfl
      | answered hw => exact absurd hlen (Nat.lt_irrefl _)
      | direct hw hq => cases hq
    obtain ⟨f, hf, hstack⟩ := hin.returning (l := []) hstart hr hk
    obtain rfl : f = .scope c.st.tls.current := by
      cases f with
      | scope prev => exact congrArg Frame.scope hf
      | load | unload | reload | dispatch | each => exact hf.elim
    exact (Step.of_step hr).scope_return hstack hk

/-- The loading module is that of the calls in progress. -/
theorem loading_eq (h : Reachable w c) (h' : Reachable w c') (hk : c'.stack = c.stack) :
    c'.st.tls.loadingMod = c.st.tls.loadingMod :=
  (loaderIs_of_reachable h).unique (hk ▸ loaderIs_of_reachable h')

theorem CallRun.reachable {q : Call} {v : Value} (hreach : Reachable w c)
    (h : CallRun w c q log v c') : Reachable w c' := by
  cases h with
  | atOnce hs hk => exact hreach.step trivial ⟨_, hs⟩
  | later hs hin hr hk =>
    have hreach₁ := hreach.step trivial ⟨_, hs⟩
    exact (hin.reachable (fun _ _ => trivial) hreach₁).step trivial ⟨_, hr⟩

theorem CallRun.stack_eq {q : Call} {v : Value} (h : CallRun w c q log v c') :
    c'.stack = c.stack := by
  cases h with
  | atOnce hs hk => exact hk
  | later hs hin hr hk => exact hk

/-- Whatever a scope function, or an `xy_install` and the claim handlers of a load, do
and however the load ends, `xy_with_region` and `xy_load` return with the current
region and the loading module of their call. -/
theorem caller_restored (hreach : Reachable w c) :
    (∀ fname log v c', CallRun w c (.load fname) log v c' →
      (∀ m ∈ log, m.Opens c.stack.length → m.before.st.tls.current = c.st.tls.current) →
      c.RestoredTo c')
    ∧ ∀ id plen hasFn log v c', CallRun w c (.withRegion id plen hasFn) log v c' →
      c.RestoredTo c' := by
  constructor
  · intro fname log v c' h hctor
    exact ⟨h.load_current hreach hctor, loading_eq hreach (h.reachable hreach) h.stack_eq⟩
  · intro id plen hasFn log v c' h
    exact ⟨h.scope_current, loading_eq hreach (h.reachable hreach) h.stack_eq⟩

end

/-- The claim handler and the `xy_install` of a load claim regions, and the latter
loads another module in a scope.  The load returns to the root. -/
theorem caller_restored_nested :
    let c := (Config.boot sampleHook).after claimingWorld [.call (.requireClaim (some 7))]
    ∃ log c', CallRun claimingWorld c (.load sampleFile) log (.int xyOk) c' ∧ c.RestoredTo c' := by
  intro c
  let q : Call := .load sampleFile
  let l : List Action := [.ret (.dlopened (some 1)), .tau, .tau, .tau,
      .call (.claimAt 0x2000000000000 16 none), .ret (.granted xyOk 8), .tau, .tau, .tau,
      .call (.claimAt 0x1000000000000 16 none), .call (.withRegion 0x2000000000000 16 true)]
    ++ loadRun sampleFile' 2 ++ [.ret (.scoped 0)]
  let log := movesOf claimingWorld c (.call q :: l)
    ++ movesOf claimingWorld (c.after claimingWorld (.call q :: l)) [.ret .installed]
  have hrun : CallRun claimingWorld c q log (.int xyOk) _ :=
    .of_actions (List.length_eq_zero_iff.mp (by decide +kernel)) (by decide +kernel)
      (by decide +kernel) (by decide +kernel)
  have hreach : Reachable claimingWorld c :=
    ReachableBy.after (.start (Config.boot_initial _)) fun _ _ _ => trivial
  have hctor : ∀ m ∈ log, m.Opens c.stack.length →
      m.before.st.tls.current = c.st.tls.current := by decide +kernel
  exact ⟨log, _, hrun, (caller_restored hreach).1 _ _ _ _ hrun hctor⟩

end Xylem
