import Xylem.ClaimGate
import Xylem.ModLists

/-!
# Loads that fail

A load that fails is to leave no trace, but for what the constructors and the claim
handler have done themselves.  `View` is what has to be as it was.  While the load
is in progress its own entry is left out of it, and the current region is the one
that the load will restore.

Every move of the host in such a load leaves the view alone, as long as the key of
the module is free when the entry is published, its context is of no other module
when it is bound, and an object that gets through the gate has an `xy_install`
(`Move.Safe`).  What the modules do in between is theirs.
-/

namespace Xylem

open Xylem.Runtime

/-- What a load that fails has to leave as it was. -/
structure View where
  tree : Tree
  table : List UInt8 → Option EntryRef
  entries : EntryRef → Option ModEntry
  lists : RegionRef → List EntryRef
  count : Int
  current : CurrentRegion
  loadingMod : Option EntryRef
  contexts : EntryRef → Option (Option StrRef × RegionId)

/-- What the context of an entry says. -/
def State.context (s : State) (x : EntryRef) : Option (Option StrRef × RegionId) :=
  ((s.rt.mods x).bind (·.ctx)).map fun c => ((s.ctxs c).modulePath, (s.ctxs c).regionId)

/-- The view without the entry `e`. -/
def State.view (s : State) (e : Option EntryRef) (home : CurrentRegion) : View where
  tree := s.rt.tree
  table k := (s.rt.modHd.lookup k).filter fun x => decide (e ≠ some x)
  entries x := if e = some x then none else s.rt.core x
  lists r := (s.rt.modsOf r).filter fun x => decide (e ≠ some x)
  count := s.rt.modCount
  current := home
  loadingMod := s.tls.loadingMod
  contexts x := if e = some x then none else s.context x

/-- The region that is current when the load has returned. -/
def LoadTxn.home (tx : LoadTxn) (s : State) : CurrentRegion :=
  if tx.contextActive then tx.prevRegion else s.tls.current

/-- The view of a load that has `n` calls below it. -/
def Config.view (n : Nat) (c : Config) : View :=
  match c.stack.reverse[n]? with
  | some (.load tx _) => c.st.view tx.modEntry (tx.home c.st)
  | _ => c.st.view none c.st.tls.current

/-- Whether module code calls the API. -/
def Action.isCall : Action → Bool
  | .call _ => true
  | _ => false

/-- The move is one of the host in the load: the call itself, or what the code of
`_mod_load` does. -/
def Move.ByHost (n : Nat) (m : Move) : Prop :=
  m.before.stack.length = n ∨ m.before.stack.length = n + 1 ∧ m.act.isCall = false

instance (n : Nat) (m : Move) : Decidable (m.ByHost n) := by
  unfold Move.ByHost; infer_instance

/-- What the host does in the load leaves the view alone. -/
def Traceless (n : Nat) (log : List Move) : Prop :=
  ∀ m ∈ log, m.ByHost n → m.after.view n = m.before.view n

/-- A move of the load is safe.

* No entry has been published under the key since the lookup, as a constructor that
  loads its own module does.
* The context is not that of another module, as it is when the object is loaded in
  two regions.
* An object that needs no claim, or whose claim is granted, has an `xy_install`.
* No other entry has been put under the key of an entry that is given up. -/
def Move.Safe (w : World) (n : Nat) (m : Move) : Prop :=
  match m.before.stack, m.act with
  | .load tx .opened :: k, .tau =>
    k.length = n → tx.lookup.entry = none → m.before.st.rt.modHd.lookup tx.lookup.key = none
  | .load tx .bind :: k, .tau =>
    k.length = n → modLoadCheckCtxAbi w tx = xyOk → ∀ c ∈ modLoadCtx w m.before.st tx,
      ∀ x < m.before.st.rt.nmods, (m.before.st.rt.mods x).bind (·.ctx) = some c →
        tx.modEntry = some x
  | .load tx .claim :: k, .tau =>
    k.length = n →
      (match modLoadClaimGate w (modLoadEnterContext m.before.st tx).1
          (modLoadEnterContext m.before.st tx).2 with
        | .flat => w.dlsym tx.handle .xyInstall ≠ none
        | _ => True)
  | .load tx (.handler parent) :: k, .ret (.granted ret bits) =>
    k.length = n → (xyClaimGranted m.before.st parent ret bits).isOk = true →
      w.dlsym tx.handle .xyInstall ≠ none
  | .load tx (.aborting _) :: k, .tau =>
    k.length = n →
      ∀ e ∈ tx.modEntry, ∀ key ∈ m.before.st.rt.keyOf e, ∀ x ∈ m.before.st.rt.modHd.lookup key,
        x = e
  | _, _ => True

instance (w : World) (n : Nat) (m : Move) : Decidable (m.Safe w n) := by
  unfold Move.Safe
  generalize m.before.stack = k
  generalize m.act = a
  induction k using List.casesOn with
  | nil => infer_instance
  | cons f k =>
    induction f using Frame.casesOn with
    | load tx pc =>
      induction a using Action.casesOn with
      | tau =>
        induction pc using LoadPc.casesOn with
        | claim =>
          dsimp only
          generalize modLoadClaimGate w (modLoadEnterContext m.before.st tx).1
            (modLoadEnterContext m.before.st tx).2 = g
          induction g using ClaimGate.casesOn <;> infer_instance
        | _ => infer_instance
      | ret v =>
        induction pc using LoadPc.casesOn <;> induction v using Return.casesOn <;> infer_instance
      | call q => induction pc using LoadPc.casesOn <;> infer_instance
    | _ => infer_instance

/-- Whether a load has got through the gate. -/
def LoadPc.through : LoadPc → Bool
  | .rekey _ | .link | .install | .installing _ => true
  | _ => false

/-- Whether a load has not entered its region. -/
def LoadPc.outside : LoadPc → Bool
  | .opening | .opened | .bind | .claim => true
  | _ => false

/-- Where a load stands that may still fail, after the moves `log`. -/
def LoadPhase (w : World) (n : Nat) (log : List Move) (tx : LoadTxn) (pc : LoadPc) : Prop :=
  (pc.through = true ∧ w.dlsym tx.handle .xyInstall ≠ none)
    ∨ (pc.through = false ∧ (pc.outside = true → tx.contextActive = false) ∧ Traceless n log)

section

variable {w : World} {n : Nat} {c c' : Config} {a : Action} {ev : Event} {s s' : State}
  {k l : List Frame} {tx tx' : LoadTxn} {pc pc' : LoadPc} {log : List Move} {m : Move}

theorem Config.view_load (hstack : c.stack = l ++ .load tx pc :: k) (hk : k.length = n) :
    c.view n = c.st.view tx.modEntry (tx.home c.st) := by
  have hframe : c.stack.reverse[n]? = some (.load tx pc) := by
    subst hk
    simp [hstack]
  unfold Config.view
  rw [hframe]

theorem Config.view_idle (hk : c.stack.length = n) :
    c.view n = c.st.view none c.st.tls.current := by
  have hframe : c.stack.reverse[n]? = none := by
    simp [hk]
  unfold Config.view
  rw [hframe]

theorem Traceless.concat (h : Traceless n log)
    (hm : m.ByHost n → m.after.view n = m.before.view n) : Traceless n (log ++ [m]) :=
  forall_mem_concat h hm

/-! ## The moves of the host -/

theorem State.view_congr (hrt : s'.rt = s.rt) (hctxs : s'.ctxs = s.ctxs)
    (hload : s'.tls.loadingMod = s.tls.loadingMod) (e : Option EntryRef) (home : CurrentRegion) :
    s'.view e home = s.view e home := by
  unfold State.view State.context
  rw [hrt, hctxs, hload]

theorem filter_ne_self {e : EntryRef} {l : List EntryRef} (h : e ∉ l) :
    l.filter (fun x => decide (some e ≠ some x)) = l := by
  refine List.filter_eq_self.mpr fun x hx => decide_eq_true fun heq => h ?_
  rw [Option.some.inj heq]
  exact hx

theorem filter_none_self {α : Type*} (l : List α) :
    l.filter (fun x => decide ((none : Option α) ≠ some x)) = l := by
  simp

/-- What the view shows of an entry that is not there, it shows without the entry. -/
theorem State.view_dead (h : s.rt.HeapWf) {e : EntryRef} (hdead : s.rt.mods e = none)
    (cur : CurrentRegion) : s.view (some e) cur = s.view none cur := by
  have hkey : s.rt.keyOf e = none := keyOf_eq_none.mpr hdead
  refine (View.mk.injEq ..).mpr ⟨rfl, funext fun k => ?_, funext fun x => ?_, funext fun r => ?_,
    rfl, rfl, rfl, funext fun x => ?_⟩
  · cases hk : s.rt.modHd.lookup k with
    | none => rfl
    | some x =>
      have hne : e ≠ x := by
        rintro rfl
        rw [h.table hk] at hkey
        cases hkey
      simp [Option.filter, hne]
  · split
    · next heq =>
      cases heq
      simp [core, hdead]
    · rfl
  · rw [filter_none_self]
    refine filter_ne_self fun hmem => ?_
    have hhome := h.mem_iff.mp hmem
    simp [Runtime.home, hdead] at hhome
  · split
    · next heq =>
      cases heq
      simp [State.context, hdead]
    · rfl

/-- A new entry that goes under a key that is free. -/
theorem view_publish (h : s.rt.HeapWf) (hkey : s.rt.modHd.lookup tx.lookup.key = none)
    (home : CurrentRegion) :
    (modLoadAllocPublish s tx).1.view (some s.rt.nmods) home = s.view none home := by
  rw [← State.view_dead h (h.fresh le_rfl)]
  have hmods : ∀ x, some s.rt.nmods ≠ some x →
      (modLoadAllocPublish s tx).1.rt.mods x = s.rt.mods x := fun x hx =>
    Function.update_of_ne (fun heq => hx (by rw [heq])) _ _
  refine (View.mk.injEq ..).mpr ⟨rfl, funext fun k => ?_, funext fun x => ?_, rfl, rfl, rfl, rfl,
    funext fun x => ?_⟩
  · show ((s.rt.modHd.insert tx.lookup.key s.rt.nmods).lookup k).filter _ = _
    by_cases hk : k = tx.lookup.key
    · subst hk
      rw [AList.lookup_insert, hkey]
      simp
    · rw [AList.lookup_insert_ne hk]
  · split
    · rfl
    · next hne => simp only [core, hmods x hne]
  · split
    · rfl
    · next hne =>
      unfold State.context
      rw [hmods x hne]
      rfl

/-- A context that is bound to the entry, and to no other. -/
theorem view_bind (cur : CurrentRegion)
    (hown : modLoadCheckCtxAbi w tx = xyOk → ∀ c ∈ modLoadCtx w s tx,
      ∀ x, (s.rt.mods x).bind (·.ctx) = some c → tx.modEntry = some x) :
    (modLoadBindXy w s tx).1.view tx.modEntry cur = s.view tx.modEntry cur := by
  obtain ⟨-, hload, ⟨hrt, hctxs⟩ | ⟨c, e, hc, he, hret, hrt, hctxs⟩⟩ := modLoadBindXy_spec w s tx
  · exact State.view_congr hrt hctxs hload _ _
  have habi : modLoadCheckCtxAbi w tx = xyOk := by
    by_contra hne
    unfold modLoadBindXy at hret
    dsimp only at hret
    rw [hc, he] at hret
    dsimp only at hret
    rw [if_pos hne] at hret
    exact absurd (show xyErrAbi = xyOk from hret) (by decide)
  have hmods : ∀ x, tx.modEntry ≠ some x → (modLoadBindXy w s tx).1.rt.mods x = s.rt.mods x :=
    fun x hx => by
      rw [hrt]
      exact Function.update_of_ne (fun heq : x = e => hx (heq ▸ he)) _ _
  refine (View.mk.injEq ..).mpr ⟨?_, ?_, funext fun x => ?_, ?_, ?_, rfl, hload, funext fun x => ?_⟩
  · rw [hrt]
    rfl
  · rw [hrt]
    rfl
  · split
    · rfl
    · next hne => simp only [core, hmods x hne]
  · rw [hrt]
    rfl
  · rw [hrt]
    rfl
  · split
    · rfl
    · next hne =>
      unfold State.context
      rw [hmods x hne, hctxs]
      cases hme : s.rt.mods x with
      | none => rfl
      | some me =>
        cases hmc : me.ctx with
        | none => simp [hmc]
        | some c' =>
          have hcc : c' ≠ c := by
            rintro rfl
            exact hne (hown habi c' hc x (by rw [hme]; exact hmc))
          simp [hmc, Function.update_of_ne hcc]

/-- An entry that is taken out of the lists leaves the rest of them. -/
theorem moduleRegionDetach_lists (rt : Runtime) (e : EntryRef) (r : RegionRef) :
    ((rt.moduleRegionDetach e).modsOf r).filter (fun x => decide (some e ≠ some x))
      = (rt.modsOf r).filter fun x => decide (some e ≠ some x) := by
  cases hhome : (rt.mods e).bind (·.regionEntry) with
  | none => rw [moduleRegionDetach_modsOf_of_none rt hhome]
  | some r' =>
    rw [moduleRegionDetach_modsOf rt hhome]
    by_cases hr : r = r'
    · subst hr
      rw [Function.update_self]
      exact filter_erase_of_not (by simp)
    · rw [Function.update_of_ne hr]

/-- An entry that is given up. -/
theorem view_abort (h : s.rt.HeapWf) {e : EntryRef} (he : tx.modEntry = some e)
    (hpub : tx.publishedEntry = true) (ha : modLoadAbort w s tx = some s')
    (hkey : ∀ k ∈ s.rt.keyOf e, ∀ x ∈ s.rt.modHd.lookup k, x = e) (cur : CurrentRegion) :
    s'.view none cur = s.view (some e) cur := by
  obtain ⟨me, hme, hrt, hctxs, hload, -⟩ := modLoadAbort_spec he ha
  have hrt' : s'.rt = s.rt.discardEntry w e me := by
    rw [hrt, hpub]
    rfl
  have hkeyOf : s.rt.keyOf e = some me.modKey := by simp [keyOf, hme]
  have hmods : s'.rt.mods = Function.update s.rt.mods e none := by
    rw [hrt', discardEntry_mods]
  have hheap : s'.rt.HeapWf := hrt' ▸ h.discard hkeyOf
  rw [← State.view_dead hheap (e := e) (by rw [hmods, Function.update_self])]
  have hother : ∀ x, some e ≠ some x → s'.rt.mods x = s.rt.mods x := fun x hx => by
    rw [hmods]
    exact Function.update_of_ne (fun heq => hx (by rw [heq])) _ _
  refine (View.mk.injEq ..).mpr ⟨?_, funext fun k => ?_, funext fun x => ?_, funext fun r => ?_, ?_,
    rfl, hload, funext fun x => ?_⟩
  · rw [hrt', discardEntry_tree]
  · rw [hrt', (discardEntry_modHd s.rt e me).1]
    by_cases hk : k = me.modKey
    · subst hk
      rw [AList.lookup_erase]
      cases hl : s.rt.modHd.lookup me.modKey with
      | none => rfl
      | some x =>
        rw [hkey me.modKey hkeyOf x hl]
        simp [Option.filter]
    · rw [AList.lookup_erase_ne hk]
  · split
    · rfl
    · next hne => simp only [core, hother x hne]
  · rw [hrt']
    exact moduleRegionDetach_lists s.rt e r
  · rw [hrt']
    unfold discardEntry moduleRegionDetach
    dsimp only
    split <;> rfl
  · split
    · rfl
    · next hne =>
      unfold State.context
      rw [hother x hne, hctxs]

/-! ## The load from its start to its return -/

/-- The load goes on. -/
def GoesOn (w : World) (n : Nat) (log : List Move) (k : List Frame) (c' : Config) : Prop :=
  ∃ tx' pc', c'.stack = .load tx' pc' :: k ∧ LoadPhase w n log tx' pc'

/-- A move of the host in the load, but the last. -/
theorem LoadPhase.own (hwf : c.Wf w) (hstack : c.stack = .load tx pc :: k) (hk : k.length = n)
    (h : LoadPhase w n log tx pc) (hsafe : (⟨c, a, ev, c'⟩ : Move).Safe w n)
    (ha : ∀ q, a ≠ .call q) (hlen : n < c'.stack.length) (hstep : Step w c a c' ev) :
    GoesOn w n (log ++ [⟨c, a, ev, c'⟩]) k c' := by
  obtain ⟨s, stack⟩ := c
  obtain rfl : stack = .load tx pc :: k := hstack
  have hview : ∀ {tx' pc'}, c'.stack = .load tx' pc' :: k → Traceless n log →
      c'.st.view tx'.modEntry (tx'.home c'.st) = s.view tx.modEntry (tx.home s) →
      Traceless n (log ++ [⟨⟨s, .load tx pc :: k⟩, a, ev, c'⟩]) := by
    intro tx' pc' hstack' ht hview
    refine ht.concat fun _ => ?_
    show c'.view n = Config.view n ⟨s, .load tx pc :: k⟩
    rw [Config.view_load (l := []) hstack' hk,
      Config.view_load (c := ⟨s, .load tx pc :: k⟩) (l := []) rfl hk, hview]
  have hback : ∀ {s' : State} {ret : Int}, resume s' ret k ≠ .next c' ev := by
    intro s' ret hr
    have hlength := (resume_spec hr).2.length
    omega
  rcases h with ⟨hthrough, hinst⟩ | ⟨hthrough, houtside, ht⟩
  · cases hstep with
    | answered | direct | dispatchDone | load | unload | reload | scope | eachFirst | dispatchLoop =>
      exact absurd rfl (ha _)
    | rekey | link | install => exact ⟨_, _, rfl, Or.inl ⟨rfl, hinst⟩⟩
    | installMissing he hi => exact absurd hi hinst
    | installed hr => exact absurd hr hback
    | dlopened | dlopenFailed | reuse | publish | bind | claimFlat | claimRefused | claimAsked
    | notGranted | granted | abort => cases hthrough
  · cases hstep with
    | answered | direct | dispatchDone | load | unload | reload | scope | eachFirst | dispatchLoop =>
      exact absurd rfl (ha _)
    | dlopened => exact ⟨_, _, rfl, Or.inr ⟨rfl, houtside, hview rfl ht rfl⟩⟩
    | dlopenFailed hr => exact absurd hr hback
    | reuse hl hme hr => exact absurd hr hback
    | publish hl =>
      refine ⟨_, _, rfl, Or.inr ⟨rfl, houtside, hview rfl ht ?_⟩⟩
      rw [(hwf.top rfl).early rfl]
      exact view_publish hwf.heap (hsafe hk hl) _
    | bind =>
      refine ⟨_, _, rfl, Or.inr ⟨by split <;> rfl, fun _ => houtside rfl, hview rfl ht ?_⟩⟩
      have hhome : tx.home (modLoadBindXy w s tx).1 = tx.home s := by
        unfold LoadTxn.home
        rw [(modLoadBindXy_spec w s tx).1]
      rw [hhome]
      refine view_bind _ fun habi ctx hctx x hx => hsafe hk habi ctx hctx x ?_ hx
      by_contra hlt
      rw [hwf.heap.fresh (Nat.not_lt.mp hlt)] at hx
      cases hx
    | claimFlat hg =>
      have hinst := hsafe hk
      dsimp only at hinst
      rw [hg] at hinst
      exact ⟨_, _, rfl, Or.inl ⟨rfl, hinst⟩⟩
    | claimRefused hg | claimAsked hg =>
      refine ⟨_, _, rfl, Or.inr ⟨rfl, nofun, hview rfl ht ?_⟩⟩
      have hhome : tx.home s = s.tls.current := by
        unfold LoadTxn.home
        rw [houtside rfl]
        rfl
      rw [hhome]
      rfl
    | notGranted hg => exact ⟨_, _, rfl, Or.inr ⟨rfl, nofun, hview rfl ht rfl⟩⟩
    | granted hg => exact ⟨_, _, rfl, Or.inl ⟨rfl, hsafe hk (by rw [hg]; rfl)⟩⟩
    | rekey | link | installMissing | install | installed => cases hthrough
    | abort ha hr => exact absurd hr hback

/-- What the modules do in the load. -/
theorem LoadPhase.elsewhere {c₀ : Config} (h : LoadPhase w c₀.stack.length log tx pc)
    (he : Elsewhere c₀ c c' tx pc a) :
    LoadPhase w c₀.stack.length (log ++ [⟨c, a, ev, c'⟩]) tx pc := by
  refine h.imp_right fun ⟨hthrough, houtside, ht⟩ => ⟨hthrough, houtside, ht.concat ?_⟩
  rintro (hlen | ⟨hlen, hnot⟩)
  · obtain ⟨l, hl⟩ := he.frame
    have hlength := congrArg List.length hl
    simp only [List.length_append, List.length_cons] at hlength
    have hlen : c.stack.length = c₀.stack.length := hlen
    omega
  · obtain ⟨q, rfl⟩ := he.own hlen
    cases hnot

/-- What holds of a load, called in `c₀`, while it is in progress. -/
def InLoad (w : World) (c₀ : Config) (log : List Move) (c : Config) : Prop :=
  ∃ l tx pc, c.stack = l ++ .load tx pc :: c₀.stack ∧ LoadPhase w c₀.stack.length log tx pc

theorem InLoad.step {c₀ : Config} (h : InLoad w c₀ log c) (hwf : c.Wf w) (hp : c.Parked)
    (hs : Xylem.step w c a = .next c' ev) (hlen : c₀.stack.length < c'.stack.length)
    (hsafe : (⟨c, a, ev, c'⟩ : Move).Safe w c₀.stack.length) :
    InLoad w c₀ (log ++ [⟨c, a, ev, c'⟩]) c' := by
  obtain ⟨l, tx, pc, hstack, hphase⟩ := h
  by_cases hown : c.stack.length = c₀.stack.length + 1 → ∃ q, a = .call q
  · have helse := Elsewhere.of_step hs hp ⟨l, hstack⟩ hown
    obtain ⟨l', hstack'⟩ := helse.frame'
    exact ⟨l', tx, pc, hstack', hphase.elsewhere helse⟩
  · rw [Classical.not_imp] at hown
    obtain ⟨hlength, ha⟩ := hown
    obtain rfl : l = [] := by
      rw [hstack] at hlength
      simpa using hlength
    obtain ⟨tx', pc', hstack', hphase'⟩ := hphase.own hwf hstack rfl hsafe
      (fun q hq => ha ⟨q, hq⟩) hlen (.of_step hs)
    exact ⟨[], tx', pc', hstack', hphase'⟩

theorem InLoad.run {c₀ c₁ : Config} {pre : List Move} (h : InLoad w c₀ pre c₁)
    (hreach : Reachable w c₁) (hin : Inside w c₀.stack.length c₁ log c)
    (hsafe : ∀ m ∈ log, m.Safe w c₀.stack.length) : InLoad w c₀ (pre ++ log) c := by
  induction hin with
  | start => simpa using h
  | move hin hs hlen ih =>
    have hc := hin.reachable (fun _ _ => trivial) hreach
    rw [← List.append_assoc]
    exact (ih fun m hm => hsafe m (List.mem_append_left _ hm)).step (.of_reachable hc)
      (parked_of_reachable hc) hs hlen (hsafe _ (List.mem_append_right _ (List.mem_singleton.mpr rfl)))

/-- The move with which the load fails. -/
theorem LoadPhase.fails {err : Int} (hwf : c.Wf w) (hstack : c.stack = .load tx pc :: k)
    (hk : k.length = n) (h : LoadPhase w n log tx pc)
    (hs : Xylem.step w c a = .next c' (.returned (.int err))) (hback : c'.stack = k)
    (herr : err ≠ xyOk) (hsafe : (⟨c, a, .returned (.int err), c'⟩ : Move).Safe w n) :
    Traceless n (log ++ [⟨c, a, .returned (.int err), c'⟩]) := by
  have hnocall : ∀ q, a ≠ .call q := by
    rintro q rfl
    obtain ⟨l, hl⟩ := (Step.of_step hs).call_push
    have hlength := congrArg List.length hl
    simp [hback, hstack] at hlength
    omega
  have hstep := Step.of_step hs
  obtain ⟨s, stack⟩ := c
  obtain rfl : stack = .load tx pc :: k := hstack
  have hok : ∀ {s' : State}, resume s' xyOk k ≠ .next c' (.returned (.int err)) := fun hr =>
    herr (Value.int.inj (resume_returned hr))
  have hview : ∀ {s' : State} {ret : Int}, resume s' ret k = .next c' (.returned (.int err)) →
      s'.view none s'.tls.current = s.view tx.modEntry (tx.home s) →
      c'.view n = Config.view n ⟨s, .load tx pc :: k⟩ := by
    intro s' ret hr hv
    have hstill := (resume_spec hr).1
    rw [Config.view_idle (c := c') (hback ▸ hk),
      Config.view_load (c := ⟨s, .load tx pc :: k⟩) (l := []) rfl hk, ← hv, hstill.current]
    exact State.view_congr hstill.rt hstill.ctxs hstill.loadingMod _ _
  rcases h with ⟨hthrough, hinst⟩ | ⟨hthrough, houtside, ht⟩
  · cases hstep with
    | answered | direct | dispatchDone | unload | reload => exact absurd rfl (hnocall _)
    | installed hr => exact absurd hr hok
    | dlopenFailed | reuse | abort => cases hthrough
  · cases hstep with
    | answered | direct | dispatchDone | unload | reload => exact absurd rfl (hnocall _)
    | installed hr => exact absurd hr hok
    | reuse hl hme hr => exact absurd hr hok
    | dlopenFailed hr =>
      refine ht.concat fun _ => hview hr ?_
      have hhome : tx.home s = s.tls.current := by
        unfold LoadTxn.home
        rw [houtside rfl]
        rfl
      rw [hhome, (hwf.top rfl).early rfl]
      rfl
    | abort ha hr =>
      obtain ⟨e, he, -, hpub⟩ := (hwf.top rfl).late rfl
      obtain ⟨me, hme, -, -, -, hcur⟩ := modLoadAbort_spec he ha
      refine ht.concat fun _ => hview hr ?_
      rw [view_abort hwf.heap he hpub ha (hsafe hk e he) _, he, hcur]
      rfl

/-- What keeps the view at every move keeps it at all. -/
theorem Inside.view_eq {c₁ : Config} {j : Nat} (h : Inside w j c₁ log c)
    (hview : ∀ m ∈ log, m.after.view n = m.before.view n) : c.view n = c₁.view n := by
  induction h with
  | start => rfl
  | move hin hs hlen ih =>
    exact (hview _ (List.mem_append_right _ (List.mem_singleton.mpr rfl))).trans
      (ih fun m hm => hview m (List.mem_append_left _ hm))

theorem CallRun.view_eq {q : Call} {v : Value} (h : CallRun w c q log v c')
    (hview : ∀ m ∈ log, m.after.view n = m.before.view n) : c'.view n = c.view n := by
  cases h with
  | atOnce hs hk => exact hview _ (List.mem_singleton.mpr rfl)
  | @later c₁ c₂ _ a ev inner _ hs hin hr hk =>
    have hfirst : c₁.view n = c.view n := hview ⟨c, .call q, ev, c₁⟩ (by simp)
    have hlast : c'.view n = c₂.view n :=
      hview ⟨c₂, a, .returned v, c'⟩ (List.mem_append_right _ (List.mem_singleton.mpr rfl))
    exact hlast.trans ((hin.view_eq fun m hm => hview m (by simp [hm])).trans hfirst)

theorem inLoad_start {c₁ : Config} {fname : CStr}
    (hs : Xylem.step w c (.call (.load fname)) = .next c₁ ev) :
    InLoad w c [⟨c, .call (.load fname), ev, c₁⟩] c₁
      ∧ c₁.stack = .load (modLoadStart w c.st fname) .opening :: c.stack := by
  unfold Xylem.step at hs
  dsimp only at hs
  split at hs
  · cases hs
    refine ⟨⟨[], _, _, rfl, Or.inr ⟨rfl, fun _ => rfl, fun m hm _ => ?_⟩⟩, rfl⟩
    rw [List.mem_singleton.mp hm]
    show Config.view _ _ = c.view _
    rw [Config.view_load (l := []) rfl rfl, Config.view_idle (c := c) rfl]
    rfl
  · cases hs

/-- A load that fails leaves no trace: no move of the host changes anything, and what
has changed when it returns the modules have changed. -/
theorem failed_load_traceless {fname : CStr} {err : Int} (h : Reachable w c)
    (hcall : CallRun w c (.load fname) log (.int err) c') (herr : err ≠ xyOk)
    (hsafe : ∀ m ∈ log, m.Safe w c.stack.length) :
    Traceless c.stack.length log
      ∧ ((∀ m ∈ log, ¬ m.ByHost c.stack.length →
          m.after.view c.stack.length = m.before.view c.stack.length) →
        c'.st.view none c'.st.tls.current = c.st.view none c.st.tls.current) := by
  have htraceless : Traceless c.stack.length log := by
    cases hcall with
    | atOnce hs hk =>
      obtain ⟨-, hstack⟩ := inLoad_start hs
      rw [hk] at hstack
      exact absurd (congrArg List.length hstack) (by simp)
    | @later c₁ c₂ _ a ev inner _ hs hin hret hk =>
      obtain ⟨hstart, hstack₁⟩ := inLoad_start hs
      have hreach₁ : Reachable w c₁ := h.step trivial ⟨_, hs⟩
      have hwf₂ : c₂.Wf w := .of_reachable (hin.reachable (fun _ _ => trivial) hreach₁)
      obtain ⟨l, tx, pc, hstack, hphase⟩ := hstart.run hreach₁ hin fun m hm => hsafe m (by simp [hm])
      obtain rfl : l = [] := by
        obtain ⟨f, -, hstack₂⟩ := hin.returning (l := []) hstack₁ hret hk
        simpa using congrArg List.length (hstack.symm.trans hstack₂)
      exact hphase.fails hwf₂ hstack rfl hret hk herr
        (hsafe _ (List.mem_append_right _ (List.mem_singleton.mpr rfl)))
  refine ⟨htraceless, fun hmodules => ?_⟩
  have hstack : c'.stack.length = c.stack.length := by
    cases hcall with
    | atOnce hs hk | later hs hin hr hk => rw [hk]
  rw [← Config.view_idle hstack, ← Config.view_idle rfl]
  refine hcall.view_eq fun m hm => ?_
  by_cases hhost : m.ByHost c.stack.length
  · exact htraceless m hm hhost
  · exact hmodules m hm hhost

end

/-- The handler of the root refuses the claim of a module. -/
theorem failed_load_traceless_refused :
    let c := (Config.boot sampleHook).after claimingWorld [.call (.requireClaim (some 7))]
    ∃ log c', CallRun claimingWorld c (.load sampleFile) log (.int xyErrEperm) c'
      ∧ c'.st.view none c'.st.tls.current = c.st.view none c.st.tls.current := by
  intro c
  let q : Call := .load sampleFile
  let l : List Action := [.ret (.dlopened (some 1)), .tau, .tau, .tau, .ret (.granted xyErrEperm 8)]
  let log := movesOf claimingWorld c (.call q :: l)
    ++ movesOf claimingWorld (c.after claimingWorld (.call q :: l)) [.tau]
  have hrun : CallRun claimingWorld c q log (.int xyErrEperm) _ :=
    .of_actions (List.length_eq_zero_iff.mp (by decide +kernel)) (by decide +kernel)
      (by decide +kernel) (by decide +kernel)
  have hreach : Reachable claimingWorld c :=
    ReachableBy.after (.start (Config.boot_initial _)) fun _ _ _ => trivial
  have hsafe : ∀ m ∈ log, m.Safe claimingWorld c.stack.length := by decide +kernel
  have hhost : ∀ m ∈ log, m.ByHost c.stack.length := by decide +kernel
  obtain ⟨-, hsame⟩ := failed_load_traceless hreach hrun (by decide) hsafe
  exact ⟨log, _, hrun, hsame fun m hm hnot => absurd (hhost m hm) hnot⟩

/-- An object without `xy_install` stays in the count of the modules when its load
fails. -/
theorem not_failed_load_traceless :
    let w : World := .ofObjects fun _ => { SharedObject.listener sampleHook with install := false }
    let c := Config.boot sampleHook
    ∃ log c', CallRun w c (.load sampleFile) log (.int xyErrNotfound) c'
      ∧ (∀ m ∈ log, m.ByHost c.stack.length) ∧ ¬ Traceless c.stack.length log
      ∧ c.st.rt.modCount = 0 ∧ c'.st.rt.modCount = 1 := by
  intro w c
  let q : Call := .load sampleFile
  let l : List Action := [.ret (.dlopened (some 1)), .tau, .tau, .tau, .tau, .tau]
  let log := movesOf w c (.call q :: l) ++ movesOf w (c.after w (.call q :: l)) [.tau]
  have hrun : CallRun w c q log (.int xyErrNotfound) ((c.after w (.call q :: l)).after w [.tau]) :=
    .of_actions (List.length_eq_zero_iff.mp (by decide +kernel)) (by decide +kernel)
      (by decide +kernel) (by decide +kernel)
  have hhost : ∀ m ∈ log, m.ByHost c.stack.length := by decide +kernel
  have hbefore : c.st.rt.modCount = 0 := by decide +kernel
  have hafter : ((c.after w (.call q :: l)).after w [.tau]).st.rt.modCount = 1 := by
    decide +kernel
  have hstack : ((c.after w (.call q :: l)).after w [.tau]).stack.length = c.stack.length := by
    decide +kernel
  refine ⟨log, _, hrun, hhost, fun htraceless => ?_, hbefore, hafter⟩
  have hview := hrun.view_eq fun m hm => htraceless m hm (hhost m hm)
  rw [Config.view_idle hstack, Config.view_idle rfl] at hview
  have hcount : ((c.after w (.call q :: l)).after w [.tau]).st.rt.modCount = c.st.rt.modCount :=
    congrArg View.count hview
  rw [hbefore, hafter] at hcount
  cases hcount

end Xylem
