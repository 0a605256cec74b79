import Xylem.HookIds
import Xylem.LastValue

/-!
# Hook ids stay with their names

The number of a hook is cached in adapters that outlive every runtime, in the
callback caches of the modules and in the hook vectors.

* `numbersOnto_of_trace`: the numbers are those below `xy_hook_id_counter`; that each
  is the number of one name is `NamesWf`.
* `HookNumbers`: an adapter holds the number of its own name, if it holds one, a
  dispatch in progress goes by the number and the name of its adapter, and what is
  cached under a number was found under the name with this number.
* `hooksStable_of_trace`: in a run in which every adapter is registered under its own
  name, all this holds, and a dispatch enters callbacks of its own hook only.
-/

namespace Xylem

open Xylem.Runtime

/-- The configuration that a run started in. -/
def startOf (log : List Move) (c : Config) : Config := (log.head?.map (·.before)).getD c

/-- The registration that a move asks for. -/
def Move.areg (m : Move) : Option (CStr × AdapterRef) :=
  match m.act with
  | .call (.areg name reg) => some (name, reg)
  | _ => none

/-- What the move registers has the name that it is registered under. -/
def Move.AregsOwn (m : Move) : Prop :=
  ∀ p ∈ m.areg, p.1 = (m.before.st.adapters p.2).name

instance (m : Move) : Decidable m.AregsOwn := by
  unfold Move.AregsOwn; infer_instance

/-- The name with this number. -/
def Runtime.Numbered (rt : Runtime) (hookId : Nat) (name : CStr) : Prop :=
  rt.hookIdHd.lookup name = some hookId

/-- The adapter holds no number, or that of its own name. -/
def State.HoldsOwn (s : State) (reg : AdapterRef) : Prop :=
  (s.adapters reg).hookId = -1
    ∨ ∃ hookId : Nat, s.rt.Numbered hookId (s.adapters reg).name
      ∧ (s.adapters reg).hookId = hookId

/-- The dispatch goes by the name of its adapter and the number of this name. -/
structure Dispatch.Own (s : State) (d : Dispatch) : Prop where
  name : d.name = (s.adapters d.reg).name
  hookId : s.rt.Numbered d.hookId d.name

/-- What is known of the numbers at any point of a run. -/
structure HookNumbers (w : World) (c : Config) : Prop where
  adapters : ∀ reg, c.st.HoldsOwn reg
  dispatches : ∀ d run, .dispatch d run ∈ c.stack → d.Own c.st
  callbacks : c.st.rt.CallbacksNamed w c.st.rt.Numbered

/-- What is entered by the move is a callback of the hook that its dispatch is
for. -/
def Move.EntersOwn (w : World) (m : Move) : Prop :=
  ∀ e x, m.event = .enterListener e (.fn x) →
    ∃ d k me, m.before.stack = .dispatch d none :: k ∧ d.Own m.before.st
      ∧ m.before.st.rt.mods e = some me ∧ w.hookSymbol me.handle d.name = some x

section

variable {w : World} {c c' : Config} {a : Action} {ev : Event} {name : CStr} {reg : AdapterRef}
  {hookId : Nat} {log : List Move} {s s' : State} {rt rt' : Runtime} {m : Move}

/-! ## The table of the numbers -/

/-- The numbers are never taken back. -/
def Runtime.KeepsNumbers (rt rt' : Runtime) : Prop := ∀ i n, rt.Numbered i n → rt'.Numbered i n

/-- Every number below the counter is that of a name. -/
def Runtime.NumbersOnto (rt : Runtime) : Prop :=
  ∀ hookId < rt.hookIdCounter, ∃ name, rt.Numbered hookId name

theorem numbered_of_mem {hook : Sigma fun _ : CStr => Nat} (h : hook ∈ rt.hookIdHd.entries) :
    rt.Numbered hook.2 hook.1 := AList.mem_lookup_iff.mpr h

theorem numbersOnto_step (hnames : c.st.rt.NamesWf) (h : c.st.rt.NumbersOnto) (hwf : c.Wf w)
    (hs : step w c a = .next c' ev) : c'.st.rt.NumbersOnto := by
  by_cases hareg : ∃ name reg, a = .call (.areg name reg)
  · obtain ⟨name, reg, rfl⟩ := hareg
    rw [step_areg hs]
    unfold xyAreg
    split
    · exact h
    · split
      · exact h
      · next hnew =>
        intro i hi
        have hi : i < c.st.rt.hookIdCounter + 1 := hi
        by_cases hlast : i = c.st.rt.hookIdCounter
        · refine ⟨name, ?_⟩
          show (c.st.rt.registerHook w name reg).hookIdHd.lookup name = some i
          rw [lookup_registerHook, if_pos rfl, hlast]
        · obtain ⟨n, hn⟩ := h i (by omega)
          refine ⟨n, ?_⟩
          have hne : n ≠ name := by
            intro heq
            have hnone := hnames.known hnew
            rw [← heq] at hnone
            exact absurd (hn.symm.trans hnone) (by simp)
          show (c.st.rt.registerHook w name reg).hookIdHd.lookup n = some i
          rw [lookup_registerHook, if_neg hne]
          exact hn
  · rcases ((Step.of_step hs).effect hwf).hooks with hhooks | ⟨name, reg, ha, -⟩
    · simp only [Runtime.hooks, HookTables.mk.injEq] at hhooks
      obtain ⟨-, hids, hcount, -⟩ := hhooks
      intro i hi
      rw [hcount] at hi
      obtain ⟨n, hn⟩ := h i hi
      refine ⟨n, ?_⟩
      unfold Runtime.Numbered
      rw [hids]
      exact hn
    · exact absurd ⟨name, reg, ha⟩ hareg

theorem numbersOnto_of_trace (h : Trace w log c) : c.st.rt.NumbersOnto := by
  induction h with
  | start h =>
    obtain ⟨ctxs, adapters, mem, rfl⟩ := h
    intro i hi
    exact absurd hi (Nat.not_lt_zero i)
  | move h hs ih =>
    exact numbersOnto_step (namesWf_of_trace h).1 ih (.of_reachable h.reachable) hs

/-! ## Adapters -/

/-- A resolution gives an adapter the number of its name. -/
theorem resolveAdapter_own {b : Adapter} {call : Option Addr} (h : s.HoldsOwn reg)
    (hres : resolveAdapter s (s.adapters reg) = some (b, call)) :
    b.name = (s.adapters reg).name
      ∧ ∃ hookId : Nat, s.rt.Numbered hookId b.name ∧ b.hookId = hookId := by
  have hname := resolveAdapter_name hres
  refine ⟨hname, ?_⟩
  rw [hname]
  unfold resolveAdapter at hres
  dsimp only at hres
  split at hres
  · split at hres
    · cases hres
    · next hookId hlookup =>
      split at hres <;> cases hres <;> exact ⟨hookId, hlookup, rfl⟩
  · next hpos =>
    cases hres
    rcases h with hneg | hown
    · omega
    · exact hown

theorem State.HoldsOwn.keep (h : s.HoldsOwn reg) (hadapter : s'.adapters reg = s.adapters reg)
    (hnum : s.rt.KeepsNumbers s'.rt) : s'.HoldsOwn reg := by
  unfold State.HoldsOwn
  rw [hadapter]
  exact h.imp id fun hown => hown.imp fun i hi => ⟨hnum i _ hi.1, hi.2⟩

/-- An adapter keeps its name. -/
theorem Step.adapter_name (h : Step w c a c' ev) (reg : AdapterRef) :
    (c'.st.adapters reg).name = (c.st.adapters reg).name := by
  cases h.adapters with
  | kept hk => rw [hk]
  | @areg name reg' ha hs =>
    rw [hs]
    unfold xyAreg
    split
    · rfl
    · split
      · rfl
      · dsimp only
        by_cases hx : reg = reg'
        · rw [hx, Function.update_self]
        · rw [Function.update_of_ne hx]
  | @resolved retp reg' selfOnly b call ha hres hs =>
    rw [hs]
    by_cases hx : reg = reg'
    · rw [hx, Function.update_self, resolveAdapter_name hres]
    · rw [Function.update_of_ne hx]

/-- A step leaves every adapter with the number of its own name, if it has one. -/
theorem holdsOwn_step (h : ∀ reg, c.st.HoldsOwn reg) (hnum : c.st.rt.KeepsNumbers c'.st.rt)
    (hs : step w c a = .next c' ev) (hown : Move.AregsOwn ⟨c, a, ev, c'⟩) (reg : AdapterRef) :
    c'.st.HoldsOwn reg := by
  cases (Step.of_step hs).adapters with
  | kept hk => exact (h reg).keep (congrFun hk reg) hnum
  | @areg name reg' ha _ =>
    subst ha
    have hafter := step_areg hs
    by_cases hx : reg = reg'
    · subst hx
      obtain rfl : name = (c.st.adapters reg).name := hown (name, reg) rfl
      rw [hafter]
      unfold xyAreg
      split
      · exact h reg
      · split
        · exact h reg
        · refine Or.inr ⟨c.st.rt.hookIdCounter, ?_⟩
          dsimp only
          rw [Function.update_self]
          refine ⟨?_, rfl⟩
          show (c.st.rt.registerHook w _ reg).hookIdHd.lookup _ = _
          rw [lookup_registerHook, if_pos rfl]
    · refine (h reg).keep ?_ hnum
      rw [hafter]
      unfold xyAreg
      split
      · rfl
      · split
        · rfl
        · exact Function.update_of_ne hx _ _
  | @resolved retp reg' selfOnly b call ha hres hafter =>
    by_cases hx : reg = reg'
    · subst hx
      obtain ⟨-, i, hi, hb⟩ := resolveAdapter_own (h reg) hres
      refine Or.inr ⟨i, ?_⟩
      rw [hafter, Function.update_self]
      exact ⟨hnum i _ hi, hb⟩
    · refine (h reg).keep ?_ hnum
      rw [hafter, Function.update_of_ne hx]

/-! ## Dispatches -/

/-- A dispatch that comes to its loop takes name and number from its adapter. -/
theorem dispatchBegin_adapter {retp : Option BufRef} {regp : Option AdapterRef} {selfOnly : Bool}
    {d : Dispatch} (h : dispatchBegin w s retp regp selfOnly = some (.loop s' d)) :
    ∃ b call, regp = some d.reg ∧ resolveAdapter s (s.adapters d.reg) = some (b, call)
      ∧ d.hookId = b.hookId.toNat ∧ d.name = b.name := by
  unfold dispatchBegin at h
  dsimp only at h
  split at h
  · cases h
  · next reg =>
    split at h
    · cases h
    · next b call hres =>
      have hd : d.reg = reg ∧ d.hookId = b.hookId.toNat ∧ d.name = b.name := by
        split at h
        · cases h
        · split at h
          · cases h
          · unfold dispatchResolved at h
            dsimp only at h
            split at h
            · cases h
            · split at h
              · cases h
              · rcases dispatchScope_spec h with ⟨-, heq⟩ | ⟨-, rt, -, heq⟩
                · cases heq
                  exact ⟨rfl, rfl, rfl⟩
                · cases heq
                  exact ⟨rfl, rfl, rfl⟩
      obtain ⟨rfl, hid, hname⟩ := hd
      exact ⟨b, call, rfl, hres, hid, hname⟩

theorem dispatchesOwn_step (hregs : ∀ reg, c.st.HoldsOwn reg)
    (h : ∀ d run, .dispatch d run ∈ c.stack → d.Own c.st)
    (hnum : c.st.rt.KeepsNumbers c'.st.rt) (hs : Step w c a c' ev) (d : Dispatch)
    (run : Option EntryRef) (hd : .dispatch d run ∈ c'.stack) : d.Own c'.st := by
  rcases hs.dispatch_before hd with ⟨d₀, run₀, hd₀, hsame⟩ | ⟨retp, reg, selfOnly, hbegin⟩
  · obtain ⟨-, hreg, -, -, hid, hname, -⟩ := hsame
    have hown := h d₀ run₀ hd₀
    constructor
    · rw [hname, hreg, hs.adapter_name]
      exact hown.name
    · rw [hname, hid]
      exact hnum _ _ hown.hookId
  · obtain ⟨b, call, -, hres, hid, hname⟩ := dispatchBegin_adapter hbegin
    obtain ⟨hb, i, hi, hbi⟩ := resolveAdapter_own (hregs d.reg) hres
    constructor
    · rw [hs.adapter_name, hname, hb]
    · rw [hname, hid, hbi, Int.toNat_natCast]
      exact hnum i _ hi

/-! ## Callbacks -/

/-- The callbacks in the entries and the vectors are as they were. -/
structure Runtime.KeepsCallbacks (rt rt' : Runtime) : Prop where
  mods : rt'.mods = rt.mods
  cells : ∀ r < rt'.nregions, ∀ k, ∀ cell ∈ (rt'.hookVec r k).cells,
    r < rt.nregions ∧ cell ∈ (rt.hookVec r k).cells

theorem Runtime.KeepsCallbacks.of_eq (h : rt' = rt) : rt.KeepsCallbacks rt' := by
  subst h
  exact ⟨rfl, fun r hr k cell hcell => ⟨hr, hcell⟩⟩

theorem Runtime.KeepsCallbacks.of_vecs (hmods : rt'.mods = rt.mods) (hn : rt'.nregions = rt.nregions)
    (hvecs : ∀ r, (rt'.caches r).vecs = (rt.caches r).vecs) : rt.KeepsCallbacks rt' := by
  refine ⟨hmods, fun r hr k cell hcell => ⟨hn ▸ hr, ?_⟩⟩
  rw [hookVec_of_vecs (hvecs r)] at hcell
  exact hcell

theorem keepsCallbacks_modifyRegion {r : Nat} {f : RegionEntry → RegionEntry}
    (hf : ∀ e, (f e).hookDispatch = e.hookDispatch) : rt.KeepsCallbacks (rt.modifyRegion r f) := by
  refine .of_vecs rfl rfl fun x => ?_
  simp only [caches, modifyRegion_apply]
  split
  · exact hf _
  · rfl

theorem keepsCallbacks_recordDeny (r : RegionRef) (what : CStr) (type : DenyType) :
    rt.KeepsCallbacks (rt.recordDeny w r what type) := by
  refine .of_vecs ?_ ?_ fun x => ?_
  · cases type <;> rfl
  · cases type <;> rfl
  · rw [recordDeny_caches]
    split <;> rfl

theorem keepsCallbacks_addRegion (ht : rt.tree.Wf) {p : Nat} {id : RegionId} {plen bits : Nat}
    (hadd : rt.tree.CanAdd p id plen bits) (fn : Option HandlerRef) :
    rt.KeepsCallbacks (rt.addRegion p id plen bits fn) := by
  refine ⟨rfl, fun r hr k cell hcell => ?_⟩
  have hc := addRegion_caches ht hadd fn r
  have hp := hadd.parent_lt
  by_cases hin : r ∈ rt.chain p
  · rw [if_pos hin] at hc
    have hvecs : ((rt.addRegion p id plen bits fn).caches r).vecs = (rt.caches r).vecs := by
      rw [hc]
      rfl
    rw [hookVec_of_vecs hvecs] at hcell
    exact ⟨lt_of_mem_chain ht hp hin, hcell⟩
  · rw [if_neg hin] at hc
    split at hc
    · rw [hookVec_of_nil (congrArg RegionCaches.vecs hc)] at hcell
      cases hcell
    · next hne =>
      rw [hookVec_of_vecs (congrArg RegionCaches.vecs hc)] at hcell
      have hr : r < rt.nregions + 1 := hr
      exact ⟨by omega, hcell⟩

/-- What is called directly touches no callback, but for a registration. -/
theorem CallEffect.keepsCallbacks (hwf : c.Wf w) {q : Call} {rt : Runtime}
    (hq : ∀ name reg, q ≠ .areg name reg) (h : CallEffect w c q rt) : c.st.rt.KeepsCallbacks rt := by
  cases h with
  | same => exact .of_eq rfl
  | deny => exact keepsCallbacks_recordDeny _ _ _
  | requireClaim | setHandler => exact keepsCallbacks_modifyRegion (by intro _; rfl)
  | claimAt hnear hadd => exact keepsCallbacks_addRegion hwf.tree hadd _
  | areg => exact absurd rfl (hq _ _)

/-- The entries and the vectors, with the same handles, hold callbacks with their
names still. -/
theorem Runtime.CallbacksNamed.keep {named : Nat → CStr → Prop} (h : rt.CallbacksNamed w named)
    (hk : rt.KeepsCallbacks rt') : rt'.CallbacksNamed w named where
  entries x me hx := h.entries x me (hk.mods ▸ hx)
  cells r hr k cell hcell b me hcb hme := by
    obtain ⟨hlt, hold⟩ := hk.cells r hr k cell hcell
    exact h.cells r hlt k cell hold b me hcb (hk.mods ▸ hme)

theorem prepareVec_callbacksNamed {named : Nat → CStr → Prop} {r : Nat} {anc : List RegionRef}
    (hv : rt.prepareVec w r hookId name anc = some rt') (hn : named hookId name)
    (h : rt.CallbacksNamed w named) : rt'.CallbacksNamed w named := by
  have hp := prepareVec_spec hv
  have hcount : rt'.nregions = rt.nregions := congrArg Tree.count (prepareVec_tree hv)
  have hentry : ∀ x me', rt'.mods x = some me' →
      ∃ me, rt.mods x = some me ∧ me'.handle = me.handle ∧ me'.FnsNamed w named := by
    intro x me' hx
    by_cases hwarm : rt.Warm r hookId
    · rw [(hp.warm hwarm).2] at hx
      exact ⟨me', hx, rfl, h.entries x me' hx⟩
    · rw [hp.mods hwarm] at hx
      split at hx
      · obtain ⟨me, hme, rfl⟩ := Option.map_eq_some_iff.mp hx
        refine ⟨me, hme, ?_⟩
        split
        · exact ⟨ModEntry.handle_of_core (me.core_resolved ..), (h.entries x me hme).resolved hn⟩
        · exact ⟨rfl, h.entries x me hme⟩
      · exact ⟨me', hx, rfl, h.entries x me' hx⟩
  constructor
  · intro x me' hx
    obtain ⟨me, -, -, hnamed⟩ := hentry x me' hx
    exact hnamed
  · intro x hx k cell hcell b me' hcb hme'
    obtain ⟨me, hme, hhandle, -⟩ := hentry cell.me me' hme'
    rw [hhandle]
    by_cases hrk : x = r ∧ k = hookId
    · obtain ⟨rfl, rfl⟩ := hrk
      by_cases hwarm : rt.Warm x k
      · rw [(hp.warm hwarm).1] at hcell
        exact h.cells x (hcount ▸ hx) k cell hcell b me hcb hme
      · rw [hp.cells hwarm, List.mem_append] at hcell
        rcases hcell with hcell | hcell
        · exact listing_named h.entries hn hcell hcb hme
        · exact h.cells x (hcount ▸ hx) k cell (List.mem_of_mem_drop hcell) b me hcb hme
    · rw [hp.vec_ne x k (by tauto)] at hcell
      exact h.cells x (hcount ▸ hx) k cell hcell b me hcb hme

theorem registerHook_callbacksNamed {named : Nat → CStr → Prop}
    (hn : ∀ i n, (rt.registerHook w name reg).Numbered i n → named i n)
    (h : rt.CallbacksNamed w named) : (rt.registerHook w name reg).CallbacksNamed w named := by
  have hentry : ∀ x me', (rt.registerHook w name reg).mods x = some me' →
      ∃ me, rt.mods x = some me ∧ me'.handle = me.handle ∧ me'.FnsNamed w named := by
    intro x me' hx
    simp only [registerHook] at hx
    split at hx
    · obtain ⟨me, hme, rfl⟩ := Option.map_eq_some_iff.mp hx
      refine ⟨me, hme, ModEntry.handle_of_core (me.core_fnCachePrewarm ..), ?_⟩
      exact (h.entries x me hme).fnCachePrewarm (fun hook hook' => hn _ _ (numbered_of_mem hook')) _
    · exact ⟨me', hx, rfl, h.entries x me' hx⟩
  constructor
  · intro x me' hx
    obtain ⟨me, -, -, hnamed⟩ := hentry x me' hx
    exact hnamed
  · intro r hr k cell hcell b me' hcb hme'
    obtain ⟨me, hme, hhandle, -⟩ := hentry cell.me me' hme'
    rw [hhandle]
    exact h.cells r hr k cell hcell b me hcb hme

theorem xyAreg_rt (w : World) (s : State) (name : CStr) (reg : AdapterRef) :
    (xyAreg w s name reg).1.rt = s.rt
      ∨ (xyAreg w s name reg).1.rt = s.rt.registerHook w name reg := by
  unfold xyAreg
  split
  · exact Or.inl rfl
  · split
    · exact Or.inl rfl
    · exact Or.inr rfl

/-- A step caches callbacks under the number of their name only. -/
theorem callbacksNamed_step (hreach : Reachable w c) (h : HookNumbers w c)
    (hnum : c.st.rt.KeepsNumbers c'.st.rt) (hs : Step w c a c' ev) :
    c'.st.rt.CallbacksNamed w c'.st.rt.Numbered := by
  have hwf : c.Wf w := .of_reachable hreach
  have hold := h.callbacks.mono hnum
  have heffect : ∀ a', (∀ q, a' ≠ .call q) → Effect w c a' c'.st.rt →
      c'.st.rt.CallbacksNamed w c'.st.rt.Numbered := by
    intro a' hcall heff
    refine heff.callbacksNamed hwf (subtreeLists_of_reachable hreach)
      (cellsSettled_of_reachable hreach) (fun i n hres => ?_) hold
    cases hres with
    | table hmem => exact hnum _ _ (numbered_of_mem hmem)
    | register ha => exact absurd ha (hcall _)
    | running ha hstack =>
      exact hnum _ _ (h.dispatches _ _ (hstack ▸ List.mem_cons_self)).hookId
    | vector ha => exact absurd ha (hcall _)
  cases a with
  | tau => exact heffect .tau (fun q hq => by cases hq) (hs.effect hwf)
  | ret r => exact heffect (.ret r) (fun q hq => by cases hq) (hs.effect hwf)
  | call q =>
    have hunload : ∀ {fname : CStr} {id : RegionId} {plen : Nat} {k : List Frame},
        Unloads w c.st fname id plen k c' ev → c'.st.rt.CallbacksNamed w c'.st.rt.Numbered :=
      fun hu => heffect .tau (fun q hq => by cases hq) (hu.effect rfl)
    cases hs with
    | load | scope | eachFirst | answered => exact hold
    | unload hw hu => exact hunload hu
    | reload hw hl hme hu => exact hunload hu
    | @direct _ _ s v hw hq =>
      by_cases hareg : ∃ name reg, q = .areg name reg
      · obtain ⟨name, reg, rfl⟩ := hareg
        obtain rfl : (xyAreg w c.st name reg).1 = s := congrArg Prod.fst (Option.some.inj hq)
        have hold : c.st.rt.CallbacksNamed w (xyAreg w c.st name reg).1.rt.Numbered := hold
        show (xyAreg w c.st name reg).1.rt.CallbacksNamed w (xyAreg w c.st name reg).1.rt.Numbered
        rcases xyAreg_rt w c.st name reg with hrt | hrt
        · rw [hrt]
          exact h.callbacks
        · rw [hrt] at hold ⊢
          exact registerHook_callbacksNamed (fun _ _ hin => hin) hold
      · have hkeeps := (callDirect_callEffect hwf hq).keepsCallbacks hwf
          (fun name reg heq => hareg ⟨name, reg, heq⟩)
        exact hold.keep hkeeps
    | dispatchDone hw hd =>
      have hkeeps := Runtime.KeepsCallbacks.of_eq (dispatchBegin_done hd).rt
      exact hold.keep hkeeps
    | @dispatchLoop _ retp reg selfOnly s d hw hd =>
      have hstart := dispatchBegin_loop hd
      obtain ⟨b, call, -, hres, hid, hname⟩ := dispatchBegin_adapter hd
      obtain ⟨-, i, hi, hb⟩ := resolveAdapter_own (h.adapters d.reg) hres
      have hown : s.rt.Numbered d.hookId d.name := by
        rw [hname, hid, hb, Int.toNat_natCast]
        exact hnum i _ hi
      cases selfOnly with
      | true =>
        have hkeeps := Runtime.KeepsCallbacks.of_eq (hstart.self rfl).1
        exact hold.keep hkeeps
      | false => exact prepareVec_callbacksNamed (hstart.subtree rfl).1 hown hold
    | shutdown =>
      constructor
      · intro x me hx
        cases hx
      · intro r _ k cell hcell
        rw [hookVec_of_nil rfl] at hcell
        cases hcell

/-! ## Runs -/

/-- What is known of the numbers stays so. -/
theorem hookNumbers_step (h : HookNumbers w c) (hreach : Reachable w c) (hnames : c.st.rt.NamesWf)
    (hs : step w c a = .next c' ev) (hown : Move.AregsOwn ⟨c, a, ev, c'⟩) : HookNumbers w c' := by
  have hnum : c.st.rt.KeepsNumbers c'.st.rt := fun i n hi =>
    (namesWf_step hnames (.of_reachable hreach) hs).2 n i hi
  exact
    { adapters := holdsOwn_step h.adapters hnum hs hown
      dispatches := dispatchesOwn_step h.adapters h.dispatches hnum (Step.of_step hs)
      callbacks := callbacksNamed_step hreach h hnum (Step.of_step hs) }

theorem startOf_concat (log : List Move) (m : Move) (c : Config) :
    startOf (log ++ [m]) c = startOf log m.before := by
  cases log <;> rfl

/-- In a run that starts with adapters without numbers, and registers every adapter
under its own name. -/
theorem hookNumbers_of_trace (h : Trace w log c)
    (hstart : ∀ reg, ((startOf log c).st.adapters reg).hookId = -1)
    (hown : ∀ m ∈ log, m.AregsOwn) : HookNumbers w c ∧ ∀ m ∈ log, HookNumbers w m.before := by
  induction h with
  | start h =>
    refine ⟨⟨fun reg => Or.inl (hstart reg), ?_, callbacksNamed_of_initial h⟩, fun m hm => by cases hm⟩
    obtain ⟨ctxs, adapters, mem, rfl⟩ := h
    intro d run hd
    cases hd
  | @move log c c' a ev htr hs ih =>
    rw [startOf_concat] at hstart
    obtain ⟨hbefore, hlog⟩ := ih hstart fun m hm => hown m (List.mem_append_left _ hm)
    refine ⟨hookNumbers_step hbefore htr.reachable (namesWf_of_trace htr).1 hs
      (hown _ (List.mem_append_right _ List.mem_cons_self)), fun m hm => ?_⟩
    rcases List.mem_append.mp hm with hm | hm
    · exact hlog m hm
    · rw [List.mem_singleton.mp hm]
      exact hbefore

/-- A step enters a callback of the hook that its dispatch is for. -/
theorem hookNumbers_entersOwn (h : HookNumbers w m.before) (hreach : Reachable w m.before)
    (hnames : m.before.st.rt.NamesWf) (hs : step w m.before m.act = .next m.after m.event) :
    m.EntersOwn w := by
  intro e x hev
  rw [hev] at hs
  have hstep := Step.of_step hs
  obtain ⟨d, k, -, hstack, me, hme, -⟩ := hstep.enter_listener
  have hd := h.dispatches d none (hstack ▸ List.mem_cons_self)
  obtain ⟨name, hn, hsym⟩ :=
    hstep.callback_named (.of_reachable hreach) h.callbacks hstack hd.hookId hme
  obtain rfl : name = d.name := hnames.inj hn hd.hookId
  exact ⟨d, k, me, hstack, hd, hme, hsym⟩

/-- What a run leaves of the hook ids. -/
structure HooksStable (w : World) (log : List Move) (c : Config) : Prop where
  /-- Two names have two numbers. -/
  inj : ∀ name name' hookId, c.st.rt.Numbered hookId name → c.st.rt.Numbered hookId name' →
    name = name'
  /-- The numbers are those below the counter. -/
  image : ∀ hookId, (∃ name, c.st.rt.Numbered hookId name) ↔ hookId < c.st.rt.hookIdCounter
  /-- A name that got a number has it still. -/
  kept : ∀ m ∈ log, m.after.st.rt.KeepsNumbers c.st.rt
  /-- The number leads to the first adapter that was registered under the name. -/
  first : ∀ name hookId, c.st.rt.Numbered hookId name →
    ∃ reg rest, registered name log = reg :: rest
      ∧ c.st.rt.adapterById[hookId]? = some (some reg)
  /-- An adapter holds the number of its own name, or none. -/
  cached : ∀ reg, c.st.HoldsOwn reg
  /-- A dispatch enters callbacks of its own hook only. -/
  enters : ∀ m ∈ log, m.EntersOwn w

/-- In every run that starts with adapters without numbers and registers every adapter
under its own name, the hook ids are stable. -/
theorem hooksStable_of_trace (h : Trace w log c)
    (hstart : ∀ reg, ((startOf log c).st.adapters reg).hookId = -1)
    (hown : ∀ m ∈ log, m.AregsOwn) : HooksStable w log c := by
  obtain ⟨hnames, hkept⟩ := namesWf_of_trace h
  obtain ⟨hnumbers, hbefore⟩ := hookNumbers_of_trace h hstart hown
  refine
    { inj := fun _ _ _ hi hi' => hnames.inj hi hi'
      image := fun i => ⟨fun hn => ?_, fun hi => numbersOnto_of_trace h i hi⟩
      kept := fun m hm i n hi => (hkept m hm).2 n i hi
      first := fun name i hi => ?_
      cached := hnumbers.adapters
      enters := fun m hm => ?_ }
  · obtain ⟨n, hn⟩ := hn
    exact hnames.lt hn
  · have hknown := nameKnown_of_trace h name
    cases hreg : registered name log with
    | nil =>
      rw [hreg] at hknown
      exact absurd (hi.symm.trans (hnames.known hknown)) (by simp)
    | cons reg rest =>
      rw [hreg] at hknown
      obtain ⟨j, hcan⟩ := hknown
      obtain rfl : j = i := Option.some.inj (hcan.named.symm.trans hi)
      exact ⟨reg, rest, rfl, hcan.byId⟩
  · obtain ⟨hreach, hs⟩ := h.mem hm
    exact hookNumbers_entersOwn (hbefore m hm) hreach (hkept m hm).1 hs

end

/-- The start of a run, with adapters for two hooks that have no numbers yet. -/
def Config.bootTwo (hook hook' : CStr) : Config :=
  ⟨State.boot (fun _ => { adapter := none, modulePath := none, regionId := 0, regionState := none })
    (fun i => .plain (if i = 1 then hook' else hook)) (fun _ => []), []⟩

/-- A hook is registered, a module loaded and the host shut down.  Then a module is
loaded again and another hook registered, and the first hook is called through an
adapter that was only declared. -/
theorem hooksStable_after_shutdown :
    let l : List Action := .call (.areg sampleHook 0) :: loadRun sampleFile 1
      ++ [.call .shutdown] ++ loadRun sampleFile 1
      ++ [.call (.areg sampleFile 1), .call (.call none (some 2) false), .tau]
    HooksStable sampleWorld (movesOf sampleWorld (Config.bootTwo sampleHook sampleFile) l)
      ((Config.bootTwo sampleHook sampleFile).after sampleWorld l) := by
  intro l
  have htrace : Trace sampleWorld (movesOf sampleWorld (Config.bootTwo sampleHook sampleFile) l)
      ((Config.bootTwo sampleHook sampleFile).after sampleWorld l) :=
    .of_actions ⟨_, _, _, rfl⟩ (by decide +kernel)
  exact hooksStable_of_trace htrace (fun reg => rfl) (by decide +kernel)

end Xylem
