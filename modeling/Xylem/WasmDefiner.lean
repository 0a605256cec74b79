import Xylem.Trampoline
import Xylem.WasmRegistry

/-!
# The definer of a hook under WASM

The WASM dispatcher calls every adapter of a hook with a `NULL` function.  The
trampoline of `XY_LISTENER_TAG` falls back on the listener that it was generated
for; the trampoline of `XY_DEF`, which has no listener, clears the return buffer.
Both count as listeners that have run.

* `MacroRun d` is a run of the dispatcher in which adapters come from the macros,
  and `d` is the one of `XY_DEF`.
* `Served` is what holds of the calls of such a run: each value belongs to an
  adapter of the hook, and those of the definer are zero.
* `definer_unaffected_iff`: a call keeps the value of its last tagged listener
  exactly when the definer is not the last adapter of the hook, or that value is
  zero; and a listener reads the value of the tagged listener before it exactly
  when the definer is not between the two, or that value is zero.
-/

namespace Xylem

/-- `fname##_##tag##_adapter_call` of `XY_LISTENER_TAG`, which falls back on the
function of its tag. -/
def xyListenerTagAdapterCall {σ : Type} (code : Code σ) (sig : HookSig) (own : Addr)
    (res : Option BufRef) (fn : Option Addr) (block : List UInt8) (s : Ran σ) : Ran σ :=
  adapterCall code sig (fn.orElse fun _ => some own) true res block s

/-- What the two trampolines do with a `NULL` function: the definer's calls
nothing and stores zeros, and the other stores what its own function returns. -/
theorem adapterCalls_of_null {σ : Type} (code : Code σ) (sig : HookSig) (own : Addr)
    (res : Option BufRef) (block : List UInt8) (s : Ran σ) :
    xyDefAdapterCall code sig res none block s
        = s.writeBuf res (List.replicate sig.retSize 0)
      ∧ xyListenerTagAdapterCall code sig own res none block s
        = (s.invoke code own (sig.unpack block)).1.writeBuf res
            (s.invoke code own (sig.unpack block)).2 := ⟨rfl, rfl⟩

end Xylem

namespace Xylem.Wasm

open Groups

/-! ## Runs with a definer -/

/-- The adapters of the hook that a call is on. -/
def hookOf (l : List Registration) (c : Config) (f : Frame) : List AdapterRef :=
  adaptersOf l (c.st.adapters f.reg).name

/-- The trampoline of `d` is at work. -/
def Config.runs (c : Config) (d : AdapterRef) : Bool :=
  c.stack.head?.any fun f => f.running && decide ((c.st.listeners f.id)[f.cur]? = some d)

deriving instance DecidableEq for Action

/-- The adapter that the action registers. -/
def Action.registers : Action → Option AdapterRef
  | .areg _ reg => some reg
  | _ => none

/-- The adapters come from the macros: each has a trampoline, and the one of `d`
returns zeros and makes no calls. -/
def FromMacros (d : AdapterRef) (c : Config) (a : Action) : Prop :=
  Typed c a ∧ (c.runs d = true → a = .ret (List.replicate (c.st.adapters d).retSize 0))
    ∧ ∀ reg ∈ a.registers, (c.st.adapters reg).call.isSome = true

instance (d : AdapterRef) (c : Config) (a : Action) : Decidable (FromMacros d c a) := by
  unfold FromMacros; infer_instance

/-- A run in which `d` is the adapter of `XY_DEF`, with the registrations it has
made. -/
inductive MacroRun (ok : Config → Action → Prop) (d : AdapterRef) :
    List Registration → Config → Prop
  | start {c : Config} (h : c.Initial) : MacroRun ok d [] c
  | step {l : List Registration} {c c' : Config} {a : Action} {ev : Event}
      (h : MacroRun ok d l c) (hs : step c a = some (c', ev)) (hown : OwnName c a)
      (hmac : FromMacros d c a) (hok : ok c a) : MacroRun ok d (l ++ accepted l c a ev) c'
  | stale {l : List Registration} {c : Config} (h : MacroRun ok d l c) (reg : AdapterRef)
      (i : Int) : MacroRun ok d l (c.withHookId reg i)

/-- The run of a list of actions, as far as its steps are possible and meet the
conditions. -/
def macroFollow (ok : Config → Action → Prop) [∀ c a, Decidable (ok c a)] (d : AdapterRef) :
    List Registration × Config → List Action → List Registration × Config
  | p, [] => p
  | p, a :: acts =>
    match step p.2 a with
    | none => p
    | some (c', ev) =>
      if OwnName p.2 a ∧ FromMacros d p.2 a ∧ ok p.2 a then
        macroFollow ok d (p.1 ++ accepted p.1 p.2 a ev, c') acts
      else p

theorem MacroRun.follow {ok : Config → Action → Prop} [∀ c a, Decidable (ok c a)]
    {d : AdapterRef} (acts : List Action) (p : List Registration × Config)
    (h : MacroRun ok d p.1 p.2) :
    MacroRun ok d (macroFollow ok d p acts).1 (macroFollow ok d p acts).2 := by
  induction acts generalizing p with
  | nil => exact h
  | cons a acts ih =>
    unfold macroFollow
    split
    · exact h
    · next c' ev hs =>
      split
      · next hok => exact ih _ (.step h hs hok.1 hok.2.1 hok.2.2)
      · exact h

/-- What the tagged listeners among the adapters `xs` have returned. -/
def taggedValues (d : AdapterRef) (xs : List AdapterRef) (vs : List (List UInt8)) :
    List (List UInt8) :=
  ((xs.zip vs).filter fun p => decide (p.1 ≠ d)).map Prod.snd

/-! ## What is served -/

/-- What holds of a call in progress. -/
structure Served (d : AdapterRef) (l : List Registration) (c : Config) (f : Frame) : Prop where
  named : (names l)[f.id]? = some (c.st.adapters f.reg).name
  count : f.values.length = f.cur
  le : f.cur ≤ (hookOf l c f).length
  lt : f.running = true → f.cur < (hookOf l c f).length
  size : ∀ v ∈ f.values, v.length = (c.st.adapters f.reg).retSize
  zero : ∀ i < f.cur, (hookOf l c f)[i]? = some d →
    f.values[i]? = some (List.replicate (c.st.adapters f.reg).retSize 0)

/-- What holds of all calls in progress, and of the buffer of the innermost one
between its listeners. -/
structure AllServed (d : AdapterRef) (l : List Registration) (c : Config) : Prop where
  calls : ∀ r ∈ l, (c.st.adapters r.reg).call.isSome = true
  served : ∀ f ∈ c.stack, Served d l c f
  below : ∀ f ∈ c.stack.tail, f.running = true
  stored : ∀ f k b v, c.stack = f :: k → f.running = false → f.retp = some b →
    f.values.getLast? = some v → (c.st.mem b).take v.length = v

section

variable {d : AdapterRef} {l : List Registration} {c c' : Config} {a : Action} {ev : Event}
  {f : Frame} {k : List Frame} {ok : Config → Action → Prop}

theorem MacroRun.mono {ok' : Config → Action → Prop} (hle : ∀ c a, ok c a → ok' c a)
    (h : MacroRun ok d l c) : MacroRun ok' d l c := by
  induction h with
  | start h => exact .start h
  | step h hs hown hmac hok ih => exact .step ih hs hown hmac (hle _ _ hok)
  | stale h reg i ih => exact .stale ih reg i

theorem MacroRun.history (h : MacroRun ok d l c) : History l c := by
  induction h with
  | start h => exact .start h
  | step h hs hown hmac hok ih => exact .step ih hs hown
  | stale h reg i ih => exact .stale ih reg i

theorem accepted_cases (l : List Registration) (c : Config) (a : Action) (ev : Event) :
    accepted l c a ev = []
      ∨ ∃ name reg id, a = .areg name reg ∧ accepted l c a ev = [⟨name, reg, id⟩] := by
  unfold accepted
  split
  · next name reg id =>
    split
    · exact Or.inr ⟨name, reg, id, rfl, rfl⟩
    · exact Or.inl rfl
  · exact Or.inl rfl

theorem names_accepted {i : Nat} {name : CStr} (h : (names l)[i]? = some name) :
    (names (l ++ accepted l c a ev))[i]? = some name := by
  rcases accepted_cases l c a ev with hnil | ⟨n, reg, id, -, hone⟩
  · rw [hnil, List.append_nil]
    exact h
  · rw [hone]
    by_cases hold : n ∈ names l
    · rw [show names (l ++ [⟨n, reg, id⟩]) = names l from keys_concat_old hold]
      exact h
    · rw [show names (l ++ [⟨n, reg, id⟩]) = names l ++ [n] from keys_concat_new hold]
      rw [List.getElem?_append_left (List.getElem?_eq_some_iff.mp h).1]
      exact h

theorem adaptersOf_accepted (l : List Registration) (c : Config) (a : Action) (ev : Event)
    (name : CStr) :
    ∃ more, adaptersOf (l ++ accepted l c a ev) name = adaptersOf l name ++ more := by
  rcases accepted_cases l c a ev with hnil | ⟨n, reg, id, -, hone⟩
  · exact ⟨[], by rw [hnil, List.append_nil, List.append_nil]⟩
  · rw [hone, adaptersOf_concat]
    exact ⟨_, rfl⟩

/-- The list that the loop goes through. -/
theorem Served.listeners (h : Served d l c f) (hfiled : Filed l c.st.hooks) :
    c.st.listeners f.id = hookOf l c f := by
  unfold State.listeners
  rw [hfiled f.id, h.named]
  rfl

/-- A step that leaves a call as it is keeps what holds of it: adapters are added
at the end only. -/
theorem Served.later (h : Served d l c f) (hids : c.st.OnlyHookIds c'.st)
    {f' : Frame} (hf : f' = { f with quiet := f'.quiet }) :
    Served d (l ++ accepted l c a ev) c' f' := by
  obtain ⟨more, hmore⟩ := adaptersOf_accepted l c a ev (c.st.adapters f.reg).name
  have hreg : f'.reg = f.reg := by rw [hf]
  have hcur : f'.cur = f.cur := by rw [hf]
  have hvalues : f'.values = f.values := by rw [hf]
  have hhook : hookOf (l ++ accepted l c a ev) c' f' = hookOf l c f ++ more := by
    unfold hookOf
    rw [hreg, hids.adapter_name]
    exact hmore
  have hsize : (c'.st.adapters f'.reg).retSize = (c.st.adapters f.reg).retSize := by
    rw [hreg, hids f.reg]
  have hle := h.le
  refine ⟨?_, by rw [hvalues, hcur, h.count], ?_, fun hrun => ?_, ?_, fun i hi hd => ?_⟩
  · rw [show f'.id = f.id by rw [hf], hreg, hids.adapter_name]
    exact names_accepted h.named
  · rw [hhook, hcur, List.length_append]
    omega
  · have hrun' : f.running = true := by rw [← hrun, hf]
    have hlt := h.lt hrun'
    rw [hhook, hcur, List.length_append]
    omega
  · rw [hvalues, hsize]
    exact h.size
  · rw [hcur] at hi
    rw [hhook, List.getElem?_append_left (by omega)] at hd
    rw [hvalues, hsize]
    exact h.zero i hi hd

theorem Served.kept (h : Served d l c f) (hids : c.st.OnlyHookIds c'.st) {f' : Frame}
    (hf : f' = { f with quiet := f'.quiet }) : Served d l c' f' := by
  have hlater : Served d (l ++ accepted l c .tau .internal) c' f' := h.later hids hf
  rw [show accepted l c .tau .internal = [] from rfl, List.append_nil] at hlater
  exact hlater

/-- An adapter that is registered has a trampoline. -/
theorem AllServed.calls_later (h : AllServed d l c) (hids : c.st.OnlyHookIds c'.st)
    (hmac : FromMacros d c a) :
    ∀ r ∈ l ++ accepted l c a ev, (c'.st.adapters r.reg).call.isSome = true := by
  intro r hr
  rw [hids.adapter_call]
  rcases List.mem_append.mp hr with hr | hr
  · exact h.calls r hr
  · rcases accepted_cases l c a ev with hnil | ⟨name, reg, id, rfl, hone⟩
    · rw [hnil] at hr
      cases hr
    · rw [hone] at hr
      rw [List.mem_singleton.mp hr]
      exact hmac.2.2 reg rfl

/-- A step of module code that leaves the calls in progress alone. -/
theorem AllServed.later (h : AllServed d l c) (hids : c.st.OnlyHookIds c'.st)
    (hmac : FromMacros d c a) (hstack : c'.stack = c.stack) (hwait : c.waiting = true) :
    AllServed d (l ++ accepted l c a ev) c' where
  calls := h.calls_later hids hmac
  served f hf := by
    rw [hstack] at hf
    exact (h.served f hf).later hids rfl
  below := by
    rw [hstack]
    exact h.below
  stored f k b v hs hidle := by
    rw [hstack] at hs
    have hrun := Config.running_of_waiting hwait hs
    rw [hrun] at hidle
    cases hidle

/-- The calls in progress, when another call begins. -/
theorem AllServed.noteCall (h : AllServed d l c) (hids : c.st.OnlyHookIds c'.st)
    (hwait : c.waiting = true) :
    (∀ g ∈ Wasm.noteCall c.stack, Served d (l ++ accepted l c a ev) c' g)
      ∧ ∀ g ∈ Wasm.noteCall c.stack, g.running = true := by
  cases hstack : c.stack with
  | nil =>
    constructor
    · intro g hg
      cases hg
    · intro g hg
      cases hg
  | cons f k =>
    have hrun := Config.running_of_waiting hwait hstack
    have hbelow := h.below
    rw [hstack] at hbelow
    have hserved := h.served
    rw [hstack] at hserved
    constructor
    · intro g hg
      rcases List.mem_cons.mp hg with rfl | hg
      · exact (hserved f List.mem_cons_self).later hids rfl
      · exact (hserved g (List.mem_cons_of_mem f hg)).later hids rfl
    · intro g hg
      rcases List.mem_cons.mp hg with rfl | hg
      · exact hrun
      · exact hbelow g hg

/-- A list of calls that are all in a listener stores nothing. -/
theorem AllServed.of_running (hcalls : ∀ r ∈ l, (c.st.adapters r.reg).call.isSome = true)
    (hserved : ∀ f ∈ c.stack, Served d l c f) (hrun : ∀ f ∈ c.stack, f.running = true) :
    AllServed d l c where
  calls := hcalls
  served := hserved
  below f hf := hrun f (List.mem_of_mem_tail hf)
  stored f k b v hs hidle := by
    have hbusy := hrun f (by rw [hs]; exact List.mem_cons_self)
    rw [hbusy] at hidle
    cases hidle

/-- An `xy_call` from module code. -/
theorem AllServed.call_step (h : AllServed d l c) (hfiled : Filed l c.st.hooks)
    {retp : Option BufRef} {reg : AdapterRef} (hmac : FromMacros d c (.call retp (some reg)))
    (hwait : c.waiting = true) (hs : beginCall c.st c.stack retp reg = (c', ev)) :
    AllServed d (l ++ accepted l c (.call retp (some reg)) ev) c' := by
  obtain ⟨-, hids, hcases⟩ := beginCall_spec c.st c.stack retp reg
  rw [hs] at hids hcases
  have hcalls : ∀ r ∈ l ++ accepted l c (.call retp (some reg)) ev,
      (c'.st.adapters r.reg).call.isSome = true := h.calls_later hids hmac
  have hnoted : (∀ g ∈ Wasm.noteCall c.stack,
        Served d (l ++ accepted l c (.call retp (some reg)) ev) c' g)
      ∧ ∀ g ∈ Wasm.noteCall c.stack, g.running = true := h.noteCall hids hwait
  obtain ⟨hserved, hrun⟩ := hnoted
  rcases hcases with ⟨-, -, hstack⟩ | ⟨id, hid, -, -, f, hstack, hfid, hcur, hidle, hreg, hvalues⟩
  · exact .of_running hcalls (by rw [hstack]; exact hserved) (by rw [hstack]; exact hrun)
  · rw [hfiled.resolve] at hid
    split at hid
    · next hname =>
      have hidx : (names l).idxOf (c.st.adapters reg).name = id := Option.some.inj hid
      have hnew : Served d (l ++ accepted l c (.call retp (some reg)) ev) c' f := by
        refine ⟨?_, by rw [hvalues, hcur]; rfl, by rw [hcur]; exact Nat.zero_le _, fun hrun => ?_,
          fun v hv => ?_, fun i hi _ => ?_⟩
        · rw [hreg, hids.adapter_name]
          refine names_accepted ?_
          rw [hfid, ← hidx]
          exact List.getElem?_idxOf hname
        · rw [hidle] at hrun
          cases hrun
        · rw [hvalues] at hv
          cases hv
        · rw [hcur] at hi
          omega
      refine ⟨hcalls, fun g hg => ?_, ?_, fun g k b v hg _ _ hv => ?_⟩
      · rw [hstack] at hg
        rcases List.mem_cons.mp hg with rfl | hg
        · exact hnew
        · exact hserved g hg
      · rw [hstack]
        exact hrun
      · rw [hstack] at hg
        obtain ⟨rfl, -⟩ := List.cons.inj hg
        rw [hvalues] at hv
        cases hv
    · cases hid

/-- A listener's trampoline returns. -/
theorem AllServed.ret_step (h : AllServed d l c) (hfiled : Filed l c.st.hooks)
    (hstack : c.stack = f :: k) (hrun : f.running = true) {bytes : List UInt8}
    (hmac : FromMacros d c (.ret bytes)) : AllServed d l (retListener c.st k f bytes) := by
  have hf : f ∈ c.stack := by
    rw [hstack]
    exact List.mem_cons_self
  have hserved := h.served f hf
  have hlen : bytes.length = (c.st.adapters f.reg).retSize := by
    have htyped := hmac.1
    unfold Typed at htyped
    rw [hstack] at htyped
    exact htyped
  have hzero : (hookOf l c f)[f.cur]? = some d →
      bytes = List.replicate (c.st.adapters f.reg).retSize 0 := by
    intro hd
    have hruns : c.runs d = true := by
      simp [Config.runs, hstack, hrun, hserved.listeners hfiled, hd]
    obtain rfl : bytes = List.replicate (c.st.adapters d).retSize 0 := by
      have hret := hmac.2.1 hruns
      injection hret
    rw [← hlen, List.length_replicate]
  have hids : c.st.OnlyHookIds (retListener c.st k f bytes).st :=
    .of_eq (writeBuf_same c.st f.retp bytes).2
  have hlater : ∀ g ∈ c.stack, Served d l (retListener c.st k f bytes) g :=
    fun g hg => (h.served g hg).kept hids rfl
  have hsize : ((retListener c.st k f bytes).st.adapters f.reg).retSize
      = (c.st.adapters f.reg).retSize := by rw [hids f.reg]
  have hhook : hookOf l (retListener c.st k f bytes) f = hookOf l c f := by
    unfold hookOf
    rw [hids.adapter_name]
  have hlt := hserved.lt hrun
  have hcount := hserved.count
  refine ⟨fun r hr => ?_, fun g hg => ?_, ?_, fun g k' b v hg _ hb hv => ?_⟩
  · rw [hids.adapter_call]
    exact h.calls r hr
  · rcases List.mem_cons.mp hg with rfl | hg
    · refine ⟨(hlater f hf).named, ?_, (hlater f hf).lt hrun, by simp, fun v hv => ?_,
        fun i hi hd => ?_⟩
      · show (f.values ++ [bytes]).length = f.cur + 1
        rw [List.length_append, hcount]
        rfl
      · rcases List.mem_append.mp hv with hv | hv
        · exact (hlater f hf).size v hv
        · rw [List.mem_singleton.mp hv]
          exact hlen.trans hsize.symm
      · show (f.values ++ [bytes])[i]? = some (List.replicate _ 0)
        by_cases hlast : i = f.cur
        · subst hlast
          rw [List.getElem?_append_right (by omega), hcount, Nat.sub_self]
          refine congrArg some (Eq.trans (hzero ?_) ?_)
          · rw [← hhook]
            exact hd
          · exact congrArg (List.replicate · 0) hsize.symm
        · have hi : i < f.cur + 1 := hi
          rw [List.getElem?_append_left (by omega)]
          exact (hlater f hf).zero i (by omega) hd
    · exact hlater g (by rw [hstack]; exact List.mem_cons_of_mem f hg)
  · have hbelow := h.below
    rw [hstack] at hbelow
    exact hbelow
  · obtain ⟨rfl, -⟩ := List.cons.inj hg
    have hb : f.retp = some b := hb
    have hv : bytes = v := by simpa using hv
    subst hv
    show ((c.st.writeBuf f.retp bytes).mem b).take bytes.length = bytes
    rw [hb]
    show ((Function.update c.st.mem b _) b).take bytes.length = bytes
    rw [Function.update_self, overwrite_take]

/-- A round of the loop. -/
theorem AllServed.tau_step (h : AllServed d l c) (hfiled : Filed l c.st.hooks)
    (hstack : c.stack = f :: k) : AllServed d l (tau c.st k f).1 := by
  have hf : f ∈ c.stack := by
    rw [hstack]
    exact List.mem_cons_self
  have hk : ∀ g ∈ k, g ∈ c.stack := by
    intro g hg
    rw [hstack]
    exact List.mem_cons_of_mem f hg
  have hserved := h.served f hf
  have hkept : ∀ c' : Config, c'.st.adapters = c.st.adapters → ∀ g ∈ k, Served d l c' g := by
    intro c' hsame g hg
    exact (h.served g (hk g hg)).kept (.of_eq hsame) rfl
  have hbelow := h.below
  rw [hstack] at hbelow
  unfold tau
  rw [hserved.listeners hfiled]
  split
  · exact .of_running h.calls (hkept _ rfl) hbelow
  · next x hx =>
    have hcall : (c.st.adapters x).call.isSome = true := by
      obtain ⟨r, hr, rfl⟩ := List.mem_map.mp (List.mem_of_getElem? hx)
      exact h.calls r (mem_group.mp hr).1
    rw [if_pos hcall]
    refine .of_running h.calls (fun g hg => ?_) fun g hg => ?_
    · rcases List.mem_cons.mp hg with rfl | hg
      · exact ⟨hserved.named, hserved.count, hserved.le,
          fun _ => (List.getElem?_eq_some_iff.mp hx).1, hserved.size, hserved.zero⟩
      · refine hkept _ ?_ g hg
        rfl
    · rcases List.mem_cons.mp hg with rfl | hg
      · rfl
      · exact hbelow g hg

/-- A step keeps what holds of the calls. -/
theorem AllServed.step (h : AllServed d l c) (hfiled : Filed l c.st.hooks)
    (hs : Wasm.step c a = some (c', ev)) (hmac : FromMacros d c a) :
    AllServed d (l ++ accepted l c a ev) c' := by
  obtain ⟨hids, -⟩ := step_kept hs
  cases a with
  | tau =>
    rw [show accepted l c .tau ev = [] from rfl, List.append_nil]
    cases hstack : c.stack with
    | nil => simp [Wasm.step, hstack] at hs
    | cons f k =>
      simp only [Wasm.step, hstack] at hs
      split at hs
      · cases hs
      · have hstep := h.tau_step hfiled hstack
        rw [Option.some.inj hs] at hstep
        exact hstep
  | call retp reg =>
    simp only [Wasm.step] at hs
    split at hs
    · next hwait =>
      cases reg with
      | none =>
        cases hs
        exact h.later hids hmac rfl hwait
      | some reg => exact h.call_step hfiled hmac hwait (Option.some.inj hs)
    · cases hs
  | areg name reg =>
    simp only [Wasm.step] at hs
    split at hs
    · next hwait =>
      cases hs
      exact h.later hids hmac rfl hwait
    · cases hs
  | last ret =>
    simp only [Wasm.step] at hs
    split at hs
    · next hwait =>
      cases hs
      exact h.later hids hmac rfl hwait
    · cases hs
  | ret bytes =>
    rw [show accepted l c (.ret bytes) ev = [] from rfl, List.append_nil]
    cases hstack : c.stack with
    | nil => simp [Wasm.step, hstack] at hs
    | cons f k =>
      simp only [Wasm.step, hstack] at hs
      split at hs
      · next hrun =>
        cases hs
        exact h.ret_step hfiled hstack hrun hmac
      · cases hs

theorem allServed_of_run (h : MacroRun ok d l c) : AllServed d l c := by
  induction h with
  | start h =>
    obtain ⟨adapters, mem, rfl⟩ := h
    refine .of_running (fun r hr => ?_) (fun f hf => ?_) fun f hf => ?_
    · cases hr
    · cases hf
    · cases hf
  | step h hs hown hmac hok ih => exact ih.step (keeps_of_history h.history).filed hs hmac
  | @stale l c h reg i ih =>
    have hids : c.st.OnlyHookIds (c.withHookId reg i).st := .of_update rfl
    refine ⟨fun r hr => ?_, fun f hf => (ih.served f hf).kept hids rfl, ih.below, ih.stored⟩
    rw [hids.adapter_call]
    exact ih.calls r hr

/-! ## The last value of a tagged listener -/

variable {xs : List AdapterRef} {vs : List (List UInt8)} {x : AdapterRef} {u v : List UInt8}

theorem taggedValues_concat (h : xs.length = vs.length) (x : AdapterRef) (u : List UInt8) :
    taggedValues d (xs ++ [x]) (vs ++ [u])
      = taggedValues d xs vs ++ if x ≠ d then [u] else [] := by
  unfold taggedValues
  rw [List.zip_append h, List.filter_append, List.map_append]
  congr 1
  by_cases hx : x = d <;> simp [hx]

theorem mem_of_mem_taggedValues (h : v ∈ taggedValues d xs vs) : v ∈ vs := by
  obtain ⟨p, hp, rfl⟩ := List.mem_map.mp h
  exact (List.of_mem_zip (List.mem_filter.mp hp).1).2

/-- The last tagged value is the last value exactly when the definer has not
returned after it, or it is what the definer returns. -/
theorem last_tagged_iff {n : Nat} (hlen : xs.length = vs.length) (hsize : ∀ v ∈ vs, v.length = n)
    (hzero : ∀ i < vs.length, xs[i]? = some d → vs[i]? = some (List.replicate n 0))
    (hv : (taggedValues d xs vs).getLast? = some v) :
    vs.getLast? = some v ↔ xs.getLast? ≠ some d ∨ v = List.replicate v.length 0 := by
  have hvn : v.length = n :=
    hsize v (mem_of_mem_taggedValues (List.mem_of_getLast? hv))
  induction vs using List.reverseRecOn with
  | nil => simp [taggedValues] at hv
  | append_singleton vs u _ =>
    obtain ⟨xs, x, rfl⟩ : ∃ ys y, xs = ys ++ [y] := by
      refine ⟨xs.dropLast, xs.getLast ?_, (List.dropLast_append_getLast _).symm⟩
      intro hnil
      rw [hnil] at hlen
      simp at hlen
    have hlen' : xs.length = vs.length := by simpa using hlen
    rw [taggedValues_concat hlen'] at hv
    by_cases hx : x = d
    · subst hx
      have hu : u = List.replicate n 0 := by
        have hlast := hzero vs.length (by simp) (by rw [← hlen']; simp)
        simpa using hlast
      simp [hu, hvn, eq_comm]
    · have huv : u = v := by simpa [hx] using hv
      simp [huv, hx]

/-! ## The definer's part -/

/-- What a call has left in the buffer when it returns. -/
structure ResultMeets (d : AdapterRef) (l : List Registration) (c : Config) : Prop where
  result : ∀ f k c' n b v, c.stack = f :: k → step c .tau = some (c', .returned n) →
    f.retp = some b → (taggedValues d (hookOf l c f) f.values).getLast? = some v →
      ((c'.st.mem b).take v.length = v
        ↔ (hookOf l c f).getLast? ≠ some d ∨ v = List.replicate v.length 0)

/-- What a tagged listener that has made no call yet reads through `xy_last`. -/
structure LastMeets (d : AdapterRef) (l : List Registration) (c : Config) : Prop where
  previous : ∀ f k x v, c.stack = f :: k → f.running = true → f.quiet = true →
    (hookOf l c f)[f.cur]? = some x → x ≠ d →
    (taggedValues d (hookOf l c f) f.values).getLast? = some v →
      (Yields c.st (some v)
        ↔ ((hookOf l c f).take f.cur).getLast? ≠ some d ∨ v = List.replicate v.length 0)
  first : ∀ f k x, c.stack = f :: k → f.running = true → f.quiet = true →
    (hookOf l c f)[f.cur]? = some x → x ≠ d →
    taggedValues d (hookOf l c f) f.values = [] →
      (Yields c.st none ↔ d ∉ (hookOf l c f).take f.cur)

/-- The values are those of the adapters that have been called. -/
theorem taggedValues_take (h : vs.length ≤ xs.length) :
    taggedValues d xs vs = taggedValues d (xs.take vs.length) vs := by
  unfold taggedValues
  congr 2
  rw [List.zip_eq_zip_take_min, Nat.min_eq_right h, List.take_length]

theorem Served.last_iff (h : Served d l c f)
    (hv : (taggedValues d (hookOf l c f) f.values).getLast? = some v) :
    f.values.getLast? = some v
      ↔ ((hookOf l c f).take f.cur).getLast? ≠ some d ∨ v = List.replicate v.length 0 := by
  have hle : f.values.length ≤ (hookOf l c f).length := by
    rw [h.count]
    exact h.le
  rw [taggedValues_take hle, h.count] at hv
  have hlen : ((hookOf l c f).take f.cur).length = f.values.length := by
    rw [List.length_take_of_le h.le, h.count]
  refine last_tagged_iff hlen h.size (fun i hi hd => ?_) hv
  rw [h.count] at hi
  rw [List.getElem?_take_of_lt hi] at hd
  exact h.zero i hi hd

/-- A value that fills the buffer is the one that was stored there last. -/
theorem take_iff {m : List UInt8} (hu : vs.getLast? = some u) (htake : m.take u.length = u)
    (hlen : v.length = u.length) : m.take v.length = v ↔ vs.getLast? = some v := by
  rw [hlen, htake, hu, Option.some.injEq]

theorem resultMeets_of_run (h : MacroRun ok d l c) : ResultMeets d l c where
  result f k c' n b v hstack hs hb hv := by
    have hall := allServed_of_run h
    have hserved := hall.served f (by rw [hstack]; exact List.mem_cons_self)
    have hfiled := (keeps_of_history h.history).filed
    simp only [step, hstack] at hs
    split at hs
    · cases hs
    · next hidle =>
      have hidle : f.running = false := by simpa using hidle
      unfold tau at hs
      rw [hserved.listeners hfiled] at hs
      split at hs
      · next hend =>
        cases hs
        have hcur : f.cur = (hookOf l c f).length := by
          have hle := hserved.le
          have hge := List.getElem?_eq_none_iff.mp hend
          omega
        have hiff := hserved.last_iff hv
        rw [hcur, List.take_length] at hiff
        rw [← hiff]
        have hmem := mem_of_mem_taggedValues (List.mem_of_getLast? hv)
        obtain ⟨u, hu⟩ : ∃ u, f.values.getLast? = some u :=
          Option.isSome_iff_exists.mp (List.getLast?_isSome.mpr (List.ne_nil_of_mem hmem))
        have hsame : v.length = u.length := by
          rw [hserved.size v hmem, hserved.size u (List.mem_of_getLast? hu)]
        exact take_iff hu (hall.stored f k b u hstack hidle hb hu) hsame
      · split at hs <;> cases hs

/-- The globals are what `Published` says, in runs with nested calls that are
alike. -/
theorem published_of_run (h : MacroRun NestsAlike d l c) : Published c := by
  induction h with
  | start h => exact Published.of_initial h
  | step h hs hown hmac hok ih => exact ih.step hmac.1 hok hs
  | @stale l c h reg i ih =>
    have hids : c.st.OnlyHookIds (c.withHookId reg i).st := .of_update rfl
    refine ih.of_same rfl rfl rfl (fun x => ?_) fun _ _ _ => rfl
    show ((c.withHookId reg i).st.adapters x).retSize = _
    rw [hids x]

/-- There is one value of a size that can be read. -/
theorem yields_iff {s : State} (h : Yields s (some u)) (hlen : v.length = u.length) :
    Yields s (some v) ↔ u = v := by
  constructor
  · intro hv
    have htake := (hv 0).2
    rw [hlen, (h 0).2] at htake
    exact htake
  · intro huv
    rw [← huv]
    exact h

theorem taggedValues_of_not_mem (hd : d ∉ xs) (hlen : xs.length = vs.length) :
    taggedValues d xs vs = vs := by
  have hall : ∀ p ∈ xs.zip vs, decide (p.1 ≠ d) = true := by
    intro p hp
    have hmem := (List.of_mem_zip hp).1
    rw [decide_eq_true_eq]
    intro heq
    rw [heq] at hmem
    exact hd hmem
  unfold taggedValues
  rw [List.filter_eq_self.mpr hall, List.map_snd_zip (Nat.le_of_eq hlen.symm)]

theorem lastMeets_of_run (h : MacroRun NestsAlike d l c) : LastMeets d l c where
  previous f k x v hstack hrun hquiet hx hne hv := by
    have hserved := (allServed_of_run h).served f (by rw [hstack]; exact List.mem_cons_self)
    have hyields := (published_of_run h).chained.during f k hstack hrun hquiet
    rw [← hserved.last_iff hv]
    have hmem := mem_of_mem_taggedValues (List.mem_of_getLast? hv)
    obtain ⟨u, hu⟩ : ∃ u, f.values.getLast? = some u :=
      Option.isSome_iff_exists.mp (List.getLast?_isSome.mpr (List.ne_nil_of_mem hmem))
    rw [hu] at hyields
    have hsame : v.length = u.length := by
      rw [hserved.size v hmem, hserved.size u (List.mem_of_getLast? hu)]
    rw [yields_iff hyields hsame, hu, Option.some.injEq]
  first f k x hstack hrun hquiet hx hne hnone := by
    have hserved := (allServed_of_run h).served f (by rw [hstack]; exact List.mem_cons_self)
    have hyields := (published_of_run h).chained.during f k hstack hrun hquiet
    have hle := hserved.le
    have hcount := hserved.count
    have hlen : ((hookOf l c f).take f.cur).length = f.values.length := by
      rw [List.length_take_of_le hle, hcount]
    cases hu : f.values.getLast? with
    | none =>
      rw [hu] at hyields
      have hnil := List.getLast?_eq_none_iff.mp hu
      rw [hnil] at hlen
      rw [List.length_eq_zero_iff.mp hlen]
      simp [hyields]
    | some u =>
      rw [hu] at hyields
      have hdef : d ∈ (hookOf l c f).take f.cur := by
        by_contra hd
        rw [taggedValues_take (by omega), hcount, taggedValues_of_not_mem hd hlen] at hnone
        rw [hnone] at hu
        cases hu
      refine iff_of_false (fun hno => ?_) (by simpa using hdef)
      have hok := (hyields 0).1
      rw [hno (some 0)] at hok
      cases hok

/-- The definer has no part in a call exactly when it does not come between a
tagged listener and the next, or the end, or when the value it clears is zero. -/
theorem definer_unaffected_iff (d : AdapterRef) :
    (∀ l c, MacroRun (fun _ _ => True) d l c → ResultMeets d l c)
      ∧ ∀ l c, MacroRun NestsAlike d l c → LastMeets d l c :=
  ⟨fun _ _ h => resultMeets_of_run h, fun _ _ h => lastMeets_of_run h⟩

end

/-! ## A definer and two listeners -/

/-- A call with buffer 10 on the hook of adapters 2, 3 and 4, which are registered
in the order given.  The listeners 3 and 4 return 5 and 7, and the definer 2
returns zero. -/
def definerCall (order : List AdapterRef) : List Action :=
  order.map (.areg innerHook) ++ [.call (some 10) (some 3)]
    ++ order.flatMap fun x => [.tau, .ret [if x = 3 then 5 else if x = 4 then 7 else 0]]

/-- The run of the first `n` of these actions. -/
def definerRun (order : List AdapterRef) (n : Nat) : List Registration × Config :=
  macroFollow NestsAlike 2 ([], Config.boot) ((definerCall order).take n)

theorem macroRun_definerRun (order : List AdapterRef) (n : Nat) :
    MacroRun NestsAlike 2 (definerRun order n).1 (definerRun order n).2 :=
  .follow _ _ (.start Config.boot_initial)

/-- With the definer first, the call leaves the value of its last listener, and
that listener reads the value of the one before. -/
theorem definer_unaffected_of_first :
    (∃ f c' n, (definerRun [2, 3, 4] 10).2.stack = [f] ∧ f.retp = some 10
      ∧ step (definerRun [2, 3, 4] 10).2 .tau = some (c', .returned n)
      ∧ (c'.st.mem 10).take 1 = [7])
    ∧ Yields (definerRun [2, 3, 4] 9).2.st (some [5]) := by
  obtain ⟨hresult, hlast⟩ := definer_unaffected_iff 2
  have hrun : MacroRun (fun _ _ => True) 2 (definerRun [2, 3, 4] 10).1 (definerRun [2, 3, 4] 10).2 :=
    (macroRun_definerRun [2, 3, 4] 10).mono fun _ _ _ => trivial
  constructor
  · refine ⟨_, _, _, rfl, rfl, rfl, ?_⟩
    refine ((hresult _ _ hrun).result _ _ _ _ 10 [7] rfl rfl rfl ?_).mpr (Or.inl ?_)
    · decide +kernel
    · decide +kernel
  · refine ((hlast _ _ (macroRun_definerRun [2, 3, 4] 9)).previous _ _ 4 [5] rfl rfl rfl ?_ ?_
      ?_).mpr (Or.inl ?_)
    · decide +kernel
    · decide
    · decide +kernel
    · decide +kernel

/-- With the definer last, the call leaves zero, though its last listener has
returned 7. -/
theorem not_unaffected_of_last :
    ∃ l c f c' n, MacroRun NestsAlike 2 l c ∧ c.stack = [f] ∧ hookOf l c f = [3, 4, 2]
      ∧ f.retp = some 10 ∧ step c .tau = some (c', .returned n)
      ∧ (taggedValues 2 (hookOf l c f) f.values).getLast? = some [7]
      ∧ (c'.st.mem 10).take 1 = [0] :=
  ⟨_, _, _, _, _, macroRun_definerRun [3, 4, 2] 10, rfl, by decide +kernel, rfl, rfl,
    by decide +kernel, by decide +kernel⟩

end Xylem.Wasm
