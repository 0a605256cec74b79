import Xylem.Dispatch
import Xylem.Lib.Run
import Xylem.Sample

/-!
# The WASM dispatcher

`libxylem-wasm.c` has a dispatcher of its own: a table of hooks, each with the
list of the adapters registered under its name, and three globals that `xy_last`
reads.  An `xy_call` stores the globals when it starts and counts the listeners
that have run; it does not store its buffer and its adapter again after a
listener, which may have made calls of its own.

`NestsAlike` is the condition under which that makes no difference: a call from a
listener that finds listeners uses the buffer of the call that the listener runs
in, and an adapter of the same return size.
-/

namespace Xylem.Wasm

/-! ## The dispatcher -/

/-- `XY_WASM_MAX_HOOKS`. -/
def maxHooks : Nat := 256

/-- `xy_wasm_hook_slot_t`. -/
structure HookSlot where
  name : CStr
  listeners : List AdapterRef
  hookId : Nat

/-- The globals, and the memory of the modules that the dispatcher writes to. -/
structure State where
  hooks : List HookSlot
  err : Int
  lastRan : Nat
  lastRetp : Option BufRef
  currentAdapter : Option AdapterRef
  adapters : AdapterRef → Adapter
  mem : BufRef → List UInt8

/-- A store through a `void *` that may be NULL. -/
def State.writeBuf (s : State) (p : Option BufRef) (bytes : List UInt8) : State :=
  match p with
  | none => s
  | some b => { s with mem := Function.update s.mem b (overwrite (s.mem b) bytes) }

/-- What fits into the name of a slot. -/
def slotName (name : CStr) : CStr := ⟨name.bytes.take 63, fun h => name.nulFree (List.mem_of_mem_take h)⟩

/-- `xy_areg`. -/
def xyAreg (s : State) (name : CStr) (reg : AdapterRef) : State × BitVec 32 :=
  if (s.adapters reg).retSize > xyMaxRetSize then ({ s with err := xyErrToobig }, xyInvalid)
  else
    let setId (id : Nat) := Function.update s.adapters reg { s.adapters reg with hookId := id }
    match s.hooks.findIdx? (fun h => h.name = name) with
    | some i =>
      let id := (s.hooks[i]?.map (·.hookId)).getD 0
      ({ s with
          adapters := setId id
          hooks := s.hooks.modify i fun h => { h with listeners := h.listeners ++ [reg] }
          err := xyOk }, BitVec.ofNat 32 id)
    | none =>
      if s.hooks.length ≥ maxHooks then ({ s with err := xyErrToobig }, xyInvalid)
      else
        ({ s with
            adapters := setId s.hooks.length
            hooks := s.hooks ++ [{ name := slotName name, listeners := [reg], hookId := s.hooks.length }]
            err := xyOk }, BitVec.ofNat 32 s.hooks.length)

/-- `xy_last`, with the buffer it is given. -/
def xyLast (s : State) (ret : Option BufRef) : State × Int :=
  if s.lastRan = 0 then ({ s with err := xyErrNotfound }, xyErrNotfound)
  else
    let s := match s.lastRetp, s.currentAdapter with
      | some b, some a => s.writeBuf ret ((s.mem b).take (s.adapters a).retSize)
      | _, _ => s
    ({ s with err := xyOk }, xyOk)

/-- The hook of an adapter: the one its number points to, if the name is right,
else the first of that name. -/
def resolveId (s : State) (a : Adapter) : Option Nat :=
  if 0 ≤ a.hookId ∧ (s.hooks[a.hookId.toNat]?).any (fun h => h.name = a.name) then
    some a.hookId.toNat
  else s.hooks.findIdx? (fun h => h.name = a.name)

/-- The adapters registered for a hook. -/
def State.listeners (s : State) (id : Nat) : List AdapterRef :=
  ((s.hooks[id]?).map (·.listeners)).getD []

/-! ## Calls in progress -/

/-- A call of `xy_call` that has not returned.  `cur` is the index of the loop's
pointer; the call is in a listener when `running` is set.  The last two fields
are not in the source: whether that listener has made no call yet, and what the
listeners of this call have returned. -/
structure Frame where
  retp : Option BufRef
  reg : AdapterRef
  id : Nat
  cur : Nat
  ran : Nat
  running : Bool
  quiet : Bool
  values : List (List UInt8)

structure Config where
  st : State
  stack : List Frame

/-- Whether a module, or the host program, is to move. -/
def Config.waiting (c : Config) : Bool := c.stack.head?.all (·.running)

/-- What module code does, and `tau` for the loop. -/
inductive Action where
  | tau
  | call (retp : Option BufRef) (reg : Option AdapterRef)
  | areg (name : CStr) (reg : AdapterRef)
  | last (ret : Option BufRef)
  | ret (bytes : List UInt8)

inductive Event where
  | internal
  | returned (n : Int)
  | registered (id : BitVec 32)
  | entered (reg : AdapterRef)
deriving DecidableEq

/-- The listener on top is about to make a call. -/
def noteCall : List Frame → List Frame
  | [] => []
  | f :: k => { f with quiet := false } :: k

/-- `xy_call` up to its loop. -/
def beginCall (s : State) (k : List Frame) (retp : Option BufRef) (reg : AdapterRef) :
    Config × Event :=
  let fail (s : State) : Config × Event :=
    (⟨{ s.writeBuf retp (List.replicate (s.adapters reg).retSize 0) with err := xyErrNotfound },
      noteCall k⟩, .returned xyErrNotfound)
  match resolveId s (s.adapters reg) with
  | none => fail s
  | some id =>
    let s : State := { s with
      adapters := Function.update s.adapters reg { s.adapters reg with hookId := id } }
    if s.listeners id = [] then fail s
    else
      (⟨{ s with currentAdapter := some reg, lastRetp := retp, lastRan := 0 },
        { retp := retp, reg := reg, id := id, cur := 0, ran := 0, running := false, quiet := false
          values := [] } :: noteCall k⟩, .internal)

/-- One round of the loop, up to the call of the listener, or what follows it. -/
def tau (s : State) (k : List Frame) (f : Frame) : Config × Event :=
  match (s.listeners f.id)[f.cur]? with
  | none => (⟨{ s with err := xyOk }, k⟩, .returned xyOk)
  | some l =>
    if (s.adapters l).call.isSome then
      (⟨s, { f with running := true, quiet := true } :: k⟩, .entered l)
    else (⟨s, { f with cur := f.cur + 1 } :: k⟩, .internal)

/-- The trampoline has stored `bytes` and returns to the loop. -/
def retListener (s : State) (k : List Frame) (f : Frame) (bytes : List UInt8) : Config :=
  ⟨{ s.writeBuf f.retp bytes with lastRan := f.ran + 1 },
    { f with ran := f.ran + 1, cur := f.cur + 1, running := false,
             values := f.values ++ [bytes] } :: k⟩

/-- One step.  An action that is not possible has none. -/
def step (c : Config) : Action → Option (Config × Event)
  | .tau =>
    match c.stack with
    | f :: k => if f.running then none else some (tau c.st k f)
    | [] => none
  | .call retp reg =>
    if c.waiting then
      match reg with
      | none => some (⟨{ c.st with err := xyErrInvalid }, c.stack⟩, .returned xyErrInvalid)
      | some reg => some (beginCall c.st c.stack retp reg)
    else none
  | .areg name reg =>
    if c.waiting then
      let (s, id) := xyAreg c.st name reg
      some (⟨s, c.stack⟩, .registered id)
    else none
  | .last ret =>
    if c.waiting then
      let (s, n) := xyLast c.st ret
      some (⟨s, c.stack⟩, .returned n)
    else none
  | .ret bytes =>
    match c.stack with
    | f :: k => if f.running then some (retListener c.st k f bytes, .internal) else none
    | [] => none

/-- The state in which the library starts, in any memory of modules. -/
def Config.Initial (c : Config) : Prop :=
  ∃ adapters mem, c = ⟨{ hooks := [], err := xyOk, lastRan := 0, lastRetp := none
                         currentAdapter := none, adapters := adapters, mem := mem }, []⟩

def Next (c : Config) (a : Action) (c' : Config) : Prop := ∃ ev, step c a = some (c', ev)

/-! ## What is read through `xy_last` -/

/-- `xy_last` yields the value, or says that there is none. -/
def Yields (s : State) : Option (List UInt8) → Prop
  | none => ∀ ret, (xyLast s ret).2 = xyErrNotfound
  | some v => ∀ b, (xyLast s (some b)).2 = xyOk ∧ ((xyLast s (some b)).1.mem b).take v.length = v

/-- The listener that runs, and has made no call yet, reads its predecessor's
value; and after a call in which some listener ran, its last value is read. -/
structure Chained (c : Config) : Prop where
  during : ∀ f k, c.stack = f :: k → f.running = true → f.quiet = true →
    Yields c.st f.values.getLast?
  after : ∀ f k c' n, c.stack = f :: k → step c .tau = some (c', .returned n) →
    f.values ≠ [] → Yields c'.st f.values.getLast?

/-- Calls have a return buffer, and a trampoline stores as many bytes as the
adapter of the call has declared. -/
def Typed (c : Config) (a : Action) : Prop :=
  match a, c.stack with
  | .call retp (some _), _ => retp.isSome = true
  | .ret bytes, f :: _ => bytes.length = (c.st.adapters f.reg).retSize
  | _, _ => True

instance (c : Config) (a : Action) : Decidable (Typed c a) := by
  unfold Typed
  split <;> infer_instance

/-- The call finds listeners. -/
def State.Heard (s : State) (reg : AdapterRef) : Prop :=
  ∃ id ∈ resolveId s (s.adapters reg), s.listeners id ≠ []

instance (s : State) (reg : AdapterRef) : Decidable (s.Heard reg) := by
  unfold State.Heard
  cases h : resolveId s (s.adapters reg) with
  | none => exact .isFalse (by rintro ⟨id, ⟨⟩, -⟩)
  | some id => exact decidable_of_iff (s.listeners id ≠ []) (by simp)

/-- A call from a listener that finds listeners uses the buffer of the call that
the listener runs in, and an adapter of the same return size. -/
def NestsAlike (c : Config) (a : Action) : Prop :=
  match a, c.stack with
  | .call retp (some reg), f :: _ => c.st.Heard reg →
      retp = f.retp ∧ (c.st.adapters reg).retSize = (c.st.adapters f.reg).retSize
  | _, _ => True

instance (c : Config) (a : Action) : Decidable (NestsAlike c a) := by
  unfold NestsAlike
  split <;> infer_instance

/-! ## The invariant -/

/-- What the globals hold, as far as it can still be read. -/
structure Published (c : Config) : Prop where
  globals : ∀ f ∈ c.stack, ∃ b a, f.retp = some b ∧ c.st.lastRetp = some b
    ∧ c.st.currentAdapter = some a ∧ (c.st.adapters a).retSize = (c.st.adapters f.reg).retSize
  count : ∀ f ∈ c.stack, f.values.length = f.ran
  busy : ∀ f ∈ c.stack.tail, f.running = true ∧ f.quiet = false
  top : ∀ f k, c.stack = f :: k → f.running = false ∨ f.quiet = true →
    c.st.lastRan = f.ran ∧ ∀ v, f.values.getLast? = some v →
      v.length = (c.st.adapters f.reg).retSize
        ∧ ∀ b, f.retp = some b → (c.st.mem b).take v.length = v

section

variable {c c' : Config} {a : Action} {ev : Event}

/-- The globals let `xy_last` yield what they hold. -/
theorem Yields.of_globals {s : State} {b : BufRef} {reg : AdapterRef} {vs : List (List UInt8)}
    (hran : s.lastRan = vs.length) (hretp : s.lastRetp = some b)
    (hcur : s.currentAdapter = some reg)
    (hlast : ∀ v, vs.getLast? = some v →
      v.length = (s.adapters reg).retSize ∧ (s.mem b).take v.length = v) :
    Yields s vs.getLast? := by
  cases hv : vs.getLast? with
  | none =>
    have hnil : vs = [] := List.getLast?_eq_none_iff.mp hv
    subst hnil
    intro ret
    simp [xyLast, hran]
  | some v =>
    obtain ⟨hlen, htake⟩ := hlast v hv
    have hne : s.lastRan ≠ 0 := by
      rw [hran]
      intro h0
      rw [List.length_eq_zero_iff.mp h0] at hv
      cases hv
    intro ret
    simp only [xyLast, if_neg hne, hretp, hcur, State.writeBuf, true_and, Function.update_self]
    rw [← hlen, htake, overwrite_take]

theorem Published.chained (h : Published c) : Chained c where
  during f k hstack hrun hquiet := by
    obtain ⟨b, reg, hb, hretp, hcur, hsize⟩ := h.globals f (by rw [hstack]; exact List.mem_cons_self)
    obtain ⟨hran, hlast⟩ := h.top f k hstack (Or.inr hquiet)
    have hcount := h.count f (by rw [hstack]; exact List.mem_cons_self)
    refine .of_globals (hran.trans hcount.symm) hretp hcur fun v hv => ?_
    exact ⟨(hlast v hv).1.trans hsize.symm, (hlast v hv).2 b hb⟩
  after f k c' n hstack hstep hne := by
    obtain ⟨b, reg, hb, hretp, hcur, hsize⟩ := h.globals f (by rw [hstack]; exact List.mem_cons_self)
    have hcount := h.count f (by rw [hstack]; exact List.mem_cons_self)
    simp only [step, hstack] at hstep
    split at hstep
    · cases hstep
    · next hidle =>
      obtain ⟨hran, hlast⟩ := h.top f k hstack (Or.inl (by simpa using hidle))
      unfold tau at hstep
      split at hstep
      · cases hstep
        refine .of_globals (hran.trans hcount.symm) hretp hcur fun v hv => ?_
        exact ⟨(hlast v hv).1.trans hsize.symm, (hlast v hv).2 b hb⟩
      · split at hstep <;> cases hstep

/-- A write to the state that the frames cannot tell. -/
theorem Published.of_same {s : State} (h : Published c)
    (hran : s.lastRan = c.st.lastRan) (hretp : s.lastRetp = c.st.lastRetp)
    (hcur : s.currentAdapter = c.st.currentAdapter)
    (hsize : ∀ a, (s.adapters a).retSize = (c.st.adapters a).retSize)
    (hmem : ∀ b n, c.st.lastRetp = some b → (s.mem b).take n = (c.st.mem b).take n) :
    Published ⟨s, c.stack⟩ where
  globals f hf := by
    obtain ⟨b, reg, hb, hb', hreg, heq⟩ := h.globals f hf
    exact ⟨b, reg, hb, hretp.trans hb', hcur.trans hreg, by rw [hsize, hsize, heq]⟩
  count := h.count
  busy := h.busy
  top f k hstack hq := by
    obtain ⟨hr, hlast⟩ := h.top f k hstack hq
    refine ⟨hran.trans hr, fun v hv => ?_⟩
    obtain ⟨hlen, htake⟩ := hlast v hv
    refine ⟨by rw [hsize, hlen], fun b hb => ?_⟩
    obtain ⟨b', -, hb', hbl, -, -⟩ := h.globals f (by
      have hs : c.stack = f :: k := hstack
      rw [hs]
      exact List.mem_cons_self)
    rw [hb] at hb'
    cases hb'
    rw [hmem b _ hbl, htake b hb]

/-! ## Steps -/

theorem Config.running_of_waiting (hw : c.waiting = true) {f : Frame} {k : List Frame}
    (hstack : c.stack = f :: k) : f.running = true := by
  simpa [Config.waiting, hstack] using hw

theorem Published.tail (h : Published c) {f : Frame} {k : List Frame} (hstack : c.stack = f :: k)
    {s : State} (hs : s = { c.st with err := s.err }) : Published ⟨s, k⟩ := by
  have hbusy : ∀ g ∈ k, g.running = true ∧ g.quiet = false := by
    have hb := h.busy
    rw [hstack] at hb
    exact hb
  have hmem : ∀ g ∈ k, g ∈ c.stack := by
    intro g hg
    rw [hstack]
    exact List.mem_cons_of_mem f hg
  rw [hs]
  refine ⟨fun g hg => h.globals g (hmem g hg), fun g hg => h.count g (hmem g hg),
    fun g hg => hbusy g (List.mem_of_mem_tail hg), fun g k' hk hq => ?_⟩
  have hg : k = g :: k' := hk
  obtain ⟨hrun, hquiet⟩ := hbusy g (by rw [hg]; exact List.mem_cons_self)
  rw [hrun, hquiet] at hq
  simp at hq

/-- The frame on top goes on. -/
theorem Published.top_frame (h : Published c) {f f' : Frame} {k : List Frame}
    (hstack : c.stack = f :: k) (hidle : f.running = false)
    (hf' : f' = { f with cur := f'.cur, running := f'.running, quiet := f'.quiet }) :
    Published ⟨c.st, f' :: k⟩ := by
  have hf : f ∈ c.stack := by
    rw [hstack]
    exact List.mem_cons_self
  have hk : ∀ g ∈ k, g ∈ c.stack := by
    intro g hg
    rw [hstack]
    exact List.mem_cons_of_mem f hg
  have hretp : f'.retp = f.retp := by rw [hf']
  have hreg : f'.reg = f.reg := by rw [hf']
  have hran : f'.ran = f.ran := by rw [hf']
  have hvalues : f'.values = f.values := by rw [hf']
  refine ⟨fun g hg => ?_, fun g hg => ?_, fun g hg => ?_, fun g k' hg hq => ?_⟩
  · rcases List.mem_cons.mp hg with rfl | hg
    · rw [hretp, hreg]
      exact h.globals f hf
    · exact h.globals g (hk g hg)
  · rcases List.mem_cons.mp hg with rfl | hg
    · rw [hvalues, hran]
      exact h.count f hf
    · exact h.count g (hk g hg)
  · have hb := h.busy
    rw [hstack] at hb
    exact hb g hg
  · cases hg
    rw [hran, hvalues, hretp, hreg]
    exact h.top f k hstack (Or.inl hidle)

theorem Published.tau_step (h : Published c) {f : Frame} {k : List Frame}
    (hstack : c.stack = f :: k) (hidle : f.running = false) : Published (tau c.st k f).1 := by
  unfold tau
  split
  · exact h.tail hstack rfl
  · split
    · exact h.top_frame hstack hidle rfl
    · exact h.top_frame hstack hidle rfl

/-- A call that finds no listener leaves the globals alone. -/
theorem Published.noteCall {s : State} (h : Published c) (hw : c.waiting = true)
    (hretp : s.lastRetp = c.st.lastRetp) (hcur : s.currentAdapter = c.st.currentAdapter)
    (hsize : ∀ a, (s.adapters a).retSize = (c.st.adapters a).retSize) :
    Published ⟨s, noteCall c.stack⟩ := by
  cases hstack : c.stack with
  | nil => exact ⟨nofun, nofun, nofun, nofun⟩
  | cons f k =>
    have hf : f ∈ c.stack := by
      rw [hstack]
      exact List.mem_cons_self
    have hk : ∀ g ∈ k, g ∈ c.stack := by
      intro g hg
      rw [hstack]
      exact List.mem_cons_of_mem f hg
    have hglobals : ∀ g ∈ c.stack, ∃ b a, g.retp = some b ∧ s.lastRetp = some b
        ∧ s.currentAdapter = some a ∧ (s.adapters a).retSize = (s.adapters g.reg).retSize := by
      intro g hg
      obtain ⟨b, a, hb, hb', ha, heq⟩ := h.globals g hg
      exact ⟨b, a, hb, hretp.trans hb', hcur.trans ha, by rw [hsize, hsize, heq]⟩
    refine ⟨fun g hg => ?_, fun g hg => ?_, fun g hg => ?_, fun g k' hg hq => ?_⟩
    · rcases List.mem_cons.mp hg with rfl | hg
      · exact hglobals f hf
      · exact hglobals g (hk g hg)
    · rcases List.mem_cons.mp hg with rfl | hg
      · exact h.count f hf
      · exact h.count g (hk g hg)
    · have hb := h.busy
      rw [hstack] at hb
      exact hb g hg
    · cases hg
      have hrun := Config.running_of_waiting hw hstack
      simp [hrun] at hq

theorem Published.push {s : State} (h : Published c) (hw : c.waiting = true) {b : BufRef}
    {reg : AdapterRef} {id : Nat} (hsize : ∀ a, (s.adapters a).retSize = (c.st.adapters a).retSize)
    (halike : ∀ f ∈ c.stack.head?, some b = f.retp
      ∧ (c.st.adapters reg).retSize = (c.st.adapters f.reg).retSize) :
    Published ⟨{ s with currentAdapter := some reg, lastRetp := some b, lastRan := 0 },
      { retp := some b, reg := reg, id := id, cur := 0, ran := 0, running := false, quiet := false
        values := [] } :: Wasm.noteCall c.stack⟩ where
  globals g hg := by
    rcases List.mem_cons.mp hg with rfl | hg
    · exact ⟨b, reg, rfl, rfl, rfl, rfl⟩
    · cases hstack : c.stack with
      | nil =>
        rw [hstack] at hg
        cases hg
      | cons f k =>
        obtain ⟨hb, hreg⟩ := halike f (by rw [hstack]; rfl)
        obtain ⟨bf, af, hbf, hlast, haf, hsf⟩ := h.globals f (by rw [hstack]; exact List.mem_cons_self)
        have hold : ∃ g' ∈ c.stack, g.retp = g'.retp ∧ g.reg = g'.reg := by
          rw [hstack] at hg
          rcases List.mem_cons.mp hg with rfl | hg
          · exact ⟨f, by rw [hstack]; exact List.mem_cons_self, rfl, rfl⟩
          · exact ⟨g, by rw [hstack]; exact List.mem_cons_of_mem f hg, rfl, rfl⟩
        obtain ⟨g', hg', hretp, hgreg⟩ := hold
        obtain ⟨bg, ag, hbg, hlast', hag, hsg⟩ := h.globals g' hg'
        refine ⟨b, reg, ?_, rfl, rfl, ?_⟩
        · rw [hretp, hbg, ← hlast', hlast, ← hbf, ← hb]
        · have hsame : ag = af := Option.some.inj (hag.symm.trans haf)
          show (s.adapters reg).retSize = (s.adapters g.reg).retSize
          rw [hgreg, hsize, hsize, hreg, ← hsf, ← hsg, hsame]
  count g hg := by
    rcases List.mem_cons.mp hg with rfl | hg
    · rfl
    · exact (h.noteCall (s := c.st) hw rfl rfl fun _ => rfl).count g hg
  busy g hg := by
    cases hstack : c.stack with
    | nil =>
      rw [hstack] at hg
      cases hg
    | cons f k =>
      rw [hstack] at hg
      have hrun := Config.running_of_waiting hw hstack
      rcases List.mem_cons.mp hg with rfl | hg
      · exact ⟨hrun, rfl⟩
      · have hb := h.busy
        rw [hstack] at hb
        exact hb g hg
  top g k hg hq := by
    cases hg
    exact ⟨rfl, nofun⟩

theorem Published.call_step (h : Published c) (hw : c.waiting = true) {retp : Option BufRef}
    {reg : AdapterRef} (hretp : retp.isSome = true)
    (halike : NestsAlike c (.call retp (some reg))) :
    Published (beginCall c.st c.stack retp reg).1 := by
  obtain ⟨b, rfl⟩ := Option.isSome_iff_exists.mp hretp
  unfold beginCall
  dsimp only
  split
  · exact h.noteCall hw rfl rfl fun _ => rfl
  · next id hid =>
    have hsize : ∀ a, ((Function.update c.st.adapters reg
        { c.st.adapters reg with hookId := (id : Int) }) a).retSize = (c.st.adapters a).retSize := by
      intro a
      by_cases ha : a = reg
      · subst ha
        simp
      · simp [ha]
    split
    · exact h.noteCall hw rfl rfl hsize
    · next hne =>
      refine h.push (s := { c.st with adapters := _ }) hw hsize fun f hf => ?_
      obtain ⟨k, hstack⟩ : ∃ k, c.stack = f :: k := by
        cases hs : c.stack with
        | nil =>
          rw [hs] at hf
          cases hf
        | cons g k =>
          rw [hs] at hf
          cases hf
          exact ⟨k, rfl⟩
      unfold NestsAlike at halike
      rw [hstack] at halike
      exact halike ⟨id, hid, hne⟩

theorem Published.ret_step (h : Published c) {f : Frame} {k : List Frame}
    (hstack : c.stack = f :: k) {bytes : List UInt8}
    (hlen : bytes.length = (c.st.adapters f.reg).retSize) :
    Published (retListener c.st k f bytes) := by
  have hf : f ∈ c.stack := by
    rw [hstack]
    exact List.mem_cons_self
  have hk : ∀ g ∈ k, g ∈ c.stack := by
    intro g hg
    rw [hstack]
    exact List.mem_cons_of_mem f hg
  obtain ⟨b, a, hb, hlast, ha, hsize⟩ := h.globals f hf
  have hwrite : c.st.writeBuf f.retp bytes
      = { c.st with mem := Function.update c.st.mem b (overwrite (c.st.mem b) bytes) } := by
    rw [hb]
    rfl
  unfold retListener
  rw [hwrite]
  refine ⟨fun g hg => ?_, fun g hg => ?_, fun g hg => ?_, fun g k' hg hq => ?_⟩
  · rcases List.mem_cons.mp hg with rfl | hg
    · exact ⟨b, a, hb, hlast, ha, hsize⟩
    · exact h.globals g (hk g hg)
  · rcases List.mem_cons.mp hg with rfl | hg
    · show (f.values ++ [bytes]).length = f.ran + 1
      rw [List.length_append, h.count f hf]
      rfl
    · exact h.count g (hk g hg)
  · have hbusy := h.busy
    rw [hstack] at hbusy
    exact hbusy g hg
  · cases hg
    refine ⟨rfl, fun v hv => ?_⟩
    obtain rfl : bytes = v := by simpa using hv
    refine ⟨hlen, fun b' hb' => ?_⟩
    obtain rfl : b = b' := Option.some.inj (hb.symm.trans hb')
    show ((Function.update c.st.mem b _) b).take bytes.length = bytes
    rw [Function.update_self, overwrite_take]

theorem xyAreg_same (s : State) (name : CStr) (reg : AdapterRef) :
    (xyAreg s name reg).1.lastRan = s.lastRan ∧ (xyAreg s name reg).1.lastRetp = s.lastRetp
      ∧ (xyAreg s name reg).1.currentAdapter = s.currentAdapter
      ∧ (∀ a, ((xyAreg s name reg).1.adapters a).retSize = (s.adapters a).retSize)
      ∧ (xyAreg s name reg).1.mem = s.mem := by
  have hset : ∀ (id : Int) a, ((Function.update s.adapters reg
      { s.adapters reg with hookId := id }) a).retSize = (s.adapters a).retSize := by
    intro id a
    by_cases ha : a = reg
    · subst ha
      simp
    · simp [ha]
  unfold xyAreg
  dsimp only
  split
  · exact ⟨rfl, rfl, rfl, fun _ => rfl, rfl⟩
  · split
    · exact ⟨rfl, rfl, rfl, hset _, rfl⟩
    · split
      · exact ⟨rfl, rfl, rfl, fun _ => rfl, rfl⟩
      · exact ⟨rfl, rfl, rfl, hset _, rfl⟩

/-- `xy_last` may be given the very buffer that it reads. -/
theorem xyLast_same (s : State) (ret : Option BufRef) :
    (xyLast s ret).1.lastRan = s.lastRan ∧ (xyLast s ret).1.lastRetp = s.lastRetp
      ∧ (xyLast s ret).1.currentAdapter = s.currentAdapter
      ∧ (xyLast s ret).1.adapters = s.adapters
      ∧ ∀ b, s.lastRetp = some b → (xyLast s ret).1.mem b = s.mem b := by
  unfold xyLast
  split
  · exact ⟨rfl, rfl, rfl, rfl, fun _ _ => rfl⟩
  · dsimp only
    split
    · next b a hb ha =>
      cases ret with
      | none => exact ⟨rfl, rfl, rfl, rfl, fun _ _ => rfl⟩
      | some r =>
        refine ⟨rfl, rfl, rfl, rfl, fun b' hb' => ?_⟩
        obtain rfl : b = b' := Option.some.inj (hb.symm.trans hb')
        show Function.update s.mem r (overwrite (s.mem r) _) b = s.mem b
        by_cases hr : b = r
        · subst hr
          rw [Function.update_self, overwrite_take_self]
        · rw [Function.update_of_ne hr]
    · exact ⟨rfl, rfl, rfl, rfl, fun _ _ => rfl⟩

theorem Published.step (h : Published c) (htyped : Typed c a) (halike : NestsAlike c a)
    (hs : step c a = some (c', ev)) : Published c' := by
  cases a with
  | tau =>
    cases hstack : c.stack with
    | nil => simp [Wasm.step, hstack] at hs
    | cons f k =>
      simp only [Wasm.step, hstack] at hs
      split at hs
      · cases hs
      · next hidle =>
        have hpub := h.tau_step hstack (by simpa using hidle)
        rw [Option.some.inj hs] at hpub
        exact hpub
  | call retp reg =>
    simp only [Wasm.step] at hs
    split at hs
    · next hw =>
      cases reg with
      | none =>
        cases hs
        exact h.of_same rfl rfl rfl (fun _ => rfl) fun _ _ _ => rfl
      | some reg =>
        have hpub := h.call_step hw htyped halike
        rw [Option.some.inj hs] at hpub
        exact hpub
    · cases hs
  | areg name reg =>
    simp only [Wasm.step] at hs
    split at hs
    · cases hs
      obtain ⟨hran, hretp, hcur, hsize, hmem⟩ := xyAreg_same c.st name reg
      exact h.of_same hran hretp hcur hsize fun b n _ => by rw [hmem]
    · cases hs
  | last ret =>
    simp only [Wasm.step] at hs
    split at hs
    · cases hs
      obtain ⟨hran, hretp, hcur, hadapters, hmem⟩ := xyLast_same c.st ret
      exact h.of_same hran hretp hcur (fun a => by rw [hadapters]) fun b n hb => by rw [hmem b hb]
    · cases hs
  | ret bytes =>
    cases hstack : c.stack with
    | nil => simp [Wasm.step, hstack] at hs
    | cons f k =>
      simp only [Wasm.step, hstack] at hs
      split at hs
      · cases hs
        refine h.ret_step hstack ?_
        unfold Typed at htyped
        rw [hstack] at htyped
        exact htyped
      · cases hs

theorem Published.of_initial (h : c.Initial) : Published c := by
  obtain ⟨adapters, mem, rfl⟩ := h
  exact ⟨nofun, nofun, nofun, nofun⟩

/-- In a run in which calls nested in a listener use the buffer and the return
size of the call around them, listeners are chained. -/
theorem chained_of_nestsAlike
    (h : Run.ReachBy Config.Initial Next (fun c a => Typed c a ∧ NestsAlike c a) c) : Chained c := by
  refine Published.chained (h.invariant (fun _ => Published.of_initial) ?_)
  rintro c a c' hpub ⟨htyped, halike⟩ ⟨ev, hs⟩
  exact hpub.step htyped halike hs

end

/-! ## Two listeners, the first of which makes a call -/

/-- Where a step leads. -/
def after (c : Config) (a : Action) : Option Config := (step c a).map Prod.fst

theorem next_of_after (c : Config) (a : Action) (c' : Config) (h : after c a = some c') :
    Next c a c' := by
  obtain ⟨⟨c'', ev⟩, hs, rfl⟩ := Option.map_eq_some_iff.mp h
  exact ⟨ev, hs⟩

def outerHook : CStr := sampleHook
def innerHook : CStr := ⟨[103], by decide⟩

/-- Adapters 0 and 1 are for one hook, the others for another. -/
def Config.boot : Config :=
  ⟨{ hooks := [], err := xyOk, lastRan := 0, lastRetp := none, currentAdapter := none
     adapters := fun a =>
       { name := if a < 2 then outerHook else innerHook, argSize := 0, retSize := 1, call := some 1
         hookId := -1 }
     mem := fun _ => [] }, []⟩

theorem Config.boot_initial : Config.boot.Initial := ⟨_, _, rfl⟩

/-- A call with buffer 10 whose first listener makes a call with the buffer `b`,
up to the second listener. -/
def nestedCall (b : BufRef) : List Action :=
  [.areg outerHook 0, .areg outerHook 1, .areg innerHook 2, .call (some 10) (some 0), .tau,
    .call (some b) (some 2), .tau, .ret [9], .tau, .ret [5], .tau]

/-- The first listener makes its call with the buffer of the call it runs in.  The
run comes to its end, where the second listener reads the value of the first. -/
theorem chained_of_shared_buffer :
    let c := Run.follow after (fun c a => Typed c a ∧ NestsAlike c a) Config.boot (nestedCall 10)
    Chained c ∧ ∃ f, c.stack = [f] ∧ f.running = true ∧ f.quiet = true ∧ f.values = [[5]]
      ∧ Yields c.st (some [5]) := by
  intro c
  have hchained : Chained c :=
    chained_of_nestsAlike (.follow next_of_after (.start Config.boot_initial) _)
  obtain ⟨f, hstack, hrun, hquiet, hvalues⟩ : ∃ f, c.stack = [f] ∧ f.running = true
      ∧ f.quiet = true ∧ f.values = [[5]] := ⟨_, rfl, rfl, rfl, rfl⟩
  have hyields := hchained.during f [] hstack hrun hquiet
  rw [hvalues] at hyields
  exact ⟨hchained, f, hstack, hrun, hquiet, hvalues, hyields⟩

/-- The first listener makes its call with a buffer of its own, and the second
one reads what that call has left. -/
theorem not_chained_of_own_buffer :
    ∃ c, Run.ReachBy Config.Initial Next Typed c ∧ ¬ Chained c := by
  let c := Run.follow after Typed Config.boot (nestedCall 11)
  obtain ⟨f, k, hstack, hrun, hquiet, hlast⟩ : ∃ f k, c.stack = f :: k ∧ f.running = true
      ∧ f.quiet = true ∧ f.values.getLast? = some [5] :=
    ⟨_, _, rfl, rfl, rfl, rfl⟩
  refine ⟨c, .follow next_of_after (.start Config.boot_initial) _, fun h => ?_⟩
  have hyields := h.during f k hstack hrun hquiet
  rw [hlast] at hyields
  have hread : ((xyLast c.st (some 12)).1.mem 12).take 1 = [9] := by decide +kernel
  have hwrong : ((xyLast c.st (some 12)).1.mem 12).take 1 = [5] := (hyields 12).2
  rw [hread] at hwrong
  cases hwrong

end Xylem.Wasm
