import Xylem.Registration

/-!
# The number that a registration returns

`xy_areg` numbers the hook names as they come, and is to return the number of the
name and to store it in the adapter (`HookIdsMeet`), as the WASM port does.

For a name that is new it stores the number, and returns 0.  For a name that is known
it stores nothing, and returns the first four bytes of the entry of `sica_hd`, which
is the address of the first adapter.  So a registration returns the number of its
name only by chance, but for the first name of all (`State.AregLucky`).
-/

namespace Xylem

open Xylem.Runtime

/-- The move is a call of `xy_areg` that returns `v`, with a size within the limit. -/
structure Move.Aregs (m : Move) (name : CStr) (reg : AdapterRef) (v : BitVec 32) : Prop where
  act : m.act = .call (.areg name reg)
  event : m.event = .returned (.hook v)
  size : (m.before.st.adapters reg).retSize ≤ xyMaxRetSize

/-- `v` is the number of the name, and stored in the adapter. -/
structure State.Numbered (s : State) (name : CStr) (reg : AdapterRef) (v : BitVec 32) : Prop where
  named : s.rt.hookIdHd.lookup name = some v.toNat
  stored : (s.adapters reg).hookId = v.toNat
  valid : v ≠ xyInvalid

/-- What the registrations of a run are to return. -/
structure HookIdsMeet (log : List Move) : Prop where
  numbered : ∀ m ∈ log, ∀ name reg v, m.Aregs name reg v → m.after.st.Numbered name reg v
  apart : ∀ m ∈ log, ∀ m' ∈ log, ∀ name name' reg reg' v v', m.Aregs name reg v →
    m'.Aregs name' reg' v' → (v = v' ↔ name = name')

/-- The name is new and the first one; or it is known, and the lower half of the
address of its first adapter is its number, which the adapter happens to hold. -/
def State.AregLucky (w : World) (s : State) (name : CStr) (reg : AdapterRef) : Prop :=
  match s.rt.sicaHd.lookup name with
  | none => s.rt.hookIdCounter = 0
  | some first => s.Numbered name reg ((w.adapterAddr first).setWidth 32)

/-- Names and numbers belong together. -/
structure Runtime.NamesWf (rt : Runtime) : Prop where
  known : ∀ {name}, rt.sicaHd.lookup name = none → rt.hookIdHd.lookup name = none
  lt : ∀ {name hookId}, rt.hookIdHd.lookup name = some hookId → hookId < rt.hookIdCounter
  inj : ∀ {name name' hookId}, rt.hookIdHd.lookup name = some hookId →
    rt.hookIdHd.lookup name' = some hookId → name = name'

section

variable {w : World} {c c' : Config} {a : Action} {ev : Event} {name : CStr} {reg : AdapterRef}
  {v : BitVec 32} {log : List Move} {s : State} {rt rt' : Runtime} {m : Move}

/-! ## The numbers of the names -/

theorem Runtime.NamesWf.congr (h : rt.NamesWf) (hhooks : rt'.hooks = rt.hooks) : rt'.NamesWf := by
  simp only [Runtime.hooks, HookTables.mk.injEq] at hhooks
  obtain ⟨hsica, hids, hcount, -⟩ := hhooks
  refine ⟨?_, ?_, ?_⟩
  · rw [hsica, hids]
    exact h.known
  · rw [hids, hcount]
    exact h.lt
  · rw [hids]
    exact h.inj

/-- A new name gets the next number. -/
theorem lookup_registerHook (rt : Runtime) (name n : CStr) (reg : AdapterRef) :
    (rt.registerHook w name reg).hookIdHd.lookup n
      = if n = name then some rt.hookIdCounter else rt.hookIdHd.lookup n := by
  show (rt.hookIdHd.insert name rt.hookIdCounter).lookup n = _
  split
  · next heq => rw [heq, AList.lookup_insert]
  · next hne => rw [AList.lookup_insert_ne hne]

theorem Runtime.NamesWf.registerHook (h : rt.NamesWf) (name : CStr) (reg : AdapterRef) :
    (rt.registerHook w name reg).NamesWf := by
  refine ⟨?_, ?_, ?_⟩
  · intro n hn
    have hne : n ≠ name := by
      intro heq
      rw [heq] at hn
      have hsome : (rt.registerHook w name reg).sicaHd.lookup name = some reg :=
        AList.lookup_insert _
      rw [hsome] at hn
      cases hn
    rw [lookup_registerHook, if_neg hne]
    exact h.known ((AList.lookup_insert_ne hne).symm.trans hn)
  · intro n i hi
    rw [lookup_registerHook] at hi
    show i < rt.hookIdCounter + 1
    split at hi
    · cases hi
      omega
    · have hlt := h.lt hi
      omega
  · intro n n' i hi hi'
    rw [lookup_registerHook] at hi hi'
    split at hi
    · next heq =>
      split at hi'
      · next heq' => rw [heq, heq']
      · cases hi
        have hlt := h.lt hi'
        omega
    · split at hi'
      · cases hi'
        have hlt := h.lt hi
        omega
      · exact h.inj hi hi'

/-- A step keeps the numbers that there are. -/
theorem namesWf_step (h : c.st.rt.NamesWf) (hwf : c.Wf w) (hs : step w c a = .next c' ev) :
    c'.st.rt.NamesWf
      ∧ ∀ n i, c.st.rt.hookIdHd.lookup n = some i → c'.st.rt.hookIdHd.lookup n = some i := by
  by_cases hareg : ∃ name reg, a = .call (.areg name reg)
  · obtain ⟨name, reg, rfl⟩ := hareg
    rw [step_areg hs]
    unfold xyAreg
    split
    · exact ⟨h, fun _ _ hi => hi⟩
    · split
      · exact ⟨h, fun _ _ hi => hi⟩
      · next hnew =>
        refine ⟨h.registerHook name reg, fun n i hi => ?_⟩
        have hne : n ≠ name := by
          intro heq
          rw [heq, h.known hnew] at hi
          cases hi
        show (c.st.rt.registerHook w name reg).hookIdHd.lookup n = some i
        rw [lookup_registerHook, if_neg hne]
        exact hi
  · rcases ((Step.of_step hs).effect hwf).hooks with hhooks | ⟨name, reg, ha, -⟩
    · refine ⟨h.congr hhooks, fun n i hi => ?_⟩
      rw [show c'.st.rt.hookIdHd = c.st.rt.hookIdHd from congrArg HookTables.hookIdHd hhooks]
      exact hi
    · exact absurd ⟨name, reg, ha⟩ hareg

/-- In a run the numbers belong to the names, and stay. -/
theorem namesWf_of_trace (h : Trace w log c) :
    c.st.rt.NamesWf ∧ ∀ m ∈ log, m.before.st.rt.NamesWf
      ∧ ∀ n i, m.after.st.rt.hookIdHd.lookup n = some i → c.st.rt.hookIdHd.lookup n = some i := by
  induction h with
  | start h =>
    obtain ⟨ctxs, adapters, mem, rfl⟩ := h
    refine ⟨⟨?_, ?_, ?_⟩, fun m hm => by cases hm⟩
    · intro n hn
      exact hn
    · intro n i hi
      cases hi
    · intro n n' i hi
      cases hi
  | move h hs ih =>
    obtain ⟨hwf, hlog⟩ := ih
    obtain ⟨hwf', hkept⟩ := namesWf_step hwf (.of_reachable h.reachable) hs
    refine ⟨hwf', fun m hm => ?_⟩
    rcases List.mem_append.mp hm with hm | hm
    · obtain ⟨hbefore, hafter⟩ := hlog m hm
      exact ⟨hbefore, fun n i hi => hkept n i (hafter n i hi)⟩
    · rw [List.mem_singleton.mp hm]
      exact ⟨hwf, fun n i hi => hi⟩

/-! ## Registrations -/

/-- What a registration returns and leaves. -/
theorem Move.Aregs.returns (h : m.Aregs name reg v)
    (hs : step w m.before m.act = .next m.after m.event) :
    (m.after.st, v) = xyAreg w m.before.st name reg := by
  rw [h.act, h.event] at hs
  unfold step at hs
  dsimp only at hs
  split at hs
  · simp only [beginCall, callDirect, Outcome.next.injEq, Event.returned.injEq,
      Value.hook.injEq] at hs
    obtain ⟨hafter, hv⟩ := hs
    rw [← hafter, ← hv]
  · cases hs

/-- One registration returns the number of its name exactly when it is lucky. -/
theorem Move.Aregs.numbered_iff (h : m.Aregs name reg v)
    (hs : step w m.before m.act = .next m.after m.event) :
    m.after.st.Numbered name reg v ↔ m.before.st.AregLucky w name reg := by
  have hret := h.returns hs
  unfold xyAreg at hret
  rw [if_neg (Nat.not_lt.mpr h.size)] at hret
  unfold State.AregLucky
  cases hfirst : m.before.st.rt.sicaHd.lookup name with
  | some first =>
    rw [hfirst] at hret
    obtain ⟨hafter, hv⟩ := Prod.mk.inj hret
    rw [hafter, hv]
  | none =>
    rw [hfirst] at hret
    obtain ⟨hafter, hv⟩ := Prod.mk.inj hret
    have hnamed : m.after.st.rt.hookIdHd.lookup name = some m.before.st.rt.hookIdCounter := by
      rw [hafter]
      show (m.before.st.rt.registerHook w name reg).hookIdHd.lookup name = _
      rw [lookup_registerHook, if_pos rfl]
    have hstored : (m.after.st.adapters reg).hookId = m.before.st.rt.hookIdCounter := by
      rw [hafter]
      show (Function.update m.before.st.adapters reg _ reg).hookId = _
      rw [Function.update_self]
    constructor
    · intro hnum
      have hzero := hnum.named
      rw [hnamed, hv] at hzero
      exact Option.some.inj hzero
    · intro hzero
      have hzero : m.before.st.rt.hookIdCounter = 0 := hzero
      rw [hzero] at hnamed hstored
      refine ⟨?_, ?_, ?_⟩
      · rw [hnamed, hv]
        rfl
      · rw [hstored, hv]
        rfl
      · rw [hv]
        decide

/-- In a run, the registrations return the numbers of their names exactly when all of
them are lucky. -/
theorem hookIdsMeet_iff (h : Trace w log c) :
    HookIdsMeet log
      ↔ ∀ m ∈ log, ∀ name reg v, m.Aregs name reg v → m.before.st.AregLucky w name reg := by
  constructor
  · intro hmeets m hm name reg v hareg
    exact (hareg.numbered_iff (h.mem hm).2).mp (hmeets.numbered m hm name reg v hareg)
  · intro hlucky
    have hnumbered : ∀ m ∈ log, ∀ name reg v, m.Aregs name reg v →
        m.after.st.Numbered name reg v := by
      intro m hm name reg v hareg
      exact (hareg.numbered_iff (h.mem hm).2).mpr (hlucky m hm name reg v hareg)
    obtain ⟨hwf, hlog⟩ := namesWf_of_trace h
    refine ⟨hnumbered, fun m hm m' hm' name name' reg reg' v v' hareg hareg' => ?_⟩
    have hnamed := (hlog m hm).2 _ _ (hnumbered m hm name reg v hareg).named
    have hnamed' := (hlog m' hm').2 _ _ (hnumbered m' hm' name' reg' v' hareg').named
    constructor
    · intro hv
      rw [← hv] at hnamed'
      exact hwf.inj hnamed hnamed'
    · intro hname
      rw [← hname, hnamed] at hnamed'
      exact BitVec.eq_of_toNat_eq (Option.some.inj hnamed')

end

/-- One hook is registered. -/
theorem hookIdsMeet_of_first :
    HookIdsMeet (movesOf sampleWorld (Config.boot sampleHook) [.call (.areg sampleHook 0)]) := by
  have htrace := Trace.of_actions (w := sampleWorld) (l := [.call (.areg sampleHook 0)])
    (Config.boot_initial sampleHook) (by decide +kernel)
  refine (hookIdsMeet_iff htrace).mpr fun m hm name reg v hareg => ?_
  obtain rfl : m = ⟨Config.boot sampleHook, .call (.areg sampleHook 0), .returned (.hook 0), _⟩ :=
    List.mem_singleton.mp hm
  obtain ⟨rfl, rfl⟩ := Call.areg.inj (Action.call.inj hareg.act)
  rfl

/-- A second hook is registered, which gets the number 1; the call returns 0. -/
theorem not_hookIdsMeet_of_second :
    let log := movesOf sampleWorld (Config.boot sampleHook)
      [.call (.areg sampleHook 0), .call (.areg sampleFile 1)]
    ∃ c, Trace sampleWorld log c ∧ c.st.rt.hookIdHd.lookup sampleFile = some 1
      ∧ ¬ HookIdsMeet log := by
  intro log
  let c₁ := (Config.boot sampleHook).after sampleWorld [.call (.areg sampleHook 0)]
  let m₁ : Move := ⟨Config.boot sampleHook, .call (.areg sampleHook 0), .returned (.hook 0), c₁⟩
  let m₂ : Move := ⟨c₁, .call (.areg sampleFile 1), .returned (.hook 0),
    c₁.after sampleWorld [.call (.areg sampleFile 1)]⟩
  have hlog : log = [m₁, m₂] := rfl
  have htrace := Trace.of_actions (w := sampleWorld)
    (l := [.call (.areg sampleHook 0), .call (.areg sampleFile 1)])
    (Config.boot_initial sampleHook) (by decide +kernel)
  refine ⟨_, htrace, by decide +kernel, fun h => ?_⟩
  have hfirst : m₁.Aregs sampleHook 0 0 := ⟨rfl, rfl, by decide +kernel⟩
  have hsecond : m₂.Aregs sampleFile 1 0 := ⟨rfl, rfl, by decide +kernel⟩
  have hsame := (h.apart m₁ (by simp [hlog]) m₂ (by simp [hlog]) _ _ _ _ _ _ hfirst
    hsecond).mp rfl
  exact absurd hsame (by decide)

end Xylem
