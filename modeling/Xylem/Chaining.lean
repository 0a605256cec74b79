import Xylem.LastReturn
import Xylem.Sample

/-!
# Listeners are chained through `xy_last`

A dispatch publishes its buffer, its adapter and the number of listeners that
have returned, at its start and again after each listener, whatever calls that
listener has made.  So a listener that has made no dispatch of its own yet finds
its predecessor's return (`Published`), and the end of the dispatch copies the
last one into a buffer of the library.

`returns` and `entries` read the listeners of one dispatch off the moves of its
run: these are the ones made with the frame of the dispatch on top.
-/

namespace Xylem

open Xylem.Runtime

/-- The move enters a listener of the dispatch above `n` calls. -/
def Move.Enters (n : Nat) (m : Move) : Prop :=
  m.before.stack.length = n + 1 ∧ ∃ e cb, m.event = .enterListener e cb

/-- The bytes that a listener of the dispatch above `n` calls returns with the
move. -/
def Move.returning (n : Nat) (m : Move) : Option (List UInt8) :=
  match m.act with
  | .ret (.listened bytes) => if m.before.stack.length = n + 1 then some bytes else none
  | _ => none

/-- What the listeners of the dispatch above `n` calls have returned. -/
def returns (n : Nat) (log : List Move) : List (List UInt8) := log.filterMap (·.returning n)

/-- Whether the move enters a listener of the dispatch above `n` calls. -/
def Move.entering (n : Nat) (m : Move) : Bool :=
  match m.event with
  | .enterListener _ _ => m.before.stack.length == n + 1
  | _ => false

/-- The moves that enter a listener of the dispatch above `n` calls. -/
def entries (n : Nat) (log : List Move) : List Move := log.filter (·.entering n)

/-- The move is neither a dispatch nor the return of a listener. -/
def Move.Quiet (m : Move) : Prop :=
  (∀ retp reg selfOnly, m.act ≠ .call (.call retp reg selfOnly))
    ∧ ∀ bytes, m.act ≠ .ret (.listened bytes)

/-- `xy_last` yields the value, or says that there is none. -/
def Yields (s : State) : Option (List UInt8) → Prop
  | none => ∀ ret, (xyLast s ret).2 = xyErrNotfound
  | some v => ∀ ret, (xyLast s ret).2 = xyOk
      ∧ ∀ b ∈ ret, ((xyLast s ret).1.mem b).take v.length = v

/-- A call of `xy_last` that got the value, or was told that there is none. -/
def Move.Answers (m : Move) (ret : Option BufRef) : Option (List UInt8) → Prop
  | none => m.event = .returned (.int xyErrNotfound)
  | some v => m.event = .returned (.int xyOk) ∧ ∀ b ∈ ret, (m.after.st.mem b).take v.length = v

/-- The state tells of the listeners of a dispatch on `reg` with the buffer `b`,
which have returned `vs`. -/
structure Published (s : State) (b : BufRef) (reg : AdapterRef) (vs : List (List UInt8)) : Prop where
  ran : s.tls.lastRan = vs.length
  retp : s.tls.lastRetp = .buf b
  adapter : s.adapter = some reg
  last : ∀ v ∈ vs.getLast?, v.length = (s.adapters reg).retSize ∧ (s.mem b).take v.length = v

section

variable {w : World} {c c' : Config} {a : Action} {ev : Event} {b : BufRef} {reg : AdapterRef}
  {vs : List (List UInt8)}

/-! ## Reading -/

theorem yields_none {s : State} (hreg : s.adapter = some reg) (hran : s.tls.lastRan = 0) :
    Yields s none := by
  intro ret
  simp [xyLast, hreg, hran]

theorem Published.yields {s : State} (h : Published s b reg vs) : Yields s vs.getLast? := by
  cases hv : vs.getLast? with
  | none =>
    rw [List.getLast?_eq_none_iff] at hv
    subst hv
    exact yields_none h.adapter h.ran
  | some v =>
    obtain ⟨hlen, htake⟩ := h.last v hv
    have hne : s.tls.lastRan ≠ 0 := by
      rw [h.ran]
      intro h0
      rw [List.length_eq_zero_iff.mp h0] at hv
      cases hv
    intro ret
    simp only [xyLast, h.adapter, if_neg hne, h.retp, true_and]
    rintro b' ⟨⟩
    show (Function.update s.mem b' _ b').take v.length = v
    rw [Function.update_self, ← hlen, htake, overwrite_take]

theorem xyLast_published {s : State} (h : Published s b reg vs) (ret : Option BufRef) :
    Published (xyLast s ret).1 b reg vs := by
  have hmem : (xyLast s ret).1.tls = s.tls ∧ (xyLast s ret).1.adapter = s.adapter
      ∧ (xyLast s ret).1.adapters = s.adapters ∧ (xyLast s ret).1.mem b = s.mem b := by
    unfold xyLast
    simp only [h.adapter]
    split
    · exact ⟨rfl, h.adapter.symm ▸ rfl, rfl, rfl⟩
    · rw [h.retp]
      cases ret with
      | none => exact ⟨rfl, h.adapter.symm ▸ rfl, rfl, rfl⟩
      | some r =>
        refine ⟨rfl, h.adapter.symm ▸ rfl, rfl, ?_⟩
        show Function.update s.mem r _ b = s.mem b
        by_cases hr : b = r
        · subst hr
          rw [Function.update_self, overwrite_take_self]
        · rw [Function.update_of_ne hr]
  obtain ⟨htls, hadapter, hadapters, hb⟩ := hmem
  exact ⟨htls ▸ h.ran, htls ▸ h.retp, hadapter ▸ h.adapter, by rw [hadapters, hb]; exact h.last⟩

theorem State.KeepsLast.published {s s' : State} (hk : s.KeepsLast s') (h : Published s b reg vs) :
    Published s' b reg vs :=
  ⟨hk.ran.trans h.ran, hk.retp.trans h.retp, hk.adapter.trans h.adapter, by
    rw [hk.adapters, hk.mem]
    exact h.last⟩

theorem xyAreg_published {s : State} (h : Published s b reg vs) (name : CStr) (reg' : AdapterRef) :
    Published (xyAreg w s name reg').1 b reg vs := by
  have hsize : ∀ x, ((Function.update s.adapters reg'
      { s.adapters reg' with hookId := (s.rt.hookIdCounter : Int) }) x).retSize
        = (s.adapters x).retSize := by
    intro x
    by_cases hx : x = reg'
    · subst hx
      rw [Function.update_self]
    · rw [Function.update_of_ne hx]
  unfold xyAreg
  split
  · exact ⟨h.ran, h.retp, h.adapter, h.last⟩
  · split
    · exact h
    · refine ⟨h.ran, h.retp, h.adapter, ?_⟩
      dsimp only
      rw [hsize]
      exact h.last

theorem dispatchEnd_yields {s : State} (h : Published s b reg vs) (hsize : 0 < (s.adapters reg).retSize) :
    Yields (dispatchEnd s (some b) reg vs.length).1 vs.getLast? := by
  cases hv : vs.getLast? with
  | none =>
    rw [List.getLast?_eq_none_iff] at hv
    subst hv
    exact yields_none h.adapter rfl
  | some v =>
    obtain ⟨hlen, htake⟩ := h.last v hv
    have hne : vs.length ≠ 0 := by
      intro h0
      rw [List.length_eq_zero_iff.mp h0] at hv
      cases hv
    obtain ⟨hadapters, hadapter, hran⟩ := dispatchEnd_last s (some b) reg vs.length
    have hcopy : (dispatchEnd s (some b) reg vs.length).1.tls.lastRetp = .lastRetbuf
        ∧ ((dispatchEnd s (some b) reg vs.length).1.tls.lastRetbuf.take v.length) = v := by
      unfold dispatchEnd
      simp only [if_neg hne, ← hlen]
      exact setLastRet_take (hlen ▸ hsize) htake
    intro ret
    simp only [xyLast, hadapter.trans h.adapter, hran, if_neg hne, hcopy.1, hadapters, true_and]
    rintro b' ⟨⟩
    show (Function.update (dispatchEnd s (some b) reg vs.length).1.mem b' _ b').take v.length = v
    rw [Function.update_self, ← hlen, hcopy.2, overwrite_take]

/-! ## The stack above a dispatch -/

def Frame.isDispatch : Frame → Bool
  | .dispatch _ _ => true
  | _ => false

/-- How many dispatches are in progress. -/
def Config.dispatches (c : Config) : Nat := c.stack.countP Frame.isDispatch

theorem resume_dispatches {s : State} {ret : Int} {k : List Frame}
    (h : resume s ret k = .next c' ev) : c'.dispatches = k.countP Frame.isDispatch := by
  unfold resume at h
  split at h <;> cases h <;> rfl

theorem Unloads.dispatches {s : State} {fname : CStr} {id : RegionId} {plen : Nat}
    {k : List Frame} (h : Unloads w s fname id plen k c' ev) :
    c'.dispatches = k.countP Frame.isDispatch := by
  cases h with
  | notFound hl hr => exact resume_dispatches hr
  | shared hl hme href hr => exact resume_dispatches hr
  | cascade => rfl

/-- Only a call of `xy_call` or `xy_call_self` starts a dispatch. -/
theorem Step.dispatches_le (h : Step w c a c' ev)
    (ha : ∀ retp reg selfOnly, a ≠ .call (.call retp reg selfOnly)) :
    c'.dispatches ≤ c.dispatches := by
  have hpop : ∀ (f : Frame) k, k.countP Frame.isDispatch ≤ (f :: k).countP Frame.isDispatch :=
    fun f k => (List.sublist_cons_self f k).countP_le
  cases h with
  | load | scope | eachFirst | answered | direct | shutdown | dlopened | publish | bind
  | claimFlat | claimRefused | claimAsked | notGranted | granted | rekey | link | installMissing
  | install | cascadeSkip | reloadLoad | selfSkip | selfDeaf | selfEnter | slotSkip | slotEnter
  | selfListened | slotListened | eachNext => exact Nat.le_refl _
  | reinsert | reloadEnd | scopeEnd | eachEnd => exact Nat.le_refl _
  | dispatchEnd => exact hpop _ _
  | dispatchDone | dispatchLoop => exact absurd rfl (ha _ _ _)
  | unload hw hu => exact Nat.le_of_eq hu.dispatches
  | reload hw hl hme hu => exact Nat.le_of_eq hu.dispatches
  | cascade hme hp hs hu => exact Nat.le_of_eq hu.dispatches
  | dlopenFailed hr => exact Nat.le_trans (Nat.le_of_eq (resume_dispatches hr)) (hpop _ _)
  | reuse hl hme hr => exact Nat.le_trans (Nat.le_of_eq (resume_dispatches hr)) (hpop _ _)
  | installed hr => exact Nat.le_trans (Nat.le_of_eq (resume_dispatches hr)) (hpop _ _)
  | abort ha' hr => exact Nat.le_trans (Nat.le_of_eq (resume_dispatches hr)) (hpop _ _)
  | remove hme hr => exact Nat.le_trans (Nat.le_of_eq (resume_dispatches hr)) (hpop _ _)

/-! ## The run of a dispatch -/

theorem Move.returning_of_ne {n : Nat} {m : Move} (h : m.before.stack.length ≠ n + 1) :
    m.returning n = none := by
  unfold Move.returning
  split
  · rw [if_neg h]
  · rfl

theorem Move.entering_of_ne {n : Nat} {m : Move} (h : m.before.stack.length ≠ n + 1) :
    m.entering n = false := by
  unfold Move.entering
  split
  · simpa using h
  · rfl

theorem returns_concat (n : Nat) (log : List Move) (m : Move) :
    returns n (log ++ [m]) = returns n log ++ (m.returning n).toList := by
  unfold returns
  rw [List.filterMap_append]
  cases h : m.returning n <;> simp [h]

theorem entries_concat_length (n : Nat) (log : List Move) (m : Move) :
    (entries n (log ++ [m])).length
      = (entries n log).length + (if m.entering n then 1 else 0) := by
  unfold entries
  rw [List.filter_append, List.length_append]
  cases h : m.entering n <;> simp [h]

theorem step_call_waiting {q : Call} (h : step w c (.call q) = .next c' ev) : c.waiting = true := by
  unfold step at h
  dsimp only at h
  split at h
  · assumption
  · cases h

/-- A listener of the dispatch above `k` runs and has made no dispatch, and those
before it have made the moves `pre`. -/
structure Undisturbed (k : List Frame) (b : BufRef) (reg : AdapterRef) (pre : List Move)
    (c : Config) : Prop where
  published : Published c.st b reg (returns k.length pre)
  count : (returns k.length pre).length = (entries k.length pre).length
  running : ∃ l d e, c.stack = l ++ .dispatch d (some e) :: k ∧ l.countP Frame.isDispatch = 0

/-- What holds of a dispatch that is on the stack above `k`, with the moves made
since it came to its loop. -/
structure InDispatch (k : List Frame) (b : BufRef) (reg : AdapterRef) (size : Nat)
    (log : List Move) (c : Config) : Prop where
  frame : ∃ l d run, c.stack = l ++ .dispatch d run :: k ∧ d.retp = some b ∧ d.reg = reg
    ∧ d.ran = (returns k.length log).length
    ∧ (entries k.length log).length = d.ran + run.toList.length
    ∧ (run = none → l = [] ∧ Published c.st b reg (returns k.length log))
  resolved : 0 ≤ (c.st.adapters reg).hookId
  size : (c.st.adapters reg).retSize = size
  window : ∀ pre m mid, log = pre ++ m :: mid → m.Enters k.length → (∀ x ∈ mid, x.Quiet) →
    Undisturbed k b reg pre c

variable {k : List Frame} {size : Nat} {log : List Move}

/-- A step of the listener, other than a dispatch, above a dispatch that runs
it. -/
theorem Step.quiet {l : List Frame} {d : Dispatch} {e : EntryRef} (h : step w c a = .next c' ev)
    (hq : Move.Quiet ⟨c, a, ev, c'⟩) (hstack : c.stack = l ++ .dispatch d (some e) :: k)
    (hl : l.countP Frame.isDispatch = 0) (hpub : Published c.st b reg vs) :
    Published c'.st b reg vs
      ∧ ∃ l', c'.stack = l' ++ .dispatch d (some e) :: k ∧ l'.countP Frame.isDispatch = 0 := by
  obtain ⟨hcall, hret⟩ := hq
  have hs := Step.of_step h
  have hnot : ∀ f ∈ l, f.isDispatch = false := fun f hf => by
    simpa using List.countP_eq_zero.mp hl f hf
  constructor
  · cases hs.last with
    | kept hk => exact hk.published hpub
    | areg ha hst => exact hst ▸ xyAreg_published hpub _ _
    | read ha hst => exact hst ▸ xyLast_published hpub _
    | refused ha hd => exact absurd ha (hcall _ _ _)
    | started ha hd => exact absurd ha (hcall _ _ _)
    | listened ha => exact absurd ha (hret _)
    | ended ha htop =>
      rw [hstack] at htop
      cases l with
      | nil => cases htop
      | cons f l =>
        cases htop
        cases hnot _ List.mem_cons_self
    | shutdown ha hempty =>
      rw [hstack] at hempty
      simp at hempty
  · have hframe : ∃ l', c'.stack = l' ++ .dispatch d (some e) :: k := by
      by_cases hnil : l = []
      · subst hnil
        cases a with
        | call q =>
          obtain ⟨l', hl'⟩ := hs.call_push
          exact ⟨l', hl'.trans (by rw [hstack]; rfl)⟩
        | tau =>
          unfold step tau at h
          simp only [hstack, List.nil_append] at h
          cases h
        | ret r =>
          cases r with
          | listened bytes => exact absurd rfl (hret bytes)
          | _ =>
            unfold step giveBack at h
            simp only [hstack, List.nil_append] at h
            cases h
      · exact hs.over hstack hnil nofun
    obtain ⟨l', hl'⟩ := hframe
    refine ⟨l', hl', ?_⟩
    have hle := hs.dispatches_le hcall
    unfold Config.dispatches at hle
    rw [hstack, hl', List.countP_append, List.countP_append, hl] at hle
    omega

/-- At the head of its loop a dispatch skips an entry or enters a listener. -/
theorem Step.at_head {d : Dispatch} (h : step w c a = .next c' ev)
    (hstack : c.stack = .dispatch d none :: k) (hlen : k.length < c'.stack.length) :
    c.st.KeepsLast c'.st ∧ a = .tau
      ∧ ∃ d' run, c'.stack = .dispatch d' run :: k ∧ d'.retp = d.retp ∧ d'.reg = d.reg
        ∧ d'.ran = d.ran ∧ ((run = none ∧ ev = .internal)
          ∨ ∃ e cb, run = some e ∧ ev = .enterListener e cb) := by
  have hs := Step.of_step h
  cases a with
  | call q =>
    have hw := step_call_waiting h
    unfold Config.waiting at hw
    rw [hstack] at hw
    cases hw
  | ret r =>
    unfold step giveBack at h
    simp only [hstack] at h
    cases h
  | tau =>
    cases hs with
    | dispatchEnd hend =>
      cases hstack
      exact absurd hlen (Nat.lt_irrefl _)
    | selfSkip =>
      cases hstack
      exact ⟨.refl _, rfl, _, _, rfl, rfl, rfl, rfl, Or.inl ⟨rfl, rfl⟩⟩
    | selfDeaf =>
      cases hstack
      exact ⟨⟨rfl, rfl, rfl, rfl, rfl, rfl⟩, rfl, _, _, rfl, rfl, rfl, rfl, Or.inl ⟨rfl, rfl⟩⟩
    | slotSkip =>
      cases hstack
      exact ⟨.refl _, rfl, _, _, rfl, rfl, rfl, rfl, Or.inl ⟨rfl, rfl⟩⟩
    | selfEnter hself he hme hc hd hh hs' =>
      cases hstack
      subst hs'
      exact ⟨⟨rfl, rfl, rfl, rfl, rfl, rfl⟩, rfl, _, _, rfl, rfl, rfl, rfl, Or.inr ⟨_, _, rfl, rfl⟩⟩
    | @slotEnter s k' d d' slot me x s' hself hmi hslots hcell hme hc hcb hd' hs' =>
      cases hstack
      subst hs' hd'
      exact ⟨keepsLast_switch _ s x d.reg me, rfl, _, _, rfl, rfl, rfl, rfl,
        Or.inr ⟨_, _, rfl, rfl⟩⟩
    | _ => cases hstack

/-- A listener returns to the loop. -/
theorem Step.listener_returns {d : Dispatch} {e : EntryRef} {bytes : List UInt8}
    (h : step w c (.ret (.listened bytes)) = .next c' ev)
    (hstack : c.stack = .dispatch d (some e) :: k) (hretp : d.retp = some b) (hreg : d.reg = reg)
    (hran : d.ran = vs.length) (hbytes : bytes.length = (c.st.adapters reg).retSize) :
    Published c'.st b reg (vs ++ [bytes]) ∧ ev = .internal
      ∧ ∃ d', c'.stack = .dispatch d' none :: k ∧ d'.retp = some b ∧ d'.reg = reg
        ∧ d'.ran = d.ran + 1 := by
  have hs := Step.of_step h
  have hpub : ∀ s, (c.st.writeBuf d.retp bytes).KeepsLast s →
      Published (s.lastPublish (d.ran + 1) d.retp d.reg) b reg (vs ++ [bytes]) := by
    intro s hk
    have hmem : s.mem b = overwrite (c.st.mem b) bytes := by
      rw [hk.mem, hretp]
      exact Function.update_self ..
    have hadapters : s.adapters = c.st.adapters := by
      rw [hk.adapters, hretp]
      rfl
    refine ⟨?_, ?_, congrArg some hreg, fun v hv => ?_⟩
    · show d.ran + 1 = (vs ++ [bytes]).length
      rw [List.length_append, hran]
      rfl
    · show RetPtr.ofBuf d.retp = .buf b
      rw [hretp]
      rfl
    · obtain rfl : bytes = v := by simpa using hv
      refine ⟨?_, ?_⟩
      · show bytes.length = (s.adapters reg).retSize
        rw [hadapters, hbytes]
      · show (s.mem b).take bytes.length = bytes
        rw [hmem, overwrite_take]
  cases hs with
  | selfListened hself hme =>
    cases hstack
    exact ⟨hpub _ (.refl _), rfl, _, rfl, hretp, hreg, rfl⟩
  | slotListened hself hs' =>
    cases hstack
    refine ⟨hpub _ ?_, rfl, _, rfl, hretp, hreg, rfl⟩
    subst hs'
    split
    · exact ⟨rfl, rfl, rfl, rfl, rfl, rfl⟩
    · exact .refl _

theorem Move.Enters.entering {n : Nat} {m : Move} (h : m.Enters n) : m.entering n = true := by
  obtain ⟨hlen, e, cb, hev⟩ := h
  unfold Move.entering
  rw [hev]
  simpa using hlen

/-- A longer log has the windows of the shorter one, or one that begins with its
last move. -/
theorem window_concat {pre mid log : List Move} {m x : Move} (h : log ++ [x] = pre ++ m :: mid) :
    (pre = log ∧ m = x ∧ mid = []) ∨ ∃ mid', mid = mid' ++ [x] ∧ log = pre ++ m :: mid' := by
  rcases List.eq_nil_or_concat mid with rfl | ⟨mid', y, rfl⟩
  · obtain ⟨h1, h2⟩ := List.append_inj' h rfl
    cases h2
    exact Or.inl ⟨h1.symm, rfl, rfl⟩
  · rw [List.concat_eq_append, ← List.cons_append, ← List.append_assoc] at h
    obtain ⟨h1, h2⟩ := List.append_inj' h rfl
    cases h2
    exact Or.inr ⟨mid', by simp, h1⟩

/-- The window that is open before a step stays open through it, if it is
quiet. -/
theorem InDispatch.window_step (h : InDispatch k b reg size log c) (hs : step w c a = .next c' ev)
    (hopen : Move.Enters k.length ⟨c, a, ev, c'⟩ → Undisturbed k b reg log c')
    {pre mid : List Move} {m : Move} (hlog : log ++ [⟨c, a, ev, c'⟩] = pre ++ m :: mid)
    (hm : m.Enters k.length) (hmid : ∀ x ∈ mid, x.Quiet) : Undisturbed k b reg pre c' := by
  rcases window_concat hlog with ⟨rfl, rfl, -⟩ | ⟨mid', rfl, hlog'⟩
  · exact hopen hm
  · obtain ⟨hpub, hcount, l, d, e, hstack, hl⟩ := h.window pre m mid' hlog' hm fun x hx =>
      hmid x (List.mem_append_left _ hx)
    have hquiet := hmid ⟨c, a, ev, c'⟩ (List.mem_append_right _ (List.mem_singleton.mpr rfl))
    obtain ⟨hpub', l', hstack', hl'⟩ := Step.quiet hs hquiet hstack hl hpub
    exact ⟨hpub', hcount, l', d, e, hstack', hl'⟩

/-- A step that is not one of the dispatch's own frame. -/
theorem InDispatch.above (h : InDispatch k b reg size log c) (hs : step w c a = .next c' ev)
    {l l' : List Frame} {d : Dispatch} {e : EntryRef}
    (hstack : c.stack = l ++ .dispatch d (some e) :: k)
    (hstack' : c'.stack = l' ++ .dispatch d (some e) :: k)
    (hret : (⟨c, a, ev, c'⟩ : Move).returning k.length = none)
    (henter : (⟨c, a, ev, c'⟩ : Move).entering k.length = false) :
    InDispatch k b reg size (log ++ [⟨c, a, ev, c'⟩]) c' := by
  obtain ⟨hid, hsize⟩ := (Step.of_step hs).keepsSize reg h.resolved
  have hreturns : returns k.length (log ++ [⟨c, a, ev, c'⟩]) = returns k.length log := by
    rw [returns_concat, hret]
    simp
  have hentries : (entries k.length (log ++ [⟨c, a, ev, c'⟩])).length
      = (entries k.length log).length := by
    rw [entries_concat_length, henter]
    rfl
  obtain ⟨l₀, d₀, run, hstack₀, hretp, hreg, hran, hcount, -⟩ := h.frame
  have hsame : d₀ = d ∧ run = some e := by
    have hlen : l₀.length = l.length := by
      have := congrArg List.length (hstack₀.symm.trans hstack)
      simp at this
      omega
    obtain ⟨-, htail⟩ := List.append_inj (hstack₀.symm.trans hstack) hlen
    cases htail
    exact ⟨rfl, rfl⟩
  obtain ⟨rfl, rfl⟩ := hsame
  refine ⟨⟨l', d₀, some e, hstack', hretp, hreg, ?_, ?_, nofun⟩, hid, hsize.trans h.size, ?_⟩
  · rw [hreturns, hran]
  · rw [hentries, hcount]
  · intro pre m mid hlog hm hmid
    refine h.window_step hs (fun henters => ?_) hlog hm hmid
    rw [henters.entering] at henter
    cases henter

theorem InDispatch.step (h : InDispatch k b reg size log c) (hs : step w c a = .next c' ev)
    (hlen : k.length < c'.stack.length)
    (hbytes : ∀ bytes, (⟨c, a, ev, c'⟩ : Move).returning k.length = some bytes →
      bytes.length = size) :
    InDispatch k b reg size (log ++ [⟨c, a, ev, c'⟩]) c' := by
  have hstep := Step.of_step hs
  obtain ⟨l, d, run, hstack, hretp, hreg, hran, hcount, hhead⟩ := h.frame
  obtain ⟨hid, hsize⟩ := hstep.keepsSize reg h.resolved
  cases run with
  | none =>
    obtain ⟨rfl, hpub⟩ := hhead rfl
    obtain ⟨hkeep, rfl, d', run', hstack', hretp', hreg', hran', hrun⟩ :=
      Step.at_head hs hstack hlen
    have hpub' := hkeep.published hpub
    have hreturns : returns k.length (log ++ [⟨c, .tau, ev, c'⟩]) = returns k.length log := by
      rw [returns_concat]
      simp [Move.returning]
    have hcount' : (returns k.length log).length = (entries k.length log).length := by
      rw [hcount, hran]
      rfl
    have hlength : c.stack.length = k.length + 1 := by
      rw [hstack]
      rfl
    refine ⟨⟨[], d', run', hstack', hretp'.trans hretp, hreg'.trans hreg, ?_, ?_, ?_⟩, hid,
      hsize.trans h.size, ?_⟩
    · rw [hreturns, hran', hran]
    · rw [entries_concat_length, hcount, hran']
      rcases hrun with ⟨rfl, rfl⟩ | ⟨e, cb, rfl, rfl⟩
      · rfl
      · simp [Move.entering, hlength]
    · intro _
      rw [hreturns]
      exact ⟨rfl, hpub'⟩
    · intro pre m mid hlog hm hmid
      refine h.window_step hs (fun henters => ?_) hlog hm hmid
      obtain ⟨-, e, cb, hev⟩ := henters
      rcases hrun with ⟨-, rfl⟩ | ⟨e', cb', rfl, -⟩
      · cases hev
      · exact ⟨hpub', hcount', [], d', e', hstack', rfl⟩
  | some e =>
    by_cases hnil : l = []
    · subst hnil
      have hlength : c.stack.length = k.length + 1 := by
        rw [hstack]
        rfl
      cases a with
      | tau =>
        unfold Xylem.step tau at hs
        simp only [hstack, List.nil_append] at hs
        cases hs
      | call q =>
        obtain ⟨l', hl'⟩ := hstep.call_push
        refine h.above hs hstack (hl'.trans (by rw [hstack]; rfl)) rfl ?_
        rw [Bool.eq_false_iff]
        intro henter
        unfold Move.entering at henter
        split at henter
        · next e' cb hev =>
          dsimp only at hev
          subst hev
          obtain ⟨-, -, ha, -⟩ := hstep.enter_listener
          cases ha
        · cases henter
      | ret r =>
        cases r with
        | listened bytes =>
          have hown : (⟨c, .ret (.listened bytes), ev, c'⟩ : Move).returning k.length
              = some bytes := by simp [Move.returning, hlength]
          obtain ⟨hpub', rfl, d', hstack', hretp', hreg', hran'⟩ := Step.listener_returns hs hstack
            hretp hreg hran ((hbytes bytes hown).trans h.size.symm)
          have hreturns : returns k.length (log ++ [⟨c, .ret (.listened bytes), .internal, c'⟩])
              = returns k.length log ++ [bytes] := by
            rw [returns_concat, hown]
            rfl
          refine ⟨⟨[], d', none, hstack', hretp', hreg', ?_, ?_, ?_⟩, hid, hsize.trans h.size, ?_⟩
          · rw [hreturns, hran', hran, List.length_append]
            rfl
          · rw [entries_concat_length, hcount, hran']
            rfl
          · intro _
            rw [hreturns]
            exact ⟨rfl, hpub'⟩
          · intro pre m mid hlog hm hmid
            refine h.window_step hs (fun henters => ?_) hlog hm hmid
            obtain ⟨-, e', cb, hev⟩ := henters
            cases hev
        | _ =>
          unfold Xylem.step giveBack at hs
          simp only [hstack, List.nil_append] at hs
          cases hs
    · obtain ⟨l', hstack'⟩ := hstep.over hstack hnil nofun
      have hlength : c.stack.length ≠ k.length + 1 := by
        rw [hstack]
        have := List.length_pos_iff.mpr hnil
        simp
        omega
      exact h.above hs hstack hstack' (Move.returning_of_ne hlength) (Move.entering_of_ne hlength)

theorem InDispatch.run {c₁ : Config} (h : InDispatch k b reg size [] c₁)
    (hin : Inside w k.length c₁ log c)
    (hbytes : ∀ bytes ∈ returns k.length log, bytes.length = size) :
    InDispatch k b reg size log c := by
  induction hin with
  | start => exact h
  | @move log c c' a ev hin hs hlen ih =>
    refine (ih fun bytes hmem => hbytes bytes ?_).step hs hlen fun bytes hret => hbytes bytes ?_
    · rw [returns_concat]
      exact List.mem_append_left _ hmem
    · rw [returns_concat, hret]
      exact List.mem_append_right _ (List.mem_singleton.mpr rfl)

/-! ## The dispatch from its start to its return -/

/-- The first step of a dispatch on an adapter. -/
theorem step_dispatch {selfOnly : Bool}
    (h : step w c (.call (.call (some b) (some reg) selfOnly)) = .next c' ev) :
    (∃ n, c'.stack = c.stack ∧ ev = .returned (.int n) ∧ Yields c'.st none)
      ∨ ev = .internal ∧ InDispatch c.stack b reg (c'.st.adapters reg).retSize [] c'
        ∧ c'.stack.length = c.stack.length + 1 := by
  unfold step at h
  dsimp only at h
  split at h
  · unfold beginCall at h
    dsimp only at h
    split at h
    · cases h
    · next s n hd =>
      cases h
      have hstart : ∃ s₀, StartsLast s₀ (some b) reg (.done s n) := by
        rcases dispatchBegin_last hd with ⟨hstart, -⟩ | ⟨_, _, -, hstart⟩ <;> exact ⟨_, hstart⟩
      obtain ⟨s₀, hstart⟩ := hstart
      cases hstart with
      | done hran hadapter hadapters => exact Or.inl ⟨n, rfl, rfl, yields_none hadapter hran⟩
    · next s d hd =>
      cases h
      rcases dispatchBegin_last hd with ⟨-, hnot⟩ | ⟨a, call, hres, hstart⟩
      · exact absurd rfl (hnot s d)
      · cases hstart with
        | loop hran hretp hadapter hadapters hd' =>
          obtain ⟨hdretp, hdreg, hdran⟩ := hd'
          have hid : 0 ≤ (s.adapters reg).hookId := by
            rw [hadapters]
            dsimp only
            rw [Function.update_self]
            exact (resolveAdapter_hookId hres).1
          refine Or.inr ⟨rfl, ⟨⟨[], d, none, rfl, hdretp, hdreg, hdran, ?_, ?_⟩, hid, rfl, ?_⟩, rfl⟩
          · rw [hdran]
            rfl
          · exact fun _ => ⟨rfl, hran, hretp, hadapter, nofun⟩
          · intro pre m mid hlog
            simp at hlog
  · cases h

/-- A call of `xy_last` is answered with what the state yields. -/
theorem answers_of_yields {m : Move} {ret : Option BufRef} {last : Option (List UInt8)}
    (hact : m.act = .call (.last ret)) (hs : step w m.before m.act = .next m.after m.event)
    (h : Yields m.before.st last) : m.Answers ret last := by
  rw [hact] at hs
  unfold step at hs
  dsimp only at hs
  split at hs
  · simp only [beginCall, callDirect] at hs
    injection hs with hafter hevent
    unfold Move.Answers
    cases last with
    | none => rw [← hevent, h ret]
    | some v =>
      obtain ⟨hrc, hread⟩ := h ret
      dsimp only
      rw [← hevent, ← hafter, hrc]
      exact ⟨rfl, hread⟩
  · cases hs

theorem Inside.keepsSize {n : Nat} {c₁ : Config} (h : Inside w n c₁ log c)
    (hid : 0 ≤ (c₁.st.adapters reg).hookId) : 0 ≤ (c.st.adapters reg).hookId
      ∧ (c.st.adapters reg).retSize = (c₁.st.adapters reg).retSize := by
  induction h with
  | start => exact ⟨hid, rfl⟩
  | @move log c c' a ev hin hs hlen ih =>
    obtain ⟨hid', hsize⟩ := (Step.of_step hs).keepsSize reg ih.1
    exact ⟨hid', hsize.trans ih.2⟩

theorem returns_mono {n : Nat} {pre post : List Move} {bytes : List UInt8}
    (h : bytes ∈ returns n pre) : bytes ∈ returns n (pre ++ post) := by
  unfold returns
  rw [List.filterMap_append]
  exact List.mem_append_left _ h

/-- The moves of a dispatch between its first step and its last. -/
theorem between {α : Type*} {first last m x : α} {inner pre mid post : List α}
    (h : first :: inner ++ [last] = pre ++ m :: mid ++ x :: post) (hfirst : m ≠ first)
    (hlast : x ≠ last) :
    ∃ pre' post', pre = first :: pre' ∧ inner = pre' ++ m :: mid ++ x :: post' := by
  cases pre with
  | nil =>
    injection h with h _
    exact absurd h.symm hfirst
  | cons y pre =>
    obtain rfl : first = y := (List.cons.inj h).1
    have hrest : inner ++ [last] = pre ++ m :: mid ++ x :: post := (List.cons.inj h).2
    rcases List.eq_nil_or_concat post with rfl | ⟨post', z, rfl⟩
    · obtain ⟨-, hx⟩ := List.append_inj' hrest rfl
      exact absurd (List.cons.inj hx).1.symm hlast
    · rw [List.concat_eq_append, ← List.cons_append, ← List.append_assoc] at hrest
      exact ⟨pre, post', rfl, (List.append_inj' hrest rfl).1⟩

/-- When a listener of a dispatch calls `xy_last` before it dispatches anything
itself, it is told that there is no predecessor if it is the first, and else it
gets what its predecessor has returned.  After the dispatch `xy_last` yields what
the last listener has returned, if one ran. -/
theorem listeners_chained {selfOnly : Bool} {v : Value}
    (h : CallRun w c (.call (some b) (some reg) selfOnly) log v c')
    (hsize : 0 < (c'.st.adapters reg).retSize)
    (hbytes : ∀ bytes ∈ returns c.stack.length log, bytes.length = (c'.st.adapters reg).retSize) :
    (∀ pre m mid x post ret, log = pre ++ m :: mid ++ x :: post → m.Enters c.stack.length →
      (∀ y ∈ mid, y.Quiet) → x.act = .call (.last ret) →
        (returns c.stack.length pre).length = (entries c.stack.length pre).length
          ∧ x.Answers ret (returns c.stack.length pre).getLast?)
    ∧ Yields c'.st (returns c.stack.length log).getLast? := by
  cases h with
  | atOnce hs hk =>
    rcases step_dispatch hs with ⟨-, -, -, hyields⟩ | ⟨hev, -, -⟩
    · refine ⟨fun pre m mid x post ret hlog => ?_, hyields⟩
      have := congrArg List.length hlog
      simp at this
      omega
    · cases hev
  | @later c₁ c₂ _ a ev inner _ hs hin hr hk =>
    rcases step_dispatch hs with ⟨-, hk₁, -, -⟩ | ⟨rfl, hstart, hlen⟩
    · exact absurd (hk₁ ▸ hin.length_start) (Nat.lt_irrefl _)
    obtain ⟨l₁, d₁, run₁, hstack₁, -⟩ := hstart.frame
    have hl₁ : l₁ = [] := by
      rw [hstack₁] at hlen
      simpa using hlen
    subst hl₁
    obtain ⟨f, hf, hstack₂⟩ := hin.returning (l := []) hstack₁ hr hk
    obtain ⟨d, run, rfl⟩ : ∃ d run, f = .dispatch d run := by
      cases f <;> first | exact hf.elim | exact ⟨_, _, rfl⟩
    obtain ⟨rfl, hst, -⟩ := (Step.of_step hr).dispatch_return hstack₂ hk
    obtain ⟨-, hsize₂⟩ := hin.keepsSize hstart.resolved
    have hsize' : (c'.st.adapters reg).retSize = (c₁.st.adapters reg).retSize := by
      rw [hst, (dispatchEnd_last ..).1, hsize₂]
    rw [hsize'] at hsize hbytes
    have hfirst : (⟨c, .call (.call (some b) (some reg) selfOnly), .internal, c₁⟩ : Move).returning
        c.stack.length = none := rfl
    have hlast : (⟨c₂, a, .returned v, c'⟩ : Move).returning c.stack.length = none := by
      unfold Move.returning
      split
      · next bytes hact =>
        dsimp only at hact
        subst hact
        unfold step giveBack at hr
        simp only [hstack₂] at hr
        cases hr
      · rfl
    have hreturns : ∀ pre, returns c.stack.length
        (⟨c, .call (.call (some b) (some reg) selfOnly), .internal, c₁⟩ :: pre)
          = returns c.stack.length pre := by
      intro pre
      unfold returns
      rw [List.filterMap_cons, hfirst]
    have hall : returns c.stack.length
        (⟨c, .call (.call (some b) (some reg) selfOnly), .internal, c₁⟩ :: inner
          ++ [⟨c₂, a, .returned v, c'⟩]) = returns c.stack.length inner := by
      rw [List.cons_append, hreturns, returns_concat, hlast]
      simp
    rw [hall] at hbytes ⊢
    constructor
    · intro pre m mid x post ret hlog hm hmid hx
      obtain ⟨pre', post', rfl, rfl⟩ := between hlog
        (by rintro rfl; obtain ⟨-, _, _, hev⟩ := hm; cases hev)
        (by
          rintro rfl
          dsimp only at hx
          subst hx
          obtain ⟨l, hl⟩ := (Step.of_step hr).call_push
          have := congrArg List.length (hk.symm.trans hl)
          rw [hstack₂] at this
          simp at this
          omega)
      obtain ⟨hpre, hsx, -⟩ := hin.split
      have hinv := hstart.run hpre fun bytes hmem => hbytes bytes (returns_mono hmem)
      have hwin := hinv.window pre' m mid rfl hm hmid
      rw [hreturns]
      exact ⟨hwin.count, answers_of_yields hx hsx hwin.published.yields⟩
    · obtain ⟨l₂, d₂, run₂, hstack, hretp, hreg, hran, -, hhead⟩ := (hstart.run hin hbytes).frame
      have hl₂ : l₂ = [] := by
        have hlength := congrArg List.length (hstack.symm.trans hstack₂)
        simpa using hlength
      subst hl₂
      cases hstack.symm.trans hstack₂
      obtain ⟨-, hpub⟩ := hhead rfl
      rw [hst, hretp, hreg, hran]
      exact dispatchEnd_yields hpub (by rw [hsize₂]; exact hsize)

end

/-! ## Two listeners -/

/-- The start of a run in which hooks return one byte. -/
def Config.bootByte (hook : CStr) : Config :=
  ⟨State.boot (fun _ => { adapter := none, modulePath := none, regionId := 0, regionState := none })
    (fun _ => { Adapter.plain hook with retSize := 1 }) (fun _ => []), []⟩

/-- The listeners of two modules return 5 and 6; the second calls `xy_last`. -/
def twoListeners : List Action :=
  [.tau, .ret (.listened [5]), .tau, .call (.last (some 1)), .ret (.listened [6])]

theorem listeners_chained_two :
    let c := (Config.bootByte sampleHook).after sampleWorld
      (.call (.areg sampleHook 0) :: loadRun sampleFile 1 ++ loadRun sampleFile' 2)
    ∃ log c', CallRun sampleWorld c (.call (some 0) (some 0) false) log (.int xyOk) c'
      ∧ Yields c'.st (some [6]) := by
  intro c
  let q : Call := .call (some 0) (some 0) false
  let log := movesOf sampleWorld c (.call q :: twoListeners)
    ++ movesOf sampleWorld (c.after sampleWorld (.call q :: twoListeners)) [.tau]
  have hrun : CallRun sampleWorld c q log (.int xyOk) _ :=
    .of_actions (List.length_eq_zero_iff.mp (by decide +kernel)) (by decide +kernel)
      (by decide +kernel) (by decide +kernel)
  have hlast := (listeners_chained hrun (by decide +kernel) (by decide +kernel)).2
  have hreturns : (returns c.stack.length log).getLast? = some [6] := by decide +kernel
  rw [hreturns] at hlast
  exact ⟨log, _, hrun, hlast⟩

end Xylem
