import Mathlib.Data.List.Induction
import Xylem.CurrentRegion
import Xylem.Chaining

/-!
# The current region behind a dispatch

`xy_dispatch` notes the current id once, at its start, and the current entry
before each listener of a region other than the caller's.  After such a listener
it puts the two back together.  After a listener of the caller's own region it
puts nothing back, so that a `xy_claim_at` in that listener stays in effect.

`exits` reads off the moves of a dispatch how its listeners left the current
region, and `behind` is what becomes of it: the entry that the last listener of
the own region has left, and the id of the start when a listener of another
region has run since.  `call_keeps_region_iff` says when this is the region of
the caller.
-/

namespace Xylem

open Xylem.Runtime

/-- How a listener of the dispatch above `n` calls leaves the current region with
the move: `some none` when the listener is one of another region, and the region
that is current at its return when it is one of the own. -/
def Move.exit (n : Nat) (m : Move) : Option (Option CurrentRegion) :=
  match m.before.stack, m.act with
  | .dispatch d (some _) :: k, .ret (.listened _) =>
    if k.length = n then
      some (if d.selfOnly = false ∧ d.regionChanged = true then none
        else some m.before.st.tls.current)
    else none
  | _, _ => none

/-- How the listeners of the dispatch above `n` calls have left the current
region. -/
def exits (n : Nat) (log : List Move) : List (Option CurrentRegion) := log.filterMap (·.exit n)

/-- The current region of a dispatch behind one more listener. -/
def behindOne (cur loop : CurrentRegion) : Option CurrentRegion → CurrentRegion
  | none => ⟨cur.id, loop.entry⟩
  | some left => left

/-- The current region of a dispatch from `cur` behind its listeners. -/
def behind (cur : CurrentRegion) (l : List (Option CurrentRegion)) : CurrentRegion :=
  l.foldl (behindOne cur) cur

/-- The last listener of the own region leaves the entry of the caller, and its
id too unless a listener of another region runs after it. -/
structure ExitsKeep (cur : CurrentRegion) (l : List (Option CurrentRegion)) : Prop where
  entry : ∀ left ∈ (l.filterMap id).getLast?, left.entry = cur.entry
  id : ∀ left, l.getLast? = some (some left) → left.id = cur.id

/-- What holds of a dispatch from `cur` that is on the stack above `k`, with the
moves made since it came to its loop. -/
structure InCall (k : List Frame) (cur : CurrentRegion) (log : List Move) (c : Config) : Prop where
  frame : ∃ l d run, c.stack = l ++ .dispatch d run :: k ∧ d.regionId = cur.id
    ∧ (run = none → l = [] ∧ c.st.tls.current = behind cur (exits k.length log))
    ∧ (∀ e, run = some e → d.selfOnly = false → d.regionChanged = true →
      d.prevEntry = (behind cur (exits k.length log)).entry)

section

variable {w : World} {c c' : Config} {a : Action} {ev : Event} {k : List Frame}
  {cur : CurrentRegion} {log : List Move}

/-! ## What is left behind -/

theorem behind_concat (cur : CurrentRegion) (l : List (Option CurrentRegion))
    (x : Option CurrentRegion) : behind cur (l ++ [x]) = behindOne cur (behind cur l) x := by
  unfold behind
  rw [List.foldl_append]
  rfl

/-- The entry is that of the last listener of the own region. -/
theorem behind_entry (cur : CurrentRegion) (l : List (Option CurrentRegion)) :
    (behind cur l).entry = ((l.filterMap id).getLast?.elim cur.entry (·.entry)) := by
  induction l using List.reverseRecOn with
  | nil => rfl
  | append_singleton l x ih =>
    rw [behind_concat, List.filterMap_append]
    cases x with
    | none =>
      rw [show [none].filterMap id = ([] : List CurrentRegion) from rfl, List.append_nil]
      exact ih
    | some left => simp [behindOne]

/-- The id is that of the last listener, or that of the start. -/
theorem behind_id (cur : CurrentRegion) (l : List (Option CurrentRegion)) :
    (behind cur l).id = (l.getLast?.join.elim cur.id (·.id)) := by
  induction l using List.reverseRecOn with
  | nil => rfl
  | append_singleton l x ih =>
    rw [behind_concat]
    cases x with
    | none => simp [behindOne]
    | some left => simp [behindOne]

theorem behind_eq_iff (cur : CurrentRegion) (l : List (Option CurrentRegion)) :
    behind cur l = cur ↔ ExitsKeep cur l := by
  have hentry := behind_entry cur l
  have hid := behind_id cur l
  constructor
  · intro heq
    rw [heq] at hentry hid
    refine ⟨fun left hleft => ?_, fun left hleft => ?_⟩
    · rw [Option.mem_def.mp hleft] at hentry
      exact hentry.symm
    · rw [hleft] at hid
      exact hid.symm
  · intro hkeep
    have hentry' : (behind cur l).entry = cur.entry := by
      rw [hentry]
      cases hlast : (l.filterMap id).getLast? with
      | none => rfl
      | some left => exact hkeep.entry left hlast
    have hid' : (behind cur l).id = cur.id := by
      rw [hid]
      cases hlast : l.getLast? with
      | none => rfl
      | some x =>
        cases x with
        | none => rfl
        | some left => exact hkeep.id left hlast
    show CurrentRegion.mk (behind cur l).id (behind cur l).entry = cur
    rw [hentry', hid']

/-! ## The run of a dispatch -/

theorem exits_concat (n : Nat) (log : List Move) (m : Move) :
    exits n (log ++ [m]) = exits n log ++ (m.exit n).toList := by
  unfold exits
  rw [List.filterMap_append]
  cases h : m.exit n <;> simp [h]

/-- While a listener runs, the dispatch stays where it is until the listener
returns. -/
theorem step_under_listener (h : step w c a = .next c' ev) {l : List Frame} {d : Dispatch}
    {e : EntryRef} (hstack : c.stack = l ++ .dispatch d (some e) :: k) :
    (∃ l', c'.stack = l' ++ .dispatch d (some e) :: k)
      ∨ (l = [] ∧ ∃ bytes, a = .ret (.listened bytes)) := by
  have hs := Step.of_step h
  by_cases hnil : l = []
  · subst hnil
    cases a with
    | call q =>
      obtain ⟨l', hl'⟩ := hs.call_push
      exact Or.inl ⟨l', hl'.trans (by rw [hstack]; rfl)⟩
    | tau =>
      unfold step tau at h
      simp only [hstack, List.nil_append] at h
      cases h
    | ret r =>
      cases r with
      | listened bytes => exact Or.inr ⟨rfl, bytes, rfl⟩
      | _ =>
        unfold step giveBack at h
        simp only [hstack, List.nil_append] at h
        cases h
  · exact Or.inl (hs.over hstack hnil nofun)

/-- A move that is not the return of a listener of the dispatch is no exit. -/
theorem Move.exit_eq_none {m : Move} {l : List Frame} {d : Dispatch} {run : Option EntryRef}
    (hstack : m.before.stack = l ++ .dispatch d run :: k)
    (hnot : l = [] → run = none ∨ ∀ bytes, m.act ≠ .ret (.listened bytes)) :
    m.exit k.length = none := by
  unfold Move.exit
  split
  · next d' e k' bytes hs hact =>
    split
    · next hlen =>
      have hl : l = [] := by
        have := congrArg List.length (hs.symm.trans hstack)
        simp at this
        exact List.length_eq_zero_iff.mp (by omega)
      subst hl
      obtain ⟨hf, -⟩ := List.cons.inj (hs.symm.trans hstack)
      cases hf
      rcases hnot rfl with hnone | hret
      · cases hnone
      · exact absurd hact (hret bytes)
    · rfl
  · rfl

/-- At the head of its loop a dispatch keeps the current region, or notes its
entry and enters a listener. -/
theorem Step.head_region {d : Dispatch} (h : Step w c a c' ev)
    (hstack : c.stack = .dispatch d none :: k) (hlen : k.length < c'.stack.length) :
    ∃ d' run, c'.stack = .dispatch d' run :: k ∧ d'.regionId = d.regionId
      ∧ (run = none → c'.st.tls.current = c.st.tls.current)
      ∧ (∀ e, run = some e → d'.selfOnly = false → d'.regionChanged = true →
        d'.prevEntry = c.st.tls.current.entry) := by
  cases h with
  | dispatchEnd hend =>
    cases hstack
    exact absurd hlen (Nat.lt_irrefl _)
  | selfSkip | selfDeaf | slotSkip =>
    cases hstack
    exact ⟨_, _, rfl, rfl, fun _ => rfl, fun _ he => by cases he⟩
  | selfEnter hself he hme hc hd hh hs' =>
    cases hstack
    refine ⟨_, _, rfl, rfl, fun hn => (by cases hn), fun _ _ hfalse => ?_⟩
    exact absurd hfalse (by simp [Dispatch.enter, hself])
  | slotEnter hself hmi hslots hcell hme hc hcb hd' hs' =>
    cases hstack
    subst hd'
    exact ⟨_, _, rfl, rfl, fun hn => (by cases hn), fun _ _ _ _ => rfl⟩
  | unload hw | reload hw | scope hw | eachFirst hw | answered hw | direct hw | dispatchDone hw
  | dispatchLoop hw | load hw =>
    unfold Config.waiting at hw
    rw [hstack] at hw
    cases hw
  | _ => cases hstack

/-- A listener returns, and the loop has the region that is behind it. -/
theorem Step.exit_region {d : Dispatch} {e : EntryRef} {bytes : List UInt8}
    (h : Step w c (.ret (.listened bytes)) c' ev)
    (hstack : c.stack = .dispatch d (some e) :: k) :
    ∃ d', c'.stack = .dispatch d' none :: k ∧ d'.regionId = d.regionId
      ∧ c'.st.tls.current = d.restored c.st.tls.current := by
  cases h with
  | selfListened hself hme =>
    cases hstack
    refine ⟨_, rfl, rfl, ?_⟩
    unfold Dispatch.restored
    rw [if_neg (by simp [hself])]
    exact (State.still_writeBuf ..).current
  | slotListened hself hs' =>
    cases hstack
    subst hs'
    refine ⟨_, rfl, rfl, ?_⟩
    unfold Dispatch.restored
    by_cases hch : d.regionChanged = true
    · rw [if_pos hch, if_pos ⟨hself, hch⟩]
      rfl
    · rw [if_neg hch, if_neg (by simp [hch])]
      exact (State.still_writeBuf ..).current

theorem InCall.step (h : InCall k cur log c) (hs : step w c a = .next c' ev)
    (hlen : k.length < c'.stack.length) : InCall k cur (log ++ [⟨c, a, ev, c'⟩]) c' := by
  obtain ⟨l, d, run, hstack, hid, hhead, hprev⟩ := h.frame
  have hstep := Step.of_step hs
  cases run with
  | none =>
    obtain ⟨rfl, hcur⟩ := hhead rfl
    have hexit : Move.exit k.length ⟨c, a, ev, c'⟩ = none :=
      Move.exit_eq_none hstack fun _ => Or.inl rfl
    obtain ⟨d', run', hstack', hid', hkeep, hnote⟩ := hstep.head_region hstack hlen
    refine ⟨[], d', run', hstack', hid'.trans hid, fun hn => ⟨rfl, ?_⟩,
      fun e he hself hch => ?_⟩
    · rw [exits_concat, hexit, Option.toList_none, List.append_nil]
      exact (hkeep hn).trans hcur
    · rw [exits_concat, hexit, Option.toList_none, List.append_nil, ← hcur]
      exact hnote e he hself hch
  | some e =>
    by_cases hret : l = [] ∧ ∃ bytes, a = .ret (.listened bytes)
    · obtain ⟨rfl, bytes, rfl⟩ := hret
      obtain ⟨d', hstack', hid', hcur'⟩ := hstep.exit_region hstack
      refine ⟨[], d', none, hstack', hid'.trans hid, fun _ => ⟨rfl, ?_⟩, nofun⟩
      have hexit : Move.exit k.length ⟨c, .ret (.listened bytes), ev, c'⟩
          = some (if d.selfOnly = false ∧ d.regionChanged = true then none
            else some c.st.tls.current) := by
        simp [Move.exit, hstack]
      rw [exits_concat, hexit, Option.toList_some, behind_concat, hcur', Dispatch.restored]
      by_cases hch : d.selfOnly = false ∧ d.regionChanged = true
      · rw [if_pos hch, if_pos hch, hid, hprev e rfl hch.1 hch.2]
        rfl
      · rw [if_neg hch, if_neg hch]
        rfl
    · have hexit : Move.exit k.length ⟨c, a, ev, c'⟩ = none :=
        Move.exit_eq_none hstack fun hl => Or.inr fun bytes ha => hret ⟨hl, bytes, ha⟩
      rcases step_under_listener hs hstack with ⟨l', hstack'⟩ | hret'
      · refine ⟨l', d, some e, hstack', hid, nofun, fun e' _ hself hch => ?_⟩
        rw [exits_concat, hexit, Option.toList_none, List.append_nil]
        exact hprev e rfl hself hch
      · exact absurd hret' hret

theorem InCall.run {c₁ : Config} {pre : List Move} (h : InCall k cur pre c₁)
    (hin : Inside w k.length c₁ log c) : InCall k cur (pre ++ log) c := by
  induction hin with
  | start => simpa using h
  | move hin hs hlen ih =>
    rw [← List.append_assoc]
    exact ih.step hs hlen

/-- A dispatch returns at once, with the current region as it was, or comes to its
loop. -/
theorem Step.call_region {retp : Option BufRef} {reg : Option AdapterRef} {selfOnly : Bool}
    (h : Step w c (.call (.call retp reg selfOnly)) c' ev) :
    c'.st.tls.current = c.st.tls.current
      ∧ (c'.stack = c.stack ∨ InCall c.stack c.st.tls.current [] c') := by
  cases h with
  | answered hw => exact ⟨rfl, Or.inl rfl⟩
  | direct hw hq => cases hq
  | dispatchDone hw hd => exact ⟨(dispatchBegin_done hd).current, Or.inl rfl⟩
  | dispatchLoop hw hd =>
    have hstart := dispatchBegin_loop hd
    exact ⟨hstart.current, Or.inr ⟨[], _, none, rfl, hstart.regionId,
      fun _ => ⟨rfl, hstart.current⟩, nofun⟩⟩

/-- The current region behind a whole call. -/
theorem CallRun.behind {retp : Option BufRef} {reg : Option AdapterRef} {selfOnly : Bool}
    {v : Value} (h : CallRun w c (.call retp reg selfOnly) log v c') :
    c'.st.tls.current = behind c.st.tls.current (exits c.stack.length log) := by
  have hcall : ∀ {c₁ : Config} {ev : Event},
      Move.exit c.stack.length ⟨c, .call (.call retp reg selfOnly), ev, c₁⟩ = none := by
    intro c₁ ev
    unfold Move.exit
    split
    · next ha => cases ha
    · rfl
  cases h with
  | atOnce hs hk =>
    simp only [exits, List.filterMap_cons, hcall, List.filterMap_nil]
    exact (Step.of_step hs).call_region.1
  | @later c₁ c₂ _ a ev inner _ hs hin hr hk =>
    rcases (Step.of_step hs).call_region with ⟨-, hsame | hstart⟩
    · exact absurd (hsame ▸ hin.length_start) (Nat.lt_irrefl _)
    · obtain ⟨l, d, run, hstack, -, hhead, -⟩ := (hstart.run hin).frame
      obtain ⟨l₁, d₁, run₁, hstack₁, -, hhead₁, -⟩ := hstart.frame
      have hreturn : l = [] ∧ run = none
          ∧ c'.st.tls.current = c₂.st.tls.current := by
        rcases (Step.of_step hr).frame hstack with ⟨l', f', -, hl'⟩ | ⟨rfl, -⟩
        · rw [hk] at hl'
          have := congrArg List.length hl'
          simp at this
          omega
        · obtain ⟨rfl, hst, -⟩ := (Step.of_step hr).dispatch_return hstack hk
          exact ⟨rfl, rfl, hst ▸ (still_dispatchEnd ..).current⟩
      obtain ⟨rfl, rfl, hcur⟩ := hreturn
      have hlast : Move.exit c.stack.length ⟨c₂, a, .returned v, c'⟩ = none :=
        Move.exit_eq_none hstack fun _ => Or.inl rfl
      have hexits : exits c.stack.length
          (⟨c, .call (.call retp reg selfOnly), ev, c₁⟩ :: inner ++ [⟨c₂, a, .returned v, c'⟩])
            = exits c.stack.length inner := by
        rw [exits_concat, hlast, exits, List.filterMap_cons, hcall, Option.toList_none,
          List.append_nil]
        rfl
      rw [hexits, hcur]
      exact (hhead rfl).2

/-! ## The region of the caller -/

/-- A dispatch leaves its caller in its region, with the id of that region, exactly
when the id was that of the region at the call, and the last listener of the own
region leaves the current region as the caller had it. -/
theorem call_keeps_region_iff {retp : Option BufRef} {reg : Option AdapterRef} {selfOnly : Bool}
    {v : Value} (hreach : Reachable w c) (h : CallRun w c (.call retp reg selfOnly) log v c') :
    (c'.st.tls.current = c.st.tls.current ∧ c'.st.rt.Names c'.st.tls.current)
      ↔ c.st.rt.Names c.st.tls.current
        ∧ ExitsKeep c.st.tls.current (exits c.stack.length log) := by
  have hwf : c.Wf w := .of_reachable hreach
  have hkept := h.regionsKept hwf (by simp)
  rw [← behind_eq_iff, ← h.behind]
  constructor
  · rintro ⟨hsame, r, -, hentry, hid⟩
    rw [hsame] at hentry hid
    have hr := hwf.current r hentry
    refine ⟨⟨r, hr, hentry, ?_⟩, hsame⟩
    exact (congrArg RegionKey.id (hkept.key r hr)).symm.trans hid
  · rintro ⟨hnames, hsame⟩
    exact ⟨hsame, hsame.symm ▸ hnames.keep hkept⟩

end

/-- A module of the root listens, and one of the region `(1 << 48, 16)`; the call
is made in the root. -/
theorem call_keeps_region_nested :
    let c := (Config.boot sampleHook).after sampleWorld
      ([.call (.areg sampleHook 0), .call (.claimAt 0x1000000000000 16 none)]
        ++ loadRun sampleFile 1 ++ [.call (.claimAt 0 0 none)] ++ loadRun sampleFile' 2)
    ∃ log v c', CallRun sampleWorld c (.call none (some 0) false) log v c'
      ∧ (exits c.stack.length log).length = 2 ∧ c'.st.tls.current = c.st.tls.current := by
  intro c
  let q : Call := .call none (some 0) false
  let l : List Action := [.tau, .ret (.listened []), .tau, .ret (.listened [])]
  let log := movesOf sampleWorld c (.call q :: l)
    ++ movesOf sampleWorld (c.after sampleWorld (.call q :: l)) [.tau]
  have hrun : CallRun sampleWorld c q log (.int xyOk) _ :=
    .of_actions (List.length_eq_zero_iff.mp (by decide +kernel)) (by decide +kernel)
      (by decide +kernel) (by decide +kernel)
  have hreach : Reachable sampleWorld c :=
    ReachableBy.after (.start (Config.boot_initial _)) (by simp)
  have hnames : c.st.rt.Names c.st.tls.current :=
    ⟨0, by decide +kernel, by decide +kernel, by decide +kernel⟩
  have hexits : exits c.stack.length log = [some ⟨0, some 0⟩, none] := by decide +kernel
  have hcur : c.st.tls.current = ⟨0, some 0⟩ := by decide +kernel
  have hkeep : ExitsKeep c.st.tls.current (exits c.stack.length log) := by
    rw [hexits, hcur]
    exact ⟨by simp, by simp⟩
  exact ⟨log, _, _, hrun, by rw [hexits]; rfl,
    ((call_keeps_region_iff hreach hrun).mpr ⟨hnames, hkeep⟩).1⟩

/-- The one listener of a dispatch from the root claims `(1 << 48, 16)`: the caller
is left in the region claimed. -/
theorem not_call_keeps_region :
    let c := (Config.boot sampleHook).after sampleWorld
      (.call (.areg sampleHook 0) :: loadRun sampleFile 1)
    ∃ log v c', Reachable sampleWorld c
      ∧ CallRun sampleWorld c (.call none (some 0) false) log v c'
      ∧ c'.st.tls.current ≠ c.st.tls.current := by
  intro c
  let q : Call := .call none (some 0) false
  let l : List Action := [.tau, .call (.claimAt 0x1000000000000 16 none), .ret (.listened [])]
  let log := movesOf sampleWorld c (.call q :: l)
    ++ movesOf sampleWorld (c.after sampleWorld (.call q :: l)) [.tau]
  have hrun : CallRun sampleWorld c q log (.int xyOk) _ :=
    .of_actions (List.length_eq_zero_iff.mp (by decide +kernel)) (by decide +kernel)
      (by decide +kernel) (by decide +kernel)
  have hreach : Reachable sampleWorld c :=
    ReachableBy.after (.start (Config.boot_initial _)) (by simp)
  exact ⟨log, _, _, hreach, hrun, by decide +kernel⟩

end Xylem
