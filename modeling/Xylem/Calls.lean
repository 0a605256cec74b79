import Xylem.Entries
import Xylem.Sample

/-!
# Calls from their start to their return

A call of the API is one step when it returns at once.  Otherwise it puts a
frame on the stack, and it returns with the step that takes this frame off.
`Inside` is the run in between, with the list of its moves, and `CallRun` the
whole of a call.

`Step.move` says how a step moves the stack, and `Inside.frame` what follows: the
frame of the call stays where it is, and nothing below it changes.
-/

namespace Xylem

/-- A step with the configurations around it. -/
structure Move where
  before : Config
  act : Action
  event : Event
  after : Config

/-- The run from `c` to `c'` while more than `n` calls are in progress. -/
inductive Inside (w : World) (n : Nat) (c : Config) : List Move → Config → Prop
  | start (h : n < c.stack.length) : Inside w n c [] c
  | move {log : List Move} {c₁ c₂ : Config} {a : Action} {ev : Event} (h : Inside w n c log c₁)
      (hs : step w c₁ a = .next c₂ ev) (hlen : n < c₂.stack.length) :
      Inside w n c (log ++ [⟨c₁, a, ev, c₂⟩]) c₂

/-- The call `q` is made in `c`, and returns `v` and leaves `c'`. -/
inductive CallRun (w : World) (c : Config) (q : Call) : List Move → Value → Config → Prop
  | atOnce {v : Value} {c' : Config} (hs : step w c (.call q) = .next c' (.returned v))
      (hk : c'.stack = c.stack) : CallRun w c q [⟨c, .call q, .returned v, c'⟩] v c'
  | later {c₁ c₂ c' : Config} {a : Action} {ev : Event} {log : List Move} {v : Value}
      (hs : step w c (.call q) = .next c₁ ev) (hin : Inside w c.stack.length c₁ log c₂)
      (hr : step w c₂ a = .next c' (.returned v)) (hk : c'.stack = c.stack) :
      CallRun w c q (⟨c, .call q, ev, c₁⟩ :: log ++ [⟨c₂, a, .returned v, c'⟩]) v c'

/-- The moves that a list of actions makes, as far as they can be made. -/
def movesOf (w : World) (c : Config) : List Action → List Move
  | [] => []
  | a :: as =>
    match step w c a with
    | .next c' ev => ⟨c, a, ev, c'⟩ :: movesOf w c' as
    | _ => []

/-- All actions of a list can be taken. -/
theorem runActions_of_length {w : World} {c : Config} {l : List Action}
    (h : (movesOf w c l).length = l.length) : runActions w c l = some (c.after w l) := by
  have hsome : ∃ c', runActions w c l = some c' := by
    induction l generalizing c with
    | nil => exact ⟨c, rfl⟩
    | cons a l ih =>
      unfold movesOf at h
      unfold runActions
      split
      · next c₁ ev hs =>
        rw [hs] at h
        exact ih (Nat.succ.inj h)
      · next hnot =>
        split at h
        · next c₁ ev hs => exact absurd hs (hnot c₁ ev)
        · cases h
  obtain ⟨c', hc'⟩ := hsome
  rw [Config.after, hc']
  rfl

/-- A step that is known by its event. -/
theorem step_of_events {w : World} {c : Config} {a : Action} {ev : Event}
    (h : (movesOf w c [a]).map (·.event) = [ev]) : step w c a = .next (c.after w [a]) ev := by
  cases hs : step w c a with
  | undef | disabled =>
    simp only [movesOf, hs] at h
    cases h
  | next c' ev' =>
    simp only [movesOf, hs, List.map_cons, List.map_nil, List.cons.injEq, and_true] at h
    subst h
    simp only [Config.after, runActions, hs, Option.getD_some]

/-- A step that can be made. -/
theorem step_of_moves {w : World} {c : Config} {a : Action} (h : (movesOf w c [a]).length = 1) :
    ∃ ev, step w c a = .next (c.after w [a]) ev := by
  cases hs : step w c a with
  | undef | disabled =>
    simp only [movesOf, hs] at h
    cases h
  | next c' ev =>
    refine ⟨ev, ?_⟩
    simp only [Config.after, runActions, hs, Option.getD_some]

/-! ## How a step moves the stack -/

/-- The two frames are of one call. -/
def Frame.SameCall : Frame → Frame → Prop
  | .load tx _, .load tx' _ => tx'.fname = tx.fname ∧ tx'.inheritedKey = tx.inheritedKey
  | .unload e _, .unload e' _ => e' = e
  | .reload rl _, .reload rl' _ => rl' = rl
  | .dispatch d _, .dispatch d' _ =>
    d'.retp = d.retp ∧ d'.reg = d.reg ∧ d'.selfOnly = d.selfOnly ∧ d'.caller = d.caller
      ∧ d'.hookId = d.hookId ∧ d'.name = d.name ∧ d'.anc = d.anc
  | .scope prev, .scope prev' => prev' = prev
  | .each _, .each _ => True
  | _, _ => False

theorem Frame.SameCall.refl (f : Frame) : f.SameCall f := by
  cases f <;> simp [Frame.SameCall]

theorem Frame.SameCall.trans {f g h : Frame} (hfg : f.SameCall g) (hgh : g.SameCall h) :
    f.SameCall h := by
  cases f <;> cases g <;> first | exact hfg.elim | skip
  all_goals cases h <;> first | exact hgh.elim | skip
  all_goals simp only [Frame.SameCall] at *
  all_goals grind

/-- What a step does to the stack: it puts calls on, or it goes on with the call
on top, or it takes that call off. -/
inductive StackMove (k : List Frame) : List Frame → Prop
  | push (l : List Frame) : StackMove k (l ++ k)
  | go {f f' : Frame} {t : List Frame} (hk : k = f :: t) (l : List Frame) (hf : f.SameCall f') :
    StackMove k (l ++ f' :: t)
  | pop {f : Frame} {t t' : List Frame} (hk : k = f :: t) (ht : Resumed t t') : StackMove k t'

section

variable {w : World} {c c' : Config} {a : Action} {ev : Event}

theorem resume_waiting {s : State} {ret : Int} {k : List Frame}
    (hk : ∀ f ∈ k.head?, f.waiting = true) (h : resume s ret k = .next c' ev) :
    c'.stack = k := by
  unfold resume at h
  split at h
  · cases h; rfl
  · next rl k => exact absurd (hk _ rfl) (by simp [Frame.waiting])
  · next rl k => exact absurd (hk _ rfl) (by simp [Frame.waiting])
  · cases h; rfl

theorem Config.head_waiting {c : Config} (hw : c.waiting = true) :
    ∀ f ∈ c.stack.head?, f.waiting = true := by
  intro f hf
  unfold Config.waiting at hw
  cases hs : c.stack with
  | nil =>
    rw [hs] at hf
    cases hf
  | cons g k =>
    rw [hs] at hf hw
    cases hf
    exact hw

theorem Unloads.move {s : State} {fname : CStr} {id : RegionId} {plen : Nat} {k : List Frame}
    (hk : ∀ f ∈ k.head?, f.waiting = true) (h : Unloads w s fname id plen k c' ev) :
    ∃ l, c'.stack = l ++ k := by
  cases h with
  | notFound hl hr => exact ⟨[], resume_waiting hk hr⟩
  | shared hl hme href hr => exact ⟨[], resume_waiting hk hr⟩
  | cascade hl hme href => exact ⟨[_], rfl⟩

/-- A `_mod_unload` on behalf of the frame `f`. -/
theorem Unloads.move_for {s : State} {fname : CStr} {id : RegionId} {plen : Nat} {f : Frame}
    {k : List Frame} (h : Unloads w s fname id plen (f :: k) c' ev) :
    ∃ l f', f.SameCall f' ∧ c'.stack = l ++ f' :: k := by
  have hres : ∀ {t : List Frame}, Resumed (f :: k) t → ∃ l f', f.SameCall f' ∧ t = l ++ f' :: k := by
    intro t ht
    cases ht with
    | same => exact ⟨[], f, .refl f, rfl⟩
    | reload rl pc pc' => exact ⟨[], .reload rl pc', rfl, rfl⟩
  cases h with
  | notFound hl hr => exact hres (resume_spec hr).2
  | shared hl hme href hr => exact hres (resume_spec hr).2
  | cascade hl hme href => exact ⟨[_], f, .refl f, rfl⟩

theorem Step.move (h : Step w c a c' ev) : StackMove c.stack c'.stack := by
  cases h with
  | load hw => exact .push [_]
  | scope hw hl => exact .push [_]
  | eachFirst hw hp hc => exact .push [_]
  | dispatchLoop hw hd => exact .push [_]
  | answered hw => exact .push []
  | direct hw hq => exact .push []
  | dispatchDone hw hd => exact .push []
  | shutdown => exact .push []
  | unload hw hu =>
    obtain ⟨l, hl⟩ := hu.move (Config.head_waiting hw)
    exact hl ▸ .push l
  | reload hw hl hme hu =>
    obtain ⟨l, f', -, hl⟩ := hu.move_for
    rw [hl, ← List.singleton_append, ← List.append_assoc]
    exact .push _
  | dlopenFailed hr => exact .pop rfl (resume_spec hr).2
  | reuse hl hme hr => exact .pop rfl (resume_spec hr).2
  | installed hr => exact .pop rfl (resume_spec hr).2
  | abort ha hr => exact .pop rfl (resume_spec hr).2
  | remove hme hr => exact .pop rfl (resume_spec hr).2
  | reinsert hl hre hi => exact .pop rfl (.same _)
  | reloadEnd => exact .pop rfl (.same _)
  | dispatchEnd hend => exact .pop rfl (.same _)
  | scopeEnd => exact .pop rfl (.same _)
  | eachEnd => exact .pop rfl (.same _)
  | cascade hme hp hs hu =>
    obtain ⟨l, f', hf, hl⟩ := hu.move_for
    rw [hl]
    refine .go rfl l ?_
    cases f' <;> first | exact hf.elim | exact hf
  | reloadLoad => exact .go rfl [_] rfl
  | dlopened => exact .go rfl [] ⟨rfl, rfl⟩
  | publish hl => exact .go rfl [] ⟨rfl, rfl⟩
  | bind => exact .go rfl [] ⟨rfl, rfl⟩
  | claimFlat hg => exact .go rfl [] ⟨rfl, rfl⟩
  | claimRefused hg => exact .go rfl [] ⟨rfl, rfl⟩
  | claimAsked hg => exact .go rfl [] ⟨rfl, rfl⟩
  | notGranted hg => exact .go rfl [] ⟨rfl, rfl⟩
  | granted hg => exact .go rfl [] ⟨rfl, rfl⟩
  | rekey he hme => exact .go rfl [] ⟨rfl, rfl⟩
  | link he hme => exact .go rfl [] ⟨rfl, rfl⟩
  | installMissing he hi => exact .go rfl [] ⟨rfl, rfl⟩
  | install he hi => exact .go rfl [] ⟨rfl, rfl⟩
  | cascadeSkip hme hp => exact .go rfl [] rfl
  | selfSkip hself he hme hskip => exact .go rfl [] ⟨rfl, rfl, rfl, rfl, rfl, rfl, rfl⟩
  | selfDeaf hself he hme hc hd hh => exact .go rfl [] ⟨rfl, rfl, rfl, rfl, rfl, rfl, rfl⟩
  | selfEnter hself he hme hc hd hh hs' => exact .go rfl [] ⟨rfl, rfl, rfl, rfl, rfl, rfl, rfl⟩
  | slotSkip hself hmi hslots hcell hme hskip => exact .go rfl [] ⟨rfl, rfl, rfl, rfl, rfl, rfl, rfl⟩
  | slotEnter hself hmi hslots hcell hme hc hcb hd' hs' =>
    subst hd'
    exact .go rfl [] ⟨rfl, rfl, rfl, rfl, rfl, rfl, rfl⟩
  | selfListened hself hme => exact .go rfl [] ⟨rfl, rfl, rfl, rfl, rfl, rfl, rfl⟩
  | slotListened hself hs' => exact .go rfl [] ⟨rfl, rfl, rfl, rfl, rfl, rfl, rfl⟩
  | eachNext hp hc => exact .go rfl [] trivial

theorem Resumed.length {k k' : List Frame} (h : Resumed k k') : k'.length = k.length := by
  cases h <;> rfl

theorem Resumed.append {l k t' : List Frame} {f : Frame} (h : Resumed (l ++ f :: k) t') :
    ∃ l' f', f.SameCall f' ∧ t' = l' ++ f' :: k := by
  cases l with
  | nil =>
    cases h with
    | same => exact ⟨[], f, .refl f, rfl⟩
    | reload rl pc pc' => exact ⟨[], .reload rl pc', rfl, rfl⟩
  | cons g l =>
    generalize hk : g :: l ++ f :: k = t at h
    cases h with
    | same => exact ⟨g :: l, f, .refl f, hk.symm⟩
    | reload rl pc pc' t =>
      cases hk
      exact ⟨.reload rl pc' :: l, f, .refl f, rfl⟩

/-- A call in progress goes on, or it was on top and has been taken off. -/
theorem Step.frame (h : Step w c a c' ev) {l k : List Frame} {f : Frame}
    (hstack : c.stack = l ++ f :: k) :
    (∃ l' f', f.SameCall f' ∧ c'.stack = l' ++ f' :: k) ∨ (l = [] ∧ Resumed k c'.stack) := by
  have hmove := h.move
  rw [hstack] at hmove
  generalize c'.stack = k' at hmove
  cases hmove with
  | push m => exact Or.inl ⟨m ++ l, f, .refl f, by simp⟩
  | @go g g' t hk m hg =>
    cases l with
    | nil =>
      cases hk
      exact Or.inl ⟨m, g', hg, rfl⟩
    | cons x l =>
      cases hk
      exact Or.inl ⟨m ++ g' :: l, f, .refl f, by simp⟩
  | @pop g t t' hk ht =>
    cases l with
    | nil =>
      cases hk
      exact Or.inr ⟨rfl, ht⟩
    | cons x l =>
      cases hk
      exact Or.inl ht.append

/-- A call that is not on top is left alone, unless it is a reload that is told
how its load or unload went. -/
theorem Step.over (h : Step w c a c' ev) {l k : List Frame} {f : Frame}
    (hstack : c.stack = l ++ f :: k) (hl : l ≠ []) (hf : ∀ rl pc, f ≠ .reload rl pc) :
    ∃ l', c'.stack = l' ++ f :: k := by
  obtain ⟨g, l, rfl⟩ := List.exists_cons_of_ne_nil hl
  have hmove := h.move
  rw [hstack] at hmove
  generalize c'.stack = k' at hmove
  cases hmove with
  | push m => exact ⟨m ++ g :: l, by simp⟩
  | @go g g' t hk m hg =>
    cases hk
    exact ⟨m ++ g' :: l, by simp⟩
  | @pop g t t' hk ht =>
    obtain ⟨rfl, rfl⟩ := List.cons.inj hk
    cases l with
    | nil =>
      cases ht
      · exact ⟨[], rfl⟩
      · next rl pc pc' => exact absurd rfl (hf rl pc)
    | cons g l =>
      generalize hrest : g :: l ++ f :: k = rest at ht
      cases ht with
      | same => exact ⟨g :: l, rfl⟩
      | reload rl pc pc' rest =>
        cases hrest
        exact ⟨.reload rl pc' :: l, rfl⟩

/-- `xy_shutdown` is called from outside of any call. -/
theorem step_ne_shutdown (h : step w c a = .next c' ev) (hne : c.stack ≠ []) :
    a ≠ .call .shutdown := by
  rintro rfl
  unfold step at h
  dsimp only at h
  split at h
  · simp only [beginCall, List.isEmpty_iff, if_neg hne] at h
    cases h
  · cases h

/-! ## The frame of a call -/

theorem Inside.length_lt {n : Nat} {log : List Move} (h : Inside w n c log c') :
    n < c'.stack.length := by
  cases h with
  | start h => exact h
  | move _ _ h => exact h

theorem Inside.length_start {n : Nat} {log : List Move} (h : Inside w n c log c') :
    n < c.stack.length := by
  induction h with
  | start h => exact h
  | move _ _ _ ih => exact ih

theorem Inside.moves {n : Nat} {log : List Move} {l : List Action} {c₁ c₂ : Config}
    (h : Inside w n c log c₁) (hrun : runActions w c₁ l = some c₂)
    (hlen : ∀ m ∈ movesOf w c₁ l, n < m.after.stack.length) :
    Inside w n c (log ++ movesOf w c₁ l) c₂ := by
  induction l generalizing log c₁ with
  | nil =>
    cases hrun
    simpa [movesOf] using h
  | cons a l ih =>
    cases hs : step w c₁ a with
    | undef | disabled =>
      simp only [runActions, hs] at hrun
      cases hrun
    | next c' ev =>
      simp only [runActions, hs] at hrun
      simp only [movesOf, hs] at hlen ⊢
      have hmove := h.move hs (hlen _ List.mem_cons_self)
      have hrest := ih hmove hrun fun m hm => hlen m (List.mem_cons_of_mem _ hm)
      rwa [List.append_assoc, List.singleton_append] at hrest

theorem Inside.reachable {n : Nat} {log : List Move} {ok : Config → Action → Prop}
    (h : Inside w n c log c') (hok : ∀ c a, ok c a) (hc : ReachableBy w ok c) :
    ReachableBy w ok c' := by
  induction h with
  | start => exact hc
  | move hin hs hlen ih => exact ih.step (hok _ _) ⟨_, hs⟩

/-- A move of a run comes after the run of the moves before it. -/
theorem Inside.split {n : Nat} {pre post : List Move} {m : Move}
    (h : Inside w n c (pre ++ m :: post) c') :
    Inside w n c pre m.before ∧ step w m.before m.act = .next m.after m.event
      ∧ n < m.after.stack.length := by
  generalize hlog : pre ++ m :: post = log at h
  induction h generalizing post with
  | start h => simp at hlog
  | @move log c₁ c₂ a ev hin hs hlen ih =>
    rcases List.eq_nil_or_concat post with rfl | ⟨post', x, rfl⟩
    · obtain ⟨rfl, hm⟩ := List.append_inj' hlog rfl
      cases hm
      exact ⟨hin, hs, hlen⟩
    · rw [List.concat_eq_append, ← List.cons_append, ← List.append_assoc] at hlog
      exact ih (List.append_inj' hlog rfl).1

/-- A call stays on the stack above the calls below it until it returns. -/
theorem Inside.frame {k : List Frame} {f : Frame} {l : List Frame} {log : List Move}
    (h : Inside w k.length c log c') (hstack : c.stack = l ++ f :: k) :
    ∃ l' f', f.SameCall f' ∧ c'.stack = l' ++ f' :: k := by
  induction h with
  | start h => exact ⟨l, f, .refl f, hstack⟩
  | move hin hs hlen ih =>
    obtain ⟨l', f', hf, hl'⟩ := ih
    rcases (Step.of_step hs).frame hl' with ⟨l'', f'', hf', hl''⟩ | ⟨-, hres⟩
    · exact ⟨l'', f'', hf.trans hf', hl''⟩
    · exact absurd hres.length (by omega)

/-- The calls below a call are left as they are. -/
theorem Inside.rest {k l : List Frame} {log : List Move} (h : Inside w k.length c log c')
    (hstack : c.stack = l ++ k) : ∃ l', c'.stack = l' ++ k := by
  rcases List.eq_nil_or_concat l with rfl | ⟨m, f, rfl⟩
  · have hlen := h.length_start
    rw [hstack] at hlen
    exact absurd hlen (Nat.lt_irrefl _)
  · rw [List.concat_eq_append, List.append_assoc, List.singleton_append] at hstack
    obtain ⟨l', f', -, hl'⟩ := h.frame hstack
    exact ⟨l' ++ [f'], by rw [hl', List.append_assoc, List.singleton_append]⟩

/-- The step with which a call returns is one of the call's own frame. -/
theorem Inside.returning {k : List Frame} {f : Frame} {l : List Frame} {log : List Move}
    {c'' : Config} (h : Inside w k.length c log c') (hstack : c.stack = l ++ f :: k)
    (hr : step w c' a = .next c'' ev) (hk : c''.stack = k) :
    ∃ f', f.SameCall f' ∧ c'.stack = f' :: k := by
  obtain ⟨l', f', hf, hl'⟩ := h.frame hstack
  rcases (Step.of_step hr).frame hl' with ⟨l'', f'', -, hl''⟩ | ⟨rfl, -⟩
  · rw [hk] at hl''
    have := congrArg List.length hl''
    simp at this
    omega
  · exact ⟨f', hf, hl'⟩

/-! ## Regions -/

theorem Inside.regionsKept {n : Nat} {log : List Move} (hwf : c.Wf w)
    (h : Inside w n c log c') :
    c'.Wf w ∧ c.st.rt.RegionsKept c'.st.rt := by
  induction h with
  | start => exact ⟨hwf, ⟨Nat.le_refl _, fun _ _ => rfl, fun _ _ => rfl⟩⟩
  | move hin hs hlen ih =>
    have hstep := Step.of_step hs
    have hne := step_ne_shutdown hs (List.ne_nil_of_length_pos (by have := hin.length_lt; omega))
    exact ⟨ih.1.step hstep, ih.2.trans ((hstep.effect ih.1).kept hne)⟩

theorem CallRun.regionsKept {q : Call} {v : Value} (hwf : c.Wf w) (hq : q ≠ .shutdown)
    {log : List Move} (h : CallRun w c q log v c') : c.st.rt.RegionsKept c'.st.rt := by
  have hfirst : ∀ {c₁ : Config} {ev : Event}, step w c (.call q) = .next c₁ ev →
      c₁.Wf w ∧ c.st.rt.RegionsKept c₁.st.rt := fun hs =>
    ⟨hwf.step (.of_step hs), ((Step.of_step hs).effect hwf).kept (by simpa using hq)⟩
  cases h with
  | atOnce hs hk => exact (hfirst hs).2
  | later hs hin hr hk =>
    obtain ⟨hwf₁, hkept₁⟩ := hfirst hs
    obtain ⟨hwf₂, hkept₂⟩ := hin.regionsKept hwf₁
    have hne := step_ne_shutdown hr (List.ne_nil_of_length_pos (by have := hin.length_lt; omega))
    exact hkept₁.trans (hkept₂.trans (((Step.of_step hr).effect hwf₂).kept hne))

/-! ## Events -/

/-- Whether a module is given control. -/
def Event.enters : Event → Bool
  | .internal | .returned _ => false
  | _ => true

theorem resume_event {s : State} {ret : Int} {k : List Frame} (h : resume s ret k = .next c' ev) :
    ev.enters = false := by
  unfold resume at h
  split at h <;> cases h <;> rfl

theorem Unloads.event {s : State} {fname : CStr} {id : RegionId} {plen : Nat} {k : List Frame}
    (h : Unloads w s fname id plen k c' ev) : ev.enters = false := by
  cases h with
  | notFound hl hr => exact resume_event hr
  | shared hl hme href hr => exact resume_event hr
  | cascade => rfl

/-- A listener is entered by a dispatch at the head of its loop. -/
theorem Step.enters {e : EntryRef} {cb : FnSlot} (h : Step w c a c' (.enterListener e cb)) :
    a = .tau ∧ ∃ d k, c.stack = .dispatch d none :: k := by
  generalize hev : Event.enterListener e cb = ev at h
  have hnot : ev.enters = true := by rw [← hev]; rfl
  cases h with
  | selfEnter | slotEnter => exact ⟨rfl, _, _, rfl⟩
  | unload hw hu => rw [hu.event] at hnot; cases hnot
  | reload hw hl hme hu => rw [hu.event] at hnot; cases hnot
  | cascade hme hp hs hu => rw [hu.event] at hnot; cases hnot
  | dlopenFailed hr => rw [resume_event hr] at hnot; cases hnot
  | reuse hl hme hr => rw [resume_event hr] at hnot; cases hnot
  | installed hr => rw [resume_event hr] at hnot; cases hnot
  | abort ha hr => rw [resume_event hr] at hnot; cases hnot
  | remove hme hr => rw [resume_event hr] at hnot; cases hnot
  | _ => cases hev

/-- A listener is entered by one of the two loops of a dispatch. -/
theorem Step.enter_listener {e : EntryRef} {cb : FnSlot}
    (h : Step w c a c' (.enterListener e cb)) :
    ∃ d k, a = .tau ∧ c.stack = .dispatch d none :: k
      ∧ (∃ me, c.st.rt.mods e = some me
        ∧ ((d.selfOnly = true ∧ d.me = some e
            ∧ cb = (me.resolved w d.hookId d.name).fnCell d.hookId)
          ∨ (d.selfOnly = false
            ∧ (c.st.rt.hookVec d.caller d.hookId).cells[d.mi]? = some ⟨e, cb⟩))) := by
  obtain ⟨rfl, d, k, hstack⟩ := h.enters
  obtain ⟨s, stack⟩ := c
  obtain rfl : stack = _ := hstack
  cases h with
  | selfEnter hself he hme => exact ⟨d, k, rfl, rfl, _, hme, Or.inl ⟨hself, he, rfl⟩⟩
  | slotEnter hself hmi hslots hcell hme => exact ⟨d, k, rfl, rfl, _, hme, Or.inr ⟨hself, hcell⟩⟩

/-- A dispatch that is in progress after a step was in progress before, unless the step has
started it, or is a move of its loop. -/
theorem Step.dispatch_origin (h : Step w c a c' ev) {d : Dispatch} {run : Option EntryRef}
    (hd : .dispatch d run ∈ c'.stack) :
    .dispatch d run ∈ c.stack
      ∨ (run = none ∧ ∃ retp reg selfOnly, a = .call (.call retp reg selfOnly)
        ∧ c'.stack = .dispatch d none :: c.stack
        ∧ dispatchBegin w c.st retp reg selfOnly = some (.loop c'.st d))
      ∨ (a = .tau ∧ ∃ d₀ k, c.stack = .dispatch d₀ none :: k ∧ c'.stack = .dispatch d run :: k)
      ∨ ∃ d₀ e bytes k, a = .ret (.listened bytes) ∧ c.stack = .dispatch d₀ (some e) :: k
        ∧ c'.stack = .dispatch d run :: k := by
  by_cases hmem : .dispatch d run ∈ c.stack
  · exact Or.inl hmem
  right
  have hold : ∀ f ∈ c.stack, f ≠ .dispatch d run := fun f hf heq => hmem (heq ▸ hf)
  have htail : ∀ f ∈ c.stack.tail, f ≠ .dispatch d run := fun f hf => hold f (List.mem_of_mem_tail hf)
  have hpush : ∀ {f : Frame} {k : List Frame}, f ≠ .dispatch d run →
      (∀ g ∈ k, g ≠ .dispatch d run) → ∀ g ∈ f :: k, g ≠ .dispatch d run :=
    fun hf hk => List.forall_mem_cons.mpr ⟨hf, hk⟩
  have hreload : ∀ rl pc, Frame.reload rl pc ≠ .dispatch d run := fun _ _ => by rintro ⟨⟩
  have hunload : ∀ e l, Frame.unload e l ≠ .dispatch d run := fun _ _ => by rintro ⟨⟩
  have hnot : (∀ f ∈ c'.stack, f ≠ .dispatch d run) → False := fun hall => hall _ hd rfl
  have htop : ∀ {d' : Dispatch} {run' : Option EntryRef} {k : List Frame},
      (∀ f ∈ k, f ≠ .dispatch d run) → c'.stack = .dispatch d' run' :: k →
      c'.stack = .dispatch d run :: k := fun {d' run' k} hk hstack => by
    rw [hstack] at hd ⊢
    rcases List.mem_cons.mp hd with heq | hin
    · rw [heq]
    · exact absurd rfl (hk _ hin)
  cases h with
  | shutdown => cases hd
  | answered | direct | dispatchDone => exact (hmem hd).elim
  | load | scope | eachFirst => exact (hnot (hpush (by rintro ⟨⟩) hold)).elim
  | unload hw hu => exact (hnot (hu.forall hreload hunload hold)).elim
  | reload hw hl hme hu => exact (hnot (hu.forall hreload hunload (hpush (by rintro ⟨⟩) hold))).elim
  | dispatchLoop hw hbegin =>
    cases htop hold rfl
    exact Or.inl ⟨rfl, _, _, _, rfl, rfl, hbegin⟩
  | dlopenFailed hr => exact (hnot ((resume_spec hr).2.forall hreload htail)).elim
  | reuse hl hme hr => exact (hnot ((resume_spec hr).2.forall hreload htail)).elim
  | installed hr => exact (hnot ((resume_spec hr).2.forall hreload htail)).elim
  | abort ha hr => exact (hnot ((resume_spec hr).2.forall hreload htail)).elim
  | remove hme hr => exact (hnot ((resume_spec hr).2.forall hreload htail)).elim
  | cascade hme hp hs hu =>
    exact (hnot (hu.forall hreload hunload (hpush (by rintro ⟨⟩) htail))).elim
  | dlopened | publish | bind | claimFlat | claimRefused | claimAsked | notGranted | granted | rekey
  | link | installMissing | install | cascadeSkip | eachNext =>
    exact (hnot (hpush (by rintro ⟨⟩) htail)).elim
  | reloadLoad => exact (hnot (hpush (by rintro ⟨⟩) (hpush (by rintro ⟨⟩) htail))).elim
  | reinsert | reloadEnd | dispatchEnd | scopeEnd | eachEnd => exact (hnot htail).elim
  | selfSkip | selfDeaf | selfEnter | slotSkip | slotEnter =>
    exact Or.inr (Or.inl ⟨rfl, _, _, rfl, htop htail rfl⟩)
  | selfListened | slotListened =>
    exact Or.inr (Or.inr ⟨_, _, _, _, rfl, rfl, htop htail rfl⟩)

/-- A call of the API enters neither a claim handler nor an `xy_install`. -/
theorem Step.call_event {q : Call} (h : Step w c (.call q) c' ev) :
    (∀ fn bits, ev ≠ .enterHandler fn bits) ∧ ∀ e, ev ≠ .enterInstall e := by
  have hquiet : ev.enters = false →
      (∀ fn bits, ev ≠ .enterHandler fn bits) ∧ ∀ e, ev ≠ .enterInstall e := by
    intro hev
    constructor
    · rintro fn bits rfl
      cases hev
    · rintro e rfl
      cases hev
  cases h with
  | unload hw hu => exact hquiet hu.event
  | reload hw hl hme hu => exact hquiet hu.event
  | _ => exact ⟨nofun, nofun⟩

/-- A call of the API leaves the stack as it is, or puts frames on it. -/
theorem Step.call_push {q : Call} (h : Step w c (.call q) c' ev) : ∃ l, c'.stack = l ++ c.stack := by
  cases h with
  | load hw => exact ⟨[_], rfl⟩
  | scope hw hl => exact ⟨[_], rfl⟩
  | eachFirst hw hp hc => exact ⟨[_], rfl⟩
  | dispatchLoop hw hd => exact ⟨[_], rfl⟩
  | answered hw => exact ⟨[], rfl⟩
  | direct hw hq => exact ⟨[], rfl⟩
  | dispatchDone hw hd => exact ⟨[], rfl⟩
  | shutdown => exact ⟨[], rfl⟩
  | unload hw hu => exact hu.move (Config.head_waiting hw)
  | reload hw hl hme hu =>
    obtain ⟨l, f', -, hl⟩ := hu.move_for
    exact ⟨l ++ [f'], by rw [hl]; simp⟩

/-- The step with which a dispatch returns. -/
theorem Step.dispatch_return {d : Dispatch} {run : Option EntryRef} {k : List Frame}
    (h : Step w c a c' ev) (hstack : c.stack = .dispatch d run :: k) (hk : c'.stack = k) :
    run = none ∧ c'.st = (Xylem.dispatchEnd c.st d.retp d.reg d.ran).1
      ∧ ev = .returned (.int (Xylem.dispatchEnd c.st d.retp d.reg d.ran).2) := by
  have hne : ∀ (f : Frame), f :: k ≠ k := fun f hf => by
    have := congrArg List.length hf
    simp at this
  cases a with
  | call q =>
    obtain ⟨l, hl⟩ := h.call_push
    rw [hk, hstack] at hl
    have := congrArg List.length hl
    simp at this
    omega
  | tau =>
    cases h with
    | dispatchEnd hend =>
      cases hstack
      exact ⟨rfl, rfl, rfl⟩
    | selfSkip | selfDeaf | selfEnter | slotSkip | slotEnter =>
      cases hstack
      exact absurd hk (hne _)
    | _ => cases hstack
  | ret r =>
    cases h with
    | selfListened | slotListened =>
      cases hstack
      exact absurd hk (hne _)
    | _ => cases hstack

end

/-- A call with the actions of its run as far as it goes. -/
theorem inside_of_moves {w : World} {c : Config} {q : Call} {l : List Action}
    (hlen : (movesOf w c (.call q :: l)).length = l.length + 1)
    (hin : ∀ m ∈ movesOf w c (.call q :: l), c.stack.length < m.after.stack.length) :
    ∃ c₁ ev, step w c (.call q) = .next c₁ ev
      ∧ movesOf w c (.call q :: l) = ⟨c, .call q, ev, c₁⟩ :: movesOf w c₁ l
      ∧ Inside w c.stack.length c₁ (movesOf w c₁ l) (c.after w (.call q :: l)) := by
  have hrun := runActions_of_length (l := .call q :: l) hlen
  generalize c.after w (.call q :: l) = c₂ at hrun
  cases hs : step w c (.call q) with
  | undef | disabled =>
    simp only [movesOf, hs] at hlen
    cases hlen
  | next c₁ ev =>
    have hmoves : movesOf w c (.call q :: l) = ⟨c, .call q, ev, c₁⟩ :: movesOf w c₁ l := by
      simp only [movesOf, hs]
    simp only [runActions, hs] at hrun
    rw [hmoves] at hin
    exact ⟨c₁, ev, rfl, hmoves, Inside.moves (.start (hin _ List.mem_cons_self)) hrun
      fun m hm => hin m (List.mem_cons_of_mem _ hm)⟩

/-- A call by the host, with the actions of its run as far as it goes. -/
theorem inside_of_actions {w : World} {c : Config} {q : Call} {l : List Action}
    (hempty : c.stack = [])
    (hlen : (movesOf w c (.call q :: l)).length = l.length + 1)
    (hin : ∀ m ∈ movesOf w c (.call q :: l), 0 < m.after.stack.length) :
    ∃ c₁ ev, step w c (.call q) = .next c₁ ev
      ∧ movesOf w c (.call q :: l) = ⟨c, .call q, ev, c₁⟩ :: movesOf w c₁ l
      ∧ Inside w c.stack.length c₁ (movesOf w c₁ l) (c.after w (.call q :: l)) :=
  inside_of_moves hlen (by rwa [hempty])

/-- A call by the host, with the actions of its run. -/
theorem CallRun.of_actions {w : World} {c : Config} {q : Call} {l : List Action} {a : Action}
    {v : Value} (hempty : c.stack = [])
    (hlen : (movesOf w c (.call q :: l)).length = l.length + 1)
    (hin : ∀ m ∈ movesOf w c (.call q :: l), 0 < m.after.stack.length)
    (hend : (movesOf w (c.after w (.call q :: l)) [a]).map
      (fun m => (m.event, m.after.stack.length)) = [(.returned v, 0)]) :
    CallRun w c q (movesOf w c (.call q :: l) ++ movesOf w (c.after w (.call q :: l)) [a]) v
      ((c.after w (.call q :: l)).after w [a]) := by
  obtain ⟨c₁, ev, hs, hmoves, hinside⟩ := inside_of_actions hempty hlen hin
  generalize c.after w (.call q :: l) = c₂ at hinside hend
  rw [hmoves]
  cases hr : step w c₂ a with
  | undef | disabled =>
    simp only [movesOf, hr] at hend
    cases hend
  | next c' ev' =>
    have hlast : movesOf w c₂ [a] = [⟨c₂, a, ev', c'⟩] := by simp only [movesOf, hr]
    have hafter : c₂.after w [a] = c' := by
      simp only [Config.after, runActions, hr, Option.getD_some]
    rw [hlast] at hend ⊢
    rw [hafter]
    simp only [List.map_cons, List.map_nil, List.cons.injEq, Prod.mk.injEq, and_true] at hend
    obtain ⟨rfl, hstack⟩ := hend
    exact .later hs hinside hr (hempty ▸ List.length_eq_zero_iff.mp hstack)

end Xylem
