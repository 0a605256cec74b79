import Xylem.Reports
import Xylem.Sample
import Xylem.Lib.Purge

/-!
# Two threads

The API calls of two threads, each complete before the next begins.  The tables,
the error code and the adapter of the last dispatch are those of the process; the
current region, the module that is being loaded and the rest of what `xy_last`
reads are those of the thread.

One of the threads is observed: what its calls of `xy_errno` return, and what its
calls of `xy_last` return and copy.  Some calls of the other thread are taken out
of the interleaving, and `PurgeOk` says when this changes none of it.
-/

namespace Xylem

/-! ## One thread -/

/-- What `xy_errno` or `xy_last` gives: its value, and the bytes for the buffer that
it is given. -/
structure Answer where
  value : Event
  written : List UInt8
deriving DecidableEq

/-- The answer that a step gives, when it is one of a query. -/
def Config.answers (c : Config) (a : Action) (ev : Event) : List Answer :=
  match a with
  | .call .errno => [⟨ev, []⟩]
  | .call (.last ret) => [⟨ev, bif ret.isSome then c.st.lastBytes else []⟩]
  | _ => []

/-- A step of a thread; `t` is whether the thread is observed. -/
def move (w : World) (t : Bool) (c : Config) (a : Action) : Option (Config × List Answer) :=
  match step w c a with
  | .next c' ev => some (c', bif t then c.answers a ev else [])
  | _ => none

/-- What may differ after a step. -/
def moveMark (w : World) (t : Bool) (f : Foreign) (c : Config) (a : Action) : Foreign :=
  match step w c a with
  | .next _ ev => f.after t c a ev
  | _ => f

/-- The observed thread asks for the error code or the last return only where a
call that was taken out has not changed the one or the adapter of the other. -/
def MoveOk (own : BufRef → Prop) (t : Bool) (f : Foreign) (_ : Config) (a : Action) : Prop :=
  a.Owned own t ∧ (t = true →
    match a with
    | .call .errno => f.err = false
    | .call (.last _) => f.adapter = false
    | _ => True)

section

variable {w : World} {own : BufRef → Prop} {t : Bool} {f : Foreign} {c c' c₁ : Config} {a : Action}
  {ev : Event}

/-- What the two runs of a thread have in common at each step. -/
structure LocalAlike (own : BufRef → Prop) (t : Bool) (f : Foreign) (c c' : Config) : Prop where
  alike : Alike own (t = true) f c c'
  owned : t = true → ∀ g ∈ c.stack, Frame.Owned own g

theorem step_errno (w : World) (c : Config) :
    step w c (.call .errno)
      = if c.waiting then .next c (.returned (.int c.st.err)) else .disabled := rfl

theorem step_last (w : World) (c : Config) (ret : Option BufRef) :
    step w c (.call (.last ret))
      = if c.waiting then .next ⟨(xyLast c.st ret).1, c.stack⟩
          (.returned (.int (xyLast c.st ret).2)) else .disabled := rfl

theorem Alike.waiting {mine : Prop} (h : Alike own mine f c c') : c'.waiting = c.waiting := by
  unfold Config.waiting
  rw [h.stack]

/-- `xy_errno`, in both runs. -/
theorem errno_alike (h : Alike own (t = true) f c c') (hok : MoveOk own t f c (.call .errno))
    (hs : step w c (.call .errno) = .next c₁ ev) :
    ∃ c₁' ev', step w c' (.call .errno) = .next c₁' ev'
      ∧ Alike own (t = true) (f.after t c (.call .errno) ev) c₁ c₁'
      ∧ (t = true → c'.answers (.call .errno) ev' = c.answers (.call .errno) ev) := by
  rw [step_errno] at hs
  split at hs
  · next hw =>
    cases hs
    have hs' : step w c' (.call .errno) = .next c' (.returned (.int c'.st.err)) := by
      rw [step_errno, h.waiting, if_pos hw]
    refine ⟨c', _, hs', ⟨h.stack, h.state.state, ?_⟩, fun ht => ?_⟩
    · refine h.state.agree.mono (fun hf => ?_) fun hf => ?_
      · show (f.err && true) = true
        rw [hf]
        rfl
      · show (f.adapter && true) = true
        rw [hf]
        rfl
    · have herr : c'.st.err = c.st.err := h.state.agree.err (hok.2 ht)
      unfold Config.answers
      rw [herr]
  · cases hs

/-- `xy_last`, in both runs. -/
theorem last_alike (h : Alike own (t = true) f c c') {ret : Option BufRef}
    (hok : MoveOk own t f c (.call (.last ret)))
    (hs : step w c (.call (.last ret)) = .next c₁ ev) :
    ∃ c₁' ev', step w c' (.call (.last ret)) = .next c₁' ev'
      ∧ Alike own (t = true) (f.after t c (.call (.last ret)) ev) c₁ c₁'
      ∧ (t = true → c'.answers (.call (.last ret)) ev' = c.answers (.call (.last ret)) ev) := by
  rw [step_last] at hs
  split at hs
  · next hw =>
    cases hs
    have hs' : step w c' (.call (.last ret))
        = .next ⟨(xyLast c'.st ret).1, c'.stack⟩ (.returned (.int (xyLast c'.st ret).2)) := by
      rw [step_last, h.waiting, if_pos hw]
    refine ⟨_, _, hs', ?_⟩
    have hstate := h.state.state
    have hagree := h.state.agree
    generalize c'.st.report = r at hstate hagree
    rw [hstate]
    have hadapter : f.adapter = true → (f.adapter && true) = true := fun hf => by
      rw [hf]
      rfl
    cases t with
    | true =>
      obtain ⟨hbytes, hret, halike⟩ := xyLast_alike hagree rfl (hok.2 rfl) ret
      refine ⟨⟨h.stack, halike.state, halike.agree.mono nofun hadapter⟩, fun _ => ?_⟩
      unfold Config.answers
      rw [hstate, hbytes, hret]
    | false =>
      have halike := xyLast_other hagree nofun (hok.1 rfl)
      exact ⟨⟨h.stack, halike.state, halike.agree.mono (fun _ => rfl) hadapter⟩, nofun⟩
  · cases hs

theorem move_of_step (h : step w c a = .next c' ev) :
    move w t c a = some (c', bif t then c.answers a ev else []) ∧
      moveMark w t f c a = f.after t c a ev := by
  unfold move moveMark
  rw [h]
  exact ⟨rfl, rfl⟩

theorem step_of_move {o : List Answer} (h : move w t c a = some (c', o)) :
    ∃ ev, step w c a = .next c' ev ∧ o = bif t then c.answers a ev else [] := by
  unfold move at h
  split at h
  · next c₁ ev hs =>
    cases h
    exact ⟨ev, hs, rfl⟩
  · cases h

theorem Config.answers_of_not_query (hquery : ¬ a.Query) (c : Config) (ev : Event) :
    c.answers a ev = [] := by
  unfold Config.answers
  split
  · exact (hquery trivial).elim
  · exact (hquery trivial).elim
  · rfl

/-- A step, in both runs of the thread. -/
theorem LocalAlike.follow (h : LocalAlike own t f c c') (hok : MoveOk own t f c a)
    {o : List Answer} (hmove : move w t c a = some (c₁, o)) :
    ∃ c₁', move w t c' a = some (c₁', o) ∧ LocalAlike own t (moveMark w t f c a) c₁ c₁' := by
  obtain ⟨ev, hs, rfl⟩ := step_of_move hmove
  have hown' := (Step.of_step hs).owned h.owned hok.1
  rw [(move_of_step hs).2]
  suffices hstep : ∃ c₁' ev', step w c' a = .next c₁' ev'
      ∧ Alike own (t = true) (f.after t c a ev) c₁ c₁'
      ∧ (t = true → c'.answers a ev' = c.answers a ev) by
    obtain ⟨c₁', ev', hs', halike, hans⟩ := hstep
    refine ⟨c₁', ?_, halike, hown'⟩
    rw [(move_of_step (f := f) hs').1]
    cases t with
    | false => rfl
    | true => exact congrArg (fun o => some (c₁', o)) (hans rfl)
  by_cases hquery : a.Query
  · unfold Action.Query at hquery
    split at hquery
    · exact errno_alike h.alike hok hs
    · exact last_alike h.alike hok hs
    · exact hquery.elim
  · have hboth := step_alike (w := w) h.alike h.owned hok.1 hquery
    rw [hs] at hboth
    cases hs' : step w c' a with
    | undef | disabled =>
      rw [hs'] at hboth
      exact hboth.elim
    | next c₁' ev' =>
      rw [hs'] at hboth
      obtain ⟨rfl, halike⟩ := hboth
      refine ⟨c₁', ev', rfl, halike, fun _ => ?_⟩
      rw [Config.answers_of_not_query hquery, Config.answers_of_not_query hquery]

/-- The two runs of a thread go in lockstep. -/
theorem unwinding_move (w : World) (own : BufRef → Prop) (t : Bool) :
    Purge.Unwinding (move w t) (moveMark w t) (fun _ => false) (MoveOk own t)
      (LocalAlike own t) where
  shown _ hok h hs := h.follow hok hs
  stays ha := by cases ha

end

/-! ## The process -/

inductive Thread where
  | first
  | second
deriving DecidableEq

/-- The memory of the process, and that of its threads.  The thread-local part of
`shared` is not used. -/
structure Process where
  shared : State
  tls : Thread → Tls

/-- The state that a thread works on. -/
def Process.view (p : Process) (t : Thread) : State := { p.shared with tls := p.tls t }

/-- The process after a thread has left the state `s`. -/
def Process.put (p : Process) (t : Thread) (s : State) : Process :=
  ⟨s, Function.update p.tls t s.tls⟩

/-- The first thread has run the constructor of the library; the second has set no
region yet. -/
def Process.boot (ctxs : CtxRef → Ctx) (adapters : AdapterRef → Adapter)
    (mem : BufRef → List UInt8) : Process :=
  let s := State.boot ctxs adapters mem
  ⟨s, fun | .first => s.tls | .second => { s.tls with current := ⟨0, none⟩ }⟩

/-- A slice of a thread: what it does from a state in which none of its calls is in
progress to the next such state.  `kept` is whether the slice stays in the
interleaving. -/
structure Slice where
  thread : Thread
  kept : Bool
  actions : List Action

/-- A slice, with the answers that it gives to the observed thread `o`. -/
def Slice.run (w : World) (o : Thread) (p : Process) (b : Slice) : Option (Process × List Answer) :=
  match Purge.run (move w (decide (b.thread = o))) ⟨p.view b.thread, []⟩ b.actions with
  | some (⟨s, []⟩, l) => some (p.put b.thread s, l)
  | _ => none

/-- What may differ after a slice.  One that was taken out leaves what it has changed. -/
def Slice.mark (w : World) (o : Thread) (f : Foreign) (p : Process) (b : Slice) : Foreign :=
  if b.kept then
    Purge.marks (move w (decide (b.thread = o))) (moveMark w (decide (b.thread = o))) f
      ⟨p.view b.thread, []⟩ b.actions
  else
    match b.run w o p with
    | none => f
    | some (q, _) =>
      ⟨f.err || decide (q.shared.err ≠ p.shared.err),
        f.adapter || decide (q.shared.adapter ≠ p.shared.adapter)⟩

/-- A slice that was taken out is one of the other thread.  It has written the report
only, and no buffer of the observed thread. -/
structure Slice.Quiet (w : World) (o : Thread) (own : BufRef → Prop) (p : Process) (b : Slice) :
    Prop where
  other : b.thread ≠ o
  state : ∀ q l, b.run w o p = some (q, l) →
    q.view b.thread = (p.view b.thread).withReport (q.view b.thread).report
  mem : ∀ q l, b.run w o p = some (q, l) → ∀ x, own x → q.shared.mem x = p.shared.mem x

def Slice.Ok (w : World) (o : Thread) (own : BufRef → Prop) (f : Foreign) (p : Process)
    (b : Slice) : Prop :=
  if b.kept then
    Purge.Holds (move w (decide (b.thread = o))) (moveMark w (decide (b.thread = o)))
      (MoveOk own (decide (b.thread = o))) f ⟨p.view b.thread, []⟩ b.actions
  else b.Quiet w o own p

/-- In the interleaving, the calls that are taken out write the report only, and
whenever the observed thread asks for the error code or the last return, the code or
the adapter is not one that such a call has changed. -/
def PurgeOk (w : World) (o : Thread) (own : BufRef → Prop) (p : Process) (l : List Slice) :
    Prop :=
  Purge.Holds (Slice.run w o) (Slice.mark w o) (Slice.Ok w o own) ⟨false, false⟩ p l

/-- Taking calls out changes no answer. -/
def SameAnswers (w : World) (o : Thread) (p : Process) (l : List Slice) : Prop :=
  ∀ q ans, Purge.run (Slice.run w o) p l = some (q, ans) →
    ∃ q', Purge.run (Slice.run w o) p (l.filter Slice.kept) = some (q', ans)

section

variable {w : World} {o : Thread} {own : BufRef → Prop} {f : Foreign} {p p' q : Process} {b : Slice}
  {l : List Answer}

/-- The two processes, as each thread sees them. -/
def ProcessAlike (own : BufRef → Prop) (o : Thread) (f : Foreign) (p p' : Process) : Prop :=
  ∀ t, StateAlike own (decide (t = o) = true) f (p.view t) (p'.view t)

@[simp] theorem Process.view_put (p : Process) (t : Thread) (s : State) :
    (p.put t s).view t = s := by
  show { s with tls := Function.update p.tls t s.tls t } = s
  rw [Function.update_self]

theorem Process.view_put_of_ne (p : Process) {t u : Thread} (h : u ≠ t) (s : State) :
    (p.put t s).view u = { s with tls := p.tls u } := by
  show { s with tls := Function.update p.tls t s.tls u } = _
  rw [Function.update_of_ne h]

theorem Slice.run_eq (h : b.run w o p = some (q, l)) :
    ∃ s, Purge.run (move w (decide (b.thread = o))) ⟨p.view b.thread, []⟩ b.actions
      = some (⟨s, []⟩, l) ∧ q = p.put b.thread s := by
  unfold Slice.run at h
  split at h
  · next s l' hrun =>
    cases h
    exact ⟨s, hrun, rfl⟩
  · cases h

/-- What a thread has of its own stays when the other thread moves. -/
theorem StateAlike.frame {mine mine' : Prop} {f' : Foreign} {s s' s₀ s₀' : State} {t t' : Tls}
    (h : StateAlike own mine f s s')
    (hown : StateAlike own mine' f' { s₀ with tls := t } { s₀' with tls := t' }) :
    StateAlike own mine' f { s with tls := t } { s' with tls := t' } := by
  have htls : t' = { t with
      lastRan := t'.lastRan, lastRetbuf := t'.lastRetbuf, lastRetp := t'.lastRetp } :=
    congrArg State.tls hown.state
  obtain ⟨hs, ha⟩ := h
  refine ⟨?_, ha.err, ha.adapter, ha.mem, hown.agree.ran, hown.agree.retbuf, hown.agree.retp,
    hown.agree.owned⟩
  generalize s'.report = r at hs
  subst hs
  exact (State.mk.injEq ..).mpr ⟨rfl, htls, rfl, rfl, rfl, rfl, rfl, rfl, rfl, rfl⟩

/-- After a slice, from how the thread's own views are related. -/
theorem ProcessAlike.put {f' : Foreign} {t : Thread} {s s' : State} (h : ProcessAlike own o f p p')
    (hs : StateAlike own (decide (t = o) = true) f' s s') :
    ProcessAlike own o f' (p.put t s) (p'.put t s') := by
  intro u
  by_cases hu : u = t
  · subst hu
    rw [Process.view_put, Process.view_put]
    exact hs
  · rw [p.view_put_of_ne hu, p'.view_put_of_ne hu]
    exact hs.frame (h u)

/-- A slice that stays gives the same answers. -/
theorem ProcessAlike.shown (h : ProcessAlike own o f p p') (hkept : b.kept = true)
    (hok : b.Ok w o own f p) (hrun : b.run w o p = some (q, l)) :
    ∃ q', b.run w o p' = some (q', l) ∧ ProcessAlike own o (b.mark w o f p) q q' := by
  unfold Slice.Ok at hok
  unfold Slice.mark
  rw [if_pos hkept] at hok ⊢
  obtain ⟨s, hmoves, rfl⟩ := Slice.run_eq hrun
  have hstart : LocalAlike own (decide (b.thread = o)) f ⟨p.view b.thread, []⟩
      ⟨p'.view b.thread, []⟩ :=
    ⟨⟨rfl, h b.thread⟩, fun _ g hg => (List.not_mem_nil hg).elim⟩
  obtain ⟨⟨s', k'⟩, hmoves', hend⟩ := (unwinding_move w own _).lockstep hstart hok hmoves
  obtain rfl : k' = [] := hend.alike.stack
  refine ⟨p'.put b.thread s', ?_, h.put hend.alike.state⟩
  unfold Slice.run
  rw [hmoves']

/-- A slice that is taken out gives no answers, and the processes stay alike. -/
theorem ProcessAlike.stays (h : ProcessAlike own o f p p') (hkept : b.kept = false)
    (hok : b.Ok w o own f p) (hrun : b.run w o p = some (q, l)) :
    l = [] ∧ ProcessAlike own o (b.mark w o f p) q p' := by
  unfold Slice.Ok at hok
  unfold Slice.mark
  rw [if_neg (by rw [hkept]; simp)] at hok ⊢
  rw [hrun]
  have hstate := hok.state q l hrun
  have hmem := hok.mem q l hrun
  obtain ⟨s, hmoves, rfl⟩ := Slice.run_eq hrun
  rw [Process.view_put] at hstate
  rw [decide_eq_false hok.other] at hmoves
  refine ⟨Purge.run_silent (fun c a c' o hs => ?_) hmoves, ?_⟩
  · obtain ⟨ev, -, ho⟩ := step_of_move hs
    exact ho
  have hself : StateAlike own (decide (b.thread = o) = true)
      ⟨f.err || decide (s.err ≠ p.shared.err),
        f.adapter || decide (s.adapter ≠ p.shared.adapter)⟩ s (p'.view b.thread) := by
    obtain ⟨hview, ha⟩ := h b.thread
    have hother : ¬ decide (b.thread = o) = true := by
      rw [decide_eq_true_iff]
      exact hok.other
    refine ⟨?_, fun hf => ?_, fun hf => ?_, fun x hx => (ha.mem x hx).trans (hmem x hx).symm,
      fun hm => absurd hm hother, fun hm => absurd hm hother, fun hm => absurd hm hother,
      fun hm => absurd hm hother⟩
    · conv_lhs => rw [hview]
      rw [hstate]
      rfl
    · obtain ⟨hf, hs⟩ := Bool.or_eq_false_iff.mp hf
      exact (ha.err hf).trans (not_not.mp (of_decide_eq_false hs)).symm
    · obtain ⟨hf, hs⟩ := Bool.or_eq_false_iff.mp hf
      exact (ha.adapter hf).trans (not_not.mp (of_decide_eq_false hs)).symm
  intro u
  by_cases hu : u = b.thread
  · subst hu
    rw [Process.view_put]
    exact hself
  · rw [p.view_put_of_ne hu]
    exact hself.frame (h u)

theorem unwinding_slice (w : World) (o : Thread) (own : BufRef → Prop) :
    Purge.Unwinding (Slice.run w o) (Slice.mark w o) (fun b => !b.kept) (Slice.Ok w o own)
      (ProcessAlike own o) where
  shown hb hok h hs := h.shown (by simpa using hb) hok hs
  stays hb hok h hs := h.stays (by simpa using hb) hok hs

end

/-- What the observed thread learns of the error code and of the last return is what
it would have learnt without the calls that were taken out. -/
theorem same_answers (w : World) (o : Thread) (own : BufRef → Prop) (ctxs : CtxRef → Ctx)
    (adapters : AdapterRef → Adapter) (mem : BufRef → List UInt8) (l : List Slice)
    (h : PurgeOk w o own (Process.boot ctxs adapters mem) l) :
    SameAnswers w o (Process.boot ctxs adapters mem) l := by
  intro q ans hrun
  have hstart : ProcessAlike own o ⟨false, false⟩ (Process.boot ctxs adapters mem)
      (Process.boot ctxs adapters mem) := fun t =>
    ⟨rfl, fun _ => rfl, fun _ => rfl, fun _ _ => rfl, fun _ => rfl, fun _ => rfl, fun _ => rfl,
      fun _ b hb => by cases t <;> cases hb⟩
  obtain ⟨q', hrun', -⟩ := (unwinding_slice w o own).purge hstart h hrun
  refine ⟨q', ?_⟩
  simpa using hrun'

/-- A process with the tables of a fresh start. -/
def Process.sample : Process :=
  Process.boot
    (fun _ => { adapter := none, modulePath := none, regionId := 0, regionState := none })
    (fun _ => .plain sampleHook) (fun _ => [])

/-- A dispatch of the second thread fails.  The first makes calls of its own before it
asks. -/
theorem same_answers_after_own_calls :
    SameAnswers sampleWorld .first Process.sample
      [⟨.second, false, [.call (.call none (some 0) false)]⟩,
        ⟨.first, true, [.call (.withRegion 0 0 false)]⟩,
        ⟨.first, true, [.call .errno]⟩,
        ⟨.first, true, [.call (.call none (some 0) true)]⟩,
        ⟨.first, true, [.call (.last none)]⟩] := by
  refine same_answers sampleWorld .first (fun _ => False) _ _ _ _ ⟨?_, ?_, ?_, ?_, ?_, trivial⟩
  · refine ⟨nofun, fun q l h => ?_, fun _ _ _ _ hx => hx.elim⟩
    cases h
    rfl
  · exact ⟨⟨trivial, fun _ => trivial⟩, trivial⟩
  · exact ⟨⟨trivial, fun _ => rfl⟩, trivial⟩
  · exact ⟨⟨fun _ _ hb => (nomatch hb), fun _ => trivial⟩, trivial⟩
  · exact ⟨⟨nofun, fun _ => rfl⟩, trivial⟩

/-- Between a call of the first thread that fails with `XY_ERR_INVALID` and its
`xy_errno` and `xy_last`, a dispatch of the second thread fails with
`XY_ERR_NOTFOUND`. -/
theorem not_same_answers :
    (∃ c, step sampleWorld ⟨Process.sample.view .second, []⟩ (.call (.call none (some 0) false))
        = .next c (.returned (.int xyErrNotfound)))
      ∧ ¬ SameAnswers sampleWorld .first Process.sample
        [⟨.first, true, [.call (.withRegion 0 0 false)]⟩,
          ⟨.second, false, [.call (.call none (some 0) false)]⟩,
          ⟨.first, true, [.call .errno]⟩,
          ⟨.first, true, [.call (.last none)]⟩] := by
  refine ⟨⟨_, rfl⟩, fun h => ?_⟩
  let told : Answer := ⟨.returned (.int xyErrNotfound), []⟩
  obtain ⟨q, hq⟩ := h _ [told, told] rfl
  have hans : (Purge.run (Slice.run sampleWorld .first) Process.sample _).map Prod.snd
      = some [told, told] := congrArg (Option.map Prod.snd) hq
  revert hans
  decide +kernel

end Xylem
