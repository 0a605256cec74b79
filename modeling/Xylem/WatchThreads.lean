import Mathlib.Algebra.BigOperators.Group.List.Basic
import Xylem.Lib.Descent
import Xylem.Watch

/-!
# The watcher thread starts and stops

`xy_watch_start` and `xy_watch_stop` may be called from any thread.  A stop wakes the watcher
thread through a pipe, gives `g_mu` up to wait for the thread, and takes it again to close the
descriptors.  The thread reads the descriptors without the lock, and holds the lock while it
reloads.  The reload is taken to come back, and the modules that run in it to call no function of
this interface: `g_mu` is not recursive, so that such a call would wait for ever.

* `step`: one critical section of a call, or one move of a watcher thread, in any order.
* `Tidy`: one thread at most is alive, no descriptor leaks or is closed twice, and nothing is
  left behind when the watcher has been stopped.
* `tidy_of_alone`: this holds as long as no start comes into a stop that waits.
* `stop_returns`: a stop that waits comes to its end, however the moves are ordered.
* `not_tidy_of_start_inside`: a start that comes into a stop has its descriptors closed under
  its thread.
-/

namespace Xylem.Watch.Threads

/-- A file descriptor. -/
abbrev Fd := Nat

/-- Where a watcher thread is.

* `selecting ifd pipeR`: in `select`, on the descriptors that it has put into the set.
* `selected ready`: `select` has returned, with those that are ready.
* `events n`: in the loop over the events that it has read, `n` of them still to come.
* `copied n`: it has copied the path of an event, and waits for the lock.
* `reloading n`: in `xy_reload`, with the lock. -/
inductive Pc where
  | top
  | selecting (ifd pipeR : Fd)
  | selected (ready : List Fd)
  | events (n : Nat)
  | copied (n : Nat)
  | reloading (n : Nat)
  | exited
deriving DecidableEq

/-- Where an `xy_watch_stop` is, between its two sections: it has unlocked, or it is in
`pthread_join`. -/
inductive StopPc where
  | unlocked
  | joining (thread : Nat)
deriving DecidableEq

/-- The variables of the library, the threads and the descriptors.

* `lock`: the watcher thread that holds `g_mu` while it reloads.
* `written r`: a byte is in the pipe with the read end `r`.
* `fault`: -1 in an `fd_set`, a thread joined twice, or a call on a descriptor that is not the
  watcher's any more.  A descriptor of `FD_SETSIZE` or more in an `fd_set`, which is undefined as
  well, is none. -/
structure State where
  gIfd : Option Fd
  gPipeR : Option Fd
  gPipeW : Option Fd
  gRunning : Bool
  gThread : Option Nat
  lock : Option Nat
  watchers : List Pc
  joined : List Nat
  stops : List StopPc
  isOpen : Fd → Bool
  written : Fd → Bool
  fault : Bool

def State.start : State :=
  { gIfd := none, gPipeR := none, gPipeW := none, gRunning := false, gThread := none, lock := none
    watchers := [], joined := [], stops := [], isOpen := fun _ => false, written := fun _ => false
    fault := false }

/-- The kernel can give these descriptors out. -/
def State.Free (s : State) (ifd r w : Fd) : Prop :=
  ifd ≠ r ∧ ifd ≠ w ∧ r ≠ w ∧ s.isOpen ifd = false ∧ s.isOpen r = false ∧ s.isOpen w = false

instance (s : State) (ifd r w : Fd) : Decidable (s.Free ifd r w) := by
  unfold State.Free
  infer_instance

/-- `inotify_init1` and `pipe`. -/
def State.opened (s : State) (ifd r w : Fd) : State :=
  { s with
    isOpen := fun fd => decide (fd = ifd ∨ fd = r ∨ fd = w) || s.isOpen fd
    written := Function.update s.written r false }

/-- `close`.  That of -1 does nothing. -/
def State.close (s : State) : Option Fd → State
  | none => s
  | some fd =>
    if s.isOpen fd then { s with isOpen := Function.update s.isOpen fd false }
    else { s with fault := true }

/-- The thread goes on. -/
def State.go (s : State) (t : Nat) (pc : Pc) : State := { s with watchers := s.watchers.set t pc }

/-- The thread runs into undefined behaviour. -/
def State.fail (s : State) (t : Nat) : State := { s.go t .exited with fault := true }

/-- `xy_watch_start`, under the lock, where the kernel gives out these descriptors. -/
def xyWatchStart (s : State) (how : Start) (ifd r w : Fd) : State :=
  if s.gRunning then s
  else
    match how with
    | .noFds => { s with gIfd := none }
    | .noThread => { s with gIfd := none, gPipeR := none, gPipeW := none }
    | .ok =>
      { s.opened ifd r w with
        gIfd := some ifd, gPipeR := some r, gPipeW := some w, gRunning := true
        gThread := some s.watchers.length, watchers := s.watchers ++ [.top] }

/-- The first section of `xy_watch_stop`.  The two ends of the pipe are set together. -/
def xyWatchStop (s : State) : State :=
  if s.gRunning then
    { s with
      gRunning := false
      written := s.gPipeR.elim s.written fun r => Function.update s.written r true
      stops := s.stops ++ [.unlocked] }
  else s

/-- The second section of `xy_watch_stop`, after the thread `t` has been joined. -/
def xyWatchStopEnd (s : State) (i t : Nat) : State :=
  let s : State :=
    { s with joined := t :: s.joined, fault := s.fault || decide (t ∈ s.joined) }
  let s := ((s.close s.gIfd).close s.gPipeR).close s.gPipeW
  { s with gIfd := none, gPipeR := none, gPipeW := none, stops := s.stops.eraseIdx i }

/-- How `select` returns. -/
inductive SelectRet where
  | interrupted
  | failed
  | ready (l : List Fd)
deriving DecidableEq

/-- How `read` returns. -/
inductive ReadRet where
  | interrupted
  | failed
  | events (n : Nat)
deriving DecidableEq

/-- `select` can return so: it fails on a closed descriptor, and says whether the pipe is
ready. -/
def SelectRet.Can (s : State) (ifd pipeR : Fd) : SelectRet → Prop
  | .interrupted => True
  | .failed => True
  | .ready l => s.isOpen ifd = true ∧ s.isOpen pipeR = true ∧ l ≠ []
      ∧ (∀ fd ∈ l, fd = ifd ∨ fd = pipeR) ∧ (pipeR ∈ l ↔ s.written pipeR = true)

instance (s : State) (ifd pipeR : Fd) (ret : SelectRet) : Decidable (ret.Can s ifd pipeR) := by
  unfold SelectRet.Can
  split <;> infer_instance

/-- What follows the `select`: the two tests and the `read`.  A buffer of 4096 bytes holds 256
events at most. -/
def afterSelect (s : State) (t : Nat) (ready : List Fd) (ret : ReadRet) : State :=
  match s.gPipeR with
  | none => s.fail t
  | some r =>
    if r ∈ ready then s.go t .exited
    else
      match s.gIfd with
      | none => s.fail t
      | some ifd =>
        if ifd ∉ ready then s.go t .top
        else if s.isOpen ifd = false then s.go t .exited
        else
          match ret with
          | .interrupted => s.go t .top
          | .failed => s.go t .exited
          | .events n => s.go t (.events (min n 256))

/-- What the loop does with an event.

* `skipped`: it is not in the mask.
* `unknown`: no entry has its watch descriptor, or `strdup` has failed.
* `copied`: the path of the entry is copied. -/
inductive EventRet where
  | skipped
  | unknown
  | copied
deriving DecidableEq

/-! ## Runs -/

inductive Action where
  | start (how : Start) (ifd r w : Fd)
  | stop
  | join (i : Nat)
  | stopEnd (i : Nat)
  | arm (t : Nat)
  | select (t : Nat) (ret : SelectRet)
  | read (t : Nat) (ret : ReadRet)
  | again (t : Nat)
  | event (t : Nat) (ret : EventRet)
  | reload (t : Nat)
  | reloaded (t : Nat)
deriving DecidableEq

/-- One step.  An action that is not possible has none.  Between `reload` and `reloaded` the thread
is in `xy_reload`, which comes back and calls no `xy_watch` function. -/
def step (s : State) : Action → Option State
  | .start how ifd r w =>
    if s.lock = none ∧ s.Free ifd r w then some (xyWatchStart s how ifd r w) else none
  | .stop => if s.lock = none then some (xyWatchStop s) else none
  | .join i =>
    match s.stops[i]?, s.gThread with
    | some .unlocked, some t => some { s with stops := s.stops.set i (.joining t) }
    | _, _ => none
  | .stopEnd i =>
    match s.stops[i]? with
    | some (.joining t) =>
      if s.lock = none ∧ s.watchers[t]? = some .exited then some (xyWatchStopEnd s i t) else none
    | _ => none
  | .arm t =>
    match s.watchers[t]? with
    | some .top =>
      match s.gIfd, s.gPipeR with
      | some ifd, some r => some (s.go t (.selecting ifd r))
      | _, _ => some (s.fail t)
    | _ => none
  | .select t ret =>
    match s.watchers[t]? with
    | some (.selecting ifd r) =>
      if ret.Can s ifd r then
        match ret with
        | .interrupted => some (s.go t .top)
        | .failed => some (s.go t .exited)
        | .ready l => some (s.go t (.selected l))
      else none
    | _ => none
  | .read t ret =>
    match s.watchers[t]? with
    | some (.selected ready) => some (afterSelect s t ready ret)
    | _ => none
  | .again t =>
    match s.watchers[t]? with
    | some (.events 0) => some (s.go t .top)
    | _ => none
  | .event t ret =>
    match s.watchers[t]? with
    | some (.events (n + 1)) =>
      match ret with
      | .skipped => some (s.go t (.events n))
      | .unknown => if s.lock = none then some (s.go t (.events n)) else none
      | .copied => if s.lock = none then some (s.go t (.copied n)) else none
    | _ => none
  | .reload t =>
    match s.watchers[t]? with
    | some (.copied n) =>
      if s.lock = none then some { s.go t (.reloading n) with lock := some t } else none
    | _ => none
  | .reloaded t =>
    match s.watchers[t]? with
    | some (.reloading n) => some { s.go t (.events n) with lock := none }
    | _ => none

def Initial (s : State) : Prop := s = .start

def Next (s : State) (a : Action) (s' : State) : Prop := step s a = some s'

/-- No start comes into a stop that waits for the thread. -/
def Alone (s : State) : Action → Prop
  | .start _ _ _ _ => s.stops = []
  | _ => True

instance (s : State) (a : Action) : Decidable (Alone s a) := by
  unfold Alone
  split <;> infer_instance

/-- The thread has not come to its end. -/
def State.Alive (s : State) (t : Nat) : Prop := ∃ pc, s.watchers[t]? = some pc ∧ pc ≠ .exited

/-- * `one`: one thread at most is alive.
* `held`: what is open is known to the library, so that it can be closed.
* `running`: the descriptors of a watcher that runs are open.
* `stopped`: a watcher that has been stopped leaves no thread and no descriptor behind. -/
structure Tidy (s : State) : Prop where
  sound : s.fault = false
  one : ∀ t u, s.Alive t → s.Alive u → t = u
  held : ∀ fd, s.isOpen fd = true → s.gIfd = some fd ∨ s.gPipeR = some fd ∨ s.gPipeW = some fd
  running : s.gRunning = true → ∃ ifd r w, s.gIfd = some ifd ∧ s.gPipeR = some r
    ∧ s.gPipeW = some w ∧ s.isOpen ifd = true ∧ s.isOpen r = true ∧ s.isOpen w = true
  stopped : s.gRunning = false → s.stops = [] →
    (∀ fd, s.isOpen fd = false) ∧ ∀ t, ¬ s.Alive t

/-! ## The phases -/

/-- What the thread has taken from the variables, and from the buffer. -/
def Pc.On (ifd r : Fd) : Pc → Prop
  | .selecting a b => a = ifd ∧ b = r
  | .selected ready => ∀ fd ∈ ready, fd = ifd ∨ fd = r
  | .events n => n ≤ 256
  | .copied n => n < 256
  | .reloading n => n < 256
  | _ => True

/-- Who holds the lock, if the thread `t` is there. -/
def Pc.holder (t : Nat) : Pc → Option Nat
  | .reloading _ => some t
  | _ => none

/-- The thread that was started last is at `pc`, on the three descriptors that are open, and
those before it have come to their end. -/
structure Live (s : State) (ifd r w : Fd) (ended : List Pc) (pc : Pc) : Prop where
  sound : s.fault = false
  gIfd : s.gIfd = some ifd
  gPipeR : s.gPipeR = some r
  gPipeW : s.gPipeW = some w
  distinct : ifd ≠ r ∧ ifd ≠ w ∧ r ≠ w
  isOpen : ∀ fd, s.isOpen fd = true ↔ fd = ifd ∨ fd = r ∨ fd = w
  watchers : s.watchers = ended ++ [pc]
  exited : ∀ p ∈ ended, p = .exited
  thread : s.gThread = some ended.length
  on : pc.On ifd r
  lock : s.lock = pc.holder ended.length
  joined : ∀ t ∈ s.joined, t < ended.length

/-- No watcher is there. -/
structure Idle (s : State) : Prop where
  sound : s.fault = false
  gIfd : s.gIfd = none
  gPipeR : s.gPipeR = none
  gPipeW : s.gPipeW = none
  gRunning : s.gRunning = false
  stops : s.stops = []
  isOpen : ∀ fd, s.isOpen fd = false
  exited : ∀ p ∈ s.watchers, p = .exited
  lock : s.lock = none
  joined : ∀ t ∈ s.joined, t < s.watchers.length

/-- A stop waits for the watcher. -/
structure Stopping (s : State) (ifd r w : Fd) (ended : List Pc) (pc : Pc) (stop : StopPc) :
    Prop where
  live : Live s ifd r w ended pc
  gRunning : s.gRunning = false
  written : s.written r = true
  stops : s.stops = [stop]
  on : stop = .unlocked ∨ stop = .joining ended.length

inductive Phase (s : State) : Prop
  | idle (h : Idle s)
  | running {ifd r w : Fd} {ended : List Pc} {pc : Pc} (h : Live s ifd r w ended pc)
      (hrun : s.gRunning = true) (hstops : s.stops = [])
  | stopping {ifd r w : Fd} {ended : List Pc} {pc : Pc} {stop : StopPc}
      (h : Stopping s ifd r w ended pc stop)

section

variable {s s' : State} {a : Action} {ifd r w : Fd} {ended : List Pc} {pc pc' p : Pc}
  {stop : StopPc} {t : Nat}

/-- A thread that is not at its end is the last one. -/
theorem Live.eq (h : Live s ifd r w ended pc) (ht : s.watchers[t]? = some p) (hp : p ≠ .exited) :
    t = ended.length ∧ p = pc := by
  rw [h.watchers] at ht
  rcases Nat.lt_trichotomy t ended.length with hlt | rfl | hgt
  · rw [List.getElem?_append_left hlt] at ht
    exact absurd (h.exited p (List.mem_of_getElem? ht)) hp
  · rw [List.getElem?_concat_length] at ht
    exact ⟨rfl, (Option.some.inj ht).symm⟩
  · rw [List.getElem?_eq_none (by rw [List.length_append]; exact hgt)] at ht
    cases ht

theorem Live.getElem? (h : Live s ifd r w ended pc) : s.watchers[ended.length]? = some pc := by
  rw [h.watchers, List.getElem?_concat_length]

/-- The thread has gone on, and may have taken the lock or given it back. -/
def State.gone (s : State) (t : Nat) (pc : Pc) : State :=
  { s.go t pc with lock := pc.holder t }

theorem Live.gone (h : Live s ifd r w ended pc) (hon : pc'.On ifd r) :
    Live (s.gone ended.length pc') ifd r w ended pc' :=
  { h with
    watchers := by
      show s.watchers.set ended.length pc' = _
      rw [h.watchers, List.set_append_right _ _ le_rfl, Nat.sub_self]
      rfl
    on := hon, lock := rfl }

/-- A move that leaves the lock alone. -/
theorem Live.go_eq (h : Live s ifd r w ended pc)
    (hlock : pc.holder ended.length = pc'.holder ended.length) :
    s.go ended.length pc' = s.gone ended.length pc' := by
  unfold State.gone
  rw [← hlock, ← h.lock]
  rfl

/-- The moves that the watcher still makes when a byte is in its pipe. -/
def Pc.work (r : Fd) : Pc → Nat
  | .exited => 0
  | .selected ready => if r ∈ ready then 1 else 773
  | .selecting _ _ => 2
  | .top => 3
  | .events n => 3 * n + 4
  | .reloading n => 3 * n + 5
  | .copied n => 3 * n + 6

/-- The thread that makes the move, if it is a watcher. -/
def Action.thread : Action → Option Nat
  | .start _ _ _ _ | .stop | .join _ | .stopEnd _ => none
  | .arm t | .select t _ | .read t _ | .again t | .event t _ | .reload t | .reloaded t => some t

/-- No new call, and no signal that interrupts the thread. -/
def Action.Goes : Action → Prop
  | .start _ _ _ _ | .stop | .select _ .interrupted | .read _ .interrupted => False
  | _ => True

/-- A move of the watcher from `pc` to `pc'`. -/
structure Turn (s : State) (a : Action) (s' : State) (ifd r : Fd) (ended : List Pc)
    (pc pc' : Pc) : Prop where
  gone : s' = s.gone ended.length pc'
  on : pc'.On ifd r
  less : s.written r = true → a.Goes → pc'.work r < pc.work r

theorem Live.afterSelect {ready : List Fd} {ret : ReadRet}
    (h : Live s ifd r w ended (.selected ready)) :
    ∃ pc', afterSelect s ended.length ready ret = s.gone ended.length pc' ∧ pc'.On ifd r
      ∧ (ret ≠ .interrupted → pc'.work r < Pc.work r (.selected ready)) := by
  have hopen : s.isOpen ifd = true := (h.isOpen ifd).mpr (.inl rfl)
  unfold Threads.afterSelect
  rw [h.gPipeR, h.gIfd]
  by_cases hr : r ∈ ready
  · simp only [hr, if_true]
    exact ⟨.exited, h.go_eq rfl, trivial, fun _ => by simp [Pc.work, hr]⟩
  · by_cases hifd : ifd ∈ ready
    · simp only [hr, hifd, hopen, not_true, if_false, Bool.true_eq_false]
      cases ret with
      | interrupted => exact ⟨.top, h.go_eq rfl, trivial, fun hret => absurd rfl hret⟩
      | failed => exact ⟨.exited, h.go_eq rfl, trivial, fun _ => by simp [Pc.work, hr]⟩
      | events n =>
        have hle : min n 256 ≤ 256 := Nat.min_le_right _ _
        refine ⟨.events (min n 256), h.go_eq rfl, hle, fun _ => ?_⟩
        simp only [Pc.work, hr, if_false]
        omega
    · simp only [hr, hifd, not_false_eq_true, if_true, if_false]
      exact ⟨.top, h.go_eq rfl, trivial, fun _ => by simp [Pc.work, hr]⟩

/-- What a watcher does: the thread that is alive makes a move. -/
theorem Live.turn (h : Live s ifd r w ended pc) (ht : a.thread = some t)
    (hs : step s a = some s') : ∃ pc', Turn s a s' ifd r ended pc pc' := by
  cases a with
  | start | stop | join | stopEnd => cases ht
  | arm t =>
    simp only [step] at hs
    split at hs
    · next htop =>
      obtain ⟨rfl, rfl⟩ := h.eq htop (by rintro ⟨⟩)
      rw [h.gIfd, h.gPipeR] at hs
      cases hs
      exact ⟨.selecting ifd r, h.go_eq rfl, ⟨rfl, rfl⟩, fun _ _ => Nat.lt_succ_self 2⟩
    · cases hs
  | select t ret =>
    simp only [step] at hs
    split at hs
    · next hselecting =>
      obtain ⟨rfl, rfl⟩ := h.eq hselecting (by rintro ⟨⟩)
      obtain ⟨rfl, rfl⟩ := h.on
      split at hs
      · next hcan =>
        cases ret with
        | interrupted =>
          cases hs
          exact ⟨.top, h.go_eq rfl, trivial, fun _ hgoes => absurd hgoes id⟩
        | failed =>
          cases hs
          exact ⟨.exited, h.go_eq rfl, trivial, fun _ _ => Nat.two_pos⟩
        | ready l =>
          cases hs
          obtain ⟨-, -, -, hmem, hwritten⟩ := hcan
          refine ⟨.selected l, h.go_eq rfl, hmem, fun hw _ => ?_⟩
          simp [Pc.work, hwritten.mpr hw]
      · cases hs
    · cases hs
  | read t ret =>
    simp only [step] at hs
    split at hs
    · next ready hselected =>
      obtain ⟨rfl, rfl⟩ := h.eq hselected (by rintro ⟨⟩)
      cases hs
      obtain ⟨pc', hgone, hon, hless⟩ := @Live.afterSelect s ifd r w ended ready ret h
      refine ⟨pc', hgone, hon, fun _ hgoes => hless ?_⟩
      rintro rfl
      exact hgoes
    · cases hs
  | again t =>
    simp only [step] at hs
    split at hs
    · next hevents =>
      obtain ⟨rfl, rfl⟩ := h.eq hevents (by rintro ⟨⟩)
      cases hs
      exact ⟨.top, h.go_eq rfl, trivial, fun _ _ => Nat.lt_succ_self 3⟩
    · cases hs
  | event t ret =>
    simp only [step] at hs
    split at hs
    · next n hevents =>
      obtain ⟨rfl, rfl⟩ := h.eq hevents (by rintro ⟨⟩)
      have hle : n + 1 ≤ 256 := h.on
      split at hs
      · cases hs
        exact ⟨.events n, h.go_eq rfl, Nat.le_of_lt hle, fun _ _ => by
          simp only [Pc.work]
          omega⟩
      · split at hs
        · cases hs
          exact ⟨.events n, h.go_eq rfl, Nat.le_of_lt hle, fun _ _ => by
            simp only [Pc.work]
            omega⟩
        · cases hs
      · split at hs
        · cases hs
          exact ⟨.copied n, h.go_eq rfl, hle, fun _ _ => by
            simp only [Pc.work]
            omega⟩
        · cases hs
    · cases hs
  | reload t =>
    simp only [step] at hs
    split at hs
    · next n hcopied =>
      obtain ⟨rfl, rfl⟩ := h.eq hcopied (by rintro ⟨⟩)
      split at hs
      · cases hs
        exact ⟨.reloading n, rfl, h.on, fun _ _ => Nat.lt_succ_self _⟩
      · cases hs
    · cases hs
  | reloaded t =>
    simp only [step] at hs
    split at hs
    · next n hreloading =>
      obtain ⟨rfl, rfl⟩ := h.eq hreloading (by rintro ⟨⟩)
      cases hs
      exact ⟨.events n, rfl, Nat.le_of_lt h.on, fun _ _ => Nat.lt_succ_self _⟩
    · cases hs

/-! ### The calls -/

theorem Idle.start_ok (h : Idle s) (hfree : s.Free ifd r w) :
    Phase (xyWatchStart s .ok ifd r w) := by
  obtain ⟨hir, hiw, hrw, -⟩ := hfree
  have heq : xyWatchStart s .ok ifd r w =
      { s.opened ifd r w with
        gIfd := some ifd, gPipeR := some r, gPipeW := some w, gRunning := true
        gThread := some s.watchers.length, watchers := s.watchers ++ [.top] } := by
    unfold xyWatchStart
    rw [h.gRunning]
    rfl
  rw [heq]
  refine .running (?_ : Live _ ifd r w s.watchers .top) rfl h.stops
  exact
    { sound := h.sound, gIfd := rfl, gPipeR := rfl, gPipeW := rfl, distinct := ⟨hir, hiw, hrw⟩
      isOpen := fun fd => by simp [State.opened, h.isOpen fd]
      watchers := rfl, exited := h.exited, thread := rfl, on := trivial, lock := h.lock
      joined := h.joined }

theorem Idle.start (h : Idle s) (how : Start) (hfree : s.Free ifd r w) :
    Phase (xyWatchStart s how ifd r w) := by
  have hrun : s.gRunning ≠ true := by
    rw [h.gRunning]
    rintro ⟨⟩
  cases how with
  | ok => exact h.start_ok hfree
  | noFds =>
    unfold xyWatchStart
    rw [if_neg hrun]
    exact .idle { h with gIfd := rfl }
  | noThread =>
    unfold xyWatchStart
    rw [if_neg hrun]
    exact .idle { h with gIfd := rfl, gPipeR := rfl, gPipeW := rfl }

theorem Live.stopping (h : Live s ifd r w ended pc) (hrun : s.gRunning = true) (hstops : s.stops = []) :
    Stopping (xyWatchStop s) ifd r w ended pc .unlocked := by
  have heq : xyWatchStop s =
      { s with
        gRunning := false, written := Function.update s.written r true, stops := [.unlocked] } := by
    simp [xyWatchStop, hrun, h.gPipeR, hstops]
  rw [heq]
  exact ⟨{ h with }, rfl, Function.update_self r true s.written, rfl, .inl rfl⟩

theorem Stopping.eq_zero {i : Nat} {x : StopPc} (h : Stopping s ifd r w ended pc stop)
    (hi : s.stops[i]? = some x) : i = 0 ∧ x = stop := by
  rw [h.stops] at hi
  cases i with
  | zero => exact ⟨rfl, (Option.some.inj hi).symm⟩
  | succ i => cases hi

/-- The stop closes what it has to close, and there it ends. -/
theorem Stopping.idle (h : Stopping s ifd r w ended .exited stop) :
    Idle (xyWatchStopEnd s 0 ended.length) := by
  obtain ⟨hir, hiw, hrw⟩ := h.live.distinct
  have hifd : s.isOpen ifd = true := (h.live.isOpen ifd).mpr (.inl rfl)
  have hr : Function.update s.isOpen ifd false r = true := by
    rw [Function.update_of_ne hir.symm]
    exact (h.live.isOpen r).mpr (.inr (.inl rfl))
  have hw : Function.update (Function.update s.isOpen ifd false) r false w = true := by
    rw [Function.update_of_ne hrw.symm, Function.update_of_ne hiw.symm]
    exact (h.live.isOpen w).mpr (.inr (.inr rfl))
  have hjoined : ended.length ∉ s.joined := fun hmem => Nat.lt_irrefl _ (h.live.joined _ hmem)
  have heq : xyWatchStopEnd s 0 ended.length =
      { s with
        gIfd := none, gPipeR := none, gPipeW := none, joined := ended.length :: s.joined, stops := []
        isOpen := Function.update (Function.update (Function.update s.isOpen ifd false) r false) w
          false } := by
    simp [xyWatchStopEnd, State.close, h.live.gIfd, h.live.gPipeR, h.live.gPipeW, hifd, hr, hw,
      hjoined, h.stops]
  rw [heq]
  exact
    { sound := h.live.sound, gIfd := rfl, gPipeR := rfl, gPipeW := rfl, gRunning := h.gRunning
      stops := rfl
      isOpen := fun fd => by
        have hfd := h.live.isOpen fd
        simp only [Function.update_apply]
        grind
      exited := fun p hp => by
        rw [h.live.watchers] at hp
        rcases List.mem_append.mp hp with hp | hp
        · exact h.live.exited p hp
        · exact List.mem_singleton.mp hp
      lock := h.live.lock
      joined := fun t ht => by
        rw [h.live.watchers, List.length_append]
        rcases List.mem_cons.mp ht with rfl | ht
        · exact Nat.lt_succ_self _
        · exact Nat.lt_succ_of_lt (h.live.joined t ht) }

/-! ### One step -/

/-- Who makes a move is not at its end. -/
theorem awake (ht : a.thread = some t) (hs : step s a = some s') :
    ∃ p, s.watchers[t]? = some p ∧ p ≠ .exited := by
  cases a with
  | start | stop | join | stopEnd => cases ht
  | arm t | select t | read t | again t | event t | reload t | reloaded t =>
    cases ht
    simp only [step] at hs
    split at hs
    · next hp => exact ⟨_, hp, by rintro ⟨⟩⟩
    · cases hs

theorem Stopping.turn (h : Stopping s ifd r w ended pc stop)
    (hturn : Turn s a s' ifd r ended pc pc') : Stopping s' ifd r w ended pc' stop := by
  obtain ⟨rfl, hon, -⟩ := hturn
  exact { h with live := h.live.gone hon }

theorem not_join {i : Nat} (h : s.stops = []) : step s (.join i) = none := by
  simp [step, h]

theorem not_stopEnd {i : Nat} (h : s.stops = []) : step s (.stopEnd i) = none := by
  simp [step, h]

theorem Stopping.join {i : Nat} (h : Stopping s ifd r w ended pc stop)
    (hs : step s (.join i) = some s') :
    stop = .unlocked ∧ Stopping s' ifd r w ended pc (.joining ended.length) := by
  simp only [step] at hs
  split at hs
  · next t hi ht =>
    cases hs
    obtain ⟨rfl, rfl⟩ := h.eq_zero hi
    rw [h.live.thread] at ht
    cases ht
    rw [h.stops]
    exact ⟨rfl, { h.live with }, h.gRunning, h.written, rfl, .inr rfl⟩
  · cases hs

theorem Stopping.stopEnd {i : Nat} (h : Stopping s ifd r w ended pc stop)
    (hs : step s (.stopEnd i) = some s') : Idle s' := by
  simp only [step] at hs
  split at hs
  · next t hi =>
    split at hs
    · next hcan =>
      cases hs
      obtain ⟨rfl, rfl⟩ := h.eq_zero hi
      rcases h.on with hon | hon
      · cases hon
      · cases hon
        have hpc := h.live.getElem?
        rw [hcan.2] at hpc
        cases hpc
        exact h.idle
    · cases hs
  · cases hs

theorem Phase.turn (h : Phase s) (ht : a.thread = some t) (hs : step s a = some s') : Phase s' := by
  cases h with
  | idle h =>
    obtain ⟨p, hp, hne⟩ := awake ht hs
    exact absurd (h.exited p (List.mem_of_getElem? hp)) hne
  | running h hrun hstops =>
    obtain ⟨pc', rfl, hon, -⟩ := h.turn ht hs
    exact .running (h.gone hon) hrun hstops
  | stopping h =>
    obtain ⟨pc', hturn⟩ := h.live.turn ht hs
    exact .stopping (h.turn hturn)

/-- What one step keeps. -/
theorem Phase.step (h : Phase s) (hok : Alone s a) (hs : Threads.step s a = some s') :
    Phase s' := by
  cases a with
  | start how ifd r w =>
    simp only [Threads.step] at hs
    split at hs
    · next hcan =>
      cases hs
      cases h with
      | idle h => exact h.start how hcan.2
      | running h hrun hstops =>
        unfold xyWatchStart
        rw [if_pos hrun]
        exact .running h hrun hstops
      | stopping h =>
        rw [Alone, h.stops] at hok
        cases hok
    · cases hs
  | stop =>
    simp only [Threads.step] at hs
    split at hs
    · cases hs
      cases h with
      | idle h =>
        unfold xyWatchStop
        rw [h.gRunning]
        exact .idle h
      | running h hrun hstops => exact .stopping (h.stopping hrun hstops)
      | stopping h =>
        unfold xyWatchStop
        rw [h.gRunning]
        exact .stopping h
    · cases hs
  | join i =>
    cases h with
    | idle h =>
      rw [not_join h.stops] at hs
      cases hs
    | running h hrun hstops =>
      rw [not_join hstops] at hs
      cases hs
    | stopping h => exact .stopping (h.join hs).2
  | stopEnd i =>
    cases h with
    | idle h =>
      rw [not_stopEnd h.stops] at hs
      cases hs
    | running h hrun hstops =>
      rw [not_stopEnd hstops] at hs
      cases hs
    | stopping h => exact .idle (h.stopEnd hs)
  | arm | select | read | again | event | reload | reloaded => exact h.turn rfl hs

/-- What a run keeps. -/
theorem phase_of_run (h : Run.ReachBy Initial Next Alone s) : Phase s := by
  refine h.invariant ?_ fun s a s' hphase hok hs => hphase.step hok hs
  rintro s rfl
  refine .idle ⟨rfl, rfl, rfl, rfl, rfl, rfl, fun _ => rfl, ?_, rfl, ?_⟩
  · intro p hp
    cases hp
  · intro t ht
    cases ht

theorem Live.one (h : Live s ifd r w ended pc) (ht : s.Alive t) : t = ended.length := by
  obtain ⟨p, hp, hne⟩ := ht
  exact (h.eq hp hne).1

theorem Idle.not_alive (h : Idle s) : ¬ s.Alive t := by
  rintro ⟨p, hp, hne⟩
  exact hne (h.exited p (List.mem_of_getElem? hp))

theorem Live.held (h : Live s ifd r w ended pc) {fd : Fd} (hfd : s.isOpen fd = true) :
    s.gIfd = some fd ∨ s.gPipeR = some fd ∨ s.gPipeW = some fd := by
  rw [h.gIfd, h.gPipeR, h.gPipeW]
  rcases (h.isOpen fd).mp hfd with rfl | rfl | rfl
  · exact .inl rfl
  · exact .inr (.inl rfl)
  · exact .inr (.inr rfl)

/-- As long as no start comes into a stop that waits, the watcher is tidy. -/
theorem Phase.tidy (h : Phase s) : Tidy s := by
  cases h with
  | idle h =>
    refine ⟨h.sound, fun t u ht => absurd ht h.not_alive, fun fd hfd => ?_, fun hrun => ?_,
      fun _ _ => ⟨h.isOpen, fun t => h.not_alive⟩⟩
    · rw [h.isOpen] at hfd
      cases hfd
    · rw [h.gRunning] at hrun
      cases hrun
  | @running ifd r w ended pc h hrun hstops =>
    refine ⟨h.sound, fun t u ht hu => (h.one ht).trans (h.one hu).symm, fun fd => h.held,
      fun _ => ⟨ifd, r, w, h.gIfd, h.gPipeR, h.gPipeW, ?_, ?_, ?_⟩, fun hnot => ?_⟩
    · exact (h.isOpen ifd).mpr (.inl rfl)
    · exact (h.isOpen r).mpr (.inr (.inl rfl))
    · exact (h.isOpen w).mpr (.inr (.inr rfl))
    · rw [hrun] at hnot
      cases hnot
  | stopping h =>
    refine ⟨h.live.sound, fun t u ht hu => (h.live.one ht).trans (h.live.one hu).symm,
      fun fd => h.live.held, fun hrun => ?_, fun _ hstops => ?_⟩
    · rw [h.gRunning] at hrun
      cases hrun
    · rw [h.stops] at hstops
      cases hstops

theorem tidy_of_alone (h : Run.ReachBy Initial Next Alone s) : Tidy s := (phase_of_run h).tidy

/-- The state of a list of actions. -/
def after (l : List Action) : State := Run.follow step Alone .start l

theorem reach_after (l : List Action) : Run.ReachBy Initial Next Alone (after l) := by
  have hstart : Run.ReachBy Initial Next Alone .start := .start rfl
  exact hstart.follow (fun _ _ _ h => h) l

/-- A watcher that has read two events before it is stopped, and is started again afterwards. -/
def restarted : List Action :=
  [.start .ok 3 4 5, .arm 0, .select 0 (.ready [3]), .read 0 (.events 2), .event 0 .copied, .stop,
    .join 0, .reload 0, .reloaded 0, .event 0 .skipped, .again 0, .arm 0, .select 0 (.ready [4]),
    .read 0 .failed, .stopEnd 0, .start .ok 3 4 5]

theorem tidy_of_restarted : (after restarted).watchers = [.exited, .top] ∧ Tidy (after restarted) :=
  ⟨by decide, tidy_of_alone (reach_after restarted)⟩

/-- Where a start comes into a stop, the stop closes the descriptors of the new watcher. -/
def startInside : List Action :=
  [.start .ok 3 4 5, .arm 0, .stop, .select 0 (.ready [4]), .read 0 .failed, .join 0,
    .start .ok 6 7 8, .stopEnd 0]

theorem not_tidy_of_start_inside :
    ∃ s, Run.ReachBy Initial Next (fun _ _ => True) s ∧ s.gRunning = true ∧ s.isOpen 6 = false
      ∧ ¬ Tidy s := by
  have hstart : Run.ReachBy Initial Next (fun _ _ => True) .start := .start rfl
  refine ⟨_, hstart.follow (fun _ _ _ h => h) startInside, by decide, by decide, fun h => ?_⟩
  obtain ⟨ifd, -, -, hifd, -⟩ := h.running (by decide)
  cases hifd

/-! ## A stop comes to its end -/

def StopPc.work : StopPc → Nat
  | .unlocked => 2
  | .joining _ => 1

/-- What is left to do until a stop has returned. -/
def State.work (s : State) : Nat :=
  (s.gPipeR.elim 0 fun r => (s.watchers.map (Pc.work r)).sum) + (s.stops.map StopPc.work).sum

/-- A move of the watcher, or of the stop. -/
def Moves (s s' : State) : Prop := ∃ a : Action, a.Goes ∧ step s a = some s'

/-- No stop waits, and nothing of the watcher is left. -/
structure Stopped (s : State) : Prop where
  stops : s.stops = []
  gRunning : s.gRunning = false
  isOpen : ∀ fd, s.isOpen fd = false
  ended : ∀ t, ¬ s.Alive t

/-- A stop waits, or has returned. -/
inductive Ending (s : State) : Prop
  | stopping {ifd r w : Fd} {ended : List Pc} {pc : Pc} {stop : StopPc}
      (h : Stopping s ifd r w ended pc stop)
  | idle (h : Idle s)

theorem Stopping.work_eq (h : Stopping s ifd r w ended pc stop) :
    s.work = pc.work r + stop.work := by
  have hended : (ended.map (Pc.work r)).sum = 0 := by
    refine List.sum_eq_zero fun n hn => ?_
    obtain ⟨p, hp, rfl⟩ := List.mem_map.mp hn
    rw [h.live.exited p hp]
    rfl
  unfold State.work
  rw [h.live.gPipeR, h.live.watchers, h.stops]
  simp [hended]

theorem Idle.work_eq (h : Idle s) : s.work = 0 := by
  unfold State.work
  rw [h.gPipeR, h.stops]
  rfl

theorem StopPc.work_pos (stop : StopPc) : 0 < stop.work := by
  cases stop with
  | unlocked => exact Nat.two_pos
  | joining => exact Nat.one_pos

/-- One move: the stop goes on waiting, with less to do, or has returned. -/
theorem Stopping.next (h : Stopping s ifd r w ended pc stop) (ha : a.Goes)
    (hs : step s a = some s') : Ending s' ∧ s'.work < s.work := by
  cases a with
  | start | stop => exact absurd ha id
  | join i =>
    obtain ⟨rfl, hnext⟩ := h.join hs
    refine ⟨.stopping hnext, ?_⟩
    rw [hnext.work_eq, h.work_eq]
    exact Nat.lt_succ_self _
  | stopEnd i =>
    have hidle := h.stopEnd hs
    refine ⟨.idle hidle, ?_⟩
    rw [hidle.work_eq, h.work_eq]
    exact Nat.add_pos_right _ stop.work_pos
  | arm | select | read | again | event | reload | reloaded =>
    obtain ⟨pc', hturn⟩ := h.live.turn rfl hs
    have hnext := h.turn hturn
    refine ⟨.stopping hnext, ?_⟩
    rw [hnext.work_eq, h.work_eq]
    exact Nat.add_lt_add_right (hturn.less h.written ha) _

/-- Nothing moves when there is no watcher. -/
theorem Idle.not_moves (h : Idle s) : ¬ Moves s s' := by
  rintro ⟨a, ha, hs⟩
  cases a with
  | start | stop => exact ha
  | join i =>
    rw [not_join h.stops] at hs
    cases hs
  | stopEnd i =>
    rw [not_stopEnd h.stops] at hs
    cases hs
  | arm | select | read | again | event | reload | reloaded =>
    obtain ⟨p, hp, hne⟩ := awake rfl hs
    exact hne (h.exited p (List.mem_of_getElem? hp))

theorem Ending.next (h : Ending s) (hs : Moves s s') : Ending s' ∧ s'.work < s.work := by
  cases h with
  | idle h => exact absurd hs h.not_moves
  | stopping h =>
    obtain ⟨a, ha, hstep⟩ := hs
    exact h.next ha hstep

theorem moves_of (hs : (step s a).isSome = true) (ha : a.Goes) : ∃ s', Moves s s' := by
  obtain ⟨s', hs'⟩ := Option.isSome_iff_exists.mp hs
  exact ⟨s', a, ha, hs'⟩

/-- Someone can move as long as the stop waits: the thread, or the stop once the thread has come
to its end. -/
theorem Stopping.exists_moves (h : Stopping s ifd r w ended pc stop) : ∃ s', Moves s s' := by
  have hpc := h.live.getElem?
  cases pc with
  | top =>
    have harm : (step s (.arm ended.length)).isSome = true := by
      simp [step, hpc, h.live.gIfd, h.live.gPipeR]
    exact moves_of harm trivial
  | selecting ifd' r' =>
    obtain ⟨rfl, rfl⟩ := h.live.on
    have hcan : SelectRet.Can s ifd' r' (.ready [r']) :=
      ⟨(h.live.isOpen ifd').mpr (.inl rfl), (h.live.isOpen r').mpr (.inr (.inl rfl)),
        List.cons_ne_nil _ _, fun fd hfd => .inr (List.mem_singleton.mp hfd),
        fun _ => h.written, fun _ => List.mem_singleton_self r'⟩
    have hselect : (step s (.select ended.length (.ready [r']))).isSome = true := by
      simp [step, hpc, hcan]
    exact moves_of hselect trivial
  | selected ready =>
    have hread : (step s (.read ended.length .failed)).isSome = true := by simp [step, hpc]
    exact moves_of hread trivial
  | events n =>
    cases n with
    | zero =>
      have hagain : (step s (.again ended.length)).isSome = true := by simp [step, hpc]
      exact moves_of hagain trivial
    | succ n =>
      have hevent : (step s (.event ended.length .skipped)).isSome = true := by simp [step, hpc]
      exact moves_of hevent trivial
  | copied n =>
    have hlock : s.lock = none := h.live.lock
    have hreload : (step s (.reload ended.length)).isSome = true := by simp [step, hpc, hlock]
    exact moves_of hreload trivial
  | reloading n =>
    have hreloaded : (step s (.reloaded ended.length)).isSome = true := by simp [step, hpc]
    exact moves_of hreloaded trivial
  | exited =>
    rcases h.on with rfl | rfl
    · have hjoin : (step s (.join 0)).isSome = true := by simp [step, h.stops, h.live.thread]
      exact moves_of hjoin trivial
    · have hlock : s.lock = none := h.live.lock
      have hend : (step s (.stopEnd 0)).isSome = true := by simp [step, h.stops, hpc, hlock]
      exact moves_of hend trivial

theorem Idle.toStopped (h : Idle s) : Stopped s :=
  ⟨h.stops, h.gRunning, h.isOpen, fun _ => h.not_alive⟩

theorem Ending.stopped (h : Ending s) (hend : ∀ s', ¬ Moves s s') : Stopped s := by
  cases h with
  | idle h => exact h.toStopped
  | stopping h =>
    obtain ⟨s', hs⟩ := h.exists_moves
    exact absurd hs (hend s')

theorem Pc.work_le (h : pc.On ifd r) : pc.work r ≤ 773 := by
  cases pc with
  | selected ready =>
    simp only [Pc.work]
    split <;> omega
  | top | selecting | exited => simp [Pc.work]
  | events n | copied n | reloading n =>
    simp only [Pc.On] at h
    simp only [Pc.work]
    omega

theorem Ending.work_le (h : Ending s) : s.work ≤ 775 := by
  cases h with
  | idle h =>
    rw [h.work_eq]
    exact Nat.zero_le _
  | @stopping ifd r w ended pc stop h =>
    have hpc := Pc.work_le h.live.on
    have hstop : stop.work ≤ 2 := by
      cases stop with
      | unlocked => exact le_rfl
      | joining => exact Nat.le_succ 1
    rw [h.work_eq]
    omega

theorem Phase.ending (h : Phase s) (hstops : s.stops ≠ []) : Ending s := by
  cases h with
  | idle h => exact absurd h.stops hstops
  | running h hrun hnone => exact absurd hnone hstops
  | stopping h => exact .stopping h

/-- A stop that waits returns: whatever the order of the moves, there are no more than 775 of
them, and there are some until the stop has returned. -/
theorem stop_returns (h : Run.ReachBy Initial Next Alone s) (hstops : s.stops ≠ []) :
    (∀ n s', Descent.Steps Moves n s s' → n ≤ 775 ∧ ((∀ s'', ¬ Moves s' s'') → Stopped s'))
      ∧ ∃ n s', Descent.Steps Moves n s s' ∧ Stopped s' := by
  have hending := (phase_of_run h).ending hstops
  have hknown : ∀ s s', Ending s → Moves s s' → Ending s' := fun s s' hs hm => (hs.next hm).1
  have hlow : ∀ s s', Ending s → Moves s s' → s'.work < s.work := fun s s' hs hm => (hs.next hm).2
  constructor
  · intro n s' hsteps
    have hle := hsteps.add_le hknown hlow hending
    have hwork := hending.work_le
    exact ⟨by omega, (hsteps.stays hknown hending).stopped⟩
  · obtain ⟨n, s', hsteps, hend⟩ := Descent.exists_end hknown hlow hending
    exact ⟨n, s', hsteps, (hsteps.stays hknown hending).stopped hend⟩

/-- The stop comes while the watcher reloads, with an event still to come. -/
def stopInReload : List Action := restarted.take 8

theorem stop_returns_in_reload : (after stopInReload).lock = some 0
    ∧ ∃ n s', Descent.Steps Moves n (after stopInReload) s' ∧ Stopped s' :=
  ⟨by decide, (stop_returns (reach_after stopInReload) (by decide)).2⟩

end

end Xylem.Watch.Threads
