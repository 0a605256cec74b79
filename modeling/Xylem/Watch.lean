import Mathlib.Data.List.Nodup
import Xylem.Basic
import Xylem.Lib.Run

/-!
# The file watcher

`libxylem-watch.c` keeps an array of paths, each with a descriptor of the inotify
watch on its file, and a thread that reloads the module of a path when its file
has been written.  The array goes by the spelling of a path; inotify goes by the
file, so that two paths of one file get one descriptor.

* `Inotify` is what is assumed of the kernel: one watch for a file, which is never
  refused, a descriptor that no other watch has, and events in the order in which they
  happen, none of which is dropped.  The event on a watched file is that it has been
  written.  `IN_MOVED_TO` goes to the watch of a directory and never to that of a file,
  so the thread gets none.
* The files stay where they are.  A rename over a watched file replaces it, which
  ends its watch without an event, and is not part of the runs.
* `step` is one call of the interface, one event on a file, or one half of a round
  of the thread, which looks up an event under the lock and reloads afterwards.  The
  reload comes back, and calls nothing of this interface.
* `Delivered ok` is the purpose of the watcher, for the runs whose steps meet
  `ok`: after an event on a file, each path of the file that stays watched is
  reloaded before the thread has nothing left to do.
* `Independent` is the invariant of the runs in which no two watched paths name
  one file (`Distinct`), and `delivered_iff` says that these are the runs in which
  the watcher does its work.
-/

namespace Xylem.Watch

abbrev Inode := Nat

/-- `XY_WATCH_MAX`. -/
def xyWatchMax : Nat := 256

/-! ## inotify -/

inductive EventKind where
  | closeWrite
  | movedTo
  | ignored
deriving DecidableEq

structure Event where
  wd : Nat
  kind : EventKind
deriving DecidableEq

/-- An inotify instance: the watches on files, the next descriptor, and the
events that have not been read. -/
structure Inotify where
  watches : List (Inode × Nat)
  next : Nat
  queue : List Event

/-- `inotify_init1`. -/
def Inotify.init : Inotify := { watches := [], next := 1, queue := [] }

/-- `inotify_add_watch`: a file that is watched keeps its descriptor. -/
def Inotify.addWatch (k : Inotify) : Option Inode → Inotify × Option Nat
  | none => (k, none)
  | some i =>
    match k.watches.lookup i with
    | some wd => (k, some wd)
    | none => ({ k with watches := (i, k.next) :: k.watches, next := k.next + 1 }, some k.next)

/-- `inotify_rm_watch`: the watch of the file ends, with an event that says so. -/
def Inotify.rmWatch (k : Inotify) (wd : Nat) : Inotify :=
  if k.watches.any (fun w => w.2 = wd) then
    { k with
      watches := k.watches.filter (fun w => w.2 ≠ wd)
      queue := k.queue ++ [⟨wd, .ignored⟩] }
  else k

/-- A file has been written, and closed. -/
def Inotify.report (k : Inotify) (i : Inode) : Inotify :=
  match k.watches.lookup i with
  | none => k
  | some wd => { k with queue := k.queue ++ [⟨wd, .closeWrite⟩] }

/-- What paths name, by `inode`, for the whole of a run.  A path of `PATH_MAX` bytes names
nothing. -/
structure Files where
  inode : CStr → Option Inode
  pathMax : ∀ p i, inode p = some i → p.bytes.length < 4096

/-! ## The watch set -/

/-- `xy_watch_entry_t`, where `none` is the descriptor -1. -/
structure WatchEntry where
  fname : CStr
  wd : Option Nat
deriving DecidableEq

/-- The variables of the library, and the thread: `ifd` while it runs, and
`fnameCopy` between the two halves of a round.  `reloads` are the calls it has
made to `xy_reload`. -/
structure State where
  entries : List WatchEntry
  ifd : Option Inotify
  fnameCopy : Option CStr
  reloads : List CStr

/-- The path of the file of a module. -/
def soPath (fname : CStr) : CStr where
  bytes := fname.bytes ++ [46, 115, 111]
  nulFree := by
    have h := fname.nulFree
    simp [h]

/-- `make_so_path`, into a buffer of 4096 bytes. -/
def makeSoPath (fname : CStr) : Option CStr :=
  if (soPath fname).bytes.length ≥ 4096 then none else some (soPath fname)

/-- `entry_find`. -/
def entryFind (s : State) (fname : CStr) : Option Nat :=
  s.entries.findIdx? (fun e => e.fname = fname)

/-- `entry_find_by_wd`. -/
def entryFindByWd (s : State) (wd : Nat) : Option Nat :=
  s.entries.findIdx? (fun e => e.wd = some wd)

/-- `entry_rewatch`. -/
def entryRewatch (fs : Files) (s : State) (i : Nat) : State :=
  match s.ifd, s.entries[i]? with
  | some k, some e =>
    match makeSoPath e.fname with
    | none => s
    | some path =>
      { s with
        ifd := some (k.addWatch (fs.inode path)).1
        entries := s.entries.set i { e with wd := (k.addWatch (fs.inode path)).2 } }
  | _, _ => s

/-- How `xy_watch_start` ends. -/
inductive Start where
  | ok
  /-- `inotify_init1` or `pipe` has failed. -/
  | noFds
  /-- `pthread_create` has failed: the descriptors stay in the entries. -/
  | noThread
deriving DecidableEq

/-- `xy_watch_start`. -/
def xyWatchStart (fs : Files) (s : State) (how : Start) : State :=
  if s.ifd.isSome then s
  else
    let started :=
      (List.range s.entries.length).foldl (entryRewatch fs) { s with ifd := some .init }
    match how with
    | .ok => started
    | .noFds => s
    | .noThread => { started with ifd := none }

/-- `xy_watch_stop`, once the thread has come to the end of its round. -/
def xyWatchStop (s : State) : State :=
  if s.ifd.isSome then
    { s with ifd := none, entries := s.entries.map fun e => { e with wd := none } }
  else s

/-- `xy_watch_add`, where `copied` says whether `strdup` succeeds. -/
def xyWatchAdd (fs : Files) (s : State) (fname : CStr) (copied : Bool) : State × Int :=
  if (entryFind s fname).isSome then (s, 0)
  else if s.entries.length ≥ xyWatchMax then (s, -1)
  else if !copied then (s, -1)
  else (entryRewatch fs { s with entries := s.entries ++ [⟨fname, none⟩] } s.entries.length, 0)

/-- `xy_watch_remove`. -/
def xyWatchRemove (s : State) (fname : CStr) : State :=
  match entryFind s fname with
  | none => s
  | some idx =>
    { s with
      ifd := s.ifd.map fun k => ((s.entries[idx]?).bind (·.wd)).elim k k.rmWatch
      entries := s.entries.eraseIdx idx }

/-- The first half of a round of `watcher_thread`: an event is read and looked up,
and the name of its entry is copied, if `strdup` succeeds. -/
def takeEvent (fs : Files) (s : State) (copied : Bool) : Option State :=
  match s.fnameCopy, s.ifd with
  | none, some k =>
    match k.queue with
    | [] => none
    | ev :: rest =>
      let s : State := { s with ifd := some { k with queue := rest } }
      if ev.kind = .ignored then some s
      else
        match entryFindByWd s ev.wd with
        | none => some s
        | some idx =>
          let copy := if copied then (s.entries[idx]?).map (·.fname) else none
          let s := if ev.kind = .movedTo then entryRewatch fs s idx else s
          some { s with fnameCopy := copy }
  | _, _ => none

/-- The second half: `xy_reload`, which comes back. -/
def reload (s : State) : Option State :=
  s.fnameCopy.map fun fname =>
    { s with fnameCopy := none, reloads := s.reloads ++ [fname] }

/-! ## Runs -/

inductive Action where
  | start (how : Start)
  | stop
  | add (fname : CStr) (copied : Bool)
  | remove (fname : CStr)
  | event (i : Inode)
  | take (copied : Bool)
  | reload
deriving DecidableEq

/-- One step.  An action that is not possible has none. -/
def step (fs : Files) (s : State) : Action → Option State
  | .start how => some (xyWatchStart fs s how)
  | .stop => if s.fnameCopy.isSome then none else some (xyWatchStop s)
  | .add fname copied => some (xyWatchAdd fs s fname copied).1
  | .remove fname => some (xyWatchRemove s fname)
  | .event i => some { s with ifd := s.ifd.map (·.report i) }
  | .take copied => takeEvent fs s copied
  | .reload => reload s

def Initial (s : State) : Prop := s = ⟨[], none, none, []⟩

def Next (fs : Files) (s : State) (a : Action) (s' : State) : Prop := step fs s a = some s'

/-- The file of a path. -/
def Files.fileOf (fs : Files) (fname : CStr) : Option Inode := fs.inode (soPath fname)

/-- Each path that is added names a file, and the thread has the memory for a
copy. -/
def Named (fs : Files) (_ : State) : Action → Prop
  | .add fname _ => (fs.fileOf fname).isSome = true
  | .take copied => copied = true
  | _ => True

/-- Besides, a path that is added does not name the file of another watched
path. -/
def Distinct (fs : Files) (s : State) (a : Action) : Prop :=
  Named fs s a ∧ match a with
    | .add fname _ => ∀ e ∈ s.entries, e.fname ≠ fname → fs.fileOf e.fname ≠ fs.fileOf fname
    | _ => True

instance (fs : Files) (s : State) (a : Action) : Decidable (Named fs s a) := by
  unfold Named
  split <;> infer_instance

/-- The thread runs, and has nothing to do. -/
def State.Quiet (s : State) : Prop :=
  s.fnameCopy = none ∧ ∃ k, s.ifd = some k ∧ k.queue = []

/-- The step leaves `fname` watched. -/
def Spares (fname : CStr) (a : Action) : Prop := a ≠ .remove fname ∧ a ≠ .stop

/-- In the runs whose steps meet `ok`: an event on a file of a watched path is
followed by a reload of the path, once the thread has nothing left to do. -/
def Delivered (fs : Files) (ok : State → Action → Prop) : Prop :=
  ∀ s i s₁, Run.ReachBy Initial (Next fs) ok s → s.ifd.isSome = true →
    step fs s (.event i) = some s₁ →
    ∀ e ∈ s.entries, fs.fileOf e.fname = some i →
      ∀ s₂, Run.ReachBy (· = s₁) (Next fs) (fun s a => ok s a ∧ Spares e.fname a) s₂ → s₂.Quiet →
        e.fname ∈ s₂.reloads.drop s₁.reloads.length

/-! ## The kernel -/

/-- The descriptors are all different, and lie below the next one. -/
structure Inotify.Ok (k : Inotify) : Prop where
  nodup : (k.watches.map Prod.snd).Nodup
  lt : ∀ w ∈ k.watches, w.2 < k.next

section

variable {k : Inotify} {i j : Inode} {wd wd' : Nat}

theorem mem_of_lookup {l : List (Inode × Nat)} (h : l.lookup i = some wd) : (i, wd) ∈ l := by
  obtain ⟨l₁, l₂, rfl, -⟩ := List.lookup_eq_some_iff.mp h
  simp

theorem Inotify.Ok.inj (h : k.Ok) (hi : k.watches.lookup i = some wd)
    (hj : k.watches.lookup j = some wd) : i = j :=
  congrArg Prod.fst (List.inj_on_of_nodup_map h.nodup (mem_of_lookup hi) (mem_of_lookup hj) rfl)

/-- A watch that is added does not disturb the others. -/
theorem Inotify.Ok.addWatch (h : k.Ok) (i : Inode) :
    ∃ k' wd, k.addWatch (some i) = (k', some wd) ∧ k'.Ok ∧ k'.watches.lookup i = some wd
      ∧ (∀ j wd', k.watches.lookup j = some wd' → k'.watches.lookup j = some wd')
      ∧ k'.queue = k.queue := by
  cases hi : k.watches.lookup i with
  | some wd => exact ⟨k, wd, by simp [Inotify.addWatch, hi], h, hi, fun _ _ hj => hj, rfl⟩
  | none =>
    refine ⟨{ k with watches := (i, k.next) :: k.watches, next := k.next + 1 }, k.next,
      by simp [Inotify.addWatch, hi], ⟨?_, ?_⟩, ?_, ?_, rfl⟩
    · refine List.nodup_cons.mpr ⟨fun hmem => ?_, h.nodup⟩
      obtain ⟨w, hw, hlast⟩ := List.mem_map.mp hmem
      have hlt := h.lt w hw
      omega
    · intro w hw
      show w.2 < k.next + 1
      rcases List.mem_cons.mp hw with rfl | hw
      · show k.next < k.next + 1
        omega
      · have hlt := h.lt w hw
        omega
    · exact List.lookup_cons_self
    · intro j wd' hj
      have hne : (j == i) = false := by
        rw [beq_eq_false_iff_ne]
        intro heq
        rw [heq, hi] at hj
        cases hj
      show ((i, k.next) :: k.watches).lookup j = some wd'
      rw [List.lookup_cons, hne]
      exact hj

theorem lookup_filter {l : List (Inode × Nat)} (h : l.lookup j = some wd') (hne : wd' ≠ wd) :
    (l.filter fun w => decide (w.2 ≠ wd)).lookup j = some wd' := by
  obtain ⟨l₁, l₂, rfl, hfst⟩ := List.lookup_eq_some_iff.mp h
  refine List.lookup_eq_some_iff.mpr ⟨l₁.filter fun w => decide (w.2 ≠ wd),
    l₂.filter fun w => decide (w.2 ≠ wd), ?_, fun w hw => hfst w (List.mem_filter.mp hw).1⟩
  rw [List.filter_append, List.filter_cons_of_pos (by simpa using hne)]

/-- A watch that ends leaves the others, and the events, where they are. -/
theorem Inotify.Ok.rmWatch (h : k.Ok) (wd : Nat) :
    (k.rmWatch wd).Ok
      ∧ (∀ j wd', k.watches.lookup j = some wd' → wd' ≠ wd →
          (k.rmWatch wd).watches.lookup j = some wd')
      ∧ ∀ ev ∈ k.queue, ev ∈ (k.rmWatch wd).queue := by
  unfold Inotify.rmWatch
  split
  · refine ⟨⟨?_, fun w hw => h.lt w (List.mem_filter.mp hw).1⟩, fun j wd' hj hne => ?_,
      fun ev hev => List.mem_append_left _ hev⟩
    · exact h.nodup.sublist (List.filter_sublist.map _)
    · exact lookup_filter hj hne
  · exact ⟨h, fun j wd' hj _ => hj, fun ev hev => hev⟩

theorem Inotify.report_watches (k : Inotify) (i : Inode) :
    (k.report i).watches = k.watches ∧ (k.report i).next = k.next := by
  unfold Inotify.report
  split <;> exact ⟨rfl, rfl⟩

theorem Inotify.mem_report (k : Inotify) (i : Inode) {ev : Event} (h : ev ∈ k.queue) :
    ev ∈ (k.report i).queue := by
  unfold Inotify.report
  split
  · exact h
  · exact List.mem_append_left _ h

end

/-! ## Independent paths -/

/-- The watch of an entry is the one on its file. -/
def Watched (fs : Files) (k : Inotify) (e : WatchEntry) : Prop :=
  ∃ i wd, fs.fileOf e.fname = some i ∧ e.wd = some wd ∧ k.watches.lookup i = some wd

/-- The paths that are watched. -/
def names (s : State) : List CStr := s.entries.map (·.fname)

/-- Each watched path has a file of its own, and a watch while the thread runs. -/
structure Independent (fs : Files) (s : State) : Prop where
  named : ∀ p ∈ names s, (fs.fileOf p).isSome = true
  distinct : ((names s).map fs.fileOf).Nodup
  watched : ∀ k, s.ifd = some k → k.Ok ∧ ∀ e ∈ s.entries, Watched fs k e

section

variable {fs : Files} {s s' s₀ : State} {k : Inotify} {e e' : WatchEntry} {i : Inode} {idx : Nat}

theorem makeSoPath_of_file {fname : CStr} (h : fs.fileOf fname = some i) :
    makeSoPath fname = some (soPath fname) := by
  have hlt := fs.pathMax _ _ h
  exact if_neg (by omega)

/-- A new descriptor leaves the paths as they are. -/
theorem map_fname_set {l : List WatchEntry} (he : l[idx]? = some e) (wd : Option Nat) :
    (l.set idx { e with wd := wd }).map (·.fname) = l.map (·.fname) := by
  apply List.ext_getElem?
  intro m
  rw [List.getElem?_map, List.getElem?_map]
  by_cases hm : idx = m
  · subst hm
    rw [List.getElem?_set_self (List.getElem?_eq_some_iff.mp he).1, he]
    rfl
  · rw [List.getElem?_set_ne hm]

/-- A watched path is registered again. -/
theorem entryRewatch_spec (fs : Files) (hifd : s.ifd = some k) (hk : k.Ok) (he : s.entries[idx]? = some e)
    (hfile : fs.fileOf e.fname = some i) :
    ∃ k' wd, entryRewatch fs s idx
        = { s with ifd := some k', entries := s.entries.set idx { e with wd := some wd } }
      ∧ k'.Ok ∧ k'.watches.lookup i = some wd
      ∧ (∀ j wd', k.watches.lookup j = some wd' → k'.watches.lookup j = some wd')
      ∧ k'.queue = k.queue := by
  obtain ⟨k', wd, hadd, hok, hi, hothers, hqueue⟩ := hk.addWatch i
  refine ⟨k', wd, ?_, hok, hi, hothers, hqueue⟩
  have hinode : fs.inode (soPath e.fname) = some i := hfile
  unfold entryRewatch
  rw [hifd, he]
  dsimp only
  rw [makeSoPath_of_file hfile]
  dsimp only
  rw [hinode, hadd]

theorem entryRewatch_of_stopped (fs : Files) (idx : Nat) (h : s.ifd = none) : entryRewatch fs s idx = s := by
  unfold entryRewatch
  rw [h]

theorem Watched.later {k' : Inotify} (h : Watched fs k e)
    (hothers : ∀ j wd', k.watches.lookup j = some wd' → k'.watches.lookup j = some wd') :
    Watched fs k' e := by
  obtain ⟨i, wd, hfile, hwd, hi⟩ := h
  exact ⟨i, wd, hfile, hwd, hothers i wd hi⟩

/-- Paths with one file are one entry. -/
theorem Independent.inj (h : Independent fs s) (he : e ∈ s.entries) (he' : e' ∈ s.entries)
    (hfile : fs.fileOf e.fname = fs.fileOf e'.fname) : e = e' := by
  have hnodup := h.distinct
  unfold names at hnodup
  rw [List.map_map] at hnodup
  exact List.inj_on_of_nodup_map hnodup he he' hfile

/-- Entries with one descriptor are one entry. -/
theorem Independent.wd_inj (h : Independent fs s) (hifd : s.ifd = some k) (he : e ∈ s.entries)
    (he' : e' ∈ s.entries) (hwd : e.wd = e'.wd) : e = e' := by
  obtain ⟨hk, hwatched⟩ := h.watched k hifd
  obtain ⟨i, wd, hfile, hwd₁, hi⟩ := hwatched e he
  obtain ⟨j, wd', hfile', hwd₂, hj⟩ := hwatched e' he'
  obtain rfl : wd = wd' := Option.some.inj (hwd₁.symm.trans (hwd.trans hwd₂))
  obtain rfl := hk.inj hi hj
  exact h.inj he he' (hfile.trans hfile'.symm)

/-- The search by descriptor finds the path of the watch. -/
theorem Independent.entryFindByWd (h : Independent fs s) (hifd : s.ifd = some k)
    (he : e ∈ s.entries) {wd : Nat} (hwd : e.wd = some wd) :
    ∃ idx, Watch.entryFindByWd s wd = some idx ∧ s.entries[idx]? = some e := by
  unfold Watch.entryFindByWd
  cases hfind : s.entries.findIdx? fun e => e.wd = some wd with
  | none =>
    rw [List.findIdx?_eq_none_iff] at hfind
    have hno := hfind e he
    simp [hwd] at hno
  | some idx =>
    obtain ⟨hlt, hfound, -⟩ := List.findIdx?_eq_some_iff_getElem.mp hfind
    refine ⟨idx, rfl, ?_⟩
    have hsame : s.entries[idx] = e := by
      refine h.wd_inj hifd (List.getElem_mem hlt) he ?_
      rw [hwd]
      simpa using hfound
    rw [List.getElem?_eq_getElem hlt, hsame]

/-- A path whose watch is in place is not changed by another registration. -/
theorem Independent.entryRewatch (h : Independent fs s) (hifd : s.ifd = some k) (idx : Nat) :
    Watch.entryRewatch fs s idx = s := by
  cases he : s.entries[idx]? with
  | none =>
    unfold Watch.entryRewatch
    rw [hifd, he]
  | some e =>
    obtain ⟨-, hwatched⟩ := h.watched k hifd
    obtain ⟨i, wd, hfile, hwd, hi⟩ := hwatched e (List.mem_of_getElem? he)
    have hinode : fs.inode (soPath e.fname) = some i := hfile
    have hsame : ({ e with wd := some wd } : WatchEntry) = e := by
      rw [← hwd]
    unfold Watch.entryRewatch
    rw [hifd, he]
    dsimp only
    rw [makeSoPath_of_file hfile]
    dsimp only
    rw [hinode]
    simp only [Inotify.addWatch, hi, hsame]
    obtain ⟨hlt, hget⟩ := List.getElem?_eq_some_iff.mp he
    rw [← hget, List.set_getElem_self, ← hifd]

/-! ## Steps -/

/-- `xy_watch_start` goes through the entries, in their order. -/
theorem foldl_entryRewatch (hnamed : ∀ p ∈ names s, (fs.fileOf p).isSome = true) {n : Nat}
    (hn : n ≤ s.entries.length) :
    ∃ k entries, (List.range n).foldl (Watch.entryRewatch fs) { s with ifd := some .init }
        = { s with ifd := some k, entries := entries }
      ∧ k.Ok ∧ entries.map (·.fname) = names s
      ∧ ∀ m < n, ∀ e, entries[m]? = some e → Watched fs k e := by
  induction n with
  | zero =>
    refine ⟨.init, s.entries, rfl, ⟨List.nodup_nil, ?_⟩, rfl, fun m hm => by omega⟩
    intro w hw
    cases hw
  | succ n ih =>
    obtain ⟨k, entries, hfold, hk, hnames, hwatched⟩ := ih (by omega)
    have hlen : n < entries.length := by
      have hlen := congrArg List.length hnames
      simp only [List.length_map, names] at hlen
      omega
    have he : entries[n]? = some entries[n] := List.getElem?_eq_getElem hlen
    obtain ⟨i, hfile⟩ : ∃ i, fs.fileOf entries[n].fname = some i := by
      refine Option.isSome_iff_exists.mp (hnamed _ ?_)
      rw [← hnames]
      exact List.mem_map_of_mem (List.getElem_mem hlen)
    obtain ⟨k', wd, hstep, hk', hi, hothers, -⟩ := entryRewatch_spec fs
      (s := { s with ifd := some k, entries := entries }) rfl hk he hfile
    refine ⟨k', entries.set n { entries[n] with wd := some wd }, ?_, hk', ?_, fun m hm e hme => ?_⟩
    · rw [List.range_succ, List.foldl_append, hfold]
      exact hstep
    · rw [← hnames]
      exact map_fname_set he _
    · by_cases hmn : m = n
      · subst hmn
        rw [List.getElem?_set_self hlen] at hme
        obtain rfl := Option.some.inj hme
        exact ⟨i, wd, hfile, rfl, hi⟩
      · rw [List.getElem?_set_ne (Ne.symm hmn)] at hme
        exact (hwatched m (by omega) e hme).later hothers

/-- Fewer paths, and a watch for each of those left. -/
theorem Independent.of_sublist (h : Independent fs s) (hsub : (names s').Sublist (names s))
    (hwatched : ∀ k, s'.ifd = some k → k.Ok ∧ ∀ e ∈ s'.entries, Watched fs k e) :
    Independent fs s' where
  named p hp := h.named p (hsub.subset hp)
  distinct := h.distinct.sublist (hsub.map _)
  watched := hwatched

/-- The paths decide, while the thread does not run. -/
theorem Independent.of_stopped (h : Independent fs s) (hnames : names s' = names s)
    (hifd : s'.ifd = none) : Independent fs s' := by
  refine h.of_sublist (by rw [hnames]) fun k hk => ?_
  rw [hifd] at hk
  cases hk

theorem Independent.start (h : Independent fs s) (how : Start) :
    Independent fs (xyWatchStart fs s how) := by
  unfold xyWatchStart
  split
  · exact h
  · next hstopped =>
    obtain ⟨k, entries, hfold, hk, hnames, hwatched⟩ := foldl_entryRewatch h.named le_rfl
    dsimp only
    rw [hfold]
    cases how with
    | ok =>
      refine h.of_sublist ?_ fun k' hk' => ?_
      · show (entries.map (·.fname)).Sublist (names s)
        rw [hnames]
      · obtain rfl : k = k' := Option.some.inj hk'
        refine ⟨hk, fun e he => ?_⟩
        obtain ⟨m, hm⟩ := List.mem_iff_getElem?.mp he
        have hlen := congrArg List.length hnames
        have hlt : m < entries.length := (List.getElem?_eq_some_iff.mp hm).1
        simp only [List.length_map, names] at hlen
        exact hwatched m (by omega) e hm
    | noFds => exact h
    | noThread => exact h.of_stopped hnames rfl

theorem Independent.stop (h : Independent fs s) : Independent fs (xyWatchStop s) := by
  unfold xyWatchStop
  split
  · refine h.of_stopped ?_ rfl
    unfold names
    rw [List.map_map]
    rfl
  · exact h

/-- What `xy_watch_add` does. -/
inductive Added (fs : Files) (s : State) (fname : CStr) : State → Prop
  | same : Added fs s fname s
  | stopped (hnew : ∀ e ∈ s.entries, fs.fileOf e.fname ≠ fs.fileOf fname) (hifd : s.ifd = none) :
    Added fs s fname { s with entries := s.entries ++ [⟨fname, none⟩] }
  | running {k k' : Inotify} {i : Inode} {wd : Nat}
      (hnew : ∀ e ∈ s.entries, fs.fileOf e.fname ≠ fs.fileOf fname) (hifd : s.ifd = some k)
      (hi : fs.fileOf fname = some i) (hk : k'.Ok) (hwatch : k'.watches.lookup i = some wd)
      (hothers : ∀ j wd', k.watches.lookup j = some wd' → k'.watches.lookup j = some wd')
      (hqueue : k'.queue = k.queue) :
    Added fs s fname { s with ifd := some k', entries := s.entries ++ [⟨fname, some wd⟩] }

theorem Independent.added (h : Independent fs s) {fname : CStr} {copied : Bool}
    (hok : Distinct fs s (.add fname copied)) :
    Added fs s fname (xyWatchAdd fs s fname copied).1 := by
  obtain ⟨hfile, hothers⟩ := hok
  unfold xyWatchAdd
  split
  · exact .same
  · next hfind =>
    split
    · exact .same
    · split
      · exact .same
      · have hnew : ∀ e ∈ s.entries, fs.fileOf e.fname ≠ fs.fileOf fname := by
          intro e he
          refine hothers e he fun heq => hfind ?_
          unfold entryFind
          rw [List.findIdx?_isSome, List.any_eq_true]
          exact ⟨e, he, by simp [heq]⟩
        have hcases : s.ifd = none ∨ ∃ k, s.ifd = some k := by
          cases s.ifd <;> simp
        rcases hcases with hifd | ⟨k, hifd⟩
        · have hsame := entryRewatch_of_stopped fs s.entries.length
            (s := { s with entries := s.entries ++ [⟨fname, none⟩] }) hifd
          rw [hsame]
          exact .stopped hnew hifd
        · obtain ⟨i, hi⟩ := Option.isSome_iff_exists.mp hfile
          have hlast : (s.entries ++ [⟨fname, none⟩])[s.entries.length]?
              = some (⟨fname, none⟩ : WatchEntry) := by simp
          obtain ⟨k', wd, hstep, hk', hlookup, hkept, hqueue⟩ := entryRewatch_spec fs
            (s := { s with entries := s.entries ++ [⟨fname, none⟩] }) hifd
            (h.watched k hifd).1 hlast hi
          have hset : (s.entries ++ [(⟨fname, none⟩ : WatchEntry)]).set s.entries.length
              ⟨fname, some wd⟩ = s.entries ++ [⟨fname, some wd⟩] := by simp
          rw [hstep]
          dsimp only
          rw [hset]
          exact .running hnew hifd hi hk' hlookup hkept hqueue

/-- One more path, with a file of its own and a watch. -/
theorem Independent.of_append (h : Independent fs s) {e : WatchEntry}
    (hfile : (fs.fileOf e.fname).isSome = true)
    (hnew : ∀ e' ∈ s.entries, fs.fileOf e'.fname ≠ fs.fileOf e.fname)
    (hentries : s'.entries = s.entries ++ [e])
    (hwatched : ∀ k, s'.ifd = some k → k.Ok ∧ ∀ e' ∈ s'.entries, Watched fs k e') :
    Independent fs s' := by
  have hnames : names s' = names s ++ [e.fname] := by
    unfold names
    rw [hentries, List.map_append]
    rfl
  refine ⟨fun p hp => ?_, ?_, hwatched⟩
  · rw [hnames] at hp
    rcases List.mem_append.mp hp with hp | hp
    · exact h.named p hp
    · rw [List.mem_singleton.mp hp]
      exact hfile
  · rw [hnames, List.map_append, List.nodup_append]
    refine ⟨h.distinct, List.nodup_singleton _, fun f hf g hg hfg => ?_⟩
    obtain ⟨p, hp, rfl⟩ := List.mem_map.mp hf
    obtain ⟨e', he', rfl⟩ := List.mem_map.mp hp
    exact hnew e' he' (hfg.trans (List.mem_singleton.mp hg))

theorem Independent.of_added (h : Independent fs s) {fname : CStr}
    (hfile : (fs.fileOf fname).isSome = true) (ha : Added fs s fname s') :
    Independent fs s' := by
  cases ha with
  | same => exact h
  | stopped hnew hifd =>
    refine h.of_append hfile hnew rfl fun k hk => ?_
    rw [show s.ifd = some k from hk] at hifd
    cases hifd
  | @running k k' i wd hnew hifd hi hk hwatch hothers hqueue =>
    refine h.of_append hfile hnew rfl fun k₁ hk₁ => ?_
    obtain rfl : k' = k₁ := Option.some.inj hk₁
    refine ⟨hk, fun e he => ?_⟩
    rcases List.mem_append.mp he with he | he
    · exact ((h.watched k hifd).2 e he).later hothers
    · rw [List.mem_singleton.mp he]
      exact ⟨i, wd, hi, rfl, hwatch⟩

/-- `xy_watch_remove` takes away one entry and, while the thread runs, its
watch. -/
theorem Independent.remove_cases (h : Independent fs s) (fname : CStr) :
    xyWatchRemove s fname = s
      ∨ ∃ idx e, s.entries[idx]? = some e ∧ e.fname = fname
        ∧ (xyWatchRemove s fname).entries = s.entries.eraseIdx idx
        ∧ (xyWatchRemove s fname).fnameCopy = s.fnameCopy
        ∧ (xyWatchRemove s fname).reloads = s.reloads
        ∧ ((s.ifd = none ∧ (xyWatchRemove s fname).ifd = none)
          ∨ ∃ k wd, s.ifd = some k ∧ e.wd = some wd
            ∧ (xyWatchRemove s fname).ifd = some (k.rmWatch wd)) := by
  unfold xyWatchRemove
  cases hfind : entryFind s fname with
  | none => exact Or.inl rfl
  | some idx =>
    unfold entryFind at hfind
    obtain ⟨hlt, hname, -⟩ := List.findIdx?_eq_some_iff_getElem.mp hfind
    have he : s.entries[idx]? = some s.entries[idx] := List.getElem?_eq_getElem hlt
    refine Or.inr ⟨idx, s.entries[idx], he, by simpa using hname, rfl, rfl, rfl, ?_⟩
    cases hifd : s.ifd with
    | none => exact Or.inl ⟨rfl, rfl⟩
    | some k =>
      obtain ⟨i, wd, -, hwd, -⟩ := (h.watched k hifd).2 _ (List.getElem_mem hlt)
      refine Or.inr ⟨k, wd, rfl, hwd, ?_⟩
      simp [he, hwd]

/-- The entries that are left by a removal have other descriptors. -/
theorem Independent.mem_eraseIdx (h : Independent fs s) (he : s.entries[idx]? = some e)
    (he' : e' ∈ s.entries.eraseIdx idx) : e' ∈ s.entries ∧ e' ≠ e := by
  refine ⟨List.mem_of_mem_eraseIdx he', fun heq => ?_⟩
  obtain ⟨m, hm, hmidx⟩ := List.mem_eraseIdx_iff_getElem?.mp he'
  have hnodup : s.entries.Nodup := (h.distinct.of_map _).of_map _
  rw [heq, ← he] at hmidx
  exact hm ((List.getElem?_inj (List.getElem?_eq_some_iff.mp he).1 hnodup).mp hmidx.symm).symm

theorem Independent.remove (h : Independent fs s) (fname : CStr) :
    Independent fs (xyWatchRemove s fname) := by
  rcases h.remove_cases fname with hsame | ⟨idx, e, he, -, hentries, -, -, hifd⟩
  · rw [hsame]
    exact h
  · have hsub : (names (xyWatchRemove s fname)).Sublist (names s) := by
      unfold names
      rw [hentries]
      exact (List.eraseIdx_sublist _ _).map _
    refine h.of_sublist hsub fun k' hk' => ?_
    rcases hifd with ⟨-, hnone⟩ | ⟨k, wd, hk, hwd, hsome⟩
    · rw [hnone] at hk'
      cases hk'
    · obtain rfl : k.rmWatch wd = k' := Option.some.inj (hsome.symm.trans hk')
      obtain ⟨hok, hwatched⟩ := h.watched k hk
      obtain ⟨hok', hkept, -⟩ := hok.rmWatch wd
      refine ⟨hok', fun e' he' => ?_⟩
      rw [hentries] at he'
      obtain ⟨hmem, hne⟩ := h.mem_eraseIdx he he'
      obtain ⟨i, wd', hfile, hwd', hi⟩ := hwatched e' hmem
      refine ⟨i, wd', hfile, hwd', hkept i wd' hi fun heq => hne ?_⟩
      exact h.wd_inj hk hmem (List.mem_of_getElem? he) (by rw [hwd', hwd, heq])

/-- Events do not matter. -/
theorem Independent.queue (h : Independent fs s) (hifd : s.ifd = some k) {k' : Inotify}
    (hwatches : k'.watches = k.watches) (hnext : k'.next = k.next) :
    Independent fs { s with ifd := some k' } where
  named := h.named
  distinct := h.distinct
  watched k₁ hk₁ := by
    obtain rfl : k' = k₁ := Option.some.inj hk₁
    obtain ⟨hok, hwatched⟩ := h.watched k hifd
    refine ⟨⟨?_, ?_⟩, fun e he => (hwatched e he).later fun j wd hj => ?_⟩
    · rw [hwatches]
      exact hok.nodup
    · rw [hwatches, hnext]
      exact hok.lt
    · rw [hwatches]
      exact hj

/-- What a first half of a round does. -/
theorem Independent.take_cases (h : Independent fs s) {copied : Bool}
    (hs : takeEvent fs s copied = some s') :
    s.fnameCopy = none ∧ ∃ k ev rest, s.ifd = some k ∧ k.queue = ev :: rest
      ∧ s'.ifd = some { k with queue := rest } ∧ s'.entries = s.entries ∧ s'.reloads = s.reloads
      ∧ (copied = true → ev.kind ≠ .ignored → ∀ e ∈ s.entries, e.wd = some ev.wd →
          s'.fnameCopy = some e.fname) := by
  unfold takeEvent at hs
  split at hs
  · next k hcopy hifd =>
    split at hs
    · cases hs
    · next ev rest hqueue =>
      have h' : Independent fs { s with ifd := some { k with queue := rest } } :=
        h.queue hifd rfl rfl
      refine ⟨hcopy, k, ev, rest, hifd, hqueue, ?_⟩
      dsimp only at hs
      split at hs
      · next hkind =>
        cases hs
        exact ⟨rfl, rfl, rfl, fun _ hne => absurd hkind hne⟩
      · split at hs
        · next hfind =>
          cases hs
          refine ⟨rfl, rfl, rfl, fun _ _ e he hwd => ?_⟩
          obtain ⟨idx, hidx, -⟩ := h'.entryFindByWd rfl he hwd
          rw [hidx] at hfind
          cases hfind
        · next idx hfind =>
          rw [h'.entryRewatch rfl] at hs
          rw [ite_self] at hs
          cases hs
          refine ⟨rfl, rfl, rfl, fun hcopied _ e he hwd => ?_⟩
          obtain ⟨idx', hidx, hat⟩ := h'.entryFindByWd rfl he hwd
          obtain rfl : idx = idx' := Option.some.inj (hfind.symm.trans hidx)
          show (if copied = true then _ else none) = _
          rw [if_pos hcopied]
          exact congrArg (Option.map (·.fname)) hat
  · cases hs

/-- A step keeps the paths independent. -/
theorem Independent.step (h : Independent fs s) {a : Action} (hok : Distinct fs s a)
    (hs : Watch.step fs s a = some s') : Independent fs s' := by
  cases a with
  | start how =>
    obtain rfl := Option.some.inj hs
    exact h.start how
  | stop =>
    simp only [Watch.step] at hs
    split at hs
    · cases hs
    · obtain rfl := Option.some.inj hs
      exact h.stop
  | add fname copied =>
    obtain rfl := Option.some.inj hs
    exact h.of_added hok.1 (h.added hok)
  | remove fname =>
    obtain rfl := Option.some.inj hs
    exact h.remove fname
  | event i =>
    obtain rfl := Option.some.inj hs
    cases hifd : s.ifd with
    | none => exact h.of_stopped rfl rfl
    | some k =>
      obtain ⟨hwatches, hnext⟩ := k.report_watches i
      exact h.queue hifd hwatches hnext
  | take copied =>
    obtain ⟨-, k, ev, rest, hifd, -, hifd', hentries, -⟩ := h.take_cases hs
    have h' : Independent fs { s with ifd := some { k with queue := rest } } :=
      h.queue hifd rfl rfl
    refine h.of_sublist ?_ fun k₁ hk₁ => ?_
    · unfold names
      rw [hentries]
    · rw [hentries]
      exact h'.watched k₁ (hifd'.symm.trans hk₁)
  | reload =>
    obtain ⟨fname, -, rfl⟩ := Option.map_eq_some_iff.mp hs
    exact ⟨h.named, h.distinct, h.watched⟩

theorem independent_of_run (h : Run.ReachBy Initial (Next fs) (Distinct fs) s) :
    Independent fs s := by
  refine h.invariant (fun s hs => ?_) fun s a s' hind hok hs => hind.step hok hs
  rw [hs]
  refine ⟨fun p hp => ?_, List.nodup_nil, fun k hk => ?_⟩
  · cases hp
  · cases hk

/-! ## Delivery -/

/-- Since the `n`-th reload the path has been reloaded, or is about to be, or an
event on its file is waiting. -/
def Owed (s : State) (e : WatchEntry) (n : Nat) : Prop :=
  e.fname ∈ s.reloads.drop n ∨ s.fnameCopy = some e.fname
    ∨ ∃ k, s.ifd = some k ∧ e ∈ s.entries ∧ ∃ ev ∈ k.queue, ev.kind ≠ .ignored ∧ e.wd = some ev.wd

/-- What holds after an event on the file of a path that stays watched. -/
structure Owing (fs : Files) (e : WatchEntry) (n : Nat) (s : State) : Prop where
  independent : Independent fs s
  running : s.ifd.isSome = true
  le : n ≤ s.reloads.length
  owed : Owed s e n

theorem Owing.step {n : Nat} (h : Owing fs e n s) {a : Action} (hok : Distinct fs s a)
    (hspare : Spares e.fname a) (hs : Watch.step fs s a = some s') : Owing fs e n s' := by
  have hind := h.independent.step hok hs
  obtain ⟨k, hifd⟩ := Option.isSome_iff_exists.mp h.running
  cases a with
  | start how =>
    have hsame : xyWatchStart fs s how = s := if_pos h.running
    obtain rfl : xyWatchStart fs s how = s' := Option.some.inj hs
    rw [hsame]
    exact h
  | stop => exact absurd rfl hspare.2
  | add fname copied =>
    obtain rfl : (xyWatchAdd fs s fname copied).1 = s' := Option.some.inj hs
    have hadded := h.independent.added hok
    generalize (xyWatchAdd fs s fname copied).1 = s' at hadded hind
    cases hadded with
    | same => exact h
    | stopped hnew hnone =>
      rw [hifd] at hnone
      cases hnone
    | @running k₁ k' i wd hnew hifd₁ hi hk hwatch hothers hqueue =>
      refine ⟨hind, rfl, h.le, ?_⟩
      rcases h.owed with hdone | hcopy | ⟨k₂, hifd₂, he, ev, hev, hkind, hwd⟩
      · exact Or.inl hdone
      · exact Or.inr (Or.inl hcopy)
      · obtain rfl : k₁ = k₂ := Option.some.inj (hifd₁.symm.trans hifd₂)
        refine Or.inr (Or.inr ⟨k', rfl, List.mem_append_left _ he, ev, ?_, hkind, hwd⟩)
        rw [hqueue]
        exact hev
  | remove fname =>
    obtain rfl : xyWatchRemove s fname = s' := Option.some.inj hs
    rcases h.independent.remove_cases fname with hsame | ⟨idx, e₀, he₀, hname, hentries, hcopy',
      hreloads, hifd'⟩
    · rw [hsame]
      exact h
    · rcases hifd' with ⟨hnone, -⟩ | ⟨k₁, wd, hifd₁, -, hsome⟩
      · rw [hifd] at hnone
        cases hnone
      · refine ⟨hind, by rw [hsome]; rfl, by rw [hreloads]; exact h.le, ?_⟩
        rcases h.owed with hdone | hcopy | ⟨k₂, hifd₂, he, ev, hev, hkind, hwd⟩
        · refine Or.inl ?_
          rw [hreloads]
          exact hdone
        · exact Or.inr (Or.inl (hcopy'.trans hcopy))
        · obtain rfl : k₁ = k₂ := Option.some.inj (hifd₁.symm.trans hifd₂)
          have hstays : e ∈ s.entries.eraseIdx idx := by
            obtain ⟨m, hm⟩ := List.mem_iff_getElem?.mp he
            refine List.mem_eraseIdx_iff_getElem?.mpr ⟨m, fun heq => ?_, hm⟩
            rw [heq, he₀] at hm
            obtain rfl := Option.some.inj hm
            exact hspare.1 (by rw [hname])
          refine Or.inr (Or.inr ⟨_, hsome, by rw [hentries]; exact hstays, ev, ?_, hkind, hwd⟩)
          exact ((h.independent.watched k₁ hifd₁).1.rmWatch wd).2.2 ev hev
  | event i =>
    obtain rfl := Option.some.inj hs
    refine ⟨hind, by simp [hifd], h.le, ?_⟩
    rcases h.owed with hdone | hcopy | ⟨k₂, hifd₂, he, ev, hev, hkind, hwd⟩
    · exact Or.inl hdone
    · exact Or.inr (Or.inl hcopy)
    · refine Or.inr (Or.inr ⟨_, congrArg (Option.map _) hifd₂, he, ev, ?_, hkind, hwd⟩)
      exact k₂.mem_report i hev
  | take copied =>
    obtain ⟨hnone, k₁, ev₁, rest, hifd₁, hqueue, hifd', hentries, hreloads, hcopy'⟩ :=
      h.independent.take_cases hs
    refine ⟨hind, by rw [hifd']; rfl, by rw [hreloads]; exact h.le, ?_⟩
    rcases h.owed with hdone | hcopy | ⟨k₂, hifd₂, he, ev, hev, hkind, hwd⟩
    · refine Or.inl ?_
      rw [hreloads]
      exact hdone
    · rw [hnone] at hcopy
      cases hcopy
    · obtain rfl : k₁ = k₂ := Option.some.inj (hifd₁.symm.trans hifd₂)
      rw [hqueue] at hev
      rcases List.mem_cons.mp hev with rfl | hev
      · exact Or.inr (Or.inl (hcopy' hok.1 hkind e he hwd))
      · refine Or.inr (Or.inr ⟨_, hifd', by rw [hentries]; exact he, ev, hev, hkind, hwd⟩)
  | reload =>
    obtain ⟨fname, hfname, rfl⟩ := Option.map_eq_some_iff.mp hs
    have hle := h.le
    refine ⟨hind, h.running, by simp; omega, ?_⟩
    have hdrop : (s.reloads ++ [fname]).drop n = s.reloads.drop n ++ [fname] :=
      List.drop_append_of_le_length hle
    rcases h.owed with hdone | hcopy | hevent
    · refine Or.inl ?_
      rw [hdrop]
      exact List.mem_append_left _ hdone
    · refine Or.inl ?_
      obtain rfl := Option.some.inj (hfname.symm.trans hcopy)
      rw [hdrop]
      exact List.mem_append_right _ List.mem_cons_self
    · exact Or.inr (Or.inr hevent)

/-- The event is queued for the entry whose file it is about. -/
theorem Independent.owing (h : Independent fs s) (hrun : s.ifd.isSome = true)
    (hs : Watch.step fs s (.event i) = some s') (he : e ∈ s.entries)
    (hfile : fs.fileOf e.fname = some i) : Owing fs e s'.reloads.length s' := by
  have hok : Distinct fs s (.event i) := ⟨trivial, trivial⟩
  have hind := h.step hok hs
  obtain ⟨k, hifd⟩ := Option.isSome_iff_exists.mp hrun
  obtain ⟨j, wd, hfile', hwd, hlookup⟩ := (h.watched k hifd).2 e he
  obtain rfl : j = i := Option.some.inj (hfile'.symm.trans hfile)
  obtain rfl := Option.some.inj hs
  refine ⟨hind, by simp [hifd], le_rfl, Or.inr (Or.inr ⟨_, congrArg (Option.map _) hifd, he, ?_⟩)⟩
  refine ⟨⟨wd, .closeWrite⟩, ?_, by rintro ⟨⟩, hwd⟩
  simp [Inotify.report, hlookup]

/-- In the runs in which no two watched paths name one file, every event on the
file of a path that stays watched leads to a reload of the path. -/
theorem delivered_of_distinct (fs : Files) : Delivered fs (Distinct fs) := by
  intro s i s₁ hr hrun hs e he hfile s₂ hr₂ hquiet
  have howing := (independent_of_run hr).owing hrun hs he hfile
  have hend : Owing fs e s₁.reloads.length s₂ := by
    refine hr₂.invariant (fun s hs => ?_) fun s a s' h hok hs => h.step hok.1 hok.2 hs
    rw [hs]
    exact howing
  obtain ⟨hcopy, k, hifd, hqueue⟩ := hquiet
  rcases hend.owed with hdone | hpending | ⟨k', hifd', -, ev, hev, -⟩
  · exact hdone
  · rw [hcopy] at hpending
    cases hpending
  · obtain rfl : k = k' := Option.some.inj (hifd.symm.trans hifd')
    rw [hqueue] at hev
    cases hev

/-! ## Rounds of the thread -/

theorem Inotify.addWatch_queue (k : Inotify) (o : Option Inode) :
    (k.addWatch o).1.queue = k.queue := by
  unfold Inotify.addWatch
  split
  · rfl
  · split <;> rfl

theorem entryRewatch_queue (fs : Files) (idx : Nat) (hifd : s.ifd = some k) :
    ∃ k', (Watch.entryRewatch fs s idx).ifd = some k' ∧ k'.queue = k.queue := by
  unfold Watch.entryRewatch
  rw [hifd]
  split
  · next k₁ e hk₁ he =>
    obtain rfl := Option.some.inj hk₁
    split
    · exact ⟨k, hifd, rfl⟩
    · exact ⟨_, rfl, k.addWatch_queue _⟩
  · exact ⟨k, hifd, rfl⟩

/-- The thread reads the first event, whatever it is about. -/
theorem exists_take (fs : Files) {ev : Event} {rest : List Event} (hcopy : s.fnameCopy = none)
    (hifd : s.ifd = some k) (hqueue : k.queue = ev :: rest) :
    ∃ s' k', takeEvent fs s true = some s' ∧ s'.ifd = some k' ∧ k'.queue = rest := by
  unfold takeEvent
  rw [hcopy, hifd]
  dsimp only
  rw [hqueue]
  dsimp only
  split
  · exact ⟨_, _, rfl, rfl, rfl⟩
  · split
    · exact ⟨_, _, rfl, rfl, rfl⟩
    · next idx hfind =>
      split
      · obtain ⟨k', hk', hrest⟩ := entryRewatch_queue fs idx
          (s := { s with ifd := some { k with queue := rest }, fnameCopy := none }) rfl
        exact ⟨_, k', rfl, hk', hrest⟩
      · exact ⟨_, _, rfl, rfl, rfl⟩

/-- A step of the thread. -/
def OfThread (a : Action) : Prop := a = .take true ∨ a = .reload

/-- The second half of a round is always possible. -/
theorem exists_idle (hifd : s.ifd = some k)
    (hr : Run.ReachBy (· = s₀) (Next fs) (fun _ a => OfThread a) s) :
    ∃ s', Run.ReachBy (· = s₀) (Next fs) (fun _ a => OfThread a) s' ∧ s'.fnameCopy = none
      ∧ s'.ifd = some k := by
  cases hcopy : s.fnameCopy with
  | none => exact ⟨s, hr, hcopy, hifd⟩
  | some fname =>
    refine ⟨{ s with fnameCopy := none, reloads := s.reloads ++ [fname] },
      hr.step (a := .reload) (Or.inr rfl) ?_, rfl, hifd⟩
    show reload s = _
    unfold reload
    rw [hcopy]
    rfl

/-- The thread comes to an end with what it has to do. -/
theorem exists_quiet (hrun : s.ifd.isSome = true) :
    ∃ s', Run.ReachBy (· = s) (Next fs) (fun _ a => OfThread a) s' ∧ s'.Quiet := by
  have hrounds : ∀ queue s₁ k, Run.ReachBy (· = s) (Next fs) (fun _ a => OfThread a) s₁ →
      s₁.ifd = some k → k.queue = queue →
      ∃ s', Run.ReachBy (· = s) (Next fs) (fun _ a => OfThread a) s' ∧ s'.Quiet := by
    intro queue
    induction queue with
    | nil =>
      intro s₁ k hr hifd hqueue
      obtain ⟨s₂, hr₂, hcopy, hifd₂⟩ := exists_idle hifd hr
      exact ⟨s₂, hr₂, hcopy, k, hifd₂, hqueue⟩
    | cons ev rest ih =>
      intro s₁ k hr hifd hqueue
      obtain ⟨s₂, hr₂, hcopy, hifd₂⟩ := exists_idle hifd hr
      obtain ⟨s₃, k', htake, hifd₃, hrest⟩ := exists_take fs hcopy hifd₂ hqueue
      exact ih s₃ k' (hr₂.step (a := .take true) (Or.inl rfl) htake) hifd₃ hrest
  obtain ⟨k, hifd⟩ := Option.isSome_iff_exists.mp hrun
  exact hrounds k.queue s k (.start rfl) hifd rfl

/-! ## Two paths of one file -/

/-- No two paths name one file. -/
def NoAliases (fs : Files) : Prop :=
  ∀ p q i, fs.fileOf p = some i → fs.fileOf q = some i → p = q

theorem NoAliases.distinct (h : NoAliases fs) (s : State) (a : Action) (hok : Named fs s a) :
    Distinct fs s a := by
  refine ⟨hok, ?_⟩
  cases a with
  | add fname copied =>
    intro e he hne heq
    obtain ⟨i, hi⟩ := Option.isSome_iff_exists.mp hok
    exact hne (h _ _ i (heq.trans hi) hi)
  | _ => trivial

/-- Two paths of one file have one descriptor. -/
theorem start_of_alias {p q : CStr} (hp : fs.fileOf p = some i) (hq : fs.fileOf q = some i) :
    xyWatchStart fs ⟨[⟨q, none⟩, ⟨p, none⟩], none, none, []⟩ .ok
      = ⟨[⟨q, some 1⟩, ⟨p, some 1⟩], some ⟨[(i, 1)], 2, []⟩, none, []⟩ := by
  have hinode : fs.inode (soPath p) = some i := hp
  have hinode' : fs.inode (soPath q) = some i := hq
  have hlen : (List.range 2).foldl (Watch.entryRewatch fs)
        ⟨[⟨q, none⟩, ⟨p, none⟩], some .init, none, []⟩
      = Watch.entryRewatch fs (Watch.entryRewatch fs
        ⟨[⟨q, none⟩, ⟨p, none⟩], some .init, none, []⟩ 0) 1 := rfl
  have hfirst : Watch.entryRewatch fs ⟨[⟨q, none⟩, ⟨p, none⟩], some .init, none, []⟩ 0
      = ⟨[⟨q, some 1⟩, ⟨p, none⟩], some ⟨[(i, 1)], 2, []⟩, none, []⟩ := by
    simp [Watch.entryRewatch, makeSoPath_of_file hq, hinode', Inotify.addWatch, Inotify.init]
  have hsecond : Watch.entryRewatch fs ⟨[⟨q, some 1⟩, ⟨p, none⟩], some ⟨[(i, 1)], 2, []⟩, none, []⟩ 1
      = ⟨[⟨q, some 1⟩, ⟨p, some 1⟩], some ⟨[(i, 1)], 2, []⟩, none, []⟩ := by
    simp [Watch.entryRewatch, makeSoPath_of_file hp, hinode, Inotify.addWatch]
  show (List.range 2).foldl (Watch.entryRewatch fs) _ = _
  rw [hlen, hfirst, hsecond]

/-- The watch of the file has gone with one of the two paths, though the other is
still there. -/
theorem reachBy_of_alias {p q : CStr} (hne : p ≠ q) (hp : fs.fileOf p = some i)
    (hq : fs.fileOf q = some i) :
    Run.ReachBy Initial (Next fs) (Named fs) ⟨[⟨p, some 1⟩], some ⟨[], 2, []⟩, none, []⟩ := by
  have hempty : Run.ReachBy Initial (Next fs) (Named fs) ⟨[], none, none, []⟩ := .start rfl
  have hone : Run.ReachBy Initial (Next fs) (Named fs) ⟨[⟨q, none⟩], none, none, []⟩ := by
    refine hempty.step (a := .add q true) (by simp [Named, hq]) ?_
    simp [Next, Watch.step, xyWatchAdd, entryFind, xyWatchMax, Watch.entryRewatch]
  have htwo : Run.ReachBy Initial (Next fs) (Named fs)
      ⟨[⟨q, none⟩, ⟨p, none⟩], none, none, []⟩ := by
    refine hone.step (a := .add p true) (by simp [Named, hp]) ?_
    simp [Next, Watch.step, xyWatchAdd, entryFind, xyWatchMax, Watch.entryRewatch, hne.symm]
  have hstarted : Run.ReachBy Initial (Next fs) (Named fs)
      ⟨[⟨q, some 1⟩, ⟨p, some 1⟩], some ⟨[(i, 1)], 2, []⟩, none, []⟩ :=
    htwo.step (a := .start .ok) trivial (congrArg some (start_of_alias hp hq))
  have hremoved : Run.ReachBy Initial (Next fs) (Named fs)
      ⟨[⟨p, some 1⟩], some ⟨[], 2, [⟨1, .ignored⟩]⟩, none, []⟩ := by
    refine hstarted.step (a := .remove q) trivial ?_
    simp [Next, Watch.step, xyWatchRemove, entryFind, List.findIdx?_cons, Inotify.rmWatch]
  exact hremoved.step (a := .take true) rfl rfl

/-- Where two paths name one file, there is a run in which an event on the file of
a watched path is lost. -/
theorem not_delivered_of_alias {p q : CStr} (hne : p ≠ q) (hp : fs.fileOf p = some i)
    (hq : fs.fileOf q = some i) : ¬ Delivered fs (Named fs) := by
  intro h
  have hlost := h _ i _ (reachBy_of_alias hne hp hq) rfl rfl ⟨p, some 1⟩
    List.mem_cons_self hp _ (.start rfl) ⟨rfl, _, rfl, rfl⟩
  cases hlost

/-- The thread always comes to an end with what it has to do; the watcher does its
work in the runs in which no two watched paths name one file; and it does so in all
runs if and only if no file has two paths. -/
theorem delivered_iff (fs : Files) :
    (∀ s : State, s.ifd.isSome = true →
        ∃ s', Run.ReachBy (· = s) (Next fs) (fun _ a => OfThread a) s' ∧ s'.Quiet)
      ∧ Delivered fs (Distinct fs)
      ∧ (Delivered fs (Named fs) ↔ NoAliases fs) := by
  refine ⟨fun s hrun => exists_quiet hrun, delivered_of_distinct fs, fun h p q i hp hq => ?_,
    fun h => ?_⟩
  · by_contra hne
    exact not_delivered_of_alias hne hp hq h
  · intro s i s₁ hr hrun hs e he hfile s₂ hr₂
    refine delivered_of_distinct fs s i s₁ (hr.mono h.distinct) hrun hs e he hfile s₂ ?_
    exact hr₂.mono fun s a hok => ⟨h.distinct s a hok.1, hok.2⟩

/-- The paths `m` and `./m`. -/
def pathM : CStr := ⟨[109], by decide⟩
def pathDotM : CStr := ⟨[46, 47, 109], by decide⟩

/-- One file, in the working directory. -/
def oneFile : Files where
  inode p := if p = soPath pathM ∨ p = soPath pathDotM then some 7 else none
  pathMax p i h := by
    split at h
    · next hp =>
      rcases hp with rfl | rfl <;> decide
    · cases h

/-- Both paths are watched, and the file is written. -/
def sharedRun : State :=
  Run.follow (Watch.step oneFile) (Named oneFile) ⟨[], none, none, []⟩
    [.start .ok, .add pathM true, .add pathDotM true, .event 7, .take true, .reload]

/-- After `m` has been removed an event on the file does not lead to a reload of
`./m`; and while both are watched it leads to a reload of one of them. -/
theorem reload_lost_of_two_names :
    ¬ Delivered oneFile (Named oneFile)
      ∧ sharedRun.Quiet ∧ names sharedRun = [pathM, pathDotM] ∧ sharedRun.reloads = [pathM] := by
  refine ⟨?_, ⟨by decide +kernel, ⟨[(7, 1)], 2, []⟩, by rfl, by rfl⟩, by decide +kernel,
    by decide +kernel⟩
  exact not_delivered_of_alias (p := pathDotM) (q := pathM) (i := 7) (by decide) (by decide)
    (by decide)

end

end Xylem.Watch
