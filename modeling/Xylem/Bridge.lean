import Mathlib.Data.List.Basic
import Mathlib.Logic.Function.Basic
import Xylem.Lib.Custody
import Xylem.Lib.Run

/-!
# The modules of the browser bridge

Under WebAssembly the host loads a module through `wasm_xy_load_module` of the bridge, which is
asynchronous: it waits for the response, its bytes, the compiler and the instance, and other calls
come in between.  The bridge knows an instance by the name of its module.  `xy_uninstall` runs
inside `wasm_xy_unload_module`, before the name is deleted, and may call the bridge itself.

* `owned_of_calm`: an instance has one name at most, and its `xy_uninstall` is called once at most,
  as long as no `xy_uninstall` unloads its own module.
* `full_of_spaced`: if moreover no load of a name comes while another one is on its way, and the
  bridge is not destroyed, each instance that has been installed is known or has been uninstalled.
* `not_full_of_two_loads`: two loads of one name leave an instance behind that nobody can unload.

The return codes are left out, and so is the difference between an instance that exports
`xy_install` or `xy_uninstall` and one that does not.
-/

namespace Xylem.Bridge

/-- What a load waits for. -/
inductive Await where
  | fetch
  | arrayBuffer
  | compile
  | instantiate
deriving DecidableEq

structure Load where
  name : String
  await : Await
deriving DecidableEq

/-- `instances` counts the instances that have been installed, `uninstalled` lists those whose
`xy_uninstall` has been called, and `unloading` the names that are still to be deleted, the
innermost call first. -/
structure State where
  loadedModules : String → Option Nat
  loads : List Load
  unloading : List String
  instances : Nat
  uninstalled : List Nat

def State.start : State := ⟨fun _ => none, [], [], 0, []⟩

/-- `wasm_xy_load_module`, up to its first `await`. -/
def wasmXyLoadModule (s : State) (memory : Bool) (name : String) : State :=
  if memory = false then s
  else if (s.loadedModules name).isSome then s
  else { s with loads := s.loads ++ [⟨name, .fetch⟩] }

/-- What comes after an `await`, which has succeeded or thrown (or the response is not `ok`). -/
def resume (s : State) (i : Nat) (l : Load) (ok : Bool) : State :=
  if ok = false then { s with loads := s.loads.eraseIdx i }
  else
    match l.await with
    | .fetch => { s with loads := s.loads.set i { l with await := .arrayBuffer } }
    | .arrayBuffer => { s with loads := s.loads.set i { l with await := .compile } }
    | .compile => { s with loads := s.loads.set i { l with await := .instantiate } }
    | .instantiate =>
      { s with
        loadedModules := Function.update s.loadedModules l.name (some s.instances)
        loads := s.loads.eraseIdx i
        instances := s.instances + 1 }

/-- `wasm_xy_unload_module`, up to the call of `xy_uninstall`. -/
def wasmXyUnloadModule (s : State) (memory : Bool) (name : String) : State :=
  if memory = false then s
  else
    match s.loadedModules name with
    | none => s
    | some m => { s with unloading := name :: s.unloading, uninstalled := m :: s.uninstalled }

/-- The rest of `wasm_xy_unload_module`, whether `xy_uninstall` has thrown or not. -/
def unloaded (s : State) (name : String) (rest : List String) : State :=
  { s with loadedModules := Function.update s.loadedModules name none, unloading := rest }

def destroy (s : State) : State := { s with loadedModules := fun _ => none }

/-! ## Runs -/

inductive Action where
  | load (memory : Bool) (name : String)
  | resume (i : Nat) (ok : Bool)
  | unload (memory : Bool) (name : String)
  | unloaded
  | destroy
deriving DecidableEq

/-- A load does not go on while a call is on the stack. -/
def step (s : State) : Action → Option State
  | .load memory name => some (wasmXyLoadModule s memory name)
  | .resume i ok =>
    if s.unloading = [] then (s.loads[i]?).map fun l => resume s i l ok else none
  | .unload memory name => some (wasmXyUnloadModule s memory name)
  | .unloaded =>
    match s.unloading with
    | [] => none
    | name :: rest => some (unloaded s name rest)
  | .destroy => some (destroy s)

def Initial (s : State) : Prop := s = .start

def Next (s : State) (a : Action) (s' : State) : Prop := step s a = some s'

/-- No `xy_uninstall` unloads its own module. -/
def Calm (s : State) : Action → Prop
  | .unload _ name => name ∉ s.unloading
  | _ => True

/-- Moreover no load of a name comes while one is on its way, and the bridge is not destroyed. -/
def Spaced (s : State) : Action → Prop
  | .load _ name => ∀ l ∈ s.loads, l.name ≠ name
  | .unload _ name => name ∉ s.unloading
  | .destroy => False
  | _ => True

instance (s : State) (a : Action) : Decidable (Calm s a) := by
  unfold Calm
  split <;> infer_instance

instance (s : State) (a : Action) : Decidable (Spaced s a) := by
  unfold Spaced
  split <;> infer_instance

/-- The bridge knows the instance by this name, and is not unloading it. -/
def State.Knows (s : State) (name : String) (m : Nat) : Prop :=
  s.loadedModules name = some m ∧ name ∉ s.unloading

variable {s s' : State} {a : Action} {name : String} {i : Nat} {l : Load} {ok memory : Bool}

theorem Spaced.calm (h : Spaced s a) : Calm s a := by
  cases a with
  | unload memory name => exact h
  | load memory name => exact trivial
  | resume i ok => exact trivial
  | unloaded => exact trivial
  | destroy => exact trivial

/-! ## One step -/

/-- What a step does to the instances: nothing, or it installs one, or uninstalls one, or forgets
them all. -/
inductive Changes (s : State) (a : Action) (s' : State) : Prop
  | keep (hk : s'.Knows = s.Knows) (hi : s'.instances = s.instances)
      (hu : s'.uninstalled = s.uninstalled)
  | install (l : Load) (hl : l ∈ s.loads) (hknows : s'.Knows l.name s.instances)
      (hother : ∀ e b, e ≠ l.name → (s'.Knows e b ↔ s.Knows e b))
      (hi : s'.instances = s.instances + 1) (hu : s'.uninstalled = s.uninstalled)
  | uninstall (name : String) (m : Nat) (hm : s.Knows name m) (hgone : ∀ b, ¬ s'.Knows name b)
      (hother : ∀ e b, e ≠ name → (s'.Knows e b ↔ s.Knows e b))
      (hi : s'.instances = s.instances) (hu : s'.uninstalled = m :: s.uninstalled)
  | forget (ha : a = .destroy) (hnone : ∀ e b, ¬ s'.Knows e b) (hi : s'.instances = s.instances)
      (hu : s'.uninstalled = s.uninstalled)

theorem changes_load : Changes s a (wasmXyLoadModule s memory name) := by
  unfold wasmXyLoadModule
  split
  · exact .keep rfl rfl rfl
  · split
    · exact .keep rfl rfl rfl
    · exact .keep rfl rfl rfl

theorem changes_resume (hl : s.loads[i]? = some l) (hnil : s.unloading = []) :
    Changes s a (resume s i l ok) := by
  unfold resume
  split
  · exact .keep rfl rfl rfl
  · split
    · exact .keep rfl rfl rfl
    · exact .keep rfl rfl rfl
    · exact .keep rfl rfl rfl
    · refine .install l (List.mem_of_getElem? hl) ⟨Function.update_self .., ?_⟩ (fun e b he => ?_)
        rfl rfl
      · show l.name ∉ s.unloading
        rw [hnil]
        exact List.not_mem_nil
      · show Function.update s.loadedModules l.name _ e = some b ∧ e ∉ s.unloading ↔ _
        rw [Function.update_of_ne he]
        exact Iff.rfl

theorem changes_unload (hok : name ∉ s.unloading) :
    Changes s a (wasmXyUnloadModule s memory name) := by
  unfold wasmXyUnloadModule
  split
  · exact .keep rfl rfl rfl
  · split
    · exact .keep rfl rfl rfl
    · next m hm =>
      refine .uninstall name m ⟨hm, hok⟩ (fun b hb => ?_) (fun e b he => ?_) rfl rfl
      · exact hb.2 List.mem_cons_self
      · show s.loadedModules e = some b ∧ e ∉ name :: s.unloading ↔ _
        rw [List.mem_cons, or_iff_right he]
        exact Iff.rfl

/-- The name that is deleted was not known any more. -/
theorem knows_unloaded {rest : List String} (h : s.unloading = name :: rest) :
    (unloaded s name rest).Knows = s.Knows := by
  funext e b
  show (Function.update s.loadedModules name none e = some b ∧ e ∉ rest)
    = (s.loadedModules e = some b ∧ e ∉ s.unloading)
  rw [h, List.mem_cons, not_or]
  by_cases he : e = name
  · simp [he]
  · simp [he, Function.update_of_ne]

theorem Next.of_resume (h : Next s (.resume i ok) s') :
    s.unloading = [] ∧ ∃ l, s.loads[i]? = some l ∧ s' = resume s i l ok := by
  simp only [Next, step] at h
  split at h
  · next hnil =>
    obtain ⟨l, hl, rfl⟩ := Option.map_eq_some_iff.mp h
    exact ⟨hnil, l, hl, rfl⟩
  · cases h

theorem Next.of_unloaded (h : Next s .unloaded s') :
    ∃ name rest, s.unloading = name :: rest ∧ s' = unloaded s name rest := by
  simp only [Next, step] at h
  split at h
  · cases h
  · next name rest hcons =>
    cases h
    exact ⟨name, rest, hcons, rfl⟩

theorem Next.changes (h : Next s a s') (hok : Calm s a) : Changes s a s' := by
  cases a with
  | load memory name =>
    cases h
    exact changes_load
  | resume i ok =>
    obtain ⟨hnil, l, hl, rfl⟩ := h.of_resume
    exact changes_resume hl hnil
  | unload memory name =>
    cases h
    exact changes_unload hok
  | unloaded =>
    obtain ⟨name, rest, hcons, rfl⟩ := h.of_unloaded
    exact .keep (knows_unloaded hcons) rfl rfl
  | destroy =>
    cases h
    exact .forget rfl (by rintro e b ⟨⟨⟩, -⟩) rfl rfl

theorem Changes.owned (hs : Changes s a s') (h : Custody.Ok s.Knows s.uninstalled s.instances) :
    Custody.Ok s'.Knows s'.uninstalled s'.instances := by
  cases hs with
  | keep hk hi hu =>
    rw [hk, hi, hu]
    exact h
  | install l hl hknows hother hi hu =>
    rw [hi, hu]
    refine h.make l.name fun e b hb => ?_
    by_cases he : e = l.name
    · subst he
      exact .inr ⟨rfl, Option.some.inj (hb.1.symm.trans hknows.1)⟩
    · exact .inl ((hother e b he).mp hb)
  | uninstall name m hm hgone hother hi hu =>
    rw [hi, hu]
    refine h.release [(name, m)] (.refl _) ?_ (List.nodup_singleton _) (fun e b hb => ?_)
      (Nat.le_refl _)
    · intro p hp
      rw [List.mem_singleton.mp hp]
      exact hm
    · have he : e ≠ name := fun he => hgone b (he ▸ hb)
      exact ⟨(hother e b he).mp hb, by simpa using he⟩
  | forget ha hnone hi hu =>
    rw [hi, hu]
    exact h.mono (fun e b hb => absurd hb (hnone e b)) (Nat.le_refl _)

theorem owned_start : Custody.Ok State.start.Knows State.start.uninstalled 0 :=
  .nil (by rintro e b ⟨⟨⟩, -⟩)

theorem owned_of_calm (h : Run.ReachBy Initial Next Calm s) :
    Custody.Ok s.Knows s.uninstalled s.instances := by
  refine h.invariant ?_ fun s a s' hinv hok hs => (hs.changes hok).owned hinv
  rintro s rfl
  exact owned_start

/-! ## Nothing is lost -/

/-- A load on its way is the only one of its name, which the bridge does not know yet. -/
structure Distinct (s : State) : Prop where
  once : (s.loads.map Load.name).Nodup
  unknown : ∀ l ∈ s.loads, s.loadedModules l.name = none

theorem Distinct.load (h : Distinct s) (hok : ∀ l ∈ s.loads, l.name ≠ name) :
    Distinct (wasmXyLoadModule s memory name) := by
  unfold wasmXyLoadModule
  split
  · exact h
  · split
    · exact h
    · next hnone =>
      refine ⟨?_, fun l hl => ?_⟩
      · rw [List.map_append, List.nodup_append]
        refine ⟨h.once, List.nodup_singleton _, ?_⟩
        intro n hn n' hn'
        obtain ⟨l, hl, rfl⟩ := List.mem_map.mp hn
        rw [List.mem_singleton.mp hn']
        exact hok l hl
      · rcases List.mem_append.mp hl with hl | hl
        · exact h.unknown l hl
        · rw [List.mem_singleton.mp hl]
          exact Option.not_isSome_iff_eq_none.mp hnone

/-- The other loads have other names. -/
theorem Distinct.ne {l' : Load} (h : Distinct s) (hl : s.loads[i]? = some l)
    (hl' : l' ∈ s.loads.eraseIdx i) : l'.name ≠ l.name := by
  obtain ⟨j, hji, hj⟩ := List.mem_eraseIdx_iff_getElem?.mp hl'
  intro heq
  have hnames : (s.loads.map Load.name)[j]? = (s.loads.map Load.name)[i]? := by
    rw [List.getElem?_map, List.getElem?_map, hj, hl, Option.map_some, Option.map_some, heq]
  have hlt : j < (s.loads.map Load.name).length := by
    rw [List.length_map]
    exact (List.getElem?_eq_some_iff.mp hj).1
  exact hji ((List.getElem?_inj hlt h.once).mp hnames)

theorem Distinct.set {x : Await} (h : Distinct s) (hl : s.loads[i]? = some l) :
    Distinct { s with loads := s.loads.set i { l with await := x } } := by
  obtain ⟨hlt, hget⟩ := List.getElem?_eq_some_iff.mp hl
  refine ⟨?_, fun l' hl' => ?_⟩
  · show ((s.loads.set i { l with await := x }).map Load.name).Nodup
    have hsame : (s.loads.map Load.name).set i l.name = s.loads.map Load.name := by
      rw [← hget, ← List.getElem_map Load.name (h := by rwa [List.length_map])]
      exact List.set_getElem_self _
    rw [List.map_set, hsame]
    exact h.once
  · rcases List.mem_or_eq_of_mem_set hl' with hold | rfl
    · exact h.unknown l' hold
    · exact h.unknown l (List.mem_of_getElem? hl)

theorem Distinct.erase (h : Distinct s) : Distinct { s with loads := s.loads.eraseIdx i } where
  once := h.once.sublist ((List.eraseIdx_sublist _ _).map Load.name)
  unknown l hl := h.unknown l (List.mem_of_mem_eraseIdx hl)

theorem Distinct.resume (h : Distinct s) (hl : s.loads[i]? = some l) :
    Distinct (resume s i l ok) := by
  unfold Bridge.resume
  split
  · exact h.erase
  · split
    · exact h.set hl
    · exact h.set hl
    · exact h.set hl
    · refine ⟨h.erase.once, fun l' hl' => ?_⟩
      show Function.update s.loadedModules l.name _ l'.name = none
      rw [Function.update_of_ne (h.ne hl hl')]
      exact h.unknown l' (List.mem_of_mem_eraseIdx hl')

theorem Distinct.unloaded {rest : List String} (h : Distinct s) :
    Distinct (unloaded s name rest) where
  once := h.once
  unknown l hl := by
    show Function.update s.loadedModules name none l.name = none
    by_cases hname : l.name = name
    · rw [hname, Function.update_self]
    · rw [Function.update_of_ne hname]
      exact h.unknown l hl

theorem Distinct.step (h : Distinct s) (hok : Spaced s a) (hs : Next s a s') : Distinct s' := by
  cases a with
  | load memory name =>
    cases hs
    exact h.load hok
  | resume i ok =>
    obtain ⟨-, l, hl, rfl⟩ := hs.of_resume
    exact h.resume hl
  | unload memory name =>
    cases hs
    unfold wasmXyUnloadModule
    split
    · exact h
    · split
      · exact h
      · exact ⟨h.once, h.unknown⟩
  | unloaded =>
    obtain ⟨name, rest, -, rfl⟩ := hs.of_unloaded
    exact h.unloaded
  | destroy => exact hok.elim

/-- A load on its way installs its instance under a name that is not known. -/
theorem Changes.full (hs : Changes s a s') (hd : Distinct s) (ha : a ≠ .destroy)
    (h : Custody.Full s.Knows s.uninstalled s.instances) :
    Custody.Full s'.Knows s'.uninstalled s'.instances := by
  cases hs with
  | keep hk hi hu =>
    rw [hk, hi, hu]
    exact h
  | install l hl hknows hother hi hu =>
    rw [hi, hu]
    refine h.make l.name hknows fun e b hb => ?_
    have he : e ≠ l.name := by
      rintro rfl
      have hsome := hb.1
      rw [hd.unknown l hl] at hsome
      cases hsome
    exact (hother e b he).mpr hb
  | uninstall name m hm hgone hother hi hu =>
    rw [hi, hu]
    refine h.mono (fun b hb => List.mem_cons_of_mem m hb) fun e b hb => ?_
    by_cases he : e = name
    · subst he
      rw [Option.some.inj (hb.1.symm.trans hm.1)]
      exact .inl List.mem_cons_self
    · exact .inr ⟨e, (hother e b he).mpr hb⟩
  | forget hforget hnone hi hu => exact absurd hforget ha

/-- What a spaced step keeps. -/
structure Kept (s : State) : Prop where
  distinct : Distinct s
  full : Custody.Full s.Knows s.uninstalled s.instances

theorem Kept.step (h : Kept s) (hok : Spaced s a) (hs : Next s a s') : Kept s' := by
  refine ⟨h.distinct.step hok hs, (hs.changes hok.calm).full h.distinct ?_ h.full⟩
  rintro rfl
  exact hok

theorem full_of_spaced (h : Run.ReachBy Initial Next Spaced s) :
    Custody.Ok s.Knows s.uninstalled s.instances
      ∧ Custody.Full s.Knows s.uninstalled s.instances := by
  refine ⟨owned_of_calm (h.mono fun _ _ hok => hok.calm), Kept.full ?_⟩
  refine h.invariant ?_ fun s a s' hinv hok hs => hinv.step hok hs
  rintro s rfl
  exact ⟨⟨List.nodup_nil, by rintro l ⟨⟩⟩, .nil⟩

/-- The state of a list of actions. -/
def after (l : List Action) : State := Run.follow step Spaced .start l

theorem spaced_after (l : List Action) : Run.ReachBy Initial Next Spaced (after l) := by
  have hstart : Run.ReachBy Initial Next Spaced .start := .start rfl
  exact hstart.follow (fun _ _ _ h => h) l

/-- The awaits of the first load that is on its way. -/
def awaits : List Action :=
  [.resume 0 true, .resume 0 true, .resume 0 true, .resume 0 true]

/-- A module is loaded while another one waits for its response, and its `xy_uninstall` loads it
again. -/
def reloaded : List Action :=
  [.load true "a", .load true "b", .resume 1 false] ++ awaits
    ++ [.unload true "a", .load true "a", .unloaded, .load true "a"] ++ awaits

theorem full_of_reloaded :
    (after reloaded).loadedModules "a" = some 1
      ∧ Custody.Ok (after reloaded).Knows (after reloaded).uninstalled (after reloaded).instances
      ∧ Custody.Full (after reloaded).Knows (after reloaded).uninstalled
          (after reloaded).instances :=
  ⟨by decide, full_of_spaced (spaced_after reloaded)⟩

/-- The second instance takes the name of the first. -/
def twoLoads : List Action := [.load true "a", .load true "a"] ++ awaits ++ awaits

theorem not_full_of_two_loads :
    ∃ s, Run.ReachBy Initial Next Calm s ∧ ¬ Custody.Full s.Knows s.uninstalled s.instances := by
  have hstart : Run.ReachBy Initial Next Calm .start := .start rfl
  refine ⟨_, hstart.follow (fun _ _ _ h => h) twoLoads, fun h => ?_⟩
  obtain hgone | ⟨e, he, -⟩ := h 0 (by decide)
  · revert hgone
    decide
  · change Function.update (Function.update (fun _ => none) "a" (some 0)) "a" (some 1) e = some 0
      at he
    by_cases hname : e = "a"
    · rw [hname, Function.update_self] at he
      cases he
    · rw [Function.update_of_ne hname, Function.update_of_ne hname] at he
      cases he

end Xylem.Bridge
