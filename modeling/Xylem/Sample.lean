import Xylem.Machine

/-!
# A small world

A file system and a dynamic loader that can be run: a module file is known by
what its shared object exports (`SharedObject`), and the object with the handle
`h` is mapped at `16 * h`.  The witnesses of the general theorems are runs in
such a world.
-/

namespace Xylem

/-- What a shared object exports, as far as the host asks. -/
structure SharedObject where
  hooks : List CStr
  claim : Option Nat
  stateSize : Option Nat
  install : Bool

/-- A module with one hook, which asks for no region of its own. -/
def SharedObject.listener (name : CStr) : SharedObject :=
  { hooks := [name], claim := none, stateSize := none, install := true }

/-- A module that asks for a region of its own. -/
def SharedObject.claiming (name : CStr) : SharedObject :=
  { SharedObject.listener name with claim := some 8 }

/-- Where the object with a handle is mapped. -/
def mappedAt (h : Handle) : Addr := 16 * h

/-- The dynamic loader on a family of shared objects.  Each object has a context
of its own, with the number of its handle. -/
def World.ofObjects (objects : Handle → SharedObject) : World where
  loadPath := id
  dlsym h sym :=
    match sym with
    | .getXyPtr => some (mappedAt h + 1)
    | .xyCtxAbi => some (mappedAt h + 2)
    | .xyClaim => (objects h).claim.map fun _ => mappedAt h + 3
    | .xyRegionStateSize => (objects h).stateSize.map fun _ => mappedAt h + 4
    | .xyRegionCleanup => none
    | .xyInstall => if (objects h).install then some (mappedAt h + 5) else none
    | .hook name => if name ∈ (objects h).hooks then some (mappedAt h + 6) else none
  fbase a := some (mappedAt (a / 16))
  linkBase h := some (mappedAt h)
  getXy a := some (a / 16)
  ctxAbi _ := xyCtxAbiDesc
  claimBits a := ((objects (a / 16)).claim).getD 0
  regionStateSize a := ((objects (a / 16)).stateSize).getD 0
  iterOrder := id
  iterOrder_perm _ := .refl _
  delMulti _ := []
  adapterAddr a := BitVec.ofNat 64 a

/-- The name of a hook. -/
def sampleHook : CStr := ⟨[104], by decide⟩

/-- A world in which every module file has one hook and asks for no region. -/
def sampleWorld : World := .ofObjects fun _ => .listener sampleHook

/-- The same, but that every module asks for a region. -/
def claimingWorld : World := .ofObjects fun _ => .claiming sampleHook

/-- An adapter for a hook without arguments and without a result. -/
def Adapter.plain (name : CStr) : Adapter :=
  { name := name, argSize := 0, retSize := 0, call := some 1, hookId := -1 }

/-- The start of a run, with one adapter for a hook of the given name. -/
def Config.boot (hook : CStr) : Config :=
  ⟨State.boot (fun _ => { adapter := none, modulePath := none, regionId := 0, regionState := none })
    (fun _ => .plain hook) (fun _ => []), []⟩

theorem Config.boot_initial (hook : CStr) : (Config.boot hook).Initial := ⟨_, _, _, rfl⟩

/-- Where a list of actions leads, if it can be taken. -/
def Config.after (w : World) (c : Config) (l : List Action) : Config := (runActions w c l).getD c

/-- The run of a list of actions, as far as its steps meet a condition. -/
def runChecked (w : World) (ok : Config → Action → Prop) [∀ c a, Decidable (ok c a)]
    (c : Config) : List Action → Config
  | [] => c
  | a :: as =>
    if ok c a then
      match step w c a with
      | .next c' _ => runChecked w ok c' as
      | _ => c
    else c

/-- Names of module files. -/
def sampleFile : CStr := ⟨[97], by decide⟩
def sampleFile' : CStr := ⟨[98], by decide⟩

/-- A load that the object with the handle `h` takes to its end. -/
def loadRun (fname : CStr) (h : Handle) : List Action :=
  [.call (.load fname), .ret (.dlopened (some h)), .tau, .tau, .tau, .tau, .tau, .ret .installed]

/-- The same of an object that asks for a region and is granted `bits`. -/
def claimRun (fname : CStr) (h : Handle) (bits : Nat) : List Action :=
  [.call (.load fname), .ret (.dlopened (some h)), .tau, .tau, .tau, .ret (.granted xyOk bits), .tau,
    .tau, .tau, .ret .installed]

section

variable {w : World} {init : Config → Prop} {ok : Config → Action → Prop} {c c' : Config}
  {l : List Action}

theorem ReachableBy.of_runActions (h : Run.ReachBy init (Next w) ok c)
    (hok : ∀ a ∈ l, ∀ c, ok c a) (hrun : runActions w c l = some c') :
    Run.ReachBy init (Next w) ok c' := by
  induction l generalizing c with
  | nil =>
    cases hrun
    exact h
  | cons a l ih =>
    unfold runActions at hrun
    have hl : ∀ a ∈ l, ∀ c, ok c a := fun a ha => hok a (List.mem_cons_of_mem _ ha)
    split at hrun
    · next hstep => exact ih (h.step (hok a List.mem_cons_self c) ⟨_, hstep⟩) hl hrun
    · cases hrun

theorem runActions_append {c₁ : Config} {l' : List Action} (h : runActions w c l = some c₁) :
    runActions w c (l ++ l') = runActions w c₁ l' := by
  induction l generalizing c with
  | nil =>
    cases h
    rfl
  | cons a l ih =>
    unfold runActions at h
    simp only [List.cons_append, runActions]
    split at h
    · next hstep => simpa only [hstep] using ih h
    · cases h

theorem ReachableBy.after (h : Run.ReachBy init (Next w) ok c) (hok : ∀ a ∈ l, ∀ c, ok c a) :
    Run.ReachBy init (Next w) ok (c.after w l) := by
  unfold Config.after
  cases hrun : runActions w c l with
  | none => exact h
  | some c' => exact ReachableBy.of_runActions h hok hrun

theorem ReachableBy.checked [∀ c a, Decidable (ok c a)] (h : ReachableBy w ok c)
    (l : List Action) : ReachableBy w ok (runChecked w ok c l) := by
  induction l generalizing c with
  | nil => exact h
  | cons a l ih =>
    unfold runChecked
    split
    · next hok =>
      split
      · next hstep => exact ih (h.step hok ⟨_, hstep⟩)
      · exact h
    · exact h

/-- One more action, if it can be taken. -/
theorem ReachableBy.act (h : ReachableBy w ok c) (a : Action) (hok : ok c a) :
    ReachableBy w ok (c.after w [a]) := by
  unfold Config.after runActions
  cases hstep : step w c a with
  | next c' ev => exact h.step hok ⟨ev, hstep⟩
  | undef | disabled => exact h

end

end Xylem
