import Xylem.Callbacks
import Xylem.Calls
import Xylem.Sample

/-!
# Whose symbols a module is driven through

`dlsym` on a handle searches the object itself and then the libraries it is
linked with (`Linking`).  A hook callback is used only when the mapping it lies
in is that of the object, and so the object defines it.  The other symbols are
used as they are found: the object defines what `lookups` lists of a step
exactly when it comes before its libraries in the search, or none of these
defines the symbol either.
-/

namespace Xylem

open Xylem.Runtime

/-- The objects that the dynamic loader has mapped.

* `object` is the object of a handle, `deps` the libraries that it is linked
  with, in the order of the search.
* `defs` says where an object defines a symbol, `base` where it is mapped. -/
structure Linking (w : World) where
  object : Handle → Nat
  deps : Nat → List Nat
  defs : Nat → Symbol → Option Addr
  base : Nat → Addr
  base_inj : Function.Injective base
  dlsym_eq : ∀ h sym, w.dlsym h sym
    = (object h :: deps (object h)).findSome? fun o => defs o sym
  fbase_eq : ∀ o sym x, defs o sym = some x → w.fbase x = some (base o)
  linkBase_eq : ∀ h, w.linkBase h = some (base (object h))

/-- The address is that of a symbol which the object of the handle defines. -/
def Linking.Own {w : World} (L : Linking w) (h : Handle) (x : Addr) : Prop :=
  ∃ sym, L.defs (L.object h) sym = some x

/-- The region states of the entries are about to be freed. -/
def Runtime.cleanupLookups (rt : Runtime) (es : List EntryRef) : List (Handle × Symbol) :=
  es.filterMap fun e => (rt.mods e).bind fun me =>
    me.regionState.map fun _ => (me.handle, .xyRegionCleanup)

/-- What a step looks up by name to call or to read it, apart from hooks. -/
def lookups (w : World) (c : Config) (a : Action) : List (Handle × Symbol) :=
  match c.stack, a with
  | .load tx .bind :: _, .tau =>
    (tx.handle, .getXyPtr) ::
      if (modLoadCtx w c.st tx).isSome then [(tx.handle, .xyCtxAbi)] else []
  | .load tx .claim :: _, .tau =>
    match c.st.rt.regionLookup tx.inheritedRegionId tx.inheritedRegionPlen with
    | none => []
    | some r =>
      -- The byte is read where a handler or the requirement makes it matter.
      if (c.st.rt.regions r).claimHandler.isSome ∨ (c.st.rt.regions r).requireClaim then
        [(tx.handle, .xyClaim)]
      else []
  | .load tx .link :: _, .tau => [(tx.handle, .xyRegionStateSize)]
  | .load tx .install :: _, .tau => [(tx.handle, .xyInstall)]
  | .load tx (.aborting _) :: _, .tau => c.st.rt.cleanupLookups tx.modEntry.toList
  | .unload e [] :: _, .tau => c.st.rt.cleanupLookups [e]
  | [], .call .shutdown => c.st.rt.cleanupLookups (c.st.rt.modHdValues w)
  | _, _ => []

/-- The callback that a move enters, with the handle of its entry. -/
def Move.callback (m : Move) : List (Handle × Addr) :=
  match m.event with
  | .enterListener e (.fn x) => (m.before.st.rt.mods e).toList.map fun me => (me.handle, x)
  | _ => []

/-- The addresses that a move calls or reads on behalf of an entry. -/
def Move.uses (w : World) (m : Move) : List (Handle × Addr) :=
  m.callback ++ (lookups w m.before m.act).filterMap fun p =>
    (w.dlsym p.1 p.2).map fun x => (p.1, x)

/-- What a move uses is defined by the object of the entry. -/
def Move.UsesOwn {w : World} (L : Linking w) (m : Move) : Prop := ∀ u ∈ m.uses w, L.Own u.1 u.2

/-- What a move looks up is defined by the object itself, or by none of the
libraries it is linked with. -/
def Move.LooksOwn {w : World} (L : Linking w) (m : Move) : Prop :=
  ∀ p ∈ lookups w m.before m.act, (L.defs (L.object p.1) p.2).isSome = true
    ∨ ∀ o ∈ L.deps (L.object p.1), L.defs o p.2 = none

/-- A run from a start, with its moves. -/
inductive Trace (w : World) : List Move → Config → Prop
  | start {c : Config} (h : c.Initial) : Trace w [] c
  | move {log : List Move} {c c' : Config} {a : Action} {ev : Event} (h : Trace w log c)
      (hs : step w c a = .next c' ev) : Trace w (log ++ [⟨c, a, ev, c'⟩]) c'

section

variable {w : World} {c c' : Config} {a : Action} {ev : Event} {log : List Move}

theorem Trace.reachable (h : Trace w log c) : Reachable w c := by
  induction h with
  | start h => exact .start h
  | move _ hs ih => exact ih.step trivial ⟨_, hs⟩

/-- Each move of a trace is a step of a reachable configuration. -/
theorem Trace.mem (h : Trace w log c) {m : Move} (hm : m ∈ log) :
    Reachable w m.before ∧ step w m.before m.act = .next m.after m.event := by
  induction h with
  | start h => cases hm
  | @move log c c' a ev htr hs ih =>
    rcases List.mem_append.mp hm with hm | hm
    · exact ih hm
    · rw [List.mem_singleton.mp hm]
      exact ⟨htr.reachable, hs⟩

/-! ## Lookups -/

theorem Linking.own_of_defs (L : Linking w) {h : Handle} {sym : Symbol} {x : Addr}
    (hx : L.defs (L.object h) sym = some x) : L.Own h x := ⟨sym, hx⟩

/-- Two objects do not define symbols at one address. -/
theorem Linking.object_unique (L : Linking w) {o o' : Nat} {sym sym' : Symbol} {x : Addr}
    (h : L.defs o sym = some x) (h' : L.defs o' sym' = some x) : o = o' := by
  have hbase : some (L.base o) = some (L.base o') :=
    (L.fbase_eq o sym x h).symm.trans (L.fbase_eq o' sym' x h')
  exact L.base_inj (Option.some.inj hbase)

/-- A symbol that the test of locality accepts is defined by the object. -/
theorem Linking.own_of_local (L : Linking w) {h : Handle} {name : CStr} {x : Addr}
    (hx : w.hookSymbol h name = some x) : L.Own h x := by
  obtain ⟨hsym, hlocal⟩ := Option.filter_eq_some_iff.mp hx
  rw [L.dlsym_eq] at hsym
  obtain ⟨o, -, ho⟩ := List.exists_of_findSome?_eq_some hsym
  unfold World.moduleSymbolIsLocal at hlocal
  rw [L.linkBase_eq, L.fbase_eq o _ x ho] at hlocal
  have hobject : o = L.object h := L.base_inj (of_decide_eq_true hlocal)
  exact L.own_of_defs (hobject ▸ ho)

/-- A lookup yields nothing foreign exactly when the object is no worse than its
libraries. -/
theorem Linking.own_iff (L : Linking w) (h : Handle) (sym : Symbol) :
    (∀ x, w.dlsym h sym = some x → L.Own h x)
      ↔ (L.defs (L.object h) sym).isSome = true ∨ ∀ o ∈ L.deps (L.object h), L.defs o sym = none := by
  rw [L.dlsym_eq, List.findSome?_cons]
  cases hown : L.defs (L.object h) sym with
  | some x =>
    simp only [Option.some.injEq, Option.isSome_some, true_or, iff_true]
    rintro _ rfl
    exact L.own_of_defs hown
  | none =>
    simp only [Option.isSome_none, Bool.false_eq_true, false_or]
    constructor
    · intro hall o ho
      by_contra hdef
      have hsome : ((L.deps (L.object h)).findSome? fun o => L.defs o sym).isSome = true :=
        List.findSome?_isSome_iff.mpr ⟨o, ho, Option.isSome_iff_ne_none.mpr hdef⟩
      obtain ⟨x, hx⟩ := Option.isSome_iff_exists.mp hsome
      obtain ⟨o', -, ho'⟩ := List.exists_of_findSome?_eq_some hx
      obtain ⟨sym', hsym'⟩ := hall x hx
      rw [L.object_unique ho' hsym', hown] at ho'
      cases ho'
    · intro hnone x hx
      obtain ⟨o, ho, hdef⟩ := List.exists_of_findSome?_eq_some hx
      rw [hnone o ho] at hdef
      cases hdef

/-! ## Callbacks -/

/-- The callback that a step enters was found in the object of the entry, under a
name that goes with the number of the dispatch. -/
theorem Step.callback_named {named : Nat → CStr → Prop} (hwf : c.Wf w)
    (hnamed : c.st.rt.CallbacksNamed w named) {d : Dispatch} {k : List Frame}
    (hstack : c.stack = .dispatch d none :: k) (hd : named d.hookId d.name) {e : EntryRef}
    {x : Addr} {me : ModEntry} (h : Step w c a c' (.enterListener e (.fn x)))
    (hme : c.st.rt.mods e = some me) :
    ∃ name, named d.hookId name ∧ w.hookSymbol me.handle name = some x := by
  obtain ⟨d', k', -, hstack', me', hme', hcb⟩ := h.enter_listener
  rw [hstack] at hstack'
  cases hstack'
  obtain rfl : me' = me := Option.some.inj (hme'.symm.trans hme)
  rcases hcb with ⟨-, -, hcb⟩ | ⟨-, hcell⟩
  · obtain ⟨name, hn, hname⟩ := ((hnamed.entries e me' hme).resolved hd).fnCell hcb.symm
    rw [ModEntry.handle_of_core (me'.core_resolved ..)] at hname
    exact ⟨name, hn, hname⟩
  · exact hnamed.cells d.caller (hwf.top hstack).1 d.hookId _ (List.mem_of_getElem? hcell) x me'
      rfl hme

/-- The callback that a step enters was found by name in the object of the
entry. -/
theorem Step.callback_found (hwf : c.Wf w) (hfound : c.st.rt.CallbacksFound w) {e : EntryRef}
    {x : Addr} {me : ModEntry} (h : Step w c a c' (.enterListener e (.fn x)))
    (hme : c.st.rt.mods e = some me) : ∃ name, w.hookSymbol me.handle name = some x := by
  obtain ⟨d, k, -, hstack, -⟩ := h.enter_listener
  obtain ⟨name, -, hname⟩ :=
    h.callback_named hwf (callbacksFound_iff.mp hfound) hstack trivial hme
  exact ⟨name, hname⟩

/-- One move uses what its module defines exactly when its lookups do. -/
theorem Move.usesOwn_iff (L : Linking w) {m : Move} (hr : Reachable w m.before)
    (hs : step w m.before m.act = .next m.after m.event) : m.UsesOwn L ↔ m.LooksOwn L := by
  have hcallback : ∀ u ∈ m.callback, L.Own u.1 u.2 := by
    intro u hu
    unfold Move.callback at hu
    split at hu
    · next e x hev =>
      obtain ⟨me, hme, rfl⟩ := List.mem_map.mp hu
      have hstep := Step.of_step hs
      rw [hev] at hstep
      obtain ⟨name, hname⟩ := hstep.callback_found (.of_reachable hr) (callbacksFound_of_reachable hr)
        (Option.mem_toList.mp hme)
      exact L.own_of_local hname
    · cases hu
  have hlook : (∀ p ∈ lookups w m.before m.act, ∀ x, w.dlsym p.1 p.2 = some x → L.Own p.1 x)
      ↔ m.LooksOwn L := by
    unfold Move.LooksOwn
    exact forall₂_congr fun p _ => L.own_iff p.1 p.2
  rw [← hlook]
  unfold Move.UsesOwn Move.uses
  constructor
  · intro hall p hp x hx
    refine hall (p.1, x) (List.mem_append_right _ ?_)
    rw [List.mem_filterMap]
    exact ⟨p, hp, by rw [hx]; rfl⟩
  · intro hall u hu
    rcases List.mem_append.mp hu with hu | hu
    · exact hcallback u hu
    · obtain ⟨p, hp, hmap⟩ := List.mem_filterMap.mp hu
      obtain ⟨x, hx, rfl⟩ := Option.map_eq_some_iff.mp hmap
      exact hall p hp x hx

/-- In a run, all that is called or read on behalf of a module is defined in its
own object, exactly when that holds of what the moves look up: the object defines
the symbol, or none of its libraries does. -/
theorem usesOwn_iff_looksOwn (L : Linking w) (h : Trace w log c) :
    (∀ m ∈ log, m.UsesOwn L) ↔ ∀ m ∈ log, m.LooksOwn L :=
  forall₂_congr fun _ hm => Move.usesOwn_iff L (h.mem hm).1 (h.mem hm).2

end

/-! ## A world with libraries -/

/-- The dynamic loader on a family of shared objects that are linked with
others. -/
def World.ofLinked (objects : Handle → SharedObject) (deps : Handle → List Handle) : World :=
  { World.ofObjects objects with
    dlsym := fun h sym => (h :: deps h).findSome? fun o => (World.ofObjects objects).dlsym o sym }

theorem mappedAt_div (o : Nat) {k : Nat} (hk : k < 16) : (mappedAt o + k) / 16 = o := by
  show (16 * o + k) / 16 = o
  omega

theorem mappedAt_inj : Function.Injective mappedAt := by
  intro o o' h
  rw [← mappedAt_div o (k := 0) (by omega), ← mappedAt_div o' (k := 0) (by omega)]
  exact congrArg (· / 16) h

/-- A symbol lies in the mapping of the object that defines it. -/
theorem ofObjects_dlsym {objects : Handle → SharedObject} {o : Handle} {sym : Symbol} {x : Addr}
    (h : (World.ofObjects objects).dlsym o sym = some x) : x / 16 = o := by
  cases sym with
  | getXyPtr =>
    cases h
    exact mappedAt_div o (by omega)
  | xyCtxAbi =>
    cases h
    exact mappedAt_div o (by omega)
  | xyClaim =>
    obtain ⟨_, -, rfl⟩ := Option.map_eq_some_iff.mp h
    exact mappedAt_div o (by omega)
  | xyRegionStateSize =>
    obtain ⟨_, -, rfl⟩ := Option.map_eq_some_iff.mp h
    exact mappedAt_div o (by omega)
  | xyRegionCleanup => cases h
  | xyInstall =>
    obtain ⟨-, hx⟩ := Option.ite_none_right_eq_some.mp h
    cases hx
    exact mappedAt_div o (by omega)
  | hook name =>
    obtain ⟨-, hx⟩ := Option.ite_none_right_eq_some.mp h
    cases hx
    exact mappedAt_div o (by omega)

/-- Each handle is that of an object of its own. -/
def Linking.ofLinked (objects : Handle → SharedObject) (deps : Handle → List Handle) :
    Linking (World.ofLinked objects deps) where
  object := id
  deps := deps
  defs := (World.ofObjects objects).dlsym
  base := mappedAt
  base_inj := mappedAt_inj
  dlsym_eq _ _ := rfl
  fbase_eq o sym x h := by
    show some (mappedAt (x / 16)) = some (mappedAt o)
    rw [ofObjects_dlsym h]
  linkBase_eq _ := rfl

theorem Trace.moves {w : World} {log : List Move} {c : Config} (h : Trace w log c)
    (l : List Action) : ∃ c', Trace w (log ++ movesOf w c l) c' := by
  induction l generalizing log c with
  | nil => exact ⟨c, by simpa [movesOf] using h⟩
  | cons a l ih =>
    unfold movesOf
    split
    · next c₁ ev hs =>
      obtain ⟨c', hc'⟩ := ih (h.move hs)
      exact ⟨c', by simpa using hc'⟩
    · exact ⟨c, by simpa using h⟩

/-- A run whose actions can all be taken. -/
theorem Trace.of_actions {w : World} {c : Config} {l : List Action} (h : c.Initial)
    (hlen : (movesOf w c l).length = l.length) : Trace w (movesOf w c l) (c.after w l) := by
  have hrun := runActions_of_length hlen
  have hmoves : ∀ {c₀ : Config} {log : List Move} {l : List Action} {c' : Config},
      Trace w log c₀ → runActions w c₀ l = some c' → Trace w (log ++ movesOf w c₀ l) c' := by
    intro c₀ log l c' htrace hrun
    induction l generalizing c₀ log with
    | nil =>
      cases hrun
      simpa [movesOf] using htrace
    | cons a l ih =>
      unfold runActions at hrun
      unfold movesOf
      split at hrun
      · next c₁ ev hs => simpa [hs] using ih (htrace.move hs) hrun
      · cases hrun
  simpa using hmoves (.start h) hrun

instance {w : World} (L : Linking w) (m : Move) : Decidable (m.LooksOwn L) := by
  unfold Move.LooksOwn; infer_instance

/-- The object with handle 1 is linked with the one with handle 2. -/
def sampleDeps (h : Handle) : List Handle := if h = 1 then [2] else []

/-- A module is loaded that defines all that the library it is linked with
does. -/
theorem usesOwn_of_complete_object :
    let objects : Handle → SharedObject := fun _ => .listener sampleHook
    ∀ m ∈ movesOf (World.ofLinked objects sampleDeps) (Config.boot sampleHook)
      (.call (.areg sampleHook 0) :: loadRun sampleFile 1 ++ [.call (.call none (some 0) false), .tau]),
      m.UsesOwn (Linking.ofLinked objects sampleDeps) := by
  intro objects
  obtain ⟨c', htrace⟩ := (Trace.start (w := World.ofLinked objects sampleDeps)
    (Config.boot_initial sampleHook)).moves (.call (.areg sampleHook 0) :: loadRun sampleFile 1
      ++ [.call (.call none (some 0) false), .tau])
  exact (usesOwn_iff_looksOwn (Linking.ofLinked objects sampleDeps) htrace).mpr (by decide +kernel)

/-- A module without `xy_install` is loaded, and the `xy_install` of the library
it is linked with runs. -/
theorem not_usesOwn_of_linked_install :
    let objects : Handle → SharedObject :=
      fun h => { SharedObject.listener sampleHook with install := decide (h ≠ 1) }
    ∃ log c, Trace (World.ofLinked objects sampleDeps) log c
      ∧ ∃ m ∈ log, ¬ m.UsesOwn (Linking.ofLinked objects sampleDeps) := by
  intro objects
  obtain ⟨c', htrace⟩ := (Trace.start (w := World.ofLinked objects sampleDeps)
    (Config.boot_initial sampleHook)).moves (loadRun sampleFile 1)
  have hlook : ∃ m ∈ movesOf (World.ofLinked objects sampleDeps) (Config.boot sampleHook)
      (loadRun sampleFile 1), ¬ m.LooksOwn (Linking.ofLinked objects sampleDeps) := by
    decide +kernel
  obtain ⟨m, hm, hnot⟩ := hlook
  obtain ⟨hreach, hs⟩ := htrace.mem hm
  exact ⟨_, c', htrace, m, hm, fun hown => hnot ((Move.usesOwn_iff _ hreach hs).mp hown)⟩

end Xylem
