import Xylem.DenyLedger
import Xylem.Entries
import Xylem.Lib.Interning
import Xylem.ModTable
import Xylem.RegionAt

/-!
# Deny lists hold interned paths

The source compares paths by their pointers.  `module_path_intern` gives each path one
pointer, the module entries and the deny lists hold that, and each region has a hash set
beside its list.  The machine compares the paths themselves.

* `PathPointers`: the table of the interned paths, what the entries and the deny lists hold,
  and the hash sets, as they go along with the machine.
* `PathPointers.Implements`: the pointers are those of the paths of the machine, and a look
  into the set and the list finds what the machine finds.
* `implements_of_run`: this holds in every run.
-/

namespace Xylem

open Xylem.Runtime Interning

/-- What the source keeps of paths. -/
structure PathPointers where
  /-- `path_intern_hd`. -/
  pool : Pool CStr
  /-- `load_path` of an entry. -/
  loadPath : EntryRef → Option Nat
  /-- `denied_modules` and `denied_modules_set` of a region. -/
  deniedModules : RegionRef → List Nat
  deniedModulesSet : RegionRef → List Nat

namespace PathPointers

def start : PathPointers :=
  { pool := { find := fun _ => none, next := 0 }, loadPath := fun _ => none
    deniedModules := fun _ => [], deniedModulesSet := fun _ => [] }

/-- `module_is_denied`. -/
def moduleIsDenied (p : PathPointers) (r : RegionRef) (path : Nat) : Bool :=
  decide (path ∈ p.deniedModulesSet r) || (p.deniedModules r).any fun d => decide (d = path)

/-- `xy_deny` of a module at the region `r`. -/
def denyModule (p : PathPointers) (r : RegionRef) (path : CStr) : PathPointers :=
  let (interned, pool) := p.pool.intern path
  { p with
    pool := pool
    deniedModules := Function.update p.deniedModules r (interned :: p.deniedModules r)
    deniedModulesSet := Function.update p.deniedModulesSet r
      (interned :: (p.deniedModulesSet r).filter (· ≠ interned)) }

/-- The loop of `module_remove_denies`, over the list and with the set. -/
def removeLoop (path : Nat) : List Nat → List Nat → List Nat × List Nat
  | [], set => ([], set)
  | d :: l, set =>
    if d = path then removeLoop path l (set.filter (· ≠ d))
    else (d :: (removeLoop path l set).1, (removeLoop path l set).2)

/-- `module_remove_denies`. -/
def moduleRemoveDenies (p : PathPointers) (r : RegionRef) (path : Nat) : PathPointers :=
  let (l, set) := removeLoop path (p.deniedModules r) (p.deniedModulesSet r)
  { p with
    deniedModules := Function.update p.deniedModules r l
    deniedModulesSet := Function.update p.deniedModulesSet r set }

/-- `mod_load_alloc_entry`. -/
def allocEntry (p : PathPointers) (e : EntryRef) (path : CStr) : PathPointers :=
  let (interned, pool) := p.pool.intern path
  { p with pool := pool, loadPath := Function.update p.loadPath e (some interned) }

/-- `xy_runtime_teardown`, with `path_intern_free_all`. -/
def teardown (p : PathPointers) : PathPointers := { start with pool := p.pool.cleared }

/-- What a step does with the pointers. -/
def step (w : World) (c : Config) (a : Action) (p : PathPointers) : PathPointers :=
  match a, c.stack with
  | .call (.deny what .module), _ =>
    match c.st.tls.current.entry with
    | none => p
    | some r => p.denyModule r (w.loadPath what)
  | .call .shutdown, _ => p.teardown
  | .tau, .load tx .opened :: _ =>
    match tx.lookup.entry with
    | some _ => p
    | none => p.allocEntry c.st.rt.nmods tx.lookup.loadPath
  | .tau, .unload e [] :: _ =>
    match (c.st.rt.mods e).bind (·.regionEntry), p.loadPath e with
    | some r, some path => p.moduleRemoveDenies r path
    | _, _ => p
  | _, _ => p

/-- What the source finds by pointers is what the machine finds by paths.

* `answers`: for the path of an entry, and for every region.
* `same`: two entries are of one file exactly when they hold one pointer.
* `lists`: each deny list holds the pointers of the paths denied, in the same order. -/
structure Implements (p : PathPointers) (rt : Runtime) : Prop where
  answers : ∀ e me, rt.mods e = some me → ∃ q, p.loadPath e = some q
    ∧ ∀ r < rt.nregions, p.moduleIsDenied r q = rt.moduleIsDenied r me.loadPath
  same : ∀ e me e' me', rt.mods e = some me → rt.mods e' = some me' →
    (p.loadPath e = p.loadPath e' ↔ me.loadPath = me'.loadPath)
  lists : ∀ r < rt.nregions,
    List.Forall₂ p.pool.Holds (p.deniedModules r) (rt.regions r).deniedModules

end PathPointers

/-- A configuration and its pointers, from one step to the next. -/
def PathNext (w : World) (s : Config × PathPointers) (a : Action) (s' : Config × PathPointers) :
    Prop :=
  Next w s.1 a s'.1 ∧ s'.2 = s.2.step w s.1 a

/-- The configurations with their pointers of all runs. -/
abbrev PathReachable (w : World) : Config × PathPointers → Prop :=
  Run.ReachBy (fun s => s.1.Initial ∧ s.2 = .start) (PathNext w) fun _ _ => True

/-- What is kept: the entries and the lists hold interned pointers, and a set has what its list
has. -/
structure PathPointers.Interned (p : PathPointers) (rt : Runtime) : Prop where
  wf : p.pool.Wf
  entry : ∀ e me, rt.mods e = some me →
    ∃ q, p.loadPath e = some q ∧ p.pool.Holds q me.loadPath
  lists : ∀ r < rt.nregions, List.Forall₂ p.pool.Holds (p.deniedModules r) (rt.denies r).modules
  unused : ∀ r, rt.nregions ≤ r → p.deniedModules r = []
  set : ∀ r q, q ∈ p.deniedModulesSet r ↔ q ∈ p.deniedModules r

section

variable {w : World} {c c' : Config} {a : Action} {ev : Event} {rt rt' : Runtime}
  {p : PathPointers} {e : EntryRef} {me : ModEntry} {r : RegionRef} {q : Nat} {path : CStr}

namespace PathPointers

/-! ## The operations -/

theorem removeLoop_list (path : Nat) (l set : List Nat) :
    (removeLoop path l set).1 = l.filter (· ≠ path) := by
  induction l generalizing set with
  | nil => rfl
  | cons d l ih =>
    unfold removeLoop
    split
    · next hd => rw [ih, List.filter_cons_of_neg (by simpa using hd)]
    · next hd =>
      rw [List.filter_cons_of_pos (by simpa using hd)]
      exact congrArg (d :: ·) (ih set)

theorem mem_removeLoop_set (path : Nat) (l set : List Nat) (x : Nat) :
    x ∈ (removeLoop path l set).2 ↔ x ∈ set ∧ (x = path → path ∉ l) := by
  induction l generalizing set with
  | nil => simp [removeLoop]
  | cons d l ih =>
    unfold removeLoop
    split
    · next hd =>
      subst hd
      rw [ih, List.mem_filter]
      constructor
      · rintro ⟨⟨hx, hne⟩, -⟩
        exact ⟨hx, fun heq => absurd heq (by simpa using hne)⟩
      · rintro ⟨hx, hnot⟩
        have hne : x ≠ d := fun heq => hnot heq List.mem_cons_self
        exact ⟨⟨hx, by simpa using hne⟩, fun heq => absurd heq hne⟩
    · next hd =>
      show x ∈ (removeLoop path l set).2 ↔ _
      rw [ih, List.mem_cons, not_or]
      have hne : path ≠ d := fun heq => hd heq.symm
      exact and_congr_right fun _ => ⟨fun h heq => ⟨hne, h heq⟩, fun h heq => (h heq).2⟩

/-- The set holds what the list holds, after the loop as before. -/
theorem mem_removeLoop_iff {l set : List Nat} (h : ∀ x, x ∈ set ↔ x ∈ l) (path x : Nat) :
    x ∈ (removeLoop path l set).2 ↔ x ∈ (removeLoop path l set).1 := by
  rw [mem_removeLoop_set, removeLoop_list, List.mem_filter, h x]
  refine and_congr_right fun hx => ⟨fun hnot => ?_, fun hne heq => ?_⟩
  · have hne : x ≠ path := fun heq => hnot heq (heq ▸ hx)
    simpa using hne
  · exact absurd heq (by simpa using hne)

/-- Between calls of `xy_shutdown` no pointer is taken back. -/
theorem step_holds (ha : a ≠ .call .shutdown) (h : p.pool.Holds q path) :
    (p.step w c a).pool.Holds q path := by
  unfold step
  split
  · split
    · exact h
    · exact h.intern _
  · exact absurd rfl ha
  · split
    · exact h
    · exact h.intern _
  · split <;> exact h
  · exact h

theorem step_wf (h : p.pool.Wf) : (p.step w c a).pool.Wf := by
  unfold step
  split
  · split
    · exact h
    · exact h.intern _
  · exact .cleared _
  · split
    · exact h
    · exact h.intern _
  · split <;> exact h
  · exact h

/-- An entry is given its path when it is allocated. -/
theorem step_loadPath (ha : a ≠ .call .shutdown) (he : e ≠ c.st.rt.nmods) :
    (p.step w c a).loadPath e = p.loadPath e := by
  unfold step
  split
  · split <;> rfl
  · exact absurd rfl ha
  · split
    · rfl
    · exact Function.update_of_ne he _ _
  · split <;> rfl
  · rfl

/-- The lists are written by a deny, by an unload and by the shutdown. -/
theorem step_lists (hdeny : ∀ what, a ≠ .call (.deny what .module)) (hdown : a ≠ .call .shutdown)
    (hremove : ∀ e k, a = .tau → c.stack ≠ .unload e [] :: k) :
    (p.step w c a).deniedModules = p.deniedModules
      ∧ (p.step w c a).deniedModulesSet = p.deniedModulesSet := by
  unfold step
  split
  · exact absurd rfl (hdeny _)
  · exact absurd rfl hdown
  · split <;> exact ⟨rfl, rfl⟩
  · next hstack => exact absurd hstack (hremove _ _ rfl)
  · exact ⟨rfl, rfl⟩

/-! ## The steps -/

theorem Interned.entry_step (hin : p.Interned c.st.rt) (ha : a ≠ .call .shutdown)
    (heff : Effect w c a rt') (hme : rt'.mods e = some me) (hfresh : c.st.rt.HeapWf) :
    ∃ q, (p.step w c a).loadPath e = some q ∧ (p.step w c a).pool.Holds q me.loadPath := by
  rcases heff.entry hme with ⟨tx, k, rfl, hstack, hl, rfl, rfl⟩ | ⟨me₀, hme₀, hch⟩
  · refine ⟨(p.pool.intern tx.lookup.loadPath).1, ?_, ?_⟩
    · simp [step, hstack, hl, allocEntry]
    · have hpool : (p.step w c .tau).pool = (p.pool.intern tx.lookup.loadPath).2 := by
        simp [step, hstack, hl, allocEntry]
      rw [hpool]
      exact Pool.intern_holds p.pool tx.lookup.loadPath
  · obtain ⟨q, hq, hholds⟩ := hin.entry e me₀ hme₀
    refine ⟨q, ?_, ?_⟩
    · rw [step_loadPath ha (Nat.ne_of_lt (hfresh.lt_of_mods hme₀))]
      exact hq
    · have hpath : me.loadPath = me₀.loadPath := hch.loadPath
      rw [hpath]
      exact step_holds ha hholds

/-- A list of interned pointers is that of the same paths after a step that leaves it. -/
theorem Interned.kept (hin : p.Interned c.st.rt) (ha : a ≠ .call .shutdown)
    (hlist : (p.step w c a).deniedModules r = p.deniedModules r) (hr : r < c.st.rt.nregions) :
    List.Forall₂ (p.step w c a).pool.Holds ((p.step w c a).deniedModules r)
      (c.st.rt.denies r).modules := by
  rw [hlist]
  exact (hin.lists r hr).imp fun _ _ h => step_holds ha h

end PathPointers

theorem interned_deny {what : CStr} (hwf : c.Wf w) (hin : p.Interned c.st.rt)
    (h : step w c (.call (.deny what .module)) = .next c' ev) :
    (p.step w c (.call (.deny what .module))).Interned c'.st.rt := by
  have heff := (Step.of_step h).effect hwf
  have hne : Action.call (.deny what .module) ≠ .call .shutdown := by rintro ⟨⟩
  have hentry : ∀ e me, c'.st.rt.mods e = some me → ∃ q,
      (p.step w c (.call (.deny what .module))).loadPath e = some q
        ∧ (p.step w c (.call (.deny what .module))).pool.Holds q me.loadPath :=
    fun _ _ hme => hin.entry_step hne heff hme hwf.heap
  have hpool : (p.step w c (.call (.deny what .module))).pool.Wf := PathPointers.step_wf hin.wf
  rcases step_deny h with ⟨hcur, hrt⟩ | ⟨x, hcur, hrt⟩
  · have hp : p.step w c (.call (.deny what .module)) = p := by simp [PathPointers.step, hcur]
    rw [hp] at hentry hpool ⊢
    rw [hrt] at hentry ⊢
    exact { hin with entry := hentry }
  · have hp : p.step w c (.call (.deny what .module)) = p.denyModule x (w.loadPath what) := by
      simp [PathPointers.step, hcur]
    have hx := hwf.current x hcur
    have hn : c'.st.rt.nregions = c.st.rt.nregions := by
      rw [hrt]
      exact congrArg Tree.count (recordDeny_tree w c.st.rt x what .module)
    refine ⟨hpool, hentry, fun r hr => ?_, fun r hr => ?_, fun r q => ?_⟩
    · rw [hn] at hr
      rw [hp, hrt, recordDeny_denies hwf.tree hx]
      have hold : List.Forall₂ (p.pool.intern (w.loadPath what)).2.Holds (p.deniedModules r)
          (c.st.rt.denies r).modules := (hin.lists r hr).imp fun _ _ h => h.intern _
      by_cases hrx : r = x
      · subst hrx
        simp only [PathPointers.denyModule, Function.update_self, if_true, RegionDenies.add]
        exact .cons (Pool.intern_holds ..) hold
      · simp only [PathPointers.denyModule, Function.update_of_ne hrx, if_neg hrx]
        exact hold
    · rw [hn] at hr
      rw [hp]
      have hrx : r ≠ x := fun heq => absurd hx (Nat.not_lt.mpr (heq ▸ hr))
      simp only [PathPointers.denyModule, Function.update_of_ne hrx]
      exact hin.unused r hr
    · rw [hp]
      by_cases hrx : r = x
      · subst hrx
        simp only [PathPointers.denyModule, Function.update_self, List.mem_cons, List.mem_filter, hin.set,
          decide_eq_true_eq]
        tauto
      · simp only [PathPointers.denyModule, Function.update_of_ne hrx]
        exact hin.set r q

theorem interned_remove {s : State} {k : List Frame} (hwf : Config.Wf w ⟨s, .unload e [] :: k⟩)
    (hin : p.Interned s.rt) (hme : s.rt.mods e = some me)
    (hrt : rt' = s.rt.removeEntry w e me)
    (hentry : ∀ x m, rt'.mods x = some m →
      ∃ q, p.loadPath x = some q ∧ p.pool.Holds q m.loadPath) :
    (p.step w ⟨s, .unload e [] :: k⟩ .tau).Interned rt' := by
  obtain ⟨q, hq, hholds⟩ := hin.entry e me hme
  have hn : rt'.nregions = s.rt.nregions := by
    rw [hrt]
    exact congrArg Tree.count (removeEntry_tree ..)
  cases hre : me.regionEntry with
  | none =>
    have hp : p.step w ⟨s, .unload e [] :: k⟩ .tau = p := by
      simp [PathPointers.step, hme, hre]
    rw [hp]
    refine ⟨hin.wf, hentry, fun r hr => ?_, fun r hr => hin.unused r (hn ▸ hr), hin.set⟩
    rw [hrt, removeEntry_denies, hre, if_neg (by simp)]
    exact hin.lists r (hn ▸ hr)
  | some x =>
    have hp : p.step w ⟨s, .unload e [] :: k⟩ .tau = p.moduleRemoveDenies x q := by
      simp [PathPointers.step, hme, hre, hq]
    rw [hp]
    refine ⟨hin.wf, hentry, fun r hr => ?_, fun r hr => ?_, fun r y => ?_⟩
    · rw [hn] at hr
      rw [hrt, removeEntry_denies, hre]
      by_cases hrx : r = x
      · subst hrx
        simp only [PathPointers.moduleRemoveDenies, Function.update_self, if_true,
          PathPointers.removeLoop_list, RegionDenies.lift]
        exact Pool.forall₂_filter hin.wf (hin.lists r hr) hholds
      · rw [if_neg (by simpa using fun heq : x = r => hrx heq.symm)]
        simp only [PathPointers.moduleRemoveDenies, Function.update_of_ne hrx]
        exact hin.lists r hr
    · rw [hn] at hr
      have hx : x < s.rt.nregions := hwf.heap.home_lt ((home_of_mods hme).trans hre)
      have hrx : r ≠ x := fun heq => absurd hx (Nat.not_lt.mpr (heq ▸ hr))
      simp only [PathPointers.moduleRemoveDenies, Function.update_of_ne hrx]
      exact hin.unused r hr
    · by_cases hrx : r = x
      · subst hrx
        simp only [PathPointers.moduleRemoveDenies, Function.update_self]
        exact PathPointers.mem_removeLoop_iff (hin.set r) q y
      · simp only [PathPointers.moduleRemoveDenies, Function.update_of_ne hrx]
        exact hin.set r y

/-- Every step goes with its pointers. -/
theorem interned_step (hwf : c.Wf w) (hin : p.Interned c.st.rt) (h : step w c a = .next c' ev) :
    (p.step w c a).Interned c'.st.rt := by
  have hs := Step.of_step h
  have heff := hs.effect hwf
  by_cases hdown : a = .call .shutdown
  · subst hdown
    have hrt : c'.st.rt = c.st.rt.bootstrap := by
      rw [step_shutdown h]
      exact (xyShutdown_spec w c.st).1
    rw [hrt]
    refine ⟨.cleared _, fun e me hme => ?_, fun r _ => ?_, fun _ _ => rfl, fun _ _ => Iff.rfl⟩
    · cases hme
    · exact .nil
  by_cases hdeny : ∃ what, a = .call (.deny what .module)
  · obtain ⟨what, rfl⟩ := hdeny
    exact interned_deny hwf hin h
  have hentry : ∀ e me, c'.st.rt.mods e = some me →
      ∃ q, (p.step w c a).loadPath e = some q ∧ (p.step w c a).pool.Holds q me.loadPath :=
    fun _ _ hme => hin.entry_step hdown heff hme hwf.heap
  by_cases hremove : ∃ e k, a = .tau ∧ c.stack = .unload e [] :: k
  · obtain ⟨e, k, rfl, hstack⟩ := hremove
    obtain ⟨s, stack⟩ := c
    obtain rfl : stack = _ := hstack
    cases hs with
    | @remove _ _ _ me _ _ hme hr =>
      refine interned_remove hwf hin hme ?_ fun x m hx => ?_
      · rw [(resume_spec hr).1.rt, (modUnloadFinish_spec ..).1]
      · have hx := hentry x m hx
        simp only [PathPointers.step] at hx
        split at hx <;> exact hx
  have hpool : (p.step w c a).pool.Wf := PathPointers.step_wf hin.wf
  have hkept := heff.kept hdown
  obtain ⟨hl, hset⟩ := p.step_lists (w := w) (c := c) (a := a) (fun what ha => hdeny ⟨what, ha⟩)
    hdown fun e k ha hs => hremove ⟨e, k, ha, hs⟩
  have hold : ∀ r < c.st.rt.nregions, List.Forall₂ (p.step w c a).pool.Holds
      ((p.step w c a).deniedModules r) (c.st.rt.denies r).modules :=
    fun r hr => hin.kept hdown (congrFun hl r) hr
  refine ⟨hpool, hentry, fun r hr => ?_, fun r hr => ?_, fun r q => ?_⟩
  · cases heff.denies with
    | same hsame hnew =>
      rcases Nat.lt_or_ge r c.st.rt.nregions with hlt | hge
      · rw [hsame r hlt]
        exact hold r hlt
      · rw [hnew r hge hr, hl, hin.unused r hge]
        exact .nil
    | @deny x what type ha hcur hx hrt =>
      cases type with
      | module => exact absurd ⟨what, ha⟩ hdeny
      | hook =>
        have hlt : r < c.st.rt.nregions := by
          rw [hrt] at hr
          exact hr
        rw [hrt, recordDeny_denies hwf.tree hx]
        dsimp only
        split <;> exact hold r hlt
    | remove ha hstack => exact absurd ⟨_, _, ha, hstack⟩ hremove
    | shutdown ha => exact absurd ha hdown
  · rw [hl]
    exact hin.unused r (Nat.le_trans hkept.count hr)
  · rw [hl, hset]
    exact hin.set r q

/-! ## Runs -/

theorem PathReachable.reachable {s : Config × PathPointers} (h : PathReachable w s) :
    Reachable w s.1 := by
  induction h with
  | start h => exact .start h.1
  | step _ _ hs ih => exact ih.step trivial hs.1

theorem interned_of_run {s : Config × PathPointers} (h : PathReachable w s) :
    s.2.Interned s.1.st.rt := by
  induction h with
  | @start s h =>
    obtain ⟨c, p⟩ := s
    obtain ⟨⟨ctxs, adapters, mem, rfl⟩, rfl⟩ := h
    refine ⟨.cleared PathPointers.start.pool, fun e me hme => ?_, fun r _ => ?_, fun _ _ => rfl,
      fun _ _ => Iff.rfl⟩
    · cases hme
    · exact .nil
  | @step s s' a hr _ hs ih =>
    obtain ⟨⟨ev, hev⟩, hp⟩ := hs
    rw [hp]
    exact interned_step (.of_reachable (PathReachable.reachable hr)) ih hev

/-- In every run, comparing the interned pointers is comparing the paths: the source finds a
module denied in a region exactly when the machine does. -/
theorem implements_of_run {s : Config × PathPointers} (h : PathReachable w s) :
    s.2.Implements s.1.st.rt := by
  have hin := interned_of_run h
  refine ⟨fun e me hme => ?_, fun e me e' me' hme hme' => ?_, fun r hr => hin.lists r hr⟩
  · obtain ⟨q, hq, hholds⟩ := hin.entry e me hme
    refine ⟨q, hq, fun r hr => ?_⟩
    have hmem : q ∈ s.2.deniedModules r ↔ me.loadPath ∈ (s.1.st.rt.regions r).deniedModules :=
      Pool.mem_iff hin.wf (hin.lists r hr) hholds
    rw [PathPointers.moduleIsDenied, moduleIsDenied, Bool.eq_iff_iff]
    simp [hin.set, hmem]
  · obtain ⟨q, hq, hholds⟩ := hin.entry e me hme
    obtain ⟨q', hq', hholds'⟩ := hin.entry e' me' hme'
    rw [hq, hq', Option.some.injEq]
    exact hholds.eq_iff hin.wf hholds'

/-- One action, beside the pointers. -/
def pathStep (w : World) (s : Config × PathPointers) (a : Action) :
    Option (Config × PathPointers) :=
  match step w s.1 a with
  | .next c' _ => some (c', s.2.step w s.1 a)
  | _ => none

theorem PathNext.of_step {s s' : Config × PathPointers} (h : pathStep w s a = some s') :
    PathNext w s a s' := by
  unfold pathStep at h
  split at h
  · next c' ev hs =>
    cases h
    exact ⟨⟨ev, hs⟩, rfl⟩
  · cases h

end

/-- One file is loaded into a region and into the root, where a second file is denied twice
and the first one once; the instance in the root is unloaded. -/
def deniedRun : List Action :=
  twoRegions ++ [.call (.deny sampleFile' .module), .call (.deny sampleFile .module),
    .call (.deny sampleFile' .module), .call (.unload sampleFile), .tau]

def deniedEnd : Config × PathPointers :=
  Run.follow (pathStep sampleWorld) (fun _ _ => True) (Config.boot sampleHook, .start) deniedRun

/-- The first file has the pointer 0 and the second 1.  The unload has lifted the deny of the
first. -/
theorem implements_of_denied :
    deniedEnd.2.deniedModules 0 = [1, 1] ∧ deniedEnd.2.deniedModulesSet 0 = [1]
      ∧ deniedEnd.2.loadPath 0 = some 0 ∧ deniedEnd.2.moduleIsDenied 0 0 = false
      ∧ deniedEnd.2.Implements deniedEnd.1.st.rt := by
  have hreach : PathReachable sampleWorld deniedEnd :=
    Run.ReachBy.follow (fun _ _ _ => PathNext.of_step) (.start ⟨Config.boot_initial _, rfl⟩) _
  exact ⟨by decide +kernel, by decide +kernel, by decide +kernel, by decide +kernel,
    implements_of_run hreach⟩

end Xylem
