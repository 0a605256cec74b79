import Xylem.Parents
import Xylem.Quiet

/-!
# The owner of a module that is reloaded

`mod_load_alloc_entry` takes the parent of an entry from `xy_loading_mod`.  The entry
that an `xy_reload` makes belongs to the module in whose `xy_install` the reload was
called, whatever the parent of the old entry has been.

`Lineage` follows a module from entry to entry, and collects what `xy_loading_mod` was
when a reload that replaced the entry was called.  The last of these is the parent
(`Lineage.parent`).
-/

namespace Xylem

open Xylem.Runtime

/-- The entries that `_mod_unload` collects when the last holder of `x` lets it go. -/
def State.collected (w : World) (s : State) (x : EntryRef) : List EntryRef :=
  (s.release x).rt.cascadeChildren w x

/-- `p` is the parent of `e`: `e` is in the list that the cascade goes through when the
last holder of `p` lets it go, and in no such list of another module. -/
structure Config.OwnedBy (w : World) (c : Config) (p e : EntryRef) : Prop where
  parent : (c.st.rt.mods e).bind (·.parentEntry) = some p
  collected : e ∈ c.st.rt.modHdValues w → ∀ x ≠ e, e ∈ c.st.collected w x ↔ x = p

/-- The module that had the entry `e₀` in `c₀` has the entry `e` in `c`.

* `step`: the entry lives on.  This covers a reload that finds other holders, which
  leaves the entry where it is.
* `reload`: an `xy_reload` that finds the entry comes to allocate a new one. -/
inductive Lineage (w : World) (c₀ : Config) (e₀ : EntryRef) :
    List (Option EntryRef) → Config → EntryRef → Prop
  | start : Lineage w c₀ e₀ [] c₀ e₀
  | step {ls : List (Option EntryRef)} {c c' : Config} {e : EntryRef} {a : Action} {ev : Event}
      (h : Lineage w c₀ e₀ ls c e) (hs : Xylem.step w c a = .next c' ev)
      (hlive : (c'.st.rt.mods e).isSome) : Lineage w c₀ e₀ ls c' e
  | reload {ls : List (Option EntryRef)} {c c₁ c₂ c' : Config} {e : EntryRef} {fname : CStr}
      {ev ev' : Event} {log : List Move} {tx : LoadTxn} {rl : Reload}
      (h : Lineage w c₀ e₀ ls c e) (hfind : c.st.find w fname = some e)
      (hs : Xylem.step w c (.call (.reload fname)) = .next c₁ ev)
      (hin : Inside w c.stack.length c₁ log c₂)
      (hstack : c₂.stack = .load tx .opened :: .reload rl .loading :: c.stack)
      (hnew : tx.lookup.entry = none) (hs' : Xylem.step w c₂ .tau = .next c' ev') :
      Lineage w c₀ e₀ (ls ++ [c.st.tls.loadingMod]) c' c₂.st.rt.nmods

section

variable {w : World} {c₀ c c₁ c₂ c' : Config} {e₀ e p : EntryRef} {me : ModEntry}
  {ls : List (Option EntryRef)} {a : Action} {ev : Event}

/-- The parent of an entry that lives on stays the same. -/
theorem Step.parentEntry (hwf : c.Wf w) (h : Step w c a c' ev) (hme : c.st.rt.mods e = some me)
    (hlive : (c'.st.rt.mods e).isSome) :
    ∃ me', c'.st.rt.mods e = some me' ∧ me'.parentEntry = me.parentEntry := by
  obtain ⟨me', hme'⟩ := Option.isSome_iff_exists.mp hlive
  refine ⟨me', hme', ?_⟩
  rcases (h.effect hwf).entry hme' with ⟨tx, k, -, -, -, hnew, -⟩ | ⟨me₁, hme₁, hch⟩
  · have hlt := hwf.heap.lt_of_mods hme
    rw [hnew] at hlt
    exact absurd hlt (Nat.lt_irrefl _)
  · cases hme₁.symm.trans hme
    exact hch.parentEntry

/-- The entry that a load allocates belongs to the module that is being loaded. -/
theorem Step.publish_entry {tx : LoadTxn} {k : List Frame} (h : Step w c .tau c' ev)
    (hstack : c.stack = .load tx .opened :: k) (hnew : tx.lookup.entry = none) :
    c'.st.rt.mods c.st.rt.nmods = some (tx.freshEntry c.st.tls.loadingMod) := by
  cases h with
  | reuse hl hme hr =>
    cases hstack
    rw [hnew] at hl
    cases hl
  | publish hl =>
    cases hstack
    simp [modLoadAllocPublish, publishEntry]
  | _ => cases hstack

/-- The parent is what `xy_loading_mod` was when the last of the reloads was called. -/
theorem Lineage.parent (hreach : Reachable w c₀)
    (hp : (c₀.st.rt.mods e₀).bind (·.parentEntry) = some p) (h : Lineage w c₀ e₀ ls c e) :
    Reachable w c ∧ ∃ me, c.st.rt.mods e = some me ∧ me.parentEntry = ls.getLast?.getD (some p) := by
  induction h with
  | start => exact ⟨hreach, Option.bind_eq_some_iff.mp hp⟩
  | step h hs hlive ih =>
    obtain ⟨hc, me, hme, hpar⟩ := ih
    obtain ⟨me', hme', hsame⟩ := (Step.of_step hs).parentEntry (.of_reachable hc) hme hlive
    exact ⟨hc.step trivial ⟨_, hs⟩, me', hme', hsame.trans hpar⟩
  | @reload ls c c₁ c₂ c' e fname ev ev' log tx rl h hfind hs hin hstack hnew hs' ih =>
    obtain ⟨hc, -⟩ := ih
    have hc₂ : Reachable w c₂ :=
      hin.reachable (fun _ _ => trivial) (hc.step trivial ⟨_, hs⟩)
    have hloader : c₂.st.tls.loadingMod = c.st.tls.loadingMod := by
      have hnow := loaderIs_of_reachable hc₂
      rw [hstack] at hnow
      exact (loaderIs_of_reachable hc).unique hnow
    refine ⟨hc₂.step trivial ⟨_, hs'⟩, _, (Step.of_step hs').publish_entry hstack hnew, ?_⟩
    rw [List.getLast?_append]
    exact hloader

/-- The cascades that collect an entry are those of its parent. -/
theorem Config.OwnedBy.of_parent (h : (c.st.rt.mods e).bind (·.parentEntry) = some p) :
    c.OwnedBy w p e := by
  obtain ⟨me, hme, hpar⟩ := Option.bind_eq_some_iff.mp h
  refine ⟨h, fun hin x hx => ?_⟩
  have hme' : (c.st.release x).rt.mods e = some me := by
    simp [State.release, modifyMod, Ne.symm hx, hme]
  have hin' : e ∈ (c.st.release x).rt.modHdValues w := hin
  unfold State.collected cascadeChildren
  rw [List.mem_filter, hme']
  simp only [hin', Ne.symm hx, hpar, ne_eq, not_false_eq_true, true_and, Option.any_some,
    Option.some.injEq, decide_eq_true_eq]
  exact eq_comm

/-- After any reloads of a module that `p` has loaded, by whomever and whenever, `p` is
its parent exactly when the last reload that replaced its entry was called while `p`
was being installed. -/
theorem reload_keeps_owner_iff (hreach : Reachable w c₀)
    (hp : (c₀.st.rt.mods e₀).bind (·.parentEntry) = some p) (h : Lineage w c₀ e₀ ls c e) :
    c.OwnedBy w p e ↔ ∀ l ∈ ls.getLast?, l = some p := by
  obtain ⟨-, me, hme, hpar⟩ := h.parent hreach hp
  have hparent : (c.st.rt.mods e).bind (·.parentEntry) = ls.getLast?.getD (some p) := by
    rw [hme]
    exact hpar
  cases hlast : ls.getLast? with
  | none =>
    rw [hlast] at hparent
    exact ⟨fun _ => nofun, fun _ => .of_parent hparent⟩
  | some l =>
    rw [hlast] at hparent
    constructor
    · intro howned l' hl'
      cases hl'
      exact hparent.symm.trans howned.parent
    · intro hl
      exact .of_parent (hparent.trans (hl l rfl))

end

/-! ## Reloads by the owner and by others -/

/-- Whether the load of the reload above `n` calls is about to allocate its entry. -/
def Config.reloadPublishes (n : Nat) (c : Config) : Bool :=
  match c.stack with
  | .load tx .opened :: .reload _ .loading :: k => tx.lookup.entry.isNone && k.length = n
  | _ => false

section

variable {w : World} {c₀ c : Config} {e₀ e : EntryRef} {ls : List (Option EntryRef)}

/-- A reload, with its actions up to the allocation of the entry. -/
theorem Lineage.reload_of_actions {c₂ : Config} {fname : CStr} {l : List Action}
    (h : Lineage w c₀ e₀ ls c e) (hfind : c.st.find w fname = some e)
    (hlen : (movesOf w c (.call (.reload fname) :: l)).length = l.length + 1)
    (hin : ∀ m ∈ movesOf w c (.call (.reload fname) :: l), c.stack.length < m.after.stack.length)
    (hc₂ : c.after w (.call (.reload fname) :: l) = c₂)
    (hpub : c₂.reloadPublishes c.stack.length = true) (hlast : (movesOf w c₂ [.tau]).length = 1) :
    Lineage w c₀ e₀ (ls ++ [c.st.tls.loadingMod]) (c₂.after w [.tau]) c₂.st.rt.nmods := by
  obtain ⟨c₁, ev, hs, -, hinside⟩ := inside_of_moves hlen hin
  obtain ⟨ev', hs'⟩ := step_of_moves hlast
  rw [hc₂] at hinside
  unfold Config.reloadPublishes at hpub
  split at hpub
  · next tx rl k hstack =>
    rw [Bool.and_eq_true, Option.isNone_iff_eq_none, decide_eq_true_eq] at hpub
    obtain ⟨hnew, hk⟩ := hpub
    obtain ⟨m, hm⟩ := (Step.of_step hs).call_push
    obtain ⟨m', hm'⟩ := hinside.rest hm
    have htop : [.load tx .opened, .reload rl .loading] ++ k = m' ++ c.stack := hstack.symm.trans hm'
    obtain ⟨-, rfl⟩ := List.append_inj' htop hk
    exact h.reload hfind hs hinside hstack hnew hs'
  · cases hpub

/-- The module keeps its entry. -/
theorem Lineage.of_runActions {c' : Config} {l : List Action} (h : Lineage w c₀ e₀ ls c e)
    (hrun : runActions w c l = some c')
    (hlive : ∀ m ∈ movesOf w c l, (m.after.st.rt.mods e).isSome) : Lineage w c₀ e₀ ls c' e := by
  induction l generalizing c with
  | nil =>
    cases hrun
    exact h
  | cons a l ih =>
    cases hs : Xylem.step w c a with
    | undef | disabled =>
      simp only [runActions, hs] at hrun
      cases hrun
    | next c₁ ev =>
      simp only [runActions, hs] at hrun
      simp only [movesOf, hs] at hlive
      exact ih (h.step hs (hlive _ List.mem_cons_self)) hrun
        fun m hm => hlive m (List.mem_cons_of_mem _ hm)

end

/-- The owner reloads the module while it is being installed itself. -/
theorem ownedBy_of_owner_reload :
    ∃ (c : Config) (e : EntryRef), c.stack = [] ∧ c.OwnedBy sampleWorld 0 e := by
  let c₀ := (Config.boot sampleHook).after sampleWorld
    ((loadRun sampleFile 1).take 7 ++ loadRun sampleFile' 2)
  let l : List Action := [.tau, .tau, .ret (.dlopened (some 2))]
  let c₂ := c₀.after sampleWorld (.call (.reload sampleFile') :: l)
  let c₃ := c₂.after sampleWorld [.tau]
  let rest : List Action := [.tau, .tau, .tau, .tau, .ret .installed, .tau, .ret .installed]
  have hreach : Reachable sampleWorld c₀ :=
    ReachableBy.after (.start (Config.boot_initial _)) fun _ _ _ => trivial
  have hparent : (c₀.st.rt.mods 1).bind (·.parentEntry) = some 0 := by decide +kernel
  have hfind : c₀.st.find sampleWorld sampleFile' = some 1 := by decide +kernel
  have hlen : (movesOf sampleWorld c₀ (.call (.reload sampleFile') :: l)).length = l.length + 1 := by
    decide +kernel
  have hover : ∀ m ∈ movesOf sampleWorld c₀ (.call (.reload sampleFile') :: l),
      c₀.stack.length < m.after.stack.length := by decide +kernel
  have hpub : c₂.reloadPublishes c₀.stack.length = true := by decide +kernel
  have hlast : (movesOf sampleWorld c₂ [.tau]).length = 1 := by decide +kernel
  have hloader : c₀.st.tls.loadingMod = some 0 := by decide +kernel
  have hrest : (movesOf sampleWorld c₃ rest).length = rest.length := by decide +kernel
  have hlive : ∀ m ∈ movesOf sampleWorld c₃ rest, (m.after.st.rt.mods c₂.st.rt.nmods).isSome := by
    decide +kernel
  have hempty : (c₃.after sampleWorld rest).stack.isEmpty = true := by decide +kernel
  have hpublished : Lineage sampleWorld c₀ 1 ([] ++ [c₀.st.tls.loadingMod]) c₃ c₂.st.rt.nmods :=
    Lineage.start.reload_of_actions hfind hlen hover rfl hpub hlast
  rw [hloader] at hpublished
  have hline : Lineage sampleWorld c₀ 1 ([] ++ [some 0]) (c₃.after sampleWorld rest)
      c₂.st.rt.nmods := hpublished.of_runActions (runActions_of_length hrest) hlive
  have hlater : ∀ l ∈ ([] ++ [some (0 : EntryRef)]).getLast?, l = some 0 := by decide
  exact ⟨_, _, List.isEmpty_iff.mp hempty, (reload_keeps_owner_iff hreach hparent hline).mpr hlater⟩

/-- The host reloads a module that another one has loaded. -/
theorem not_ownedBy_of_host_reload :
    ∃ c₀ p e₀ ls c e, Reachable sampleWorld c₀
      ∧ (c₀.st.rt.mods e₀).bind (·.parentEntry) = some p
      ∧ (∃ log, CallRun sampleWorld c₀ (.reload sampleFile') log (.int xyOk) c)
      ∧ Lineage sampleWorld c₀ e₀ ls c e ∧ ¬ c.OwnedBy sampleWorld p e := by
  let c₀ := (Config.boot sampleHook).after sampleWorld nestedRun
  let q : Call := .reload sampleFile'
  let l : List Action := [.tau, .tau, .ret (.dlopened (some 2))]
  let rest : List Action := [.tau, .tau, .tau, .tau, .ret .installed]
  let c₂ := c₀.after sampleWorld (.call q :: l)
  let c₃ := c₂.after sampleWorld [.tau]
  let c₄ := c₀.after sampleWorld (.call q :: (l ++ (.tau :: rest)))
  have hreach : Reachable sampleWorld c₀ :=
    ReachableBy.after (.start (Config.boot_initial _)) fun _ _ _ => trivial
  have hempty : c₀.stack = [] := List.length_eq_zero_iff.mp (by decide +kernel)
  have hparent : (c₀.st.rt.mods 1).bind (·.parentEntry) = some 0 := by decide +kernel
  have hfind : c₀.st.find sampleWorld sampleFile' = some 1 := by decide +kernel
  have hloader : c₀.st.tls.loadingMod = none := by decide +kernel
  have hlen : (movesOf sampleWorld c₀ (.call q :: l)).length = l.length + 1 := by decide +kernel
  have hlast : (movesOf sampleWorld c₂ [.tau]).length = 1 := by decide +kernel
  have hwhole : (movesOf sampleWorld c₀ (.call q :: (l ++ (.tau :: rest)))).length
      = (l ++ (.tau :: rest)).length + 1 := by decide +kernel
  have hover : ∀ m ∈ movesOf sampleWorld c₀ (.call q :: (l ++ (.tau :: rest))),
      0 < m.after.stack.length := by decide +kernel
  have hpub : c₂.reloadPublishes c₀.stack.length = true := by decide +kernel
  have hlive : ∀ m ∈ movesOf sampleWorld c₃ rest, (m.after.st.rt.mods 2).isSome := by decide +kernel
  have hnew : c₂.st.rt.nmods = 2 := by decide +kernel
  have hstart : ∀ m ∈ movesOf sampleWorld c₀ (.call q :: l), c₀.stack.length < m.after.stack.length := by
    decide +kernel
  have hend : (movesOf sampleWorld c₄ [.tau]).map (fun m => (m.event, m.after.stack.length))
      = [(.returned (.int xyOk), 0)] := by decide +kernel
  have hstays : ((c₄.after sampleWorld [.tau]).st.rt.mods 2).isSome := by decide +kernel
  have hcall : CallRun sampleWorld c₀ q _ (.int xyOk) (c₄.after sampleWorld [.tau]) :=
    .of_actions hempty hwhole hover hend
  have hpublished : Lineage sampleWorld c₀ 1 ([] ++ [c₀.st.tls.loadingMod]) c₃ c₂.st.rt.nmods :=
    Lineage.start.reload_of_actions hfind hlen hstart rfl hpub hlast
  rw [hloader, hnew] at hpublished
  have hrun₂ : runActions sampleWorld c₀ (.call q :: l) = some c₂ := runActions_of_length hlen
  have hrun₃ : runActions sampleWorld c₂ [.tau] = some c₃ := runActions_of_length hlast
  have hrun₄ : runActions sampleWorld c₀ (.call q :: (l ++ (.tau :: rest))) = some c₄ :=
    runActions_of_length hwhole
  have hfrom₂ : runActions sampleWorld c₂ (.tau :: rest) = some c₄ :=
    (runActions_append hrun₂).symm.trans hrun₄
  have hfrom₃ : runActions sampleWorld c₃ rest = some c₄ :=
    (runActions_append hrun₃).symm.trans hfrom₂
  have hstep : step sampleWorld c₄ .tau = .next (c₄.after sampleWorld [.tau]) (.returned (.int xyOk)) :=
    step_of_events (by simpa using congrArg (List.map Prod.fst) hend)
  have hline₄ : Lineage sampleWorld c₀ 1 ([] ++ [none]) c₄ 2 :=
    hpublished.of_runActions hfrom₃ hlive
  have hline : Lineage sampleWorld c₀ 1 ([] ++ [none]) (c₄.after sampleWorld [.tau]) 2 :=
    hline₄.step hstep hstays
  refine ⟨c₀, 0, 1, _, _, 2, hreach, hparent, ⟨_, hcall⟩, hline, fun howned => ?_⟩
  have horphan : ((c₄.after sampleWorld [.tau]).st.rt.mods 2).bind (·.parentEntry) = none := by
    decide +kernel
  exact absurd (horphan.symm.trans howned.parent) nofun

end Xylem
