import Xylem.Parents
import Xylem.Quiet
import Xylem.Table
import Xylem.Lib.Cascade

/-!
# What an unload takes down

An `xy_unload` that gives back the last reference to a module unloads the modules
that were loaded in its `xy_install`, and so on.  `CascadeExact` is what that
should come to: each of these loses one reference, those that had no other fall,
and nothing else is touched.

The code finds a child by the path string in its context.  A child without a
context is passed over, and the path of a context that two modules share leads to
one of them.  `ChildrenFound` rules that out, for the modules below the one that
is unloaded; then the moves of the host are those of a `Cascade`
(`Follows.step`), which runs to its end.
-/

namespace Xylem

open Xylem.Runtime

/-! ## Parents are older -/

/-- The value of `xy_loading_mod` that a call in progress will restore. -/
def Frame.savedLoader : Frame → Option EntryRef
  | .load _ (.installing prev) => prev
  | _ => none

/-- A parent has been allocated before its children. -/
structure Config.ParentsOlder (c : Config) : Prop where
  older : ∀ x me, c.st.rt.mods x = some me → ∀ p ∈ me.parentEntry, p < x
  loader : ∀ e ∈ c.st.tls.loadingMod, e < c.st.rt.nmods
  saved : ∀ f ∈ c.stack, ∀ e ∈ f.savedLoader, e < c.st.rt.nmods

section

variable {w : World} {c c' : Config} {a : Action} {ev : Event}

theorem Step.loader_lt {n : Nat} (hwf : c.Wf w) (h : Step w c a c' ev)
    (hloader : ∀ e ∈ c.st.tls.loadingMod, e < n)
    (hsaved : ∀ f ∈ c.stack, ∀ e ∈ f.savedLoader, e < n)
    (hn : c.st.rt.nmods ≤ n) :
    (∀ e ∈ c'.st.tls.loadingMod, e < n) ∧ ∀ f ∈ c'.stack, ∀ e ∈ f.savedLoader, e < n := by
  have hreload : ∀ rl pc, ∀ e ∈ Frame.savedLoader (.reload rl pc), e < n := fun _ _ _ he => by
    cases he
  have hunload : ∀ e l, ∀ x ∈ Frame.savedLoader (.unload e l), x < n := fun _ _ _ he => by
    cases he
  have hpush : ∀ {f : Frame} {k : List Frame}, f.savedLoader = none →
      (∀ f ∈ k, ∀ e ∈ f.savedLoader, e < n) → ∀ g ∈ f :: k, ∀ e ∈ g.savedLoader, e < n :=
    fun hf hk => List.forall_mem_cons.mpr ⟨by simp [hf], hk⟩
  have hresume : ∀ {s : State} {ret : Int} {k : List Frame}, resume s ret k = .next c' ev →
      (∀ e ∈ s.tls.loadingMod, e < n) → (∀ f ∈ k, ∀ e ∈ f.savedLoader, e < n) →
      (∀ e ∈ c'.st.tls.loadingMod, e < n) ∧ ∀ f ∈ c'.stack, ∀ e ∈ f.savedLoader, e < n :=
    fun hr hs hk => by
      obtain ⟨hstill, hk'⟩ := resume_spec hr
      exact ⟨hstill.loadingMod ▸ hs, hk'.forall hreload hk⟩
  have hunloads : ∀ {s : State} {fname : CStr} {id : RegionId} {plen : Nat} {k : List Frame},
      Unloads w s fname id plen k c' ev → (∀ e ∈ s.tls.loadingMod, e < n) →
      (∀ f ∈ k, ∀ e ∈ f.savedLoader, e < n) →
      (∀ e ∈ c'.st.tls.loadingMod, e < n) ∧ ∀ f ∈ c'.stack, ∀ e ∈ f.savedLoader, e < n :=
    fun hu hs hk => by
      refine ⟨?_, hu.forall hreload hunload hk⟩
      cases hu with
      | notFound hl hr => exact (resume_spec hr).1.loadingMod ▸ hs
      | shared hl hme href hr => exact (resume_spec hr).1.loadingMod ▸ hs
      | cascade hl hme href => exact hs
  have htail : ∀ {s : State} {f : Frame} {k : List Frame}, c = ⟨s, f :: k⟩ →
      ∀ g ∈ k, ∀ e ∈ g.savedLoader, e < n := fun heq g hg =>
    hsaved g (heq ▸ List.mem_cons_of_mem _ hg)
  have hquiet : c.Quiet a → (∀ e ∈ c'.st.tls.loadingMod, e < n)
      ∧ ∀ f ∈ c'.stack, ∀ e ∈ f.savedLoader, e < n := fun hq => by
    obtain ⟨-, htls, hstack⟩ := h.sameModules hwf hq
    refine ⟨htls ▸ hloader, fun f hf e he => ?_⟩
    have hload : f.isLoading = true := by
      cases f <;> first | rfl | cases he
    have hin : f ∈ c'.loading := List.mem_filter.mpr ⟨hf, hload⟩
    rw [hstack] at hin
    exact hsaved f (List.mem_filter.mp hin).1 e he
  cases h with
  | load => exact ⟨hloader, hpush rfl hsaved⟩
  | unload hw hu => exact hunloads hu hloader hsaved
  | reload hw hl hme hu => exact hunloads hu hloader (hpush rfl hsaved)
  | answered => exact ⟨hloader, hsaved⟩
  | direct hw hq =>
    rw [(callDirect_sameModules hwf hq).2]
    exact ⟨hloader, hsaved⟩
  | scope | eachFirst | dispatchDone | dispatchLoop => exact hquiet trivial
  | @shutdown s =>
    refine ⟨?_, hsaved⟩
    show ∀ e ∈ (xyShutdown w s).tls.loadingMod, e < n
    rw [(xyShutdown_spec w s).2.2.2]
    exact hloader
  | dlopenFailed hr => exact hresume hr hloader (htail rfl)
  | dlopened | claimFlat | claimRefused | claimAsked | publish | notGranted | link
  | installMissing | cascadeSkip => exact ⟨hloader, hpush rfl (htail rfl)⟩
  | reloadLoad => exact ⟨hloader, hpush rfl (hpush rfl (htail rfl))⟩
  | reuse hl hme hr => exact hresume hr hloader (htail rfl)
  | @bind s k tx =>
    refine ⟨?_, ?_⟩
    · rw [(modLoadBindXy_spec w s tx).2.1]
      exact hloader
    · refine hpush ?_ (htail rfl)
      split <;> rfl
  | granted hg =>
    obtain ⟨-, -, -, -, rfl⟩ := xyClaimGranted_ok hg
    exact ⟨hloader, hpush rfl (htail rfl)⟩
  | @rekey s k tx child e me he hme =>
    refine ⟨?_, hpush rfl (htail rfl)⟩
    show ∀ e ∈ (moduleRekeyForClaim w s tx.fname tx.inheritedKey child).tls.loadingMod, e < n
    rw [(moduleRekeyForClaim_spec ..).1]
    exact hloader
  | @install s k tx e he hi =>
    obtain ⟨e', he', hlt, -⟩ := (hwf.top rfl).late rfl
    obtain rfl : e = e' := Option.some.inj (he.symm.trans he')
    refine ⟨fun x hx => ?_, List.forall_mem_cons.mpr ⟨hloader, htail rfl⟩⟩
    cases hx
    exact Nat.lt_of_lt_of_le hlt hn
  | @installed s k tx prev c' ev hr =>
    refine hresume hr ?_ (htail rfl)
    rw [(modLoadRestoreContext_spec _ _).2.2.1]
    exact hsaved _ List.mem_cons_self
  | abort ha hr =>
    obtain ⟨e, he, -, -⟩ := (hwf.top rfl).late rfl
    obtain ⟨me, hme, -, -, hload, -⟩ := modLoadAbort_spec he ha
    refine hresume hr ?_ (htail rfl)
    rw [hload]
    exact hloader
  | cascade hme hp hs hu => exact hunloads hu hloader (hpush rfl (htail rfl))
  | remove hme hr =>
    refine hresume hr ?_ (htail rfl)
    rw [(modUnloadFinish_spec ..).2.2.2]
    exact hloader
  | reinsert | reloadEnd => exact ⟨hloader, htail rfl⟩
  | dispatchEnd | selfSkip | selfDeaf | selfEnter | slotSkip | slotEnter | selfListened
  | slotListened | scopeEnd | eachNext | eachEnd =>
    exact hquiet fun f hf => by
      cases hf
      rfl

theorem parentsOlder_of_reachable {ok : Config → Action → Prop} (h : ReachableBy w ok c) :
    c.ParentsOlder := by
  refine h.invariant_wf Config.ParentsOlder ?_ fun c a c' ev hwf hin _ hs => ?_
  · rintro c ⟨ctxs, adapters, mem, rfl⟩
    refine ⟨fun x me hx => ?_, fun e he => ?_, fun f hf => ?_⟩
    · cases hx
    · cases he
    · cases hf
  · have heff := hs.effect hwf
    have hn := heff.nmods_le hwf
    obtain ⟨hloader, hsaved⟩ := hs.loader_lt hwf
      (fun e he => Nat.lt_of_lt_of_le (hin.loader e he) hn)
      (fun f hf e he => Nat.lt_of_lt_of_le (hin.saved f hf e he) hn) hn
    refine ⟨fun x me' hx p hp => ?_, hloader, hsaved⟩
    rcases heff.entry hx with ⟨tx, k, -, -, -, rfl, rfl⟩ | ⟨me, hme, hch⟩
    · exact hin.loader p hp
    · have hparent : me'.parentEntry = me.parentEntry := hch.parentEntry
      exact hin.older x me hme p (hparent ▸ hp)

end

/-! ## The forest of parents -/

namespace Runtime

/-- The module in whose `xy_install` an entry was loaded. -/
def loaderOf (rt : Runtime) (x : EntryRef) : Option EntryRef := (rt.mods x).bind (·.parentEntry)

/-- The next holder that lets the entry go is the last one. -/
def OneHolder (rt : Runtime) (x : EntryRef) : Prop := ∀ me ∈ rt.mods x, ¬ 0 < me.refcount - 1

/-- The last holder of `e` takes `x` down with it. -/
def Falls (rt : Runtime) (e x : EntryRef) : Prop := Cascade.Falls rt.loaderOf rt.OneHolder e x

/-- The parent of `x` falls with `e`. -/
def Orphaned (rt : Runtime) (e x : EntryRef) : Prop :=
  Cascade.Orphaned rt.loaderOf rt.OneHolder e x

end Runtime

/-- What the unload of `e` by its last holder should come to. -/
structure CascadeExact (rt rt' : Runtime) (e : EntryRef) : Prop where
  removed : ∀ x, rt.Falls e x → rt'.mods x = none
  released : ∀ x, rt.Orphaned e x → ¬ rt.Falls e x →
    (rt'.mods x).map (·.refcount) = (rt.mods x).map (·.refcount - 1)
  kept : ∀ x, x ≠ e → ¬ rt.Orphaned e x →
    (rt'.mods x).map (·.refcount) = (rt.mods x).map (·.refcount)

/-- The path in the context of a module that loses its parent leads back to the
module. -/
def State.ChildrenFound (w : World) (s : State) (e : EntryRef) : Prop :=
  ∀ x me, s.rt.mods x = some me → s.rt.Orphaned e x → s.cascadeLookup w me = some x

/-! ## The views of an unload -/

/-- An entry that has lost one reference. -/
def ModEntry.dropped (me : ModEntry) : ModEntry := { me with refcount := me.refcount - 1 }

section

variable {w : World} {rt : Runtime} {s : State} {e x : EntryRef} {me : ModEntry}

theorem release_core (s : State) (e x : EntryRef) :
    (s.release e).rt.core x
      = if x = e then (s.rt.core x).map ModEntry.dropped else s.rt.core x := by
  show ((Function.update s.rt.mods e _) x).map ModEntry.core = _
  by_cases hx : x = e
  · subst hx
    rw [Function.update_self, if_pos rfl, core, Option.map_map, Option.map_map]
    rfl
  · rw [Function.update_of_ne hx, if_neg hx]
    rfl

theorem removeEntry_core (rt : Runtime) (e : EntryRef) (me : ModEntry) (x : EntryRef) :
    (rt.removeEntry w e me).core x = if x = e then none else rt.core x := by
  obtain ⟨rt₁, hcore, hmods⟩ := removeEntry_mods (w := w) rt e me
  show ((rt.removeEntry w e me).mods x).map ModEntry.core = _
  rw [hmods]
  by_cases hx : x = e
  · subst hx
    rw [Function.update_self, if_pos rfl]
    rfl
  · rw [Function.update_of_ne hx, if_neg hx]
    exact congrFun hcore x

/-- The children that a cascade collects are those that the table has, each once. -/
theorem cascadeChildren_spec (w : World) (e : EntryRef)
    (hkey : ∀ {κ κ' x}, rt.modHd.lookup κ = some x → rt.modHd.lookup κ' = some x → κ = κ') :
    (rt.cascadeChildren w e).Nodup ∧ ∀ x, x ∈ rt.cascadeChildren w e
      ↔ (∃ κ, rt.modHd.lookup κ = some x) ∧ x ≠ e ∧ rt.loaderOf x = some e := by
  have hmem : ∀ x, x ∈ rt.modHdValues w ↔ ∃ κ, rt.modHd.lookup κ = some x := fun x => by
    rw [modHdValues, (w.iterOrder_perm _).mem_iff, List.mem_map]
    constructor
    · rintro ⟨⟨κ, y⟩, hin, rfl⟩
      exact ⟨κ, AList.mem_lookup_iff.mpr hin⟩
    · rintro ⟨κ, hκ⟩
      exact ⟨⟨κ, x⟩, AList.mem_lookup_iff.mp hκ, rfl⟩
  refine ⟨List.Nodup.filter _ ?_, fun x => ?_⟩
  · refine (w.iterOrder_perm _).nodup_iff.mpr (List.Nodup.map_on ?_ rt.modHd.nodupKeys.nodup)
    rintro ⟨κ, x⟩ hx ⟨κ', y⟩ hy heq
    obtain rfl : x = y := heq
    rw [hkey (AList.mem_lookup_iff.mpr hx) (AList.mem_lookup_iff.mpr hy)]
  · rw [cascadeChildren, List.mem_filter, hmem]
    refine and_congr_right fun _ => ?_
    rw [decide_eq_true_eq, loaderOf]
    cases rt.mods x <;> simp

end

/-! ## The unload follows the cascade -/

/-- The frames of a cascade on top of the stack of the caller. -/
def cascadeFrames (l : List (EntryRef × List EntryRef)) (k : List Frame) : List Frame :=
  l.map (fun f => .unload f.1 f.2) ++ k

/-- The configuration is that of the cascade `t`, which began in `s₀` on top of
the calls `k`. -/
structure Follows (s₀ : State) (k : List Frame) (t : Cascade.Work EntryRef) (c : Config) :
    Prop where
  stack : c.stack = cascadeFrames t.frames k
  core : ∀ x, c.st.rt.core x = if x ∈ t.gone then none else
    if x ∈ t.taken then (s₀.rt.core x).map ModEntry.dropped else s₀.rt.core x
  table : ∀ κ x, c.st.rt.modHd.lookup κ = some x ↔ s₀.rt.modHd.lookup κ = some x ∧ x ∉ t.gone
  ctxs : c.st.ctxs = s₀.ctxs
  strs : c.st.strs = s₀.strs

/-- What is known of the state in which a module calls `xy_unload`. -/
structure Unloading (w : World) (s₀ : State) (e : EntryRef) : Prop where
  heap : s₀.rt.HeapWf
  older : ∀ x p, s₀.rt.loaderOf x = some p → p < x
  listed : ∃ κ, s₀.rt.modHd.lookup κ = some e
  found : s₀.ChildrenFound w e

section

variable {w : World} {s₀ : State} {k : List Frame} {e p x : EntryRef} {t : Cascade.Work EntryRef}
  {c : Config}

/-- A `_mod_unload` returns to the cascade that called it, or to the caller of
`xy_unload`. -/
theorem resume_cascade (hk : ∀ f ∈ k.head?, f.waiting = true) (s : State)
    (l : List (EntryRef × List EntryRef)) :
    ∃ s' ev, resume s xyOk (cascadeFrames l k) = .next ⟨s', cascadeFrames l k⟩ ev ∧ s.Still s'
      ∧ ev = if l = [] then .returned (.int xyOk) else .internal := by
  cases l with
  | cons f l => exact ⟨s, .internal, rfl, .refl s, rfl⟩
  | nil =>
    refine ⟨s.setErr xyOk, _, ?_, s.still_setErr xyOk, rfl⟩
    show resume s xyOk k = _
    unfold resume
    split
    · exact absurd (hk _ rfl) (by simp [Frame.waiting])
    · exact absurd (hk _ rfl) (by simp [Frame.waiting])
    · exact absurd (hk _ rfl) (by simp [Frame.waiting])
    · rfl

theorem Unloading.key (h : Unloading w s₀ e) {κ κ' : List UInt8}
    (hκ : s₀.rt.modHd.lookup κ = some x) (hκ' : s₀.rt.modHd.lookup κ' = some x) : κ = κ' :=
  Option.some.inj ((h.heap.table hκ).symm.trans (h.heap.table hκ'))

/-- An entry that loses its parent is in the table. -/
theorem Unloading.orphan_listed (h : Unloading w s₀ e) (hx : s₀.rt.Orphaned e x) :
    ∃ κ, s₀.rt.modHd.lookup κ = some x := by
  obtain ⟨p, -, hp⟩ := id hx
  obtain ⟨me, hme, -⟩ := Option.bind_eq_some_iff.mp hp
  obtain ⟨path, -, hl⟩ := Option.bind_eq_some_iff.mp (h.found x me hme hx)
  exact ⟨_, hl⟩

/-- So is what falls. -/
theorem Unloading.falls_listed (h : Unloading w s₀ e) (hx : s₀.rt.Falls e x) :
    ∃ κ, s₀.rt.modHd.lookup κ = some x := by
  cases hx with
  | root => exact h.listed
  | child hp hx hl => exact h.orphan_listed ⟨_, hp, hx⟩

theorem loaderOf_core (rt : Runtime) (x : EntryRef) :
    rt.loaderOf x = (rt.core x).bind (·.parentEntry) := by
  unfold loaderOf core
  cases rt.mods x <;> rfl

/-- The children that are collected when an entry falls are all of its children. -/
theorem Unloading.children (hu : Unloading w s₀ e) (hx : s₀.rt.Falls e x) {rt : Runtime}
    {g : List EntryRef}
    (htable : ∀ κ y, rt.modHd.lookup κ = some y ↔ s₀.rt.modHd.lookup κ = some y ∧ y ∉ g)
    (hloader : ∀ y, y ∉ g → rt.loaderOf y = s₀.rt.loaderOf y)
    (hfresh : ∀ y, s₀.rt.loaderOf y = some x → y ∉ g) :
    (rt.cascadeChildren w x).Nodup
      ∧ ∀ y, y ∈ rt.cascadeChildren w x ↔ s₀.rt.loaderOf y = some x := by
  have hone : ∀ {y κ κ'}, rt.modHd.lookup κ = some y → rt.modHd.lookup κ' = some y → κ = κ' :=
    fun hκ hκ' => hu.key ((htable _ _).mp hκ).1 ((htable _ _).mp hκ').1
  obtain ⟨hnodup, hmem⟩ := cascadeChildren_spec w x hone
  refine ⟨hnodup, fun y => (hmem y).trans ⟨?_, fun hy => ?_⟩⟩
  · rintro ⟨⟨κ, hκ⟩, -, hy⟩
    rwa [← hloader y ((htable κ y).mp hκ).2]
  · obtain ⟨κ, hκ⟩ := hu.orphan_listed ⟨x, hx, hy⟩
    refine ⟨⟨κ, (htable κ y).mpr ⟨hκ, hfresh y hy⟩⟩, ?_, (hloader y (hfresh y hy)).trans hy⟩
    exact fun heq => lt_irrefl _ (heq ▸ hu.older y x hy)

/-- One more entry has lost a reference. -/
theorem Follows.release (h : Follows s₀ k t c) (hx : x ∉ t.taken) (hgone : x ∉ t.gone)
    (l : List (EntryRef × List EntryRef)) :
    Follows s₀ k ⟨l, x :: t.taken, t.gone⟩ ⟨c.st.release x, cascadeFrames l k⟩ where
  stack := rfl
  core y := by
    rw [release_core, h.core y]
    by_cases hy : y = x
    · subst hy
      rw [if_pos rfl, if_neg hgone, if_neg hx, if_pos List.mem_cons_self]
      exact (if_neg hgone).symm
    · simp only [List.mem_cons, hy, false_or, if_false]
  table := h.table
  ctxs := h.ctxs
  strs := h.strs

/-- A child that is next is as it was when the unload began, and the cascade finds
it. -/
theorem Follows.next_child (hu : Unloading w s₀ e)
    (h : Follows s₀ k t c) (hx : s₀.rt.Orphaned e x) (hnot : x ∉ t.taken) (hgone : x ∉ t.gone) :
    ∃ me, c.st.rt.mods x = some me ∧ (s₀.rt.mods x).map (·.core) = some me.core
      ∧ c.st.cascadeLookup w me = some x := by
  obtain ⟨p, -, hp⟩ := id hx
  obtain ⟨me₀, hme₀, -⟩ := Option.bind_eq_some_iff.mp hp
  have hcore : c.st.rt.core x = some me₀.core := by
    rw [h.core x, if_neg hgone, if_neg hnot, Runtime.core, hme₀]
    rfl
  obtain ⟨me, hme, heq⟩ := Option.map_eq_some_iff.mp hcore
  refine ⟨me, hme, by rw [hme₀, Option.map_some, heq], ?_⟩
  have hfind := hu.found x me₀ hme₀ hx
  simp only [ModEntry.core, ModEntry.mk.injEq] at heq
  unfold State.cascadeLookup at hfind ⊢
  rw [h.ctxs, h.strs, heq.1, heq.2.2.2.2.2.2.1, heq.2.2.2.2.2.2.2.1]
  obtain ⟨path, hpath, hl⟩ := Option.bind_eq_some_iff.mp hfind
  exact Option.bind_eq_some_iff.mpr ⟨path, hpath, (h.table _ _).mpr ⟨hl, hgone⟩⟩

/-- What `_mod_unload` does with a child that it finds. -/
theorem tauUnload_child {s : State} {me : ModEntry} {rest : List EntryRef}
    (hme : s.rt.mods x = some me) (hfind : s.cascadeLookup w me = some x) :
    tauUnload w s k p (x :: rest) = if 0 < me.refcount - 1
      then resume (s.release x) xyOk (.unload p rest :: k)
      else .next ⟨s.release x,
        .unload x ((s.release x).rt.cascadeChildren w x) :: .unload p rest :: k⟩ .internal := by
  obtain ⟨path, hpath, hl⟩ := Option.bind_eq_some_iff.mp hfind
  obtain ⟨q, hq, hs⟩ := Option.bind_eq_some_iff.mp hpath
  simp only [tauUnload, hme, hq, hs, beginUnload, moduleLookupFromFname, hl]

/-- The next child loses its reference. -/
theorem Follows.step_child (hu : Unloading w s₀ e) {rest g taken : List EntryRef}
    {l : List (EntryRef × List EntryRef)}
    (ht : Cascade.Ok s₀.rt.loaderOf s₀.rt.OneHolder e ⟨(p, x :: rest) :: l, taken, g⟩)
    (h : Follows s₀ k ⟨(p, x :: rest) :: l, taken, g⟩ c) :
    ∃ l' c', l' ≠ [] ∧ Follows s₀ k ⟨l', x :: taken, g⟩ c'
      ∧ Cascade.Next s₀.rt.loaderOf s₀.rt.OneHolder ⟨(p, x :: rest) :: l, taken, g⟩
        ⟨l', x :: taken, g⟩
      ∧ Xylem.step w c .tau = .next c' .internal := by
  obtain ⟨hparent, hnot, hfalls, -, -⟩ := ht.next
  have hdown : ∀ y ∈ g, y ∈ taken := fun y hy => (ht.down y (List.mem_append_right _ hy)).2
  have hgone : x ∉ g := fun hin => hnot (hdown x hin)
  obtain ⟨me, hme, hcore, hfind⟩ := h.next_child hu ⟨p, hfalls, hparent⟩ hnot hgone
  have hlast : s₀.rt.OneHolder x ↔ ¬ 0 < me.refcount - 1 := by
    obtain ⟨me₀, hme₀, heq⟩ := Option.map_eq_some_iff.mp hcore
    have hcount : me.refcount = me₀.refcount := (congrArg ModEntry.refcount heq).symm
    simp only [OneHolder, hme₀, Option.mem_def, Option.some.injEq, forall_eq', hcount]
  have hstep : Xylem.step w c .tau = tauUnload w c.st (cascadeFrames l k) p (x :: rest) := by
    obtain ⟨s, stack⟩ := c
    obtain rfl : stack = _ := h.stack
    rfl
  rw [tauUnload_child hme hfind] at hstep
  by_cases href : 0 < me.refcount - 1
  · rw [if_pos href] at hstep
    exact ⟨_, _, List.cons_ne_nil _ _, h.release hnot hgone ((p, rest) :: l),
      .release fun hone => hlast.mp hone href, hstep⟩
  · rw [if_neg href] at hstep
    have hone : s₀.rt.OneHolder x := hlast.mpr href
    have hfresh : ∀ y, s₀.rt.loaderOf y = some x → y ∉ g := fun y hy hin => by
      rcases ht.origin y (hdown y hin) with rfl | ⟨q, hq, hyq⟩
      · exact Cascade.Falls.not_parent hu.older (.child hfalls hparent hone) hy
      · obtain rfl : q = x := Option.some.inj (hyq.symm.trans hy)
        exact hnot (ht.down q hq).2
    have hloader : ∀ y, y ∉ g → (c.st.release x).rt.loaderOf y = s₀.rt.loaderOf y := fun y hy => by
      rw [loaderOf_core, loaderOf_core, release_core, h.core, if_neg hy]
      repeat' split
      all_goals cases s₀.rt.core y <;> rfl
    obtain ⟨hnodup, hmem⟩ := hu.children (.child hfalls hparent hone)
      (show ∀ κ y, (c.st.release x).rt.modHd.lookup κ = some y ↔ _ from h.table) hloader hfresh
    exact ⟨_, _, List.cons_ne_nil _ _, h.release hnot hgone (⟨x, _⟩ :: (p, rest) :: l),
      .enter hone hnodup hmem, hstep⟩

/-- All children have been let go, and the entry falls. -/
theorem Follows.step_fall (hk : ∀ f ∈ k.head?, f.waiting = true) (hu : Unloading w s₀ e)
    {g taken : List EntryRef} {l : List (EntryRef × List EntryRef)}
    (ht : Cascade.Ok s₀.rt.loaderOf s₀.rt.OneHolder e ⟨(p, []) :: l, taken, g⟩)
    (h : Follows s₀ k ⟨(p, []) :: l, taken, g⟩ c) :
    ∃ c', Follows s₀ k ⟨l, taken, p :: g⟩ c' ∧ Xylem.step w c .tau
        = .next c' (if l = [] then .returned (.int xyOk) else .internal) := by
  obtain ⟨hfalls, htaken⟩ := ht.down p List.mem_cons_self
  have hgone : p ∉ g := fun hin =>
    (List.nodup_cons.mp ht.down_nodup).1 (List.mem_append_right _ hin)
  have hcore : c.st.rt.core p = (s₀.rt.core p).map ModEntry.dropped := by
    rw [h.core p, if_neg hgone, if_pos htaken]
  obtain ⟨κ, hκ⟩ := hu.falls_listed hfalls
  obtain ⟨me₀, hme₀, hkey⟩ := Option.map_eq_some_iff.mp (hu.heap.table hκ)
  obtain ⟨me, hme, heq⟩ : ∃ me, c.st.rt.mods p = some me ∧ me.core = me₀.core.dropped := by
    rw [Runtime.core, Runtime.core, hme₀] at hcore
    exact Option.map_eq_some_iff.mp hcore
  have hkey' : me.modKey = κ := (congrArg ModEntry.modKey heq).trans hkey
  obtain ⟨s', ev, hres, hstill, hev⟩ := resume_cascade hk (modUnloadFinish w c.st p me) l
  obtain ⟨hrt, hctxs, -, -⟩ := modUnloadFinish_spec w c.st p me
  have hstrs : (modUnloadFinish w c.st p me).strs = c.st.strs :=
    (moduleCleanupRegionState_still w { c.st with rt := c.st.rt.removeEntry w p me } me).strs
  refine ⟨⟨s', cascadeFrames l k⟩, ⟨rfl, fun x => ?_, fun κ' x => ?_, ?_, ?_⟩, ?_⟩
  · rw [hstill.rt, hrt, removeEntry_core, h.core x]
    by_cases hx : x = p
    · rw [if_pos hx, if_pos (hx ▸ List.mem_cons_self)]
    · simp only [List.mem_cons, hx, false_or, if_false]
  · rw [hstill.rt, hrt, removeEntry_modHd, hkey']
    by_cases hκ' : κ' = κ
    · rw [hκ', AList.lookup_erase, hκ]
      simp only [Option.some.injEq, List.mem_cons, not_or, reduceCtorEq, false_iff, not_and]
      exact fun heq hne _ => hne heq.symm
    · rw [AList.lookup_erase_ne hκ', h.table κ' x, List.mem_cons, not_or]
      refine and_congr_right fun hx => (and_iff_right ?_).symm
      rintro rfl
      exact hκ' (hu.key hx hκ)
  · rw [hstill.ctxs, hctxs, h.ctxs]
  · rw [hstill.strs, hstrs, h.strs]
  · have hstep : Xylem.step w c .tau = tauUnload w c.st (cascadeFrames l k) p [] := by
      obtain ⟨s, stack⟩ := c
      obtain rfl : stack = _ := h.stack
      rfl
    rw [hstep, ← hev]
    simp only [tauUnload, hme]
    exact hres

theorem Follows.step (hk : ∀ f ∈ k.head?, f.waiting = true) (hu : Unloading w s₀ e)
    (ht : Cascade.Ok s₀.rt.loaderOf s₀.rt.OneHolder e t) (h : Follows s₀ k t c)
    (hne : t.frames ≠ []) :
    ∃ t' c', Cascade.Next s₀.rt.loaderOf s₀.rt.OneHolder t t' ∧ Follows s₀ k t' c'
      ∧ Xylem.step w c .tau
        = .next c' (if t'.frames = [] then .returned (.int xyOk) else .internal) := by
  obtain ⟨frames, taken, g⟩ := t
  rcases frames with _ | ⟨⟨p, rest⟩, l⟩
  · exact absurd rfl hne
  · cases rest with
    | nil =>
      obtain ⟨c', h', hs⟩ := h.step_fall hk hu ht
      exact ⟨_, c', .fall, h', hs⟩
    | cons x rest =>
      obtain ⟨l', c', hl', h', hnext, hs⟩ := h.step_child hu ht
      exact ⟨_, c', hnext, h', (if_neg hl').symm ▸ hs⟩

/-- A cascade that has ended has done what it should. -/
theorem Follows.exact (ht : Cascade.Ok s₀.rt.loaderOf s₀.rt.OneHolder e t) (h : Follows s₀ k t c)
    (hend : t.frames = []) : CascadeExact s₀.rt c.st.rt e := by
  obtain ⟨hgone, htaken⟩ := ht.finished hend
  have hcount : ∀ x, x ∉ t.gone → (c.st.rt.mods x).map (·.refcount)
      = if x ∈ t.taken then (s₀.rt.mods x).map (·.refcount - 1)
        else (s₀.rt.mods x).map (·.refcount) := by
    intro x hx
    have hcore := congrArg (Option.map ModEntry.refcount) (h.core x)
    rw [if_neg hx, Runtime.core, Option.map_map] at hcore
    refine hcore.trans ?_
    split <;> (rw [Runtime.core]; cases s₀.rt.mods x <;> rfl)
  refine ⟨fun x hx => ?_, fun x horphan hfalls => ?_, fun x hne horphan => ?_⟩
  · have hcore := h.core x
    rw [if_pos ((hgone x).mpr hx)] at hcore
    exact Option.map_eq_none_iff.mp hcore
  · rw [hcount x (fun hin => hfalls ((hgone x).mp hin)), if_pos ((htaken x).mpr (Or.inr horphan))]
  · have hnot : x ∉ t.taken := fun hin => ((htaken x).mp hin).elim hne horphan
    have hnotgone : x ∉ t.gone := fun hin =>
      hnot (ht.down x (List.mem_append_right _ hin)).2
    rw [hcount x hnotgone, if_neg hnot]

/-- In a cascade it is the host that moves. -/
theorem Follows.tau (h : Follows s₀ k t c) (hne : t.frames ≠ []) {a : Action} {c' : Config}
    {ev : Event} (hs : Xylem.step w c a = .next c' ev) : a = .tau := by
  obtain ⟨s, stack⟩ := c
  obtain rfl : stack = _ := h.stack
  obtain ⟨⟨f, children⟩, l, hl⟩ := List.exists_cons_of_ne_nil hne
  rw [hl] at hs
  cases a with
  | tau => rfl
  | call q => cases hs
  | ret r => cases r <;> cases hs

theorem Follows.of_inside (hk : ∀ f ∈ k.head?, f.waiting = true) (hu : Unloading w s₀ e)
    (ht : Cascade.Ok s₀.rt.loaderOf s₀.rt.OneHolder e t) (h : Follows s₀ k t c)
    (hne : t.frames ≠ []) {log : List Move} {c₂ : Config} (hin : Inside w k.length c log c₂) :
    ∃ t₂, Cascade.Ok s₀.rt.loaderOf s₀.rt.OneHolder e t₂ ∧ Follows s₀ k t₂ c₂ ∧ t₂.frames ≠ [] := by
  induction hin with
  | start => exact ⟨t, ht, h, hne⟩
  | move hin hs hlen ih =>
    obtain ⟨t₁, ht₁, h₁, hne₁⟩ := ih
    obtain rfl := h₁.tau hne₁ hs
    obtain ⟨t', c', hnext, h', hs'⟩ := h₁.step hk hu ht₁ hne₁
    cases hs'.symm.trans hs
    refine ⟨t', ht₁.step hu.older hnext, h', fun hend => ?_⟩
    rw [h'.stack, hend] at hlen
    exact lt_irrefl _ hlen

/-- A call that has begun a cascade returns. -/
theorem Follows.returns {c₁ : Config} {q : Call} {ev₁ : Event}
    (hk : ∀ f ∈ c.stack.head?, f.waiting = true) (hu : Unloading w c.st e)
    (ht : Cascade.Ok c.st.rt.loaderOf c.st.rt.OneHolder e t) (h : Follows c.st c.stack t c₁)
    (hne : t.frames ≠ []) (hfirst : Xylem.step w c (.call q) = .next c₁ ev₁) :
    ∃ log v c', CallRun w c q log v c' := by
  let P (t : Cascade.Work EntryRef) : Prop := ∃ c₂, Follows c.st c.stack t c₂
    ∧ (t.frames ≠ [] → ∃ log, Inside w c.stack.length c₁ log c₂)
    ∧ (t.frames = [] → ∃ log v, CallRun w c q log v c₂)
  have hlen : ∀ {t c₂}, Follows c.st c.stack t c₂ → t.frames ≠ [] →
      c.stack.length < c₂.stack.length := fun h hne => by
    rw [h.stack, cascadeFrames, List.length_append, List.length_map]
    have := List.length_pos_iff.mpr hne
    omega
  have hP : P t := ⟨c₁, h, fun _ => ⟨[], .start (hlen h hne)⟩, fun hend => absurd hend hne⟩
  have hnext : ∀ t, Cascade.Ok c.st.rt.loaderOf c.st.rt.OneHolder e t → t.frames ≠ [] → P t →
      ∃ t', Cascade.Next c.st.rt.loaderOf c.st.rt.OneHolder t t' ∧ P t' := by
    rintro t ht hne ⟨c₂, hfollows, hin, -⟩
    obtain ⟨log, hin⟩ := hin hne
    obtain ⟨t', c', hnext, hfollows', hstep⟩ := hfollows.step hk hu ht hne
    refine ⟨t', hnext, c', hfollows', fun hne' => ?_, fun hend => ?_⟩
    · exact ⟨_, .move hin hstep (hlen hfollows' hne')⟩
    · rw [if_pos hend] at hstep
      refine ⟨_, _, .later hfirst hin hstep ?_⟩
      rw [hfollows'.stack, hend]
      rfl
  have hbound : ∀ x p, c.st.rt.loaderOf x = some p →
      x ∈ List.range c.st.rt.nmods := fun x p hp => by
    obtain ⟨m, hm, -⟩ := Option.bind_eq_some_iff.mp hp
    exact List.mem_range.mpr (hu.heap.lt_of_mods hm)
  obtain ⟨κ, hκ⟩ := hu.listed
  obtain ⟨me, hme, -⟩ := Option.map_eq_some_iff.mp (hu.heap.table hκ)
  obtain ⟨t, -, hend, c', -, -, hrun⟩ :=
    ht.finishes hu.older (List.mem_range.mpr (hu.heap.lt_of_mods hme)) hbound hnext hP
  obtain ⟨log, v, hlog⟩ := hrun hend
  exact ⟨log, v, c', hlog⟩

/-- The unload of `e` by its last holder, when every module that loses its parent
can be found by its context: the call returns, and it has taken down what falls and
nothing else. -/
theorem unload_exact {fname : CStr} {me : ModEntry} (h : Reachable w c) (hw : c.waiting = true)
    (hl : c.st.find w fname = some e) (hme : c.st.rt.mods e = some me)
    (hlast : ¬ 0 < me.refcount - 1) (hfound : c.st.ChildrenFound w e) :
    (∃ log v c', CallRun w c (.unload fname) log v c')
      ∧ ∀ log v c', CallRun w c (.unload fname) log v c' →
        v = .int xyOk ∧ CascadeExact c.st.rt c'.st.rt e := by
  have hwf : c.Wf w := .of_reachable h
  have hold := parentsOlder_of_reachable h
  have hu : Unloading w c.st e := by
    refine ⟨hwf.heap, fun x p hp => ?_, ⟨_, hl⟩, hfound⟩
    obtain ⟨m, hm, hp⟩ := Option.bind_eq_some_iff.mp hp
    exact hold.older x m hm p hp
  have hfirst : Xylem.step w c (.call (.unload fname)) = .next ⟨c.st.release e,
      .unload e ((c.st.release e).rt.cascadeChildren w e) :: c.stack⟩ .internal := by
    unfold State.find at hl
    simp only [Xylem.step, hw, if_true, beginCall, beginUnload, moduleLookupFromFname, hl, hme,
      if_neg hlast]
  have hloader : ∀ y, y ∉ ([] : List EntryRef) →
      (c.st.release e).rt.loaderOf y = c.st.rt.loaderOf y := fun y _ => by
    rw [loaderOf_core, loaderOf_core, release_core]
    split <;> cases c.st.rt.core y <;> rfl
  obtain ⟨hnodup, hmem⟩ := hu.children .root
    (show ∀ κ y, (c.st.release e).rt.modHd.lookup κ = some y ↔ _ from fun κ y =>
      (and_iff_left List.not_mem_nil).symm) hloader fun y _ => List.not_mem_nil
  have hstart : Cascade.Ok c.st.rt.loaderOf c.st.rt.OneHolder e (.begin e _) :=
    .begin hu.older hnodup hmem
  have hfollows : Follows c.st c.stack (.begin e ((c.st.release e).rt.cascadeChildren w e))
      ⟨c.st.release e, .unload e ((c.st.release e).rt.cascadeChildren w e) :: c.stack⟩ := by
    have hidle : Follows c.st c.stack ⟨[], [], []⟩ c :=
      ⟨rfl, fun x => rfl, fun κ x => (and_iff_left List.not_mem_nil).symm, rfl, rfl⟩
    exact hidle.release List.not_mem_nil List.not_mem_nil [(e, _)]
  have hk := Config.head_waiting hw
  refine ⟨hfollows.returns hk hu hstart (List.cons_ne_nil _ _) hfirst, fun log v c' hrun => ?_⟩
  cases hrun with
  | atOnce hs => cases hfirst.symm.trans hs
  | @later c₁ c₂ _ a ev log v hs hin hr hstack =>
    cases hfirst.symm.trans hs
    obtain ⟨t, ht, h₂, hne⟩ := hfollows.of_inside hk hu hstart (List.cons_ne_nil _ _) hin
    obtain rfl := h₂.tau hne hr
    obtain ⟨t', c'', hnext, h', hs'⟩ := h₂.step hk hu ht hne
    have hend : t'.frames = [] := by
      by_contra hne'
      rw [if_neg hne'] at hs'
      cases hs'.symm.trans hr
    rw [if_pos hend] at hs'
    cases hs'.symm.trans hr
    exact ⟨rfl, h'.exact (ht.step hu.older hnext) hend⟩

end

/-- A module that has loaded another is unloaded, and the other with it. -/
theorem unload_exact_of_nested :
    let c := (Config.boot sampleHook).after sampleWorld nestedRun
    (∃ log v c', CallRun sampleWorld c (.unload sampleFile) log v c')
      ∧ ∀ log v c', CallRun sampleWorld c (.unload sampleFile) log v c' →
        v = .int xyOk ∧ CascadeExact c.st.rt c'.st.rt 0 := by
  intro c
  have hreach : Reachable sampleWorld c :=
    ReachableBy.after (.start (Config.boot_initial sampleHook)) fun _ _ _ => trivial
  have hcount : (c.st.rt.mods 0).map (·.refcount) = some 1 := by decide +kernel
  obtain ⟨me, hme, href⟩ := Option.map_eq_some_iff.mp hcount
  refine unload_exact hreach (by decide +kernel) (by decide +kernel) hme (by omega) ?_
  have hfound : ∀ x < 2, ∀ m ∈ c.st.rt.mods x,
      m.parentEntry = none ∨ c.st.cascadeLookup sampleWorld m = some x := by decide +kernel
  have hn : c.st.rt.nmods = 2 := by decide +kernel
  rintro x m hm ⟨p, -, hp⟩
  have hlt := (Config.Wf.of_reachable hreach).heap.lt_of_mods hm
  refine (hfound x (hn ▸ hlt) m hm).resolve_left fun hnone => ?_
  rw [loaderOf, hm, Option.bind_some, hnone] at hp
  cases hp

/-- A world in which the object with the handle 2 has no context. -/
def contextlessWorld : World :=
  { sampleWorld with
    dlsym := fun h sym => if h = 2 ∧ sym = .getXyPtr then none else sampleWorld.dlsym h sym }

/-- A module has loaded one that has no context, and is unloaded.  The other stays
loaded. -/
theorem not_unload_exact :
    ∃ c log v c', Reachable contextlessWorld c ∧ c.waiting = true
      ∧ c.st.find contextlessWorld sampleFile = some 0
      ∧ (c.st.rt.mods 0).map (·.refcount) = some 1
      ∧ CallRun contextlessWorld c (.unload sampleFile) log v c'
      ∧ ¬ CascadeExact c.st.rt c'.st.rt 0 := by
  let c := (Config.boot sampleHook).after contextlessWorld nestedRun
  refine ⟨c, _, .int xyOk, _, ReachableBy.after (.start (Config.boot_initial sampleHook))
    fun _ _ _ => trivial, by decide +kernel, by decide +kernel, by decide +kernel,
    .of_actions (l := [.tau]) (a := .tau) (List.length_eq_zero_iff.mp (by decide +kernel))
      (by decide +kernel) (by decide +kernel) (by decide +kernel), fun h => ?_⟩
  have hlink : c.st.rt.loaderOf 1 = some 0 := by decide +kernel
  have hcount : (c.st.rt.mods 1).map (·.refcount) = some 1 := by decide +kernel
  have hlast : c.st.rt.OneHolder 1 := fun me hme => by
    have := (congrArg (Option.map ModEntry.refcount) hme).symm.trans hcount
    simp only [Option.map_some, Option.some.injEq] at this
    omega
  have hgone := h.removed 1 (.child .root hlink hlast)
  have hstays : (((c.after contextlessWorld [.call (.unload sampleFile), .tau]).after
    contextlessWorld [.tau]).st.rt.mods 1).isSome = true := by decide +kernel
  rw [hgone] at hstays
  cases hstays

end Xylem
