import Xylem.InstallState
import Xylem.Lib.Custody
import Xylem.ReloadRun

/-!
# The cleanup of region states

The block that a load allocates for the region state of its entry belongs to that
entry until the entry is freed.  `module_cleanup_region_state` then hands it to the
`xy_region_cleanup` of the module, if there is one.

* `Cleans` says what a step adds to the list of cleanups.
* `Custody.Ok` is the invariant: the entries are the owners of the blocks, and the
  list of cleanups is what has been given back.
* `cleansOnce_of_reachable`: a block is cleaned up once, when its entry is freed.
-/

namespace Xylem

open Xylem.Runtime

/-- The block is the region state of the entry. -/
def Runtime.OwnsBlock (rt : Runtime) (e : EntryRef) (b : BlockRef) : Prop :=
  (rt.mods e).bind (·.regionState) = some b

instance (rt : Runtime) (e : EntryRef) (b : BlockRef) : Decidable (rt.OwnsBlock e b) := by
  unfold Runtime.OwnsBlock; infer_instance

/-- The blocks that have been cleaned up. -/
def State.cleaned (s : State) : List BlockRef := s.cleanups.map Prod.snd

/-- The cleanups of the entries of a list, when these are freed. -/
def Runtime.cleanupsOf (w : World) (rt : Runtime) (l : List EntryRef) : List (Addr × BlockRef) :=
  l.flatMap fun e => (rt.mods e).elim [] (·.cleanup w)

/-- What holds of the cleanups in any run.

* `once`: no block is cleaned up twice.
* `owner`: a block is the region state of one entry at most.
* `kept`: the region state of an entry has not been cleaned up.
* `only`: a step cleans up a block for the reason alone that it frees its entry.
* `all`: an entry that a step frees has its region state cleaned up, if its object
  exports the function.  (A shutdown finds the entries in the table.) -/
structure Config.CleansOnce (w : World) (c : Config) : Prop where
  once : c.st.cleaned.Nodup
  owner : ∀ e e' b, c.st.rt.OwnsBlock e b → c.st.rt.OwnsBlock e' b → e = e'
  kept : ∀ e b, c.st.rt.OwnsBlock e b → b ∉ c.st.cleaned
  only : ∀ a c' ev, step w c a = .next c' ev → ∀ p ∈ c'.st.cleanups, p ∉ c.st.cleanups →
    ∃ e me, c.st.rt.mods e = some me ∧ c'.st.rt.mods e = none ∧ me.regionState = some p.2
      ∧ w.dlsym me.handle .xyRegionCleanup = some p.1
  all : ∀ a c' ev, step w c a = .next c' ev → ∀ e me b fn, c.st.rt.mods e = some me →
    c'.st.rt.mods e = none → me.regionState = some b →
    w.dlsym me.handle .xyRegionCleanup = some fn →
    (a = .call .shutdown → ∃ κ, c.st.rt.modHd.lookup κ = some e) → (fn, b) ∈ c'.st.cleanups

section

variable {w : World} {c c' : Config} {a : Action} {ev : Event} {rt : Runtime} {s s' : State}
  {e : EntryRef} {b : BlockRef} {me : ModEntry}

/-! ## What the functions of the host add -/

theorem resume_cleanups {ret : Int} {k : List Frame} (h : resume s ret k = .next c' ev) :
    c'.st.cleanups = s.cleanups := by
  unfold resume at h
  split at h <;> cases h <;> rfl

theorem Unloads.cleanups {fname : CStr} {id : RegionId} {plen : Nat} {k : List Frame}
    (h : Unloads w s fname id plen k c' ev) : c'.st.cleanups = s.cleanups := by
  cases h with
  | notFound hl hr => exact (resume_cleanups hr).trans rfl
  | @shared e me c' ev hl hme href hr => exact (resume_cleanups hr).trans rfl
  | cascade hl hme href => rfl

theorem modLoadBindXy_cleanups (w : World) (s : State) (tx : LoadTxn) :
    (modLoadBindXy w s tx).1.cleanups = s.cleanups := by
  unfold modLoadBindXy
  dsimp only
  split
  · split <;> rfl
  · rfl

theorem moduleRekeyForClaim_cleanups (w : World) (s : State) (caller : CStr) (pk ck : RegionKey) :
    (moduleRekeyForClaim w s caller pk ck).cleanups = s.cleanups := by
  unfold moduleRekeyForClaim
  dsimp only
  split <;> rfl

theorem modLoadRestoreContext_cleanups (s : State) (tx : LoadTxn) :
    (modLoadRestoreContext s tx).cleanups = s.cleanups := by
  unfold modLoadRestoreContext
  split <;> rfl

/-- An abort cleans up the region state of its entry. -/
theorem modLoadAbort_cleanups {tx : LoadTxn} (he : tx.modEntry = some e)
    (hme : s.rt.mods e = some me) (h : modLoadAbort w s tx = some s') :
    s'.cleanups = me.cleanup w ++ s.cleanups := by
  have hfree : (modLoadFreeFname (modLoadRestoreContext s tx) tx).rt = s.rt
      ∧ (modLoadFreeFname (modLoadRestoreContext s tx) tx).cleanups = s.cleanups := by
    unfold modLoadFreeFname modLoadRestoreContext
    split <;> split <;> exact ⟨rfl, rfl⟩
  unfold modLoadAbort at h
  dsimp only at h
  rw [he] at h
  dsimp only at h
  rw [hfree.1, hme] at h
  cases h
  show (moduleCleanupRegionState w _ me).cleanups = _
  rw [moduleCleanupRegionState_cleanups, hfree.2]

theorem modUnloadFinish_cleanups (w : World) (s : State) (e : EntryRef) (me : ModEntry) :
    (modUnloadFinish w s e me).cleanups = me.cleanup w ++ s.cleanups := by
  unfold modUnloadFinish
  rw [moduleCleanupRegionState_cleanups]

/-- A shutdown cleans up after every entry of the table. -/
theorem xyShutdown_cleanups (w : World) (s : State) :
    (xyShutdown w s).cleanups.Perm (s.rt.cleanupsOf w (s.rt.modHdValues w) ++ s.cleanups) := by
  have hfold : ∀ (l : List EntryRef) (s₀ : State), s₀.rt = s.rt →
      (l.foldl (fun s e => (s.rt.mods e).elim s (moduleCleanupRegionState w s)) s₀).cleanups.Perm
        (s.rt.cleanupsOf w l ++ s₀.cleanups) := by
    intro l
    induction l with
    | nil => exact fun s₀ _ => .refl _
    | cons e l ih =>
      intro s₀ hs₀
      have hone : ((s₀.rt.mods e).elim s₀ (moduleCleanupRegionState w s₀)).rt = s.rt
          ∧ ((s₀.rt.mods e).elim s₀ (moduleCleanupRegionState w s₀)).cleanups
            = (s.rt.mods e).elim [] (·.cleanup w) ++ s₀.cleanups := by
        rw [← hs₀]
        cases s₀.rt.mods e with
        | none => exact ⟨rfl, rfl⟩
        | some me =>
          exact ⟨(moduleCleanupRegionState_still w s₀ me).rt,
            moduleCleanupRegionState_cleanups w s₀ me⟩
      refine (ih _ hone.1).trans ?_
      rw [hone.2]
      show (s.rt.cleanupsOf w l ++ (_ ++ s₀.cleanups)).Perm
        ((_ ++ s.rt.cleanupsOf w l) ++ s₀.cleanups)
      rw [← List.append_assoc]
      exact List.perm_append_comm.append_right _
  exact hfold _ s rfl

/-! ## What a step adds -/

/-- The cleanups of a step: none while no entry is freed, else that of the entry, or
those of all entries of the table. -/
inductive Cleans (w : World) (c : Config) (a : Action) (c' : Config) : Prop
  | none (hlive : ∀ e, c.st.rt.mods e ≠ none → c'.st.rt.mods e ≠ none)
      (h : c'.st.cleanups = c.st.cleanups)
  | freed {e : EntryRef} {me : ModEntry} (ha : a = .tau) (hme : c.st.rt.mods e = some me)
      (hgone : c'.st.rt.mods e = none)
      (hlive : ∀ x ≠ e, c.st.rt.mods x ≠ none → c'.st.rt.mods x ≠ none)
      (h : c'.st.cleanups = me.cleanup w ++ c.st.cleanups)
  | shutdown (ha : a = .call .shutdown) (hrt : c'.st.rt = c.st.rt.bootstrap)
      (h : c'.st.cleanups.Perm
        (c.st.rt.cleanupsOf w (c.st.rt.modHdValues w) ++ c.st.cleanups))

/-- The next move of the call frees an entry. -/
def Frame.frees : Frame → Bool
  | .unload _ [] => true
  | .load _ (.aborting _) => true
  | _ => false

/-- A step that ends neither an unload nor a failed load frees nothing. -/
theorem Effect.live (h : Effect w c a rt) (hne : a ≠ .call .shutdown)
    (hstack : ∀ f k, a = .tau → c.stack = f :: k → f.frees = false) (e : EntryRef)
    (he : c.st.rt.mods e ≠ none) : rt.mods e ≠ none := by
  obtain ⟨me, hme⟩ := Option.ne_none_iff_exists'.mp he
  intro hgone
  rcases h.freed hme hgone with ⟨k, ha, hs⟩ | ⟨tx, k, err, ha, hs, -⟩ | ⟨ha, -⟩
  · cases hstack _ k ha hs
  · cases hstack _ k ha hs
  · exact hne ha

/-- A step at a call that goes on. -/
theorem Cleans.of_stack {f : Frame} {k : List Frame} (heff : Effect w c a c'.st.rt)
    (hne : a ≠ .call .shutdown) (hstack : c.stack = f :: k) (hf : f.frees = false)
    (h : c'.st.cleanups = c.st.cleanups) : Cleans w c a c' := by
  refine .none (heff.live hne fun g l _ hs => ?_) h
  rw [← (List.cons.inj (hstack.symm.trans hs)).1]
  exact hf

theorem Cleans.of_call {q : Call} (heff : Effect w c (.call q) c'.st.rt) (hq : q ≠ .shutdown)
    (h : c'.st.cleanups = c.st.cleanups) : Cleans w c (.call q) c' := by
  refine .none (heff.live (fun heq => hq ?_) fun _ _ ha _ => ?_) h
  · cases heq
    rfl
  · cases ha

theorem Step.cleans (hwf : c.Wf w) (h : Step w c a c' ev) : Cleans w c a c' := by
  have heff := h.effect hwf
  cases h with
  | answered => exact .none (fun _ he => he) rfl
  | load | scope | eachFirst => exact .of_call heff (by rintro ⟨⟩) rfl
  | unload hw hu => exact .of_call heff (by rintro ⟨⟩) hu.cleanups
  | reload hw hl hme hu => exact .of_call heff (by rintro ⟨⟩) hu.cleanups
  | @direct _ q s v hw hq =>
    refine .of_call heff ?_ (callDirect_keeps hq).1.cleanups
    rintro rfl
    cases hq
  | dispatchDone hw hd => exact .of_call heff (by rintro ⟨⟩) (keepsModules_dispatchBegin hd).cleanups
  | dispatchLoop hw hd => exact .of_call heff (by rintro ⟨⟩) (keepsModules_dispatchBegin hd).cleanups
  | shutdown => exact .shutdown rfl (xyShutdown_spec w _).1 (xyShutdown_cleanups w _)
  | dlopenFailed hr =>
    exact .of_stack heff (by rintro ⟨⟩) rfl rfl ((resume_cleanups hr).trans rfl)
  | reuse hl hme hr => exact .of_stack heff (by rintro ⟨⟩) rfl rfl ((resume_cleanups hr).trans rfl)
  | installed hr =>
    refine .of_stack heff (by rintro ⟨⟩) rfl rfl ?_
    rw [resume_cleanups hr, modLoadRestoreContext_cleanups]
  | dlopened | publish | claimFlat | claimRefused | claimAsked | notGranted | link | installMissing
  | install | cascadeSkip | reloadLoad | reinsert | reloadEnd | selfSkip | selfDeaf | slotSkip
  | eachNext | eachEnd | scopeEnd => exact .of_stack heff (by rintro ⟨⟩) rfl rfl rfl
  | @bind s k tx => exact .of_stack heff (by rintro ⟨⟩) rfl rfl (modLoadBindXy_cleanups w s tx)
  | granted hg =>
    obtain ⟨-, -, -, -, hs'⟩ := xyClaimGranted_ok hg
    exact .of_stack heff (by rintro ⟨⟩) rfl rfl (hs' ▸ rfl)
  | rekey he hme => exact .of_stack heff (by rintro ⟨⟩) rfl rfl (moduleRekeyForClaim_cleanups ..)
  | @abort s s' k tx err c' ev ha hr =>
    obtain ⟨e, he, -, hpub⟩ := (hwf.top rfl).late rfl
    obtain ⟨me, hme, hrt, -⟩ := modLoadAbort_spec he ha
    have hmods : c'.st.rt.mods = Function.update s.rt.mods e none := by
      rw [(resume_spec hr).1.rt, hrt, Runtime.abortEntry, if_pos hpub]
      exact discardEntry_mods s.rt e me
    refine .freed rfl hme (by rw [hmods, Function.update_self]) (fun x hx hlive => ?_) ?_
    · rw [hmods, Function.update_of_ne hx]
      exact hlive
    · rw [resume_cleanups hr]
      exact modLoadAbort_cleanups he hme ha
  | cascade hme hp hs hu => exact .of_stack heff (by rintro ⟨⟩) rfl rfl hu.cleanups
  | @remove s k e me c' ev hme hr =>
    have hmods : c'.st.rt.mods = (s.rt.removeEntry w e me).mods := by
      rw [(resume_spec hr).1.rt, (modUnloadFinish_spec ..).1]
    refine .freed rfl hme ?_ (fun x hx hlive hgone => ?_) ?_
    · rw [hmods, removeEntry_cleared, Function.update_self]
    · obtain ⟨rt₁, hcore, hremoved⟩ := removeEntry_mods (w := w) s.rt e me
      rw [hmods, hremoved, Function.update_of_ne hx, none_of_core hcore] at hgone
      exact hlive hgone
    · rw [resume_cleanups hr]
      exact modUnloadFinish_cleanups ..
  | dispatchEnd hend => exact .of_stack heff (by rintro ⟨⟩) rfl rfl (keepsModules_dispatchEnd ..).cleanups
  | selfEnter hself he hme hc hd hh hs' => exact .of_stack heff (by rintro ⟨⟩) rfl rfl (hs' ▸ rfl)
  | @slotEnter s k d d' slot me ctx s' hself hmi hslots hcell hme hc hcb hd' hs' =>
    refine .of_stack heff (by rintro ⟨⟩) rfl rfl ?_
    rw [hs']
    unfold Dispatch.switch
    split <;> rfl
  | @selfListened s k d e me bytes hself hme =>
    refine .of_stack heff (by rintro ⟨⟩) rfl rfl ?_
    show (s.writeBuf d.retp bytes).cleanups = s.cleanups
    exact (s.keepsModules_writeBuf d.retp bytes).cleanups
  | @slotListened s s' k d e bytes hself hs' =>
    refine .of_stack heff (by rintro ⟨⟩) rfl rfl ?_
    show s'.cleanups = s.cleanups
    rw [hs']
    split
    · exact (State.keepsModules_writeBuf ..).cleanups
    · exact (State.keepsModules_writeBuf ..).cleanups

/-! ## The invariant -/

/-- A step makes no new owner, or it is the link of a load and makes one, of the next
block. -/
theorem Step.owners (hwf : c.Wf w) (h : Step w c a c' ev) :
    (∀ e b, c'.st.rt.OwnsBlock e b → c.st.rt.OwnsBlock e b)
      ∨ ∃ x, c'.st.rt.nblocks = c.st.rt.nblocks + 1
        ∧ (∀ e, c.st.rt.mods e ≠ none → c'.st.rt.mods e ≠ none)
        ∧ ∀ e b, c'.st.rt.OwnsBlock e b → c.st.rt.OwnsBlock e b ∨ e = x ∧ b = c.st.rt.nblocks := by
  by_cases hlink : ∃ s tx k, c = ⟨s, .load tx .link :: k⟩ ∧ a = .tau
  · obtain ⟨s, tx, k, rfl, rfl⟩ := hlink
    have hlive : ∀ e, s.rt.mods e ≠ none → c'.st.rt.mods e ≠ none :=
      (h.effect hwf).live (fun h => by cases h) fun g l _ hs => by cases hs; rfl
    obtain ⟨x, me, -, hme, rfl⟩ := h.of_link
    have hmods := linkEntry_mods_eq s.rt x me (w.stateSize tx.handle) hme
    have hcount := linkEntry_nblocks s.rt x me (w.stateSize tx.handle)
    have howns : ∀ e b, (s.rt.linkEntry x me (w.stateSize tx.handle)).OwnsBlock e b →
        s.rt.OwnsBlock e b ∨ w.stateSize tx.handle ≠ 0 ∧ e = x ∧ b = s.rt.nblocks := by
      intro e b hb
      by_cases he : e = x
      · subst he
        rw [OwnsBlock, hmods, Function.update_self] at hb
        split at hb
        · exact Or.inl (by rw [OwnsBlock, hme]; exact hb)
        · next hsize => exact Or.inr ⟨hsize, rfl, (Option.some.inj hb).symm⟩
      · rw [OwnsBlock, hmods, Function.update_of_ne he] at hb
        exact Or.inl hb
    by_cases hsize : w.stateSize tx.handle = 0
    · refine Or.inl fun e b hb => ?_
      rcases howns e b hb with hold | ⟨hne, -⟩
      · exact hold
      · exact absurd hsize hne
    · rw [if_neg hsize] at hcount
      exact Or.inr ⟨x, hcount, hlive, fun e b hb => (howns e b hb).imp_right (·.2)⟩
  · refine Or.inl fun e b hb => ?_
    obtain ⟨me', hme', hstate⟩ := Option.bind_eq_some_iff.mp hb
    have hstate : me'.core.regionState = some b := hstate
    rcases (h.effect hwf).entry hme' with ⟨tx, k, -, -, -, -, rfl⟩ | ⟨me, hme, hch⟩
    · cases hstate
    · rw [OwnsBlock, hme]
      show me.core.regionState = some b
      generalize me'.core = m at hch hstate
      cases hch with
      | same | refcount | bind | rekey | reinsert => exact hstate
      | link ha hstack hx hun state => exact absurd ⟨_, _, _, by rw [← hstack], ha⟩ hlink

/-- The entries are the owners of their region states, and the cleanups what has been
given back. -/
def Config.Custody (c : Config) : Prop :=
  Custody.Ok c.st.rt.OwnsBlock c.st.cleaned c.st.rt.nblocks

theorem ModEntry.mem_cleanup {p : Addr × BlockRef} : p ∈ me.cleanup w
    ↔ me.regionState = some p.2 ∧ w.dlsym me.handle .xyRegionCleanup = some p.1 := by
  unfold ModEntry.cleanup
  cases me.regionState with
  | none => simp
  | some b =>
    cases w.dlsym me.handle .xyRegionCleanup with
    | none => simp
    | some fn => simp [Prod.ext_iff, eq_comm, and_comm]

theorem ModEntry.cleanup_nodup (w : World) (me : ModEntry) : (me.cleanup w).Nodup := by
  unfold ModEntry.cleanup
  split <;> simp

theorem Runtime.mem_cleanupsOf {l : List EntryRef} {p : Addr × BlockRef} :
    p ∈ rt.cleanupsOf w l ↔ ∃ e ∈ l, ∃ me, rt.mods e = some me ∧ p ∈ me.cleanup w := by
  rw [cleanupsOf, List.mem_flatMap]
  refine exists_congr fun e => and_congr_right fun _ => ?_
  cases rt.mods e with
  | none => simp
  | some me => simp

/-- The entries of a list with the blocks that are cleaned up after them. -/
def Runtime.givenBy (w : World) (rt : Runtime) (l : List EntryRef) : List (EntryRef × BlockRef) :=
  l.flatMap fun e => (rt.mods e).elim [] fun me => (me.cleanup w).map fun p => (e, p.2)

theorem Runtime.givenBy_snd (w : World) (rt : Runtime) (l : List EntryRef) :
    (rt.givenBy w l).map Prod.snd = (rt.cleanupsOf w l).map Prod.snd := by
  rw [givenBy, cleanupsOf, List.map_flatMap, List.map_flatMap]
  refine List.flatMap_congr fun e _ => ?_
  cases rt.mods e with
  | none => rfl
  | some me => simp

theorem Runtime.mem_givenBy {l : List EntryRef} {p : EntryRef × BlockRef}
    (h : p ∈ rt.givenBy w l) : p.1 ∈ l ∧ rt.OwnsBlock p.1 p.2 := by
  obtain ⟨e, he, hp⟩ := List.mem_flatMap.mp h
  cases hme : rt.mods e with
  | none =>
    rw [hme] at hp
    cases hp
  | some me =>
    rw [hme] at hp
    obtain ⟨q, hq, rfl⟩ := List.mem_map.mp hp
    refine ⟨he, ?_⟩
    rw [OwnsBlock, hme]
    exact (ModEntry.mem_cleanup.mp hq).1

theorem Runtime.givenBy_nodup {l : List EntryRef} (h : l.Nodup) : (rt.givenBy w l).Nodup := by
  have hfst : ∀ e, ∀ p ∈ (rt.mods e).elim [] fun me => (me.cleanup w).map fun p => (e, p.2),
      p.1 = e := by
    intro e p hp
    cases hme : rt.mods e with
    | none =>
      rw [hme] at hp
      cases hp
    | some me =>
      rw [hme] at hp
      obtain ⟨q, -, rfl⟩ := List.mem_map.mp hp
      rfl
  refine List.nodup_flatMap.mpr ⟨fun e _ => ?_, h.imp fun {e e'} hne p hp hp' => ?_⟩
  · cases rt.mods e with
    | none => exact .nil
    | some me =>
      refine (List.nodup_map_iff_inj_on (me.cleanup_nodup w)).mpr fun p hp q hq heq => ?_
      have hfn := (ModEntry.mem_cleanup.mp hp).2.symm.trans (ModEntry.mem_cleanup.mp hq).2
      exact Prod.ext (Option.some.inj hfn) (Prod.ext_iff.mp heq).2
  · exact hne ((hfst e p hp).symm.trans (hfst e' p hp'))

theorem Runtime.HeapWf.values_nodup (h : rt.HeapWf) : (rt.modHdValues w).Nodup := by
  refine (w.iterOrder_perm _).nodup_iff.mpr (List.Nodup.map_on ?_ rt.modHd.nodupKeys.nodup)
  rintro ⟨κ, x⟩ hx ⟨κ', y⟩ hy heq
  obtain rfl : x = y := heq
  have hkey := (h.table (AList.mem_lookup_iff.mpr hx)).symm.trans
    (h.table (AList.mem_lookup_iff.mpr hy))
  rw [Option.some.inj hkey]

theorem Config.Custody.step (hwf : c.Wf w) (hin : c.Custody) (h : Step w c a c' ev) :
    c'.Custody := by
  have hle := (h.effect hwf).nblocks_le
  have hlost : ∀ {x : EntryRef}, c.st.rt.mods x ≠ none → c'.st.rt.mods x = none →
      ∀ e b, c'.st.rt.OwnsBlock e b → c.st.rt.OwnsBlock e b := by
    intro x hx hgone
    rcases h.owners hwf with hold | ⟨y, -, hlive, -⟩
    · exact hold
    · exact absurd hgone (hlive x hx)
  unfold Config.Custody State.cleaned
  cases h.cleans hwf with
  | none hlive hlog =>
    rw [hlog]
    rcases h.owners hwf with hold | ⟨x, hnext, -, hnew⟩
    · exact hin.mono hold hle
    · rw [hnext]
      exact hin.make x hnew
  | @freed e me ha hme hgone hlive hlog =>
    refine hin.release (c.st.rt.givenBy w [e]) ?_ (fun p hp => (mem_givenBy hp).2)
      (givenBy_nodup (List.nodup_singleton e))
      (fun x b hb => ⟨hlost (by simp [hme]) hgone x b hb, ?_⟩) hle
    · rw [hlog, givenBy_snd, List.map_append]
      show (_ ++ c.st.cleaned).Perm (_ ++ c.st.cleaned)
      rw [show c.st.rt.cleanupsOf w [e] = me.cleanup w by simp [cleanupsOf, hme]]
    · intro hmem
      obtain ⟨p, hp, rfl⟩ := List.mem_map.mp hmem
      rw [List.mem_singleton.mp (mem_givenBy hp).1, OwnsBlock, hgone] at hb
      cases hb
  | shutdown ha hrt hlog =>
    refine hin.release (c.st.rt.givenBy w (c.st.rt.modHdValues w)) ?_
      (fun p hp => (mem_givenBy hp).2) (givenBy_nodup hwf.heap.values_nodup) (fun x b hb => ?_) hle
    · rw [givenBy_snd, State.cleaned, ← List.map_append]
      exact hlog.map _
    · rw [OwnsBlock, hrt] at hb
      cases hb

theorem custody_of_reachable {ok : Config → Action → Prop} (h : ReachableBy w ok c) :
    c.Custody := by
  refine h.invariant_wf Config.Custody (fun c hc => ?_) fun c a c' ev hwf hin _ hs =>
    hin.step hwf hs
  obtain ⟨ctxs, adapters, mem, rfl⟩ := hc
  exact Custody.Ok.nil fun e b hb => by cases hb

/-- A region state is cleaned up once, by the step that frees its entry. -/
theorem cleansOnce_of_reachable (h : Reachable w c) : c.CleansOnce w := by
  have hwf := Config.Wf.of_reachable h
  have hin := custody_of_reachable h
  refine ⟨hin.once, hin.owner, hin.kept, fun a c' ev hs p hp hnew => ?_,
    fun a c' ev hs e me b fn hme hgone hb hfn htable => ?_⟩
  · cases (Step.of_step hs).cleans hwf with
    | none hlive hlog => exact absurd (hlog ▸ hp) hnew
    | @freed e me ha hme hgone hlive hlog =>
      rw [hlog] at hp
      have hclean := (List.mem_append.mp hp).resolve_right hnew
      exact ⟨e, me, hme, hgone, ModEntry.mem_cleanup.mp hclean⟩
    | shutdown ha hrt hlog =>
      have hclean := (List.mem_append.mp (hlog.mem_iff.mp hp)).resolve_right hnew
      obtain ⟨e, -, me, hme, hmem⟩ := mem_cleanupsOf.mp hclean
      exact ⟨e, me, hme, by rw [hrt]; rfl, ModEntry.mem_cleanup.mp hmem⟩
  · have hclean : (fn, b) ∈ me.cleanup w := ModEntry.mem_cleanup.mpr ⟨hb, hfn⟩
    cases (Step.of_step hs).cleans hwf with
    | none hlive hlog => exact absurd hgone (hlive e (by simp [hme]))
    | @freed x mx ha hmx hgone' hlive hlog =>
      have hx : e = x := by
        by_contra hne
        exact hlive e hne (by simp [hme]) hgone
      subst hx
      obtain rfl : mx = me := Option.some.inj (hmx.symm.trans hme)
      rw [hlog]
      exact List.mem_append_left _ hclean
    | shutdown ha hrt hlog =>
      obtain ⟨κ, hκ⟩ := htable ha
      refine hlog.mem_iff.mpr (List.mem_append_left _ (mem_cleanupsOf.mpr ⟨e, ?_, me, hme, hclean⟩))
      exact (w.iterOrder_perm _).mem_iff.mpr
        (List.mem_map.mpr ⟨⟨κ, e⟩, AList.mem_lookup_iff.mp hκ, rfl⟩)

/-- The objects of `statefulWorld`, with an `xy_region_cleanup`. -/
def cleaningWorld : World :=
  { statefulWorld with
    dlsym := fun h sym =>
      if sym = .xyRegionCleanup then some (mappedAt h + 7) else statefulWorld.dlsym h sym }

/-- A module is loaded into two regions, and unloaded from one. -/
theorem cleansOnce_of_two_instances :
    let c := (Config.boot sampleHook).after cleaningWorld
      (secondInstance 1 ++ [.tau, .ret .installed, .call (.unload sampleFile), .tau])
    c.CleansOnce cleaningWorld ∧ c.st.cleanups = [(mappedAt 1 + 7, 2)]
      ∧ c.st.rt.OwnsBlock 0 0 := by
  refine ⟨cleansOnce_of_reachable ?_, ?_⟩
  · exact ReachableBy.after (.start (Config.boot_initial sampleHook)) fun _ _ _ => trivial
  · exact ⟨by decide +kernel, by decide +kernel⟩

end

end Xylem
