import Xylem.Calls

/-!
# What a step does to the module table

* `Effect.modHd` lists the writes to `mod_hd`: a load publishes its entry, an
  entry is re-keyed after a claim, a freed entry takes its key along.
* `Frame.Spares`: the keys that a call in progress will look up again do not lead
  to a given entry, or the call is a reload that would put the entry back into
  the region where it is.  The calls above an entry that is linked go on sparing
  it (`Step.spares`), so that it stays where it is.
-/

namespace Xylem

open Xylem.Runtime

section

variable {w : World} {c c' : Config} {a : Action} {ev : Event} {rt' : Runtime} {e : EntryRef}
  {home : RegionRef}

theorem reinsert_modHd {rt : Runtime} {r : RegionRef} {after : Option EntryRef}
    (h : Xylem.reinsert rt r e after = some rt') : rt'.modHd = rt.modHd := by
  unfold Xylem.reinsert at h
  dsimp only at h
  split at h
  · cases h
    unfold moduleRegionDetach
    split <;> rfl
  · cases h

theorem removeEntry_modHd (rt : Runtime) (e : EntryRef) (me : ModEntry) :
    (rt.removeEntry w e me).modHd = rt.modHd.erase me.modKey := by
  have hclear := (moduleClearFnCacheForHandle_keeps w rt e me.handle).same
  have hpath : ((rt.moduleClearFnCacheForHandle w e me.handle).moduleRemovePathOwnedEntries
      me).modHd = rt.modHd := by
    unfold moduleRemovePathOwnedEntries
    split <;> exact hclear.modHd
  exact ((discardEntry_modHd _ e me).1).trans (congrArg _ hpath)

/-- What a step can do to the module table. -/
theorem Effect.modHd (h : Effect w c a rt') :
    rt'.modHd = c.st.rt.modHd
      ∨ (∃ tx k, a = .tau ∧ c.stack = .load tx .opened :: k ∧ tx.lookup.entry = none
        ∧ rt'.modHd = c.st.rt.modHd.insert tx.lookup.key c.st.rt.nmods)
      ∨ (∃ tx k child x, a = .tau ∧ c.stack = .load tx (.rekey child) :: k
        ∧ c.st.rt.modHd.lookup tx.lookup.key = some x
        ∧ rt'.modHd = (c.st.rt.modHd.insert (modKey (w.loadPath tx.fname) child.id child.plen)
            x).erase tx.lookup.key)
      ∨ (∃ x me, c.st.rt.mods x = some me ∧ rt'.mods x = none
        ∧ rt'.modHd = c.st.rt.modHd.erase me.modKey)
      ∨ (a = .call .shutdown ∧ rt' = c.st.rt.bootstrap) := by
  cases h with
  | same | handler | claimAt | grant | refcount | bind | prewarm | resolve | register =>
    exact Or.inl rfl
  | @deny r what type =>
    refine Or.inl ?_
    unfold recordDeny
    cases type <;> rfl
  | publish ha hstack hl => exact Or.inr (Or.inl ⟨_, _, ha, hstack, hl, rfl⟩)
  | rekey ha hstack hl => exact Or.inr (Or.inr (Or.inl ⟨_, _, _, _, ha, hstack, hl, rfl⟩))
  | link => exact Or.inl (linkEntry_modHd ..).1
  | @abort tx k err e me ha hstack he hme =>
    refine Or.inr (Or.inr (Or.inr (Or.inl ⟨e, me, hme, ?_, (discardEntry_modHd ..).1⟩)))
    rw [discardEntry_mods, Function.update_self]
  | @remove k e me ha hstack hme =>
    refine Or.inr (Or.inr (Or.inr (Or.inl ⟨e, me, hme, ?_, removeEntry_modHd ..⟩)))
    obtain ⟨rt1, -, hmods⟩ := removeEntry_mods (w := w) c.st.rt e me
    rw [hmods, Function.update_self]
  | reinsert ha hstack hl hre hr hi => exact Or.inl (reinsert_modHd hi)
  | vector ha hcaller hr hv => exact Or.inl (sameHeap_prepareVec hv).modHd
  | shutdown ha hstack => exact Or.inr (Or.inr (Or.inr (Or.inr ⟨ha, rfl⟩)))

/-- An entry comes under a key when it is published or re-keyed. -/
theorem Effect.lookup_old (h : Effect w c a rt') (he : e < c.st.rt.nmods) {key : List UInt8}
    (hl : rt'.modHd.lookup key = some e) :
    c.st.rt.modHd.lookup key = some e
      ∨ ∃ tx k child, a = .tau ∧ c.stack = .load tx (.rekey child) :: k
        ∧ c.st.rt.modHd.lookup tx.lookup.key = some e := by
  rcases h.modHd with hsame | ⟨tx, k, -, -, -, hpub⟩ | ⟨tx, k, child, x, ha, hstack, hx, hrekey⟩
    | ⟨x, me, -, -, herase⟩ | ⟨-, hboot⟩
  · exact Or.inl (hsame ▸ hl)
  · rw [hpub] at hl
    by_cases hkey : key = tx.lookup.key
    · subst hkey
      rw [AList.lookup_insert] at hl
      cases hl
      exact absurd he (Nat.lt_irrefl _)
    · rw [AList.lookup_insert_ne hkey] at hl
      exact Or.inl hl
  · rw [hrekey] at hl
    have hins := lookup_of_lookup_erase hl
    by_cases hkey : key = modKey (w.loadPath tx.fname) child.id child.plen
    · subst hkey
      rw [AList.lookup_insert] at hins
      cases hins
      exact Or.inr ⟨tx, k, child, ha, hstack, hx⟩
    · rw [AList.lookup_insert_ne hkey] at hins
      exact Or.inl hins
  · rw [herase] at hl
    exact Or.inl (lookup_of_lookup_erase hl)
  · rw [hboot] at hl
    cases hl

/-! ## An entry that no call above it moves -/

/-- The call does not come to move the entry out of its region. -/
def Frame.Spares (w : World) (rt : Runtime) (e : EntryRef) (home : RegionRef) (f : Frame) : Prop :=
  ∀ key ∈ f.key w, rt.modHd.lookup key = some e → ∃ rl pc, f = .reload rl pc ∧ rl.re = some home

theorem Frame.spares_of_none {rt : Runtime} {f : Frame} (h : f.key w = none) :
    f.Spares w rt e home := by
  intro key hkey
  rw [h] at hkey
  cases hkey

theorem Frame.Spares.mono {rt : Runtime} {f : Frame} (h : f.Spares w rt e home)
    (hl : ∀ key, rt'.modHd.lookup key = some e → rt.modHd.lookup key = some e) :
    f.Spares w rt' e home :=
  fun key hkey hk => h key hkey (hl key hk)

theorem Frame.Spares.load {rt : Runtime} {tx tx' : LoadTxn} {pc pc' : LoadPc}
    (h : Frame.Spares w rt e home (.load tx pc)) (hpc : pc'.raw = true → pc.raw = true)
    (hkey : tx'.lookup = tx.lookup) : Frame.Spares w rt e home (.load tx' pc') := by
  intro key hk hl
  simp only [Frame.key] at hk
  split at hk
  · next hraw =>
    cases hk
    obtain ⟨rl, pc'', heq, -⟩ := h tx.lookup.key (by simp [Frame.key, hpc hraw]) (hkey ▸ hl)
    cases heq
  · cases hk

theorem Frame.Spares.reload {rt : Runtime} {rl : Reload} {pc pc' : ReloadPc}
    (h : Frame.Spares w rt e home (.reload rl pc)) : Frame.Spares w rt e home (.reload rl pc') := by
  intro key hk hl
  obtain ⟨rl', pc'', heq, hre⟩ := h key hk hl
  cases heq
  exact ⟨rl, pc', rfl, hre⟩

/-- The calls above the lower `n` spare the entry. -/
def SparesAbove (w : World) (rt : Runtime) (e : EntryRef) (home : RegionRef) (n : Nat) :
    List Frame → Prop
  | [] => True
  | f :: k => (n ≤ k.length → f.Spares w rt e home) ∧ SparesAbove w rt e home n k

theorem SparesAbove.of_length_le {rt : Runtime} {n : Nat} {k : List Frame} (h : k.length ≤ n) :
    SparesAbove w rt e home n k := by
  induction k with
  | nil => trivial
  | cons f k ih =>
    rw [List.length_cons] at h
    exact ⟨fun hn => absurd hn (by omega), ih (by omega)⟩

theorem SparesAbove.mono {rt : Runtime} {n : Nat} {k : List Frame}
    (h : SparesAbove w rt e home n k)
    (hl : ∀ key, rt'.modHd.lookup key = some e → rt.modHd.lookup key = some e) :
    SparesAbove w rt' e home n k := by
  induction k with
  | nil => trivial
  | cons f k ih => exact ⟨fun hn => (h.1 hn).mono hl, ih h.2⟩

theorem SparesAbove.resumed {rt : Runtime} {n : Nat} {k k' : List Frame}
    (h : SparesAbove w rt e home n k) (hr : Resumed k k') : SparesAbove w rt e home n k' := by
  cases hr with
  | same => exact h
  | reload rl pc pc' k => exact ⟨fun hn => (h.1 hn).reload, h.2⟩

theorem Unloads.spares {s : State} {fname : CStr} {id : RegionId} {plen n : Nat} {k : List Frame}
    {rt : Runtime} (h : Unloads w s fname id plen k c' ev) (hk : SparesAbove w rt e home n k) :
    SparesAbove w rt e home n c'.stack := by
  cases h with
  | notFound hl hr => exact hk.resumed (resume_spec hr).2
  | shared hl hme href hr => exact hk.resumed (resume_spec hr).2
  | cascade hl hme href => exact ⟨fun _ => Frame.spares_of_none rfl, hk⟩

/-- No step puts an entry that is spared under another key. -/
theorem SparesAbove.lookup_old {n : Nat} (hinv : SparesAbove w c.st.rt e home n c.stack)
    (h : Effect w c a rt') (he : e < c.st.rt.nmods) (hn : a = .tau → n < c.stack.length)
    {key : List UInt8} (hkey : rt'.modHd.lookup key = some e) :
    c.st.rt.modHd.lookup key = some e := by
  rcases h.lookup_old he hkey with hl | ⟨tx, k, child, ha, hstack, hl⟩
  · exact hl
  · have hlt := hn ha
    rw [hstack] at hinv hlt
    obtain ⟨rl, pc, heq, -⟩ := hinv.1 (Nat.le_of_lt_succ hlt) tx.lookup.key rfl hl
    cases heq

/-- The calls above an entry that is linked go on sparing it. -/
theorem Step.spares (hwf : c.Wf w) (h : Step w c a c' ev) {n : Nat} (he : e < c.st.rt.nmods)
    (hhome : ∀ me, c.st.rt.mods e = some me → me.regionEntry = some home)
    (hn : a = .tau → n < c.stack.length)
    (hinv : SparesAbove w c.st.rt e home n c.stack) :
    SparesAbove w c'.st.rt e home n c'.stack := by
  have hold : ∀ key, c'.st.rt.modHd.lookup key = some e → c.st.rt.modHd.lookup key = some e :=
    fun key hkey => hinv.lookup_old (h.effect hwf) he hn hkey
  replace hinv := hinv.mono hold
  have hplain : ∀ {f : Frame} {k : List Frame}, f.key w = none →
      SparesAbove w c'.st.rt e home n k → SparesAbove w c'.st.rt e home n (f :: k) :=
    fun hkey hk => ⟨fun _ => Frame.spares_of_none hkey, hk⟩
  cases h with
  | load | scope | eachFirst | dispatchLoop => exact hplain rfl hinv
  | answered | direct | dispatchDone | shutdown => exact hinv
  | unload hw hu => exact hu.spares hinv
  | @reload _ _ _ fname e' me hw hl hme hu =>
    refine hu.spares ⟨fun _ key hkey hk => ?_, hinv⟩
    simp only [Frame.key] at hkey
    split at hkey
    · cases hkey
      have hsame := hold _ hk
      rw [hl] at hsame
      cases hsame
      exact ⟨_, _, rfl, hhome me hme⟩
    · cases hkey
  | dlopenFailed hr => exact hinv.2.resumed (resume_spec hr).2
  | reuse hl hme hr => exact hinv.2.resumed (resume_spec hr).2
  | installed hr => exact hinv.2.resumed (resume_spec hr).2
  | abort ha hr => exact hinv.2.resumed (resume_spec hr).2
  | remove hme hr => exact hinv.2.resumed (resume_spec hr).2
  | @publish s k tx hl =>
    refine ⟨fun _ key hkey hk => ?_, hinv.2⟩
    cases hkey
    have hnew : (s.rt.modHd.insert tx.lookup.key s.rt.nmods).lookup tx.lookup.key = some e := hk
    rw [AList.lookup_insert] at hnew
    cases hnew
    exact absurd he (Nat.lt_irrefl _)
  | dlopened | cascadeSkip => exact hplain rfl hinv.2
  | bind | claimFlat | claimRefused | claimAsked | notGranted | granted | rekey | link
  | installMissing | install =>
    exact ⟨fun hk => (hinv.1 hk).load (by simp [LoadPc.raw]) rfl, hinv.2⟩
  | cascade hme hp hs hu => exact hu.spares (hplain rfl hinv.2)
  | reloadLoad => exact hplain rfl ⟨fun hk => (hinv.1 hk).reload, hinv.2⟩
  | selfSkip | selfDeaf | selfEnter | slotSkip | slotEnter | selfListened | slotListened
  | eachNext => exact hplain rfl hinv.2
  | reinsert | reloadEnd | dispatchEnd | scopeEnd | eachEnd => exact hinv.2

/-- An entry that the calls above it spare stays in its region. -/
theorem Effect.stays (h : Effect w c a rt') {n : Nat} (he : e < c.st.rt.nmods)
    (hhome : ∀ me, c.st.rt.mods e = some me → me.regionEntry = some home)
    (hn : a = .tau → n < c.stack.length) (hinv : SparesAbove w c.st.rt e home n c.stack) :
    ∀ me, rt'.mods e = some me → me.regionEntry = some home := by
  intro me' hme'
  rcases h.entry hme' with ⟨-, -, -, -, -, rfl, -⟩ | ⟨me, hme, hch⟩
  · exact absurd he (Nat.lt_irrefl _)
  · have hold := hhome me hme
    show me'.core.regionEntry = some home
    generalize me'.core = m at hch
    cases hch with
    | same | refcount | rekey => exact hold
    | bind ha hstack hx hhome' hctx => rw [hold] at hhome'; cases hhome'
    | link ha hstack hx hun => rw [hold] at hun; cases hun
    | @reinsert rl k r ha hstack hl hre =>
      have hlt := hn ha
      rw [hstack] at hinv hlt
      have hkey : modKey (w.loadPath rl.fname) rl.id rl.plen
          ∈ Frame.key w (.reload rl (.loaded xyOk)) := by
        simp only [Frame.key, hre, Option.isSome_some, if_true, Option.mem_def]
      obtain ⟨rl', pc, heq, hre'⟩ := hinv.1 (Nat.le_of_lt_succ hlt) _ hkey hl
      cases heq
      rw [hre] at hre'
      exact hre'

/-! ## An entry that is not linked yet -/

/-- What stays of an entry that a call below the moving one has yet to link. -/
theorem Effect.raw_entry (hwf : c.Wf w) (h : Effect w c a rt') {g : Frame} (hg : g ∈ c.below a)
    (he : e ∈ g.raw) {me' : ModEntry} (hme' : rt'.mods e = some me') :
    ∃ me, c.st.rt.mods e = some me ∧ me'.handle = me.handle ∧ me'.loadPath = me.loadPath
      ∧ me'.regionId = me.regionId ∧ me'.regionPlen = me.regionPlen := by
  have hlt := ((hwf.stack.ok g (c.mem_stack_of_below hg)).raw_lt he).1
  obtain ⟨hraw, hkey⟩ := hwf.below_raw hg he
  have hmover : ∀ {f : Frame} {k : List Frame}, a = .tau → c.stack = f :: k →
      c.mover a = some f := by
    rintro f k rfl hstack
    simp only [Config.mover, hstack, List.head?_cons]
  rcases h.entry hme' with ⟨-, -, -, -, -, rfl, -⟩ | ⟨me, hme, hch⟩
  · exact absurd hlt (Nat.lt_irrefl _)
  · refine ⟨me, hme, ?_⟩
    show me'.core.handle = me.handle ∧ me'.core.loadPath = me.loadPath
      ∧ me'.core.regionId = me.regionId ∧ me'.core.regionPlen = me.regionPlen
    generalize me'.core = m at hch
    cases hch with
    | same | refcount | bind | link | reinsert => exact ⟨rfl, rfl, rfl, rfl⟩
    | @rekey tx k child ha hstack hl =>
      rw [hmover ha hstack] at hkey
      exact absurd hl (hkey tx.lookup.key rfl)

end

end Xylem
