import Xylem.ModLists
import Xylem.Parents
import Xylem.Table

/-!
# A reload keeps the place of a module

`xy_reload` remembers the predecessor of a module, unloads the module, loads it
again, and puts the new entry after the old predecessor.  Between these, module
code runs, and it may load, unload and reload what it likes.

`KeptSince` compares the list of a region with what it was in an earlier state:
the entries that are still loaded have kept their order.  Every step keeps it,
and a nested reload does because the list when it was called is kept since then
(`Placed`).  What is left is the last step: the load may have been granted another
region, and the old predecessor may be gone (`reload_keeps_place_iff`).
-/

namespace Xylem

open Xylem.Runtime

/-- The key that a reload looks its module up by. -/
def Reload.key (w : World) (rl : Reload) : List UInt8 :=
  modKey (w.loadPath rl.fname) rl.id rl.plen

/-- The list of `r` in `rt` against the one in the earlier `rt₀`, in which `n`
calls were in progress. -/
structure KeptSince (w : World) (r : RegionRef) (rt₀ rt : Runtime) (n : Nat) (k : List Frame) :
    Prop where
  heap : rt₀.HeapWf
  nmods : rt₀.nmods ≤ rt.nmods
  order : (rt₀.modsOf r).filter (fun x => (rt.mods x).isSome)
    = (rt.modsOf r).filter (fun x => x ∈ rt₀.modsOf r)
  spared : ∀ x ∈ rt₀.modsOf r, SparesAbove w rt x r n k
  lookup : ∀ x ∈ rt₀.modsOf r, ∀ κ, rt.modHd.lookup κ = some x → rt₀.modHd.lookup κ = some x

/-- What a reload that was called in `rt₀` has remembered. -/
structure Reload.Of (w : World) (rl : Reload) (rt₀ : Runtime) (e : EntryRef) (me : ModEntry) :
    Prop where
  lookup : rt₀.modHd.lookup (rl.key w) = some e
  mods : rt₀.mods e = some me
  insertAfter : rl.insertAfter = rt₀.regionPrev e me
  re : rl.re = me.regionEntry

section

variable {w : World} {r : RegionRef} {rt₀ rt rt' : Runtime} {n : Nat} {k : List Frame}
  {c c' : Config} {a : Action} {ev : Event} {x e e' : EntryRef} {me : ModEntry} {rl : Reload}

theorem Runtime.HeapWf.live_of_listed (h : rt.HeapWf) (hx : x ∈ rt.modsOf r) :
    (rt.mods x).isSome = true := by
  obtain ⟨me, hme, -⟩ := Option.bind_eq_some_iff.mp (h.mem_iff.mp hx)
  rw [hme]
  rfl

theorem Runtime.HeapWf.listed_lt (h : rt.HeapWf) (hx : x ∈ rt.modsOf r) : x < rt.nmods := by
  obtain ⟨me, hme⟩ := Option.isSome_iff_exists.mp (h.live_of_listed hx)
  exact h.lt_of_mods hme

theorem KeptSince.refl (hheap : rt.HeapWf) (hk : k.length ≤ n) : KeptSince w r rt rt n k where
  heap := hheap
  nmods := le_rfl
  order := List.filter_congr fun x hx => by simp [hheap.live_of_listed hx, hx]
  spared x _ := .of_length_le hk
  lookup x _ κ hκ := hκ

/-- What was in the list and is still loaded is in the list. -/
theorem KeptSince.listed (h : KeptSince w r rt₀ rt n k) (hx : x ∈ rt₀.modsOf r)
    (hlive : (rt.mods x).isSome = true) : x ∈ rt.modsOf r := by
  have hin : x ∈ (rt₀.modsOf r).filter (fun x => (rt.mods x).isSome) :=
    List.mem_filter.mpr ⟨hx, hlive⟩
  rw [h.order] at hin
  exact (List.mem_filter.mp hin).1

/-! ## One step -/

/-- What is loaded after a step and has been allocated before was loaded before. -/
theorem Effect.live_old (h : Effect w c a rt') (hlt : x < c.st.rt.nmods)
    (hlive : (rt'.mods x).isSome = true) : (c.st.rt.mods x).isSome = true := by
  obtain ⟨me', hme'⟩ := Option.isSome_iff_exists.mp hlive
  rcases h.entry hme' with ⟨-, -, -, -, -, rfl, -⟩ | ⟨me, hme, -⟩
  · exact absurd hlt (Nat.lt_irrefl _)
  · rw [hme]
    rfl

theorem KeptSince.next (hwf : c.Wf w) (hs : Step w c a c' ev)
    (h : KeptSince w r rt₀ c.st.rt n c.stack) (hn : a = .tau → n < c.stack.length)
    (hlist : (c'.st.rt.modsOf r).filter (fun x => x ∈ rt₀.modsOf r)
      = ((c.st.rt.modsOf r).filter (fun x => (c'.st.rt.mods x).isSome)).filter
        (fun x => x ∈ rt₀.modsOf r)) :
    KeptSince w r rt₀ c'.st.rt n c'.stack := by
  have heff := hs.effect hwf
  have hlt : ∀ x ∈ rt₀.modsOf r, x < c.st.rt.nmods := fun x hx =>
    Nat.lt_of_lt_of_le (h.heap.listed_lt hx) h.nmods
  refine ⟨h.heap, Nat.le_trans h.nmods (heff.nmods_le hwf), ?_, fun x hx => ?_, fun x hx κ hκ => ?_⟩
  · calc (rt₀.modsOf r).filter (fun x => (c'.st.rt.mods x).isSome)
        = ((rt₀.modsOf r).filter (fun x => (c.st.rt.mods x).isSome)).filter
            (fun x => (c'.st.rt.mods x).isSome) := by
          rw [List.filter_filter]
          refine List.filter_congr fun x hx => ?_
          rw [Bool.eq_iff_iff, Bool.and_eq_true]
          exact ⟨fun hl => ⟨hl, heff.live_old (hlt x hx) hl⟩, And.left⟩
      _ = ((c.st.rt.modsOf r).filter (fun x => x ∈ rt₀.modsOf r)).filter
            (fun x => (c'.st.rt.mods x).isSome) := by rw [h.order]
      _ = (c'.st.rt.modsOf r).filter (fun x => x ∈ rt₀.modsOf r) := by
          rw [hlist, List.filter_filter, List.filter_filter]
          exact List.filter_congr fun x _ => Bool.and_comm _ _
  · refine hs.spares hwf (hlt x hx) (fun me hme => ?_) hn (h.spared x hx)
    have hin := h.listed hx (by rw [hme]; rfl)
    rw [← home_of_mods hme]
    exact hwf.heap.mem_iff.mp hin
  · exact h.lookup x hx κ ((h.spared x hx).lookup_old heff (hlt x hx) hn hκ)

/-- A step that ends no reload. -/
theorem KeptSince.step (hwf : c.Wf w) (hs : Step w c a c' ev)
    (h : KeptSince w r rt₀ c.st.rt n c.stack) (hn : a = .tau → n < c.stack.length)
    (hnot : ∀ rl k, a = .tau → c.stack ≠ .reload rl (.loaded xyOk) :: k)
    (hdown : a ≠ .call .shutdown) : KeptSince w r rt₀ c'.st.rt n c'.stack := by
  have heff := hs.effect hwf
  have hheap' := heff.heap hwf
  refine h.next hwf hs hn ?_
  have hall : ∀ {l : List EntryRef}, (∀ x ∈ l, x ∈ c'.st.rt.modsOf r) →
      l.filter (fun x => (c'.st.rt.mods x).isSome) = l := fun hl =>
    List.filter_eq_self.mpr fun x hx => hheap'.live_of_listed (hl x hx)
  cases heff.lists hwf r with
  | same hl => rw [hl, hall fun x hx => hl ▸ hx]
  | @append e hnew hl =>
    have hnot : e ∉ rt₀.modsOf r := fun hin => hnew <| by
      have hlive := hheap'.live_of_listed (r := r) (x := e) (by rw [hl]; simp)
      exact h.listed hin (heff.live_old
        (Nat.lt_of_lt_of_le (h.heap.listed_lt hin) h.nmods) hlive)
    rw [hall fun x hx => by rw [hl]; exact List.mem_append_left _ hx, hl, List.filter_append,
      List.filter_cons_of_neg (by simpa using hnot), List.filter_nil, List.append_nil]
  | @free e hgone hothers hl =>
    rw [hl, (hwf.heap.nodup r).erase_eq_filter]
    congr 1
    refine List.filter_congr fun x hx => ?_
    by_cases hxe : x = e
    · simp [hxe, hgone]
    · have hlive := hwf.heap.live_of_listed hx
      have hlive' : (c'.st.rt.mods x).isSome = true := by
        rw [Option.isSome_iff_ne_none] at hlive ⊢
        exact fun hnone => hlive ((hothers x hxe).mp hnone)
      simp [hxe, hlive']
  | reinsert ha hstack => exact absurd hstack (hnot _ _ ha)
  | shutdown ha => exact absurd ha hdown

/-! ## The end of a reload -/

theorem reinsert_after {r' : RegionRef} {after : Option EntryRef} (hheap : rt.HeapWf)
    (hi : Xylem.reinsert rt r' e after = some rt') : ∀ a ∈ after, a ∈ (rt.modsOf r').erase e := by
  unfold Xylem.reinsert at hi
  dsimp only at hi
  split at hi
  · next hafter =>
    intro a ha
    rw [← detach_modsOf hheap]
    exact hafter a ha
  · cases hi

/-- To list an entry again frees nothing. -/
theorem reinsert_live {r' : RegionRef} {after : Option EntryRef}
    (hi : Xylem.reinsert rt r' e' after = some rt') (x : EntryRef) :
    (rt'.mods x).isSome = (rt.mods x).isSome := by
  rw [reinsert_mods hi]
  by_cases hx : x = e'
  · rw [hx, Function.update_self, Option.isSome_map]
  · rw [Function.update_of_ne hx]

/-- A reload that finds an entry that was listed when it was called finds the one
that it has unlisted and lists again. -/
theorem KeptSince.found (h : KeptSince w r rt₀ rt n k) (hof : rl.Of w rt₀ e me)
    (hl : rt.modHd.lookup (rl.key w) = some e') (hin : e' ∈ rt₀.modsOf r) :
    e' = e ∧ me.regionEntry = some r := by
  have hold := h.lookup e' hin _ hl
  rw [hof.lookup] at hold
  cases hold
  refine ⟨rfl, ?_⟩
  rw [← home_of_mods hof.mods]
  exact h.heap.mem_iff.mp hin

/-- The end of a reload moves no entry that was listed when it was called. -/
theorem KeptSince.reinsert (hheap : rt.HeapWf) (h : KeptSince w r rt₀ rt n k)
    (hof : rl.Of w rt₀ e me) (hl : rt.modHd.lookup (rl.key w) = some e') {r' : RegionRef}
    (hre : rl.re = some r') (hi : Xylem.reinsert rt r' e' rl.insertAfter = some rt') :
    (rt'.modsOf r).filter (fun x => x ∈ rt₀.modsOf r)
      = (rt.modsOf r).filter (fun x => x ∈ rt₀.modsOf r) := by
  rw [reinsert_modsOf hheap hi]
  by_cases hin : e' ∈ rt₀.modsOf r
  · obtain ⟨rfl, hhome⟩ := h.found hof hl hin
    obtain rfl : r = r' := Option.some.inj (hhome.symm.trans (hof.re.symm.trans hre))
    have hplace : rl.insertAfter = prevIn e' (rt₀.modsOf r) := by
      rw [hof.insertAfter, regionPrev, hhome]
      rfl
    have hafter := reinsert_after hheap hi
    rw [hplace] at hafter ⊢
    have hnodup := h.heap.nodup r
    have hlive : ∀ x ∈ rt.modsOf r, (rt.mods x).isSome = true := fun x hx =>
      hheap.live_of_listed hx
    have hlive' : (rt.mods e').isSome = true := by
      obtain ⟨me', hme', -⟩ := Option.map_eq_some_iff.mp (hheap.table hl)
      rw [hme']
      rfl
    rw [if_pos rfl]
    calc (insertAfter e' (prevIn e' (rt₀.modsOf r)) ((rt.modsOf r).erase e')).filter
            (fun x => x ∈ rt₀.modsOf r)
        = insertAfter e' (prevIn e' (rt₀.modsOf r))
            (((rt.modsOf r).filter (fun x => x ∈ rt₀.modsOf r)).erase e') := by
          rw [filter_insertAfter_of_mem (by simpa using hin)
            fun a ha => by simpa using (prevIn_mem ha).1, List.erase_filter]
      _ = (insertAfter e' (prevIn e' (rt₀.modsOf r)) ((rt₀.modsOf r).erase e')).filter
            (fun x => (rt.mods x).isSome) := by
          rw [← h.order, List.erase_filter, filter_insertAfter_of_mem hlive' fun a ha =>
            hlive a (List.mem_of_mem_erase (hafter a ha))]
      _ = (rt.modsOf r).filter (fun x => x ∈ rt₀.modsOf r) := by
          rw [insertAfter_prevIn e' hnodup hin, ← h.order]
          congr 1
          refine (List.map_congr_left fun x _ => ?_).trans (List.map_id _)
          split
          · next heq => exact heq.symm
          · rfl
  · have hnot : decide (e' ∈ rt₀.modsOf r) = false := by simpa using hin
    split
    · next hr =>
      subst hr
      rw [filter_insertAfter_of_not hnot (reinsert_after hheap hi), filter_erase_of_not hnot]
    · exact filter_erase_of_not hnot

end

/-! ## Reloads in progress -/

/-- The reloads in progress above the lower `n` calls: since each was called, the
list of `r` is kept, and what the list had then is in `bound`.  The lowest of them
was called in `base`. -/
def Placed (w : World) (r : RegionRef) (n : Nat) (base rt : Runtime) (stack : List Frame) :
    (EntryRef → Prop) → List Frame → Prop
  | _, [] => True
  | bound, .reload rl _ :: k => n ≤ k.length → ∃ rt₀ e me, (k.length = n → rt₀ = base)
      ∧ KeptSince w r rt₀ rt k.length stack ∧ rl.Of w rt₀ e me
      ∧ (∀ x ∈ rt₀.modsOf r, (rt.mods x).isSome = true → bound x)
      ∧ Placed w r n base rt stack (fun x => x ∈ rt₀.modsOf r) k
  | bound, _ :: k => Placed w r n base rt stack bound k

section

variable {w : World} {r : RegionRef} {base rt rt' : Runtime} {n m : Nat}
  {k k' stack stack' : List Frame} {c c' : Config} {a : Action} {ev : Event}
  {bound bound' : EntryRef → Prop} {f : Frame}

theorem Placed.cons (hf : ∀ rl pc, f ≠ .reload rl pc) :
    Placed w r n base rt stack bound (f :: k) ↔ Placed w r n base rt stack bound k := by
  cases f with
  | reload rl pc => exact absurd rfl (hf rl pc)
  | load | unload | dispatch | scope | each => rfl

theorem Placed.of_length_le (h : k.length ≤ n) : Placed w r n base rt stack bound k := by
  induction k generalizing bound with
  | nil => trivial
  | cons f k ih =>
    rw [List.length_cons] at h
    cases f with
    | reload rl pc => exact fun hn => absurd hn (by omega)
    | load | unload | dispatch | scope | each => exact ih (by omega)

theorem Placed.resumed (h : Placed w r n base rt stack bound k) (hk : Resumed k k') :
    Placed w r n base rt stack bound k' := by
  cases hk with
  | same => exact h
  | reload rl pc pc' k => exact h

/-- The runtime may change where the lists are kept. -/
theorem Placed.map (h : Placed w r n base rt stack bound k) (hlen : k.length ≤ m)
    (hkept : ∀ rt₀ i, i < m → KeptSince w r rt₀ rt i stack →
      (∀ x ∈ rt₀.modsOf r, (rt.mods x).isSome = true → bound x) → KeptSince w r rt₀ rt' i stack')
    (hlive : ∀ x < rt.nmods, (rt'.mods x).isSome = true → (rt.mods x).isSome = true)
    (hbound : ∀ x ∈ rt.modsOf r, bound x → bound' x) :
    Placed w r n base rt' stack' bound' k := by
  induction k generalizing bound bound' with
  | nil => trivial
  | cons f k ih =>
    rw [List.length_cons] at hlen
    cases f with
    | reload rl pc =>
      intro hn
      obtain ⟨rt₀, e, me, hbase, hk, hof, hin, hrest⟩ := h hn
      refine ⟨rt₀, e, me, hbase, hkept rt₀ _ (by omega) hk hin, hof, fun x hx hl => ?_,
        ih hrest (by omega) (fun rt₁ i hi hk₁ hb => hkept rt₁ i (by omega) hk₁ fun x hx hl =>
          hin x (hb x hx hl) hl) fun _ _ hx => hx⟩
      have hl' := hlive x (Nat.lt_of_lt_of_le (hk.heap.listed_lt hx) hk.nmods) hl
      exact hbound x (hk.listed hx hl') (hin x hx hl')
    | load | unload | dispatch | scope | each =>
      exact ih h (by omega) (fun rt₀ i hi => hkept rt₀ i (by omega)) hbound

/-- A reload that ends leaves the reloads below it. -/
theorem Placed.below {rl : Reload} {pc : ReloadPc}
    (h : Placed w r n base rt stack bound (.reload rl pc :: k)) :
    Placed w r n base rt stack (fun _ => True) k := by
  by_cases hn : n ≤ k.length
  · obtain ⟨rt₀, e, me, -, -, -, -, hrest⟩ := h hn
    exact hrest.map le_rfl (fun _ _ _ hk _ => hk) (fun _ _ hl => hl) fun _ _ _ => trivial
  · exact .of_length_le (by omega)

theorem Unloads.placed {s : State} {fname : CStr} {id : RegionId} {plen : Nat}
    (h : Unloads w s fname id plen k c' ev) (hk : Placed w r n base rt stack bound k) :
    Placed w r n base rt stack bound c'.stack := by
  cases h with
  | notFound hl hr => exact hk.resumed (resume_spec hr).2
  | shared hl hme href hr => exact hk.resumed (resume_spec hr).2
  | cascade hl hme href => exact hk

/-- A step that ends no reload. -/
theorem Step.placed (hwf : c.Wf w) (h : Step w c a c' ev)
    (hnot : ∀ rl k, a = .tau → c.stack ≠ .reload rl (.loaded xyOk) :: k)
    (hdown : a ≠ .call .shutdown) (hbase : c.stack.length = n → c.st.rt = base)
    (hin : Placed w r n base c.st.rt c.stack (fun _ => True) c.stack) :
    Placed w r n base c'.st.rt c'.stack (fun _ => True) c'.stack := by
  have heff := h.effect hwf
  have hmap : ∀ {bound}, (∀ x ∈ c.st.rt.modsOf r, bound x) →
      Placed w r n base c'.st.rt c'.stack bound c.stack := fun hbound =>
    hin.map le_rfl (fun rt₀ i hi hk _ => hk.step hwf h (fun _ => hi) hnot hdown)
      (fun x hx hl => heff.live_old hx hl) fun x hx _ => hbound x hx
  have hk : Placed w r n base c'.st.rt c'.stack (fun _ => True) c.stack := hmap fun _ _ => trivial
  have htail : ∀ {f k}, c.stack = f :: k → (∀ rl pc, f ≠ .reload rl pc) →
      Placed w r n base c'.st.rt c'.stack (fun _ => True) k := fun heq hf => by
    rw [heq] at hk
    exact (Placed.cons hf).mp hk
  cases h with
  | load | scope | eachFirst | dispatchLoop => exact hk
  | answered | direct | dispatchDone => exact hk
  | unload hw hu => exact hu.placed hk
  | @reload _ _ _ fname e me hw hl hme hu =>
    refine hu.placed fun hn => ⟨c.st.rt, e, me, fun heq => hbase heq, ?_, ⟨hl, hme, rfl, rfl⟩,
      fun _ _ _ => trivial, hmap fun _ hx => hx⟩
    exact (KeptSince.refl hwf.heap le_rfl).step hwf (.reload hw hl hme hu) (fun ha => by cases ha)
      hnot hdown
  | shutdown => exact absurd rfl hdown
  | dlopenFailed hr => exact (htail rfl nofun).resumed (resume_spec hr).2
  | reuse hl hme hr => exact (htail rfl nofun).resumed (resume_spec hr).2
  | installed hr => exact (htail rfl nofun).resumed (resume_spec hr).2
  | abort ha hr => exact (htail rfl nofun).resumed (resume_spec hr).2
  | remove hme hr => exact (htail rfl nofun).resumed (resume_spec hr).2
  | dlopened | publish | bind | claimFlat | claimRefused | claimAsked | notGranted | granted
  | rekey | link | installMissing | install | cascadeSkip => exact hk
  | cascade hme hp hs hu => exact hu.placed hk
  | reloadLoad => exact hk
  | reinsert => exact absurd rfl (hnot _ _ rfl)
  | reloadEnd => exact hk.below
  | dispatchEnd | selfSkip | selfDeaf | selfEnter | slotSkip | slotEnter | selfListened
  | slotListened | scopeEnd | eachNext | eachEnd => exact hk

/-- A step that frees nothing and moves no entry that was listed keeps the lists. -/
theorem KeptSince.still (hwf : c.Wf w) (hs : Step w c a c' ev)
    (h : KeptSince w r base c.st.rt n c.stack) (hn : a = .tau → n < c.stack.length)
    (hlive : ∀ x, (c'.st.rt.mods x).isSome = (c.st.rt.mods x).isSome)
    (hlist : (c'.st.rt.modsOf r).filter (fun x => x ∈ base.modsOf r)
      = (c.st.rt.modsOf r).filter (fun x => x ∈ base.modsOf r)) :
    KeptSince w r base c'.st.rt n c'.stack := by
  refine h.next hwf hs hn (hlist.trans ?_)
  congr 1
  exact (List.filter_eq_self.mpr fun x hx =>
    (hlive x).trans (hwf.heap.live_of_listed hx)).symm

/-- A reload ends. -/
theorem Step.placed_reinsert {rl : Reload} (hwf : c.Wf w) (h : Step w c .tau c' ev)
    (hstack : c.stack = .reload rl (.loaded xyOk) :: k) (hn : n ≤ k.length)
    (hin : Placed w r n base c.st.rt c.stack (fun _ => True) c.stack) :
    Placed w r n base c'.st.rt c'.stack (fun _ => True) c'.stack := by
  have hs := h
  cases h with
  | @reinsert s _ _ e' r' rt hl hre hi =>
    cases hstack
    obtain ⟨rt₀, e, me, -, hkept, hof, -, hrest⟩ := hin hn
    have hlive : ∀ x, (rt.mods x).isSome = (s.rt.mods x).isSome := reinsert_live hi
    have hlist := hkept.reinsert hwf.heap hof hl hre hi
    refine hrest.map le_rfl (fun rt₁ i hi' hk₁ hb => ?_) (fun x _ hx => (hlive x) ▸ hx)
      fun _ _ _ => trivial
    refine hk₁.still hwf hs (fun _ => Nat.lt_succ_of_lt hi') hlive ?_
    have hnarrow : ∀ {l : List EntryRef}, (∀ x ∈ l, (s.rt.mods x).isSome = true) →
        l.filter (fun x => x ∈ rt₁.modsOf r)
          = (l.filter (fun x => x ∈ rt₀.modsOf r)).filter (fun x => x ∈ rt₁.modsOf r) := by
      intro l hl
      rw [List.filter_filter]
      refine List.filter_congr fun x hx => ?_
      rw [Bool.eq_iff_iff, Bool.and_eq_true, decide_eq_true_eq, decide_eq_true_eq]
      exact ⟨fun h₁ => ⟨h₁, hb x h₁ (hl x hx)⟩, And.left⟩
    have hheap' := (hs.effect hwf).heap hwf
    rw [hnarrow fun x hx => (hlive x) ▸ hheap'.live_of_listed hx,
      hnarrow fun x hx => hwf.heap.live_of_listed hx]
    exact congrArg _ hlist
  | @reloadEnd s _ rl' pc m =>
    cases hstack
    obtain ⟨rt₀, e, me, -, -, -, -, hrest⟩ := hin hn
    exact hrest.map le_rfl (fun rt₁ i hi hk₁ _ => hk₁.still hwf hs
      (fun _ => Nat.lt_succ_of_lt hi) (fun _ => rfl) rfl) (fun _ _ hx => hx) fun _ _ _ => trivial
  | _ => cases hstack

end

/-! ## The whole of a reload -/

/-- Whether `x` counts for the place of `e'`, which a reload has put where `e` was:
it is `e'` itself, or another module of the list that has stayed loaded. -/
def StaysBy (rt rt' : Runtime) (r : RegionRef) (e e' x : EntryRef) : Bool :=
  x = e' || (x ∈ rt.modsOf r ∧ x ≠ e ∧ (rt'.mods x).isSome)

/-- The module `e` of `r`, with the key `κ`, has kept its region and its place. -/
structure ReloadKept (rt rt' : Runtime) (r : RegionRef) (e : EntryRef) (κ : List UInt8) :
    Prop where
  region : (rt'.regions r).key = (rt.regions r).key
  nodup : (rt'.modsOf r).Nodup
  listed : ∀ x, x ∈ rt'.modsOf r ↔ rt'.home x = some r
  order : (rt.modsOf r).filter (fun x => (rt'.mods x).isSome)
    = (rt'.modsOf r).filter (fun x => x ∈ rt.modsOf r)
  place : ∃ e', rt'.modHd.lookup κ = some e' ∧ e' ∈ rt'.modsOf r
    ∧ ((rt.modsOf r).map fun x => if x = e then e' else x).filter (StaysBy rt rt' r e e')
      = (rt'.modsOf r).filter (StaysBy rt rt' r e e')

/-- The reload that is called in `c` has come to `d`, where its load has succeeded. -/
def Config.ReloadLoaded (w : World) (c : Config) (fname : CStr) (d : Config) : Prop :=
  ∃ c₁ ev log rl, step w c (.call (.reload fname)) = .next c₁ ev
    ∧ Inside w c.stack.length c₁ log d ∧ d.stack = .reload rl (.loaded xyOk) :: c.stack

section

variable {w : World} {r : RegionRef} {rt₀ rt rt' : Runtime} {n : Nat} {c d c' : Config}
  {ev : Event} {e e' : EntryRef} {me : ModEntry} {fname : CStr} {rl : Reload}

theorem Inside.placed (hwf : c.Wf w) {log : List Move} (h : Inside w n c log d)
    (hin : Placed w r n rt₀ c.st.rt c.stack (fun _ => True) c.stack) :
    d.Wf w ∧ Placed w r n rt₀ d.st.rt d.stack (fun _ => True) d.stack := by
  induction h with
  | start => exact ⟨hwf, hin⟩
  | @move log c₁ c₂ a ev h hs hlen ih =>
    obtain ⟨hwf₁, hin₁⟩ := ih
    have hlt := h.length_lt
    have hstep := Step.of_step hs
    refine ⟨hwf₁.step hstep, ?_⟩
    by_cases hend : ∃ rl k, a = .tau ∧ c₁.stack = .reload rl (.loaded xyOk) :: k
    · obtain ⟨rl, k, rfl, hstack⟩ := hend
      rw [hstack, List.length_cons] at hlt
      exact hstep.placed_reinsert hwf₁ hstack (Nat.le_of_lt_succ hlt) hin₁
    · exact hstep.placed hwf₁ (fun rl k ha hk => hend ⟨rl, k, ha, hk⟩)
        (step_ne_shutdown hs (List.ne_nil_of_length_pos (by omega))) (fun heq => by omega) hin₁

/-- What a reload that is called remembers. -/
def Reload.start (s : State) (fname : CStr) (e : EntryRef) (me : ModEntry) : Reload :=
  { fname := fname, id := s.tls.current.id, plen := s.regionCurrentPlen
    insertAfter := s.rt.regionPrev e me, re := me.regionEntry }

theorem beginReload_eq {s : State} {k : List Frame} (hl : s.find w fname = some e)
    (hme : s.rt.mods e = some me) :
    beginReload w s fname k = beginUnload w s fname s.tls.current.id s.regionCurrentPlen
      (.reload (.start s fname e me) .unloading :: k) := by
  unfold State.find at hl
  simp only [beginReload, moduleLookupFromFname, hl, hme, Reload.start]

/-- A reload that finds its module starts with `_mod_unload`. -/
theorem step_reload_unloads (hl : c.st.find w fname = some e) (hme : c.st.rt.mods e = some me)
    (hs : step w c (.call (.reload fname)) = .next c' ev) :
    Unloads w c.st fname c.st.tls.current.id c.st.regionCurrentPlen
      (.reload (.start c.st fname e me) .unloading :: c.stack) c' ev := by
  have hw : c.waiting = true := by
    by_contra hw
    simp only [step, hw, if_false] at hs
    cases hs
  simp only [step, hw, if_true, beginCall, beginReload_eq hl hme] at hs
  exact .of_beginUnload hs

/-- A reload that finds its module puts its frame on the stack. -/
theorem step_reload_frame (hl : c.st.find w fname = some e) (hme : c.st.rt.mods e = some me)
    (hs : step w c (.call (.reload fname)) = .next c' ev) :
    ∃ l f, Frame.SameCall (.reload (.start c.st fname e me) .unloading) f
      ∧ c'.stack = l ++ f :: c.stack :=
  (step_reload_unloads hl hme hs).move_for

/-- A reload whose load has succeeded has kept the lists of the regions. -/
theorem Config.ReloadLoaded.kept (hreach : Reachable w c) (hl : c.st.find w fname = some e)
    (hme : c.st.rt.mods e = some me) (h : c.ReloadLoaded w fname d) (r : RegionRef) :
    d.Wf w ∧ c.st.rt.RegionsKept d.st.rt
      ∧ d.stack = .reload (.start c.st fname e me) (.loaded xyOk) :: c.stack
      ∧ KeptSince w r c.st.rt d.st.rt c.stack.length d.stack := by
  obtain ⟨c₁, ev, log, rl, hs, hin, hstack⟩ := h
  have hwf : c.Wf w := .of_reachable hreach
  have hstep := Step.of_step hs
  have hplaced : Placed w r c.stack.length c.st.rt c.st.rt c.stack (fun _ => True) c.stack :=
    .of_length_le le_rfl
  replace hplaced := hstep.placed hwf (fun _ _ ha => by cases ha) (by simp) (fun _ => rfl) hplaced
  obtain ⟨hwf₂, hplaced₂⟩ := hin.placed (hwf.step hstep) hplaced
  have hkept := hin.regionsKept (hwf.step hstep)
  rw [hstack] at hplaced₂
  obtain ⟨rt₀, -, -, hbase, hsince, -, -, -⟩ := hplaced₂ le_rfl
  obtain rfl := hbase rfl
  refine ⟨hwf₂, ((hstep.effect hwf).kept (by simp)).trans hkept.2, ?_, hstack ▸ hsince⟩
  obtain ⟨l, f, hf, hc₁⟩ := step_reload_frame hl hme hs
  obtain ⟨l', f', hf', hd⟩ := hin.frame hc₁
  have hsame := hf.trans hf'
  rw [hstack] at hd ⊢
  have hlen := congrArg List.length hd
  simp only [List.length_cons, List.length_append] at hlen
  obtain rfl : l' = [] := List.length_eq_zero_iff.mp (by omega)
  obtain ⟨rfl, -⟩ := List.cons.inj hd
  rw [show rl = _ from hsame]

/-- The entry that a reload lists again stands where the old one was. -/
theorem KeptSince.place {k : List Frame} {κ : List UInt8} (hheap : rt.HeapWf)
    (h : KeptSince w r rt₀ rt n k) (hl₀ : rt₀.modHd.lookup κ = some e) (hin : e ∈ rt₀.modsOf r)
    (hl : rt.modHd.lookup κ = some e')
    (hi : Xylem.reinsert rt r e' (prevIn e (rt₀.modsOf r)) = some rt')
    (hlive : ∀ x, (rt'.mods x).isSome = (rt.mods x).isSome) :
    ((rt₀.modsOf r).map fun x => if x = e then e' else x).filter (StaysBy rt₀ rt' r e e')
      = (rt'.modsOf r).filter (StaysBy rt₀ rt' r e e') := by
  have hnodup := h.heap.nodup r
  have hown : e' ∈ rt₀.modsOf r → e' = e := fun hin' => by
    have hold := h.lookup e' hin' κ hl
    rw [hl₀] at hold
    exact (Option.some.inj hold).symm
  have hprev : ∀ a ∈ prevIn e (rt₀.modsOf r), StaysBy rt₀ rt' r e e' a = true := fun a ha => by
    have hlisted := List.mem_of_mem_erase (reinsert_after hheap hi a ha)
    simp [StaysBy, (prevIn_mem ha).1, prevIn_ne hnodup ha, hlive, hheap.live_of_listed hlisted]
  have hself : StaysBy rt₀ rt' r e e' e' = true := by simp [StaysBy]
  have hrest : ((rt.modsOf r).erase e').filter (StaysBy rt₀ rt' r e e')
      = ((rt₀.modsOf r).erase e).filter (StaysBy rt₀ rt' r e e') := by
    calc ((rt.modsOf r).erase e').filter (StaysBy rt₀ rt' r e e')
        = ((rt.modsOf r).filter (fun x => x ∈ rt₀.modsOf r)).filter (fun x => x ≠ e' ∧ x ≠ e) := by
          rw [(hheap.nodup r).erase_eq_filter, List.filter_filter, List.filter_filter]
          refine List.filter_congr fun x hx => ?_
          have hx' := hheap.live_of_listed hx
          by_cases hxe' : x = e' <;> simp [StaysBy, hlive, hx', hxe', and_comm]
      _ = ((rt₀.modsOf r).filter (fun x => (rt.mods x).isSome)).filter
            (fun x => x ≠ e' ∧ x ≠ e) := by rw [h.order]
      _ = ((rt₀.modsOf r).erase e).filter (StaysBy rt₀ rt' r e e') := by
          rw [hnodup.erase_eq_filter, List.filter_filter, List.filter_filter]
          refine List.filter_congr fun x hx => ?_
          have hxe : x = e' → x = e := fun heq => heq ▸ hown (heq ▸ hx)
          by_cases hxe' : x = e'
          · simp [hxe', hown (hxe' ▸ hx)]
          · by_cases hx' : x = e <;> simp [StaysBy, hlive, hx, hx', hxe']
  calc ((rt₀.modsOf r).map fun x => if x = e then e' else x).filter (StaysBy rt₀ rt' r e e')
      = insertAfter e' (prevIn e (rt₀.modsOf r))
          (((rt₀.modsOf r).erase e).filter (StaysBy rt₀ rt' r e e')) := by
        rw [← insertAfter_prevIn e' hnodup hin, filter_insertAfter_of_mem hself hprev]
    _ = (rt'.modsOf r).filter (StaysBy rt₀ rt' r e e') := by
        rw [← hrest, ← filter_insertAfter_of_mem hself hprev, reinsert_modsOf hheap hi, if_pos rfl]

/-- A reload that is about to end and can list its entry again keeps its place. -/
theorem Config.ReloadLoaded.place (hreach : Reachable w c) (hl : c.st.find w fname = some e)
    (hin : e ∈ c.st.rt.modsOf r) (hme : c.st.rt.mods e = some me)
    (h : c.ReloadLoaded w fname d)
    (hfound : d.st.rt.modHd.lookup ((Reload.start c.st fname e me).key w) = some e')
    (hi : Xylem.reinsert d.st.rt r e' (prevIn e (c.st.rt.modsOf r)) = some rt')
    (hs : step w d .tau = .next c' ev) (hrt : c'.st.rt = rt') :
    ReloadKept c.st.rt c'.st.rt r e ((Reload.start c.st fname e me).key w) := by
  obtain ⟨hwf, hkept, hstack, hsince⟩ := h.kept hreach hl hme r
  have hstep := Step.of_step hs
  have hheap : c'.st.rt.HeapWf := (hstep.effect hwf).heap hwf
  have hwf₀ : c.Wf w := .of_reachable hreach
  have hhome : me.regionEntry = some r := by
    rw [← home_of_mods hme]
    exact hwf₀.heap.mem_iff.mp hin
  have hof : (Reload.start c.st fname e me).Of w c.st.rt e me := ⟨hl, hme, rfl, rfl⟩
  have hafter : (Reload.start c.st fname e me).insertAfter = prevIn e (c.st.rt.modsOf r) := by
    rw [hof.insertAfter, regionPrev, hhome]
    rfl
  subst hrt
  have hlive := reinsert_live hi
  have hlist := hsince.reinsert hwf.heap hof hfound (hof.re.trans hhome) (hafter ▸ hi)
  have hlen : c.stack.length < d.stack.length := by
    rw [hstack, List.length_cons]
    exact Nat.lt_succ_self _
  refine ⟨?_, hheap.nodup r, fun x => hheap.mem_iff, ?_, e', ?_, ?_, ?_⟩
  · exact (((hstep.effect hwf).kept (by simp)).key r
      (Nat.lt_of_lt_of_le (hwf₀.heap.mem_lt hin) hkept.count)).trans
      (hkept.key r (hwf₀.heap.mem_lt hin))
  · exact (hsince.still hwf hstep (fun _ => hlen) hlive hlist).order
  · rw [reinsert_modHd hi]
    exact hfound
  · rw [reinsert_modsOf hwf.heap hi, if_pos rfl]
    exact (insertAfter_perm _ _ _ (reinsert_after hwf.heap hi)).mem_iff.mpr List.mem_cons_self
  · exact hsince.place hwf.heap hl hin hfound hi hlive

/-- The step with which a reload returns.  It frees nothing, and after a failure it
leaves the runtime as it is. -/
theorem step_reload_returns {pc : ReloadPc} {k : List Frame} {a : Action} {v : Value}
    (hstack : d.stack = .reload rl pc :: k) (hs : step w d a = .next c' (.returned v)) :
    a = .tau ∧ ∃ ret, v = .int ret ∧ (pc = .loaded ret ∨ pc = .unloaded ret ∧ ret ≠ xyOk)
      ∧ (∀ x, (c'.st.rt.mods x).isSome = (d.st.rt.mods x).isSome)
      ∧ (ret ≠ xyOk → c'.st = d.st.setErr ret) := by
  obtain ⟨s, stack⟩ := d
  obtain rfl : stack = .reload rl pc :: k := hstack
  cases a with
  | call q => cases hs
  | ret r => cases r <;> cases hs
  | tau =>
    refine ⟨rfl, ?_⟩
    simp only [step, tau, tauReload] at hs
    cases pc with
    | unloading | loading => cases hs
    | unloaded ret =>
      dsimp only at hs
      split at hs
      · cases hs
      · next hne =>
        cases hs
        exact ⟨ret, rfl, Or.inr ⟨rfl, hne⟩, fun _ => rfl, fun _ => rfl⟩
    | loaded ret =>
      dsimp only at hs
      split at hs
      · next heq =>
        refine ⟨ret, ?_, Or.inl rfl, ?_, fun hne => absurd heq hne⟩
        · split at hs
          · split at hs
            · cases hs
            · cases hs
              rw [heq]
          · cases hs
            rw [heq]
        · intro x
          split at hs
          · split at hs
            · cases hs
            · next hi =>
              cases hs
              exact reinsert_live hi x
          · cases hs
            rfl
      · cases hs
        exact ⟨ret, rfl, Or.inl rfl, fun _ => rfl, fun _ => rfl⟩

/-- A call that finds its module returns with a step of the reload. -/
theorem Inside.reload_returning {c₁ : Config} {ev₁ : Event} {a : Action} {log : List Move}
    (hl : c.st.find w fname = some e) (hme : c.st.rt.mods e = some me)
    (hs : step w c (.call (.reload fname)) = .next c₁ ev₁)
    (hin : Inside w c.stack.length c₁ log d) (hr : step w d a = .next c' ev)
    (hk : c'.stack = c.stack) :
    ∃ pc, d.stack = .reload (.start c.st fname e me) pc :: c.stack := by
  obtain ⟨l, f, hf, hstack⟩ := step_reload_frame hl hme hs
  obtain ⟨f', hf', hd⟩ := hin.returning hstack hr hk
  have hsame := hf.trans hf'
  cases f' with
  | load | unload | dispatch | scope | each => exact hsame.elim
  | reload rl pc =>
    obtain rfl : rl = .start c.st fname e me := hsame
    exact ⟨pc, hd⟩

/-- A reload that finds its module does not return at once. -/
theorem step_reload_ne (hl : c.st.find w fname = some e) (hme : c.st.rt.mods e = some me)
    (hs : step w c (.call (.reload fname)) = .next c' ev) : c'.stack ≠ c.stack := by
  intro hk
  obtain ⟨l, f, -, hstack⟩ := step_reload_frame hl hme hs
  have hlen := congrArg List.length (hk.symm.trans hstack)
  simp at hlen
  omega

theorem reinsert_of_listed {after : Option EntryRef} (hheap : rt.HeapWf)
    (h : ∀ a ∈ after, a ∈ (rt.modsOf r).erase e') :
    ∃ rt', Xylem.reinsert rt r e' after = some rt' := by
  unfold Xylem.reinsert
  dsimp only
  rw [if_pos fun a ha => ?_]
  · exact ⟨_, rfl⟩
  · have hin := h a ha
    rwa [← detach_modsOf hheap] at hin

end

end Xylem
