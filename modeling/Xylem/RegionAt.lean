import Xylem.ClaimAt
import Xylem.RegionTree
import Xylem.Symbols

/-!
# The id of a failed query

`xy_region_at` returns `XY_REGION_INVALID` when it fails, and `region_at` of the
Rust crate makes `None` of that id.  The all-ones id is the id of a region as well:
of the last one of width 64, which `xy_claim_at` makes like any other.  The slot
allocator never grants it.

`SentinelMeets` says that no region is taken for a failure.  It holds of all queries
but the one for this region, once it has been claimed.
-/

namespace Xylem

open Xylem.Runtime

/-- `region_at` of the Rust crate, on what `xy_region_at` returns. -/
def Rust.regionAt (s : State) (id : RegionId) (plen : Nat) : Option RegionId :=
  let (_, hit, _) := xyRegionAt s id plen
  if hit = xyRegionInvalid then none else some hit

/-- A query for an id and a width fails when it returns the id of a failure, and the
Rust side loses no region. -/
structure SentinelMeets (s : State) (id : RegionId) (plen : Nat) : Prop where
  fails : (xyRegionAt s id plen).2.1 = xyRegionInvalid →
    (xyRegionAt s id plen).2.2 = 0 ∧ (xyRegionAt s id plen).1.err ≠ xyOk
  found : plen ≤ 64 → ∀ r, s.rt.UniqueWidest (s.rt.CoversUpTo id plen) r →
    Rust.regionAt s id plen = some (s.rt.regions r).id

/-- The identity of the last region of width 64. -/
def RegionKey.last : RegionKey := ⟨xyRegionInvalid, 64⟩

/-- Whether the last region of width 64 exists after an action. -/
def Action.lastExists (exists' : Bool) : Action → Bool
  | .call (.claimAt id plen _) => exists' || decide (RegionKey.mk id plen = .last)
  | .call .shutdown => false
  | _ => exists'

/-- Whether it has been claimed since the last bootstrap. -/
def lastClaimed (log : List Move) : Bool := log.foldl (fun b m => m.act.lastExists b) false

section

variable {w : World} {c c' : Config} {a : Action} {ev : Event} {log : List Move} {s : State}

theorem lastClaimed_concat (log : List Move) (m : Move) :
    lastClaimed (log ++ [m]) = m.act.lastExists (lastClaimed log) := by
  simp [lastClaimed]

/-! ## The region in a run -/

theorem step_claimAt {id : RegionId} {plen : Nat} {fn : Option HandlerRef}
    (h : step w c (.call (.claimAt id plen fn)) = .next c' ev) :
    c'.st = (xyClaimAt c.st id plen fn).1 := by
  unfold step at h
  dsimp only at h
  split at h
  · cases h
    rfl
  · cases h

theorem step_shutdown (h : step w c (.call .shutdown) = .next c' ev) :
    c'.st = xyShutdown w c.st := by
  unfold step at h
  simp only [beginCall] at h
  split at h
  · split at h
    · cases h
      rfl
    · cases h
  · cases h

/-- A region of another identity does not make it exist. -/
theorem Tree.add_lookup_last {t : Tree} {p : RegionRef} {id : RegionId} {plen bits : Nat}
    (hne : RegionKey.mk id plen ≠ .last) :
    (t.add p id plen bits).table.lookup .last = t.table.lookup .last :=
  AList.lookup_insert_ne (Ne.symm hne)

theorem Effect.lookup_last {rt' : Runtime} (h : Effect w c a rt')
    (hcall : ∀ q, a = .call q → q ≠ .shutdown ∧ ∀ fn, q ≠ .claimAt xyRegionInvalid 64 fn) :
    rt'.regionHd.lookup .last = c.st.rt.regionHd.lookup .last := by
  rcases h.tree_cases with htree | ⟨p, id, plen, fn, ha, -, -, htree⟩
    | ⟨tx, k, p, bits, id, -, -, -, -, hid, -, htree⟩ | ⟨ha, -⟩
  · exact congrArg (fun t => t.table.lookup .last) htree
  · refine (congrArg (fun t => t.table.lookup .last) htree).trans (Tree.add_lookup_last ?_)
    intro hlast
    obtain ⟨hid, hplen⟩ := RegionKey.mk.inj hlast
    apply (hcall _ ha).2 fn
    rw [hid, hplen]
  · refine (congrArg (fun t => t.table.lookup .last) htree).trans (Tree.add_lookup_last ?_)
    exact fun hlast => hid (RegionKey.mk.inj hlast).1
  · exact absurd rfl (hcall _ ha).1

/-- A claim of it makes it exist. -/
theorem xyClaimAt_last (ht : s.rt.tree.Wf) (fn : Option HandlerRef) :
    ((xyClaimAt s xyRegionInvalid 64 fn).1.rt.regionHd.lookup .last).isSome = true := by
  have hplen : (64 : Nat) ≤ 64 := Nat.le_refl 64
  rcases xyClaimAt_cases ht xyRegionInvalid 64 fn with
    ⟨hbad, -, -⟩ | ⟨r, hr, hrt, -⟩ | ⟨p, -, -, hrt, -⟩
  · have haligned : (RegionKey.mk xyRegionInvalid 64).block.Aligned :=
      (aligned_iff_bits hplen).mpr fun i hi => by omega
    exact absurd haligned (hbad.resolve_left (by omega))
  · have hlookup : s.rt.regionHd.lookup .last = some r := hr
    rw [hrt]
    cases fn with
    | none => rw [hlookup]; rfl
    | some f =>
      show (s.rt.regionHd.lookup .last).isSome = true
      rw [hlookup]
      rfl
  · have htable := congrArg Tree.table (addRegion_tree s.rt p xyRegionInvalid 64
      (64 - (s.rt.regions p).plen) fn)
    show ((_ : Runtime).tree.table.lookup .last).isSome = true
    rw [hrt, htable]
    show ((s.rt.regionHd.insert RegionKey.last s.rt.nregions).lookup .last).isSome = true
    rw [AList.lookup_insert]
    rfl

theorem lookup_last_of_step (hwf : c.Wf w) (hs : step w c a = .next c' ev) :
    (c'.st.rt.regionHd.lookup .last).isSome
      = a.lastExists (c.st.rt.regionHd.lookup .last).isSome := by
  by_cases hspecial : ∃ q, a = .call q ∧ (q = .shutdown ∨ ∃ fn, q = .claimAt xyRegionInvalid 64 fn)
  · obtain ⟨q, rfl, rfl | ⟨fn, rfl⟩⟩ := hspecial
    · rw [step_shutdown hs, (xyShutdown_spec w _).1]
      rfl
    · rw [step_claimAt hs, xyClaimAt_last hwf.tree fn]
      simp [Action.lastExists, RegionKey.last]
  · have hkept := ((Step.of_step hs).effect hwf).lookup_last fun q ha =>
      ⟨fun hq => hspecial ⟨q, ha, Or.inl hq⟩, fun fn hq => hspecial ⟨q, ha, Or.inr ⟨fn, hq⟩⟩⟩
    rw [hkept]
    unfold Action.lastExists
    split
    · next id plen fn =>
      have hne : ¬ RegionKey.mk id plen = .last := by
        intro hlast
        obtain ⟨hid, hplen⟩ := RegionKey.mk.inj hlast
        exact hspecial ⟨_, rfl, Or.inr ⟨fn, by rw [hid, hplen]⟩⟩
      simp [hne]
    · exact absurd ⟨_, rfl, Or.inl rfl⟩ hspecial
    · rfl

/-- The region exists exactly when it has been claimed. -/
theorem lookup_last_of_trace (h : Trace w log c) :
    (c.st.rt.regionLookup xyRegionInvalid 64).isSome = lastClaimed log := by
  induction h with
  | start h =>
    obtain ⟨ctxs, adapters, mem, rfl⟩ := h
    rfl
  | move h hs ih =>
    rw [lastClaimed_concat, ← ih]
    exact lookup_last_of_step (.of_reachable h.reachable) hs

/-! ## Queries -/

/-- No other region has the id of a failure. -/
theorem Tree.Wf.plen_of_invalid {rt : Runtime} (h : rt.tree.Wf) {r : Nat} (hr : r < rt.nregions)
    (hid : (rt.regions r).id = xyRegionInvalid) : (rt.regions r).plen = 64 := by
  have hle : (rt.regions r).plen ≤ 64 := h.plen_le hr
  by_contra hne
  have hclear := h.bits_below hr (i := 0) (by omega)
  rw [hid] at hclear
  cases hclear

/-- Which query takes a region for a failure. -/
theorem sentinelMeets_iff (ht : s.rt.tree.Wf) (id : RegionId) (plen : Nat) :
    SentinelMeets s id plen
      ↔ ¬ (RegionKey.mk id plen = .last
        ∧ (s.rt.regionLookup xyRegionInvalid 64).isSome = true) := by
  by_cases hplen : plen ≤ 64
  · obtain ⟨r, hr, hat⟩ := (searchesMeet_of_wf ht id hplen).cover
    obtain ⟨hlt, hle, hcov⟩ := hr.mem
    have hrust : Rust.regionAt s id plen
        = if (s.rt.regions r).id = xyRegionInvalid then none else some (s.rt.regions r).id := by
      unfold Rust.regionAt
      rw [hat]
    have hmeets : SentinelMeets s id plen ↔ (s.rt.regions r).id ≠ xyRegionInvalid := by
      constructor
      · intro h hid
        have hfound := h.found hplen r hr
        rw [hrust, if_pos hid] at hfound
        cases hfound
      · intro hid
        refine ⟨fun hinv => ?_, fun _ r' hr' => ?_⟩
        · rw [hat] at hinv
          exact absurd hinv hid
        · rw [hrust, if_neg hid, hr.unique hr']
    rw [hmeets, ne_eq, not_iff_not]
    constructor
    · intro hid
      have hwide := ht.plen_of_invalid hlt hid
      have hlen : plen = 64 := by omega
      have hpoint : id = xyRegionInvalid := by
        rw [hwide, hid] at hcov
        exact (BitVec.and_allOnes).symm.trans hcov
      refine ⟨by rw [hpoint, hlen]; rfl, ?_⟩
      rw [(regionLookup_eq_some ht).mpr ⟨hlt, show RegionKey.mk _ _ = _ by rw [hid, hwide]⟩]
      rfl
    · intro h
      obtain ⟨hlast, hexists⟩ := h
      obtain ⟨rfl, rfl⟩ := RegionKey.mk.inj hlast
      obtain ⟨x, hx⟩ := Option.isSome_iff_exists.mp hexists
      obtain ⟨hxlt, hxkey⟩ := (regionLookup_eq_some ht).mp hx
      have hxid : (s.rt.regions x).id = xyRegionInvalid := congrArg RegionKey.id hxkey
      have hxlen : (s.rt.regions x).plen = 64 := congrArg RegionKey.plen hxkey
      have hxcov : s.rt.CoversUpTo xyRegionInvalid 64 x := by
        refine ⟨hxlt, by omega, ?_⟩
        rw [hxlen, hxid]
        exact BitVec.and_allOnes
      by_contra hid
      have hne : x ≠ r := by
        intro hxr
        rw [hxr] at hxid
        exact hid hxid
      have hwider := hr.widest x hxcov hne
      omega
  · have hmeets : SentinelMeets s id plen := by
      refine ⟨fun _ => ?_, fun hle => absurd hle hplen⟩
      unfold xyRegionAt
      rw [if_pos (show plen > 64 by omega)]
      exact ⟨rfl, show xyErrToobig ≠ xyOk by decide⟩
    refine iff_of_true hmeets fun h => ?_
    have hlen : plen = 64 := congrArg RegionKey.plen h.1
    omega

/-- In every run, a query takes no region for a failure, but when it asks for the
last region of width 64 and this has been claimed. -/
theorem sentinelMeets_of_trace (h : Trace w log c) (id : RegionId) (plen : Nat) :
    SentinelMeets c.st id plen
      ↔ ¬ (id = xyRegionInvalid ∧ plen = 64 ∧ lastClaimed log = true) := by
  rw [sentinelMeets_iff (Config.Wf.of_reachable h.reachable).tree, lookup_last_of_trace h,
    ← and_assoc]
  exact not_congr (and_congr_left fun _ => RegionKey.mk.injEq .. ▸ Iff.rfl)

end

/-- The query for the last region finds the region next to it, when only that one has
been claimed. -/
theorem sentinelMeets_of_neighbour :
    SentinelMeets ((Config.boot sampleHook).after sampleWorld
      [.call (.claimAt (xyRegionInvalid - 1) 63 none)]).st xyRegionInvalid 64 := by
  have htrace := Trace.of_actions (w := sampleWorld)
    (l := [.call (.claimAt (xyRegionInvalid - 1) 63 none)]) (Config.boot_initial sampleHook)
    (by decide +kernel)
  exact (sentinelMeets_of_trace htrace xyRegionInvalid 64).mpr (by decide +kernel)

/-- The last region of width 64 is claimed and entered, and the query for it returns
the id of a failure, without an error. -/
theorem not_sentinelMeets_of_claim :
    ∃ log c, Trace sampleWorld log c ∧ c.st.tls.current.id = xyRegionInvalid
      ∧ (xyRegionAt c.st xyRegionInvalid 64).1.err = xyOk
      ∧ Rust.regionAt c.st xyRegionInvalid 64 = none
      ∧ ¬ SentinelMeets c.st xyRegionInvalid 64 := by
  have htrace := Trace.of_actions (w := sampleWorld)
    (l := [.call (.claimAt xyRegionInvalid 64 none)]) (Config.boot_initial sampleHook)
    (by decide +kernel)
  refine ⟨_, _, htrace, by decide +kernel, by decide +kernel, by decide +kernel, fun h => ?_⟩
  have herr := (h.fails (by decide +kernel)).2
  exact herr (by decide +kernel)

end Xylem
