import Xylem.Invariant
import Xylem.Sample

/-!
# The slot allocator

What `region_alloc_slot` should give for a parent and a granted width
(`AllocMeets`), and when it does.

Below a width of 64 the loop tries the `2 ^ bits` slots of the parent and no
more.  At 64 `num_slots` is 0, which the loop takes for `2 ^ 64`: it runs on past
the last slot of the parent, where `parent->id | s` lies outside the parent, and
the last slot of all has the id that stands for failure.
-/

namespace Xylem

open Xylem.Runtime

/-- The candidate `s` for a child of `p` that is granted `bits` is not a region. -/
def Runtime.SlotFree (rt : Runtime) (p : RegionRef) (bits s : Nat) : Prop :=
  rt.regionLookup (slotId (rt.regions p).id (64 - ((rt.regions p).plen + bits)) s)
    ((rt.regions p).plen + bits) = none

/-- `s` is the first candidate that is not a region. -/
def Runtime.FirstFree (rt : Runtime) (p : RegionRef) (bits s : Nat) : Prop :=
  rt.SlotFree p bits s ∧ ∀ m < s, ¬ rt.SlotFree p bits m

instance (rt : Runtime) (p : RegionRef) (bits s : Nat) : Decidable (rt.SlotFree p bits s) := by
  unfold Runtime.SlotFree; infer_instance

instance (rt : Runtime) (p : RegionRef) (bits s : Nat) : Decidable (rt.FirstFree p bits s) := by
  unfold Runtime.FirstFree; infer_instance

/-- The allocator gives the lowest slot of the parent that is not taken, and
fails when there is none. -/
structure AllocMeets (rt : Runtime) (p : RegionRef) (bits : Nat) : Prop where
  toobig : 64 < (rt.regions p).plen + bits → rt.regionAllocSlot p bits = xyRegionInvalid
  lowest : (rt.regions p).plen + bits ≤ 64 → ∀ s < 2 ^ bits, rt.FirstFree p bits s →
    rt.regionAllocSlot p bits
      = (rt.regions p).id ||| (BitVec.ofNat 64 s <<< (64 - (rt.regions p).plen - bits))
  fails : (rt.regions p).plen + bits ≤ 64 →
    (rt.regionAllocSlot p bits = xyRegionInvalid ↔ ∀ s < 2 ^ bits, ¬ rt.SlotFree p bits s)
  /-- What is allocated lies in the parent. -/
  inside : rt.regionAllocSlot p bits ≠ xyRegionInvalid →
    rt.regionAllocSlot p bits &&& regionMask (rt.regions p).plen = (rt.regions p).id

section

variable {rt : Runtime} {p bits : Nat}

/-! ## The loop -/

/-- The loop gives the first free slot from `s` on, or none when all it tries are
taken. -/
theorem regionAllocLoop_eq_none {pid : RegionId} {shift cplen left s : Nat}
    (h : rt.regionAllocLoop pid shift cplen left s = none) {m : Nat} (hs : s ≤ m)
    (hm : m < s + left) : rt.regionLookup (slotId pid shift m) cplen ≠ none := by
  induction left generalizing s with
  | zero => omega
  | succ left ih =>
    simp only [regionAllocLoop] at h
    split at h
    · cases h
    · next htaken =>
      rcases Nat.eq_or_lt_of_le hs with rfl | hlt
      · simpa using htaken
      · exact ih h hlt (by omega)

/-- What the loop of the allocator does at a parent that has room for the width:
it finds the lowest free slot, in the parent or not, or all `num_slots` are
taken. -/
theorem regionAllocSlot_cases (hroom : (rt.regions p).plen + bits ≤ 64) :
    (∃ s < numSlots ((rt.regions p).plen + bits) bits, rt.FirstFree p bits s
        ∧ rt.regionAllocSlot p bits
          = slotId (rt.regions p).id (64 - ((rt.regions p).plen + bits)) s)
      ∨ ((∀ s < numSlots ((rt.regions p).plen + bits) bits, ¬ rt.SlotFree p bits s)
        ∧ rt.regionAllocSlot p bits = xyRegionInvalid) := by
  have hcplen : childPlen (rt.regions p).toRegionNode bits = (rt.regions p).plen + bits :=
    Nat.mod_eq_of_lt (by show (rt.regions p).plen + bits < 256; omega)
  have hshift : (if (rt.regions p).plen + bits < 64 then 64 - ((rt.regions p).plen + bits) else 0)
      = 64 - ((rt.regions p).plen + bits) := by split <;> omega
  have hslot : rt.regionAllocSlot p bits
      = (rt.regionAllocLoop (rt.regions p).id (64 - ((rt.regions p).plen + bits))
          ((rt.regions p).plen + bits) (numSlots ((rt.regions p).plen + bits) bits) 0).getD
        xyRegionInvalid := by
    simp only [regionAllocSlot, hcplen, hshift]
    exact if_neg (Nat.not_lt.mpr hroom)
  rw [hslot]
  cases hloop : rt.regionAllocLoop (rt.regions p).id (64 - ((rt.regions p).plen + bits))
      ((rt.regions p).plen + bits) (numSlots ((rt.regions p).plen + bits) bits) 0 with
  | none =>
    refine Or.inr ⟨fun s hs hfree => ?_, rfl⟩
    exact regionAllocLoop_eq_none hloop (Nat.zero_le _) (by omega) hfree
  | some id =>
    obtain ⟨s, -, hs, rfl, hfree, hlow⟩ := regionAllocLoop_spec hloop
    have hfirst : rt.FirstFree p bits s := ⟨hfree, fun m hm => hlow m (Nat.zero_le _) hm⟩
    exact Or.inl ⟨s, by omega, hfirst, rfl⟩

/-! ## The ids of slots -/

/-- A slot of a width below 64 has the last bit clear, so it is not the id of a
failure. -/
theorem slotId_ne_invalid {k : RegionKey} (hk : k.block.Aligned) {cplen : Nat}
    (hle : k.plen ≤ cplen) (hlt : cplen < 64) (s : Nat) :
    slotId k.id (64 - cplen) s ≠ xyRegionInvalid := by
  intro heq
  have halign := slotId_aligned hk hle (Nat.le_of_lt hlt) s
  rw [if_pos hlt, heq, Prefix.Block.aligned_iff] at halign
  have hbit : 64 ≤ 0 + cplen := halign 0 (by decide) (show xyRegionInvalid.getLsbD 0 = true by decide)
  omega

/-- A slot below `2 ^ bits` changes no bit of the parent's prefix. -/
theorem slotId_inside {k : RegionKey} (hk : k.block.Aligned) (hroom : k.plen + bits ≤ 64)
    {s : Nat} (hs : s < 2 ^ bits) :
    slotId k.id (64 - (k.plen + bits)) s &&& regionMask k.plen = k.id := by
  apply BitVec.eq_of_getLsbD_eq
  intro i hi
  have halign := Prefix.Block.aligned_iff.mp hk i hi
  rw [slotId, BitVec.getLsbD_and, regionMask_eq, Prefix.getLsbD_mask, BitVec.getLsbD_or,
    BitVec.getLsbD_shiftLeft, BitVec.getLsbD_ofNat]
  by_cases hin : 64 ≤ i + k.plen
  · have hbits : bits ≤ i - (64 - (k.plen + bits)) := by omega
    have hshort : s.testBit (i - (64 - (k.plen + bits))) = false :=
      Nat.testBit_lt_two_pow (Nat.lt_of_lt_of_le hs (Nat.pow_le_pow_right (by decide) hbits))
    simp [hshort, hin, hi]
  · have hclear : k.id.getLsbD i = false := by
      rw [← Bool.not_eq_true]
      exact fun hbit => hin (halign hbit)
    simp [hin, hclear]

/-! ## When the allocator is right -/

theorem Runtime.FirstFree.unique {s s' : Nat} (h : rt.FirstFree p bits s) (h' : rt.FirstFree p bits s') :
    s = s' := by
  rcases Nat.lt_trichotomy s s' with hlt | heq | hlt
  · exact absurd h.1 (h'.2 s hlt)
  · exact heq
  · exact absurd h'.1 (h.2 s' hlt)

/-- The first free slot is below a bound when any free slot is. -/
theorem Runtime.FirstFree.lt_iff {s : Nat} (h : rt.FirstFree p bits s) (n : Nat) :
    ¬ s < n ↔ ∀ m < n, ¬ rt.SlotFree p bits m := by
  constructor
  · intro hge m hm
    exact h.2 m (by omega)
  · intro hall hlt
    exact hall s hlt h.1

theorem two_pow_le_numSlots (hbits : bits ≤ 64) (cplen : Nat) : 2 ^ bits ≤ numSlots cplen bits := by
  unfold numSlots
  split
  · exact Nat.pow_le_pow_right (by decide) hbits
  · exact le_rfl

/-- The slots that the loop tries are those of the parent, or the width is 64 and
all values of `s` are tried. -/
theorem lt_two_pow_iff (h : rt.tree.Wf) (hp : p < rt.nregions)
    (hroom : (rt.regions p).plen + bits ≤ 64)
    (hcond : (rt.regions p).plen + bits = 64 → ∀ s < 2 ^ 64, rt.FirstFree p bits s →
      (s < 2 ^ bits ↔ slotId (rt.regions p).id 0 s ≠ xyRegionInvalid))
    {s : Nat} (hs : s < numSlots ((rt.regions p).plen + bits) bits)
    (hfirst : rt.FirstFree p bits s) :
    s < 2 ^ bits
      ↔ slotId (rt.regions p).id (64 - ((rt.regions p).plen + bits)) s ≠ xyRegionInvalid := by
  unfold numSlots at hs
  split at hs
  · next hfull =>
    rw [hfull]
    exact hcond hfull s hs hfirst
  · have hne : slotId (rt.regions p).id (64 - ((rt.regions p).plen + bits)) s ≠ xyRegionInvalid :=
      slotId_ne_invalid (h.aligned hp)
        (show (rt.regions p).plen ≤ (rt.regions p).plen + bits from Nat.le_add_right _ _)
        (by omega) s
    exact iff_of_true hs hne

/-- The allocator meets its description, but where the loop bound has wrapped:
there the first candidate that is free has to be a slot of the parent exactly
when its id is not the one of a failure. -/
theorem allocMeets_iff (h : rt.tree.Wf) (hp : p < rt.nregions) (hbits : bits ≤ 64) :
    AllocMeets rt p bits
      ↔ ((rt.regions p).plen + bits = 64 → ∀ s < 2 ^ 64, rt.FirstFree p bits s →
          (s < 2 ^ bits ↔ slotId (rt.regions p).id 0 s ≠ xyRegionInvalid)) := by
  constructor
  · intro hmeets hfull s hs hfirst
    have hroom := Nat.le_of_eq hfull
    rcases regionAllocSlot_cases hroom with ⟨n, -, hfree, hslot⟩ | ⟨htaken, -⟩
    · rw [hfree.unique hfirst, hfull] at hslot
      have hfails : slotId (rt.regions p).id 0 s = xyRegionInvalid ↔ ¬ s < 2 ^ bits := by
        have hiff := (hmeets.fails hroom).trans (hfirst.lt_iff _).symm
        rwa [hslot] at hiff
      exact (not_iff_comm.mp hfails.symm).symm
    · exact absurd hfirst.1 (htaken s (by rw [numSlots, if_pos hfull]; exact hs))
  · intro hcond
    by_cases hroom : (rt.regions p).plen + bits ≤ 64
    · rcases regionAllocSlot_cases hroom with ⟨n, hn, hfree, hslot⟩ | ⟨htaken, hslot⟩
      · have hin := lt_two_pow_iff h hp hroom hcond hn hfree
        refine ⟨fun hbig => absurd hroom (Nat.not_le.mpr hbig), fun _ s _ hfirst => ?_,
          fun _ => ?_, fun hne => ?_⟩
        · rw [hslot, hfree.unique hfirst, slotId, Nat.sub_sub]
        · rw [hslot, ← hfree.lt_iff, hin, not_not]
        · rw [hslot] at hne ⊢
          exact slotId_inside (k := (rt.regions p).key) (h.aligned hp) hroom (hin.mpr hne)
      · have hall : ∀ s < 2 ^ bits, ¬ rt.SlotFree p bits s :=
          fun s hs => htaken s (Nat.lt_of_lt_of_le hs (two_pow_le_numSlots hbits _))
        exact ⟨fun _ => hslot, fun _ s hs hfirst => absurd hfirst.1 (hall s hs),
          fun _ => iff_of_true hslot hall, fun hne => absurd hslot hne⟩
    · have hplen : (rt.regions p).plen ≤ 64 := h.plen_le hp
      have hcplen : childPlen (rt.regions p).toRegionNode bits = (rt.regions p).plen + bits :=
        Nat.mod_eq_of_lt (by show (rt.regions p).plen + bits < 256; omega)
      have hslot : rt.regionAllocSlot p bits = xyRegionInvalid := by
        simp only [regionAllocSlot, hcplen]
        exact if_pos (by omega)
      exact ⟨fun _ => hslot, fun hle => absurd hle hroom, fun hle => absurd hle hroom,
        fun hne => absurd hslot hne⟩

end

/-- In every state that is reached, the allocator meets its description at a
parent and a width, unless the child reaches 64 bits and the first free candidate
is past the slots of the parent, or is the slot of all ones. -/
theorem allocMeets_of_reachable {w : World} {c : Config} (h : Reachable w c) {p bits : Nat}
    (hp : p < c.st.rt.nregions) (hbits : 1 ≤ bits ∧ bits ≤ 64) :
    AllocMeets c.st.rt p bits
      ↔ ((c.st.rt.regions p).plen + bits = 64 → ∀ s < 2 ^ 64, c.st.rt.FirstFree p bits s →
          (s < 2 ^ bits ↔ slotId (c.st.rt.regions p).id 0 s ≠ xyRegionInvalid)) :=
  allocMeets_iff (Config.Wf.of_reachable h).tree hp hbits.2

/-- A grant of 8 bits at a region of width 16. -/
theorem allocMeets_of_eight_bits :
    AllocMeets ((Config.boot sampleHook).after sampleWorld
      [.call (.claimAt 0x1000000000000 16 none)]).st.rt 1 8 := by
  refine (allocMeets_of_reachable (ReachableBy.after (.start (Config.boot_initial _)) (by simp))
    (by decide +kernel) (by decide)).mpr fun hfull => ?_
  exact absurd hfull (by decide +kernel)

/-- The region `(2, 63)` with both of its slots taken: the allocator gives
`(6, 64)`, which lies outside. -/
theorem not_allocMeets_of_full_parent :
    ¬ AllocMeets ((Config.boot sampleHook).after sampleWorld
      [.call (.claimAt 2 63 none), .call (.claimAt 2 64 none),
        .call (.claimAt 3 64 none)]).st.rt 1 1 := by
  intro hmeets
  have hinside := hmeets.inside (by decide +kernel)
  exact absurd hinside (by decide +kernel)

end Xylem
