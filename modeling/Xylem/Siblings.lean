import Xylem.Invariant
import Xylem.Sample

/-!
# Auto-claimed siblings

`region_alloc_slot` gives a child the lowest slot of the granted width that no
region holds under just that id and width.  It does not ask whether a child of
another width lies in the slot, or the slot in a child.

`SiblingsApart` says that no child of a region lies inside another.  Runs that
only auto-claim keep it when every grant is made at a parent whose children of
other widths leave the slot clear (`SlotClear`); two grants of different widths
at one parent are enough to break it.
-/

namespace Xylem

open Xylem.Runtime

/-- No child of a region lies inside another. -/
def SiblingsApart (rt : Runtime) : Prop :=
  ∀ p < rt.nregions, ∀ x ∈ (rt.regions p).children, ∀ y ∈ (rt.regions p).children, x ≠ y →
    (rt.regions x).plen ≤ (rt.regions y).plen →
      (rt.regions y).id &&& regionMask (rt.regions x).plen ≠ (rt.regions x).id

/-- The identity of the slot `n` of the children of `p` that are granted `bits`. -/
def Runtime.slotKey (rt : Runtime) (p : RegionRef) (bits n : Nat) : RegionKey :=
  ⟨slotId (rt.regions p).id (64 - ((rt.regions p).plen + bits)) n, (rt.regions p).plen + bits⟩

/-- At the lowest slot of the granted width that is in no table, no child of
another width lies in the slot, nor the slot in the child. -/
def Runtime.SlotClear (rt : Runtime) (p : RegionRef) (bits : Nat) : Prop :=
  ∀ n < numSlots ((rt.regions p).plen + bits) bits,
    rt.regionHd.lookup (rt.slotKey p bits n) = none →
    (∀ m < n, rt.regionHd.lookup (rt.slotKey p bits m) ≠ none) →
      ∀ x ∈ (rt.regions p).children, (rt.regions x).plen ≠ (rt.regions p).plen + bits →
        ¬ (rt.regions x).key.block.Contains (rt.slotKey p bits n).block
          ∧ ¬ (rt.slotKey p bits n).block.Contains (rt.regions x).key.block

/-- A step of a run that makes regions by auto-claims only, each at a slot that
is clear. -/
def GrantsClear (c : Config) (a : Action) : Prop :=
  (∀ id plen fn, a ≠ .call (.claimAt id plen fn))
    ∧ ∀ tx k p bits, c.stack = .load tx (.handler p) :: k → a = .ret (.granted xyOk bits) →
      0 < bits → bits ≤ 64 → c.st.rt.SlotClear p bits

section

variable {rt : Runtime}

theorem siblingsApart_iff : SiblingsApart rt ↔ ∀ p < rt.tree.count, ∀ x ∈ (rt.tree.node p).children,
    ∀ y ∈ (rt.tree.node p).children, x ≠ y →
      ¬ (rt.tree.node x).key.block.Contains (rt.tree.node y).key.block := by
  constructor
  · intro h p hp x hx y hy hne hcon
    exact h p hp x hx y hy hne hcon.1 hcon.2
  · intro h p hp x hx y hy hne hlen hid
    exact h p hp x hx y hy hne ⟨hlen, hid⟩

/-- A new child at a slot that is clear keeps the siblings apart. -/
theorem siblingsApart_grant (h : rt.tree.Wf) (hapart : SiblingsApart rt) {rt' : Runtime} {p : Nat}
    {bits : Nat} (hbits : 0 < bits ∧ bits ≤ 64) {id : RegionId}
    (hslot : rt.regionAllocSlot p bits = id) (hid : id ≠ xyRegionInvalid)
    (hadd : rt.tree.CanAdd p id ((rt.regions p).plen + bits) bits)
    (hrt' : rt'.tree = rt.tree.add p id ((rt.regions p).plen + bits) bits)
    (hclear : rt.SlotClear p bits) : SiblingsApart rt' := by
  have hp : p < rt.tree.count := hadd.parent_lt
  obtain ⟨-, -, n, hn, hfound, hlow⟩ := regionAllocSlot_spec h hp hbits hslot hid
  have hkey : rt.slotKey p bits n = ⟨id, (rt.regions p).plen + bits⟩ := by
    rw [hfound]
    rfl
  have hfree := hclear n hn (hkey ▸ hadd.absent) hlow
  rw [hkey] at hfree
  have hnew : ∀ x ∈ (rt.tree.node p).children,
      ¬ (rt.tree.node x).key.block.Contains (RegionKey.mk id ((rt.regions p).plen + bits)).block
        ∧ ¬ (RegionKey.mk id ((rt.regions p).plen + bits)).block.Contains
          (rt.tree.node x).key.block := by
    intro x hx
    have hxlt := h.child_lt hp hx
    by_cases hlen : (rt.regions x).plen = (rt.regions p).plen + bits
    · have hne : (rt.tree.node x).key ≠ ⟨id, (rt.regions p).plen + bits⟩ := by
        intro heq
        have hin := h.table.mpr ⟨hxlt, heq⟩
        rw [hadd.absent] at hin
        cases hin
      constructor
      · intro hcon
        exact hne (RegionKey.block_inj
          (Prefix.Block.eq_of_contains_of_plen_eq hadd.aligned hlen hcon))
      · intro hcon
        have heq := Prefix.Block.eq_of_contains_of_plen_eq (h.aligned hxlt)
          (show (RegionKey.mk id ((rt.regions p).plen + bits)).block.plen = _ from hlen.symm) hcon
        exact hne (RegionKey.block_inj heq).symm
    · exact hfree x hx hlen
  rw [siblingsApart_iff] at hapart ⊢
  rw [hrt']
  intro q hq x hx y hy hne
  rcases Tree.mem_add_children hp hq hx with ⟨hqlt, hxold⟩ | ⟨rfl, rfl⟩
  · rw [Tree.add_key_old (h.child_lt hqlt hxold)]
    rcases Tree.mem_add_children hp hq hy with ⟨-, hyold⟩ | ⟨rfl, rfl⟩
    · rw [Tree.add_key_old (h.child_lt hqlt hyold)]
      exact hapart q hqlt x hxold y hyold hne
    · rw [Tree.add_key_new hp]
      exact (hnew x hxold).1
  · rw [Tree.add_key_new hp]
    rcases Tree.mem_add_children hp hq hy with ⟨-, hyold⟩ | ⟨-, rfl⟩
    · rw [Tree.add_key_old (h.child_lt hp hyold)]
      exact (hnew y hyold).2
    · exact absurd rfl hne

end

/-- In a run that makes regions by auto-claims only, each at a clear slot, no
sibling ever lies inside another. -/
theorem siblingsApart_of_grantsClear {w : World} {c : Config} (h : ReachableBy w GrantsClear c) :
    SiblingsApart c.st.rt := by
  refine h.invariant_wf (fun c => SiblingsApart c.st.rt) (fun c hc => ?_)
    fun c a c' ev hwf hapart hok hstep => ?_
  · obtain ⟨ctxs, adapters, mem, rfl⟩ := hc
    intro p _ x hx
    cases hx
  · rcases (hstep.effect hwf).tree_cases with heq | ⟨p, id, plen, fn, ha, -⟩
      | ⟨tx, k, p, bits, id, hstack, ha, hbits, hslot, hid, hadd, heq⟩ | ⟨-, heq⟩
    · rw [siblingsApart_iff] at hapart ⊢
      rw [heq]
      exact hapart
    · exact absurd ha (hok.1 id plen fn)
    · have hclear := hok.2 tx k p bits hstack ha hbits.1 hbits.2
      exact siblingsApart_grant hwf.tree hapart hbits hslot hid hadd heq hclear
    · rw [heq]
      intro p _ x hx
      cases hx

/-- A slot is clear when all children of its parent have its width. -/
theorem Runtime.SlotClear.of_equal {rt : Runtime} {p : RegionRef} {bits : Nat}
    (h : ∀ x ∈ (rt.regions p).children, (rt.regions x).plen = (rt.regions p).plen + bits) :
    rt.SlotClear p bits :=
  fun _ _ _ _ x hx hne => absurd (h x hx) hne

/-- The region whose claim handler is in control. -/
def Config.asked (c : Config) : Option RegionRef :=
  match c.stack with
  | .load _ (.handler p) :: _ => some p
  | _ => none

theorem GrantsClear.of_equal {c : Config} {a : Action} {p : RegionRef} {bits : Nat}
    (hask : c.asked = some p) (ha : a = .ret (.granted xyOk bits))
    (h : ∀ x ∈ (c.st.rt.regions p).children,
      (c.st.rt.regions x).plen = (c.st.rt.regions p).plen + bits) : GrantsClear c a := by
  subst ha
  refine ⟨fun _ _ _ => by simp, fun tx k q bits' hstack ha _ _ => ?_⟩
  cases ha
  rw [Config.asked, hstack] at hask
  cases hask
  exact .of_equal h

theorem GrantsClear.of_ne {c : Config} {a : Action}
    (hclaim : ∀ id plen fn, a ≠ .call (.claimAt id plen fn))
    (hgrant : ∀ bits, a ≠ .ret (.granted xyOk bits)) : GrantsClear c a :=
  ⟨hclaim, fun _ _ _ bits _ ha => absurd ha (hgrant bits)⟩

/-- Two auto-claims at the root, of one width. -/
theorem siblingsApart_of_equal_grants :
    SiblingsApart ((((((Config.boot sampleHook).after claimingWorld
      (.call (.requireClaim (some 0)) :: (claimRun sampleFile 1 16).take 5)).after claimingWorld
      [.ret (.granted xyOk 16)]).after claimingWorld
      ((claimRun sampleFile 1 16).drop 6 ++ (claimRun sampleFile' 2 16).take 5)).after claimingWorld
      [.ret (.granted xyOk 16)]).after claimingWorld
      ((claimRun sampleFile' 2 16).drop 6)).st.rt := by
  refine siblingsApart_of_grantsClear (w := claimingWorld) ?_
  refine ReachableBy.after (ReachableBy.act (ReachableBy.after (ReachableBy.act (ReachableBy.after
    (.start (Config.boot_initial _)) ?_) _ ?_) ?_) _ ?_) ?_
  · intro a ha c
    refine .of_ne ?_ ?_ <;> intros <;> rintro rfl <;> simp [claimRun] at ha
  · exact .of_equal (p := 0) (by decide +kernel) rfl (by decide +kernel)
  · intro a ha c
    refine .of_ne ?_ ?_ <;> intros <;> rintro rfl <;> simp [claimRun] at ha
  · exact .of_equal (p := 0) (by decide +kernel) rfl (by decide +kernel)
  · intro a ha c
    refine .of_ne ?_ ?_ <;> intros <;> rintro rfl <;> simp [claimRun] at ha

/-- Grants of 16 and of 8 bits at the root: the regions `(0, 16)` and `(0, 8)`
become siblings. -/
theorem not_siblingsApart_of_grants :
    ∃ c, ReachableBy claimingWorld (fun _ a => ∀ id plen fn, a ≠ .call (.claimAt id plen fn)) c
      ∧ ¬ SiblingsApart c.st.rt := by
  refine ⟨(Config.boot sampleHook).after claimingWorld (.call (.requireClaim (some 0))
    :: claimRun sampleFile 1 16 ++ claimRun sampleFile' 2 8),
    ReachableBy.after (.start (Config.boot_initial _)) (by simp [claimRun]), fun h => ?_⟩
  have hover : 0 < ((Config.boot sampleHook).after claimingWorld
      (.call (.requireClaim (some 0)) :: claimRun sampleFile 1 16
        ++ claimRun sampleFile' 2 8)).st.rt.nregions := by decide +kernel
  exact absurd (h 0 hover 2 (by decide +kernel) 1 (by decide +kernel) (by decide)
    (by decide +kernel)) (by decide +kernel)

end Xylem
