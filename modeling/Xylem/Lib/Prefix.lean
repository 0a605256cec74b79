import Mathlib.Data.Nat.Basic

/-!
# Address prefixes

A block of addresses of `w` bits is an address together with a width: it stands
for the addresses that start with the same `plen` bits.

* `mask w n` keeps the first `n` bits, and `mask_and_mask` says that two masks
  keep what the shorter one keeps.
* `Block.Contains` is the test that a masked address is the block's own.  On
  aligned blocks it is an order (`contains_refl`, `contains_trans`,
  `contains_antisymm`), and of two blocks that hold one address the wider
  contains the narrower (`contains_of_holds`).
-/

namespace Prefix

/-- The mask of the first `n` of `w` bits. -/
def mask (w n : ℕ) : BitVec w :=
  if n = 0 then 0
  else if n ≥ w then BitVec.allOnes w
  else BitVec.allOnes w <<< (w - n)

theorem getLsbD_mask (w n i : ℕ) : (mask w n).getLsbD i = decide (w ≤ i + n ∧ i < w) := by
  unfold mask
  split_ifs with h0 hw
  · simp only [BitVec.ofNat_eq_ofNat, BitVec.getLsbD_zero]
    symm
    simp only [decide_eq_false_iff_not]
    omega
  · rw [BitVec.getLsbD_allOnes, decide_eq_decide]
    omega
  · rw [BitVec.getLsbD_shiftLeft, BitVec.getLsbD_allOnes]
    by_cases hi : i < w - n
    · simp only [hi, decide_true, Bool.not_true, Bool.and_false, Bool.false_and]
      symm
      simp only [decide_eq_false_iff_not]
      omega
    · simp only [hi, decide_false, Bool.not_false, Bool.and_true, ← Bool.decide_and,
        decide_eq_decide]
      omega

/-- Two masks keep the bits that the shorter one keeps. -/
theorem mask_and_mask (w m n : ℕ) : mask w m &&& mask w n = mask w (min m n) := by
  apply BitVec.eq_of_getLsbD_eq
  intro i hi
  rw [BitVec.getLsbD_and, getLsbD_mask, getLsbD_mask, getLsbD_mask, ← Bool.decide_and,
    decide_eq_decide]
  omega

@[simp] theorem mask_zero (w : ℕ) : mask w 0 = 0 := rfl

/-- An address and the number of its leading bits that count. -/
structure Block (w : ℕ) where
  id : BitVec w
  plen : ℕ
deriving DecidableEq

namespace Block

variable {w : ℕ} {a b c : Block w}

/-- No bit is set below the prefix. -/
def Aligned (a : Block w) : Prop := a.id &&& mask w a.plen = a.id

/-- The first `a.plen` bits of `x` are those of `a`. -/
def Holds (a : Block w) (x : BitVec w) : Prop := x &&& mask w a.plen = a.id

/-- `b` is a part of `a`. -/
def Contains (a b : Block w) : Prop := a.plen ≤ b.plen ∧ a.Holds b.id

instance : Decidable a.Aligned := by unfold Aligned; infer_instance
instance (x : BitVec w) : Decidable (a.Holds x) := by unfold Holds; infer_instance
instance : Decidable (a.Contains b) := by unfold Contains; infer_instance

/-- Masking with the longer of two masks first changes nothing. -/
theorem and_mask_of_le (x : BitVec w) {m n : ℕ} (h : m ≤ n) :
    x &&& mask w n &&& mask w m = x &&& mask w m := by
  rw [BitVec.and_assoc, mask_and_mask, Nat.min_eq_right h]

theorem aligned_iff : a.Aligned ↔ ∀ i < w, a.id.getLsbD i = true → w ≤ i + a.plen := by
  unfold Aligned
  constructor
  · intro h i hi hbit
    rw [← h, BitVec.getLsbD_and, getLsbD_mask] at hbit
    simp only [Bool.and_eq_true, decide_eq_true_eq] at hbit
    exact hbit.2.1
  · intro h
    apply BitVec.eq_of_getLsbD_eq
    intro i hi
    rw [BitVec.getLsbD_and, getLsbD_mask]
    cases hbit : a.id.getLsbD i with
    | false => rfl
    | true => simp [hi, h i hi hbit]

/-- An address aligned to a prefix is aligned to any longer one. -/
theorem Aligned.mono {n : ℕ} (ha : a.Aligned) (h : a.plen ≤ n) : (Block.mk a.id n).Aligned := by
  rw [aligned_iff] at ha ⊢
  intro i hi hbit
  exact Nat.le_trans (ha i hi hbit) (by simpa using h)

theorem Aligned.or {n : ℕ} {x y : BitVec w} (hx : (Block.mk x n).Aligned)
    (hy : (Block.mk y n).Aligned) : (Block.mk (x ||| y) n).Aligned := by
  rw [aligned_iff] at hx hy ⊢
  intro i hi hbit
  rw [BitVec.getLsbD_or, Bool.or_eq_true] at hbit
  exact hbit.elim (hx i hi) (hy i hi)

theorem aligned_shiftLeft (x : BitVec w) {n : ℕ} (hn : n ≤ w) :
    (Block.mk (x <<< (w - n)) n).Aligned := by
  rw [aligned_iff]
  intro i hi hbit
  rw [BitVec.getLsbD_shiftLeft] at hbit
  simp only [Bool.and_eq_true, Bool.not_eq_true', decide_eq_false_iff_not] at hbit
  have := hbit.1.2
  show w ≤ i + n
  omega

theorem contains_refl (ha : a.Aligned) : a.Contains a := ⟨le_rfl, ha⟩

theorem contains_trans (hab : a.Contains b) (hbc : b.Contains c) : a.Contains c := by
  refine ⟨Nat.le_trans hab.1 hbc.1, ?_⟩
  have hb : c.id &&& mask w b.plen = b.id := hbc.2
  have ha : b.id &&& mask w a.plen = a.id := hab.2
  show c.id &&& mask w a.plen = a.id
  rw [← ha, ← hb, and_mask_of_le _ hab.1]

theorem contains_antisymm (ha : a.Aligned) (hab : a.Contains b) (hba : b.Contains a) : a = b := by
  have hlen : a.plen = b.plen := Nat.le_antisymm hab.1 hba.1
  have hid : a.id &&& mask w b.plen = b.id := hba.2
  rw [← hlen, ha] at hid
  cases a
  cases b
  simp_all

/-- Of two blocks that hold one address, the wider contains the narrower. -/
theorem contains_of_holds {x : BitVec w} (ha : a.Holds x) (hb : b.Holds x)
    (hlen : a.plen ≤ b.plen) : a.Contains b := by
  refine ⟨hlen, ?_⟩
  have ha' : x &&& mask w a.plen = a.id := ha
  have hb' : x &&& mask w b.plen = b.id := hb
  show b.id &&& mask w a.plen = a.id
  rw [← hb', and_mask_of_le _ hlen, ha']

/-- Aligned blocks of one width that overlap are the same. -/
theorem eq_of_contains_of_plen_eq (hb : b.Aligned) (hlen : a.plen = b.plen)
    (hab : a.Contains b) : a = b := by
  have ha : b.id &&& mask w a.plen = a.id := hab.2
  rw [hlen, hb] at ha
  cases a
  cases b
  simp_all

end Block

end Prefix
