import Mathlib.Data.Nat.Find
import Mathlib.Data.List.Nodup

/-!
# Things held by reference counts

Things are acquired and released.  One that is acquired while it is absent begins
a lifetime, and it is absent again once it has been released as often.

* `balance a l`: how many acquisitions of `a` are not released after the uses `l`.
* `bornAt a l`: the last moment at which `a` was absent.
* `births l`: the lifetimes begun so far.
* `Lists l h`: the list `h` has what is held after the uses `l`, in the order in
  which the lifetimes began.
-/

namespace Holdings

variable {α : Type*} [DecidableEq α]

inductive Use (α : Type*) where
  | acquire (a : α)
  | release (a : α)
  deriving DecidableEq

/-- The count of `a` after one more use. -/
def Use.count (a : α) (n : Nat) : Use α → Nat
  | .acquire b => if b = a then n + 1 else n
  | .release b => if b = a then n - 1 else n

/-- The acquisitions of `a` that have not been released, since it was last
absent. -/
def balance (a : α) (l : List (Use α)) : Nat := l.foldl (Use.count a) 0

/-- The number of uses after which `a` was last absent. -/
def bornAt (a : α) (l : List (Use α)) : Nat :=
  Nat.findGreatest (fun n => balance a (l.take n) = 0) l.length

/-- The lifetime that a use begins after the uses `l`. -/
def Use.birth (l : List (Use α)) : Use α → List α
  | .acquire a => if balance a l = 0 then [a] else []
  | .release _ => []

/-- The lifetimes that the uses `post` begin after the uses `pre`. -/
def birthsFrom (pre : List (Use α)) : List (Use α) → List α
  | [] => []
  | u :: post => u.birth pre ++ birthsFrom (pre ++ [u]) post

def births (l : List (Use α)) : List α := birthsFrom [] l

structure Lists (l : List (Use α)) (h : List α) : Prop where
  mem_iff : ∀ a, a ∈ h ↔ 0 < balance a l
  order : h.Pairwise (fun a b => bornAt a l < bornAt b l)

/-! ## One more use -/

variable {a b : α} {l : List (Use α)} {u : Use α} {h : List α}

@[simp] theorem balance_nil (a : α) : balance a [] = 0 := rfl

theorem balance_concat (a : α) (l : List (Use α)) (u : Use α) :
    balance a (l ++ [u]) = u.count a (balance a l) := by
  unfold balance
  rw [List.foldl_append]
  rfl

theorem birthsFrom_concat (pre post : List (Use α)) (u : Use α) :
    birthsFrom pre (post ++ [u]) = birthsFrom pre post ++ u.birth (pre ++ post) := by
  induction post generalizing pre with
  | nil => simp [birthsFrom]
  | cons v post ih =>
    show v.birth pre ++ birthsFrom (pre ++ [v]) (post ++ [u]) = _
    rw [ih, List.append_assoc, List.singleton_append]
    exact (List.append_assoc ..).symm

theorem births_concat (l : List (Use α)) (u : Use α) :
    births (l ++ [u]) = births l ++ u.birth l :=
  birthsFrom_concat [] l u

/-- A thing that is held now was last absent when it was so before. -/
theorem bornAt_concat (hpos : balance a (l ++ [u]) ≠ 0) : bornAt a (l ++ [u]) = bornAt a l := by
  unfold bornAt
  rw [List.length_append, List.length_singleton, Nat.findGreatest_succ,
    List.take_of_length_le (by simp), if_neg hpos]
  have hagree : ∀ n ≤ l.length, (l ++ [u]).take n = l.take n := fun n hn =>
    List.take_append_of_le_length hn
  obtain ⟨hle, hzero, hgreatest⟩ := Nat.findGreatest_eq_iff.mp
    (rfl : Nat.findGreatest (fun n => balance a (l.take n) = 0) l.length = _)
  refine Nat.findGreatest_eq_iff.mpr ⟨hle, fun hne => ?_, fun n hlt hn => ?_⟩
  · rw [hagree _ hle]
    exact hzero hne
  · rw [hagree n hn]
    exact hgreatest hlt hn

/-- One that is absent now was last absent now. -/
theorem bornAt_of_absent (hzero : balance a l = 0) : bornAt a l = l.length := by
  refine Nat.findGreatest_eq_iff.mpr ⟨le_rfl, fun _ => ?_, fun n hlt hle => by omega⟩
  rwa [List.take_length]

theorem bornAt_lt (hpos : 0 < balance a l) : bornAt a l < l.length := by
  refine Nat.lt_of_le_of_ne (Nat.findGreatest_le _) fun heq => ?_
  have hzero : balance a (l.take l.length) = 0 :=
    (Nat.findGreatest_eq_iff.mp heq).2.1 fun hlen => by
      rw [List.length_eq_zero_iff.mp hlen] at hpos
      exact absurd hpos (by simp)
  rw [List.take_length] at hzero
  omega

theorem Lists.nil : Lists ([] : List (Use α)) [] where
  mem_iff a := by simp
  order := .nil

theorem Lists.nodup (hl : Lists l h) : h.Nodup :=
  hl.order.imp fun hlt heq => absurd (heq ▸ hlt) (Nat.lt_irrefl _)

/-- A use that makes nothing appear or disappear. -/
theorem Lists.same (hl : Lists l h) (hu : ∀ a, 0 < balance a (l ++ [u]) ↔ 0 < balance a l) :
    Lists (l ++ [u]) h where
  mem_iff a := (hl.mem_iff a).trans (hu a).symm
  order := by
    have hkeep : ∀ a ∈ h, bornAt a (l ++ [u]) = bornAt a l := fun a ha =>
      bornAt_concat (Nat.pos_iff_ne_zero.mp ((hu a).mpr ((hl.mem_iff a).mp ha)))
    refine hl.order.imp_of_mem fun ha hb hlt => ?_
    rwa [hkeep _ ha, hkeep _ hb]

/-- A lifetime begins. -/
theorem Lists.born (hl : Lists l h) (hzero : balance a l = 0) :
    Lists (l ++ [.acquire a]) (h ++ [a]) where
  mem_iff b := by
    rw [List.mem_append, List.mem_singleton, hl.mem_iff, balance_concat, Use.count]
    by_cases heq : a = b
    · simp [heq]
    · simp [heq, Ne.symm heq]
  order := by
    have hborn : bornAt a (l ++ [.acquire a]) = l.length := by
      rw [bornAt_concat (by simp [balance_concat, Use.count]), bornAt_of_absent hzero]
    have hkeep : ∀ b ∈ h, bornAt b (l ++ [.acquire a]) = bornAt b l := fun b hb => by
      have hpos := (hl.mem_iff b).mp hb
      refine bornAt_concat ?_
      rw [balance_concat, Use.count]
      split <;> omega
    refine List.pairwise_append.mpr ⟨?_, List.pairwise_singleton .., ?_⟩
    · refine hl.order.imp_of_mem fun hb hc hlt => ?_
      rwa [hkeep _ hb, hkeep _ hc]
    · intro b hb c hc
      rw [List.mem_singleton.mp hc, hborn, hkeep b hb]
      exact bornAt_lt ((hl.mem_iff b).mp hb)

/-- A lifetime ends. -/
theorem Lists.gone (hl : Lists l h) (hone : balance a l = 1) :
    Lists (l ++ [.release a]) (h.erase a) where
  mem_iff b := by
    rw [hl.nodup.mem_erase_iff, hl.mem_iff, balance_concat, Use.count]
    by_cases heq : a = b
    · subst heq
      simp [hone]
    · simp [heq, Ne.symm heq]
  order := by
    have hkeep : ∀ b ∈ h.erase a, bornAt b (l ++ [.release a]) = bornAt b l := fun b hb => by
      obtain ⟨hne, hb⟩ := hl.nodup.mem_erase_iff.mp hb
      have hpos := (hl.mem_iff b).mp hb
      refine bornAt_concat ?_
      rw [balance_concat, Use.count, if_neg (Ne.symm hne)]
      omega
    refine (hl.order.sublist List.erase_sublist).imp_of_mem fun hb hc hlt => ?_
    rwa [hkeep _ hb, hkeep _ hc]

/-- Something held is acquired once more. -/
theorem Lists.again (hl : Lists l h) (hpos : 0 < balance a l) : Lists (l ++ [.acquire a]) h := by
  refine hl.same fun b => ?_
  rw [balance_concat, Use.count]
  split
  · next heq =>
    subst heq
    omega
  · rfl

/-- A release that does not end a lifetime. -/
theorem Lists.kept (hl : Lists l h) (hne : balance a l ≠ 1) : Lists (l ++ [.release a]) h := by
  refine hl.same fun b => ?_
  rw [balance_concat, Use.count]
  split
  · next heq =>
    subst heq
    omega
  · rfl

end Holdings
