import Xylem.Vector
import Xylem.Sample

/-!
# Regions claimed by name, in any order

`xy_claim_at` attaches a new region to the nearest region that exists at that
time, and does not move the regions that exist already.

* `parentOf_claimAll`: after a list of claims the parent of a new region is the
  nearest among the old regions and those claimed before it.  Two orders that
  agree on the regions of which one contains the other give the same tree.
* `mem_parentChain_iff`: a region is on the parent chain of the regions inside
  it, but for those inside a smaller region that is older.
-/

namespace Xylem

open Forest
open Xylem.Runtime

/-- Calls of `xy_claim_at` for the identities of a list, in its order. -/
def claimAll (s : State) (fn : RegionKey → Option HandlerRef) (l : List RegionKey) : State :=
  l.foldl (fun s k => (xyClaimAt s k.id k.plen (fn k)).1) s

/-- Whether a region exists, and the identity of its parent. -/
def Runtime.parentOf (rt : Runtime) (k : RegionKey) : Option (Option RegionKey) :=
  (rt.regionHd.lookup k).map fun r => (rt.regions r).parent.map fun p => (rt.regions p).key

/-- The prefix of the region `a` contains the region `b`. -/
def Runtime.PrefixOf (rt : Runtime) (a b : RegionRef) : Prop :=
  (rt.regions a).plen ≤ (rt.regions b).plen
    ∧ (rt.regions b).id &&& regionMask (rt.regions a).plen = (rt.regions a).id

instance (rt : Runtime) (a b : RegionRef) : Decidable (rt.PrefixOf a b) := by
  unfold Runtime.PrefixOf; infer_instance

/-- A step that makes no region by an auto-claim. -/
def NoGrant (_ : Config) (a : Action) : Prop := ∀ bits, a ≠ .ret (.granted xyOk bits)

/-- The lists put any two nested regions in the same order. -/
def SameNesting (l₁ l₂ : List RegionKey) : Prop :=
  ∀ a ∈ l₁, ∀ b ∈ l₁, a ≠ b → a.block.Contains b.block → ([a, b].Sublist l₁ ↔ [a, b].Sublist l₂)

instance (l₁ l₂ : List RegionKey) : Decidable (SameNesting l₁ l₂) := by
  unfold SameNesting; infer_instance

/-! ## The parents after a list of claims -/

/-- `xy_claim_at` accepts the identity. -/
def RegionKey.Valid (k : RegionKey) : Prop := k.plen ≤ 64 ∧ k.block.Aligned

/-- `p` is the widest of the identities `S` below `k` that contain `k`. -/
structure IsNearestKey (S : RegionKey → Prop) (k p : RegionKey) : Prop where
  mem : S p
  plen_lt : p.plen < k.plen
  holds : p.block.Holds k.id
  widest : ∀ q, S q → q.plen < k.plen → q.block.Holds k.id → q.plen ≤ p.plen

theorem IsNearestKey.congr {S T : RegionKey → Prop} {k p : RegionKey} (h : IsNearestKey S k p)
    (hST : ∀ q, q.plen < k.plen → q.block.Holds k.id → (S q ↔ T q)) : IsNearestKey T k p where
  mem := (hST p h.plen_lt h.holds).mp h.mem
  plen_lt := h.plen_lt
  holds := h.holds
  widest q hq hlt hholds := h.widest q ((hST q hlt hholds).mpr hq) hlt hholds

/-- Two prefixes of one width that contain `k` are the same. -/
theorem IsNearestKey.unique {S : RegionKey → Prop} {k p p' : RegionKey} (h : IsNearestKey S k p)
    (h' : IsNearestKey S k p') : p = p' := by
  have hlen : p.plen = p'.plen :=
    Nat.le_antisymm (h'.widest p h.mem h.plen_lt h.holds) (h.widest p' h'.mem h'.plen_lt h'.holds)
  have hp : k.id &&& Prefix.mask 64 p.plen = p.id := h.holds
  have hp' : k.id &&& Prefix.mask 64 p'.plen = p'.id := h'.holds
  have hid : p.id = p'.id := by rw [← hp, ← hp', hlen]
  cases p
  cases p'
  simp_all

/-- The region table holds the identity. -/
def Runtime.Has (rt : Runtime) (k : RegionKey) : Prop := rt.regionHd.lookup k ≠ none

section

variable {rt rt' : Runtime} {s : State}

theorem parentOf_of_not_has {k : RegionKey} (h : ¬ rt.Has k) : rt.parentOf k = none := by
  rw [Runtime.parentOf, not_not.mp h]
  rfl

/-- Both views depend on the tree alone. -/
theorem has_congr (h : rt'.tree = rt.tree) (k : RegionKey) : rt'.Has k ↔ rt.Has k := by
  have htable : rt'.regionHd = rt.regionHd := congrArg Tree.table h
  rw [Runtime.Has, htable, Runtime.Has]

theorem parentOf_congr (h : rt'.tree = rt.tree) (k : RegionKey) :
    rt'.parentOf k = rt.parentOf k := by
  have htable : rt'.regionHd = rt.regionHd := congrArg Tree.table h
  have hnode : ∀ r, (rt'.regions r).toRegionNode = (rt.regions r).toRegionNode :=
    fun r => congrFun (congrArg Tree.node h) r
  simp only [Runtime.parentOf, htable, hnode]

theorem has_iff (ht : rt.tree.Wf) {k : RegionKey} :
    rt.Has k ↔ ∃ r < rt.nregions, (rt.regions r).key = k := by
  constructor
  · intro h
    obtain ⟨r, hr⟩ := Option.ne_none_iff_exists'.mp h
    exact ⟨r, ht.table.mp hr⟩
  · rintro ⟨r, hr⟩ hnone
    have hlook : rt.regionHd.lookup k = some r := ht.table.mpr hr
    rw [hlook] at hnone
    cases hnone

/-- What one more region does to the table and to the parents. -/
theorem parentOf_add (ht : rt.tree.Wf) {p : Nat} {k : RegionKey} {bits : Nat}
    (hadd : rt.tree.CanAdd p k.id k.plen bits)
    (hrt' : rt'.tree = rt.tree.add p k.id k.plen bits) :
    (∀ q, rt'.Has q ↔ rt.Has q ∨ q = k) ∧ (∀ q, rt.Has q → rt'.parentOf q = rt.parentOf q)
      ∧ rt'.parentOf k = some (some (rt.regions p).key) := by
  have htable : rt'.regionHd = rt.regionHd.insert k rt.nregions := congrArg Tree.table hrt'
  have hnode : ∀ r, (rt'.regions r).toRegionNode = (rt.tree.add p k.id k.plen bits).node r :=
    fun r => congrFun (congrArg Tree.node hrt') r
  have hp : p < rt.nregions := hadd.parent_lt
  have hkey : (rt'.regions p).key = (rt.regions p).key := by
    rw [hnode, Tree.add_key_old hp]
    rfl
  refine ⟨fun q => ?_, fun q hq => ?_, ?_⟩
  · by_cases hqk : q = k
    · subst hqk
      simp [Runtime.Has, htable]
    · simp [Runtime.Has, htable, AList.lookup_insert_ne hqk, hqk]
  · obtain ⟨r, hr⟩ := Option.ne_none_iff_exists'.mp hq
    have hqk : q ≠ k := by
      rintro rfl
      have habsent : rt.regionHd.lookup q = none := hadd.absent
      rw [hr] at habsent
      cases habsent
    have hlt : r < rt.nregions := (ht.table.mp hr).1
    have hparent : (rt'.regions r).parent = (rt.regions r).parent := by
      rw [hnode]
      exact Tree.add_parent_old hlt
    simp only [Runtime.parentOf, htable, AList.lookup_insert_ne hqk, hr, Option.map_some, hparent]
    cases hpar : (rt.regions r).parent with
    | none => rfl
    | some x =>
      have hx : x < rt.nregions := Nat.lt_trans (ht.forest.parent_lt hlt hpar) hlt
      rw [Option.map_some, Option.map_some, hnode, Tree.add_key_old hx]
      rfl
  · have hnew : (rt'.regions rt.nregions).parent = some p := by
      rw [hnode]
      exact congrArg RegionNode.parent (Tree.add_node_new hp)
    rw [Runtime.parentOf, htable, AList.lookup_insert, Option.map_some, hnew, Option.map_some, hkey]

/-- The search for the nearest region, seen from the identities. -/
theorem isNearestKey_of_nearest (ht : rt.tree.Wf) {k : RegionKey} {p : Nat}
    (hp : rt.regionNearestAncestor k.id k.plen = some p) :
    IsNearestKey rt.Has k (rt.regions p).key := by
  obtain ⟨hlt, hplen, hcov⟩ := regionNearestAncestor_lt ht hp
  refine ⟨(has_iff ht).mpr ⟨p, hlt, rfl⟩, hplen, hcov, fun q hq hqlt hq' => ?_⟩
  obtain ⟨r, hr, rfl⟩ := (has_iff ht).mp hq
  obtain ⟨b, hb, hle⟩ := (regionNearestAncestor_spec ht k.id k.plen).2 r ⟨hr, hqlt, hq'⟩
  rw [hp] at hb
  cases hb
  exact hle

/-- What one claim does. -/
theorem xyClaimAt_parentOf (ht : s.rt.tree.Wf) (k : RegionKey) (fn : Option HandlerRef)
    {s' : State} (hs' : s' = (xyClaimAt s k.id k.plen fn).1) :
    s'.rt.tree.Wf ∧ (∀ q, s'.rt.Has q ↔ s.rt.Has q ∨ (q = k ∧ k.Valid))
      ∧ (∀ q, s.rt.Has q → s'.rt.parentOf q = s.rt.parentOf q)
      ∧ (¬ s.rt.Has k → k.Valid →
        ∃ p, IsNearestKey s.rt.Has k p ∧ s'.rt.parentOf k = some (some p)) := by
  rcases xyClaimAt_cases ht k.id k.plen fn with ⟨hbad, hrt, -⟩ | ⟨r, hr, hrt, -⟩
    | ⟨p, hnear, hadd, hrt, -⟩
  · have hinvalid : ¬ k.Valid := by
      rintro ⟨hle, halign⟩
      rcases hbad with hlt | hbad
      · omega
      · exact hbad halign
    rw [← hs'] at hrt
    rw [hrt]
    exact ⟨ht, by simp [hinvalid], fun _ _ => rfl, fun _ hv => absurd hv hinvalid⟩
  · have htree : s'.rt.tree = s.rt.tree := by
      rw [hs', hrt]
      cases fn with
      | none => rfl
      | some fn => exact modifyRegion_tree s.rt (by intro _; rfl) r
    have hin : s.rt.Has k := fun hnone => by
      have hr' : s.rt.regionHd.lookup k = some r := hr
      rw [hr'] at hnone
      cases hnone
    refine ⟨htree ▸ ht, fun q => ?_, fun q _ => parentOf_congr htree q, fun h => absurd hin h⟩
    rw [has_congr htree]
    constructor
    · exact Or.inl
    · rintro (h | ⟨rfl, -⟩)
      · exact h
      · exact hin
  · have htree : s'.rt.tree = s.rt.tree.add p k.id k.plen (k.plen - (s.rt.regions p).plen) := by
      rw [hs', hrt, addRegion_tree]
    have hvalid : k.Valid := ⟨hadd.plen_le, hadd.aligned⟩
    obtain ⟨hhas, hold, hnew⟩ := parentOf_add ht hadd htree
    refine ⟨htree ▸ ht.add hadd, fun q => ?_, hold, fun _ _ => ⟨_, isNearestKey_of_nearest ht hnear, hnew⟩⟩
    rw [hhas]
    simp [hvalid]

theorem claimAll_cons (s : State) (fn : RegionKey → Option HandlerRef) (k : RegionKey)
    (l : List RegionKey) :
    claimAll s fn (k :: l) = claimAll (xyClaimAt s k.id k.plen (fn k)).1 fn l := rfl

/-- Of two members of a list without repetitions, the head comes first. -/
theorem pair_sublist_cons {q k x : RegionKey} {l : List RegionKey} (hk : k ≠ x) (hmem : k ∈ l) :
    [q, k].Sublist (x :: l) ↔ q = x ∨ [q, k].Sublist l := by
  constructor
  · intro h
    rcases List.sublist_cons_iff.mp h with h | ⟨r, hr, -⟩
    · exact Or.inr h
    · exact Or.inl (List.cons.inj hr).1
  · rintro (rfl | h)
    · exact (List.singleton_sublist.mpr hmem).cons_cons q
    · exact h.cons x

/-- After a list of claims: the old regions have the parents they had, and a new
one has the nearest among the old ones and those claimed before it. -/
theorem parentOf_claimAll (ht : s.rt.tree.Wf) (fn : RegionKey → Option HandlerRef)
    {l : List RegionKey} (hl : l.Nodup) (k : RegionKey) :
    (s.rt.Has k → (claimAll s fn l).rt.parentOf k = s.rt.parentOf k)
      ∧ (¬ s.rt.Has k → k ∈ l → k.Valid →
        ∃ p, IsNearestKey (fun q => s.rt.Has q ∨ (q.Valid ∧ [q, k].Sublist l)) k p
          ∧ (claimAll s fn l).rt.parentOf k = some (some p))
      ∧ (¬ s.rt.Has k → ¬ (k ∈ l ∧ k.Valid) → (claimAll s fn l).rt.parentOf k = none) := by
  induction l generalizing s with
  | nil =>
    refine ⟨fun _ => rfl, ?_, fun h _ => parentOf_of_not_has h⟩
    intro _ hmem
    cases hmem
  | cons x l ih =>
    obtain ⟨hx, hl⟩ := List.nodup_cons.mp hl
    obtain ⟨ht', hhas, hold, hnew⟩ := xyClaimAt_parentOf ht x (fn x) rfl
    obtain ⟨ih1, ih2, ih3⟩ := ih ht' hl
    rw [claimAll_cons]
    refine ⟨fun hk => ?_, fun hk hmem hv => ?_, fun hk hnot => ?_⟩
    · rw [ih1 ((hhas k).mpr (Or.inl hk)), hold k hk]
    · by_cases hkx : k = x
      · subst hkx
        obtain ⟨p, hp, hpar⟩ := hnew hk hv
        refine ⟨p, hp.congr fun q _ _ => ⟨Or.inl, ?_⟩, ?_⟩
        · rintro (hq | ⟨-, hq⟩)
          · exact hq
          · rcases List.sublist_cons_iff.mp hq with hq | ⟨r, hr, hsub⟩
            · exact absurd (hq.subset (by simp)) hx
            · have hrk : r = [k] := (List.cons.inj hr).2.symm
              rw [hrk] at hsub
              exact absurd (hsub.subset (by simp)) hx
        · rw [ih1 ((hhas k).mpr (Or.inr ⟨rfl, hv⟩)), hpar]
      · have hk' : ¬ (xyClaimAt s x.id x.plen (fn x)).1.rt.Has k := by
          rw [hhas]
          rintro (h | ⟨h, -⟩)
          · exact hk h
          · exact hkx h
        have hmem' : k ∈ l := (List.mem_cons.mp hmem).resolve_left hkx
        obtain ⟨p, hp, hpar⟩ := ih2 hk' hmem' hv
        refine ⟨p, hp.congr fun q _ _ => ?_, hpar⟩
        rw [hhas, pair_sublist_cons hkx hmem', or_assoc]
        refine or_congr_right ?_
        constructor
        · rintro (⟨rfl, hq⟩ | ⟨hq, hsub⟩)
          · exact ⟨hq, Or.inl rfl⟩
          · exact ⟨hq, Or.inr hsub⟩
        · rintro ⟨hq, rfl | hsub⟩
          · exact Or.inl ⟨rfl, hq⟩
          · exact Or.inr ⟨hq, hsub⟩
    · refine ih3 ?_ fun h => hnot ⟨List.mem_cons_of_mem _ h.1, h.2⟩
      rw [hhas]
      rintro (h | ⟨rfl, h⟩)
      · exact hk h
      · exact hnot ⟨List.mem_cons_self, h⟩

/-- Two orders that agree on nested regions give every region the same parent. -/
theorem parentOf_claimAll_eq (ht : s.rt.tree.Wf) (fn : RegionKey → Option HandlerRef)
    {l₁ l₂ : List RegionKey} (hperm : l₁.Perm l₂) (hl : l₁.Nodup) (hnest : SameNesting l₁ l₂)
    (k : RegionKey) :
    (claimAll s fn l₁).rt.parentOf k = (claimAll s fn l₂).rt.parentOf k := by
  obtain ⟨hold₁, hnew₁, hno₁⟩ := parentOf_claimAll ht fn hl k
  obtain ⟨hold₂, hnew₂, hno₂⟩ := parentOf_claimAll ht fn (hperm.nodup_iff.mp hl) k
  by_cases hk : s.rt.Has k
  · rw [hold₁ hk, hold₂ hk]
  · by_cases hin : k ∈ l₁ ∧ k.Valid
    · obtain ⟨p₁, hp₁, hpar₁⟩ := hnew₁ hk hin.1 hin.2
      obtain ⟨p₂, hp₂, hpar₂⟩ := hnew₂ hk (hperm.mem_iff.mp hin.1) hin.2
      have hsame : ∀ q, q.plen < k.plen → q.block.Holds k.id →
          ([q, k].Sublist l₁ ↔ [q, k].Sublist l₂) := by
        intro q hlt hholds
        have hne : q ≠ k := by
          rintro rfl
          omega
        by_cases hq : q ∈ l₁
        · exact hnest q hq k hin.1 hne ⟨Nat.le_of_lt hlt, hholds⟩
        · constructor
          · intro h
            exact absurd (h.subset (by simp)) hq
          · intro h
            exact absurd (hperm.mem_iff.mpr (h.subset (by simp))) hq
      have hp : p₁ = p₂ := by
        refine (hp₁.congr fun q hlt hholds => ?_).unique hp₂
        rw [hsame q hlt hholds]
      rw [hpar₁, hpar₂, hp]
    · rw [hno₁ hk hin, hno₂ hk (by rwa [← hperm.mem_iff])]

/-! ## The parent chains -/

/-- Among the regions claimed by name, each has the nearest older one as its
parent. -/
def NearestTree (t : Tree) : Prop :=
  t.links.NearestBy t.count (fun a b => (t.node a).key.block.Contains (t.node b).key.block)

/-- What holds of the prefixes of any well-formed tree. -/
theorem nearestTree_of_parent {t : Tree} (h : t.Wf)
    (hparent : ∀ x < t.count, ∀ p, (t.node x).parent = some p →
      (t.node p).key.block.Contains (t.node x).key.block
        ∧ ∀ y < x, (t.node y).key.block.Contains (t.node x).key.block →
          (t.node y).key.block.Contains (t.node p).key.block) : NearestTree t where
  refl hx := Prefix.Block.contains_refl (h.aligned hx)
  trans _ _ _ hab hbc := Prefix.Block.contains_trans hab hbc
  antisymm hx hy hab hba :=
    h.key_inj hx hy (RegionKey.block_inj (Prefix.Block.contains_antisymm (h.aligned hx) hab hba))
  parent hx hp := hparent _ hx _ hp
  root := by
    intro x y hx hy hp hyx
    obtain rfl := h.orphan hx hp
    have hroot : (t.node 0).key = ⟨0, 0⟩ := h.root
    have hlen : (t.node y).key.plen ≤ (t.node 0).key.plen := hyx.1
    have heq : (t.node y).key.block = (t.node 0).key.block := by
      refine Prefix.Block.eq_of_contains_of_plen_eq (h.aligned hx) ?_ hyx
      rw [hroot] at hlen ⊢
      exact Nat.le_zero.mp hlen
    exact h.key_inj hy hx (RegionKey.block_inj heq)

/-- A region that is attached to the nearest one keeps the tree nearest. -/
theorem NearestTree.claimAt (ht : rt.tree.Wf) (h : NearestTree rt.tree) {p : Nat} {k : RegionKey}
    {bits : Nat} (hnear : rt.regionNearestAncestor k.id k.plen = some p)
    (hadd : rt.tree.CanAdd p k.id k.plen bits) :
    NearestTree (rt.tree.add p k.id k.plen bits) := by
  have hp : p < rt.tree.count := hadd.parent_lt
  have hspec := isNearestKey_of_nearest ht hnear
  refine nearestTree_of_parent (ht.add hadd) fun x hx q hq => ?_
  rcases Nat.lt_succ_iff_lt_or_eq.mp hx with hlt | rfl
  · have hqold : (rt.tree.node x).parent = some q := (Tree.add_parent_old hlt).symm.trans hq
    have hqlt : q < x := ht.forest.parent_lt hlt hqold
    obtain ⟨hcon, hnearest⟩ := h.parent hlt hqold
    rw [Tree.add_key_old hlt, Tree.add_key_old (Nat.lt_trans hqlt hlt)]
    refine ⟨hcon, fun y hy hyx => ?_⟩
    rw [Tree.add_key_old (Nat.lt_trans hy hlt)] at hyx ⊢
    exact hnearest y hy hyx
  · have hqp : q = p := by
      rw [Tree.add_node_new hp] at hq
      exact (Option.some.inj hq).symm
    subst hqp
    rw [Tree.add_key_new hp, Tree.add_key_old hp]
    refine ⟨⟨Nat.le_of_lt hspec.plen_lt, hspec.holds⟩, fun y hy hyx => ?_⟩
    rw [Tree.add_key_old hy] at hyx ⊢
    have hne : (rt.tree.node y).key.plen ≠ k.plen := by
      intro hlen
      have heq : (rt.tree.node y).key = k :=
        RegionKey.block_inj (Prefix.Block.eq_of_contains_of_plen_eq hadd.aligned hlen hyx)
      have hin := ht.table.mpr ⟨hy, heq⟩
      have habsent : rt.tree.table.lookup k = none := hadd.absent
      rw [habsent] at hin
      cases hin
    have hylt : (rt.tree.node y).key.plen < k.plen := Nat.lt_of_le_of_ne hyx.1 hne
    have hle := hspec.widest (rt.tree.node y).key ((has_iff ht).mpr ⟨y, hy, rfl⟩) hylt hyx.2
    exact Prefix.Block.contains_of_holds hyx.2 hspec.holds hle

end

section

variable {w : World} {c : Config}

theorem nearestTree_bootstrap (rt : Runtime) : NearestTree rt.bootstrap.tree :=
  nearestTree_of_parent (tree_bootstrap rt) fun x _ p hp => by cases hp

theorem nearestTree_of_reachable (h : ReachableBy w NoGrant c) : NearestTree c.st.rt.tree := by
  refine h.invariant_wf (fun c => NearestTree c.st.rt.tree) (fun c hc => ?_)
    fun c a c' ev hwf hnear hok hstep => ?_
  · obtain ⟨ctxs, adapters, mem, rfl⟩ := hc
    exact nearestTree_bootstrap _
  · rcases (hstep.effect hwf).tree_cases with heq | ⟨p, id, plen, fn, -, hp, hadd, heq⟩
      | ⟨tx, k, p, bits, id, -, ha, -⟩ | ⟨-, heq⟩
    · rw [heq]
      exact hnear
    · rw [heq]
      exact NearestTree.claimAt (k := ⟨id, plen⟩) hwf.tree hnear hp hadd
    · exact absurd ha (hok bits)
    · rw [heq]
      exact nearestTree_bootstrap _

/-- A region is on the parent chain of `b` when it contains `b` and is older than
the smaller regions that contain `b`. -/
theorem mem_parentChain_iff (h : ReachableBy w NoGrant c) {a b : Nat} (ha : a < c.st.rt.nregions)
    (hb : b < c.st.rt.nregions) :
    a ∈ c.st.rt.parentChain b ↔ c.st.rt.PrefixOf a b
      ∧ ∀ x < c.st.rt.nregions, x ≠ a → c.st.rt.PrefixOf a x → c.st.rt.PrefixOf x b → a < x := by
  have ht := (Config.Wf.of_reachable h).tree
  rw [parentChain_eq ht hb]
  exact (nearestTree_of_reachable h).mem_anc_iff ht.forest ha hb

/-- A dispatch from `a` walks the modules of the regions that have `a` on their
parent chains. -/
theorem mem_walked_iff {ok : Config → Action → Prop} (h : ReachableBy w ok c) {a b : Nat}
    (ha : a < c.st.rt.nregions) (hb : b < c.st.rt.nregions) {e : EntryRef}
    (he : e ∈ (c.st.rt.regions b).mods) :
    e ∈ c.st.rt.walked a ↔ a ∈ c.st.rt.parentChain b := by
  have hwf := Config.Wf.of_reachable h
  rw [walked_eq hwf.tree (subtreeLists_of_reachable h) ha, List.mem_flatMap,
    parentChain_eq hwf.tree hb]
  have hhome : c.st.rt.home e = some b := hwf.heap.mem_iff.mp he
  constructor
  · rintro ⟨x, hx, hex⟩
    have hxb : some x = some b := (hwf.heap.mem_iff.mp hex).symm.trans hhome
    cases hxb
    exact ((mem_subtree_iff hwf.tree ha).mp hx).2
  · intro hab
    exact ⟨b, (mem_subtree_iff hwf.tree ha).mpr ⟨hb, hab⟩, he⟩

/-- The order of claims matters for nested regions only: from any state, two
orders that agree on these give one tree; and among regions claimed by name, a
region reaches the regions inside it that are inside no older and smaller one. -/
theorem claim_order {c₀ : Config} (h₀ : Reachable w c₀) (h : ReachableBy w NoGrant c) :
    (∀ (fn : RegionKey → Option HandlerRef) (l₁ l₂ : List RegionKey), l₁.Perm l₂ → l₁.Nodup →
      SameNesting l₁ l₂ →
        ∀ k, (claimAll c₀.st fn l₁).rt.parentOf k = (claimAll c₀.st fn l₂).rt.parentOf k)
    ∧ ∀ a < c.st.rt.nregions, ∀ b < c.st.rt.nregions,
      (a ∈ c.st.rt.parentChain b ↔ c.st.rt.PrefixOf a b
        ∧ ∀ x < c.st.rt.nregions, x ≠ a → c.st.rt.PrefixOf a x → c.st.rt.PrefixOf x b → a < x)
      ∧ ∀ e ∈ (c.st.rt.regions b).mods,
        (e ∈ c.st.rt.walked a ↔ a ∈ c.st.rt.parentChain b) :=
  ⟨fun fn _ _ hperm hl hnest k =>
      parentOf_claimAll_eq (Config.Wf.of_reachable h₀).tree fn hperm hl hnest k,
    fun _ ha _ hb => ⟨mem_parentChain_iff h ha hb, fun _ he => mem_walked_iff h ha hb he⟩⟩

end

/-- Two orders of three claims, of which `(0, 32)` lies in `(0, 16)`; and the
chain of the innermost region after them. -/
theorem claim_order_three :
    ((claimAll (Config.boot sampleHook).st (fun _ => none)
        [⟨0, 16⟩, ⟨0x1000000000000, 16⟩, ⟨0, 32⟩]).rt.parentOf ⟨0, 32⟩
      = (claimAll (Config.boot sampleHook).st (fun _ => none)
        [⟨0x1000000000000, 16⟩, ⟨0, 16⟩, ⟨0, 32⟩]).rt.parentOf ⟨0, 32⟩)
    ∧ 1 ∈ ((Config.boot sampleHook).after sampleWorld
      [.call (.claimAt 0 16 none), .call (.claimAt 0 32 none)]).st.rt.parentChain 2 := by
  have hboot : Reachable sampleWorld (Config.boot sampleHook) := .start (Config.boot_initial _)
  have hrun : ReachableBy sampleWorld NoGrant ((Config.boot sampleHook).after sampleWorld
      [.call (.claimAt 0 16 none), .call (.claimAt 0 32 none)]) :=
    ReachableBy.after (.start (Config.boot_initial _)) (by simp [NoGrant])
  refine ⟨(claim_order hboot hrun).1 (fun _ => none) _ _ (by decide +kernel) (by decide)
    (by decide +kernel) _, ?_⟩
  exact (((claim_order hboot hrun).2 1 (by decide +kernel) 2 (by decide +kernel)).1).mpr
    (by decide +kernel)

/-- Claimed after `(0, 32)`, the region `(0, 16)` contains it and is not above
it. -/
theorem claim_order_matters :
    (claimAll (Config.boot sampleHook).st (fun _ => none) [⟨0, 32⟩, ⟨0, 16⟩]).rt.parentOf ⟨0, 32⟩
      ≠ (claimAll (Config.boot sampleHook).st (fun _ => none) [⟨0, 16⟩, ⟨0, 32⟩]).rt.parentOf ⟨0, 32⟩
    ∧ ∃ c, ReachableBy sampleWorld NoGrant c ∧ c.st.rt.nregions = 3 ∧ c.st.rt.PrefixOf 2 1
      ∧ 2 ∉ c.st.rt.parentChain 1 := by
  refine ⟨by decide +kernel, (Config.boot sampleHook).after sampleWorld
    [.call (.claimAt 0 32 none), .call (.claimAt 0 16 none)], ?_, by decide +kernel,
    by decide +kernel, by decide +kernel⟩
  exact ReachableBy.after (.start (Config.boot_initial _)) (by simp [NoGrant])

end Xylem
