import Xylem.Calls

/-!
# The enumeration of child regions

`xy_region_each` is to name each child of the current region once, oldest first, for
as long as its callback answers `XY_OK` (`Enumerates`).

Both ways to make a region put it at the head of its parent's child list, so the
list has the youngest child first (`children_eq_reverse`), and the loop follows it.
A child that the callback makes comes before the cursor and is not named.
-/

namespace Xylem

open Xylem.Runtime

/-- The children of a region, oldest first: regions are numbered as they are made. -/
def Runtime.created (rt : Runtime) (p : RegionRef) : List RegionRef :=
  (List.range rt.nregions).filter fun r => decide ((rt.regions r).parent = some p)

/-- The identities of some regions. -/
def Runtime.keys (rt : Runtime) (l : List RegionRef) : List RegionKey :=
  l.map fun r => (rt.regions r).key

/-- What the move gives the callback of the enumeration that has `n` calls below it. -/
def Move.names (n : Nat) (m : Move) : Option RegionKey :=
  match m.event with
  | .enterVisit id plen => if m.after.stack.length = n + 1 then some ⟨id, plen⟩ else none
  | _ => none

/-- What the callback of this enumeration answers. -/
def Move.answer (n : Nat) (m : Move) : Option Int :=
  match m.act with
  | .ret (.visited ret) => if m.before.stack.length = n + 1 then some ret else none
  | _ => none

/-- The enumeration with the moves `log` and the result `v` goes through `l`. -/
structure Enumerates (n : Nat) (log : List Move) (v : Value) (l : List RegionKey) : Prop where
  names : log.filterMap (·.names n) = l.take (log.filterMap (·.answer n)).length
  fits : (log.filterMap (·.answer n)).length ≤ l.length
  goesOn : ∀ x ∈ (log.filterMap (·.answer n)).dropLast, x = xyOk
  /-- Unless the callback has stopped it, it comes to the end. -/
  complete : (∀ x ∈ log.filterMap (·.answer n), x = xyOk) →
    (log.filterMap (·.answer n)).length = l.length
  value : v = .int ((log.filterMap (·.answer n)).getLast?.getD xyOk)

/-! ## The child lists -/

/-- The child lists are in the order of creation, turned round. -/
def Tree.Stacked (t : Tree) : Prop :=
  ∀ p < t.count, (t.node p).children
    = ((List.range t.count).filter fun r => decide ((t.node r).parent = some p)).reverse

/-- A region that is made is the youngest. -/
theorem Tree.Stacked.add {t : Tree} {p : Nat} {id : RegionId} {plen bits : Nat} (h : t.Stacked)
    (ht : t.Wf) (hp : p < t.count) : (t.add p id plen bits).Stacked := by
  intro q hq
  have hnew := @add_node_new t p id plen bits hp
  have hold : (List.range t.count).filter
        (fun r => decide (((t.add p id plen bits).node r).parent = some q))
      = (List.range t.count).filter fun r => decide ((t.node r).parent = some q) := by
    apply List.filter_congr
    intro r hr
    rw [add_parent_old (List.mem_range.mp hr)]
  show ((t.add p id plen bits).node q).children
    = ((List.range (t.count + 1)).filter
        fun r => decide (((t.add p id plen bits).node r).parent = some q)).reverse
  rw [List.range_succ, List.filter_append, hold, List.reverse_append, List.filter_singleton, hnew]
  rcases Nat.lt_succ_iff_lt_or_eq.mp hq with hlt | heq
  · by_cases hqp : q = p
    · subst hqp
      simp [Tree.add, h q hlt]
    · have hne : q ≠ t.count := by omega
      have hpq : p ≠ q := fun heq => hqp heq.symm
      simp [Tree.add, hqp, hne, hpq, h q hlt]
  · subst heq
    have hpq : p ≠ t.count := by omega
    have hnone : (List.range t.count).filter
        (fun r => decide ((t.node r).parent = some t.count)) = [] := by
      rw [List.filter_eq_nil_iff]
      intro r hr
      simp only [decide_eq_true_eq]
      intro hpar
      have hlt := ht.forest.parent_lt (List.mem_range.mp hr) hpar
      have hr' := List.mem_range.mp hr
      omega
    rw [hnew, hnone]
    simp [hpq]

section

variable {w : World} {c c' c₀ : Config} {a : Action} {ev : Event} {log : List Move} {n : Nat}
  {k l : List Frame}

theorem stacked_of_reachable (h : Reachable w c) : c.st.rt.tree.Stacked := by
  apply h.invariant_wf (w := w) (fun c => c.st.rt.tree.Stacked)
  · intro c hc
    obtain ⟨ctxs, adapters, mem, rfl⟩ := hc
    intro p hp
    obtain rfl : p = 0 := Nat.lt_one_iff.mp hp
    rfl
  · intro c a c' ev hwf hinv _ hs
    rcases (hs.effect hwf).tree_cases with htree | ⟨p, id, plen, fn, -, -, hadd, htree⟩
      | ⟨tx, k, p, bits, id, -, -, -, -, -, hadd, htree⟩ | ⟨-, hrt⟩
    · rw [htree]
      exact hinv
    · rw [htree]
      exact hinv.add hwf.tree hadd.parent_lt
    · rw [htree]
      exact hinv.add hwf.tree hadd.parent_lt
    · rw [hrt]
      intro p hp
      obtain rfl : p = 0 := Nat.lt_one_iff.mp hp
      rfl

/-- In every state that is reached, a child list has the youngest child first. -/
theorem children_eq_reverse (h : Reachable w c) {p : Nat} (hp : p < c.st.rt.nregions) :
    (c.st.rt.regions p).children = (c.st.rt.created p).reverse :=
  stacked_of_reachable h p hp

/-- Later children are younger. -/
theorem Runtime.RegionsKept.created {rt rt' : Runtime} (h : rt.RegionsKept rt') (p : RegionRef) :
    ∃ new, rt'.created p = rt.created p ++ new := by
  obtain ⟨d, hd⟩ := Nat.exists_eq_add_of_le h.count
  unfold Runtime.created
  rw [hd, List.range_add, List.filter_append]
  refine ⟨_, congrArg (· ++ _) (List.filter_congr fun r hr => ?_)⟩
  rw [h.parent r (List.mem_range.mp hr)]

theorem Runtime.mem_created {rt : Runtime} {p r : RegionRef} :
    r ∈ rt.created p ↔ r < rt.nregions ∧ (rt.regions r).parent = some p := by
  simp [Runtime.created]

theorem Runtime.nodup_created (rt : Runtime) (p : RegionRef) : (rt.created p).Nodup :=
  List.nodup_range.filter _

theorem nextIn_of_getElem? {xs : List Nat} {i x : Nat} (hnodup : xs.Nodup)
    (h : xs[i]? = some x) : nextIn x xs = xs[i + 1]? := by
  induction xs generalizing i with
  | nil => simp at h
  | cons y xs ih =>
    obtain ⟨hy, hxs⟩ := List.nodup_cons.mp hnodup
    unfold nextIn
    cases i with
    | zero =>
      simp at h
      subst h
      simp [List.head?_eq_getElem?]
    | succ i =>
      simp at h
      have hne : y ≠ x := by
        intro heq
        rw [heq] at hy
        exact hy (List.mem_of_getElem? h)
      rw [if_neg hne]
      simpa using ih hxs h

/-! ## The loop -/

/-- The child after the one at `i`, whatever regions have been made since. -/
theorem next_child (h₀ : Reachable w c₀) (h : Reachable w c)
    (hkept : c₀.st.rt.RegionsKept c.st.rt) {p i : Nat} {x : RegionRef}
    (hp : p < c₀.st.rt.nregions) (hx : (c₀.st.rt.regions p).children[i]? = some x) :
    ((c.st.rt.regions x).parent.bind fun q => nextIn x (c.st.rt.regions q).children)
      = (c₀.st.rt.regions p).children[i + 1]? := by
  have hchildren := children_eq_reverse h₀ hp
  have hmem : x ∈ c₀.st.rt.created p := by
    rw [← List.mem_reverse, ← hchildren]
    exact List.mem_of_getElem? hx
  obtain ⟨hlt, hparent⟩ := Runtime.mem_created.mp hmem
  obtain ⟨new, hnew⟩ := hkept.created p
  have hnow : (c.st.rt.regions p).children = new.reverse ++ (c₀.st.rt.regions p).children := by
    rw [children_eq_reverse h (Nat.lt_of_lt_of_le hp hkept.count), hnew, List.reverse_append,
      hchildren]
  have hnodup : (c.st.rt.regions p).children.Nodup := by
    rw [children_eq_reverse h (Nat.lt_of_lt_of_le hp hkept.count), List.nodup_reverse]
    exact c.st.rt.nodup_created p
  have hat : (c.st.rt.regions p).children[new.length + i]? = some x := by
    rw [hnow, List.getElem?_append_right (by simp)]
    simpa using hx
  rw [hkept.parent x hlt, hparent, Option.bind_some, nextIn_of_getElem? hnodup hat, hnow,
    List.getElem?_append_right (by simp; omega)]
  apply congrArg ((c₀.st.rt.regions p).children[·]?)
  simp
  omega

/-- Where the callback of an enumeration is given control. -/
theorem Step.visit_event {id : RegionId} {plen : Nat} (h : Step w c a c' (.enterVisit id plen)) :
    (∃ child, a = .call .regionEach ∧ c'.stack = .each child :: c.stack)
      ∨ ∃ cursor child t, a = .ret (.visited xyOk) ∧ c.stack = .each cursor :: t
        ∧ c'.stack = .each child :: t := by
  generalize hev : Event.enterVisit id plen = ev at h
  have hquiet : ev.enters ≠ false := by
    rw [← hev]
    nofun
  cases h with
  | eachFirst hw hp hc => exact Or.inl ⟨_, rfl, rfl⟩
  | eachNext hp hc => exact Or.inr ⟨_, _, _, rfl, rfl, rfl⟩
  | unload hw hu => exact absurd hu.event hquiet
  | reload hw hl hme hu => exact absurd hu.event hquiet
  | cascade hme hp hs hu => exact absurd hu.event hquiet
  | dlopenFailed hr => exact absurd (resume_event hr) hquiet
  | reuse hl hme hr => exact absurd (resume_event hr) hquiet
  | installed hr => exact absurd (resume_event hr) hquiet
  | abort ha hr => exact absurd (resume_event hr) hquiet
  | remove hme hr => exact absurd (resume_event hr) hquiet
  | _ => cases hev

/-- What the callback does says nothing to the loop. -/
theorem quiet_under {m : Move} {r : RegionRef} (hs : Step w m.before m.act m.after m.event)
    (hstack : m.before.stack = l ++ .each r :: k)
    (hown : l ≠ [] ∨ ∃ q, m.act = .call q) :
    m.names k.length = none ∧ m.answer k.length = none := by
  have hdeep : l.length + k.length + 1 = m.before.stack.length := by
    rw [hstack]
    simp
    omega
  constructor
  · unfold Move.names
    split
    · next id plen hev =>
      rw [hev] at hs
      apply if_neg
      rcases hs.visit_event with ⟨child, -, hafter⟩ | ⟨cursor, child, t, hact, hbefore, hafter⟩
      · rw [hafter, List.length_cons]
        omega
      · have hl : 0 < l.length := by
          rcases hown with hl | ⟨q, hq⟩
          · exact List.length_pos_iff.mpr hl
          · rw [hact] at hq
            cases hq
        rw [hbefore, List.length_cons] at hdeep
        rw [hafter, List.length_cons]
        omega
    · rfl
  · unfold Move.answer
    split
    · next ret hact =>
      apply if_neg
      rcases hown with hl | ⟨q, hq⟩
      · have hl := List.length_pos_iff.mpr hl
        omega
      · rw [hact] at hq
        cases hq
    · rfl

/-- An enumeration over `xs` that has `c₀.stack` below it, in the callback for the
child at `i`. -/
structure InEach (c₀ : Config) (xs : List RegionRef) (log : List Move) (c : Config) (i : Nat)
    (x : RegionRef) : Prop where
  cursor : xs[i]? = some x
  stack : ∃ l, c.stack = l ++ .each x :: c₀.stack
  names : log.filterMap (·.names c₀.stack.length) = (c₀.st.rt.keys xs).take (i + 1)
  answers : log.filterMap (·.answer c₀.stack.length) = List.replicate i xyOk

theorem keys_take_succ {rt : Runtime} {xs : List RegionRef} {i : Nat} {x : RegionRef}
    (hx : xs[i]? = some x) :
    (rt.keys xs).take (i + 1) = (rt.keys xs).take i ++ [(rt.regions x).key] := by
  have hkey : (rt.keys xs)[i]? = some (rt.regions x).key := by
    rw [Runtime.keys, List.getElem?_map, hx]
    rfl
  rw [List.take_add_one, hkey]
  rfl

/-- One move: of the callback, or with which the loop goes on. -/
theorem InEach.step {p i : Nat} {x : RegionRef}
    (hin : InEach c₀ (c₀.st.rt.regions p).children log c i x) (h₀ : Reachable w c₀)
    (h : Reachable w c) (hkept : c₀.st.rt.RegionsKept c.st.rt) (hp : p < c₀.st.rt.nregions)
    (hs : step w c a = .next c' ev) (hlen : c₀.stack.length < c'.stack.length) :
    ∃ i' x', InEach c₀ (c₀.st.rt.regions p).children (log ++ [⟨c, a, ev, c'⟩]) c' i' x' := by
  obtain ⟨l, hstack⟩ := hin.stack
  have hstep := Step.of_step hs
  have hunder : (l ≠ [] ∨ ∃ q, a = .call q) → (∃ l', c'.stack = l' ++ .each x :: c₀.stack) →
      ∃ i' x', InEach c₀ (c₀.st.rt.regions p).children (log ++ [⟨c, a, ev, c'⟩]) c' i' x' := by
    intro hown hframe
    obtain ⟨hnames, hanswer⟩ := quiet_under (m := ⟨c, a, ev, c'⟩) hstep hstack hown
    refine ⟨i, x, hin.cursor, hframe, ?_, ?_⟩
    · rw [List.filterMap_append, List.filterMap_cons_none hnames, hin.names]
      simp
    · rw [List.filterMap_append, List.filterMap_cons_none hanswer, hin.answers]
      simp
  by_cases hl : l = []
  · subst hl
    obtain ⟨s, stack⟩ := c
    obtain rfl : stack = .each x :: c₀.stack := hstack
    cases a with
    | tau => cases hs
    | call q =>
      obtain ⟨l', hpush⟩ := hstep.call_push
      exact hunder (Or.inr ⟨q, rfl⟩) ⟨l', hpush⟩
    | ret r =>
      cases r with
      | visited ret =>
        have hret : retVisit s c₀.stack x ret = .next c' ev := hs
        unfold retVisit at hret
        split at hret
        · next hok =>
          have hnext := next_child h₀ h hkept hp hin.cursor
          rw [show ((s.rt.regions x).parent.bind fun q => nextIn x (s.rt.regions q).children) = _
            from hnext] at hret
          cases hy : (c₀.st.rt.regions p).children[i + 1]? with
          | none =>
            rw [hy] at hret
            cases hret
            exact absurd hlen (Nat.lt_irrefl _)
          | some y =>
            rw [hy] at hret
            cases hret
            have hylt : y < c₀.st.rt.nregions :=
              (Config.Wf.of_reachable h₀).tree.child_lt hp (List.mem_of_getElem? hy)
            refine ⟨i + 1, y, hy, ⟨[], rfl⟩, ?_, ?_⟩
            · rw [List.filterMap_append, hin.names, keys_take_succ hy, ← hkept.key y hylt]
              simp [Move.names, RegionNode.key]
            · rw [List.filterMap_append, hin.answers, List.replicate_succ', hok]
              simp [Move.answer]
        · cases hret
          exact absurd hlen (Nat.lt_irrefl _)
      | _ => cases hs
  · obtain ⟨l', hover⟩ := hstep.over hstack hl (by simp)
    exact hunder (Or.inl hl) ⟨l', hover⟩

theorem InEach.run {p i : Nat} {x : RegionRef} {pre : List Move} {c₁ : Config}
    (h : InEach c₀ (c₀.st.rt.regions p).children pre c₁ i x) (h₀ : Reachable w c₀)
    (h₁ : Reachable w c₁) (hkept : c₀.st.rt.RegionsKept c₁.st.rt) (hp : p < c₀.st.rt.nregions)
    (hin : Inside w c₀.stack.length c₁ log c) :
    ∃ i' x', InEach c₀ (c₀.st.rt.regions p).children (pre ++ log) c i' x' := by
  induction hin with
  | start => exact ⟨i, x, by simpa using h⟩
  | move hin hs hlen ih =>
    obtain ⟨i', x', hi⟩ := ih
    rw [← List.append_assoc]
    have hmid := (hin.regionsKept (.of_reachable h₁)).2
    exact hi.step h₀ (hin.reachable (fun _ _ => trivial) h₁) (hkept.trans hmid) hp hs hlen

/-- The move with which an enumeration returns. -/
theorem InEach.returns {p i : Nat} {x : RegionRef} {v : Value}
    (hin : InEach c₀ (c₀.st.rt.regions p).children log c i x) (h₀ : Reachable w c₀)
    (h : Reachable w c) (hkept : c₀.st.rt.RegionsKept c.st.rt) (hp : p < c₀.st.rt.nregions)
    (hstack : c.stack = .each x :: c₀.stack) (hs : Xylem.step w c a = .next c' (.returned v))
    (hback : c'.stack = c₀.stack) :
    Enumerates c₀.stack.length (log ++ [⟨c, a, .returned v, c'⟩]) v
      (c₀.st.rt.keys (c₀.st.rt.regions p).children) := by
  obtain ⟨s, stack⟩ := c
  obtain rfl : stack = .each x :: c₀.stack := hstack
  have hkeys : (c₀.st.rt.keys (c₀.st.rt.regions p).children).length
      = (c₀.st.rt.regions p).children.length := List.length_map ..
  have hlt : i < (c₀.st.rt.regions p).children.length :=
    (List.getElem?_eq_some_iff.mp hin.cursor).1
  cases a with
  | tau => cases hs
  | call q =>
    obtain ⟨l, hl⟩ := (Step.of_step hs).call_push
    have hlength := congrArg List.length hl
    rw [hback] at hlength
    simp at hlength
    omega
  | ret r =>
    cases r with
    | visited ret =>
      let m : Move := ⟨⟨s, .each x :: c₀.stack⟩, .ret (.visited ret), .returned v, c'⟩
      have hnames : (log ++ [m]).filterMap (·.names c₀.stack.length)
          = (c₀.st.rt.keys (c₀.st.rt.regions p).children).take (i + 1) := by
        rw [List.filterMap_append, hin.names]
        simp [m, Move.names]
      have hanswers : (log ++ [m]).filterMap (·.answer c₀.stack.length)
          = List.replicate i xyOk ++ [ret] := by
        rw [List.filterMap_append, hin.answers]
        simp [m, Move.answer]
      have hreturned : v = .int ret
          ∧ (ret = xyOk → (c₀.st.rt.regions p).children.length = i + 1) := by
        have hret : retVisit s c₀.stack x ret = .next c' (.returned v) := hs
        unfold retVisit at hret
        split at hret
        · next hok =>
          rw [show ((s.rt.regions x).parent.bind fun q => nextIn x (s.rt.regions q).children) = _
            from next_child h₀ h hkept hp hin.cursor] at hret
          cases hy : (c₀.st.rt.regions p).children[i + 1]? with
          | none =>
            rw [hy] at hret
            cases hret
            have hend := List.getElem?_eq_none_iff.mp hy
            exact ⟨by rw [hok], fun _ => by omega⟩
          | some y =>
            rw [hy] at hret
            cases hret
        · next hnot =>
          cases hret
          exact ⟨rfl, fun hok => absurd hok hnot⟩
      refine ⟨?_, ?_, ?_, ?_, ?_⟩
      · rw [hnames, hanswers]
        simp
      · rw [hanswers, hkeys]
        simp
        omega
      · rw [hanswers, List.dropLast_concat]
        exact fun y hy => List.eq_of_mem_replicate hy
      · intro hall
        rw [hanswers] at hall ⊢
        rw [hkeys, hreturned.2 (hall ret (by simp))]
        simp
      · rw [hanswers, hreturned.1]
        simp
    | _ => cases hs

/-- `xy_region_each` names the children that the region has when it is called, the
youngest first. -/
theorem each_youngest_first {p : Nat} {v : Value} (h : Reachable w c)
    (hcur : c.st.tls.current.entry = some p) (hcall : CallRun w c .regionEach log v c') :
    Enumerates c.stack.length log v (c.st.rt.keys (c.st.rt.created p).reverse) := by
  have hp : p < c.st.rt.nregions := (Config.Wf.of_reachable h).current p hcur
  rw [← children_eq_reverse h hp]
  have hbegin : ∀ {c₁ : Config} {ev : Event}, Xylem.step w c (.call .regionEach) = .next c₁ ev →
      visit c.st c.stack (c.st.rt.regions p).children.head? = .next c₁ ev := by
    intro c₁ ev hs
    unfold Xylem.step at hs
    dsimp only at hs
    split at hs
    · simp only [beginCall, beginEach, hcur] at hs
      exact hs
    · cases hs
  cases hcall with
  | atOnce hs hk =>
    have hvisit := hbegin hs
    cases hfirst : (c.st.rt.regions p).children.head? with
    | none =>
      rw [hfirst] at hvisit
      cases hvisit
      have hnil := List.head?_eq_none_iff.mp hfirst
      constructor
      all_goals simp [Move.names, Move.answer, hnil, Runtime.keys]
    | some x =>
      rw [hfirst] at hvisit
      cases hvisit
  | @later c₁ c₂ _ a ev inner _ hs hin hret hk =>
    have hvisit := hbegin hs
    cases hfirst : (c.st.rt.regions p).children.head? with
    | none =>
      rw [hfirst] at hvisit
      cases hvisit
      exact absurd hin.length_start (Nat.lt_irrefl _)
    | some x =>
      rw [hfirst] at hvisit
      cases hvisit
      have hx : (c.st.rt.regions p).children[0]? = some x := by
        rw [← List.head?_eq_getElem?]
        exact hfirst
      have hstart : InEach c (c.st.rt.regions p).children
          [⟨c, .call .regionEach, .enterVisit (c.st.rt.regions x).id (c.st.rt.regions x).plen,
            ⟨c.st, .each x :: c.stack⟩⟩] ⟨c.st, .each x :: c.stack⟩ 0 x := by
        refine ⟨hx, ⟨[], rfl⟩, ?_, ?_⟩
        · rw [keys_take_succ hx]
          simp [Move.names, RegionNode.key]
        · simp [Move.answer]
      have hreach₁ : Reachable w ⟨c.st, .each x :: c.stack⟩ := h.step trivial ⟨_, hs⟩
      have hsame : c.st.rt.RegionsKept c.st.rt := .of_tree rfl
      obtain ⟨i, y, hend⟩ := hstart.run h hreach₁ hsame hp hin
      have hstack : c₂.stack = .each y :: c.stack := by
        obtain ⟨l, hl⟩ := hend.stack
        obtain ⟨f, -, htop⟩ := hin.returning (l := []) rfl hret hk
        rw [htop] at hl ⊢
        cases l with
        | nil => exact hl
        | cons g l =>
          have hlength := congrArg List.length hl
          simp at hlength
          omega
      exact hend.returns h (hin.reachable (fun _ _ => trivial) hreach₁)
        (hin.regionsKept (.of_reachable hreach₁)).2 hp hstack hret hk

/-- It names them in the order of their creation exactly when there is at most one. -/
theorem each_in_order_iff {p : Nat} {v : Value} (h : Reachable w c)
    (hcur : c.st.tls.current.entry = some p) (hcall : CallRun w c .regionEach log v c') :
    Enumerates c.stack.length log v (c.st.rt.keys (c.st.rt.created p))
      ↔ (c.st.rt.created p).length ≤ 1 := by
  have hyoung := each_youngest_first h hcur hcall
  have hreverse : c.st.rt.keys (c.st.rt.created p).reverse
      = (c.st.rt.keys (c.st.rt.created p)).reverse := List.map_reverse
  have hlength : (c.st.rt.keys (c.st.rt.created p)).length = (c.st.rt.created p).length :=
    List.length_map ..
  have hnodup : (c.st.rt.keys (c.st.rt.created p)).Nodup := by
    apply List.Nodup.map_on _ (c.st.rt.nodup_created p)
    intro x hx y hy hkey
    exact (Config.Wf.of_reachable h).tree.key_inj (Runtime.mem_created.mp hx).1
      (Runtime.mem_created.mp hy).1 hkey
  rw [hreverse] at hyoung
  rw [← hlength]
  generalize c.st.rt.keys (c.st.rt.created p) = xs at hyoung hnodup
  constructor
  · intro hold
    by_contra hlong
    have hcalled : 0 < (log.filterMap (·.answer c.stack.length)).length := by
      by_contra hnone
      have hnil : log.filterMap (·.answer c.stack.length) = [] :=
        List.length_eq_zero_iff.mp (by omega)
      have hcomplete := hold.complete (by simp [hnil])
      omega
    have hsame := congrArg List.head? (hold.names.symm.trans hyoung.names)
    rw [List.head?_take, List.head?_take, if_neg (by omega), if_neg (by omega),
      List.head?_reverse] at hsame
    match xs, hnodup with
    | [], _ => simp at hlong
    | [_], _ => simp at hlong
    | x :: y :: xs, hnodup =>
      rw [List.head?_cons, List.getLast?_cons_cons] at hsame
      exact (List.nodup_cons.mp hnodup).1 (List.mem_of_getLast? hsame.symm)
  · intro hshort
    have hrev : xs.reverse = xs := by
      match xs, hshort with
      | [], _ => rfl
      | [_], _ => rfl
    rwa [hrev] at hyoung

end

/-- The root has one child, and its callback stops the enumeration. -/
theorem each_in_order_of_one :
    let c := (Config.boot sampleHook).after sampleWorld
      [.call (.claimAt 0x1000000000000 16 none), .call (.claimAt 0 0 none)]
    ∃ log c', CallRun sampleWorld c .regionEach log (.int 5) c'
      ∧ Enumerates c.stack.length log (.int 5) (c.st.rt.keys (c.st.rt.created 0)) := by
  intro c
  have hrun : CallRun sampleWorld c .regionEach _ (.int 5) _ :=
    .of_actions (l := []) (a := .ret (.visited 5)) (List.length_eq_zero_iff.mp (by decide +kernel))
      (by decide +kernel) (by decide +kernel) (by decide +kernel)
  have hreach : Reachable sampleWorld c :=
    ReachableBy.after (.start (Config.boot_initial _)) fun _ _ _ => trivial
  exact ⟨_, _, hrun, (each_in_order_iff hreach (p := 0) (by decide +kernel) hrun).mpr
    (by decide +kernel)⟩

/-- The root has two children, and the one that was made last is named first. -/
theorem not_each_in_order :
    let c := (Config.boot sampleHook).after sampleWorld
      [.call (.claimAt 0x1000000000000 16 none), .call (.claimAt 0x2000000000000 16 none),
        .call (.claimAt 0 0 none)]
    ∃ log c', CallRun sampleWorld c .regionEach log (.int xyOk) c'
      ∧ log.filterMap (·.names c.stack.length) = [⟨0x2000000000000, 16⟩, ⟨0x1000000000000, 16⟩]
      ∧ ¬ Enumerates c.stack.length log (.int xyOk) (c.st.rt.keys (c.st.rt.created 0)) := by
  intro c
  let l : List Action := [.ret (.visited xyOk)]
  let log := movesOf sampleWorld c (.call .regionEach :: l)
    ++ movesOf sampleWorld (c.after sampleWorld (.call .regionEach :: l)) [.ret (.visited xyOk)]
  have hrun : CallRun sampleWorld c .regionEach log (.int xyOk) _ :=
    .of_actions (List.length_eq_zero_iff.mp (by decide +kernel)) (by decide +kernel)
      (by decide +kernel) (by decide +kernel)
  have hnames : log.filterMap (·.names c.stack.length)
      = [⟨0x2000000000000, 16⟩, ⟨0x1000000000000, 16⟩] := by decide +kernel
  refine ⟨log, _, hrun, hnames, fun h => ?_⟩
  have horder := h.names
  rw [hnames] at horder
  revert horder
  decide +kernel

end Xylem
