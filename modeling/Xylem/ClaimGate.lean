import Xylem.Table
import Xylem.Chaining

/-!
# The claim gate

A load into a region that requires a claim goes through the steps of `_mod_load`
with the gate between the binding of the context and the link.  `InGate` says
where such a load stands and what its moves have been so far; the moves of the
load itself are those made with its frame on top.

The gate is tested after the module's constructors have run, and the entry is
re-keyed by a lookup under the key that it was published with.  `Move.Guarded`
says that neither has been interfered with; `claimGate_iff` that a load which
succeeds has passed the gate exactly then.
-/

namespace Xylem

open Xylem.Runtime

/-! ## The moves of a load -/

/-- The call above `n` calls makes the move. -/
def Move.Own (n : Nat) (m : Move) : Prop := m.before.stack.length = n + 1

/-- Whether the load above `n` calls asks a claim handler. -/
def Move.asks (n : Nat) (m : Move) : Bool :=
  match m.event with
  | .enterHandler _ _ => m.before.stack.length == n + 1
  | _ => false

/-- Whether the claim handler answers the load above `n` calls. -/
def Move.answers (n : Nat) (m : Move) : Bool :=
  match m.act with
  | .ret (.granted _ _) => m.before.stack.length == n + 1
  | _ => false

/-- Whether the load above `n` calls enters `xy_install`. -/
def Move.installs (n : Nat) (m : Move) : Bool :=
  match m.event with
  | .enterInstall _ => m.before.stack.length == n + 1
  | _ => false

/-- When the load above `n` calls comes to the gate of `r`, the gate is up, or
the region and the module agree on a claim anyway; and when it re-keys its entry,
the table yields this entry. -/
def Move.Guarded (w : World) (r : RegionRef) (n : Nat) (m : Move) : Prop :=
  match m.before.stack with
  | .load tx .claim :: k => k.length = n →
    (m.before.st.rt.regions r).requireClaim = true
      ∨ ((m.before.st.rt.regions r).claimHandler ≠ none ∧ w.dlsym tx.handle .xyClaim ≠ none)
  | .load tx (.rekey _) :: k => k.length = n →
    m.before.st.rt.modHd.lookup tx.lookup.key = tx.modEntry
  | _ => True

instance (w : World) (r : RegionRef) (n : Nat) (m : Move) : Decidable (m.Guarded w r n) := by
  unfold Move.Guarded
  generalize m.before.stack = k
  induction k using List.casesOn with
  | nil => infer_instance
  | cons f k =>
    induction f using Frame.casesOn with
    | load tx pc => induction pc using LoadPc.casesOn <;> infer_instance
    | _ => infer_instance

/-! ## What a load through the gate has done -/

/-- The module of the object `h` asks for `bits` bits, and the handler of `r` has
been asked for them once. -/
structure Asked (w : World) (r : RegionRef) (n : Nat) (log : List Move) (h : Handle) (bits : Nat) :
    Prop where
  opened : ∃ m ∈ log, m.Own n ∧ m.act = .ret (.dlopened (some h))
  exports : (w.dlsym h .xyClaim).map w.claimBits = some bits
  range : 0 < bits ∧ bits ≤ 64
  asked : ∃ m fn, log.filter (·.asks n) = [m] ∧ m.event = .enterHandler fn bits
    ∧ (m.before.st.rt.regions r).claimHandler = some fn

/-- The handler has granted `g` bits, and `child` is the new region. -/
structure Granted (w : World) (c₀ : Config) (r : RegionRef) (log : List Move) (c : Config)
    (h : Handle) (bits g : Nat) (child : RegionRef) : Prop
    extends Asked w r c₀.stack.length log h bits where
  answered : ∃ m, log.filter (·.answers c₀.stack.length) = [m]
    ∧ m.act = .ret (.granted xyOk g)
  width : 0 < g ∧ g ≤ 64
  fresh : c₀.st.rt.nregions ≤ child
  made : child < c.st.rt.nregions
  parent : (c.st.rt.regions child).parent = some r
  plen : (c.st.rt.regions child).plen = (c.st.rt.regions r).plen + g

/-- The move enters the `xy_install` of the entry `e`, which is the module `fname`
in the object `h`, linked into the region `home`. -/
def Move.Installs (w : World) (fname : CStr) (h : Handle) (e : EntryRef) (home : RegionRef)
    (m : Move) : Prop :=
  m.event = .enterInstall e ∧ ∃ me, m.after.st.rt.mods e = some me ∧ me.handle = h
    ∧ me.loadPath = w.loadPath fname ∧ me.regionEntry = some home

/-- The load of `fname` into `r`, called in `c₀`, has gone through the gate: its
module runs in a region that was made for it. -/
structure ClaimedLoad (w : World) (c₀ : Config) (fname : CStr) (r : RegionRef) (log : List Move)
    (c : Config) (h : Handle) (bits g : Nat) (e : EntryRef) (child : RegionRef) : Prop
    extends Granted w c₀ r log c h bits g child where
  installed : ∃ m, log.filter (·.installs c₀.stack.length) = [m] ∧ m.Installs w fname h e child
    ∧ m.after.st.tls.current = ⟨(c.st.rt.regions child).id, some child⟩
  ends : ∀ me, c.st.rt.mods e = some me → me.regionEntry = some child

/-! ## Where a load stands -/

/-- The entry is what the load has filled in, under the identity `key`. -/
def LoadTxn.Keeps (w : World) (tx : LoadTxn) (me : ModEntry) (key : RegionKey) : Prop :=
  me.handle = tx.handle ∧ me.loadPath = w.loadPath tx.fname ∧ me.regionId = key.id
    ∧ me.regionPlen = key.plen

/-- No handler has been asked and no `xy_install` has been entered. -/
structure Unasked (n : Nat) (log : List Move) : Prop where
  asks : log.filter (·.asks n) = []
  answers : log.filter (·.answers n) = []
  installs : log.filter (·.installs n) = []

/-- The load has its entry under the identity `key`. -/
def LoadTxn.EntryKeeps (w : World) (c : Config) (tx : LoadTxn) (key : RegionKey) : Prop :=
  ∀ e ∈ tx.modEntry, ∀ me, c.st.rt.mods e = some me → tx.Keeps w me key

/-- The load has linked its entry into `home`. -/
def LoadTxn.EntryLinked (w : World) (c : Config) (tx : LoadTxn) (home : RegionRef) : Prop :=
  ∃ e me, tx.modEntry = some e ∧ c.st.rt.mods e = some me ∧ me.handle = tx.handle
    ∧ me.loadPath = w.loadPath tx.fname ∧ me.regionEntry = some home

/-- On the way to the gate, with the object open. -/
structure ToGate (w : World) (n : Nat) (r : RegionRef) (log : List Move) (h : Handle) : Prop where
  quiet : Unasked n log
  opened : ∃ m ∈ log, m.Own n ∧ m.act = .ret (.dlopened (some h))
  guarded : ∀ m ∈ log, m.Guarded w r n

/-- Past the gate, on the way to `xy_install`. -/
structure PastGate (w : World) (c₀ : Config) (r : RegionRef) (log : List Move) (c : Config)
    (h : Handle) (bits g : Nat) (child : RegionRef) : Prop where
  granted : Granted w c₀ r log c h bits g child
  installs : log.filter (·.installs c₀.stack.length) = []
  current : c.st.tls.current = ⟨(c.st.rt.regions child).id, some child⟩
  guarded : ∀ m ∈ log, m.Guarded w r c₀.stack.length

/-- Round the gate, on the way to `xy_install`. -/
structure RoundGate (w : World) (n : Nat) (r : RegionRef) (log : List Move) : Prop where
  installs : log.filter (·.installs n) = []
  bad : ∃ m ∈ log, ¬ m.Guarded w r n

/-- Where the load of `tx`, called in `c₀` into `r`, stands after the moves
`log`. -/
inductive GatePhase (w : World) (c₀ : Config) (r : RegionRef) (log : List Move) (c : Config)
    (tx : LoadTxn) : LoadPc → Prop
  | opening (hq : Unasked c₀.stack.length log)
      (hg : ∀ m ∈ log, m.Guarded w r c₀.stack.length) : GatePhase w c₀ r log c tx .opening
  | opened (hto : ToGate w c₀.stack.length r log tx.handle) : GatePhase w c₀ r log c tx .opened
  | bind (hto : ToGate w c₀.stack.length r log tx.handle)
      (he : tx.EntryKeeps w c tx.inheritedKey) : GatePhase w c₀ r log c tx .bind
  | claim (hto : ToGate w c₀.stack.length r log tx.handle)
      (he : tx.EntryKeeps w c tx.inheritedKey) : GatePhase w c₀ r log c tx .claim
  | handler {bits : Nat} (hask : Asked w r c₀.stack.length log tx.handle bits)
      (hans : log.filter (·.answers c₀.stack.length) = [])
      (hinst : log.filter (·.installs c₀.stack.length) = [])
      (he : tx.EntryKeeps w c tx.inheritedKey)
      (hg : ∀ m ∈ log, m.Guarded w r c₀.stack.length) : GatePhase w c₀ r log c tx (.handler r)
  | rekey {bits g : Nat} {child : RegionRef} {key : RegionKey}
      (hkey : (c.st.rt.regions child).key = key)
      (hpast : PastGate w c₀ r log c tx.handle bits g child)
      (he : tx.EntryKeeps w c tx.inheritedKey) : GatePhase w c₀ r log c tx (.rekey key)
  | link {bits g : Nat} {child : RegionRef}
      (hpast : PastGate w c₀ r log c tx.handle bits g child)
      (he : tx.EntryKeeps w c (c.st.rt.regions child).key) : GatePhase w c₀ r log c tx .link
  | linkFlat (hround : RoundGate w c₀.stack.length r log)
      (he : tx.EntryKeeps w c tx.inheritedKey) : GatePhase w c₀ r log c tx .link
  | install {bits g : Nat} {child : RegionRef}
      (hpast : PastGate w c₀ r log c tx.handle bits g child) (he : tx.EntryLinked w c child) :
      GatePhase w c₀ r log c tx .install
  | installFlat (hround : RoundGate w c₀.stack.length r log) (he : tx.EntryLinked w c r) :
      GatePhase w c₀ r log c tx .install
  | installing {bits g : Nat} {e : EntryRef} {child : RegionRef} {prev : Option EntryRef}
      (hcl : ClaimedLoad w c₀ tx.fname r log c tx.handle bits g e child)
      (hlt : e < c.st.rt.nmods)
      (habove : SparesAbove w c.st.rt e child (c₀.stack.length + 1) c.stack)
      (hg : ∀ m ∈ log, m.Guarded w r c₀.stack.length) :
      GatePhase w c₀ r log c tx (.installing prev)
  | installingFlat {e : EntryRef} {prev : Option EntryRef} {m : Move}
      (hinst : log.filter (·.installs c₀.stack.length) = [m])
      (hm : m.Installs w tx.fname tx.handle e r)
      (hbad : ∃ m ∈ log, ¬ m.Guarded w r c₀.stack.length) :
      GatePhase w c₀ r log c tx (.installing prev)
  | aborting {err : Int} (hinst : log.filter (·.installs c₀.stack.length) = []) (herr : err ≠ xyOk) :
      GatePhase w c₀ r log c tx (.aborting err)

/-- What holds of a load into `r`, called in `c₀`, while it is in progress. -/
structure InGate (w : World) (c₀ : Config) (fname : CStr) (r : RegionRef) (log : List Move)
    (c : Config) : Prop where
  lt : r < c.st.rt.nregions
  old : r < c₀.st.rt.nregions
  grown : c₀.st.rt.nregions ≤ c.st.rt.nregions
  frame : ∃ l tx pc, c.stack = l ++ .load tx pc :: c₀.stack ∧ tx.lookup.entry = none
    ∧ tx.fname = fname ∧ (c.st.rt.regions r).key = tx.inheritedKey
    ∧ GatePhase w c₀ r log c tx pc

section

variable {w : World} {c₀ c c' : Config} {a : Action} {ev : Event} {fname : CStr} {r : Nat}
  {log : List Move} {m : Move} {tx : LoadTxn} {n : Nat}

/-! ## Longer logs -/

/-- The move neither asks a handler, nor answers, nor enters `xy_install`. -/
structure Move.Aside (n : Nat) (m : Move) : Prop where
  asks : m.asks n = false
  answers : m.answers n = false
  installs : m.installs n = false

theorem filter_concat_false {p : Move → Bool} (h : p m = false) :
    (log ++ [m]).filter p = log.filter p := by
  simp [List.filter_append, h]

theorem filter_concat_single {p : Move → Bool} (hlog : log.filter p = []) (h : p m = true) :
    (log ++ [m]).filter p = [m] := by
  simp [List.filter_append, hlog, h]

theorem Move.Aside.of_length (h : m.before.stack.length ≠ n + 1) : m.Aside n := by
  have hne : (m.before.stack.length == n + 1) = false := by simpa using h
  constructor
  · unfold Move.asks
    split
    · exact hne
    · rfl
  · unfold Move.answers
    split
    · exact hne
    · rfl
  · unfold Move.installs
    split
    · exact hne
    · rfl

/-- A step of the host that enters neither. -/
theorem Move.Aside.of_event (hask : ∀ fn bits, m.event ≠ .enterHandler fn bits)
    (hinst : ∀ e, m.event ≠ .enterInstall e) (hact : ∀ ret bits, m.act ≠ .ret (.granted ret bits)) :
    m.Aside n := by
  constructor
  · unfold Move.asks
    split
    · next fn bits hev => exact absurd hev (hask fn bits)
    · rfl
  · unfold Move.answers
    split
    · next ret bits ha => exact absurd ha (hact ret bits)
    · rfl
  · unfold Move.installs
    split
    · next e hev => exact absurd hev (hinst e)
    · rfl

theorem Unasked.concat (h : Unasked n log) (hm : m.Aside n) : Unasked n (log ++ [m]) where
  asks := (filter_concat_false hm.asks).trans h.asks
  answers := (filter_concat_false hm.answers).trans h.answers
  installs := (filter_concat_false hm.installs).trans h.installs

theorem exists_mem_concat {P : Move → Prop} (h : ∃ x ∈ log, P x) : ∃ x ∈ log ++ [m], P x := by
  obtain ⟨x, hx, hp⟩ := h
  exact ⟨x, List.mem_append_left _ hx, hp⟩

theorem forall_mem_concat {P : Move → Prop} (h : ∀ x ∈ log, P x) (hm : P m) :
    ∀ x ∈ log ++ [m], P x := by
  intro x hx
  rcases List.mem_append.mp hx with hx | hx
  · exact h x hx
  · rw [List.mem_singleton.mp hx]
    exact hm

theorem Asked.concat {h : Handle} {bits : Nat} (hask : Asked w r n log h bits)
    (hm : m.asks n = false) : Asked w r n (log ++ [m]) h bits where
  opened := exists_mem_concat hask.opened
  exports := hask.exports
  range := hask.range
  asked := by
    obtain ⟨x, fn, hx, hev, hfn⟩ := hask.asked
    exact ⟨x, fn, (filter_concat_false hm).trans hx, hev, hfn⟩

theorem RegionNode.plen_eq {x y : RegionNode} (h : x.key = y.key) : x.plen = y.plen :=
  congrArg RegionKey.plen h

theorem RegionNode.id_eq {x y : RegionNode} (h : x.key = y.key) : x.id = y.id :=
  congrArg RegionKey.id h

theorem Granted.concat {h : Handle} {bits g : Nat} {child : RegionRef}
    (hgr : Granted w c₀ r log c h bits g child) (hask : m.asks c₀.stack.length = false)
    (hans : m.answers c₀.stack.length = false)
    (hr : r < c.st.rt.nregions) (hk : c.st.rt.RegionsKept c'.st.rt) :
    Granted w c₀ r (log ++ [m]) c' h bits g child where
  toAsked := hgr.toAsked.concat hask
  answered := by
    obtain ⟨x, hx, ha⟩ := hgr.answered
    exact ⟨x, (filter_concat_false hans).trans hx, ha⟩
  width := hgr.width
  fresh := hgr.fresh
  made := Nat.lt_of_lt_of_le hgr.made hk.count
  parent := (hk.parent child hgr.made).trans hgr.parent
  plen := by
    rw [RegionNode.plen_eq (hk.key child hgr.made), RegionNode.plen_eq (hk.key r hr)]
    exact hgr.plen

theorem Move.Guarded.of_length (h : m.before.stack.length ≠ n + 1) : m.Guarded w r n := by
  unfold Move.Guarded
  split
  · next tx k hstack =>
    intro hk
    rw [hstack] at h
    exact absurd (congrArg (· + 1) hk) h
  · next tx child k hstack =>
    intro hk
    rw [hstack] at h
    exact absurd (congrArg (· + 1) hk) h
  · trivial

theorem Move.Guarded.of_top {f : Frame} {k : List Frame} (h : m.before.stack = f :: k)
    (hclaim : ∀ tx, f ≠ .load tx .claim) (hrekey : ∀ tx child, f ≠ .load tx (.rekey child)) :
    m.Guarded w r n := by
  unfold Move.Guarded
  split
  · next tx k hstack =>
    rw [h] at hstack
    exact absurd (List.cons.inj hstack).1 (hclaim tx)
  · next tx child k hstack =>
    rw [h] at hstack
    exact absurd (List.cons.inj hstack).1 (hrekey tx child)
  · trivial

/-! ## Moves above the load, and calls of the module it runs -/

/-- The load waits for its module, and another call moves or the module makes
one. -/
structure Elsewhere (c₀ c c' : Config) (tx : LoadTxn) (pc : LoadPc) (a : Action) : Prop where
  waiting : (Frame.load tx pc).waiting = true
  frame : ∃ l, c.stack = l ++ .load tx pc :: c₀.stack
  frame' : ∃ l, c'.stack = l ++ .load tx pc :: c₀.stack
  own : c.stack.length = c₀.stack.length + 1 → ∃ q, a = .call q

variable {pc : LoadPc}

theorem Elsewhere.deep (h : Elsewhere c₀ c c' tx pc a) (ha : ∀ q, a ≠ .call q) :
    c₀.stack.length + 1 < c.stack.length := by
  obtain ⟨l, hl⟩ := h.frame
  have hne : c.stack.length ≠ c₀.stack.length + 1 := fun hlen => by
    obtain ⟨q, hq⟩ := h.own hlen
    exact ha q hq
  have hle : c₀.stack.length + 1 ≤ c.stack.length := by
    rw [hl]
    simp
  omega

theorem Elsewhere.below (h : Elsewhere c₀ c c' tx pc a) : (.load tx pc) ∈ c.below a := by
  obtain ⟨l, hl⟩ := h.frame
  have hmem : (.load tx pc) ∈ c.stack := by
    rw [hl]
    exact List.mem_append_right _ List.mem_cons_self
  cases a with
  | call q => exact hmem
  | tau | ret =>
    have hdeep := h.deep (by simp)
    rw [hl] at hdeep
    obtain ⟨f, l, rfl⟩ := List.exists_cons_of_ne_nil (l := l) (by
      rintro rfl
      simp at hdeep)
    simp only [Config.below, hl, List.cons_append, List.tail_cons]
    exact List.mem_append_right _ List.mem_cons_self

theorem Elsewhere.of_step (hs : step w c a = .next c' ev) (hp : c.Parked)
    (hstack : ∃ l, c.stack = l ++ .load tx pc :: c₀.stack)
    (hown : c.stack.length = c₀.stack.length + 1 → ∃ q, a = .call q) :
    Elsewhere c₀ c c' tx pc a := by
  obtain ⟨l, hl⟩ := hstack
  by_cases hnil : l = []
  · subst hnil
    obtain ⟨q, rfl⟩ := hown (by rw [hl]; rfl)
    have hw := step_call_waiting hs
    unfold Config.waiting at hw
    rw [hl] at hw
    obtain ⟨l', hl'⟩ := (Step.of_step hs).call_push
    exact ⟨hw, ⟨[], hl⟩, ⟨l', hl'.trans (by rw [hl]; rfl)⟩, hown⟩
  · have hparked : (Frame.load tx pc).parked = true := by
      refine hp _ ?_
      obtain ⟨f, l, rfl⟩ := List.exists_cons_of_ne_nil hnil
      rw [hl]
      exact List.mem_append_right _ List.mem_cons_self
    exact ⟨hparked, ⟨l, hl⟩, (Step.of_step hs).over hl hnil nofun, hown⟩

theorem Elsewhere.aside (h : Elsewhere c₀ c c' tx pc a) (hs : step w c a = .next c' ev) :
    (⟨c, a, ev, c'⟩ : Move).Aside c₀.stack.length
      ∧ (⟨c, a, ev, c'⟩ : Move).Guarded w r c₀.stack.length := by
  by_cases hlen : c.stack.length = c₀.stack.length + 1
  · obtain ⟨l, hl⟩ := h.frame
    obtain rfl : l = [] := by
      rw [hl] at hlen
      simpa using hlen
    obtain ⟨q, rfl⟩ := h.own hlen
    obtain ⟨hask, hinst⟩ := (Step.of_step hs).call_event
    refine ⟨.of_event hask hinst nofun, .of_top (f := .load tx pc) hl ?_ ?_⟩
    · rintro tx' ⟨rfl, rfl⟩
      cases h.waiting
    · rintro tx' child ⟨rfl, rfl⟩
      cases h.waiting
  · exact ⟨.of_length hlen, .of_length hlen⟩

/-- What a load waits for does not change where it stands. -/
theorem GatePhase.elsewhere (hwf : c.Wf w) (h : GatePhase w c₀ r log c tx pc)
    (he : Elsewhere c₀ c c' tx pc a) (hr : r < c.st.rt.nregions)
    (hs : step w c a = .next c' ev) :
    GatePhase w c₀ r (log ++ [⟨c, a, ev, c'⟩]) c' tx pc := by
  have hstep := Step.of_step hs
  have heff := hstep.effect hwf
  obtain ⟨haside, hguard⟩ := he.aside (r := r) hs
  have hkept : c.st.rt.RegionsKept c'.st.rt := by
    obtain ⟨l, hl⟩ := he.frame
    exact heff.kept (step_ne_shutdown hs (by rw [hl]; simp))
  have hwait := he.waiting
  cases h with
  | opening hq hg => exact .opening (hq.concat haside) (forall_mem_concat hg hguard)
  | opened | bind | claim | rekey | link | linkFlat | install | installFlat => cases hwait
  | handler hask hans hinst hentry hg =>
    refine .handler (hask.concat haside.asks) ((filter_concat_false haside.answers).trans hans)
      ((filter_concat_false haside.installs).trans hinst) (fun e hmod me' hme' => ?_)
      (forall_mem_concat hg hguard)
    obtain ⟨me, hme, hhandle, hpath, hid, hplen⟩ := heff.raw_entry hwf he.below (e := e)
      (by simp only [Frame.raw, LoadPc.raw, if_true]; exact hmod) hme'
    obtain ⟨h1, h2, h3, h4⟩ := hentry e hmod me hme
    exact ⟨hhandle.trans h1, hpath.trans h2, hid.trans h3, hplen.trans h4⟩
  | installing hcl hlt habove hg =>
    have htau : a = .tau → c₀.stack.length + 1 < c.stack.length := fun ha =>
      he.deep (by rw [ha]; simp)
    have hnmods := heff.nmods_le hwf
    refine .installing
      { toGranted := hcl.toGranted.concat haside.asks haside.answers hr hkept, installed := ?_, ends := ?_ }
      (Nat.lt_of_lt_of_le hlt hnmods) (hstep.spares hwf hlt hcl.ends htau habove)
      (forall_mem_concat hg hguard)
    · obtain ⟨x, hx, hev, hcur⟩ := hcl.installed
      refine ⟨x, (filter_concat_false haside.installs).trans hx, hev, ?_⟩
      rw [RegionNode.id_eq (hkept.key _ hcl.made)]
      exact hcur
    · exact heff.stays hlt hcl.ends htau habove
  | installingFlat hinst hm hbad =>
    exact .installingFlat ((filter_concat_false haside.installs).trans hinst) hm
      (exists_mem_concat hbad)
  | aborting => cases hwait

/-! ## The moves of the load itself -/

/-- A load goes round the gate when it is down, and the region and the module do
not agree on a claim. -/
theorem modLoadClaimGate_flat {s : State} {r : RegionRef} (hreg : tx.inheritedReg = some r) :
    modLoadClaimGate w s tx = .flat ↔ ¬ ((s.rt.regions r).requireClaim = true
      ∨ ((s.rt.regions r).claimHandler ≠ none ∧ w.dlsym tx.handle .xyClaim ≠ none)) := by
  unfold modLoadClaimGate
  rw [hreg]
  cases hclaim : w.dlsym tx.handle .xyClaim with
  | none =>
    dsimp only [Option.map_none]
    cases hreq : (s.rt.regions r).requireClaim <;> simp
  | some x =>
    dsimp only [Option.map_some]
    split
    · next h =>
      obtain ⟨hhandler, hreq⟩ := h
      simp only [Option.isNone_iff_eq_none] at hhandler
      simp [hhandler, hreq]
    · next h =>
      have hup : (s.rt.regions r).requireClaim = true
          ∨ ((s.rt.regions r).claimHandler ≠ none ∧ some x ≠ none) := by
        cases hreq : (s.rt.regions r).requireClaim with
        | true => exact Or.inl rfl
        | false =>
          refine Or.inr ⟨fun hnone => h ⟨?_, hreq⟩, by simp⟩
          rw [hnone]
          rfl
      refine iff_of_false ?_ (not_not.mpr hup)
      split
      · exact nofun
      · split
        · exact nofun
        · split <;> exact nofun

theorem modLoadClaimGate_asked {s : State} {parent : RegionRef} {fn : HandlerRef} {bits : Nat}
    (h : modLoadClaimGate w s tx = .ask parent fn bits) :
    (w.dlsym tx.handle .xyClaim).map w.claimBits = some bits ∧ (0 < bits ∧ bits ≤ 64)
      ∧ (s.rt.regions parent).claimHandler = some fn := by
  unfold modLoadClaimGate at h
  split at h
  · cases h
  · split at h <;> cases h
  · next hbits =>
    split at h
    · cases h
    · split at h
      · cases h
      · next hrange =>
        split at h
        · cases h
        · split at h
          · cases h
          · next hfn =>
            cases h
            exact ⟨hbits, by omega, hfn⟩

theorem modLoadClaimGate_refused {s : State} {err : Int}
    (h : modLoadClaimGate w s tx = .refuse err) : err ≠ xyOk := by
  unfold modLoadClaimGate at h
  split at h
  · cases h
  · split at h <;> cases h
    decide
  · split at h
    · cases h
    · split at h
      · cases h
        decide
      · split at h
        · cases h
          decide
        · split at h <;> cases h
          decide

theorem xyClaimGranted_refused {s : State} {parent : RegionRef} {ret err : Int} {bits : Nat}
    (h : xyClaimGranted s parent ret bits = .error err) : err ≠ xyOk := by
  unfold xyClaimGranted at h
  split at h
  · cases h
    decide
  · split at h
    · cases h
      decide
    · dsimp only at h
      split at h <;> cases h
      decide

/-- The region that a grant makes. -/
theorem xyClaimGranted_child {s s' : State} {parent : Nat} {ret : Int} {bits : Nat}
    {child : RegionKey} (ht : s.rt.tree.Wf) (hp : parent < s.rt.nregions)
    (h : xyClaimGranted s parent ret bits = .ok (s', child)) :
    ret = xyOk ∧ (0 < bits ∧ bits ≤ 64) ∧ s'.rt.nregions = s.rt.nregions + 1
      ∧ s.rt.RegionsKept s'.rt ∧ (s'.rt.regions s.rt.nregions).key = child
      ∧ (s'.rt.regions s.rt.nregions).parent = some parent
      ∧ child.plen = (s.rt.regions parent).plen + bits
      ∧ s'.tls.current = ⟨child.id, some s.rt.nregions⟩ ∧ s'.rt.mods = s.rt.mods := by
  obtain ⟨hret, hbits, hchild, hid, hs'⟩ := xyClaimGranted_ok h
  have hslot : s.rt.regionAllocSlot parent bits = child.id := by rw [hchild]
  obtain ⟨-, hadd, -⟩ := regionAllocSlot_spec ht hp hbits hslot hid
  have hplen : child.plen = (s.rt.regions parent).plen + bits := by
    rw [hchild]
    exact Nat.mod_eq_of_lt (by
      show (s.rt.regions parent).plen + bits < 256
      have := hadd.plen_le
      omega)
  have htree : s'.rt.tree = s.rt.tree.add parent child.id child.plen bits := by
    rw [hs']
    exact addRegion_tree ..
  have hnode : (s'.rt.regions s.rt.nregions).toRegionNode
      = (s.rt.tree.add parent child.id child.plen bits).node s.rt.nregions :=
    congrFun (congrArg Tree.node htree) s.rt.nregions
  refine ⟨hret, hbits, congrArg Tree.count htree, .of_add htree, ?_, ?_, hplen, ?_, ?_⟩
  · rw [hnode]
    exact Tree.add_key_new (t := s.rt.tree) hp
  · rw [hnode]
    exact congrArg RegionNode.parent (Tree.add_node_new (t := s.rt.tree) hp)
  · rw [hs']
    rfl
  · rw [hs']
    rfl

/-- The re-keying after a claim finds the load's entry and gives it the identity
of the child, or it leaves the entry as it is. -/
theorem moduleRekeyForClaim_entry {s : State} {child : RegionKey} {e : EntryRef} {me' : ModEntry}
    (hkey : tx.lookup.key = modKey (w.loadPath tx.fname) tx.inheritedKey.id tx.inheritedKey.plen)
    (hkeep : ∀ me, s.rt.mods e = some me → tx.Keeps w me tx.inheritedKey)
    (hme' : (moduleRekeyForClaim w s tx.fname tx.inheritedKey child).rt.mods e = some me') :
    tx.Keeps w me' (if s.rt.modHd.lookup tx.lookup.key = some e then child else tx.inheritedKey) := by
  obtain ⟨-, hspec⟩ := moduleRekeyForClaim_spec w s tx.fname tx.inheritedKey child
  rw [← hkey] at hspec
  rcases hspec with ⟨hnone, hsame⟩ | ⟨x, hx, hrt, -⟩
  · rw [hsame] at hme'
    rw [if_neg (by rw [hnone]; simp)]
    exact hkeep me' hme'
  · rw [hrt] at hme'
    have hmod : (s.rt.modifyMod x (fun me => { me with
        regionId := child.id, regionPlen := child.plen
        modKey := modKey (w.loadPath tx.fname) child.id child.plen })).mods e = some me' := hme'
    obtain ⟨me, hme, rfl⟩ := modifyMod_some hmod
    obtain ⟨h1, h2, h3, h4⟩ := hkeep me hme
    by_cases hex : e = x
    · subst hex
      rw [if_pos rfl, if_pos hx]
      exact ⟨h1, h2, rfl, rfl⟩
    · rw [if_neg hex, if_neg (by rw [hx]; simpa using fun h => hex h.symm)]
      exact ⟨h1, h2, h3, h4⟩

/-- An entry is linked into the region of its identity. -/
theorem modLoadLink_entry {s : State} {e : EntryRef} {me : ModEntry} {r : Nat} {key : RegionKey}
    (ht : s.rt.tree.Wf) (hme : s.rt.mods e = some me) (hkeep : tx.Keeps w me key)
    (hr : r < s.rt.nregions) (hkey : (s.rt.regions r).key = key) :
    ∃ me', (modLoadLink w s tx e me).rt.mods e = some me' ∧ me'.handle = tx.handle
      ∧ me'.loadPath = w.loadPath tx.fname ∧ me'.regionEntry = some r := by
  obtain ⟨h1, h2, h3, h4⟩ := hkeep
  obtain ⟨state, hmods⟩ := linkEntry_mods s.rt e me
    (((w.dlsym tx.handle .xyRegionStateSize).map w.regionStateSize).getD 0) hme
  have hlookup : s.rt.regionLookup me.regionId me.regionPlen = some r := by
    rw [regionLookup_eq_some ht, h3, h4]
    exact ⟨hr, hkey⟩
  rw [hlookup] at hmods
  exact ⟨_, (congrFun hmods e).trans (Function.update_self ..), h1, h2, rfl⟩

theorem modLoadPrewarm_entry {s : State} {e : EntryRef} {me : ModEntry} {r : RegionRef}
    (hme : s.rt.mods e = some me) (h : me.handle = tx.handle
      ∧ me.loadPath = w.loadPath tx.fname ∧ me.regionEntry = some r) :
    ∃ me', (modLoadPrewarm w s e).rt.mods e = some me' ∧ me'.handle = tx.handle
      ∧ me'.loadPath = w.loadPath tx.fname ∧ me'.regionEntry = some r := by
  have hcore := me.core_fnCachePrewarm (w := w) s.rt.hookIdHd.entries s.rt.hookIdCounter
  obtain ⟨h1, h2, h3⟩ := h
  refine ⟨me.fnCachePrewarm w s.rt.hookIdHd.entries s.rt.hookIdCounter,
    by simp [modLoadPrewarm, modifyMod, hme], ?_⟩
  exact ⟨(congrArg ModEntry.handle hcore).trans h1, (congrArg ModEntry.loadPath hcore).trans h2,
    (congrArg ModEntry.regionEntry hcore).trans h3⟩

/-- The load goes on. -/
def Continues (w : World) (c₀ : Config) (r : RegionRef) (log : List Move) (tx : LoadTxn)
    (c' : Config) : Prop :=
  ∃ tx' pc', c'.stack = .load tx' pc' :: c₀.stack ∧ tx'.lookup = tx.lookup
    ∧ tx'.fname = tx.fname ∧ tx'.inheritedKey = tx.inheritedKey ∧ GatePhase w c₀ r log c' tx' pc'

theorem GatePhase.gate {s : State} (hwf : Config.Wf w ⟨s, .load tx .claim :: c₀.stack⟩)
    (h : GatePhase w c₀ r log ⟨s, .load tx .claim :: c₀.stack⟩ tx .claim)
    (hr : r < s.rt.nregions) (hkey : (s.rt.regions r).key = tx.inheritedKey)
    (hstep : Step w ⟨s, .load tx .claim :: c₀.stack⟩ .tau c' ev) :
    Continues w c₀ r (log ++ [⟨⟨s, .load tx .claim :: c₀.stack⟩, .tau, ev, c'⟩]) tx c' := by
  have hreg : s.rt.regionLookup tx.inheritedRegionId tx.inheritedRegionPlen = some r :=
    (regionLookup_eq_some hwf.tree).mpr ⟨hr, hkey⟩
  cases h with
  | claim hto he =>
    have hq := hto.quiet
    cases hstep with
    | claimFlat hgate =>
      refine ⟨_, _, rfl, rfl, rfl, rfl,
        .linkFlat ⟨(filter_concat_false rfl).trans hq.installs, ?_⟩ he⟩
      refine ⟨_, List.mem_append_right _ (List.mem_singleton.mpr rfl), fun hguard => ?_⟩
      exact (modLoadClaimGate_flat hreg).mp hgate (hguard rfl)
    | claimRefused hgate =>
      exact ⟨_, _, rfl, rfl, rfl, rfl, .aborting ((filter_concat_false rfl).trans hq.installs)
        (modLoadClaimGate_refused hgate)⟩
    | @claimAsked _ _ _ parent fn bits hgate =>
      obtain ⟨hbits, hrange, hfn⟩ := modLoadClaimGate_asked hgate
      have hparent := modLoadClaimGate_ask hgate
      obtain rfl : r = parent := Option.some.inj (hreg.symm.trans hparent)
      have hup : (s.rt.regions r).requireClaim = true
          ∨ ((s.rt.regions r).claimHandler ≠ none ∧ w.dlsym tx.handle .xyClaim ≠ none) := by
        by_contra hnot
        have hflat : modLoadClaimGate w (modLoadEnterContext s tx).1 (modLoadEnterContext s tx).2
            = .flat := (modLoadClaimGate_flat hreg).mpr hnot
        rw [hflat] at hgate
        cases hgate
      have hasked : Asked w r c₀.stack.length (log ++ [⟨⟨s, .load tx .claim :: c₀.stack⟩, .tau,
          .enterHandler fn bits, ⟨(modLoadEnterContext s tx).1,
            .load (modLoadEnterContext s tx).2 (.handler r) :: c₀.stack⟩⟩]) tx.handle bits :=
        ⟨exists_mem_concat hto.opened, hbits, hrange, _, fn,
          filter_concat_single hq.asks (by simp [Move.asks]), rfl, hfn⟩
      refine ⟨_, _, rfl, rfl, rfl, rfl, .handler hasked ?_ ?_ he ?_⟩
      · rw [filter_concat_false rfl, hq.answers]
      · rw [filter_concat_false rfl, hq.installs]
      · exact forall_mem_concat hto.guarded fun _ => hup

theorem GatePhase.rekeyed {s : State} {child : RegionKey} {e : EntryRef}
    (hwf : Config.Wf w ⟨s, .load tx (.rekey child) :: c₀.stack⟩)
    (h : GatePhase w c₀ r log ⟨s, .load tx (.rekey child) :: c₀.stack⟩ tx (.rekey child))
    (hr : r < s.rt.nregions) (he : tx.modEntry = some e) (hc : c' = ⟨(moduleRekeyForClaim w s
      tx.fname tx.inheritedKey child).setErr xyOk, .load tx .link :: c₀.stack⟩)
    (hstep : Step w ⟨s, .load tx (.rekey child) :: c₀.stack⟩ .tau c' .internal) :
    Continues w c₀ r
      (log ++ [⟨⟨s, .load tx (.rekey child) :: c₀.stack⟩, .tau, .internal, c'⟩]) tx c' := by
  have hok : tx.Ok w s.rt (.rekey child) := hwf.top rfl
  have hkept : s.rt.RegionsKept c'.st.rt := (hstep.effect hwf).kept fun ha => by cases ha
  have hkey : tx.lookup.key
      = modKey (w.loadPath tx.fname) tx.inheritedKey.id tx.inheritedKey.plen := hok.key
  cases h with
  | @rekey bits g ref _ hchild hpast hentry =>
    obtain ⟨hgr, hinst, hcur, hg⟩ := hpast
    have hmods : ∀ me', c'.st.rt.mods e = some me' → tx.Keeps w me'
        (if s.rt.modHd.lookup tx.lookup.key = some e then child else tx.inheritedKey) := by
      intro me' hme'
      rw [hc] at hme'
      exact moduleRekeyForClaim_entry hkey (hentry e he) hme'
    have hthis : ∀ e' ∈ tx.modEntry, e' = e := fun e' he' => by
      rw [he] at he'
      exact (Option.some.inj he').symm
    have hcur' : c'.st.tls.current = ⟨(c'.st.rt.regions ref).id, some ref⟩ := by
      have htls : c'.st.tls.current = s.tls.current := by
        rw [hc]
        exact congrArg Tls.current (moduleRekeyForClaim_spec w s tx.fname tx.inheritedKey _).1
      rw [htls, RegionNode.id_eq (hkept.key _ hgr.made)]
      exact hcur
    refine ⟨tx, .link, by rw [hc], rfl, rfl, rfl, ?_⟩
    by_cases hfound : s.rt.modHd.lookup tx.lookup.key = some e
    · refine .link ⟨hgr.concat rfl rfl hr hkept, (filter_concat_false rfl).trans hinst, hcur',
        forall_mem_concat hg fun _ => hfound.trans he.symm⟩ fun e' he' me' hme' => ?_
      obtain rfl := hthis e' he'
      have hkeeps := hmods me' hme'
      rw [if_pos hfound] at hkeeps
      rw [hkept.key _ hgr.made, hchild]
      exact hkeeps
    · refine .linkFlat ⟨(filter_concat_false rfl).trans hinst, _, List.mem_append_right _
        (List.mem_singleton.mpr rfl), fun hguard => ?_⟩ fun e' he' me' hme' => ?_
      · exact hfound ((hguard rfl).trans he)
      · obtain rfl := hthis e' he'
        have hkeeps := hmods me' hme'
        rw [if_neg hfound] at hkeeps
        exact hkeeps

theorem ToGate.concat {h : Handle} (hto : ToGate w n r log h) (haside : m.Aside n)
    (hg : m.Guarded w r n) : ToGate w n r (log ++ [m]) h :=
  ⟨hto.quiet.concat haside, exists_mem_concat hto.opened, forall_mem_concat hto.guarded hg⟩

/-- A move of the host that enters nothing. -/
theorem PastGate.concat {h : Handle} {bits g : Nat} {child : RegionRef} {s : State}
    {k : List Frame} (hpast : PastGate w c₀ r log c h bits g child) (hr : r < c.st.rt.nregions)
    (hkept : c.st.rt.RegionsKept s.rt)
    (hg : (⟨c, .tau, .internal, ⟨s, k⟩⟩ : Move).Guarded w r c₀.stack.length)
    (hcur : s.tls.current = c.st.tls.current) :
    PastGate w c₀ r (log ++ [⟨c, .tau, .internal, ⟨s, k⟩⟩]) ⟨s, k⟩ h bits g child where
  granted := hpast.granted.concat rfl rfl hr hkept
  installs := (filter_concat_false rfl).trans hpast.installs
  current := by
    show s.tls.current = ⟨(s.rt.regions child).id, some child⟩
    rw [RegionNode.id_eq (hkept.key _ hpast.granted.made), hcur]
    exact hpast.current
  guarded := forall_mem_concat hpast.guarded hg

/-- A move of the load itself, after which it is still in progress. -/
theorem GatePhase.own (hwf : c.Wf w) (h : GatePhase w c₀ r log c tx pc)
    (hstack : c.stack = .load tx pc :: c₀.stack) (hr : r < c.st.rt.nregions)
    (hnew : tx.lookup.entry = none)
    (hkey : (c.st.rt.regions r).key = tx.inheritedKey) (hle : c₀.st.rt.nregions ≤ c.st.rt.nregions)
    (ha : ∀ q, a ≠ .call q) (hlen : c₀.stack.length < c'.stack.length)
    (hstep : Step w c a c' ev) : Continues w c₀ r (log ++ [⟨c, a, ev, c'⟩]) tx c' := by
  obtain ⟨s, stack⟩ := c
  obtain rfl : stack = .load tx pc :: c₀.stack := hstack
  have hpop : ∀ {s : State} {ret : Int} {k : List Frame}, k = c₀.stack →
      resume s ret k ≠ .next c' ev := by
    rintro s ret k rfl hres
    have := (resume_spec hres).2.length
    omega
  have hkept : s.rt.RegionsKept c'.st.rt := (hstep.effect hwf).kept (ha _)
  have htop : ∀ {m : Move}, m.before.stack = .load tx pc :: c₀.stack → pc ≠ .claim →
      (∀ child, pc ≠ .rekey child) → m.Guarded w r c₀.stack.length := by
    intro m hm hclaim hrekey
    refine .of_top hm (fun tx' h => ?_) fun tx' child h => ?_
    · cases h
      exact hclaim rfl
    · cases h
      exact hrekey child rfl
  cases hstep with
  | load | unload | reload | scope | eachFirst | answered | direct | dispatchDone | dispatchLoop =>
    exact absurd rfl (ha _)
  | dlopenFailed hr' => exact absurd hr' (hpop rfl)
  | reuse hl => rw [hnew] at hl; cases hl
  | installed hr' => exact absurd hr' (hpop rfl)
  | abort ha' hr' => exact absurd hr' (hpop rfl)
  | claimFlat hg => exact h.gate hwf hr hkey (.claimFlat hg)
  | claimRefused hg => exact h.gate hwf hr hkey (.claimRefused hg)
  | claimAsked hg => exact h.gate hwf hr hkey (.claimAsked hg)
  | rekey he hme => exact h.rekeyed hwf hr he rfl (.rekey he hme)
  | dlopened =>
    cases h with
    | opening hq hg =>
      refine ⟨_, .opened, rfl, rfl, rfl, rfl,
        .opened ⟨hq.concat (.of_event (by simp) (by simp) (by simp)), ?_,
          forall_mem_concat hg (htop rfl (by simp) (by simp))⟩⟩
      exact ⟨_, List.mem_append_right _ (List.mem_singleton.mpr rfl), rfl, rfl⟩
  | publish =>
    cases h with
    | opened hto =>
      have hok : tx.Ok w s.rt .opened := hwf.top rfl
      refine ⟨_, .bind, rfl, rfl, rfl, rfl,
        .bind (hto.concat (.of_event (by simp) (by simp) (by simp)) (htop rfl (by simp) (by simp)))
          ?_⟩
      rintro e ⟨⟩ me hme
      have hfresh : some (tx.freshEntry s.tls.loadingMod) = some me := by
        simpa [modLoadAllocPublish, publishEntry] using hme
      obtain rfl := Option.some.inj hfresh
      exact ⟨rfl, hok.path, rfl, rfl⟩
  | bind =>
    cases h with
    | bind hto he =>
      refine ⟨tx, _, rfl, rfl, rfl, rfl, ?_⟩
      split
      · refine .claim (hto.concat (.of_event (by simp) (by simp) (by simp))
          (htop rfl (by simp) (by simp))) fun e hmod me' hme' => ?_
        obtain ⟨-, -, ⟨hrt, -⟩ | ⟨ctx, e', -, -, -, hrt, -⟩⟩ := modLoadBindXy_spec w s tx
        · rw [hrt] at hme'
          exact he e hmod me' hme'
        · rw [hrt] at hme'
          obtain ⟨me, hme, rfl⟩ := modifyMod_some hme'
          have hkeeps := he e hmod me hme
          split
          · exact hkeeps
          · exact hkeeps
      · next herr => exact .aborting ((filter_concat_false rfl).trans hto.quiet.installs) herr
  | notGranted hgr =>
    cases h with
    | handler hask hans hinst =>
      exact ⟨tx, _, rfl, rfl, rfl, rfl, .aborting ((filter_concat_false rfl).trans hinst)
        (xyClaimGranted_refused hgr)⟩
  | granted hgr =>
    cases h with
    | handler hask hans hinst he hg =>
      obtain ⟨rfl, hwidth, hn, -, hchild, hparent, hplen, hcur, hmods⟩ :=
        xyClaimGranted_child hwf.tree hr hgr
      refine ⟨tx, _, rfl, rfl, rfl, rfl, .rekey hchild
        ⟨{ toAsked := hask.concat rfl, answered := ?_, width := hwidth, fresh := hle, made := ?_
           parent := hparent, plen := ?_ },
          (filter_concat_false rfl).trans hinst, ?_,
          forall_mem_concat hg (htop rfl (by simp) (by simp))⟩ fun e hmod me hme => ?_⟩
      · exact ⟨_, filter_concat_single hans (by simp [Move.answers]), rfl⟩
      · rw [hn]
        exact Nat.lt_succ_self _
      · rw [RegionNode.plen_eq (hkept.key r hr)]
        exact (congrArg RegionKey.plen hchild).trans hplen
      · rw [hcur, ← hchild]
        rfl
      · rw [hmods] at hme
        exact he e hmod me hme
  | @link _ _ _ e me he hme =>
    cases h with
    | link hpast hkeeps =>
      have hlinked := modLoadLink_entry hwf.tree hme (hkeeps e he me hme) hpast.granted.made rfl
      obtain ⟨me', hme', hrest⟩ := hlinked
      exact ⟨tx, _, rfl, rfl, rfl, rfl,
        .install (hpast.concat hr hkept (htop rfl (by simp) (by simp)) rfl)
          ⟨e, me', he, hme', hrest⟩⟩
    | linkFlat hround hkeeps =>
      obtain ⟨me', hme', hrest⟩ := modLoadLink_entry hwf.tree hme (hkeeps e he me hme) hr hkey
      exact ⟨tx, _, rfl, rfl, rfl, rfl, .installFlat ⟨(filter_concat_false rfl).trans hround.installs,
        exists_mem_concat hround.bad⟩ ⟨e, me', he, hme', hrest⟩⟩
  | installMissing he hi =>
    have hinst : log.filter (·.installs c₀.stack.length) = [] := by
      cases h with
      | install hpast => exact hpast.installs
      | installFlat hround => exact hround.installs
    exact ⟨tx, _, rfl, rfl, rfl, rfl, .aborting ((filter_concat_false rfl).trans hinst) (by decide)⟩
  | @install _ _ _ e he hi =>
    cases h with
    | @install bits g child hpast hlinked =>
      obtain ⟨e', me, he', hme, hrest⟩ := hlinked
      obtain rfl : e = e' := Option.some.inj (he.symm.trans he')
      obtain ⟨me', hme', hrest'⟩ := modLoadPrewarm_entry (w := w) hme hrest
      have hlt := hwf.heap.lt_of_mods hme
      refine ⟨tx, _, rfl, rfl, rfl, rfl, .installing (e := e)
        { toGranted := hpast.granted.concat rfl rfl hr hkept
          installed := ⟨_, filter_concat_single hpast.installs (by simp [Move.installs]), ?_, ?_⟩
          ends := ?_ } hlt ?_ (forall_mem_concat hpast.guarded (htop rfl (by simp) (by simp)))⟩
      · exact ⟨rfl, me', hme', hrest'⟩
      · rw [RegionNode.id_eq (hkept.key _ hpast.granted.made)]
        exact hpast.current
      · intro me'' hme''
        obtain rfl := Option.some.inj (hme'.symm.trans hme'')
        exact hrest'.2.2
      · exact .of_length_le (by simp)
    | installFlat hround hlinked =>
      obtain ⟨e', me, he', hme, hrest⟩ := hlinked
      obtain rfl : e = e' := Option.some.inj (he.symm.trans he')
      obtain ⟨me', hme', hrest'⟩ := modLoadPrewarm_entry (w := w) hme hrest
      exact ⟨tx, _, rfl, rfl, rfl, rfl,
        .installingFlat (filter_concat_single hround.installs (by simp [Move.installs]))
          ⟨rfl, me', hme', hrest'⟩ (exists_mem_concat hround.bad)⟩

/-! ## The load from its start to its return -/

theorem InGate.step (h : InGate w c₀ fname r log c) (hwf : c.Wf w) (hp : c.Parked)
    (hs : step w c a = .next c' ev) (hlen : c₀.stack.length < c'.stack.length) :
    InGate w c₀ fname r (log ++ [⟨c, a, ev, c'⟩]) c' := by
  obtain ⟨l, tx, pc, hstack, hnew, hfname, hkey, hphase⟩ := h.frame
  have hstep := Step.of_step hs
  have hkept : c.st.rt.RegionsKept c'.st.rt :=
    (hstep.effect hwf).kept (step_ne_shutdown hs (by rw [hstack]; simp))
  have hkey' : (c'.st.rt.regions r).key = tx.inheritedKey := (hkept.key r h.lt).trans hkey
  have hlt := Nat.lt_of_lt_of_le h.lt hkept.count
  have hgrown := Nat.le_trans h.grown hkept.count
  by_cases hown : c.stack.length = c₀.stack.length + 1 → ∃ q, a = .call q
  · have helse := Elsewhere.of_step hs hp ⟨l, hstack⟩ hown
    obtain ⟨l', hstack'⟩ := helse.frame'
    exact ⟨hlt, h.old, hgrown, l', tx, pc, hstack', hnew, hfname, hkey',
      hphase.elsewhere hwf helse h.lt hs⟩
  · rw [Classical.not_imp] at hown
    obtain ⟨hlength, ha⟩ := hown
    obtain rfl : l = [] := by
      rw [hstack] at hlength
      simpa using hlength
    obtain ⟨tx', pc', hstack', hlookup, hfname', hkey'', hphase'⟩ := hphase.own hwf hstack h.lt
      hnew hkey h.grown (fun q hq => ha ⟨q, hq⟩) hlen hstep
    exact ⟨hlt, h.old, hgrown, [], tx', pc', hstack', by rw [hlookup, hnew],
      hfname'.trans hfname, hkey'.trans hkey''.symm, hphase'⟩

theorem InGate.run {c₁ : Config} {pre : List Move} (h : InGate w c₀ fname r pre c₁)
    (hreach : Reachable w c₁) (hin : Inside w c₀.stack.length c₁ log c) :
    InGate w c₀ fname r (pre ++ log) c := by
  induction hin with
  | start => simpa using h
  | move hin hs hlen ih =>
    have hc := hin.reachable (fun _ _ => trivial) hreach
    rw [← List.append_assoc]
    exact ih.step (.of_reachable hc) (parked_of_reachable hc) hs hlen

theorem resume_returned {s : State} {ret : Int} {k : List Frame} {v : Value}
    (h : resume s ret k = .next c' (.returned v)) : v = .int ret := by
  unfold resume at h
  split at h <;> cases h
  rfl

/-- What the return of a load says. -/
theorem GatePhase.returns {v : Value} (h : GatePhase w c₀ r log c tx pc)
    (hstack : c.stack = .load tx pc :: c₀.stack) (hwf : c.Wf w) (hr : r < c.st.rt.nregions)
    (hr₀ : r < c₀.st.rt.nregions) (hnew : tx.lookup.entry = none)
    (hs : Xylem.step w c a = .next c' (.returned v)) (hk : c'.stack = c₀.stack) :
    (v ≠ .int xyOk ∧ (log ++ [(⟨c, a, .returned v, c'⟩ : Move)]).filter
        (·.installs c₀.stack.length) = [])
      ∨ (v = .int xyOk ∧ ((∃ h bits g e child,
          ClaimedLoad w c₀ tx.fname r (log ++ [⟨c, a, .returned v, c'⟩]) c' h bits g e child)
        ↔ ∀ m ∈ log ++ [⟨c, a, .returned v, c'⟩], m.Guarded w r c₀.stack.length)) := by
  have hnocall : ∀ q, a ≠ .call q := by
    rintro q rfl
    obtain ⟨l, hl⟩ := (Step.of_step hs).call_push
    rw [hk, hstack] at hl
    have := congrArg List.length hl
    simp at this
    omega
  have hstep := Step.of_step hs
  obtain ⟨s, stack⟩ := c
  obtain rfl : stack = .load tx pc :: c₀.stack := hstack
  have hclaim : ∀ prev, pc = .installing prev → (⟨⟨s, .load tx pc :: c₀.stack⟩, a, .returned v,
      c'⟩ : Move).Guarded w r c₀.stack.length := by
    rintro prev rfl
    exact .of_top rfl nofun nofun
  cases hstep with
  | unload | reload | answered | direct | dispatchDone => exact absurd rfl (hnocall _)
  | reuse hl => rw [hnew] at hl; cases hl
  | dlopenFailed hres =>
    refine Or.inl ⟨?_, ?_⟩
    · rw [resume_returned hres]
      decide
    · cases h with
      | opening hq hg => exact (filter_concat_false rfl).trans hq.installs
  | abort ha hres =>
    cases h with
    | aborting hinst herr =>
      refine Or.inl ⟨?_, (filter_concat_false rfl).trans hinst⟩
      rw [resume_returned hres]
      exact fun heq => herr (Value.int.inj heq)
  | installed hres =>
    refine Or.inr ⟨resume_returned hres, ?_⟩
    have hrt : c'.st.rt = s.rt :=
      (resume_spec hres).1.rt.trans (modLoadRestoreContext_spec _ tx).1
    cases h with
    | @installing bits g e child _ hcl hlt habove hg =>
      refine iff_of_true ⟨_, bits, g, e, child,
        { toGranted := hcl.toGranted.concat rfl rfl hr (.of_tree (by rw [hrt])), installed := ?_
          ends := ?_ }⟩ (forall_mem_concat hg (hclaim _ rfl))
      · obtain ⟨x, hx, hev, hcur⟩ := hcl.installed
        refine ⟨x, (filter_concat_false rfl).trans hx, hev, ?_⟩
        rw [hrt]
        exact hcur
      · rw [hrt]
        exact hcl.ends
    | @installingFlat e _ m hinst hm hbad =>
      refine iff_of_false ?_ ?_
      · rintro ⟨h, bits, g, e', child, hcl⟩
        obtain ⟨m', hm', ⟨hev', me', hme', -, -, hhome'⟩, -⟩ := hcl.installed
        rw [filter_concat_false rfl, hinst] at hm'
        obtain rfl : m = m' := (List.cons.inj hm').1
        obtain ⟨hev, me, hme, -, -, hhome⟩ := hm
        obtain rfl : e = e' := by
          rw [hev] at hev'
          injection hev'
        rw [hme] at hme'
        cases hme'
        rw [hhome] at hhome'
        have hfresh := hcl.fresh
        rw [← Option.some.inj hhome'] at hfresh
        exact absurd hr₀ (Nat.not_lt.mpr hfresh)
      · intro hall
        obtain ⟨x, hx, hnot⟩ := hbad
        exact hnot (hall x (List.mem_append_left _ hx))

end

/-! ## Two loads -/

end Xylem
