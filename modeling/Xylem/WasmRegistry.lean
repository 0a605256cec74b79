import Xylem.Lib.Groups
import Xylem.Wasm

/-!
# The hook registry of the WASM dispatcher

The table of hooks is the history of the registrations, grouped by name (`Filed`):
a slot for each name, in the order in which the names first came, with the adapters
of the name in the order of their registration.

`RegistryMeets` says what registrations return, and which adapters a call reaches,
in terms of this history.  The `hook_id` of an adapter only says where to look
first; modules may write what they like to it (`History.stale`).
-/

namespace Xylem.Wasm

open Groups

/-- A registration that was accepted, with the number it returned. -/
structure Registration where
  name : CStr
  reg : AdapterRef
  id : BitVec 32
deriving DecidableEq

/-- The names that have been registered, in the order of their first registration. -/
abbrev names (l : List Registration) : List CStr := keys Registration.name l

/-- The adapters that have been registered under a name, in order. -/
def adaptersOf (l : List Registration) (name : CStr) : List AdapterRef :=
  (group Registration.name l name).map Registration.reg

/-- There is room for the name. -/
def Room (l : List Registration) (name : CStr) : Prop :=
  name ∈ names l ∨ (names l).length < maxHooks

instance (l : List Registration) (name : CStr) : Decidable (Room l name) := by
  unfold Room; infer_instance

/-- The registration that a step makes after the history `l`. -/
def accepted (l : List Registration) (c : Config) (a : Action) (ev : Event) : List Registration :=
  match a, ev with
  | .areg name reg, .registered id =>
    if (c.st.adapters reg).retSize ≤ xyMaxRetSize ∧ Room l name then [⟨name, reg, id⟩] else []
  | _, _ => []

/-- An adapter is registered under its own name, which fits into a slot. -/
def OwnName (c : Config) (a : Action) : Prop :=
  match a with
  | .areg name reg => name = (c.st.adapters reg).name ∧ name.bytes.length ≤ 63
  | _ => True

instance (c : Config) (a : Action) : Decidable (OwnName c a) := by
  unfold OwnName
  split <;> infer_instance

/-- Module code writes to the `hook_id` of an adapter. -/
def Config.withHookId (c : Config) (reg : AdapterRef) (i : Int) : Config :=
  ⟨{ c.st with
      adapters := Function.update c.st.adapters reg { c.st.adapters reg with hookId := i } },
    c.stack⟩

/-- A run with the registrations it has made. -/
inductive History : List Registration → Config → Prop
  | start {c : Config} (h : c.Initial) : History [] c
  | step {l : List Registration} {c c' : Config} {a : Action} {ev : Event} (h : History l c)
      (hs : step c a = some (c', ev)) (hown : OwnName c a) : History (l ++ accepted l c a ev) c'
  | stale {l : List Registration} {c : Config} (h : History l c) (reg : AdapterRef) (i : Int) :
    History l (c.withHookId reg i)

/-! ## Calls whose listeners make none -/

/-- The move is one of the loop, or the listener's return, or a query of it. -/
def Action.Plain : Action → Prop
  | .tau | .ret _ | .last _ => True
  | _ => False

/-- The adapter that the move calls. -/
def Event.adapter : Event → List AdapterRef
  | .entered reg => [reg]
  | _ => []

/-- The run from `c`, while more than `n` calls are in progress, with the adapters
called. -/
inductive Calling (n : Nat) (c : Config) : List AdapterRef → Config → Prop
  | start (h : n < c.stack.length) : Calling n c [] c
  | move {seen : List AdapterRef} {c₁ c₂ : Config} {a : Action} {ev : Event}
      (h : Calling n c seen c₁) (hs : step c₁ a = some (c₂, ev)) (ha : a.Plain)
      (hlen : n < c₂.stack.length) : Calling n c (seen ++ ev.adapter) c₂

/-- An `xy_call` on an adapter, with the adapters called and the result. -/
inductive CallRun (c : Config) (retp : Option BufRef) (reg : AdapterRef) :
    List AdapterRef → Int → Config → Prop
  | atOnce {c' : Config} {n : Int} (hs : step c (.call retp (some reg)) = some (c', .returned n))
      (hk : c'.stack.length = c.stack.length) : CallRun c retp reg [] n c'
  | later {c₁ c₂ c' : Config} {seen : List AdapterRef} {a : Action} {ev : Event} {n : Int}
      (hs : step c (.call retp (some reg)) = some (c₁, ev))
      (hin : Calling c.stack.length c₁ seen c₂) (ha : a.Plain)
      (hr : step c₂ a = some (c', .returned n))
      (hk : c'.stack.length = c.stack.length) : CallRun c retp reg seen n c'

/-- The adapters that a call with the adapter `reg` is to reach. -/
def reached (l : List Registration) (s : State) (reg : AdapterRef) : List AdapterRef :=
  (adaptersOf l (s.adapters reg).name).filter fun x => (s.adapters x).call.isSome

/-- What the registry does after the registrations `l`. -/
structure RegistryMeets (l : List Registration) (c : Config) : Prop where
  /-- Each registration has returned the number of its name. -/
  numbered : ∀ r ∈ l, r.id.toNat = (names l).idxOf r.name
  fits : (names l).length ≤ maxHooks
  /-- The next registration returns and stores the number of its name. -/
  accepts : ∀ name reg, (c.st.adapters reg).retSize ≤ xyMaxRetSize → Room l name →
    (xyAreg c.st name reg).2.toNat = (names l).idxOf name
      ∧ ((xyAreg c.st name reg).1.adapters reg).hookId = (names l).idxOf name
      ∧ (xyAreg c.st name reg).1.err = xyOk
  full : ∀ name reg, (c.st.adapters reg).retSize ≤ xyMaxRetSize → ¬ Room l name →
    xyAreg c.st name reg = ({ c.st with err := xyErrToobig }, xyInvalid)
  /-- A call comes to its end, and calls the adapters of its name that have a
  trampoline, as often and in the order as they were registered. -/
  calls : c.waiting = true → ∀ retp reg,
    (∃ seen n c', CallRun c retp reg seen n c')
      ∧ ∀ seen n c', CallRun c retp reg seen n c' →
        seen = reached l c.st reg
          ∧ (∀ x ∈ seen, (c.st.adapters x).name = (c.st.adapters reg).name)
          ∧ n = if adaptersOf l (c.st.adapters reg).name = [] then xyErrNotfound else xyOk

/-! ## The table -/

/-- The slot of a name with the number `i`. -/
def slotFor (l : List Registration) (i : Nat) (name : CStr) : HookSlot :=
  { name := name, listeners := adaptersOf l name, hookId := i }

/-- The table is the history, grouped by name. -/
def Filed (l : List Registration) (hooks : List HookSlot) : Prop :=
  ∀ i : Nat, hooks[i]? = (names l)[i]?.map (slotFor l i)

section

variable {l : List Registration} {c c' : Config} {a : Action} {ev : Event} {name : CStr}
  {reg : AdapterRef} {hooks : List HookSlot} {s : State}

theorem Filed.length (h : Filed l hooks) : hooks.length = (names l).length := by
  have hnames : hooks.map HookSlot.name = names l := by
    apply List.ext_getElem?
    intro i
    rw [List.getElem?_map, h i]
    cases (names l)[i]? <;> rfl
  rw [← hnames, List.length_map]

theorem Filed.slot (h : Filed l hooks) (hname : name ∈ names l) :
    hooks[(names l).idxOf name]? = some (slotFor l ((names l).idxOf name) name) := by
  rw [h, List.getElem?_idxOf hname]
  rfl

/-- The slots have different names, so the number of a name is the one place where it
is. -/
theorem Filed.idx (h : Filed l hooks) {i : Nat} {slot : HookSlot} (hi : hooks[i]? = some slot) :
    slot.name ∈ names l ∧ i = (names l).idxOf slot.name := by
  rw [h i] at hi
  obtain ⟨n, hn, rfl⟩ := Option.map_eq_some_iff.mp hi
  obtain ⟨hlt, hget⟩ := List.getElem?_eq_some_iff.mp hn
  refine ⟨List.mem_of_getElem? hn, ?_⟩
  rw [← hget]
  exact ((nodup_keys l).idxOf_getElem i hlt).symm

/-- The search of the table for a name. -/
theorem Filed.search (h : Filed l hooks) (name : CStr) :
    hooks.findIdx? (fun slot => slot.name = name)
      = if name ∈ names l then some ((names l).idxOf name) else none := by
  split
  · next hname =>
    obtain ⟨hlt, hget⟩ := List.getElem?_eq_some_iff.mp (h.slot hname)
    rw [List.findIdx?_eq_some_iff_getElem]
    refine ⟨hlt, by simp [hget, slotFor], fun j hj => ?_⟩
    have hat := (h.idx (List.getElem?_eq_getElem (Nat.lt_trans hj hlt))).2
    simp only [decide_eq_true_eq]
    intro hsame
    rw [hsame] at hat
    omega
  · next hname =>
    rw [List.findIdx?_eq_none_iff]
    intro slot hslot
    obtain ⟨i, hi⟩ := List.mem_iff_getElem?.mp hslot
    simp only [decide_eq_false_iff_not]
    intro hsame
    rw [← hsame] at hname
    exact hname (h.idx hi).1

/-- Whatever the adapter's `hook_id` says, its name decides. -/
theorem Filed.resolve (h : Filed l s.hooks) (x : Adapter) :
    resolveId s x = if x.name ∈ names l then some ((names l).idxOf x.name) else none := by
  unfold resolveId
  split
  · next hguess =>
    obtain ⟨-, hany⟩ := hguess
    cases hslot : s.hooks[x.hookId.toNat]? with
    | none =>
      rw [hslot] at hany
      cases hany
    | some slot =>
      rw [hslot] at hany
      have hname : slot.name = x.name := by simpa using hany
      obtain ⟨hmem, hidx⟩ := h.idx hslot
      rw [hname] at hmem hidx
      rw [if_pos hmem, hidx]
  · exact h.search x.name

theorem Filed.listeners (h : Filed l s.hooks) (hname : name ∈ names l) :
    s.listeners ((names l).idxOf name) = adaptersOf l name := by
  unfold State.listeners
  rw [h.slot hname]
  rfl

theorem adaptersOf_eq_nil : adaptersOf l name = [] ↔ name ∉ names l := by
  unfold adaptersOf
  rw [List.map_eq_nil_iff]
  exact group_eq_nil

theorem adaptersOf_concat (l : List Registration) (r : Registration) (name : CStr) :
    adaptersOf (l ++ [r]) name = adaptersOf l name ++ if r.name = name then [r.reg] else [] := by
  unfold adaptersOf
  rw [group_concat, List.map_append]
  split <;> rfl

/-- One more adapter for a name that is there. -/
theorem Filed.append {r : Registration} (h : Filed l hooks) (hold : r.name ∈ names l) :
    Filed (l ++ [r]) (hooks.modify ((names l).idxOf r.name)
      fun slot => { slot with listeners := slot.listeners ++ [r.reg] }) := by
  intro i
  rw [List.getElem?_modify, h i, show names (l ++ [r]) = names l from keys_concat_old hold]
  cases hi : (names l)[i]? with
  | none => rfl
  | some n =>
    obtain ⟨hlt, hget⟩ := List.getElem?_eq_some_iff.mp hi
    have hat : (names l).idxOf r.name = i ↔ r.name = n := by
      constructor
      · intro heq
        rw [← heq, List.getElem?_idxOf hold] at hi
        exact Option.some.inj hi
      · intro heq
        rw [heq, ← hget]
        exact (nodup_keys l).idxOf_getElem i hlt
    simp only [Option.map_some, Option.map_eq_map, slotFor, adaptersOf_concat]
    by_cases heq : r.name = n
    · rw [if_pos (hat.mpr heq), if_pos heq]
    · rw [if_neg fun hidx => heq (hat.mp hidx), if_neg heq, List.append_nil]

/-- A slot for a name that is new. -/
theorem Filed.push {r : Registration} (h : Filed l hooks) (hnew : r.name ∉ names l) :
    Filed (l ++ [r])
      (hooks ++ [{ name := r.name, listeners := [r.reg], hookId := hooks.length }]) := by
  intro i
  rw [show names (l ++ [r]) = names l ++ [r.name] from keys_concat_new hnew]
  by_cases hlt : i < (names l).length
  · rw [List.getElem?_append_left (by rw [h.length]; exact hlt), List.getElem?_append_left hlt, h i]
    cases hi : (names l)[i]? with
    | none => rfl
    | some n =>
      have hne : r.name ≠ n := by
        intro heq
        rw [heq] at hnew
        exact hnew (List.mem_of_getElem? hi)
      simp only [Option.map_some, slotFor, adaptersOf_concat]
      rw [if_neg hne, List.append_nil]
  · have hle : (names l).length ≤ i := Nat.le_of_not_lt hlt
    rw [List.getElem?_append_right (by rw [h.length]; exact hle),
      List.getElem?_append_right hle, h.length]
    by_cases heq : i = (names l).length
    · subst heq
      simp [slotFor, adaptersOf_concat, adaptersOf_eq_nil.mpr hnew]
    · have hout : 1 ≤ i - (names l).length := by omega
      rw [List.getElem?_eq_none (by simpa using hout), List.getElem?_eq_none (by simpa using hout)]
      rfl

/-! ## Registrations -/

theorem slotName_of_le (h : name.bytes.length ≤ 63) : slotName name = name := by
  unfold slotName
  cases name
  simp only [CStr.mk.injEq]
  exact List.take_of_length_le h

/-- A registration that is accepted. -/
theorem Filed.areg (h : Filed l s.hooks) (hsize : (s.adapters reg).retSize ≤ xyMaxRetSize)
    (hroom : Room l name) :
    (xyAreg s name reg).2 = BitVec.ofNat 32 ((names l).idxOf name)
      ∧ ((xyAreg s name reg).1.adapters reg).hookId = (names l).idxOf name
      ∧ (xyAreg s name reg).1.err = xyOk
      ∧ (xyAreg s name reg).1.hooks = if name ∈ names l then
          s.hooks.modify ((names l).idxOf name)
            fun slot => { slot with listeners := slot.listeners ++ [reg] }
        else s.hooks
          ++ [{ name := slotName name, listeners := [reg], hookId := s.hooks.length }] := by
  unfold xyAreg
  rw [if_neg (Nat.not_lt.mpr hsize), h.search name]
  by_cases hname : name ∈ names l
  · have hid : ((s.hooks[(names l).idxOf name]?).map (·.hookId)).getD 0 = (names l).idxOf name := by
      rw [h.slot hname]
      rfl
    simp only [if_pos hname, hid, Function.update_self, and_self]
  · have hidx : (names l).idxOf name = s.hooks.length := by
      rw [h.length]
      exact List.idxOf_eq_length hname
    have hlt : ¬ s.hooks.length ≥ maxHooks := by
      have hroom := hroom.resolve_left hname
      rw [h.length]
      omega
    simp only [if_neg hname, if_neg hlt, hidx, Function.update_self, and_self]

/-- A registration for which there is no room. -/
theorem Filed.areg_full (h : Filed l s.hooks) (hsize : (s.adapters reg).retSize ≤ xyMaxRetSize)
    (hfull : ¬ Room l name) :
    xyAreg s name reg = ({ s with err := xyErrToobig }, xyInvalid) := by
  have hname : name ∉ names l := fun hmem => hfull (Or.inl hmem)
  have hge : s.hooks.length ≥ maxHooks := by
    rw [h.length]
    by_contra hlt
    exact hfull (Or.inr (by omega))
  unfold xyAreg
  rw [if_neg (Nat.not_lt.mpr hsize), h.search name, if_neg hname]
  exact if_pos hge

/-- The table after an accepted registration. -/
theorem Filed.areg_filed (h : Filed l s.hooks) (hsize : (s.adapters reg).retSize ≤ xyMaxRetSize)
    (hroom : Room l name) (hlen : name.bytes.length ≤ 63) :
    Filed (l ++ [⟨name, reg, (xyAreg s name reg).2⟩]) (xyAreg s name reg).1.hooks := by
  rw [(h.areg hsize hroom).2.2.2]
  split
  · next hold => exact h.append (r := ⟨name, reg, _⟩) hold
  · next hnew =>
    rw [slotName_of_le hlen]
    exact h.push (r := ⟨name, reg, _⟩) hnew

/-! ## What steps leave alone -/

/-- Of the adapters only hook ids change. -/
def State.OnlyHookIds (s s' : State) : Prop :=
  ∀ x, s'.adapters x = { s.adapters x with hookId := (s'.adapters x).hookId }

theorem State.OnlyHookIds.of_eq {s s' : State} (h : s'.adapters = s.adapters) :
    s.OnlyHookIds s' := by
  intro x
  rw [h]

theorem State.OnlyHookIds.of_update {s s' : State} {i : Int}
    (h : s'.adapters = Function.update s.adapters reg { s.adapters reg with hookId := i }) :
    s.OnlyHookIds s' := by
  intro x
  rw [h]
  by_cases hx : x = reg
  · subst hx
    simp
  · simp [hx]

theorem State.OnlyHookIds.trans {s s' s'' : State} (h : s.OnlyHookIds s')
    (h' : s'.OnlyHookIds s'') : s.OnlyHookIds s'' := by
  intro x
  rw [h' x, h x]

theorem State.OnlyHookIds.adapter_name {s s' : State} (h : s.OnlyHookIds s') (x : AdapterRef) :
    (s'.adapters x).name = (s.adapters x).name := by
  rw [h x]

theorem State.OnlyHookIds.adapter_call {s s' : State} (h : s.OnlyHookIds s') (x : AdapterRef) :
    (s'.adapters x).call = (s.adapters x).call := by
  rw [h x]

theorem xyAreg_onlyHookIds (s : State) (name : CStr) (reg : AdapterRef) :
    s.OnlyHookIds (xyAreg s name reg).1 := by
  unfold xyAreg
  dsimp only
  split
  · exact .of_eq rfl
  · split
    · exact .of_update rfl
    · split
      · exact .of_eq rfl
      · exact .of_update rfl

theorem xyLast_hooks (s : State) (ret : Option BufRef) : (xyLast s ret).1.hooks = s.hooks := by
  unfold xyLast
  split
  · rfl
  · dsimp only
    split
    · cases ret <;> rfl
    · rfl

theorem writeBuf_same (s : State) (p : Option BufRef) (bytes : List UInt8) :
    (s.writeBuf p bytes).hooks = s.hooks ∧ (s.writeBuf p bytes).adapters = s.adapters := by
  cases p <;> exact ⟨rfl, rfl⟩

/-- What `xy_call` does before its loop. -/
theorem beginCall_spec (s : State) (k : List Frame) (retp : Option BufRef) (reg : AdapterRef) :
    (beginCall s k retp reg).1.st.hooks = s.hooks
      ∧ s.OnlyHookIds (beginCall s k retp reg).1.st
      ∧ ((((resolveId s (s.adapters reg)).map s.listeners).getD [] = []
          ∧ (beginCall s k retp reg).2 = .returned xyErrNotfound
          ∧ (beginCall s k retp reg).1.stack = noteCall k)
        ∨ ∃ id, resolveId s (s.adapters reg) = some id ∧ s.listeners id ≠ []
          ∧ (beginCall s k retp reg).2 = .internal
          ∧ ∃ f, (beginCall s k retp reg).1.stack = f :: noteCall k
            ∧ f.id = id ∧ f.cur = 0 ∧ f.running = false ∧ f.reg = reg ∧ f.values = []) := by
  unfold beginCall
  dsimp only
  cases hid : resolveId s (s.adapters reg) with
  | none =>
    obtain ⟨hhooks, hadapters⟩ := writeBuf_same s retp (List.replicate (s.adapters reg).retSize 0)
    exact ⟨hhooks, .of_eq hadapters, Or.inl ⟨rfl, rfl, rfl⟩⟩
  | some id =>
    dsimp only
    split
    · next hnil =>
      obtain ⟨hhooks, hadapters⟩ := writeBuf_same
        { s with adapters := Function.update s.adapters reg { s.adapters reg with hookId := id } }
        retp (List.replicate ((Function.update s.adapters reg
          { s.adapters reg with hookId := (id : Int) }) reg).retSize 0)
      exact ⟨hhooks, .of_update hadapters, Or.inl ⟨hnil, rfl, rfl⟩⟩
    · next hne => exact ⟨rfl, .of_update rfl, Or.inr ⟨id, rfl, hne, rfl, _, rfl, rfl, rfl, rfl, rfl, rfl⟩⟩

theorem step_kept (hs : step c a = some (c', ev)) :
    c.st.OnlyHookIds c'.st
      ∧ ((∀ name reg, a ≠ .areg name reg) → c'.st.hooks = c.st.hooks) := by
  cases a with
  | tau =>
    cases hstack : c.stack with
    | nil => simp [Wasm.step, hstack] at hs
    | cons f k =>
      simp only [Wasm.step, hstack, tau] at hs
      split at hs
      · cases hs
      · split at hs
        · cases hs
          exact ⟨.of_eq rfl, fun _ => rfl⟩
        · split at hs
          · cases hs
            exact ⟨.of_eq rfl, fun _ => rfl⟩
          · cases hs
            exact ⟨.of_eq rfl, fun _ => rfl⟩
  | call retp reg =>
    simp only [Wasm.step] at hs
    split at hs
    · cases reg with
      | none =>
        cases hs
        exact ⟨.of_eq rfl, fun _ => rfl⟩
      | some reg =>
        obtain rfl : (beginCall c.st c.stack retp reg).1 = c' :=
          congrArg Prod.fst (Option.some.inj hs)
        obtain ⟨hhooks, hids, -⟩ := beginCall_spec c.st c.stack retp reg
        exact ⟨hids, fun _ => hhooks⟩
    · cases hs
  | areg name reg =>
    simp only [Wasm.step] at hs
    split at hs
    · cases hs
      exact ⟨xyAreg_onlyHookIds c.st name reg, fun hne => absurd rfl (hne name reg)⟩
    · cases hs
  | last ret =>
    simp only [Wasm.step] at hs
    split at hs
    · cases hs
      exact ⟨.of_eq (xyLast_same c.st ret).2.2.2.1, fun _ => xyLast_hooks c.st ret⟩
    · cases hs
  | ret bytes =>
    cases hstack : c.stack with
    | nil => simp [Wasm.step, hstack] at hs
    | cons f k =>
      simp only [Wasm.step, hstack] at hs
      split at hs
      · cases hs
        obtain ⟨hhooks, hadapters⟩ := writeBuf_same c.st f.retp bytes
        exact ⟨.of_eq hadapters, fun _ => hhooks⟩
      · cases hs

/-! ## Histories -/

/-- What a history says of the state it leads to. -/
structure Keeps (l : List Registration) (c : Config) : Prop where
  filed : Filed l c.st.hooks
  numbered : ∀ r ∈ l, r.id.toNat = (names l).idxOf r.name
  fits : (names l).length ≤ maxHooks
  named : ∀ r ∈ l, (c.st.adapters r.reg).name = r.name

theorem toNat_idxOf (hfits : (names l).length ≤ maxHooks) (hroom : Room l name) :
    (BitVec.ofNat 32 ((names l).idxOf name)).toNat = (names l).idxOf name := by
  have hle : (names l).idxOf name < maxHooks := by
    rcases hroom with hmem | hlt
    · have hidx := List.idxOf_lt_length_iff.mpr hmem
      omega
    · have hidx := List.idxOf_le_length (l := names l) (a := name)
      omega
  rw [BitVec.toNat_ofNat]
  apply Nat.mod_eq_of_lt
  unfold maxHooks at hle
  omega

theorem Keeps.of_same (h : Keeps l c) (hids : c.st.OnlyHookIds c'.st)
    (hhooks : c'.st.hooks = c.st.hooks) : Keeps l c' where
  filed := by
    rw [hhooks]
    exact h.filed
  numbered := h.numbered
  fits := h.fits
  named r hr := (hids.adapter_name r.reg).trans (h.named r hr)

/-- A registration that is accepted is added to the history. -/
theorem Keeps.areg (h : Keeps l c) (hsize : (c.st.adapters reg).retSize ≤ xyMaxRetSize)
    (hroom : Room l name) (hname : name = (c.st.adapters reg).name)
    (hlen : name.bytes.length ≤ 63) (k : List Frame) :
    Keeps (l ++ [⟨name, reg, (xyAreg c.st name reg).2⟩]) ⟨(xyAreg c.st name reg).1, k⟩ := by
  have hids := xyAreg_onlyHookIds c.st name reg
  have hid : ((xyAreg c.st name reg).2).toNat = (names l).idxOf name := by
    rw [(h.filed.areg hsize hroom).1]
    exact toNat_idxOf h.fits hroom
  refine ⟨h.filed.areg_filed hsize hroom hlen, fun r hr => ?_, ?_, fun r hr => ?_⟩
  · rcases List.mem_append.mp hr with hr | hr
    · rw [h.numbered r hr]
      exact (idxOf_concat (mem_keys.mpr ⟨r, hr, rfl⟩) _).symm
    · rw [List.mem_singleton.mp hr, hid]
      exact (@idxOf_concat_self _ _ _ Registration.name l ⟨name, reg, _⟩).symm
  · by_cases hold : name ∈ names l
    · rw [show names (l ++ [_]) = names l from keys_concat_old hold]
      exact h.fits
    · have hlt := hroom.resolve_left hold
      rw [show names (l ++ [_]) = names l ++ [name] from keys_concat_new hold, List.length_append]
      exact hlt
  · rcases List.mem_append.mp hr with hr | hr
    · exact (hids.adapter_name r.reg).trans (h.named r hr)
    · rw [List.mem_singleton.mp hr]
      exact (hids.adapter_name reg).trans hname.symm

theorem Keeps.step (h : Keeps l c) (hs : Wasm.step c a = some (c', ev)) (hown : OwnName c a) :
    Keeps (l ++ accepted l c a ev) c' := by
  obtain ⟨hids, hhooks⟩ := step_kept hs
  by_cases hareg : ∃ name reg, a = .areg name reg
  · obtain ⟨name, reg, rfl⟩ := hareg
    obtain ⟨hname, hlen⟩ := hown
    simp only [Wasm.step] at hs
    split at hs
    · cases hs
      unfold accepted
      dsimp only
      split
      · next hok => exact h.areg hok.1 hok.2 hname hlen c.stack
      · next hno =>
        rw [List.append_nil]
        apply h.of_same hids
        by_cases hsize : (c.st.adapters reg).retSize ≤ xyMaxRetSize
        · have hfull : ¬ Room l name := fun hroom => hno ⟨hsize, hroom⟩
          show (xyAreg c.st name reg).1.hooks = c.st.hooks
          rw [h.filed.areg_full hsize hfull]
        · show (xyAreg c.st name reg).1.hooks = c.st.hooks
          unfold xyAreg
          rw [if_pos (Nat.lt_of_not_le hsize)]
    · cases hs
  · have hne : ∀ name reg, a ≠ .areg name reg := fun name reg ha => hareg ⟨name, reg, ha⟩
    have hnone : accepted l c a ev = [] := by
      unfold accepted
      split
      · exact absurd rfl (hne _ _)
      · rfl
    rw [hnone, List.append_nil]
    exact h.of_same hids (hhooks hne)

theorem keeps_of_history (h : History l c) : Keeps l c := by
  induction h with
  | start h =>
    obtain ⟨adapters, mem, rfl⟩ := h
    exact ⟨fun _ => rfl, nofun, Nat.zero_le _, nofun⟩
  | step h hs hown ih => exact ih.step hs hown
  | stale h reg i ih => exact ih.of_same (.of_update rfl) rfl

/-! ## Calls -/

/-- The loop of a call with `n` calls below it, which goes through `xs` and has called
`seen`. -/
structure InLoop (s : State) (xs : List AdapterRef) (n : Nat) (seen : List AdapterRef)
    (c : Config) (f : Frame) (k : List Frame) : Prop where
  stack : c.stack = f :: k
  depth : k.length = n
  list : c.st.listeners f.id = xs
  only : s.OnlyHookIds c.st
  running : f.running = true → f.cur < xs.length
  seen : seen = (xs.take (if f.running then f.cur + 1 else f.cur)).filter
    fun x => (s.adapters x).call.isSome

theorem InLoop.step {xs seen : List AdapterRef} {n : Nat} {f : Frame} {k : List Frame}
    (h : InLoop s xs n seen c f k) (hs : Wasm.step c a = some (c', ev)) (ha : a.Plain)
    (hlen : n < c'.stack.length) :
    ∃ f', InLoop s xs n (seen ++ ev.adapter) c' f' k := by
  have hdepth := h.depth
  obtain ⟨hids, hhooks⟩ := step_kept hs
  have hlisteners : (∀ name reg, a ≠ .areg name reg) → ∀ id, c'.st.listeners id = c.st.listeners id := by
    intro hne id
    unfold State.listeners
    rw [hhooks hne]
  cases a with
  | call | areg => cases ha
  | tau =>
    simp only [Wasm.step, h.stack, tau] at hs
    split at hs
    · cases hs
    · next hidle =>
      have hidle : f.running = false := by simpa using hidle
      have hseen := h.seen
      rw [hidle] at hseen
      rw [h.list] at hs
      split at hs
      · cases hs
        exact absurd hlen (by simp [hdepth])
      · next x hx =>
        have htake : xs.take (f.cur + 1) = xs.take f.cur ++ [x] := by
          rw [List.take_add_one, hx]
          rfl
        have hcall : (c.st.adapters x).call = (s.adapters x).call := h.only.adapter_call x
        split at hs
        · next hsome =>
          cases hs
          refine ⟨_, rfl, hdepth, h.list, h.only, fun _ => (List.getElem?_eq_some_iff.mp hx).1, ?_⟩
          rw [hcall] at hsome
          show seen ++ [x] = _
          simp [hseen, htake, List.filter_append, hsome]
        · next hnone =>
          cases hs
          refine ⟨_, rfl, hdepth, h.list, h.only, fun hrun => ?_, ?_⟩
          · have hrun : f.running = true := hrun
            rw [hidle] at hrun
            cases hrun
          · rw [hcall] at hnone
            show seen ++ [] = _
            simp [hseen, hidle, htake, List.filter_append, hnone]
  | ret bytes =>
    have hlist := hlisteners (by simp) f.id
    simp only [Wasm.step, h.stack] at hs
    split at hs
    · next hrun =>
      cases hs
      refine ⟨_, rfl, hdepth, hlist.trans h.list, h.only.trans hids, by simp, ?_⟩
      have hseen := h.seen
      rw [hrun] at hseen
      show seen ++ [] = _
      rw [List.append_nil, hseen]
      rfl
    · cases hs
  | last ret =>
    have hlist := hlisteners (by simp) f.id
    simp only [Wasm.step] at hs
    split at hs
    · cases hs
      refine ⟨f, h.stack, hdepth, hlist.trans h.list, h.only.trans hids, h.running, ?_⟩
      rw [show Event.adapter (.returned _) = [] from rfl, List.append_nil]
      exact h.seen
    · cases hs

theorem InLoop.run {xs seen : List AdapterRef} {c₁ : Config} {f : Frame} {k : List Frame}
    (h : InLoop s xs k.length [] c₁ f k) (hin : Calling k.length c₁ seen c) :
    ∃ f', InLoop s xs k.length seen c f' k := by
  induction hin with
  | start => exact ⟨f, h⟩
  | move hin hs ha hlen ih =>
    obtain ⟨f', hf'⟩ := ih
    exact hf'.step hs ha hlen

/-- The move with which the call returns. -/
theorem InLoop.returns {xs seen : List AdapterRef} {n : Nat} {f : Frame} {k : List Frame}
    {ret : Int} (h : InLoop s xs n seen c f k) (ha : a.Plain)
    (hs : Wasm.step c a = some (c', .returned ret)) (hback : c'.stack.length = n) :
    ret = xyOk ∧ seen = xs.filter fun x => (s.adapters x).call.isSome := by
  have hdepth := h.depth
  cases a with
  | call | areg => cases ha
  | tau =>
    simp only [Wasm.step, h.stack, tau] at hs
    split at hs
    · cases hs
    · next hidle =>
      rw [h.list] at hs
      split at hs
      · next hend =>
        cases hs
        refine ⟨rfl, ?_⟩
        have hle := List.getElem?_eq_none_iff.mp hend
        rw [h.seen, if_neg hidle, List.take_of_length_le hle]
      · split at hs <;> cases hs
  | ret bytes =>
    simp only [Wasm.step, h.stack] at hs
    split at hs <;> cases hs
  | last p =>
    simp only [Wasm.step] at hs
    split at hs
    · cases hs
      have hlen := congrArg List.length h.stack
      simp only [List.length_cons] at hlen
      have hback : c.stack.length = n := hback
      omega
    · cases hs

/-- The loop comes to its end, whatever the listeners store. -/
theorem InLoop.finishes {xs : List AdapterRef} {n d : Nat} {c₁ : Config} :
    ∀ {seen : List AdapterRef} {c : Config} {f : Frame} {k : List Frame},
      InLoop s xs n seen c f k → f.running = false → xs.length - f.cur = d →
      Calling n c₁ seen c →
      ∃ seen' c₂ c', Calling n c₁ seen' c₂ ∧ Wasm.step c₂ .tau = some (c', .returned xyOk)
        ∧ c'.stack.length = n := by
  induction d with
  | zero =>
    intro seen c f k h hidle hd hin
    have hend : xs[f.cur]? = none := List.getElem?_eq_none (by omega)
    refine ⟨seen, c, ⟨{ c.st with err := xyOk }, k⟩, hin, ?_, h.depth⟩
    simp [Wasm.step, h.stack, hidle, tau, h.list, hend]
  | succ d ih =>
    intro seen c f k h hidle hd hin
    have hlt : f.cur < xs.length := by omega
    have hdepth := h.depth
    have hx : xs[f.cur]? = some xs[f.cur] := List.getElem?_eq_getElem hlt
    by_cases hcall : (c.st.adapters xs[f.cur]).call.isSome = true
    · let f₁ : Frame := { f with running := true, quiet := true }
      have hs : Wasm.step c .tau = some (⟨c.st, f₁ :: k⟩, .entered xs[f.cur]) := by
        simp [Wasm.step, h.stack, hidle, tau, h.list, hx, hcall, f₁]
      have hs' : Wasm.step ⟨c.st, f₁ :: k⟩ (.ret []) = some (retListener c.st k f₁ [], .internal) :=
        rfl
      have hin₁ := hin.move hs trivial (by simp [hdepth])
      obtain ⟨f₁', h₁⟩ := h.step hs trivial (by simp [hdepth])
      have hin₂ := hin₁.move hs' trivial (by simp [retListener, hdepth])
      obtain ⟨f₂, h₂⟩ := h₁.step hs' trivial (by simp [retListener, hdepth])
      obtain rfl : f₂ = { f₁ with ran := f₁.ran + 1, cur := f₁.cur + 1, running := false,
                                  values := f₁.values ++ [[]] } :=
        (List.cons.inj h₂.stack).1.symm
      exact ih h₂ rfl (show xs.length - (f.cur + 1) = d by omega) hin₂
    · let f₁ : Frame := { f with cur := f.cur + 1 }
      have hs : Wasm.step c .tau = some (⟨c.st, f₁ :: k⟩, .internal) := by
        simp [Wasm.step, h.stack, hidle, tau, h.list, hx, hcall, f₁]
      have hin₁ := hin.move hs trivial (by simp [hdepth])
      obtain ⟨f₁', h₁⟩ := h.step hs trivial (by simp [hdepth])
      obtain rfl : f₁' = f₁ := (List.cons.inj h₁.stack).1.symm
      exact ih h₁ hidle (show xs.length - (f.cur + 1) = d by omega) hin₁

theorem length_noteCall (k : List Frame) : (noteCall k).length = k.length := by
  cases k <;> rfl

/-- How an `xy_call` starts. -/
theorem Keeps.begins (h : Keeps l c) (hw : c.waiting = true) (retp : Option BufRef)
    (reg : AdapterRef) :
    ∃ c₁ ev, Wasm.step c (.call retp (some reg)) = some (c₁, ev)
      ∧ ((adaptersOf l (c.st.adapters reg).name = [] ∧ ev = .returned xyErrNotfound
          ∧ c₁.stack.length = c.stack.length)
        ∨ (adaptersOf l (c.st.adapters reg).name ≠ [] ∧ ev = .internal
          ∧ ∃ f k, f.running = false ∧ k.length = c.stack.length
            ∧ InLoop c.st (adaptersOf l (c.st.adapters reg).name) c.stack.length [] c₁ f k)) := by
  obtain ⟨hhooks, hids, hcases⟩ := beginCall_spec c.st c.stack retp reg
  have hstep : Wasm.step c (.call retp (some reg)) = some (beginCall c.st c.stack retp reg) := by
    simp only [Wasm.step, hw, if_true]
  refine ⟨(beginCall c.st c.stack retp reg).1, (beginCall c.st c.stack retp reg).2, hstep, ?_⟩
  have hresolve := h.filed.resolve (c.st.adapters reg)
  have hlisteners : ((resolveId c.st (c.st.adapters reg)).map c.st.listeners).getD []
      = adaptersOf l (c.st.adapters reg).name := by
    rw [hresolve]
    split
    · next hname => exact h.filed.listeners hname
    · next hname => exact (adaptersOf_eq_nil.mpr hname).symm
  rcases hcases with ⟨hnil, hev, hstack⟩ | ⟨id, hid, hne, hev, f, hstack, hfid, hcur, hidle, -, -⟩
  · refine Or.inl ⟨hlisteners.symm.trans hnil, hev, ?_⟩
    rw [hstack, length_noteCall]
  · rw [hid] at hlisteners
    have hlist : c.st.listeners id = adaptersOf l (c.st.adapters reg).name := hlisteners
    refine Or.inr ⟨by rw [← hlist]; exact hne, hev, f, noteCall c.stack, hidle,
      length_noteCall c.stack, hstack, length_noteCall c.stack, ?_, hids, ?_, ?_⟩
    · rw [hfid, ← hlist]
      unfold State.listeners
      rw [hhooks]
    · intro hrun
      rw [hidle] at hrun
      cases hrun
    · simp [hidle, hcur]

theorem Keeps.calls (h : Keeps l c) (hw : c.waiting = true) (retp : Option BufRef)
    (reg : AdapterRef) :
    (∃ seen n c', CallRun c retp reg seen n c')
      ∧ ∀ seen n c', CallRun c retp reg seen n c' →
        seen = reached l c.st reg
          ∧ n = if adaptersOf l (c.st.adapters reg).name = [] then xyErrNotfound else xyOk := by
  obtain ⟨c₁, ev, hs, hcases⟩ := h.begins hw retp reg
  rcases hcases with ⟨hnil, rfl, hlen⟩ | ⟨hne, rfl, f, k, hidle, hk, hloop⟩
  · refine ⟨⟨[], _, c₁, .atOnce hs hlen⟩, fun seen n c' hrun => ?_⟩
    have hreached : reached l c.st reg = [] := by
      unfold reached
      rw [hnil]
      rfl
    cases hrun with
    | atOnce hs' hk =>
      rw [hs] at hs'
      cases hs'
      exact ⟨hreached.symm, (if_pos hnil).symm⟩
    | later hs' hin ha hr hk =>
      rw [hs] at hs'
      cases hs'
      have hlt : ∀ {seen : List AdapterRef} {c₂ : Config}, Calling c.stack.length c₁ seen c₂ →
          c.stack.length < c₁.stack.length := by
        intro seen c₂ hin
        induction hin with
        | start h => exact h
        | move _ _ _ _ ih => exact ih
      have hlt := hlt hin
      omega
  · constructor
    · have hstart : Calling c.stack.length c₁ [] c₁ := .start (by rw [hloop.stack]; simp [hk])
      obtain ⟨seen, c₂, c', hin, hr, hback⟩ := hloop.finishes hidle rfl hstart
      exact ⟨seen, xyOk, c', .later (a := .tau) hs hin trivial hr hback⟩
    · intro seen n c' hrun
      cases hrun with
      | atOnce hs' hk =>
        rw [hs] at hs'
        cases hs'
      | later hs' hin ha hr hback =>
        rw [hs] at hs'
        cases hs'
        rw [← hk] at hin hback hloop
        obtain ⟨f', hloop'⟩ := hloop.run hin
        obtain ⟨hret, hseen⟩ := hloop'.returns ha hr hback
        exact ⟨hseen, hret.trans (if_neg hne).symm⟩

/-- In every run whose registrations give adapters under their own names, the
registry dispatches what was registered. -/
theorem registry_of_history (h : History l c) : RegistryMeets l c := by
  have hkeeps := keeps_of_history h
  refine ⟨hkeeps.numbered, hkeeps.fits, fun name reg hsize hroom => ?_,
    fun name reg hsize hfull => hkeeps.filed.areg_full hsize hfull, fun hw retp reg => ?_⟩
  · obtain ⟨hid, hstored, herr, -⟩ := hkeeps.filed.areg hsize hroom
    refine ⟨?_, hstored, herr⟩
    rw [hid]
    exact toNat_idxOf hkeeps.fits hroom
  · obtain ⟨hfinishes, hruns⟩ := hkeeps.calls hw retp reg
    refine ⟨hfinishes, fun seen n c' hrun => ?_⟩
    obtain ⟨hseen, hret⟩ := hruns seen n c' hrun
    refine ⟨hseen, fun x hx => ?_, hret⟩
    rw [hseen] at hx
    obtain ⟨hmem, -⟩ := List.mem_filter.mp hx
    obtain ⟨r, hr, rfl⟩ := List.mem_map.mp hmem
    obtain ⟨hin, hname⟩ := mem_group.mp hr
    exact (hkeeps.named r hin).trans hname

end

/-- Two adapters of one hook are registered with one of another between them, and the
first then holds the number of the other hook. -/
theorem registry_of_two_hooks :
    ∃ c, RegistryMeets [⟨outerHook, 0, 0⟩, ⟨innerHook, 2, 1⟩, ⟨outerHook, 1, 0⟩] c
      ∧ (c.st.adapters 0).hookId = 1 ∧ reached [⟨outerHook, 0, 0⟩, ⟨innerHook, 2, 1⟩,
        ⟨outerHook, 1, 0⟩] c.st 0 = [0, 1] := by
  have h₁ : History [⟨outerHook, 0, 0⟩] _ :=
    .step (a := .areg outerHook 0) (.start Config.boot_initial) rfl (by decide +kernel)
  have h₂ : History [⟨outerHook, 0, 0⟩, ⟨innerHook, 2, 1⟩] _ :=
    .step (a := .areg innerHook 2) h₁ rfl (by decide +kernel)
  have h₃ : History [⟨outerHook, 0, 0⟩, ⟨innerHook, 2, 1⟩, ⟨outerHook, 1, 0⟩] _ :=
    .step (a := .areg outerHook 1) h₂ rfl (by decide +kernel)
  exact ⟨_, registry_of_history (h₃.stale 0 1), by decide +kernel, by decide +kernel⟩

end Xylem.Wasm
