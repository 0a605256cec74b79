import Xylem.Denies
import Xylem.Sample

/-!
# Who made a deny

A deny list holds paths, and says nothing of who put them there.  A `Ledger`
does: it runs beside the machine, a deny is entered with the module that made
it, and it is struck out when the module that made it is freed by its unload and
takes its entry out of the list.  What the unload of another module takes out is
not struck out, nor is a deny that outlives the module that made it.  `InForce`
says that all the ledger holds is still denied.

Who makes a call is not part of a configuration: a listener, a handler and a
callback are pointers to code.  The attribution is a parameter.
-/

namespace Xylem

open Xylem.Runtime

/-- A module deny: the path denied, and the path of the module that denied it,
if one did. -/
structure DenyRecord where
  path : CStr
  maker : Option CStr
deriving DecidableEq

/-- The module denies of each region. -/
abbrev Ledger := RegionRef → List DenyRecord

/-- The ledger after a step, with `maker` telling who makes a call.  The unload that frees a
module strikes out the denies of its region that name it and that it has made itself. -/
def Ledger.step (w : World) (maker : Config → Option CStr) (c : Config) (a : Action) (l : Ledger) :
    Ledger :=
  match a, c.stack with
  | .call (.deny what .module), _ =>
    match c.st.tls.current.entry with
    | none => l
    | some r => Function.update l r (⟨w.loadPath what, maker c⟩ :: l r)
  | .call .shutdown, _ => fun _ => []
  | .tau, .unload e [] :: _ =>
    match c.st.rt.mods e with
    | none => l
    | some me => fun r => (l r).filter fun d =>
        ¬ (me.regionEntry = some r ∧ d.path = me.loadPath ∧ d.maker = some me.loadPath)
  | _, _ => l

/-- A configuration and its ledger, from one step to the next. -/
def LedgerNext (w : World) (maker : Config → Option CStr) (s : Config × Ledger) (a : Action)
    (s' : Config × Ledger) : Prop :=
  Next w s.1 a s'.1 ∧ s'.2 = s.2.step w maker s.1 a

/-- The configurations with their ledgers of the runs whose steps meet `ok`. -/
abbrev LedgerReachable (w : World) (maker : Config → Option CStr)
    (ok : Config × Ledger → Action → Prop) : Config × Ledger → Prop :=
  Run.ReachBy (fun s => s.1.Initial ∧ s.2 = fun _ => []) (LedgerNext w maker) ok

/-- Every deny of the ledger is in force in its region. -/
def InForce (s : Config × Ledger) : Prop :=
  ∀ r, ∀ d ∈ s.2 r, r < s.1.st.rt.nregions ∧ d.path ∈ (s.1.st.rt.regions r).deniedModules

/-- A module that is freed by its unload is denied in its own region by itself
at most. -/
def UnloadsUndenied (s : Config × Ledger) (a : Action) : Prop :=
  match a, s.1.stack with
  | .tau, .unload e [] :: _ => ∀ me ∈ s.1.st.rt.mods e, ∀ r ∈ me.regionEntry,
      ∀ d ∈ s.2 r, d.path = me.loadPath → d.maker = some me.loadPath
  | _, _ => True

section

variable {w : World} {maker : Config → Option CStr} {s s' : Config × Ledger} {c c' : Config}
  {a : Action} {ev : Event} {l : Ledger}

/-- The ledger forgets that it runs beside the machine. -/
theorem LedgerReachable.reachable {ok : Config × Ledger → Action → Prop}
    (h : LedgerReachable w maker ok s) : Reachable w s.1 := by
  induction h with
  | start h => exact .start h.1
  | step _ _ hs ih => exact ih.step trivial hs.1

theorem step_deny {what : CStr} {type : DenyType}
    (h : step w c (.call (.deny what type)) = .next c' ev) :
    (c.st.tls.current.entry = none ∧ c'.st.rt = c.st.rt)
      ∨ ∃ r, c.st.tls.current.entry = some r ∧ c'.st.rt = c.st.rt.recordDeny w r what type := by
  unfold step at h
  dsimp only at h
  split at h
  · simp only [beginCall, callDirect, xyDeny] at h
    cases hcur : c.st.tls.current.entry with
    | none =>
      rw [hcur] at h
      cases h
      exact Or.inl ⟨rfl, rfl⟩
    | some r =>
      rw [hcur] at h
      cases h
      exact Or.inr ⟨r, rfl, rfl⟩
  · cases h

/-- What a step other than a deny leaves in the ledger was there before. -/
theorem Ledger.mem_of_mem_step (ha : ∀ what, a ≠ .call (.deny what .module)) {r : RegionRef}
    {d : DenyRecord} (h : d ∈ l.step w maker c a r) : d ∈ l r := by
  cases a with
  | call q =>
    cases q with
    | deny what type =>
      cases type with
      | hook => exact h
      | module => exact absurd rfl (ha what)
    | shutdown => cases h
    | _ => exact h
  | ret r => exact h
  | tau =>
    rcases htop : c.stack with _ | ⟨_ | ⟨e, _ | _⟩ | _ | _ | _ | _, k⟩ <;>
      simp only [Ledger.step, htop] at h
    case cons.unload.nil =>
      cases hme : c.st.rt.mods e with
      | none => simpa only [hme] using h
      | some me => exact List.mem_of_mem_filter (by simpa only [hme] using h)
    all_goals exact h

theorem inForce_deny {what : CStr} {type : DenyType} (hwf : c.Wf w) (hinv : InForce (c, l))
    (h : step w c (.call (.deny what type)) = .next c' ev) :
    InForce (c', l.step w maker c (.call (.deny what type))) := by
  have hold : ∀ r, r < c.st.rt.nregions → ∀ p ∈ (c.st.rt.denies r).modules,
      r < c'.st.rt.nregions ∧ p ∈ (c'.st.rt.denies r).modules := by
    intro r hr p hp
    rcases step_deny h with ⟨-, hrt⟩ | ⟨x, hcur, hrt⟩
    · rw [hrt]
      exact ⟨hr, hp⟩
    · have hn : c'.st.rt.nregions = c.st.rt.nregions := by
        rw [hrt]
        exact congrArg Tree.count (recordDeny_tree w c.st.rt x what type)
      rw [hn, hrt, recordDeny_denies hwf.tree (hwf.current x hcur)]
      refine ⟨hr, ?_⟩
      dsimp only
      split
      · cases type <;> simp [RegionDenies.add, hp]
      · exact hp
  intro r d hd
  cases type with
  | hook => exact hold r (hinv r d hd).1 _ (hinv r d hd).2
  | module =>
    rcases step_deny h with ⟨hcur, hrt⟩ | ⟨x, hcur, hrt⟩
    · simp only [Ledger.step, hcur] at hd
      exact hold r (hinv r d hd).1 _ (hinv r d hd).2
    · simp only [Ledger.step, hcur] at hd
      by_cases hrx : r = x
      · subst hrx
        rw [Function.update_self] at hd
        rcases List.mem_cons.mp hd with rfl | hd
        · have hr := hwf.current r hcur
          refine ⟨?_, ?_⟩
          · show r < c'.st.rt.nregions
            rw [hrt]
            have hn := congrArg Tree.count (recordDeny_tree w c.st.rt r what .module)
            exact Nat.lt_of_lt_of_eq hr hn.symm
          · show _ ∈ (c'.st.rt.denies r).modules
            rw [hrt, recordDeny_denies hwf.tree hr]
            simp [RegionDenies.add]
        · exact hold r (hinv r d hd).1 _ (hinv r d hd).2
      · rw [Function.update_of_ne hrx] at hd
        exact hold r (hinv r d hd).1 _ (hinv r d hd).2

theorem inForce_step (hwf : c.Wf w) (hinv : InForce (c, l)) (hok : UnloadsUndenied (c, l) a)
    (h : step w c a = .next c' ev) : InForce (c', l.step w maker c a) := by
  by_cases ha : ∃ what type, a = .call (.deny what type)
  · obtain ⟨what, type, rfl⟩ := ha
    exact inForce_deny hwf hinv h
  · have hmem : ∀ {r d}, d ∈ l.step w maker c a r → d ∈ l r :=
      Ledger.mem_of_mem_step fun what hw => ha ⟨what, .module, hw⟩
    intro r d hd
    obtain ⟨hr, hp⟩ := hinv r d (hmem hd)
    have heff := (Step.of_step h).effect hwf
    rcases heff.keys with ⟨rfl, -⟩ | ⟨hn, -⟩
    · cases hd
    refine ⟨Nat.lt_of_lt_of_le hr hn, ?_⟩
    show d.path ∈ (c'.st.rt.denies r).modules
    cases heff.denies with
    | same hold hnew =>
      rw [hold r hr]
      exact hp
    | deny hdeny => exact absurd ⟨_, _, hdeny⟩ ha
    | @remove k e me htau hstack hme hrt =>
      subst htau
      rw [hrt, removeEntry_denies]
      split
      · next hhome =>
        have hkept : ¬ (me.regionEntry = some r ∧ d.path = me.loadPath
            ∧ d.maker = some me.loadPath) := by
          simp only [Ledger.step, hstack, hme, List.mem_filter, decide_eq_true_eq] at hd
          exact hd.2
        unfold UnloadsUndenied at hok
        rw [hstack] at hok
        have hpath : d.path ≠ me.loadPath := fun heq =>
          hkept ⟨hhome, heq, hok me hme r hhome d (hmem hd) heq⟩
        exact List.mem_filter.mpr ⟨hp, by simpa using hpath⟩
      · exact hp
    | shutdown hsd hrt =>
      subst hsd
      cases hd

/-- In a run that unloads no module while another has denied its path in its
own region, every deny stays in force, but for those of a region that name a module there
which has made them itself and is unloaded. -/
theorem inForce_of_unloadsUndenied (h : LedgerReachable w maker UnloadsUndenied s) :
    InForce s := by
  have hknown : ∀ s, LedgerReachable w maker UnloadsUndenied s → Reachable w s.1 :=
    fun _ hs => LedgerReachable.reachable hs
  refine h.invariant_of hknown ?_ ?_
  · rintro ⟨c, l⟩ ⟨-, hl⟩ r d hd
    dsimp only at hl
    subst hl
    cases hd
  · rintro ⟨c, l⟩ a ⟨c', l'⟩ hreach hinv hok ⟨⟨ev, hs⟩, hl⟩
    dsimp only at hl hs
    subst hl
    exact inForce_step (.of_reachable hreach) hinv hok hs

end

instance (s : Config × Ledger) (a : Action) : Decidable (UnloadsUndenied s a) := by
  unfold UnloadsUndenied
  generalize s.1.stack = k
  induction a using Action.casesOn with
  | tau =>
    induction k using List.casesOn with
    | nil => infer_instance
    | cons f k =>
      induction f using Frame.casesOn with
      | unload e children => induction children using List.casesOn <;> infer_instance
      | _ => infer_instance
  | _ => infer_instance

/-- The run of a list of actions beside its ledger, as far as its steps meet a
condition. -/
def ledgerRun (w : World) (maker : Config → Option CStr) (ok : Config × Ledger → Action → Prop)
    [∀ s a, Decidable (ok s a)] (s : Config × Ledger) : List Action → Config × Ledger
  | [] => s
  | a :: as =>
    if ok s a then
      match step w s.1 a with
      | .next c' _ => ledgerRun w maker ok (c', s.2.step w maker s.1 a) as
      | _ => s
    else s

theorem LedgerReachable.run {w : World} {maker : Config → Option CStr}
    {ok : Config × Ledger → Action → Prop} [∀ s a, Decidable (ok s a)] {s : Config × Ledger}
    (h : LedgerReachable w maker ok s) (l : List Action) :
    LedgerReachable w maker ok (ledgerRun w maker ok s l) := by
  induction l generalizing s with
  | nil => exact h
  | cons a l ih =>
    unfold ledgerRun
    split
    · next hok =>
      split
      · next hstep => exact ih (h.step hok ⟨⟨_, hstep⟩, rfl⟩)
      · exact h
    · exact h

/-- A module denies its own path while it is installed, and the host another;
the module is unloaded. -/
theorem inForce_of_own_deny :
    InForce (ledgerRun sampleWorld (fun c => if c.stack.isEmpty then none else some sampleFile)
      UnloadsUndenied (Config.boot sampleHook, fun _ => [])
      ((loadRun sampleFile 1).take 7 ++ [.call (.deny sampleFile .module), .ret .installed,
        .call (.deny sampleFile' .module), .call (.unload sampleFile), .tau])) :=
  inForce_of_unloadsUndenied (.run (.start ⟨Config.boot_initial _, rfl⟩) _)

/-- The host denies a module in the root, and loads and unloads it there. -/
theorem not_inForce_of_host_deny :
    ∃ s, LedgerReachable sampleWorld (fun _ => none) (fun _ _ => True) s ∧ ¬ InForce s := by
  let s := ledgerRun sampleWorld (fun _ => none) (fun _ _ => True)
    (Config.boot sampleHook, fun _ => [])
    (.call (.deny sampleFile .module) :: loadRun sampleFile 1 ++ [.call (.unload sampleFile), .tau])
  have hledger : (⟨sampleFile, none⟩ : DenyRecord) ∈ s.2 0 := by decide +kernel
  have hlifted : sampleFile ∉ (s.1.st.rt.regions 0).deniedModules := by decide +kernel
  exact ⟨s, .run (.start ⟨Config.boot_initial _, rfl⟩) _, fun h => hlifted (h 0 _ hledger).2⟩

end Xylem
