import Xylem.Dispatch

/-!
# Trampolines

An adapter carries a trampoline, `adapter_call`, through which the dispatcher
calls the callbacks of a hook: it unpacks the argument block, calls a function,
and stores the result.  The C macros and the Rust macros generate one each.  One
trampoline serves all the slots of a dispatch, so that it has to call the
callback that it is given.

The trampoline of `#[xy_impl]` calls the function it was generated for, whatever
callback it is given; those of `XY_IMPL`, `XY_DEF` and `#[xy_decl]` do not.
-/

namespace Xylem

/-- What the generators know of a hook: where each argument lies in the argument
struct, as an offset and a size, and the size of the result. -/
structure HookSig where
  args : List (Nat × Nat)
  retSize : Nat

/-- The arguments in an argument block. -/
def HookSig.unpack (sig : HookSig) (block : List UInt8) : List (List UInt8) :=
  sig.args.map fun (offset, size) => (block.drop offset).take size

/-- The functions of all modules: what each does to the world, and the result. -/
abbrev Code (σ : Type) := Addr → List (List UInt8) → σ → σ × List UInt8

/-- The world, the return buffers, and the calls made so far. -/
structure Ran (σ : Type) where
  env : σ
  mem : BufRef → List UInt8
  calls : List (Addr × List (List UInt8))

/-- A store through a `void *` that may be NULL. -/
def Ran.writeBuf {σ : Type} (s : Ran σ) (p : Option BufRef) (bytes : List UInt8) : Ran σ :=
  match p with
  | none => s
  | some b => { s with mem := Function.update s.mem b (overwrite (s.mem b) bytes) }

/-- A call of a function. -/
def Ran.invoke {σ : Type} (code : Code σ) (s : Ran σ) (f : Addr) (args : List (List UInt8)) :
    Ran σ × List UInt8 :=
  let (env, result) := code f args s.env
  ({ s with env := env, calls := s.calls ++ [(f, args)] }, result)

/-! ## The generated functions -/

section

variable {σ : Type} (code : Code σ) (sig : HookSig)

/-- What the generated functions share: `target` is called with the unpacked
arguments, and the result is stored. -/
def adapterCall (target : Option Addr) (zero : Bool) (res : Option BufRef) (block : List UInt8)
    (s : Ran σ) : Ran σ :=
  match target with
  | none => if zero then s.writeBuf res (List.replicate sig.retSize 0) else s
  | some f =>
    let (s, result) := s.invoke code f (sig.unpack block)
    s.writeBuf res result

/-- `fname##_adapter_call` of `XY_IMPL`, which falls back on the function of its
own module. -/
def xyImplAdapterCall (own : Addr) (res : Option BufRef) (fn : Option Addr) (block : List UInt8)
    (s : Ran σ) : Ran σ :=
  adapterCall code sig (fn.orElse fun _ => some own) true res block s

/-- `fname##_adapter_call` of `XY_DEF`. -/
def xyDefAdapterCall (res : Option BufRef) (fn : Option Addr) (block : List UInt8) (s : Ran σ) :
    Ran σ :=
  adapterCall code sig fn true res block s

/-- `#adapter_call_ident` of `build_adapter_pieces`, for `#[xy_impl]`: the
callback is tested, and the function of the name of the hook is called. -/
def rustImplAdapterCall (own : Addr) (res : Option BufRef) (f : Option Addr) (block : List UInt8)
    (s : Ran σ) : Ran σ :=
  adapterCall code sig (f.map fun _ => own) true res block s

/-- `#adapter_call_ident` of `#[xy_decl]`. -/
def rustDeclAdapterCall (res : Option BufRef) (f : Option Addr) (block : List UInt8) (s : Ran σ) :
    Ran σ :=
  adapterCall code sig f false res block s

/-- The calls of the trampoline in the loop of `xy_dispatch`, one for each
listener, with one buffer and one argument block for all. -/
def dispatchCalls (call : Option Addr → Ran σ → Ran σ) (cbs : List Addr) (s : Ran σ) : Ran σ :=
  cbs.foldl (fun s cb => call (some cb) s) s

variable {code sig} {own own' : Addr} {res : Option BufRef} {block : List UInt8}

theorem adapterCall_calls (f : Addr) (zero : Bool) (s : Ran σ) :
    (adapterCall code sig (some f) zero res block s).calls
      = s.calls ++ [(f, sig.unpack block)] := by
  cases res <;> rfl

/-- The other generated functions do the same with a callback. -/
theorem siblings_adapterCall (f : Addr) (s : Ran σ) :
    xyDefAdapterCall code sig res (some f) block s
        = xyImplAdapterCall code sig own res (some f) block s
      ∧ rustDeclAdapterCall code sig res (some f) block s
        = xyImplAdapterCall code sig own res (some f) block s := ⟨rfl, rfl⟩

theorem rustImpl_eq_xyImpl_iff (f : Addr) (s : Ran σ) :
    rustImplAdapterCall code sig own res (some f) block s
        = xyImplAdapterCall code sig own' res (some f) block s ↔ f = own := by
  constructor
  · intro heq
    have hcalls := congrArg Ran.calls heq
    have hrust : (rustImplAdapterCall code sig own res (some f) block s).calls
        = s.calls ++ [(own, sig.unpack block)] := adapterCall_calls own true s
    have hc : (xyImplAdapterCall code sig own' res (some f) block s).calls
        = s.calls ++ [(f, sig.unpack block)] := adapterCall_calls f true s
    have hlast : s.calls ++ [(own, sig.unpack block)] = s.calls ++ [(f, sig.unpack block)] :=
      hrust.symm.trans (hcalls.trans hc)
    simpa using (List.append_cancel_left hlast).symm
  · rintro rfl
    rfl

/-- The calls of a loop, when the trampoline calls `target cb` for `cb`. -/
theorem dispatchCalls_calls {call : Option Addr → Ran σ → Ran σ} {target : Addr → Addr}
    (hcall : ∀ f s, (call (some f) s).calls = s.calls ++ [(target f, sig.unpack block)])
    (cbs : List Addr) (s : Ran σ) :
    (dispatchCalls call cbs s).calls
      = s.calls ++ cbs.map fun f => (target f, sig.unpack block) := by
  induction cbs generalizing s with
  | nil => simp [dispatchCalls]
  | cons f cbs ih =>
    have hstep : dispatchCalls call (f :: cbs) s = dispatchCalls call cbs (call (some f) s) := rfl
    rw [hstep, ih, hcall, List.map_cons, List.append_assoc, List.singleton_append]

theorem dispatchCalls_xyImpl (cbs : List Addr) (s : Ran σ) :
    (dispatchCalls (fun f => xyImplAdapterCall code sig own res f block) cbs s).calls
      = s.calls ++ cbs.map fun f => (f, sig.unpack block) :=
  dispatchCalls_calls (fun f s => adapterCall_calls f true s) cbs s

theorem dispatchCalls_rustImpl (cbs : List Addr) (s : Ran σ) :
    (dispatchCalls (fun f => rustImplAdapterCall code sig own res f block) cbs s).calls
      = s.calls ++ cbs.map fun _ => (own, sig.unpack block) :=
  dispatchCalls_calls (fun _ s => adapterCall_calls own true s) cbs s

/-- The Rust trampoline does with a callback what the C trampoline does exactly
when the callback is its own function; and a dispatch through it runs the
callback of each slot, once and in order, exactly when all of them are. -/
theorem rustImpl_interchangeable_iff (code : Code σ) (sig : HookSig) (own own' : Addr)
    (res : Option BufRef) (block : List UInt8) :
    (∀ f s, rustImplAdapterCall code sig own res (some f) block s
        = xyImplAdapterCall code sig own' res (some f) block s ↔ f = own)
    ∧ ∀ cbs s, (dispatchCalls (fun f => rustImplAdapterCall code sig own res f block) cbs s).calls
        = (dispatchCalls (fun f => xyImplAdapterCall code sig own' res f block) cbs s).calls
      ↔ ∀ f ∈ cbs, f = own := by
  refine ⟨rustImpl_eq_xyImpl_iff, fun cbs s => ?_⟩
  rw [dispatchCalls_rustImpl, dispatchCalls_xyImpl, List.append_cancel_left_eq, List.map_inj_left]
  simp only [Prod.mk.injEq, and_true, eq_comm]

end

/-- Two modules have callbacks at 1 and 2 for a hook, and the trampoline is that of
the first. -/
theorem not_rustImpl_interchangeable :
    ∃ (code : Code Unit) (sig : HookSig) (s : Ran Unit),
      (dispatchCalls (fun f => rustImplAdapterCall code sig 1 (some 0) f []) [1, 2] s).calls
        ≠ (dispatchCalls (fun f => xyImplAdapterCall code sig 1 (some 0) f []) [1, 2] s).calls := by
  refine ⟨fun _ _ env => (env, []), ⟨[], 0⟩, ⟨(), fun _ => [], []⟩, ?_⟩
  decide +kernel

end Xylem
