import Xylem.Lib.StructLayout
import Xylem.WasmDefiner

/-!
# A call of a hook, with its types

The macros make a hook look like a function: `XY_DECL`, `XY_DEF` and `#[xy_decl]` generate an
inline function that puts its arguments into a struct, calls the dispatcher, and returns a local
variable that the dispatcher writes to.  The trampoline of the adapter takes the struct apart, in
another translation unit and perhaps in another language.

* `hookCall`: what such a call is for, with values instead of bytes.  The listeners are called one
  after the other, and the last one's result is the result.
* `callStub_eq`: every generated function does this with every trampoline, whatever the padding of
  the struct and whatever was in the local variable.
-/

namespace Xylem

open StructLayout

/-- What the macros are given: the types of the arguments, and the size of the result. -/
structure HookType where
  args : List Member
  retSize : Nat

/-- What the generators make of it. -/
def HookType.sig (ty : HookType) : HookSig := ⟨slots 0 ty.args, ty.retSize⟩

/-- The trampolines that call the callback they are given, one for each generator. -/
inductive Trampoline where
  | xyImpl (own : Addr)
  | xyListenerTag (own : Addr)
  | xyDef
  | rustDecl
deriving DecidableEq

section

variable {σ : Type} (code : Code σ)

def Trampoline.call (sig : HookSig) (res : Option BufRef) (fn : Option Addr) (block : List UInt8) :
    Trampoline → Ran σ → Ran σ
  | .xyImpl own => xyImplAdapterCall code sig own res fn block
  | .xyListenerTag own => xyListenerTagAdapterCall code sig own res fn block
  | .xyDef => xyDefAdapterCall code sig res fn block
  | .rustDecl => rustDeclAdapterCall code sig res fn block

/-- The loop of `xy_dispatch` and what follows it: without a listener, the return buffer is
zeroed. -/
def dispatchLoop (sig : HookSig) (t : Trampoline) (cbs : List Addr) (res : Option BufRef)
    (block : List UInt8) (s : Ran σ) : Ran σ :=
  if cbs = [] then s.writeBuf res (List.replicate sig.retSize 0)
  else dispatchCalls (fun fn => t.call code sig res fn block) cbs s

/-- The generated inline function: `junk` is in the local variable `ret` before the call.  That
of `XY_DECL` and `XY_DEF` is not initialised, that of `#[xy_decl]` is zeroed. -/
def callStub (ty : HookType) (t : Trampoline) (cbs : List Addr) (pad : Nat → UInt8) (ret : BufRef)
    (junk : List UInt8) (args : List (List UInt8)) (s : Ran σ) : Ran σ × List UInt8 :=
  let s := { s with mem := Function.update s.mem ret junk }
  let s := dispatchLoop code ty.sig t cbs (some ret) (pack pad ty.args args) s
  (s, (s.mem ret).take ty.retSize)

/-- What a hook call is for. -/
def hookCall (cbs : List Addr) (args : List (List UInt8)) (retSize : Nat) (env : σ) :
    σ × List UInt8 :=
  cbs.foldl (fun r fn => code fn args r.1) (env, List.replicate retSize 0)

variable {code} {ty : HookType} {t : Trampoline} {cbs : List Addr} {pad : Nat → UInt8} {ret : BufRef}
  {junk block bytes : List UInt8} {args : List (List UInt8)} {s : Ran σ} {sig : HookSig}

/-- All of them do the same with a callback. -/
theorem Trampoline.call_some (t : Trampoline) (fn : Addr) (res : Option BufRef) (s : Ran σ) :
    t.call code sig res (some fn) block s = adapterCall code sig (some fn) true res block s := by
  cases t with
  | xyImpl | xyListenerTag | xyDef => rfl
  | rustDecl => rfl

/-- A result of the right size is all there is in the buffer. -/
theorem overwrite_eq (h : bytes.length = junk.length) : overwrite junk bytes = bytes := by
  unfold overwrite
  rw [h, List.drop_length, List.append_nil]

theorem dispatchCalls_cons (call : Option Addr → Ran σ → Ran σ) (fn : Addr) (s : Ran σ) :
    dispatchCalls call (fn :: cbs) s = dispatchCalls call cbs (call (some fn) s) := rfl

/-- The loop over the listeners: one more call each, and the buffer holds the last result. -/
theorem dispatchCalls_eq (hcode : ∀ fn env, (code fn (sig.unpack block) env).2.length = sig.retSize)
    (mem : BufRef → List UInt8) (hbytes : bytes.length = sig.retSize) (env : σ)
    (calls : List (Addr × List (List UInt8))) :
    dispatchCalls (fun fn => t.call code sig (some ret) fn block) cbs
        ⟨env, Function.update mem ret bytes, calls⟩
      = let r := cbs.foldl (fun r fn => code fn (sig.unpack block) r.1) (env, bytes)
        ⟨r.1, Function.update mem ret r.2, calls ++ cbs.map fun fn => (fn, sig.unpack block)⟩ := by
  induction cbs generalizing env bytes calls with
  | nil => simp [dispatchCalls]
  | cons fn cbs ih =>
    have hlen := hcode fn env
    have hcall : t.call code sig (some ret) (some fn) block ⟨env, Function.update mem ret bytes, calls⟩
        = ⟨(code fn (sig.unpack block) env).1,
          Function.update mem ret (code fn (sig.unpack block) env).2,
          calls ++ [(fn, sig.unpack block)]⟩ := by
      rw [t.call_some]
      simp only [adapterCall, Ran.invoke, Ran.writeBuf, Function.update_idem, Function.update_self,
        overwrite_eq (hlen.trans hbytes.symm)]
    rw [dispatchCalls_cons, hcall, ih hlen]
    simp

/-- What the dispatcher does with the buffer, with and without listeners. -/
theorem dispatchLoop_eq
    (hcode : ∀ fn env, (code fn (sig.unpack block) env).2.length = sig.retSize)
    (mem : BufRef → List UInt8) (hjunk : junk.length = sig.retSize) (env : σ)
    (calls : List (Addr × List (List UInt8))) :
    dispatchLoop code sig t cbs (some ret) block ⟨env, Function.update mem ret junk, calls⟩
      = let r := hookCall code cbs (sig.unpack block) sig.retSize env
        ⟨r.1, Function.update mem ret r.2, calls ++ cbs.map fun fn => (fn, sig.unpack block)⟩ := by
  unfold dispatchLoop hookCall
  cases cbs with
  | nil =>
    have hzero : (List.replicate sig.retSize (0 : UInt8)).length = junk.length := by
      rw [List.length_replicate, hjunk]
    simp only [if_true, Ran.writeBuf, Function.update_idem, Function.update_self,
      overwrite_eq hzero, List.foldl_nil, List.map_nil, List.append_nil]
  | cons fn cbs =>
    rw [if_neg (List.cons_ne_nil _ _), dispatchCalls_eq hcode mem hjunk]
    rfl

theorem length_hookCall {retSize : Nat} (hcode : ∀ fn env, (code fn args env).2.length = retSize)
    (env : σ) : (hookCall code cbs args retSize env).2.length = retSize := by
  unfold hookCall
  refine List.foldlRecOn cbs _ (motive := fun r : σ × List UInt8 => r.2.length = retSize) ?_ ?_
  · exact List.length_replicate
  · intro r _ fn _
    exact hcode fn r.1

/-- The struct of the caller holds its arguments for the trampoline. -/
theorem unpack_pack (hargs : Fits ty.args args) : ty.sig.unpack (pack pad ty.args args) = args :=
  map_slots_pack hargs

/-- A call through a generated function is a call of the hook: each listener gets the arguments of
the caller, and the caller gets the result of the last one, or zeros if there is none. -/
theorem callStub_eq (hargs : Fits ty.args args)
    (hcode : ∀ fn env, (code fn args env).2.length = ty.retSize) (hjunk : junk.length = ty.retSize) :
    let r := hookCall code cbs args ty.retSize s.env
    callStub code ty t cbs pad ret junk args s
      = (⟨r.1, Function.update s.mem ret r.2, s.calls ++ cbs.map fun fn => (fn, args)⟩, r.2) := by
  have hunpack := @unpack_pack ty pad args hargs
  have hloop := @dispatchLoop_eq σ code t cbs ret junk (pack pad ty.args args) ty.sig
    (by rw [hunpack]; exact hcode) s.mem hjunk s.env s.calls
  rw [hunpack] at hloop
  have hlen : (hookCall code cbs args ty.retSize s.env).2.length = ty.retSize :=
    length_hookCall hcode s.env
  unfold callStub
  simp only [hloop, Function.update_self]
  exact congrArg (Prod.mk _) (List.take_of_length_le (Nat.le_of_eq hlen))

end

/-- A hook with a byte and a word, which the compiler puts at the offsets 0 and 4, and two
listeners that count their calls in the result. -/
def countedHook : HookType := ⟨[⟨1, 1⟩, ⟨4, 4⟩], 1⟩

def countCall : Code UInt8 := fun fn _ env => (env + 1, [UInt8.ofNat fn * 16 + env])

theorem callStub_eq_of_counted :
    (callStub countCall countedHook .rustDecl [1, 2] (fun _ => 170) 0 [99] [[7], [1, 2, 3, 4]]
        ⟨0, fun _ => [], []⟩).2 = [33]
      ∧ (callStub countCall countedHook .rustDecl [1, 2] (fun _ => 170) 0 [99] [[7], [1, 2, 3, 4]]
        ⟨0, fun _ => [], []⟩).1.calls
        = [(1, [[7], [1, 2, 3, 4]]), (2, [[7], [1, 2, 3, 4]])] := by
  have hfits : Fits countedHook.args [[7], [1, 2, 3, 4]] := .cons rfl (.cons rfl .nil)
  rw [callStub_eq hfits (fun _ _ => rfl) rfl]
  exact ⟨by decide, rfl⟩

end Xylem
