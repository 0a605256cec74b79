import Mathlib.Data.List.TakeWhile
import Xylem.Basic

/-!
# The file of a module name

`module_load_path` resolves a name to the file that is its identity: the name itself with the
suffix, and for a bare name the directories that `dlopen` searches, which stand in the environment
as lists with colons between them.  `realpath` and `getenv` are the system's.

`moduleLoadPath_eq` says that this is the first file there is in the order of `searchOrder`.
-/

namespace Xylem

/-- A string of the source. -/
def ascii (s : String) : List UInt8 := s.toList.map fun c => UInt8.ofNat c.toNat

/-- `'/'`. -/
def slash : UInt8 := 47

/-- `':'`. -/
def colon : UInt8 := 58

section

variable (realpath : List UInt8 → Option CStr) (getenv : List UInt8 → Option CStr)

/-- The `dlen` bytes from `p` up to `end`, or to the end of the string. -/
def pathEntry (p : List UInt8) : List UInt8 := p.takeWhile (· ≠ colon)

/-- `end ? end + 1 : p + dlen`. -/
def nextPathEntry (p : List UInt8) : List UInt8 :=
  if colon ∈ p then p.drop ((pathEntry p).length + 1) else p.drop (pathEntry p).length

theorem pathEntry_of_not_mem {p : List UInt8} (h : colon ∉ p) : pathEntry p = p := by
  induction p with
  | nil => rfl
  | cons b p ih =>
    obtain ⟨hb, hp⟩ := not_or.mp (mt List.mem_cons.mpr h)
    unfold pathEntry
    rw [List.takeWhile_cons_of_pos (by simpa using Ne.symm hb)]
    exact congrArg (b :: ·) (ih hp)

theorem nextPathEntry_of_not_mem {p : List UInt8} (h : colon ∉ p) : nextPathEntry p = [] := by
  unfold nextPathEntry
  rw [if_neg h, pathEntry_of_not_mem h, List.drop_length]

theorem pathEntry_append {p : List UInt8} (h : colon ∈ p) : p = pathEntry p ++ colon :: nextPathEntry p := by
  unfold nextPathEntry
  rw [if_pos h]
  induction p with
  | nil => cases h
  | cons b p ih =>
    unfold pathEntry at ih ⊢
    by_cases hb : b = colon
    · rw [hb, List.takeWhile_cons_of_neg (by decide)]
      rfl
    · rw [List.takeWhile_cons_of_pos (by simpa using hb)]
      exact congrArg (b :: ·) (ih ((List.mem_cons.mp h).resolve_left (Ne.symm hb)))

theorem nextPathEntry_lt {p : List UInt8} (hp : p ≠ []) : (nextPathEntry p).length < p.length := by
  by_cases h : colon ∈ p
  · have hlen := congrArg List.length (pathEntry_append h)
    rw [List.length_append, List.length_cons] at hlen
    omega
  · rw [nextPathEntry_of_not_mem h]
    exact List.length_pos_iff.mpr hp

/-- `module_search_path_list`, from the pointer `p` on. -/
def moduleSearchPathList (leaf p : List UInt8) : Option CStr :=
  if p = [] then none
  else if 0 < (pathEntry p).length then
    match realpath (pathEntry p ++ slash :: leaf) with
    | some resolved => some resolved
    | none => moduleSearchPathList leaf (nextPathEntry p)
  else moduleSearchPathList leaf (nextPathEntry p)
termination_by p.length
decreasing_by
  all_goals exact nextPathEntry_lt ‹_›

def ldVars : List (List UInt8) := [ascii "LD_LIBRARY_PATH", ascii "DYLD_LIBRARY_PATH"]

def ldDefaults : List (List UInt8) := [ascii "/lib", ascii "/usr/lib", ascii "/usr/local/lib"]

/-- The name with the suffix. -/
def soName (fname : CStr) : CStr where
  bytes := fname.bytes ++ ascii ".so"
  nulFree h := (List.mem_append.mp h).elim fname.nulFree (by decide)

/-- `module_load_path`. -/
def moduleLoadPath (fname : CStr) : CStr :=
  let buf := soName fname
  match realpath buf.bytes with
  | some resolved => resolved
  | none =>
    if slash ∈ buf.bytes then buf
    else
      let env := ldVars.findSome? fun v =>
        match getenv v with
        | none => none
        | some ld => if ld.bytes = [] then none else moduleSearchPathList realpath buf.bytes ld.bytes
      match env with
      | some resolved => resolved
      | none =>
        match ldDefaults.findSome? (moduleSearchPathList realpath buf.bytes) with
        | some resolved => resolved
        | none => buf

/-! ## The order -/

/-- The directories of a list; an empty entry is none. -/
def directories (list : List UInt8) : List (List UInt8) := (list.splitOn colon).filter (· ≠ [])

/-- The directories that are searched for a bare name. -/
def searchDirs : List (List UInt8) :=
  (ldVars.flatMap fun v => directories ((getenv v).elim [] CStr.bytes))
    ++ ldDefaults.flatMap directories

/-- The paths that a name can stand for. -/
def searchOrder (fname : CStr) : List (List UInt8) :=
  let buf := (soName fname).bytes
  buf :: if slash ∈ buf then [] else (searchDirs getenv).map (· ++ slash :: buf)

/-- A list without its first entry. -/
theorem directories_eq {p : List UInt8} :
    directories p
      = (if 0 < (pathEntry p).length then [pathEntry p] else []) ++ directories (nextPathEntry p) := by
  have hfirst : ∀ l : List UInt8, [l].filter (· ≠ []) = if 0 < l.length then [l] else [] := by
    intro l
    cases l with
    | nil => rfl
    | cons => rfl
  rw [← hfirst]
  by_cases hcolon : colon ∈ p
  · have hnot : colon ∉ pathEntry p := fun h => by simpa using List.mem_takeWhile_imp h
    conv_lhs => rw [pathEntry_append hcolon]
    unfold directories
    rw [List.splitOn_append_cons_self_of_not_mem hnot, ← List.filter_append]
    rfl
  · rw [nextPathEntry_of_not_mem hcolon, pathEntry_of_not_mem hcolon]
    unfold directories
    rw [List.splitOn_eq_singleton hcolon, ← List.filter_append]
    rfl

/-- The walk along a list tries the directories of the list, one after the other. -/
theorem moduleSearchPathList_eq (leaf p : List UInt8) :
    moduleSearchPathList realpath leaf p
      = (directories p).findSome? fun d => realpath (d ++ slash :: leaf) := by
  fun_induction moduleSearchPathList realpath leaf p with
  | case1 => rfl
  | case2 p hp hpos resolved hresolved =>
    have hsome : (realpath (pathEntry p ++ slash :: leaf)).isSome := by rw [hresolved]; rfl
    rw [directories_eq, if_pos hpos, ← hresolved]
    exact (@List.findSome?_cons_of_isSome _ _ (fun d => realpath (d ++ slash :: leaf)) _ _ hsome).symm
  | case3 p hp hpos hnone ih =>
    rw [ih, @directories_eq p, if_pos hpos]
    exact (List.findSome?_cons_of_isNone (by rw [hnone]; rfl)).symm
  | case4 p hp hzero ih =>
    rw [ih, @directories_eq p, if_neg hzero]
    rfl

/-- A list in the environment that is empty is as good as none. -/
theorem search_getenv (leaf v : List UInt8) :
    (match getenv v with
      | none => none
      | some ld => if ld.bytes = [] then none else moduleSearchPathList realpath leaf ld.bytes)
      = (directories ((getenv v).elim [] CStr.bytes)).findSome? fun d =>
        realpath (d ++ slash :: leaf) := by
  cases getenv v with
  | none => rfl
  | some ld =>
    by_cases hld : ld.bytes = []
    · simp only [hld, if_true, Option.elim_some]
      rfl
    · simp only [hld, if_false, Option.elim_some]
      exact moduleSearchPathList_eq realpath leaf ld.bytes

theorem findSome_flatMap {α β γ : Type*} (g : α → List β) (f : β → Option γ) (l : List α) :
    (l.flatMap g).findSome? f = l.findSome? fun a => (g a).findSome? f := by
  induction l with
  | nil => rfl
  | cons a l ih =>
    rw [List.flatMap_cons, List.findSome?_append, ih, List.findSome?_cons]
    cases (g a).findSome? f with
    | none => rfl
    | some c => rfl

/-- The file of a name is the first that there is, and the name itself if there is none. -/
theorem moduleLoadPath_eq (fname : CStr) :
    moduleLoadPath realpath getenv fname
      = ((searchOrder getenv fname).findSome? realpath).getD (soName fname) := by
  have henv : (ldVars.findSome? fun v =>
      match getenv v with
      | none => none
      | some ld =>
        if ld.bytes = [] then none
        else moduleSearchPathList realpath (soName fname).bytes ld.bytes)
      = (ldVars.flatMap fun v => directories ((getenv v).elim [] CStr.bytes)).findSome? fun d =>
        realpath (d ++ slash :: (soName fname).bytes) := by
    rw [findSome_flatMap]
    exact congrArg (ldVars.findSome? ·) (funext fun v => search_getenv realpath getenv _ v)
  have hdefaults : ldDefaults.findSome? (moduleSearchPathList realpath (soName fname).bytes)
      = (ldDefaults.flatMap directories).findSome? fun d =>
        realpath (d ++ slash :: (soName fname).bytes) := by
    rw [findSome_flatMap]
    exact congrArg (ldDefaults.findSome? ·) (funext fun p => moduleSearchPathList_eq realpath _ p)
  unfold moduleLoadPath searchOrder
  simp only [List.findSome?_cons, henv, hdefaults]
  cases realpath (soName fname).bytes with
  | some resolved => rfl
  | none =>
    by_cases hslash : slash ∈ (soName fname).bytes
    · simp only [hslash, if_true]
      rfl
    · simp only [hslash, if_false, searchDirs, List.findSome?_map, List.findSome?_append,
        Function.comp_def]
      cases (ldVars.flatMap fun v => directories ((getenv v).elim [] CStr.bytes)).findSome? fun d =>
          realpath (d ++ slash :: (soName fname).bytes) with
      | some resolved => rfl
      | none =>
        cases (ldDefaults.flatMap directories).findSome? fun d =>
            realpath (d ++ slash :: (soName fname).bytes) with
        | some resolved => rfl
        | none => rfl

end

end Xylem
