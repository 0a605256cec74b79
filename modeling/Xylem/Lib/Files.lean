import Mathlib.Data.List.Basic
import Mathlib.Logic.Function.Basic

/-!
# Files and descriptors

The system calls on regular files, as far as a program can tell: directory entries lead to
inodes, descriptors to an inode and an offset.  What the system is free to do (to fail, to give
out a number, to move fewer bytes than it was asked for) is an argument.

* `Fs.openAt`, `Fs.create`, `Fs.read`, `Fs.write`, `Fs.fchmod`, `Fs.fsync`, `Fs.close`,
  `Fs.unlink`.
* `Fs.Keeps`: every entry, every descriptor and every inode is as it was.
* `Fs.Adds`: the same, and one file more.
-/

namespace Files

abbrev Fd := Nat

/-- `durable` is what would be read after a crash. -/
structure Inode where
  content : List UInt8
  durable : List UInt8
  mode : Nat
deriving DecidableEq

structure OpenFile where
  inode : Nat
  offset : Nat
deriving DecidableEq

/-- `ν` are the places of a directory where an entry can be. -/
structure Fs (ν : Type*) where
  link : ν → Option Nat
  inode : Nat → Option Inode
  file : Fd → Option OpenFile

namespace Fs

variable {ν : Type*}

/-! ## The calls -/

/-- `open` for reading, where the system gives out `fd`. -/
def openAt (fs : Fs ν) (v : ν) (fd : Fd) : Option (Fs ν) :=
  match fs.link v with
  | none => none
  | some i =>
    if fs.file fd = none then some { fs with file := Function.update fs.file fd (some ⟨i, 0⟩) }
    else none

/-- `open` with `O_CREAT | O_EXCL`, where the system gives out `fd` and the inode `i`. -/
def create [DecidableEq ν] (fs : Fs ν) (v : ν) (i : Nat) (fd : Fd) : Option (Fs ν) :=
  if fs.link v = none ∧ fs.inode i = none ∧ fs.file fd = none then
    some
      { link := Function.update fs.link v (some i)
        inode := Function.update fs.inode i (some ⟨[], [], 0o600⟩)
        file := Function.update fs.file fd (some ⟨i, 0⟩) }
  else none

/-- What a descriptor leads to. -/
def node (fs : Fs ν) (fd : Fd) : Option (OpenFile × Inode) :=
  match fs.file fd with
  | none => none
  | some f => (fs.inode f.inode).map fun node => (f, node)

/-- `read` of `max` bytes, where the system returns `ret` of them if they are there, and one at
least.  `none` is a failure. -/
def read (fs : Fs ν) (fd : Fd) (max : Nat) (ret : Option Nat) : Option (List UInt8 × Fs ν) :=
  match fs.node fd, ret with
  | some (f, node), some n =>
    let got := (node.content.drop f.offset).take (Nat.max 1 (Nat.min n max))
    some (got, { fs with
      file := Function.update fs.file fd (some { f with offset := f.offset + got.length }) })
  | _, _ => none

/-- `write`, where the system takes `ret` bytes if there are as many. -/
def write (fs : Fs ν) (fd : Fd) (buf : List UInt8) (ret : Option Nat) : Option (Nat × Fs ν) :=
  match fs.node fd, ret with
  | some (f, node), some n =>
    let put := buf.take n
    let content :=
      node.content.take f.offset ++ put ++ node.content.drop (f.offset + put.length)
    some (put.length, { fs with
      inode := Function.update fs.inode f.inode (some { node with content := content })
      file := Function.update fs.file fd (some { f with offset := f.offset + put.length }) })
  | _, _ => none

/-- `fchmod`. -/
def fchmod (fs : Fs ν) (fd : Fd) (mode : Nat) (ok : Bool) : Option (Fs ν) :=
  match fs.node fd, ok with
  | some (f, node), true =>
    some { fs with inode := Function.update fs.inode f.inode (some { node with mode := mode }) }
  | _, _ => none

/-- `fsync`. -/
def fsync (fs : Fs ν) (fd : Fd) (ok : Bool) : Option (Fs ν) :=
  match fs.node fd, ok with
  | some (f, node), true =>
    some { fs with
      inode := Function.update fs.inode f.inode (some { node with durable := node.content }) }
  | _, _ => none

/-- `close`. -/
def close (fs : Fs ν) (fd : Fd) : Fs ν := { fs with file := Function.update fs.file fd none }

/-- `unlink`.  The inode stays, and nothing leads to it. -/
def unlink [DecidableEq ν] (fs : Fs ν) (v : ν) : Fs ν :=
  { fs with link := Function.update fs.link v none }

/-- The inode of an entry. -/
def fileAt (fs : Fs ν) (v : ν) : Option Inode := (fs.link v).bind fs.inode

/-! ## What a call leaves as it is -/

/-- Everything is as it was, but for inodes that nothing leads to. -/
structure Keeps (fs fs' : Fs ν) : Prop where
  link : fs'.link = fs.link
  file : fs'.file = fs.file
  inode : ∀ i, fs.inode i ≠ none → fs'.inode i = fs.inode i

/-- The same, with one file more. -/
structure Adds [DecidableEq ν] (fs fs' : Fs ν) (v : ν) (node : Inode) : Prop where
  fresh : fs.link v = none
  link : ∃ i, fs.inode i = none ∧ fs'.inode i = some node
    ∧ fs'.link = Function.update fs.link v (some i)
  file : fs'.file = fs.file
  inode : ∀ i, fs.inode i ≠ none → fs'.inode i = fs.inode i

variable {fs fs' fs'' : Fs ν} {v u : ν} {node : Inode} {i : Nat} {fd : Fd}

theorem Keeps.refl (fs : Fs ν) : fs.Keeps fs := ⟨rfl, rfl, fun _ _ => rfl⟩

theorem Keeps.trans (h : fs.Keeps fs') (h' : fs'.Keeps fs'') : fs.Keeps fs'' where
  link := h'.link.trans h.link
  file := h'.file.trans h.file
  inode i hi := (h'.inode i (by rwa [h.inode i hi])).trans (h.inode i hi)

theorem fileAt_eq_some : fs.fileAt v = some node ↔ ∃ i, fs.link v = some i ∧ fs.inode i = some node :=
  Option.bind_eq_some_iff

/-- The files that were there are there. -/
theorem Keeps.fileAt (h : fs.Keeps fs') (hv : fs.fileAt v = some node) :
    fs'.fileAt v = some node := by
  obtain ⟨i, hlink, hi⟩ := fileAt_eq_some.mp hv
  refine fileAt_eq_some.mpr ⟨i, h.link ▸ hlink, ?_⟩
  rw [h.inode i (by rw [hi]; exact Option.some_ne_none _)]
  exact hi

section

variable [DecidableEq ν]

theorem Adds.of_keeps (h : fs.Keeps fs') (h' : fs'.Adds fs'' v node) : fs.Adds fs'' v node where
  fresh := h.link ▸ h'.fresh
  link := by
    obtain ⟨i, hi, hnode, hlink⟩ := h'.link
    refine ⟨i, ?_, hnode, h.link ▸ hlink⟩
    by_contra hne
    exact hne (h.inode i hne ▸ hi)
  file := h'.file.trans h.file
  inode i hi := (h'.inode i (by rwa [h.inode i hi])).trans (h.inode i hi)

/-- The new file is where it has been made. -/
theorem Adds.fileAt_self (h : fs.Adds fs' v node) : fs'.fileAt v = some node := by
  obtain ⟨i, -, hnode, hlink⟩ := h.link
  exact fileAt_eq_some.mpr ⟨i, by rw [hlink, Function.update_self], hnode⟩

theorem Adds.fileAt_fresh (h : fs.Adds fs' v node) : fs.fileAt v = none := by
  unfold fileAt
  rw [h.fresh]
  rfl

theorem Adds.ne (h : fs.Adds fs' v node) {node' : Inode} (hu : fs.fileAt u = some node') : u ≠ v := by
  rintro rfl
  obtain ⟨i, hlink, -⟩ := fileAt_eq_some.mp hu
  rw [h.fresh] at hlink
  cases hlink

/-- The new file is taken away again. -/
theorem Adds.unlink (h : fs.Adds fs' v node) : fs.Keeps (fs'.unlink v) where
  link := by
    obtain ⟨i, -, -, hlink⟩ := h.link
    show Function.update fs'.link v none = fs.link
    rw [hlink, Function.update_idem, ← h.fresh, Function.update_eq_self]
  file := h.file
  inode := h.inode

end

/-! ## What a call does on a file that is open -/

variable {f : OpenFile} {buf got : List UInt8} {max n : Nat} {ret : Option Nat} {ok : Bool}

theorem node_eq (hfd : fs.file fd = some f) (hi : fs.inode f.inode = some node) :
    fs.node fd = some (f, node) := by
  unfold Fs.node
  rw [hfd]
  simp only [hi, Option.map_some]

theorem openAt_eq (hv : fs.link v = some i) (hfd : fs.file fd = none) :
    fs.openAt v fd = some { fs with file := Function.update fs.file fd (some ⟨i, 0⟩) } := by
  unfold Fs.openAt
  simp only [hv, hfd, if_true]

theorem openAt_none (hv : fs.link v = some i) (hfd : fs.file fd ≠ none) : fs.openAt v fd = none := by
  unfold Fs.openAt
  simp only [hv, hfd, if_false]

/-- A read gives what comes next, and nothing only at the end. -/
theorem read_spec (hnode : fs.node fd = some (f, node)) (h : fs.read fd max ret = some (got, fs')) :
    got <+: node.content.drop f.offset ∧ (got = [] → node.content.length ≤ f.offset)
      ∧ fs' = { fs with
          file := Function.update fs.file fd (some { f with offset := f.offset + got.length }) } := by
  cases ret with
  | none => simp [Fs.read, hnode] at h
  | some n =>
    simp only [Fs.read, hnode, Option.some.injEq, Prod.mk.injEq] at h
    obtain ⟨rfl, rfl⟩ := h
    refine ⟨List.take_prefix _ _, fun hnil => ?_, rfl⟩
    rcases List.take_eq_nil_iff.mp hnil with hzero | hdrop
    · exact absurd hzero (Nat.pos_iff_ne_zero.mp (Nat.le_max_left 1 _))
    · exact List.drop_eq_nil_iff.mp hdrop

/-- A write at the end of a file adds what it takes to the file. -/
theorem write_spec (hnode : fs.node fd = some (f, node)) (hoff : f.offset = node.content.length)
    (h : fs.write fd buf ret = some (n, fs')) :
    fs' = { fs with
      inode := Function.update fs.inode f.inode
        (some { node with content := node.content ++ buf.take n })
      file := Function.update fs.file fd (some { f with offset := f.offset + (buf.take n).length }) } := by
  cases ret with
  | none => simp [Fs.write, hnode] at h
  | some m =>
    simp only [Fs.write, hnode, Option.some.injEq, Prod.mk.injEq] at h
    obtain ⟨rfl, rfl⟩ := h
    have htake : buf.take (buf.take m).length = buf.take m := by
      rw [List.length_take, Nat.min_comm, List.take_eq_take_iff]
      omega
    rw [htake, hoff, List.take_length, List.drop_eq_nil_of_le (Nat.le_add_right _ _),
      List.append_nil]

theorem fchmod_spec {mode : Nat} (hnode : fs.node fd = some (f, node))
    (h : fs.fchmod fd mode ok = some fs') :
    fs' = { fs with
      inode := Function.update fs.inode f.inode (some { node with mode := mode }) } := by
  cases ok with
  | false => simp [Fs.fchmod, hnode] at h
  | true => simpa [Fs.fchmod, hnode] using h.symm

theorem fsync_spec (hnode : fs.node fd = some (f, node)) (h : fs.fsync fd ok = some fs') :
    fs' = { fs with
      inode := Function.update fs.inode f.inode (some { node with durable := node.content }) } := by
  cases ok with
  | false => simp [Fs.fsync, hnode] at h
  | true => simpa [Fs.fsync, hnode] using h.symm

/-- A read that the system serves. -/
theorem read_isSome (hnode : fs.node fd = some (f, node)) (hret : ret ≠ none) :
    fs.read fd max ret ≠ none := by
  cases ret with
  | none => exact absurd rfl hret
  | some n => simp [Fs.read, hnode]

/-- A write that the system serves. -/
theorem write_pos (hnode : fs.node fd = some (f, node)) (hbuf : buf ≠ []) (h : ret = some (n + 1)) :
    ∃ w fs', fs.write fd buf ret = some (w + 1, fs') := by
  subst h
  cases buf with
  | nil => exact absurd rfl hbuf
  | cons b buf => exact ⟨(buf.take n).length, _, by simp only [Fs.write, hnode]; rfl⟩

end Fs

end Files
