import Xylem.Lib.Files
import Xylem.SearchPath

/-!
# The copy that a reload opens

While `xy_reloading` is set, `mod_load_open_handle` opens a copy of the file.  `copy_to_tmp` makes
it, next to the file or in a directory for such files, and `copy_one` moves the bytes through a
buffer, with as many calls as the system makes necessary.  Nobody else writes to the files
meanwhile, `close` and `unlink` do what they are asked, and the `fsync` of the directory, whose
failure is ignored, is left out.

* `copyOne_result`, `copyToTmp_result`: either there is one new file, with the bytes of the
  source, durable and executable, or everything is as it was; no descriptor stays open.
* `modLoadOpenHandle_result`: what a reload opens has the bytes of the file, at a path that no
  file had, and an open that fails leaves no copy behind.
-/

namespace Xylem

open Files

/-- What `mkstemps` gives out: the six characters, the inode and the descriptor. -/
structure Temp where
  six : CStr
  inode : Nat
  fd : Fd

/-- What the system returns to the calls of one `copy_one`; `read` and `write` are asked for each
call by its number.  `dup` is for the `strdup`. -/
structure Answers where
  temp : Option Temp
  src : Option Fd
  read : Nat → Option Nat
  write : Nat → Option Nat
  chmod : Bool
  sync : Bool
  dup : Bool

/-- The template with its six `X`s, which stand before the last three characters, replaced. -/
def fill (tmpl six : CStr) : CStr where
  bytes := tmpl.bytes.take (tmpl.bytes.length - 9) ++ six.bytes
    ++ tmpl.bytes.drop (tmpl.bytes.length - 3)
  nulFree h := by
    rcases List.mem_append.mp h with h | h
    · rcases List.mem_append.mp h with h | h
      · exact tmpl.nulFree (List.mem_of_mem_take h)
      · exact six.nulFree h
    · exact tmpl.nulFree (List.mem_of_mem_drop h)

section

variable {ν : Type*} [DecidableEq ν] (place : CStr → ν)

/-- `mkstemps(tmpl, 3)`. -/
def mkstemps (fs : Fs ν) (tmpl : CStr) : Option Temp → Option (CStr × Fd × Fs ν)
  | none => none
  | some temp =>
    (fs.create (place (fill tmpl temp.six)) temp.inode temp.fd).map fun fs =>
      (fill tmpl temp.six, temp.fd, fs)

/-- The loop around `write`. -/
def writeLoop (ret : Nat → Option Nat) (out : Fd) (calls : Nat) (buf : List UInt8) (fs : Fs ν) :
    Bool × Nat × Fs ν :=
  if buf = [] then (true, calls, fs)
  else
    match fs.write out buf (ret calls) with
    | none => (false, calls + 1, fs)
    | some (0, fs) => (false, calls + 1, fs)
    | some (w + 1, fs) => writeLoop ret out (calls + 1) (buf.drop (w + 1)) fs
termination_by buf.length
decreasing_by
  have hpos : 0 < buf.length := List.length_pos_iff.mpr ‹_›
  rw [List.length_drop]
  omega

/-- The loop around `read`, for `fuel` rounds at most. -/
def copyLoop (ans : Answers) (inFd out : Fd) : Nat → Nat → Nat → Fs ν → Option (Bool × Fs ν)
  | 0, _, _, _ => none
  | fuel + 1, reads, writes, fs =>
    match fs.read inFd 8192 (ans.read reads) with
    | none => some (false, fs)
    | some ([], fs) => some (true, fs)
    | some (buf, fs) =>
      match writeLoop ans.write out writes buf fs with
      | (true, writes, fs) => copyLoop ans inFd out fuel (reads + 1) writes fs
      | (false, _, fs) => some (false, fs)

/-- What follows the loop: `fchmod` and `fsync`. -/
def settle (ans : Answers) (out : Fd) (fs : Fs ν) : Bool × Fs ν :=
  match fs.fchmod out 0o755 ans.chmod with
  | none => (false, fs)
  | some fs =>
    match fs.fsync out ans.sync with
    | none => (false, fs)
    | some fs => (true, fs)

/-- The label `out`. -/
def copyOut (tmpl : CStr) (out : Fd) (inFd : Option Fd) (rc : Bool) (fs : Fs ν) : Fs ν :=
  let fs := (inFd.elim fs fs.close).close out
  if rc then fs else fs.unlink (place tmpl)

/-- `copy_one` when both files are open. -/
def copyOpen (fuel : Nat) (ans : Answers) (tmpl : CStr) (out inFd : Fd) (fs : Fs ν) :
    Option (Option (Option CStr) × Fs ν) :=
  match copyLoop ans inFd out fuel 0 0 fs with
  | none => none
  | some (false, fs) => some (none, copyOut place tmpl out (some inFd) false fs)
  | some (true, fs) =>
    match settle ans out fs with
    | (false, fs) => some (none, copyOut place tmpl out (some inFd) false fs)
    | (true, fs) =>
      some (some (if ans.dup then some tmpl else none),
        copyOut place tmpl out (some inFd) true fs)

/-- `copy_one`: `none` for -1, else `*out_tmp`, which is NULL when the `strdup` fails. -/
def copyOne (fuel : Nat) (ans : Answers) (src tmplIn : CStr) (fs : Fs ν) :
    Option (Option (Option CStr) × Fs ν) :=
  if 512 ≤ tmplIn.bytes.length then some (none, fs)
  else
    match mkstemps place fs tmplIn ans.temp with
    | none => some (none, fs)
    | some (tmpl, out, fs) =>
      match ans.src with
      | none => some (none, copyOut place tmpl out none false fs)
      | some inFd =>
        match fs.openAt (place src) inFd with
        | none => some (none, copyOut place tmpl out none false fs)
        | some fs => copyOpen place fuel ans tmpl out inFd fs

/-- The bytes up to the last slash. -/
def dirOf (src : CStr) : Option (List UInt8) :=
  if slash ∈ src.bytes then some ((src.bytes.reverse.dropWhile (· ≠ slash)).tail.reverse) else none

def siblingName : CStr := ⟨ascii "/.xylem-XXXXXX.so", by decide⟩

def tmpTemplate : CStr := ⟨ascii "/tmp/xylem-XXXXXX.so", by decide⟩

def hereTemplate : CStr := ⟨ascii "./tmp/xylem-XXXXXX.so", by decide⟩

theorem dirOf_nulFree {src : CStr} {dir : List UInt8} (h : dirOf src = some dir) : 0 ∉ dir := by
  unfold dirOf at h
  split at h
  · cases h
    intro hmem
    have htail := List.mem_of_mem_tail (List.mem_reverse.mp hmem)
    exact src.nulFree (List.mem_reverse.mp ((List.dropWhile_suffix _).subset htail))
  · cases h

/-- The template next to the file, if there is room for it. -/
def siblingTemplate (src : CStr) : Option CStr :=
  match h : dirOf src with
  | none => none
  | some dir =>
    if dir.length + 32 < 512 then
      some ⟨dir ++ siblingName.bytes, fun hmem =>
        (List.mem_append.mp hmem).elim (dirOf_nulFree h) siblingName.nulFree⟩
    else none

/-- The next try, when the one before has failed. -/
def tryNext (ret : Option (Option (Option CStr) × Fs ν))
    (next : Fs ν → Option (Option (Option CStr) × Fs ν)) : Option (Option (Option CStr) × Fs ν) :=
  match ret with
  | some (none, fs) => next fs
  | ret => ret

/-- `copy_to_tmp`: three tries at most. -/
def copyToTmp (fuel : Nat) (ans : Nat → Answers) (src : CStr) (fs : Fs ν) :
    Option (Option (Option CStr) × Fs ν) :=
  let ret :=
    match siblingTemplate src with
    | none => some (none, fs)
    | some tmpl => copyOne place fuel (ans 0) src tmpl fs
  let ret := tryNext ret (copyOne place fuel (ans 1) src tmpTemplate)
  tryNext ret (copyOne place fuel (ans 2) src hereTemplate)

/-- How `mod_load_open_handle` opens the file at `loadPath`: the handle, and `tmp_load_path`. -/
def modLoadOpenHandle (fuel : Nat) (ans : Nat → Answers) (dlopen : Option CStr → Option Handle)
    (reloading : Bool) (loadPath : CStr) (fs : Fs ν) :
    Option (Option (Handle × Option CStr) × Fs ν) :=
  match (if reloading then copyToTmp place fuel ans loadPath fs else some (none, fs)) with
  | none => none
  | some (some tmp, fs) =>
    match dlopen tmp with
    | none => some (none, tmp.elim fs fun tmp => fs.unlink (place tmp))
    | some h => some (some (h, tmp), fs)
  | some (none, fs) => some ((dlopen (some loadPath)).map fun h => (h, none), fs)

/-! ## The loops -/

/-- A copy to the new file at `v` has come to `c`, and has read up to `off`. -/
structure Copying (fs₀ fs : Fs ν) (v : ν) (i j : Nat) (out inFd : Fd) (off : Nat)
    (c : List UInt8) : Prop where
  link : fs.link = Function.update fs₀.link v (some i)
  file : fs.file = Function.update (Function.update fs₀.file out (some ⟨i, c.length⟩)) inFd
    (some ⟨j, off⟩)
  inode : ∃ d m, fs.inode = Function.update fs₀.inode i (some ⟨c, d, m⟩)

variable {place}
variable {fs₀ fs fs' : Fs ν} {v : ν} {i j n : Nat} {out inFd : Fd} {off fuel : Nat}
  {c buf : List UInt8} {node : Inode} {ans : Answers} {ok : Bool} {ret : Nat → Option Nat}

theorem Copying.file_out (h : Copying fs₀ fs v i j out inFd off c) (hne : inFd ≠ out) :
    fs.file out = some ⟨i, c.length⟩ := by
  rw [h.file, Function.update_of_ne hne.symm, Function.update_self]

theorem Copying.node_out (h : Copying fs₀ fs v i j out inFd off c) (hne : inFd ≠ out) :
    ∃ d m, fs.inode = Function.update fs₀.inode i (some ⟨c, d, m⟩)
      ∧ fs.node out = some (⟨i, c.length⟩, ⟨c, d, m⟩) := by
  obtain ⟨d, m, hinode⟩ := h.inode
  refine ⟨d, m, hinode, Fs.node_eq (h.file_out hne) ?_⟩
  rw [hinode, Function.update_self]

theorem Copying.node_in (h : Copying fs₀ fs v i j out inFd off c) (hj : fs₀.inode j = some node)
    (hij : j ≠ i) : fs.node inFd = some (⟨j, off⟩, node) := by
  obtain ⟨d, m, hinode⟩ := h.inode
  refine Fs.node_eq (by rw [h.file, Function.update_self]) ?_
  rw [hinode, Function.update_of_ne hij]
  exact hj

/-- One `write`. -/
theorem Copying.write {w : Nat} {r : Option Nat} (h : Copying fs₀ fs v i j out inFd off c)
    (hne : inFd ≠ out) (hw : fs.write out buf r = some (w, fs')) :
    Copying fs₀ fs' v i j out inFd off (c ++ buf.take w) := by
  obtain ⟨d, m, hinode, hnode⟩ := h.node_out hne
  rw [Fs.write_spec hnode rfl hw]
  refine ⟨h.link, ?_, d, m, ?_⟩
  · show Function.update fs.file out _ = _
    rw [h.file, Function.update_comm hne, Function.update_idem, List.length_append]
  · show Function.update fs.inode i _ = _
    rw [hinode, Function.update_idem]

/-- The loop around `write` adds what is in the buffer, or a part of it when it fails. -/
theorem Copying.writeLoop {calls : Nat} (hne : inFd ≠ out)
    (h : Copying fs₀ fs v i j out inFd off c)
    (hw : writeLoop ret out calls buf fs = (ok, n, fs')) :
    ∃ c', Copying fs₀ fs' v i j out inFd off c' ∧ (ok = true → c' = c ++ buf)
      ∧ ((∀ k, ∃ m, ret k = some (m + 1)) → ok = true) := by
  fun_induction Xylem.writeLoop ret out calls buf fs generalizing c with
  | case1 calls fs =>
    cases hw
    exact ⟨c, h, fun _ => (List.append_nil c).symm, fun _ => rfl⟩
  | case2 calls buf fs hbuf hnone =>
    cases hw
    refine ⟨c, h, by rintro ⟨⟩, fun hserved => ?_⟩
    obtain ⟨d, m, -, hnode⟩ := h.node_out hne
    obtain ⟨k, hk⟩ := hserved calls
    obtain ⟨w, fs', hsome⟩ := Fs.write_pos hnode hbuf hk
    rw [hnone] at hsome
    cases hsome
  | case3 calls buf fs hbuf fs₁ hzero =>
    cases hw
    refine ⟨_, h.write hne hzero, by rintro ⟨⟩, fun hserved => ?_⟩
    obtain ⟨d, m, -, hnode⟩ := h.node_out hne
    obtain ⟨k, hk⟩ := hserved calls
    obtain ⟨w, fs', hsome⟩ := Fs.write_pos hnode hbuf hk
    rw [hzero] at hsome
    cases hsome
  | case4 calls buf fs hbuf w fs₁ hput ih =>
    obtain ⟨c', hc', hall, hserved⟩ := ih (h.write hne hput) hw
    refine ⟨c', hc', fun hok => ?_, hserved⟩
    rw [hall hok, List.append_assoc, List.take_append_drop]

/-- One `read`. -/
theorem Copying.read {max : Nat} {r : Option Nat} (h : Copying fs₀ fs v i j out inFd off c)
    (hj : fs₀.inode j = some node) (hij : j ≠ i) (hr : fs.read inFd max r = some (buf, fs')) :
    Copying fs₀ fs' v i j out inFd (off + buf.length) c := by
  obtain ⟨-, -, hfs⟩ := Fs.read_spec (h.node_in hj hij) hr
  rw [hfs]
  refine ⟨h.link, ?_, h.inode⟩
  show Function.update fs.file inFd _ = _
  rw [h.file, Function.update_idem]

/-- What has been read is what is in the file up to there. -/
theorem take_of_prefix {l : List UInt8} (h : buf <+: l.drop off) :
    l.take off ++ buf = l.take (off + buf.length) := by
  rw [List.take_add, ← List.prefix_iff_eq_take.mp h]

/-- No `read` and no `write` fails. -/
structure Answers.Served (ans : Answers) : Prop where
  read : ∀ k, ans.read k ≠ none
  write : ∀ k, ∃ n, ans.write k = some (n + 1)

/-- The loop around `read` comes to its end, and has copied the file unless a call has failed. -/
theorem Copying.copyLoop {reads writes : Nat} (hj : fs₀.inode j = some node) (hij : j ≠ i)
    (hne : inFd ≠ out) (h : Copying fs₀ fs v i j out inFd off (node.content.take off))
    (hfuel : node.content.length - off < fuel) :
    ∃ ok fs', copyLoop ans inFd out fuel reads writes fs = some (ok, fs')
      ∧ (∃ c off', Copying fs₀ fs' v i j out inFd off' c ∧ (ok = true → c = node.content))
      ∧ (ans.Served → ok = true) := by
  induction fuel generalizing fs off reads writes with
  | zero => exact absurd hfuel (Nat.not_lt_zero _)
  | succ fuel ih =>
    unfold Xylem.copyLoop
    split
    · next hnone =>
      exact ⟨false, fs, rfl, ⟨_, off, h, by rintro ⟨⟩⟩, fun hserved =>
        absurd hnone (Fs.read_isSome (h.node_in hj hij) (hserved.read reads))⟩
    · next fs₁ hread =>
      obtain ⟨-, hend, -⟩ := Fs.read_spec (h.node_in hj hij) hread
      exact ⟨true, fs₁, rfl,
        ⟨_, off, h.read hj hij hread, fun _ => List.take_of_length_le (hend rfl)⟩, fun _ => rfl⟩
    · next buf fs₁ hbuf hread =>
      obtain ⟨hpre, -, -⟩ := Fs.read_spec (h.node_in hj hij) hread
      have hpos : 0 < buf.length := List.length_pos_iff.mpr hbuf
      have hle : buf.length ≤ node.content.length - off := by
        have := hpre.length_le
        rwa [List.length_drop] at this
      have hread₁ := h.read hj hij hread
      split
      · next writes' fs₂ hwrite =>
        obtain ⟨c', hc', hall, -⟩ := hread₁.writeLoop hne hwrite
        rw [hall rfl, take_of_prefix hpre] at hc'
        exact ih hc' (by omega)
      · next writes' fs₂ hwrite =>
        obtain ⟨c', hc', -, hserved⟩ := hread₁.writeLoop hne hwrite
        exact ⟨false, fs₂, rfl, ⟨c', _, hc', by rintro ⟨⟩⟩, fun h => hserved h.write⟩

/-- `fchmod` and `fsync` leave the content as it is. -/
theorem Copying.settle (hne : inFd ≠ out) (h : Copying fs₀ fs v i j out inFd off c)
    (hs : settle ans out fs = (ok, fs')) :
    Copying fs₀ fs' v i j out inFd off c
      ∧ (ok = true → fs'.inode = Function.update fs₀.inode i (some ⟨c, c, 0o755⟩))
      ∧ (ans.chmod = true → ans.sync = true → ok = true) := by
  obtain ⟨d, m, hinode, hnode⟩ := h.node_out hne
  unfold Xylem.settle at hs
  split at hs
  · next hnone =>
    cases hs
    refine ⟨h, by rintro ⟨⟩, fun hchmod => ?_⟩
    simp [hchmod, Fs.fchmod, hnode] at hnone
  · next fs₁ hchmod =>
    have hfs₁ := Fs.fchmod_spec hnode hchmod
    have hinode₁ : fs₁.inode = Function.update fs₀.inode i (some ⟨c, d, 0o755⟩) := by
      rw [hfs₁, hinode, Function.update_idem]
    have h₁ : Copying fs₀ fs₁ v i j out inFd off c := by
      rw [hfs₁] at hinode₁ ⊢
      exact ⟨h.link, h.file, d, 0o755, hinode₁⟩
    have hnode₁ : fs₁.node out = some (⟨i, c.length⟩, ⟨c, d, 0o755⟩) :=
      Fs.node_eq (h₁.file_out hne) (by rw [hinode₁, Function.update_self])
    split at hs
    · next hnone =>
      cases hs
      refine ⟨h₁, by rintro ⟨⟩, fun _ hsync => ?_⟩
      simp [hsync, Fs.fsync, hnode₁] at hnone
    · next fs₂ hsync =>
      cases hs
      have hfs₂ := Fs.fsync_spec hnode₁ hsync
      have hinode₂ : fs'.inode = Function.update fs₀.inode i (some ⟨c, c, 0o755⟩) := by
        rw [hfs₂, hinode₁, Function.update_idem]
      refine ⟨?_, fun _ => hinode₂, fun _ _ => rfl⟩
      rw [hfs₂] at hinode₂ ⊢
      exact ⟨h₁.link, h₁.file, c, 0o755, hinode₂⟩

/-! ## One copy -/

/-- The new file, its inode and the descriptors are not in use. -/
structure FreshFile (fs : Fs ν) (v : ν) (i : Nat) (out inFd : Fd) : Prop where
  link : fs.link v = none
  inode : fs.inode i = none
  out : fs.file out = none
  inFd : fs.file inFd = none

/-- When the descriptors are closed, the new file is all there is. -/
theorem Copying.adds {tmpl : CStr} (h : Copying fs₀ fs (place tmpl) i j out inFd off c)
    (hne : inFd ≠ out) (hfresh : FreshFile fs₀ (place tmpl) i out inFd)
    (hinode : fs.inode = Function.update fs₀.inode i (some node)) :
    fs₀.Adds (copyOut place tmpl out (some inFd) true fs) (place tmpl) node where
  fresh := hfresh.link
  link := ⟨i, hfresh.inode, by
    show fs.inode i = _
    rw [hinode, Function.update_self], h.link⟩
  file := by
    have hout : Function.update fs₀.file out none = fs₀.file :=
      Function.update_eq_self_iff.mpr hfresh.out.symm
    have hin : Function.update fs₀.file inFd none = fs₀.file :=
      Function.update_eq_self_iff.mpr hfresh.inFd.symm
    show Function.update (Function.update fs.file inFd none) out none = fs₀.file
    rw [h.file, Function.update_idem, Function.update_comm hne, Function.update_idem,
      Function.update_comm hne.symm, hin, hout]
  inode k hk := by
    show fs.inode k = _
    rw [hinode, Function.update_of_ne]
    rintro rfl
    exact hk hfresh.inode

theorem Copying.keeps {tmpl : CStr} (h : Copying fs₀ fs (place tmpl) i j out inFd off c)
    (hne : inFd ≠ out) (hfresh : FreshFile fs₀ (place tmpl) i out inFd) :
    fs₀.Keeps (copyOut place tmpl out (some inFd) false fs) := by
  obtain ⟨d, m, hinode⟩ := h.inode
  exact (h.adds hne hfresh hinode).unlink

/-- What a copy can come to: nothing has changed, or there is one new file, with the bytes of the
source, durable and executable.  Its path is lost when the `strdup` fails, which is `oom`. -/
inductive CopyResult (place : CStr → ν) (fs fs' : Fs ν) (content : List UInt8) (tmpls : List CStr)
    (oom : Prop) : Option (Option CStr) → Prop
  | failed (h : fs.Keeps fs') : CopyResult place fs fs' content tmpls oom none
  | lost {tmpl six : CStr} (hoom : oom) (htmpl : tmpl ∈ tmpls)
      (h : fs.Adds fs' (place (fill tmpl six)) ⟨content, content, 0o755⟩) :
    CopyResult place fs fs' content tmpls oom (some none)
  | made {tmpl six : CStr} (htmpl : tmpl ∈ tmpls)
      (h : fs.Adds fs' (place (fill tmpl six)) ⟨content, content, 0o755⟩) :
    CopyResult place fs fs' content tmpls oom (some (some (fill tmpl six)))

/-- The system serves each call of a `copy_one`. -/
structure Answers.Good (place : CStr → ν) (fs : Fs ν) (tmpl : CStr) (ans : Answers) (t : Temp)
    (inFd : Fd) : Prop where
  temp : ans.temp = some t
  src : ans.src = some inFd
  ne : inFd ≠ t.fd
  fresh : FreshFile fs (place (fill tmpl t.six)) t.inode t.fd inFd
  served : ans.Served
  chmod : ans.chmod = true
  sync : ans.sync = true
  dup : ans.dup = true

/-- The file that `mkstemps` has made. -/
def created (fs : Fs ν) (v : ν) (t : Temp) : Fs ν where
  link := Function.update fs.link v (some t.inode)
  inode := Function.update fs.inode t.inode (some ⟨[], [], 0o600⟩)
  file := Function.update fs.file t.fd (some ⟨t.inode, 0⟩)

/-- The same, with the source open. -/
def opened (fs : Fs ν) (v : ν) (t : Temp) (j : Nat) (inFd : Fd) : Fs ν :=
  { created fs v t with file := Function.update (created fs v t).file inFd (some ⟨j, 0⟩) }

variable {src tmpl : CStr} {t : Temp}

theorem created_file {fd : Fd} : (created fs v t).file fd = none ↔ fd ≠ t.fd ∧ fs.file fd = none := by
  show Function.update fs.file t.fd _ fd = none ↔ _
  by_cases h : fd = t.fd
  · simp [h]
  · simp [h]

theorem mkstemps_eq {p : CStr} (hp : p = fill tmpl t.six)
    (h : fs.link (place p) = none ∧ fs.inode t.inode = none ∧ fs.file t.fd = none) :
    mkstemps place fs tmpl (some t) = some (p, t.fd, created fs (place p) t) := by
  subst hp
  show (Fs.create _ _ _ _).map _ = _
  unfold Fs.create
  rw [if_pos h]
  rfl

theorem mkstemps_none (h : ¬ (fs.link (place (fill tmpl t.six)) = none ∧ fs.inode t.inode = none
    ∧ fs.file t.fd = none)) : mkstemps place fs tmpl (some t) = none := by
  show (Fs.create _ _ _ _).map _ = _
  unfold Fs.create
  rw [if_neg h]
  rfl

/-- Without a source, the new file is taken away at once. -/
theorem keeps_created {p : CStr} (hlink : fs.link (place p) = none) (hi : fs.inode t.inode = none)
    (hfd : fs.file t.fd = none) :
    fs.Keeps (copyOut place p t.fd none false (created fs (place p) t)) where
  link := by
    show Function.update (Function.update fs.link _ _) _ none = fs.link
    rw [Function.update_idem]
    exact Function.update_eq_self_iff.mpr hlink.symm
  file := by
    show Function.update (Function.update fs.file _ _) _ none = fs.file
    rw [Function.update_idem]
    exact Function.update_eq_self_iff.mpr hfd.symm
  inode k hk := by
    show Function.update fs.inode _ _ k = _
    rw [Function.update_of_ne]
    rintro rfl
    exact hk hi

/-- `copy_one` from the loop on. -/
theorem Copying.copyOpen (hj : fs₀.inode j = some node) (hij : j ≠ t.inode) (hne : inFd ≠ t.fd)
    (hfresh : FreshFile fs₀ (place (fill tmpl t.six)) t.inode t.fd inFd)
    (h : Copying fs₀ fs (place (fill tmpl t.six)) t.inode j t.fd inFd 0 [])
    (hfuel : node.content.length < fuel) :
    ∃ ret fs', Xylem.copyOpen place fuel ans (fill tmpl t.six) t.fd inFd fs = some (ret, fs')
      ∧ CopyResult place fs₀ fs' node.content [tmpl] (ans.dup = false) ret
      ∧ (ans.Served → ans.chmod = true → ans.sync = true → ans.dup = true →
        ret = some (some (fill tmpl t.six))) := by
  obtain ⟨ok, fs₁, hloop, ⟨c, off, h₁, hall⟩, hserved⟩ :=
    h.copyLoop hj hij hne hfuel
  unfold Xylem.copyOpen
  cases ok with
  | false =>
    rw [hloop]
    exact ⟨none, _, rfl, .failed (h₁.keeps hne hfresh), fun h => absurd (hserved h) (by decide)⟩
  | true =>
    cases hall rfl
    cases hs : Xylem.settle ans t.fd fs₁ with
    | mk ok fs₂ =>
      obtain ⟨h₂, hinode, hsettled⟩ := h₁.settle hne hs
      simp only [hloop, hs]
      cases ok with
      | false =>
        exact ⟨none, _, rfl, .failed (h₂.keeps hne hfresh),
          fun _ hchmod hsync => absurd (hsettled hchmod hsync) (by decide)⟩
      | true =>
        have hadds := h₂.adds hne hfresh (hinode rfl)
        cases hdup : ans.dup with
        | false =>
          exact ⟨some none, _, rfl, .lost rfl (List.mem_singleton_self tmpl) hadds,
            fun _ _ _ h => absurd h (by decide)⟩
        | true =>
          exact ⟨_, _, rfl, .made (List.mem_singleton_self tmpl) hadds, fun _ _ _ _ => rfl⟩

/-- `copy_one` comes to its end, with a copy if the system serves its calls. -/
theorem copyOne_result (hsrc : fs.fileAt (place src) = some node)
    (hfuel : node.content.length < fuel) (htmpl : tmpl.bytes.length < 512) :
    ∃ ret fs', copyOne place fuel ans src tmpl fs = some (ret, fs')
      ∧ CopyResult place fs fs' node.content [tmpl] (ans.dup = false) ret
      ∧ (ans.Good place fs tmpl t inFd → ret = some (some (fill tmpl t.six))) := by
  obtain ⟨j, hlink, hj⟩ := Fs.fileAt_eq_some.mp hsrc
  unfold copyOne
  rw [if_neg (Nat.not_le_of_lt htmpl)]
  cases htemp : ans.temp with
  | none =>
    refine ⟨none, fs, rfl, .failed (.refl fs), fun hgood => ?_⟩
    rw [hgood.temp] at htemp
    cases htemp
  | some u =>
    by_cases hfree : fs.link (place (fill tmpl u.six)) = none ∧ fs.inode u.inode = none
        ∧ fs.file u.fd = none
    · have hfree' := hfree
      obtain ⟨hv, hi, hout⟩ := hfree
      rw [mkstemps_eq rfl hfree']
      have hkeeps := keeps_created hv hi hout
      have hsrcNe : place src ≠ place (fill tmpl u.six) := fun heq => by
        rw [heq, hv] at hlink
        cases hlink
      have hji : j ≠ u.inode := fun heq => by
        rw [heq, hi] at hj
        cases hj
      have hlink' : (created fs (place (fill tmpl u.six)) u).link (place src) = some j := by
        show Function.update fs.link _ _ _ = _
        rw [Function.update_of_ne hsrcNe]
        exact hlink
      cases hans : ans.src with
      | none =>
        refine ⟨none, _, rfl, .failed hkeeps, fun hgood => ?_⟩
        rw [hgood.src] at hans
        cases hans
      | some fd =>
        by_cases hfd : fd ≠ u.fd ∧ fs.file fd = none
        · have hcopying : Copying fs (opened fs (place (fill tmpl u.six)) u j fd)
              (place (fill tmpl u.six)) u.inode j u.fd fd 0 [] := ⟨rfl, rfl, [], 0o600, rfl⟩
          simp only [Fs.openAt_eq hlink' (created_file.mpr hfd)]
          obtain ⟨ret, fs', hret, hresult, hmade⟩ :=
            hcopying.copyOpen hj hji hfd.1 ⟨hv, hi, hout, hfd.2⟩ hfuel
          refine ⟨ret, fs', hret, hresult, fun hgood => ?_⟩
          have hut : u = t := Option.some.inj (htemp.symm.trans hgood.temp)
          rw [← hut]
          exact hmade hgood.served hgood.chmod hgood.sync hgood.dup
        · simp only [Fs.openAt_none hlink' (mt created_file.mp hfd)]
          refine ⟨none, _, rfl, .failed hkeeps, fun hgood => ?_⟩
          have hut : u = t := Option.some.inj (htemp.symm.trans hgood.temp)
          have hin : fd = inFd := Option.some.inj (hans.symm.trans hgood.src)
          rw [hut, hin] at hfd
          exact absurd ⟨hgood.ne, hgood.fresh.inFd⟩ hfd
    · rw [mkstemps_none hfree]
      refine ⟨none, fs, rfl, .failed (.refl fs), fun hgood => ?_⟩
      rw [hgood.temp] at htemp
      cases htemp
      exact absurd ⟨hgood.fresh.link, hgood.fresh.inode, hgood.fresh.out⟩ hfree

/-! ## The tries -/

/-- The templates that `copy_to_tmp` tries. -/
def templates (src : CStr) : List CStr :=
  (siblingTemplate src).toList ++ [tmpTemplate, hereTemplate]

/-- Each template has room in the array of `copy_one`. -/
theorem templates_length (h : tmpl ∈ templates src) : tmpl.bytes.length < 512 := by
  rcases List.mem_append.mp h with h | h
  · have hsome := Option.mem_toList.mp h
    unfold siblingTemplate at hsome
    split at hsome
    · cases hsome
    · next dir hdir =>
      split at hsome
      · next hroom =>
        cases hsome
        have hname : siblingName.bytes.length = 17 := by decide
        show (dir ++ siblingName.bytes).length < 512
        rw [List.length_append, hname]
        omega
      · cases hsome
  · rcases List.mem_cons.mp h with rfl | h
    · decide
    · cases List.mem_singleton.mp h
      decide

section

variable {l l' : List CStr} {oom oom' : Prop} {content : List UInt8} {fs'' : Fs ν}
  {r : Option (Option CStr)}

theorem CopyResult.mono (hl : ∀ x ∈ l, x ∈ l') (hoom : oom → oom')
    (h : CopyResult place fs fs' content l oom r) : CopyResult place fs fs' content l' oom' r := by
  cases h with
  | failed h => exact .failed h
  | lost hlost htmpl h => exact .lost (hoom hlost) (hl _ htmpl) h
  | made htmpl h => exact .made (hl _ htmpl) h

theorem CopyResult.of_keeps (hk : fs.Keeps fs') (h : CopyResult place fs' fs'' content l oom r) :
    CopyResult place fs fs'' content l oom r := by
  cases h with
  | failed h => exact .failed (hk.trans h)
  | lost hlost htmpl h => exact .lost hlost htmpl (.of_keeps hk h)
  | made htmpl h => exact .made htmpl (.of_keeps hk h)

/-- A try after those that have failed. -/
theorem tryNext_result {ret : Option (Option (Option CStr) × Fs ν)}
    {next : Fs ν → Option (Option (Option CStr) × Fs ν)}
    (h : ∃ r fs', ret = some (r, fs') ∧ CopyResult place fs fs' content l oom r)
    (hnext : ∀ fs', fs.Keeps fs' →
      ∃ r fs'', next fs' = some (r, fs'') ∧ CopyResult place fs' fs'' content l oom r) :
    ∃ r fs', tryNext ret next = some (r, fs') ∧ CopyResult place fs fs' content l oom r := by
  obtain ⟨r, fs', rfl, hresult⟩ := h
  cases hresult with
  | failed h =>
    obtain ⟨r, fs'', hr, hnext⟩ := hnext fs' h
    exact ⟨r, fs'', hr, hnext.of_keeps h⟩
  | lost hlost htmpl h => exact ⟨_, fs', rfl, .lost hlost htmpl h⟩
  | made htmpl h => exact ⟨_, fs', rfl, .made htmpl h⟩

end

variable {tries : Nat → Answers}

/-- One of the tries, from where those before it have left the files. -/
theorem copyOne_try {k : Nat} (hsrc : fs.fileAt (place src) = some node)
    (hfuel : node.content.length < fuel) (htmpl : tmpl ∈ templates src) :
    ∃ ret fs', copyOne place fuel (tries k) src tmpl fs = some (ret, fs')
      ∧ CopyResult place fs fs' node.content (templates src) (∃ k, (tries k).dup = false) ret := by
  obtain ⟨ret, fs', hret, hresult, -⟩ :=
    @copyOne_result ν _ place fs 0 fuel node (tries k) src tmpl ⟨src, 0, 0⟩ hsrc hfuel
      (templates_length htmpl)
  refine ⟨ret, fs', hret, hresult.mono (fun x hx => ?_) fun h => ⟨k, h⟩⟩
  rw [List.mem_singleton.mp hx]
  exact htmpl

/-- `copy_to_tmp` comes to its end. -/
theorem copyToTmp_ends (hsrc : fs.fileAt (place src) = some node)
    (hfuel : node.content.length < fuel) :
    ∃ ret fs', copyToTmp place fuel tries src fs = some (ret, fs')
      ∧ CopyResult place fs fs' node.content (templates src) (∃ k, (tries k).dup = false) ret := by
  have hlater : ∀ tmpl k fs', tmpl ∈ templates src → fs.Keeps fs' →
      ∃ ret fs'', copyOne place fuel (tries k) src tmpl fs' = some (ret, fs'')
        ∧ CopyResult place fs' fs'' node.content (templates src) (∃ k, (tries k).dup = false) ret :=
    fun tmpl k fs' htmpl hk => copyOne_try (hk.fileAt hsrc) hfuel htmpl
  have hthere : ∀ tmpl ∈ [tmpTemplate, hereTemplate], tmpl ∈ templates src :=
    fun tmpl h => List.mem_append_right _ h
  unfold copyToTmp
  refine tryNext_result (tryNext_result ?_ fun fs' => hlater tmpTemplate 1 fs' (hthere _ (by decide)))
    fun fs' => hlater hereTemplate 2 fs' (hthere _ (by decide))
  cases hsib : siblingTemplate src with
  | none => exact ⟨none, fs, rfl, .failed (.refl fs)⟩
  | some tmpl =>
    have htmpl : tmpl ∈ templates src := List.mem_append_left _ (Option.mem_toList.mpr hsib)
    exact copyOne_try hsrc hfuel htmpl

/-- `copy_to_tmp` comes to its end.  It makes the copy next to the file if the system serves the
calls of the first try. -/
theorem copyToTmp_result (hsrc : fs.fileAt (place src) = some node)
    (hfuel : node.content.length < fuel) :
    ∃ ret fs', copyToTmp place fuel tries src fs = some (ret, fs')
      ∧ CopyResult place fs fs' node.content (templates src) (∃ k, (tries k).dup = false) ret
      ∧ ∀ tmpl t inFd, siblingTemplate src = some tmpl → (tries 0).Good place fs tmpl t inFd →
        ret = some (some (fill tmpl t.six)) := by
  obtain ⟨ret, fs', hret, hresult⟩ := @copyToTmp_ends ν _ place fs fuel node src tries hsrc hfuel
  refine ⟨ret, fs', hret, hresult, fun tmpl t inFd hsib hgood => ?_⟩
  have htmpl : tmpl ∈ templates src := List.mem_append_left _ (Option.mem_toList.mpr hsib)
  obtain ⟨ret₁, fs₁, hret₁, -, hmade⟩ := copyOne_result hsrc hfuel (templates_length htmpl)
  unfold copyToTmp at hret
  rw [hsib] at hret
  dsimp only at hret
  rw [hret₁, hmade hgood] at hret
  cases hret
  rfl

/-- A file of three bytes, and a system that reads two bytes at a time and writes one. -/
def builtFile : CStr := ⟨ascii "m/a.so", by decide⟩

def builtNode : Inode := ⟨[1, 2, 3], [], 0o644⟩

def builtFs : Fs CStr where
  link v := if v = builtFile then some 0 else none
  inode i := if i = 0 then some builtNode else none
  file _ := none

def slowTemp : Temp := ⟨⟨ascii "abcdef", by decide⟩, 1, 4⟩

def slowAnswers : Answers :=
  ⟨some slowTemp, some 5, fun _ => some 2, fun _ => some 1, true, true, true⟩

def builtTemplate : CStr := ⟨ascii "m/.xylem-XXXXXX.so", by decide⟩

theorem slowAnswers_good {fs : Fs CStr} {tmpl : CStr}
    (hfresh : FreshFile fs (fill tmpl slowTemp.six) 1 4 5) :
    slowAnswers.Good id fs tmpl slowTemp 5 where
  temp := rfl
  src := rfl
  ne := by decide
  fresh := hfresh
  served := ⟨fun _ => by rintro ⟨⟩, fun _ => ⟨0, rfl⟩⟩
  chmod := rfl
  sync := rfl
  dup := rfl

theorem copyToTmp_result_of_slow :
    ∃ fs', copyToTmp id 4 (fun _ => slowAnswers) builtFile builtFs
        = some (some (some (fill builtTemplate slowTemp.six)), fs')
      ∧ CopyResult id builtFs fs' [1, 2, 3] (templates builtFile) (∃ _ : Nat, slowAnswers.dup = false)
        (some (some (fill builtTemplate slowTemp.six))) := by
  have hsrc : builtFs.fileAt (id builtFile) = some builtNode := by decide
  have hsib : siblingTemplate builtFile = some builtTemplate := by decide
  obtain ⟨ret, fs', hret, hresult, hmade⟩ :=
    @copyToTmp_result CStr _ id builtFs 4 builtNode builtFile (fun _ => slowAnswers) hsrc (by decide)
  rw [hmade builtTemplate slowTemp 5 hsib (slowAnswers_good ⟨by decide, by decide, rfl, rfl⟩)]
    at hret hresult
  exact ⟨fs', hret, hresult⟩

/-- The path that `mod_load_open_handle` opens: that of the copy, if `copy_to_tmp` has made one. -/
def modLoadOpenPath (loadPath : CStr) (copied : Option CStr) : CStr := copied.getD loadPath

/-- What a load has opened: the file, or a copy of it that was not there before. -/
structure OpenedAs (place : CStr → ν) (dlopen : Option CStr → Option Handle) (loadPath : CStr)
    (content : List UInt8) (fs fs' : Fs ν) (h : Handle) (tmp : Option CStr) : Prop where
  dlopen : dlopen (some (modLoadOpenPath loadPath tmp)) = some h
  content : ∃ node, fs'.fileAt (place (modLoadOpenPath loadPath tmp)) = some node
    ∧ node.content = content
  ne : ∀ p ∈ tmp, p ≠ loadPath
  unlinked : fs.Keeps (tmp.elim fs' fun p => fs'.unlink (place p))

/-- What `mod_load_open_handle` comes to with what `copy_to_tmp` gives it. -/
inductive OpenResult (place : CStr → ν) (dlopen : Option CStr → Option Handle) (loadPath : CStr)
    (content : List UInt8) (fs fs' : Fs ν) : Option (Handle × Option CStr) → Prop
  | failed (hk : fs.Keeps fs') : OpenResult place dlopen loadPath content fs fs' none
  | opened {h : Handle} {tmp : Option CStr}
      (ho : OpenedAs place dlopen loadPath content fs fs' h tmp) :
      OpenResult place dlopen loadPath content fs fs' (some (h, tmp))

variable {dlopen : Option CStr → Option Handle} {reloading : Bool}

theorem modLoadOpenHandle_ends (hsrc : fs.fileAt (place src) = some node)
    (hfuel : node.content.length < fuel) (hdup : ∀ k, (tries k).dup = true) :
    ∃ ret fs', modLoadOpenHandle place fuel tries dlopen reloading src fs = some (ret, fs')
      ∧ OpenResult place dlopen src node.content fs fs' ret := by
  have hcopy : ∃ ret fs',
      (if reloading then copyToTmp place fuel tries src fs else some (none, fs)) = some (ret, fs')
        ∧ CopyResult place fs fs' node.content (templates src) False ret := by
    cases reloading with
    | false => exact ⟨none, fs, rfl, .failed (.refl fs)⟩
    | true =>
      obtain ⟨ret, fs', hret, hresult⟩ :=
        @copyToTmp_ends ν _ place fs fuel node src tries hsrc hfuel
      refine ⟨ret, fs', hret, hresult.mono (fun _ => id) ?_⟩
      rintro ⟨k, hk⟩
      rw [hdup k] at hk
      cases hk
  obtain ⟨ret, fs', hret, hresult⟩ := hcopy
  unfold modLoadOpenHandle
  rw [hret]
  cases hresult with
  | lost hlost => exact hlost.elim
  | failed hk =>
    cases hopen : dlopen (some src) with
    | none =>
      dsimp only
      exact ⟨none, fs', rfl, .failed hk⟩
    | some h =>
      dsimp only
      exact ⟨_, fs', rfl, .opened ⟨hopen, ⟨node, hk.fileAt hsrc, rfl⟩, by rintro p ⟨⟩, hk⟩⟩
  | @made tmpl six htmpl hadds =>
    cases hopen : dlopen (some (fill tmpl six)) with
    | none =>
      simp only [hopen]
      exact ⟨none, _, rfl, .failed hadds.unlink⟩
    | some h =>
      simp only [hopen]
      refine ⟨_, fs', rfl, .opened ⟨hopen, ⟨_, hadds.fileAt_self, rfl⟩, ?_, hadds.unlink⟩⟩
      rintro p ⟨⟩ rfl
      exact hadds.ne hsrc rfl

/-- What a reload opens has the bytes of the file that is there, and when it cannot be opened the
files are as they were. -/
theorem modLoadOpenHandle_result {dlopen : Option CStr → Option Handle} {reloading : Bool}
    (hsrc : fs.fileAt (place src) = some node) (hfuel : node.content.length < fuel)
    (hdup : ∀ k, (tries k).dup = true) :
    ∃ ret fs', modLoadOpenHandle place fuel tries dlopen reloading src fs = some (ret, fs')
      ∧ (ret = none → fs.Keeps fs')
      ∧ ∀ h tmp, ret = some (h, tmp) →
        OpenedAs place dlopen src node.content fs fs' h tmp := by
  obtain ⟨ret, fs', hret, hresult⟩ :=
    @modLoadOpenHandle_ends ν _ place fs fuel node src tries dlopen reloading hsrc hfuel hdup
  refine ⟨ret, fs', hret, fun hnone => ?_, fun h tmp hsome => ?_⟩
  · subst hnone
    cases hresult with
    | failed hk => exact hk
  · subst hsome
    cases hresult with
    | opened hopened => exact hopened

theorem modLoadOpenHandle_result_of_slow :
    ∃ ret fs', modLoadOpenHandle id 4 (fun _ => slowAnswers) (fun _ => some 7) true builtFile builtFs
        = some (ret, fs')
      ∧ (ret = none → builtFs.Keeps fs')
      ∧ ∀ h tmp, ret = some (h, tmp) →
        OpenedAs id (fun _ => some 7) builtFile [1, 2, 3] builtFs fs' h tmp :=
  @modLoadOpenHandle_result CStr _ id builtFs 4 builtNode builtFile (fun _ => slowAnswers)
    (fun _ => some 7) true (by decide) (by decide) fun _ => rfl

end

/-! ## The opens of a run -/

/-- One open by a reload: the files that `mod_load_open_handle` finds, and what the system
answers to its calls. -/
structure Opening (ν : Type*) where
  place : CStr → ν
  fs : Fs ν
  fuel : Nat
  tries : Nat → Answers
  dlopen : Option CStr → Option Handle

namespace Opening

variable {ν : Type*} [DecidableEq ν] {o : Opening ν} {path : CStr} {h : Handle} {tmp : Option CStr}

/-- The open of the file at `path` gives the object `h`, from the copy `tmp` if there is one. -/
def Gives (o : Opening ν) (path : CStr) (h : Handle) (tmp : Option CStr) (fs' : Fs ν) : Prop :=
  modLoadOpenHandle o.place o.fuel o.tries o.dlopen true path o.fs = some (some (h, tmp), fs')

/-- `copy_to_tmp` makes a copy of the file at `path`. -/
def Copies (o : Opening ν) (path : CStr) : Prop :=
  ∃ p fs', copyToTmp o.place o.fuel o.tries path o.fs = some (some (some p), fs')

/-- The object `h` comes from a new file with the bytes of the file at `path`. -/
def OpensCopy (o : Opening ν) (path : CStr) (h : Handle) : Prop :=
  ∃ p fs' node, o.Gives path h (some p) fs' ∧ o.fs.fileAt (o.place path) = some node
    ∧ o.fs.fileAt (o.place p) = none
    ∧ (fs'.fileAt (o.place p)).map (·.content) = some node.content

/-- The open of the file at `path` gives the object `h`.  What is copied is a file that is there,
in as many rounds as it takes. -/
structure Serves (o : Opening ν) (path : CStr) (h : Handle) : Prop where
  gives : ∃ tmp fs', o.Gives path h tmp fs'
  file : o.Copies path →
    ∃ node, o.fs.fileAt (o.place path) = some node ∧ node.content.length < o.fuel

variable {fs' fs'' : Fs ν}

theorem Gives.of_copies {p : CStr} (hg : o.Gives path h tmp fs')
    (hc : copyToTmp o.place o.fuel o.tries path o.fs = some (some (some p), fs'')) :
    tmp = some p ∧ fs' = fs'' := by
  unfold Gives modLoadOpenHandle at hg
  rw [if_pos rfl, hc] at hg
  dsimp only at hg
  cases hd : o.dlopen (some p) with
  | none => simp [hd] at hg
  | some h' =>
    rw [hd] at hg
    cases hg
    exact ⟨rfl, rfl⟩

theorem Gives.copies {p : CStr} (hg : o.Gives path h (some p) fs') : o.Copies path := by
  unfold Gives modLoadOpenHandle at hg
  split at hg
  · cases hg
  · next tmp fs'' hc =>
    split at hg
    · cases hg
    · cases hg
      exact ⟨p, fs', hc⟩
  · next fs'' hc =>
    cases hd : o.dlopen (some path) with
    | none => simp [hd] at hg
    | some h' => simp [hd] at hg

/-- What is opened is a new copy when `copy_to_tmp` makes one. -/
theorem Serves.opensCopy_iff (hs : o.Serves path h) : o.OpensCopy path h ↔ o.Copies path := by
  constructor
  · rintro ⟨p, fs', node, hg, -⟩
    exact hg.copies
  · intro hcopies
    obtain ⟨node, hsrc, hfuel⟩ := hs.file hcopies
    obtain ⟨p, fs'', hc⟩ := hcopies
    obtain ⟨tmp, fs', hg⟩ := hs.gives
    obtain ⟨rfl, rfl⟩ := hg.of_copies hc
    obtain ⟨ret, fs'', hret, hresult⟩ :=
      @copyToTmp_ends ν _ o.place o.fs o.fuel node path o.tries hsrc hfuel
    cases hc.symm.trans hret
    cases hresult with
    | made htmpl hadds =>
      refine ⟨_, fs', node, hg, hsrc, hadds.fileAt_fresh, ?_⟩
      rw [hadds.fileAt_self]
      rfl

end Opening

end Xylem
