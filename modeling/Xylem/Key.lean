import Xylem.Basic

/-!
# Module keys

`mod_hd` is keyed by the bytes that `mod_key` builds, compared over the length
that `mod_key_measure` reports.  `mod_key` prints the path, a NUL, sixteen hex
digits of the id and two of the width with `snprintf` into a buffer of
`mod_key_len` bytes.  That length has no room for the terminator, and `snprintf`
always writes one, so the last digit of the width is lost.

`modKey_eq_iff` says what two keys of one path share, and `RegionKey.Twin` is
the relation between two regions that a key does not tell apart.  `modKey_inj_iff`
says which identities a key does determine.
-/

namespace Xylem

/-- One lower-case hex digit, as `%x` prints it. -/
def hexDigit (n : Nat) : UInt8 :=
  if n < 10 then UInt8.ofNat (48 + n) else UInt8.ofNat (87 + n)

/-- `digits` hex digits of `n`, the most significant first. -/
def hexDigits : Nat → Nat → List UInt8
  | 0, _ => []
  | digits + 1, n => hexDigits digits (n / 16) ++ [hexDigit (n % 16)]

/-- What `snprintf` leaves in a buffer of `bufLen` bytes for an output of at
least that length: as much as fits, and the terminator. -/
def snprintfBuf (bufLen : Nat) (out : List UInt8) : List UInt8 :=
  out.take (bufLen - 1) ++ [0]

/-- `MOD_KEY_SUFFIX_LEN`. -/
def modKeySuffixLen : Nat := 19

/-- `mod_key_len`. -/
def modKeyLen (path : CStr) : Nat := path.bytes.length + modKeySuffixLen

/-- `mod_key`, called with a buffer of `mod_key_len(path)` bytes. -/
def modKeyBuf (path : CStr) (id : RegionId) (plen : Nat) : List UInt8 :=
  snprintfBuf (modKeyLen path)
    (path.bytes ++ [0] ++ hexDigits 16 id.toNat ++ hexDigits 2 plen)

/-- `strlen` of a buffer. -/
def strlen (buf : List UInt8) : Nat := (buf.takeWhile (· ≠ 0)).length

/-- `mod_key_measure`. -/
def modKeyMeasure (buf : List UInt8) : Nat := strlen buf + modKeySuffixLen

/-- The bytes of the key that corm hashes and compares. -/
def modKey (path : CStr) (id : RegionId) (plen : Nat) : List UInt8 :=
  (modKeyBuf path id plen).take (modKeyMeasure (modKeyBuf path id plen))

/-! ## Hex digits -/

theorem hexDigit_toNat {n : Nat} (h : n < 16) :
    (hexDigit n).toNat = if n < 10 then 48 + n else 87 + n := by
  unfold hexDigit
  split
  · rw [UInt8.toNat_ofNat']; omega
  · rw [UInt8.toNat_ofNat']; omega

theorem hexDigit_inj {m n : Nat} (hm : m < 16) (hn : n < 16)
    (h : hexDigit m = hexDigit n) : m = n := by
  have ht := congrArg UInt8.toNat h
  rw [hexDigit_toNat hm, hexDigit_toNat hn] at ht
  split at ht <;> split at ht <;> omega

@[simp] theorem hexDigits_length (digits n : Nat) : (hexDigits digits n).length = digits := by
  induction digits generalizing n with
  | zero => rfl
  | succ d ih => simp [hexDigits, ih]

/-- The digits determine the number modulo the power they can hold. -/
theorem hexDigits_inj {digits m n : Nat} (h : hexDigits digits m = hexDigits digits n) :
    m % 16 ^ digits = n % 16 ^ digits := by
  induction digits generalizing m n with
  | zero => simp [Nat.mod_one]
  | succ d ih =>
    have hsplit := List.append_inj h (by simp)
    have hhigh := ih hsplit.1
    have hlow : m % 16 = n % 16 :=
      hexDigit_inj (Nat.mod_lt _ (by decide)) (Nat.mod_lt _ (by decide))
        (by simpa using hsplit.2)
    rw [Nat.pow_succ, Nat.mul_comm, Nat.mod_mul, Nat.mod_mul, hlow, hhigh]

/-! ## What a key holds -/

theorem strlen_path (path : CStr) (rest : List UInt8) :
    strlen (path.bytes ++ 0 :: rest) = path.bytes.length := by
  unfold strlen
  rw [List.takeWhile_append_of_pos]
  · simp
  · intro b hb
    have : b ≠ 0 := fun h => path.nulFree (h ▸ hb)
    simpa using this

/-- The key: the whole suffix but its last digit, which the terminator
replaces. -/
theorem modKey_eq (path : CStr) (id : RegionId) (plen : Nat) :
    modKey path id plen
      = path.bytes ++ 0 :: (hexDigits 16 id.toNat ++ [hexDigit (plen / 16 % 16), 0]) := by
  have hbuf : modKeyBuf path id plen
      = path.bytes ++ 0 :: (hexDigits 16 id.toNat ++ [hexDigit (plen / 16 % 16), 0]) := by
    have htwo : hexDigits 2 plen = [hexDigit (plen / 16 % 16), hexDigit (plen % 16)] := rfl
    have hout : path.bytes ++ [0] ++ hexDigits 16 id.toNat ++ hexDigits 2 plen
        = (path.bytes ++ 0 :: (hexDigits 16 id.toNat ++ [hexDigit (plen / 16 % 16)]))
          ++ [hexDigit (plen % 16)] := by
      rw [htwo]; simp
    unfold modKeyBuf snprintfBuf modKeyLen modKeySuffixLen
    rw [hout, List.take_append_of_le_length (by simp), List.take_of_length_le (by simp)]
    simp
  unfold modKey
  rw [hbuf]
  apply List.take_of_length_le
  unfold modKeyMeasure modKeySuffixLen
  rw [strlen_path]
  simp

/-- Two regions that a module key does not tell apart: one id, and widths that
differ in their last hex digit only. -/
def RegionKey.Twin (a b : RegionKey) : Prop :=
  a.id = b.id ∧ a.plen / 16 % 16 = b.plen / 16 % 16

instance (a b : RegionKey) : Decidable (a.Twin b) := by
  unfold RegionKey.Twin; infer_instance

theorem RegionKey.Twin.refl (a : RegionKey) : a.Twin a := ⟨rfl, rfl⟩

theorem RegionKey.Twin.symm {a b : RegionKey} (h : a.Twin b) : b.Twin a := ⟨h.1.symm, h.2.symm⟩

/-- Keys agree exactly on the path, the id and the first digit of the width. -/
theorem modKey_eq_iff {p p' : CStr} {k k' : RegionKey} :
    modKey p k.id k.plen = modKey p' k'.id k'.plen ↔ p = p' ∧ k.Twin k' := by
  constructor
  · intro h
    have hlen : p.bytes.length = p'.bytes.length := by
      have := congrArg List.length h
      simp only [modKey_eq, List.length_append, List.length_cons, hexDigits_length] at this
      simpa using this
    rw [modKey_eq, modKey_eq] at h
    obtain ⟨hp, hrest⟩ := List.append_inj h hlen
    obtain ⟨hid, hplen⟩ := List.append_inj (List.cons.inj hrest).2 (by simp)
    refine ⟨by cases p; cases p'; simpa using hp, ?_, ?_⟩
    · have hmod := hexDigits_inj hid
      have h16 : 16 ^ 16 = 2 ^ 64 := by decide
      rw [h16, Nat.mod_eq_of_lt k.id.isLt, Nat.mod_eq_of_lt k'.id.isLt] at hmod
      exact BitVec.eq_of_toNat_eq hmod
    · exact hexDigit_inj (Nat.mod_lt _ (by decide)) (Nat.mod_lt _ (by decide))
        (List.cons.inj hplen).1
  · rintro ⟨rfl, hid, hplen⟩
    rw [modKey_eq, modKey_eq, hid, hplen]

/-! ## Injectivity -/

/-- A key determines what it was built from, unless the two identities differ in
the last hex digit of the width alone. -/
theorem modKey_inj_iff {p p' : CStr} {id id' : RegionId} {plen plen' : Nat} (h : plen ≤ 64)
    (h' : plen' ≤ 64) :
    (modKey p id plen = modKey p' id' plen' → p = p' ∧ id = id' ∧ plen = plen')
      ↔ p ≠ p' ∨ id ≠ id' ∨ plen / 16 ≠ plen' / 16 ∨ plen = plen' := by
  have hkey : modKey p id plen = modKey p' id' plen'
      ↔ p = p' ∧ id = id' ∧ plen / 16 = plen' / 16 := by
    refine (@modKey_eq_iff p p' ⟨id, plen⟩ ⟨id', plen'⟩).trans ?_
    have hdigit : plen / 16 % 16 = plen' / 16 % 16 ↔ plen / 16 = plen' / 16 := by omega
    exact and_congr_right fun _ => and_congr_right fun _ => hdigit
  rw [hkey]
  constructor
  · intro hinj
    by_cases hp : p = p'
    · by_cases hid : id = id'
      · by_cases hhigh : plen / 16 = plen' / 16
        · exact Or.inr (Or.inr (Or.inr (hinj ⟨hp, hid, hhigh⟩).2.2))
        · exact Or.inr (Or.inr (Or.inl hhigh))
      · exact Or.inr (Or.inl hid)
    · exact Or.inl hp
  · rintro hcond ⟨hp, hid, hhigh⟩
    rcases hcond with hne | hne | hne | hplen
    · exact absurd hp hne
    · exact absurd hid hne
    · exact absurd hhigh hne
    · exact ⟨hp, hid, hplen⟩

/-- The root and the region `(0, 16)`: the first digits of the widths differ. -/
theorem modKey_ne_of_sixteen_bits :
    modKey ⟨[97], by decide⟩ 0 0 ≠ modKey ⟨[97], by decide⟩ 0 16 := by
  intro heq
  have hinj := (modKey_inj_iff (by decide) (by decide)).mpr (by decide) heq
  exact absurd hinj.2.2 (by decide)

/-- The root and the region `(0, 8)` have one key for a module. -/
theorem not_modKey_inj_of_eight_bits :
    ¬ (modKey ⟨[97], by decide⟩ 0 0 = modKey ⟨[97], by decide⟩ 0 8 →
      (⟨[97], by decide⟩ : CStr) = ⟨[97], by decide⟩ ∧ (0 : RegionId) = 0 ∧ 0 = 8) := by
  intro hinj
  exact absurd (hinj (by decide)).2.2 (by decide)

end Xylem
