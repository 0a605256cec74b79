import Mathlib.Data.List.Forall2

/-!
# Structs in memory

How a C compiler lays the members of a struct out: each at the next offset that its alignment
divides, and the size a multiple of all alignments.

* `slots`: the offset and the size of each member.
* `pack`: the bytes of a struct, with any bytes as padding.
* `map_slots_pack`: reading the members back gives what has been put in.
-/

namespace StructLayout

/-- The type of a member. -/
structure Member where
  size : Nat
  align : Nat
deriving DecidableEq

/-- The bytes between `p` and the next multiple of `a`. -/
def padding (p a : Nat) : Nat := (a - p % a) % a

/-- Where the member starts that comes after `p` bytes. -/
def start (p : Nat) (m : Member) : Nat := p + padding p m.align

/-- Offset and size of the members after `p` bytes. -/
def slots (p : Nat) : List Member → List (Nat × Nat)
  | [] => []
  | m :: ms => (start p m, m.size) :: slots (start p m + m.size) ms

/-- The end of the last member. -/
def finish (p : Nat) : List Member → Nat
  | [] => p
  | m :: ms => finish (start p m + m.size) ms

/-- The strictest alignment. -/
def alignOf (ms : List Member) : Nat := ms.foldr (fun m a => max m.align a) 1

/-- `sizeof`. -/
def sizeOf (ms : List Member) : Nat := finish 0 ms + padding (finish 0 ms) (alignOf ms)

/-- The bytes after the first `p`, with `pad` for the byte of padding at each offset. -/
def packFrom (pad : Nat → UInt8) (p : Nat) : List Member → List (List UInt8) → List UInt8
  | m :: ms, v :: vs =>
    (List.range' p (padding p m.align)).map pad ++ v ++ packFrom pad (start p m + m.size) ms vs
  | _, _ => []

/-- The bytes of a struct. -/
def pack (pad : Nat → UInt8) (ms : List Member) (vs : List (List UInt8)) : List UInt8 :=
  packFrom pad 0 ms vs
    ++ (List.range' (finish 0 ms) (padding (finish 0 ms) (alignOf ms))).map pad

/-- The values have the sizes of the members. -/
def Fits (ms : List Member) (vs : List (List UInt8)) : Prop :=
  List.Forall₂ (fun m v => v.length = m.size) ms vs

section

variable {pad : Nat → UInt8} {ms : List Member} {vs : List (List UInt8)}

theorem map_slots_packFrom (h : Fits ms vs) (before after : List UInt8) :
    (slots before.length ms).map (fun slot =>
      ((before ++ packFrom pad before.length ms vs ++ after).drop slot.1).take slot.2) = vs := by
  induction h generalizing before with
  | nil => rfl
  | @cons m v ms vs hv _ ih =>
    let gap := (List.range' before.length (padding before.length m.align)).map pad
    have hgap : (before ++ gap).length = start before.length m := by
      rw [List.length_append, List.length_map, List.length_range']
      rfl
    have hv' : (before ++ gap ++ v).length = start before.length m + m.size := by
      rw [List.length_append, hgap, hv]
    have hblock : before ++ packFrom pad before.length (m :: ms) (v :: vs) ++ after
        = before ++ gap ++ v ++ packFrom pad (before ++ gap ++ v).length ms vs ++ after := by
      rw [hv']
      simp only [packFrom, List.append_assoc, gap]
    have hfirst : (before ++ gap ++ v ++ packFrom pad (before ++ gap ++ v).length ms vs
        ++ after).drop (start before.length m) = v ++ (packFrom pad (before ++ gap ++ v).length ms vs
        ++ after) := by
      rw [← hgap, List.append_assoc, List.append_assoc (before ++ gap), List.drop_left]
    rw [slots, List.map_cons, hblock, ← hv', ih (before ++ gap ++ v), hfirst, ← hv, List.take_left]

/-- The members hold what has been put in, whatever the padding. -/
theorem map_slots_pack (h : Fits ms vs) :
    (slots 0 ms).map (fun slot => ((pack pad ms vs).drop slot.1).take slot.2) = vs :=
  map_slots_packFrom h [] _

end

end StructLayout
