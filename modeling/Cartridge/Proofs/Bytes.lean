import Cartridge.Bytes

/-!
# Bytes at their positions

* `Bytes.field_value`       a byte string is the field of its number;
* `Bytes.Holds`             a byte string holds a block at a position;
* `Bytes.holds_append`      where the parts of a block stand;
* `Bytes.eq_append_of_holds`, `Bytes.drop_of_holds`   a block that is held divides the string;
* `Bytes.slice?_congr`, `Bytes.slice?_of_holds`   what is read depends on the bytes that are read;
* `Bytes.getElem?_overwrite`   the bytes of a patched string.
-/

namespace Cartridge

namespace Bytes

/-! ## numbers -/

theorem field_value (bytes : Bytes) : field bytes.length (value bytes) = bytes := by
  induction bytes with
  | nil => rfl
  | cons b bs ih =>
    have hb : b.toNat < 256 := b.toNat_lt
    have hlow : UInt8.ofNat (b.toNat + 256 * value bs) = b := by
      apply UInt8.toNat_inj.mp
      rw [UInt8.toNat_ofNat']
      omega
    have hhigh : (b.toNat + 256 * value bs) / 256 = value bs := by omega
    rw [List.length_cons, field_succ, value_cons, hlow, hhigh, ih]

/-! ## slices -/

theorem slice?_eq_some {bytes found : Bytes} {pos width : Nat} :
    bytes.slice? pos width = some found ↔
      pos + width ≤ bytes.length ∧ found = (bytes.drop pos).take width := by
  unfold slice?
  by_cases h : pos + width ≤ bytes.length
  · simp [h, eq_comm]
  · simp [h]

/-- a field that is not empty is read off the bytes at its positions -/
theorem slice?_congr {a b : Bytes} {pos width : Nat} (hwidth : 0 < width)
    (h : ∀ x, pos ≤ x → x < pos + width → a[x]? = b[x]?) :
    a.slice? pos width = b.slice? pos width := by
  have hlast : pos + width ≤ a.length ↔ pos + width ≤ b.length := by
    have hlast := h (pos + width - 1) (by omega) (by omega)
    constructor
    · intro ha
      rw [List.getElem?_eq_getElem (by omega)] at hlast
      have := (List.getElem?_eq_some_iff.mp hlast.symm).1
      omega
    · intro hb
      rw [List.getElem?_eq_getElem (by omega : pos + width - 1 < b.length)] at hlast
      have := (List.getElem?_eq_some_iff.mp hlast).1
      omega
  have hbytes : (a.drop pos).take width = (b.drop pos).take width := by
    apply List.ext_getElem?
    intro i
    by_cases hi : i < width
    · rw [List.getElem?_take_of_lt hi, List.getElem?_take_of_lt hi, List.getElem?_drop,
        List.getElem?_drop]
      exact h (pos + i) (Nat.le_add_right ..) (by omega)
    · have hout : ∀ c : Bytes, ((c.drop pos).take width)[i]? = none := by
        intro c
        rw [List.getElem?_eq_none]
        rw [List.length_take]
        omega
      rw [hout, hout]
  unfold slice?
  by_cases ha : pos + width ≤ a.length
  · rw [if_pos ha, if_pos (hlast.mp ha), hbytes]
  · rw [if_neg ha, if_neg fun hb => ha (hlast.mpr hb)]

theorem getElem?_overwrite {bytes patch : Bytes} {pos : Nat}
    (h : pos + patch.length ≤ bytes.length) (x : Nat) :
    (bytes.overwrite pos patch)[x]? =
      if pos ≤ x ∧ x < pos + patch.length then patch[x - pos]? else bytes[x]? := by
  have htake : (bytes.take pos).length = pos := by
    rw [List.length_take]
    omega
  have hfront : (bytes.take pos ++ patch).length = pos + patch.length := by
    rw [List.length_append, htake]
  unfold overwrite
  by_cases hlow : x < pos
  · have hout : ¬ (pos ≤ x ∧ x < pos + patch.length) := by omega
    rw [if_neg hout, List.append_assoc, List.getElem?_append_left (by omega),
      List.getElem?_take_of_lt hlow]
  · by_cases hhigh : x < pos + patch.length
    · have hin : pos ≤ x ∧ x < pos + patch.length := by omega
      rw [if_pos hin, List.getElem?_append_left (by omega),
        List.getElem?_append_right (by omega), htake]
    · have hout : ¬ (pos ≤ x ∧ x < pos + patch.length) := by omega
      rw [if_neg hout, List.getElem?_append_right (by omega), hfront, List.getElem?_drop]
      congr 1
      omega

theorem length_overwrite {bytes patch : Bytes} {pos : Nat}
    (h : pos + patch.length ≤ bytes.length) :
    (bytes.overwrite pos patch).length = bytes.length := by
  simp only [overwrite, List.length_append, List.length_take, List.length_drop]
  omega

theorem take_overwrite {bytes : Bytes} {n pos : Nat} (patch : Bytes) (hn : n ≤ pos)
    (hpos : pos ≤ bytes.length) : (bytes.overwrite pos patch).take n = bytes.take n := by
  rw [overwrite, List.append_assoc, List.take_append_of_le_length, List.take_take,
    Nat.min_eq_left hn]
  rw [List.length_take]
  omega

/-- a part gives way to one of its length -/
theorem overwrite_middle {before old patch : Bytes} (h : patch.length = old.length)
    (after : Bytes) :
    (before ++ (old ++ after)).overwrite before.length patch = before ++ (patch ++ after) := by
  have hbehind : before.length + old.length = (before ++ old).length := List.length_append.symm
  rw [overwrite, List.take_left, h, hbehind, ← List.append_assoc before old after,
    List.drop_left, List.append_assoc]

/-- behind a first part only the second one is patched -/
theorem overwrite_append (before after : Bytes) (pos : Nat) (patch : Bytes) :
    (before ++ after).overwrite (before.length + pos) patch =
      before ++ after.overwrite pos patch := by
  unfold overwrite
  rw [List.take_length_add_append, Nat.add_assoc, List.drop_length_add_append, List.append_assoc,
    List.append_assoc, List.append_assoc]

/-- a first byte that is there already need not be written -/
theorem overwrite_cons {bytes : Bytes} {pos : Nat} {b : UInt8} (h : bytes[pos]? = some b)
    (patch : Bytes) : bytes.overwrite pos (b :: patch) = bytes.overwrite (pos + 1) patch := by
  have htake : bytes.take (pos + 1) = bytes.take pos ++ [b] := by
    rw [List.take_add_one, h]
    rfl
  have hstop : pos + (b :: patch).length = pos + 1 + patch.length := by
    rw [List.length_cons]
    omega
  rw [overwrite, overwrite, htake, hstop, List.append_assoc (bytes.take pos) [b] patch]
  rfl

/-- Writing a block with a patch in it writes no more than the patch just when the other bytes of the
block are there already. -/
theorem overwrite_overwrite_iff {bytes block patch : Bytes} {pos offset : Nat}
    (hpatch : offset + patch.length ≤ block.length) (hblock : pos + block.length ≤ bytes.length) :
    bytes.overwrite pos (block.overwrite offset patch) = bytes.overwrite (pos + offset) patch ↔
      ∀ i < block.length, ¬ (offset ≤ i ∧ i < offset + patch.length) →
        bytes[pos + i]? = block[i]? := by
  have hsize := length_overwrite hpatch
  have hinner : pos + (block.overwrite offset patch).length ≤ bytes.length := by
    rw [hsize]
    exact hblock
  have houter : pos + offset + patch.length ≤ bytes.length := by omega
  rw [List.ext_getElem?_iff]
  constructor
  · intro h i hi hout
    have hx := h (pos + i)
    have hin : pos ≤ pos + i ∧ pos + i < pos + (block.overwrite offset patch).length := by omega
    have hout' : ¬ (pos + offset ≤ pos + i ∧ pos + i < pos + offset + patch.length) := by omega
    rw [getElem?_overwrite hinner, getElem?_overwrite houter, if_pos hin, if_neg hout',
      Nat.add_sub_cancel_left, getElem?_overwrite hpatch, if_neg hout] at hx
    exact hx.symm
  · intro h x
    rw [getElem?_overwrite hinner, getElem?_overwrite houter, getElem?_overwrite hpatch]
    by_cases hin : pos ≤ x ∧ x < pos + (block.overwrite offset patch).length
    · obtain ⟨i, rfl⟩ := Nat.exists_eq_add_of_le hin.1
      rw [if_pos hin, Nat.add_sub_cancel_left]
      by_cases hi : offset ≤ i ∧ i < offset + patch.length
      · have hi' : pos + offset ≤ pos + i ∧ pos + i < pos + offset + patch.length := by omega
        rw [if_pos hi, if_pos hi', Nat.add_sub_add_left]
      · have hi' : ¬ (pos + offset ≤ pos + i ∧ pos + i < pos + offset + patch.length) := by omega
        rw [if_neg hi, if_neg hi', h i (by omega) hi]
    · have hout : ¬ (pos + offset ≤ x ∧ x < pos + offset + patch.length) := by omega
      rw [if_neg hin, if_neg hout]

/-! ## blocks -/

/-- the bytes from `pos` on are those of the block -/
def Holds (bytes : Bytes) (pos : Nat) (block : Bytes) : Prop :=
  ∀ i < block.length, bytes[pos + i]? = block[i]?

theorem holds_append {bytes a b : Bytes} {pos : Nat} :
    Holds bytes pos (a ++ b) ↔ Holds bytes pos a ∧ Holds bytes (pos + a.length) b := by
  constructor
  · intro h
    constructor
    · intro i hi
      rw [h i (by rw [List.length_append]; omega), List.getElem?_append_left hi]
    · intro i hi
      rw [Nat.add_assoc, h (a.length + i) (by rw [List.length_append]; omega),
        List.getElem?_append_right (Nat.le_add_right ..), Nat.add_sub_cancel_left]
  · rintro ⟨ha, hb⟩ i hi
    rw [List.length_append] at hi
    by_cases hlow : i < a.length
    · rw [ha i hlow, List.getElem?_append_left hlow]
    · have hhigh := hb (i - a.length) (by omega)
      rw [List.getElem?_append_right (Nat.le_of_not_lt hlow), ← hhigh]
      congr 1
      omega

theorem length_of_holds {bytes block : Bytes} {pos : Nat} (h : Holds bytes pos block)
    (hpos : 0 < block.length) : pos + block.length ≤ bytes.length := by
  have hlast := h (block.length - 1) (by omega)
  rw [List.getElem?_eq_getElem (by omega : block.length - 1 < block.length)] at hlast
  have := (List.getElem?_eq_some_iff.mp hlast).1
  omega

/-- a block that is held divides the string -/
theorem eq_append_of_holds {bytes block : Bytes} {pos : Nat} (h : Holds bytes pos block)
    (hpos : 0 < block.length) :
    bytes = bytes.take pos ++ block ++ bytes.drop (pos + block.length) := by
  have hlength := length_of_holds h hpos
  show bytes = bytes.overwrite pos block
  apply List.ext_getElem?
  intro x
  rw [getElem?_overwrite hlength]
  by_cases hin : pos ≤ x ∧ x < pos + block.length
  · rw [if_pos hin, ← h (x - pos) (by omega)]
    congr 1
    omega
  · rw [if_neg hin]

theorem drop_of_holds {bytes block : Bytes} {pos : Nat} (h : Holds bytes pos block)
    (hpos : 0 < block.length) : bytes.drop pos = block ++ bytes.drop (pos + block.length) := by
  have hlength := length_of_holds h hpos
  have htake : (bytes.take pos).length = pos := by
    rw [List.length_take]
    omega
  conv => lhs; rw [eq_append_of_holds h hpos]
  rw [List.append_assoc, List.drop_left' htake]

theorem slice?_of_holds {bytes block : Bytes} {pos : Nat} (h : Holds bytes pos block)
    (hpos : 0 < block.length) : bytes.slice? pos block.length = some block := by
  rw [slice?_eq_some]
  refine ⟨length_of_holds h hpos, ?_⟩
  rw [drop_of_holds h hpos, List.take_left]

/-- a block stays where it is as long as its bytes do -/
theorem Holds.congr {a b block : Bytes} {pos : Nat} (h : Holds a pos block)
    (hsame : ∀ x, pos ≤ x → x < pos + block.length → a[x]? = b[x]?) : Holds b pos block := by
  intro i hi
  rw [← hsame (pos + i) (Nat.le_add_right ..) (by omega)]
  exact h i hi

end Bytes

end Cartridge
