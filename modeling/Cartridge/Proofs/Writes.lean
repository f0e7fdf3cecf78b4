import Cartridge.Proofs.Regions

/-!
# Writes

A write is never refused.  It may begin in front of the end of the image, at the end or behind it;
where it reaches past the end, the image and its free map grow together.  An image holds fewer than
`2 ^ 63` bytes, and a write that ends behind that has no room to grow into.

* `Image.Patched`            an image with bytes written into it: sizes, bytes and classes;
* `Image.write_patches`      **every write patches the image.**
-/

namespace Cartridge

namespace Image

/-- `image'` is `image` with the bytes written at the offset -/
structure Patched (image image' : Image) (offset : Nat) (bytes : Bytes) (mode : WriteMode) :
    Prop where
  layout : image'.layout = image.layout
  bankSize : image'.space.bankSize = image.space.bankSize
  size : image'.size = max image.size (offset + bytes.length)
  space_size : image'.space.size = max image.size (offset + bytes.length)
  read : image'.read offset bytes.length = .ok bytes
  kept : ∀ x < image.size, x ∉ Range.mk offset (offset + bytes.length) →
    image'.data[x]? = image.data[x]? ∧ image'.space.isFree x = image.space.isFree x
  gap : ∀ x < offset, image.size ≤ x →
    image'.data[x]? = some 0xFF ∧ image'.space.isFree x = false
  /-- behind the old end every offset counts as used -/
  marked : ∀ x ∈ Range.mk offset (offset + bytes.length), image'.space.isFree x =
    mode.over (decide (x < image.size) && image.space.isFree x)

section
variable {image : Image} {offset : Nat} {bytes : Bytes} {mode : WriteMode}

theorem patched_of_write {image' : Image} (hstep : image.InStep) (hne : bytes ≠ [])
    (h : image.write offset bytes mode = .ok image') : image.Patched image' offset bytes mode := by
  have hpos := List.length_pos_of_ne_nil hne
  obtain ⟨space, hmark, hspace⟩ := (write_eq_ok hne).mp h
  have hbank := (size_of_markWritten hmark).2
  have hdata := getElem?_write hne h
  have hclass := isFree_write h
  simp only [size_roomFor hstep] at hclass
  have hbehind : ∀ x, image.size ≤ x → image.space.isFree x = false := fun x hx =>
    FreeMap.isFree_of_size_le _ x (hstep ▸ hx)
  refine ⟨layout_write h, ?_, size_write_of_ne hne h, ?_, ?_, fun x hx hout => ⟨?_, ?_⟩,
    fun x hx hgap => ⟨?_, ?_⟩, fun x hx => ?_⟩
  · rw [hspace]
    exact hbank.trans (bankSize_roomFor image _)
  · rw [space_size_write_of_ne hne h, size_roomFor hstep]
  · have hholds : image'.data.Holds offset bytes := fun i hi => getElem?_write_in h hi
    unfold read
    simp only [Bytes.slice?_of_holds hholds hpos]
  · exact getElem?_write_out h hx hout
  · rw [hclass, if_neg fun hin => hout hin.1]
  · rw [hdata, if_neg (by omega)]
    exact getElem?_grown_gap hgap (by omega)
  · have hout : x ∉ Range.mk offset (offset + bytes.length) := fun hin => Nat.not_le_of_lt hx hin.1
    rw [hclass, if_neg fun hin => hout hin.1]
    exact hbehind x hgap
  · have hlast : x < max image.size (offset + bytes.length) :=
      Nat.lt_of_lt_of_le hx.2 (Nat.le_max_right ..)
    rw [hclass, if_pos ⟨hx, hlast⟩]
    by_cases hold : x < image.size
    · rw [decide_eq_true hold, Bool.true_and]
    · rw [decide_eq_false hold, Bool.false_and, hbehind x (Nat.le_of_not_lt hold)]

end

/-- **Every write patches the image**, and a write of nothing leaves it alone.  What is written ends
where an image can still grow to, and the image stays of a size that it can have. -/
theorem write_patches {image : Image} (h : image.InStep) {offset : Nat} {bytes : Bytes}
    (hstop : bytes ≠ [] → offset + bytes.length < 2 ^ 63) (mode : WriteMode) :
    ∃ image', image.write offset bytes mode = .ok image' ∧
      (image.size < 2 ^ 63 → image'.size < 2 ^ 63) ∧
      (bytes = [] → image' = image) ∧ (bytes ≠ [] → image.Patched image' offset bytes mode) := by
  by_cases hne : bytes = []
  · refine ⟨image, ?_, id, fun _ => rfl, fun hno => absurd hne hno⟩
    rw [write, hne]
    rfl
  · have hpos := List.length_pos_of_ne_nil hne
    have hroom : offset < (image.roomFor (offset + bytes.length)).size := by
      rw [size_roomFor h]
      omega
    obtain ⟨image', hwrite⟩ := exists_write bytes mode hroom
    have hpatched := patched_of_write h hne hwrite
    refine ⟨image', hwrite, fun hsize => ?_, fun hno => absurd hno hne, fun _ => hpatched⟩
    rw [hpatched.size]
    exact Nat.max_lt.mpr ⟨hsize, hstop hne⟩

/-- a freed byte behind a gap: the gap counts as used -/
theorem write_patches_gap :
    let layout : Layout := ⟨16, 0, 0, 0, 0, 0, 0, 0, 0, []⟩
    let space : FreeMap := ⟨4, 16, false, [1], by decide, by decide, by decide, by decide⟩
    let image : Image := ⟨[1, 2, 3, 4], space, layout⟩
    image.InStep ∧ 6 + [(9 : UInt8)].length < 2 ^ 63 ∧
      ∃ image', image.write 6 [9] .free = .ok image' ∧
        image.Patched image' 6 [9] .free ∧ image'.data = [1, 2, 3, 4, 0xFF, 0xFF, 9] ∧
        image'.space.isFree 3 = true ∧ image'.space.isFree 5 = false ∧
        image'.space.isFree 6 = true := by
  intro layout space image
  have hstep : image.InStep := rfl
  have hstop : 6 + [(9 : UInt8)].length < 2 ^ 63 := by decide
  obtain ⟨image', hwrite, _, _, hpatched⟩ := write_patches hstep (fun _ => hstop) .free
  have hpatched := hpatched (by decide)
  have hdata : ∀ found, image.write 6 [9] .free = .ok found →
      found.data = [1, 2, 3, 4, 0xFF, 0xFF, 9] := by
    intro found hfound
    cases hfound
    rfl
  have hlast := hpatched.marked 6 (by decide)
  refine ⟨hstep, hstop, image', hwrite, hpatched, hdata image' hwrite, ?_, ?_, hlast⟩
  · exact (hpatched.kept 3 (by decide) (by decide)).2
  · exact (hpatched.gap 5 (by decide) (by decide)).2

end Image

end Cartridge
