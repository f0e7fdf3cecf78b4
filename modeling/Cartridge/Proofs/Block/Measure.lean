import Cartridge.Proofs.Block.Format

/-!
# The length of a block

The decoder and the length walker follow the same control bytes, so they agree on where a block
ends, and nothing outside the block has a say in either answer: not the bytes around it, and not the
place where it stands.

* `Block.Closing.lengthFrom`   the control bytes lead the length walker to the end of the block;
* `Block.blockLength_of_form`   a block has the length of its form;
* `Block.decompress_eq_ok_iff_form`   an output is the expansion of the block at the position;
* `Block.decompress_self_contained`   **what decodes has a length, and its own bytes settle both.**
-/

namespace Cartridge.Block

section
variable {w : Window} {ts : List Token} {bytes block behind out : Bytes} {start : Nat}

/-! ## the length walker -/

theorem Packet.exists_cons (h : Packet w ts block) : ∃ header spelled, block = header :: spelled := by
  cases h
  exact ⟨_, _, rfl⟩

/-- from a control byte on, the walker gets to the byte behind the last one -/
theorem Closing.lengthFrom {pos : Nat} {front : Bytes} (h : Closing w pos ts front)
    (behind : Bytes) : lengthFrom pos (front ++ behind) = .ok (pos + front.length) := by
  induction h with
  | @last pos control hcount =>
    rw [List.singleton_append, lengthFrom.eq_def]
    simp only [hcount, if_true, List.length_singleton]
  | @addendum pos control lo hi ts us vs a b rest hcount hsome hfirst _ hnext _ ih =>
    -- the walker takes a word only if it leads ahead, which it does: the first packet has a header
    have hmore : control.toNat % 64 ≠ 0 := by omega
    obtain ⟨header, spelled, rfl⟩ := hfirst.exists_cons
    have hahead : ¬ Bytes.value [lo, hi] ≤ pos + 3 := by
      rw [hnext, List.cons_append, List.length_cons]
      omega
    have hspan : Bytes.value [lo, hi] - (pos + 3) = (header :: spelled ++ b).length := by omega
    rw [List.cons_append, List.cons_append, List.cons_append, List.append_assoc, lengthFrom.eq_def]
    have hlength : (header :: spelled ++ b ++ rest).length =
        (header :: spelled ++ b).length + rest.length := List.length_append
    simp only [hmore, if_false, hahead, hspan, List.drop_left]
    rw [ih, hnext, List.length_cons, List.length_cons, List.length_cons, hlength]
    congr 1
    omega

/-- the bytes of a block are counted, and no others -/
theorem blockLength_of_form (hform : Form w ts block) (hdrop : bytes.drop start = block ++ behind) :
    blockLength bytes start = .ok block.length := by
  cases hform with
  | @mk lo hi control us vs body rest hlength _ _ hclosing =>
    refine blockLength_eq_ok.mpr ⟨lo, hi, body ++ (control :: rest ++ behind), ?_, ?_⟩
    · rw [hdrop, List.cons_append, List.cons_append, List.append_assoc]
    · rw [hlength, List.drop_left, hclosing.lengthFrom]
      congr 1
      simp only [List.length_cons, List.length_append]
      omega

/-! ## the decoder -/

/-- the position is needed to find the block, and for nothing else -/
theorem decompress_eq_ok_iff_form : decompress bytes start = .ok out ↔
    ∃ w ts block behind, bytes.drop start = block ++ behind ∧ Form w ts block ∧
      Expands [] ts out := by
  rw [decompress, mapError_eq_ok, output_eq_ok]
  simp only [contents_eq_none]
  constructor
  · rintro ⟨w, ts, ⟨block, behind, hdrop, hform⟩, hexpands⟩
    exact ⟨w, ts, block, behind, hdrop, hform, hexpands⟩
  · rintro ⟨w, ts, block, behind, hdrop, hform, hexpands⟩
    exact ⟨w, ts, ⟨block, behind, hdrop, hform⟩, hexpands⟩

/-- **A block is self-contained**: where bytes decode, the length walker finds the end of the block
inside them, and wherever the bytes up to that end stand, in any other bytes, they give the same
output and the same length. -/
theorem decompress_self_contained (h : decompress bytes start = .ok out) :
    ∃ n, blockLength bytes start = .ok n ∧ start + n ≤ bytes.length ∧
      ∀ (bytes' : Bytes) (start' : Nat), (∀ i < n, bytes'[start' + i]? = bytes[start + i]?) →
        decompress bytes' start' = .ok out ∧ blockLength bytes' start' = .ok n := by
  obtain ⟨w, ts, block, behind, hdrop, hform, hexpands⟩ := decompress_eq_ok_iff_form.mp h
  have hlength := blockLength_of_form hform hdrop
  obtain ⟨hpos, hinside⟩ := inside_of_blockLength hlength
  refine ⟨block.length, hlength, hinside, fun bytes' start' hsame => ?_⟩
  have hholds : bytes'.Holds start' block := by
    intro i hi
    rw [hsame i hi, ← List.getElem?_drop, hdrop, List.getElem?_append_left hi]
  have hdrop' := Bytes.drop_of_holds hholds hpos
  exact ⟨decompress_eq_ok_iff_form.mpr ⟨w, ts, block, _, hdrop', hform, hexpands⟩,
    blockLength_of_form hform hdrop'⟩

end

/-- a block with two addenda, moved to the end of other bytes -/
theorem decompress_self_contained_moved :
    decompress [77, 0, 0, 0x41, 7, 0, 0, 5, 0x02, 14, 0, 2, 6, 2, 0, 0x80, 99] 1 =
        .ok [5, 6, 5, 6, 5] ∧
      blockLength [77, 0, 0, 0x41, 7, 0, 0, 5, 0x02, 14, 0, 2, 6, 2, 0, 0x80, 99] 1 = .ok 15 ∧
      decompress [1, 2, 3, 0, 0, 0x41, 7, 0, 0, 5, 0x02, 14, 0, 2, 6, 2, 0, 0x80] 3 =
        .ok [5, 6, 5, 6, 5] ∧
      blockLength [1, 2, 3, 0, 0, 0x41, 7, 0, 0, 5, 0x02, 14, 0, 2, 6, 2, 0, 0x80] 3 = .ok 15 := by
  have hread : decompress [77, 0, 0, 0x41, 7, 0, 0, 5, 0x02, 14, 0, 2, 6, 2, 0, 0x80, 99] 1 =
      .ok [5, 6, 5, 6, 5] := toOption_eq_some.mp (by decide +kernel)
  have hlength : blockLength [77, 0, 0, 0x41, 7, 0, 0, 5, 0x02, 14, 0, 2, 6, 2, 0, 0x80, 99] 1 =
      .ok 15 := toOption_eq_some.mp (by decide +kernel)
  obtain ⟨n, hn, _, hmoved⟩ := decompress_self_contained hread
  obtain rfl : n = 15 := Except.ok.inj (hn.symm.trans hlength)
  exact ⟨hread, hlength, hmoved _ 3 (by decide)⟩

end Cartridge.Block
