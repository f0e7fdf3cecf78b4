import Cartridge.Block.Decode
import Cartridge.Proofs.Bytes
import Cartridge.Proofs.Except
import Cartridge.Proofs.FreeMap.Classes

/-!
# What is read of a block

A block is read up to its last control byte and no further, so it is the same block wherever the
same bytes stand.

* `Block.Closes`             a front of some bytes in which the control bytes of a block end;
* `Block.closes_of_lengthFrom`   there is one as soon as a length is found;
* `Block.exists_front`       the front of the bytes that holds a whole block;
* `Block.inside_of_blockLength`, `Block.congr`   a block lies inside the bytes, and depends on no
                             others.
-/

namespace Cartridge.Block

/-- `front` begins with the control byte at `pos`, and the last control byte ends it at `stop`:
whatever follows, the length and the stretches are those of `rest` -/
structure Closes (pos stop : Nat) (rest front after : Bytes) : Prop where
  split : rest = front ++ after
  reaches : pos + front.length = stop
  nonempty : 0 < front.length
  length : ∀ other, lengthFrom pos (front ++ other) = .ok stop
  stretches : ∀ start other, addenda start (start + pos) (front ++ other) =
    addenda start (start + pos) rest

/-- the last control byte -/
theorem closes_last {pos : Nat} {control : UInt8} {behind : Bytes}
    (h : control.toNat % 64 = 0) :
    Closes pos (pos + 1) (control :: behind) [control] behind where
  split := rfl
  reaches := rfl
  nonempty := Nat.one_pos
  length := by
    intro other
    rw [List.singleton_append, lengthFrom.eq_def]
    simp only [h, if_true]
  stretches := by
    intro start other
    rw [List.singleton_append, addenda.eq_def, addenda.eq_def]
    simp only [h, if_true]

/-- a control byte with its word, and the packet in front of the next control byte -/
theorem Closes.addendum {pos stop next : Nat} {control lo hi : UInt8} {body front after : Bytes}
    (hcount : control.toNat % 64 ≠ 0) (hnext : Bytes.value [lo, hi] = next)
    (hahead : pos + 3 < next) (h : Closes next stop (body.drop (next - (pos + 3))) front after) :
    Closes pos stop (control :: lo :: hi :: body)
      (control :: lo :: hi :: (body.take (next - (pos + 3)) ++ front)) after := by
  have hsplit : body.take (next - (pos + 3)) ++ (front ++ after) = body := by
    rw [← h.split, List.take_append_drop]
  have hroom : next - (pos + 3) ≤ body.length := by
    have hlength := congrArg List.length h.split
    have hpos := h.nonempty
    rw [List.length_drop, List.length_append] at hlength
    omega
  have htake : (body.take (next - (pos + 3))).length = next - (pos + 3) := by
    rw [List.length_take]
    exact Nat.min_eq_left hroom
  have hstop : ¬ next ≤ pos + 3 := Nat.not_le_of_lt hahead
  constructor
  · rw [List.cons_append, List.cons_append, List.cons_append, List.append_assoc, hsplit]
  · have hreaches := h.reaches
    rw [List.length_cons, List.length_cons, List.length_cons, List.length_append, htake]
    omega
  · exact Nat.succ_pos _
  · intro other
    have hrest := h.length other
    rw [List.cons_append, List.cons_append, List.cons_append, List.append_assoc, lengthFrom.eq_def]
    simp only [hcount, if_false, hnext, hstop, List.drop_left' htake]
    exact hrest
  · intro start other
    have hrest := h.stretches start other
    have hspan : start + next - (start + pos + 3) = next - (pos + 3) := by omega
    have hstop' : ¬ start + next ≤ start + pos + 3 := by omega
    rw [List.cons_append, List.cons_append, List.cons_append, List.append_assoc, addenda.eq_def,
      addenda.eq_def start _ (control :: lo :: hi :: body)]
    simp only [hcount, if_false, hnext, hspan, hstop', List.drop_left' htake,
      List.take_left' htake, hrest]

theorem closes_of_lengthFrom {pos stop : Nat} {rest : Bytes} (h : lengthFrom pos rest = .ok stop) :
    ∃ front after, Closes pos stop rest front after := by
  fun_induction lengthFrom pos rest with
  | case1 => cases h
  | case2 pos control behind hcount =>
    cases h
    exact ⟨[control], behind, closes_last hcount⟩
  | case3 => cases h
  | case4 pos control hcount lo hi body next hstop ih =>
    obtain ⟨front, after, hcloses⟩ := ih h
    exact ⟨_, after, hcloses.addendum hcount rfl (Nat.lt_of_not_le hstop)⟩
  | case5 => cases h

/-! ## blocks -/

theorem blockLength_eq_ok {bytes : Bytes} {start n : Nat} :
    blockLength bytes start = .ok n ↔ ∃ lo hi behind, bytes.drop start = lo :: hi :: behind ∧
      lengthFrom (2 + Bytes.value [lo, hi]) (behind.drop (Bytes.value [lo, hi])) = .ok n := by
  unfold blockLength
  match bytes.drop start with
  | [] => simp
  | [_] => simp
  | lo :: hi :: behind => simp [mapError_eq_ok]

theorem Closes.contents_eq {body stop start : Nat} {lo hi : UInt8} {behind front after : Bytes}
    (h : Closes (2 + body) stop (behind.drop body) front after)
    (hbody : Bytes.value [lo, hi] = body) (htake : (behind.take body).length = body)
    (other : Bytes) : contents start (lo :: hi :: (behind.take body ++ (front ++ other))) =
      contents start (lo :: hi :: behind) := by
  have hstretches := h.stretches start other
  have hsplit := h.split
  rw [← Nat.add_assoc] at hstretches
  match front, h.nonempty with
  | control :: front, _ =>
    rw [List.cons_append] at hsplit hstretches
    rw [hsplit] at hstretches
    simp only [contents, hbody, List.drop_left' htake, List.take_left' htake, List.cons_append,
      hsplit, hstretches]

/-- **A block is read off its own bytes**, whatever follows them. -/
theorem exists_front {bytes : Bytes} {start n : Nat} (h : blockLength bytes start = .ok n) :
    ∃ front after, bytes.drop start = front ++ after ∧ front.length = n ∧ 0 < n ∧
      ∀ bytes' after', bytes'.drop start = front ++ after' →
        blockLength bytes' start = .ok n ∧ decompress bytes' start = decompress bytes start := by
  obtain ⟨lo, hi, behind, hdrop, hlength⟩ := blockLength_eq_ok.mp h
  obtain ⟨front, after, hcloses⟩ := closes_of_lengthFrom hlength
  generalize hbody : Bytes.value [lo, hi] = body at *
  have hsplit : behind.take body ++ (front ++ after) = behind := by
    rw [← hcloses.split, List.take_append_drop]
  have htake : (behind.take body).length = body := by
    have hfront := congrArg List.length hcloses.split
    have hpos := hcloses.nonempty
    rw [List.length_drop, List.length_append] at hfront
    rw [List.length_take]
    omega
  have hreaches := hcloses.reaches
  refine ⟨lo :: hi :: (behind.take body ++ front), after, ?_, ?_, by omega, ?_⟩
  · rw [hdrop, List.cons_append, List.cons_append, List.append_assoc, hsplit]
  · rw [List.length_cons, List.length_cons, List.length_append, htake]
    omega
  · intro bytes' after' hdrop'
    rw [List.cons_append, List.cons_append, List.append_assoc] at hdrop'
    constructor
    · refine blockLength_eq_ok.mpr ⟨lo, hi, _, hdrop', ?_⟩
      rw [hbody, List.drop_left' htake]
      exact hcloses.length after'
    · have hcontents : contents start (bytes'.drop start) = contents start (bytes.drop start) := by
        rw [hdrop', hdrop]
        exact hcloses.contents_eq hbody htake after'
      rw [decompress, decompress, output, output, hcontents]

theorem inside_of_blockLength {bytes : Bytes} {start n : Nat}
    (h : blockLength bytes start = .ok n) : 0 < n ∧ start + n ≤ bytes.length := by
  obtain ⟨front, after, hdrop, hfront, hpos, _⟩ := exists_front h
  have hlength := congrArg List.length hdrop
  rw [List.length_drop, List.length_append] at hlength
  omega

/-- **A block depends on no other bytes than its own.** -/
theorem congr {bytes bytes' : Bytes} {start n : Nat} (h : blockLength bytes start = .ok n)
    (hsame : ∀ x ∈ Range.mk start (start + n), bytes[x]? = bytes'[x]?) :
    blockLength bytes' start = .ok n ∧ decompress bytes' start = decompress bytes start := by
  obtain ⟨front, after, hdrop, rfl, hpos, hread⟩ := exists_front h
  have hholds : bytes'.Holds start front := by
    intro i hi
    rw [← hsame (start + i) ⟨Nat.le_add_right .., Nat.add_lt_add_left hi start⟩,
      ← List.getElem?_drop, hdrop, List.getElem?_append_left hi]
  exact hread bytes' _ (Bytes.drop_of_holds hholds hpos)

end Cartridge.Block
