import Cartridge.Proofs.Session.Reserve

/-!
# Writing the blocks of a script

* `Staged.Written`            what writing some blocks has made of an image;
* `Staged.exists_writeAll`    blocks whose places lie in the free map are written, so those that
                              have been placed are (`Staged.exists_writeAll_of_reserve`);
* `Staged.store_eq_ok`, `Staged.store_eq_error`   the blocks are written in either case, and then
                              the event pointer is set, or refused;
* `Session.writeBackEvent_eq_ok`, `Session.writeBackEvent_eq_error`   a write-back as a whole, of
                              a script that is loaded;
* `Session.stored_of_writeBackEvent`, `Session.cached_of_writeBackEvent`   and of any.
-/

namespace Cartridge

namespace Staged

/-! ## blocks -/

/-- the image with some blocks written into it -/
structure Written (image image' : Image) (ps : List Placement) : Prop where
  layout : image'.layout = image.layout
  size : image.size ≤ image'.size
  holds : ∀ p ∈ ps, image'.data.Holds p.offset p.bytes
  out : ∀ x < image.size, (∀ p ∈ ps, x ∉ p.range) → image'.data[x]? = image.data[x]?
  isFree : ∀ x, image'.space.isFree x = true ↔ image.space.isFree x = true ∧ ∀ p ∈ ps, x ∉ p.range

theorem written_nil (image : Image) : Written image image [] where
  layout := rfl
  size := Nat.le_refl _
  holds := by simp
  out := fun _ _ _ => rfl
  isFree := by simp

theorem written_cons {image between image' : Image} {p : Placement} {ps : List Placement}
    (hfirst : image.write p.offset p.bytes .used = .ok between) (hrest : Written between image' ps)
    (hdisjoint : ∀ q ∈ ps, p.range.Disjoint q.range) : Written image image' (p :: ps) where
  layout := hrest.layout.trans (Image.layout_write hfirst)
  size := Nat.le_trans (Image.size_write hfirst) hrest.size
  holds := by
    intro q hq
    rcases List.mem_cons.mp hq with rfl | hq
    · have hholds : between.data.Holds q.offset q.bytes := fun i hi =>
        Image.getElem?_write_in hfirst hi
      refine hholds.congr ?_
      intro x hx hlt
      have hsize : q.offset + q.bytes.length ≤ between.size :=
        Bytes.length_of_holds hholds (by omega)
      exact (hrest.out x (by omega) fun r hr => hdisjoint r hr x ⟨hx, hlt⟩).symm
    · exact hrest.holds q hq
  out := by
    intro x hx hout
    have hbetween := Image.size_write hfirst
    rw [hrest.out x (by omega) fun q hq => hout q (List.mem_cons_of_mem _ hq)]
    exact Image.getElem?_write_out hfirst hx (hout p (List.mem_cons_self ..))
  isFree := by
    intro x
    rw [hrest.isFree, Image.isFree_write_used hfirst, List.forall_mem_cons, Bool.and_eq_true,
      Bool.not_eq_true', decide_eq_false_iff_not, and_comm (a := x ∉ _), and_assoc]
    rfl

theorem exists_writeAll {image : Image} {ps : List Placement}
    (hinside : ∀ p ∈ ps, p.offset < image.space.size)
    (hdisjoint : ps.Pairwise fun p q => p.range.Disjoint q.range) :
    ∃ image', writeAll image ps = (.ok (), image') ∧ Written image image' ps := by
  induction ps generalizing image with
  | nil => exact ⟨image, rfl, written_nil image⟩
  | cons p ps ih =>
    obtain ⟨hp, hps⟩ := List.pairwise_cons.mp hdisjoint
    have hroom := Nat.lt_of_lt_of_le (hinside p (List.mem_cons_self ..))
      (image.size_le_roomFor (p.offset + p.bytes.length))
    obtain ⟨between, hfirst⟩ := Image.exists_write p.bytes .used hroom
    have hgrows := Image.space_size_write hfirst
    have hrestInside : ∀ q ∈ ps, q.offset < between.space.size := fun q hq =>
      Nat.lt_of_lt_of_le (hinside q (List.mem_cons_of_mem _ hq)) hgrows
    obtain ⟨image', hrest, hwritten⟩ := ih hrestInside hps
    refine ⟨image', ?_, written_cons hfirst hwritten hp⟩
    rw [writeAll, hfirst]
    exact hrest

/-- **Blocks that have been placed are written.** -/
theorem exists_writeAll_of_reserve {entry : CachedScript} {image : Image} {ledger : Ledger}
    {staged : Staged} (howns : entry.Owns image.space)
    (h : reserve entry.script entry.block (.ofImage image) = (.ok staged, ledger)) :
    ∃ written, writeAll ledger.image staged.placements = (.ok (), written) ∧
      Written ledger.image written staged.placements := by
  obtain ⟨htracks, _, hreserved, _, hapart, _⟩ := tracks_of_reserve howns h
  refine exists_writeAll ?_ hapart
  intro p hp
  have hmem : p.range ∈ ledger.reserved := hreserved ▸ List.mem_map_of_mem hp
  obtain ⟨hpos, hstop, _⟩ := htracks.reserved p.range hmem
  rw [htracks.size]
  exact Nat.lt_of_lt_of_le hpos hstop

/-! ## the pointer -/

theorem store_eq_ok {staged : Staged} {index : Nat} {image image' : Image}
    (h : staged.store index image = (.ok (), image')) : ∃ written,
      writeAll image staged.placements = (.ok (), written) ∧
      written.setEventPointer index (written.toAddress staged.body.offset) = .ok image' := by
  unfold store at h
  cases hwrite : writeAll image staged.placements with
  | mk result written =>
    rw [hwrite] at h
    cases result with
    | error e => cases h
    | ok done =>
      simp only at h
      cases hpointer : written.setEventPointer index (written.toAddress staged.body.offset) with
      | error e =>
        rw [hpointer] at h
        cases h
      | ok found =>
        rw [hpointer] at h
        cases h
        exact ⟨written, rfl, hpointer⟩

/-- blocks that have been placed are written, and then the pointer is set -/
theorem written_of_store {entry : CachedScript} {image image' : Image} {ledger : Ledger}
    {staged : Staged} {index : Nat} (howns : entry.Owns image.space)
    (hreserve : reserve entry.script entry.block (.ofImage image) = (.ok staged, ledger))
    (hstore : staged.store index ledger.image = (.ok (), image')) : ∃ written,
      Written ledger.image written staged.placements ∧
      written.setEventPointer index (written.toAddress staged.body.offset) = .ok image' := by
  obtain ⟨written, hwrite, hpointer⟩ := store_eq_ok hstore
  obtain ⟨written', hwrite', hwritten⟩ := exists_writeAll_of_reserve howns hreserve
  rw [hwrite] at hwrite'
  cases hwrite'
  exact ⟨written, hwritten, hpointer⟩

/-- when the pointer is refused, the blocks stay written -/
theorem store_eq_error {staged : Staged} {index : Nat} {image image' : Image} {e : Error}
    (h : staged.store index image = (.error e, image')) :
    writeAll image staged.placements = (.error e, image') ∨
      writeAll image staged.placements = (.ok (), image') ∧
        image'.setEventPointer index (image'.toAddress staged.body.offset) = .error e := by
  unfold store at h
  cases hwrite : writeAll image staged.placements with
  | mk result written =>
    rw [hwrite] at h
    cases result with
    | error e' =>
      cases h
      exact .inl rfl
    | ok done =>
      simp only at h
      cases hpointer : written.setEventPointer index (written.toAddress staged.body.offset) with
      | error e' =>
        rw [hpointer] at h
        cases h
        exact .inr ⟨rfl, hpointer⟩
      | ok found =>
        rw [hpointer] at h
        cases h

end Staged

/-! ## sessions -/

namespace Session

section
variable {s s' : Session} {index : Nat} {entry : CachedScript}
  (hentry : s.cache.get? index = some entry)
include hentry

theorem writeBackEvent_eq_error {e : Error} (h : s.writeBackEvent index = (.error e, s')) :
    entry.script.modified = true ∧
    ((∃ ledger, Staged.reserve entry.script entry.block (.ofImage s.image) = (.error e, ledger) ∧
        s' = { s with image := ledger.undo }) ∨
      ∃ staged ledger image,
        Staged.reserve entry.script entry.block (.ofImage s.image) = (.ok staged, ledger) ∧
        staged.store index ledger.image = (.error e, image) ∧ s' = { s with image }) := by
  unfold writeBackEvent at h
  rw [hentry] at h
  simp only at h
  by_cases hmodified : entry.script.modified = true
  · rw [hmodified, Bool.not_true, if_neg (by decide)] at h
    refine ⟨hmodified, ?_⟩
    cases hreserve : Staged.reserve entry.script entry.block (.ofImage s.image) with
    | mk result ledger =>
      rw [hreserve] at h
      cases result with
      | error e' =>
        cases h
        exact .inl ⟨ledger, rfl, rfl⟩
      | ok staged =>
        simp only at h
        cases hstore : staged.store index ledger.image with
        | mk result' image =>
          rw [hstore] at h
          cases result' with
          | error e' =>
            cases h
            exact .inr ⟨staged, ledger, image, rfl, hstore, rfl⟩
          | ok done => cases h
  · rw [Bool.not_eq_true] at hmodified
    rw [hmodified] at h
    cases h

theorem writeBackEvent_eq_ok (hmodified : entry.script.modified = true)
    (h : s.writeBackEvent index = (.ok (), s')) : ∃ staged ledger image,
      Staged.reserve entry.script entry.block (.ofImage s.image) = (.ok staged, ledger) ∧
      staged.store index ledger.image = (.ok (), image) ∧
      s' = ⟨image, s.cache.insert index staged.stored⟩ := by
  unfold writeBackEvent at h
  rw [hentry] at h
  simp only at h
  rw [hmodified, Bool.not_true, if_neg (by decide)] at h
  cases hreserve : Staged.reserve entry.script entry.block (.ofImage s.image) with
  | mk result ledger =>
    rw [hreserve] at h
    cases result with
    | error e => cases h
    | ok staged =>
      simp only at h
      cases hstore : staged.store index ledger.image with
      | mk result' image =>
        rw [hstore] at h
        cases result' with
        | error e => cases h
        | ok done =>
          cases h
          exact ⟨staged, ledger, image, rfl, hstore, rfl⟩

end

section
variable {s s' : Session} {index : Nat}

/-- only a script that is loaded is refused, and it stays loaded -/
theorem cached_of_writeBackEvent {e : Error} (h : s.writeBackEvent index = (.error e, s')) :
    ∃ entry, s.cache.get? index = some entry ∧ s'.cache = s.cache := by
  cases hentry : s.cache.get? index with
  | none =>
    rw [writeBackEvent, hentry] at h
    cases h
  | some entry =>
    obtain ⟨_, ⟨_, _, rfl⟩ | ⟨_, _, _, _, _, rfl⟩⟩ := writeBackEvent_eq_error hentry h
    · exact ⟨entry, rfl, rfl⟩
    · exact ⟨entry, rfl, rfl⟩

/-- a write-back that succeeds has stored a script, or has had nothing to store -/
theorem stored_of_writeBackEvent (h : s.writeBackEvent index = (.ok (), s')) : s' = s ∨
    ∃ entry staged ledger image, s.cache.get? index = some entry ∧
      Staged.reserve entry.script entry.block (.ofImage s.image) = (.ok staged, ledger) ∧
      staged.store index ledger.image = (.ok (), image) ∧
      s' = ⟨image, s.cache.insert index staged.stored⟩ := by
  cases hentry : s.cache.get? index with
  | none =>
    rw [writeBackEvent, hentry] at h
    cases h
    exact .inl rfl
  | some entry =>
    by_cases hmodified : entry.script.modified = true
    · obtain ⟨staged, ledger, image, hreserve, hstore, hdone⟩ :=
        writeBackEvent_eq_ok hentry hmodified h
      exact .inr ⟨entry, staged, ledger, image, rfl, hreserve, hstore, hdone⟩
    · rw [writeBackEvent, hentry] at h
      simp only [hmodified] at h
      cases h
      exact .inl rfl

end

end Session

end Cartridge
