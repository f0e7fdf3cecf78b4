import Cartridge.Proofs.Script.Load
import Cartridge.Proofs.Session.Replace
import Cartridge.Proofs.Session.Storage

/-!
# The storage of a script moves

* `Image.Moves`              what a write-back does to an image, as far as other scripts can tell;
* `Image.KeepsApart.moves`   storage stays apart when that of one script moves;
* `Staged.mem_stored`        what is recorded of a script that was written back;
* `Staged.Replaces.moves`    a write-back moves the storage of its script, and the event pointer
                             leads there (`Staged.Replaces.located`).
-/

namespace Cartridge

/-! ## images -/

namespace Image

/-- the storage of a script has moved from `old` to `new`, out of free offsets and those of `old`;
what was used besides stays used, and its bytes stay, those of the event pointer aside -/
structure Moves (image image' : Image) (index : Nat) (old new : Storage) : Prop where
  layout : image'.layout = image.layout
  size : image.size ≤ image'.size
  taken : ∀ r ∈ new.ranges, ∀ x ∈ r, image.space.isFree x = true ∨ ∃ q ∈ old.ranges, x ∈ q
  own : ∀ r ∈ new.strings, new.block.Disjoint r
  used : ∀ r ∈ new.ranges, image'.space.Used r
  kept : ∀ x, image.space.isFree x = false → (∀ q ∈ old.ranges, x ∉ q) →
    image'.space.isFree x = false
  same : ∀ x < image.size, image.space.isFree x = false → (∀ q ∈ old.ranges, x ∉ q) →
    x ∉ image.pointerRange index → image.data[x]? = image'.data[x]?

section
variable {image image' : Image} {index : Nat} {old new : Storage}
  (h : image.Moves image' index old new)
include h

theorem Moves.pointerRange (i : Nat) : image'.pointerRange i = image.pointerRange i := by
  rw [Image.pointerRange, h.layout, Image.pointerRange]

/-- a used offset of others is not taken -/
theorem Moves.spared {x : Nat} (hused : image.space.isFree x = false)
    (hold : ∀ q ∈ old.ranges, x ∉ q) : ∀ r ∈ new.ranges, x ∉ r := by
  intro r hr hx
  rcases h.taken r hr x hx with hfree | ⟨q, hq, hxq⟩
  · rw [hused] at hfree
    cases hfree
  · exact hold q hq hxq

/-- **Storage that is kept apart stays so when that of one script moves.** -/
theorem KeepsApart.moves {held : Nat → Storage → Prop} (hapart : image.KeepsApart held)
    (hheld : held index old) :
    image'.KeepsApart fun i t => i = index ∧ t = new ∨ i ≠ index ∧ held i t := by
  have hothers : ∀ {i t}, i ≠ index → held i t → ∀ r ∈ t.ranges, ∀ x ∈ r,
      image.space.isFree x = false ∧ ∀ q ∈ old.ranges, x ∉ q := by
    intro i t hi ht r hr x hx
    exact ⟨hapart.used ht r hr x hx, fun q hq => hapart.apart ht hheld hi r hr q hq x hx⟩
  have hpointers : ∀ {i t}, held i t → ∀ x ∈ image.pointerRange i,
      image.space.isFree x = false ∧ ∀ q ∈ old.ranges, x ∉ q := by
    intro i t ht x hx
    exact ⟨hapart.pointer_used ht x hx, fun q hq hxq => hapart.pointer_apart hheld ht q hq x hxq hx⟩
  have hpointed : ∀ {i t}, (i = index ∧ t = new ∨ i ≠ index ∧ held i t) → ∃ u, held i u := by
    rintro i t (⟨rfl, _⟩ | ⟨_, ht⟩)
    · exact ⟨old, hheld⟩
    · exact ⟨t, ht⟩
  constructor
  case used =>
    rintro i t (⟨rfl, rfl⟩ | ⟨hi, ht⟩) r hr x hx
    · exact h.used r hr x hx
    · obtain ⟨hused, hold⟩ := hothers hi ht r hr x hx
      exact h.kept x hused hold
  case own =>
    rintro i t (⟨rfl, rfl⟩ | ⟨_, ht⟩)
    · exact h.own
    · exact hapart.own ht
  case apart =>
    rintro i t j u (⟨rfl, rfl⟩ | ⟨hi, ht⟩) (⟨rfl, rfl⟩ | ⟨hj, hu⟩) hij r hr q hq x hxr hxq
    · exact hij rfl
    · obtain ⟨hused, hold⟩ := hothers hj hu q hq x hxq
      exact h.spared hused hold r hr hxr
    · obtain ⟨hused, hold⟩ := hothers hi ht r hr x hxr
      exact h.spared hused hold q hq hxq
    · exact hapart.apart ht hu hij r hr q hq x hxr hxq
  case pointer_used =>
    intro i t ht x hx
    obtain ⟨u, hu⟩ := hpointed ht
    rw [h.pointerRange] at hx
    obtain ⟨hused, hold⟩ := hpointers hu x hx
    exact h.kept x hused hold
  case pointer_apart =>
    intro i t j u ht hu r hr x hxr hx
    obtain ⟨u', hu'⟩ := hpointed hu
    rw [h.pointerRange] at hx
    rcases ht with ⟨rfl, rfl⟩ | ⟨_, ht⟩
    · obtain ⟨hused, hold⟩ := hpointers hu' x hx
      exact h.spared hused hold r hr hxr
    · exact hapart.pointer_apart ht hu' r hr x hxr hx

/-- the bytes of other scripts, and of their event pointers, stay -/
theorem Moves.same_others {held : Nat → Storage → Prop} (hapart : image.KeepsApart held)
    (hheld : held index old) {i : Nat} {t : Storage} (hi : i ≠ index) (ht : held i t)
    (hinside : ∀ r ∈ t.ranges, r.stop ≤ image.size)
    (hpointer : (image.pointerRange i).stop ≤ image.size) :
    (∀ r ∈ t.ranges, ∀ x ∈ r, image.data[x]? = image'.data[x]?) ∧
      ∀ x ∈ image.pointerRange i, image.data[x]? = image'.data[x]? := by
  constructor
  · intro r hr x hx
    refine h.same x (Nat.lt_of_lt_of_le hx.2 (hinside r hr)) (hapart.used ht r hr x hx) ?_ ?_
    · exact fun q hq => hapart.apart ht hheld hi r hr q hq x hx
    · exact hapart.pointer_apart ht hheld r hr x hx
  · intro x hx
    refine h.same x (Nat.lt_of_lt_of_le hx.2 hpointer) (hapart.pointer_used ht x hx) ?_ ?_
    · exact fun q hq hxq => hapart.pointer_apart hheld ht q hq x hxq hx
    · exact pointerRange_disjoint image hi x hx

end

end Image

/-! ## write-backs -/

namespace Staged

section
variable {staged : Staged} {entry : CachedScript} {index : Nat} {image image' : Image}
  {ledger : Ledger}
  (hreserve : reserve entry.script entry.block (.ofImage image) = (.ok staged, ledger))
include hreserve

/-- the strings of a stored script are where they have been placed, or where they were if they have
not been edited -/
theorem mem_stored {r : Range} (hr : r ∈ staged.stored.storage.strings) :
    (∃ p, staged.strings = some p ∧ r = p.range) ∨
      entry.script.strings.dirty = false ∧ entry.script.strings.extent = some r := by
  obtain ⟨between, hstrings, _⟩ := reserve_eq_ok hreserve
  unfold stored CachedScript.storage at hr
  rcases reserveStrings_eq_ok hstrings with ⟨hdirty, hscript, hnone, _⟩ |
    ⟨_, _, offset, bytes, _, _, _, _, hsome⟩
  · rw [hnone] at hr
    simp only [hscript] at hr
    exact .inr ⟨hdirty, Option.mem_toList.mp hr⟩
  · rw [hsome] at hr
    exact .inl ⟨_, hsome, List.mem_singleton.mp hr⟩

variable (h : staged.Replaces entry index image image')
include h

theorem Replaces.moves (howns : entry.Owns image.space) :
    image.Moves image' index entry.storage staged.stored.storage := by
  have hbody : staged.body ∈ staged.placements :=
    List.mem_append_right _ (List.mem_singleton_self _)
  have hstrings : ∀ {p}, staged.strings = some p → p ∈ staged.placements := fun hp =>
    List.mem_append_left _ (Option.mem_toList.mpr hp)
  have hblock : entry.block ∈ entry.storage.ranges := List.mem_cons_self ..
  have hextent : ∀ {r}, entry.script.strings.extent = some r → r ∈ entry.storage.ranges :=
    fun hr => List.mem_cons_of_mem _ (Option.mem_toList.mpr hr)
  have hfreed : ∀ f ∈ entry.freed, f ∈ entry.storage.ranges := by
    intro f hf
    rcases CachedScript.mem_freed.mp hf with ⟨_, hf⟩ | rfl
    · exact hextent hf
    · exact hblock
  -- strings that have not been edited are used, and are not freed
  have hleft : ∀ {r}, entry.script.strings.dirty = false →
      entry.script.strings.extent = some r → ∀ x ∈ r,
        image.space.isFree x = false ∧ ∀ f ∈ entry.freed, x ∉ f := by
    intro r hclean hr x hx
    refine ⟨howns.extent r hr x hx, ?_⟩
    intro f hf
    rcases CachedScript.mem_freed.mp hf with ⟨hdirty, _⟩ | rfl
    · rw [hclean] at hdirty
      cases hdirty
    · exact fun hxblock => howns.disjoint r hr x hxblock hx
  have htaken : ∀ p ∈ staged.placements, ∀ x ∈ p.range,
      image.space.isFree x = true ∨ ∃ q ∈ entry.storage.ranges, x ∈ q := by
    intro p hp x hx
    rcases h.taken p hp x hx with hfree | ⟨f, hf, hxf⟩
    · exact .inl hfree
    · exact .inr ⟨f, hfreed f hf, hxf⟩
  constructor
  case layout => exact h.layout
  case size => exact h.size
  case taken =>
    refine Storage.forall_ranges.mpr ⟨htaken staged.body hbody, fun r hr => ?_⟩
    rcases mem_stored hreserve hr with ⟨p, hp, rfl⟩ | ⟨_, hr⟩
    · exact htaken p (hstrings hp)
    · exact fun x hx => .inr ⟨r, hextent hr, hx⟩
  case own =>
    intro r hr x hx hxr
    rcases mem_stored hreserve hr with ⟨p, hp, rfl⟩ | ⟨hclean, hr⟩
    · have hapart := h.apart
      rw [placements, hp] at hapart
      exact List.rel_of_pairwise_cons hapart (List.mem_singleton_self _) x hxr hx
    · obtain ⟨hused, hout⟩ := hleft hclean hr x hxr
      exact h.outside hused hout staged.body hbody hx
  case used =>
    refine Storage.forall_ranges.mpr ⟨h.used_of_placement hbody, fun r hr => ?_⟩
    rcases mem_stored hreserve hr with ⟨p, hp, rfl⟩ | ⟨hclean, hr⟩
    · exact h.used_of_placement (hstrings hp)
    · intro x hx
      obtain ⟨hused, hout⟩ := hleft hclean hr x hx
      exact h.used_of_used hused hout
  case kept =>
    exact fun x hused hold => h.used_of_used hused fun f hf => hold f (hfreed f hf)
  case same =>
    exact fun x hx hused hold => h.untouched hx hused fun f hf => hold f (hfreed f hf)

theorem Replaces.storage_inside (hinside : ∀ r ∈ entry.storage.ranges, r.stop ≤ image.size) :
    ∀ r ∈ staged.stored.storage.ranges, r.stop ≤ image'.size := by
  refine Storage.forall_ranges.mpr ⟨?_, fun r hr => ?_⟩
  · exact h.inside _ (List.mem_append_right _ (List.mem_singleton_self _))
  · rcases mem_stored hreserve hr with ⟨p, hp, rfl⟩ | ⟨_, hr⟩
    · exact h.inside p (List.mem_append_left _ (Option.mem_toList.mpr hp))
    · exact Nat.le_trans (hinside r (List.mem_cons_of_mem _ (Option.mem_toList.mpr hr))) h.size

/-- the event pointer leads to the new body, unless it has been written over it -/
theorem Replaces.located (hpointer : staged.body.range.Disjoint (image.pointerRange index)) :
    staged.stored.Located image' index := by
  have hbody : staged.body ∈ staged.placements :=
    List.mem_append_right _ (List.mem_singleton_self _)
  obtain ⟨between, _, hbytes⟩ := reserve_eq_ok hreserve
  have hcompress := (reserveBody_eq_ok hbytes).1
  exact ⟨_, staged.body.offset, _, h.pointer, Image.toOffset_toAddress image' _,
    (Block.decompress_of_holds hcompress (h.nonempty _ hbody) (h.holds _ hbody hpointer)).2, rfl⟩

end

end Staged

end Cartridge
