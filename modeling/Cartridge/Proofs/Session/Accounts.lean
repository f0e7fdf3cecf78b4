import Cartridge.Proofs.Block.RoundTrip
import Cartridge.Proofs.FreeMap.SameBank
import Cartridge.Proofs.FreeMap.Segments
import Cartridge.Proofs.Session.Reachable
import Mathlib.Algebra.GroupWithZero.Nat

/-!
# The accounts of a placement

Placing the blocks of a script frees its old ranges and reserves new ones, which may take up what
has just been freed.  Either way the ledger accounts for every offset: what is free now and what was
reserved make up what was free before and what was freed; and from a failure the ledger leads back.

* `FreeMap.freeBytes_opened`   a used range that is opened adds its length to what is free;
* `Range.total`            the offsets of some ranges, counted range by range;
* `FreeMap.Covers`         a range that is not empty and lies inside the map;
* `Ledger.Accounts`        the sizes balance, and each region lies in one bank
                           (`Ledger.Accounts.release`, `Ledger.Accounts.claim`);
* `Staged.accounts_of_reserve`   so they do once the blocks are placed;
* `Staged.reserve_accounts`      **what placing the blocks does to an image, and what is left of a
                           failure.**
-/

namespace Cartridge

/-! ## sizes -/

namespace FreeMap

/-- a range that is not empty and lies inside the map -/
def Covers (m : FreeMap) (r : Range) : Prop := r.start < r.stop ∧ r.stop ≤ m.size

instance (m : FreeMap) (r : Range) : Decidable (m.Covers r) :=
  inferInstanceAs (Decidable (r.start < r.stop ∧ r.stop ≤ m.size))

/-- **A used range that is opened adds its length to what is free.** -/
theorem freeBytes_opened {m m' : FreeMap} {r : Range} (hsize : m'.size = m.size)
    (hr : m.Covers r) (hclosed : m.Used r) (hopened : ∀ x ∈ r, m'.isFree x = true)
    (helse : ∀ x, x ∉ r → m'.isFree x = m.isFree x) :
    m'.freeBytes = m.freeBytes + (r.stop - r.start) := by
  obtain ⟨hfilled, hinside⟩ := hr
  -- the offsets in front of the range, in it, and behind it
  have hsplit : List.range m.size = List.range' 0 r.start ++
      (List.range' r.start (r.stop - r.start) ++ List.range' r.stop (m.size - r.stop)) := by
    have hinner := @List.range'_append_1 r.start (r.stop - r.start) (m.size - r.stop)
    have houter := @List.range'_append_1 0 r.start (m.size - r.start)
    rw [show r.start + (r.stop - r.start) = r.stop by omega,
      show r.stop - r.start + (m.size - r.stop) = m.size - r.start by omega] at hinner
    rw [Nat.zero_add, show r.start + (m.size - r.start) = m.size by omega] at houter
    rw [hinner, houter, List.range_eq_range']
  have hcongr {start count : Nat} (hout : ∀ x, start ≤ x → x < start + count → x ∉ r) :
      (List.range' start count).countP m'.isFree = (List.range' start count).countP m.isFree := by
    apply List.countP_congr
    intro x hx
    rw [List.mem_range'_1] at hx
    rw [helse x (hout x hx.1 hx.2)]
  have hmember {x : Nat} (hlow : r.start ≤ x) (hhigh : x < r.start + (r.stop - r.start)) :
      x ∈ r := ⟨hlow, by omega⟩
  have hnow : (List.range' r.start (r.stop - r.start)).countP m'.isFree = r.stop - r.start := by
    rw [countP_const fun x hlow hhigh => hopened x (hmember hlow hhigh), if_pos rfl]
  have hthen : (List.range' r.start (r.stop - r.start)).countP m.isFree = 0 := by
    rw [countP_const fun x hlow hhigh => hclosed x (hmember hlow hhigh), if_neg Bool.false_ne_true]
  have hfront : ∀ x, 0 ≤ x → x < 0 + r.start → x ∉ r := by
    rintro x _ hx ⟨hlow, _⟩
    omega
  have hbehind : ∀ x, r.stop ≤ x → x < r.stop + (m.size - r.stop) → x ∉ r := by
    rintro x hx _ ⟨_, hhigh⟩
    omega
  rw [freeBytes_eq, freeBytes_eq, hsize, hsplit]
  simp only [List.countP_append, hnow, hthen, hcongr hfront, hcongr hbehind]
  omega

end FreeMap

/-- the offsets of some ranges, counted range by range -/
def Range.total (rs : List Range) : Nat := (rs.map fun r => r.stop - r.start).sum

theorem Range.total_append (rs rs' : List Range) :
    total (rs ++ rs') = total rs + total rs' := by
  rw [total, List.map_append, List.sum_append]
  rfl

theorem Range.total_singleton (r : Range) : total [r] = r.stop - r.start := by
  rw [total, List.map_singleton, List.sum_singleton]

/-! ## ledgers -/

namespace Ledger

/-- what is free now and what was reserved make up what was free before and what was freed, and
each region lies in one bank -/
structure Accounts (ledger : Ledger) (image : Image) : Prop where
  balance : ledger.image.space.freeBytes + Range.total ledger.reserved =
    image.space.freeBytes + Range.total ledger.freed
  in_bank : ∀ r ∈ ledger.reserved, ∃ bank, ∀ x ∈ r, x / image.space.bankSize = bank

theorem accounts_ofImage (image : Image) : (ofImage image).Accounts image where
  balance := rfl
  in_bank := by simp [ofImage]

section
variable {image : Image} {ledger ledger' : Ledger} (h : ledger.Accounts image)
  (htracks : ledger.Tracks image)
include h htracks

theorem Accounts.release {r : Range} (hr : image.space.Covers r) (hused : image.space.Used r)
    (hfresh : ∀ f ∈ ledger.freed, f.Disjoint r) (hrelease : release r ledger = (.ok (), ledger')) :
    ledger'.Accounts image := by
  obtain ⟨image', hfree, rfl⟩ := release_eq_ok hrelease
  obtain ⟨_, _, hsize, _, hclass⟩ := Image.free_eq_ok hfree
  have hcovers : ledger.image.space.Covers r := ⟨hr.1, htracks.size ▸ hr.2⟩
  -- the range was used before, and has not been freed since
  have hclosed : ledger.image.space.Used r := by
    intro x hx
    by_contra hopen
    rcases ((htracks.isFree x).mp (eq_true_of_ne_false hopen)).2 with hfree | ⟨_, f, hf, hxf⟩
    · rw [hused x hx] at hfree
      cases hfree
    · exact hfresh f hf x hxf hx
  have hcount := FreeMap.freeBytes_opened hsize hcovers hclosed
    (fun x hx => by rw [hclass, if_pos ⟨hx, Nat.lt_of_lt_of_le hx.2 hcovers.2⟩])
    (fun x hx => by rw [hclass, if_neg fun hin => hx hin.1])
  refine ⟨?_, h.in_bank⟩
  have hbalance := h.balance
  rw [Range.total_append, Range.total_singleton]
  show image'.space.freeBytes + Range.total ledger.reserved = _
  omega

theorem Accounts.claim {size offset : Nat} (hclaim : claim size ledger = (.ok offset, ledger')) :
    ledger'.Accounts image := by
  obtain ⟨image', hallocate, rfl⟩ := claim_eq_ok hclaim
  obtain ⟨hpos, hoffers, _, _, hsize, _, hclass⟩ := Image.allocate_eq_ok hallocate
  have hcovers : image'.space.Covers ⟨offset, offset + size⟩ :=
    ⟨Nat.lt_add_of_pos_right hpos, hsize ▸ hoffers.inside⟩
  -- seen from the image behind it, the region that was claimed is opened
  have hcount := FreeMap.freeBytes_opened hsize.symm hcovers
    (fun x hx => by rw [hclass, if_pos hx])
    (fun x hx => hoffers.free x hx.1 hx.2)
    (fun x hx => by rw [hclass, if_neg hx])
  constructor
  · have hbalance := h.balance
    rw [Range.total_append, Range.total_singleton]
    simp only at hcount ⊢
    omega
  · intro r hr
    rcases List.mem_append.mp hr with hr | hr
    · exact h.in_bank r hr
    · rw [List.mem_singleton.mp hr, ← htracks.bankSize]
      exact ⟨_, fun x hx => FreeMap.div_of_in_bank hoffers.in_bank hx⟩

end

end Ledger

/-! ## placing the blocks -/

namespace Staged

section
variable {image : Image} {ledger : Ledger}

theorem accounts_of_releaseStrings {table : StringTable}
    (hcovers : ∀ old, table.extent = some old → image.space.Covers old)
    (hused : ∀ old, table.extent = some old → image.space.Used old)
    (h : releaseStrings table (.ofImage image) = (.ok (), ledger)) : ledger.Accounts image := by
  unfold releaseStrings at h
  cases hextent : table.extent with
  | none =>
    rw [hextent] at h
    cases h
    exact Ledger.accounts_ofImage image
  | some old =>
    rw [hextent] at h
    exact (Ledger.accounts_ofImage image).release (Ledger.tracks_ofImage image)
      (hcovers old hextent) (hused old hextent) (by simp [Ledger.ofImage]) h

theorem accounts_of_reserveStrings {script script' : Script} {strings : Option Placement}
    (hcovers : ∀ old, script.strings.extent = some old → image.space.Covers old)
    (hused : ∀ old, script.strings.extent = some old → image.space.Used old)
    (h : reserveStrings script (.ofImage image) = (.ok (script', strings), ledger)) :
    ledger.Accounts image := by
  rcases reserveStrings_eq_ok h with ⟨_, _, _, rfl⟩ |
    ⟨_, between, offset, bytes, hrelease, hclaim, _⟩
  · exact Ledger.accounts_ofImage image
  · exact (accounts_of_releaseStrings hcovers hused hrelease).claim
      (tracks_of_releaseStrings hused hrelease).1 hclaim

section
variable {entry : CachedScript} (howns : entry.Owns image.space)
  (hblock : image.space.Covers entry.block)
  (hextent : ∀ old, entry.script.strings.extent = some old → image.space.Covers old)
include howns hblock hextent

theorem accounts_of_reserve {staged : Staged}
    (h : reserve entry.script entry.block (.ofImage image) = (.ok staged, ledger)) :
    ledger.Accounts image := by
  obtain ⟨between, hstrings, hbody⟩ := reserve_eq_ok h
  have haccounts := accounts_of_reserveStrings hextent howns.extent hstrings
  have htracks := (tracks_of_reserveStrings howns.extent hstrings).1
  have hfresh := disjoint_of_reserveStrings howns hstrings
  obtain ⟨_, released, hrelease, hclaim⟩ := reserveBody_eq_ok hbody
  exact (haccounts.release htracks hblock howns.block hfresh hrelease).claim
    (htracks.release howns.block hfresh hrelease).1 hclaim

end

end

/-- what is staged for a script whose blocks have been placed: its strings, if they were edited,
with the script that names their place, and the script compressed -/
structure Stages (staged : Staged) (script : Script) (image : Image) : Prop where
  strings : (script.strings.dirty = false ∧ staged.strings = none ∧ staged.script = script) ∨
    (script.strings.dirty = true ∧ ∃ p, staged.strings = some p ∧
      script.strings.serialize p.offset image.layout.bankSize = .ok p.bytes ∧
      script.setStringTableAddress (image.toAddress p.offset) = .ok staged.script)
  body : ∀ before after : Bytes,
    Block.decompress (before ++ staged.body.bytes ++ after) before.length =
      .ok staged.script.toBytes

theorem stages_of_reserve {image : Image} {ledger : Ledger} {script : Script} {old : Range}
    {staged : Staged} (h : reserve script old (.ofImage image) = (.ok staged, ledger)) :
    staged.Stages script image := by
  obtain ⟨between, hstrings, hbody⟩ := reserve_eq_ok h
  obtain ⟨hbytes, _⟩ := reserveBody_eq_ok hbody
  obtain ⟨w, hlaid⟩ := Block.laid_of_compress hbytes
  refine ⟨?_, Block.decompress_of_laid hlaid⟩
  have hlayout : between.image.layout = image.layout := by
    have hmarks := (marksOnly_reserveStrings script (.ofImage image)).2
    rwa [hstrings] at hmarks
  rcases reserveStrings_eq_ok hstrings with ⟨hdirty, hscript, hnone, _⟩ |
    ⟨hdirty, _, offset, bytes, _, _, hserialize, haddress, hsome⟩
  · exact .inl ⟨hdirty, hnone, hscript⟩
  · unfold Image.toAddress at haddress
    rw [hlayout] at hserialize haddress
    exact .inr ⟨hdirty, _, hsome, hserialize, haddress⟩

/-- **Placing the blocks of a script accounts for every offset.**  No byte of the image changes.
When the blocks are placed, an offset is free just when it was free or has been freed and is not
reserved; the regions have the lengths of the blocks, lie inside the map, each in one bank, and
apart; and the number of free offsets has changed by the lengths that were freed and reserved.  When
they are not, undoing gives the free map back as it was. -/
theorem reserve_accounts {image : Image} {script : Script} {old : Range}
    (howns : CachedScript.Owns ⟨script, old⟩ image.space) (hold : image.space.Covers old)
    (hextent : ∀ r, script.strings.extent = some r → image.space.Covers r)
    {result : Except Error Staged} {ledger : Ledger}
    (h : reserve script old (.ofImage image) = (result, ledger)) :
    ledger.image.data = image.data ∧
    (∀ e, result = .error e → ledger.undo = image) ∧
    ∀ staged, result = .ok staged → staged.Stages script image ∧
      ledger.freed = freedStrings script.strings ++ [old] ∧
      ledger.reserved = staged.placements.map Placement.range ∧
      (∀ x, ledger.image.space.isFree x = true ↔
        (image.space.isFree x = true ∨ ∃ f ∈ ledger.freed, x ∈ f) ∧
          ∀ r ∈ ledger.reserved, x ∉ r) ∧
      ledger.reserved.Pairwise Range.Disjoint ∧
      (∀ r ∈ ledger.reserved, r.stop ≤ image.space.size ∧
        ∃ bank, ∀ x ∈ r, x / image.space.bankSize = bank) ∧
      ledger.image.space.freeBytes + Range.total ledger.reserved =
        image.space.freeBytes + Range.total ledger.freed := by
  refine ⟨?_, ?_, ?_⟩
  · have hdata := (marksOnly_reserve script old (.ofImage image)).1
    rwa [h] at hdata
  · rintro e rfl
    exact undo_of_reserve_error howns h
  · rintro staged rfl
    obtain ⟨htracks, hfreed, hreserved, _, hdisjoint, _⟩ := tracks_of_reserve howns h
    have haccounts := accounts_of_reserve howns hold hextent h
    refine ⟨stages_of_reserve h, hfreed, hreserved, fun x => ?_, ?_, fun r hr => ?_,
      haccounts.balance⟩
    · -- what has been freed lies inside the map
      have hinside : ∀ f ∈ ledger.freed, f.stop ≤ image.space.size := by
        intro f hf
        rw [hfreed] at hf
        rcases List.mem_append.mp hf with hf | hf
        · exact (hextent f (mem_freedStrings.mp hf).2).2
        · rw [List.mem_singleton.mp hf]
          exact hold.2
      rw [htracks.isFree, and_comm]
      refine and_congr_left fun _ => or_congr_right ⟨And.right, ?_⟩
      rintro ⟨f, hf, hx⟩
      exact ⟨Nat.lt_of_lt_of_le hx.2 (hinside f hf), f, hf, hx⟩
    · rw [hreserved]
      exact List.pairwise_map.mpr hdisjoint
    · exact ⟨(htracks.reserved r hr).2.1, haccounts.in_bank r hr⟩

/-- new blocks in what has just been freed; and a body that no place is left for, behind a string
block that took the place of the old one -/
theorem reserve_accounts_reused :
    let layout : Layout := ⟨0x1000, 0, 0, 4, 1, 0, 2, 4, 1, []⟩
    let space : FreeMap := ⟨160, 0x1000, false, [84], by decide, by decide, by decide, by decide⟩
    let image : Image := ⟨List.replicate 160 0, space, layout⟩
    let full : Image := ⟨List.replicate 160 0, .ofSize 160 0x1000, layout⟩
    let grown : Script := ⟨List.replicate 16 32, [0xB8, 80, 0, 0, 0xBB, 0, 0],
      ⟨[(0, [1, 2])], true, true, some ⟨80, 84⟩⟩, true⟩
    let long : Script := ⟨List.replicate 16 32,
      [0xB8, 80, 0, 0, 0xBB, 0, 0x17, 0x1B, 0x1D, 0x1E, 0x2A, 0x2B, 0x32, 0x57, 0x5C, 0],
      ⟨[(0, [1])], true, true, some ⟨80, 84⟩⟩, true⟩
    (∃ staged ledger, reserve grown ⟨16, 36⟩ (.ofImage image) = (.ok staged, ledger) ∧
      ledger.freed = [⟨80, 84⟩, ⟨16, 36⟩] ∧ ledger.reserved = [⟨80, 85⟩, ⟨16, 36⟩] ∧
      ledger.image.space.freeBytes + 25 = space.freeBytes + 24) ∧
    ∃ e ledger, reserve long ⟨16, 36⟩ (.ofImage full) = (.error e, ledger) ∧
      ledger.freed = [⟨80, 84⟩, ⟨16, 36⟩] ∧ ledger.reserved = [⟨80, 84⟩] ∧ ledger.undo = full := by
  intro layout space image full grown long
  have howns : CachedScript.Owns ⟨grown, ⟨16, 36⟩⟩ space := by
    refine ⟨by decide +kernel, ?_, ?_⟩
    · rintro old ⟨⟩
      decide +kernel
    · rintro old ⟨⟩
      decide
  have howns' : CachedScript.Owns ⟨long, ⟨16, 36⟩⟩ full.space := by
    refine ⟨by decide +kernel, ?_, ?_⟩
    · rintro old ⟨⟩
      decide +kernel
    · rintro old ⟨⟩
      decide
  have hblock : space.Covers ⟨16, 36⟩ := by decide
  have hblock' : full.space.Covers ⟨16, 36⟩ := by decide
  have hcovers : ∀ old, some (Range.mk 80 84) = some old → space.Covers old := by
    rintro old ⟨⟩
    decide
  have hcovers' : ∀ old, some (Range.mk 80 84) = some old → full.space.Covers old := by
    rintro old ⟨⟩
    decide
  constructor
  · have hplaced : (reserve grown ⟨16, 36⟩ (.ofImage image)).1.toOption.isSome = true := by
      decide +kernel
    have hfreed : (reserve grown ⟨16, 36⟩ (.ofImage image)).2.freed = [⟨80, 84⟩, ⟨16, 36⟩] := by
      decide +kernel
    have hreserved :
        (reserve grown ⟨16, 36⟩ (.ofImage image)).2.reserved = [⟨80, 85⟩, ⟨16, 36⟩] := by
      decide +kernel
    cases hresult : (reserve grown ⟨16, 36⟩ (.ofImage image)).1 with
    | error e =>
      rw [hresult] at hplaced
      cases hplaced
    | ok staged =>
      obtain ⟨-, -, hok⟩ :=
        @reserve_accounts image grown ⟨16, 36⟩ howns hblock hcovers _ _ (Prod.eta _).symm
      obtain ⟨-, -, -, -, -, -, hbalance⟩ := hok staged hresult
      rw [hfreed, hreserved] at hbalance
      exact ⟨staged, _, Prod.ext hresult rfl, hfreed, hreserved, hbalance⟩
  · have hfails : (reserve long ⟨16, 36⟩ (.ofImage full)).1.toOption.isSome = false := by
      decide +kernel
    have hfreed : (reserve long ⟨16, 36⟩ (.ofImage full)).2.freed = [⟨80, 84⟩, ⟨16, 36⟩] := by
      decide +kernel
    have hreserved : (reserve long ⟨16, 36⟩ (.ofImage full)).2.reserved = [⟨80, 84⟩] := by
      decide +kernel
    cases hresult : (reserve long ⟨16, 36⟩ (.ofImage full)).1 with
    | error e =>
      obtain ⟨-, hundo, -⟩ :=
        @reserve_accounts full long ⟨16, 36⟩ howns' hblock' hcovers' _ _ (Prod.eta _).symm
      exact ⟨e, _, Prod.ext hresult rfl, hfreed, hreserved, hundo e hresult⟩
    | ok staged =>
      rw [hresult] at hfails
      cases hfails

end Staged

end Cartridge
