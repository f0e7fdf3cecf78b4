import Cartridge.Proofs.Block.Extent
import Cartridge.Proofs.Image
import Cartridge.Proofs.Script.Load
import Cartridge.Proofs.StringTable.Reads
import Cartridge.Session.Basic

/-!
# What a script occupies

* `Storage`                  the compressed block of a script, and ranges for its strings;
* `CachedScript.storage`     as the session records it;
* `CachedScript.loadedStorage`   as it is read when the script is loaded;
* `Session.load_eq_ok`, `Session.fetch_eq_ok`   a script that is loaded, or asked for;
* `Session.load_congr`       a script depends only on what is read, and on its event pointer;
* `Session.within_of_load`   what is recorded of a loaded script has been read for it;
* `Image.KeepsApart`         scripts whose storage is used, and apart from each other.
-/

namespace Cartridge

structure Storage where
  block : Range
  strings : List Range
  deriving DecidableEq, Repr

def Storage.ranges (t : Storage) : List Range := t.block :: t.strings

theorem Storage.forall_ranges {t : Storage} {p : Range → Prop} :
    (∀ r ∈ t.ranges, p r) ↔ p t.block ∧ ∀ r ∈ t.strings, p r := List.forall_mem_cons

/-- the same block, and no other offsets for the strings -/
structure Storage.Within (t t' : Storage) : Prop where
  block : t.block = t'.block
  strings : ∀ r ∈ t.strings, ∀ x ∈ r, ∃ q ∈ t'.strings, x ∈ q

theorem Storage.Within.ranges {t t' : Storage} (h : t.Within t') :
    ∀ r ∈ t.ranges, ∀ x ∈ r, ∃ q ∈ t'.ranges, x ∈ q := by
  refine Storage.forall_ranges.mpr ⟨fun x hx => ?_, fun r hr x hx => ?_⟩
  · exact ⟨t'.block, List.mem_cons_self .., h.block ▸ hx⟩
  · obtain ⟨q, hq, hxq⟩ := h.strings r hr x hx
    exact ⟨q, List.mem_cons_of_mem _ hq, hxq⟩

theorem Storage.Within.refl (t : Storage) : t.Within t := ⟨rfl, fun r hr _ hx => ⟨r, hr, hx⟩⟩

/-! ## scripts -/

namespace Script

/-- the bytes that are read for the strings of a script -/
def stringRanges (image : Image) (s : Script) : List Range :=
  match s.stringTableAddress with
  | .ok (some addr) =>
    match image.toOffset addr with
    | .ok table => s.strings.ranges image table
    | .error _ => []
  | _ => []

theorem stringRanges_eq {image : Image} {s : Script} {addr table : Nat}
    (haddress : s.stringTableAddress = .ok (some addr)) (htable : image.toOffset addr = .ok table) :
    s.stringRanges image = s.strings.ranges image table := by
  rw [stringRanges, haddress]
  simp only [htable]

section
variable {image image' : Image} {offset : Nat} {s : Script} (h : load image offset = .ok s)
include h

/-- the strings of a loaded script come from the table that it names, or there are none -/
theorem strings_of_load : (s.stringTableAddress = .ok none ∧ s.strings = .empty) ∨
    ∃ addr used table, s.stringTableAddress = .ok (some addr) ∧ used.Pairwise (· < ·) ∧
      image.toOffset addr = .ok table ∧ StringTable.load image table used = .ok s.strings := by
  obtain ⟨bytes, t, _, hparse, ⟨haddress, rfl⟩ |
    ⟨addr, used, table, strings, haddress, hused, htable, hstrings, rfl⟩⟩ := load_eq_ok.mp h
  · obtain ⟨_, _, _, _, _, rfl, _⟩ := parse_eq_ok hparse
    exact .inl ⟨haddress, rfl⟩
  · obtain ⟨_, _, _, _, hsame⟩ := congr_code (s := t) (t := { t with strings }) rfl rfl
    exact .inr ⟨addr, used, table, hsame.trans haddress, ascending_of_usedStrings hused, htable,
      hstrings⟩

theorem inside_of_stringRanges : ∀ r ∈ s.stringRanges image, r.stop ≤ image.size := by
  rcases strings_of_load h with ⟨haddress, _⟩ | ⟨addr, used, table, haddress, _, htable, hstrings⟩
  · rw [stringRanges, haddress]
    intro r hr
    cases hr
  · rw [stringRanges_eq haddress htable]
    exact StringTable.inside_of_load hstrings

theorem extent_inside {r : Range} (hextent : s.strings.extent = some r) :
    r.stop ≤ image.size := by
  rcases strings_of_load h with ⟨_, hempty⟩ | ⟨_, _, _, _, hascend, _, hstrings⟩
  · rw [hempty] at hextent
    cases hextent
  · exact (StringTable.extent_inside hstrings hascend hextent).2

theorem mem_stringRanges_of_extent {r : Range} {x : Nat} (hextent : s.strings.extent = some r)
    (hx : x ∈ r) : ∃ q ∈ s.stringRanges image, x ∈ q := by
  rcases strings_of_load h with ⟨_, hempty⟩ |
    ⟨addr, used, table, haddress, hascend, htable, hstrings⟩
  · rw [hempty] at hextent
    cases hextent
  · rw [stringRanges_eq haddress htable]
    exact StringTable.mem_ranges_of_extent hstrings hascend hextent hx

/-- **A script depends only on its block and what is read for its strings.** -/
theorem load_congr {n : Nat} (hlength : Block.blockLength image.data offset = .ok n)
    (hlayout : image'.layout = image.layout)
    (hblock : ∀ x ∈ Range.mk offset (offset + n), image.data[x]? = image'.data[x]?)
    (hsame : ∀ r ∈ s.stringRanges image, ∀ x ∈ r, image.data[x]? = image'.data[x]?) :
    load image' offset = .ok s ∧ s.stringRanges image' = s.stringRanges image := by
  have hoffset : ∀ addr, image'.toOffset addr = image.toOffset addr := by
    intro addr
    rw [Image.toOffset, hlayout, Image.toOffset]
  obtain ⟨bytes, t, hbytes, hparse, hcase⟩ := load_eq_ok.mp h
  rw [← (Block.congr hlength hblock).2] at hbytes
  rcases hcase with ⟨haddress, rfl⟩ |
    ⟨addr, used, table, strings, haddress, hused, htable, hstrings, rfl⟩
  · refine ⟨load_eq_ok.mpr ⟨bytes, _, hbytes, hparse, .inl ⟨haddress, rfl⟩⟩, ?_⟩
    rw [stringRanges, haddress, stringRanges, haddress]
  · have haddress' : stringTableAddress { t with strings } = .ok (some addr) :=
      (congr_code rfl rfl).2.2.2.2.trans haddress
    have htable' := (hoffset addr).trans htable
    rw [stringRanges_eq haddress' htable] at hsame ⊢
    rw [stringRanges_eq haddress' htable']
    obtain ⟨hstrings', hranges⟩ := StringTable.load_congr hstrings hlayout hsame
    exact ⟨load_eq_ok.mpr ⟨bytes, t, hbytes, hparse, .inr ⟨addr, used, table, strings, haddress,
      hused, htable', hstrings', rfl⟩⟩, hranges⟩

end

end Script

/-! ## cached scripts -/

namespace CachedScript

def storage (entry : CachedScript) : Storage :=
  ⟨entry.block, entry.script.strings.extent.toList⟩

def loadedStorage (image : Image) (entry : CachedScript) : Storage :=
  ⟨entry.block, entry.script.stringRanges image⟩

/-- the event pointer leads to the block, and the control bytes there give its length -/
def Located (entry : CachedScript) (image : Image) (index : Nat) : Prop :=
  ∃ addr start length, image.eventPointer index = .ok addr ∧ image.toOffset addr = .ok start ∧
    Block.blockLength image.data start = .ok length ∧ entry.block = ⟨start, start + length⟩

theorem Located.congr {entry : CachedScript} {image image' : Image} {index : Nat}
    (h : entry.Located image index) (hlayout : image'.layout = image.layout)
    (hpointer : ∀ x ∈ image.pointerRange index, image.data[x]? = image'.data[x]?)
    (hblock : ∀ x ∈ entry.block, image.data[x]? = image'.data[x]?) :
    entry.Located image' index := by
  obtain ⟨addr, start, length, haddr, hstart, hlength, hrange⟩ := h
  rw [hrange] at hblock
  refine ⟨addr, start, length, ?_, ?_, (Block.congr hlength hblock).1, hrange⟩
  · rw [Image.eventPointer_congr hlayout hpointer, haddr]
  · rw [Image.toOffset, hlayout]
    exact hstart

end CachedScript

namespace Session

theorem load_eq_ok {image : Image} {index : Nat} {entry : CachedScript} :
    load image index = .ok entry ↔ ∃ addr start length script,
      image.eventPointer index = .ok addr ∧ image.toOffset addr = .ok start ∧
      Block.blockLength image.data start = .ok length ∧ Script.load image start = .ok script ∧
      entry = ⟨script, ⟨start, start + length⟩⟩ := by
  unfold load
  simp only [bind_eq_ok]
  constructor
  · rintro ⟨addr, haddr, start, hstart, length, hlength, script, hscript, h⟩
    cases h
    exact ⟨addr, start, length, script, haddr, hstart, hlength, hscript, rfl⟩
  · rintro ⟨addr, start, length, script, haddr, hstart, hlength, hscript, rfl⟩
    exact ⟨addr, haddr, start, hstart, length, hlength, script, hscript, rfl⟩

/-- the script has been loaded before, or is loaded now -/
theorem fetch_eq_ok {s s' : Session} {location index : Nat} {entry : CachedScript}
    (h : s.fetch location = .ok (index, entry, s')) :
    s.cache.get? index = some entry ∧ s' = s ∨
      s.cache.get? index = none ∧ load s.image index = .ok entry ∧
        s' = { s with cache := s.cache.insert index entry } := by
  obtain ⟨i, _, h⟩ := bind_eq_ok.mp h
  cases hfound : s.cache.get? i with
  | some old =>
    rw [hfound] at h
    cases h
    exact .inl ⟨hfound, rfl⟩
  | none =>
    rw [hfound] at h
    obtain ⟨loaded, hload, h⟩ := bind_eq_ok.mp h
    cases h
    exact .inr ⟨hfound, hload, rfl⟩

section
variable {image image' : Image} {index : Nat} {entry : CachedScript}
  (h : load image index = .ok entry)
include h

theorem located_of_load : entry.Located image index := by
  obtain ⟨addr, start, length, script, haddr, hstart, hlength, _, rfl⟩ := load_eq_ok.mp h
  exact ⟨addr, start, length, haddr, hstart, hlength, rfl⟩

theorem inside_of_load : (∀ r ∈ (entry.loadedStorage image).ranges, r.stop ≤ image.size) ∧
    (image.pointerRange index).stop ≤ image.size := by
  obtain ⟨addr, start, length, script, haddr, hstart, hlength, hscript, rfl⟩ := load_eq_ok.mp h
  exact ⟨Storage.forall_ranges.mpr
    ⟨(Block.inside_of_blockLength hlength).2, Script.inside_of_stringRanges hscript⟩,
    Image.inside_of_eventPointer haddr⟩

theorem storage_inside : ∀ r ∈ entry.storage.ranges, r.stop ≤ image.size := by
  obtain ⟨addr, start, length, script, _, _, hlength, hscript, rfl⟩ := load_eq_ok.mp h
  exact Storage.forall_ranges.mpr ⟨(Block.inside_of_blockLength hlength).2,
    fun r hr => Script.extent_inside hscript (Option.mem_toList.mp hr)⟩

/-- what is recorded of a loaded script has been read for it -/
theorem within_of_load : entry.storage.Within (entry.loadedStorage image) := by
  obtain ⟨addr, start, length, script, _, _, _, hscript, rfl⟩ := load_eq_ok.mp h
  exact ⟨rfl, fun r hr x hx =>
    Script.mem_stringRanges_of_extent hscript (Option.mem_toList.mp hr) hx⟩

/-- **A script is loaded again where its event pointer, its block and its strings are the same.** -/
theorem load_congr (hlayout : image'.layout = image.layout)
    (hpointer : ∀ x ∈ image.pointerRange index, image.data[x]? = image'.data[x]?)
    (hsame : ∀ r ∈ (entry.loadedStorage image).ranges, ∀ x ∈ r,
      image.data[x]? = image'.data[x]?) :
    load image' index = .ok entry ∧ entry.loadedStorage image' = entry.loadedStorage image := by
  obtain ⟨addr, start, length, script, haddr, hstart, hlength, hscript, rfl⟩ := load_eq_ok.mp h
  obtain ⟨hblock, hstrings⟩ := Storage.forall_ranges.mp hsame
  obtain ⟨hscript', hranges⟩ := Script.load_congr hscript hlength hlayout hblock hstrings
  have hoffset : image'.toOffset addr = .ok start := by
    rw [Image.toOffset, hlayout]
    exact hstart
  refine ⟨load_eq_ok.mpr ⟨addr, start, length, script, ?_, hoffset,
    (Block.congr hlength hblock).1, hscript', rfl⟩, ?_⟩
  · rw [Image.eventPointer_congr hlayout hpointer, haddr]
  · rw [CachedScript.loadedStorage, CachedScript.loadedStorage, hranges]

end

end Session

/-! ## storage that is kept apart -/

namespace Image

/-- the scripts that hold storage hold used offsets, apart from each other and from the event
pointers of all of them, and the block of each is apart from its own strings -/
structure KeepsApart (image : Image) (held : Nat → Storage → Prop) : Prop where
  used : ∀ {i t}, held i t → ∀ r ∈ t.ranges, image.space.Used r
  own : ∀ {i t}, held i t → ∀ r ∈ t.strings, t.block.Disjoint r
  apart : ∀ {i t j u}, held i t → held j u → i ≠ j → ∀ r ∈ t.ranges, ∀ q ∈ u.ranges, r.Disjoint q
  pointer_used : ∀ {i t}, held i t → image.space.Used (image.pointerRange i)
  pointer_apart : ∀ {i t j u}, held i t → held j u → ∀ r ∈ t.ranges,
    r.Disjoint (image.pointerRange j)

/-- storage of the same blocks, with no more strings, is as much apart -/
theorem KeepsApart.mono {image : Image} {held held' : Nat → Storage → Prop}
    (h : image.KeepsApart held)
    (hheld : ∀ i t', held' i t' → ∃ t, held i t ∧ t'.Within t) : image.KeepsApart held' := by
  constructor
  · intro i t' h' r hr x hx
    obtain ⟨t, ht, hwithin⟩ := hheld i t' h'
    obtain ⟨q, hq, hxq⟩ := hwithin.ranges r hr x hx
    exact h.used ht q hq x hxq
  · intro i t' h' r hr x hblock hx
    obtain ⟨t, ht, hwithin⟩ := hheld i t' h'
    obtain ⟨q, hq, hxq⟩ := hwithin.strings r hr x hx
    exact h.own ht q hq x (hwithin.block ▸ hblock) hxq
  · intro i t' j u' hi hj hij r hr q hq x hxr hxq
    obtain ⟨t, ht, hwithin⟩ := hheld i t' hi
    obtain ⟨u, hu, hwithin'⟩ := hheld j u' hj
    obtain ⟨r', hr', hxr'⟩ := hwithin.ranges r hr x hxr
    obtain ⟨q', hq', hxq'⟩ := hwithin'.ranges q hq x hxq
    exact h.apart ht hu hij r' hr' q' hq' x hxr' hxq'
  · intro i t' h'
    obtain ⟨t, ht, _⟩ := hheld i t' h'
    exact h.pointer_used ht
  · intro i t' j u' hi hj r hr x hx
    obtain ⟨t, ht, hwithin⟩ := hheld i t' hi
    obtain ⟨u, hu, _⟩ := hheld j u' hj
    obtain ⟨q, hq, hxq⟩ := hwithin.ranges r hr x hx
    exact h.pointer_apart ht hu q hq x hxq

/-- scripts that are listed can be checked one by one, and two by two -/
theorem keepsApart_listed {image : Image} {all : List (Nat × Storage)} :
    image.KeepsApart (fun i t => (i, t) ∈ all) ↔ ∀ p ∈ all,
      (∀ r ∈ p.2.ranges, image.space.Used r) ∧ (∀ r ∈ p.2.strings, p.2.block.Disjoint r) ∧
      image.space.Used (image.pointerRange p.1) ∧ ∀ q ∈ all,
        (p.1 ≠ q.1 → ∀ r ∈ p.2.ranges, ∀ r' ∈ q.2.ranges, r.Disjoint r') ∧
        ∀ r ∈ p.2.ranges, r.Disjoint (image.pointerRange q.1) := by
  constructor
  · intro h p hp
    exact ⟨h.used hp, h.own hp, h.pointer_used hp, fun q hq =>
      ⟨fun hne => h.apart hp hq hne, h.pointer_apart hp hq⟩⟩
  · intro h
    exact ⟨fun hp => (h _ hp).1, fun hp => (h _ hp).2.1,
      fun hp hq => ((h _ hp).2.2.2 _ hq).1, fun hp => (h _ hp).2.2.1,
      fun hp hq => ((h _ hp).2.2.2 _ hq).2⟩

instance (image : Image) (all : List (Nat × Storage)) :
    Decidable (image.KeepsApart fun i t => (i, t) ∈ all) :=
  decidable_of_iff _ keepsApart_listed.symm

end Image

end Cartridge
