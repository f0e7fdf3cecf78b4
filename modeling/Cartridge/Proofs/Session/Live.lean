import Cartridge.Proofs.Session.Atomic
import Cartridge.Proofs.Session.Moves
import Cartridge.Proofs.Session.Reachable
import Cartridge.Proofs.Session.Run

/-!
# The storage of loaded scripts never overlaps

A write-back frees the old blocks of its script before it looks for new ones.  That nothing else is
lost by this is an invariant of all scripts together, and not only of those that are loaded: one
that a later step loads must still be there.

* `Session.Held`             the storage of a script: as recorded, or as it would be read;
* `Session.Guarded`          the storage of all scripts that a run loads is kept apart;
* `Session.Guarded.handle`   it stays so when a script is loaded or edited;
* `Session.Guarded.writeBackEvent`   and when one is written back;
* `Session.Guarded.advance`, `Session.Guarded.steps`   and so in every step, and every run;
* `Session.live_after`       **recorded storage is used, and kept apart, at every point of a run.**
-/

namespace Cartridge

namespace Session

open Relation

/-! ## what scripts hold -/

/-- the storage of the script of an event, as it is recorded, or as it would be read -/
def Held (s : Session) (i : Nat) (t : Storage) : Prop :=
  match s.cache.get? i with
  | some entry => t = entry.storage
  | none => ∃ entry, load s.image i = .ok entry ∧ t = entry.loadedStorage s.image

section
variable {s : Session} {i : Nat} {t : Storage}

theorem held_cached {entry : CachedScript} (h : s.cache.get? i = some entry) :
    s.Held i t ↔ t = entry.storage := by
  rw [Held, h]

theorem held_missing (h : s.cache.get? i = none) :
    s.Held i t ↔ ∃ entry, load s.image i = .ok entry ∧ t = entry.loadedStorage s.image := by
  rw [Held, h]

theorem held_insert {image : Image} {cache : Cache} {index : Nat} {entry : CachedScript} :
    Held ⟨image, cache.insert index entry⟩ i t ↔
      i = index ∧ t = entry.storage ∨ i ≠ index ∧ Held ⟨image, cache⟩ i t := by
  unfold Held
  rw [Cache.get?_insert]
  by_cases hi : i = index
  · rw [if_pos hi]
    simp [hi]
  · rw [if_neg hi]
    simp [hi]

end

/-- the scripts in `loads` have storage that is kept apart, and the loaded ones are among them and
where the session has recorded them -/
structure Guarded (s : Session) (loads : Nat → Prop) : Prop where
  loaded : ∀ i, s.Loaded i → loads i
  present : ∀ i, loads i → ∃ t, s.Held i t
  apart : s.image.KeepsApart fun i t => loads i ∧ s.Held i t
  inside : ∀ i entry, s.cache.get? i = some entry → ∀ r ∈ entry.storage.ranges,
    r.stop ≤ s.image.size
  located : ∀ i entry, s.cache.get? i = some entry → entry.Located s.image i
  addresses : s.image.toAddress s.image.space.size ≤ 0x1000000

namespace Guarded

section
variable {s : Session} {loads : Nat → Prop} (h : s.Guarded loads)
include h

theorem inside_of_held {i : Nat} {t : Storage} (ht : s.Held i t) :
    (∀ r ∈ t.ranges, r.stop ≤ s.image.size) ∧ (s.image.pointerRange i).stop ≤ s.image.size := by
  cases hfound : s.cache.get? i with
  | none =>
    obtain ⟨entry, hload, rfl⟩ := (held_missing hfound).mp ht
    exact inside_of_load hload
  | some entry =>
    obtain rfl := (held_cached hfound).mp ht
    obtain ⟨_, _, _, haddr, _⟩ := h.located i entry hfound
    exact ⟨h.inside i entry hfound, Image.inside_of_eventPointer haddr⟩

section
variable {index : Nat} {entry : CachedScript} (hentry : s.cache.get? index = some entry)
include hentry

theorem held : loads index ∧ s.Held index entry.storage :=
  ⟨h.loaded index ⟨entry, hentry⟩, (held_cached hentry).mpr rfl⟩

theorem owns : entry.Owns s.image.space := by
  have hheld := h.held hentry
  have hblock : entry.block ∈ entry.storage.ranges := List.mem_cons_self ..
  have hextent : ∀ {r}, entry.script.strings.extent = some r → r ∈ entry.storage.strings :=
    fun hr => Option.mem_toList.mpr hr
  exact ⟨h.apart.used hheld _ hblock,
    fun old hold => h.apart.used hheld old (List.mem_cons_of_mem _ (hextent hold)),
    fun old hold => h.apart.own hheld old (hextent hold)⟩

end

/-! ## one script is loaded, or edited -/

/-- one script is entered anew, and what the others hold is as it was -/
theorem enter {image : Image} {index : Nat} {entry : CachedScript} (hloads : loads index)
    (hapart : image.KeepsApart fun i t =>
      i = index ∧ t = entry.storage ∨ i ≠ index ∧ loads i ∧ s.Held i t)
    (hsize : s.image.size ≤ image.size)
    (hinside : ∀ r ∈ entry.storage.ranges, r.stop ≤ image.size)
    (hlocated : entry.Located image index)
    (hheld : ∀ i t, i ≠ index → loads i → (Held ⟨image, s.cache⟩ i t ↔ s.Held i t))
    (hstays : ∀ i found, i ≠ index → s.cache.get? i = some found → found.Located image i)
    (haddresses : image.toAddress image.space.size ≤ 0x1000000) :
    Guarded ⟨image, s.cache.insert index entry⟩ loads := by
  constructor
  case loaded =>
    rintro i ⟨found, hfound⟩
    rcases Cache.found_of_insert hfound with ⟨rfl, _⟩ | ⟨_, hfound⟩
    · exact hloads
    · exact h.loaded i ⟨found, hfound⟩
  case present =>
    intro i hi
    by_cases heq : i = index
    · exact ⟨entry.storage, held_insert.mpr (.inl ⟨heq, rfl⟩)⟩
    · obtain ⟨u, hu⟩ := h.present i hi
      exact ⟨u, held_insert.mpr (.inr ⟨heq, (hheld i u heq hi).mpr hu⟩)⟩
  case apart =>
    refine hapart.mono ?_
    rintro i u ⟨hi, hu⟩
    refine ⟨u, ?_, .refl u⟩
    rcases held_insert.mp hu with hnew | ⟨hne, hu⟩
    · exact .inl hnew
    · exact .inr ⟨hne, hi, (hheld i u hne hi).mp hu⟩
  case inside =>
    intro i found hfound
    rcases Cache.found_of_insert hfound with ⟨_, rfl⟩ | ⟨_, hfound⟩
    · exact hinside
    · exact fun r hr => Nat.le_trans (h.inside i found hfound r hr) hsize
  case located =>
    intro i found hfound
    rcases Cache.found_of_insert hfound with ⟨rfl, rfl⟩ | ⟨hne, hfound⟩
    · exact hlocated
    · exact hstays i found hne hfound
  case addresses => exact haddresses

/-- a script comes into the session with storage that has been its own -/
theorem insert {index : Nat} {entry : CachedScript} {t : Storage} (hloads : loads index)
    (ht : s.Held index t) (hwithin : entry.storage.Within t)
    (hinside : ∀ r ∈ entry.storage.ranges, r.stop ≤ s.image.size)
    (hlocated : entry.Located s.image index) :
    Guarded { s with cache := s.cache.insert index entry } loads := by
  refine h.enter hloads (h.apart.mono ?_) (Nat.le_refl _) hinside hlocated (fun _ _ _ _ => .rfl)
    (fun i found _ => h.located i found) h.addresses
  rintro i u (⟨rfl, rfl⟩ | ⟨_, hu⟩)
  · exact ⟨t, ⟨hloads, ht⟩, hwithin⟩
  · exact ⟨u, hu, .refl u⟩

theorem handle {s' : Session} (hstep : Handles s s') (hloads : ∀ i, s'.Loaded i → loads i) :
    s'.Guarded loads := by
  cases hstep with
  | @load index entry hnone hload =>
    have hloaded : loads index := hloads index ⟨entry, Cache.get?_insert_self ..⟩
    exact h.insert hloaded ((held_missing hnone).mpr ⟨entry, hload, rfl⟩) (within_of_load hload)
      (storage_inside hload) (located_of_load hload)
  | @edit index entry hentry change script happly =>
    obtain ⟨hloaded, hheld⟩ := h.held hentry
    have hsame := CachedScript.storage_apply happly
    have hlocated : CachedScript.Located { entry with script } s.image index :=
      h.located index entry hentry
    refine h.insert hloaded hheld ?_ ?_ hlocated
    · rw [hsame]
      exact .refl _
    · rw [hsame]
      exact h.inside index entry hentry

/-! ## one script is written back -/

section
variable {index : Nat} {entry : CachedScript} (hentry : s.cache.get? index = some entry)
include hentry

/-- the storage of a script moves -/
theorem replace {image : Image} {entry' : CachedScript}
    (hmoves : s.image.Moves image index entry.storage entry'.storage)
    (hinside : ∀ r ∈ entry'.storage.ranges, r.stop ≤ image.size)
    (hlocated : entry'.Located image index)
    (haddresses : image.toAddress image.space.size ≤ 0x1000000) :
    Guarded ⟨image, s.cache.insert index entry'⟩ loads := by
  have hheld := h.held hentry
  -- the other scripts are where they were, loaded or not
  have hsame : ∀ {i t}, i ≠ index → loads i → s.Held i t →
      (∀ r ∈ t.ranges, ∀ x ∈ r, s.image.data[x]? = image.data[x]?) ∧
        ∀ x ∈ s.image.pointerRange i, s.image.data[x]? = image.data[x]? := by
    intro i t hi hloads ht
    obtain ⟨hranges, hpointer⟩ := h.inside_of_held ht
    exact hmoves.same_others h.apart hheld hi ⟨hloads, ht⟩ hranges hpointer
  have hothers : ∀ {i t}, i ≠ index → loads i → (Held ⟨image, s.cache⟩ i t ↔ s.Held i t) := by
    intro i t hi hloads
    cases hfound : s.cache.get? i with
    | some found => rw [held_cached hfound, held_cached (s := ⟨image, s.cache⟩) hfound]
    | none =>
      obtain ⟨u, hu⟩ := h.present i hloads
      obtain ⟨hranges, hpointer⟩ := hsame hi hloads hu
      obtain ⟨found, hload, rfl⟩ := (held_missing hfound).mp hu
      obtain ⟨hload', hstorage⟩ := load_congr hload hmoves.layout hpointer hranges
      rw [held_missing hfound, held_missing (s := ⟨image, s.cache⟩) hfound, hload, hload']
      simp [hstorage]
  refine h.enter hheld.1 (h.apart.moves hmoves hheld) hmoves.size hinside hlocated
    (fun _ _ => hothers) ?_ haddresses
  intro i found hi hfound
  obtain ⟨hloaded, hfoundHeld⟩ := h.held hfound
  obtain ⟨hranges, hpointer⟩ := hsame hi hloaded hfoundHeld
  exact (h.located i found hfound).congr hmoves.layout hpointer (hranges _ (List.mem_cons_self ..))

end

theorem writeBackEvent (index : Nat) : (s.writeBackEvent index).2.Guarded loads := by
  cases hresult : s.writeBackEvent index with
  | mk result s' =>
    cases result with
    | error e =>
      obtain ⟨entry, hentry, _⟩ := cached_of_writeBackEvent hresult
      obtain ⟨addr, _, _, haddr, _⟩ := h.located index entry hentry
      rw [writeBackEvent_atomic hentry (h.owns hentry) (Image.count_of_eventPointer haddr)
        h.addresses hresult]
      exact h
    | ok done =>
      rcases stored_of_writeBackEvent hresult with
        rfl | ⟨entry, staged, ledger, image, hentry, hreserve, hstore, rfl⟩
      · exact h
      have howns := h.owns hentry
      have hreplaces := Staged.replaces_of_store howns hreserve hstore
      have hmoves := hreplaces.moves hreserve howns
      have hheld := h.held hentry
      obtain ⟨_, hpointer⟩ := h.inside_of_held hheld.2
      have haway : staged.body.range.Disjoint (s.image.pointerRange index) := by
        intro x hx hxpointer
        refine hmoves.spared (h.apart.pointer_used hheld x hxpointer) ?_ _
          (List.mem_cons_self ..) hx
        exact fun q hq hxq => h.apart.pointer_apart hheld hheld q hq x hxq hxpointer
      refine h.replace hentry hmoves ?_ (hreplaces.located hreserve haway) ?_
      · exact hreplaces.storage_inside hreserve (h.inside index entry hentry)
      · rw [hreplaces.space_size hpointer, Image.toAddress, hreplaces.layout]
        exact h.addresses

/-! ## runs -/

theorem advance {s' : Session} (hstep : Advances s s') (hloads : ∀ i, s'.Loaded i → loads i) :
    s'.Guarded loads := by
  cases hstep with
  | handle hstep => exact h.handle hstep hloads
  | writeBack index => exact h.writeBackEvent index

theorem steps {s' : Session} (hsteps : ReflTransGen Advances s s')
    (hloads : ∀ i, s'.Loaded i → loads i) : s'.Guarded loads := by
  induction hsteps with
  | refl => exact h
  | tail _ hstep ih =>
    exact (ih fun i hi => hloads i (hi.advance hstep)).advance hstep hloads

end

/-- nothing is loaded yet -/
theorem ofImage {image : Image} {loads : Nat → Prop}
    (hload : ∀ i, loads i → ∃ entry, load image i = .ok entry)
    (hapart : image.KeepsApart fun i t =>
      loads i ∧ ∃ entry, load image i = .ok entry ∧ t = entry.loadedStorage image)
    (haddresses : image.toAddress image.space.size ≤ 0x1000000) :
    (Session.ofImage image).Guarded loads := by
  constructor
  case loaded =>
    rintro i ⟨entry, hentry⟩
    cases hentry
  case present =>
    intro i hi
    obtain ⟨entry, hentry⟩ := hload i hi
    exact ⟨_, entry, hentry, rfl⟩
  case apart => exact hapart
  case inside =>
    intro i entry hentry
    cases hentry
  case located =>
    intro i entry hentry
    cases hentry
  case addresses => exact haddresses

end Guarded

/-! ## live storage -/

/-- what the session has recorded of its scripts lies in the image, is used and kept apart, and the
event pointers and the control bytes in the image say the same of the blocks -/
structure Live (s : Session) : Prop where
  apart : s.image.KeepsApart fun i t => ∃ entry, s.cache.get? i = some entry ∧ t = entry.storage
  inside : ∀ i entry, s.cache.get? i = some entry → ∀ r ∈ entry.storage.ranges,
    r.stop ≤ s.image.size
  located : ∀ i entry, s.cache.get? i = some entry → entry.Located s.image i

theorem Guarded.live {s : Session} {loads : Nat → Prop} (h : s.Guarded loads) : s.Live where
  apart := by
    refine h.apart.mono ?_
    rintro i t ⟨entry, hentry, rfl⟩
    exact ⟨entry.storage, h.held hentry, .refl _⟩
  inside := h.inside
  located := h.located

/-- **Live storage never overlaps.**  Where all that is read for the scripts of a run is used and
kept apart, and every offset of the free map has an address of 24 bits, the storage that is recorded
is used and kept apart at every point of the run, also behind steps that fail. -/
theorem live_after {image : Image} {steps before : List Step} (hbefore : before <+: steps)
    (haddresses : image.toAddress image.space.size ≤ 0x1000000)
    (hload : ∀ i, ((ofImage image).after steps).Loaded i → ∃ entry, load image i = .ok entry)
    (hapart : image.KeepsApart fun i t => ((ofImage image).after steps).Loaded i ∧
      ∃ entry, load image i = .ok entry ∧ t = entry.loadedStorage image) :
    ((ofImage image).after before).Live := by
  obtain ⟨rest, rfl⟩ := hbefore
  refine ((Guarded.ofImage hload hapart haddresses).steps (advances_after _ before) ?_).live
  intro i hi
  rw [after_append]
  exact hi.mono (advances_after _ rest)

/-- two scripts, of which the second takes the place that the strings of the first have left -/
theorem live_after_reuse :
    let layout : Layout := ⟨0x1000, 0, 0, 4, 2, 0, 2, 8, 2, [⟨96, 192⟩]⟩
    let script (table : UInt8) : Bytes :=
      [10, 0, 8, 1, 32, 0, 2, 0xD8, 0xB8, table, 0, 0, 0x43, 19, 0, 0, 0xBB, 0, 0, 64]
    let data : Bytes := [0, 0, 0, 0, 1, 0, 0, 0, 16, 0, 0, 36, 0, 0, 0, 0] ++ script 80 ++
      script 88 ++ List.replicate 24 0 ++ [82, 0, 0x41, 0, 0, 0, 0, 0, 90, 0, 0x41, 0] ++
      List.replicate 100 0
    let space : FreeMap := ⟨192, 0x1000, false, [96], by decide, by decide, by decide, by decide⟩
    let image : Image := ⟨data, space, layout⟩
    let before : List Session.Step :=
      [.edit 0 (.setString 0 [1, 2]), .commit, .edit 1 (.setString 0 []), .writeBack 1]
    let steps := before ++ [.edit 1 (.setString 5 []), .get 0]
    before <+: steps ∧ image.toAddress image.space.size ≤ 0x1000000 ∧
    (∀ i, ((ofImage image).after steps).Loaded i → ∃ entry, load image i = .ok entry) ∧
    (image.KeepsApart fun i t => ((ofImage image).after steps).Loaded i ∧
      ∃ entry, load image i = .ok entry ∧ t = entry.loadedStorage image) ∧
    ((ofImage image).after before).cache.map (fun found => (found.1, found.2.storage)) =
      [(0, ⟨⟨16, 36⟩, [⟨96, 101⟩]⟩), (1, ⟨⟨36, 56⟩, [⟨80, 83⟩]⟩)] ∧
    ((ofImage image).after before).Live := by
  intro layout script data space image before steps
  have hbefore : before <+: steps := List.prefix_append ..
  have haddresses : image.toAddress image.space.size ≤ 0x1000000 := by decide
  let all : List (Nat × Storage) :=
    [(0, ⟨⟨16, 36⟩, [⟨80, 82⟩, ⟨82, 84⟩]⟩), (1, ⟨⟨36, 56⟩, [⟨88, 90⟩, ⟨90, 92⟩]⟩)]
  have hkeys : ((ofImage image).after steps).cache.map Prod.fst = all.map Prod.fst := by
    decide +kernel
  have hstorage : ∀ p ∈ all, (load image p.1).toOption.map (·.loadedStorage image) = some p.2 := by
    decide +kernel
  have hread : ∀ i, ((ofImage image).after steps).Loaded i →
      ∃ entry, load image i = .ok entry ∧ (i, entry.loadedStorage image) ∈ all := by
    rintro i ⟨found, hfound⟩
    have hi : i ∈ all.map Prod.fst := hkeys ▸ List.mem_map_of_mem (Cache.mem_of_get? hfound)
    obtain ⟨p, hp, rfl⟩ := List.mem_map.mp hi
    obtain ⟨entry, hentry, ht⟩ := Option.map_eq_some_iff.mp (hstorage p hp)
    exact ⟨entry, toOption_eq_some.mp hentry, ht ▸ hp⟩
  have hload : ∀ i, ((ofImage image).after steps).Loaded i → ∃ entry, load image i = .ok entry :=
    fun i hi => (hread i hi).imp fun _ h => h.1
  have hlisted : image.KeepsApart fun i t => (i, t) ∈ all := by decide +kernel
  have hapart : image.KeepsApart fun i t => ((ofImage image).after steps).Loaded i ∧
      ∃ entry, load image i = .ok entry ∧ t = entry.loadedStorage image := by
    refine hlisted.mono ?_
    rintro i t ⟨hi, entry, hentry, rfl⟩
    obtain ⟨found, hfound, hmem⟩ := hread i hi
    rw [hentry] at hfound
    cases hfound
    exact ⟨_, hmem, .refl _⟩
  exact ⟨hbefore, haddresses, hload, hapart, by decide +kernel,
    live_after hbefore haddresses hload hapart⟩

end Session

end Cartridge
