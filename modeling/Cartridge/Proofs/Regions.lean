import Cartridge.Proofs.FreeMap.SameBank
import Cartridge.Proofs.Session.Reachable

/-!
# Regions that are handed out

A region is handed out where every offset is free, and is used from then on.  Only a freed range, or
a write that frees what it writes, makes its offsets free again, so no region comes to lie over an
earlier one that is still held.

* `Image.InStep`             the free map is as long as the image (`Image.inStep_ofBytes`);
* `Image.RegionStep`, `Image.RegionStep.run`   the operations, with the regions that they hand out;
* `Image.RegionStep.Releases`   the offsets that a step may give back;
* `Image.Handed`, `Image.handed_run`   all that is needed of one step;
* `Image.used_after`         a used offset stays used until it is released;
* `Image.regions_apart`      **regions are inside the image and one bank, and apart.**
-/

namespace Cartridge

namespace Image

/-! ## images in step with their maps -/

def InStep (image : Image) : Prop := image.space.size = image.size

theorem inStep_ofBytes {data : Bytes} {layout : Layout} {image : Image}
    (h : ofBytes data layout = .ok image) : image.InStep := by
  obtain ⟨_, rfl⟩ := ofBytes_eq_ok.mp h
  exact (FreeMap.size_of_markEach _ true layout.freeRanges).1

theorem size_roomFor {image : Image} (h : image.InStep) (stop : Nat) :
    (image.roomFor stop).size = max image.size stop := by
  unfold roomFor
  by_cases hstop : image.size < stop
  · have hsize : ¬ stop ≤ image.space.size := by
      rw [h]
      exact Nat.not_le_of_lt hstop
    rw [if_pos hstop, Nat.max_eq_right (Nat.le_of_lt hstop), FreeMap.extend, dif_neg hsize]
    split
    · rfl
    · rfl
  · rw [if_neg hstop, Nat.max_eq_left (Nat.le_of_not_lt hstop)]
    exact h

theorem bankSize_roomFor (image : Image) (stop : Nat) :
    (image.roomFor stop).bankSize = image.space.bankSize := by
  unfold roomFor FreeMap.extend
  split
  · split
    · rfl
    · split
      · rfl
      · rfl
  · rfl

/-! ## steps -/

inductive RegionStep where
  | allocate (size : Nat)
  | allocateSameBank (sizes : List Nat)
  | free (r : Range)
  | write (offset : Nat) (bytes : Bytes) (mode : WriteMode)
  deriving DecidableEq, Repr

namespace RegionStep

/-- the regions that the step hands out, and the image behind it, also when it fails -/
def run (image : Image) : RegionStep → List Range × Image
  | allocate size =>
    match image.allocate size with
    | .error _ => ([], image)
    | .ok (offset, image') => ([⟨offset, offset + size⟩], image')
  | allocateSameBank sizes =>
    match image.allocateSameBank sizes with
    | (.error _, image') => ([], image')
    | (.ok offsets, image') => (FreeMap.regions offsets sizes, image')
  | free r =>
    match image.free r with
    | .error _ => ([], image)
    | .ok image' => ([], image')
  | write offset bytes mode =>
    match image.write offset bytes mode with
    | .error _ => ([], image)
    | .ok image' => ([], image')

/-- the sizes that the step asks for -/
def sizes : RegionStep → List Nat
  | allocate size => [size]
  | allocateSameBank sizes => sizes
  | free _ | write _ _ _ => []

/-- the step frees the offset, when it succeeds -/
def Releases (x : Nat) : RegionStep → Prop
  | free r => x ∈ r
  | write offset bytes .free => x ∈ Range.mk offset (offset + bytes.length)
  | allocate _ | allocateSameBank _ | write _ _ _ => False

end RegionStep

/-- the image behind steps -/
def afterRegions (image : Image) : List RegionStep → Image
  | [] => image
  | step :: steps => (step.run image).2.afterRegions steps

theorem afterRegions_append (image : Image) (before rest : List RegionStep) :
    image.afterRegions (before ++ rest) = (image.afterRegions before).afterRegions rest := by
  induction before generalizing image with
  | nil => rfl
  | cons step before ih => exact ih (step.run image).2

/-- what a step does: it hands out ranges that are free before and used behind, and frees no more
than it releases -/
structure Handed (image image' : Image) (step : RegionStep) (rs : List Range) : Prop where
  asked : rs = [] ∨ rs.map (fun r => r.stop - r.start) = step.sizes
  offers : ∃ bank, image.space.OffersAll bank rs
  used : ∀ r ∈ rs, image'.space.Used r
  kept : ∀ x, image'.space.isFree x = true → image.space.isFree x = true ∨ step.Releases x
  bankSize : image'.space.bankSize = image.space.bankSize
  inStep : image.InStep → image'.InStep

theorem handed_refused (image : Image) (step : RegionStep) : Handed image image step [] where
  asked := .inl rfl
  offers := ⟨0, image.space.offersAll_nil 0⟩
  used := by simp
  kept := fun _ => .inl
  bankSize := rfl
  inStep := id

/-- the ranges are reserved, and the bytes stay as they are -/
theorem handed_reserved {image : Image} {space : FreeMap} {step : RegionStep} {bank : Nat}
    {rs : List Range} (h : image.space.Reserves bank rs space)
    (hasked : rs.map (fun r => r.stop - r.start) = step.sizes) :
    Handed image { image with space } step rs where
  asked := .inr hasked
  offers := ⟨bank, h.offers⟩
  used := fun r hr x hx => by
    by_contra hfree
    exact ((h.isFree x).mp (eq_true_of_ne_false hfree)).2 r hr hx
  kept := fun x hx => .inl ((h.isFree x).mp hx).1
  bankSize := h.bankSize
  inStep := h.size.trans

theorem handed_allocate {image image' : Image} {size offset : Nat}
    (h : image.allocate size = .ok (offset, image')) :
    Handed image image' (.allocate size) [⟨offset, offset + size⟩] := by
  obtain ⟨place, hplace, h⟩ := bind_eq_ok.mp h
  obtain ⟨space, hspace, h⟩ := bind_eq_ok.mp h
  cases h
  obtain ⟨marked, hmark, hreserves⟩ :=
    (image.space.reserves_nil (offset / image.space.bankSize)).cons hplace rfl
  rw [hspace] at hmark
  cases hmark
  refine handed_reserved hreserves ?_
  rw [List.map_singleton, Nat.add_sub_cancel_left]
  rfl

theorem handed_allocateSameBank {image image' : Image} {sizes : List Nat}
    {answer : Except Error (List Nat)} (h : image.allocateSameBank sizes = (answer, image')) :
    (∃ e, answer = .error e ∧ image' = image) ∨ ∃ offsets, answer = .ok offsets ∧
      Handed image image' (.allocateSameBank sizes) (FreeMap.regions offsets sizes) := by
  obtain ⟨hsame, hfound⟩ := FreeMap.offers_of_findFreeSameBank image.space sizes
  unfold allocateSameBank at h
  cases hsearch : image.space.findFreeSameBank sizes with
  | mk result space =>
    rw [hsearch] at h hsame hfound
    cases hsame
    cases result with
    | error e =>
      cases h
      exact .inl ⟨e, rfl, rfl⟩
    | ok offsets =>
      obtain ⟨hlength, bank, hoffers⟩ := hfound offsets rfl
      obtain ⟨space, hmark, hreserves⟩ := hoffers.reserve
      unfold FreeMap.regions at hmark
      simp only [hmark] at h
      cases h
      exact .inr ⟨offsets, rfl, handed_reserved hreserves (FreeMap.sizes_regions hlength)⟩

theorem handed_free {image image' : Image} {r : Range} (h : image.free r = .ok image') :
    Handed image image' (.free r) [] := by
  obtain ⟨hdata, _, hsize, hbank, hclass⟩ := free_eq_ok h
  refine ⟨.inl rfl, ⟨0, image.space.offersAll_nil 0⟩, by simp, ?_, hbank, ?_⟩
  · intro x hx
    rw [hclass] at hx
    by_cases hin : x ∈ r ∧ x < image.space.size
    · exact .inr hin.1
    · rw [if_neg hin] at hx
      exact .inl hx
  · intro hstep
    show image'.space.size = image'.data.length
    rw [hsize, hdata]
    exact hstep

theorem handed_write {image image' : Image} {offset : Nat} {bytes : Bytes} {mode : WriteMode}
    (h : image.write offset bytes mode = .ok image') :
    Handed image image' (.write offset bytes mode) [] := by
  by_cases hne : bytes = []
  · rw [write, hne] at h
    cases h
    exact handed_refused ..
  · obtain ⟨space, hmark, hspace⟩ := (write_eq_ok hne).mp h
    have hbank := (size_of_markWritten hmark).2
    refine ⟨.inl rfl, ⟨0, image.space.offersAll_nil 0⟩, by simp, ?_, ?_, ?_⟩
    · intro x hx
      rcases isFree_of_write h hx with hfree | ⟨rfl, hin⟩
      · exact .inl hfree
      · exact .inr hin
    · rw [hspace]
      exact hbank.trans (bankSize_roomFor image _)
    · intro hstep
      show image'.space.size = image'.size
      rw [space_size_write_of_ne hne h, size_write_of_ne hne h, size_roomFor hstep]

theorem handed_run (image : Image) (step : RegionStep) :
    Handed image (step.run image).2 step (step.run image).1 := by
  cases step with
  | allocate size =>
    simp only [RegionStep.run]
    cases h : image.allocate size with
    | error e => exact handed_refused ..
    | ok answer => exact handed_allocate h
  | allocateSameBank sizes =>
    simp only [RegionStep.run]
    cases h : image.allocateSameBank sizes with
    | mk answer image' =>
      rcases handed_allocateSameBank h with ⟨e, rfl, rfl⟩ | ⟨offsets, rfl, hhanded⟩
      · exact handed_refused ..
      · exact hhanded
  | free r =>
    simp only [RegionStep.run]
    cases h : image.free r with
    | error e => exact handed_refused ..
    | ok image' => exact handed_free h
  | write offset bytes mode =>
    simp only [RegionStep.run]
    cases h : image.write offset bytes mode with
    | error e => exact handed_refused ..
    | ok image' => exact handed_write h

/-! ## runs -/

theorem inStep_after {image : Image} (h : image.InStep) (steps : List RegionStep) :
    (image.afterRegions steps).InStep := by
  induction steps generalizing image with
  | nil => exact h
  | cons step steps ih => exact ih ((handed_run image step).inStep h)

theorem bankSize_after (image : Image) (steps : List RegionStep) :
    (image.afterRegions steps).space.bankSize = image.space.bankSize := by
  induction steps generalizing image with
  | nil => rfl
  | cons step steps ih => exact (ih _).trans (handed_run image step).bankSize

/-- **An offset that is used stays used until it is released.** -/
theorem used_after {image : Image} {x : Nat} (h : image.space.isFree x = false)
    {steps : List RegionStep} (hkept : ∀ step ∈ steps, ¬ step.Releases x) :
    (image.afterRegions steps).space.isFree x = false := by
  induction steps generalizing image with
  | nil => exact h
  | cons step steps ih =>
    obtain ⟨hfirst, hrest⟩ := List.forall_mem_cons.mp hkept
    refine ih ?_ hrest
    by_contra hfree
    rcases (handed_run image step).kept x (eq_true_of_ne_false hfree) with hbefore | hreleases
    · rw [h] at hbefore
      cases hbefore
    · exact hfirst hreleases

/-- **Regions that are handed out never overlap.**  Behind any run, the free map is as long as the
image, and what is handed out next has the sizes that are asked for, lies inside the image and in
one bank, and is apart from itself and from each region handed out before, but for what has been
freed since. -/
theorem regions_apart {image : Image} (h : image.InStep) (steps : List RegionStep) :
    (image.afterRegions steps).InStep ∧ ∀ step : RegionStep,
      let rs := (step.run (image.afterRegions steps)).1
      (rs = [] ∨ rs.map (fun r => r.stop - r.start) = step.sizes) ∧
      (∀ r ∈ rs, r.start < r.stop ∧ r.stop ≤ (image.afterRegions steps).size) ∧
      (∃ bank, ∀ r ∈ rs, ∀ x ∈ r, x / image.space.bankSize = bank) ∧
      rs.Pairwise Range.Disjoint ∧
      ∀ before earlier between, steps = before ++ earlier :: between →
        ∀ r ∈ rs, ∀ held ∈ (earlier.run (image.afterRegions before)).1, ∀ x ∈ r, x ∈ held →
          ∃ release ∈ between, release.Releases x := by
  have hstep := inStep_after h steps
  refine ⟨hstep, fun step => ?_⟩
  intro rs
  have hhanded := handed_run (image.afterRegions steps) step
  obtain ⟨bank, hoffers⟩ := hhanded.offers
  refine ⟨hhanded.asked, fun r hr => ⟨hoffers.filled r hr, ?_⟩, ⟨bank, ?_⟩, hoffers.apart, ?_⟩
  · exact hstep ▸ hoffers.inside r hr
  · intro r hr x hx
    rw [← bankSize_after image steps]
    exact hoffers.in_bank r hr x hx
  · rintro before earlier between rfl r hr held hheld x hx hxheld
    by_contra hkept
    have hused := (handed_run (image.afterRegions before) earlier).used held hheld x hxheld
    have hlater := used_after hused fun release hrelease hx =>
      hkept ⟨release, hrelease, hx⟩
    have hfree := hoffers.free r hr x hx
    rw [afterRegions_append] at hfree
    exact Bool.noConfusion (hlater.symm.trans hfree)

/-- a freed region is handed out again, behind a write that enlarges the image -/
theorem regions_apart_freed :
    let layout : Layout := ⟨16, 0, 0, 0, 0, 0, 0, 0, 0, [⟨4, 40⟩]⟩
    let space : FreeMap := ⟨64, 16, false, [4, 40], by decide, by decide, by decide, by decide⟩
    let image : Image := ⟨List.replicate 64 0, space, layout⟩
    let between : List RegionStep := [.allocate 9, .free ⟨4, 12⟩, .write 62 [1, 2, 3] .used]
    let steps := .allocate 8 :: between
    ofBytes image.data layout = .ok image ∧ image.InStep ∧
    ((RegionStep.allocate 9).run (image.afterRegions [.allocate 8])).1 = [⟨16, 25⟩] ∧
    ((RegionStep.allocate 6).run (image.afterRegions steps)).1 = [⟨4, 10⟩] ∧
    (image.afterRegions steps).size = 65 ∧ (image.afterRegions steps).InStep ∧
    ∃ release ∈ between, release.Releases 4 := by
  intro layout space image between steps
  have hload : ofBytes image.data layout = .ok image := toOption_eq_some.mp (by decide +kernel)
  have hheld : ((RegionStep.allocate 8).run (image.afterRegions [])).1 = [⟨4, 12⟩] := by
    decide +kernel
  have hnext : ((RegionStep.allocate 6).run (image.afterRegions steps)).1 = [⟨4, 10⟩] := by
    decide +kernel
  obtain ⟨hstep, hrun⟩ := regions_apart (inStep_ofBytes hload) steps
  obtain ⟨_, _, _, _, hheldApart⟩ := hrun (.allocate 6)
  have hfreed := hheldApart [] (.allocate 8) between rfl
  rw [hheld, hnext] at hfreed
  refine ⟨hload, inStep_ofBytes hload, by decide +kernel, hnext, by decide +kernel, hstep, ?_⟩
  exact hfreed _ (List.mem_singleton_self _) _ (List.mem_singleton_self _) 4 (by decide) (by decide)

end Image

end Cartridge
