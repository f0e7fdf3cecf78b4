import Cartridge.FreeMap.Basic

/-!
# Searching a free map

A region must lie in one bank and be free throughout.

* `FreeMap.findFree`           the first place for a region at or after a hint;
* `FreeMap.findFreeSameBank`   a place for each of several regions, all in one bank: bank by bank,
                               the largest first, each at the first place that is left.  The search
                               marks its tentative places in the map and takes the marks back, so it
                               gives the map along with its answer.

Sums of offsets and sizes are exact.  In words of 64 bits they are the same as long as the map is not
too large for them (`FreeMap.sumsFit`).
-/

namespace Cartridge

namespace FreeMap

/-! ## one region -/

/-- `first`, or the start of the next bank when `size` bytes at `first` would cross into it -/
def withinBank (m : FreeMap) (size first : Nat) : Nat :=
  if m.bankSize < first % m.bankSize + size then (first / m.bankSize + 1) * m.bankSize else first

/-- the first place in a segment for `size` bytes at or after `hint` -/
def placeIn (m : FreeMap) (size hint : Nat) (s : Segment) : Option Nat :=
  let place := m.withinBank size (max s.start hint)
  if s.free && hint < s.stop && place + size ≤ s.stop then some place else none

def findFree (m : FreeMap) (size hint : Nat) : Except Error Nat :=
  if size = 0 then .error (.argument .emptyRegion)
  else if m.bankSize < size ∨ m.size ≤ hint then .error (.outOfSpace size)
  else match m.segments.findSome? (m.placeIn size hint) with
    | some place => .ok place
    | none => .error (.outOfSpace size)

/-- the next bank begins behind every offset of this one -/
theorem lt_next_bank (m : FreeMap) (offset : Nat) :
    offset < (offset / m.bankSize + 1) * m.bankSize := by
  have h := Nat.lt_div_mul_add (a := offset) m.bankSize_pos
  rwa [Nat.add_mul, Nat.one_mul]

theorem le_withinBank (m : FreeMap) (size first : Nat) : first ≤ m.withinBank size first := by
  unfold withinBank
  split
  · exact Nat.le_of_lt (m.lt_next_bank first)
  · exact Nat.le_refl _

theorem le_of_placeIn {m : FreeMap} {size hint place : Nat} {s : Segment}
    (h : m.placeIn size hint s = some place) : hint ≤ place := by
  simp only [placeIn, Option.ite_none_right_eq_some, Option.some.injEq] at h
  rw [← h.2]
  exact Nat.le_trans (Nat.le_max_right s.start hint) (m.le_withinBank size _)

theorem le_of_findFree {m : FreeMap} {size hint place : Nat}
    (h : m.findFree size hint = .ok place) : hint ≤ place := by
  unfold findFree at h
  split at h
  · cases h
  split at h
  · cases h
  split at h
  · rename_i p hp
    cases h
    obtain ⟨s, _, hs⟩ := List.exists_of_findSome?_eq_some hp
    exact le_of_placeIn hs
  · cases h

/-! ## several regions in one bank -/

/-- a region of a request: its size, and where it stands in the request -/
structure Wanted where
  size : Nat
  slot : Nat
  deriving DecidableEq, Repr

/-- the regions of a request, the largest first, equal ones in the order of the request -/
def largestFirst (sizes : List Nat) : List Wanted :=
  (sizes.zipIdx.map fun (size, slot) => ⟨size, slot⟩).mergeSort fun a b => b.size ≤ a.size

/-- a region and its place -/
abbrev Placed := Nat × Wanted

def Placed.range (p : Placed) : Range := ⟨p.1, p.1 + p.2.size⟩

/-- places the regions in `bank`, marking each; the places so far are in `done`, last first.  Stops
at the first region without a place, and says whether there was none -/
def placeAll (m : FreeMap) (bank : Nat) (done : List Placed) :
    List Wanted → Except Error Bool × List Placed × FreeMap
  | [] => (.ok true, done.reverse, m)
  | w :: rest =>
    match m.findFree w.size (bank * m.bankSize) with
    | .error _ => (.ok false, done.reverse, m)
    | .ok place =>
      if place / m.bankSize ≠ bank then (.ok false, done.reverse, m)
      else match m.markUsed ⟨place, place + w.size⟩ with
        | .error e => (.error e, done.reverse, m)
        | .ok m' => placeAll m' bank ((place, w) :: done) rest

/-- the places in the order of the request -/
def inOrder (count : Nat) (placed : List Placed) : List Nat :=
  (List.range count).map fun slot =>
    ((placed.find? fun p => p.2.slot = slot).map Prod.fst).getD 0

/-- tries the bank of `first`, the place of the largest region; the answer is `none` when some
region has no place in the bank -/
def tryBank (m : FreeMap) (first : Nat) (largest : Wanted) (others : List Wanted) :
    Except Error (Option (List Nat)) × FreeMap :=
  match m.markUsed ⟨first, first + largest.size⟩ with
  | .error e => (.error e, m)
  | .ok marked =>
    match placeAll marked (first / m.bankSize) [(first, largest)] others with
    | (.error e, _, m') => (.error e, m')
    | (.ok found, placed, m') =>
      match m'.markEach true (placed.map Placed.range) with
      | (.error e, m'') => (.error e, m'')
      | (.ok (), m'') =>
        (.ok (if found then some (inOrder (others.length + 1) placed) else none), m'')

theorem size_of_placeAll (m : FreeMap) (bank : Nat) (done : List Placed) (ws : List Wanted) :
    (m.placeAll bank done ws).2.2.size = m.size ∧
      (m.placeAll bank done ws).2.2.bankSize = m.bankSize := by
  induction ws generalizing m done with
  | nil => exact ⟨rfl, rfl⟩
  | cons w rest ih =>
    rw [placeAll]
    split
    · exact ⟨rfl, rfl⟩
    split
    · exact ⟨rfl, rfl⟩
    split
    · exact ⟨rfl, rfl⟩
    · rename_i m' h
      have hm := size_of_mark h
      rw [(ih m' _).1, (ih m' _).2]
      exact hm

theorem size_of_tryBank (m : FreeMap) (first : Nat) (largest : Wanted) (others : List Wanted) :
    (m.tryBank first largest others).2.size = m.size ∧
      (m.tryBank first largest others).2.bankSize = m.bankSize := by
  unfold tryBank
  split
  · exact ⟨rfl, rfl⟩
  rename_i marked hmark
  have hm := size_of_mark hmark
  have hp := size_of_placeAll marked (first / m.bankSize) [(first, largest)] others
  split
  · rename_i h; rw [h] at hp; exact ⟨hp.1.trans hm.1, hp.2.trans hm.2⟩
  rename_i found placed m' h
  rw [h] at hp
  have he := size_of_markEach m' true (placed.map Placed.range)
  split
  · rename_i h'; rw [h'] at he
    exact ⟨he.1.trans (hp.1.trans hm.1), he.2.trans (hp.2.trans hm.2)⟩
  · rename_i h'; rw [h'] at he
    exact ⟨he.1.trans (hp.1.trans hm.1), he.2.trans (hp.2.trans hm.2)⟩

/-- the banks from `hint` on; `sizes` is the request, for diagnostics -/
def searchBanks (m : FreeMap) (sizes : List Nat) (largest : Wanted) (others : List Wanted)
    (hint : Nat) : Except Error (List Nat) × FreeMap :=
  if m.size ≤ hint then (.error (.noSharedBank sizes), m)
  else match _ : m.findFree largest.size hint with
    | .error e => (.error e, m)
    | .ok first =>
      match htry : m.tryBank first largest others with
      | (.error e, m') => (.error e, m')
      | (.ok (some places), m') => (.ok places, m')
      | (.ok none, m') =>
        searchBanks m' sizes largest others ((first / m.bankSize + 1) * m.bankSize)
termination_by m.size - hint
decreasing_by
  have hsize := (size_of_tryBank m first largest others).1
  rw [htry] at hsize
  have hsize' : m'.size = m.size := hsize
  have := le_of_findFree ‹m.findFree largest.size hint = .ok first›
  have := m.lt_next_bank first
  omega

def findFreeSameBank (m : FreeMap) (sizes : List Nat) : Except Error (List Nat) × FreeMap :=
  match largestFirst sizes with
  | [] => (.ok [], m)
  | largest :: others => searchBanks m sizes largest others 0

end FreeMap

end Cartridge
