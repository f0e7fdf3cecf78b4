import Cartridge.Error

/-!
# Free maps

A free map says of every offset below a size whether it is free or used.  It is kept as the
ascending list of the offsets at which the class changes, so that equal classifications are equal
maps.

* `FreeMap`            the size, the class of offset 0 and the cuts;
* `FreeMap.ofSize`     all used;
* `FreeMap.isFree`     the class of an offset: the class of offset 0, changed once per cut at or
                       below it;
* `FreeMap.segments`   the longest runs of one class, in order;
* `FreeMap.mark`       gives a range a class; a range that runs past the end is cut short, an empty
                       one is refused;
* `FreeMap.extend`     a larger size, the new offsets of one class.
-/

namespace Cartridge

/-- banks are the aligned stretches of `bankSize` offsets -/
structure FreeMap where
  size : Nat
  bankSize : Nat
  firstFree : Bool
  cuts : List Nat
  bankSize_pos : 0 < bankSize
  cuts_ascend : cuts.Pairwise (· < ·)
  cuts_inside : ∀ cut ∈ cuts, 0 < cut ∧ cut < size
  /-- a map of nothing has one form only -/
  used_of_size : size = 0 → firstFree = false
  deriving DecidableEq, Repr

/-- a run of offsets of one class -/
structure Segment where
  start : Nat
  stop : Nat
  free : Bool
  deriving DecidableEq, Repr

/-- offsets from `start` up to, not including, `stop` -/
structure Range where
  start : Nat
  stop : Nat
  deriving DecidableEq, Repr

namespace FreeMap

/-- a bank size of zero counts as one -/
def ofSize (size bankSize : Nat) : FreeMap :=
  ⟨size, max bankSize 1, false, [], by omega, .nil, by simp, fun _ => rfl⟩

def isEmpty (m : FreeMap) : Bool := m.size == 0

/-! ## classes -/

/-- how often the class changes up to an offset -/
def cutsUpTo (m : FreeMap) (offset : Nat) : Nat := m.cuts.countP (· ≤ offset)

def isFree (m : FreeMap) (offset : Nat) : Bool :=
  decide (offset < m.size) && (m.firstFree ^^ (m.cutsUpTo offset % 2 == 1))

theorem isFree_of_size_le (m : FreeMap) (offset : Nat) (h : m.size ≤ offset) :
    m.isFree offset = false := by
  simp [isFree, Nat.not_lt.mpr h]

/-! ## segments -/

/-- the segments from `start` on, of which the first has class `free` -/
def segmentsFrom (start : Nat) (free : Bool) (cuts : List Nat) (size : Nat) : List Segment :=
  match cuts with
  | [] => [⟨start, size, free⟩]
  | cut :: rest => ⟨start, cut, free⟩ :: segmentsFrom cut (!free) rest size

def segments (m : FreeMap) : List Segment :=
  if m.size = 0 then [] else segmentsFrom 0 m.firstFree m.cuts m.size

def freeBytes (m : FreeMap) : Nat :=
  ((m.segments.filter (·.free)).map fun s => s.stop - s.start).foldr (· + ·) 0

def usedBytes (m : FreeMap) : Nat := m.size - m.freeBytes

/-! ## marks -/

/-- whether a cut is needed at the start of a range of class `free` -/
def cutBefore (m : FreeMap) (start : Nat) (free : Bool) : Bool :=
  0 < start && m.isFree (start - 1) != free

/-- whether a cut is needed at the end of a range of class `free` -/
def cutAfter (m : FreeMap) (stop : Nat) (free : Bool) : Bool :=
  stop < m.size && m.isFree stop != free

/-- the cuts once `[start, stop)` has class `free` -/
def cutsMarked (m : FreeMap) (start stop : Nat) (free : Bool) : List Nat :=
  m.cuts.filter (· < start) ++
    ((if m.cutBefore start free then [start] else []) ++
      ((if m.cutAfter stop free then [stop] else []) ++ m.cuts.filter (stop < ·)))

theorem mem_cutsMarked {m : FreeMap} {start stop : Nat} {free : Bool} {cut : Nat}
    (h : cut ∈ m.cutsMarked start stop free) :
    (cut ∈ m.cuts ∧ cut < start) ∨ (cut = start ∧ 0 < start) ∨ (cut = stop ∧ stop < m.size) ∨
      (cut ∈ m.cuts ∧ stop < cut) := by
  simp only [cutsMarked, List.mem_append, List.mem_filter, decide_eq_true_eq] at h
  rcases h with h | h | h | h
  · exact .inl h
  · split at h
    · rename_i hcut
      simp only [cutBefore, Bool.and_eq_true, decide_eq_true_eq] at hcut
      exact .inr (.inl ⟨List.mem_singleton.mp h, hcut.1⟩)
    · cases h
  · split at h
    · rename_i hcut
      simp only [cutAfter, Bool.and_eq_true, decide_eq_true_eq] at hcut
      exact .inr (.inr (.inl ⟨List.mem_singleton.mp h, hcut.1⟩))
    · cases h
  · exact .inr (.inr (.inr h))

theorem cutsMarked_ascend (m : FreeMap) (start stop : Nat) (free : Bool) (h : start < stop) :
    (m.cutsMarked start stop free).Pairwise (· < ·) := by
  have optional (b : Bool) (x : Nat) : (if b then [x] else []).Pairwise (· < ·) := by
    cases b
    · exact .nil
    · exact List.pairwise_singleton _ x
  have eq_of_mem {b : Bool} {x y : Nat} (hy : y ∈ if b then [x] else []) : y = x := by
    cases b
    · cases hy
    · exact List.mem_singleton.mp hy
  unfold cutsMarked
  refine List.pairwise_append.mpr ⟨m.cuts_ascend.filter _, ?_, ?_⟩
  · refine List.pairwise_append.mpr ⟨optional _ start, ?_, ?_⟩
    · refine List.pairwise_append.mpr ⟨optional _ stop, m.cuts_ascend.filter _, ?_⟩
      intro a ha b hb
      rw [eq_of_mem ha]
      exact of_decide_eq_true (List.mem_filter.mp hb).2
    · intro a ha b hb
      rw [eq_of_mem ha]
      rcases List.mem_append.mp hb with hb | hb
      · rw [eq_of_mem hb]; exact h
      · exact Nat.lt_trans h (of_decide_eq_true (List.mem_filter.mp hb).2)
  · intro a ha b hb
    have ha : a < start := of_decide_eq_true (List.mem_filter.mp ha).2
    rcases List.mem_append.mp hb with hb | hb
    · rw [eq_of_mem hb]; exact ha
    rcases List.mem_append.mp hb with hb | hb
    · rw [eq_of_mem hb]; exact Nat.lt_trans ha h
    · exact Nat.lt_trans ha (Nat.lt_trans h (of_decide_eq_true (List.mem_filter.mp hb).2))

/-- gives `[start, stop)` a class -/
def marked (m : FreeMap) (start stop : Nat) (free : Bool) (h : start < stop ∧ stop ≤ m.size) :
    FreeMap where
  size := m.size
  bankSize := m.bankSize
  firstFree := if start = 0 then free else m.firstFree
  cuts := m.cutsMarked start stop free
  bankSize_pos := m.bankSize_pos
  cuts_ascend := m.cutsMarked_ascend start stop free h.1
  cuts_inside := by
    intro cut hcut
    rcases mem_cutsMarked hcut with ⟨hm, _⟩ | ⟨rfl, hpos⟩ | ⟨rfl, hlt⟩ | ⟨hm, _⟩
    · exact m.cuts_inside cut hm
    · exact ⟨hpos, Nat.lt_of_lt_of_le h.1 h.2⟩
    · exact ⟨Nat.lt_of_le_of_lt (Nat.zero_le start) h.1, hlt⟩
    · exact m.cuts_inside cut hm
  used_of_size := by
    intro hsize
    omega

def mark (m : FreeMap) (start stop : Nat) (free : Bool) : Except Error FreeMap :=
  if h : min stop m.size ≤ start then .error (.invalidRange start stop)
  else .ok (m.marked start (min stop m.size) free ⟨Nat.lt_of_not_le h, Nat.min_le_right ..⟩)

def markFree (m : FreeMap) (r : Range) : Except Error FreeMap := m.mark r.start r.stop true

def markUsed (m : FreeMap) (r : Range) : Except Error FreeMap := m.mark r.start r.stop false

/-- marks ranges one after the other; at the first that is refused the marks made so far stay -/
def markEach (m : FreeMap) (free : Bool) : List Range → Except Error Unit × FreeMap
  | [] => (.ok (), m)
  | r :: rest =>
    match m.mark r.start r.stop free with
    | .error e => (.error e, m)
    | .ok m' => markEach m' free rest

/-! ## growth -/

/-- the cuts once new offsets of class `free` follow; the old size is not 0 -/
def cutsExtended (m : FreeMap) (free : Bool) : List Nat :=
  if m.isFree (m.size - 1) != free then m.cuts ++ [m.size] else m.cuts

theorem mem_cutsExtended {m : FreeMap} {free : Bool} {cut : Nat} (h : cut ∈ m.cutsExtended free) :
    cut ∈ m.cuts ∨ cut = m.size := by
  unfold cutsExtended at h
  split at h
  · exact (List.mem_append.mp h).imp_right List.mem_singleton.mp
  · exact .inl h

theorem cutsExtended_ascend (m : FreeMap) (free : Bool) :
    (m.cutsExtended free).Pairwise (· < ·) := by
  unfold cutsExtended
  split
  · refine List.pairwise_append.mpr ⟨m.cuts_ascend, List.pairwise_singleton _ _, ?_⟩
    intro a ha b hb
    rw [List.mem_singleton.mp hb]
    exact (m.cuts_inside a ha).2
  · exact m.cuts_ascend

/-- a map of nothing with `size` offsets of one class added -/
def uniform (m : FreeMap) (size : Nat) (free : Bool) (h : 0 < size) : FreeMap :=
  { m with
    size
    firstFree := free
    cuts := []
    cuts_ascend := .nil
    cuts_inside := by simp
    used_of_size := by omega }

/-- a size that is no larger changes nothing -/
def extend (m : FreeMap) (size : Nat) (free : Bool) : FreeMap :=
  if hsize : size ≤ m.size then m
  else if hzero : m.size = 0 then m.uniform size free (by omega)
  else { m with
    size
    cuts := m.cutsExtended free
    cuts_ascend := m.cutsExtended_ascend free
    cuts_inside := by
      intro cut hcut
      rcases mem_cutsExtended hcut with hm | rfl
      · have := m.cuts_inside cut hm
        omega
      · omega
    used_of_size := by omega }

/-! ## what the operations leave alone -/

theorem size_of_mark {m m' : FreeMap} {start stop : Nat} {free : Bool}
    (h : m.mark start stop free = .ok m') : m'.size = m.size ∧ m'.bankSize = m.bankSize := by
  by_cases hc : min stop m.size ≤ start
  · rw [mark, dif_pos hc] at h; cases h
  · rw [mark, dif_neg hc] at h; cases h; exact ⟨rfl, rfl⟩

theorem size_of_markEach (m : FreeMap) (free : Bool) (rs : List Range) :
    (m.markEach free rs).2.size = m.size ∧ (m.markEach free rs).2.bankSize = m.bankSize := by
  induction rs generalizing m with
  | nil => exact ⟨rfl, rfl⟩
  | cons r rest ih =>
    rw [markEach]
    split
    · exact ⟨rfl, rfl⟩
    · rename_i m' h
      have hm := size_of_mark h
      rw [(ih m').1, (ih m').2]
      exact hm

end FreeMap

end Cartridge
