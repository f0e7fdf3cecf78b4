import Cartridge.FreeMap.Basic
import Mathlib.Data.List.Sort

/-!
# The classification of a free map

A map is used through `isFree` alone: marks and growth change the class of the offsets that they
name, and a map is known from the classes.

* `FreeMap.Used`           no offset of a range is free;
* `FreeMap.flips`          whether the class has changed an odd number of times up to an offset;
* `FreeMap.isFree_mark`    a mark gives its range the class, and leaves the others alone;
* `FreeMap.isFree_markEach`    the same for several marks;
* `FreeMap.isFree_extend`  growth gives the new offsets the class;
* `FreeMap.mem_cuts`       the cuts are the offsets at which the class changes;
* `FreeMap.ext_isFree`     maps of one size and bank size with the same classes are equal.
-/

namespace Cartridge

/-! ## ranges -/

instance : Membership Nat Range := ⟨fun r x => r.start ≤ x ∧ x < r.stop⟩

instance (r : Range) (x : Nat) : Decidable (x ∈ r) :=
  inferInstanceAs (Decidable (r.start ≤ x ∧ x < r.stop))

theorem Range.mem_iff {r : Range} {x : Nat} : x ∈ r ↔ r.start ≤ x ∧ x < r.stop := Iff.rfl

theorem Range.forall_mem {r : Range} {p : Nat → Prop} :
    (∀ x ∈ r, p x) ↔ ∀ x < r.stop, r.start ≤ x → p x :=
  ⟨fun h x hx hle => h x ⟨hle, hx⟩, fun h x hx => h x hx.2 hx.1⟩

instance (r : Range) (p : Nat → Prop) [DecidablePred p] : Decidable (∀ x ∈ r, p x) :=
  decidable_of_iff _ Range.forall_mem.symm

/-- no offset lies in both -/
def Range.Disjoint (r r' : Range) : Prop := ∀ x ∈ r, x ∉ r'

instance (r r' : Range) : Decidable (r.Disjoint r') :=
  inferInstanceAs (Decidable (∀ x ∈ r, x ∉ r'))

theorem Range.Disjoint.symm {r r' : Range} (h : r.Disjoint r') : r'.Disjoint r :=
  fun x hx' hx => h x hx hx'

theorem Range.disjoint_of_le {r r' : Range} (h : r.stop ≤ r'.start ∨ r'.stop ≤ r.start) :
    r.Disjoint r' := by
  rintro x ⟨hlow, hhigh⟩ ⟨hlow', hhigh'⟩
  omega

namespace FreeMap

/-- no offset of the range is free -/
def Used (m : FreeMap) (r : Range) : Prop := ∀ x ∈ r, m.isFree x = false

instance (m : FreeMap) (r : Range) : Decidable (m.Used r) :=
  inferInstanceAs (Decidable (∀ x ∈ r, m.isFree x = false))

/-! ## parity -/

/-- the class changes an odd number of times up to `x` -/
def flips (cuts : List Nat) (x : Nat) : Bool := cuts.countP (· ≤ x) % 2 == 1

theorem flips_nil (x : Nat) : flips [] x = false := rfl

theorem flips_append (as bs : List Nat) (x : Nat) :
    flips (as ++ bs) x = (flips as x ^^ flips bs x) := by
  unfold flips
  rw [List.countP_append, Nat.add_mod]
  rcases Nat.mod_two_eq_zero_or_one (as.countP (· ≤ x)) with ha | ha <;>
    rcases Nat.mod_two_eq_zero_or_one (bs.countP (· ≤ x)) with hb | hb <;>
      rw [ha, hb] <;> rfl

theorem flips_singleton (c x : Nat) : flips [c] x = decide (c ≤ x) := by
  unfold flips
  by_cases h : c ≤ x
  · simp [h]
  · simp [h]

theorem flips_cons (c : Nat) (cs : List Nat) (x : Nat) :
    flips (c :: cs) x = (decide (c ≤ x) ^^ flips cs x) := by
  rw [← List.singleton_append, flips_append, flips_singleton]

theorem flips_of_lt {cuts : List Nat} {x : Nat} (h : ∀ c ∈ cuts, x < c) : flips cuts x = false := by
  induction cuts with
  | nil => rfl
  | cons c cs ih =>
    have hc : ¬ c ≤ x := Nat.not_le_of_lt (h c (List.mem_cons_self ..))
    rw [flips_cons, ih fun d hd => h d (List.mem_cons_of_mem _ hd), decide_eq_false hc]
    rfl

/-- a cut that is there under a condition -/
theorem flips_if (b : Bool) (c x : Nat) :
    flips (if b then [c] else []) x = (b && decide (c ≤ x)) := by
  cases b with
  | false => rfl
  | true => exact flips_singleton c x

theorem flips_filter_lt (cuts : List Nat) {start x : Nat} (h : x < start) :
    flips (cuts.filter (· < start)) x = flips cuts x := by
  induction cuts with
  | nil => rfl
  | cons c cs ih =>
    by_cases hc : c < start
    · rw [List.filter_cons_of_pos (by simpa using hc), flips_cons, flips_cons, ih]
    · have hx : ¬ c ≤ x := by omega
      rw [List.filter_cons_of_neg (by simpa using hc), flips_cons, ih, decide_eq_false hx,
        Bool.false_xor]

/-- at or behind a place, the cuts in front of it have all been passed -/
theorem flips_filter_lt_of_le (cuts : List Nat) {start x : Nat} (hpos : 0 < start)
    (h : start ≤ x) : flips (cuts.filter (· < start)) x = flips cuts (start - 1) := by
  induction cuts with
  | nil => rfl
  | cons c cs ih =>
    by_cases hc : c < start
    · have hx : c ≤ x := by omega
      have hstart : c ≤ start - 1 := by omega
      rw [List.filter_cons_of_pos (by simpa using hc), flips_cons, flips_cons, ih,
        decide_eq_true hx, decide_eq_true hstart]
    · have hstart : ¬ c ≤ start - 1 := by omega
      rw [List.filter_cons_of_neg (by simpa using hc), flips_cons, ih, decide_eq_false hstart,
        Bool.false_xor]

/-- the cuts behind a place take the class from there on -/
theorem flips_filter_gt (cuts : List Nat) {stop x : Nat} (h : stop ≤ x) :
    flips (cuts.filter (stop < ·)) x = (flips cuts stop ^^ flips cuts x) := by
  induction cuts with
  | nil => rfl
  | cons c cs ih =>
    by_cases hc : stop < c
    · have hstop : ¬ c ≤ stop := by omega
      rw [List.filter_cons_of_pos (by simpa using hc), flips_cons, flips_cons, flips_cons, ih,
        decide_eq_false hstop, Bool.false_xor, Bool.xor_left_comm]
    · have hstop : c ≤ stop := by omega
      have hx : c ≤ x := by omega
      rw [List.filter_cons_of_neg (by simpa using hc), flips_cons, flips_cons, ih,
        decide_eq_true hstop, decide_eq_true hx]
      cases flips cs stop <;> cases flips cs x <;> rfl

/-! ## classes -/

theorem isFree_eq {m : FreeMap} {x : Nat} (h : x < m.size) :
    m.isFree x = (m.firstFree ^^ flips m.cuts x) := by
  rw [isFree, decide_eq_true h, Bool.true_and]
  rfl

/-- the cuts up to the start of a range that is marked, its own included, lead to its class -/
theorem flips_cutBefore (m : FreeMap) (free : Bool) {start x : Nat} (hge : start ≤ x)
    (hsize : start ≤ m.size) :
    ((if start = 0 then free else m.firstFree) ^^
      (flips (m.cuts.filter (· < start)) x ^^ m.cutBefore start free)) = free := by
  by_cases hzero : start = 0
  · subst hzero
    have hnone : m.cuts.filter (· < 0) = [] := List.filter_eq_nil_iff.mpr (by simp)
    rw [if_pos rfl, hnone, flips_nil, cutBefore]
    simp
  · have hpos : 0 < start := Nat.pos_of_ne_zero hzero
    have hlast : start - 1 < m.size := by omega
    rw [if_neg hzero, flips_filter_lt_of_le _ hpos hge, cutBefore, decide_eq_true hpos,
      isFree_eq hlast]
    cases m.firstFree <;> cases flips m.cuts (start - 1) <;> cases free <;> rfl

theorem isFree_marked (m : FreeMap) (start stop : Nat) (free : Bool)
    (h : start < stop ∧ stop ≤ m.size) (x : Nat) :
    (m.marked start stop free h).isFree x =
      if start ≤ x ∧ x < stop then free else m.isFree x := by
  by_cases hsize : x < m.size
  · have hsize' : x < (m.marked start stop free h).size := hsize
    rw [isFree_eq hsize']
    show ((if start = 0 then free else m.firstFree) ^^ flips (m.cutsMarked start stop free) x) = _
    rw [cutsMarked, flips_append, flips_append, flips_append, flips_if, flips_if]
    have hbehind : x < stop → flips (m.cuts.filter (stop < ·)) x = false := by
      intro hlt
      refine flips_of_lt fun c hc => Nat.lt_trans hlt ?_
      exact of_decide_eq_true (List.mem_filter.mp hc).2
    rcases Nat.lt_or_ge x start with hlt | hge
    · -- in front of the range: none of the new cuts has been passed
      have hpos : ¬ start = 0 := by omega
      have hbefore : ¬ start ≤ x := by omega
      have hafter : ¬ stop ≤ x := by omega
      rw [if_neg hpos, if_neg fun hin => hbefore hin.1, flips_filter_lt _ hlt,
        decide_eq_false hbefore, decide_eq_false hafter, Bool.and_false, Bool.and_false,
        hbehind (by omega), Bool.false_xor, Bool.xor_false, Bool.xor_false, isFree_eq hsize]
    · -- behind its start only the cuts from its end on count
      have hreach : ∀ rest, ((if start = 0 then free else m.firstFree) ^^
          (flips (m.cuts.filter (· < start)) x ^^ (m.cutBefore start free ^^ rest))) =
          (free ^^ rest) := by
        intro rest
        conv => rhs; rw [← flips_cutBefore m free hge (Nat.le_trans (Nat.le_of_lt h.1) h.2)]
        rw [Bool.xor_assoc, Bool.xor_assoc]
      rw [decide_eq_true hge, Bool.and_true, hreach]
      by_cases hstop : x < stop
      · have hafter : ¬ stop ≤ x := by omega
        rw [if_pos ⟨hge, hstop⟩, decide_eq_false hafter, Bool.and_false, hbehind hstop,
          Bool.xor_false, Bool.xor_false]
      · have hafter : stop ≤ x := Nat.le_of_not_lt hstop
        have hinside : stop < m.size := Nat.lt_of_le_of_lt hafter hsize
        rw [if_neg fun hin => hstop hin.2, decide_eq_true hafter, flips_filter_gt _ hafter,
          cutAfter, decide_eq_true hinside, isFree_eq hinside, isFree_eq hsize]
        cases m.firstFree <;> cases flips m.cuts stop <;> cases free <;> simp
  · have hout : m.size ≤ x := Nat.le_of_not_lt hsize
    have hrange : ¬ (start ≤ x ∧ x < stop) := by omega
    rw [if_neg hrange, isFree_of_size_le m x hout]
    exact isFree_of_size_le _ x hout

theorem mark_eq_ok {m m' : FreeMap} {start stop : Nat} {free : Bool} :
    m.mark start stop free = .ok m' ↔ ∃ h : start < min stop m.size,
      m' = m.marked start (min stop m.size) free ⟨h, Nat.min_le_right ..⟩ := by
  unfold mark
  by_cases hempty : min stop m.size ≤ start
  · rw [dif_pos hempty]
    constructor
    · intro h
      cases h
    · rintro ⟨h, _⟩
      omega
  · rw [dif_neg hempty]
    constructor
    · intro h
      cases h
      exact ⟨Nat.lt_of_not_le hempty, rfl⟩
    · rintro ⟨_, rfl⟩
      rfl

/-- **A mark classifies its range**, as far as it lies inside, and nothing else. -/
theorem isFree_mark {m m' : FreeMap} {start stop : Nat} {free : Bool}
    (h : m.mark start stop free = .ok m') (x : Nat) :
    m'.isFree x = if x ∈ Range.mk start stop ∧ x < m.size then free else m.isFree x := by
  obtain ⟨_, rfl⟩ := mark_eq_ok.mp h
  simp only [isFree_marked, Nat.lt_min, Range.mem_iff, and_assoc]

/-- a range that holds an offset of the map can be marked -/
theorem exists_mark {m : FreeMap} {start stop : Nat} (free : Bool) (hstop : start < stop)
    (hsize : start < m.size) : ∃ m', m.mark start stop free = .ok m' :=
  ⟨_, mark_eq_ok.mpr ⟨Nat.lt_min.mpr ⟨hstop, hsize⟩, rfl⟩⟩

/-- all cuts lie inside, so behind the last offset the class does not change any more -/
theorem flips_of_size_le (m : FreeMap) {x : Nat} (h : m.size ≤ x) :
    flips m.cuts x = flips m.cuts (m.size - 1) := by
  unfold flips
  have hcount : m.cuts.countP (· ≤ x) = m.cuts.countP (· ≤ m.size - 1) := by
    apply List.countP_congr
    intro c hc
    have hinside := m.cuts_inside c hc
    simp only [decide_eq_true_eq]
    omega
  rw [hcount]

theorem flips_cutsExtended (m : FreeMap) (free : Bool) (x : Nat) :
    flips (m.cutsExtended free) x =
      (flips m.cuts x ^^ ((m.isFree (m.size - 1) != free) && decide (m.size ≤ x))) := by
  rw [cutsExtended]
  by_cases hcut : (m.isFree (m.size - 1) != free) = true
  · rw [if_pos hcut, flips_append, flips_singleton, hcut, Bool.true_and]
  · rw [if_neg hcut, Bool.eq_false_iff.mpr hcut, Bool.false_and, Bool.xor_false]

theorem isFree_extend (m : FreeMap) (size : Nat) (free : Bool) (x : Nat) :
    (m.extend size free).isFree x =
      if x < m.size then m.isFree x else decide (x < size) && free := by
  unfold extend
  by_cases hsize : size ≤ m.size
  · rw [dif_pos hsize]
    by_cases hx : x < m.size
    · rw [if_pos hx]
    · have hout : ¬ x < size := by omega
      rw [if_neg hx, isFree_of_size_le m x (Nat.le_of_not_lt hx), decide_eq_false hout,
        Bool.false_and]
  · rw [dif_neg hsize]
    by_cases hzero : m.size = 0
    · have hx : ¬ x < m.size := by omega
      rw [dif_pos hzero, if_neg hx]
      show (decide (x < size) && (free ^^ flips [] x)) = _
      rw [flips_nil, Bool.xor_false]
    · have hlast : m.size - 1 < m.size := by omega
      rw [dif_neg hzero]
      show (decide (x < size) && (m.firstFree ^^ flips (m.cutsExtended free) x)) = _
      rw [flips_cutsExtended]
      by_cases hx : x < m.size
      · have hnot : ¬ m.size ≤ x := by omega
        have hin : x < size := by omega
        rw [if_pos hx, decide_eq_false hnot, Bool.and_false, Bool.xor_false, decide_eq_true hin,
          Bool.true_and, isFree_eq hx]
      · have hout : m.size ≤ x := Nat.le_of_not_lt hx
        rw [if_neg hx, decide_eq_true hout, Bool.and_true, flips_of_size_le m hout,
          isFree_eq hlast]
        cases m.firstFree <;> cases flips m.cuts (m.size - 1) <;> cases free <;> rfl

/-! ## cuts -/

/-- one offset further, one more cut has been passed if there is one -/
theorem flips_pred {cuts : List Nat} {c : Nat} (hascend : cuts.Pairwise (· < ·)) (hpos : 0 < c) :
    flips cuts c = (flips cuts (c - 1) ^^ decide (c ∈ cuts)) := by
  induction cuts with
  | nil => rfl
  | cons d ds ih =>
    obtain ⟨hd, hds⟩ := List.pairwise_cons.mp hascend
    rw [flips_cons, flips_cons, ih hds]
    by_cases heq : c = d
    · have hnot : c ∉ ds := by
        intro hmem
        exact Nat.lt_irrefl c (heq ▸ hd c hmem)
      have hle : d ≤ c := by omega
      have hlt : ¬ d ≤ c - 1 := by omega
      rw [decide_eq_true hle, decide_eq_false hlt, decide_eq_false hnot, heq,
        decide_eq_true (List.mem_cons_self ..)]
      cases flips ds (d - 1) <;> rfl
    · have hmem : decide (c ∈ d :: ds) = decide (c ∈ ds) := by
        rw [decide_eq_decide, List.mem_cons, or_iff_right heq]
      have hle : decide (d ≤ c) = decide (d ≤ c - 1) := by
        rw [decide_eq_decide]
        omega
      rw [hmem, hle, Bool.xor_assoc]

/-- the cuts are the offsets at which the class changes -/
theorem mem_cuts {m : FreeMap} {c : Nat} :
    c ∈ m.cuts ↔ 0 < c ∧ c < m.size ∧ m.isFree c ≠ m.isFree (c - 1) := by
  constructor
  · intro h
    obtain ⟨hpos, hsize⟩ := m.cuts_inside c h
    refine ⟨hpos, hsize, ?_⟩
    have hbefore : c - 1 < m.size := by omega
    rw [isFree_eq hsize, isFree_eq hbefore, flips_pred m.cuts_ascend hpos, decide_eq_true h]
    cases m.firstFree <;> cases flips m.cuts (c - 1) <;> decide
  · rintro ⟨hpos, hsize, hne⟩
    have hbefore : c - 1 < m.size := by omega
    rw [isFree_eq hsize, isFree_eq hbefore, flips_pred m.cuts_ascend hpos] at hne
    by_contra hnot
    rw [decide_eq_false hnot, Bool.xor_false] at hne
    exact hne rfl

/-- **A map is known from its classes.** -/
theorem ext_isFree {m m' : FreeMap} (hsize : m.size = m'.size) (hbank : m.bankSize = m'.bankSize)
    (h : ∀ x, m.isFree x = m'.isFree x) : m = m' := by
  have hcuts : m.cuts = m'.cuts := by
    refine m.cuts_ascend.eq_of_mem_iff m'.cuts_ascend ?_
    intro c
    rw [mem_cuts, mem_cuts, hsize, h, h]
  have hfirst : m.firstFree = m'.firstFree := by
    by_cases hzero : m.size = 0
    · rw [m.used_of_size hzero, m'.used_of_size (hsize ▸ hzero)]
    · have hpos : 0 < m.size := Nat.pos_of_ne_zero hzero
      have hpos' : 0 < m'.size := hsize ▸ hpos
      have hzeroth := h 0
      rw [isFree_eq hpos, isFree_eq hpos', hcuts] at hzeroth
      revert hzeroth
      cases m.firstFree <;> cases m'.firstFree <;> cases flips m'.cuts 0 <;> decide
  cases m
  cases m'
  cases hsize
  cases hbank
  cases hcuts
  cases hfirst
  rfl

/-! ## several marks -/

/-- **Several marks.**  Each range must hold an offset of the map. -/
theorem isFree_markEach {m : FreeMap} {free : Bool} {rs : List Range}
    (h : (m.markEach free rs).1 = .ok ()) (x : Nat) :
    (m.markEach free rs).2.isFree x =
      if x < m.size ∧ ∃ r ∈ rs, x ∈ r then free else m.isFree x := by
  induction rs generalizing m with
  | nil => simp [markEach]
  | cons r rs ih =>
    rw [markEach] at h ⊢
    cases hmark : m.mark r.start r.stop free with
    | error e =>
      rw [hmark] at h
      cases h
    | ok m' =>
      rw [hmark] at h
      have hsize := (size_of_mark hmark).1
      rw [ih h, hsize, isFree_mark hmark]
      by_cases hx : x < m.size
      · by_cases hr : x ∈ r
        · simp [hx, hr]
        · simp [hx, hr]
      · simp [hx]

/-- ranges that are not empty and begin inside the map are marked, and no others -/
theorem markEach_eq_ok {m : FreeMap} {free : Bool} {rs : List Range} :
    (m.markEach free rs).1 = .ok () ↔ ∀ r ∈ rs, r.start < r.stop ∧ r.start < m.size := by
  induction rs generalizing m with
  | nil =>
    refine ⟨fun _ r hr => ?_, fun _ => rfl⟩
    cases hr
  | cons r rs ih =>
    rw [markEach, List.forall_mem_cons]
    cases hmark : m.mark r.start r.stop free with
    | error e =>
      constructor
      · intro h
        cases h
      · rintro ⟨⟨hr, hsize⟩, _⟩
        obtain ⟨m', hmark'⟩ := exists_mark free hr hsize
        rw [hmark'] at hmark
        cases hmark
    | ok m' =>
      obtain ⟨hinside, _⟩ := mark_eq_ok.mp hmark
      obtain ⟨hsize, _⟩ := size_of_mark hmark
      show (m'.markEach free rs).1 = .ok () ↔ _
      rw [ih, hsize]
      exact (and_iff_right ⟨by omega, by omega⟩).symm

theorem markEach_append (m : FreeMap) (free : Bool) (as bs : List Range) :
    m.markEach free (as ++ bs) =
      match m.markEach free as with
      | (.error e, m') => (.error e, m')
      | (.ok (), m') => m'.markEach free bs := by
  induction as generalizing m with
  | nil => rfl
  | cons r as ih =>
    rw [List.cons_append, markEach, markEach]
    cases m.mark r.start r.stop free with
    | error e => rfl
    | ok m' => exact ih m'

end FreeMap

end Cartridge
