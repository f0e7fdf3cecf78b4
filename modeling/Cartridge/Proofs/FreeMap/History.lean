import Cartridge.Proofs.FreeMap.Segments

/-!
# The history of a free map

A map that begins with every offset used and is then marked and enlarged has, at every offset, the
class of the last of these changes that covers it.

* `FreeMap.Change`           a mark or an enlargement; `FreeMap.Change.run` leaves the map as it was
                             when a mark is refused;
* `FreeMap.Change.Covers`    the change gives an offset its class;
* `FreeMap.history`          changes, each with the map that it met;
* `FreeMap.classGiven`       the class that the last change covering an offset gives it;
* `FreeMap.isFree_after`     **the classes of a map are those**, whatever map it began with;
* `FreeMap.after_classifies` the same for a new map, with what follows for cuts, segments and sizes.
-/

namespace Cartridge

namespace FreeMap

inductive Change where
  | mark (start stop : Nat) (free : Bool)
  | extend (size : Nat) (free : Bool)
  deriving DecidableEq, Repr

namespace Change

/-- the class that the change gives -/
def free : Change → Bool
  | mark _ _ free => free
  | extend _ free => free

def run (m : FreeMap) : Change → Except Error Unit × FreeMap
  | mark start stop free =>
    match m.mark start stop free with
    | .error e => (.error e, m)
    | .ok m' => (.ok (), m')
  | extend size free => (.ok (), m.extend size free)

/-- the change succeeds, and the offset lies in the range that it marks or adds -/
def Covers (m : FreeMap) (x : Nat) : Change → Prop
  | mark start stop free =>
    (m.mark start stop free).isOk = true ∧ start ≤ x ∧ x < min stop m.size
  | extend size _ => m.size ≤ x ∧ x < size

instance (m : FreeMap) (x : Nat) (c : Change) : Decidable (c.Covers m x) := by
  cases c with
  | mark start stop free =>
    exact inferInstanceAs (Decidable ((m.mark start stop free).isOk = true ∧ _ ∧ _))
  | extend size free => exact inferInstanceAs (Decidable (_ ∧ _))

theorem run_of_ok {m m' : FreeMap} {start stop : Nat} {free : Bool}
    (h : m.mark start stop free = .ok m') : (mark start stop free).run m = (.ok (), m') := by
  simp only [run, h]

theorem run_of_refused {m : FreeMap} {start stop : Nat} {free : Bool} {e : Error}
    (h : m.mark start stop free = .error e) : (mark start stop free).run m = (.error e, m) := by
  simp only [run, h]

theorem covers_mark {m m' : FreeMap} {start stop x : Nat} {free : Bool}
    (h : m.mark start stop free = .ok m') :
    (mark start stop free).Covers m x ↔ x ∈ Range.mk start stop ∧ x < m.size := by
  simp only [Covers, h, Except.isOk, Except.toBool, true_and, Nat.lt_min, Range.mem_iff, and_assoc]

/-- a change that is refused leaves the map as it was -/
theorem run_of_error {m : FreeMap} {c : Change} {e : Error} (h : (c.run m).1 = .error e) :
    (c.run m).2 = m := by
  cases c with
  | extend size free => cases h
  | mark start stop free =>
    cases hmark : m.mark start stop free with
    | error e' => rw [run_of_refused hmark]
    | ok m' =>
      rw [run_of_ok hmark] at h
      cases h

/-- **One change gives its class to what it covers**, and leaves the other offsets alone. -/
theorem isFree_run (m : FreeMap) (c : Change) (x : Nat) :
    (c.run m).2.isFree x = if c.Covers m x then c.free else m.isFree x := by
  cases c with
  | mark start stop free =>
    cases hmark : m.mark start stop free with
    | ok m' =>
      rw [run_of_ok hmark, isFree_mark hmark, if_congr (covers_mark hmark) rfl rfl]
      rfl
    | error e =>
      have hcovers : ¬ (mark start stop free).Covers m x := by
        simp only [Covers, hmark, Except.isOk, Except.toBool, Bool.false_eq_true, false_and,
          not_false_eq_true]
      rw [run_of_refused hmark, if_neg hcovers]
  | extend size free =>
    show (m.extend size free).isFree x = if m.size ≤ x ∧ x < size then free else m.isFree x
    rw [isFree_extend]
    by_cases hx : x < m.size
    · rw [if_pos hx, if_neg fun h => Nat.not_lt_of_le h.1 hx]
    · rw [if_neg hx, isFree_of_size_le m x (Nat.le_of_not_lt hx)]
      by_cases hsize : x < size
      · rw [if_pos ⟨Nat.le_of_not_lt hx, hsize⟩, decide_eq_true hsize, Bool.true_and]
      · rw [if_neg fun h => hsize h.2, decide_eq_false hsize, Bool.false_and]

end Change

/-! ## runs of changes -/

def after (m : FreeMap) : List Change → FreeMap
  | [] => m
  | c :: cs => after (c.run m).2 cs

def history (m : FreeMap) : List Change → List (FreeMap × Change)
  | [] => []
  | c :: cs => (m, c) :: history (c.run m).2 cs

/-- the class that the last change covering the offset gives it -/
def classGiven (m : FreeMap) (changes : List Change) (x : Nat) : Option Bool :=
  ((m.history changes).reverse.find? fun (met, c) => c.Covers met x).map fun (_, c) => c.free

theorem classGiven_cons (m : FreeMap) (c : Change) (cs : List Change) (x : Nat) :
    m.classGiven (c :: cs) x =
      ((c.run m).2.classGiven cs x).or (if c.Covers m x then some c.free else none) := by
  unfold classGiven
  rw [history, List.reverse_cons, List.find?_append, Option.map_or]
  congr 1
  by_cases hcovers : c.Covers m x
  · rw [if_pos hcovers, List.find?_cons_of_pos (by simpa using hcovers)]
    rfl
  · rw [if_neg hcovers, List.find?_cons_of_neg (by simpa using hcovers)]
    rfl

/-- **The class of an offset is that of the last change that covers it**; without one it is what it
was. -/
theorem isFree_after (m : FreeMap) (changes : List Change) (x : Nat) :
    (m.after changes).isFree x = (m.classGiven changes x).getD (m.isFree x) := by
  induction changes generalizing m with
  | nil => rfl
  | cons c cs ih =>
    rw [after, ih, classGiven_cons, Change.isFree_run]
    cases (c.run m).2.classGiven cs x with
    | some class' => rfl
    | none =>
      by_cases hcovers : c.Covers m x
      · rw [if_pos hcovers, if_pos hcovers]
        rfl
      · rw [if_neg hcovers, if_neg hcovers]
        rfl

theorem isFree_ofSize (size bankSize x : Nat) : (ofSize size bankSize).isFree x = false := by
  unfold ofSize isFree cutsUpTo
  simp

/-- **A map is exactly the classification that its history gives.**  An offset that no change covers
is used; a refused mark changes nothing; cuts, segments and sizes are those of the classification,
and it has one form only. -/
theorem after_classifies (size bankSize : Nat) (changes : List Change) :
    let m := (ofSize size bankSize).after changes
    (∀ x, m.isFree x = ((ofSize size bankSize).classGiven changes x).getD false) ∧
    (∀ (c : Change) (e : Error), (c.run m).1 = .error e → (c.run m).2 = m) ∧
    m.cuts.Pairwise (· < ·) ∧ (∀ cut ∈ m.cuts, 0 < cut ∧ cut < m.size) ∧
    m.segments.IsChain Segment.Continues ∧
    (∀ s ∈ m.segments, s.start < s.stop ∧ ∀ x, s.start ≤ x → x < s.stop → m.isFree x = s.free) ∧
    (∀ x, (∃! s, s ∈ m.segments ∧ s.start ≤ x ∧ x < s.stop) ↔ x < m.size) ∧
    m.freeBytes = (List.range m.size).countP m.isFree ∧
    m.usedBytes = (List.range m.size).countP (fun x => !m.isFree x) ∧
    ∀ size' bankSize' changes', let m' := (ofSize size' bankSize').after changes'
      m.size = m'.size → m.bankSize = m'.bankSize → (∀ x < m.size, m.isFree x = m'.isFree x) →
        m = m' := by
  intro m
  refine ⟨?_, ?_, m.cuts_ascend, m.cuts_inside, m.chain_segments, ?_, ?_, m.freeBytes_eq,
    m.usedBytes_eq, ?_⟩
  · intro x
    rw [isFree_after, isFree_ofSize]
  · exact fun c e h => Change.run_of_error h
  · intro s hs
    exact ⟨start_lt_stop_of_mem_segments hs,
      fun x hstart hstop => (isFree_of_mem_segments hs hstart hstop).1⟩
  · exact fun x => existsUnique_segment
  · intro size' bankSize' changes' m' hsize hbank hclass
    refine ext_isFree hsize hbank fun x => ?_
    by_cases hx : x < m.size
    · exact hclass x hx
    · rw [isFree_of_size_le m x (Nat.le_of_not_lt hx),
        isFree_of_size_le m' x (hsize ▸ Nat.le_of_not_lt hx)]

end FreeMap

end Cartridge
