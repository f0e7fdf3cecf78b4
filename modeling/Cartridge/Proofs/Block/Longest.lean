import Cartridge.Proofs.Block.Packet
import Mathlib.Data.Nat.Find

/-!
# The best match

What the search finds at a position is stated here without it: a distance within reach repeats so
many of the bytes to come, and the best distance repeats the most of them, of equal ones the one
furthest back.  The encoder asks for this match at every position that it comes to.

* `Repeats`                the bytes at a position are those so far behind it;
* `Window.cap`, `Window.cappedRun`   how many bytes a match may have, and how many a distance
                           repeats of them;
* `search_best`            no distance has a longer run than the one the search ends with, and no
                           larger distance has an equal one;
* `findMatch_best`         **the match at a position is the best one**, and a word can spell it;
* `tokenizeAt_of_lt`       the command at a position is this match, or a literal.
-/

namespace Cartridge.Block

/-- `n` bytes from `pos` on are the bytes `d` places before them; they may overlap -/
def Repeats (data : Bytes) (pos d n : Nat) : Prop :=
  ∀ i < n, data[pos - d + i]? = data[pos + i]?

instance (data : Bytes) (pos d n : Nat) : Decidable (Repeats data pos d n) :=
  inferInstanceAs (Decidable (∀ i < n, data[pos - d + i]? = data[pos + i]?))

namespace Window

/-- the most bytes that a match at `pos` may have -/
def cap (w : Window) (data : Bytes) (pos : Nat) : Nat := min w.maxLength (data.length - pos)

/-- the most bytes at `pos`, up to the cap, that the bytes `d` before them repeat -/
def cappedRun (w : Window) (data : Bytes) (pos d : Nat) : Nat :=
  Nat.findGreatest (Repeats data pos d) (w.cap data pos)

/-- the distances at which a match at `pos` can begin -/
def Reaches (w : Window) (pos d : Nat) : Prop := 0 < d ∧ d ≤ min pos w.maxDistance

end Window

/-! ## runs -/

theorem le_commonRun {limit n : Nat} {a b : Bytes} (hlimit : n ≤ limit) (hlength : n ≤ b.length)
    (h : ∀ i < n, a[i]? = b[i]?) : n ≤ commonRun limit a b := by
  induction n generalizing limit a b with
  | zero => exact Nat.zero_le _
  | succ n ih =>
    obtain ⟨limit, rfl⟩ := Nat.exists_eq_add_of_lt hlimit
    obtain ⟨y, b, rfl⟩ := List.exists_cons_of_length_pos (Nat.lt_of_lt_of_le n.succ_pos hlength)
    have hfirst := h 0 n.succ_pos
    cases a with
    | nil => cases hfirst
    | cons x a =>
      have hxy : x = y := Option.some.inj hfirst
      rw [commonRun, if_pos hxy]
      refine Nat.succ_le_succ (ih (Nat.le_add_right ..) (Nat.le_of_succ_le_succ hlength) ?_)
      intro i hi
      exact h (i + 1) (Nat.succ_lt_succ hi)

section
variable (w : Window) (data : Bytes) (pos d : Nat)

theorem repeats_cappedRun : Repeats data pos d (w.cappedRun data pos d) :=
  Nat.findGreatest_spec (Nat.zero_le _) fun _ hi => absurd hi (Nat.not_lt_zero _)

theorem cappedRun_le : w.cappedRun data pos d ≤ w.cap data pos := Nat.findGreatest_le _

theorem cappedRun_eq_commonRun :
    w.cappedRun data pos d = commonRun w.maxLength (data.drop (pos - d)) (data.drop pos) := by
  apply Nat.le_antisymm
  · have hcap := cappedRun_le w data pos d
    refine le_commonRun (Nat.le_trans hcap (Nat.min_le_left ..)) ?_ fun i hi => ?_
    · rw [List.length_drop]
      exact Nat.le_trans hcap (Nat.min_le_right ..)
    · rw [List.getElem?_drop, List.getElem?_drop]
      exact repeats_cappedRun w data pos d i hi
  · have hlength := commonRun_le_length w.maxLength (data.drop (pos - d)) (data.drop pos)
    rw [List.length_drop] at hlength
    refine Nat.le_findGreatest (Nat.le_min.mpr ⟨commonRun_le_limit .., hlength⟩) fun i hi => ?_
    have htake := congrArg (·[i]?)
      (take_commonRun w.maxLength (data.drop (pos - d)) (data.drop pos))
    simp only [List.getElem?_take_of_lt hi, List.getElem?_drop] at htake
    exact htake

end

/-! ## the search -/

/-- the search ends with a run at least as long as the best so far -/
theorem le_search (limit : Nat) (rest : Bytes) (d : Nat) (source : Bytes) (distance length : Nat) :
    length ≤ (search limit rest d source distance length).2 := by
  rcases search_cases limit rest d source distance length with h | ⟨e, _, _, hrun, h⟩
  · rw [h]
  · rw [h]
    exact Nat.le_of_lt hrun

/-- the first run that the search meets is no longer than the one it ends with, and if it is as long
and was longer than the best so far, it is the one -/
theorem search_first {limit d distance length run : Nat} {rest source : Bytes}
    {found : Nat × Nat} (hrun : commonRun limit source rest = run)
    (hfound : search limit rest (d + 1) source distance length = found) :
    run ≤ found.2 ∧ (length < run → run = found.2 → d + 1 ≤ found.1) := by
  subst hfound
  rw [search, hrun]
  by_cases hlong : length < run
  · simp only [hlong, if_true]
    by_cases hlimit : run = limit
    · rw [if_pos hlimit]
      exact ⟨Nat.le_refl _, fun _ _ => Nat.le_refl _⟩
    · rw [if_neg hlimit]
      refine ⟨le_search .., fun _ htie => ?_⟩
      rcases search_cases limit rest d source.tail (d + 1) run with hkept | ⟨_, _, _, hlonger, h⟩
      · rw [hkept]
      · rw [h] at htie
        exact absurd htie (Nat.ne_of_lt hlonger)
  · simp only [hlong, if_false]
    exact ⟨Nat.le_trans (Nat.le_of_not_lt hlong) (le_search ..), fun h => h.elim⟩

/-- no distance has a longer run than the one the search ends with, and no larger distance has an
equal one, unless the best so far was as long already -/
theorem search_best {limit d distance length e run : Nat} {rest source : Bytes}
    {found : Nat × Nat} (hpos : 0 < e) (hle : e ≤ d)
    (hrun : commonRun limit (source.drop (d - e)) rest = run)
    (hfound : search limit rest d source distance length = found) :
    run ≤ found.2 ∧ (length < run → run = found.2 → e ≤ found.1) := by
  induction d generalizing source distance length with
  | zero => omega
  | succ d ih =>
    rcases Nat.lt_or_eq_of_le hle with hlt | rfl
    · have hinner := Nat.le_of_lt_succ hlt
      rw [← drop_tail_source source hinner] at hrun
      rw [search] at hfound
      by_cases hlong : length < commonRun limit source rest
      · simp only [hlong, if_true] at hfound
        split at hfound
        · -- the search stops at the limit, and `d + 1` is the largest distance
          rename_i hlimit
          subst hfound
          refine ⟨?_, fun _ _ => hle⟩
          rw [← hrun, hlimit]
          exact commonRun_le_limit ..
        · obtain ⟨hmost, hties⟩ := ih hinner hrun hfound
          refine ⟨hmost, fun _ htie => ?_⟩
          rcases search_cases limit rest d source.tail (d + 1) (commonRun limit source rest) with
            hkept | ⟨_, _, _, hlonger, h⟩
          · rw [← hfound, hkept]
            exact hle
          · refine hties ?_ htie
            rw [htie, ← hfound, h]
            exact hlonger
      · simp only [hlong, if_false] at hfound
        exact ih hinner hrun hfound
    · rw [Nat.sub_self, List.drop_zero] at hrun
      exact search_first hrun hfound

/-! ## the match at a position -/

section
variable {w : Window} {data : Bytes} {pos : Nat}

/-- the bytes at a distance within reach, as the search meets them -/
theorem cappedRun_of_reaches {d : Nat} (h : w.Reaches pos d) :
    w.cappedRun data pos d = commonRun w.maxLength
      ((data.drop (pos - min pos w.maxDistance)).drop (min pos w.maxDistance - d))
      (data.drop pos) := by
  obtain ⟨_, hle⟩ := h
  rw [cappedRun_eq_commonRun, List.drop_drop]
  congr 2
  omega

theorem findMatch_eq_some {d n : Nat} (h : findMatch w data pos = some (d, n)) :
    w.Reaches pos d ∧ minMatch ≤ n ∧ n = w.cappedRun data pos d := by
  obtain ⟨hpos, hle, hmin, hrun⟩ := longestMatch_eq_some h
  exact ⟨⟨hpos, hle⟩, hmin, hrun.trans (cappedRun_of_reaches ⟨hpos, hle⟩).symm⟩

/-- a run of three bytes is no longer than the match, and no further back than an equal one -/
theorem exists_findMatch {e : Nat} (he : w.Reaches pos e)
    (hmin : minMatch ≤ w.cappedRun data pos e) :
    ∃ d n, findMatch w data pos = some (d, n) ∧ w.cappedRun data pos e ≤ n ∧
      (w.cappedRun data pos e = n → e ≤ d) := by
  obtain ⟨hle, hties⟩ :=
    @search_best _ _ 0 (minMatch - 1) _ _ _ _ _ he.1 he.2 (cappedRun_of_reaches he).symm rfl
  refine ⟨_, _, ?_, hle, hties (Nat.lt_of_lt_of_le (by decide) hmin)⟩
  exact if_neg (Nat.not_lt_of_le (Nat.le_trans hmin hle))

end

/-- **The match at a position is the best one.**  There is one exactly when a distance within reach
repeats three bytes; then no distance within reach repeats more bytes than it has, no larger one
repeats as many, and its word is read as it was meant. -/
theorem findMatch_best (w : Window) (data : Bytes) (pos : Nat) :
    ((∃ d n, findMatch w data pos = some (d, n)) ↔
      ∃ e, w.Reaches pos e ∧ minMatch ≤ w.cappedRun data pos e) ∧
    ∀ d n, findMatch w data pos = some (d, n) →
      (w.Reaches pos d ∧ minMatch ≤ n ∧ n = w.cappedRun data pos d) ∧
      (∀ e, w.Reaches pos e → w.cappedRun data pos e ≤ n) ∧
      (∀ i < n, data[pos - d + i]? = data[pos + i]? ∧ pos + i < data.length) ∧
      (∀ e, w.Reaches pos e → w.cappedRun data pos e = n → e ≤ d) ∧
      w.pack d n < 0x10000 ∧ w.unpack (w.pack d n) = (d, n) := by
  constructor
  · constructor
    · rintro ⟨d, n, h⟩
      obtain ⟨hreach, hmin, rfl⟩ := findMatch_eq_some h
      exact ⟨d, hreach, hmin⟩
    · rintro ⟨e, hreach, hmin⟩
      obtain ⟨d, n, h, _⟩ := exists_findMatch hreach hmin
      exact ⟨d, n, h⟩
  · intro d n h
    obtain ⟨hreach, hmin, hrun⟩ := findMatch_eq_some h
    have hcap : n ≤ w.cap data pos := hrun ▸ cappedRun_le w data pos d
    obtain ⟨hmax, hlength⟩ := Nat.le_min.mp hcap
    have hfits : (Token.copy d n).Fits w :=
      ⟨⟨hreach.1, Nat.le_trans hreach.2 (Nat.min_le_right ..)⟩, hmin, hmax⟩
    -- a distance with at least three bytes is met by the search, and it ends with `(d, n)`
    have hbest : ∀ e, w.Reaches pos e → minMatch ≤ w.cappedRun data pos e →
        w.cappedRun data pos e ≤ n ∧ (w.cappedRun data pos e = n → e ≤ d) := by
      intro e he hlong
      obtain ⟨_, _, h', hle, hties⟩ := exists_findMatch he hlong
      obtain ⟨rfl, rfl⟩ := Prod.mk.inj (Option.some.inj (h.symm.trans h'))
      exact ⟨hle, hties⟩
    refine ⟨⟨hreach, hmin, hrun⟩, ?_, ?_, ?_, pack_lt hfits, unpack_pack hfits⟩
    · intro e he
      rcases Nat.lt_or_ge (w.cappedRun data pos e) minMatch with hshort | hlong
      · exact Nat.le_trans (Nat.le_of_lt hshort) hmin
      · exact (hbest e he hlong).1
    · intro i hi
      exact ⟨repeats_cappedRun w data pos d i (hrun ▸ hi), by omega⟩
    · intro e he heq
      exact (hbest e he (heq ▸ hmin)).2 heq

/-- a run that reaches past the position, and an equal one further back -/
example : findMatch .wide [1, 2, 1, 2, 1, 2, 1] 2 = some (2, 5) ∧
    findMatch .wide [1, 2, 3, 1, 2, 3, 1, 2, 3] 6 = some (6, 3) := by decide

/-! ## the commands of the data -/

/-- the commands from `pos` on, behind those in `done` -/
def tokenizeAt (w : Window) (data : Bytes) (pos : Nat) (done : List Token) : List Token :=
  let d := min pos w.maxDistance
  tokenizeFrom w d (data.drop (pos - d)) (data.drop pos) done

theorem tokenize_eq (w : Window) (data : Bytes) : tokenize w data = tokenizeAt w data 0 [] := by
  rw [tokenizeAt, Nat.zero_min, Nat.sub_zero, List.drop_zero]
  rfl

/-- **The command at a position is the best match there, or a literal.** -/
theorem tokenizeAt_of_lt (w : Window) (data : Bytes) (pos : Nat) (done : List Token)
    (h : pos < data.length) :
    tokenizeAt w data pos done =
      match findMatch w data pos with
      | some (d, n) => tokenizeAt w data (pos + n) (.copy d n :: done)
      | none => tokenizeAt w data (pos + 1) (.literal data[pos] :: done) := by
  have hstep (n : Nat) (token : Token) (hn : 0 < n)
      (hnext : nextToken w (min pos w.maxDistance) (data.drop (pos - min pos w.maxDistance))
        (data[pos] :: data.drop (pos + 1)) data[pos] = (token, n)) :
      tokenizeAt w data pos done = tokenizeAt w data (pos + n) (token :: done) := by
    have hbehind : min (min pos w.maxDistance + 1 + (n - 1)) w.maxDistance =
        min (pos + n) w.maxDistance := by omega
    unfold tokenizeAt
    rw [List.drop_eq_getElem_cons h, tokenizeFrom, hnext]
    simp only [hbehind, List.drop_drop]
    congr 2 <;> omega
  cases hmatch : findMatch w data pos with
  | none =>
    refine hstep 1 _ Nat.one_pos ?_
    rw [nextToken, ← List.drop_eq_getElem_cons h, show longestMatch .. = none from hmatch]
  | some found =>
    obtain ⟨d, n⟩ := found
    have hmin := (findMatch_eq_some hmatch).2.1
    refine hstep n _ (Nat.lt_of_lt_of_le (by decide) hmin) ?_
    rw [nextToken, ← List.drop_eq_getElem_cons h, show longestMatch .. = some (d, n) from hmatch]

end Cartridge.Block
