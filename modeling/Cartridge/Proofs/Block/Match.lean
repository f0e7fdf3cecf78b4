import Cartridge.Block.Match

/-!
# Matches and what they expand to

A match that the search finds is a run that the data to come repeats, so the copy that it becomes
gives these bytes again, also where it overlaps what it produces.

* `Token.Fits`           a command that a reference word can spell;
* `search_cases`         the search keeps what it had or finds a distance with a longer run;
* `copyBack_run`         a copy from a run gives the bytes of the run;
* `expand_tokenize`      the commands of the data expand to the data, and all of them fit.
-/

namespace Cartridge.Block

/-- literals, and copies whose distance and length a reference word can spell -/
def Token.Fits (w : Window) : Token → Prop
  | .literal _ => True
  | .copy distance length =>
    (0 < distance ∧ distance ≤ w.maxDistance) ∧ minMatch ≤ length ∧ length ≤ w.maxLength

/-! ## runs -/

theorem commonRun_le_limit (limit : Nat) (a b : Bytes) : commonRun limit a b ≤ limit := by
  induction limit generalizing a b with
  | zero => exact Nat.le_refl 0
  | succ n ih =>
    cases a with
    | nil => exact Nat.zero_le _
    | cons x a =>
      cases b with
      | nil => exact Nat.zero_le _
      | cons y b =>
        rw [commonRun]
        split
        · exact Nat.succ_le_succ (ih a b)
        · exact Nat.zero_le _

theorem commonRun_le_length (limit : Nat) (a b : Bytes) : commonRun limit a b ≤ b.length := by
  induction limit generalizing a b with
  | zero => exact Nat.zero_le _
  | succ n ih =>
    cases a with
    | nil => exact Nat.zero_le _
    | cons x a =>
      cases b with
      | nil => exact Nat.le_refl 0
      | cons y b =>
        rw [commonRun]
        split
        · exact Nat.succ_le_succ (ih a b)
        · exact Nat.zero_le _

theorem take_commonRun (limit : Nat) (a b : Bytes) :
    a.take (commonRun limit a b) = b.take (commonRun limit a b) := by
  induction limit generalizing a b with
  | zero => rfl
  | succ n ih =>
    cases a with
    | nil => rfl
    | cons x a =>
      cases b with
      | nil => rfl
      | cons y b =>
        rw [commonRun]
        split
        · rename_i hxy
          rw [List.take_succ_cons, List.take_succ_cons, ih a b, hxy]
        · rfl

/-! ## the search -/

/-- where a distance begins, seen from the next step of the search -/
theorem drop_tail_source {d e : Nat} (source : Bytes) (he : e ≤ d) :
    source.tail.drop (d - e) = source.drop (d + 1 - e) := by
  rw [← List.drop_one, List.drop_drop]
  congr 1
  omega

/-- the search keeps the best so far, or finds a longer run at one of its distances -/
theorem search_cases (limit : Nat) (rest : Bytes) (d : Nat) (source : Bytes)
    (distance length : Nat) :
    search limit rest d source distance length = (distance, length) ∨
      ∃ e, 0 < e ∧ e ≤ d ∧ length < commonRun limit (source.drop (d - e)) rest ∧
        search limit rest d source distance length =
          (e, commonRun limit (source.drop (d - e)) rest) := by
  induction d generalizing source distance length with
  | zero => exact .inl rfl
  | succ d ih =>
    have hself : source.drop (d + 1 - (d + 1)) = source := by rw [Nat.sub_self, List.drop_zero]
    rw [search]
    by_cases hlong : length < commonRun limit source rest
    · simp only [hlong, if_true]
      by_cases hlimit : commonRun limit source rest = limit
      · refine .inr ⟨d + 1, Nat.succ_pos d, Nat.le_refl _, ?_, ?_⟩
        · rw [hself]
          exact hlong
        · rw [if_pos hlimit, hself]
      · rw [if_neg hlimit]
        rcases ih source.tail (d + 1) (commonRun limit source rest) with h | ⟨e, he, hed, hrun, h⟩
        · refine .inr ⟨d + 1, Nat.succ_pos d, Nat.le_refl _, ?_, ?_⟩
          · rw [hself]
            exact hlong
          · rw [h, hself]
        · rw [drop_tail_source source hed] at hrun h
          exact .inr ⟨e, he, Nat.le_succ_of_le hed, Nat.lt_trans hlong hrun, h⟩
    · simp only [hlong, if_false]
      rcases ih source.tail distance length with h | ⟨e, he, hed, hrun, h⟩
      · exact .inl h
      · rw [drop_tail_source source hed] at hrun h
        exact .inr ⟨e, he, Nat.le_succ_of_le hed, hrun, h⟩

/-- a match is a common run of at least three bytes at a distance within reach -/
theorem longestMatch_eq_some {w : Window} {d : Nat} {source rest : Bytes} {distance length : Nat}
    (h : longestMatch w d source rest = some (distance, length)) :
    0 < distance ∧ distance ≤ d ∧ minMatch ≤ length ∧
      length = commonRun w.maxLength (source.drop (d - distance)) rest := by
  simp only [longestMatch, Option.ite_none_left_eq_some, Option.some.injEq] at h
  obtain ⟨hmin, h⟩ := h
  rcases search_cases w.maxLength rest d source 0 (minMatch - 1) with hs | ⟨e, he, hed, _, hs⟩
  · rw [hs] at hmin
    exact absurd (show minMatch - 1 < minMatch by decide) hmin
  · rw [hs] at hmin h
    obtain ⟨rfl, rfl⟩ := Prod.mk.inj h
    exact ⟨he, hed, Nat.le_of_not_lt hmin, rfl⟩

/-! ## copies -/

/-- a copy from a distance at which the bytes to come are repeated gives these bytes -/
theorem copyBack_run (distance n : Nat) (before rest : Bytes) (out : Array UInt8)
    (hout : out.toList = before) (hpos : 0 < distance) (hin : distance ≤ before.length)
    (hn : n ≤ rest.length)
    (hrun : ((before ++ rest).drop (before.length - distance)).take n = rest.take n) :
    (copyBack out distance n).toList = before ++ rest.take n := by
  induction n generalizing before rest out with
  | zero => rw [copyBack_zero, hout, List.take_zero, List.append_nil]
  | succ n ih =>
    obtain ⟨b, rest, rfl⟩ := List.exists_cons_of_length_pos (Nat.lt_of_lt_of_le (Nat.succ_pos n) hn)
    have hlt : before.length - distance < (before ++ b :: rest).length := by
      rw [List.length_append]
      omega
    rw [List.drop_eq_getElem_cons hlt, List.take_succ_cons, List.take_succ_cons,
      List.cons.injEq] at hrun
    obtain ⟨hb, hrun⟩ := hrun
    -- the byte that is copied is the next byte of the data
    have hbyte : out.getD (out.size - distance) 0 = b := by
      have hsize : out.size = before.length := by rw [← hout, Array.length_toList]
      have hlt' : before.length - distance < before.length := by omega
      rw [List.getElem_append_left hlt'] at hb
      rw [Array.getD_eq_getD_getElem?, ← Array.getElem?_toList, hout, hsize,
        List.getElem?_eq_getElem hlt', Option.getD_some, hb]
    have hstep : (before ++ [b]) ++ rest = before ++ b :: rest := by
      rw [List.append_assoc, List.singleton_append]
    have hlen : (before ++ [b]).length - distance = before.length - distance + 1 := by
      rw [List.length_append, List.length_singleton]
      omega
    rw [copyBack_succ, hbyte, ih (before ++ [b]) rest (out.push b)]
    · rw [List.take_succ_cons, List.append_assoc, List.singleton_append]
    · rw [Array.toList_push, hout]
    · rw [List.length_append]
      omega
    · exact Nat.le_of_succ_le_succ hn
    · rw [hstep, hlen]
      exact hrun

/-! ## the commands of the data -/

/-- the bytes of a match are repeated at its distance -/
theorem longestMatch_run {w : Window} {d distance length : Nat} {source before rest : Bytes}
    (hd : d ≤ before.length) (hsource : source = (before ++ rest).drop (before.length - d))
    (h : longestMatch w d source rest = some (distance, length)) :
    ((before ++ rest).drop (before.length - distance)).take length = rest.take length := by
  obtain ⟨_, hle, _, hrun⟩ := longestMatch_eq_some h
  have hdrop : source.drop (d - distance) = (before ++ rest).drop (before.length - distance) := by
    rw [hsource, List.drop_drop]
    congr 1
    omega
  rw [hdrop] at hrun
  rw [hrun]
  exact take_commonRun ..

/-- the next command fits, and expands to as many bytes as it says -/
theorem nextToken_expand {w : Window} {d : Nat} {source before : Bytes} {b : UInt8} {tail : Bytes}
    {token : Token} {n : Nat} (hd : d ≤ before.length) (hreach : d ≤ w.maxDistance)
    (hsource : source = (before ++ b :: tail).drop (before.length - d))
    (h : nextToken w d source (b :: tail) b = (token, n)) :
    token.Fits w ∧ 0 < n ∧ n ≤ (b :: tail).length ∧
      ∀ (out : Array UInt8) (ts : List Token), out.toList = before →
        ∃ out' : Array UInt8, out'.toList = before ++ (b :: tail).take n ∧
          expand out (token :: ts) = expand out' ts := by
  unfold nextToken at h
  split at h
  · rename_i distance length hmatch
    obtain ⟨rfl, rfl⟩ := Prod.mk.inj h
    obtain ⟨hpos, hle, hmin, hrun⟩ := longestMatch_eq_some hmatch
    have hshort : length ≤ (b :: tail).length := by
      rw [hrun]
      exact commonRun_le_length ..
    have hmax : length ≤ w.maxLength := by
      rw [hrun]
      exact commonRun_le_limit ..
    have htake := longestMatch_run hd hsource hmatch
    refine ⟨⟨⟨hpos, by omega⟩, hmin, hmax⟩, Nat.lt_of_lt_of_le (by decide) hmin, hshort, ?_⟩
    intro out ts hout
    have hsize : out.size = before.length := by rw [← hout, Array.length_toList]
    refine ⟨copyBack out distance length, ?_, ?_⟩
    · exact copyBack_run distance length before (b :: tail) out hout hpos (by omega) hshort htake
    · rw [expand, if_neg (by omega)]
  · obtain ⟨rfl, rfl⟩ := Prod.mk.inj h
    refine ⟨trivial, Nat.one_pos, Nat.succ_le_succ (Nat.zero_le _), ?_⟩
    intro out ts hout
    refine ⟨out.push b, ?_, expand_literal out b ts⟩
    rw [Array.toList_push, hout]
    rfl

/-- with the data split into what is done and what is to come, the commands still to be found
expand what is done to the whole -/
theorem tokenizeFrom_expand (w : Window) (d : Nat) (source before rest : Bytes)
    (done : List Token) (hd : d ≤ before.length) (hreach : d ≤ w.maxDistance)
    (hsource : source = (before ++ rest).drop (before.length - d)) :
    ∃ ts, tokenizeFrom w d source rest done = done.reverse ++ ts ∧ (∀ t ∈ ts, t.Fits w) ∧
      ∀ out : Array UInt8, out.toList = before →
        ∃ out' : Array UInt8, out'.toList = before ++ rest ∧ expand out ts = .ok out' := by
  induction hlen : rest.length using Nat.strongRecOn generalizing d source before rest done with
  | ind len ih =>
    cases rest with
    | nil =>
      refine ⟨[], ?_, by simp, ?_⟩
      · rw [tokenizeFrom, List.append_nil]
      · intro out hout
        exact ⟨out, by rw [hout, List.append_nil], expand_nil out⟩
    | cons b tail =>
      obtain ⟨token, n, hnext⟩ : ∃ token n, nextToken w d source (b :: tail) b = (token, n) :=
        ⟨_, _, rfl⟩
      obtain ⟨hfits, hn, hnlen, hexpand⟩ := nextToken_expand hd hreach hsource hnext
      have hsplit : (before ++ (b :: tail).take n) ++ tail.drop (n - 1) = before ++ b :: tail := by
        obtain ⟨n, rfl⟩ := Nat.exists_eq_add_of_lt hn
        rw [List.append_assoc, Nat.zero_add, Nat.add_sub_cancel, List.take_succ_cons,
          List.cons_append, List.take_append_drop]
      have hbefore : (before ++ (b :: tail).take n).length = before.length + n := by
        rw [List.length_append, List.length_take, Nat.min_eq_left hnlen]
      rw [List.length_cons] at hnlen hlen
      obtain ⟨ts, hts, hall, hrun⟩ := ih (tail.drop (n - 1)).length
        (by rw [List.length_drop]; omega)
        (min (d + 1 + (n - 1)) w.maxDistance)
        (source.drop (d + 1 + (n - 1) - min (d + 1 + (n - 1)) w.maxDistance))
        (before ++ (b :: tail).take n) (tail.drop (n - 1)) (token :: done)
        (by rw [hbefore]; omega) (Nat.min_le_right ..)
        (by
          rw [hsplit, hsource, List.drop_drop, hbefore]
          congr 1
          omega)
        rfl
      refine ⟨token :: ts, ?_, ?_, ?_⟩
      · rw [tokenizeFrom, hnext]
        show tokenizeFrom w _ _ _ (token :: done) = _
        rw [hts, List.reverse_cons, List.append_assoc, List.singleton_append]
      · intro t ht
        rcases List.mem_cons.mp ht with rfl | ht
        · exact hfits
        · exact hall t ht
      · intro out hout
        obtain ⟨mid, hmid, hstep⟩ := hexpand out ts hout
        obtain ⟨out', hout', hexp⟩ := hrun mid hmid
        exact ⟨out', by rw [hout', hsplit], by rw [hstep, hexp]⟩

/-- **The commands of the data expand to the data.** -/
theorem expand_tokenize (w : Window) (data : Bytes) :
    (∀ t ∈ tokenize w data, t.Fits w) ∧
      ∃ out : Array UInt8, out.toList = data ∧ expand #[] (tokenize w data) = .ok out := by
  obtain ⟨ts, hts, hall, hrun⟩ := tokenizeFrom_expand w 0 data [] data [] (Nat.le_refl 0)
    (Nat.zero_le _) rfl
  rw [List.reverse_nil, List.nil_append] at hts
  rw [tokenize, hts]
  obtain ⟨out, hout, hexp⟩ := hrun #[] rfl
  exact ⟨hall, out, hout, hexp⟩

end Cartridge.Block
