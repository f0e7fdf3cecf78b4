import Cartridge.Proofs.Block.RoundTrip

/-!
# The size of a block

How many bytes a block takes up follows from the number of its commands and of the bytes that spell
them: there is a header for every eight commands, and there are the fields around them, which take
four bytes more when the last packet is not full.

* `Token.span`               how many bytes of the data a command stands for;
* `spans_tokenize`           the spans of the commands add up to the data;
* `length_wholePackets`      headers and spelled commands, in the body;
* `blockSize`, `Writable`    the size of a block, and whether its 16-bit fields can hold what they
                             have to;
* `exists_encode`, `length_of_encode`   a layout is refused for these fields only;
* `compress_capacity`        **what always fits, and how much larger than the data a block is**;
* `compress_least`           **the block is a smallest one, and there is none unless both layouts
                             fit**;
* `writable_run`, `compress_run`   long runs of one byte, which fit in the narrow layout only.
-/

namespace Cartridge.Block

/-! ## what commands stand for -/

def Token.span : Token → Nat
  | .literal _ => 1
  | .copy _ length => length

def spans : List Token → Nat
  | [] => 0
  | t :: ts => t.span + spans ts

theorem spans_cons (t : Token) (ts : List Token) : spans (t :: ts) = t.span + spans ts := rfl

theorem size_copyBack (out : Array UInt8) (distance n : Nat) :
    (copyBack out distance n).size = out.size + n := by
  induction n generalizing out with
  | zero => rfl
  | succ n ih =>
    rw [copyBack_succ, ih, Array.size_push]
    omega

/-- the output grows by what the commands stand for -/
theorem size_expand {ts : List Token} {out out' : Array UInt8} (h : expand out ts = .ok out') :
    out'.size = out.size + spans ts := by
  induction ts generalizing out with
  | nil =>
    cases h
    rfl
  | cons t ts ih =>
    rw [spans_cons]
    cases t with
    | literal b =>
      rw [expand_literal] at h
      rw [ih h, Array.size_push]
      show out.size + 1 + spans ts = out.size + (1 + spans ts)
      omega
    | copy distance length =>
      rw [expand] at h
      rw [ih (unless_eq_ok.mp h).2, size_copyBack]
      show out.size + length + spans ts = out.size + (length + spans ts)
      omega

/-- **The commands of the data stand for the data**, byte for byte. -/
theorem spans_tokenize (w : Window) (data : Bytes) : spans (tokenize w data) = data.length := by
  obtain ⟨_, out, hout, hexpand⟩ := expand_tokenize w data
  have hsize := size_expand hexpand
  rw [← Array.length_toList, hout] at hsize
  have hzero : (#[] : Array UInt8).size = 0 := rfl
  omega

/-! ## what spells them -/

/-- a copy is spelled in two bytes and stands for three at least -/
theorem Token.Fits.length_bytes {w : Window} {t : Token} (h : t.Fits w) :
    1 ≤ (t.bytes w).length ∧ (t.bytes w).length ≤ t.span := by
  cases t with
  | literal b => exact ⟨Nat.le_refl 1, Nat.le_refl 1⟩
  | copy distance length =>
    have hmin : 3 ≤ length := h.2.1
    show 1 ≤ 2 ∧ 2 ≤ length
    omega

theorem length_spelled_cons (w : Window) (t : Token) (ts : List Token) :
    (spelled w (t :: ts)).length = (t.bytes w).length + (spelled w ts).length := by
  rw [spelled_cons, List.length_append]

/-- at least a byte for every command, and no more than it stands for -/
theorem length_spelled {w : Window} {ts : List Token} (hfits : ∀ t ∈ ts, t.Fits w) :
    ts.length ≤ (spelled w ts).length ∧ (spelled w ts).length ≤ spans ts := by
  induction ts with
  | nil => exact ⟨Nat.le_refl 0, Nat.le_refl 0⟩
  | cons t ts ih =>
    obtain ⟨hfirst, hrest⟩ := List.forall_mem_cons.mp hfits
    have hbytes := hfirst.length_bytes
    have hih := ih hrest
    rw [length_spelled_cons, spans_cons, List.length_cons]
    omega

/-- the data spelled in commands -/
theorem length_spelled_tokenize (w : Window) (data : Bytes) :
    (tokenize w data).length ≤ (spelled w (tokenize w data)).length ∧
      (spelled w (tokenize w data)).length ≤ data.length := by
  have hspelled := length_spelled (expand_tokenize w data).1
  rw [spans_tokenize] at hspelled
  exact hspelled

theorem spelled_append (w : Window) (ts us : List Token) :
    spelled w (ts ++ us) = spelled w ts ++ spelled w us := List.flatMap_append

/-! ## packets -/

theorem length_packet (w : Window) (ts : List Token) :
    (packet w ts).length = (spelled w ts).length + 1 := by
  rw [packet_eq, List.length_cons]

/-- the commands in front of the leftover ones come eight at a time -/
theorem length_leftover_eq (ts : List Token) : (leftover ts).length = ts.length % 8 := by
  fun_induction leftover ts with
  | case1 a b c d e f g h ts ih =>
    rw [ih]
    simp only [List.length_cons]
    omega
  | case2 ts hshort =>
    have hlt := length_leftover ts
    rw [leftover.eq_2 ts hshort] at hlt
    exact (Nat.mod_eq_of_lt hlt).symm

/-- **A header for every eight commands**: the whole packets hold them, and what spells the commands
but for the leftover ones. -/
theorem length_wholePackets (w : Window) (ts : List Token) :
    (wholePackets w ts).length + (spelled w (leftover ts)).length =
      (spelled w ts).length + ts.length / 8 := by
  fun_induction leftover ts with
  | case1 a b c d e f g h ts ih =>
    have hsplit : spelled w (a :: b :: c :: d :: e :: f :: g :: h :: ts) =
        spelled w [a, b, c, d, e, f, g, h] ++ spelled w ts :=
      spelled_append w [a, b, c, d, e, f, g, h] ts
    rw [wholePackets, hsplit, List.length_append, List.length_append, length_packet]
    simp only [List.length_cons]
    omega
  | case2 ts hshort =>
    have hlt := length_leftover ts
    rw [leftover.eq_2 ts hshort] at hlt
    rw [wholePackets.eq_2 w ts hshort, Nat.div_eq_of_lt hlt]
    exact Nat.add_comm ..

/-! ## blocks -/

/-- how many bytes the block of the data has in a layout, if there is one -/
def blockSize (w : Window) (data : Bytes) : Nat :=
  let ts := tokenize w data
  (spelled w ts).length + ts.length / 8 + if ts.length % 8 = 0 then 3 else 7

/-- the length of the body, or the place of the last control byte, has no more than 16 bits -/
def Writable (w : Window) (data : Bytes) : Prop :=
  blockSize w data ≤ maxField + if (tokenize w data).length % 8 = 0 then 3 else 1

instance (w : Window) (data : Bytes) : Decidable (Writable w data) :=
  inferInstanceAs (Decidable (_ ≤ _))

section
variable {w : Window} {data block : Bytes}

theorem length_of_laid (h : Laid w (tokenize w data) block) : block.length = blockSize w data := by
  have hbody := length_wholePackets w (tokenize w data)
  have hmod := length_leftover_eq (tokenize w data)
  unfold blockSize
  cases h with
  | whole _ hrest =>
    rw [hrest, List.length_nil] at hmod
    rw [hrest] at hbody
    have hnone : (spelled w []).length = 0 := rfl
    simp only [List.length_append, Bytes.length_field, List.length_singleton]
    rw [if_pos hmod.symm]
    omega
  | addendum _ hrest stop hstop _ =>
    have hpos := List.length_pos_of_ne_nil hrest
    have hlast := length_packet w (leftover (tokenize w data))
    have hmore : ¬ (tokenize w data).length % 8 = 0 := by omega
    simp only [List.length_append, List.length_cons, Bytes.length_field, List.length_nil]
    rw [if_neg hmore]
    omega

/-- the size of a block is known from the commands -/
theorem length_of_encode (h : encode w data = .ok block) : block.length = blockSize w data :=
  length_of_laid (laid_of_encode h)

/-- **A layout is refused only where a field of the block would need more than 16 bits.** -/
theorem exists_encode : (∃ block, encode w data = .ok block) ↔ Writable w data := by
  have hbody := length_wholePackets w (tokenize w data)
  have hmod := length_leftover_eq (tokenize w data)
  have hlast := length_packet w (leftover (tokenize w data))
  unfold Writable blockSize encode
  simp only [unless_eq_ok, exists_and_left]
  by_cases hrest : leftover (tokenize w data) = []
  · rw [hrest, List.length_nil] at hmod
    rw [hrest] at hbody
    have hnone : (spelled w []).length = 0 := rfl
    simp only [hrest, List.isEmpty_nil, if_true, Except.ok.injEq, exists_eq', and_true,
      hmod.symm]
    omega
  · have hpos := List.length_pos_of_ne_nil hrest
    have hmore : ¬ (tokenize w data).length % 8 = 0 := by omega
    have hsome : ¬ (leftover (tokenize w data)).isEmpty = true := by
      rw [List.isEmpty_iff]
      exact hrest
    simp only [hsome, Bool.false_eq_true, if_false, unless_eq_ok, exists_and_left, Except.ok.injEq,
      exists_eq', and_true, hmore]
    omega

/-! ## the bounds -/

/-- literals alone make the largest block -/
theorem blockSize_le (w : Window) (data : Bytes) :
    blockSize w data ≤ data.length + data.length / 8 + 7 := by
  obtain ⟨hcount, hspelled⟩ := length_spelled_tokenize w data
  unfold blockSize
  simp only
  split
  · omega
  · omega

/-- without a packet that is not full, the block is four bytes shorter -/
theorem writable_of_length (h : data.length ≤ 58248) : Writable w data := by
  obtain ⟨hcount, hspelled⟩ := length_spelled_tokenize w data
  unfold Writable blockSize maxField
  simp only
  split
  · omega
  · omega

/-- a reference word stands for no more bytes than its length bits can say -/
theorem span_le_maxLength {w : Window} {t : Token} (h : t.Fits w) :
    2 * t.span ≤ w.maxLength * (t.bytes w).length := by
  cases t with
  | literal b =>
    show 2 * 1 ≤ w.maxLength * 1
    cases w <;> decide
  | copy distance length =>
    show 2 * length ≤ w.maxLength * 2
    have hmax : length ≤ w.maxLength := h.2.2
    omega

theorem spans_le_maxLength {ts : List Token} (hfits : ∀ t ∈ ts, t.Fits w) :
    2 * spans ts ≤ w.maxLength * (spelled w ts).length := by
  induction ts with
  | nil => exact Nat.le_refl 0
  | cons t ts ih =>
    obtain ⟨hfirst, hrest⟩ := List.forall_mem_cons.mp hfits
    have hspan := span_le_maxLength hfirst
    have hih := ih hrest
    rw [spans_cons, length_spelled_cons, Nat.mul_add, Nat.mul_add]
    omega

/-- a layout has room for so much data, even where it is all alike -/
theorem length_le_of_writable (h : Writable w data) : 2 * data.length ≤ w.maxLength * maxField := by
  have hspans := spans_le_maxLength (expand_tokenize w data).1
  rw [spans_tokenize] at hspans
  refine Nat.le_trans hspans (Nat.mul_le_mul_left _ ?_)
  unfold Writable blockSize at h
  simp only at h
  split at h
  · omega
  · omega

/-! ## compression -/

theorem compress_eq_ok : compress data = .ok block ↔ ∃ wide narrow, encode .wide data = .ok wide ∧
    encode .narrow data = .ok narrow ∧
    (if narrow.length < wide.length then narrow else wide) = block := by
  unfold compress
  simp only [bind_eq_ok]
  constructor
  · rintro ⟨wide, hwide, narrow, hnarrow, h⟩
    exact ⟨wide, narrow, hwide, hnarrow, Except.ok.inj h⟩
  · rintro ⟨wide, narrow, hwide, hnarrow, h⟩
    exact ⟨wide, hwide, narrow, hnarrow, congrArg Except.ok h⟩

/-- the layouts are written one after the other, and either may be refused -/
theorem exists_compress : (∃ block, compress data = .ok block) ↔ ∀ w, Writable w data := by
  simp only [compress_eq_ok]
  constructor
  · rintro ⟨_, wide, narrow, hwide, hnarrow, _⟩ w
    cases w with
    | wide => exact exists_encode.mp ⟨wide, hwide⟩
    | narrow => exact exists_encode.mp ⟨narrow, hnarrow⟩
  · intro h
    obtain ⟨wide, hwide⟩ := exists_encode.mpr (h .wide)
    obtain ⟨narrow, hnarrow⟩ := exists_encode.mpr (h .narrow)
    exact ⟨_, wide, narrow, hwide, hnarrow, rfl⟩

/-- the wide layout is tried first -/
theorem compress_eq_error {e : Error} : compress data = .error e ↔
    encode .wide data = .error e ∨ Writable .wide data ∧ encode .narrow data = .error e := by
  unfold compress
  rw [bind_eq_error, ← exists_encode]
  refine or_congr_right ⟨?_, ?_⟩
  · rintro ⟨wide, hwide, h⟩
    refine ⟨⟨wide, hwide⟩, (bind_eq_error.mp h).resolve_right ?_⟩
    rintro ⟨narrow, _, h⟩
    cases h
  · rintro ⟨⟨wide, hwide⟩, hnarrow⟩
    exact ⟨wide, hwide, bind_eq_error.mpr (.inl hnarrow)⟩

/-- the layout of a block, which is wide where both are equally long -/
theorem least_of_compress (h : compress data = .ok block) : ∃ w, encode w data = .ok block ∧
    (∀ w', blockSize w data ≤ blockSize w' data) ∧
    (w = .narrow → blockSize .narrow data < blockSize .wide data) := by
  obtain ⟨wide, narrow, hwide, hnarrow, rfl⟩ := compress_eq_ok.mp h
  have hwideSize := length_of_encode hwide
  have hnarrowSize := length_of_encode hnarrow
  by_cases hshorter : narrow.length < wide.length
  · rw [if_pos hshorter]
    refine ⟨.narrow, hnarrow, fun w' => ?_, fun _ => by omega⟩
    cases w' with
    | wide => omega
    | narrow => omega
  · rw [if_neg hshorter]
    refine ⟨.wide, hwide, fun w' => ?_, nofun⟩
    cases w' with
    | wide => omega
    | narrow => omega

end

/-- **What always fits, and what a block can take up**: all data of 58248 bytes is compressed, and a
block has one byte more for every eight of the data, and seven around them, at most. -/
theorem compress_capacity (data : Bytes) :
    (data.length ≤ 58248 → ∃ block, compress data = .ok block) ∧
      ∀ block, compress data = .ok block →
        block.length ≤ data.length + data.length / 8 + 7 := by
  refine ⟨fun h => exists_compress.mpr fun w => writable_of_length h, fun block h => ?_⟩
  obtain ⟨w, hencode⟩ := encode_of_compress h
  rw [length_of_encode hencode]
  exact blockSize_le w data

/-- all seven are needed for a single byte -/
example : compress [5] = .ok [0, 0, 1, 7, 0, 0, 5, 0] := toOption_eq_some.mp (by decide +kernel)

/-- **A block is a smallest one**, the wide one where both are equally long.  There is one just when
the data fits in both layouts; else the cause is that of the first layout that is refused. -/
theorem compress_least (data : Bytes) :
    ((∃ block, compress data = .ok block) ↔ ∀ w, ∃ block, encode w data = .ok block) ∧
    (∀ w, (∃ block, encode w data = .ok block) ↔ Writable w data) ∧
    (∀ block, compress data = .ok block → ∃ w, encode w data = .ok block ∧
      (∀ w' block', encode w' data = .ok block' → block.length ≤ block'.length) ∧
      (w = .narrow → blockSize .narrow data < blockSize .wide data)) ∧
    ∀ e, compress data = .error e ↔
      encode .wide data = .error e ∨ Writable .wide data ∧ encode .narrow data = .error e := by
  refine ⟨?_, fun w => exists_encode, fun block h => ?_, fun e => compress_eq_error⟩
  · rw [exists_compress]
    exact forall_congr' fun w => exists_encode.symm
  · obtain ⟨w, hencode, hleast, hnarrow⟩ := least_of_compress h
    refine ⟨w, hencode, fun w' block' h' => ?_, hnarrow⟩
    rw [length_of_encode hencode, length_of_encode h']
    exact hleast w'

/-! ## runs of one byte -/

section
variable {b : UInt8}

theorem commonRun_replicate (limit m n : Nat) :
    commonRun limit (List.replicate m b) (List.replicate n b) = min limit (min m n) := by
  induction limit generalizing m n with
  | zero =>
    rw [Nat.zero_min]
    rfl
  | succ limit ih =>
    cases m with
    | zero =>
      rw [Nat.zero_min, Nat.min_zero]
      rfl
    | succ m =>
      cases n with
      | zero =>
        rw [Nat.min_zero, Nat.min_zero]
        rfl
      | succ n =>
        rw [List.replicate_succ, List.replicate_succ, commonRun, if_pos rfl, ih]
        omega

/-- all that is left of a run goes on from a place inside it -/
theorem commonRun_run (limit d r : Nat) :
    commonRun limit (List.replicate (d + r) b) (List.replicate r b) = min limit r := by
  rw [commonRun_replicate]
  omega

theorem tail_run (d r : Nat) :
    (List.replicate (d + 1 + r) b).tail = List.replicate (d + r) b := by
  rw [List.tail_replicate]
  congr 1
  omega

/-- no distance is better than another -/
theorem search_replicate {limit r : Nat} (d distance : Nat) {length : Nat}
    (h : min limit r ≤ length) :
    search limit (List.replicate r b) d (List.replicate (d + r) b) distance length =
      (distance, length) := by
  induction d with
  | zero => rfl
  | succ d ih =>
    have hnot : ¬ length < min limit r := Nat.not_lt_of_le h
    rw [search]
    simp only [commonRun_run, hnot, if_false, tail_run]
    exact ih

/-- inside a run the match is the furthest and longest that there can be -/
theorem nextToken_replicate (w : Window) {d r : Nat} (hd : 0 < d) (hr : minMatch ≤ r) :
    nextToken w d (List.replicate (d + r) b) (List.replicate r b) b =
      (.copy d (min w.maxLength r), min w.maxLength r) := by
  cases d with
  | zero => exact absurd hd (Nat.lt_irrefl 0)
  | succ d =>
    have hmax : minMatch ≤ w.maxLength := by cases w <;> decide
    have hpos : 0 < minMatch := by decide
    have hlong : minMatch - 1 < min w.maxLength r := by omega
    have hbest : search w.maxLength (List.replicate r b) (d + 1)
        (List.replicate (d + 1 + r) b) 0 (minMatch - 1) = (d + 1, min w.maxLength r) := by
      rw [search]
      simp only [commonRun_run, hlong, if_true, tail_run]
      split
      · rfl
      · exact search_replicate _ _ (Nat.le_refl _)
    have hmin : ¬ min w.maxLength r < minMatch := by omega
    unfold nextToken longestMatch
    simp only [hbest, hmin, if_false]

/-- fewer than three bytes are literals -/
theorem nextToken_short (w : Window) (d : Nat) (source rest : Bytes) (h : rest.length < minMatch) :
    nextToken w d source rest b = (.literal b, 1) := by
  cases hmatch : longestMatch w d source rest with
  | none =>
    unfold nextToken
    rw [hmatch]
  | some found =>
    obtain ⟨_, _, hmin, hrun⟩ := longestMatch_eq_some hmatch
    have hle := commonRun_le_length w.maxLength (source.drop (d - found.1)) rest
    omega

/-- what a command leaves of a run begins inside the window again -/
theorem tokenizeFrom_run {w : Window} {d r n : Nat} {t : Token} (done : List Token) (hpos : 0 < n)
    (hle : n ≤ r)
    (hnext : nextToken w d (List.replicate (d + r) b) (List.replicate r b) b = (t, n)) :
    let d' := min (d + n) w.maxDistance
    tokenizeFrom w d (List.replicate (d + r) b) (List.replicate r b) done =
      tokenizeFrom w d' (List.replicate (d' + (r - n)) b) (List.replicate (r - n) b)
        (t :: done) := by
  intro d'
  cases r with
  | zero => omega
  | succ r =>
    have hbehind : d + 1 + (n - 1) = d + n := by omega
    have hrest : (List.replicate r b).drop (n - 1) = List.replicate (r + 1 - n) b := by
      rw [List.drop_replicate]
      congr 1
      omega
    have hsource : (List.replicate (d + (r + 1)) b).drop (d + n - d') =
        List.replicate (d' + (r + 1 - n)) b := by
      rw [List.drop_replicate]
      congr 1
      omega
    rw [List.replicate_succ] at hnext ⊢
    rw [tokenizeFrom, hnext]
    simp only [hbehind, hrest]
    show tokenizeFrom w d' ((List.replicate (d + (r + 1)) b).drop (d + n - d')) _ _ = _
    rw [hsource]

/-- the narrow layout needs two bytes for 34 of a run, and one for each that is left over -/
theorem tokenizeFrom_replicate (d r : Nat) (done : List Token) (hd : 0 < d) :
    ∃ ts, tokenizeFrom .narrow d (List.replicate (d + r) b) (List.replicate r b) done =
        done.reverse ++ ts ∧ ts.length ≤ r / 34 + min 2 (r % 34) ∧
      (spelled .narrow ts).length ≤ 2 * (r / 34) + min 2 (r % 34) := by
  induction r using Nat.strongRecOn generalizing d done with
  | ind r ih =>
    have hwindow : 0 < Window.maxDistance .narrow := by decide
    by_cases hlong : 3 ≤ r
    · have hnext := nextToken_replicate (b := b) .narrow hd hlong
      have hmax : Window.maxLength .narrow = 34 := rfl
      rw [hmax] at hnext
      obtain ⟨ts, hts, hcount, hbytes⟩ := ih (r - min 34 r) (by omega)
        (min (d + min 34 r) (Window.maxDistance .narrow)) (.copy d (min 34 r) :: done) (by omega)
      refine ⟨.copy d (min 34 r) :: ts, ?_, ?_, ?_⟩
      · rw [tokenizeFrom_run done (by omega) (Nat.min_le_right ..) hnext, hts, List.reverse_cons,
          List.append_assoc, List.singleton_append]
      · rw [List.length_cons]
        omega
      · rw [length_spelled_cons]
        show 2 + _ ≤ _
        omega
    · cases r with
      | zero =>
        refine ⟨[], ?_, Nat.zero_le _, Nat.zero_le _⟩
        rw [List.replicate_zero, tokenizeFrom, List.append_nil]
      | succ r =>
        have hshort : (List.replicate (r + 1) b).length < minMatch := by
          rw [List.length_replicate]
          exact Nat.lt_of_not_le hlong
        have hnext := nextToken_short (b := b) .narrow d (List.replicate (d + (r + 1)) b) _ hshort
        obtain ⟨ts, hts, hcount, hbytes⟩ := ih (r + 1 - 1) (by omega)
          (min (d + 1) (Window.maxDistance .narrow)) (.literal b :: done) (by omega)
        refine ⟨.literal b :: ts, ?_, ?_, ?_⟩
        · rw [tokenizeFrom_run done Nat.one_pos (by omega) hnext, hts, List.reverse_cons,
            List.append_assoc, List.singleton_append]
        · rw [List.length_cons]
          omega
        · rw [length_spelled_cons]
          show 1 + _ ≤ _
          omega

/-- **A run of a million bytes fits in the narrow layout.** -/
theorem writable_run {n : Nat} (h : n ≤ 1000000) : Writable .narrow (List.replicate n b) := by
  cases n with
  | zero => exact writable_of_length (Nat.zero_le _)
  | succ n =>
    have hnext : nextToken .narrow 0 (b :: List.replicate n b) (b :: List.replicate n b) b =
        (.literal b, 1) := rfl
    obtain ⟨ts, hts, hcount, hbytes⟩ :=
      tokenizeFrom_replicate (b := b) 1 n [.literal b] Nat.one_pos
    have htokens : tokenize .narrow (List.replicate (n + 1) b) = .literal b :: ts := by
      rw [Nat.add_comm 1 n] at hts
      rw [tokenize, List.replicate_succ, tokenizeFrom, hnext]
      exact hts
    have hspelled : (spelled .narrow (.literal b :: ts)).length = 1 + (spelled .narrow ts).length :=
      length_spelled_cons ..
    have hlength : (Token.literal b :: ts).length = ts.length + 1 := List.length_cons
    unfold Writable blockSize maxField
    simp only [htokens, hspelled, hlength]
    split
    · omega
    · omega

/-- **A longer run than the wide layout has room for is not compressed**, though the narrow layout
has room for it. -/
theorem compress_run {n : Nat} (hlow : 589815 < n) (hhigh : n ≤ 1000000) :
    (∃ block, encode .narrow (List.replicate n b) = .ok block) ∧
      ∃ e, compress (List.replicate n b) = .error e := by
  refine ⟨exists_encode.mpr (writable_run hhigh), ?_⟩
  cases h : compress (List.replicate n b) with
  | error e => exact ⟨e, rfl⟩
  | ok block =>
    have hwide := length_le_of_writable (exists_compress.mp ⟨block, h⟩ .wide)
    rw [List.length_replicate] at hwide
    have hroom : Window.maxLength .wide * maxField = 1179630 := rfl
    omega

end

end Cartridge.Block
