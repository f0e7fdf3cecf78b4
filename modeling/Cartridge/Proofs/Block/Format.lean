import Cartridge.Proofs.Block.Extent

/-!
# The form of a block

A block of commands is described here part by part, without the decoder; the decoder gives an output
just when the bytes are such a block and the commands of the block expand to that output.

* `Block.Spells`, `Block.Spelled`   the bytes of a command, and of several;
* `Block.Packet`, `Block.Packets`   commands behind a header byte, and packets of eight commands;
* `Block.Closing`            a control byte, and the addenda behind it;
* `Block.Form`               a whole block;
* `Block.CopiedBack`, `Block.Expands`   what commands append to an output;
* `Block.readTokens_eq_none`, `Block.allTokens_addenda`, `Block.contents_eq_none`   the reader, part
                             by part;
* `Block.expand_eq_ok`       expansion;
* `Block.decompress_eq_ok`   **the decoder accepts the blocks, and no other bytes.**
-/

namespace Cartridge.Block

/-! ## the form of a block -/

/-- a literal is its byte; a copy is a word with the distance in the low bits and the length less
three above them -/
inductive Spells (w : Window) : Token → Bytes → Prop
  | literal (b : UInt8) : Spells w (.literal b) [b]
  | copy {distance extra : Nat} {lo hi : UInt8} (hreach : distance < w.reach)
    (hword : Bytes.value [lo, hi] = distance + w.reach * extra) :
    Spells w (.copy distance (extra + minMatch)) [lo, hi]

inductive Spelled (w : Window) : List Token → Bytes → Prop
  | nil : Spelled w [] []
  | cons {t : Token} {ts : List Token} {a b : Bytes} (hfirst : Spells w t a)
    (hrest : Spelled w ts b) : Spelled w (t :: ts) (a ++ b)

/-- one bit for each command, the lowest first, set for a copy; the bits above them say nothing -/
def Marks (header : Nat) (ts : List Token) : Prop :=
  ∀ i t, ts[i]? = some t → header.testBit i = t.isCopy

/-- a header byte, and the commands that it marks -/
inductive Packet (w : Window) (ts : List Token) : Bytes → Prop
  | mk {header : UInt8} {spelled : Bytes} (hmarks : Marks header.toNat ts)
    (hspelled : Spelled w ts spelled) : Packet w ts (header :: spelled)

/-- packets of eight commands -/
inductive Packets (w : Window) : List Token → Bytes → Prop
  | nil : Packets w [] []
  | cons {ts us : List Token} {a b : Bytes} (hwhole : ts.length = 8) (hfirst : Packet w ts a)
    (hrest : Packets w us b) : Packets w (ts ++ us) (a ++ b)

/-- the bytes from a control byte on, which stands `pos` bytes behind the start of the block: it is
the last, or it counts the commands of a packet, and a word behind it says where the next one is -/
inductive Closing (w : Window) : Nat → List Token → Bytes → Prop
  | last {pos : Nat} {control : UInt8} (hcount : control.toNat % 64 = 0) :
    Closing w pos [] [control]
  | addendum {pos : Nat} {control lo hi : UInt8} {ts us vs : List Token} {a b rest : Bytes}
    (hcount : control.toNat % 64 = ts.length) (hsome : 1 ≤ ts.length ∧ ts.length ≤ 8)
    (hfirst : Packet w ts a) (hwhole : Packets w us b)
    (hnext : Bytes.value [lo, hi] = pos + 3 + (a ++ b).length)
    (hrest : Closing w (Bytes.value [lo, hi]) vs rest) :
    Closing w pos (ts ++ us ++ vs) (control :: lo :: hi :: (a ++ b ++ rest))

/-- a 16-bit length, the body of that length, and a control byte with what follows; a high bit of
the first control byte selects the narrow layout -/
inductive Form (w : Window) : List Token → Bytes → Prop
  | mk {lo hi control : UInt8} {us vs : List Token} {body rest : Bytes}
    (hlength : Bytes.value [lo, hi] = body.length) (hbody : Packets w us body)
    (hlayout : w = .narrow ↔ control &&& 0xC0 ≠ 0)
    (hclosing : Closing w (2 + body.length) vs (control :: rest)) :
    Form w (us ++ vs) (lo :: hi :: (body ++ control :: rest))

/-! ## expansion -/

/-- `n` more bytes, each of which is the one `distance` bytes before it -/
structure CopiedBack (distance n : Nat) (out out' : Bytes) : Prop where
  length : out'.length = out.length + n
  kept : out <+: out'
  copied : ∀ i < n, out'[out.length + i]? = out'[out.length + i - distance]?

inductive Expands : Bytes → List Token → Bytes → Prop
  | nil (out : Bytes) : Expands out [] out
  | literal {out out' : Bytes} {b : UInt8} {ts : List Token}
    (hrest : Expands (out ++ [b]) ts out') : Expands out (.literal b :: ts) out'
  | copy {out more out' : Bytes} {distance length : Nat} {ts : List Token}
    (hdistance : 1 ≤ distance ∧ distance ≤ out.length) (hcopy : CopiedBack distance length out more)
    (hrest : Expands more ts out') : Expands out (.copy distance length :: ts) out'

/-! ## commands -/

theorem spells_literal {w : Window} {b : UInt8} {bytes : Bytes} :
    Spells w (.literal b) bytes ↔ bytes = [b] := by
  constructor
  · intro h
    cases h
    rfl
  · rintro rfl
    exact .literal b

theorem spells_copy {w : Window} {distance length : Nat} {bytes : Bytes} :
    Spells w (.copy distance length) bytes ↔
      ∃ lo hi, bytes = [lo, hi] ∧ w.unpack (Bytes.value [lo, hi]) = (distance, length) := by
  have hpos : 0 < w.reach := Nat.lt_of_le_of_lt (Nat.zero_le _) w.maxDistance_lt_reach
  constructor
  · intro h
    cases h with
    | @copy _ extra lo hi hreach hword =>
      refine ⟨lo, hi, rfl, ?_⟩
      rw [Window.unpack, hword, Nat.add_mul_mod_self_left, Nat.mod_eq_of_lt hreach,
        Nat.add_mul_div_left _ _ hpos, Nat.div_eq_of_lt hreach, Nat.zero_add]
  · rintro ⟨lo, hi, rfl, hword⟩
    cases hword
    exact .copy (Nat.mod_lt _ hpos) (Nat.mod_add_div _ _).symm

theorem marks_cons {header : Nat} {t : Token} {ts : List Token} :
    Marks header (t :: ts) ↔ decide (header % 2 = 1) = t.isCopy ∧ Marks (header / 2) ts := by
  constructor
  · intro h
    refine ⟨?_, fun i u hu => ?_⟩
    · rw [← Nat.testBit_zero]
      exact h 0 t rfl
    · rw [← Nat.testBit_succ]
      exact h (i + 1) u hu
  · rintro ⟨hfirst, hrest⟩ i u hu
    cases i with
    | zero =>
      cases hu
      rw [Nat.testBit_zero]
      exact hfirst
    | succ i =>
      rw [Nat.testBit_succ]
      exact hrest i u hu

theorem marks_nil (header : Nat) : Marks header [] := by
  intro i t h
  cases h

/-! ## packets -/

/-- `left` commands that `header` marks, and whole packets behind them -/
def Under (w : Window) (header left : Nat) (ts : List Token) (bytes : Bytes) : Prop :=
  ∃ us vs a b, ts = us ++ vs ∧ bytes = a ++ b ∧ us.length = left ∧ Marks header us ∧
    Spelled w us a ∧ Packets w vs b

section
variable {w : Window} {header left : Nat} {ts : List Token} {bytes : Bytes}

theorem packets_nil : Packets w ts [] ↔ ts = [] := by
  constructor
  · intro h
    generalize hbytes : ([] : Bytes) = bytes at h
    cases h with
    | nil => rfl
    | cons hwhole hfirst hrest =>
      cases hfirst
      cases hbytes
  · rintro rfl
    exact .nil

/-- the next packet begins with its header -/
theorem packets_cons {b : UInt8} :
    Packets w ts (b :: bytes) ↔ Under w b.toNat 8 ts bytes := by
  constructor
  · intro h
    generalize hbytes : b :: bytes = all at h
    cases h with
    | nil => cases hbytes
    | cons hwhole hfirst hrest =>
      obtain ⟨hmarks, hspelled⟩ := hfirst
      cases hbytes
      exact ⟨_, _, _, _, rfl, rfl, hwhole, hmarks, hspelled, hrest⟩
  · rintro ⟨us, vs, a, c, rfl, rfl, hwhole, hmarks, hspelled, hrest⟩
    exact .cons hwhole (.mk hmarks hspelled) hrest

theorem under_zero : Under w header 0 ts bytes ↔ Packets w ts bytes := by
  constructor
  · rintro ⟨us, vs, a, b, rfl, rfl, hnone, _, hspelled, hrest⟩
    obtain rfl := List.eq_nil_of_length_eq_zero hnone
    cases hspelled
    exact hrest
  · intro h
    exact ⟨[], ts, [], bytes, rfl, rfl, rfl, marks_nil header, .nil, h⟩

theorem under_succ : Under w header (left + 1) ts bytes ↔
    ∃ t us a b, ts = t :: us ∧ bytes = a ++ b ∧ decide (header % 2 = 1) = t.isCopy ∧
      Spells w t a ∧ Under w (header / 2) left us b := by
  constructor
  · rintro ⟨us, vs, a, b, rfl, rfl, hleft, hmarks, hspelled, hrest⟩
    cases hspelled with
    | nil => cases hleft
    | @cons t us a c hfirst hspelled =>
      obtain ⟨hbit, hmarks⟩ := marks_cons.mp hmarks
      refine ⟨t, us ++ vs, a, c ++ b, rfl, List.append_assoc .., hbit, hfirst, ?_⟩
      exact ⟨us, vs, c, b, rfl, rfl, Nat.succ.inj hleft, hmarks, hspelled, hrest⟩
  · rintro ⟨t, _, a, _, rfl, rfl, hbit, hfirst, us, vs, c, b, rfl, rfl, rfl, hmarks, hspelled,
      hrest⟩
    exact ⟨t :: us, vs, a ++ c, b, rfl, (List.append_assoc ..).symm, rfl,
      marks_cons.mpr ⟨hbit, hmarks⟩, .cons hfirst hspelled, hrest⟩

/-- a clear bit stands for a literal -/
theorem under_literal (h : header % 2 = 0) : Under w header (left + 1) ts bytes ↔
    ∃ b rest us, bytes = b :: rest ∧ ts = .literal b :: us ∧ Under w (header / 2) left us rest := by
  have hbit : decide (header % 2 = 1) = false := by simp [h]
  rw [under_succ, hbit]
  constructor
  · rintro ⟨t, us, a, rest, rfl, rfl, hcopy, hspells, hrest⟩
    cases t with
    | literal b =>
      obtain rfl := spells_literal.mp hspells
      exact ⟨b, rest, us, rfl, rfl, hrest⟩
    | copy distance length => cases hcopy
  · rintro ⟨b, rest, us, rfl, rfl, hrest⟩
    exact ⟨.literal b, us, [b], rest, rfl, rfl, rfl, .literal b, hrest⟩

/-- a set bit stands for a copy -/
theorem under_copy (h : header % 2 = 1) : Under w header (left + 1) ts bytes ↔
    ∃ lo hi rest us, bytes = lo :: hi :: rest ∧
      ts = .copy (w.unpack (Bytes.value [lo, hi])).1 (w.unpack (Bytes.value [lo, hi])).2 :: us ∧
      Under w (header / 2) left us rest := by
  have hbit : decide (header % 2 = 1) = true := decide_eq_true h
  rw [under_succ, hbit]
  constructor
  · rintro ⟨t, us, a, rest, rfl, rfl, hcopy, hspells, hrest⟩
    cases t with
    | literal b => cases hcopy
    | copy distance length =>
      obtain ⟨lo, hi, rfl, hword⟩ := spells_copy.mp hspells
      exact ⟨lo, hi, rest, us, rfl, by rw [hword], hrest⟩
  · rintro ⟨lo, hi, rest, us, rfl, rfl, hrest⟩
    exact ⟨_, us, [lo, hi], rest, rfl, rfl, rfl, spells_copy.mpr ⟨lo, hi, rfl, rfl⟩, hrest⟩

end

/-- the reader finds the commands that are there, and no fault -/
theorem readTokens_eq_none {w : Window} {pos header left : Nat} {bytes : Bytes}
    {done tokens : List Token} : readTokens w pos header left bytes done = (tokens, none) ↔
      ∃ ts, tokens = done.reverse ++ ts ∧ Under w header left ts bytes := by
  fun_induction readTokens w pos header left bytes done with
  | case1 pos header done =>
    simp only [under_zero, packets_nil, exists_eq_right, List.append_nil, Prod.mk.injEq, and_true]
    exact eq_comm
  | case2 pos header b rest done ih =>
    simp only [ih, under_zero, packets_cons]
  | case3 pos header left done heven b rest ih =>
    rw [ih]
    simp only [under_literal heven]
    constructor
    · rintro ⟨ts, rfl, h⟩
      exact ⟨.literal b :: ts, by simp, b, rest, ts, rfl, rfl, h⟩
    · rintro ⟨ts, rfl, _, _, us, hbytes, rfl, h⟩
      cases hbytes
      exact ⟨us, by simp, h⟩
  | case4 pos header left done heven =>
    simp only [under_literal heven]
    constructor
    · intro h
      cases h
    · rintro ⟨_, _, _, _, _, hbytes, _⟩
      cases hbytes
  | case5 pos header left done hodd lo hi rest distance length hword ih =>
    rw [ih]
    simp only [under_copy (Nat.mod_two_ne_zero.mp hodd)]
    constructor
    · rintro ⟨ts, rfl, h⟩
      exact ⟨.copy distance length :: ts, by simp, lo, hi, rest, ts, rfl, by rw [hword], h⟩
    · rintro ⟨ts, rfl, _, _, _, us, hbytes, rfl, h⟩
      cases hbytes
      exact ⟨us, by simp [hword], h⟩
  | case6 pos header left bytes done hodd hshort =>
    simp only [under_copy (Nat.mod_two_ne_zero.mp hodd)]
    constructor
    · intro h
      cases h
    · rintro ⟨_, _, lo, hi, rest, _, hbytes, _⟩
      exact (hshort lo hi rest hbytes).elim

/-! ## stretches -/

theorem tokens_eq_none {w : Window} {pos commands : Nat} {header : UInt8} {rest : Bytes}
    {ts : List Token} : Stretch.tokens w ⟨pos, commands, header :: rest⟩ = (ts, none) ↔
      Under w header.toNat commands ts rest := by
  show readTokens w (pos + 1) header.toNat commands rest [] = (ts, none) ↔ _
  simp only [readTokens_eq_none, List.reverse_nil, List.nil_append, exists_eq_left']

/-- the body of a block -/
theorem tokens_eq_none_body {w : Window} {pos : Nat} {bytes : Bytes} {ts : List Token} :
    Stretch.tokens w ⟨pos, 8, bytes⟩ = (ts, none) ↔ Packets w ts bytes := by
  cases bytes with
  | nil =>
    rw [packets_nil]
    show ([], none) = (ts, none) ↔ _
    simp only [Prod.mk.injEq, and_true]
    exact eq_comm
  | cons header rest => rw [tokens_eq_none, packets_cons]

theorem allTokens_cons {w : Window} {last : Option BlockFault} {s : Stretch} {more : List Stretch}
    {ts : List Token} : allTokens w last (s :: more) = (ts, none) ↔
      ∃ us vs, ts = us ++ vs ∧ s.tokens w = (us, none) ∧ allTokens w last more = (vs, none) := by
  rw [allTokens]
  cases hfirst : s.tokens w with
  | mk us fault =>
    cases fault with
    | some fault =>
      constructor
      · intro h
        cases h
      · rintro ⟨_, _, _, hus, _⟩
        cases hus
    | none =>
      simp only [Prod.mk.injEq, and_true]
      cases allTokens w last more with
      | mk vs fault =>
        constructor
        · rintro ⟨rfl, hfault⟩
          exact ⟨us, vs, rfl, rfl, Prod.ext rfl hfault⟩
        · rintro ⟨_, _, rfl, rfl, hvs⟩
          cases hvs
          exact ⟨rfl, rfl⟩

/-! ## control bytes -/

/-- the bytes begin with a control byte and what follows it up to the last one -/
def Ends (w : Window) (pos : Nat) (ts : List Token) (bytes : Bytes) : Prop :=
  ∃ front behind, bytes = front ++ behind ∧ Closing w pos ts front

section
variable {w : Window} {pos : Nat} {control : UInt8} {ts : List Token} {behind : Bytes}

theorem not_ends_nil : ¬ Ends w pos ts [] := by
  rintro ⟨front, _, hbytes, hclosing⟩
  cases hclosing with
  | last => cases hbytes
  | addendum => cases hbytes

theorem ends_last (h : control.toNat % 64 = 0) : Ends w pos ts (control :: behind) ↔ ts = [] := by
  constructor
  · rintro ⟨front, _, hbytes, hclosing⟩
    cases hclosing with
    | last => rfl
    | addendum hcount hsome =>
      cases hbytes
      omega
  · rintro rfl
    exact ⟨[control], behind, rfl, .last h⟩

theorem ends_addendum (h : control.toNat % 64 ≠ 0) : Ends w pos ts (control :: behind) ↔
    ∃ lo hi header packets rest us vs, behind = lo :: hi :: (header :: packets ++ rest) ∧
      Bytes.value [lo, hi] = pos + 3 + (header :: packets).length ∧ control.toNat % 64 ≤ 8 ∧
      ts = us ++ vs ∧ Under w header.toNat (control.toNat % 64) us packets ∧
      Ends w (Bytes.value [lo, hi]) vs rest := by
  constructor
  · rintro ⟨front, after, hbytes, hclosing⟩
    cases hclosing with
    | last hcount =>
      cases hbytes
      exact (h hcount).elim
    | @addendum _ _ lo hi ts us vs a b rest hcount hsome hfirst hwhole hnext hrest =>
      obtain ⟨hmarks, hspelled⟩ := hfirst
      cases hbytes
      refine ⟨lo, hi, _, _, rest ++ after, ts ++ us, vs, ?_, hnext, hcount ▸ hsome.2, rfl, ?_, ?_⟩
      · simp
      · exact ⟨ts, us, _, b, rfl, rfl, hcount.symm, hmarks, hspelled, hwhole⟩
      · exact ⟨rest, after, rfl, hrest⟩
  · rintro ⟨lo, hi, header, _, _, _, vs, rfl, hnext, hsome, rfl, ⟨us, xs, a, b, rfl, rfl, hcount,
      hmarks, hspelled, hwhole⟩, front, after, rfl, hrest⟩
    refine ⟨control :: lo :: hi :: (header :: a ++ b ++ front), after, by simp, ?_⟩
    exact .addendum hcount.symm ⟨by omega, by omega⟩ (.mk hmarks hspelled) hwhole hnext hrest

end

theorem allTokens_nil {w : Window} {last : Option BlockFault} {ts : List Token} :
    allTokens w last [] = (ts, none) ↔ ts = [] ∧ last = none := by
  rw [allTokens, Prod.mk.injEq, eq_comm]

/-- the commands behind a control byte -/
theorem allTokens_addenda {w : Window} {start pos p : Nat} {rest : Bytes} {ts : List Token}
    (hp : pos = start + p) :
    allTokens w (addenda start pos rest).2 (addenda start pos rest).1 = (ts, none) ↔
      Ends w p ts rest := by
  fun_induction addenda start pos rest generalizing p ts with
  | case1 pos => simp [allTokens_nil, not_ends_nil]
  | case2 pos control behind count =>
    rename_i hcount
    rw [ends_last hcount]
    simp [allTokens_nil]
  | case3 pos control behind count hcount =>
    rename_i hmany
    rw [ends_addendum hcount]
    constructor
    · intro h
      cases (allTokens_nil.mp h).2
    · rintro ⟨_, _, _, _, _, _, _, _, _, hfew, _⟩
      exact (Nat.not_le_of_lt hmany hfew).elim
  | case4 pos control count hcount hfew lo hi body first =>
    rename_i stop hstop
    rw [ends_addendum hcount]
    constructor
    · intro h
      cases (allTokens_nil.mp h).2
    · rintro ⟨_, _, _, _, _, _, _, hbody, hnext, _⟩
      cases hbody
      rw [List.length_cons] at hnext
      omega
  | case5 pos control count hcount hfew lo hi body first stop hstop =>
    rename_i bytes hshort
    rw [ends_addendum hcount]
    constructor
    · intro h
      cases (allTokens_nil.mp h).2
    · rintro ⟨_, _, header, packets, rest, _, _, hbody, hnext, _⟩
      cases hbody
      simp only [bytes, List.length_take, List.length_append] at hshort
      omega
  | case6 pos control count hcount hfew lo hi body first stop hstop bytes hlong more fault =>
    rename_i hmore ih
    rw [ends_addendum hcount]
    rw [hmore] at ih
    simp only [allTokens_cons]
    constructor
    · rintro ⟨us, vs, rfl, hus, hvs⟩
      have hlength : bytes.length = stop - first := by
        have hle : bytes.length ≤ stop - first := List.length_take_le ..
        omega
      obtain ⟨header, packets, hbytes⟩ := List.exists_cons_of_length_pos (l := bytes) (by omega)
      rw [hbytes] at hus
      refine ⟨lo, hi, header, packets, body.drop (stop - first), us, vs, ?_, ?_,
        Nat.le_of_not_lt hfew, rfl, tokens_eq_none.mp hus, (ih rfl).mp hvs⟩
      · rw [← hbytes, List.take_append_drop]
      · rw [← hbytes]
        omega
    · rintro ⟨_, _, header, packets, rest, us, vs, hbody, hnext, _, rfl, hunder, hends⟩
      cases hbody
      have hspan : stop - first = (header :: packets).length := by omega
      have hbytes : bytes = header :: packets := by
        simp only [bytes, hspan, List.take_left]
      refine ⟨us, vs, rfl, ?_, (ih rfl).mpr ?_⟩
      · rw [hbytes]
        exact tokens_eq_none.mpr hunder
      · rw [hspan, List.drop_left]
        exact hends
  | case7 pos control behind count hcount hfew =>
    rename_i hnone
    rw [ends_addendum hcount]
    constructor
    · intro h
      cases (allTokens_nil.mp h).2
    · rintro ⟨lo, hi, _, _, _, _, _, hbehind, _⟩
      exact (hnone lo hi _ hbehind).elim

/-! ## blocks -/

/-- the two high bits are those of `0xC0` -/
theorem ofControl_eq {w : Window} {control : UInt8} :
    Window.ofControl control = w ↔ (w = .narrow ↔ control &&& 0xC0 ≠ 0) := by
  have hbits : ∀ n < 256, n / 64 = 0 ↔ n &&& 0xC0 = 0 := by decide +kernel
  have hhigh : control.toNat / 64 = 0 ↔ control &&& 0xC0 = 0 := by
    rw [hbits _ control.toNat_lt, ← UInt8.toNat_inj, UInt8.toNat_and]
    rfl
  unfold Window.ofControl
  by_cases h : control.toNat / 64 = 0
  · rw [if_pos h]
    cases w <;> simp [hhigh.mp h]
  · rw [if_neg h]
    cases w <;> simp [hhigh.not.mp h]

theorem Closing.exists_cons {w : Window} {pos : Nat} {ts : List Token} {front : Bytes}
    (h : Closing w pos ts front) : ∃ control rest, front = control :: rest := by
  cases h with
  | last => exact ⟨_, _, rfl⟩
  | addendum => exact ⟨_, _, rfl⟩

/-- the commands of a block are read without a fault -/
theorem contents_eq_none {start : Nat} {bytes : Bytes} {w : Window} {ts : List Token} :
    contents start bytes = .ok ⟨w, ts, none⟩ ↔
      ∃ block behind, bytes = block ++ behind ∧ Form w ts block := by
  constructor
  · intro h
    unfold contents at h
    match bytes, h with
    | lo :: hi :: behind, h =>
      simp only at h
      generalize hlength : Bytes.value [lo, hi] = length at h
      cases hrest : behind.drop length with
      | nil =>
        rw [hrest] at h
        cases h
      | cons control rest =>
        rw [hrest] at h
        simp only [Except.ok.injEq, Contents.mk.injEq] at h
        obtain ⟨rfl, hts, hfault⟩ := h
        obtain ⟨us, vs, rfl, hbody, hmore⟩ := allTokens_cons.mp (Prod.ext hts hfault)
        have hp : start + 2 + length = start + (2 + length) := Nat.add_assoc ..
        obtain ⟨front, after, hfront, hclosing⟩ := (allTokens_addenda hp).mp hmore
        obtain ⟨first, rest', rfl⟩ := hclosing.exists_cons
        rw [List.cons_append] at hfront
        obtain ⟨rfl, rfl⟩ := List.cons.inj hfront
        have htake : (behind.take length).length = length := by
          have hlong := congrArg List.length hrest
          rw [List.length_drop, List.length_cons] at hlong
          rw [List.length_take]
          omega
        refine ⟨_, after, ?_, .mk (hlength.trans htake.symm) (tokens_eq_none_body.mp hbody)
          (ofControl_eq.mp rfl) (htake.symm ▸ hclosing)⟩
        rw [List.cons_append, List.cons_append, List.append_assoc, List.cons_append, ← hrest,
          List.take_append_drop]
  · rintro ⟨_, behind, rfl, hform⟩
    cases hform with
    | @mk lo hi control us vs body rest hlength hbody hlayout hclosing =>
      have hp : start + 2 + body.length = start + (2 + body.length) := Nat.add_assoc ..
      have hends : Ends w (2 + body.length) vs (control :: (rest ++ behind)) :=
        ⟨control :: rest, behind, rfl, hclosing⟩
      have htokens : Stretch.tokens w ⟨start + 2, 8, body⟩ = (us, none) :=
        tokens_eq_none_body.mpr hbody
      have hread := allTokens_cons.mpr ⟨us, vs, rfl, htokens, (allTokens_addenda hp).mpr hends⟩
      simp only [contents, List.cons_append, List.append_assoc, hlength, List.drop_left,
        List.take_left, ofControl_eq.mpr hlayout]
      exact congrArg (fun read => Except.ok (Contents.mk w read.1 read.2)) hread

/-! ## expansion -/

section
variable {distance n : Nat} {out more : Bytes} (hdistance : 1 ≤ distance ∧ distance ≤ out.length)
include hdistance

/-- the bytes that are there and those that are copied are all the bytes -/
theorem CopiedBack.unique {more' : Bytes} (h : CopiedBack distance n out more)
    (h' : CopiedBack distance n out more') : more = more' := by
  have hkept : ∀ i < out.length, more[i]? = more'[i]? := by
    intro i hi
    obtain ⟨_, rfl⟩ := h.kept
    obtain ⟨_, rfl⟩ := h'.kept
    rw [List.getElem?_append_left hi, List.getElem?_append_left hi]
  refine List.ext_getElem? fun i => ?_
  induction i using Nat.strongRecOn with
  | ind i ih =>
    by_cases hout : i < out.length
    · exact hkept i hout
    · by_cases hi : i - out.length < n
      · have hindex : out.length + (i - out.length) = i := by omega
        have hcopied := h.copied _ hi
        have hcopied' := h'.copied _ hi
        rw [hindex] at hcopied hcopied'
        rw [hcopied, hcopied', ih (i - distance) (by omega)]
      · have hlength := h.length
        have hlength' := h'.length
        rw [List.getElem?_eq_none (by omega), List.getElem?_eq_none (by omega)]

/-- the next byte is copied, and the others after it -/
theorem CopiedBack.cons {b : UInt8} (hb : out[out.length - distance]? = some b)
    (h : CopiedBack distance n (out ++ [b]) more) : CopiedBack distance (n + 1) out more := by
  have hkept : out <+: more := (List.prefix_append out [b]).trans h.kept
  have hlength : (out ++ [b]).length = out.length + 1 := List.length_append
  constructor
  · rw [h.length, hlength]
    omega
  · exact hkept
  · intro i hi
    cases i with
    | zero =>
      obtain ⟨rest, rfl⟩ := h.kept
      have hnext : (out ++ [b] ++ rest)[out.length]? = some b := by simp
      have hsource : (out ++ [b] ++ rest)[out.length - distance]? = some b := by
        rw [List.append_assoc, List.getElem?_append_left (by omega), hb]
      rw [Nat.add_zero, hnext, hsource]
    | succ i =>
      have hcopied := h.copied i (Nat.lt_of_succ_lt_succ hi)
      rw [hlength] at hcopied
      rw [show out.length + (i + 1) = out.length + 1 + i by omega, hcopied]

end

theorem copiedBack_copyBack {out : Array UInt8} {distance : Nat}
    (hdistance : 1 ≤ distance ∧ distance ≤ out.size) (n : Nat) :
    CopiedBack distance n out.toList (copyBack out distance n).toList := by
  induction n generalizing out with
  | zero => exact ⟨rfl, List.prefix_rfl, fun i hi => (Nat.not_lt_zero i hi).elim⟩
  | succ n ih =>
    have hlt : out.toList.length - distance < out.toList.length := by
      rw [Array.length_toList]
      omega
    have hb : out.toList[out.toList.length - distance]? =
        some (out.getD (out.size - distance) 0) := by
      rw [Array.getD_eq_getD_getElem?, ← Array.getElem?_toList, ← Array.length_toList,
        List.getElem?_eq_getElem hlt, Option.getD_some]
    have hinside : 1 ≤ distance ∧
        distance ≤ (out.push (out.getD (out.size - distance) 0)).size := by
      rw [Array.size_push]
      omega
    have hrest := ih hinside
    rw [Array.toList_push] at hrest
    rw [copyBack_succ]
    exact hrest.cons hdistance hb

section
variable {out out' : Bytes} {ts : List Token}

theorem expands_nil : Expands out [] out' ↔ out = out' := by
  constructor
  · intro h
    cases h
    rfl
  · rintro rfl
    exact .nil out

theorem expands_literal {b : UInt8} :
    Expands out (.literal b :: ts) out' ↔ Expands (out ++ [b]) ts out' := by
  constructor
  · intro h
    cases h with
    | literal hrest => exact hrest
  · exact .literal

theorem expands_copy {distance length : Nat} :
    Expands out (.copy distance length :: ts) out' ↔ (1 ≤ distance ∧ distance ≤ out.length) ∧
      ∃ more, CopiedBack distance length out more ∧ Expands more ts out' := by
  constructor
  · intro h
    cases h with
    | copy hdistance hcopy hrest => exact ⟨hdistance, _, hcopy, hrest⟩
  · rintro ⟨hdistance, more, hcopy, hrest⟩
    exact .copy hdistance hcopy hrest

end

theorem expand_eq_ok {out out' : Array UInt8} {ts : List Token} :
    expand out ts = .ok out' ↔ Expands out.toList ts out'.toList := by
  induction ts generalizing out with
  | nil => rw [expand, expands_nil, Except.ok.injEq, Array.toList_inj]
  | cons t ts ih =>
    cases t with
    | literal b => rw [expand_literal, ih, expands_literal, Array.toList_push]
    | copy distance length =>
      rw [expand, unless_eq_ok, ih, expands_copy, Array.length_toList]
      constructor
      · rintro ⟨hinside, hrest⟩
        have hdistance : 1 ≤ distance ∧ distance ≤ out.size := by omega
        exact ⟨hdistance, _, copiedBack_copyBack hdistance length, hrest⟩
      · rintro ⟨hdistance, more, hcopy, hrest⟩
        refine ⟨by omega, ?_⟩
        rw [(copiedBack_copyBack hdistance length).unique hdistance hcopy]
        exact hrest

/-! ## the decoder -/

theorem output_eq_ok {start : Nat} {bytes out : Bytes} : output start bytes = .ok out ↔
    ∃ w ts, contents start bytes = .ok ⟨w, ts, none⟩ ∧ Expands [] ts out := by
  unfold output
  simp only [bind_eq_ok]
  constructor
  · rintro ⟨⟨w, ts, fault⟩, hcontents, out', hexpand, h⟩
    cases fault with
    | some fault => cases h
    | none =>
      cases h
      exact ⟨w, ts, hcontents, expand_eq_ok.mp hexpand⟩
  · rintro ⟨w, ts, hcontents, hexpands⟩
    exact ⟨_, hcontents, out.toArray, expand_eq_ok.mpr hexpands, rfl⟩

/-- **The decoder accepts the blocks, and no other bytes**: it gives an output just when a block
stands at the position whose commands expand to the output. -/
theorem decompress_eq_ok {bytes out : Bytes} {start : Nat} : decompress bytes start = .ok out ↔
    ∃ w ts before block behind, bytes = before ++ block ++ behind ∧ before.length = start ∧
      Form w ts block ∧ Expands [] ts out := by
  rw [decompress, mapError_eq_ok, output_eq_ok]
  simp only [contents_eq_none]
  constructor
  · rintro ⟨w, ts, ⟨block, behind, hdrop, hform⟩, hexpands⟩
    refine ⟨w, ts, bytes.take start, block, behind, ?_, ?_, hform, hexpands⟩
    · rw [List.append_assoc, ← hdrop, List.take_append_drop]
    · cases hform
      have hlong := congrArg List.length hdrop
      rw [List.length_drop, List.cons_append, List.length_cons] at hlong
      rw [List.length_take]
      omega
  · rintro ⟨w, ts, before, block, behind, rfl, rfl, hform, hexpands⟩
    refine ⟨w, ts, ⟨block, behind, ?_, hform⟩, hexpands⟩
    rw [List.append_assoc, List.drop_left]

/-- an empty body and two addenda; the layout of the first control byte holds for both -/
example : (decompress [0, 0, 0x41, 7, 0, 0, 5, 0x02, 14, 0, 2, 6, 2, 0, 0x80, 99] 0).toOption =
    some [5, 6, 5, 6, 5] := by decide +kernel

end Cartridge.Block
