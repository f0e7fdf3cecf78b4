import Cartridge.Block.Decode
import Cartridge.Block.Encode
import Cartridge.Proofs.Block.Match
import Mathlib.Algebra.Group.Nat.Defs

/-!
# Packets read back

What the encoder lays out as packets, the decoder reads as the same commands.

* `unpack_pack`             a reference word spells the copy it was made from;
* `value_field_two`         a 16-bit field reads back as its number;
* `readTokens_commands`     commands under a header that counts them;
* `readTokens_whole`        the whole packets give the commands that the leftover ones follow;
* `Stretch.tokens_body`, `Stretch.tokens_last`   the two stretches of a block.
-/

namespace Cartridge.Block

/-! ## words and bytes -/

theorem unpack_pack {w : Window} {distance length : Nat} (h : (Token.copy distance length).Fits w) :
    w.unpack (w.pack distance length) = (distance, length) := by
  obtain ⟨⟨_, hreach⟩, hmin, _⟩ := h
  have hlt : distance < w.reach := Nat.lt_of_le_of_lt hreach w.maxDistance_lt_reach
  have hpos : 0 < w.reach := Nat.lt_of_le_of_lt (Nat.zero_le _) hlt
  unfold Window.pack Window.unpack
  rw [Nat.mod_eq_of_lt hlt, Nat.add_mul_mod_self_left, Nat.mod_eq_of_lt hlt,
    Nat.add_mul_div_left _ _ hpos, Nat.div_eq_of_lt hlt, Nat.zero_add, Nat.sub_add_cancel hmin]

theorem pack_lt {w : Window} {distance length : Nat} (h : (Token.copy distance length).Fits w) :
    w.pack distance length < 0x10000 := by
  obtain ⟨⟨_, hreach⟩, hmin, hmax⟩ := h
  cases w with
  | wide =>
    simp only [Window.maxDistance, Window.maxLength, Window.pack, Window.reach, minMatch]
      at hreach hmin hmax ⊢
    omega
  | narrow =>
    simp only [Window.maxDistance, Window.maxLength, Window.pack, Window.reach, minMatch]
      at hreach hmin hmax ⊢
    omega

theorem field_two (n : Nat) : Bytes.field 2 n = [UInt8.ofNat n, UInt8.ofNat (n / 256)] := rfl

theorem value_field_two {n : Nat} (h : n < 0x10000) :
    Bytes.value [UInt8.ofNat n, UInt8.ofNat (n / 256)] = n := by
  rw [← field_two, Bytes.value_field]
  exact Nat.mod_eq_of_lt h

theorem toNat_ofNat_of_lt {n : Nat} (h : n < 256) : (UInt8.ofNat n).toNat = n :=
  Nat.mod_eq_of_lt h

/-! ## headers -/

theorem header_lt (ts : List Token) : header ts < 2 ^ ts.length := by
  induction ts with
  | nil => exact Nat.one_pos
  | cons t ts ih =>
    rw [header, List.length_cons, Nat.pow_succ]
    split <;> omega

theorem header_mod_two (t : Token) (ts : List Token) :
    header (t :: ts) % 2 = if t.isCopy then 1 else 0 := by
  rw [header]
  split <;> omega

theorem header_div_two (t : Token) (ts : List Token) : header (t :: ts) / 2 = header ts := by
  rw [header]
  split <;> omega

/-- a header of at most eight commands is a byte -/
theorem toNat_header (ts : List Token) (h : ts.length ≤ 8) :
    (UInt8.ofNat (header ts)).toNat = header ts := by
  refine toNat_ofNat_of_lt (Nat.lt_of_lt_of_le (header_lt ts) ?_)
  exact Nat.pow_le_pow_right (by decide) h

/-! ## commands -/

/-- the bytes that commands take up -/
def spelled (w : Window) (ts : List Token) : Bytes := ts.flatMap (Token.bytes w)

theorem spelled_cons (w : Window) (t : Token) (ts : List Token) :
    spelled w (t :: ts) = t.bytes w ++ spelled w ts := rfl

theorem packet_eq (w : Window) (ts : List Token) :
    packet w ts = UInt8.ofNat (header ts) :: spelled w ts := rfl

theorem readTokens_literal (w : Window) (pos header left : Nat) (b : UInt8) (rest : Bytes)
    (done : List Token) (h : header % 2 = 0) :
    readTokens w pos header (left + 1) (b :: rest) done =
      readTokens w (pos + 1) (header / 2) left rest (.literal b :: done) := by
  rw [readTokens.eq_def]
  exact if_pos h

theorem readTokens_copy (w : Window) (pos header left : Nat) (lo hi : UInt8) (rest : Bytes)
    (done : List Token) (h : header % 2 = 1) {distance length : Nat}
    (hword : w.unpack (Bytes.value [lo, hi]) = (distance, length)) :
    readTokens w pos header (left + 1) (lo :: hi :: rest) done =
      readTokens w (pos + 2) (header / 2) left rest (.copy distance length :: done) := by
  rw [readTokens.eq_def]
  simp only [h, Nat.one_ne_zero, if_false, hword]

/-- commands that fit, under a header for just these commands, read back -/
theorem readTokens_commands (w : Window) (ts : List Token) (hfits : ∀ t ∈ ts, t.Fits w)
    (pos : Nat) (rest : Bytes) (done : List Token) :
    ∃ pos', readTokens w pos (header ts) ts.length (spelled w ts ++ rest) done =
      readTokens w pos' 0 0 rest (ts.reverse ++ done) := by
  induction ts generalizing pos done with
  | nil => exact ⟨pos, rfl⟩
  | cons t ts ih =>
    have hrest := fun u hu => hfits u (List.mem_cons_of_mem _ hu)
    rw [List.length_cons, List.reverse_cons, List.append_assoc, List.singleton_append,
      spelled_cons]
    cases t with
    | literal b =>
      have hhead : header (.literal b :: ts) % 2 = 0 := header_mod_two (.literal b) ts
      rw [Token.bytes, List.singleton_append, List.cons_append,
        readTokens_literal _ _ _ _ _ _ _ hhead,
        header_div_two]
      exact ih hrest (pos + 1) (.literal b :: done)
    | copy distance length =>
      have hfit := hfits (.copy distance length) (List.mem_cons_self ..)
      have hhead : header (.copy distance length :: ts) % 2 = 1 :=
        header_mod_two (.copy distance length) ts
      have hword : w.unpack (Bytes.value [UInt8.ofNat (w.pack distance length),
          UInt8.ofNat (w.pack distance length / 256)]) = (distance, length) := by
        rw [value_field_two (pack_lt hfit), unpack_pack hfit]
      rw [Token.bytes, field_two, List.cons_append, List.singleton_append, List.cons_append,
        List.cons_append, readTokens_copy _ _ _ _ _ _ _ _ hhead hword, header_div_two]
      exact ih hrest (pos + 2) (.copy distance length :: done)

/-! ## packets -/

theorem length_leftover (ts : List Token) : (leftover ts).length < 8 := by
  fun_induction leftover ts with
  | case1 a b c d e f g h ts ih => exact ih
  | case2 ts hshort =>
    rcases ts with _ | ⟨a, _ | ⟨b, _ | ⟨c, _ | ⟨d, _ | ⟨e, _ | ⟨f, _ | ⟨g, _ | ⟨h, ts⟩⟩⟩⟩⟩⟩⟩⟩ <;>
      first
        | exact absurd rfl (hshort _ _ _ _ _ _ _ _ _)
        | simp

/-- the whole packets hold the commands in front of the leftover ones -/
theorem readTokens_whole (w : Window) (ts : List Token) (hfits : ∀ t ∈ ts, t.Fits w) (pos : Nat)
    (done : List Token) :
    ∃ full, ts = full ++ leftover ts ∧
      readTokens w pos 0 0 (wholePackets w ts) done = (done.reverse ++ full, none) := by
  fun_induction leftover ts generalizing pos done with
  | case1 a b c d e f g h ts ih =>
    have height : ∀ t ∈ [a, b, c, d, e, f, g, h], t.Fits w := by
      intro t ht
      exact hfits t (List.mem_append_left ts ht)
    have hrest : ∀ t ∈ ts, t.Fits w := by
      intro t ht
      exact hfits t (List.mem_append_right [a, b, c, d, e, f, g, h] ht)
    obtain ⟨pos', hread⟩ := readTokens_commands w [a, b, c, d, e, f, g, h] height (pos + 1)
      (wholePackets w ts) done
    obtain ⟨full, hfull, hwhole⟩ := ih hrest pos' ([a, b, c, d, e, f, g, h].reverse ++ done)
    refine ⟨[a, b, c, d, e, f, g, h] ++ full, ?_, ?_⟩
    · rw [List.append_assoc, ← hfull]
      rfl
    · rw [wholePackets, packet_eq, List.cons_append, readTokens,
        toNat_header [a, b, c, d, e, f, g, h] (Nat.le_refl 8)]
      rw [← hread] at hwhole
      rw [show (8 : Nat) = [a, b, c, d, e, f, g, h].length from rfl, hwhole, List.reverse_append,
        List.reverse_reverse, List.append_assoc]
  | case2 ts hshort =>
    refine ⟨[], rfl, ?_⟩
    rw [wholePackets.eq_2 w ts hshort, List.append_nil]
    rfl

/-- the body of a block: its first packet has eight commands like the others -/
theorem Stretch.tokens_body (w : Window) (ts : List Token) (hfits : ∀ t ∈ ts, t.Fits w)
    (pos : Nat) :
    ∃ full, ts = full ++ leftover ts ∧
      Stretch.tokens w ⟨pos, 8, wholePackets w ts⟩ = (full, none) := by
  obtain ⟨full, hfull, hread⟩ := readTokens_whole w ts hfits pos []
  rw [List.reverse_nil, List.nil_append] at hread
  refine ⟨full, hfull, ?_⟩
  unfold Stretch.tokens
  split
  · rename_i hnil
    have hnil : wholePackets w ts = [] := hnil
    rw [hnil] at hread
    exact hread
  · rename_i header rest hcons
    have hcons : wholePackets w ts = header :: rest := hcons
    rw [hcons, readTokens] at hread
    exact hread

/-- the addendum: one packet of fewer commands -/
theorem Stretch.tokens_last (w : Window) (ts : List Token) (hfits : ∀ t ∈ ts, t.Fits w)
    (hshort : ts.length ≤ 8) (pos : Nat) :
    Stretch.tokens w ⟨pos, ts.length, packet w ts⟩ = (ts, none) := by
  obtain ⟨pos', hread⟩ := readTokens_commands w ts hfits (pos + 1) [] []
  rw [List.append_nil, List.append_nil] at hread
  show readTokens w (pos + 1) (UInt8.ofNat (header ts)).toNat ts.length (spelled w ts) [] = _
  rw [toNat_header ts hshort, hread, readTokens, List.reverse_reverse]

end Cartridge.Block
