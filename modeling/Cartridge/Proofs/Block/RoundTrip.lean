import Cartridge.Proofs.Block.Packet
import Cartridge.Proofs.Except

/-!
# Blocks read back

A compressed block inside any other bytes decompresses to the data it was made from, and its length
is found by its control bytes alone.

* `Laid`                  the two forms of a block: whole packets only, or an addendum behind them;
* `laid_of_encode`        every encoded block has one of these forms;
* `Laid.output`, `Laid.blockLength`   what the decoder and the length walker make of the forms;
* `decompress_compress`   the round trip, for both.
-/

namespace Cartridge.Block

/-! ## the form of a block -/

/-- the bytes of a block of given commands -/
inductive Laid (w : Window) (ts : List Token) : Bytes → Prop where
  | whole (hbody : (wholePackets w ts).length ≤ maxField) (hrest : leftover ts = []) :
    Laid w ts (Bytes.field 2 (wholePackets w ts).length ++
      (wholePackets w ts ++ [UInt8.ofNat w.mode]))
  | addendum (hbody : (wholePackets w ts).length ≤ maxField) (hrest : leftover ts ≠ []) (stop : Nat)
    (hstop : stop = 2 + (wholePackets w ts).length + 3 + (packet w (leftover ts)).length)
    (hfield : stop ≤ maxField) :
    Laid w ts (Bytes.field 2 (wholePackets w ts).length ++
      (wholePackets w ts ++ UInt8.ofNat (w.mode + (leftover ts).length) ::
        (Bytes.field 2 stop ++ (packet w (leftover ts) ++ [UInt8.ofNat w.mode]))))

theorem laid_of_encode {w : Window} {data block : Bytes} (h : encode w data = .ok block) :
    Laid w (tokenize w data) block := by
  unfold encode at h
  simp only at h
  split at h
  · cases h
  rename_i hbody
  have hbody := Nat.le_of_not_lt hbody
  split at h
  · rename_i hrest
    cases h
    rw [List.append_assoc]
    exact .whole hbody (List.isEmpty_iff.mp hrest)
  · rename_i hrest
    split at h
    · cases h
    · rename_i hfield
      cases h
      rw [List.append_assoc, List.append_assoc]
      exact .addendum hbody (fun hnil => hrest (List.isEmpty_iff.mpr hnil)) _ rfl
        (Nat.le_of_not_lt hfield)

theorem length_pos_packet (w : Window) (ts : List Token) : 0 < (packet w ts).length :=
  Nat.succ_pos _

/-! ## control bytes -/

theorem mode_add_lt (w : Window) {k : Nat} (h : k < 8) : w.mode + k < 256 := by
  cases w <;> simp only [Window.mode] <;> omega

theorem toNat_control (w : Window) {k : Nat} (h : k < 8) :
    (UInt8.ofNat (w.mode + k)).toNat = w.mode + k :=
  toNat_ofNat_of_lt (mode_add_lt w h)

/-- a control byte selects the layout that it was made for -/
theorem ofControl_control (w : Window) {k : Nat} (h : k < 8) :
    Window.ofControl (UInt8.ofNat (w.mode + k)) = w := by
  unfold Window.ofControl
  rw [toNat_control w h]
  cases w with
  | wide =>
    rw [if_pos]
    simp only [Window.mode]
    omega
  | narrow =>
    rw [if_neg]
    simp only [Window.mode]
    omega

theorem control_mod (w : Window) {k : Nat} (h : k < 8) :
    (UInt8.ofNat (w.mode + k)).toNat % 64 = k := by
  rw [toNat_control w h]
  cases w <;> simp only [Window.mode] <;> omega

theorem ofControl_mode (w : Window) : Window.ofControl (UInt8.ofNat w.mode) = w :=
  @ofControl_control w 0 (by decide)

theorem mode_mod (w : Window) : (UInt8.ofNat w.mode).toNat % 64 = 0 :=
  @control_mod w 0 (by decide)

/-! ## addenda -/

theorem addenda_end (w : Window) (start pos : Nat) (after : Bytes) :
    addenda start pos (UInt8.ofNat w.mode :: after) = ([], none) := by
  rw [addenda.eq_def]
  simp only [mode_mod, if_true]

theorem lengthFrom_end (w : Window) (pos : Nat) (after : Bytes) :
    lengthFrom pos (UInt8.ofNat w.mode :: after) = .ok (pos + 1) := by
  rw [lengthFrom.eq_def]
  simp only [mode_mod, if_true]

section
variable (w : Window) {k pos stop : Nat} (hk : k < 8) (hpos : 0 < k) {last : Bytes}
  (hlast : 0 < last.length) (hstop : stop = pos + 3 + last.length) (hfield : stop ≤ maxField)
include hk hpos hlast hstop hfield

/-- one addendum, and then the end of the block -/
theorem addenda_last (start : Nat) (after : Bytes) :
    addenda start (start + pos) (UInt8.ofNat (w.mode + k) ::
        (Bytes.field 2 stop ++ (last ++ UInt8.ofNat w.mode :: after))) =
      ([⟨start + pos + 3, k, last⟩], none) := by
  have hne : k ≠ 0 := Nat.pos_iff_ne_zero.mp hpos
  have hle : ¬ 8 < k := by omega
  have hahead : ¬ start + stop ≤ start + pos + 3 := by omega
  have hspan : start + stop - (start + pos + 3) = last.length := by omega
  rw [addenda.eq_def]
  simp only [control_mod w hk, hne, hle, if_false, field_two, List.cons_append, List.nil_append,
    value_field_two (Nat.lt_succ_of_le hfield), hahead, hspan, List.take_left, List.drop_left,
    Nat.lt_irrefl, addenda_end]

theorem lengthFrom_last (after : Bytes) :
    lengthFrom pos (UInt8.ofNat (w.mode + k) ::
        (Bytes.field 2 stop ++ (last ++ UInt8.ofNat w.mode :: after))) = .ok (stop + 1) := by
  have hne : k ≠ 0 := Nat.pos_iff_ne_zero.mp hpos
  have hahead : ¬ stop ≤ pos + 3 := by omega
  have hspan : stop - (pos + 3) = last.length := by omega
  rw [lengthFrom.eq_def]
  simp only [control_mod w hk, hne, if_false, field_two, List.cons_append, List.nil_append,
    value_field_two (Nat.lt_succ_of_le hfield), hahead, hspan, List.drop_left, lengthFrom_end]

end

/-! ## reading a block -/

/-- a block begins with its length field, its body and its first control byte -/
theorem contents_eq (w : Window) (start : Nat) {body behind : Bytes} {control : UInt8}
    (hbody : body.length ≤ maxField) (hcontrol : Window.ofControl control = w) :
    contents start (Bytes.field 2 body.length ++ (body ++ control :: behind)) =
      let (more, last) := addenda start (start + 2 + body.length) (control :: behind)
      let (tokens, fault) := allTokens w last (⟨start + 2, 8, body⟩ :: more)
      .ok ⟨w, tokens, fault⟩ := by
  simp only [field_two, List.cons_append, List.nil_append, contents,
    value_field_two (Nat.lt_succ_of_le hbody), List.drop_left, List.take_left, hcontrol]

/-- the decoder reads the commands of a block, whatever follows it -/
theorem Laid.contents {w : Window} {ts : List Token} {block : Bytes} (h : Laid w ts block)
    (hfits : ∀ t ∈ ts, t.Fits w) (start : Nat) (after : Bytes) :
    contents start (block ++ after) = .ok ⟨w, ts, none⟩ := by
  obtain ⟨full, hfull, hread⟩ := Stretch.tokens_body w ts hfits (start + 2)
  cases h with
  | whole hbody hrest =>
    rw [List.append_assoc, List.append_assoc, List.singleton_append,
      contents_eq w start hbody (ofControl_mode w), addenda_end]
    simp only [allTokens, hread, List.append_nil]
    rw [hrest, List.append_nil] at hfull
    rw [← hfull]
  | addendum hbody hrest stop hstop hfield =>
    have hshort := length_leftover ts
    have hpos : 0 < (leftover ts).length := List.length_pos_iff.mpr hrest
    have hlast := Stretch.tokens_last w (leftover ts)
      (fun t ht => hfits t (by rw [hfull]; exact List.mem_append_right _ ht)) (by omega)
      (start + (2 + (wholePackets w ts).length) + 3)
    have hadd := addenda_last w hshort hpos (length_pos_packet w (leftover ts)) hstop hfield start
      after
    rw [List.append_assoc, List.append_assoc, List.cons_append, List.append_assoc,
      List.append_assoc, List.singleton_append,
      contents_eq w start hbody (ofControl_control w hshort), Nat.add_assoc start 2, hadd]
    simp only [allTokens, hread, hlast, List.append_nil]
    rw [← hfull]

theorem Laid.blockLength {w : Window} {ts : List Token} {block : Bytes} (h : Laid w ts block)
    (before after : Bytes) :
    blockLength (before ++ block ++ after) before.length = .ok block.length := by
  unfold Block.blockLength
  rw [List.append_assoc, List.drop_left]
  cases h with
  | whole hbody hrest =>
    simp only [field_two, List.append_assoc, List.cons_append, List.nil_append,
      value_field_two (Nat.lt_succ_of_le hbody), List.drop_left, lengthFrom_end, Except.mapError,
      List.length_cons, List.length_append, List.length_nil]
    congr 1
    omega
  | addendum hbody hrest stop hstop hfield =>
    have hpos : 0 < (leftover ts).length := List.length_pos_iff.mpr hrest
    have hlast := lengthFrom_last w (length_leftover ts) hpos (length_pos_packet w (leftover ts))
      hstop hfield after
    rw [field_two stop, List.cons_append, List.singleton_append] at hlast
    simp only [field_two, List.append_assoc, List.cons_append, List.nil_append,
      value_field_two (Nat.lt_succ_of_le hbody), List.drop_left, hlast, Except.mapError,
      List.length_cons, List.length_append, List.length_nil]
    congr 1
    omega

/-! ## the round trip -/

theorem decompress_of_laid {w : Window} {data block : Bytes} (h : Laid w (tokenize w data) block)
    (before after : Bytes) : decompress (before ++ block ++ after) before.length = .ok data := by
  obtain ⟨hfits, out, hout, hexpand⟩ := expand_tokenize w data
  unfold decompress output
  rw [List.append_assoc, List.drop_left, h.contents hfits]
  show Except.mapError _ ((expand #[] (tokenize w data)).bind fun out => .ok out.toList) = _
  rw [hexpand]
  show Except.ok out.toList = _
  rw [hout]

/-- the block that is kept is one of the two encodings -/
theorem encode_of_compress {data block : Bytes} (h : compress data = .ok block) :
    ∃ w, encode w data = .ok block := by
  unfold compress at h
  cases hwide : encode .wide data with
  | error e => rw [hwide] at h; cases h
  | ok wide =>
    cases hnarrow : encode .narrow data with
    | error e => rw [hwide, hnarrow] at h; cases h
    | ok narrow =>
      rw [hwide, hnarrow] at h
      have h : (if narrow.length < wide.length then narrow else wide) = block := Except.ok.inj h
      split at h
      · exact ⟨.narrow, by rw [hnarrow, h]⟩
      · exact ⟨.wide, by rw [hwide, h]⟩

theorem laid_of_compress {data block : Bytes} (h : compress data = .ok block) :
    ∃ w, Laid w (tokenize w data) block := by
  obtain ⟨w, hencode⟩ := encode_of_compress h
  exact ⟨w, laid_of_encode hencode⟩

/-- **A block gives back its data in place, and its own length.** -/
theorem decompress_compress {data block : Bytes} (h : compress data = .ok block)
    (before after : Bytes) :
    decompress (before ++ block ++ after) before.length = .ok data ∧
      blockLength (before ++ block ++ after) before.length = .ok block.length := by
  obtain ⟨w, hlaid⟩ := laid_of_compress h
  exact ⟨decompress_of_laid hlaid before after, hlaid.blockLength before after⟩

/-- a whole packet with a repeated run, and an addendum with a copy of what it is making -/
theorem decompress_compress_repeats :
    compress [1, 2, 3, 1, 2, 3, 1, 2, 3, 4, 5, 6, 7, 8, 9, 10, 11, 11, 11, 11, 11] =
        .ok [10, 0, 8, 1, 2, 3, 3, 48, 4, 5, 6, 7, 5, 22, 0, 16, 8, 9, 10, 11, 1, 16, 0] ∧
      decompress ([63, 255] ++
          [10, 0, 8, 1, 2, 3, 3, 48, 4, 5, 6, 7, 5, 22, 0, 16, 8, 9, 10, 11, 1, 16, 0] ++ [63]) 2 =
        .ok [1, 2, 3, 1, 2, 3, 1, 2, 3, 4, 5, 6, 7, 8, 9, 10, 11, 11, 11, 11, 11] ∧
      blockLength ([63, 255] ++
          [10, 0, 8, 1, 2, 3, 3, 48, 4, 5, 6, 7, 5, 22, 0, 16, 8, 9, 10, 11, 1, 16, 0] ++ [63]) 2 =
        .ok 23 := by
  have hblock : compress [1, 2, 3, 1, 2, 3, 1, 2, 3, 4, 5, 6, 7, 8, 9, 10, 11, 11, 11, 11, 11] =
      .ok [10, 0, 8, 1, 2, 3, 3, 48, 4, 5, 6, 7, 5, 22, 0, 16, 8, 9, 10, 11, 1, 16, 0] :=
    toOption_eq_some.mp (by decide +kernel)
  exact ⟨hblock, decompress_compress hblock [63, 255] [63]⟩

end Cartridge.Block
