import Cartridge.Assembly
import Cartridge.Proofs.Command.Constructed
import Cartridge.Proofs.Text.Words

/-!
# Source texts and commands

A text that assembles gives whole commands, whatever forms its lines have; and every whole command
has a line of its own: the opcode by its number, and the argument bytes.

* `Assembly.isWhole_of_assemble`   what a text gives are whole commands;
* `Assembly.WritesByte`, `Assembly.WritesLine`, `Assembly.Writes`   the texts that have the opcode and
                         the arguments of a command on each line, in hexadecimal;
* `Assembly.assembleLine_of_writes`   such a line gives its command;
* `Assembly.assemble_reaches`   **the assembler gives whole commands, and all of them.**
-/

namespace Cartridge

namespace Assembly

open Text

/-! ## what a text gives -/

section
variable {line : Nat} {mnemonic : List Char} {args : List (List Char)} {c : Command}

theorem built_eq_ok {command : Except ArgumentFault Command} :
    built line mnemonic command = .ok c ↔ command = .ok c := mapError_eq_ok

/-- the forms are built by the constructors -/
theorem constructed_of_formCommand {form : Form} (h : formCommand line mnemonic form args = .ok c) :
    Command.Constructed c := by
  unfold formCommand at h
  split at h
  · obtain ⟨_, _, h⟩ := bind_eq_ok.mp h
    obtain ⟨_, _, h⟩ := bind_eq_ok.mp h
    obtain ⟨_, _, h⟩ := bind_eq_ok.mp h
    exact .call (built_eq_ok.mp h)
  · cases h
  · obtain ⟨_, _, h⟩ := bind_eq_ok.mp h
    exact .setVisible (built_eq_ok.mp h)
  · obtain ⟨_, _, h⟩ := bind_eq_ok.mp h
    exact .removeObject (built_eq_ok.mp h)
  · obtain ⟨_, _, h⟩ := bind_eq_ok.mp h
    exact .stringIndex (built_eq_ok.mp h)
  · obtain ⟨_, _, h⟩ := bind_eq_ok.mp h
    obtain ⟨_, _, h⟩ := bind_eq_ok.mp h
    exact .copy (built_eq_ok.mp h)
  · cases h

theorem plainCommand_eq_ok : plainCommand line mnemonic args = .ok c ↔
    ∃ opcode bytes, Opcode.ofMnemonic? mnemonic = some opcode ∧
      args.mapM (byteOperand line) = .ok bytes ∧
      args.length = ((Command.sizeAt 0 (opcode :: bytes)).toOption.getD
        (Opcode.info opcode).size) - 1 ∧ Command.make opcode bytes = .ok c := by
  unfold plainCommand
  cases Opcode.ofMnemonic? mnemonic with
  | none => simp
  | some opcode =>
    simp only [bind_eq_ok, unless_throw_eq_ok, built_eq_ok, not_not]
    simp

/-- a line gives a command by one of the forms, or by the arguments as they are -/
theorem assembleLine_eq_some {text : List Char} : assembleLine line text = .ok (some c) ↔
    ∃ mnemonic args, words text = mnemonic :: args ∧ isComment mnemonic = false ∧
      ((∃ form, Form.ofMnemonic? mnemonic = some form ∧
          formCommand line mnemonic form args = .ok c) ∨
        (Form.ofMnemonic? mnemonic = none ∧ plainCommand line mnemonic args = .ok c)) := by
  unfold assembleLine
  cases words text with
  | nil => simp
  | cons mnemonic args =>
    cases hcomment : isComment mnemonic with
    | true => simp [hcomment]
    | false =>
      cases hform : Form.ofMnemonic? mnemonic with
      | none => simp [hcomment, hform, map_eq_ok]
      | some form => simp [hcomment, hform, map_eq_ok]

theorem isWhole_of_assembleLine {text : List Char} (h : assembleLine line text = .ok (some c)) :
    c.IsWhole := by
  obtain ⟨mnemonic, args, _, _, ⟨form, _, h⟩ | ⟨_, h⟩⟩ := assembleLine_eq_some.mp h
  · exact (constructed_of_formCommand h).isWhole
  · obtain ⟨_, _, _, _, _, h⟩ := plainCommand_eq_ok.mp h
    exact (Command.make_eq_ok.mp h).2

end

theorem assembleLines_eq_ok {numbered : List (List Char × Nat)} {cs : List Command} :
    assembleLines numbered = .ok cs ↔ ∃ found, List.Forall₂
      (fun (entry : List Char × Nat) c => assembleLine entry.2 entry.1 = .ok c) numbered found ∧
        found.filterMap id = cs := by
  unfold assembleLines
  rw [bind_eq_ok]
  simp only [mapM_eq_ok, pure, Except.pure, Except.ok.injEq]

/-- **What a text gives are whole commands.** -/
theorem isWhole_of_assemble {source : List Char} {cs : List Command}
    (h : assemble source = .ok cs) : ∀ c ∈ cs, c.IsWhole := by
  obtain ⟨found, hlines, rfl⟩ := assembleLines_eq_ok.mp h
  intro c hc
  obtain ⟨_, hfound, rfl⟩ := List.mem_filterMap.mp hc
  obtain ⟨entry, _, hline⟩ := exists_of_mem_right hlines hfound
  exact isWhole_of_assembleLine hline

/-! ## texts of opcodes and bytes -/

/-- the digit of a number below sixteen, a letter in either case -/
def hexDigit (capital : Bool) (n : Nat) : Char :=
  (if capital then "0123456789ABCDEF".toList else "0123456789abcdef".toList).getD n '0'

/-- `Op` and the two digits of the opcode, in capitals -/
def opcodeName (opcode : UInt8) : List Char :=
  ['O', 'p', hexDigit true (opcode.toNat / 16), hexDigit true (opcode.toNat % 16)]

/-- `0x` and the two digits of the byte, each in either case -/
inductive WritesByte (b : UInt8) : List Char → Prop
  | mk (high low : Bool) :
    WritesByte b ['0', 'x', hexDigit high (b.toNat / 16), hexDigit low (b.toNat % 16)]

/-- the opcode and the argument bytes, with spaces between -/
inductive WritesLine (c : Command) : List Char → Prop
  | mk {operands : List (List Char)} (hargs : List.Forall₂ WritesByte c.args operands) :
    WritesLine c (spaced (opcodeName c.opcode) operands)

/-- one line for each command; a newline may end the last one -/
inductive Writes : List Command → List Char → Prop
  | nil : Writes [] []
  | last {c : Command} {line : List Char} (hline : WritesLine c line) : Writes [c] line
  | cons {c : Command} {cs : List Command} {line rest : List Char} (hline : WritesLine c line)
    (hrest : Writes cs rest) : Writes (c :: cs) (line ++ '\n' :: rest)

/-! ## digits -/

theorem digit?_hexDigit (capital : Bool) {n : Nat} (h : n < 16) :
    digit? 16 (hexDigit capital n) = some n := by
  have hall : ∀ capital, ∀ n < 16, digit? 16 (hexDigit capital n) = some n := by decide +kernel
  exact hall capital n h

/-- a digit is no sign, no comma and no blank -/
theorem hexDigit_plain (capital : Bool) {n : Nat} (h : n < 16) :
    hexDigit capital n ≠ '+' ∧ hexDigit capital n ≠ ',' ∧ isBlank (hexDigit capital n) = false := by
  have hall : ∀ capital, ∀ n < 16, hexDigit capital n ≠ '+' ∧ hexDigit capital n ≠ ',' ∧
      isBlank (hexDigit capital n) = false := by decide +kernel
  exact hall capital n h

theorem high_lt (b : UInt8) : b.toNat / 16 < 16 := by
  have := b.toNat_lt
  omega

theorem low_lt (b : UInt8) : b.toNat % 16 < 16 := Nat.mod_lt _ (by decide)

/-- the two digits of a byte are read as its number -/
theorem readUnsigned_byte (b : UInt8) (high low : Bool) {limit : Nat} (h : 0xFF ≤ limit) :
    readUnsigned 16 limit [hexDigit high (b.toNat / 16), hexDigit low (b.toNat % 16)] =
      .ok b.toNat := by
  have hplus := (hexDigit_plain high (high_lt b)).1
  have hb := b.toNat_lt
  have hfirst : ¬ limit < 16 * 0 + b.toNat / 16 := by omega
  have hboth : ¬ limit < b.toNat := by omega
  have hvalue : 16 * (16 * 0 + b.toNat / 16) + b.toNat % 16 = b.toNat := by omega
  rw [readUnsigned.eq_4 _ _ _ (by simp) (by simp [hplus]) (by simp [hplus])]
  rw [readDigits, digit?_hexDigit high (high_lt b)]
  simp only [hfirst, if_false]
  rw [readDigits, digit?_hexDigit low (low_lt b)]
  simp only [hvalue, hboth, if_false, readDigits]

/-! ## lines -/

/-- two letters and the two digits of a byte -/
theorem isWord_digits {p q : Char} (hp : isBlank p = false) (hq : isBlank q = false)
    (high low : Bool) (b : UInt8) :
    IsWord [p, q, hexDigit high (b.toNat / 16), hexDigit low (b.toNat % 16)] := by
  refine ⟨List.cons_ne_nil _ _, ?_⟩
  have hhigh := (hexDigit_plain high (high_lt b)).2.2
  have hlow := (hexDigit_plain low (low_lt b)).2.2
  simp [hp, hq, hhigh, hlow]

section
variable {b : UInt8} {word : List Char} (h : WritesByte b word)
include h

theorem WritesByte.isWord : IsWord word := by
  cases h with
  | mk high low => exact isWord_digits (by decide) (by decide) high low b

theorem byteOperand_of_writes (line : Nat) : byteOperand line word = .ok b := by
  cases h with
  | mk high low =>
    have hcomma := (hexDigit_plain low (low_lt b)).2.1
    have hdigits : withoutCommas
        ['0', 'x', hexDigit high (b.toNat / 16), hexDigit low (b.toNat % 16)] =
          ['0', 'x', hexDigit high (b.toNat / 16), hexDigit low (b.toNat % 16)] := by
      simp [withoutCommas, hcomma]
    have hread : readNumber maxNumber
        ['0', 'x', hexDigit high (b.toNat / 16), hexDigit low (b.toNat % 16)] = .ok b.toNat :=
      readUnsigned_byte b high low (by decide)
    have hfits : ¬ OperandKind.byte.limit < b.toNat := Nat.not_lt_of_le (Nat.le_of_lt_succ b.toNat_lt)
    rw [byteOperand, operand, number, hdigits, hread]
    show (if OperandKind.byte.limit < b.toNat then _ else Except.ok b.toNat).map UInt8.ofNat = .ok b
    rw [if_neg hfits, Except.map, UInt8.ofNat_toNat]

end

theorem isWord_opcodeName (opcode : UInt8) : IsWord (opcodeName opcode) :=
  isWord_digits (by decide) (by decide) true true opcode

/-- the mnemonics with operands of their own have at least seven letters -/
theorem ofMnemonic?_of_short {mnemonic : List Char} (h : mnemonic.length < 7) :
    Form.ofMnemonic? mnemonic = none := by
  have hne : ∀ name : String, 7 ≤ name.toList.length →
      String.ofList (mnemonic.map Char.toUpper) ≠ name := by
    rintro _ hlong rfl
    rw [String.toList_ofList, List.length_map] at hlong
    omega
  unfold Form.ofMnemonic?
  split
  all_goals first
    | rfl
    | rename_i heq
      exact absurd heq (hne _ (by decide))

theorem ofMnemonic?_opcodeName (opcode : UInt8) :
    Opcode.ofMnemonic? (opcodeName opcode) = some opcode := by
  have hread := readUnsigned_byte opcode true true (Nat.le_refl 0xFF)
  have hnumber : Opcode.ofNumber? (opcodeName opcode) = some opcode := by
    show (if 'p' = 'p' ∨ 'p' = 'P' then _ else none) = some opcode
    rw [if_pos (.inl rfl), hread]
    show some (UInt8.ofNat opcode.toNat) = some opcode
    rw [UInt8.ofNat_toNat]
  rw [Opcode.ofMnemonic?, hnumber]
  rfl

section
variable {c : Command} {text : List Char} (h : WritesLine c text)
include h

theorem WritesLine.lines : lines text = [text] := by
  cases h with
  | mk hargs =>
    refine lines_spaced (isWord_opcodeName c.opcode) fun word hword => ?_
    obtain ⟨b, _, hbyte⟩ := exists_of_mem_right hargs hword
    exact hbyte.isWord

/-- **Every whole command has a line that gives it.** -/
theorem assembleLine_of_writes (hwhole : c.IsWhole) (line : Nat) :
    assembleLine line text = .ok (some c) := by
  cases h with
  | @mk operands hargs =>
    have hwords : words (spaced (opcodeName c.opcode) operands) =
        opcodeName c.opcode :: operands := by
      refine words_spaced (isWord_opcodeName c.opcode) fun word hword => ?_
      obtain ⟨b, _, hbyte⟩ := exists_of_mem_right hargs hword
      exact hbyte.isWord
    have hbytes : operands.mapM (byteOperand line) = .ok c.args :=
      mapM_eq_ok.mpr (hargs.flip.imp fun word b hbyte => byteOperand_of_writes hbyte line)
    -- the assembler asks for as many operands as these very arguments announce
    have hsize : Command.sizeAt 0 (c.opcode :: c.args) = .ok c.length := hwhole
    have hshort : (opcodeName c.opcode).length < 7 := by
      show 4 < 7
      decide
    refine assembleLine_eq_some.mpr ⟨_, _, hwords, rfl, .inr ⟨ofMnemonic?_of_short hshort, ?_⟩⟩
    refine plainCommand_eq_ok.mpr ⟨c.opcode, c.args, ofMnemonic?_opcodeName c.opcode, hbytes, ?_,
      Command.make_self_iff.mpr hwhole⟩
    rw [hsize, ← hargs.length_eq]
    rfl

end

/-! ## texts -/

theorem assembleLines_cons {text : List Char} {line : Nat} {numbered : List (List Char × Nat)}
    {c : Command} {cs : List Command} (hline : assembleLine line text = .ok (some c))
    (hrest : assembleLines numbered = .ok cs) :
    assembleLines ((text, line) :: numbered) = .ok (c :: cs) := by
  obtain ⟨found, hfound, rfl⟩ := assembleLines_eq_ok.mp hrest
  exact assembleLines_eq_ok.mpr ⟨some c :: found, .cons hline hfound, rfl⟩

/-- the lines may be numbered from anywhere -/
theorem assembleLines_of_writes {cs : List Command} {source : List Char} (h : Writes cs source)
    (hwhole : ∀ c ∈ cs, c.IsWhole) (first : Nat) :
    assembleLines ((lines source).zipIdx first) = .ok cs := by
  induction h generalizing first with
  | nil => rfl
  | last hline =>
    have hc := hwhole _ (List.mem_singleton_self _)
    rw [hline.lines]
    exact assembleLines_cons (assembleLine_of_writes hline hc first) rfl
  | @cons c cs line rest hline _ ih =>
    rw [List.forall_mem_cons] at hwhole
    rw [lines_append_newline, hline.lines, List.singleton_append, List.zipIdx_cons]
    exact assembleLines_cons (assembleLine_of_writes hline hwhole.1 first) (ih hwhole.2 (first + 1))

/-- **The assembler gives whole commands, and all of them.**  What a text gives is accepted by
`make`, and its bytes are read as just these commands; and commands that `make` accepts are given by
the text that has a line for each of them, with `Op` and the two digits of the opcode in front of
the argument bytes. -/
theorem assemble_reaches :
    (∀ (source : List Char) (cs : List Command), assemble source = .ok cs →
      (∀ c ∈ cs, Command.make c.opcode c.args = .ok c) ∧
      ∃ bytes, assembleBytes source = .ok bytes ∧ readAll bytes = ⟨Command.laidFrom 0 cs, none⟩) ∧
    (∀ (cs : List Command) (source : List Char),
      (∀ c ∈ cs, Command.make c.opcode c.args = .ok c) → Writes cs source →
      assemble source = .ok cs) := by
  simp only [Command.make_self_iff]
  constructor
  · intro source cs h
    have hwhole := isWhole_of_assemble h
    refine ⟨hwhole, Command.flat cs, ?_, readAll_flat hwhole⟩
    rw [assembleBytes, h]
    rfl
  · intro cs source hwhole hwrites
    exact assembleLines_of_writes hwrites hwhole 1

/-- a copy of one byte, and an opcode without a mnemonic of its own -/
theorem assemble_reaches_copy :
    let cs : List Command := [⟨0x4E, [0x00, 0x20, 0x7E, 3, 0, 0xFB]⟩, ⟨0xFB, []⟩]
    let source := "Op4E 0x00 0x20 0x7E 0x03 0x00 0xfB\nOpFB".toList
    (∀ c ∈ cs, Command.make c.opcode c.args = .ok c) ∧ Writes cs source ∧
      assemble source = .ok cs ∧ ∃ bytes, assembleBytes source = .ok bytes ∧
        readAll bytes = ⟨[(0, ⟨0x4E, [0x00, 0x20, 0x7E, 3, 0, 0xFB]⟩), (7, ⟨0xFB, []⟩)], none⟩ := by
  intro cs source
  have hmake : ∀ c ∈ cs, Command.make c.opcode c.args = .ok c := by
    simp only [← toOption_eq_some]
    decide +kernel
  have hargs : List.Forall₂ WritesByte [0x00, 0x20, 0x7E, 3, 0, 0xFB]
      ["0x00".toList, "0x20".toList, "0x7E".toList, "0x03".toList, "0x00".toList, "0xfB".toList] :=
    .cons (.mk true true) (.cons (.mk true true) (.cons (.mk true true) (.cons (.mk true true)
      (.cons (.mk true true) (.cons (.mk false true) .nil)))))
  have hcopy := WritesLine.mk (c := ⟨0x4E, [0x00, 0x20, 0x7E, 3, 0, 0xFB]⟩) hargs
  have hplain := WritesLine.mk (c := ⟨0xFB, []⟩) .nil
  have hwrites : Writes cs source := Writes.cons hcopy (.last hplain)
  have hassemble := assemble_reaches.2 cs source hmake hwrites
  exact ⟨hmake, hwrites, hassemble, (assemble_reaches.1 source cs hassemble).2⟩

end Assembly

end Cartridge
