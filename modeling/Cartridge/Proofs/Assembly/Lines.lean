import Cartridge.Proofs.Assembly.Commands

/-!
# Texts put together

A text is assembled line by line, and nothing of a line but its number is known to the others.  So
of two texts, one above the other, the upper one is assembled as it is by itself, and so is the
lower one, but that its faults are found so many lines further down.

* `AssemblyFault.lower`    a fault so many lines further down;
* `Assembly.assembleLine_add`   a line that has another number gives the same, or the same fault
                           there;
* `Assembly.assembleLines_append`, `Assembly.assembleLines_lower`   lines behind others;
* `Assembly.assemble_append_newline`   **two texts with a newline between them**.
-/

namespace Cartridge

/-- the same fault `n` lines further down -/
def AssemblyFault.lower (n : Nat) : AssemblyFault → AssemblyFault
  | unknownMnemonic line mnemonic => unknownMnemonic (line + n) mnemonic
  | argumentCount line mnemonic expected got => argumentCount (line + n) mnemonic expected got
  | notANumber line token => notANumber (line + n) token
  | outOfRange line token kind => outOfRange (line + n) token kind
  | refused line mnemonic cause => refused (line + n) mnemonic cause

namespace Assembly

open Text

/-! ## one line -/

section
variable (n line : Nat)

theorem number_add (token : List Char) :
    number (line + n) token = (number line token).mapError (·.lower n) := by
  unfold number
  dsimp only
  cases readNumber maxNumber (withoutCommas token) with
  | error fault => rfl
  | ok value => rfl

theorem operand_add (kind : OperandKind) (token : List Char) :
    operand (line + n) kind token = (operand line kind token).mapError (·.lower n) := by
  rw [operand, operand, mapError_bind, number_add]
  refine congrArg _ (funext fun value => ?_)
  by_cases hlimit : kind.limit < value
  · rw [if_pos hlimit, if_pos hlimit]
    rfl
  · rw [if_neg hlimit, if_neg hlimit]
    rfl

theorem byteOperand_add (token : List Char) :
    byteOperand (line + n) token = (byteOperand line token).mapError (·.lower n) := by
  rw [byteOperand, byteOperand, mapError_map, operand_add]

theorem mapM_byteOperand_add (args : List (List Char)) :
    args.mapM (byteOperand (line + n)) =
      (args.mapM (byteOperand line)).mapError (·.lower n) :=
  mapM_mapError fun token _ => byteOperand_add n line token

theorem built_add (mnemonic : List Char) (command : Except ArgumentFault Command) :
    built (line + n) mnemonic command = (built line mnemonic command).mapError (·.lower n) := by
  cases command with
  | error fault => rfl
  | ok c => rfl

theorem formCommand_add (mnemonic : List Char) (form : Form) (args : List (List Char)) :
    formCommand (line + n) mnemonic form args =
      (formCommand line mnemonic form args).mapError (·.lower n) := by
  unfold formCommand
  split
  · simp only [mapError_bind, operand_add, built_add]
  · rfl
  · simp only [mapError_bind, operand_add, built_add]
  · simp only [mapError_bind, operand_add, built_add]
  · simp only [mapError_bind, operand_add, built_add]
  · simp only [mapError_bind, operand_add, mapM_byteOperand_add, built_add]
  · rfl

theorem plainCommand_add (mnemonic : List Char) (args : List (List Char)) :
    plainCommand (line + n) mnemonic args =
      (plainCommand line mnemonic args).mapError (·.lower n) := by
  unfold plainCommand
  cases Opcode.ofMnemonic? mnemonic with
  | none => rfl
  | some opcode =>
    dsimp only
    rw [mapError_bind, mapM_byteOperand_add]
    refine congrArg _ (funext fun bytes => ?_)
    split
    · rfl
    · exact built_add n line mnemonic _

/-- **The number of a line is in its fault, and nowhere else.** -/
theorem assembleLine_add (text : List Char) :
    assembleLine (line + n) text = (assembleLine line text).mapError (·.lower n) := by
  unfold assembleLine
  cases words text with
  | nil => rfl
  | cons mnemonic args =>
    dsimp only
    cases isComment mnemonic with
    | true => rfl
    | false =>
      cases Form.ofMnemonic? mnemonic with
      | none => exact (congrArg _ (plainCommand_add n line mnemonic args)).trans (mapError_map ..).symm
      | some form =>
        exact (congrArg _ (formCommand_add n line mnemonic form args)).trans (mapError_map ..).symm

end

/-! ## lines behind others -/

theorem assembleLines_lower (n : Nat) (numbered : List (List Char × Nat)) :
    assembleLines (numbered.map fun entry => (entry.1, entry.2 + n)) =
      (assembleLines numbered).mapError (·.lower n) := by
  rw [assembleLines, assembleLines, mapError_bind, List.mapM_map]
  refine congrArg (· >>= _) (mapM_mapError fun entry _ => ?_)
  exact assembleLine_add n entry.2 entry.1

/-- the first fault ends it -/
theorem assembleLines_append (above below : List (List Char × Nat)) :
    assembleLines (above ++ below) = (do
      let cs ← assembleLines above
      let ds ← assembleLines below
      return cs ++ ds) := by
  unfold assembleLines
  rw [List.mapM_append]
  generalize (List.mapM _ above : Except AssemblyFault _) = upper
  generalize (List.mapM _ below : Except AssemblyFault _) = lower
  cases upper with
  | error fault => rfl
  | ok upper =>
    cases lower with
    | error fault => rfl
    | ok lower => exact congrArg Except.ok List.filterMap_append

theorem length_lines (text : List Char) : (lines text).length = text.count '\n' + 1 := by
  induction text with
  | nil => rfl
  | cons c text ih =>
    obtain ⟨line, rest, hlines⟩ := lines_eq_cons text
    rw [hlines, List.length_cons] at ih
    rw [lines_cons, hlines, addToLines, List.count_cons]
    by_cases hc : c = '\n'
    · rw [if_pos hc, List.length_cons, List.length_cons, ih, if_pos (beq_iff_eq.mpr hc)]
    · rw [if_neg hc, List.length_cons, ih, if_neg (by rwa [beq_iff_eq]), Nat.add_zero]

/-- **Of two texts, one above the other, each is assembled as it is by itself.**  The first fault is
that of the whole, and one of the lower text is found below the lines of the upper one. -/
theorem assemble_append_newline (a b : List Char) :
    assemble (a ++ '\n' :: b) =
      match assemble a, assemble b with
      | .error fault, _ => .error fault
      | .ok _, .error fault => .error (fault.lower (a.count '\n' + 1))
      | .ok cs, .ok ds => .ok (cs ++ ds) := by
  have hbelow : (lines b).zipIdx (1 + (lines a).length) =
      ((lines b).zipIdx 1).map fun entry => (entry.1, entry.2 + (a.count '\n' + 1)) := by
    rw [length_lines, Nat.add_comm 1]
    exact (List.map_snd_add_zipIdx_eq_zipIdx ..).symm
  unfold assemble
  rw [lines_append_newline, List.zipIdx_append, assembleLines_append, hbelow, assembleLines_lower]
  cases assembleLines ((lines a).zipIdx 1) with
  | error fault => rfl
  | ok cs =>
    cases assembleLines ((lines b).zipIdx 1) with
    | error fault => rfl
    | ok ds => rfl

/-- a comment, an empty line and a command above a fault -/
example : assemble "# first\n\nHideObject 3\r\nHideObject".toList =
    .error (.argumentCount 4 "HideObject" 1 0) := by
  decide +kernel

end Assembly

end Cartridge
