import Cartridge.Proofs.Assembly.Commands
import Mathlib

/-!
# Mnemonics in any case

The case of the letters of a mnemonic does not matter, but for one letter: the number of an opcode
is written behind `Op` or `OP`, and no other spelling of these two letters.  A line that writes it
behind a small `o` has no command at all.

* `SameLetters`            equal but for the case of ASCII letters;
* `Assembly.RecasesLine`, `Assembly.Recases`   lines and texts whose first words have other cases;
* `Assembly.HasLowNumber`  a text in which a number is written behind a small `o`;
* `AssemblyFault.lowercase`   a fault with the mnemonic that it quotes in small letters;
* `Assembly.assembleLine_recased`   a line whose first word has another case;
* `Assembly.assemble_recased`   **texts whose mnemonics differ in case**.
-/

namespace Cartridge

open Text

/-- equal but for the case of ASCII letters -/
def SameLetters (a b : List Char) : Prop := a.map Char.toLower = b.map Char.toLower

instance (a b : List Char) : Decidable (SameLetters a b) :=
  inferInstanceAs (Decidable (a.map Char.toLower = b.map Char.toLower))

/-- the fault with the mnemonic that it quotes in small letters -/
def AssemblyFault.lowercase : AssemblyFault → AssemblyFault
  | unknownMnemonic line mnemonic => unknownMnemonic line (small mnemonic)
  | argumentCount line mnemonic expected got => argumentCount line (small mnemonic) expected got
  | notANumber line token => notANumber line token
  | outOfRange line token kind => outOfRange line token kind
  | refused line mnemonic cause => refused line (small mnemonic) cause
where
  small (s : String) : String := String.ofList (s.toList.map Char.toLower)

/-! ## characters -/

theorem toNat_toLower {c : Char} (h : c.isUpper = true) :
    c.toLower.toNat = c.toNat + 32 ∧ 65 ≤ c.toNat ∧ c.toNat ≤ 90 := by
  have hbounds : 65 ≤ c.toNat ∧ c.toNat ≤ 90 := by
    simpa [Char.isUpper, UInt32.le_iff_toNat_le] using h
  refine ⟨?_, hbounds⟩
  rw [Char.toLower_eq_of_isUpper h, Char.toNat_ofNat, if_pos (by left; omega)]

theorem isBlank_toLower (c : Char) : isBlank c.toLower = isBlank c := by
  by_cases h : c.isUpper = true
  · obtain ⟨hn, hlow, hhigh⟩ := toNat_toLower h
    unfold isBlank
    rw [hn]
    grind
  · rw [Char.toLower_eq_of_not_isUpper h]

theorem digit?_toLower (radix : Nat) (c : Char) : digit? radix c.toLower = digit? radix c := by
  by_cases h : c.isUpper = true
  · obtain ⟨hn, hlow, hhigh⟩ := toNat_toLower h
    simp only [digit?, Char.le_def, UInt32.le_iff_toNat_le, Char.toNat_val, hn, Char.reduceToNat]
    grind
  · rw [Char.toLower_eq_of_not_isUpper h]

/-- only letters have another case -/
theorem toLower_eq_iff {c d : Char} (h : d.isAlpha = false) : c.toLower = d ↔ c = d := by
  have hd : d.toLower = d := by
    apply Char.toLower_eq_of_not_isUpper
    intro hupper
    rw [Char.isAlpha, hupper] at h
    cases h
  constructor
  · intro hc
    have hnone : ¬ c.isUpper = true := by
      intro hupper
      rw [← hc, Char.isAlpha_toLower_eq_isAlpha, Char.isAlpha, hupper] at h
      cases h
    rw [← hc, Char.toLower_eq_of_not_isUpper hnone]
  · rintro rfl
    exact hd

theorem toLower_eq_iff_of_isLower {c d : Char} (h : d.isLower = true) :
    c.toLower = d ↔ c = d ∨ c = d.toUpper := by
  have hd : d.toLower = d := Char.toLower_eq_of_not_isUpper (Char.not_isUpper_of_isLower h)
  constructor
  · rintro rfl
    by_cases hc : c.isUpper = true
    · right
      rw [Char.toUpper_toLower_eq_toUpper,
        Char.toUpper_eq_of_not_isLower (Char.not_isLower_of_isUpper hc)]
    · exact .inl (Char.toLower_eq_of_not_isUpper hc).symm
  · rintro (rfl | rfl)
    · exact hd
    · rw [Char.toLower_toUpper_eq_toLower, hd]

/-! ## words -/

namespace SameLetters

variable {a b : List Char}

theorem symm (h : SameLetters a b) : SameLetters b a := Eq.symm h

theorem length_eq (h : SameLetters a b) : a.length = b.length := by
  rw [← List.length_map (f := Char.toLower), h, List.length_map]

theorem map_toUpper (h : SameLetters a b) : a.map Char.toUpper = b.map Char.toUpper := by
  have hboth : ∀ cs : List Char, cs.map Char.toUpper = (cs.map Char.toLower).map Char.toUpper := by
    intro cs
    rw [List.map_map]
    exact List.map_congr_left fun c _ => (Char.toUpper_toLower_eq_toUpper c).symm
  rw [hboth a, hboth b, h]

theorem isWord (h : SameLetters a b) (ha : IsWord a) : IsWord b := by
  constructor
  · rintro rfl
    exact ha.nonempty (List.eq_nil_of_length_eq_zero h.length_eq)
  · intro c hc
    have hmem : c.toLower ∈ a.map Char.toLower := h ▸ List.mem_map_of_mem hc
    obtain ⟨d, hd, heq⟩ := List.mem_map.mp hmem
    rw [← isBlank_toLower, ← heq, isBlank_toLower, ha.unbroken d hd]

end SameLetters

/-- a prefix without letters has no other case -/
theorem isPrefixOf_toLower {marks : List Char} (h : ∀ c ∈ marks, c.isAlpha = false)
    (cs : List Char) : marks.isPrefixOf (cs.map Char.toLower) = marks.isPrefixOf cs := by
  induction marks generalizing cs with
  | nil => rfl
  | cons m marks ih =>
    rw [List.forall_mem_cons] at h
    cases cs with
    | nil => rfl
    | cons c cs =>
      have hfirst : (m == c.toLower) = (m == c) := by
        rw [Bool.eq_iff_iff, beq_iff_eq, beq_iff_eq, eq_comm, toLower_eq_iff h.1, eq_comm]
      rw [List.map_cons, List.isPrefixOf_cons_cons, List.isPrefixOf_cons_cons, hfirst, ih h.2]

/-! ## numbers -/

theorem readDigits_toLower (radix limit n : Nat) (cs : List Char) :
    readDigits radix limit n (cs.map Char.toLower) = readDigits radix limit n cs := by
  induction cs generalizing n with
  | nil => rfl
  | cons c cs ih =>
    rw [List.map_cons, readDigits, readDigits, digit?_toLower]
    simp only [ih]

theorem readUnsigned_toLower (radix limit : Nat) (cs : List Char) :
    readUnsigned radix limit (cs.map Char.toLower) = readUnsigned radix limit cs := by
  cases cs with
  | nil => rfl
  | cons c cs =>
    by_cases hc : c = '+'
    · rw [hc]
      cases cs with
      | nil => rfl
      | cons d cs => exact readDigits_toLower radix limit 0 (d :: cs)
    · have hc' : c.toLower ≠ '+' := by rwa [Ne, toLower_eq_iff (by decide)]
      have hplain (d : Char) (ds : List Char) (hd : d ≠ '+') :
          readUnsigned radix limit (d :: ds) = readDigits radix limit 0 (d :: ds) :=
        readUnsigned.eq_4 _ _ _ (by simp) (by simp [hd]) (by simp [hd])
      rw [List.map_cons, hplain _ _ hc', hplain _ _ hc]
      exact readDigits_toLower radix limit 0 (c :: cs)

namespace Opcode

theorem ofNumber?_eq (p x y : Char) :
    ofNumber? ['O', p, x, y] =
      if p.toLower = 'p' then
        (readUnsigned 16 0xFF ([x, y].map Char.toLower)).toOption.map UInt8.ofNat
      else none := by
  rw [readUnsigned_toLower, ofNumber?]
  exact if_congr (toLower_eq_iff_of_isLower (by decide)).symm rfl rfl

theorem ofNumber?_eq_none {name : List Char} (h : name.length ≠ 4) : ofNumber? name = none := by
  unfold ofNumber?
  split
  · exact absurd rfl h
  · rfl

/-- behind the `O`, the case of the letters does not matter -/
theorem ofNumber?_congr {a b : List Char} (h : SameLetters a b) :
    ofNumber? ('O' :: a) = ofNumber? ('O' :: b) := by
  by_cases hlength : a.length = 3
  · obtain ⟨p, x, y, rfl⟩ := List.length_eq_three.mp hlength
    obtain ⟨q, u, v, rfl⟩ := List.length_eq_three.mp (h.length_eq ▸ hlength)
    obtain ⟨hp, hrest⟩ := List.cons.inj h
    rw [ofNumber?_eq, ofNumber?_eq, hp, show [x, y].map Char.toLower = _ from hrest]
  · rw [ofNumber?_eq_none (by simpa using hlength),
      ofNumber?_eq_none (by simpa using h.length_eq ▸ hlength)]

theorem ofName?_congr {a b : List Char} (h : SameLetters a b) : ofName? a = ofName? b := by
  unfold ofName? sameLetters
  rw [h]

/-- the number of an opcode behind a small `o` -/
def IsLowNumber (name : List Char) : Prop :=
  name.head? = some 'o' ∧ (ofNumber? ('O' :: name.tail)).isSome = true

instance (name : List Char) : Decidable (IsLowNumber name) :=
  inferInstanceAs (Decidable (_ ∧ _))

theorem ofNumber?_of_head {name : List Char} (h : name.head? ≠ some 'O') :
    ofNumber? name = none := by
  unfold ofNumber?
  split
  · exact absurd rfl h
  · rfl

/-- a number is a number in any case, if its `O` stays a capital -/
theorem ofMnemonic?_congr {a b : List Char} (h : SameLetters a b) (ha : ¬ IsLowNumber a)
    (hb : ¬ IsLowNumber b) : ofMnemonic? a = ofMnemonic? b := by
  -- two words that begin alike; and a word with a capital against one with a small letter
  have hcapital : ∀ {c d : List Char}, SameLetters c d → c.head? = some 'O' → ¬ IsLowNumber d →
      ofNumber? c = ofNumber? d := by
    intro c d hsame hc hd
    obtain ⟨c, rfl⟩ := List.head?_eq_some_iff.mp hc
    obtain ⟨y, d, rfl⟩ := List.exists_cons_of_length_eq_add_one hsame.length_eq.symm
    obtain ⟨hy, htail⟩ := List.cons.inj hsame
    rcases (toLower_eq_iff_of_isLower (by decide)).mp (show y.toLower = 'o' from hy.symm) with
      rfl | rfl
    · have hnone : ofNumber? ('O' :: d) = none := by
        by_contra hsome
        exact hd ⟨rfl, Option.isSome_iff_ne_none.mpr hsome⟩
      rw [ofNumber?_congr htail, hnone, ofNumber?_of_head (by simp)]
    · exact ofNumber?_congr htail
  rw [ofMnemonic?, ofMnemonic?, ofName?_congr h]
  congr 1
  by_cases hc : a.head? = some 'O'
  · exact hcapital h hc hb
  · by_cases hd : b.head? = some 'O'
    · exact (hcapital h.symm hd ha).symm
    · rw [ofNumber?_of_head hc, ofNumber?_of_head hd]

/-- no mnemonic of the table begins like a number -/
theorem ofName?_of_number {name : List Char}
    (h : (name.map Char.toLower).take 2 = ['o', 'p']) : ofName? name = none := by
  -- most mnemonics are told from a number by their first letter, without reading the others
  have htable : ∀ row ∈ table.toList, row.name.front?.map Char.toLower = some 'o' →
      (row.name.toList.map Char.toLower).take 2 ≠ ['o', 'p'] := by decide +kernel
  rw [ofName?, Option.map_eq_none_iff, List.findIdx?_eq_none_iff]
  intro row hrow
  have hne : sameLetters row.name.toList name = false := by
    rw [sameLetters, beq_eq_false_iff_ne]
    intro heq
    rw [← heq] at h
    have hfirst := congrArg List.head? h
    rw [List.head?_take, if_neg (by decide)] at hfirst
    refine htable row hrow ?_ h
    rw [String.front?_eq, ← List.head?_map, hfirst]
    rfl
  rw [hne, Bool.and_false]

/-- a number behind a small `o` names nothing -/
theorem ofMnemonic?_of_low {name : List Char} (h : IsLowNumber name) :
    name.length = 4 ∧ ofMnemonic? name = none := by
  obtain ⟨hhead, hnumber⟩ := h
  obtain ⟨digits, rfl⟩ := List.head?_eq_some_iff.mp hhead
  have hlength : digits.length = 3 := by
    by_contra hne
    rw [List.tail_cons, ofNumber?_eq_none (by simpa using hne)] at hnumber
    cases hnumber
  obtain ⟨p, x, y, rfl⟩ := List.length_eq_three.mp hlength
  have hp : p.toLower = 'p' := by
    by_contra hne
    rw [List.tail_cons, ofNumber?_eq, if_neg hne] at hnumber
    cases hnumber
  refine ⟨rfl, ?_⟩
  rw [ofMnemonic?, ofNumber?_of_head (by simp), ofName?_of_number]
  · rfl
  · show ['o', p.toLower] = ['o', 'p']
    rw [hp]

end Opcode

/-! ## lines -/

namespace Assembly

/-- the first word of a line is the number of an opcode behind a small `o` -/
def LowNumberIn (line : List Char) : Prop := ∃ name ∈ (words line).head?, Opcode.IsLowNumber name

instance (line : List Char) : Decidable (LowNumberIn line) :=
  inferInstanceAs (Decidable (∃ name ∈ (words line).head?, Opcode.IsLowNumber name))

/-- a line is as it was, or the letters of its first word have other cases -/
inductive RecasesLine : List Char → List Char → Prop
  | same (line : List Char) : RecasesLine line line
  | first {indent name name' rest : List Char} (hindent : ∀ c ∈ indent, isBlank c = true)
    (hname : IsWord name) (hrest : ∀ c ∈ rest.head?, isBlank c = true)
    (hletters : SameLetters name name') :
    RecasesLine (indent ++ (name ++ rest)) (indent ++ (name' ++ rest))

theorem words_blank {c : Char} (h : isBlank c = true) (text : List Char) :
    words (c :: text) = words text := by
  rw [words_eq, wordState_blank h]
  rfl

theorem words_of_indent {indent text : List Char} (h : ∀ c ∈ indent, isBlank c = true) :
    words (indent ++ text) = words text := by
  induction indent with
  | nil => rfl
  | cons c indent ih =>
    rw [List.forall_mem_cons] at h
    rw [List.cons_append, words_blank h.1, ih h.2]

theorem words_first {name rest : List Char} (hname : IsWord name)
    (hrest : ∀ c ∈ rest.head?, isBlank c = true) : words (name ++ rest) = name :: words rest := by
  cases rest with
  | nil => rw [List.append_nil, words_word hname]; rfl
  | cons c rest =>
    have hc : isBlank c = true := hrest c rfl
    rw [words_word_blank hname hc, words_blank hc]

/-- such lines have the same words, but for the first one -/
theorem RecasesLine.words_eq {a b : List Char} (h : RecasesLine a b) :
    words a = words b ∨ ∃ name name' args, words a = name :: args ∧ words b = name' :: args ∧
      SameLetters name name' := by
  cases h with
  | same => exact .inl rfl
  | @first _ name name' rest hindent hname hrest hletters =>
    refine .inr ⟨name, name', words rest, ?_, ?_, hletters⟩
    · rw [words_of_indent hindent, words_first hname hrest]
    · rw [words_of_indent hindent, words_first (hletters.isWord hname) hrest]

section
variable (line : Nat) {a b : List Char} (h : SameLetters a b)
include h

theorem small_ofList : AssemblyFault.lowercase.small (String.ofList a) =
    AssemblyFault.lowercase.small (String.ofList b) := by
  unfold AssemblyFault.lowercase.small
  rw [String.toList_ofList, String.toList_ofList, h]

theorem lowercase_miscounted (expected got : Nat) :
    (miscounted line a expected got).lowercase = (miscounted line b expected got).lowercase :=
  congrArg (AssemblyFault.argumentCount line · expected got) (small_ofList h)

theorem built_recased (command : Except ArgumentFault Command) :
    (built line a command).mapError (·.lowercase) =
      (built line b command).mapError (·.lowercase) := by
  cases command with
  | error fault =>
    exact congrArg (Except.error <| AssemblyFault.refused line · fault) (small_ofList h)
  | ok c => rfl

theorem formCommand_recased (form : Form) (args : List (List Char)) :
    (formCommand line a form args).mapError (·.lowercase) =
      (formCommand line b form args).mapError (·.lowercase) := by
  have hbuilt := built_recased line h
  have hcount (expected got : Nat) :
      (Except.error (miscounted line a expected got) : Except _ Command).mapError (·.lowercase) =
        (Except.error (miscounted line b expected got)).mapError (·.lowercase) :=
    congrArg Except.error (lowercase_miscounted line h expected got)
  unfold formCommand
  split
  · simp only [mapError_bind, hbuilt]
  · exact hcount ..
  · simp only [mapError_bind, hbuilt]
  · simp only [mapError_bind, hbuilt]
  · simp only [mapError_bind, hbuilt]
  · simp only [mapError_bind, hbuilt]
  · exact hcount ..

theorem plainCommand_recased (args : List (List Char))
    (hopcode : Opcode.ofMnemonic? a = Opcode.ofMnemonic? b) :
    (plainCommand line a args).mapError (·.lowercase) =
      (plainCommand line b args).mapError (·.lowercase) := by
  unfold plainCommand
  rw [hopcode]
  cases Opcode.ofMnemonic? b with
  | none => exact congrArg (Except.error <| AssemblyFault.unknownMnemonic line ·) (small_ofList h)
  | some opcode =>
    dsimp only
    rw [mapError_bind, mapError_bind]
    refine congrArg _ (funext fun bytes => ?_)
    split
    · exact congrArg Except.error (lowercase_miscounted line h ..)
    · exact built_recased line h _

theorem ofMnemonic?_recased : Form.ofMnemonic? a = Form.ofMnemonic? b := by
  unfold Form.ofMnemonic?
  rw [h.map_toUpper]

theorem isComment_recased : isComment a = isComment b := by
  have hhash : ∀ c ∈ ['#'], c.isAlpha = false := by simp
  have hslashes : ∀ c ∈ ['/', '/'], c.isAlpha = false := by simp
  have hmarks (cs : List Char) : isComment (cs.map Char.toLower) = isComment cs := by
    rw [isComment, isComment, isPrefixOf_toLower hhash, isPrefixOf_toLower hslashes]
  rw [← hmarks a, ← hmarks b, h]

end

/-- the number of an opcode behind a small `o` is the fault of its line -/
theorem assembleLine_of_low (line : Nat) {text : List Char} (h : LowNumberIn text) :
    ∃ fault, assembleLine line text = .error fault := by
  obtain ⟨name, hname, hlow⟩ := h
  obtain ⟨args, hwords⟩ := List.head?_eq_some_iff.mp hname
  obtain ⟨hlength, hopcode⟩ := Opcode.ofMnemonic?_of_low hlow
  obtain ⟨digits, rfl⟩ := List.head?_eq_some_iff.mp hlow.1
  have hcomment : isComment ('o' :: digits) = false := rfl
  have hform : Form.ofMnemonic? ('o' :: digits) = none := ofMnemonic?_of_short (by omega)
  refine ⟨.unknownMnemonic line (String.ofList ('o' :: digits)), ?_⟩
  rw [assembleLine, hwords]
  simp only [hcomment, hform, plainCommand, hopcode]
  rfl

/-- **A line whose first word has another case** gives the same command, or the same fault. -/
theorem assembleLine_recased (line : Nat) {a b : List Char} (h : RecasesLine a b)
    (ha : ¬ LowNumberIn a) (hb : ¬ LowNumberIn b) :
    (assembleLine line a).mapError (·.lowercase) =
      (assembleLine line b).mapError (·.lowercase) := by
  unfold assembleLine
  rcases h.words_eq with hwords | ⟨name, name', args, hwords, hwords', hletters⟩
  · rw [hwords]
  · have hopcode : Opcode.ofMnemonic? name = Opcode.ofMnemonic? name' := by
      refine Opcode.ofMnemonic?_congr hletters (fun hlow => ha ?_) (fun hlow => hb ?_)
      · exact ⟨name, by rw [hwords]; rfl, hlow⟩
      · exact ⟨name', by rw [hwords']; rfl, hlow⟩
    rw [hwords, hwords']
    dsimp only
    rw [isComment_recased hletters, ofMnemonic?_recased hletters]
    cases isComment name' with
    | true => rfl
    | false =>
      cases Form.ofMnemonic? name' with
      | none =>
        exact ((mapError_map ..).trans (congrArg _
          (plainCommand_recased line hletters args hopcode))).trans (mapError_map ..).symm
      | some form =>
        exact ((mapError_map ..).trans (congrArg _
          (formCommand_recased line hletters form args))).trans (mapError_map ..).symm

/-! ## texts -/

/-- the letters of the first words of any lines have other cases -/
def Recases (a b : List Char) : Prop := List.Forall₂ RecasesLine (lines a) (lines b)

/-- a line begins with the number of an opcode behind a small `o` -/
def HasLowNumber (source : List Char) : Prop := ∃ line ∈ lines source, LowNumberIn line

instance (source : List Char) : Decidable (HasLowNumber source) :=
  inferInstanceAs (Decidable (∃ line ∈ lines source, LowNumberIn line))

theorem forall₂_zipIdx {R : List Char → List Char → Prop} {xs ys : List (List Char)}
    (h : List.Forall₂ R xs ys) (n : Nat) :
    List.Forall₂ (fun x y => R x.1 y.1 ∧ x.2 = y.2) (xs.zipIdx n) (ys.zipIdx n) := by
  induction h generalizing n with
  | nil => exact .nil
  | cons hfirst _ ih => exact .cons ⟨hfirst, rfl⟩ (ih (n + 1))

theorem fault_of_hasLowNumber {source : List Char} (h : HasLowNumber source) :
    ∃ fault, assemble source = .error fault := by
  obtain ⟨line, hline, hlow⟩ := h
  obtain ⟨i, hi⟩ := List.getElem?_of_mem hline
  have hentry : (line, 1 + i) ∈ (lines source).zipIdx 1 :=
    List.mk_add_mem_zipIdx_iff_getElem?.mpr hi
  cases hassemble : assemble source with
  | error fault => exact ⟨fault, rfl⟩
  | ok cs =>
    obtain ⟨found, hfound, _⟩ := assembleLines_eq_ok.mp hassemble
    obtain ⟨c, _, hc⟩ := exists_of_mem_left hfound hentry
    obtain ⟨fault, hfault⟩ := assembleLine_of_low (1 + i) hlow
    cases hc.symm.trans hfault

/-- **Texts whose mnemonics differ in case** give the same commands, or the same fault of the same
line, as long as the `O` of a number stays a capital; a text in which it does not gives none. -/
theorem assemble_recased {a b : List Char} (h : Recases a b) :
    (¬ HasLowNumber a ∧ ¬ HasLowNumber b →
      (assemble a).mapError (·.lowercase) = (assemble b).mapError (·.lowercase)) ∧
    (HasLowNumber a → ∃ fault, assemble a = .error fault) ∧
    (HasLowNumber b → ∃ fault, assemble b = .error fault) := by
  refine ⟨?_, fault_of_hasLowNumber, fault_of_hasLowNumber⟩
  rintro ⟨ha, hb⟩
  have hlines : List.Forall₂ (fun x y => ¬ LowNumberIn x ∧ ¬ LowNumberIn y ∧ RecasesLine x y)
      (lines a) (lines b) := by
    refine (List.forall₂_and_left _ _).mpr ⟨fun line hline hlow => ha ⟨line, hline, hlow⟩, ?_⟩
    have hright := (List.forall₂_and_left _ _).mpr
      ⟨fun line hline hlow => hb ⟨line, hline, hlow⟩, h.flip⟩
    exact hright.flip
  rw [assemble, assemble, assembleLines, assembleLines, mapError_bind, mapError_bind]
  refine congrArg (· >>= _) (mapError_mapM_congr ((forall₂_zipIdx hlines 1).imp ?_))
  rintro ⟨line, n⟩ ⟨line', _⟩ ⟨⟨hlow, hlow', hrecases⟩, rfl⟩
  exact assembleLine_recased n hrecases hlow hlow'

/-- a form behind a blank, a number and a comment -/
theorem assemble_recased_number :
    let a := " HIDEobject 3\r\nOP3A\n#Note".toList
    let b := " HideObject 3\r\nOp3a\n#nOTE".toList
    let cs : List Command := [⟨0x7D, [6]⟩, ⟨0x3A, []⟩]
    Recases a b ∧ (¬ HasLowNumber a ∧ ¬ HasLowNumber b) ∧ assemble a = .ok cs ∧
      assemble b = .ok cs := by
  intro a b cs
  have hform : RecasesLine " HIDEobject 3\r".toList " HideObject 3\r".toList :=
    .first (List.forall_mem_singleton.mpr rfl)
      (show IsWord "HIDEobject".toList from ⟨by decide, by simp [isBlank]⟩)
      (show ∀ c ∈ " 3\r".toList.head?, isBlank c = true by simp [isBlank])
      (show SameLetters "HIDEobject".toList "HideObject".toList by decide +kernel)
  have hnumber : RecasesLine "OP3A".toList "Op3a".toList :=
    .first (List.forall_mem_nil _) (show IsWord "OP3A".toList from ⟨by decide, by simp [isBlank]⟩)
      (show ∀ c ∈ ([] : List Char).head?, isBlank c = true by simp)
      (show SameLetters "OP3A".toList "Op3a".toList by decide +kernel)
  have hcomment : RecasesLine "#Note".toList "#nOTE".toList :=
    .first (List.forall_mem_nil _) (show IsWord "#Note".toList from ⟨by decide, by simp [isBlank]⟩)
      (show ∀ c ∈ ([] : List Char).head?, isBlank c = true by simp)
      (show SameLetters "#Note".toList "#nOTE".toList by decide +kernel)
  have hrecases : Recases a b := .cons hform (.cons hnumber (.cons hcomment .nil))
  have hcapital : ¬ HasLowNumber a ∧ ¬ HasLowNumber b := by decide +kernel
  have hassemble : assemble a = .ok cs := by
    rw [← toOption_eq_some]
    decide +kernel
  refine ⟨hrecases, hcapital, hassemble, ?_⟩
  have hsame := (assemble_recased hrecases).1 hcapital
  rw [hassemble] at hsame
  exact mapError_eq_ok.mp hsame.symm

/-- a small `o` matters in front of the number of an opcode only -/
example : HasLowNumber "op3A".toList ∧ ¬ HasLowNumber "OP3a".toList ∧
    ¬ HasLowNumber "operand".toList := by decide +kernel

end Assembly

end Cartridge
