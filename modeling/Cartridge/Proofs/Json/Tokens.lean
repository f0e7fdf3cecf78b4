import Cartridge.Json.Print
import Cartridge.Proofs.Json.Number

/-!
# Texts as tokens with blanks between them

A JSON text is written from tokens, with any blanks in front of each and behind the last.  A
reader that finds its tokens in front leaves a text that the other tokens write, whatever the blanks
were; the printer is one of those who write.

* `Token`, `Token.Writes`    marks, natural numbers and strings, and the texts of each;
* `Written`                  the texts of some tokens;
* `Written.mark`, `Written.string`, `Written.number`   what the scanners make of the next token;
* `items`, `bracketedTokens` the tokens of parts with commas between them, and of a list or an
                             object;
* `nextElement_part`, `nextElement_end`   what a list gives next;
* `written_bracketed`        the printer writes the tokens of a list or an object.
-/

namespace Cartridge.Json

open Text (isDigit)

/-! ## tokens -/

inductive Mark where
  | openList | closeList | openObject | closeObject | comma | colon
  deriving DecidableEq, Repr

def Mark.char : Mark → Char
  | openList => '['
  | closeList => ']'
  | openObject => '{'
  | closeObject => '}'
  | comma => ','
  | colon => ':'

inductive Token where
  | mark (m : Mark)
  | number (n : Nat)
  | string (characters : List Char)
  deriving DecidableEq, Repr

/-- inside a string a character stands for itself, unless it is a quote, a backslash or a control
character -/
def isPlain (c : Char) : Bool := c != '"' && c != '\\' && 0x20 ≤ c.toNat

/-- the ways to write a character inside a string: as itself, behind a backslash, or as four
hexadecimal digits -/
inductive WritesChar : Char → List Char → Prop
  | plain {c : Char} (h : isPlain c = true) : WritesChar c [c]
  | escape {c letter : Char} (h : simpleEscape? letter = some c) : WritesChar c ['\\', letter]
  | hex {c d₃ d₂ d₁ d₀ : Char} (h : hex4? d₃ d₂ d₁ d₀ = some c.toNat) :
      WritesChar c ['\\', 'u', d₃, d₂, d₁, d₀]

inductive WritesChars : List Char → List Char → Prop
  | nil : WritesChars [] []
  | cons {c : Char} {cs word rest : List Char} (hword : WritesChar c word)
      (hrest : WritesChars cs rest) : WritesChars (c :: cs) (word ++ rest)

inductive Token.Writes : Token → List Char → Prop
  | mark (m : Mark) : Writes (.mark m) [m.char]
  | number (n : Nat) : Writes (.number n) (Text.decimal n)
  | string {characters word : List Char} (h : WritesChars characters word) :
      Writes (.string characters) ('"' :: (word ++ ['"']))

/-- the texts of some tokens, with any blanks in front of each and behind the last -/
inductive Written : List Token → List Char → Prop
  | nil {blanks : List Char} (hblanks : ∀ c ∈ blanks, isBlank c = true) : Written [] blanks
  | cons {t : Token} {ts : List Token} {blanks word rest : List Char}
      (hblanks : ∀ c ∈ blanks, isBlank c = true) (hword : t.Writes word) (hrest : Written ts rest) :
      Written (t :: ts) (blanks ++ (word ++ rest))

/-! ## the next token -/

theorem eq_of_isBlank {c : Char} (h : isBlank c = true) :
    c = ' ' ∨ c = '\n' ∨ c = '\t' ∨ c = '\r' := by
  simpa [isBlank, or_assoc] using h

theorem not_isBlank_of_digit {c : Char} (h : isDigit c = true) : isBlank c = false := by
  refine eq_false_of_ne_true fun hblank => ?_
  rcases eq_of_isBlank hblank with rfl | rfl | rfl | rfl <;> exact absurd h (by decide)

theorem Mark.not_isBlank (m : Mark) : isBlank m.char = false := by
  cases m <;> rfl

theorem Token.Writes.head {t : Token} {word : List Char} (h : t.Writes word) :
    ∃ c rest, word = c :: rest ∧ isBlank c = false ∧ (c = ']' → t = .mark .closeList) := by
  cases h with
  | mark m =>
    refine ⟨m.char, [], rfl, m.not_isBlank, fun hc => ?_⟩
    cases m <;> first | rfl | exact absurd hc (by decide)
  | number n =>
    obtain ⟨c, digits, hdigits⟩ := List.exists_cons_of_ne_nil (Text.decimal_ne_nil n)
    have hc : isDigit c = true := Text.isDigit_of_mem_decimal (hdigits ▸ List.mem_cons_self)
    refine ⟨c, digits, hdigits, not_isBlank_of_digit hc, ?_⟩
    rintro rfl
    exact absurd hc (by decide)
  | string _ => exact ⟨'"', _, rfl, rfl, fun hc => absurd hc (by decide)⟩

theorem skipBlanks_append {blanks : List Char} (h : ∀ c ∈ blanks, isBlank c = true)
    (text : List Char) : skipBlanks (blanks ++ text) = skipBlanks text :=
  List.dropWhile_append_of_pos h

theorem skipBlanks_word {t : Token} {word : List Char} (h : t.Writes word) (text : List Char) :
    skipBlanks (word ++ text) = word ++ text := by
  obtain ⟨c, rest, rfl, hc, _⟩ := h.head
  exact List.dropWhile_cons_of_neg (by rw [hc]; decide)

namespace Written

variable {t : Token} {ts : List Token} {text : List Char}

theorem uncons (h : Written (t :: ts) text) :
    ∃ word rest, t.Writes word ∧ Written ts rest ∧ skipBlanks text = word ++ rest := by
  cases h with
  | cons hblanks hword hrest =>
    exact ⟨_, _, hword, hrest, by rw [skipBlanks_append hblanks, skipBlanks_word hword]⟩

/-- blanks in front do not matter -/
theorem skipBlanks (h : Written (t :: ts) text) : Written (t :: ts) (Json.skipBlanks text) := by
  obtain ⟨word, rest, hword, hrest, heq⟩ := h.uncons
  rw [heq]
  exact @cons _ _ [] _ _ (by simp) hword hrest

theorem mark {m : Mark} (h : Written (.mark m :: ts) text) :
    ∃ rest, Json.skipBlanks text = m.char :: rest ∧ Written ts rest := by
  obtain ⟨word, rest, hword, hrest, heq⟩ := h.uncons
  cases hword
  exact ⟨rest, heq, hrest⟩

theorem isEmpty_skipBlanks (h : Written [] text) : (Json.skipBlanks text).isEmpty = true := by
  cases h with
  | nil hblanks =>
    rw [← List.append_nil text, skipBlanks_append hblanks]
    rfl

/-- a mark continues no number, and no blank does -/
theorem endsNumber {m : Mark} (h : Written (.mark m :: ts) text) : EndsNumber text := by
  cases h with
  | @cons _ _ blanks word rest hblanks hword hrest =>
    cases hword
    cases blanks with
    | nil =>
      rintro c ⟨⟩
      cases m <;> decide
    | cons b blanks =>
      rintro c ⟨⟩
      rcases eq_of_isBlank (hblanks b List.mem_cons_self) with rfl | rfl | rfl | rfl <;> decide

end Written

/-! ## strings -/

theorem scanString_writesChar {c : Char} {word : List Char} (h : WritesChar c word)
    (done rest : List Char) : scanString done (word ++ rest) = scanString (c :: done) rest := by
  cases h with
  | plain h =>
    simp only [isPlain, Bool.and_eq_true, bne_iff_ne, decide_eq_true_eq] at h
    obtain ⟨⟨hquote, hbackslash⟩, hcontrol⟩ := h
    rw [List.singleton_append, scanString, if_neg (Nat.not_lt.mpr hcontrol)]
    all_goals simp [hquote, hbackslash]
  | @escape letter h =>
    have hletter : letter ≠ 'u' := by
      rintro rfl
      cases h
    rw [List.cons_append, List.singleton_append, scanString, h]
    all_goals simp [hletter]
  | hex h =>
    -- the number of a character is no half of a surrogate pair
    have hvalid : isLowSurrogate c.toNat = false ∧ isHighSurrogate c.toNat = false := by
      have := c.valid
      simp only [UInt32.isValidChar, Nat.isValidChar, ← Char.toNat.eq_1] at this
      simp only [isLowSurrogate, isHighSurrogate, Bool.and_eq_false_imp, decide_eq_true_eq,
        decide_eq_false_iff_not]
      omega
    simp only [List.cons_append, List.nil_append]
    rw [scanString, h]
    simp only [hvalid.1, hvalid.2, Char.ofNat_toNat, Bool.false_eq_true, if_false]

theorem scanString_writesChars {cs word : List Char} (h : WritesChars cs word)
    (done rest : List Char) :
    scanString done (word ++ '"' :: rest) = .ok (done.reverse ++ cs, rest) := by
  induction h generalizing done with
  | nil => rw [List.nil_append, scanString, List.append_nil]
  | cons hword _ ih =>
    rw [List.append_assoc, scanString_writesChar hword, ih, List.reverse_cons, List.append_assoc,
      List.singleton_append]

theorem writesChars_plain {cs : List Char} (h : cs.all isPlain = true) : WritesChars cs cs := by
  induction cs with
  | nil => exact .nil
  | cons c cs ih =>
    rw [List.all_cons, Bool.and_eq_true] at h
    exact .cons (.plain h.1) (ih h.2)

namespace Written

variable {ts : List Token} {text : List Char}

theorem string {cs : List Char} (h : Written (.string cs :: ts) text) :
    ∃ quoted rest, Json.skipBlanks text = '"' :: quoted ∧
      scanString [] quoted = .ok (cs, rest) ∧ Written ts rest := by
  obtain ⟨word, rest, hword, hrest, heq⟩ := h.uncons
  cases hword with
  | @string _ word hchars =>
    rw [List.cons_append, List.append_assoc, List.singleton_append] at heq
    exact ⟨_, rest, heq, scanString_writesChars hchars [] rest, hrest⟩

/-- a number in front of a mark is read as that number -/
theorem number {n : Nat} {m : Mark} (h : Written (.number n :: .mark m :: ts) text)
    (hn : n ≤ Number.maxNatural) :
    ∃ rest, readNatural text = .ok (n, rest) ∧ Written (.mark m :: ts) rest := by
  obtain ⟨word, rest, hword, hrest, heq⟩ := h.uncons
  cases hword
  refine ⟨rest, ?_, hrest⟩
  obtain ⟨c, digits, hdigits⟩ := List.exists_cons_of_ne_nil (Text.decimal_ne_nil n)
  have hc : isDigit c = true := Text.isDigit_of_mem_decimal (hdigits ▸ List.mem_cons_self)
  have hread := readNumber_decimal hn hrest.endsNumber
  rw [hdigits, List.cons_append] at hread heq
  rw [readNatural, heq]
  simp only [hc, or_true, if_true, hread, ← hdigits, natural?_decimal hn]

end Written

/-! ## lists -/

/-- parts with commas between them; unless they are the first, with one in front as well -/
def items (first : Bool) : List (List Token) → List Token
  | [] => []
  | part :: parts => (if first then [] else [.mark .comma]) ++ part ++ items false parts

def bracketedTokens (opening closing : Mark) (parts : List (List Token)) : List Token :=
  .mark opening :: (items true parts ++ [.mark closing])

/-- behind a part there is a mark -/
theorem exists_mark_items (parts : List (List Token)) (closing : Mark) (ts : List Token) :
    ∃ m ts', items false parts ++ .mark closing :: ts = .mark m :: ts' := by
  cases parts with
  | nil => exact ⟨closing, ts, rfl⟩
  | cons part parts => exact ⟨.comma, _, rfl⟩

section
variable {part ts : List Token} {parts : List (List Token)} {text : List Char}

theorem Written.first_part (h : Written (items true (part :: parts) ++ ts) text) :
    Written (part ++ (items false parts ++ ts)) text := by
  rwa [items, if_pos rfl, List.nil_append, List.append_assoc] at h

theorem Written.further_part (h : Written (items false (part :: parts) ++ ts) text) :
    ∃ behind, Json.skipBlanks text = ',' :: behind ∧
      Written (part ++ (items false parts ++ ts)) behind := by
  rw [items, if_neg Bool.false_ne_true, List.singleton_append, List.cons_append, List.cons_append,
    List.append_assoc] at h
  exact h.mark

/-- in a list the next part is found behind its comma, if there is one -/
theorem nextElement_part {first : Bool} {t : Token}
    (h : Written (items first ((t :: part) :: parts) ++ ts) text) (ht : t ≠ .mark .closeList) :
    ∃ rest, nextElement first text = .ok (some rest) ∧
      Written (t :: part ++ (items false parts ++ ts)) rest := by
  cases first with
  | true =>
    have hpart := h.first_part
    obtain ⟨word, rest, hword, hrest, heq⟩ := hpart.uncons
    obtain ⟨c, _, rfl, _, hc⟩ := hword.head
    refine ⟨_, ?_, heq ▸ hpart.skipBlanks⟩
    rw [nextElement, heq, List.cons_append]
    simp only [if_neg fun hclose => ht (hc hclose), if_true]
  | false =>
    obtain ⟨behind, hcomma, hpart⟩ := h.further_part
    obtain ⟨word, rest, hword, hrest, heq⟩ := hpart.uncons
    obtain ⟨c, _, rfl, _, hc⟩ := hword.head
    refine ⟨_, ?_, heq ▸ hpart.skipBlanks⟩
    rw [nextElement, hcomma]
    simp only [heq, List.cons_append, if_neg fun hclose => ht (hc hclose)]
    rfl

end

section
variable {ts : List Token} {text : List Char} (h : Written (.mark .closeList :: ts) text)
include h

theorem nextElement_end (first : Bool) : nextElement first text = .ok none := by
  obtain ⟨rest, heq, _⟩ := h.mark
  rw [nextElement, heq]
  rfl

theorem endList_end : ∃ rest, endList text = .ok rest ∧ Written ts rest := by
  obtain ⟨rest, heq, hrest⟩ := h.mark
  exact ⟨rest, by rw [endList, heq]; rfl, hrest⟩

end

/-! ## printing -/

section
variable {ts ts' : List Token} {text text' : List Char}

theorem Written.blanks {blanks : List Char} (hblanks : ∀ c ∈ blanks, isBlank c = true)
    (h : Written ts text) : Written ts (blanks ++ text) := by
  cases h with
  | nil hmore => exact .nil (List.forall_mem_append.mpr ⟨hblanks, hmore⟩)
  | cons hmore hword hrest =>
    rw [← List.append_assoc]
    exact .cons (List.forall_mem_append.mpr ⟨hblanks, hmore⟩) hword hrest

theorem Written.blank {c : Char} (hc : isBlank c = true) (h : Written ts text) :
    Written ts (c :: text) :=
  @blanks _ _ [c] (List.forall_mem_singleton.mpr hc) h

theorem Written.append (h : Written ts text) (h' : Written ts' text') :
    Written (ts ++ ts') (text ++ text') := by
  induction h with
  | nil hblanks => exact h'.blanks hblanks
  | cons hblanks hword _ ih =>
    rw [List.append_assoc, List.append_assoc]
    exact .cons hblanks hword ih

theorem Token.Writes.written {t : Token} (h : t.Writes text) : Written [t] text := by
  rw [← List.append_nil text, ← List.nil_append (text ++ [])]
  exact .cons (by simp) h (.nil (by simp))

end

theorem blanks_lineStart (level : Nat) : ∀ c ∈ lineStart level, isBlank c = true := by
  refine List.forall_mem_cons.mpr ⟨rfl, fun c hc => ?_⟩
  rw [List.eq_of_mem_replicate hc]
  rfl

section
variable {α : Type} {tokens : α → List Token} {print : α → List Char} (level : Nat)

theorem written_itemLines {parts : List α} (h : ∀ a ∈ parts, Written (tokens a) (print a)) :
    Written (items true (parts.map tokens)) (itemLines level (parts.map print)) := by
  induction parts with
  | nil => exact .nil fun c hc => absurd hc List.not_mem_nil
  | cons a parts ih =>
    rw [List.forall_mem_cons] at h
    have ha := h.1.blanks (blanks_lineStart level)
    cases parts with
    | nil =>
      show Written ([] ++ tokens a ++ []) (lineStart level ++ print a)
      rwa [List.nil_append, List.append_nil]
    | cons b parts => exact ha.append ((Token.Writes.mark .comma).written.append (ih h.2))

theorem written_bracketed (opening closing : Mark) {parts : List α}
    (h : ∀ a ∈ parts, Written (tokens a) (print a)) :
    Written (bracketedTokens opening closing (parts.map tokens))
      (bracketed opening.char closing.char level (parts.map print)) := by
  have hopen := (Token.Writes.mark opening).written
  have hclose := (Token.Writes.mark closing).written
  cases parts with
  | nil => exact hopen.append hclose
  | cons a parts =>
    have hend := hclose.blanks (blanks_lineStart level)
    have hlines := (written_itemLines (level + 1) h).append hend
    rw [← List.append_assoc] at hlines
    exact hopen.append hlines

end

end Cartridge.Json
