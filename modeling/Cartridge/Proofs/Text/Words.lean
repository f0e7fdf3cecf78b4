import Cartridge.Text.Words

/-!
# Lines and words of put-together texts

* `Text.lines_append_newline`   a newline divides a text into its lines;
* `Text.IsWord`, `Text.words_word`, `Text.words_word_blank`   a word by itself, and in front of a
                         blank;
* `Text.spaced`, `Text.words_spaced`   words with spaces between them.
-/

namespace Cartridge.Text

/-! ## lines -/

theorem lines_eq_cons (text : List Char) : ∃ line rest, lines text = line :: rest := by
  cases text with
  | nil => exact ⟨[], [], rfl⟩
  | cons c text =>
    rw [lines_cons]
    cases lines text with
    | nil => exact ⟨[c], [], rfl⟩
    | cons line rest =>
      rw [addToLines]
      by_cases hc : c = '\n'
      · rw [if_pos hc]
        exact ⟨_, _, rfl⟩
      · rw [if_neg hc]
        exact ⟨_, _, rfl⟩

theorem lines_append_newline (a b : List Char) : lines (a ++ '\n' :: b) = lines a ++ lines b := by
  induction a with
  | nil =>
    obtain ⟨line, rest, hb⟩ := lines_eq_cons b
    rw [List.nil_append, lines_cons, hb]
    rfl
  | cons c a ih =>
    obtain ⟨line, rest, ha⟩ := lines_eq_cons a
    rw [List.cons_append, lines_cons, ih, lines_cons, ha, List.cons_append, addToLines, addToLines]
    by_cases hc : c = '\n'
    · rw [if_pos hc, if_pos hc, List.cons_append, List.cons_append]
    · rw [if_neg hc, if_neg hc, List.cons_append]

theorem lines_of_not_mem {line : List Char} (h : '\n' ∉ line) : lines line = [line] := by
  induction line with
  | nil => rfl
  | cons c line ih =>
    rw [List.mem_cons, not_or] at h
    rw [lines_cons, ih h.2, addToLines, if_neg (Ne.symm h.1)]

/-! ## words -/

/-- the word that a text begins with, if it does, and the words behind it -/
def wordState (text : List Char) : List Char × List (List Char) :=
  text.foldr addToWords ([], [])

theorem words_eq (text : List Char) :
    words text = consWord (wordState text).1 (wordState text).2 := rfl

theorem wordState_blank {c : Char} (h : isBlank c = true) (text : List Char) :
    wordState (c :: text) = ([], words text) := by
  show addToWords c (wordState text) = _
  rw [addToWords, if_pos h, words_eq]

structure IsWord (w : List Char) : Prop where
  nonempty : w ≠ []
  unbroken : ∀ c ∈ w, isBlank c = false

section
variable {w : List Char} (h : IsWord w)
include h

theorem wordState_append (text : List Char) :
    wordState (w ++ text) = (w ++ (wordState text).1, (wordState text).2) := by
  have hunbroken := h.unbroken
  clear h
  induction w with
  | nil => rfl
  | cons c w ih =>
    rw [List.forall_mem_cons] at hunbroken
    show addToWords c (wordState (w ++ text)) = _
    rw [ih hunbroken.2, addToWords, hunbroken.1, List.cons_append]
    rfl

theorem consWord_of_isWord (rest : List (List Char)) : consWord w rest = w :: rest := by
  have hsome : w.isEmpty = false := by simpa using h.nonempty
  rw [consWord, hsome]
  rfl

theorem words_word : words w = [w] := by
  have hstate := wordState_append h []
  rw [List.append_nil, show wordState [] = ([], []) from rfl, List.append_nil] at hstate
  rw [words_eq, hstate, consWord_of_isWord h]

theorem words_word_blank {c : Char} (hc : isBlank c = true) (text : List Char) :
    words (w ++ c :: text) = w :: words text := by
  rw [words_eq, wordState_append h, wordState_blank hc, List.append_nil, consWord_of_isWord h]

end

/-- a word, and others behind it, with a space in front of each -/
def spaced (first : List Char) (rest : List (List Char)) : List Char :=
  first ++ rest.flatMap (' ' :: ·)

theorem words_spaced {first : List Char} {rest : List (List Char)} (hfirst : IsWord first)
    (hrest : ∀ w ∈ rest, IsWord w) : words (spaced first rest) = first :: rest := by
  induction rest generalizing first with
  | nil =>
    rw [spaced, List.flatMap_nil, List.append_nil]
    exact words_word hfirst
  | cons second rest ih =>
    rw [List.forall_mem_cons] at hrest
    rw [spaced, List.flatMap_cons, List.cons_append, words_word_blank hfirst (by decide)]
    exact congrArg (first :: ·) (ih hrest.1 hrest.2)

/-- no line ends inside words -/
theorem lines_spaced {first : List Char} {rest : List (List Char)} (hfirst : IsWord first)
    (hrest : ∀ w ∈ rest, IsWord w) : lines (spaced first rest) = [spaced first rest] := by
  have hword : ∀ w, IsWord w → '\n' ∉ w := by
    intro w hw hmem
    exact absurd (hw.unbroken _ hmem) (by decide)
  apply lines_of_not_mem
  intro hmem
  rcases List.mem_append.mp hmem with hmem | hmem
  · exact hword first hfirst hmem
  · obtain ⟨w, hw, hmem⟩ := List.mem_flatMap.mp hmem
    rcases List.mem_cons.mp hmem with heq | hmem
    · exact absurd heq (by decide)
    · exact hword w (hrest w hw) hmem

end Cartridge.Text
