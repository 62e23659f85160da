/-!
# Text, its words and its blanks

A text is a list of Unicode characters. Words are the stretches of a text between
spaces, where only the character U+0020 counts as a space: a tab or a no-break space is
part of a word. `words` cuts a text into its words and `unwords` joins words by single
spaces. `words_unwords` says that joining and cutting again gives the words back, and
`words_append_space` says that a space always separates.

A character is blank when it has the Unicode property White_Space. `trim` removes the
blank characters at both ends of a text, and a text is blank when nothing is left of it.
-/

namespace MixedNumbers

/-- A text is a list of characters. -/
abbrev Text := List Char

namespace Text

/-- The words of a text: the non-empty stretches between its spaces, in order. -/
def words (text : Text) : List Text :=
  (text.splitOn ' ').filter fun stretch ↦ !stretch.isEmpty

/-- Join words with one space between neighbours. -/
def unwords (parts : List Text) : Text :=
  [' '].intercalate parts

/-- Cut a text at the first occurrence of a separator, which belongs to neither side. -/
def cutAt (separator : Char) : Text → Option (Text × Text)
  | [] => none
  | c :: rest =>
      if c = separator then some ([], rest)
      else (cutAt separator rest).map fun (before, after) ↦ (c :: before, after)

/-- The character has the Unicode property White_Space: the controls from tab to carriage
return, the space, the next-line control, and the spaces and separators of the other scripts. -/
def isBlank (c : Char) : Bool :=
  let code := c.toNat
  (0x09 ≤ code && code ≤ 0x0d) || code == 0x20 || code == 0x85 || code == 0xa0 ||
    code == 0x1680 || (0x2000 ≤ code && code ≤ 0x200a) || code == 0x2028 || code == 0x2029 ||
    code == 0x202f || code == 0x205f || code == 0x3000

/-- Remove the longest stretch at the end of a text whose characters all satisfy the predicate. -/
def dropEndWhile (p : Char → Bool) (text : Text) : Text :=
  (text.reverse.dropWhile p).reverse

/-- Remove the blank characters at both ends. -/
def trim (text : Text) : Text :=
  dropEndWhile isBlank (text.dropWhile isBlank)

/-- The empty text has no words. -/
@[simp]
theorem words_nil : words [] = [] := by
  simp [words]

/-- A space between two texts separates their words. -/
theorem words_append_space (first second : Text) :
    words (first ++ ' ' :: second) = words first ++ words second := by
  simp [words, List.splitOn_append_cons_self]

/-- A space at the front adds no word. -/
@[simp]
theorem words_space (text : Text) : words (' ' :: text) = words text := by
  simpa using words_append_space [] text

/-- A non-empty text without spaces is its own only word. -/
theorem words_of_no_space (word : Text) (hne : word ≠ []) (hspace : ' ' ∉ word) :
    words word = [word] := by
  simp [words, List.splitOn_eq_singleton hspace, hne]

/-- Cutting joined words apart again gives the words back, if they are non-empty and hold no
space. -/
theorem words_unwords (parts : List Text) (hparts : ∀ part ∈ parts, part ≠ [] ∧ ' ' ∉ part) :
    words (unwords parts) = parts := by
  by_cases hnil : parts = []
  · simp [hnil, unwords]
  · rw [words, unwords, List.splitOn_intercalate ' ' (fun part hpart ↦ (hparts part hpart).2) hnil,
      List.filter_eq_self]
    intro part hpart
    simpa using (hparts part hpart).1

/-- Both sides of a cut and the separator make up the text, and the separator is not in the part
before it. -/
theorem eq_append_of_cutAt {separator : Char} {text before after : Text}
    (hcut : cutAt separator text = some (before, after)) :
    text = before ++ separator :: after ∧ separator ∉ before := by
  induction text generalizing before after with
  | nil => simp [cutAt] at hcut
  | cons c rest ih =>
      by_cases hc : c = separator
      · simp only [cutAt, hc, if_true, Option.some.injEq, Prod.mk.injEq] at hcut
        simp [← hcut.1, ← hcut.2, hc]
      · simp only [cutAt, hc, if_false, Option.map_eq_some_iff] at hcut
        obtain ⟨⟨front, back⟩, hrest, heq⟩ := hcut
        obtain ⟨htext, hnot⟩ := ih hrest
        simp only [Prod.mk.injEq] at heq
        simp [← heq.1, ← heq.2, htext, hnot, Ne.symm hc]

/-- What is behind a cut is shorter than the text. -/
theorem length_lt_of_cutAt {separator : Char} {text before after : Text}
    (hcut : cutAt separator text = some (before, after)) : after.length < text.length := by
  obtain ⟨rfl, -⟩ := eq_append_of_cutAt hcut
  rw [List.length_append, List.length_cons]
  omega

/-- A text is cut exactly when it holds the separator. -/
theorem cutAt_eq_none_iff (separator : Char) (text : Text) :
    cutAt separator text = none ↔ separator ∉ text := by
  induction text with
  | nil => simp [cutAt]
  | cons c rest ih =>
      by_cases hc : c = separator
      · simp [cutAt, hc]
      · simp [cutAt, hc, ih, Ne.symm hc]

/-- A text is cut at its first separator. -/
theorem cutAt_append (separator : Char) (before after : Text) (hbefore : separator ∉ before) :
    cutAt separator (before ++ separator :: after) = some (before, after) := by
  induction before with
  | nil => simp [cutAt]
  | cons c rest ih =>
      simp only [List.mem_cons, not_or] at hbefore
      obtain ⟨hc, hrest⟩ := hbefore
      simp [cutAt, Ne.symm hc, ih hrest]

/-- Induction over the pieces of a text between its separators, from the last piece to the
first. -/
theorem cut_induction (separator : Char) {motive : Text → Prop}
    (last : ∀ piece, separator ∉ piece → motive piece)
    (cut : ∀ piece rest, separator ∉ piece → motive rest → motive (piece ++ separator :: rest))
    (text : Text) : motive text := by
  cases hcut : cutAt separator text with
  | none => exact last text ((cutAt_eq_none_iff separator text).1 hcut)
  | some sides =>
      obtain ⟨htext, hpiece⟩ := eq_append_of_cutAt hcut
      rw [htext]
      exact cut sides.1 sides.2 hpiece (cut_induction separator last cut sides.2)
termination_by text.length
decreasing_by exact length_lt_of_cutAt hcut

end Text

end MixedNumbers
