import Mathlib.Data.List.Basic
import MixedNumbers.Calculation
import MixedNumbers.Proofs.Words

/-!
# Words and the spaces around them

A text is made of its words and of gaps of spaces: one in front, one behind each word, and none
that is empty between two words. `Decomposes` says so without cutting anything, and
`decomposes_iff` says that every text is made like this in exactly one way, the one that cutting
finds. What a calculation reports can be told from the words alone (`report_congr`), so spaces may
be added where others stand and at both ends; no other character separates words.
-/

namespace MixedNumbers

namespace Text

/-- The text is made of spaces only; it may be empty. -/
def OnlySpaces (text : Text) : Prop :=
  ∀ c ∈ text, c = ' '

/-- The words with gaps around them: the gap of number `i` stands behind the first `i` words. -/
def spread (gap : Nat → Text) (words : List Text) : Text :=
  gap 0 ++ (words.mapIdx fun i word ↦ word ++ gap (i + 1)).flatten

/-- `Decomposes text words` says that the text is made of these words, which are not empty and have
no space in them, and of gaps of spaces around them, which are not empty between two words. -/
structure Decomposes (text : Text) (words : List Text) : Prop where
  proper : ∀ word ∈ words, word ≠ [] ∧ ' ' ∉ word
  gaps : ∃ gap : Nat → Text, text = spread gap words ∧
    (∀ i, i ≤ words.length → OnlySpaces (gap i)) ∧ ∀ i, 0 < i → i < words.length → gap i ≠ []

/-! ## Spread words -/

/-- Without words there is one gap. -/
@[simp]
theorem spread_nil (gap : Nat → Text) : spread gap [] = gap 0 := by
  simp [spread]

/-- Behind a gap and a word, the gaps are counted anew. -/
theorem spread_cons (gap : Nat → Text) (word : Text) (words : List Text) :
    spread gap (word :: words) = gap 0 ++ (word ++ spread (fun i ↦ gap (i + 1)) words) := by
  simp [spread]

/-- Spaces in front of a text add no word. -/
theorem words_onlySpaces_append {gap : Text} (h : OnlySpaces gap) (text : Text) :
    (gap ++ text).words = text.words := by
  induction gap with
  | nil => rfl
  | cons c gap ih =>
      obtain ⟨rfl, hgap⟩ := List.forall_mem_cons.1 h
      rw [List.cons_append, words_space, ih hgap]

/-- Behind a word, a text is at its end or goes on with a space, if there is a gap before the next
word. -/
theorem head_spread {gap : Nat → Text} {words : List Text} (hspaces : OnlySpaces (gap 0))
    (hne : words ≠ [] → gap 0 ≠ []) : ∀ c ∈ (spread gap words).head?, c = ' ' := by
  intro c hc
  cases words with
  | nil =>
      rw [spread_nil] at hc
      exact hspaces c (List.mem_of_mem_head? hc)
  | cons word words =>
      rw [spread_cons, List.head?_append_of_ne_nil _ (hne (List.cons_ne_nil _ _))] at hc
      exact hspaces c (List.mem_of_mem_head? hc)

/-- Cutting finds the words that a text is made of. -/
theorem Decomposes.words_eq {text : Text} {words : List Text} (h : Decomposes text words) :
    text.words = words := by
  obtain ⟨hproper, gap, rfl, hspaces, hbetween⟩ := h
  induction words generalizing gap with
  | nil =>
      rw [spread_nil, ← List.append_nil (gap 0),
        words_onlySpaces_append (hspaces 0 (Nat.le_refl 0)), words_nil]
  | cons word words ih =>
      obtain ⟨⟨hne, hspace⟩, hproper⟩ := List.forall_mem_cons.1 hproper
      have hhead : ∀ c ∈ (spread (fun i ↦ gap (i + 1)) words).head?, c = ' ' := by
        refine head_spread (hspaces 1 (by simp)) fun hne ↦ hbetween 1 Nat.one_pos ?_
        exact Nat.succ_lt_succ (List.length_pos_of_ne_nil hne)
      rw [spread_cons, words_onlySpaces_append (hspaces 0 (Nat.zero_le _)),
        words_append word _ hne hspace hhead]
      refine congrArg _ (ih hproper _ (fun i hi ↦ ?_) fun i hi hlt ↦ ?_)
      · exact hspaces (i + 1) (Nat.succ_le_succ hi)
      · exact hbetween (i + 1) (Nat.succ_pos i) (Nat.succ_lt_succ hlt)

/-- A space in front makes the first gap longer. -/
theorem Decomposes.space {text : Text} {words : List Text} (h : Decomposes text words) :
    Decomposes (' ' :: text) words := by
  obtain ⟨hproper, gap, rfl, hspaces, hbetween⟩ := h
  refine ⟨hproper, fun i ↦ Nat.casesOn i (' ' :: gap 0) fun j ↦ gap (j + 1), rfl, ?_, ?_⟩
  · rintro (_ | i) hi
    · exact List.forall_mem_cons.2 ⟨rfl, hspaces 0 hi⟩
    · exact hspaces (i + 1) hi
  · rintro (_ | i) hi hlt
    · exact absurd hi (Nat.lt_irrefl 0)
    · exact hbetween (i + 1) hi hlt

/-- If a text goes on with a space, its first gap is not empty when there is a word. -/
theorem gap_ne_nil_of_head {gap : Nat → Text} {words : List Text}
    (hproper : ∀ word ∈ words, word ≠ [] ∧ ' ' ∉ word)
    (hhead : ∀ c ∈ (spread gap words).head?, c = ' ') (hne : words ≠ []) : gap 0 ≠ [] := by
  intro hgap
  obtain ⟨word, rest, rfl⟩ := List.exists_cons_of_ne_nil hne
  obtain ⟨⟨hword, hspace⟩, -⟩ := List.forall_mem_cons.1 hproper
  obtain ⟨c, word, rfl⟩ := List.exists_cons_of_ne_nil hword
  -- the text begins with the first character of the word
  rw [spread_cons, hgap] at hhead
  exact hspace (hhead c rfl ▸ List.mem_cons_self)

/-- A word may stand in front of a text that goes on with a space, and it is then the first one. -/
theorem Decomposes.cons {word text : Text} {words : List Text} (hne : word ≠ [])
    (hspace : ' ' ∉ word) (hhead : ∀ c ∈ text.head?, c = ' ') (h : Decomposes text words) :
    Decomposes (word ++ text) (word :: words) := by
  obtain ⟨hproper, gap, rfl, hspaces, hbetween⟩ := h
  -- nothing stands before the word, and the gap behind it is the first one of the text
  refine ⟨List.forall_mem_cons.2 ⟨⟨hne, hspace⟩, hproper⟩, fun i ↦ Nat.casesOn i [] gap,
    (spread_cons (fun i ↦ Nat.casesOn i [] gap) word words).symm, ?_, ?_⟩
  · rintro (_ | i) hi
    · exact nofun
    · exact hspaces i (Nat.le_of_succ_le_succ hi)
  · rintro (_ | _ | i) hi hlt
    · exact absurd hi (Nat.lt_irrefl 0)
    · exact gap_ne_nil_of_head hproper hhead
        (List.ne_nil_of_length_pos (Nat.lt_of_succ_lt_succ hlt))
    · exact hbetween (i + 1) (Nat.succ_pos i) (Nat.lt_of_succ_lt_succ hlt)

/-- A text is made of its maximal runs and of gaps. -/
theorem Runs.decomposes {text : Text} {runs : List Text} (h : Runs text runs) :
    Decomposes text runs := by
  induction h with
  | nil => exact ⟨by simp, fun _ ↦ [], by simp, fun _ _ ↦ nofun, by simp⟩
  | space rest runs _ ih => exact ih.space
  | run word rest runs hne hspace hrest _ ih => exact ih.cons hne hspace hrest

/-- A text is made of its words, and of no other ones. -/
theorem decomposes_iff (text : Text) (words : List Text) :
    Decomposes text words ↔ text.words = words := by
  constructor
  · exact Decomposes.words_eq
  · rintro rfl
    exact (runs_words text).decomposes

/-! ## Stretches without a space -/

/-- A text goes on to its first space, or to its end. -/
theorem exists_eq_append_space (text : Text) :
    ∃ piece rest, text = piece ++ rest ∧ ' ' ∉ piece ∧ ∀ c ∈ rest.head?, c = ' ' := by
  cases hcut : cutAt ' ' text with
  | none => exact ⟨text, [], by simp, (cutAt_eq_none_iff ' ' text).1 hcut, nofun⟩
  | some sides =>
      obtain ⟨htext, hpiece⟩ := eq_append_of_cutAt hcut
      exact ⟨sides.1, ' ' :: sides.2, htext, hpiece, by simp⟩

/-- A stretch of a text without a space lies within one of its words, whatever other characters
there are in it. -/
theorem exists_word_of_no_space {stretch : Text} (hne : stretch ≠ []) (hspace : ' ' ∉ stretch)
    (front back : Text) : ∃ word ∈ words (front ++ (stretch ++ back)), stretch <:+: word := by
  induction front using cut_induction ' ' with
  | last piece hpiece =>
      obtain ⟨ending, rest, rfl, hending, hrest⟩ := exists_eq_append_space back
      have hwords := words_append (piece ++ (stretch ++ ending)) rest (by simp [hne])
        (by simp [hpiece, hspace, hending]) hrest
      simp only [List.append_assoc] at hwords
      rw [hwords]
      exact ⟨_, List.mem_cons_self, piece, ending, List.append_assoc ..⟩
  | cut piece rest _ ih =>
      obtain ⟨word, hword, hstretch⟩ := ih
      rw [List.append_assoc, List.cons_append, words_append_space]
      exact ⟨word, List.mem_append_right _ hword, hstretch⟩

/-- Spaces beside a space add no word. -/
theorem words_append_onlySpaces {gap : Text} (h : OnlySpaces gap) (front back : Text) :
    words (front ++ ' ' :: (gap ++ back)) = words (front ++ ' ' :: back) := by
  rw [words_append_space, words_onlySpaces_append h, words_append_space]

/-- Spaces at the end of a text add no word. -/
theorem words_append_onlySpaces_end {gap : Text} (h : OnlySpaces gap) (text : Text) :
    words (text ++ gap) = text.words := by
  cases gap with
  | nil => rw [List.append_nil]
  | cons c gap =>
      obtain ⟨rfl, hgap⟩ := List.forall_mem_cons.1 h
      rw [← List.append_nil gap, words_append_onlySpaces hgap, words_append_space, words_nil,
        List.append_nil]

/-- Words joined by single spaces keep to the words of the text that they are from. -/
theorem words_unwords_words (text : Text) : words (unwords text.words) = text.words :=
  words_unwords text.words fun _ hword ↦ (runs_words text).ne_nil_and_no_space hword

end Text

open Text

/-! ## Calculations -/

/-- What a calculation reports can be told from the words of its text. -/
theorem report_congr {text other : Text} (h : text.words = other.words) (precision : Precision) :
    report precision text = report precision other := by
  have hexpression : Expression.ofText text = Expression.ofText other := by
    rw [Expression.ofText, h, Expression.ofText]
  rw [report, hexpression, report]

/-- The words of a text are the only ones that it can be made of with gaps of spaces around them,
non-empty ones between two words. They are the words of its parts wherever it is cut at a space, and
words that are joined by single spaces are found again. A calculation does not change when its words
are joined by single spaces, nor by spaces beside a space or at either end, and a stretch of the
text with any other characters in it lies within one word. -/
theorem words_unique_decomposition :
    (∀ text words, Decomposes text words ↔ Text.words text = words) ∧
    (∀ first second, words (first ++ ' ' :: second) = words first ++ words second) ∧
    (∀ parts : List Text, (∀ part ∈ parts, part ≠ [] ∧ ' ' ∉ part) →
      words (unwords parts) = parts) ∧
    (∀ precision text, calculate precision text = calculate precision (unwords text.words)) ∧
    (∀ precision gap front back, OnlySpaces gap →
      calculate precision (front ++ ' ' :: (gap ++ back)) =
        calculate precision (front ++ ' ' :: back) ∧
      calculate precision (gap ++ back) = calculate precision back ∧
      calculate precision (front ++ gap) = calculate precision front) ∧
    ∀ front stretch back : Text, stretch ≠ [] → ' ' ∉ stretch →
      ∃ word ∈ words (front ++ (stretch ++ back)), stretch <:+: word := by
  have hcalculate {text other : Text} (h : text.words = other.words) (precision : Precision) :
      calculate precision text = calculate precision other :=
    congrArg Report.outcome (report_congr h precision)
  refine ⟨decomposes_iff, words_append_space, words_unwords, fun precision text ↦ ?_,
    fun precision gap front back hgap ↦ ⟨?_, ?_, ?_⟩, fun front stretch back hne hspace ↦
      exists_word_of_no_space hne hspace front back⟩
  · exact hcalculate (words_unwords_words text).symm precision
  · exact hcalculate (words_append_onlySpaces hgap front back) precision
  · exact hcalculate (words_onlySpaces_append hgap back) precision
  · exact hcalculate (words_append_onlySpaces_end hgap front) precision

/-- A tab does not end a word: this text has three words, the first with the tab in it, and it is
calculated like them with single spaces between them. -/
theorem words_unique_decomposition_at_tab :
    Decomposes " 1\t +  2 ".toList ["1\t".toList, ['+'], ['2']] ∧
    ∀ precision, calculate precision " 1\t +  2 ".toList = calculate precision "1\t + 2".toList := by
  obtain ⟨hdecomposes, -, -, hcalculate, -⟩ := words_unique_decomposition
  have hwords : Text.words " 1\t +  2 ".toList = ["1\t".toList, ['+'], ['2']] := by decide +kernel
  refine ⟨(hdecomposes _ _).2 hwords, fun precision ↦ ?_⟩
  rw [hcalculate, hwords]
  rfl

end MixedNumbers
