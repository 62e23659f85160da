import MixedNumbers.Text.Basic

/-!
# Words as maximal runs, and joined texts

`Runs text runs` says that the runs are the maximal stretches of a text without spaces, in
order. `runs_iff` says that cutting a text into words gives exactly these. `Joined parts text`
says that the text is made of the parts with a space between neighbours, and `joined_iff` that
joining words gives exactly this text.
-/

namespace MixedNumbers.Text

/-- `Runs text runs` says that these are the maximal runs of the text's characters that are no
spaces. A run begins at the front of the text or behind a space, and ends before a space or at the
end. -/
inductive Runs : Text → List Text → Prop where
  | nil : Runs [] []
  | space (rest : Text) (runs : List Text) : Runs rest runs → Runs (' ' :: rest) runs
  | run (word rest : Text) (runs : List Text) :
      word ≠ [] → ' ' ∉ word → (∀ c ∈ rest.head?, c = ' ') → Runs rest runs →
      Runs (word ++ rest) (word :: runs)

/-- A run at the front of a text is its first word. -/
theorem words_append (word rest : Text) (hne : word ≠ []) (hspace : ' ' ∉ word)
    (hrest : ∀ c ∈ rest.head?, c = ' ') : words (word ++ rest) = word :: words rest := by
  cases rest with
  | nil => rw [List.append_nil, words_of_no_space word hne hspace, words_nil]
  | cons c rest =>
      obtain rfl : c = ' ' := hrest c rfl
      rw [words_append_space, words_of_no_space word hne hspace, words_space, List.singleton_append]

/-- The words of a text are its maximal runs. -/
theorem runs_words (text : Text) : Runs text text.words := by
  induction text using cut_induction ' ' with
  | last piece hpiece =>
      by_cases hne : piece = []
      · rw [hne, words_nil]
        exact .nil
      · rw [words_of_no_space piece hne hpiece]
        -- the last piece is a run with nothing behind it
        simpa using Runs.run piece [] [] hne hpiece (by simp) .nil
  | cut piece rest hpiece ih =>
      have hspace : Runs (' ' :: rest) rest.words := .space rest _ ih
      by_cases hne : piece = []
      · rw [hne, List.nil_append, words_space]
        exact hspace
      · rw [words_append piece (' ' :: rest) hne hpiece (by simp), words_space]
        exact .run piece _ _ hne hpiece (by simp) hspace

/-- Cutting a text into words gives its maximal runs. -/
theorem runs_iff (text : Text) (runs : List Text) : Runs text runs ↔ text.words = runs := by
  constructor
  · intro h
    induction h with
    | nil => exact words_nil
    | space rest runs _ ih => rw [words_space, ih]
    | run word rest runs hne hspace hrest _ ih => rw [words_append word rest hne hspace hrest, ih]
  · rintro rfl
    exact runs_words text

/-- A maximal run is not empty and has no space in it. -/
theorem Runs.ne_nil_and_no_space {text word : Text} {runs : List Text} (h : Runs text runs)
    (hword : word ∈ runs) : word ≠ [] ∧ ' ' ∉ word := by
  induction h with
  | nil => exact absurd hword List.not_mem_nil
  | space rest runs _ ih => exact ih hword
  | run first rest runs hne hspace _ _ ih =>
      rcases List.mem_cons.1 hword with rfl | hword
      · exact ⟨hne, hspace⟩
      · exact ih hword

/-- `Joined parts text` says that the text is made of the parts in their order, with one space
between any two neighbours and nothing else. -/
inductive Joined : List Text → Text → Prop where
  | nil : Joined [] []
  | single (part : Text) : Joined [part] part
  | cons (part next : Text) (rest : List Text) (text : Text) :
      Joined (next :: rest) text → Joined (part :: next :: rest) (part ++ ' ' :: text)

/-- The first of several joined words has a space behind it. -/
theorem unwords_cons_cons (part next : Text) (rest : List Text) :
    unwords (part :: next :: rest) = part ++ ' ' :: unwords (next :: rest) := by
  simp [unwords]

/-- Parts are joined to the text that joining them gives. -/
theorem joined_unwords (parts : List Text) : Joined parts (unwords parts) := by
  induction parts with
  | nil => exact .nil
  | cons part rest ih =>
      cases rest with
      | nil =>
          rw [unwords, List.intercalate_singleton]
          exact .single part
      | cons next rest =>
          rw [unwords_cons_cons]
          exact .cons part next rest _ ih

/-- Joining parts gives the one text to which they are joined. -/
theorem joined_iff (parts : List Text) (text : Text) :
    Joined parts text ↔ unwords parts = text := by
  constructor
  · intro h
    induction h with
    | nil => rfl
    | single part => rw [unwords, List.intercalate_singleton]
    | cons part next rest text _ ih => rw [unwords_cons_cons, ih]
  · rintro rfl
    exact joined_unwords parts

/-- Texts that are joined by spaces keep their words. -/
theorem words_unwords_eq_flatMap (parts : List Text) :
    (unwords parts).words = parts.flatMap words := by
  induction parts with
  | nil => simp [unwords]
  | cons part rest ih =>
      cases rest with
      | nil => simp [unwords]
      | cons next rest =>
          rw [unwords_cons_cons, words_append_space, ih]
          exact List.flatMap_cons.symm

end MixedNumbers.Text
