import Mathlib.Data.List.DropRight
import MixedNumbers.Text.Basic

/-!
# Trimmed texts

`trim_eq_iff` says what trimming leaves of a text: a middle part that neither begins nor ends
with a blank, when everything around it is blank. The fields of a text are its stretches between
blanks. Cutting a text into words first, which happens at spaces alone, does not change its
fields (`fields_eq_flatMap_words`), and a text is trimmed to a word without blanks exactly when
this word is its only field (`trim_eq_iff_fields`).
-/

namespace MixedNumbers.Text

/-- All characters of the text are blank. -/
def OnlyBlanks (text : Text) : Prop :=
  ∀ c ∈ text, isBlank c = true

/-- Being blank is decided character by character. -/
instance (text : Text) : Decidable (OnlyBlanks text) :=
  List.decidableBAll _ text

/-- No character of the text is blank. -/
def NoBlanks (text : Text) : Prop :=
  ∀ c ∈ text, isBlank c = false

/-- Being without blanks is decided character by character. -/
instance (text : Text) : Decidable (NoBlanks text) :=
  List.decidableBAll _ text

/-- The text neither begins nor ends with a blank. -/
structure IsTrimmed (text : Text) : Prop where
  head : ∀ c ∈ text.head?, isBlank c = false
  last : ∀ c ∈ text.getLast?, isBlank c = false

/-- A text without blanks is trimmed. -/
theorem NoBlanks.isTrimmed {text : Text} (h : NoBlanks text) : IsTrimmed text where
  head c hc := h c (List.mem_of_head? hc)
  last c hc := h c (List.mem_of_getLast? hc)

/-! ## What trimming leaves -/

section

variable {p : Char → Bool}

/-- Characters that satisfy the predicate are dropped from the front up to one that does not. -/
theorem dropWhile_append {front rest : Text} (hfront : ∀ c ∈ front, p c = true)
    (hrest : ∀ c ∈ rest.head?, p c = false) : (front ++ rest).dropWhile p = rest := by
  rw [List.dropWhile_append_of_pos hfront]
  cases rest with
  | nil => rfl
  | cons c rest => simp [hrest c rfl]

/-- Characters that satisfy the predicate are dropped from the end down to one that does not. -/
theorem dropEndWhile_append {body ending : Text} (hending : ∀ c ∈ ending, p c = true)
    (hbody : ∀ c ∈ body.getLast?, p c = false) : dropEndWhile p (body ++ ending) = body := by
  have hdrop : (ending.reverse ++ body.reverse).dropWhile p = body.reverse :=
    dropWhile_append (by simpa using hending) (by simpa using hbody)
  rw [dropEndWhile, List.reverse_append, hdrop, List.reverse_reverse]

/-- What is dropped from the end of a text satisfies the predicate. -/
theorem exists_eq_dropEndWhile_append (p : Char → Bool) (text : Text) :
    ∃ ending, text = dropEndWhile p text ++ ending ∧ ∀ c ∈ ending, p c = true :=
  ⟨text.rtakeWhile p, List.rdropWhile_append_rtakeWhile.symm,
    fun _ hc ↦ List.mem_rtakeWhile_imp hc⟩

/-- The last character that is kept does not satisfy the predicate. -/
theorem getLast_dropEndWhile (p : Char → Bool) (text : Text) :
    ∀ c ∈ (dropEndWhile p text).getLast?, p c = false := by
  intro c hc
  obtain ⟨hne, rfl⟩ := List.mem_getLast?_eq_getLast hc
  exact Bool.eq_false_iff.2 (List.rdropWhile_last_not p text hne)

end

/-- Blanks around a trimmed text are trimmed away. -/
theorem IsTrimmed.trim_append {front middle back : Text} (hmiddle : IsTrimmed middle)
    (hfront : OnlyBlanks front) (hback : OnlyBlanks back) :
    trim (front ++ (middle ++ back)) = middle := by
  by_cases hne : middle = []
  · subst hne
    have hall : (front ++ ([] ++ back)).dropWhile isBlank = [] := by
      rw [List.dropWhile_eq_nil_iff, List.nil_append]
      exact List.forall_mem_append.2 ⟨hfront, hback⟩
    rw [trim, hall]
    rfl
  · have hhead : ∀ c ∈ (middle ++ back).head?, isBlank c = false := by
      rw [List.head?_append_of_ne_nil _ hne]
      exact hmiddle.head
    rw [trim, dropWhile_append hfront hhead, dropEndWhile_append hback hmiddle.last]

/-- A text is its trimmed text with blanks around it. -/
theorem exists_eq_append_trim (text : Text) :
    IsTrimmed text.trim ∧ ∃ front back, text = front ++ (text.trim ++ back) ∧
      OnlyBlanks front ∧ OnlyBlanks back := by
  obtain ⟨back, hrest, hback⟩ := exists_eq_dropEndWhile_append isBlank (text.dropWhile isBlank)
  have hsplit : text = text.takeWhile isBlank ++ (text.trim ++ back) :=
    (List.takeWhile_append_dropWhile).symm.trans (congrArg _ hrest)
  refine ⟨⟨?_, getLast_dropEndWhile isBlank _⟩, _, back, hsplit, ?_, hback⟩
  · intro c hc
    have hhead : c ∈ (text.dropWhile isBlank).head? := by
      rw [hrest]
      exact List.mem_head?_append_of_mem_head? hc
    have hnot := List.head?_dropWhile_not isBlank text
    rw [Option.mem_def] at hhead
    simpa [hhead] using hnot
  · exact fun c hc ↦ List.mem_takeWhile_imp hc

/-- A text is trimmed to the part of it that neither begins nor ends with a blank and has only
blanks around it. -/
theorem trim_eq_iff (text middle : Text) :
    text.trim = middle ↔ IsTrimmed middle ∧ ∃ front back, text = front ++ (middle ++ back) ∧
      OnlyBlanks front ∧ OnlyBlanks back := by
  constructor
  · rintro rfl
    exact exists_eq_append_trim text
  · rintro ⟨hmiddle, front, back, rfl, hfront, hback⟩
    exact hmiddle.trim_append hfront hback

/-- Nothing is left of a text exactly when all of it is blank. -/
theorem trim_eq_nil_iff (text : Text) : text.trim = [] ↔ OnlyBlanks text := by
  rw [trim_eq_iff]
  constructor
  · rintro ⟨-, front, back, rfl, hfront, hback⟩
    exact List.forall_mem_append.2 ⟨hfront, hback⟩
  · intro htext
    exact ⟨⟨nofun, nofun⟩, text, [], by simp, htext, nofun⟩

/-- A blank ending is trimmed away with the rest. -/
theorem trim_append_of_onlyBlanks (text : Text) {ending : Text} (hending : OnlyBlanks ending) :
    (text ++ ending).trim = text.trim := by
  obtain ⟨hmiddle, front, back, htext, hfront, hback⟩ := exists_eq_append_trim text
  rw [trim_eq_iff]
  refine ⟨hmiddle, front, back ++ ending, ?_, hfront, List.forall_mem_append.2 ⟨hback, hending⟩⟩
  conv_lhs => rw [htext]
  simp

/-! ## Fields -/

/-- The fields of a text: the non-empty stretches between its blanks, in order. -/
def fields (text : Text) : List Text :=
  (text.splitOnP isBlank).filter fun stretch ↦ !stretch.isEmpty

/-- A blank separates fields. -/
theorem fields_append_blank (first second : Text) {c : Char} (hc : isBlank c = true) :
    fields (first ++ c :: second) = fields first ++ fields second := by
  rw [fields, List.splitOnP_append_cons first second hc, List.filter_append, fields, fields]

/-- The empty text has no fields. -/
@[simp]
theorem fields_nil : fields [] = [] := by
  simp [fields]

/-- A blank at the front adds no field. -/
theorem fields_cons_blank (text : Text) {c : Char} (hc : isBlank c = true) :
    fields (c :: text) = fields text := by
  simpa using fields_append_blank [] text hc

/-- Blanks at the front add no field. -/
theorem fields_blank_append {front : Text} (hfront : OnlyBlanks front) (text : Text) :
    fields (front ++ text) = fields text := by
  induction front with
  | nil => rfl
  | cons c front ih =>
      rw [OnlyBlanks, List.forall_mem_cons] at hfront
      rw [List.cons_append, fields_cons_blank _ hfront.1, ih hfront.2]

/-- A blank text has no fields. -/
theorem fields_of_onlyBlanks {text : Text} (htext : OnlyBlanks text) : fields text = [] := by
  simpa using fields_blank_append htext []

/-- Blanks at the end add no field. -/
theorem fields_append_of_onlyBlanks (text : Text) {back : Text} (hback : OnlyBlanks back) :
    fields (text ++ back) = fields text := by
  cases back with
  | nil => rw [List.append_nil]
  | cons c back =>
      rw [OnlyBlanks, List.forall_mem_cons] at hback
      rw [fields_append_blank _ _ hback.1, fields_of_onlyBlanks hback.2, List.append_nil]

/-- A non-empty text without blanks is its own only field. -/
theorem fields_of_noBlanks {word : Text} (hne : word ≠ []) (hword : NoBlanks word) :
    fields word = [word] := by
  simp [fields, List.splitOnP_eq_singleton hword, hne]

/-- A text with a character that is not blank has a field. -/
theorem fields_ne_nil {text : Text} {c : Char} (hc : c ∈ text) (hblank : isBlank c = false) :
    fields text ≠ [] := by
  induction text with
  | nil => exact absurd hc List.not_mem_nil
  | cons d rest ih =>
      by_cases hd : isBlank d = true
      · have hrest : c ∈ rest := by
          rcases List.mem_cons.1 hc with rfl | hrest
          · rw [hblank] at hd
            cases hd
          · exact hrest
        rw [fields_cons_blank rest hd]
        exact ih hrest
      · -- the first stretch begins with this character
        obtain ⟨stretch, stretches, hsplit⟩ :=
          List.exists_cons_of_ne_nil (List.splitOnP_ne_nil isBlank rest)
        simp [fields, List.splitOnP_cons_eq_if_modifyHead, hd, hsplit]

/-- Cutting a text into words first does not change its fields. -/
theorem fields_eq_flatMap_words (text : Text) : fields text = text.words.flatMap fields := by
  induction text using cut_induction ' ' with
  | last piece hpiece =>
      by_cases hne : piece = []
      · simp [hne]
      · rw [words_of_no_space piece hne hpiece, List.flatMap_singleton]
  | cut piece rest hpiece ih =>
      by_cases hne : piece = []
      · rw [hne, List.nil_append, words_space, fields_cons_blank rest (by decide), ih]
      · rw [fields_append_blank piece rest (by decide), words_append_space,
          words_of_no_space piece hne hpiece, List.flatMap_append, List.flatMap_singleton, ih]

/-- On both sides of a blank in a trimmed text there are fields. -/
theorem IsTrimmed.fields_ne_nil_of_blank {first second : Text} {c : Char}
    (htext : IsTrimmed (first ++ c :: second)) (hc : isBlank c = true) :
    fields first ≠ [] ∧ fields second ≠ [] := by
  have hnot_blank : ¬ isBlank c = false := by simp [hc]
  constructor
  · cases first with
    | nil => exact absurd (htext.head c rfl) hnot_blank
    | cons d rest => exact fields_ne_nil List.mem_cons_self (htext.head d rfl)
  · cases hlast : second.getLast? with
    | none =>
        rw [List.getLast?_eq_none_iff] at hlast
        exact absurd (htext.last c (by simp [hlast])) hnot_blank
    | some d =>
        exact fields_ne_nil (List.mem_of_getLast? hlast)
          (htext.last d (by simp [List.getLast?_cons, hlast]))

/-- A trimmed text with a single field is that field. -/
theorem IsTrimmed.eq_of_fields {text word : Text} (htext : IsTrimmed text)
    (hfields : fields text = [word]) : text = word := by
  have hno_blanks : NoBlanks text := by
    intro c hc
    by_contra hblank
    obtain ⟨first, second, rfl⟩ := List.append_of_mem hc
    have hc_blank : isBlank c = true := by simpa using hblank
    obtain ⟨hfirst, hsecond⟩ := htext.fields_ne_nil_of_blank hc_blank
    -- the fields on the two sides of the blank are at least two
    rw [fields_append_blank first second hc_blank] at hfields
    have hlength := congrArg List.length hfields
    have hfirst_pos := List.length_pos_iff.2 hfirst
    have hsecond_pos := List.length_pos_iff.2 hsecond
    rw [List.length_append, List.length_singleton] at hlength
    omega
  by_cases hne : text = []
  · rw [hne, fields_nil] at hfields
    cases hfields
  · rw [fields_of_noBlanks hne hno_blanks] at hfields
    exact List.singleton_inj.1 hfields

/-- A text is trimmed to a word without blanks exactly when the word is its only field. -/
theorem trim_eq_iff_fields {word : Text} (hne : word ≠ []) (hword : NoBlanks word)
    (text : Text) : text.trim = word ↔ fields text = [word] := by
  obtain ⟨hmiddle, front, back, htext, hfront, hback⟩ := exists_eq_append_trim text
  have hfields : fields text = fields text.trim := by
    conv_lhs => rw [htext]
    rw [fields_blank_append hfront, fields_append_of_onlyBlanks _ hback]
  rw [hfields]
  constructor
  · intro htrim
    rw [htrim, fields_of_noBlanks hne hword]
  · exact hmiddle.eq_of_fields

/-- Texts with the same words are trimmed to the same word without blanks, if to any. -/
theorem trim_eq_iff_of_words_eq {text other word : Text} (hwords : text.words = other.words)
    (hne : word ≠ []) (hword : NoBlanks word) :
    text.trim = word ↔ other.trim = word := by
  rw [trim_eq_iff_fields hne hword, trim_eq_iff_fields hne hword, fields_eq_flatMap_words, hwords,
    ← fields_eq_flatMap_words]

end MixedNumbers.Text
