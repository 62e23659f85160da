import MixedNumbers.Proofs.Checked
import MixedNumbers.Proofs.Trimming
import MixedNumbers.Proofs.Words
import MixedNumbers.Session

/-!
# Arrangements of a command line

The words of an expression may be arguments of their own, or several of them may share an
argument, and the options may stand anywhere between them. `Arranged` relates all these command
lines to their options and words. `Arranged.exists_readFrom` says what is read from one, and
`run_eq_of_arranged` that runs do not differ by the arrangement.
-/

namespace MixedNumbers

namespace CommandLine

/-- The text is an option: one of the short ones, or any text that begins with two minus signs. -/
def IsOption (text : Text) : Prop :=
  text = "-h".toList ∨ text = "-V".toList ∨ "--".toList <+: text

/-- Being an option is decided by comparing characters. -/
instance (text : Text) : Decidable (IsOption text) :=
  inferInstanceAs (Decidable (_ ∨ _ ∨ _))

/-- The arguments are complete options that set a precision: each tolerance option has its value
behind it, whatever the value is. -/
inductive Settings : List Text → Prop where
  | nil : Settings []
  | float (rest : List Text) : Settings rest → Settings ("--float".toList :: rest)
  | tolerance (value : Text) (rest : List Text) :
      Settings rest → Settings ("--epsilon".toList :: value :: rest)

/-- `Arranged settings words arguments` says that the arguments are these settings, in their order,
with the words anywhere before, between and behind them. An argument holds one or more of the words,
in order, with any number of spaces around each. -/
inductive Arranged : List Text → List Text → List Text → Prop where
  | nil : Arranged [] [] []
  | float (settings words arguments : List Text) :
      Arranged settings words arguments →
      Arranged ("--float".toList :: settings) words ("--float".toList :: arguments)
  | tolerance (value : Text) (settings words arguments : List Text) :
      Arranged settings words arguments →
      Arranged ("--epsilon".toList :: value :: settings) words
        ("--epsilon".toList :: value :: arguments)
  | group (argument : Text) (group settings words arguments : List Text) :
      group ≠ [] → Text.Runs argument group → Arranged settings words arguments →
      Arranged settings (group ++ words) (argument :: arguments)

/-! ## Arguments that are no options -/

/-- Every argument that is not an option belongs to the expression. -/
theorem ofText_of_not_isOption {argument : Text} (h : ¬ IsOption argument) :
    ArgumentKind.ofText argument = .operand := by
  simp only [IsOption, not_or] at h
  obtain ⟨hhelp, hversion, hprefix⟩ := h
  have hne (name : Text) (hname : "--".toList <+: name) : argument ≠ name := by
    rintro rfl
    exact hprefix hname
  unfold ArgumentKind.ofText
  rw [if_neg (not_or.2 ⟨hhelp, hne _ (by decide)⟩),
    if_neg (not_or.2 ⟨hversion, hne _ (by decide)⟩), if_neg (hne _ (by decide)),
    if_neg (hne _ (by decide))]
  split
  · rename_i rest
    exact absurd (List.prefix_append "--".toList rest) hprefix
  · rfl

/-- The first word of an option is an option. -/
theorem exists_isOption_of_isOption {text : Text} (h : IsOption text) :
    ∃ word ∈ text.words, IsOption word := by
  rcases h with rfl | rfl | ⟨rest, rfl⟩
  · exact ⟨"-h".toList, by decide, Or.inl rfl⟩
  · exact ⟨"-V".toList, by decide, Or.inr (Or.inl rfl)⟩
  · -- the word goes on to the first space
    have hwords : Text.words ("--".toList ++ rest) =
        ("--".toList ++ rest.takeWhile (· != ' ')) :: Text.words (rest.dropWhile (· != ' ')) := by
      conv_lhs => rw [← List.takeWhile_append_dropWhile (p := (· != ' ')) (l := rest)]
      rw [← List.append_assoc]
      refine Text.words_append _ _ (by simp) ?_ ?_
      · simp only [List.mem_append, not_or]
        exact ⟨by decide, fun hspace ↦ by simpa using List.mem_takeWhile_imp hspace⟩
      · intro c hc
        have hnot := List.head?_dropWhile_not (· != ' ') rest
        rw [Option.mem_def] at hc
        simpa [hc] using hnot
    rw [hwords]
    exact ⟨_, List.mem_cons_self, Or.inr (Or.inr (List.prefix_append _ _))⟩

/-- An argument that holds words, none of which is an option, belongs to the expression. -/
theorem ofText_of_runs {argument : Text} {group : List Text} (hruns : Text.Runs argument group)
    (hplain : ∀ word ∈ group, ¬ IsOption word) : ArgumentKind.ofText argument = .operand := by
  apply ofText_of_not_isOption
  intro hoption
  obtain ⟨word, hword, hword_option⟩ := exists_isOption_of_isOption hoption
  rw [(Text.runs_iff _ _).1 hruns] at hword
  exact hplain word hword hword_option

/-! ## Reading an arrangement -/

section

variable (precision : Precision) (collected rest : List Text)

/-- Asking for binary64 changes the precision. -/
theorem readFrom_float : readFrom precision collected ("--float".toList :: rest) =
    readFrom precision.inBinary64 collected rest :=
  rfl

/-- A tolerance sets the precision, or its value is reported. -/
theorem readFrom_tolerance (value : Text) :
    readFrom precision collected ("--epsilon".toList :: value :: rest) =
      match readTolerance value with
      | none => .error (.invalidTolerance value)
      | some tolerance => readFrom (.float tolerance) collected rest :=
  rfl

/-- An operand is collected. -/
theorem readFrom_operand {argument : Text} (h : ArgumentKind.ofText argument = .operand) :
    readFrom precision collected (argument :: rest) =
      readFrom precision (collected ++ [argument]) rest := by
  rw [readFrom.eq_def]
  simp only [h]

end

/-- From an arrangement the precision of its settings is read, or their first fault, and operands
that hold its words. -/
theorem Arranged.exists_readFrom {settings words arguments : List Text}
    (h : Arranged settings words arguments) (hplain : ∀ word ∈ words, ¬ IsOption word) :
    ∃ operands : List Text, operands.flatMap Text.words = words ∧
      ∀ precision collected, readFrom precision collected arguments =
        (readFrom precision [] settings).map
          fun line ↦ ⟨ofOperands (collected ++ operands), line.precision⟩ := by
  induction h with
  | nil => exact ⟨[], rfl, fun precision collected ↦ by rw [List.append_nil]; rfl⟩
  | float settings words arguments _ ih =>
      obtain ⟨operands, hwords, hread⟩ := ih hplain
      refine ⟨operands, hwords, fun precision collected ↦ ?_⟩
      rw [readFrom_float, readFrom_float, hread]
  | tolerance value settings words arguments _ ih =>
      obtain ⟨operands, hwords, hread⟩ := ih hplain
      refine ⟨operands, hwords, fun precision collected ↦ ?_⟩
      rw [readFrom_tolerance, readFrom_tolerance]
      cases readTolerance value with
      | none => rfl
      | some tolerance => exact hread (.float tolerance) collected
  | group argument group settings words arguments _ hruns _ ih =>
      rw [List.forall_mem_append] at hplain
      obtain ⟨operands, hwords, hread⟩ := ih hplain.2
      refine ⟨argument :: operands, ?_, fun precision collected ↦ ?_⟩
      · rw [List.flatMap_cons, (Text.runs_iff _ _).1 hruns, hwords]
      · rw [readFrom_operand _ _ _ (ofText_of_runs hruns hplain.1), hread, List.append_assoc,
          List.singleton_append]

/-! ## Particular arrangements -/

/-- Words that are arguments of their own are an arrangement. -/
theorem arranged_words {words : List Text} (h : ∀ word ∈ words, word ≠ [] ∧ ' ' ∉ word) :
    Arranged [] words words := by
  induction words with
  | nil => exact .nil
  | cons word words ih =>
      rw [List.forall_mem_cons] at h
      have hruns : Text.Runs word [word] := by
        rw [Text.runs_iff, Text.words_of_no_space word h.1.1 h.1.2]
      exact .group word [word] [] words words (by simp) hruns (ih h.2)

/-- A text is an arrangement of its words. -/
theorem arranged_text {text : Text} (h : text.words ≠ []) : Arranged [] text.words [text] := by
  simpa using Arranged.group text text.words [] [] [] h (Text.runs_words text) .nil

/-- Settings may stand before everything else. -/
theorem Settings.arranged_append {settings words arguments : List Text}
    (hsettings : Settings settings) (h : Arranged [] words arguments) :
    Arranged settings words (settings ++ arguments) := by
  induction hsettings with
  | nil => exact h
  | float rest _ ih => exact .float rest words _ ih
  | tolerance value rest _ ih => exact .tolerance value rest words _ ih

end CommandLine

/-! ## Runs -/

namespace Session

open CommandLine

/-- Whether a text asks to leave can be told from its words. -/
theorem isFarewell_congr {text other : Text} (hwords : text.words = other.words) :
    isFarewell text = isFarewell other := by
  have hexit : text.trim = "exit".toList ↔ other.trim = "exit".toList :=
    Text.trim_eq_iff_of_words_eq hwords (by decide) (by decide)
  have hquit : text.trim = "quit".toList ↔ other.trim = "quit".toList :=
    Text.trim_eq_iff_of_words_eq hwords (by decide) (by decide)
  simp only [isFarewell, hexit, hquit]

/-- The answer to an expression can be told from its words. -/
theorem answerOnce_congr {text other : Text} (hwords : text.words = other.words)
    (console : Console) : answerOnce console text = answerOnce console other := by
  have hchecked : checked text.words = checked other.words := by rw [hwords]
  rw [answerOnce, isFarewell_congr hwords, calculate_congr hchecked, answerOnce]

/-- Two arrangements of the same settings and words, with at least one word and no option among
the words, are the same run. -/
theorem run_congr {settings words arguments others : List Text}
    (h : Arranged settings words arguments) (hothers : Arranged settings words others)
    (hne : words ≠ []) (hplain : ∀ word ∈ words, ¬ IsOption word) (color : Bool)
    (input : List UInt8) : run color arguments input = run color others input := by
  obtain ⟨operands, hwords, hread⟩ := h.exists_readFrom hplain
  obtain ⟨operands', hwords', hread'⟩ := hothers.exists_readFrom hplain
  have hsome (operands : List Text) (h : operands.flatMap Text.words = words) :
      ofOperands operands = .calculate (Text.unwords operands) := by
    cases operands with
    | nil => exact absurd h.symm hne
    | cons operand rest => rfl
  have hsame : (Text.unwords operands).words = (Text.unwords operands').words := by
    rw [Text.words_unwords_eq_flatMap, Text.words_unwords_eq_flatMap, hwords, hwords']
  rw [run, run, start, start, CommandLine.read, CommandLine.read, hread, hread', List.nil_append,
    List.nil_append, hsome operands hwords, hsome operands' hwords']
  cases readFrom .exact [] settings with
  | error error => rfl
  | ok line => exact answerOnce_congr hsame ⟨color, line.precision⟩

/-- An expression may be given as one argument or as many, behind settings or with the settings
between its words, if it has at least one word and none of its words is an option: all these
arrangements are the same run, with what they print on both outputs and the exit code. -/
theorem run_eq_of_arranged {settings : List Text} {text : Text} (hsettings : Settings settings)
    (hne : text.words ≠ []) (hplain : ∀ word ∈ text.words, ¬ IsOption word) (color : Bool)
    (input : List UInt8) :
    run color (settings ++ text.words) input = run color (settings ++ [text]) input ∧
    ∀ arguments, Arranged settings text.words arguments →
      run color arguments input = run color (settings ++ [text]) input := by
  have hwords : ∀ word ∈ text.words, word ≠ [] ∧ ' ' ∉ word := fun word hword ↦
    (Text.runs_words text).ne_nil_and_no_space hword
  have hquoted : Arranged settings text.words (settings ++ [text]) :=
    hsettings.arranged_append (arranged_text hne)
  have hsplit : Arranged settings text.words (settings ++ text.words) :=
    hsettings.arranged_append (arranged_words hwords)
  exact ⟨run_congr hsplit hquoted hne hplain color input,
    fun arguments harguments ↦ run_congr harguments hquoted hne hplain color input⟩

/-- A sum in two arguments, with a setting between them and one behind, is answered like the sum in
one argument behind the settings. -/
theorem run_eq_of_arranged_sum :
    Settings ["--float".toList, "--epsilon".toList, "0.5".toList] ∧
    Text.words " 1/2  + 1/3".toList = ["1/2".toList, "+".toList, "1/3".toList] ∧
    Arranged ["--float".toList, "--epsilon".toList, "0.5".toList]
      ["1/2".toList, "+".toList, "1/3".toList]
      ["1/2   +".toList, "--float".toList, "1/3".toList, "--epsilon".toList, "0.5".toList] ∧
    ∀ input, run false
        ["1/2   +".toList, "--float".toList, "1/3".toList, "--epsilon".toList, "0.5".toList] input =
      run false
        ["--float".toList, "--epsilon".toList, "0.5".toList, " 1/2  + 1/3".toList] input := by
  have hsettings : Settings ["--float".toList, "--epsilon".toList, "0.5".toList] :=
    .float _ (.tolerance _ _ .nil)
  have hwords : Text.words " 1/2  + 1/3".toList = ["1/2".toList, "+".toList, "1/3".toList] := by
    decide +kernel
  have harranged : Arranged ["--float".toList, "--epsilon".toList, "0.5".toList]
      ["1/2".toList, "+".toList, "1/3".toList]
      ["1/2   +".toList, "--float".toList, "1/3".toList, "--epsilon".toList, "0.5".toList] := by
    have hleft : Text.Runs "1/2   +".toList ["1/2".toList, "+".toList] :=
      (Text.runs_iff _ _).2 (by decide +kernel)
    have hright : Text.Runs "1/3".toList ["1/3".toList] := (Text.runs_iff _ _).2 (by decide +kernel)
    exact .group _ _ _ ["1/3".toList] _ (by simp) hleft (.float _ _ _
      (.group _ _ _ [] _ (by simp) hright (.tolerance _ _ _ _ .nil)))
  refine ⟨hsettings, hwords, harranged, fun input ↦ ?_⟩
  exact (run_eq_of_arranged hsettings (by rw [hwords]; simp) (by rw [hwords]; decide) false
    input).2 _ (hwords ▸ harranged)

end Session

end MixedNumbers
