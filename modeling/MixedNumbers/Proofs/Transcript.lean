import MixedNumbers.Proofs.Trimming
import MixedNumbers.Session

/-!
# Transcripts of dialogues

A dialogue is told line by line. `Cuts` relates an input to its lines, `Replies` a line to what
is printed for it and to the exit code if it ends the run, and `Transcribes` all lines to what is
printed for them and the exit code of the run. The functions of the program compute these
relations: `cuts_iff`, `reply_eq_iff` and `transcript_eq_iff`. Nothing is kept from one line to the
next, so the transcript of an input is put together from those of its parts
(`run_line_by_line`).
-/

namespace MixedNumbers.Session

/-- `Cuts input lines` says that the lines are the input, cut behind every line feed. The last line
may lack its line feed. -/
inductive Cuts : List UInt8 → List (List UInt8) → Prop where
  | nil : Cuts [] []
  | last (line : List UInt8) : line ≠ [] → 0x0a ∉ line → Cuts line [line]
  | line (front rest : List UInt8) (lines : List (List UInt8)) : 0x0a ∉ front → Cuts rest lines →
      Cuts (front ++ 0x0a :: rest) ((front ++ [0x0a]) :: lines)

/-- The bytes of a text in UTF-8. -/
def encode (text : Text) : List UInt8 :=
  text.flatMap String.utf8EncodeChar

/-- The text is one of the two words that ask to leave, with blanks around it. -/
def AsksToLeave (text : Text) : Prop :=
  ∃ front word back, text = front ++ (word ++ back) ∧ Text.OnlyBlanks front ∧
    Text.OnlyBlanks back ∧ (word = "exit".toList ∨ word = "quit".toList)

/-- The body is the text without all line feeds and carriage returns at its end. -/
def IsBody (body text : Text) : Prop :=
  ∃ ending, text = body ++ ending ∧ (∀ c ∈ ending, c = '\n' ∨ c = '\r') ∧
    ∀ c ∈ body.getLast?, c ≠ '\n' ∧ c ≠ '\r'

/-- `Replies console line printed code` says what is printed for a line of the input, and with which
exit code the line ends the run, if it does. A line with an expression is answered as if its body
were the only expression of a run, except that errors go to the standard output too. -/
inductive Replies (console : Console) : List UInt8 → Text → Option Nat → Prop where
  | undecodable (line : List UInt8) : (∀ text, encode text ≠ line) →
      Replies console line [] (some 1)
  | blank (text : Text) : Text.OnlyBlanks text → Replies console (encode text) [] none
  | farewell (text : Text) : AsksToLeave text →
      Replies console (encode text) "Application has ended.\n".toList (some 0)
  | result (text body result printed : Text) :
      ¬ Text.OnlyBlanks text → ¬ AsksToLeave text → IsBody body text →
      calculate console.precision body = .ok result →
      printed = "= ".toList ++ Text.styled console.color .bold result ++ "\n".toList →
      answerOnce console body = ⟨printed, [], 0⟩ → Replies console (encode text) printed none
  | error (text body : Text) (error : CalculationError) (printed : Text) :
      ¬ Text.OnlyBlanks text → ¬ AsksToLeave text → IsBody body text →
      calculate console.precision body = .error error →
      printed = Text.styled console.color .red error.message ++ "\n".toList →
      answerOnce console body = ⟨[], printed, 1⟩ → Replies console (encode text) printed none

/-- `Transcribes console lines printed code` says what is printed for the lines, each behind a
prompt, and the exit code. The first line that ends the run is the last one with an influence. -/
inductive Transcribes (console : Console) : List (List UInt8) → Text → Nat → Prop where
  | exhausted : Transcribes console [] "? \n".toList 0
  | goesOn (line : List UInt8) (lines : List (List UInt8)) (printed more : Text) (code : Nat) :
      Replies console line printed none → Transcribes console lines more code →
      Transcribes console (line :: lines) ("? ".toList ++ printed ++ more) code
  | stops (line : List UInt8) (lines : List (List UInt8)) (printed : Text) (code : Nat) :
      Replies console line printed (some code) →
      Transcribes console (line :: lines) ("? ".toList ++ printed) code

/-- The line ends the run. -/
def Stops (console : Console) (line : List UInt8) : Prop :=
  ∃ printed code, Replies console line printed (some code)

/-! ## Lines -/

/-- Bytes without a line feed are one line. -/
theorem cutLines_of_not_mem {line : List UInt8} (hne : line ≠ []) (hline : 0x0a ∉ line) :
    cutLines line = [line] := by
  induction line with
  | nil => exact absurd rfl hne
  | cons byte rest ih =>
      rw [List.mem_cons, not_or] at hline
      rw [cutLines, if_neg (Ne.symm hline.1)]
      cases rest with
      | nil => rfl
      | cons next rest => rw [ih (List.cons_ne_nil _ _) hline.2]

/-- A line goes up to its line feed. -/
theorem cutLines_append_lineFeed {front : List UInt8} (hfront : 0x0a ∉ front)
    (rest : List UInt8) :
    cutLines (front ++ 0x0a :: rest) = (front ++ [0x0a]) :: cutLines rest := by
  induction front with
  | nil => rfl
  | cons byte front ih =>
      rw [List.mem_cons, not_or] at hfront
      rw [List.cons_append, cutLines, if_neg (Ne.symm hfront.1), ih hfront.2]
      rfl

/-- Every input is cut into lines. -/
theorem cuts_cutLines (input : List UInt8) : Cuts input (cutLines input) := by
  by_cases hlf : 0x0a ∈ input
  · obtain ⟨front, rest, hinput, hfront⟩ := List.eq_append_cons_of_mem hlf
    have hlength : rest.length < input.length := by
      rw [hinput, List.length_append, List.length_cons]
      omega
    rw [hinput, cutLines_append_lineFeed hfront]
    exact .line front rest _ hfront (cuts_cutLines rest)
  · by_cases hne : input = []
    · rw [hne]
      exact .nil
    · rw [cutLines_of_not_mem hne hlf]
      exact .last input hne hlf
termination_by input.length

/-- The lines of an input are the ones into which it is cut. -/
theorem cuts_iff (input : List UInt8) (lines : List (List UInt8)) :
    Cuts input lines ↔ cutLines input = lines := by
  constructor
  · intro h
    induction h with
    | nil => rfl
    | last line hne hline => exact cutLines_of_not_mem hne hline
    | line front rest lines hfront _ ih => rw [cutLines_append_lineFeed hfront, ih]
  · rintro rfl
    exact cuts_cutLines input

/-- Behind complete lines the rest of the input is cut on its own. -/
theorem Cuts.cutLines_append {first : List UInt8} {lines : List (List UInt8)} (h : Cuts first lines)
    (hlines : ∀ line ∈ lines, line.getLast? = some 0x0a) (second : List UInt8) :
    cutLines (first ++ second) = lines ++ cutLines second := by
  induction h with
  | nil => rfl
  | last line _ hline => exact absurd (List.mem_of_getLast? (hlines line List.mem_cons_self)) hline
  | line front rest lines hfront _ ih =>
      rw [List.forall_mem_cons] at hlines
      rw [List.append_assoc, List.cons_append, cutLines_append_lineFeed hfront, ih hlines.2,
        List.cons_append]

/-! ## Replies -/

/-- Decoding gives the text whose bytes these are. -/
theorem decode_eq_some_iff (bytes : List UInt8) (text : Text) :
    decode bytes = some text ↔ encode text = bytes := by
  have hbytes : encode text = bytes ↔ text.utf8Encode = ⟨bytes.toArray⟩ := by
    rw [encode, List.utf8Encode, ByteArray.ext_iff, List.data_toByteArray]
    simp
  rw [hbytes, decode, String.fromUTF8?]
  constructor
  · intro h
    split at h
    · obtain rfl := Option.some_inj.1 h
      exact String.utf8Encode_toList
    · cases h
  · intro h
    rw [dif_pos (.intro text h.symm), Option.map_some, Option.some_inj, ← String.ofList_inj,
      String.ofList_toList, ← String.toByteArray_inj, String.toByteArray_ofList]
    exact h.symm

/-- A text is decoded from its bytes. -/
@[simp]
theorem decode_encode (text : Text) : decode (encode text) = some text :=
  (decode_eq_some_iff _ text).2 rfl

/-- Bytes are not decoded exactly when they are no text's. -/
theorem decode_eq_none_iff (bytes : List UInt8) :
    decode bytes = none ↔ ∀ text, encode text ≠ bytes := by
  simp only [Option.eq_none_iff_forall_ne_some, ne_eq, decode_eq_some_iff]

/-- A text asks to leave exactly when it is trimmed to one of the two words. -/
theorem isFarewell_iff (text : Text) : isFarewell text = true ↔ AsksToLeave text := by
  have hword : ∀ word : Text, word = "exit".toList ∨ word = "quit".toList →
      Text.IsTrimmed word := by
    rintro word (rfl | rfl) <;> exact Text.NoBlanks.isTrimmed (by decide)
  rw [isFarewell, Bool.or_eq_true, decide_eq_true_eq, decide_eq_true_eq]
  constructor
  · intro h
    obtain ⟨-, front, back, htext, hfront, hback⟩ := Text.exists_eq_append_trim text
    exact ⟨front, text.trim, back, htext, hfront, hback, h⟩
  · rintro ⟨front, word, back, rfl, hfront, hback, h⟩
    rw [(hword word h).trim_append hfront hback]
    exact h

/-- The body of a text is what is left without the line ending. -/
theorem isBody_iff (body text : Text) :
    IsBody body text ↔ Text.dropEndWhile isLineEnding text = body := by
  have hending (c : Char) : isLineEnding c = true ↔ c = '\n' ∨ c = '\r' := by
    simp [isLineEnding]
  have hother (c : Char) : isLineEnding c = false ↔ c ≠ '\n' ∧ c ≠ '\r' := by
    simp [isLineEnding]
  constructor
  · rintro ⟨ending, rfl, hline, hbody⟩
    exact Text.dropEndWhile_append (fun c hc ↦ (hending c).2 (hline c hc))
      fun c hc ↦ (hother c).2 (hbody c hc)
  · rintro rfl
    obtain ⟨ending, htext, hline⟩ := Text.exists_eq_dropEndWhile_append isLineEnding text
    exact ⟨ending, htext, fun c hc ↦ (hending c).1 (hline c hc),
      fun c hc ↦ (hother c).1 (Text.getLast_dropEndWhile isLineEnding text c hc)⟩

/-- A text and its body are trimmed to the same text. -/
theorem IsBody.trim_eq {body text : Text} (h : IsBody body text) : body.trim = text.trim := by
  obtain ⟨ending, rfl, hending, -⟩ := h
  refine (Text.trim_append_of_onlyBlanks body fun c hc ↦ ?_).symm
  rcases hending c hc with rfl | rfl <;> rfl

/-- A text asks to leave exactly when its body does. -/
theorem IsBody.isFarewell_eq {body text : Text} (h : IsBody body text) :
    isFarewell body = isFarewell text := by
  rw [isFarewell, isFarewell, h.trim_eq]

section

variable (console : Console) {text body : Text}

/-- Nothing is printed for a blank line. -/
theorem reply_of_onlyBlanks (hblank : Text.OnlyBlanks text) :
    reply console (encode text) = ⟨[], none⟩ := by
  have hbody : IsBody _ text := (isBody_iff _ text).2 rfl
  rw [reply, decode_encode]
  dsimp only
  rw [replyToText, hbody.trim_eq, (Text.trim_eq_nil_iff text).2 hblank]
  rfl

/-- A line that asks to leave ends the run. -/
theorem reply_of_asksToLeave (hleave : AsksToLeave text) :
    reply console (encode text) = ⟨farewell, some 0⟩ := by
  have hbody : IsBody _ text := (isBody_iff _ text).2 rfl
  have hfarewell := (isFarewell_iff text).2 hleave
  have hne : text.trim.isEmpty = false := by
    cases htrim : text.trim with
    | nil => simp [isFarewell, htrim] at hfarewell
    | cons c rest => rfl
  rw [reply, decode_encode]
  dsimp only
  rw [replyToText, hbody.trim_eq, hbody.isFarewell_eq, hne, hfarewell]
  rfl

/-- Every other line that is text is answered like a single expression, on the standard output. -/
theorem reply_of_body (hblank : ¬ Text.OnlyBlanks text) (hleave : ¬ AsksToLeave text)
    (hbody : IsBody body text) :
    reply console (encode text) =
      ⟨(answerOnce console body).stdout ++ (answerOnce console body).stderr, none⟩ := by
  have hfarewell : isFarewell text = false := by
    rwa [← Bool.not_eq_true, isFarewell_iff]
  have hne : text.trim.isEmpty = false := by
    rwa [← Bool.not_eq_true, List.isEmpty_iff, Text.trim_eq_nil_iff]
  rw [reply, decode_encode]
  dsimp only
  rw [replyToText, (isBody_iff body text).1 hbody, hbody.trim_eq, hbody.isFarewell_eq, hne,
    hfarewell, answerOnce, hbody.isFarewell_eq, hfarewell]
  cases calculate console.precision body with
  | ok result => exact congrArg (Reply.mk · none) (List.append_nil _).symm
  | error error => rfl

/-- The reply to a line is the one that is due. -/
theorem Replies.reply_eq {line : List UInt8} {printed : Text} {code : Option Nat}
    (h : Replies console line printed code) : reply console line = ⟨printed, code⟩ := by
  cases h with
  | undecodable _ hline => rw [reply, (decode_eq_none_iff line).2 hline]
  | blank text hblank => exact reply_of_onlyBlanks console hblank
  | farewell text hleave => exact reply_of_asksToLeave console hleave
  | result text body result printed hblank hleave hbody _ _ hanswer =>
      rw [reply_of_body console hblank hleave hbody, hanswer, List.append_nil]
  | error text body error printed hblank hleave hbody _ _ hanswer =>
      rw [reply_of_body console hblank hleave hbody, hanswer, List.nil_append]

/-- On a line with an expression its answer is due. -/
theorem replies_of_body (hblank : ¬ Text.OnlyBlanks text) (hleave : ¬ AsksToLeave text)
    (hbody : IsBody body text) :
    Replies console (encode text)
      ((answerOnce console body).stdout ++ (answerOnce console body).stderr) none := by
  have hfarewell : isFarewell body = false := by
    rwa [hbody.isFarewell_eq, ← Bool.not_eq_true, isFarewell_iff]
  cases hcalculate : calculate console.precision body with
  | ok result =>
      have hanswer : answerOnce console body = ⟨resultLine console.color result, [], 0⟩ := by
        rw [answerOnce, hfarewell, hcalculate]
        rfl
      rw [hanswer, List.append_nil]
      exact .result text body result _ hblank hleave hbody hcalculate rfl hanswer
  | error error =>
      have hanswer : answerOnce console body = ⟨[], errorLine console.color error, 1⟩ := by
        rw [answerOnce, hfarewell, hcalculate]
        rfl
      rw [hanswer, List.nil_append]
      exact .error text body error _ hblank hleave hbody hcalculate rfl hanswer

/-- To every line a reply is due. -/
theorem replies_reply (line : List UInt8) :
    Replies console line (reply console line).printed (reply console line).exitCode := by
  cases hdecode : decode line with
  | none =>
      rw [reply, hdecode]
      exact .undecodable line ((decode_eq_none_iff line).1 hdecode)
  | some text =>
      obtain rfl := (decode_eq_some_iff line text).1 hdecode
      by_cases hblank : Text.OnlyBlanks text
      · rw [reply_of_onlyBlanks console hblank]
        exact .blank text hblank
      by_cases hleave : AsksToLeave text
      · rw [reply_of_asksToLeave console hleave]
        exact .farewell text hleave
      · have hbody : IsBody _ text := (isBody_iff _ text).2 rfl
        rw [reply_of_body console hblank hleave hbody]
        exact replies_of_body console hblank hleave hbody

/-- The program gives the reply that is due, and no other. -/
theorem reply_eq_iff (line : List UInt8) (printed : Text) (code : Option Nat) :
    reply console line = ⟨printed, code⟩ ↔ Replies console line printed code := by
  constructor
  · intro h
    have hreplies := replies_reply console line
    rwa [h] at hreplies
  · exact Replies.reply_eq console

/-- A line goes on exactly when its reply has no exit code. -/
theorem not_stops_iff (line : List UInt8) :
    ¬ Stops console line ↔ (reply console line).exitCode = none := by
  constructor
  · intro h
    rw [Option.eq_none_iff_forall_ne_some]
    intro code hcode
    exact h ⟨_, code, hcode ▸ replies_reply console line⟩
  · rintro h ⟨printed, code, hreplies⟩
    rw [hreplies.reply_eq] at h
    cases h

end

/-! ## Transcripts -/

section

variable (console : Console)

/-- The program transcribes the lines. -/
theorem transcribes_transcript (lines : List (List UInt8)) :
    Transcribes console lines (transcript console lines).1 (transcript console lines).2 := by
  induction lines with
  | nil => exact .exhausted
  | cons line lines ih =>
      have hreplies := replies_reply console line
      rw [transcript]
      cases hcode : (reply console line).exitCode with
      | none => exact .goesOn line lines _ _ _ (hcode ▸ hreplies) ih
      | some code => exact .stops line lines _ code (hcode ▸ hreplies)

/-- The program transcribes the lines in one way only. -/
theorem transcript_eq_iff (lines : List (List UInt8)) (printed : Text) (code : Nat) :
    transcript console lines = (printed, code) ↔ Transcribes console lines printed code := by
  constructor
  · intro h
    have htranscribes := transcribes_transcript console lines
    rwa [h] at htranscribes
  · intro h
    induction h with
    | exhausted => rfl
    | goesOn line lines printed more code hreplies _ ih =>
        rw [transcript, hreplies.reply_eq, ih]
        rfl
    | stops line lines printed code hreplies =>
        rw [transcript, hreplies.reply_eq]
        rfl

/-- What is printed for lines none of which ends the run. -/
def answers (lines : List (List UInt8)) : Text :=
  lines.flatMap fun line ↦ prompt ++ (reply console line).printed

/-- Behind lines none of which ends the run, the rest of the lines is transcribed on its own. -/
theorem transcript_append {lines : List (List UInt8)}
    (hlines : ∀ line ∈ lines, ¬ Stops console line) (more : List (List UInt8)) :
    transcript console (lines ++ more) =
      (answers console lines ++ (transcript console more).1, (transcript console more).2) := by
  induction lines with
  | nil => rfl
  | cons line lines ih =>
      rw [List.forall_mem_cons, not_stops_iff] at hlines
      rw [List.cons_append, transcript, hlines.1, ih hlines.2, answers, answers,
        List.flatMap_cons]
      simp only [List.append_assoc]

/-- Behind a line that ends the run nothing has an influence. -/
theorem transcript_append_of_stops {lines : List (List UInt8)} {line : List UInt8}
    (hline : line ∈ lines) (hstops : Stops console line) (more : List (List UInt8)) :
    transcript console (lines ++ more) = transcript console lines := by
  induction lines with
  | nil => exact absurd hline List.not_mem_nil
  | cons head lines ih =>
      rw [List.cons_append, transcript, transcript]
      cases hcode : (reply console head).exitCode with
      | some code => rfl
      | none =>
          have hrest : line ∈ lines := by
            rcases List.mem_cons.1 hline with rfl | hrest
            · exact absurd hstops ((not_stops_iff console line).2 hcode)
            · exact hrest
          rw [ih hrest]

end

/-! ## Dialogues -/

/-- A dialogue is the transcript of its lines behind the banner. -/
theorem dialogue_eq_iff (console : Console) (input : List UInt8) (output : Output) :
    dialogue console input = output ↔ ∃ lines printed code, Cuts input lines ∧
      Transcribes console lines printed code ∧ output = ⟨banner ++ printed, [], code⟩ := by
  constructor
  · rintro rfl
    exact ⟨_, _, _, cuts_cutLines input, transcribes_transcript console _, rfl⟩
  · rintro ⟨lines, printed, code, hcuts, htranscribes, rfl⟩
    rw [dialogue, (cuts_iff input lines).1 hcuts,
      (transcript_eq_iff console lines printed code).2 htranscribes]

/-- With every precision, a run that asks for expressions is told line by line. Complete lines that
do not end the run only add their answers in front of the rest, and behind a complete line that ends
the run nothing has an influence. -/
theorem run_line_by_line (console : Console) :
    (∀ arguments, CommandLine.read arguments = .ok ⟨.repl, console.precision⟩ →
      ∀ input, run console.color arguments input = dialogue console input) ∧
    (∀ input output, dialogue console input = output ↔
      ∃ lines printed code, Cuts input lines ∧ Transcribes console lines printed code ∧
        output = ⟨banner ++ printed, [], code⟩) ∧
    ∀ first lines, Cuts first lines → (∀ line ∈ lines, line.getLast? = some 0x0a) →
      ((∀ line ∈ lines, ¬ Stops console line) →
        ∃ printed, dialogue console first = ⟨banner ++ (printed ++ "? \n".toList), [], 0⟩ ∧
          ∀ second more code, dialogue console second = ⟨banner ++ more, [], code⟩ →
            dialogue console (first ++ second) = ⟨banner ++ (printed ++ more), [], code⟩) ∧
      ∀ line ∈ lines, Stops console line →
        ∀ second, dialogue console (first ++ second) = dialogue console first := by
  refine ⟨?_, dialogue_eq_iff console, fun first lines hcuts hcomplete ↦ ⟨fun hgoes_on ↦ ?_, ?_⟩⟩
  · intro arguments hread input
    rw [run, start, hread]
  · refine ⟨answers console lines, ?_, fun second more code hsecond ↦ ?_⟩
    · have hlines := transcript_append console hgoes_on []
      rw [List.append_nil] at hlines
      rw [dialogue, (cuts_iff first lines).1 hcuts, hlines]
      rfl
    · simp only [dialogue, Output.mk.injEq, List.append_cancel_left_eq] at hsecond
      rw [dialogue, hcuts.cutLines_append hcomplete, transcript_append console hgoes_on,
        hsecond.1, hsecond.2.2]
  · intro line hline hstops second
    rw [dialogue, hcuts.cutLines_append hcomplete,
      transcript_append_of_stops console hline hstops, dialogue, (cuts_iff first lines).1 hcuts]

/-- A sum and a blank line are answered in front of the rest, and behind a line that asks to leave a
byte that is no text has no influence. -/
theorem run_line_by_line_of_sum_and_farewell :
    CommandLine.read ["--float".toList] = .ok ⟨.repl, .float Precision.defaultTolerance⟩ ∧
    Cuts (encode "1/2 + 1/2\r\n\t\n".toList)
      [encode "1/2 + 1/2\r\n".toList, encode "\t\n".toList] ∧
    (∀ line ∈ [encode "1/2 + 1/2\r\n".toList, encode "\t\n".toList],
      ¬ Stops ⟨false, .float Precision.defaultTolerance⟩ line) ∧
    Cuts (encode "\tquit \r\n".toList) [encode "\tquit \r\n".toList] ∧
    Stops ⟨false, .float Precision.defaultTolerance⟩ (encode "\tquit \r\n".toList) ∧
    run false ["--float".toList]
        (encode "1/2 + 1/2\r\n\t\n".toList ++ (encode "\tquit \r\n".toList ++ [0xff])) =
      ⟨banner ++ ("? = 1\n? ".toList ++ "? Application has ended.\n".toList), [], 0⟩ := by
  have hread : CommandLine.read ["--float".toList] =
      .ok ⟨.repl, .float Precision.defaultTolerance⟩ := rfl
  have hsum : Cuts (encode "1/2 + 1/2\r\n\t\n".toList)
      [encode "1/2 + 1/2\r\n".toList, encode "\t\n".toList] :=
    (cuts_iff _ _).2 (by decide +kernel)
  have hleave : Cuts (encode "\tquit \r\n".toList) [encode "\tquit \r\n".toList] :=
    (cuts_iff _ _).2 (by decide +kernel)
  have hgoes_on : ∀ line ∈ [encode "1/2 + 1/2\r\n".toList, encode "\t\n".toList],
      ¬ Stops ⟨false, .float Precision.defaultTolerance⟩ line := by
    simp only [not_stops_iff]
    decide +kernel
  have hfarewell : AsksToLeave "\tquit \r\n".toList :=
    ⟨"\t".toList, "quit".toList, " \r\n".toList, rfl, by decide, by decide, .inr rfl⟩
  have hstops : Stops ⟨false, .float Precision.defaultTolerance⟩ (encode "\tquit \r\n".toList) :=
    ⟨_, _, .farewell _ hfarewell⟩
  refine ⟨hread, hsum, hgoes_on, hleave, hstops, ?_⟩
  obtain ⟨hrun, houtput, hparts⟩ :=
    run_line_by_line ⟨false, .float Precision.defaultTolerance⟩
  -- the sum and the blank line, by the first law of parts
  obtain ⟨printed, hfirst, hrest⟩ := (hparts _ _ hsum (by decide +kernel)).1 hgoes_on
  have hprinted : printed = "? = 1\n? ".toList := by
    have heval : dialogue ⟨false, .float Precision.defaultTolerance⟩
        (encode "1/2 + 1/2\r\n\t\n".toList) =
          ⟨banner ++ ("? = 1\n? ".toList ++ "? \n".toList), [], 0⟩ := by
      decide +kernel
    rw [heval, Output.mk.injEq, List.append_cancel_left_eq, List.append_cancel_right_eq] at hfirst
    exact hfirst.1.symm
  -- the line that asks to leave, by the second one
  have hstop := (hparts _ _ hleave (by decide +kernel)).2 _ List.mem_cons_self hstops [0xff]
  have hlast := (houtput _ _).2 ⟨_, _, _, hleave, .stops _ [] _ _ (.farewell _ hfarewell), rfl⟩
  rw [hrun _ hread, hrest _ _ _ (hstop.trans hlast), hprinted]
  rfl

end MixedNumbers.Session
