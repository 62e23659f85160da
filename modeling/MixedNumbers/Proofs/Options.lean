import MixedNumbers.Proofs.Arguments
import MixedNumbers.Proofs.Decimals

/-!
# The meaning of a command line

What a list of arguments asks for, said of the whole list rather than argument by argument. `Events`
takes the arguments apart: each is an event of its own, but for the values of tolerance options.
`IsTolerance` tells which of these values are tolerances, by the notation of decimal numbers.
`Means` tells the outcome from the first event that decides, or from the operands when none does;
`Sets` gives the precision, for which the last tolerance counts and the operands and the order of
the options do not. `read_eq_iff` says that reading the arguments one after the other comes to
that.
-/

namespace MixedNumbers.CommandLine

/-! ## Events -/

/-- What an argument is to a command line, or a tolerance option together with its value. -/
inductive Event where
  | help
  | version
  | float
  | tolerance (value : Text)
  | missingValue
  | unknown (option : Text)
  | operand (text : Text)
deriving DecidableEq

/-- The long options that are known. -/
def longOptions : List Text :=
  ["--help".toList, "--version".toList, "--float".toList, "--epsilon".toList]

/-- `Spelled event arguments` says that the arguments are the event. The argument behind a tolerance
option is its value, whatever it looks like. -/
inductive Spelled : Event → List Text → Prop where
  | shortHelp : Spelled .help ["-h".toList]
  | longHelp : Spelled .help ["--help".toList]
  | shortVersion : Spelled .version ["-V".toList]
  | longVersion : Spelled .version ["--version".toList]
  | float : Spelled .float ["--float".toList]
  | tolerance (value : Text) : Spelled (.tolerance value) ["--epsilon".toList, value]
  | unknown (option : Text) :
      "--".toList <+: option → option ∉ longOptions → Spelled (.unknown option) [option]
  | operand (text : Text) : ¬ IsOption text → Spelled (.operand text) [text]

/-- `Events arguments events` says that the arguments are these events, from left to right. A
tolerance option that is the last argument misses its value. -/
inductive Events : List Text → List Event → Prop where
  | nil : Events [] []
  | missingValue : Events ["--epsilon".toList] [.missingValue]
  | cons (here rest : List Text) (event : Event) (events : List Event) :
      Spelled event here → Events rest events → Events (here ++ rest) (event :: events)

/-- The tolerance is the number nearest to a rational, and is greater than zero. -/
def RoundsTo (q : Rat) (tolerance : Binary64) : Prop :=
  ∃ r, Binary64.Nearest q tolerance r ∧ 0 < r

/-- The text stands for a decimal number, which is rounded to this tolerance. -/
def IsTolerance (value : Text) (tolerance : Binary64) : Prop :=
  ∃ q, Grammar.SignedDecimal value q ∧ RoundsTo q tolerance

/-- The event decides what a command line comes to. -/
def Event.Decisive : Event → Prop
  | .help | .version | .missingValue | .unknown _ => True
  | .tolerance value => ¬ ∃ tolerance, IsTolerance value tolerance
  | .float | .operand _ => False

/-- The operands among some events. -/
def operands (events : List Event) : List Text :=
  events.filterMap fun
    | .operand text => some text
    | _ => none

/-- The values of the tolerance options among some events. -/
def tolerances (events : List Event) : List Text :=
  events.filterMap fun
    | .tolerance value => some value
    | _ => none

/-- The operands of some events come before those of the events behind them. -/
theorem operands_append (events others : List Event) :
    operands (events ++ others) = operands events ++ operands others :=
  List.filterMap_append

/-- The tolerances of some events come before those of the events behind them. -/
theorem tolerances_append (events others : List Event) :
    tolerances (events ++ others) = tolerances events ++ tolerances others :=
  List.filterMap_append

/-! ## Meanings -/

/-- `Sets events precision` says that the events ask for this precision: the last tolerance among
them, or else one millionth if they ask for binary64, or else exact calculations. -/
inductive Sets (events : List Event) : Precision → Prop where
  | last (value : Text) (tolerance : Binary64) :
      (tolerances events).getLast? = some value → IsTolerance value tolerance →
      Sets events (.float tolerance)
  | default (tolerance : Binary64) :
      tolerances events = [] → .float ∈ events → RoundsTo (1 / 1000000) tolerance →
      Sets events (.float tolerance)
  | exact : tolerances events = [] → .float ∉ events → Sets events .exact

/-- `Decides precision event outcome` says that the outcome is that of the event, when the events
before it ask for this precision. -/
inductive Decides (precision : Precision) :
    Event → Except CommandLineError CommandLine → Prop where
  | help : Decides precision .help (.ok ⟨.help, precision⟩)
  | version : Decides precision .version (.ok ⟨.version, precision⟩)
  | missingValue :
      Decides precision .missingValue (.error (.missingValue "--epsilon".toList))
  | invalidTolerance (value : Text) :
      (¬ ∃ tolerance, IsTolerance value tolerance) →
      Decides precision (.tolerance value) (.error (.invalidTolerance value))
  | unknown (option : Text) :
      Decides precision (.unknown option) (.error (.unknownOption option))

/-- `Means events outcome` says what events come to: to the outcome of the first decisive one, or
else to the calculation of their operands, joined to one text, if there are any. -/
inductive Means : List Event → Except CommandLineError CommandLine → Prop where
  | decided (before after : List Event) (event : Event) (precision : Precision)
      (outcome : Except CommandLineError CommandLine) :
      (∀ earlier ∈ before, ¬ earlier.Decisive) → Sets before precision →
      Decides precision event outcome → Means (before ++ event :: after) outcome
  | repl (events : List Event) (precision : Precision) :
      (∀ event ∈ events, ¬ event.Decisive) → Sets events precision → operands events = [] →
      Means events (.ok ⟨.repl, precision⟩)
  | calculate (events : List Event) (precision : Precision) (text : Text) :
      (∀ event ∈ events, ¬ event.Decisive) → Sets events precision → operands events ≠ [] →
      Text.Joined (operands events) text → Means events (.ok ⟨.calculate text, precision⟩)

/-! ## Precisions -/

/-- A text is read as a tolerance exactly when it stands for a decimal number that is rounded to
it. -/
theorem readTolerance_eq_some_iff (value : Text) (tolerance : Binary64) :
    readTolerance value = some tolerance ↔ IsTolerance value tolerance := by
  rw [readTolerance, Option.filter_eq_some_iff, Binary64.isPositiveFinite_iff]
  constructor
  · rintro ⟨hread, r, hvalue, hpos⟩
    obtain ⟨q, hq, hnearest⟩ :=
      (Binary64.read_eq_some_iff_nearest value tolerance hpos.ne').1 ⟨hread, hvalue⟩
    exact ⟨q, hq, r, hnearest, hpos⟩
  · rintro ⟨q, hq, r, hnearest, hpos⟩
    obtain ⟨hread, hvalue⟩ :=
      (Binary64.read_eq_some_iff_nearest value tolerance hpos.ne').2 ⟨q, hq, hnearest⟩
    exact ⟨hread, r, hvalue, hpos⟩

/-- No tolerance is read from a text that is none. -/
theorem readTolerance_eq_none_iff (value : Text) :
    readTolerance value = none ↔ ¬ ∃ tolerance, IsTolerance value tolerance := by
  simp only [Option.eq_none_iff_forall_ne_some, ne_eq, readTolerance_eq_some_iff, not_exists]

/-- A rational is rounded to one tolerance only. -/
theorem RoundsTo.unique {q : Rat} {tolerance other : Binary64} (h : RoundsTo q tolerance)
    (hother : RoundsTo q other) : tolerance = other := by
  obtain ⟨r, hr, hpos⟩ := h
  obtain ⟨s, hs, hspos⟩ := hother
  rw [← ((Binary64.nearest_iff hpos.ne' false).1 hr).1,
    ← ((Binary64.nearest_iff hspos.ne' false).1 hs).1]

/-- The default tolerance is the one to which one millionth is rounded. -/
theorem roundsTo_default : RoundsTo (1 / 1000000) Precision.defaultTolerance := by
  obtain ⟨r, hvalue, hpos⟩ := (Binary64.isPositiveFinite_iff Precision.defaultTolerance).1 rfl
  rw [Precision.defaultTolerance_eq_ofRat] at hvalue ⊢
  exact ⟨r, Binary64.nearest_ofRat hvalue, hpos⟩

/-- One half in decimal notation stands for a tolerance, which is exactly one half. -/
theorem exists_isTolerance_half :
    ∃ half, half.toRat? = some (1 / 2) ∧ IsTolerance "0.5".toList half := by
  have hdigits : Grammar.Digits (['0'] ++ ['5']) 5 :=
    .append ['0'] 0 '5' (.single '0' (by decide)) (by decide)
  have hnumber :
      Grammar.SignedDecimal ((['0'] ++ '.' :: ['5']) ++ []) (5 / 10 ^ 1 * 10 ^ (0 : Int)) :=
    .unsigned _ _ (.scaled _ [] _ 0 (.point ['0'] ['5'] 5 hdigits) .none)
  have hvalue : (5 / 10 ^ 1 * 10 ^ (0 : Int) : Rat) = 1 / 2 := by norm_num
  rw [hvalue] at hnumber
  have hrounded : (Binary64.ofRat (1 / 2) false).toRat? = some (1 / 2) := by decide +kernel
  exact ⟨_, hrounded, 1 / 2, hnumber, 1 / 2, Binary64.nearest_ofRat hrounded, by norm_num⟩

/-- The precision after an event. -/
def Event.update (precision : Precision) : Event → Precision
  | .float => precision.inBinary64
  | .tolerance value => (readTolerance value).elim precision .float
  | _ => precision

/-- Events ask for one precision only. -/
theorem Sets.unique {events : List Event} {precision other : Precision}
    (h : Sets events precision) (hother : Sets events other) : precision = other := by
  cases h with
  | last value tolerance hlast htolerance =>
      cases hother with
      | last value' tolerance' hlast' htolerance' =>
          obtain rfl := Option.some.inj (hlast.symm.trans hlast')
          rw [← readTolerance_eq_some_iff] at htolerance htolerance'
          rw [Option.some.inj (htolerance.symm.trans htolerance')]
      | default _ hnone | exact hnone => simp [hnone] at hlast
  | default tolerance hnone hfloat htolerance =>
      cases hother with
      | last _ _ hlast => simp [hnone] at hlast
      | default other _ _ hother => rw [htolerance.unique hother]
      | exact _ hnot => exact absurd hfloat hnot
  | exact hnone hnot =>
      cases hother with
      | last value tolerance hlast => simp [hnone] at hlast
      | default _ _ hfloat => exact absurd hfloat hnot
      | exact => rfl

/-- Further events that neither are tolerances nor ask for binary64 leave the precision. -/
theorem Sets.append {front events : List Event} {precision : Precision} (h : Sets front precision)
    (hnone : tolerances events = []) (hnot : .float ∉ events) :
    Sets (front ++ events) precision := by
  have happend : tolerances (front ++ events) = tolerances front := by
    rw [tolerances_append, hnone, List.append_nil]
  cases h with
  | last value tolerance hlast htolerance =>
      exact .last value tolerance (happend ▸ hlast) htolerance
  | default tolerance hempty hfloat htolerance =>
      exact .default tolerance (happend ▸ hempty) (List.mem_append_left _ hfloat) htolerance
  | exact hempty hfloat =>
      exact .exact (happend ▸ hempty) (by simp [hfloat, hnot])

/-- A further demand for binary64 makes an exact precision the default one. -/
theorem Sets.append_float {front : List Event} {precision : Precision} (h : Sets front precision) :
    Sets (front ++ [.float]) precision.inBinary64 := by
  have happend : tolerances (front ++ [.float]) = tolerances front := by
    rw [tolerances_append]
    exact List.append_nil _
  cases h with
  | last value tolerance hlast htolerance =>
      exact .last value tolerance (happend ▸ hlast) htolerance
  | default tolerance hempty hfloat htolerance =>
      exact .default tolerance (happend ▸ hempty) (by simp) htolerance
  | exact hempty hfloat => exact .default _ (happend ▸ hempty) (by simp) roundsTo_default

/-- Events that do not decide ask for the precision that they leave one after the other. -/
theorem sets_foldl {events : List Event} (h : ∀ event ∈ events, ¬ event.Decisive) :
    Sets events (events.foldl Event.update .exact) := by
  induction events using List.reverseRecOn with
  | nil => exact .exact rfl List.not_mem_nil
  | append_singleton front event ih =>
      rw [List.forall_mem_append] at h
      have hfront := ih h.1
      have hplain := h.2 event (List.mem_singleton.2 rfl)
      rw [List.foldl_append, List.foldl_cons, List.foldl_nil]
      cases event with
      | float => exact hfront.append_float
      | tolerance value =>
          obtain ⟨tolerance, htolerance⟩ := not_not.1 hplain
          rw [Event.update, (readTolerance_eq_some_iff value tolerance).2 htolerance]
          exact .last value tolerance (by simp [tolerances]) htolerance
      | operand text => exact hfront.append rfl (by simp)
      | help | version | missingValue | unknown => exact absurd trivial hplain

/-! ## Reading events -/

/-- An argument that begins with two minus signs and is no known option is an unknown one. -/
theorem ofText_of_not_mem_longOptions {option : Text} (hdashes : "--".toList <+: option)
    (hunknown : option ∉ longOptions) : ArgumentKind.ofText option = .unknown := by
  obtain ⟨rest, rfl⟩ := hdashes
  simp only [longOptions, List.mem_cons, List.not_mem_nil, or_false, not_or] at hunknown
  obtain ⟨hhelp, hversion, hfloat, htolerance⟩ := hunknown
  have hshortHelp : "--".toList ++ rest ≠ "-h".toList := by simp
  have hshortVersion : "--".toList ++ rest ≠ "-V".toList := by simp
  unfold ArgumentKind.ofText
  rw [if_neg (not_or.2 ⟨hshortHelp, hhelp⟩), if_neg (not_or.2 ⟨hshortVersion, hversion⟩),
    if_neg hfloat, if_neg htolerance]
  rfl

section

variable {here arguments : List Text} {event : Event} {events : List Event}

/-- An event that does not decide is read, and the arguments behind it are read next. -/
theorem Spelled.readFrom_append (h : Spelled event here) (hplain : ¬ event.Decisive)
    (precision : Precision) (collected rest : List Text) :
    readFrom precision collected (here ++ rest) =
      readFrom (event.update precision) (collected ++ operands [event]) rest := by
  cases h with
  | shortHelp | longHelp | shortVersion | longVersion | unknown => exact absurd trivial hplain
  | float =>
      show _ = readFrom precision.inBinary64 (collected ++ []) rest
      rw [List.append_nil]
      exact readFrom_float precision collected rest
  | tolerance value =>
      obtain ⟨tolerance, htolerance⟩ := not_not.1 hplain
      have hread := (readTolerance_eq_some_iff value tolerance).2 htolerance
      have hnext := readFrom_tolerance precision collected rest value
      rw [hread] at hnext
      rw [Event.update, hread]
      show _ = readFrom (.float tolerance) (collected ++ []) rest
      rw [List.append_nil]
      exact hnext
  | operand text hoption =>
      exact readFrom_operand precision collected rest (ofText_of_not_isOption hoption)

/-- Events that do not decide are read one after the other, and then the arguments behind them. -/
theorem Events.readFrom_append (h : Events arguments events)
    (hplain : ∀ event ∈ events, ¬ event.Decisive) (precision : Precision)
    (collected rest : List Text) :
    readFrom precision collected (arguments ++ rest) =
      readFrom (events.foldl Event.update precision) (collected ++ operands events) rest := by
  induction h generalizing precision collected with
  | nil => rw [List.nil_append, operands, List.filterMap_nil, List.append_nil, List.foldl_nil]
  | missingValue => exact absurd trivial (hplain .missingValue (List.mem_singleton.2 rfl))
  | cons here others event events hhere _ ih =>
      rw [List.forall_mem_cons] at hplain
      rw [List.append_assoc, hhere.readFrom_append hplain.1, ih hplain.2, List.append_assoc,
        List.foldl_cons, ← operands_append, List.singleton_append]

/-- An event that decides gives the outcome, whatever stands behind it. -/
theorem Spelled.readFrom_of_decides (h : Spelled event here) {precision : Precision}
    {outcome : Except CommandLineError CommandLine} (hdecides : Decides precision event outcome)
    (collected rest : List Text) : readFrom precision collected (here ++ rest) = outcome := by
  cases hdecides with
  | help => cases h <;> rfl
  | version => cases h <;> rfl
  | missingValue => cases h
  | invalidTolerance value hnone =>
      cases h with
      | tolerance =>
          have hnext := readFrom_tolerance precision collected rest value
          rwa [(readTolerance_eq_none_iff value).2 hnone] at hnext
  | unknown option =>
      cases h with
      | unknown _ hdashes hunknown =>
          rw [List.singleton_append, readFrom.eq_def]
          simp only [ofText_of_not_mem_longOptions hdashes hunknown]

end

/-! ## Every command line has a meaning -/

/-- Every argument but a tolerance option is an event of its own. -/
theorem exists_spelled {argument : Text} (h : argument ≠ "--epsilon".toList) :
    ∃ event, Spelled event [argument] := by
  by_cases hoption : IsOption argument
  · rcases hoption with rfl | rfl | hdashes
    · exact ⟨.help, .shortHelp⟩
    · exact ⟨.version, .shortVersion⟩
    · by_cases hknown : argument ∈ longOptions
      · simp only [longOptions, List.mem_cons, List.not_mem_nil, or_false] at hknown
        rcases hknown with rfl | rfl | rfl | rfl
        · exact ⟨.help, .longHelp⟩
        · exact ⟨.version, .longVersion⟩
        · exact ⟨.float, .float⟩
        · exact absurd rfl h
      · exact ⟨.unknown argument, .unknown argument hdashes hknown⟩
  · exact ⟨.operand argument, .operand argument hoption⟩

/-- Every list of arguments is a list of events. -/
theorem exists_events (arguments : List Text) : ∃ events, Events arguments events := by
  -- a tolerance option takes the argument behind it away, so two arguments are looked at
  induction arguments using List.twoStepInduction with
  | nil => exact ⟨[], .nil⟩
  | singleton argument =>
      by_cases htolerance : argument = "--epsilon".toList
      · exact ⟨[.missingValue], htolerance ▸ .missingValue⟩
      · obtain ⟨event, hevent⟩ := exists_spelled htolerance
        exact ⟨[event], .cons [argument] [] event [] hevent .nil⟩
  | cons_cons argument next rest ihrest ihnext =>
      by_cases htolerance : argument = "--epsilon".toList
      · obtain ⟨events, hevents⟩ := ihrest
        subst htolerance
        exact ⟨_, .cons _ rest _ events (.tolerance next) hevents⟩
      · obtain ⟨event, hevent⟩ := exists_spelled htolerance
        obtain ⟨events, hevents⟩ := ihnext next
        exact ⟨_, .cons _ (next :: rest) event events hevent hevents⟩

/-- Events decide nothing, or there is a first one that decides. -/
theorem forall_not_decisive_or_exists_first (events : List Event) :
    (∀ event ∈ events, ¬ event.Decisive) ∨ ∃ before event after,
      events = before ++ event :: after ∧ (∀ earlier ∈ before, ¬ earlier.Decisive) ∧
      event.Decisive := by
  induction events with
  | nil => exact Or.inl nofun
  | cons event events ih =>
      by_cases hdecisive : event.Decisive
      · exact Or.inr ⟨[], event, events, rfl, nofun, hdecisive⟩
      · rcases ih with hplain | ⟨before, first, after, rfl, hplain, hfirst⟩
        · exact Or.inl (List.forall_mem_cons.2 ⟨hdecisive, hplain⟩)
        · exact Or.inr ⟨event :: before, first, after, rfl,
            List.forall_mem_cons.2 ⟨hdecisive, hplain⟩, hfirst⟩

/-- A decisive event has an outcome. -/
theorem Event.Decisive.exists_decides {event : Event} (h : event.Decisive)
    (precision : Precision) : ∃ outcome, Decides precision event outcome := by
  cases event with
  | help => exact ⟨_, .help⟩
  | version => exact ⟨_, .version⟩
  | missingValue => exact ⟨_, .missingValue⟩
  | tolerance value => exact ⟨_, .invalidTolerance value h⟩
  | unknown option => exact ⟨_, .unknown option⟩
  | float | operand => exact absurd h not_false

/-- Every list of events has a meaning. -/
theorem exists_means (events : List Event) : ∃ outcome, Means events outcome := by
  rcases forall_not_decisive_or_exists_first events with
    hplain | ⟨before, event, after, rfl, hplain, hdecisive⟩
  · by_cases hnone : operands events = []
    · exact ⟨_, .repl events _ hplain (sets_foldl hplain) hnone⟩
    · exact ⟨_, .calculate events _ _ hplain (sets_foldl hplain) hnone (Text.joined_unwords _)⟩
  · obtain ⟨outcome, houtcome⟩ := hdecisive.exists_decides (before.foldl Event.update .exact)
    exact ⟨_, .decided before after event _ outcome hplain (sets_foldl hplain) houtcome⟩

/-! ## Reading is the meaning -/

/-- The arguments of the first events come before the arguments of the others. -/
theorem Events.split {arguments : List Text} {before after : List Event} {event : Event}
    (h : Events arguments (before ++ event :: after)) :
    ∃ front rest, arguments = front ++ rest ∧ Events front before ∧
      Events rest (event :: after) := by
  induction before generalizing arguments with
  | nil => exact ⟨[], arguments, rfl, .nil, h⟩
  | cons first before ih =>
      generalize hevents : first :: before ++ event :: after = events at h
      cases h with
      | nil => cases hevents
      | missingValue => simp at hevents
      | cons here others _ events hhere hothers =>
          obtain ⟨rfl, rfl⟩ := List.cons.inj hevents
          obtain ⟨front, rest, rfl, hfront, hrest⟩ := ih hothers
          exact ⟨here ++ front, rest, (List.append_assoc ..).symm,
            .cons here front first before hhere hfront, hrest⟩

/-- The arguments of some events are read as what the events mean. -/
theorem Means.read_eq {arguments : List Text} {events : List Event}
    {outcome : Except CommandLineError CommandLine} (h : Means events outcome)
    (hevents : Events arguments events) : read arguments = outcome := by
  cases h with
  | decided before after event precision _ hplain hsets hdecides =>
      obtain ⟨front, rest, rfl, hfront, hrest⟩ := hevents.split
      rw [read, hfront.readFrom_append hplain, (sets_foldl hplain).unique hsets]
      generalize hthere : event :: after = there at hrest
      cases hrest with
      | nil => cases hthere
      | missingValue =>
          cases hthere
          cases hdecides
          rfl
      | cons here others _ events hhere _ =>
          cases hthere
          exact hhere.readFrom_of_decides hdecides _ others
  | repl _ precision hplain hsets hnone =>
      have hread := hevents.readFrom_append hplain .exact [] []
      rw [List.append_nil, List.nil_append, (sets_foldl hplain).unique hsets, hnone] at hread
      exact hread
  | calculate _ precision text hplain hsets hsome hjoined =>
      obtain rfl := (Text.joined_iff _ text).1 hjoined
      have hread := hevents.readFrom_append hplain .exact [] []
      rw [List.append_nil, List.nil_append, (sets_foldl hplain).unique hsets] at hread
      obtain ⟨first, rest, hoperands⟩ := List.exists_cons_of_ne_nil hsome
      rw [read, hread, hoperands]
      rfl

/-- Reading arguments gives an outcome exactly when it is what their events mean. -/
theorem read_eq_iff (arguments : List Text) (outcome : Except CommandLineError CommandLine) :
    read arguments = outcome ↔ ∃ events, Events arguments events ∧ Means events outcome := by
  constructor
  · rintro rfl
    obtain ⟨events, hevents⟩ := exists_events arguments
    obtain ⟨outcome, houtcome⟩ := exists_means events
    rw [houtcome.read_eq hevents]
    exact ⟨events, hevents, houtcome⟩
  · rintro ⟨events, hevents, houtcome⟩
    exact houtcome.read_eq hevents

/-- What stands behind an event that decides counts for nothing. -/
theorem read_of_decisive {front here : List Text} {before : List Event} {event : Event}
    (hbefore : Events front before) (hplain : ∀ earlier ∈ before, ¬ earlier.Decisive)
    (hhere : Spelled event here) (hdecisive : event.Decisive) (rest other : List Text) :
    read (front ++ (here ++ other)) = read (front ++ (here ++ rest)) := by
  obtain ⟨outcome, hdecides⟩ := hdecisive.exists_decides (before.foldl Event.update .exact)
  rw [read, read, hbefore.readFrom_append hplain, hbefore.readFrom_append hplain,
    hhere.readFrom_of_decides hdecides, hhere.readFrom_of_decides hdecides]

/-- A precision is asked for by the tolerances, and by whether there is a demand for binary64. -/
theorem Sets.congr {events others : List Event} {precision : Precision}
    (h : Sets events precision) (htolerances : tolerances events = tolerances others)
    (hfloat : .float ∈ events ↔ .float ∈ others) : Sets others precision := by
  cases h with
  | last value tolerance hlast htolerance =>
      exact .last value tolerance (htolerances ▸ hlast) htolerance
  | default tolerance hnone hmem htolerance =>
      exact .default tolerance (htolerances ▸ hnone) (hfloat.1 hmem) htolerance
  | exact hnone hmem => exact .exact (htolerances ▸ hnone) fun h ↦ hmem (hfloat.2 h)

/-- Events that do not decide mean the same as others that have the same operands and the same
tolerances in the same orders, and the same demand for binary64. -/
theorem Means.congr {events others : List Event} {outcome : Except CommandLineError CommandLine}
    (h : Means events outcome) (hplain : ∀ event ∈ events, ¬ event.Decisive)
    (hothers : ∀ event ∈ others, ¬ event.Decisive) (hoperands : operands events = operands others)
    (htolerances : tolerances events = tolerances others)
    (hfloat : .float ∈ events ↔ .float ∈ others) : Means others outcome := by
  cases h with
  | decided before after event precision _ _ _ hdecides =>
      have hdecisive : event.Decisive := by
        cases hdecides with
        | invalidTolerance value hnone => exact hnone
        | help | version | missingValue | unknown => exact trivial
      exact absurd hdecisive (hplain event (by simp))
  | repl _ precision _ hsets hnone =>
      exact .repl others precision hothers (hsets.congr htolerances hfloat) (hoperands ▸ hnone)
  | calculate _ precision text _ hsets hsome hjoined =>
      rw [hoperands] at hsome hjoined
      exact .calculate others precision text hothers (hsets.congr htolerances hfloat) hsome hjoined

/-- A tolerance that events ask for is a finite number greater than zero. -/
theorem Sets.exists_pos {events : List Event} {precision : Precision} (h : Sets events precision)
    {tolerance : Binary64} (hprecision : precision = .float tolerance) :
    ∃ q, tolerance.toRat? = some q ∧ 0 < q := by
  cases h with
  | last _ _ _ htolerance =>
      obtain rfl := Precision.float.inj hprecision
      obtain ⟨q, -, r, hnearest, hpos⟩ := htolerance
      exact ⟨r, hnearest.value, hpos⟩
  | default _ _ _ htolerance =>
      obtain rfl := Precision.float.inj hprecision
      obtain ⟨r, hnearest, hpos⟩ := htolerance
      exact ⟨r, hnearest.value, hpos⟩
  | exact => cases hprecision

/-- The precision of a command line is one that some events ask for. -/
theorem Means.exists_sets {events : List Event} {line : CommandLine}
    (h : Means events (.ok line)) : ∃ earlier, Sets earlier line.precision := by
  generalize houtcome : Except.ok line = outcome at h
  cases h with
  | decided before after event precision _ _ hsets hdecides =>
      cases hdecides with
      | help | version =>
          obtain rfl := Except.ok.inj houtcome
          exact ⟨before, hsets⟩
      | missingValue | invalidTolerance | unknown => cases houtcome
  | repl _ precision _ hsets | calculate _ precision _ _ hsets =>
      obtain rfl := Except.ok.inj houtcome
      exact ⟨events, hsets⟩

/-- A list of arguments is read as what its events mean. Behind the first event that decides the
arguments may be any other ones. Where none decides, the arguments may be rearranged as long as the
operands keep their order and so do the tolerances, and demands for binary64 are not dropped
altogether or added to none. Every tolerance that is handed on is finite and greater than zero. -/
theorem read_eq_means (arguments : List Text) :
    (∀ outcome, read arguments = outcome ↔
      ∃ events, Events arguments events ∧ Means events outcome) ∧
    (∀ front here rest before event, arguments = front ++ (here ++ rest) →
      Events front before → (∀ earlier ∈ before, ¬ earlier.Decisive) →
      Spelled event here → event.Decisive →
      ∀ other, read (front ++ (here ++ other)) = read arguments) ∧
    (∀ others events events', Events arguments events → Events others events' →
      (∀ event ∈ events, ¬ event.Decisive) → (∀ event ∈ events', ¬ event.Decisive) →
      operands events = operands events' → tolerances events = tolerances events' →
      (.float ∈ events ↔ .float ∈ events') → read others = read arguments) ∧
    ∀ line tolerance, read arguments = .ok line → line.precision = .float tolerance →
      ∃ q, tolerance.toRat? = some q ∧ 0 < q := by
  refine ⟨read_eq_iff arguments, ?_, ?_, ?_⟩
  · rintro front here rest before event rfl hbefore hplain hhere hdecisive other
    exact read_of_decisive hbefore hplain hhere hdecisive rest other
  · intro others events events' hevents hevents' hplain hplain' hoperands htolerances hfloat
    obtain ⟨outcome, houtcome⟩ := exists_means events
    have hother := houtcome.congr hplain hplain' hoperands htolerances hfloat
    rw [houtcome.read_eq hevents, hother.read_eq hevents']
  · intro line tolerance hread hprecision
    obtain ⟨events, -, hmeans⟩ := (read_eq_iff arguments _).1 hread
    obtain ⟨earlier, hsets⟩ := hmeans.exists_sets
    exact hsets.exists_pos hprecision

/-- Three operands, a tolerance and a demand for binary64 are read alike in two arrangements. The
help option behind a tolerance option is its value, and is not the text of a tolerance. What stands
behind it does not matter, even if it is another option. -/
theorem read_eq_means_of_half_and_hidden_help :
    ∃ half, half.toRat? = some (1 / 2) ∧ IsTolerance "0.5".toList half ∧
    read ["--float".toList, "1/2".toList, "--epsilon".toList, "0.5".toList, "+".toList,
        "1/3".toList] = .ok ⟨.calculate "1/2 + 1/3".toList, .float half⟩ ∧
    read ["1/2".toList, "+".toList, "1/3".toList, "--epsilon".toList, "0.5".toList,
        "--float".toList] = .ok ⟨.calculate "1/2 + 1/3".toList, .float half⟩ ∧
    (¬ ∃ tolerance, IsTolerance "--help".toList tolerance) ∧
    ∀ rest, read ("1".toList :: "--epsilon".toList :: "--help".toList :: rest) =
      .error (.invalidTolerance "--help".toList) := by
  obtain ⟨half, hvalue, hhalf⟩ := exists_isTolerance_half
  have hnone : ¬ ∃ tolerance, IsTolerance "--help".toList tolerance :=
    (readTolerance_eq_none_iff _).1 (by decide +kernel)
  -- the operands of both arrangements, in this order, make one text
  have hjoined : Text.Joined ["1/2".toList, "+".toList, "1/3".toList] "1/2 + 1/3".toList :=
    .cons "1/2".toList "+".toList _ "+ 1/3".toList
      (.cons "+".toList "1/3".toList [] "1/3".toList (.single _))
  have hfirst : Spelled (.operand "1/2".toList) ["1/2".toList] := .operand _ (by decide)
  have hplus : Spelled (.operand "+".toList) ["+".toList] := .operand _ (by decide)
  have hthird : Spelled (.operand "1/3".toList) ["1/3".toList] := .operand _ (by decide)
  have hfloatFirst : Events ["--float".toList, "1/2".toList, "--epsilon".toList, "0.5".toList,
        "+".toList, "1/3".toList]
      [.float, .operand "1/2".toList, .tolerance "0.5".toList, .operand "+".toList,
        .operand "1/3".toList] :=
    .cons _ _ _ _ .float (.cons _ _ _ _ hfirst (.cons _ _ _ _ (.tolerance _)
      (.cons _ _ _ _ hplus (.cons _ [] _ [] hthird .nil))))
  have hfloatLast : Events ["1/2".toList, "+".toList, "1/3".toList, "--epsilon".toList,
        "0.5".toList, "--float".toList]
      [.operand "1/2".toList, .operand "+".toList, .operand "1/3".toList,
        .tolerance "0.5".toList, .float] :=
    .cons _ _ _ _ hfirst (.cons _ _ _ _ hplus (.cons _ _ _ _ hthird
      (.cons _ _ _ _ (.tolerance _) (.cons _ [] _ [] .float .nil))))
  have hdecided : ¬ (Event.tolerance "0.5".toList).Decisive := not_not.2 ⟨half, hhalf⟩
  have hplainFirst : ∀ event ∈ [Event.float, .operand "1/2".toList, .tolerance "0.5".toList,
      .operand "+".toList, .operand "1/3".toList], ¬ event.Decisive := by
    simp only [List.forall_mem_cons]
    exact ⟨id, id, hdecided, id, id, nofun⟩
  have hplainLast : ∀ event ∈ [Event.operand "1/2".toList, .operand "+".toList,
      .operand "1/3".toList, .tolerance "0.5".toList, .float], ¬ event.Decisive := by
    simp only [List.forall_mem_cons]
    exact ⟨id, id, id, hdecided, id, nofun⟩
  obtain ⟨hread, -, hrearranged, -⟩ := read_eq_means ["--float".toList, "1/2".toList,
    "--epsilon".toList, "0.5".toList, "+".toList, "1/3".toList]
  have hfloat := (hread (.ok ⟨.calculate "1/2 + 1/3".toList, .float half⟩)).2
    ⟨_, hfloatFirst, .calculate _ _ _ hplainFirst (.last _ half rfl hhalf) nofun hjoined⟩
  have hsame := hrearranged _ _ _ hfloatFirst hfloatLast hplainFirst hplainLast rfl rfl (by simp)
  refine ⟨half, hvalue, hhalf, hfloat, hsame.trans hfloat, hnone, fun rest ↦ ?_⟩
  have hfront : Events ["1".toList] [.operand "1".toList] :=
    .cons ["1".toList] [] _ [] (.operand _ (by decide)) .nil
  have hhere : Spelled (.tolerance "--help".toList) ["--epsilon".toList, "--help".toList] :=
    .tolerance _
  have hplain : ∀ earlier ∈ [Event.operand "1".toList], ¬ earlier.Decisive := by
    simp [Event.Decisive]
  obtain ⟨hread, hbehind, -⟩ :=
    read_eq_means ["1".toList, "--epsilon".toList, "--help".toList]
  refine (hbehind ["1".toList] _ [] _ _ rfl hfront hplain hhere hnone rest).trans ?_
  refine (hread _).2 ⟨[.operand "1".toList, .tolerance "--help".toList], ?_, ?_⟩
  · exact .cons ["1".toList] _ _ _ (.operand _ (by decide)) (.cons _ [] _ [] hhere .nil)
  · exact .decided [.operand "1".toList] [] _ .exact _ hplain
      (.exact rfl (by simp)) (.invalidTolerance _ hnone)

end MixedNumbers.CommandLine
