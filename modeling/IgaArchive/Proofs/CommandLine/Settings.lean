import IgaArchive.CommandLine.Run
import IgaArchive.Proofs.Result

/-!
What the arguments say about a flag, told argument by argument. Reading them leaves each flag as the last
argument about it says.
-/

namespace IgaArchive.CommandLine

namespace Flag

theorem name_injective (first second : Flag) (same : utf8 first.name = utf8 second.name) :
    first = second := by
  revert same
  cases first <;> cases second <;> decide

theorem letter_injective (first second : Flag) (letter : UInt8)
    (one : first.letter?.map Bytes.code = some letter)
    (other : second.letter?.map Bytes.code = some letter) : first = second := by
  have distinct : first.letter?.map Bytes.code = second.letter?.map Bytes.code →
      first.letter?.isSome → first = second := by
    cases first <;> cases second <;> decide
  apply distinct (one.trans other.symm)
  rw [← Option.isSome_map, one]
  rfl

theorem name_of_named? (flags : List Flag) (name : Bytes) (flag : Flag)
    (found : named? flags name = some flag) : utf8 flag.name = name := by
  rw [named?] at found
  simpa using List.find?_some found

theorem letter_of_lettered? (flags : List Flag) (letter : UInt8) (flag : Flag)
    (found : lettered? flags letter = some flag) : flag.letter?.map Bytes.code = some letter := by
  rw [lettered?] at found
  simpa using List.find?_some found

theorem takesValue_iff (flag : Flag) : flag.takesValue = true ↔ flag = .config := by
  cases flag <;> decide

end Flag

/-- Whether a flag is on. The path of the configuration file is no switch. -/
def Options.isOn (options : Options) : Flag → Bool
  | .config => false
  | .digest => options.digest
  | .forceDecrypt => options.forceDecrypt
  | .help => options.help
  | .lz4 => options.lz4
  | .progress => options.progress
  | .verbose => options.verbose

theorem Options.isOn_turn (options : Options) (flag turned : Flag) (on : Bool) (switch : flag ≠ .config) :
    (options.turn turned on).isOn flag = if flag = turned then on else options.isOn flag := by
  cases flag <;> cases turned <;> simp_all [turn, isOn]

/-- What a group of letters says about a flag, from left to right. -/
def lettersTell (flag : Flag) : Bytes → List Bool
  | [] => []
  | letter :: rest =>
    if (utf8 "test.").isPrefixOf (letter :: rest) then []
    else if rest.head? = some equals ∧ rest.length > 1 then
      if flag.letter?.map Bytes.code = some letter then (truth? rest.tail).toList else []
    else if flag.letter?.map Bytes.code = some letter then true :: lettersTell flag rest
    else lettersTell flag rest

/-- What an argument says about a flag: its name or its letter turns it on, or gives it the value behind an
equals sign. -/
def tells (flag : Flag) : Bytes → List Bool
  | first :: second :: body =>
    if first ≠ hyphen then []
    else if second ≠ hyphen then lettersTell flag (second :: body)
    else
      let name := body.takeWhile (· ≠ equals)
      if name ≠ utf8 flag.name then []
      else
        match body.drop name.length with
        | [] => [true]
        | _ :: value => (truth? value).toList
  | _ => []

/-- The arguments that are read as flags or operands: those in front of a double hyphen, without the paths
of configuration files that stand on their own. -/
def readable : List Bytes → List Bytes
  | [] => []
  | argument :: rest =>
    if argument = flagsEnd then []
    else if argument = utf8 "--config" then
      match rest with
      | [] => [argument]
      | _ :: rest => argument :: readable rest
    else argument :: readable rest

/-- The value that the arguments give to a flag, the last one if there are several. -/
def told (flag : Flag) (arguments : List Bytes) : Option Bool :=
  ((readable arguments).flatMap (tells flag)).getLast?

section Told

variable (flag : Flag) (switch : flag ≠ .config)

theorem setTruth_eq_ok (turned : Flag) (text : Bytes) (options result : Options)
    (set : setTruth turned text options = .ok result) :
    ∃ on, truth? text = some on ∧ result = options.turn turned on := by
  rw [setTruth] at set
  split at set
  · rename_i on spelled
    cases set
    exact ⟨on, spelled, rfl⟩
  · cases set

include switch in
theorem readLetters_tells (flags : List Flag) (letters : Bytes) (options result : Options)
    (read : readLetters flags letters options = .ok result) :
    result.isOn flag = (lettersTell flag letters).getLast?.getD (options.isOn flag) := by
  induction letters generalizing options with
  | nil =>
      cases read
      rfl
  | cons letter rest ih =>
      rw [readLetters] at read
      rw [lettersTell]
      split at read
      · rename_i skipped
        cases read
        rw [if_pos skipped]
        rfl
      · rename_i plain
        rw [if_neg plain]
        split at read
        · cases read
        · rename_i turned found
          have own := Flag.letter_of_lettered? flags letter turned found
          have mine : flag.letter?.map Bytes.code = some letter ↔ flag = turned :=
            ⟨fun same => Flag.letter_injective flag turned letter same own, fun same => same ▸ own⟩
          split at read
          · rename_i valued
            obtain ⟨on, spelled, rfl⟩ := setTruth_eq_ok turned rest.tail options result read
            rw [if_pos valued, Options.isOn_turn options flag turned on switch]
            by_cases here : flag = turned
            · rw [if_pos here, if_pos (mine.mpr here), spelled]
              rfl
            · rw [if_neg here, if_neg fun same => here (mine.mp same)]
              rfl
          · rename_i bare
            rw [if_neg bare, ih _ read, Options.isOn_turn options flag turned true switch]
            by_cases here : flag = turned
            · rw [if_pos here, if_pos (mine.mpr here), List.getLast?_cons]
              rfl
            · rw [if_neg here, if_neg fun same => here (mine.mp same)]

theorem readable_cons (argument : Bytes) (rest : List Bytes) (goes : argument ≠ flagsEnd)
    (other : argument ≠ utf8 "--config") :
    readable (argument :: rest) = argument :: readable rest := by
  rw [readable.eq_def]
  simp only [if_neg goes, if_neg other]

/-- One argument says its word on a flag, and the arguments that are read after it have the last. -/
theorem told_step (argument : Bytes) (rest later : List Bytes) (options next result : Options)
    (shape : readable (argument :: rest) = argument :: readable later)
    (stated : next.isOn flag = (tells flag argument).getLast?.getD (options.isOn flag))
    (after : result.isOn flag = (told flag later).getD (next.isOn flag)) :
    result.isOn flag = (told flag (argument :: rest)).getD (options.isOn flag) := by
  have last : told flag (argument :: rest) = (told flag later).or (tells flag argument).getLast? := by
    rw [told, told, shape, List.flatMap_cons, List.getLast?_append]
  rw [after, stated, last]
  cases told flag later <;> rfl

section Long

variable (body : Bytes)

theorem tells_long :
    tells flag (hyphen :: hyphen :: body) =
      if body.takeWhile (· ≠ equals) ≠ utf8 flag.name then []
      else
        match body.drop (body.takeWhile (· ≠ equals)).length with
        | [] => [true]
        | _ :: value => (truth? value).toList := by
  simp only [tells, ne_eq, not_true_eq_false, if_false]

variable (turned : Flag) (named : utf8 turned.name = body.takeWhile (· ≠ equals))
include named

theorem tells_valued (head : UInt8) (value : Bytes)
    (valued : body.drop (body.takeWhile (· ≠ equals)).length = head :: value) :
    tells flag (hyphen :: hyphen :: body) = if flag = turned then (truth? value).toList else [] := by
  rw [tells_long, ← named]
  rw [← named] at valued
  by_cases here : flag = turned
  · rw [here, if_neg (fun other => other rfl), if_pos rfl, valued]
  · rw [if_pos fun same => here (Flag.name_injective turned flag same).symm, if_neg here]

theorem tells_bare (bare : body.drop (body.takeWhile (· ≠ equals)).length = []) :
    tells flag (hyphen :: hyphen :: body) = if flag = turned then [true] else [] := by
  rw [tells_long, ← named]
  rw [← named] at bare
  by_cases here : flag = turned
  · rw [here, if_neg (fun other => other rfl), if_pos rfl, bare]
  · rw [if_pos fun same => here (Flag.name_injective turned flag same).symm, if_neg here]

theorem body_of_bare (bare : body.drop (body.takeWhile (· ≠ equals)).length = []) :
    body = utf8 turned.name := by
  rw [named]
  exact ((List.takeWhile_prefix _).eq_of_length_le (List.drop_eq_nil_iff.mp bare)).symm

end Long

theorem long_ne_config (body : Bytes) (head : UInt8) (value : Bytes)
    (valued : body.drop (body.takeWhile (· ≠ equals)).length = head :: value) :
    hyphen :: hyphen :: body ≠ utf8 "--config" := by
  intro same
  have whole : body = utf8 "config" := (List.cons.inj (List.cons.inj same).2).2
  rw [whole] at valued
  cases valued

include switch in
theorem readArguments_told (flags : List Flag) (arguments : List Bytes) (call result : Call)
    (read : readArguments flags arguments call = .ok result) :
    result.options.isOn flag = (told flag arguments).getD (call.options.isOn flag) := by
  fun_induction readArguments flags arguments call with
  | case1 call =>
      cases read
      rfl
  | case2 rest call =>
      cases read
      have silent : readable (flagsEnd :: rest) = [] := by
        rw [readable.eq_def]
        rfl
      rw [told, silent]
      rfl
  | case3 rest call first second body operand goes ih =>
      refine told_step flag _ rest rest call.options call.options _ ?_ ?_ (ih read)
      · exact readable_cons _ _ goes fun same => operand (List.cons.inj same).1
      · rw [tells, if_pos operand]
        rfl
  | case4 rest call first second body one letters goes ih =>
      obtain ⟨options, set, after⟩ := Result.bind_eq_ok read
      refine told_step flag _ rest rest call.options options _ ?_ ?_ (ih options after)
      · exact readable_cons _ _ goes fun same => letters (List.cons.inj (List.cons.inj same).2).1
      · rw [tells, if_neg one, if_pos letters]
        exact readLetters_tells flag switch flags _ _ _ set
  | case5 | case6 | case10 => cases read
  | case7 rest call first second body one two _ name turned head value valued found takes goes ih =>
      have named := Flag.name_of_named? flags name turned found
      obtain rfl : first = hyphen := Classical.not_not.mp one
      obtain rfl : second = hyphen := Classical.not_not.mp two
      obtain rfl := (Flag.takesValue_iff turned).mp takes
      refine told_step flag _ rest rest call.options _ _ ?_ ?_ (ih read)
      · exact readable_cons _ _ goes (long_ne_config body head value valued)
      · rw [tells_valued flag body _ named head value valued, if_neg switch]
        cases flag <;> rfl
  | case8 rest call first second body one two _ name turned head value valued found takes goes ih =>
      have named := Flag.name_of_named? flags name turned found
      obtain rfl : first = hyphen := Classical.not_not.mp one
      obtain rfl : second = hyphen := Classical.not_not.mp two
      obtain ⟨options, set, after⟩ := Result.bind_eq_ok read
      obtain ⟨on, spelled, rfl⟩ := setTruth_eq_ok turned value call.options options set
      refine told_step flag _ rest rest call.options _ _ ?_ ?_ (ih _ after)
      · exact readable_cons _ _ goes (long_ne_config body head value valued)
      · rw [tells_valued flag body turned named head value valued, spelled,
          Options.isOn_turn _ flag turned on switch]
        split <;> rfl
  | case9 call first second body one two _ name turned bare found takes value rest goes ih =>
      have named := Flag.name_of_named? flags name turned found
      obtain rfl : first = hyphen := Classical.not_not.mp one
      obtain rfl : second = hyphen := Classical.not_not.mp two
      obtain rfl := (Flag.takesValue_iff turned).mp takes
      have whole := body_of_bare body .config named bare
      refine told_step flag _ _ rest call.options _ _ ?_ ?_ (ih read)
      · have asks : hyphen :: hyphen :: body = utf8 "--config" := by
          rw [whole]
          decide
        rw [readable.eq_def]
        simp only [if_neg goes, if_pos asks]
      · rw [tells_bare flag body _ named bare, if_neg switch]
        cases flag <;> rfl
  | case11 rest call first second body one two _ name turned bare found takes goes ih =>
      have named := Flag.name_of_named? flags name turned found
      obtain rfl : first = hyphen := Classical.not_not.mp one
      obtain rfl : second = hyphen := Classical.not_not.mp two
      have whole := body_of_bare body turned named bare
      refine told_step flag _ rest rest call.options _ _ ?_ ?_ (ih read)
      · refine readable_cons _ _ goes fun same => takes ?_
        have config : body = utf8 Flag.config.name := (List.cons.inj (List.cons.inj same).2).2
        exact (Flag.takesValue_iff turned).mpr
          (Flag.name_injective turned .config (whole.symm.trans config))
      · rw [tells_bare flag body turned named bare, Options.isOn_turn _ flag turned true switch]
        split <;> rfl
  | case12 argument rest call goes short ih =>
      have other : argument ≠ utf8 "--config" := fun same => short _ _ _ same
      refine told_step flag argument rest rest call.options call.options _ ?_ ?_ (ih read)
      · exact readable_cons _ _ goes other
      · have silent : tells flag argument = [] := by
          rw [tells.eq_def]
          split
          · exact (short _ _ _ rfl).elim
          · rfl
        rw [silent]
        rfl

end Told

end IgaArchive.CommandLine
