import J4DmenuDesktop.Main.WaitOn

/-!
# `main`'s option loop

`getopt_long` delivers the options with their `optarg` (empty when there is
none; an unknown option as `'?'`). Each option writes one local, `-v` counts,
and `--help`, an unknown option and an unknown level end `main`. After the
loop the `-v` count raises the stderr level while it is still `WARNING`, also
when `--log-level=WARNING` set it, though the comment says "if --log-level
wasn't specified"; a wrapper that mentions `i3` ends `main` without
`--skip-i3-exec-check`. Read off the whole list, each setting is that of the
last option writing it (`declaredFrom`) and the first option that exits
decides how; every session `main` then serves ends as the options say. Log
files, the i3 socket lookup, the catalog, the history and `$SHELL` are inputs.
-/

namespace J4DmenuDesktop

/-- The loguru verbosities `main` assigns: `Verbosity_ERROR`, `_WARNING`, `_INFO` and `_9`. -/
inductive Verbosity
  | error
  | warning
  | info
  | v9
  deriving DecidableEq, Repr

/-- The formatters `main` chooses between (`Formatters.hh` is missing): a tag, given its meaning
where the name map is built. -/
inductive ApplicationFormatter
  | appformatterDefault
  | appformatterWithBinaryName
  | appformatterWithBaseBinaryName
  deriving DecidableEq, Repr

/-- The locals of `main` that the option loop writes. -/
structure MainOptions where
  logFilePath : Option (List Char)
  logFileVerbosity : Verbosity
  stderrVerbosity : Verbosity
  dmenuCommand : List Char
  terminal : List Char
  wrapper : List Char
  waitOn : Option (List Char)
  useXdgDe : Bool
  excludeGeneric : Bool
  noExec : Bool
  caseInsensitive : Bool
  useI3Ipc : Bool
  skipI3Check : Bool
  verboseFlag : Nat
  appformatter : ApplicationFormatter
  usageLog : Option (List Char)
  deriving DecidableEq, Repr

/-- The values the locals start with; `g_stderr_verbosity` is set to `WARNING` first. -/
def MainOptions.initial : MainOptions where
  logFilePath := none
  logFileVerbosity := .info
  stderrVerbosity := .warning
  dmenuCommand := "dmenu -i".toList
  terminal := "i3-sensible-terminal".toList
  wrapper := []
  waitOn := none
  useXdgDe := false
  excludeGeneric := false
  noExec := false
  caseInsensitive := false
  useI3Ipc := false
  skipI3Check := false
  verboseFlag := 0
  appformatter := .appformatterDefault
  usageLog := none

/-- How the option loop leaves `main`. -/
inductive OptionExit
  /-- `-h`: `print_usage(stderr)`, then `exit(0)`. -/
  | usage
  /-- A level no `strcmp` matches: the message on stderr, then `exit(1)`. -/
  | invalidLevel (msg : List Char)
  /-- `default:` of the switch: `exit(1)`. -/
  | unknown
  deriving DecidableEq, Repr

/-- The status `main` exits with. -/
def OptionExit.code : OptionExit → Nat
  | .usage => 0
  | .invalidLevel _ => 1
  | .unknown => 1

/-- The `strcmp` chain of `--log-level` and `--log-file-level`. -/
def parseLogLevel (s : List Char) : Option Verbosity :=
  if s = "DEBUG".toList then some .v9
  else if s = "INFO".toList then some .info
  else if s = "WARNING".toList then some .warning
  else if s = "ERROR".toList then some .error
  else none

/-- One iteration of the option loop: the `switch (c)` on what `getopt_long` returned, as an
if-chain over its cases in order. -/
def applyOption (o : MainOptions) (opt : Char × List Char) : Except OptionExit MainOptions :=
  let c := opt.1
  let optarg := opt.2
  if c = 'd' then .ok { o with dmenuCommand := optarg }
  else if c = 'x' then .ok { o with useXdgDe := true }
  else if c = 't' then .ok { o with terminal := optarg }
  else if c = 'h' then .error .usage
  else if c = 'b' then .ok { o with appformatter := .appformatterWithBinaryName }
  else if c = 'f' then .ok { o with appformatter := .appformatterWithBaseBinaryName }
  else if c = 'n' then .ok { o with excludeGeneric := true }
  else if c = 'l' then .ok { o with usageLog := some optarg }
  else if c = 'w' then .ok { o with waitOn := some optarg }
  else if c = 'e' then .ok { o with noExec := true }
  else if c = 'W' then .ok { o with wrapper := optarg }
  else if c = 'i' then .ok { o with caseInsensitive := true }
  else if c = 'I' then .ok { o with useI3Ipc := true }
  else if c = 'v' then .ok { o with verboseFlag := o.verboseFlag + 1 }
  else if c = 'o' then
    match parseLogLevel optarg with
    | some v => .ok { o with stderrVerbosity := v }
    | none => .error (.invalidLevel "Invalid loglevel supplied to --log-level!\n".toList)
  else if c = 'O' then .ok { o with logFilePath := some optarg }
  else if c = 'V' then
    match parseLogLevel optarg with
    | some v => .ok { o with logFileVerbosity := v }
    | none => .error (.invalidLevel "Invalid loglevel supplied to --log-file-level!\n".toList)
  else if c = 'S' then .ok { o with skipI3Check := true }
  else .error .unknown

/-- The `while (true)` loop over `getopt_long`'s results. -/
def parseOptions (opts : List (Char × List Char)) : Except OptionExit MainOptions :=
  opts.foldlM applyOption MainOptions.initial

/-- The `-v` handling after the loop: the count sets the stderr level only while it is
`WARNING`. -/
def applyVerboseFlag (o : MainOptions) : Verbosity :=
  if o.stderrVerbosity = .warning then
    match o.verboseFlag with
    | 0 => o.stderrVerbosity
    | 1 => .info
    | _ => .v9
  else o.stderrVerbosity

/-- `wrapper.find("i3") != std::string::npos`. -/
def mentionsI3 (wrapper : List Char) : Bool := wrapper.tails.any ("i3".toList).isPrefixOf

/-- The check after the loop: `true` when `main` exits with `EXIT_FAILURE` over the wrapper. -/
def i3WrapperDetected (o : MainOptions) : Bool := !o.skipI3Check && mentionsI3 o.wrapper

/-! ## The options read off the whole list -/

section Declared

variable {β : Type}

/-- The value the last option that `sel` gives a value for gives, or `d` when none does. -/
def lastSet (sel : Char × List Char → Option β) (opts : List (Char × List Char)) (d : β) : β :=
  (opts.filterMap sel).getLast?.getD d

theorem lastSet_cons (sel : Char × List Char → Option β) (p : Char × List Char)
    (opts : List (Char × List Char)) (d : β) :
    lastSet sel (p :: opts) d = lastSet sel opts ((sel p).getD d) := by
  unfold lastSet
  cases h : sel p <;> simp [List.filterMap_cons, h, List.getLast?_cons]

theorem lastSet_append (sel : Char × List Char → Option β) (xs ys : List (Char × List Char))
    (d : β) : lastSet sel (xs ++ ys) d = lastSet sel ys (lastSet sel xs d) := by
  induction xs generalizing d with
  | nil => rfl
  | cons p xs ih => rw [List.cons_append, lastSet_cons, lastSet_cons, ih]

end Declared

/-- The argument of option `c`. -/
def argOf (c : Char) (p : Char × List Char) : Option (List Char) :=
  if p.1 = c then some p.2 else none

/-- Option `c` sets its flag. -/
def flagOf (c : Char) (p : Char × List Char) : Option Bool :=
  if p.1 = c then some true else none

/-- The formatter `-b` or `-f` selects. -/
def formatterOf (p : Char × List Char) : Option ApplicationFormatter :=
  if p.1 = 'b' then some .appformatterWithBinaryName
  else if p.1 = 'f' then some .appformatterWithBaseBinaryName
  else none

/-- Each setting as the last option that writes it gives it, and as `o` has it when none does;
`-v` adds its occurrences to the count. -/
def declaredFrom (o : MainOptions) (opts : List (Char × List Char)) : MainOptions where
  logFilePath := lastSet (fun p => (argOf 'O' p).map some) opts o.logFilePath
  logFileVerbosity := lastSet (fun p => (argOf 'V' p).bind parseLogLevel) opts o.logFileVerbosity
  stderrVerbosity := lastSet (fun p => (argOf 'o' p).bind parseLogLevel) opts o.stderrVerbosity
  dmenuCommand := lastSet (argOf 'd') opts o.dmenuCommand
  terminal := lastSet (argOf 't') opts o.terminal
  wrapper := lastSet (argOf 'W') opts o.wrapper
  waitOn := lastSet (fun p => (argOf 'w' p).map some) opts o.waitOn
  useXdgDe := lastSet (flagOf 'x') opts o.useXdgDe
  excludeGeneric := lastSet (flagOf 'n') opts o.excludeGeneric
  noExec := lastSet (flagOf 'e') opts o.noExec
  caseInsensitive := lastSet (flagOf 'i') opts o.caseInsensitive
  useI3Ipc := lastSet (flagOf 'I') opts o.useI3Ipc
  skipI3Check := lastSet (flagOf 'S') opts o.skipI3Check
  verboseFlag := o.verboseFlag + opts.countP fun p => p.1 = 'v'
  appformatter := lastSet formatterOf opts o.appformatter
  usageLog := lastSet (fun p => (argOf 'l' p).map some) opts o.usageLog

/-- The option characters the switch has a case for. -/
def knownOptions : List Char :=
  ['d', 'x', 't', 'h', 'b', 'f', 'n', 'l', 'w', 'e', 'W', 'i', 'I', 'v', 'o', 'O', 'V', 'S']

/-- The option that ends `main`, whatever the options before it. -/
def optionExit (p : Char × List Char) : Option OptionExit :=
  if p.1 = 'h' then some .usage
  else if p.1 = 'o' ∧ parseLogLevel p.2 = none then
    some (.invalidLevel "Invalid loglevel supplied to --log-level!\n".toList)
  else if p.1 = 'V' ∧ parseLogLevel p.2 = none then
    some (.invalidLevel "Invalid loglevel supplied to --log-file-level!\n".toList)
  else if p.1 ∈ knownOptions then none
  else some .unknown

@[simp] theorem declaredFrom_nil (o : MainOptions) : declaredFrom o [] = o := rfl

theorem declaredFrom_append (o : MainOptions) (xs ys : List (Char × List Char)) :
    declaredFrom o (xs ++ ys) = declaredFrom (declaredFrom o xs) ys := by
  simp only [declaredFrom, lastSet_append, List.countP_append, Nat.add_assoc]

/-- One option either ends `main` as `optionExit` says or writes what `declaredFrom` says. -/
theorem applyOption_spec (o : MainOptions) (p : Char × List Char) :
    applyOption o p = match optionExit p with
      | some e => .error e
      | none => .ok (declaredFrom o [p]) := by
  obtain ⟨c, a⟩ := p
  by_cases hk : c ∈ knownOptions
  · simp only [knownOptions, List.mem_cons, List.not_mem_nil, or_false] at hk
    rcases hk with rfl | rfl | rfl | rfl | rfl | rfl | rfl | rfl | rfl | rfl | rfl | rfl | rfl |
      rfl | rfl | rfl | rfl | rfl
    all_goals first
      | rfl
      | cases h : parseLogLevel a <;>
          simp [applyOption, optionExit, knownOptions, declaredFrom, lastSet, argOf, flagOf,
            formatterOf, h]
  · simp only [knownOptions, List.mem_cons, List.not_mem_nil, or_false, not_or] at hk
    simp [applyOption, optionExit, knownOptions, hk]

theorem declaredFrom_cons (o : MainOptions) (p : Char × List Char)
    (opts : List (Char × List Char)) :
    declaredFrom o (p :: opts) = declaredFrom (declaredFrom o [p]) opts :=
  declaredFrom_append o [p] opts

/-- From any locals, the loop ends as the first option that exits says, or with every setting
as the last option that writes it gives it. -/
theorem foldlM_applyOption (o : MainOptions) (opts : List (Char × List Char)) :
    opts.foldlM applyOption o = match opts.findSome? optionExit with
      | some e => .error e
      | none => .ok (declaredFrom o opts) := by
  induction opts generalizing o with
  | nil => rfl
  | cons p opts ih =>
      rw [List.foldlM_cons, applyOption_spec, List.findSome?_cons]
      cases optionExit p with
      | some e => rfl
      | none => rw [declaredFrom_cons o p opts]; exact ih _

/-- The option loop ends `main` as the first option that exits says, and otherwise leaves every
setting as the last option that writes it gives it, or at its default. -/
theorem parseOptions_spec (opts : List (Char × List Char)) :
    parseOptions opts = match opts.findSome? optionExit with
      | some e => .error e
      | none => .ok (declaredFrom MainOptions.initial opts) :=
  foldlM_applyOption MainOptions.initial opts

example : parseOptions [('b', []), ('d', "rofi".toList), ('f', []), ('d', "dmenu".toList)] =
    .ok { MainOptions.initial with
      dmenuCommand := "dmenu".toList, appformatter := .appformatterWithBaseBinaryName } := rfl

/-- After a loop that does not exit, the stderr level is the last `--log-level`'s unless that is
`WARNING`; when it is `WARNING`, given or by default, the `-v` count decides. -/
theorem applyVerboseFlag_spec (opts : List (Char × List Char)) (o : MainOptions)
    (h : parseOptions opts = .ok o) :
    applyVerboseFlag o =
      let level := lastSet (fun p => (argOf 'o' p).bind parseLogLevel) opts .warning
      if level = .warning then
        match opts.countP fun p => p.1 = 'v' with
        | 0 => .warning
        | 1 => .info
        | _ => .v9
      else level := by
  rw [parseOptions, foldlM_applyOption] at h
  split at h
  · cases h
  · cases h
    simp only [applyVerboseFlag, declaredFrom, MainOptions.initial, Nat.zero_add]
    split_ifs with hw <;> simp only [hw]

/-- `--log-level=WARNING -v` ends at `INFO`: the explicit level does not stop the count. -/
theorem applyVerboseFlag_warning_v :
    parseOptions [('o', "WARNING".toList), ('v', [])] =
        .ok (declaredFrom MainOptions.initial [('o', "WARNING".toList), ('v', [])]) ∧
      applyVerboseFlag (declaredFrom MainOptions.initial [('o', "WARNING".toList), ('v', [])]) =
        .info :=
  ⟨rfl, (applyVerboseFlag_spec [('o', "WARNING".toList), ('v', [])]
    (declaredFrom MainOptions.initial [('o', "WARNING".toList), ('v', [])]) rfl).trans rfl⟩

/-! ## From the options to the sessions -/

/-- How `main` ends before it reads the catalog. -/
inductive MainExit
  | option (e : OptionExit)
  /-- "Usage of an i3 wrapper has been detected!": `exit(EXIT_FAILURE)`. -/
  | i3Wrapper
  deriving DecidableEq, Repr

/-- The status `main` exits with. -/
def MainExit.code : MainExit → Nat
  | .option e => e.code
  | .i3Wrapper => 1

/-- `main` up to the catalog: the option loop, the `-v` handling and the check on the wrapper. -/
def mainOptions (opts : List (Char × List Char)) : Except MainExit (MainOptions × Verbosity) :=
  match parseOptions opts with
  | .error e => .error (.option e)
  | .ok o => if i3WrapperDetected o then .error .i3Wrapper else .ok (o, applyVerboseFlag o)

/-- The arguments `main` hands the sessions: `$SHELL`, or `/bin/sh` when it is unset, and the
socket path `i3_get_ipc_socket_path` returns when `-I` was given. -/
def waitOnEnvOf (o : MainOptions) (shellVar : Option (List Char)) (i3SocketPath : List Char)
    (applicationCommand : Application → List Char → List Char) : WaitOnEnv where
  shell := shellVar.getD "/bin/sh".toList
  terminal := o.terminal
  wrapper := o.wrapper
  noExec := o.noExec
  i3 := if o.useI3Ipc then some i3SocketPath else none
  applicationCommand := applicationCommand

/-- The end of `main`: the daemon loop with `--wait-on`, else one session, both served from the
name map built with the chosen formatter. -/
def mainSessions (o : MainOptions) (env : WaitOnEnv)
    (format : ApplicationFormatter → List Char → Application → List Char) (st : WaitOnState)
    (answer : List Char) (ws : List Wakeup) : List Session :=
  match o.waitOn with
  | some _ => mainWaitOn env (format o.appformatter) o.caseInsensitive st ws
  | none =>
      [(menuSession env st.appm (formatNameAppMapping st.appm.viewNameAppMapping
        (st.appm.formatPtr (format o.appformatter)) o.caseInsensitive) st.hist answer).1]

theorem lastSet_flagOf (c : Char) (opts : List (Char × List Char)) (b : Bool) :
    lastSet (flagOf c) opts b = (b || opts.any fun p => p.1 = c) := by
  induction opts generalizing b with
  | nil => simp [lastSet]
  | cons p opts ih =>
      rw [lastSet_cons, ih, List.any_cons]
      by_cases h : p.1 = c <;> simp [flagOf, h]

theorem lastSet_argOf_isSome (c : Char) (opts : List (Char × List Char))
    (d : Option (List Char)) :
    (lastSet (fun p => (argOf c p).map some) opts d).isSome =
      (d.isSome || opts.any fun p => p.1 = c) := by
  induction opts generalizing d with
  | nil => simp [lastSet]
  | cons p opts ih =>
      rw [lastSet_cons, ih, List.any_cons]
      by_cases h : p.1 = c <;> simp [argOf, h]

/-- The options `main` goes on with are those the loop declares. -/
theorem mainOptions_ok {opts : List (Char × List Char)} {o : MainOptions} {v : Verbosity}
    (h : mainOptions opts = .ok (o, v)) : o = declaredFrom MainOptions.initial opts := by
  rw [mainOptions, parseOptions, foldlM_applyOption] at h
  cases hf : opts.findSome? optionExit with
  | some e => simp [hf] at h
  | none =>
      simp only [hf] at h
      split_ifs at h
      cases h
      rfl

/-- Every session `main` serves ends as the loop's arguments allow, and goes wrong only in
daemon mode: in one session the name map was just built from the catalog it reads. -/
theorem mainSessions_allowedBy (o : MainOptions) (env : WaitOnEnv)
    (format : ApplicationFormatter → List Char → Application → List Char) (st : WaitOnState)
    (answer : List Char) (ws : List Wakeup) :
    ∀ s ∈ mainSessions o env format st answer ws,
      s.outcome.allowedBy env ∧ (s.outcome = .undefined → o.waitOn.isSome) := by
  unfold mainSessions
  split
  · next h =>
      rw [mainWaitOn, runWaitOn_eq_serveSessions]
      exact mem_serveSessions _ _ fun r _ hist =>
        ⟨menuSession_allowedBy .., fun _ => by simp [h]⟩
  · simp only [List.mem_singleton, forall_eq]
    refine ⟨menuSession_allowedBy .., fun hu => absurd hu (menuSession_ne_undefined ?_ _ _ _)⟩
    intro e he
    obtain ⟨app, hd, -⟩ := mem_formatNameAppMapping_live he
    simp [hd]

/-- Before it reads the catalog, `main` exits with status 0 exactly when the first option that
exits is `--help`; an unknown option, an unknown level and a wrapper that mentions `i3` without
`--skip-i3-exec-check` exit with status 1. -/
theorem mainOptions_exit_code (opts : List (Char × List Char)) (e : MainExit)
    (h : mainOptions opts = .error e) :
    e.code = if opts.findSome? optionExit = some .usage then 0 else 1 := by
  rw [mainOptions, parseOptions, foldlM_applyOption] at h
  cases hf : opts.findSome? optionExit with
  | some e' =>
      simp only [hf, Except.error.injEq] at h
      subst h
      cases e' <;> simp [MainExit.code, OptionExit.code]
  | none =>
      simp only [hf] at h
      split_ifs at h
      cases h
      simp [MainExit.code]

/-- An unknown level before `--help` decides the exit: status 1. -/
theorem mainOptions_level_before_help :
    mainOptions [('o', "LOUD".toList), ('h', [])] =
        .error (.option (.invalidLevel "Invalid loglevel supplied to --log-level!\n".toList)) ∧
      (MainExit.option (.invalidLevel "Invalid loglevel supplied to --log-level!\n".toList)).code =
        if [('o', "LOUD".toList), ('h', [])].findSome? optionExit = some .usage then 0 else 1 :=
  ⟨rfl, mainOptions_exit_code [('o', "LOUD".toList), ('h', [])] _ rfl⟩

/-- Every session `main` serves, in either mode, ends as its options say: it prints only when
`--no-exec` was given, launches only when it was not, launches over i3, to the socket path,
exactly when `-I` was given, and reads a destroyed application only under `--wait-on`. -/
theorem mainSessions_follow_options (opts : List (Char × List Char)) (o : MainOptions)
    (v : Verbosity) (h : mainOptions opts = .ok (o, v)) (shellVar : Option (List Char))
    (path : List Char) (applicationCommand : Application → List Char → List Char)
    (format : ApplicationFormatter → List Char → Application → List Char) (st : WaitOnState)
    (answer : List Char) (ws : List Wakeup) :
    ∀ s ∈ mainSessions o (waitOnEnvOf o shellVar path applicationCommand) format st answer ws,
      match s.outcome with
      | .cancelled => True
      | .printed _ => opts.any (fun p => p.1 = 'e') = true
      | .launched l => opts.any (fun p => p.1 = 'e') = false ∧
          l.socket = if opts.any (fun p => p.1 = 'I') then some path else none
      | .undefined => opts.any (fun p => p.1 = 'w') = true := by
  intro s hs
  obtain ⟨ha, hu⟩ := mainSessions_allowedBy _ _ format st answer ws s hs
  obtain rfl := mainOptions_ok h
  have hflag : ∀ c, lastSet (flagOf c) opts false = opts.any fun p => p.1 = c := fun c => by
    rw [lastSet_flagOf, Bool.false_or]
  revert ha hu
  unfold Outcome.allowedBy
  cases s.outcome
  case undefined =>
    intro _ hu
    simpa [declaredFrom, MainOptions.initial, lastSet_argOf_isSome] using hu rfl
  all_goals
    intro ha _
    first
    | trivial
    | simpa only [waitOnEnvOf, declaredFrom, MainOptions.initial, hflag] using ha

/-- `--no-exec` in one-shot mode: the session prints the custom command `ls`. -/
theorem mainSessions_noExec_ls :
    mainOptions [('e', [])] = .ok (declaredFrom MainOptions.initial [('e', [])], .warning) ∧
      ∀ s ∈ mainSessions (declaredFrom MainOptions.initial [('e', [])])
          (waitOnEnvOf (declaredFrom MainOptions.initial [('e', [])]) none [] fun app _ => app.exec)
          (fun _ name _ => name) ⟨AppManager.empty [], none⟩ "ls".toList [],
        match s.outcome with
        | .cancelled => True
        | .printed _ => [('e', ([] : List Char))].any (fun p => p.1 = 'e') = true
        | .launched l => [('e', ([] : List Char))].any (fun p => p.1 = 'e') = false ∧
            l.socket = if [('e', ([] : List Char))].any (fun p => p.1 = 'I') then some [] else none
        | .undefined => [('e', ([] : List Char))].any (fun p => p.1 = 'w') = true :=
  ⟨rfl, mainSessions_follow_options [('e', [])] _ _ rfl none [] _ _ _ _ _⟩

end J4DmenuDesktop
