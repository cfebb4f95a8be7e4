import J4DmenuDesktop.CMDLineAssembler.SqQuote

/-!
# `execute_app`

The command string is put in double quotes after a wrapper, prefixed with
`exec ` for desktop entries, and then either run as `shell -c command`
(through the terminal's `-e` in terminal mode) or sent over i3 IPC, where i3
runs it with `sh -c`. In terminal mode the i3 message wraps the command in
single quotes. Neither quoting escapes anything, so both break on commands
that contain the quote they use, and both are read back exactly on commands
free of it.
-/

namespace J4DmenuDesktop
open Shell CMDLineAssembly

/-- How `execute_app` hands off the command. -/
inductive Launch
  | i3Exec (command : List Char) (socket : List Char)
  | execlp (file : List Char) (argv : List (List Char))
  | execl (path : List Char) (argv : List (List Char))
  deriving DecidableEq, Repr

/-- Modelled from the spec: `I3Exec.cc` is missing. The argument vector the launched process
starts with. For an i3 message this assumes that `i3_exec` has i3 hand the command to `sh -c`
as it is, so the vector is what POSIX `sh` reads from it; i3's own command parser, which reads
the message first, is not modelled. -/
def Launch.argv : Launch → Option (List (List Char))
  | .i3Exec command _ => parse .posix command
  | .execlp _ argv => some argv
  | .execl _ argv => some argv

/-- The i3 socket a launch goes over, if it goes over i3. -/
def Launch.socket : Launch → Option (List Char)
  | .i3Exec _ socket => some socket
  | .execlp _ _ => none
  | .execl _ _ => none

/-- The command string of `execute_app`: the wrapper with the command in double quotes, and
`exec ` in front unless the command is a custom one. -/
def assembleCommand (exec wrapper : List Char) (isCustom : Bool) : List Char :=
  let command := if wrapper.isEmpty then exec else wrapper ++ " \"".toList ++ exec ++ ['"']
  if isCustom then command else "exec ".toList ++ command

/-- `execute_app`, up to the `exec` call or the i3 message. -/
def executeApp (exec wrapper terminal shell : List Char) (isTerminal isCustom : Bool)
    (i3 : Option (List Char)) : Launch :=
  let command := assembleCommand exec wrapper isCustom
  if isTerminal then
    match i3 with
    | some path =>
        .i3Exec (terminal ++ " -e ".toList ++ shell ++ " -c '".toList ++ command ++ ['\'']) path
    | none => .execlp terminal [terminal, "-e".toList, shell, "-c".toList, command]
  else
    match i3 with
    | some path => .i3Exec command path
    | none => .execl shell [shell, "-c".toList, command]

/-- `execute_app` goes over i3 exactly when it is given a socket path, and to that path. -/
theorem executeApp_socket (exec wrapper terminal shell : List Char) (isTerminal isCustom : Bool)
    (i3 : Option (List Char)) :
    (executeApp exec wrapper terminal shell isTerminal isCustom i3).socket = i3 := by
  unfold executeApp
  cases isTerminal <;> cases i3 <;> rfl

/-- Both quotings break on the quote they use. A wrapper around a command with a double quote,
`w "mpv "a b.mp4""`, is read by `sh` as three words, not as the wrapper and the command; and in
terminal mode the i3 message and the direct `execlp` disagree on a command with a single quote:
`sh` cannot read `xterm -e /bin/sh -c 'exec echo it's'` at all. -/
theorem executeApp_quoting_breaks :
    (executeApp "mpv \"a b.mp4\"".toList "w".toList "xterm".toList "/bin/sh".toList false true
        none).argv = some ["/bin/sh".toList, "-c".toList, "w \"mpv \"a b.mp4\"\"".toList] ∧
      parse .posix "w \"mpv \"a b.mp4\"\"".toList =
        some ["w".toList, "mpv a".toList, "b.mp4".toList] ∧
      (executeApp "echo it's".toList [] "xterm".toList "/bin/sh".toList true false
        (some "/run/i3/ipc".toList)).argv = none ∧
      (executeApp "echo it's".toList [] "xterm".toList "/bin/sh".toList true false none).argv =
        some ["xterm".toList, "-e".toList, "/bin/sh".toList, "-c".toList, "exec echo it's".toList] := by
  decide

/-- Words joined by spaces and followed by a space are the words each followed by a space. -/
theorem intercalate_space_append {ws : List (List Char)} (h : ws ≠ []) :
    [' '].intercalate ws ++ [' '] = ws.flatMap (· ++ [' ']) := by
  induction ws with
  | nil => contradiction
  | cons w ws ih =>
      cases ws with
      | nil => simp [List.intercalate]
      | cons w' ws =>
          have := ih (List.cons_ne_nil _ _)
          simp only [List.intercalate, List.intersperse_cons_cons, List.flatten_cons] at this ⊢
          simp [this]

/-- Under a wrapper of plain words, a command with none of `"`, `\`, `$` and backtick comes back
from `sh` as the wrapper's words followed by the command as one argument. -/
theorem parse_assembleCommand (exec : List Char) (ws : List (List Char)) (isCustom : Bool)
    (hws : ws ≠ []) (hw : ∀ w ∈ ws, plainWord w = true)
    (he : ∀ c ∈ exec, c ≠ '"' ∧ c ≠ '\\' ∧ c ≠ '$' ∧ c ≠ '\x60') :
    parse .posix (assembleCommand exec ([' '].intercalate ws) isCustom) =
      some ((if isCustom then [] else ["exec".toList]) ++ ws ++ [exec]) := by
  have hne : ([' '].intercalate ws).isEmpty = false := by
    obtain ⟨w, rest, rfl⟩ := List.exists_cons_of_ne_nil hws
    obtain ⟨c, w', rfl⟩ := List.exists_cons_of_ne_nil (plainWord_iff.1 (hw w (.head _))).1
    cases rest <;> rfl
  have hpre : ∀ w ∈ (if isCustom then [] else ["exec".toList]) ++ ws, plainWord w = true :=
    List.forall_mem_append.2 ⟨by cases isCustom <;> decide, hw⟩
  have hcmd : assembleCommand exec ([' '].intercalate ws) isCustom =
      ((if isCustom then [] else ["exec".toList]) ++ ws).flatMap (· ++ [' ']) ++
        '"' :: (exec ++ ['"']) := by
    rw [List.flatMap_append, ← intercalate_space_append hws]
    cases isCustom <;> simp [assembleCommand, hne]
  have hopen : ∀ ws' : List (List Char), step .posix ⟨ws', none, .unquoted⟩ '"' =
      some ⟨ws', some [], .doubleQuoted⟩ := fun _ => rfl
  simp only [hcmd, parse, List.foldlM_append, start, foldlM_plainWords _ hpre [],
    Option.bind_eq_bind, Option.some_bind, List.foldlM_cons, hopen, foldlM_doubleQuoted exec he]
  rfl

theorem parse_assembleCommand_systemdRun :
    parse .posix (assembleCommand "mpv 'a b.mp4'".toList
        ([' '].intercalate ["systemd-run".toList, "--user".toList]) false) =
      some ["exec".toList, "systemd-run".toList, "--user".toList, "mpv 'a b.mp4'".toList] :=
  parse_assembleCommand _ _ false (by decide) (by decide) (by decide)

/-- After words `W` and an opening single quote, `sh` reads `cmd` and a closing quote as the
words `W` and `cmd` exactly when `cmd` has no single quote: each character read adds at most one
character of output, and a quote inside `cmd` and the closing one add none. -/
theorem foldlM_singleQuoted_iff (W : List (List Char)) (cmd : List Char) :
    ((cmd ++ ['\'']).foldlM (step .posix) ⟨W, some [], .singleQuoted⟩ >>= finish) =
        some (W ++ [cmd]) ↔ '\'' ∉ cmd := by
  have hbody : ∀ s : List Char, '\'' ∉ s →
      s.foldlM (step .posix) ⟨W, some [], .singleQuoted⟩ = some ⟨W, some s, .singleQuoted⟩ := by
    intro s hs
    have := @foldlM_quoteBody ShDialect.posix s W []
    rwa [quoteBody_of_not_mem hs, List.nil_append] at this
  constructor
  · intro heq hq
    obtain ⟨k, hk⟩ := Option.ne_none_iff_exists'.1 (mt findQuote_eq_none.1 (not_not.2 hq))
    obtain ⟨hsplit, hpre⟩ := findQuote_eq_some hk
    obtain ⟨st₃, hfold, hfin⟩ := Option.bind_eq_some.1 heq
    have hclose : step .posix ⟨W, some (cmd.take k), .singleQuoted⟩ '\'' =
        some ⟨W, some (cmd.take k), .unquoted⟩ := rfl
    rw [hsplit, List.append_assoc, List.cons_append, List.foldlM_append, hbody _ hpre,
      Option.bind_eq_bind, Option.some_bind, List.foldlM_cons, hclose, Option.bind_eq_bind,
      Option.some_bind, List.foldlM_append] at hfold
    obtain ⟨st₂, h₂, h₃⟩ := Option.bind_eq_some.1 hfold
    simp only [List.foldlM_cons, List.foldlM_nil, bind_pure] at h₃
    have hm : st₃.mode = .unquoted := by
      unfold finish at hfin
      split_ifs at hfin with hm
      exact hm
    have e₁ := produced_step_quote h₃ hm
    have e₂ := produced_foldlM h₂
    have e₃ := finish_produced hfin
    have hp : (⟨W, some (cmd.take k), .unquoted⟩ : ShState).produced =
        W.flatten.length + (cmd.take k).length := by
      simp [ShState.produced, -List.length_flatten]
    have hlen := congrArg List.length hsplit
    rw [hp] at e₂
    simp only [List.flatten_append, List.flatten_cons, List.flatten_nil, List.append_nil,
      List.length_append] at e₃
    simp only [List.length_append, List.length_cons] at hlen
    omega
  · intro hq
    simp only [List.foldlM_append, hbody cmd hq, Option.bind_eq_bind, Option.some_bind]
    rfl

/-- `sh` reads `T -e S -c '<cmd>'` as the five words `T`, `-e`, `S`, `-c` and `cmd` exactly when
`cmd` has no single quote. -/
theorem parse_terminalCommand_iff {terminal shell : List Char} (cmd : List Char)
    (ht : plainWord terminal = true) (hs : plainWord shell = true) :
    parse .posix (terminal ++ " -e ".toList ++ shell ++ " -c '".toList ++ cmd ++ ['\'']) =
        some [terminal, "-e".toList, shell, "-c".toList, cmd] ↔ '\'' ∉ cmd := by
  have hwords : ∀ w ∈ [terminal, "-e".toList, shell, "-c".toList], plainWord w = true := by
    simp only [List.mem_cons, List.not_mem_nil, or_false, forall_eq_or_imp, forall_eq]
    exact ⟨ht, by decide, hs, by decide⟩
  have hmsg : terminal ++ " -e ".toList ++ shell ++ " -c '".toList ++ cmd ++ ['\''] =
      [terminal, "-e".toList, shell, "-c".toList].flatMap (· ++ [' ']) ++
        '\'' :: (cmd ++ ['\'']) := by
    simp
  have hopen : step .posix ⟨[terminal, "-e".toList, shell, "-c".toList], none, .unquoted⟩ '\'' =
      some ⟨[terminal, "-e".toList, shell, "-c".toList], some [], .singleQuoted⟩ := rfl
  rw [hmsg, parse, List.foldlM_append, start, foldlM_plainWords _ hwords []]
  simp only [Option.bind_eq_bind, Option.some_bind, List.nil_append]
  rw [List.foldlM_cons, hopen]
  simp only [Option.bind_eq_bind, Option.some_bind]
  exact foldlM_singleQuoted_iff [terminal, "-e".toList, shell, "-c".toList] cmd

/-- In terminal mode the i3 message is read by `sh` as the argument vector the direct `execlp`
passes exactly when the assembled command has no single quote. -/
theorem executeApp_terminal_i3_argv (exec wrapper terminal shell path : List Char)
    (isCustom : Bool) (ht : plainWord terminal = true) (hs : plainWord shell = true) :
    (executeApp exec wrapper terminal shell true isCustom (some path)).argv =
        (executeApp exec wrapper terminal shell true isCustom none).argv ↔
      '\'' ∉ assembleCommand exec wrapper isCustom :=
  parse_terminalCommand_iff _ ht hs

theorem executeApp_terminal_i3_mpv :
    (executeApp "mpv \"a b.mp4\"".toList [] "xterm".toList "/bin/sh".toList true false
        (some "/run/i3/ipc".toList)).argv =
      some ["xterm".toList, "-e".toList, "/bin/sh".toList, "-c".toList,
        "exec mpv \"a b.mp4\"".toList] :=
  ((executeApp_terminal_i3_argv _ _ _ _ _ false (by decide) (by decide)).2 (by decide)).trans rfl

end J4DmenuDesktop
