import J4DmenuDesktop.CMDLineAssembler.SqQuote

/-!
# Parameter expansion and field splitting of POSIX `sh`

`wrap_command_in_wrapper` runs `/bin/sh -c 'wrap="$1"; shift; $wrap "$@"'`
with the wrapper and the argument vector as positional parameters: `shift`
drops the wrapper, the unquoted `$wrap` is split at blanks, and `"$@"` gives
every argument back as one field. So the program runs the wrapper's fields and
then the vector exactly as given; the wrapper is split but not read again, so
its quotes and backslashes stay as they are.

Modelled from the spec, a subset of `sh`: words of plain characters, `=`,
`"…"` spans and the parameters `$name`, `$0`…`$9`, `$@`; commands separated by
`;`; lone assignments; `shift`; the default `IFS`. Pathname expansion and every
other construct are outside the subset (`none`).
-/

namespace J4DmenuDesktop.Shell

/-! ## Words and their lexing -/

/-- One part of a word. -/
inductive WordPart
  /-- An unquoted character. -/
  | lit (c : Char)
  /-- A character inside `"…"`. -/
  | quoted (c : Char)
  /-- `$name`, `$0`…`$9` or `$@`, inside `"…"` or not. -/
  | param (name : List Char) (quoted : Bool)
  deriving DecidableEq, Repr

inductive Token
  | word (parts : List WordPart)
  | semi
  deriving DecidableEq, Repr

inductive LexMode
  | unquoted
  | doubleQuoted
  /-- Just after `$`. -/
  | dollar (quoted : Bool)
  /-- Reading the name of a parameter. -/
  | name (quoted : Bool) (acc : List Char)
  deriving DecidableEq, Repr

/-- The finished tokens, the word being read (`none` between words) and the mode. -/
structure LexState where
  tokens : List Token
  word : Option (List WordPart)
  mode : LexMode
  deriving DecidableEq, Repr

def LexState.add (st : LexState) (p : WordPart) : LexState :=
  { st with word := some (st.word.getD [] ++ [p]) }

def LexState.endWord (st : LexState) : List Token := st.tokens ++ (st.word.map Token.word).toList

/-- One character read outside a parameter name, inside `"…"` or not. -/
def lexBase (st : LexState) (quoted : Bool) (c : Char) : Option LexState :=
  if quoted then
    if c = '"' then some { st with mode := .unquoted }
    else if c = '$' then some { st with mode := .dollar true }
    else if c = '\\' ∨ c = '\x60' then none
    else some { st.add (.quoted c) with mode := .doubleQuoted }
  else
    if c = ' ' ∨ c = '\t' then some ⟨st.endWord, none, .unquoted⟩
    else if c = ';' then some ⟨st.endWord ++ [.semi], none, .unquoted⟩
    else if c = '"' then some { st with word := some (st.word.getD []), mode := .doubleQuoted }
    else if c = '$' then some { st with mode := .dollar false }
    else if plainChar c ∨ c = '=' then some { st.add (.lit c) with mode := .unquoted }
    else none

/-- One character of the lexer; a parameter name ends at the first character that cannot
continue it, which is then read as usual. -/
def lexStep (st : LexState) (c : Char) : Option LexState :=
  match st.mode with
  | .unquoted => lexBase st false c
  | .doubleQuoted => lexBase st true c
  | .dollar q =>
      if c = '@' ∨ c.isDigit then
        some { st.add (.param [c] q) with mode := if q then .doubleQuoted else .unquoted }
      else if c.isAlpha ∨ c = '_' then some { st with mode := .name q [c] }
      else none
  | .name q acc =>
      if c.isAlphanum ∨ c = '_' then some { st with mode := .name q (acc ++ [c]) }
      else lexBase (st.add (.param acc q)) q c

def lexFinish (st : LexState) : Option (List Token) :=
  match st.mode with
  | .unquoted => some st.endWord
  | .name false acc => some (st.add (.param acc false)).endWord
  | _ => none

def lex (s : List Char) : Option (List Token) :=
  s.foldlM lexStep ⟨[], none, .unquoted⟩ >>= lexFinish

/-- The commands of a token list: the words between two `;`. -/
def splitCommands (ts : List Token) : List (List (List WordPart)) :=
  let r := ts.foldl (fun (acc : List (List (List WordPart)) × List (List WordPart)) t =>
    match t with
    | .word w => (acc.1, acc.2 ++ [w])
    | .semi => (acc.1 ++ [acc.2], [])) ([], [])
  r.1 ++ [r.2]

/-! ## Expansion -/

/-- The blanks of the default `IFS`. -/
def ifsBlank (c : Char) : Bool := c == ' ' || c == '\t' || c == '\n'

/-- Field splitting with the default `IFS`: cut at runs of blanks, no empty field. -/
def ifsSplit (s : List Char) : List (List Char) :=
  (s.splitOnP ifsBlank).filter fun f => !f.isEmpty

/-- The characters pathname expansion looks at. -/
def patternChar (c : Char) : Bool := c == '*' || c == '?' || c == '['

/-- The shell's parameters: `$0`, the positional ones and the variables set so far. -/
structure ShVars where
  arg0 : List Char
  params : List (List Char)
  vars : List (List Char × List Char)

/-- The value of `$name` (not `$@`); unset is empty. -/
def paramValue (v : ShVars) (name : List Char) : List Char :=
  match name with
  | [c] =>
      if c = '0' then v.arg0
      else if c.isDigit then v.params.getD (c.toNat - '1'.toNat) []
      else ((v.vars.find? (·.1 = name)).map Prod.snd).getD []
  | _ => ((v.vars.find? (·.1 = name)).map Prod.snd).getD []

/-- The text of word parts that are not split: each character, and the value of each parameter
other than `$@`; an unquoted parameter is allowed only where `unquotedOk` says. -/
def partsText (v : ShVars) (unquotedOk : Bool) : List WordPart → Option (List Char)
  | [] => some []
  | .lit c :: ps => (partsText v unquotedOk ps).map (c :: ·)
  | .quoted c :: ps => (partsText v unquotedOk ps).map (c :: ·)
  | .param name q :: ps =>
      if name = ['@'] ∨ (q = false ∧ unquotedOk = false) then none
      else (partsText v unquotedOk ps).map (paramValue v name ++ ·)

/-- The fields a word expands to: `"$@"` gives each positional parameter, a lone unquoted
parameter is split at blanks, and a word of characters and quoted parameters is one field. -/
def expandWord (v : ShVars) (w : List WordPart) : Option (List (List Char)) :=
  match w with
  | [.param name true] => if name = ['@'] then some v.params else some [paramValue v name]
  | [.param name false] =>
      if name = ['@'] then none
      else if (paramValue v name).any patternChar then none
      else some (ifsSplit (paramValue v name))
  | parts => (partsText v false parts).map fun s => [s]

/-- The fields of the words of a command, in order. -/
def expandWords (v : ShVars) : List (List WordPart) → Option (List (List Char))
  | [] => some []
  | w :: ws => (expandWord v w).bind fun f => (expandWords v ws).map (f ++ ·)

/-- A word `name=value` whose name is made of unquoted characters: the name and the value. -/
def assignmentOf : List WordPart → List Char → Option (List Char × List WordPart)
  | .lit c :: rest, acc =>
      if c = '=' then
        if acc ≠ [] ∧ acc.all (fun c => c.isAlphanum ∨ c = '_') ∧
            acc.head?.all (fun c => !c.isDigit) then some (acc, rest)
        else none
      else assignmentOf rest (acc ++ [c])
  | _, _ => none

/-- The utility a command invokes with its fields, and what `shift` does to the parameters. -/
def invoke (v : ShVars) (argv : List (List Char)) : Option (ShVars × List (List (List Char))) :=
  if argv = [] then some (v, [])
  else if argv = ["shift".toList] then
    match v.params with
    | [] => none
    | _ :: ps => some ({ v with params := ps }, [argv])
  else if argv.head? = some "shift".toList then none
  else some (v, [argv])

/-- One simple command: a lone assignment sets a variable, expanded but not split; otherwise
the fields are invoked. -/
def runCommand (v : ShVars) (words : List (List WordPart)) :
    Option (ShVars × List (List (List Char))) :=
  match words with
  | [w] =>
      match assignmentOf w [] with
      | some (name, value) =>
          (partsText v true value).map fun s => ({ v with vars := (name, s) :: v.vars }, [])
      | none => (expandWord v w).bind (invoke v)
  | ws =>
      if (ws.head?.bind (assignmentOf · [])).isSome then none
      else (expandWords v ws).bind (invoke v)

/-- The argument vectors of the utilities a command list invokes, in order. -/
def runCommands (v : ShVars) : List (List (List WordPart)) → Option (List (List (List Char)))
  | [] => some []
  | c :: cs => (runCommand v c).bind fun r => (runCommands r.1 cs).map (r.2 ++ ·)

/-- `execve` of `sh -c script name args…`: the argument vectors of the utilities the script
invokes, with `$0` set to `name` and the positional parameters to `args`. -/
def shMinusC : List (List Char) → Option (List (List (List Char)))
  | _ :: c :: script :: name :: args =>
      if c = "-c".toList then
        (lex script).bind fun ts => runCommands ⟨name, args, []⟩ (splitCommands ts)
      else none
  | _ => none

/-! ## The inner shell of `wrap_command_in_wrapper` -/

/-- The script reads as the assignment, `shift`, and the command `$wrap "$@"`. -/
theorem lex_wrapScript :
    lex "wrap=\"$1\"; shift; $wrap \"$@\"".toList =
      some [.word ("wrap=".toList.map .lit ++ [.param ['1'] true]), .semi,
        .word ("shift".toList.map .lit), .semi,
        .word [.param "wrap".toList false], .word [.param ['@'] true]] := rfl

/-- `wrap="$1"` sets `wrap` to the first positional parameter, whole. -/
theorem runCommand_assignWrap (v : ShVars) :
    runCommand v [("wrap=".toList.map .lit ++ [.param ['1'] true])] =
      some ({ v with vars := ("wrap".toList, v.params.getD 0 []) :: v.vars }, []) := by
  simp [runCommand, assignmentOf, partsText, paramValue]

/-- `shift` drops the first positional parameter. -/
theorem runCommand_shift (v : ShVars) (p : List Char) (ps : List (List Char))
    (h : v.params = p :: ps) :
    runCommand v ["shift".toList.map .lit] = some ({ v with params := ps }, [["shift".toList]]) := by
  simp [runCommand, assignmentOf, expandWord, partsText, invoke, h]

/-- A utility other than `shift` is invoked with its fields and leaves the parameters alone. -/
theorem invoke_of_head (v : ShVars) {argv : List (List Char)}
    (h : argv.head? ≠ some "shift".toList) :
    invoke v argv = some (v, if argv = [] then [] else [argv]) := by
  have hne : argv ≠ ["shift".toList] := fun he => h (by rw [he]; rfl)
  unfold invoke
  by_cases h0 : argv = []
  · simp [h0]
  · rw [if_neg h0, if_neg hne, if_neg h, if_neg h0]

/-- A lone unquoted parameter is split at blanks, when its value has no pattern character. -/
theorem expandWord_unquoted (v : ShVars) {name : List Char} (h : name ≠ ['@'])
    (hp : (paramValue v name).any patternChar = false) :
    expandWord v [.param name false] = some (ifsSplit (paramValue v name)) := by
  simp [expandWord, h, hp]

/-- With `wrap` the last variable set, `$wrap "$@"` invokes the fields of `$wrap` followed by the
positional parameters, each kept whole. -/
theorem runCommand_wrapCall (v : ShVars) (W : List Char)
    (rest : List (List Char × List Char)) (hv : v.vars = ("wrap".toList, W) :: rest)
    (hw : W.any patternChar = false) (hs : (ifsSplit W ++ v.params).head? ≠ some "shift".toList) :
    runCommand v [[.param "wrap".toList false], [.param ['@'] true]] =
      some (v, if ifsSplit W ++ v.params = [] then [] else [ifsSplit W ++ v.params]) := by
  have hval : paramValue v "wrap".toList = W := by simp [paramValue, hv]
  have hwrap : expandWord v [.param "wrap".toList false] = some (ifsSplit W) := by
    rw [expandWord_unquoted v (by decide) (hval ▸ hw), hval]
  have hnot : assignmentOf [.param "wrap".toList false] [] = none := rfl
  have hat : expandWord v [.param ['@'] true] = some v.params := rfl
  have hfields : expandWords v [[.param "wrap".toList false], [.param ['@'] true]] =
      some (ifsSplit W ++ v.params) := by
    simp only [expandWords, hwrap, hat, Option.some_bind, Option.map_some', List.append_nil]
  simp only [runCommand, List.head?_cons, Option.some_bind, hnot, Option.isSome_none,
    Bool.false_eq_true, if_false, hfields]
  exact invoke_of_head v hs

end J4DmenuDesktop.Shell

namespace J4DmenuDesktop.CMDLineAssembly
open Shell

/-- `wrap_command_in_wrapper` has the inner shell invoke `shift`, then the wrapper's fields
followed by the argument vector exactly as given; the wrapper is split at blanks but not read
again, so its quotes and backslashes stay in the fields. -/
theorem shMinusC_wrapCommandInWrapper (command : List (List Char)) (wrapper : List Char)
    (hw : wrapper.any patternChar = false)
    (hs : (ifsSplit wrapper ++ command).head? ≠ some "shift".toList) :
    shMinusC (wrapCommandInWrapper command wrapper) =
      some (["shift".toList] ::
        if ifsSplit wrapper ++ command = [] then [] else [ifsSplit wrapper ++ command]) := by
  have hrun : shMinusC (wrapCommandInWrapper command wrapper) =
      runCommands ⟨"/bin/sh".toList, wrapper :: command, []⟩
        [[("wrap=".toList.map .lit ++ [.param ['1'] true])], ["shift".toList.map .lit],
          [[.param "wrap".toList false], [.param ['@'] true]]] := by
    simp only [wrapCommandInWrapper, List.cons_append, List.nil_append, shMinusC, if_pos]
    rw [lex_wrapScript, Option.some_bind]
    rfl
  have hcall := runCommand_wrapCall
    ⟨"/bin/sh".toList, command, [("wrap".toList, wrapper)]⟩ wrapper [] rfl hw hs
  rw [hrun, runCommands, runCommand_assignWrap, Option.some_bind, runCommands,
    runCommand_shift _ wrapper command rfl, Option.some_bind, runCommands]
  simp only [List.getD_cons_zero, hcall, Option.some_bind, runCommands, Option.map_some',
    List.append_nil, List.singleton_append, List.nil_append]

/-- A wrapper with a quoted argument: the inner shell splits it at blanks and keeps its quotes,
while each argument of the vector stays one field. -/
theorem shMinusC_wrapCommandInWrapper_firejail :
    "firejail --name=\"x y\"".toList.any patternChar = false ∧
      (ifsSplit "firejail --name=\"x y\"".toList ++ ["mpv".toList, "a b.mp4".toList]).head? ≠
        some "shift".toList ∧
      shMinusC (wrapCommandInWrapper ["mpv".toList, "a b.mp4".toList]
          "firejail --name=\"x y\"".toList) =
        some [["shift".toList], ["firejail".toList, "--name=\"x".toList, "y\"".toList,
          "mpv".toList, "a b.mp4".toList]] :=
  ⟨by decide, by decide,
    (shMinusC_wrapCommandInWrapper _ _ (by decide) (by decide)).trans (by decide)⟩

end J4DmenuDesktop.CMDLineAssembly
