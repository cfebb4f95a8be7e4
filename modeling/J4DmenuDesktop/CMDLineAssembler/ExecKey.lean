import Mathlib.Data.List.Basic

/-!
# `validate_exec_key` and `convert_exec_to_command`

Two separately written state machines over the Exec key. The validator walks
the key by index with a one-character lookahead for escapes and reports the
first error as text. The tokenizer splits the key into arguments on unquoted
spaces, with a transient escaping state, and raises `invalid_Exec` only where
no enabled quirk covers the character.

## Implementation notes

A `Char` stands for one byte of the key's `std::string_view`: the source
indexes bytes, so on a key with non-ASCII characters the numbers the validator
prints and the escapes the tokenizer drops are those of its bytes, not of its
Unicode characters. The tokenizer's `has_*_warning_been_printed` flags only
gate log output and are left out; the default `{false, false}` of
`convert_exec_to_command` is `ParsingQuirks.none`.
-/

namespace J4DmenuDesktop

/-- `ParsingQuirks`: relaxations of the Exec grammar. -/
structure ParsingQuirks where
  extraWineEscaping : Bool
  multipleSpacesInExec : Bool
  deriving DecidableEq, Repr

/-- The quirks `convert_exec_to_command` uses when none are given, and `disable()`. -/
def ParsingQuirks.none : ParsingQuirks := ⟨false, false⟩

namespace CMDLineAssembly

/-- `invalid_Exec`, with its `what()` text. -/
structure InvalidExec where
  what : String
  deriving DecidableEq, Repr

/-- The four characters an escape inside `"…"` may protect: `"`, backtick, `$`, `\`. -/
def escapable (c : Char) : Bool := c == '"' || c == '\x60' || c == '$' || c == '\\'

/-- The `for` loop of `validate_exec_key` from index `i`, with `in_quotes`. -/
def validateLoop : List Char → Nat → Bool → Option String
  | [], _, inQuotes =>
      if inQuotes then some "\"\" qouted string is missing the end quote in the Exec field."
      else none
  | ['\\'], _, true => some "Escape character '\\' found at enf of line! Nothing to escape!"
  | '\\' :: next :: rest, i, true =>
      if escapable next then validateLoop rest (i + 2) true
      else some ("Found invalid escape sequence '\\" ++ String.singleton next ++
        "' on characters " ++ toString (i + 1) ++ "-" ++ toString (i + 2) ++
        " in the Exec field (character count is counted excluding \"Exec=\" part).")
  | '"' :: rest, i, true => validateLoop rest (i + 1) false
  | _ :: rest, i, true => validateLoop rest (i + 1) true
  | '"' :: rest, i, false => validateLoop rest (i + 1) true
  | '\\' :: _, i, false =>
      some ("Found unquoted escape sequence on character " ++ toString (i + 1) ++
        " in the Exec field (character count is counted excluding \"Exec=\" part)")
  | _ :: rest, i, false => validateLoop rest (i + 1) false

/-- `validate_exec_key`: `none` when the key is valid, else the first error's description. -/
def validateExecKey (execKey : List Char) : Option String := validateLoop execKey 0 false

/-- Outside quotes, a character other than `"` and `\` is passed over. -/
theorem validateLoop_plain_unquoted {c : Char} (h1 : c ≠ '"') (h2 : c ≠ '\\') (rest : List Char)
    (i : Nat) : validateLoop (c :: rest) i false = validateLoop rest (i + 1) false := by
  simp [validateLoop, h1, h2]

/-- Inside quotes, a character other than `"` and `\` is passed over. -/
theorem validateLoop_plain_quoted {c : Char} (h1 : c ≠ '"') (h2 : c ≠ '\\') (rest : List Char)
    (i : Nat) : validateLoop (c :: rest) i true = validateLoop rest (i + 1) true := by
  cases rest <;> simp [validateLoop, h1, h2]

/-- A double quote opens a quoted string. -/
theorem validateLoop_quote_unquoted (rest : List Char) (i : Nat) :
    validateLoop ('"' :: rest) i false = validateLoop rest (i + 1) true := by
  simp [validateLoop]

/-- Inside quotes, a backslash before an escapable character is passed over with it. -/
theorem validateLoop_escape {c : Char} (h : escapable c = true) (rest : List Char) (i : Nat) :
    validateLoop ('\\' :: c :: rest) i true = validateLoop rest (i + 2) true := by
  simp [validateLoop, h]

/-- A double quote closes a quoted string. -/
theorem validateLoop_quote_quoted (rest : List Char) (i : Nat) :
    validateLoop ('"' :: rest) i true = validateLoop rest (i + 1) false := by
  simp [validateLoop]

/-- The locals of `convert_exec_to_command`'s loop. -/
structure TokenizerState where
  result : List (List Char)
  curr : List Char
  inQuotes : Bool
  escaping : Bool
  deriving DecidableEq, Repr

def TokenizerState.init : TokenizerState := ⟨[], [], false, false⟩

/-- One iteration of the loop over the Exec key; each `switch (ch)` is an if-chain over its
cases in order, the four cases that append their own character taken together. -/
def convertStep (quirks : ParsingQuirks) (st : TokenizerState) (ch : Char) :
    Except InvalidExec TokenizerState :=
  if st.escaping then
    if escapable ch then .ok { st with curr := st.curr ++ [ch], escaping := false }
    else if ch = ' ' then
      if quirks.extraWineEscaping then .ok { st with curr := st.curr ++ [' '], escaping := false }
      else .error ⟨"Found invalid escape sequence `\\ ` in the Exec key!"⟩
    else .ok { st with escaping := false }
  else if st.inQuotes then
    if ch = '"' then .ok { st with inQuotes := false }
    else if ch = '\\' then .ok { st with escaping := true }
    else .ok { st with curr := st.curr ++ [ch] }
  else
    if ch = '"' then .ok { st with inQuotes := true }
    else if ch = ' ' then
      if quirks.multipleSpacesInExec && st.curr.isEmpty then .ok st
      else .ok { st with result := st.result ++ [st.curr], curr := [] }
    else if ch = '\\' then
      if quirks.extraWineEscaping then .ok { st with escaping := true }
      else .error ⟨"Found '\\' unquoted in Exec!"⟩
    else .ok { st with curr := st.curr ++ [ch] }

/-- After the loop: a non-empty `curr` is the last argument. -/
def TokenizerState.flush (st : TokenizerState) : List (List Char) :=
  if st.curr.isEmpty then st.result else st.result ++ [st.curr]

/-- `convert_exec_to_command`. -/
def convertExecToCommand (execKey : List Char) (quirks : ParsingQuirks) :
    Except InvalidExec (List (List Char)) :=
  (execKey.foldlM (convertStep quirks) TokenizerState.init).map TokenizerState.flush

/-! ## One lemma per state of the tokenizer -/

section
variable (quirks : ParsingQuirks) {st : TokenizerState} (c : Char)

theorem convertStep_escaping (he : st.escaping = true) :
    convertStep quirks st c =
      if escapable c then .ok { st with curr := st.curr ++ [c], escaping := false }
      else if c = ' ' then
        if quirks.extraWineEscaping then .ok { st with curr := st.curr ++ [' '], escaping := false }
        else .error ⟨"Found invalid escape sequence `\\ ` in the Exec key!"⟩
      else .ok { st with escaping := false } := by
  simp only [convertStep, he, if_true]

theorem convertStep_quoted (he : st.escaping = false) (hq : st.inQuotes = true) :
    convertStep quirks st c =
      if c = '"' then .ok { st with inQuotes := false }
      else if c = '\\' then .ok { st with escaping := true }
      else .ok { st with curr := st.curr ++ [c] } := by
  simp only [convertStep, he, hq, Bool.false_eq_true, if_false, if_true]

theorem convertStep_unquoted (he : st.escaping = false) (hq : st.inQuotes = false) :
    convertStep quirks st c =
      if c = '"' then .ok { st with inQuotes := true }
      else if c = ' ' then
        if quirks.multipleSpacesInExec && st.curr.isEmpty then .ok st
        else .ok { st with result := st.result ++ [st.curr], curr := [] }
      else if c = '\\' then
        if quirks.extraWineEscaping then .ok { st with escaping := true }
        else .error ⟨"Found '\\' unquoted in Exec!"⟩
      else .ok { st with curr := st.curr ++ [c] } := by
  simp only [convertStep, he, hq, Bool.false_eq_true, if_false]

end

@[simp] theorem except_ok_bind {ε α β : Type} (a : α) (f : α → Except ε β) :
    (Except.ok a >>= f) = f a := rfl

/-- The tokenizer accepts keys the validator rejects: an invalid escape inside quotes is
dropped, and an unterminated quote is closed silently. -/
theorem convertExecToCommand_accepts_rejected_keys :
    validateExecKey "\"\\a\"".toList = some ("Found invalid escape sequence '\\a' on " ++
        "characters 2-3 in the Exec field (character count is counted excluding \"Exec=\" part).") ∧
      convertExecToCommand "\"\\a\"".toList ParsingQuirks.none = .ok [] ∧
      validateExecKey "\"abc".toList =
        some "\"\" qouted string is missing the end quote in the Exec field." ∧
      convertExecToCommand "\"abc".toList ParsingQuirks.none = .ok ["abc".toList] :=
  ⟨by decide, rfl, by decide, rfl⟩

end CMDLineAssembly
end J4DmenuDesktop
