import Mathlib.Data.List.Basic

/-!
# Token recognition and quote removal of POSIX `sh`

The shell that reads the command lines j4-dmenu-desktop builds. A line is cut
into words at unquoted spaces; a `'…'` span, a backslash outside quotes and,
where the dialect has them, a `"…"` span with its four escapes contribute
characters literally. A character the dialect does not take literally (the
start of an expansion, a glob, an operator) makes the parse fail, so a parse
that succeeds is one in which nothing is left to expansion.

## Implementation notes

`ShDialect.strict` understands only `'…'`, the backslash and the space.
`ShDialect.posix` adds `"…"` and the unquoted characters that POSIX `sh`
leaves alone. A word exists as soon as a quote or a backslash starts it, so
`''` is one empty word.
-/

namespace J4DmenuDesktop.Shell

/-- Which unquoted characters a shell takes as themselves, and whether it reads `"…"`. -/
structure ShDialect where
  literal : Char → Bool
  doubleQuotes : Bool

/-- Only `'…'`, the backslash and the space separator; every other unquoted character fails. -/
def ShDialect.strict : ShDialect := ⟨fun _ => false, false⟩

/-- Characters without a special meaning to POSIX `sh` outside quotes. -/
def plainChar (c : Char) : Bool :=
  c.isAlphanum || c == '-' || c == '_' || c == '.' || c == '/' || c == ':' || c == ',' ||
    c == '+' || c == '@' || c == '%'

/-- POSIX `sh`: plain characters, `'…'`, `"…"` and the backslash. -/
def ShDialect.posix : ShDialect := ⟨plainChar, true⟩

inductive Mode
  | unquoted
  | singleQuoted
  | escaped
  | doubleQuoted
  | doubleEscaped
  deriving DecidableEq, Repr

/-- The finished words, the word being read (`none` between words) and the quoting mode. -/
structure ShState where
  words : List (List Char)
  word : Option (List Char)
  mode : Mode
  deriving DecidableEq, Repr

/-- Append characters to the current word, starting it if needed. -/
def ShState.push (st : ShState) (s : List Char) : ShState :=
  { st with word := some (st.word.getD [] ++ s) }

/-- Enter a quoting mode; the quote itself starts a word. -/
def ShState.enter (st : ShState) (m : Mode) : ShState :=
  { st with word := some (st.word.getD []), mode := m }

/-- One character of token recognition; `none` is a character that is not literal here. -/
def step (d : ShDialect) (st : ShState) (c : Char) : Option ShState :=
  match st.mode with
  | .unquoted =>
      if c = ' ' then some ⟨st.words ++ st.word.toList, none, .unquoted⟩
      else if c = '\'' then some (st.enter .singleQuoted)
      else if c = '\\' then some (st.enter .escaped)
      else if c = '"' ∧ d.doubleQuotes then some (st.enter .doubleQuoted)
      else if d.literal c then some (st.push [c])
      else none
  | .singleQuoted => if c = '\'' then some { st with mode := .unquoted } else some (st.push [c])
  | .escaped => some { st.push [c] with mode := .unquoted }
  | .doubleQuoted =>
      if c = '"' then some { st with mode := .unquoted }
      else if c = '\\' then some { st with mode := .doubleEscaped }
      else if c = '$' ∨ c = '\x60' then none
      else some (st.push [c])
  | .doubleEscaped =>
      if c = '$' ∨ c = '\x60' ∨ c = '"' ∨ c = '\\' then
        some { st.push [c] with mode := .doubleQuoted }
      else if c = '\n' then some { st with mode := .doubleQuoted }
      else some { st.push ['\\', c] with mode := .doubleQuoted }

def start : ShState := ⟨[], none, .unquoted⟩

/-- End of input: an open quote or a dangling backslash is an error. -/
def finish (st : ShState) : Option (List (List Char)) :=
  if st.mode = .unquoted then some (st.words ++ st.word.toList) else none

/-- The words `sh` recovers from a command line, if it reads it without expansion. -/
def parse (d : ShDialect) (s : List Char) : Option (List (List Char)) :=
  s.foldlM (step d) start >>= finish

/-! ## Plain words and quoted spans -/

/-- A plain word: non-empty, and every character one POSIX `sh` takes as itself. -/
def plainWord (w : List Char) : Bool := !w.isEmpty && w.all plainChar

theorem plainWord_iff {w : List Char} :
    plainWord w = true ↔ w ≠ [] ∧ ∀ c ∈ w, plainChar c = true := by
  simp [plainWord]

theorem plainChar_ne {c : Char} (h : plainChar c = true) :
    c ≠ ' ' ∧ c ≠ '\'' ∧ c ≠ '\\' ∧ c ≠ '"' := by
  refine ⟨?_, ?_, ?_, ?_⟩ <;> rintro rfl <;> exact absurd h (by decide)

/-- An unquoted plain character extends the current word. -/
theorem step_plain {c : Char} (h : plainChar c = true) (ws : List (List Char))
    (o : Option (List Char)) :
    step .posix ⟨ws, o, .unquoted⟩ c = some ⟨ws, some (o.getD [] ++ [c]), .unquoted⟩ := by
  obtain ⟨h1, h2, h3, h4⟩ := plainChar_ne h
  simp [step, h1, h2, h3, h4, ShDialect.posix, h, ShState.push]

theorem foldlM_plain (s : List Char) (hs : ∀ c ∈ s, plainChar c = true) (ws : List (List Char))
    (acc : List Char) :
    s.foldlM (step .posix) ⟨ws, some acc, .unquoted⟩ = some ⟨ws, some (acc ++ s), .unquoted⟩ := by
  induction s generalizing acc with
  | nil => simp
  | cons c s ih =>
      rw [List.foldlM_cons, step_plain (hs c (.head _)), Option.bind_eq_bind, Option.some_bind,
        ih (fun x hx => hs x (.tail _ hx))]
      simp

/-- A plain word followed by a space is one more finished word. -/
theorem foldlM_plainWord {w : List Char} (hw : plainWord w = true) (ws : List (List Char)) :
    (w ++ [' ']).foldlM (step .posix) ⟨ws, none, .unquoted⟩ =
      some ⟨ws ++ [w], none, .unquoted⟩ := by
  obtain ⟨hne, hs⟩ := plainWord_iff.1 hw
  obtain ⟨c, s, rfl⟩ := List.exists_cons_of_ne_nil hne
  rw [List.cons_append, List.foldlM_cons, step_plain (hs c (.head _)), Option.bind_eq_bind,
    Option.some_bind, List.foldlM_append, foldlM_plain s (fun x hx => hs x (.tail _ hx)),
    Option.bind_eq_bind, Option.some_bind]
  rfl

/-- Plain words, each followed by a space, are read as those words. -/
theorem foldlM_plainWords (ws : List (List Char)) (hws : ∀ w ∈ ws, plainWord w = true)
    (acc : List (List Char)) :
    (ws.flatMap (· ++ [' '])).foldlM (step .posix) ⟨acc, none, .unquoted⟩ =
      some ⟨acc ++ ws, none, .unquoted⟩ := by
  induction ws generalizing acc with
  | nil => simp
  | cons w ws ih =>
      rw [List.flatMap_cons, List.foldlM_append, foldlM_plainWord (hws w (.head _)),
        Option.bind_eq_bind, Option.some_bind, ih (fun x hx => hws x (.tail _ hx))]
      simp

variable {d : ShDialect}

/-- Closing a word at an unquoted space. -/
theorem step_space (ws : List (List Char)) (w : Option (List Char)) :
    step d ⟨ws, w, .unquoted⟩ ' ' = some ⟨ws ++ w.toList, none, .unquoted⟩ := rfl

/-- Inside `"…"`, characters other than `"`, `\`, `$` and backtick are copied. -/
theorem foldlM_doubleQuoted (s : List Char)
    (hs : ∀ c ∈ s, c ≠ '"' ∧ c ≠ '\\' ∧ c ≠ '$' ∧ c ≠ '\x60') (ws : List (List Char))
    (acc : List Char) :
    s.foldlM (step d) ⟨ws, some acc, .doubleQuoted⟩ =
      some ⟨ws, some (acc ++ s), .doubleQuoted⟩ := by
  induction s generalizing acc with
  | nil => simp
  | cons c s ih =>
      obtain ⟨h1, h2, h3, h4⟩ := hs c (.head _)
      have hc : step d ⟨ws, some acc, .doubleQuoted⟩ c =
          some ⟨ws, some (acc ++ [c]), .doubleQuoted⟩ := by
        simp [step, h1, h2, h3, h4, ShState.push]
      rw [List.foldlM_cons, hc, Option.bind_eq_bind, Option.some_bind,
        ih (fun x hx => hs x (.tail _ hx))]
      simp

/-! ## Quote removal never lengthens -/

/-- The characters of the words read so far, a pending backslash counted as one. -/
def ShState.produced (st : ShState) : Nat :=
  (st.words.flatten ++ st.word.getD []).length +
    if st.mode = .escaped ∨ st.mode = .doubleEscaped then 1 else 0

theorem flatten_toList (w : Option (List Char)) : w.toList.flatten = w.getD [] := by
  cases w <;> simp

/-- Each character read adds at most one character to the output. -/
theorem produced_step {st st' : ShState} {c : Char} (h : step d st c = some st') :
    st'.produced ≤ st.produced + 1 := by
  obtain ⟨ws, w, m⟩ := st
  cases m <;> simp only [step] at h <;> (try split_ifs at h) <;> cases h <;>
    simp [ShState.produced, ShState.push, ShState.enter, flatten_toList, -List.length_flatten] <;>
    omega

theorem produced_foldlM {s : List Char} {st st' : ShState} (h : s.foldlM (step d) st = some st') :
    st'.produced ≤ st.produced + s.length := by
  induction s generalizing st with
  | nil => cases h; simp
  | cons c s ih =>
      rw [List.foldlM_cons] at h
      obtain ⟨st₁, h₁, h₂⟩ := Option.bind_eq_some.1 h
      have := produced_step h₁
      have := ih h₂
      simp only [List.length_cons]
      omega

/-- A single quote after which the shell is outside quotes adds nothing to the output. -/
theorem produced_step_quote {st st' : ShState} (h : step d st '\'' = some st')
    (hm : st'.mode = .unquoted) : st'.produced ≤ st.produced := by
  obtain ⟨ws, w, m⟩ := st
  cases m with
  | unquoted => simp [step] at h; subst h; cases hm
  | singleQuoted => simp [step] at h; subst h; simp [ShState.produced]
  | escaped => simp [step] at h; subst h; simp [ShState.produced, ShState.push]; omega
  | doubleQuoted => simp [step] at h; subst h; cases hm
  | doubleEscaped => simp [step] at h; subst h; cases hm

theorem finish_produced {st : ShState} {ws : List (List Char)} (h : finish st = some ws) :
    ws.flatten.length = st.produced := by
  obtain ⟨ws', w, m⟩ := st
  simp only [finish] at h
  split_ifs at h with hm
  cases h
  simp [ShState.produced, hm, flatten_toList, -List.length_flatten]

end J4DmenuDesktop.Shell
