import J4DmenuDesktop.CMDLineAssembler.ExecQuirks

/-!
# The Exec quoting grammar

A key is a sequence of pieces, each an unquoted character other than `"` and
`\`, or a double-quoted string of characters other than `"` and `\` and of
backslashes before one of the four escapable characters. `validate_exec_key`
accepts exactly the keys that render from such pieces, and on each of them
`convert_exec_to_command` returns the decoded text split at the unquoted
spaces, keeping an empty argument between two spaces and dropping a trailing
one. So every key the validator accepts tokenizes without raising, whatever
the quirks. The Wine quirk reads a larger grammar, with backslashes also
outside quotes (`WinePiece`).
-/

namespace J4DmenuDesktop.CMDLineAssembly

/-- One item of a double-quoted string. -/
inductive QuotedItem
  | char (c : Char)
  | escape (c : Char)
  deriving DecidableEq, Repr

/-- One piece of an Exec key. -/
inductive ExecPiece
  | plain (c : Char)
  | quoted (body : List QuotedItem)
  deriving DecidableEq, Repr

namespace QuotedItem

def valid : QuotedItem → Bool
  | char c => c != '"' && c != '\\'
  | escape c => escapable c

def render : QuotedItem → List Char
  | char c => [c]
  | escape c => ['\\', c]

/-- The character an item stands for once quotes and escapes are removed. -/
def decode : QuotedItem → Char
  | char c => c
  | escape c => c

end QuotedItem

namespace ExecPiece

def valid : ExecPiece → Bool
  | plain c => c != '"' && c != '\\'
  | quoted body => body.all QuotedItem.valid

def render : ExecPiece → List Char
  | plain c => [c]
  | quoted body => '"' :: body.flatMap QuotedItem.render ++ ['"']

/-- Reading one piece into the finished arguments and the current one. -/
def split (acc : List (List Char) × List Char) : ExecPiece → List (List Char) × List Char
  | plain c => if c = ' ' then (acc.1 ++ [acc.2], []) else (acc.1, acc.2 ++ [c])
  | quoted body => (acc.1, acc.2 ++ body.map QuotedItem.decode)

theorem split_space (acc : List (List Char) × List Char) :
    split acc (plain ' ') = (acc.1 ++ [acc.2], []) := by
  simp [split]

end ExecPiece

/-- The Exec key a sequence of pieces is written as. -/
def renderPieces (ps : List ExecPiece) : List Char := ps.flatMap ExecPiece.render

theorem renderPieces_cons (p : ExecPiece) (ps : List ExecPiece) :
    renderPieces (p :: ps) = p.render ++ renderPieces ps :=
  List.flatMap_cons _ _ _

/-- The argument vector a sequence of pieces stands for: the decoded text split at unquoted
spaces, a trailing empty argument left out. -/
def execArguments (ps : List ExecPiece) : List (List Char) :=
  let r := ps.foldl ExecPiece.split ([], [])
  if r.2.isEmpty then r.1 else r.1 ++ [r.2]

/-! ## The validator accepts the grammar -/

/-- Inside quotes, the validator passes over a valid quoted body, one index per character. -/
theorem validateLoop_quotedBody (body : List QuotedItem) (hb : ∀ x ∈ body, x.valid = true)
    (rest : List Char) (i : Nat) :
    validateLoop (body.flatMap QuotedItem.render ++ rest) i true =
      validateLoop rest (i + (body.flatMap QuotedItem.render).length) true := by
  induction body generalizing i with
  | nil => rfl
  | cons x body ih =>
      have hx := hb x (.head _)
      have ih' := ih fun y hy => hb y (.tail _ hy)
      cases x with
      | char c =>
          simp only [QuotedItem.valid, Bool.and_eq_true, bne_iff_ne, ne_eq] at hx
          rw [List.flatMap_cons, QuotedItem.render, List.singleton_append, List.cons_append,
            validateLoop_plain_quoted hx.1 hx.2, ih']
          congr 1; simp; omega
      | escape c =>
          simp only [QuotedItem.valid] at hx
          rw [List.flatMap_cons, QuotedItem.render, List.append_assoc, List.cons_append,
            List.cons_append, List.nil_append, validateLoop_escape hx, ih']
          congr 1; simp; omega

/-- Outside quotes, the validator passes over valid pieces, one index per character. -/
theorem validateLoop_renderPieces_append (ps : List ExecPiece) (hv : ∀ p ∈ ps, p.valid = true)
    (rest : List Char) (i : Nat) :
    validateLoop (renderPieces ps ++ rest) i false =
      validateLoop rest (i + (renderPieces ps).length) false := by
  induction ps generalizing i with
  | nil => rfl
  | cons p ps ih =>
      have hp := hv p (.head _)
      have ih' := ih (fun q hq => hv q (.tail _ hq))
      cases p with
      | plain c =>
          simp only [ExecPiece.valid, Bool.and_eq_true, bne_iff_ne, ne_eq] at hp
          rw [renderPieces_cons, ExecPiece.render, List.singleton_append, List.cons_append,
            validateLoop_plain_unquoted hp.1 hp.2, ih']
          congr 1; simp [ExecPiece.render]; omega
      | quoted body =>
          simp only [ExecPiece.valid, List.all_eq_true] at hp
          simp only [renderPieces_cons, ExecPiece.render, List.cons_append, List.append_assoc,
            List.singleton_append, List.nil_append]
          rw [validateLoop_quote_unquoted, validateLoop_quotedBody body hp,
            validateLoop_quote_quoted, ih']
          congr 1; simp; omega

theorem validateLoop_renderPieces (ps : List ExecPiece) (hv : ∀ p ∈ ps, p.valid = true)
    (i : Nat) : validateLoop (renderPieces ps) i false = none := by
  simpa using validateLoop_renderPieces_append ps hv [] i

/-- What a run of the validator that reports nothing has read: inside quotes, the rest of a
quoted string, its closing quote and then pieces; outside, pieces. -/
theorem exists_pieces_of_validateLoop {e : List Char} {i : Nat} {q : Bool}
    (hv : validateLoop e i q = none) :
    ∃ (body : List QuotedItem) (ps : List ExecPiece), (∀ x ∈ body, x.valid = true) ∧
      (∀ p ∈ ps, p.valid = true) ∧
      e = (if q then body.flatMap QuotedItem.render ++ ['"'] else []) ++ renderPieces ps := by
  induction e, i, q using validateLoop.induct with
  | case1 => simp [validateLoop] at hv
  | case2 _ q hq => exact ⟨[], [], by simp, by simp, by simp [hq, renderPieces]⟩
  | case3 => simp [validateLoop] at hv
  | case4 next rest i hn ih =>
      obtain ⟨body, ps, hb, hp, rfl⟩ := ih (by simpa [validateLoop, hn] using hv)
      refine ⟨.escape next :: body, ps, ?_, hp, by simp [QuotedItem.render]⟩
      simpa [QuotedItem.valid, hn] using hb
  | case5 next rest i hn => simp [validateLoop, hn] at hv
  | case6 rest i ih =>
      obtain ⟨-, ps, -, hp, rfl⟩ := ih (by simpa [validateLoop] using hv)
      exact ⟨[], ps, by simp, hp, by simp⟩
  | case7 c rest i h1 h2 h3 ih =>
      have hc : c ≠ '\\' := fun h => by cases rest <;> simp_all
      have hq : c ≠ '"' := h3
      obtain ⟨body, ps, hb, hp, rfl⟩ := ih (by rw [← hv, validateLoop_plain_quoted hq hc])
      refine ⟨.char c :: body, ps, ?_, hp, by simp [QuotedItem.render]⟩
      simpa [QuotedItem.valid, hc, hq] using hb
  | case8 rest i ih =>
      obtain ⟨body, ps, hb, hp, rfl⟩ := ih (by simpa [validateLoop] using hv)
      refine ⟨[], .quoted body :: ps, by simp, ?_, by simp [renderPieces, ExecPiece.render]⟩
      simpa [ExecPiece.valid] using And.intro hb hp
  | case9 => simp [validateLoop] at hv
  | case10 c rest i h1 h2 ih =>
      have hq : c ≠ '"' := h1
      have hb : c ≠ '\\' := h2
      obtain ⟨-, ps, -, hp, rfl⟩ := ih (by rw [← hv, validateLoop_plain_unquoted hq hb])
      refine ⟨[], .plain c :: ps, by simp, ?_, by simp [renderPieces, ExecPiece.render]⟩
      simpa [ExecPiece.valid, hq, hb] using hp

/-- `validate_exec_key` accepts exactly the keys of the Exec grammar. -/
theorem validateExecKey_iff_grammar (e : List Char) :
    validateExecKey e = none ↔
      ∃ ps : List ExecPiece, (∀ p ∈ ps, p.valid = true) ∧ renderPieces ps = e := by
  constructor
  · intro hv
    obtain ⟨_, ps, _, hp, he⟩ := exists_pieces_of_validateLoop hv
    exact ⟨ps, hp, by simpa using he.symm⟩
  · rintro ⟨ps, hp, rfl⟩
    exact validateLoop_renderPieces ps hp 0

/-! ## The tokenizer reads what the grammar means -/

variable {quirks : ParsingQuirks}

/-- Inside quotes, the tokenizer appends what each item decodes to. -/
theorem foldlM_quotedBody (body : List QuotedItem) (hb : ∀ x ∈ body, x.valid = true)
    (result : List (List Char)) (curr : List Char) :
    (body.flatMap QuotedItem.render).foldlM (convertStep quirks) ⟨result, curr, true, false⟩ =
      .ok ⟨result, curr ++ body.map QuotedItem.decode, true, false⟩ := by
  induction body generalizing curr with
  | nil => simp; rfl
  | cons x body ih =>
      have hx := hb x (.head _)
      have ih' := ih fun y hy => hb y (.tail _ hy)
      cases x with
      | char c =>
          simp only [QuotedItem.valid, Bool.and_eq_true, bne_iff_ne, ne_eq] at hx
          simpa [QuotedItem.render, QuotedItem.decode, convertStep_quoted, hx.1, hx.2]
            using ih' (curr ++ [c])
      | escape c =>
          simp only [QuotedItem.valid] at hx
          simpa [QuotedItem.render, QuotedItem.decode, convertStep_quoted, convertStep_escaping, hx]
            using ih' (curr ++ [c])

/-- Without the multiple-spaces quirk, the tokenizer reads each piece as `ExecPiece.split`
does. -/
theorem foldlM_renderPieces (hm : quirks.multipleSpacesInExec = false) (ps : List ExecPiece)
    (hv : ∀ p ∈ ps, p.valid = true) (acc : List (List Char) × List Char) :
    (renderPieces ps).foldlM (convertStep quirks) ⟨acc.1, acc.2, false, false⟩ =
      .ok ⟨(ps.foldl ExecPiece.split acc).1, (ps.foldl ExecPiece.split acc).2, false, false⟩ := by
  induction ps generalizing acc with
  | nil => rfl
  | cons p ps ih =>
      have hp := hv p (.head _)
      have ih' := ih fun q hq => hv q (.tail _ hq)
      rw [renderPieces_cons, List.foldlM_append, List.foldl_cons]
      cases p with
      | plain c =>
          simp only [ExecPiece.valid, Bool.and_eq_true, bne_iff_ne, ne_eq] at hp
          by_cases hs : c = ' '
          · subst hs
            simpa [ExecPiece.render, ExecPiece.split, convertStep_unquoted, hm]
              using ih' (acc.1 ++ [acc.2], [])
          · simpa [ExecPiece.render, ExecPiece.split, convertStep_unquoted, hp.1, hp.2, hs]
              using ih' (acc.1, acc.2 ++ [c])
      | quoted body =>
          simp only [ExecPiece.valid, List.all_eq_true] at hp
          simpa [ExecPiece.render, ExecPiece.split, convertStep_unquoted, convertStep_quoted,
            List.foldlM_append, foldlM_quotedBody body hp]
            using ih' (acc.1, acc.2 ++ body.map QuotedItem.decode)

/-- On every key of the grammar, `convert_exec_to_command` without the multiple-spaces quirk
returns the arguments the key stands for. -/
theorem convertExecToCommand_renderPieces (ps : List ExecPiece) (hv : ∀ p ∈ ps, p.valid = true)
    (hm : quirks.multipleSpacesInExec = false) :
    convertExecToCommand (renderPieces ps) quirks = .ok (execArguments ps) := by
  have h := foldlM_renderPieces hm ps hv ([], [])
  rw [convertExecToCommand, TokenizerState.init, h]
  rfl

theorem convertExecToCommand_renderPieces_mpv :
    convertExecToCommand (renderPieces ("mpv ".toList.map .plain ++
        [.quoted [.char 'a', .char ' ', .escape '$', .char 'b']])) ParsingQuirks.none =
      .ok ["mpv".toList, "a $b".toList] :=
  (convertExecToCommand_renderPieces _ (by decide) rfl).trans rfl

/-- Every Exec key that `validate_exec_key` accepts tokenizes without `invalid_Exec`, under
every choice of quirks. -/
theorem convertExecToCommand_ok_of_validateExecKey (quirks : ParsingQuirks) {e : List Char}
    (hv : validateExecKey e = none) : ∃ argv, convertExecToCommand e quirks = .ok argv := by
  obtain ⟨_, ps, -, hp, he⟩ := exists_pieces_of_validateLoop hv
  simp only [Bool.false_eq_true, if_false, List.nil_append] at he
  have hrun (w : Bool) : e.foldlM (convertStep ⟨w, false⟩) TokenizerState.init =
      .ok ⟨(ps.foldl ExecPiece.split ([], [])).1, (ps.foldl ExecPiece.split ([], [])).2, false,
        false⟩ := by
    rw [he]
    exact @foldlM_renderPieces ⟨w, false⟩ rfl ps hp ([], [])
  obtain ⟨w, _ | _⟩ := quirks
  · exact ⟨_, by rw [convertExecToCommand, hrun]; rfl⟩
  · have h : e.foldlM (convertStep ⟨w, true⟩) TokenizerState.init = _ :=
      foldlM_multipleSpaces w e TokenizerState.init
    exact ⟨_, by rw [convertExecToCommand, h, hrun]; rfl⟩

/-- The validator's acceptance carried to a concrete key with a quoted escape. -/
theorem convertExecToCommand_ok_of_validateExecKey_quoted :
    validateExecKey "\"a\\$b\"".toList = none ∧
      ∃ argv, convertExecToCommand "\"a\\$b\"".toList ParsingQuirks.none = .ok argv :=
  ⟨by decide, convertExecToCommand_ok_of_validateExecKey _ (by decide)⟩

/-! ## The Wine dialect -/

/-- A piece of an Exec key in the dialect the Wine quirk reads: a piece of the grammar, or a
backslash outside quotes before any character. -/
inductive WinePiece
  | piece (p : ExecPiece)
  | escape (c : Char)
  deriving DecidableEq, Repr

namespace WinePiece

def valid : WinePiece → Bool
  | piece p => p.valid
  | escape _ => true

def render : WinePiece → List Char
  | piece p => p.render
  | escape c => ['\\', c]

/-- An unquoted escape keeps `"`, backtick, `$`, `\` and the space in the current argument and
drops any other character. -/
def split (acc : List (List Char) × List Char) : WinePiece → List (List Char) × List Char
  | piece p => p.split acc
  | escape c => (acc.1, acc.2 ++ if escapable c || c = ' ' then [c] else [])

end WinePiece

def renderWine (ps : List WinePiece) : List Char := ps.flatMap WinePiece.render

/-- The argument vector a key of the Wine dialect stands for. -/
def wineArguments (ps : List WinePiece) : List (List Char) :=
  let r := ps.foldl WinePiece.split ([], [])
  if r.2.isEmpty then r.1 else r.1 ++ [r.2]

/-- The Wine quirk's tokenizer reads each piece as `WinePiece.split` does. -/
theorem foldlM_renderWine (ps : List WinePiece) (hv : ∀ p ∈ ps, p.valid = true)
    (acc : List (List Char) × List Char) :
    (renderWine ps).foldlM (convertStep ⟨true, false⟩) ⟨acc.1, acc.2, false, false⟩ =
      .ok ⟨(ps.foldl WinePiece.split acc).1, (ps.foldl WinePiece.split acc).2, false,
        false⟩ := by
  induction ps generalizing acc with
  | nil => rfl
  | cons p ps ih =>
      have ih' := ih fun q hq => hv q (.tail _ hq)
      rw [renderWine, List.flatMap_cons, List.foldlM_append, List.foldl_cons]
      cases p with
      | piece p =>
          have h := @foldlM_renderPieces ⟨true, false⟩ rfl [p]
            (by simpa [WinePiece.valid] using hv _ (.head _)) acc
          simp only [renderPieces, List.flatMap_cons, List.flatMap_nil, List.append_nil,
            List.foldl_cons, List.foldl_nil] at h
          rw [WinePiece.render, h, except_ok_bind, WinePiece.split]
          exact ih' _
      | escape c =>
          rw [WinePiece.render, List.foldlM_cons, convertStep_unquoted _ _ rfl rfl,
            if_neg (by decide), if_neg (by decide), if_pos rfl, if_pos rfl, except_ok_bind,
            List.foldlM_cons, convertStep_escaping _ _ rfl]
          by_cases he : escapable c = true
          · simpa [he, WinePiece.split] using ih' (acc.1, acc.2 ++ [c])
          · by_cases hs : c = ' '
            · subst hs
              simpa [he, WinePiece.split] using ih' (acc.1, acc.2 ++ [' '])
            · simpa [he, hs, WinePiece.split] using ih' acc

/-- With the Wine quirk and without the multiple-spaces quirk, `convert_exec_to_command` reads
the grammar extended by backslashes outside quotes: on every such key it returns the decoded
text split at the unquoted spaces, where an unquoted `\c` keeps `c` in the current argument
when `c` is `"`, backtick, `$`, `\` or a space (so `\ ` does not split) and drops both
characters otherwise. -/
theorem convertExecToCommand_renderWine (ps : List WinePiece) (hv : ∀ p ∈ ps, p.valid = true) :
    convertExecToCommand (renderWine ps) ⟨true, false⟩ = .ok (wineArguments ps) := by
  have h := foldlM_renderWine ps hv ([], [])
  rw [convertExecToCommand, TokenizerState.init, h]
  rfl

/-- A Wine path: `wine C:\\w\ x` is two arguments, the second `C:\w x`. -/
theorem convertExecToCommand_renderWine_path :
    convertExecToCommand (renderWine ("wine C:".toList.map (.piece ∘ .plain) ++
        [.escape '\\', .piece (.plain 'w'), .escape ' ', .piece (.plain 'x')])) ⟨true, false⟩ =
      .ok ["wine".toList, "C:\\w x".toList] :=
  (convertExecToCommand_renderWine _ (by decide)).trans rfl

end J4DmenuDesktop.CMDLineAssembly
