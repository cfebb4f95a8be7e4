import J4DmenuDesktop.CMDLineAssembler.ExecGrammar

/-!
# Exec quoting read back by the tokenizer

`encodeExec` writes an argument vector as an Exec key: each argument in
`"…"` with `"`, backtick, `$` and `\` escaped, joined by single spaces. The
validator accepts every such key, and the tokenizer returns the vector, except
that an empty last argument is lost: the end-of-input flush keeps `curr` only
when it is non-empty, and nothing records that a quote started it.

An encoded vector is a sequence of pieces of the Exec grammar, one quoted
piece per argument with a space between two of them, so both facts come from
the grammar's lemmas and a computation of what those pieces stand for.
-/

namespace J4DmenuDesktop.CMDLineAssembly

/-- Escape one character for the inside of `"…"`. -/
def escapeExecChar (c : Char) : List Char := if escapable c then ['\\', c] else [c]

/-- One argument, double-quoted with its special characters escaped. -/
def quoteExecArg (a : List Char) : List Char := '"' :: a.flatMap escapeExecChar ++ ['"']

/-- The argument vector as an Exec key: quoted arguments joined by single spaces. -/
def encodeExec (args : List (List Char)) : List Char := [' '].intercalate (args.map quoteExecArg)

theorem encodeExec_cons (a : List Char) (rest : List (List Char)) :
    encodeExec (a :: rest) = quoteExecArg a ++ rest.flatMap fun x => ' ' :: quoteExecArg x := by
  induction rest generalizing a with
  | nil => simp [encodeExec, List.intercalate]
  | cons b rest ih =>
      rw [List.flatMap_cons, List.cons_append, ← ih b]
      simp [encodeExec, List.intercalate]

/-! ## Encoded vectors as pieces of the grammar -/

/-- The grammar item one character of an argument is written as. -/
def encodeItem (c : Char) : QuotedItem := if escapable c then .escape c else .char c

theorem encodeItem_render (c : Char) : (encodeItem c).render = escapeExecChar c := by
  unfold encodeItem escapeExecChar
  split <;> rfl

theorem encodeItem_decode (c : Char) : (encodeItem c).decode = c := by
  unfold encodeItem
  split <;> rfl

theorem encodeItem_valid (c : Char) : (encodeItem c).valid = true := by
  unfold encodeItem
  split
  · assumption
  · rename_i hc
    have h1 : c ≠ '"' := by rintro rfl; simp [escapable] at hc
    have h2 : c ≠ '\\' := by rintro rfl; simp [escapable] at hc
    simp [QuotedItem.valid, h1, h2]

/-- One argument as a quoted piece. -/
def argPiece (a : List Char) : ExecPiece := .quoted (a.map encodeItem)

/-- The pieces of an encoded vector: quoted arguments with an unquoted space between two. -/
def encodePieces : List (List Char) → List ExecPiece
  | [] => []
  | a :: rest => argPiece a :: rest.flatMap fun x => [.plain ' ', argPiece x]

theorem encodeExec_eq (args : List (List Char)) :
    encodeExec args = renderPieces (encodePieces args) := by
  have harg : ∀ a, (argPiece a).render = quoteExecArg a := fun a => by
    simp [argPiece, ExecPiece.render, quoteExecArg, List.flatMap_map, encodeItem_render]
  cases args with
  | nil => rfl
  | cons a rest =>
      rw [encodeExec_cons, encodePieces, renderPieces_cons, harg]
      congr 1
      induction rest with
      | nil => rfl
      | cons x rest ih =>
          simp only [List.flatMap_cons, List.cons_append, List.nil_append, renderPieces_cons, harg,
            ih]
          rfl

theorem encodePieces_valid (args : List (List Char)) : ∀ p ∈ encodePieces args, p.valid = true := by
  have harg : ∀ a, (argPiece a).valid = true := fun a => by
    simp [argPiece, ExecPiece.valid, encodeItem_valid]
  cases args with
  | nil => simp [encodePieces]
  | cons a rest =>
      simp only [encodePieces, List.mem_cons, List.mem_flatMap, forall_eq_or_imp, harg, true_and]
      rintro p ⟨x, -, hp⟩
      simp only [List.mem_cons, List.not_mem_nil, or_false] at hp
      rcases hp with rfl | rfl
      · rfl
      · exact harg x

theorem split_argPiece (acc : List (List Char) × List Char) (a : List Char) :
    ExecPiece.split acc (argPiece a) = (acc.1, acc.2 ++ a) := by
  simp [ExecPiece.split, argPiece, Function.comp_def, encodeItem_decode]

/-- Each further quoted argument closes the previous one. -/
theorem foldl_split_joined (rest : List (List Char)) (result : List (List Char)) (a : List Char) :
    (rest.flatMap fun x => [ExecPiece.plain ' ', argPiece x]).foldl ExecPiece.split (result, a) =
      (result ++ (a :: rest).dropLast, (a :: rest).getLast (List.cons_ne_nil _ _)) := by
  induction rest generalizing result a with
  | nil => simp
  | cons x rest ih =>
      simp only [List.flatMap_cons, List.cons_append, List.nil_append, List.foldl_cons,
        ExecPiece.split_space, split_argPiece, ih]
      simp

/-- The validator accepts every encoded vector. -/
theorem validateExecKey_encodeExec (args : List (List Char)) :
    validateExecKey (encodeExec args) = none := by
  rw [validateExecKey, encodeExec_eq]
  exact validateLoop_renderPieces _ (encodePieces_valid args) 0

variable {quirks : ParsingQuirks}

/-- The tokenizer reads an encoded vector back, except that an empty last argument is lost;
the validator accepts every encoded vector. -/
theorem convertExecToCommand_encodeExec (args : List (List Char))
    (hm : quirks.multipleSpacesInExec = false) :
    validateExecKey (encodeExec args) = none ∧
      convertExecToCommand (encodeExec args) quirks =
        .ok (if args.getLast? = some [] then args.dropLast else args) := by
  refine ⟨validateExecKey_encodeExec args, ?_⟩
  have h := foldlM_renderPieces hm (encodePieces args) (encodePieces_valid args) ([], [])
  rw [encodeExec_eq, convertExecToCommand, TokenizerState.init, h]
  cases args with
  | nil => rfl
  | cons a rest =>
      have hlast := List.dropLast_append_getLast (List.cons_ne_nil a rest)
      simp only [encodePieces, List.foldl_cons, split_argPiece, foldl_split_joined, Except.map,
        TokenizerState.flush, List.nil_append, List.getLast?_eq_getLast _ (List.cons_ne_nil a rest),
        Option.some.injEq, List.isEmpty_iff]
      split <;> simp_all

/-- A vector whose only argument is empty does not come back: the tokenizer returns `[]`. -/
theorem convertExecToCommand_encodeExec_empty_last :
    convertExecToCommand (encodeExec [[]]) ParsingQuirks.none ≠ .ok [[]] := by
  simp [show convertExecToCommand (encodeExec [[]]) ParsingQuirks.none = .ok [] from rfl]

/-- The amended round trip at a vector whose empty argument stands in the middle. -/
theorem convertExecToCommand_encodeExec_middle :
    ParsingQuirks.none.multipleSpacesInExec = false ∧
      (validateExecKey (encodeExec ["a".toList, [], "$b".toList]) = none ∧
        convertExecToCommand (encodeExec ["a".toList, [], "$b".toList]) ParsingQuirks.none =
          .ok (if ["a".toList, [], "$b".toList].getLast? = some [] then
            ["a".toList, [], "$b".toList].dropLast else ["a".toList, [], "$b".toList])) :=
  ⟨rfl, convertExecToCommand_encodeExec _ rfl⟩

end J4DmenuDesktop.CMDLineAssembly
