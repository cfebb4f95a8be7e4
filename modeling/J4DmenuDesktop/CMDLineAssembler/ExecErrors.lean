import J4DmenuDesktop.CMDLineAssembler.ExecGrammar

/-!
# What the Exec-key checks report

`validate_exec_key` stops at the first problem it meets and describes it,
numbering the backslash it blames from 1; `convert_exec_to_command` raises
`invalid_Exec` only for a backslash the Wine quirk would allow. A description
is exact (`ExecKeyError.Exact`) when its numbers point at the backslash it
names and the key before that point reads without error once an open quote is
closed. The validator reports exactly the exact descriptions: each is carried
back over the prefix the loop reads in one step, and after a valid prefix, or
one a `"` closes, the validator stands at the prefix's length, outside or
inside quotes. A key that one final `"` makes valid is a grammar key cut
inside its last quoted string, which the tokenizer reads without raising.
-/

namespace J4DmenuDesktop.CMDLineAssembly

/-! ## The validator's descriptions -/

/-- What `validate_exec_key` can report, with the 1-based character numbers it prints. -/
inductive ExecKeyError
  | unquotedEscape (n : Nat)
  | invalidEscape (c : Char) (n : Nat)
  | escapeAtEnd
  | missingEndQuote
  deriving DecidableEq, Repr

/-- The text `validate_exec_key` returns for each error. -/
def ExecKeyError.message : ExecKeyError → String
  | .unquotedEscape n => "Found unquoted escape sequence on character " ++ toString n ++
      " in the Exec field (character count is counted excluding \"Exec=\" part)"
  | .invalidEscape c n => "Found invalid escape sequence '\\" ++ String.singleton c ++
      "' on characters " ++ toString n ++ "-" ++ toString (n + 1) ++
      " in the Exec field (character count is counted excluding \"Exec=\" part)."
  | .escapeAtEnd => "Escape character '\\' found at enf of line! Nothing to escape!"
  | .missingEndQuote => "\"\" qouted string is missing the end quote in the Exec field."

/-- `err` describes the rest `rest` of a key, read from index `i` in quote state `q`, exactly:
the characters it numbers are a backslash and what follows it, and `rest` before them is read
without error, closed by a `"` where the error lies inside quotes. -/
def ExecKeyError.Exact (rest : List Char) (i : Nat) (q : Bool) : ExecKeyError → Prop
  | .unquotedEscape n => i < n ∧ rest[n - 1 - i]? = some '\\' ∧
      validateLoop (rest.take (n - 1 - i)) i q = none
  | .invalidEscape c n => i < n ∧ rest[n - 1 - i]? = some '\\' ∧ rest[n - i]? = some c ∧
      escapable c = false ∧ validateLoop (rest.take (n - 1 - i) ++ ['"']) i q = none
  | .escapeAtEnd => rest.getLast? = some '\\' ∧ validateLoop (rest.dropLast ++ ['"']) i q = none
  | .missingEndQuote => validateLoop (rest ++ ['"']) i q = none

instance (rest : List Char) (i : Nat) (q : Bool) : DecidablePred (ExecKeyError.Exact rest i q)
  | .unquotedEscape _ => instDecidableAnd
  | .invalidEscape _ _ => instDecidableAnd
  | .escapeAtEnd => instDecidableAnd
  | .missingEndQuote => inferInstanceAs (Decidable (validateLoop _ i q = none))

/-- An exact description of what follows a prefix `p` that the loop reads in one step, from
`i` in state `q` to `i + p.length` in state `q'`, is an exact description of the whole. -/
theorem ExecKeyError.Exact.of_step {p rest : List Char} {i : Nat} {q q' : Bool}
    {err : ExecKeyError}
    (hstep : ∀ xs, validateLoop (p ++ xs) i q = validateLoop xs (i + p.length) q')
    (h : err.Exact rest (i + p.length) q') : err.Exact (p ++ rest) i q := by
  cases err with
  | unquotedEscape n =>
      obtain ⟨hn, hc, hv⟩ := h
      have hk : n - 1 - i = p.length + (n - 1 - (i + p.length)) := by omega
      refine ⟨by omega, ?_, ?_⟩
      · rwa [hk, List.getElem?_append_right (by omega), Nat.add_sub_cancel_left]
      · rwa [hk, List.take_append, hstep]
  | invalidEscape c n =>
      obtain ⟨hn, hb, hc, he, hv⟩ := h
      have hk : n - 1 - i = p.length + (n - 1 - (i + p.length)) := by omega
      have hk' : n - i = p.length + (n - (i + p.length)) := by omega
      refine ⟨by omega, ?_, ?_, he, ?_⟩
      · rwa [hk, List.getElem?_append_right (by omega), Nat.add_sub_cancel_left]
      · rwa [hk', List.getElem?_append_right (by omega), Nat.add_sub_cancel_left]
      · rwa [hk, List.take_append, List.append_assoc, hstep]
  | escapeAtEnd =>
      obtain ⟨hl, hv⟩ := h
      have hr : rest ≠ [] := by rintro rfl; simp at hl
      refine ⟨by rwa [List.getLast?_append_of_ne_nil _ hr], ?_⟩
      rwa [List.dropLast_append_of_ne_nil _ hr, List.append_assoc, hstep]
  | missingEndQuote =>
      show validateLoop (p ++ rest ++ ['"']) i q = none
      rwa [List.append_assoc, hstep]

/-- Every error the validator's loop reports is one of its four descriptions, and exact. -/
theorem validateLoop_exact {rest : List Char} {i : Nat} {q : Bool} {msg : String}
    (h : validateLoop rest i q = some msg) :
    ∃ err : ExecKeyError, msg = err.message ∧ err.Exact rest i q := by
  induction rest, i, q using validateLoop.induct with
  | case1 i =>
      simp only [validateLoop, if_true, Option.some.injEq] at h
      exact ⟨.missingEndQuote, h.symm, rfl⟩
  | case2 i q hq => simp [validateLoop, hq] at h
  | case3 i =>
      simp only [validateLoop, Option.some.injEq] at h
      exact ⟨.escapeAtEnd, h.symm, rfl, rfl⟩
  | case4 next rest i hn ih =>
      obtain ⟨err, hm, he⟩ := ih (by rwa [validateLoop_escape hn] at h)
      exact ⟨err, hm, he.of_step (p := ['\\', next]) fun xs => validateLoop_escape hn xs i⟩
  | case5 next rest i hn =>
      simp only [validateLoop, hn, Bool.false_eq_true, if_false, Option.some.injEq] at h
      refine ⟨.invalidEscape next (i + 1), h.symm, by omega, by simp, by simp, by simpa using hn,
        ?_⟩
      simp [validateLoop]
  | case6 rest i ih =>
      exact (ih (by rwa [validateLoop_quote_quoted] at h)).imp fun err ⟨hm, he⟩ =>
        ⟨hm, he.of_step (p := ['"']) fun xs => validateLoop_quote_quoted xs i⟩
  | case7 c rest i h1 h2 h3 ih =>
      have hc : c ≠ '\\' := fun h => by cases rest <;> simp_all
      exact (ih (by rwa [validateLoop_plain_quoted h3 hc] at h)).imp fun err ⟨hm, he⟩ =>
        ⟨hm, he.of_step (p := [c]) fun xs => validateLoop_plain_quoted h3 hc xs i⟩
  | case8 rest i ih =>
      exact (ih (by rwa [validateLoop_quote_unquoted] at h)).imp fun err ⟨hm, he⟩ =>
        ⟨hm, he.of_step (p := ['"']) fun xs => validateLoop_quote_unquoted xs i⟩
  | case9 tail i =>
      simp only [validateLoop, Option.some.injEq] at h
      exact ⟨.unquotedEscape (i + 1), h.symm, by omega, by simp, by simp [validateLoop]⟩
  | case10 c rest i h1 h2 ih =>
      exact (ih (by rwa [validateLoop_plain_unquoted h1 h2] at h)).imp fun err ⟨hm, he⟩ =>
        ⟨hm, he.of_step (p := [c]) fun xs => validateLoop_plain_unquoted h1 h2 xs i⟩

/-- Every error `validate_exec_key` returns is one of its four descriptions, and an exact one:
the unquoted escape and the invalid escape are numbered, from 1, at their backslash, and the
key before it is valid (once closed by a `"` for the invalid escape, which lies inside quotes);
a dangling backslash ends the key inside quotes that are otherwise valid; and a key with a
missing end quote has nothing else wrong with it, so a final `"` makes it valid. -/
theorem validateExecKey_error_exact {e : List Char} {msg : String}
    (h : validateExecKey e = some msg) :
    ∃ err : ExecKeyError, msg = err.message ∧ err.Exact e 0 false :=
  validateLoop_exact h

/-- `"a\x"` is blamed on its third and fourth characters, where the quoted `\x` stands. -/
theorem validateExecKey_error_exact_x :
    validateExecKey "\"a\\x\"".toList = some (ExecKeyError.invalidEscape 'x' 3).message ∧
      ∃ err : ExecKeyError, (ExecKeyError.invalidEscape 'x' 3).message = err.message ∧
        err.Exact "\"a\\x\"".toList 0 false :=
  ⟨by decide, validateExecKey_error_exact (by decide)⟩

/-! ## What the tokenizer makes of what the validator rejects inside quotes -/

/-- A key that one final `"` makes valid is reported for its missing end quote. -/
theorem validateLoop_append_quote {xs : List Char} {i : Nat} {q : Bool}
    (h : validateLoop (xs ++ ['"']) i q = none) :
    validateLoop xs i q = some ExecKeyError.missingEndQuote.message := by
  induction xs, i, q using validateLoop.induct with
  | case7 c rest i h1 h2 h3 ih =>
      have hc : c ≠ '\\' := fun h => by cases rest <;> simp_all
      rw [List.cons_append, validateLoop_plain_quoted h3 hc] at h
      rw [validateLoop_plain_quoted h3 hc]
      exact ih h
  | _ => simp_all [validateLoop, escapable, ExecKeyError.message]

/-- A key that one final `"` makes valid is a valid key, an opening `"` and a quoted body. -/
theorem exists_quotedTail_of_append_quote {e : List Char}
    (h : validateExecKey (e ++ ['"']) = none) :
    ∃ (ps : List ExecPiece) (body : List QuotedItem), (∀ p ∈ ps, p.valid = true) ∧
      (∀ x ∈ body, x.valid = true) ∧ e = renderPieces ps ++ '"' :: body.flatMap QuotedItem.render := by
  obtain ⟨_, ps, -, hp, he⟩ := exists_pieces_of_validateLoop h
  simp only [Bool.false_eq_true, if_false, List.nil_append] at he
  rcases List.eq_nil_or_concat ps with rfl | ⟨ps', p, rfl⟩
  · simp [renderPieces] at he
  · rw [List.concat_eq_append] at hp he
    have hv := hp p (List.mem_append_right _ (List.mem_singleton_self p))
    rw [renderPieces, List.flatMap_append, List.flatMap_singleton] at he
    cases p with
    | plain c =>
        rw [ExecPiece.render] at he
        obtain ⟨-, hc⟩ := List.append_inj' he rfl
        simp only [List.cons.injEq, and_true] at hc
        simp [ExecPiece.valid, ← hc] at hv
    | quoted body =>
        rw [ExecPiece.render, ← List.append_assoc] at he
        exact ⟨ps', body, fun p hq => hp p (List.mem_append_left _ hq),
          by simpa [ExecPiece.valid] using hv, List.append_cancel_right he⟩

/-- Read with any quirks, a key that one final `"` makes valid ends inside quotes, not escaping. -/
theorem foldlM_of_append_quote (quirks : ParsingQuirks) {e : List Char}
    (h : validateExecKey (e ++ ['"']) = none) :
    ∃ st, e.foldlM (convertStep quirks) TokenizerState.init = .ok st ∧ st.inQuotes = true ∧
      st.escaping = false := by
  obtain ⟨ps, body, hp, hb, rfl⟩ := exists_quotedTail_of_append_quote h
  have hrun (w : Bool) : ∃ r c, (renderPieces ps ++ '"' :: body.flatMap QuotedItem.render).foldlM
      (convertStep ⟨w, false⟩) TokenizerState.init = .ok ⟨r, c, true, false⟩ := by
    have h1 : (renderPieces ps).foldlM (convertStep ⟨w, false⟩) TokenizerState.init = _ :=
      foldlM_renderPieces rfl ps hp ([], [])
    rw [List.foldlM_append, h1, except_ok_bind, List.foldlM_cons, convertStep_unquoted _ _ rfl rfl,
      if_pos rfl, except_ok_bind]
    exact ⟨_, _, foldlM_quotedBody body hb _ _⟩
  obtain ⟨w, m⟩ := quirks
  obtain ⟨r, c, hrc⟩ := hrun w
  cases m
  · exact ⟨_, hrc, rfl, rfl⟩
  · have h2 := foldlM_multipleSpaces w (renderPieces ps ++ '"' :: body.flatMap QuotedItem.render)
      TokenizerState.init
    rw [hrc] at h2
    exact ⟨_, h2, rfl, rfl⟩

/-- Closing the quote a run of the tokenizer ends inside changes none of its arguments. -/
theorem convertExecToCommand_append_quote {quirks : ParsingQuirks} {e : List Char}
    {st : TokenizerState} (hst : e.foldlM (convertStep quirks) TokenizerState.init = .ok st)
    (hq : st.inQuotes = true) (he : st.escaping = false) :
    convertExecToCommand (e ++ ['"']) quirks = convertExecToCommand e quirks := by
  rw [convertExecToCommand, convertExecToCommand, List.foldlM_append, hst, except_ok_bind,
    List.foldlM_cons, convertStep_quoted _ _ he hq, if_pos rfl]
  rfl

/-- `validate_exec_key` reports a missing end quote on every key that one final `"` makes
valid, and `convert_exec_to_command`, with any quirks, returns for such a key what it returns
for the key with that quote added: the unterminated quote is closed silently. -/
theorem validateExecKey_missingEndQuote (quirks : ParsingQuirks) {e : List Char}
    (h : validateExecKey (e ++ ['"']) = none) :
    validateExecKey e = some ExecKeyError.missingEndQuote.message ∧
      convertExecToCommand e quirks = convertExecToCommand (e ++ ['"']) quirks := by
  obtain ⟨st, hst, hq, he⟩ := foldlM_of_append_quote quirks h
  exact ⟨validateLoop_append_quote h, (convertExecToCommand_append_quote hst hq he).symm⟩

/-- `mpv "a b` is rejected for its missing quote and read as `mpv "a b"`. -/
theorem validateExecKey_missingEndQuote_mpv :
    validateExecKey ("mpv \"a b".toList ++ ['"']) = none ∧
      validateExecKey "mpv \"a b".toList = some ExecKeyError.missingEndQuote.message ∧
      convertExecToCommand "mpv \"a b".toList ParsingQuirks.none =
        convertExecToCommand ("mpv \"a b".toList ++ ['"']) ParsingQuirks.none :=
  ⟨by decide, validateExecKey_missingEndQuote ParsingQuirks.none (by decide)⟩

/-- Inside quotes, a backslash and a character that is not escapable and not a space leave
the tokenizer where it was. -/
theorem foldlM_invalidEscape (quirks : ParsingQuirks) {st : TokenizerState} {c : Char}
    (hq : st.inQuotes = true) (he : st.escaping = false) (hc : escapable c = false)
    (hs : c ≠ ' ') : ['\\', c].foldlM (convertStep quirks) st = .ok st := by
  obtain ⟨result, curr, q, esc⟩ := st
  cases hq
  cases he
  rw [List.foldlM_cons, convertStep_quoted _ _ rfl rfl, if_neg (by decide), if_pos rfl,
    except_ok_bind, List.foldlM_cons, convertStep_escaping _ _ rfl]
  simp [hc, hs]

/-- Inside quotes, `convert_exec_to_command` with any quirks drops an escape of a character other
than `"`, backtick, `$`, `\` and the space, both characters, and drops a backslash that ends the
key, closing the quote: the key reads as the key without them. -/
theorem convertExecToCommand_drops_invalid_escape (quirks : ParsingQuirks) {p r : List Char}
    {c : Char} (hp : validateExecKey (p ++ ['"']) = none) (hc : escapable c = false)
    (hs : c ≠ ' ') :
    convertExecToCommand (p ++ '\\' :: c :: r) quirks = convertExecToCommand (p ++ r) quirks ∧
      convertExecToCommand (p ++ ['\\']) quirks = convertExecToCommand (p ++ ['"']) quirks := by
  obtain ⟨st, hst, hq, he⟩ := foldlM_of_append_quote quirks hp
  refine ⟨?_, ?_⟩
  · rw [convertExecToCommand, convertExecToCommand, List.foldlM_append, List.foldlM_append, hst,
      except_ok_bind, except_ok_bind, show '\\' :: c :: r = ['\\', c] ++ r from rfl,
      List.foldlM_append, foldlM_invalidEscape quirks hq he hc hs, except_ok_bind]
  · rw [convertExecToCommand_append_quote hst hq he, convertExecToCommand, convertExecToCommand,
      List.foldlM_append, hst, except_ok_bind, List.foldlM_cons, convertStep_quoted _ _ he hq,
      if_neg (by decide), if_pos rfl, except_ok_bind]
    rfl

/-- In `"a\xb"` the quoted `\x` is dropped, and a final `\` after `"a` closes the quote. -/
theorem convertExecToCommand_drops_invalid_escape_x :
    validateExecKey ("\"a".toList ++ ['"']) = none ∧ escapable 'x' = false ∧ 'x' ≠ ' ' ∧
      convertExecToCommand ("\"a".toList ++ '\\' :: 'x' :: "b\"".toList) ParsingQuirks.none =
          convertExecToCommand ("\"a".toList ++ "b\"".toList) ParsingQuirks.none ∧
        convertExecToCommand ("\"a".toList ++ ['\\']) ParsingQuirks.none =
          convertExecToCommand ("\"a".toList ++ ['"']) ParsingQuirks.none :=
  ⟨by decide, rfl, by decide,
    convertExecToCommand_drops_invalid_escape ParsingQuirks.none (by decide) rfl (by decide)⟩

/-! ## The descriptions are complete -/

theorem drop_eq_cons_of_getElem? {l : List Char} {k : Nat} {c : Char} (h : l[k]? = some c) :
    l.drop k = c :: l.drop (k + 1) := by
  obtain ⟨hk, hc⟩ := List.getElem?_eq_some_iff.1 h
  rw [List.drop_eq_getElem_cons hk, hc]

/-- After a valid prefix the validator stands outside quotes, at the prefix's length. -/
theorem validateLoop_after_valid {p : List Char} (hp : validateExecKey p = none)
    (xs : List Char) : validateLoop (p ++ xs) 0 false = validateLoop xs p.length false := by
  obtain ⟨_, ps, -, hv, he⟩ := exists_pieces_of_validateLoop hp
  simp only [Bool.false_eq_true, if_false, List.nil_append] at he
  subst he
  simpa using validateLoop_renderPieces_append ps hv xs 0

/-- After a prefix that one closing `"` makes valid, the validator stands inside quotes. -/
theorem validateLoop_after_open_quote {p : List Char} (hp : validateExecKey (p ++ ['"']) = none)
    (xs : List Char) : validateLoop (p ++ xs) 0 false = validateLoop xs p.length true := by
  obtain ⟨ps, body, hv, hb, rfl⟩ := exists_quotedTail_of_append_quote hp
  rw [List.append_assoc, validateLoop_renderPieces_append ps hv, List.cons_append,
    validateLoop_quote_unquoted, validateLoop_quotedBody body hb]
  congr 1; simp; omega

/-- The validator's descriptions are complete: every exact description of a key is what
`validate_exec_key` returns for it. A valid key followed by a backslash is reported at that
backslash, an escape of anything but `"`, backtick, `$` and `\` after an open quote is reported
at its backslash with the character it escapes, a backslash ending a key inside quotes is
reported as dangling, and a key that one final `"` makes valid is reported for its quote. -/
theorem validateExecKey_of_exact {e : List Char} {err : ExecKeyError}
    (h : err.Exact e 0 false) : validateExecKey e = some err.message := by
  cases err with
  | unquotedEscape n =>
      obtain ⟨hn, hc, hv⟩ := h
      simp only [Nat.sub_zero] at hc hv
      have hlen : (e.take (n - 1)).length = n - 1 :=
        List.length_take_of_le (List.getElem?_eq_some_iff.1 hc).1.le
      rw [validateExecKey, ← List.take_append_drop (n - 1) e, validateLoop_after_valid hv,
        drop_eq_cons_of_getElem? hc, hlen]
      simp [validateLoop, ExecKeyError.message, Nat.sub_add_cancel hn]
  | invalidEscape c n =>
      obtain ⟨hn, hb, hc, he, hv⟩ := h
      simp only [Nat.sub_zero] at hb hc hv
      have hlen : (e.take (n - 1)).length = n - 1 :=
        List.length_take_of_le (List.getElem?_eq_some_iff.1 hb).1.le
      have hn' : n - 1 + 1 = n := by omega
      have hn2 : n - 1 + 2 = n + 1 := by omega
      rw [validateExecKey, ← List.take_append_drop (n - 1) e, validateLoop_after_open_quote hv,
        drop_eq_cons_of_getElem? hb, hn', drop_eq_cons_of_getElem? hc, hlen]
      simp [validateLoop, he, ExecKeyError.message, hn', hn2]
  | escapeAtEnd =>
      obtain ⟨hl, hv⟩ := h
      rw [validateExecKey, ← List.dropLast_append_getLast? _ hl, validateLoop_after_open_quote hv]
      rfl
  | missingEndQuote => exact validateLoop_append_quote h

/-- `echo \x` is reported at its sixth character. -/
theorem validateExecKey_of_exact_echo :
    (ExecKeyError.unquotedEscape 6).Exact "echo \\x".toList 0 false ∧
      validateExecKey "echo \\x".toList = some (ExecKeyError.unquotedEscape 6).message :=
  ⟨by decide, validateExecKey_of_exact (by decide)⟩

/-! ## The tokenizer's errors -/

/-- With the Wine quirk, no character makes the loop raise. -/
theorem convertStep_wineQuirk_ok (m : Bool) (st : TokenizerState) (c : Char) :
    ∃ st', convertStep ⟨true, m⟩ st c = .ok st' := by
  obtain ⟨result, curr, q, _ | _⟩ := st
  · cases q
    · rw [convertStep_unquoted _ _ rfl rfl]
      split_ifs <;> first | exact ⟨_, rfl⟩ | contradiction
    · rw [convertStep_quoted _ _ rfl rfl]
      split_ifs <;> exact ⟨_, rfl⟩
  · rw [convertStep_escaping _ _ rfl]
    split_ifs <;> first | exact ⟨_, rfl⟩ | contradiction

theorem foldlM_wineQuirk_ok (m : Bool) (xs : List Char) (st : TokenizerState) :
    ∃ st', xs.foldlM (convertStep ⟨true, m⟩) st = .ok st' := by
  induction xs generalizing st with
  | nil => exact ⟨st, rfl⟩
  | cons c xs ih =>
      obtain ⟨s, hs⟩ := convertStep_wineQuirk_ok m st c
      rw [List.foldlM_cons, hs]
      exact ih s

/-- With `extra_wine_escaping`, `convert_exec_to_command` never raises `invalid_Exec`: every
Exec key gives a vector, also one with an unterminated quote, a dangling backslash, a backslash
outside quotes or an escaped space. -/
theorem convertExecToCommand_wine_total (m : Bool) (e : List Char) :
    ∃ argv, convertExecToCommand e ⟨true, m⟩ = .ok argv := by
  obtain ⟨st, hst⟩ := foldlM_wineQuirk_ok m e TokenizerState.init
  exact ⟨st.flush, by rw [convertExecToCommand, hst]; rfl⟩

end J4DmenuDesktop.CMDLineAssembly
