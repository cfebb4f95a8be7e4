import J4DmenuDesktop.CMDLineAssembler.ExecKey

/-!
# What each parsing quirk changes

Two-run relations between `convert_exec_to_command` with a quirk and without
it, each from a lockstep simulation of the two loops. The multiple-spaces
quirk runs the quirk-free loop with the empty arguments removed from its
`result` at every step; the Wine quirk takes every step the quirk-free loop
takes without raising.
-/

namespace J4DmenuDesktop.CMDLineAssembly

/-! ## The multiple-spaces quirk -/

/-- The arguments collected so far, without the empty ones. -/
def TokenizerState.dropEmpty (st : TokenizerState) : TokenizerState :=
  { st with result := st.result.filter fun a => !a.isEmpty }

/-- One step with the quirk is one step without it, the empty arguments dropped. -/
theorem convertStep_multipleSpaces (w : Bool) (st : TokenizerState) (c : Char) :
    convertStep ⟨w, true⟩ st.dropEmpty c =
      (convertStep ⟨w, false⟩ st c).map TokenizerState.dropEmpty := by
  obtain ⟨result, curr, q, _ | _⟩ := st
  · cases q
    · simp only [TokenizerState.dropEmpty, convertStep_unquoted]
      by_cases hs : c = ' '
      · have hq : c ≠ '"' := by rw [hs]; decide
        cases curr <;> simp [hs, hq, Except.map, TokenizerState.dropEmpty, List.filter_append]
      · split_ifs <;> rfl
    · simp only [TokenizerState.dropEmpty, convertStep_quoted]
      split_ifs <;> rfl
  · simp only [TokenizerState.dropEmpty, convertStep_escaping]
    split_ifs <;> rfl

theorem foldlM_multipleSpaces (w : Bool) (xs : List Char) (st : TokenizerState) :
    xs.foldlM (convertStep ⟨w, true⟩) st.dropEmpty =
      (xs.foldlM (convertStep ⟨w, false⟩) st).map TokenizerState.dropEmpty := by
  induction xs generalizing st with
  | nil => rfl
  | cons c xs ih =>
      simp only [List.foldlM_cons, convertStep_multipleSpaces]
      cases convertStep ⟨w, false⟩ st c with
      | error e => rfl
      | ok st' => exact ih st'

theorem flush_dropEmpty (st : TokenizerState) :
    st.dropEmpty.flush = st.flush.filter fun a => !a.isEmpty := by
  by_cases h : st.curr.isEmpty <;> simp [TokenizerState.flush, TokenizerState.dropEmpty, h]

/-- The multiple-spaces quirk only drops empty arguments: with it, the tokenizer raises
exactly when it raises without it, with the same error, and otherwise returns the
quirk-free vector with every empty string removed. -/
theorem convertExecToCommand_multipleSpaces (w : Bool) (e : List Char) :
    convertExecToCommand e ⟨w, true⟩ =
      (convertExecToCommand e ⟨w, false⟩).map (List.filter fun a => !a.isEmpty) := by
  have h := foldlM_multipleSpaces w e TokenizerState.init
  simp only [convertExecToCommand, show TokenizerState.init.dropEmpty = TokenizerState.init
    from rfl] at h ⊢
  rw [h]
  cases e.foldlM (convertStep ⟨w, false⟩) TokenizerState.init with
  | error e => rfl
  | ok st => exact congrArg Except.ok (flush_dropEmpty st)

/-! ## The Wine quirk -/

/-- A step that does not raise without the Wine quirk is the same step with it. -/
theorem convertStep_wine {m : Bool} {st st' : TokenizerState} {c : Char}
    (h : convertStep ⟨false, m⟩ st c = .ok st') : convertStep ⟨true, m⟩ st c = .ok st' := by
  obtain ⟨result, curr, q, _ | _⟩ := st
  · cases q
    · simp only [convertStep_unquoted] at h ⊢
      split_ifs at h ⊢ <;> exact h
    · simpa only [convertStep_quoted] using h
  · simp only [convertStep_escaping] at h ⊢
    split_ifs at h ⊢ <;> exact h

theorem foldlM_wine {m : Bool} {xs : List Char} {st st' : TokenizerState}
    (h : xs.foldlM (convertStep ⟨false, m⟩) st = .ok st') :
    xs.foldlM (convertStep ⟨true, m⟩) st = .ok st' := by
  induction xs generalizing st with
  | nil => exact h
  | cons c xs ih =>
      simp only [List.foldlM_cons] at h ⊢
      cases hs : convertStep ⟨false, m⟩ st c with
      | error e => simp [hs] at h; cases h
      | ok s => rw [hs] at h; rw [convertStep_wine hs]; exact ih h

/-- The Wine quirk is a conservative extension: every Exec key that parses without it
parses to the same vector with it. -/
theorem convertExecToCommand_wine (m : Bool) (e : List Char) (v : List (List Char))
    (h : convertExecToCommand e ⟨false, m⟩ = .ok v) :
    convertExecToCommand e ⟨true, m⟩ = .ok v := by
  unfold convertExecToCommand at h ⊢
  cases hf : e.foldlM (convertStep ⟨false, m⟩) TokenizerState.init with
  | error err => simp [hf, Except.map] at h
  | ok st => rw [foldlM_wine hf]; rwa [hf] at h

/-- A key that needs no quirk keeps its vector when the Wine quirk is enabled. -/
theorem convertExecToCommand_wine_plain :
    convertExecToCommand "mpv --really-quiet \"a b.mp4\"".toList ⟨true, false⟩ =
      .ok ["mpv".toList, "--really-quiet".toList, "a b.mp4".toList] :=
  convertExecToCommand_wine false _ _ rfl

end J4DmenuDesktop.CMDLineAssembly
