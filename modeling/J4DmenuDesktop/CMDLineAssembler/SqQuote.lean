import J4DmenuDesktop.Shell.Words

/-!
# `sq_quote` and `convert_argv_to_string`

`sq_quote` wraps a string in `'…'` and writes each embedded `'` as `'\''`; a
final `'` becomes `'\'` with no closing quote. The loop re-slices its input
after each quote and compares the quote's position with `input.size() - 1` on
an unsigned size; it is well-founded on the length of the rest, so it ends on
every input. `sqQuoteSpec` is the character-wise quoting in the spec's words.

Strings are `List Char`, each `Char` standing for one byte of the
`std::string_view`. `findQuote` is `find('\'')` with `none` for `npos`, and
`isLastIndex` the source's `where == (input.size() - 1)`, where `npos` equals
`size() - 1` exactly when the size is zero; `isLastIndex_findQuote` checks that
reading on a 64-bit `size_type`.
-/

namespace J4DmenuDesktop.CMDLineAssembly
open Shell

/-- `input.find('\'')`. -/
def findQuote (input : List Char) : Option Nat := input.findIdx? (· == '\'')

/-- `where == (input.size() - 1)` on `size_type`: `npos` is `size() - 1` when `size()` is `0`. -/
def isLastIndex : Option Nat → Nat → Bool
  | none, size => size == 0
  | some w, size => w + 1 == size

theorem findQuote_lt {input : List Char} {w : Nat} (h : findQuote input = some w) :
    w < input.length :=
  (List.findIdx?_eq_some_iff_findIdx_eq.mp h).1

/-- `std::string_view::npos`: the largest 64-bit `size_type`. -/
def npos : BitVec 64 := BitVec.allOnes 64

/-- The value of `where` in the source: `find`'s index, or `npos` for no match. -/
def whereOf : Option Nat → BitVec 64
  | none => npos
  | some w => BitVec.ofNat 64 w

/-- On a 64-bit `size_type`, `where == (input.size() - 1)` is `isLastIndex`: the
subtraction wraps to `npos` on the empty view, where `find` also returns `npos`. -/
theorem isLastIndex_findQuote (input : List Char) (h : input.length ≤ npos.toNat) :
    isLastIndex (findQuote input) input.length =
      (whereOf (findQuote input) == BitVec.ofNat 64 input.length - 1) := by
  simp only [npos, BitVec.toNat_allOnes] at h
  cases hq : findQuote input with
  | none =>
      simp only [isLastIndex, whereOf, npos, Bool.beq_eq_decide_eq, decide_eq_decide,
        BitVec.toNat_eq, BitVec.toNat_allOnes]
      bv_omega
  | some w =>
      have := findQuote_lt hq
      simp only [isLastIndex, whereOf, Bool.beq_eq_decide_eq, decide_eq_decide]
      bv_omega

/-- The `while (true)` loop of `sq_quote`, from `result` and the rest of `input`. -/
def sqQuoteLoop (result input : List Char) : List Char :=
  if isLastIndex (findQuote input) input.length then
    result ++ input.take (input.length - 1) ++ ['\'', '\\', '\'']
  else
    match h : findQuote input with
    | none => result ++ input ++ ['\'']
    | some w => sqQuoteLoop (result ++ input.take w ++ ['\'', '\\', '\'', '\''])
        (input.drop (w + 1))
termination_by input.length
decreasing_by have := findQuote_lt h; simp only [List.length_drop]; omega

/-- `sq_quote`: the quote-free early return, then the loop. -/
def sqQuote (input : List Char) : List Char :=
  match findQuote input with
  | none => '\'' :: input ++ ['\'']
  | some _ => sqQuoteLoop ['\''] input

/-- `convert_argv_to_string`: the quoted arguments joined by single spaces. -/
def convertArgvToString : List (List Char) → List Char
  | [] => []
  | front :: rest => rest.foldl (fun result arg => result ++ ' ' :: sqQuote arg) (sqQuote front)

/-- `wrap_cmdstring_in_shell`. -/
def wrapCmdstringInShell (cmdstring : List Char) : List (List Char) :=
  ["/bin/sh".toList, "-c".toList, cmdstring]

/-- `wrap_command_in_wrapper`: the inner shell re-splits the wrapper and runs it on the argv. -/
def wrapCommandInWrapper (command : List (List Char)) (wrapper : List Char) : List (List Char) :=
  ["/bin/sh".toList, "-c".toList, "wrap=\"$1\"; shift; $wrap \"$@\"".toList, "/bin/sh".toList,
    wrapper] ++ command

/-- `create_argv`: `none` is the `abort()` on an empty command; the last pointer is `NULL`. -/
def createArgv (command : List (List Char)) : Option (List (Option (List Char))) :=
  if command.isEmpty then none else some (command.map some ++ [none])

/-! ## The character-wise form -/

/-- `'` is written `'\''`: close the quote, an escaped `'`, reopen. -/
def quoteChar (c : Char) : List Char := if c = '\'' then ['\'', '\\', '\'', '\''] else [c]

def quoteBody (s : List Char) : List Char := s.flatMap quoteChar

/-- Everything after the opening `'`; a final `'` of the input ends the output as `'\'`. -/
def quotedTail (s : List Char) : List Char :=
  if s.getLast? = some '\'' then quoteBody s.dropLast ++ ['\'', '\\', '\'']
  else quoteBody s ++ ['\'']

@[simp] theorem quoteBody_nil : quoteBody [] = [] := rfl

@[simp] theorem quoteBody_append (s t : List Char) :
    quoteBody (s ++ t) = quoteBody s ++ quoteBody t := by
  simp [quoteBody]

@[simp] theorem quoteBody_cons (c : Char) (s : List Char) :
    quoteBody (c :: s) = quoteChar c ++ quoteBody s := rfl

theorem quoteBody_of_not_mem {s : List Char} (hs : '\'' ∉ s) : quoteBody s = s := by
  induction s with
  | nil => rfl
  | cons c s ih =>
      have hc : c ≠ '\'' := fun h => hs (h ▸ List.mem_cons_self _ _)
      simp [quoteChar, hc, ih (fun h => hs (List.mem_cons_of_mem _ h))]

theorem findQuote_eq_none {input : List Char} : findQuote input = none ↔ '\'' ∉ input := by
  simp [findQuote, List.findIdx?_eq_none_iff, List.forall_mem_ne']

theorem findQuote_cons (c : Char) (s : List Char) :
    findQuote (c :: s) = if c = '\'' then some 0 else (findQuote s).map (· + 1) := by
  simp [findQuote, List.findIdx?_cons, List.findIdx?_succ]

/-- The loop's split: the part before the first `'`, which has no quote, and the rest. -/
theorem findQuote_eq_some {input : List Char} {w : Nat} (h : findQuote input = some w) :
    input = input.take w ++ '\'' :: input.drop (w + 1) ∧ '\'' ∉ input.take w := by
  induction input generalizing w with
  | nil => simp [findQuote] at h
  | cons c s ih =>
      rw [findQuote_cons] at h
      by_cases hc : c = '\''
      · simp only [hc, if_true, Option.some.injEq] at h
        subst h
        simp [hc]
      · simp only [hc, if_false, Option.map_eq_some'] at h
        obtain ⟨v, hv, rfl⟩ := h
        obtain ⟨h1, h2⟩ := ih hv
        exact ⟨by simpa using h1, by simp [Ne.symm hc, h2]⟩

theorem quotedTail_of_not_mem {s : List Char} (hs : '\'' ∉ s) : quotedTail s = s ++ ['\''] := by
  have hl : s.getLast? ≠ some '\'' := fun h => hs (List.mem_of_getLast?_eq_some h)
  simp [quotedTail, hl, quoteBody_of_not_mem hs]

/-- Splitting at a `'` that is not the last character. -/
theorem quotedTail_quote {t r : List Char} (ht : '\'' ∉ t) (hr : r ≠ []) :
    quotedTail (t ++ '\'' :: r) = t ++ ['\'', '\\', '\'', '\''] ++ quotedTail r := by
  have hlast : (t ++ '\'' :: r).getLast? = r.getLast? := by
    rw [List.getLast?_append, List.getLast?_cons]
    cases h : r.getLast? with
    | none => exact absurd (List.getLast?_eq_none_iff.mp h) hr
    | some x => rfl
  have hdrop : (t ++ '\'' :: r).dropLast = t ++ '\'' :: r.dropLast := by
    rw [List.dropLast_append_cons, List.dropLast_cons_of_ne_nil hr]
  unfold quotedTail
  rw [hlast, hdrop]
  split <;> simp [quoteBody_of_not_mem ht, quoteChar]

theorem sqQuoteLoop_eq (result input : List Char) (hne : input ≠ []) :
    sqQuoteLoop result input = result ++ quotedTail input := by
  induction result, input using sqQuoteLoop.induct with
  | case1 result input hlast =>
      rw [sqQuoteLoop, if_pos hlast]
      cases hw : findQuote input with
      | none => simp [hw, isLastIndex, hne] at hlast
      | some w =>
          obtain ⟨hsplit, ht⟩ := findQuote_eq_some hw
          simp only [hw, isLastIndex, beq_iff_eq] at hlast
          rw [List.drop_eq_nil_of_le (by omega)] at hsplit
          generalize input.take w = t at hsplit ht
          subst hsplit
          simp [quotedTail, quoteBody_of_not_mem ht]
  | case2 result input hlast hw =>
      rw [sqQuoteLoop, if_neg hlast]
      split
      · simp [quotedTail_of_not_mem (findQuote_eq_none.mp hw)]
      · simp_all
  | case3 result input hlast w hw ih =>
      obtain ⟨hsplit, ht⟩ := findQuote_eq_some hw
      have hr : input.drop (w + 1) ≠ [] := by
        have := findQuote_lt hw
        simp only [hw, isLastIndex, beq_iff_eq] at hlast
        simp only [ne_eq, List.drop_eq_nil_iff]; omega
      rw [sqQuoteLoop, if_neg hlast]
      split
      · next h => simp [h] at hw
      · next w' hw' =>
        obtain rfl : w = w' := Option.some.inj (hw.symm.trans hw')
        rw [ih hr]
        conv_rhs => rw [hsplit, quotedTail_quote ht hr]
        simp

/-- `sq_quote` agrees with the character-wise definition on every input. -/
theorem sqQuote_eq (s : List Char) : sqQuote s = '\'' :: quotedTail s := by
  unfold sqQuote
  split
  · next h => simp [quotedTail_of_not_mem (findQuote_eq_none.mp h)]
  · next w h =>
    have hne : s ≠ [] := by rintro rfl; simp [findQuote] at h
    simp [sqQuoteLoop_eq _ _ hne]

/-- The character-wise definition: `'`, each character with `'` written `'\''`, then `'`;
when the input ends with `'`, the last two characters of that, `''`, are left out. -/
def sqQuoteSpec (s : List Char) : List Char :=
  let full := '\'' :: s.flatMap (fun c => if c = '\'' then ['\'', '\\', '\'', '\''] else [c]) ++
    ['\'']
  if s.getLast? = some '\'' then full.dropLast.dropLast else full

/-- `sq_quote` returns the character-wise quoting on every input: its early return, the
loop's `npos` branch and its last-character branch all agree with it. -/
theorem sqQuote_eq_sqQuoteSpec (s : List Char) : sqQuote s = sqQuoteSpec s := by
  rw [sqQuote_eq, sqQuoteSpec, quotedTail]
  split
  · next h =>
    obtain ⟨t, rfl⟩ := List.getLast?_eq_some_iff.mp h
    simp [List.dropLast_cons_of_ne_nil, List.dropLast_append_of_ne_nil, quoteBody]
    rfl
  · rfl

example : sqQuote ['e', 'n', 'd', '\''] = ['\'', 'e', 'n', 'd', '\'', '\\', '\''] := by
  rw [sqQuote_eq]; decide

/-! ## What `sh` reads back -/

variable {d : ShDialect}

/-- Inside `'…'`, the escaped body reads back as the original characters. -/
theorem foldlM_quoteBody (s : List Char) (ws : List (List Char)) (w : List Char) :
    (quoteBody s).foldlM (step d) ⟨ws, some w, .singleQuoted⟩ =
      some ⟨ws, some (w ++ s), .singleQuoted⟩ := by
  induction s generalizing w with
  | nil => simp
  | cons c s ih =>
      rw [quoteBody_cons, List.foldlM_append]
      by_cases hc : c = '\''
      · subst hc
        simp [quoteChar, step, ShState.enter, ShState.push, ih]
      · simp [quoteChar, hc, step, ShState.push, ih]

/-- One quoted argument, read from between two words, is one whole word. -/
theorem foldlM_sqQuote (s : List Char) (ws : List (List Char)) :
    (sqQuote s).foldlM (step d) ⟨ws, none, .unquoted⟩ = some ⟨ws, some s, .unquoted⟩ := by
  have hopen : step d ⟨ws, none, .unquoted⟩ '\'' = some ⟨ws, some [], .singleQuoted⟩ := rfl
  rw [sqQuote_eq, List.foldlM_cons, hopen, Option.bind_eq_bind, Option.some_bind]
  unfold quotedTail
  split
  · next hl =>
    obtain ⟨t, rfl⟩ := List.getLast?_eq_some_iff.mp hl
    simp [List.foldlM_append, foldlM_quoteBody, step, ShState.enter, ShState.push]
  · simp [List.foldlM_append, foldlM_quoteBody, step]

theorem convertArgvToString_cons (front : List Char) (rest : List (List Char)) :
    convertArgvToString (front :: rest) =
      sqQuote front ++ rest.flatMap fun arg => ' ' :: sqQuote arg := by
  suffices ∀ acc, rest.foldl (fun result arg => result ++ ' ' :: sqQuote arg) acc =
      acc ++ rest.flatMap fun arg => ' ' :: sqQuote arg from this _
  induction rest with
  | nil => simp
  | cons a rest ih => intro acc; simp [ih]

/-- After the first word, each space-separated quoted argument adds one word. -/
theorem parse_joined (rest : List (List Char)) (ws : List (List Char)) (w : List Char) :
    ((rest.flatMap fun arg => ' ' :: sqQuote arg).foldlM (step d) ⟨ws, some w, .unquoted⟩ >>=
      finish) = some (ws ++ w :: rest) := by
  induction rest generalizing ws w with
  | nil => rfl
  | cons a rest ih =>
      simp only [List.flatMap_cons, List.cons_append, List.foldlM_cons, step_space,
        List.foldlM_append, foldlM_sqQuote, Option.bind_eq_bind, Option.some_bind]
      simpa using ih (ws ++ [w]) a

/-- `convert_argv_to_string` is read back by `sh` as exactly the argument vector it was
given, in every dialect of the model, the strict one included. -/
theorem parse_convertArgvToString (d : ShDialect) (argv : List (List Char)) :
    parse d (convertArgvToString argv) = some argv := by
  cases argv with
  | nil => rfl
  | cons front rest =>
      simp only [parse, convertArgvToString_cons, List.foldlM_append, start, foldlM_sqQuote,
        Option.bind_eq_bind, Option.some_bind]
      simpa using parse_joined rest [] front

end J4DmenuDesktop.CMDLineAssembly
