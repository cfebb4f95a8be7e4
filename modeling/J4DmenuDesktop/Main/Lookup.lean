import J4DmenuDesktop.Main.NameMap

/-!
# `lookup_name`

A query is looked up first as a whole key, under the comparator; failing that,
the map is walked in order and the first key the query literally starts with
wins, the rest of the query being the arguments. No space is required after
the key, and the arguments keep the space that follows it.
-/

namespace J4DmenuDesktop

/-- Modelled from the spec: `Utilities.hh` is missing; `startswith(str, prefix)` is the literal
prefix test ("find any key `k` that is a prefix of `choice`"). -/
def startswith (str pre : List Char) : Bool := pre.isPrefixOf str

theorem startswith_iff {str pre : List Char} : startswith str pre = true ↔ pre <+: str :=
  List.isPrefixOf_iff_prefix

/-- `lookup_result`. -/
structure LookupResult (α : Type) where
  app : α
  args : List Char
  deriving DecidableEq, Repr

/-- `lookup_name`: the entry of an equivalent key, else the first key `query` starts with. -/
def lookupName {α : Type} (query : List Char) (map : NameMap α) : Option (LookupResult α) :=
  match map.find query with
  | some e => some ⟨e.2, []⟩
  | none => map.entries.findSome? fun e =>
      if startswith query e.1 then some ⟨e.2, query.drop e.1.length⟩ else none

namespace NameMap

section sorted

variable {α : Type} {cmp : DynamicCompare} {es : List (List Char × α)}

/-- Distinct entries of a sorted entry list have keys that are not equivalent. -/
theorem eq_of_equiv_of_pairwise (hs : es.Pairwise fun x y => cmp.lt x.1 y.1)
    {x y : List Char × α} (hx : x ∈ es) (hy : y ∈ es) (h : cmp.equiv x.1 y.1) : x = y := by
  induction es with
  | nil => simp at hx
  | cons e es ih =>
      rw [List.pairwise_cons] at hs
      rcases List.mem_cons.1 hx with rfl | hx' <;> rcases List.mem_cons.1 hy with rfl | hy'
      · rfl
      · exact absurd h (DynamicCompare.not_equiv_of_lt (hs.1 y hy'))
      · exact absurd h.symm (DynamicCompare.not_equiv_of_lt (hs.1 x hx'))
      · exact ih hs.2 hx' hy'

/-- The first key in a sorted entry list that is a prefix of `q` is the least such key. -/
theorem find?_prefix_eq_some_of_pairwise (hs : es.Pairwise fun x y => cmp.lt x.1 y.1)
    {q : List Char} {e : List Char × α} :
    es.find? (fun x => startswith q x.1) = some e ↔
      e ∈ es ∧ e.1 <+: q ∧ ∀ x ∈ es, cmp.lt x.1 e.1 → ¬x.1 <+: q := by
  induction es with
  | nil => simp
  | cons y ys ih =>
      rw [List.pairwise_cons] at hs
      by_cases hy : y.1 <+: q
      · have hyq : startswith q y.1 = true := startswith_iff.2 hy
        simp only [List.find?_cons, hyq, Option.some.injEq, List.mem_cons, forall_eq_or_imp]
        constructor
        · rintro rfl
          exact ⟨.inl rfl, hy, fun h => (DynamicCompare.not_lt_self _ h).elim, fun x hx hxy =>
            absurd (DynamicCompare.trans_lt (hs.1 x hx) hxy) (DynamicCompare.not_lt_self _)⟩
        · rintro ⟨rfl | he, -, hy', -⟩
          · rfl
          · exact absurd hy (hy' (hs.1 e he))
      · have hyq : startswith q y.1 = false := by rw [← Bool.not_eq_true, startswith_iff]; exact hy
        simp only [List.find?_cons, hyq, ih hs.2, List.mem_cons, forall_eq_or_imp]
        constructor
        · rintro ⟨he, hp, hx⟩
          exact ⟨.inr he, hp, fun _ => hy, hx⟩
        · rintro ⟨rfl | he, hp, -, hx⟩
          · exact absurd hp hy
          · exact ⟨he, hp, hx⟩

end sorted

variable {α : Type} (m : NameMap α)

theorem eq_of_equiv {x y : List Char × α} (hx : x ∈ m.entries) (hy : y ∈ m.entries)
    (h : m.cmp.equiv x.1 y.1) : x = y :=
  eq_of_equiv_of_pairwise m.sorted hx hy h

theorem find_eq_some {e : List Char × α} {q : List Char} (he : e ∈ m.entries)
    (h : m.cmp.equiv e.1 q) : m.find q = some e := by
  cases hf : m.find q with
  | none => exact absurd (List.find?_eq_none.1 hf e he) (by simpa using h)
  | some x =>
      have hx := List.mem_of_find?_eq_some hf
      have hxq : m.cmp.equiv x.1 q := by simpa using List.find?_some hf
      rw [m.eq_of_equiv hx he (hxq.trans h.symm)]

theorem find_eq_none {q : List Char} : m.find q = none ↔ ∀ e ∈ m.entries, ¬m.cmp.equiv e.1 q := by
  simp only [find, List.find?_eq_none, decide_eq_true_eq]

theorem find?_prefix_eq_some {q : List Char} {e : List Char × α} :
    m.entries.find? (fun x => startswith q x.1) = some e ↔
      e ∈ m.entries ∧ e.1 <+: q ∧ ∀ x ∈ m.entries, m.cmp.lt x.1 e.1 → ¬x.1 <+: q :=
  find?_prefix_eq_some_of_pairwise m.sorted

end NameMap

theorem findSome?_ite {β γ : Type} (p : β → Bool) (g : β → γ) (l : List β) :
    l.findSome? (fun x => if p x then some (g x) else none) = (l.find? p).map g := by
  induction l with
  | nil => rfl
  | cons x l ih => by_cases h : p x <;> simp [List.findSome?_cons, List.find?_cons, h, ih]

variable {α : Type}

theorem lookupName_of_find {m : NameMap α} {q : List Char} {e : List Char × α}
    (h : m.find q = some e) : lookupName q m = some ⟨e.2, []⟩ := by
  simp [lookupName, h]

theorem lookupName_of_find_none {m : NameMap α} {q : List Char} (h : m.find q = none) :
    lookupName q m = (m.entries.find? fun x => startswith q x.1).map
      fun e => ⟨e.2, q.drop e.1.length⟩ := by
  simp only [lookupName, h, findSome?_ite]

/-- `lookup_name` answers only with values the map holds. -/
theorem lookupName_mem {m : NameMap α} {q : List Char} {r : LookupResult α}
    (h : lookupName q m = some r) : ∃ e ∈ m.entries, e.2 = r.app := by
  cases hf : m.find q with
  | some e =>
      rw [lookupName_of_find hf, Option.some.injEq] at h
      exact ⟨e, List.mem_of_find?_eq_some hf, by rw [← h]⟩
  | none =>
      rw [lookupName_of_find_none hf, Option.map_eq_some'] at h
      obtain ⟨e, he, rfl⟩ := h
      exact ⟨e, List.mem_of_find?_eq_some he, rfl⟩

theorem prefix_append_iff {k q args : List Char} :
    (k <+: q ∧ q.drop k.length = args) ↔ q = k ++ args := by
  constructor
  · rintro ⟨⟨t, rfl⟩, rfl⟩; simp
  · rintro rfl; exact ⟨List.prefix_append _ _, by simp⟩

/-- Without an equivalent key, `lookup_name` answers with the least key that is a literal prefix
of the query, and the rest of the query as the arguments. -/
theorem lookupName_eq_some_iff {m : NameMap α} {q : List Char}
    (hn : ∀ e ∈ m.entries, ¬m.cmp.equiv e.1 q) (app : α) (args : List Char) :
    lookupName q m = some ⟨app, args⟩ ↔ ∃ k, (k, app) ∈ m.entries ∧ q = k ++ args ∧
      ∀ e ∈ m.entries, m.cmp.lt e.1 k → ¬e.1 <+: q := by
  rw [lookupName_of_find_none ((m.find_eq_none).2 hn), Option.map_eq_some']
  constructor
  · rintro ⟨⟨k, a⟩, hf, hr⟩
    obtain ⟨hm, hp, hl⟩ := m.find?_prefix_eq_some.1 hf
    simp only [LookupResult.mk.injEq] at hr
    obtain ⟨rfl, rfl⟩ := hr
    exact ⟨k, hm, prefix_append_iff.1 ⟨hp, rfl⟩, hl⟩
  · rintro ⟨k, hm, hq, hl⟩
    obtain ⟨hp, hd⟩ := prefix_append_iff.2 hq
    exact ⟨(k, app), m.find?_prefix_eq_some.2 ⟨hm, hp, hl⟩, by simp [hd]⟩

/-- `lookup_name` finds nothing exactly when no key is equivalent to the query or a prefix
of it. -/
theorem lookupName_eq_none_iff (m : NameMap α) (q : List Char) :
    lookupName q m = none ↔ ∀ e ∈ m.entries, ¬m.cmp.equiv e.1 q ∧ ¬e.1 <+: q := by
  cases hf : m.find q with
  | some e =>
      have he := List.find?_some hf
      rw [lookupName_of_find hf]
      exact ⟨nofun, fun h => ((h e (List.mem_of_find?_eq_some hf)).1 (of_decide_eq_true he)).elim⟩
  | none =>
      have hn := (m.find_eq_none).1 hf
      rw [lookupName_of_find_none hf, Option.map_eq_none', List.find?_eq_none]
      simp only [startswith_iff]
      exact ⟨fun h e he => ⟨hn e he, h e he⟩, fun h e he => (h e he).2⟩

/-- `lookup_name`, for every map and query: a query equivalent to a key gets that key's
application with no arguments; otherwise it gets the application of the least key that is a
literal prefix of it, with the rest of the query (not necessarily starting with a space) as the
arguments; and it gets nothing exactly when no key is equivalent to it or a prefix of it. -/
theorem lookupName_spec (m : NameMap α) (q : List Char) :
    (∀ e ∈ m.entries, m.cmp.equiv e.1 q → lookupName q m = some ⟨e.2, []⟩) ∧
      ((∀ e ∈ m.entries, ¬m.cmp.equiv e.1 q) → ∀ app args,
        lookupName q m = some ⟨app, args⟩ ↔ ∃ k, (k, app) ∈ m.entries ∧ q = k ++ args ∧
          ∀ e ∈ m.entries, m.cmp.lt e.1 k → ¬e.1 <+: q) ∧
      (lookupName q m = none ↔ ∀ e ∈ m.entries, ¬m.cmp.equiv e.1 q ∧ ¬e.1 <+: q) :=
  ⟨fun _ he h => lookupName_of_find (m.find_eq_some he h), lookupName_eq_some_iff,
    lookupName_eq_none_iff m q⟩

/-- The spec's prefix lookup: a key followed by a space and an argument. -/
theorem lookupName_firefox_args :
    (∀ e ∈ ((NameMap.empty ⟨false⟩ : NameMap Nat).tryEmplace "Firefox".toList 0).entries,
        ¬DynamicCompare.equiv ⟨false⟩ e.1 "Firefox https://x".toList) ∧
      lookupName "Firefox https://x".toList
        ((NameMap.empty ⟨false⟩ : NameMap Nat).tryEmplace "Firefox".toList 0) =
        some ⟨0, " https://x".toList⟩ := by
  refine ⟨by decide, ((lookupName_spec _ _).2.1 (by decide) 0 _).2 ⟨"Firefox".toList, ?_, rfl, ?_⟩⟩
  · decide
  · decide

/-- A key that the query extends without a space still matches: `Firefoxy` finds `Firefox`
with the arguments `y`. -/
theorem lookupName_prefix_without_space :
    ¬∀ (app : Nat) (args : List Char),
      lookupName "Firefoxy".toList
          ((NameMap.empty ⟨false⟩ : NameMap Nat).tryEmplace "Firefox".toList 0) =
          some ⟨app, args⟩ →
        (∃ e ∈ ((NameMap.empty ⟨false⟩ : NameMap Nat).tryEmplace "Firefox".toList 0).entries,
            DynamicCompare.equiv ⟨false⟩ e.1 "Firefoxy".toList) ∨
          ∃ k, (k, app) ∈ ((NameMap.empty ⟨false⟩ : NameMap Nat).tryEmplace
              "Firefox".toList 0).entries ∧ "Firefoxy".toList = k ++ args ∧ args.head? = some ' ' := by
  intro h
  rcases h 0 "y".toList (by decide) with ⟨e, he, hq⟩ | ⟨k, hk, -, hh⟩
  · revert e; decide
  · simp at hh

end J4DmenuDesktop
