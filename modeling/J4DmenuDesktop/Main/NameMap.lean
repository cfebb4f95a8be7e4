import Mathlib.Data.List.Lex
import Mathlib.Data.Char
import Mathlib.Data.List.Perm.Basic

/-!
# The name map: `DynamicCompare`, `name_map` and `format_name_app_mapping`

`name_map` is a `std::map` from display keys to applications ordered by
`DynamicCompare`. Its entries are kept as the list a `for` loop over the map
visits, strictly ascending under the comparator; that order is the structure's
invariant, so every map the model builds satisfies it. Keys that neither
precedes are one key to the map: `try_emplace` of such a key does nothing,
which is the source of "first insertion wins".

## Implementation notes

`DynamicCompare.hh` is missing; the comparator is modelled from the spec as
`strcmp`, or `strcasecmp` when case-insensitive, that is lexicographic order
after folding ASCII letters to lower case. Applications are a type parameter:
the map stores `const Application *` and never looks inside.
-/

namespace J4DmenuDesktop

/-- Modelled from the spec: `DynamicCompare.hh` is missing. "Comparison is either case-sensitive
or case-insensitive depending on configuration; ordering is the comparator's natural order over
the chosen case-folding." -/
structure DynamicCompare where
  caseInsensitive : Bool
  deriving DecidableEq, Repr

namespace DynamicCompare

variable (cmp : DynamicCompare)

/-- The case folding `strcasecmp` applies; the identity for `strcmp`. -/
def fold (s : List Char) : List Char := if cmp.caseInsensitive then s.map Char.toLower else s

/-- `cmp(a, b)`: `a` is ordered before `b`. -/
def lt (a b : List Char) : Prop := cmp.fold a < cmp.fold b

/-- Neither key is ordered before the other: the map treats them as one key. -/
def equiv (a b : List Char) : Prop := cmp.fold a = cmp.fold b

instance (a b : List Char) : Decidable (cmp.lt a b) := inferInstanceAs (Decidable (_ < _))

instance (a b : List Char) : Decidable (cmp.equiv a b) := inferInstanceAs (Decidable (_ = _))

variable {cmp} {a b c : List Char}

@[refl] theorem equiv_refl (a : List Char) : cmp.equiv a a := rfl

@[symm] theorem equiv_symm (h : cmp.equiv a b) : cmp.equiv b a := Eq.symm h

@[trans] theorem equiv_trans (h₁ : cmp.equiv a b) (h₂ : cmp.equiv b c) : cmp.equiv a c :=
  Eq.trans h₁ h₂

theorem not_lt_self (a : List Char) : ¬cmp.lt a a := lt_irrefl (cmp.fold a)

theorem trans_lt (h₁ : cmp.lt a b) (h₂ : cmp.lt b c) : cmp.lt a c := lt_trans h₁ h₂

/-- Keys that neither precedes are equivalent: the comparator is a strict weak order. -/
theorem equiv_of_not_lt (h₁ : ¬cmp.lt a b) (h₂ : ¬cmp.lt b a) : cmp.equiv a b :=
  le_antisymm (not_lt.mp h₂) (not_lt.mp h₁)

theorem not_lt_of_equiv (h : cmp.equiv a b) : ¬cmp.lt a b := by
  unfold lt; rw [h]; exact lt_irrefl _

theorem not_equiv_of_lt (h : cmp.lt a b) : ¬cmp.equiv a b := fun he => not_lt_of_equiv he h

theorem lt_of_lt_of_equiv (h₁ : cmp.lt a b) (h₂ : cmp.equiv b c) : cmp.lt a c := by
  unfold lt equiv at *; rwa [← h₂]

end DynamicCompare
/-- `name_map`, as the entries a `for` loop visits: strictly ascending under `cmp`. -/
structure NameMap (α : Type) where
  cmp : DynamicCompare
  entries : List (List Char × α)
  sorted : entries.Pairwise fun x y => cmp.lt x.1 y.1

namespace NameMap

variable {α : Type}

def empty (cmp : DynamicCompare) : NameMap α := ⟨cmp, [], .nil⟩

/-- The keys in iteration order. -/
def keys (m : NameMap α) : List (List Char) := m.entries.map Prod.fst

theorem exists_mem_keys (m : NameMap α) {p : List Char → Prop} :
    (∃ k ∈ m.keys, p k) ↔ ∃ e ∈ m.entries, p e.1 :=
  ⟨fun ⟨_, hk, h⟩ => let ⟨e, he, hek⟩ := List.mem_map.1 hk; ⟨e, he, hek ▸ h⟩,
    fun ⟨e, he, h⟩ => ⟨e.1, List.mem_map_of_mem _ he, h⟩⟩

/-- `try_emplace` on the sorted entries: the key goes before the first greater key, unless an
equivalent key comes first, in which case nothing changes. -/
def insertEntry (cmp : DynamicCompare) (k : List Char) (v : α) :
    List (List Char × α) → List (List Char × α)
  | [] => [(k, v)]
  | e :: es =>
      if cmp.lt e.1 k then e :: insertEntry cmp k v es
      else if cmp.lt k e.1 then (k, v) :: e :: es
      else e :: es

section insertEntry

variable {cmp : DynamicCompare} {k : List Char} {v : α}

theorem mem_insertEntry {x : List Char × α} {es : List (List Char × α)}
    (h : x ∈ insertEntry cmp k v es) : x = (k, v) ∨ x ∈ es := by
  induction es with
  | nil => simpa [insertEntry] using h
  | cons e es ih =>
      unfold insertEntry at h
      split_ifs at h <;> simp only [List.mem_cons] at h ⊢
      · rcases h with rfl | h
        · exact .inr (.inl rfl)
        · rcases ih h with h | h <;> simp [h]
      · exact h
      · exact .inr h

theorem pairwise_insertEntry {es : List (List Char × α)}
    (hs : es.Pairwise fun x y => cmp.lt x.1 y.1) :
    (insertEntry cmp k v es).Pairwise fun x y => cmp.lt x.1 y.1 := by
  induction es with
  | nil => simp [insertEntry]
  | cons e es ih =>
      rw [List.pairwise_cons] at hs
      unfold insertEntry
      split_ifs with h₁ h₂
      · refine List.pairwise_cons.2 ⟨fun x hx => ?_, ih hs.2⟩
        rcases mem_insertEntry hx with rfl | hx
        · exact h₁
        · exact hs.1 x hx
      · refine List.pairwise_cons.2 ⟨fun x hx => ?_, List.pairwise_cons.2 hs⟩
        rcases List.mem_cons.1 hx with rfl | hx
        · exact h₂
        · exact DynamicCompare.trans_lt h₂ (hs.1 x hx)
      · exact List.pairwise_cons.2 hs

/-- When an equivalent key is present, insertion leaves the entries as they are. -/
theorem insertEntry_of_equiv {es : List (List Char × α)}
    (hs : es.Pairwise fun x y => cmp.lt x.1 y.1) (h : ∃ e ∈ es, cmp.equiv e.1 k) :
    insertEntry cmp k v es = es := by
  induction es with
  | nil => obtain ⟨_, he, -⟩ := h; cases he
  | cons e es ih =>
      rw [List.pairwise_cons] at hs
      obtain ⟨x, hx, hxk⟩ := h
      unfold insertEntry
      split_ifs with h₁ h₂
      · rcases List.mem_cons.1 hx with rfl | hx
        · exact absurd hxk (DynamicCompare.not_equiv_of_lt h₁)
        · rw [ih hs.2 ⟨x, hx, hxk⟩]
      · rcases List.mem_cons.1 hx with rfl | hx
        · exact absurd hxk (fun he => DynamicCompare.not_lt_of_equiv he.symm h₂)
        · exact absurd (DynamicCompare.lt_of_lt_of_equiv (hs.1 x hx) hxk) h₁
      · rfl

/-- When no equivalent key is present, the key is added. -/
theorem insertEntry_perm {es : List (List Char × α)} (h : ∀ e ∈ es, ¬cmp.equiv e.1 k) :
    (insertEntry cmp k v es).Perm (es ++ [(k, v)]) := by
  induction es with
  | nil => rfl
  | cons e es ih =>
      unfold insertEntry
      split_ifs with h₁ h₂
      · exact (ih fun x hx => h x (List.mem_cons_of_mem _ hx)).cons e
      · exact (List.perm_append_singleton _ _).symm
      · exact absurd (DynamicCompare.equiv_of_not_lt h₁ h₂) (h e (List.mem_cons_self _ _))

theorem find?_insertEntry {es : List (List Char × α)} (q : List Char)
    (hs : es.Pairwise fun x y => cmp.lt x.1 y.1) :
    (insertEntry cmp k v es).find? (fun e => cmp.equiv e.1 q) =
      (es.find? fun e => cmp.equiv e.1 q).or (if cmp.equiv k q then some (k, v) else none) := by
  induction es with
  | nil => by_cases h : cmp.equiv k q <;> simp [insertEntry, h]
  | cons e es ih =>
      rw [List.pairwise_cons] at hs
      by_cases h₁ : cmp.lt e.1 k
      · simp only [insertEntry, if_pos h₁, List.find?_cons, ih hs.2]
        by_cases he : cmp.equiv e.1 q <;> simp [he]
      by_cases h₂ : cmp.lt k e.1
      · simp only [insertEntry, if_neg h₁, if_pos h₂]
        by_cases hkq : cmp.equiv k q
        · have hnone : (e :: es).find? (fun x => cmp.equiv x.1 q) = none := by
            refine List.find?_eq_none.2 fun x hx hxq => ?_
            have hk : cmp.lt k x.1 := by
              rcases List.mem_cons.1 hx with rfl | hx
              · exact h₂
              · exact DynamicCompare.trans_lt h₂ (hs.1 x hx)
            exact DynamicCompare.not_equiv_of_lt hk (hkq.trans (of_decide_eq_true hxq).symm)
          simp [hkq, hnone]
        · simp [hkq]
      · simp only [insertEntry, if_neg h₁, if_neg h₂]
        by_cases hkq : cmp.equiv k q
        · have he : cmp.equiv e.1 q := (DynamicCompare.equiv_of_not_lt h₁ h₂).trans hkq
          simp [List.find?_cons, he]
        · simp [hkq]

end insertEntry

def tryEmplace (m : NameMap α) (k : List Char) (v : α) : NameMap α :=
  ⟨m.cmp, insertEntry m.cmp k v m.entries, pairwise_insertEntry m.sorted⟩

/-- `find`: the entry whose key is equivalent to `q`. -/
def find (m : NameMap α) (q : List Char) : Option (List Char × α) :=
  m.entries.find? fun e => m.cmp.equiv e.1 q

/-- `erase` on a `std::set` of keys: drop the entry equivalent to `k`; the count erased. -/
def erase (m : NameMap α) (k : List Char) : NameMap α × Nat :=
  (⟨m.cmp, m.entries.filter (fun e => !decide (m.cmp.equiv e.1 k)), m.sorted.filter _⟩,
    (m.entries.filter fun e => m.cmp.equiv e.1 k).length)

@[simp] theorem tryEmplace_cmp (m : NameMap α) (k : List Char) (v : α) :
    (m.tryEmplace k v).cmp = m.cmp := rfl

/-- What `try_emplace` does to the entries, up to their order. -/
theorem tryEmplace_perm (m : NameMap α) (k : List Char) (v : α) :
    (m.tryEmplace k v).entries.Perm
      (if ∃ e ∈ m.entries, m.cmp.equiv e.1 k then m.entries else m.entries ++ [(k, v)]) := by
  split_ifs with h
  · exact .of_eq (insertEntry_of_equiv m.sorted h)
  · exact insertEntry_perm fun e he hek => h ⟨e, he, hek⟩

theorem find_tryEmplace (m : NameMap α) (k q : List Char) (v : α) :
    (m.tryEmplace k v).find q = (m.find q).or (if m.cmp.equiv k q then some (k, v) else none) :=
  find?_insertEntry q m.sorted

end NameMap

/-! ## `format_name_app_mapping` -/

/-- First insertion wins: an element is kept unless an earlier kept one has an equivalent key. -/
def firstWins {β : Type} (cmp : DynamicCompare) (key : β → List Char) (l : List β) : List β :=
  l.foldl (fun acc x => if ∃ y ∈ acc, cmp.equiv (key y) (key x) then acc else acc ++ [x]) []

theorem firstWins_append_singleton {β : Type} (cmp : DynamicCompare) (key : β → List Char)
    (l : List β) (x : β) :
    firstWins cmp key (l ++ [x]) =
      if ∃ y ∈ firstWins cmp key l, cmp.equiv (key y) (key x) then firstWins cmp key l
      else firstWins cmp key l ++ [x] := by
  simp only [firstWins, List.foldl_append, List.foldl_cons, List.foldl_nil]

theorem firstWins_sublist {β : Type} (cmp : DynamicCompare) (key : β → List Char) (l : List β) :
    (firstWins cmp key l).Sublist l := by
  induction l using List.reverseRecOn with
  | nil => exact List.nil_sublist _
  | append_singleton l x ih =>
      rw [firstWins_append_singleton]
      split_ifs
      · exact ih.trans (List.sublist_append_left l [x])
      · exact ih.append_right [x]

/-- No two kept elements have equivalent keys. -/
theorem firstWins_pairwise {β : Type} (cmp : DynamicCompare) (key : β → List Char) (l : List β) :
    (firstWins cmp key l).Pairwise fun a b => ¬cmp.equiv (key a) (key b) := by
  induction l using List.reverseRecOn with
  | nil => exact List.Pairwise.nil
  | append_singleton l x ih =>
      rw [firstWins_append_singleton]
      split_ifs with h
      · exact ih
      · refine List.pairwise_append.2 ⟨ih, List.pairwise_singleton _ _, fun a ha b hb he => ?_⟩
        rw [List.mem_singleton] at hb
        exact h ⟨a, ha, hb ▸ he⟩

/-- `format_name_app_mapping`, from `appm.view_name_app_mapping()` in its iteration order. -/
def formatNameAppMapping {α : Type} (origMapping : List (List Char × α))
    (format : List Char → α → List Char) (caseInsensitive : Bool) : NameMap α :=
  origMapping.foldl (fun result e => result.tryEmplace (format e.1 e.2) e.2)
    (NameMap.empty ⟨caseInsensitive⟩)

section formatNameAppMapping

variable {α : Type} {cmp : DynamicCompare}

/-- An element has an equivalent in the kept elements iff it has one in the whole list. -/
theorem exists_equiv_foldl_firstWins {β : Type} (key : β → List Char) (s : List Char)
    (l acc : List β) :
    (∃ y ∈ l.foldl (fun acc x => if ∃ y ∈ acc, cmp.equiv (key y) (key x) then acc
        else acc ++ [x]) acc, cmp.equiv (key y) s) ↔
      (∃ y ∈ acc, cmp.equiv (key y) s) ∨ ∃ y ∈ l, cmp.equiv (key y) s := by
  induction l generalizing acc with
  | nil => simp
  | cons x l ih =>
      rw [List.foldl_cons, ih, List.exists_mem_cons_iff]
      split_ifs with h
      · obtain ⟨y, hy, hyx⟩ := h
        have hx : cmp.equiv (key x) s → ∃ y ∈ acc, cmp.equiv (key y) s :=
          fun hxs => ⟨y, hy, hyx.trans hxs⟩
        exact ⟨fun h => h.imp_right .inr, fun h => h.elim .inl fun h => h.elim (.inl ∘ hx) .inr⟩
      · simp only [List.mem_append, List.mem_singleton, or_and_right, exists_or, exists_eq_left,
          or_assoc]

theorem exists_equiv_firstWins {β : Type} (key : β → List Char) (s : List Char) (l : List β) :
    (∃ y ∈ firstWins cmp key l, cmp.equiv (key y) s) ↔ ∃ y ∈ l, cmp.equiv (key y) s := by
  simpa using exists_equiv_foldl_firstWins key s l []

theorem formatNameAppMapping_eq_foldl (orig : List (List Char × α))
    (format : List Char → α → List Char) (ci : Bool) :
    formatNameAppMapping orig format ci =
      (orig.map fun e => (format e.1 e.2, e.2)).foldl (fun r e => r.tryEmplace e.1 e.2)
        (NameMap.empty ⟨ci⟩) := by
  simp [formatNameAppMapping, List.foldl_map]

/-- The insertion loop keeps exactly the first entry of each class of equivalent keys. -/
theorem foldl_tryEmplace_perm (l : List (List Char × α)) (m : NameMap α)
    (acc : List (List Char × α)) (h : m.entries.Perm acc) :
    (l.foldl (fun r e => r.tryEmplace e.1 e.2) m).entries.Perm
      (l.foldl (fun acc x => if ∃ y ∈ acc, m.cmp.equiv y.1 x.1 then acc else acc ++ [x]) acc) := by
  induction l generalizing m acc with
  | nil => exact h
  | cons e l ih =>
      rw [List.foldl_cons, List.foldl_cons]
      refine ih _ _ ((NameMap.tryEmplace_perm m e.1 e.2).trans ?_)
      have hiff : (∃ y ∈ m.entries, m.cmp.equiv y.1 e.1) ↔ ∃ y ∈ acc, m.cmp.equiv y.1 e.1 := by
        simp only [h.mem_iff]
      simp only [hiff]
      split_ifs
      · exact h
      · exact h.append_right _

/-- Lookups in the built map answer with the first source entry of the queried class. -/
theorem foldl_tryEmplace_find (l : List (List Char × α)) (m : NameMap α) (q : List Char) :
    (l.foldl (fun r e => r.tryEmplace e.1 e.2) m).find q =
      (m.find q).or (l.find? fun e => m.cmp.equiv e.1 q) := by
  induction l generalizing m with
  | nil => simp
  | cons e l ih =>
      rw [List.foldl_cons, ih, NameMap.tryEmplace_cmp, NameMap.find_tryEmplace, List.find?_cons]
      by_cases h : m.cmp.equiv e.1 q <;> simp [h, Option.or_assoc]

theorem formatNameAppMapping_perm (orig : List (List Char × α))
    (format : List Char → α → List Char) (ci : Bool) :
    (formatNameAppMapping orig format ci).entries.Perm
      (firstWins ⟨ci⟩ Prod.fst (orig.map fun e => (format e.1 e.2, e.2))) := by
  rw [formatNameAppMapping_eq_foldl]
  exact foldl_tryEmplace_perm _ (NameMap.empty ⟨ci⟩) [] (List.Perm.refl _)

/-- Every entry of the built map is a source entry under its formatted name. -/
theorem mem_formatNameAppMapping {orig : List (List Char × α)}
    {format : List Char → α → List Char} {ci : Bool} {e : List Char × α}
    (h : e ∈ (formatNameAppMapping orig format ci).entries) :
    ∃ o ∈ orig, e = (format o.1 o.2, o.2) := by
  obtain ⟨o, ho, rfl⟩ := List.mem_map.1
    ((firstWins_sublist _ _ _).subset ((formatNameAppMapping_perm orig format ci).subset h))
  exact ⟨o, ho, rfl⟩

/-- A name has an equivalent key exactly when it has an equivalent formatted source name. -/
theorem exists_key_formatNameAppMapping_iff (orig : List (List Char × α))
    (format : List Char → α → List Char) (ci : Bool) (s : List Char) :
    (∃ k ∈ (formatNameAppMapping orig format ci).keys, DynamicCompare.equiv ⟨ci⟩ k s) ↔
      ∃ e ∈ orig, DynamicCompare.equiv ⟨ci⟩ (format e.1 e.2) s :=
  calc (∃ k ∈ (formatNameAppMapping orig format ci).keys, DynamicCompare.equiv ⟨ci⟩ k s)
      ↔ ∃ e ∈ (formatNameAppMapping orig format ci).entries, DynamicCompare.equiv ⟨ci⟩ e.1 s :=
        NameMap.exists_mem_keys _
    _ ↔ ∃ e ∈ firstWins ⟨ci⟩ Prod.fst (orig.map fun e => (format e.1 e.2, e.2)),
          DynamicCompare.equiv ⟨ci⟩ e.1 s := by
        simp only [(formatNameAppMapping_perm orig format ci).mem_iff]
    _ ↔ ∃ e ∈ orig.map (fun e => (format e.1 e.2, e.2)), DynamicCompare.equiv ⟨ci⟩ e.1 s :=
        exists_equiv_firstWins Prod.fst s _
    _ ↔ ∃ e ∈ orig, DynamicCompare.equiv ⟨ci⟩ (format e.1 e.2) s := by
        simp only [List.mem_map]
        exact ⟨fun ⟨_, ⟨e, he, rfl⟩, h⟩ => ⟨e, he, h⟩, fun ⟨e, he, h⟩ => ⟨_, ⟨e, he, rfl⟩, h⟩⟩

/-- A lookup in the built map answers with the first formatted source entry of the class. -/
theorem formatNameAppMapping_find (orig : List (List Char × α))
    (format : List Char → α → List Char) (ci : Bool) (q : List Char) :
    (formatNameAppMapping orig format ci).find q =
      (orig.map fun e => (format e.1 e.2, e.2)).find? fun e => DynamicCompare.equiv ⟨ci⟩ e.1 q := by
  rw [formatNameAppMapping_eq_foldl, foldl_tryEmplace_find]
  simp [NameMap.find, NameMap.empty]

/-- `format_name_app_mapping` keeps, for each class of equivalent formatted names, the first
source entry (in iteration order) of that class, with its own formatted name as key: its entries
are the first-wins selection of the formatted source, its keys cover every formatted name up to
equivalence, and a lookup returns the first source entry whose formatted name is equivalent. -/
theorem formatNameAppMapping_spec (orig : List (List Char × α))
    (format : List Char → α → List Char) (ci : Bool) :
    (formatNameAppMapping orig format ci).entries.Perm
        (firstWins ⟨ci⟩ Prod.fst (orig.map fun e => (format e.1 e.2, e.2))) ∧
      (∀ s, (∃ k ∈ (formatNameAppMapping orig format ci).keys, DynamicCompare.equiv ⟨ci⟩ k s) ↔
        ∃ e ∈ orig, DynamicCompare.equiv ⟨ci⟩ (format e.1 e.2) s) ∧
      ∀ q, (formatNameAppMapping orig format ci).find q =
        (orig.map fun e => (format e.1 e.2, e.2)).find? fun e => DynamicCompare.equiv ⟨ci⟩ e.1 q :=
  ⟨formatNameAppMapping_perm orig format ci, exists_key_formatNameAppMapping_iff orig format ci,
    formatNameAppMapping_find orig format ci⟩

end formatNameAppMapping

end J4DmenuDesktop
