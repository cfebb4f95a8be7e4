import J4DmenuDesktop.Main.NameMap

/-!
# `do_dmenu`: what is written to dmenu

With a history, the keys of the name map are copied into a `std::set` under
the same comparator; each history name, in view order, is erased from that
set and written when the erase removed something; the keys left in the set
follow in the comparator's order. Without a history the keys are written in
map order.

## Implementation notes

The `SIGPIPE` handler and `dmenu.display()` are left out; the line dmenu
answers with is an input, and an empty answer is a cancellation.
-/

namespace J4DmenuDesktop

variable {α : Type}

/-- `histm->view()`: `(count, name)` pairs in the history's order. -/
abbrev HistoryView := List (Nat × List Char)

/-- `desktop_file_names`: the map's keys in a `std::set` with the map's comparator. -/
def desktopFileNames (mapping : NameMap α) : NameMap Unit :=
  mapping.entries.foldl (fun names e => names.tryEmplace e.1 ()) (NameMap.empty mapping.cmp)

/-- One iteration over the history: erase the name, and write it if something was erased. -/
def historyStep (acc : NameMap Unit × List (List Char)) (entry : Nat × List Char) :
    NameMap Unit × List (List Char) :=
  let erased := acc.1.erase entry.2
  (erased.1, if erased.2 ≠ 0 then acc.2 ++ [entry.2] else acc.2)

/-- The lines `do_dmenu` writes, in order. -/
def dmenuLines (mapping : NameMap α) : Option HistoryView → List (List Char)
  | some view =>
      let done := view.foldl historyStep (desktopFileNames mapping, [])
      done.2 ++ done.1.keys
  | none => mapping.keys

/-- `do_dmenu`: the lines written, and the user's choice (`none` for an empty answer). -/
def doDmenu (mapping : NameMap α) (histm : Option HistoryView) (choice : List Char) :
    List (List Char) × Option (List Char) :=
  (dmenuLines mapping histm, if choice.isEmpty then none else some choice)

namespace NameMap

theorem insertEntry_of_lt {cmp : DynamicCompare} {k : List Char} {v : α}
    {es : List (List Char × α)} (h : ∀ e ∈ es, cmp.lt e.1 k) :
    insertEntry cmp k v es = es ++ [(k, v)] := by
  induction es with
  | nil => rfl
  | cons e es ih =>
      simp only [insertEntry, if_pos (h e (List.mem_cons_self _ _)), List.cons_append,
        ih fun x hx => h x (List.mem_cons_of_mem _ hx)]

end NameMap

/-- Copying ascending keys into a set appends each of them. -/
theorem foldl_tryEmplace_sorted (l : List (List Char × α)) (names : NameMap Unit)
    (hl : l.Pairwise fun x y => names.cmp.lt x.1 y.1)
    (hlt : ∀ x ∈ names.entries, ∀ y ∈ l, names.cmp.lt x.1 y.1) :
    (l.foldl (fun names e => names.tryEmplace e.1 ()) names).entries =
      names.entries ++ l.map fun e => (e.1, ()) := by
  induction l generalizing names with
  | nil => simp
  | cons e l ih =>
      rw [List.pairwise_cons] at hl
      have hins : (names.tryEmplace e.1 ()).entries = names.entries ++ [(e.1, ())] :=
        NameMap.insertEntry_of_lt fun x hx => hlt x hx e (List.mem_cons_self _ _)
      have hlt' : ∀ x ∈ (names.tryEmplace e.1 ()).entries, ∀ y ∈ l, names.cmp.lt x.1 y.1 := by
        intro x hx y hy
        rw [hins, List.mem_append, List.mem_singleton] at hx
        rcases hx with hx | rfl
        · exact hlt x hx y (List.mem_cons_of_mem _ hy)
        · exact hl.1 y hy
      rw [List.foldl_cons, ih (names.tryEmplace e.1 ()) hl.2 hlt', hins]
      simp

theorem desktopFileNames_entries (mapping : NameMap α) :
    (desktopFileNames mapping).entries = mapping.entries.map fun e => (e.1, ()) :=
  (foldl_tryEmplace_sorted mapping.entries (NameMap.empty mapping.cmp) mapping.sorted
    fun _ hx => by cases hx).trans (List.nil_append _)

namespace NameMap

theorem erase_keys (m : NameMap α) (k : List Char) :
    (m.erase k).1.keys = m.keys.filter fun x => ¬m.cmp.equiv x k := by
  simp [erase, keys, List.filter_map, Function.comp_def]

theorem erase_count_ne_zero (m : NameMap α) (k : List Char) :
    (m.erase k).2 ≠ 0 ↔ ∃ x ∈ m.keys, m.cmp.equiv x k := by
  rw [exists_mem_keys]
  simp only [erase, ne_eq, List.length_eq_zero, List.filter_eq_nil_iff, decide_eq_true_eq,
    not_forall, not_not, exists_prop]

theorem keys_pairwise (m : NameMap α) : m.keys.Pairwise m.cmp.lt :=
  List.pairwise_map.2 m.sorted

end NameMap

theorem foldl_tryEmplace_cmp (l : List (List Char × α)) (names : NameMap Unit) :
    (l.foldl (fun names e => names.tryEmplace e.1 ()) names).cmp = names.cmp := by
  induction l generalizing names with
  | nil => rfl
  | cons e l ih => exact ih _

/-- The history names written for a view: those equivalent to a key of the map, each kept
unless an earlier kept name is equivalent to it. -/
def historyShown (cmp : DynamicCompare) (keys : List (List Char)) (view : HistoryView) :
    List (List Char) :=
  firstWins cmp id ((view.map Prod.snd).filter fun n => ∃ k ∈ keys, cmp.equiv k n)

/-- A name has an equivalent among the written history names iff it has one among the history
names that match a key. -/
theorem exists_equiv_historyShown (cmp : DynamicCompare) (keys : List (List Char))
    (vs : HistoryView) (n : List Char) :
    (∃ y ∈ historyShown cmp keys vs, cmp.equiv y n) ↔
      ∃ p ∈ vs, (∃ k ∈ keys, cmp.equiv k p.2) ∧ cmp.equiv p.2 n := by
  refine (exists_equiv_firstWins id n _).trans ?_
  simp only [id, List.mem_filter, List.mem_map, decide_eq_true_eq]
  constructor
  · rintro ⟨_, ⟨⟨p, hp, rfl⟩, hk⟩, h⟩
    exact ⟨p, hp, hk, h⟩
  · rintro ⟨p, hp, hk, h⟩
    exact ⟨p.2, ⟨⟨p, hp, rfl⟩, hk⟩, h⟩

/-- The state of the history loop after the view prefix `vs`: the set holds the keys no name
of `vs` is equivalent to, and the names written are those `historyShown` selects. -/
structure HistoryInv (m : NameMap α) (vs : HistoryView) (acc : NameMap Unit × List (List Char)) :
    Prop where
  cmp_eq : acc.1.cmp = m.cmp
  keys_eq : acc.1.keys = m.keys.filter fun k => ∀ p ∈ vs, ¬m.cmp.equiv k p.2
  written_eq : acc.2 = historyShown m.cmp m.keys vs

/-- A key left in the set is equivalent to the name exactly when the name matches a key and no
name written so far is equivalent to it. -/
theorem exists_unshown_iff (cmp : DynamicCompare) (keys : List (List Char)) (vs : HistoryView)
    (n : List Char) :
    (∃ k ∈ keys, (∀ p ∈ vs, ¬cmp.equiv k p.2) ∧ cmp.equiv k n) ↔
      (∃ k ∈ keys, cmp.equiv k n) ∧ ¬∃ y ∈ historyShown cmp keys vs, cmp.equiv y n := by
  rw [exists_equiv_historyShown]
  constructor
  · rintro ⟨k, hk, hvs, hkn⟩
    exact ⟨⟨k, hk, hkn⟩, fun ⟨p, hp, _, hpn⟩ => hvs p hp (hkn.trans hpn.symm)⟩
  · rintro ⟨⟨k, hk, hkn⟩, hno⟩
    exact ⟨k, hk, fun p hp hkp => hno ⟨p, hp, ⟨k, hk, hkp⟩, hkp.symm.trans hkn⟩, hkn⟩

theorem historyShown_append (cmp : DynamicCompare) (keys : List (List Char)) (vs : HistoryView)
    (x : Nat × List Char) :
    historyShown cmp keys (vs ++ [x]) =
      if (∃ k ∈ keys, cmp.equiv k x.2) ∧ ¬∃ y ∈ historyShown cmp keys vs, cmp.equiv y x.2 then
        historyShown cmp keys vs ++ [x.2]
      else historyShown cmp keys vs := by
  by_cases hk : ∃ k ∈ keys, cmp.equiv k x.2
  · have hf : ((vs ++ [x]).map Prod.snd).filter (fun n => ∃ k ∈ keys, cmp.equiv k n) =
        ((vs.map Prod.snd).filter fun n => ∃ k ∈ keys, cmp.equiv k n) ++ [x.2] := by
      simp [List.filter_append, hk]
    rw [historyShown, hf, firstWins_append_singleton]
    simp only [id, hk, true_and, ite_not, historyShown]
  · have hf : ((vs ++ [x]).map Prod.snd).filter (fun n => ∃ k ∈ keys, cmp.equiv k n) =
        (vs.map Prod.snd).filter fun n => ∃ k ∈ keys, cmp.equiv k n := by
      simp [List.filter_append, hk]
    simp only [historyShown, hf, hk, false_and, if_false]

theorem historyStep_inv {m : NameMap α} {vs : HistoryView} {acc : NameMap Unit × List (List Char)}
    (x : Nat × List Char) (h : HistoryInv m vs acc) :
    HistoryInv m (vs ++ [x]) (historyStep acc x) := by
  have hcount : (acc.1.erase x.2).2 ≠ 0 ↔
      (∃ k ∈ m.keys, m.cmp.equiv k x.2) ∧
        ¬∃ y ∈ historyShown m.cmp m.keys vs, m.cmp.equiv y x.2 := by
    rw [NameMap.erase_count_ne_zero, h.keys_eq, h.cmp_eq, ← exists_unshown_iff]
    simp [List.mem_filter, and_assoc]
  refine ⟨h.cmp_eq, ?_, ?_⟩
  · simp only [historyStep, NameMap.erase_keys, h.keys_eq, h.cmp_eq, List.filter_filter]
    congr 1; funext k
    rw [Bool.eq_iff_iff]
    simp [or_imp, forall_and, and_comm]
  · simp only [historyStep, historyShown_append, ← hcount, h.written_eq]

theorem foldl_historyStep_inv {m : NameMap α} (l : HistoryView) {vs : HistoryView}
    {acc : NameMap Unit × List (List Char)} (h : HistoryInv m vs acc) :
    HistoryInv m (vs ++ l) (l.foldl historyStep acc) := by
  induction l generalizing vs acc with
  | nil => simpa using h
  | cons x l ih => simpa using ih (historyStep_inv x h)

theorem historyInv_init (m : NameMap α) : HistoryInv m [] (desktopFileNames m, []) where
  cmp_eq := foldl_tryEmplace_cmp _ _
  keys_eq := by simp [NameMap.keys, desktopFileNames_entries]
  written_eq := rfl

theorem dmenuLines_some (m : NameMap α) (view : HistoryView) :
    dmenuLines m (some view) =
      historyShown m.cmp m.keys view ++ m.keys.filter fun k => ∀ p ∈ view, ¬m.cmp.equiv k p.2 := by
  have h := foldl_historyStep_inv view (historyInv_init m)
  simp only [dmenuLines, h.keys_eq, h.written_eq, List.nil_append]

theorem mem_historyShown {cmp : DynamicCompare} {keys : List (List Char)} {view : HistoryView}
    {n : List Char} (h : n ∈ historyShown cmp keys view) :
    (∃ k ∈ keys, cmp.equiv k n) ∧ ∃ p ∈ view, p.2 = n := by
  have := (firstWins_sublist cmp id _).subset h
  simp only [List.mem_filter, List.mem_map, decide_eq_true_eq] at this
  exact ⟨this.2, this.1⟩

/-- A history name is written when it is equivalent to a key and no earlier history name is
equivalent to it. -/
theorem historyShown_snoc (cmp : DynamicCompare) (keys : List (List Char)) (vs : HistoryView)
    (x : Nat × List Char) :
    historyShown cmp keys (vs ++ [x]) = historyShown cmp keys vs ++
      if (∃ k ∈ keys, cmp.equiv k x.2) ∧ ∀ p ∈ vs, ¬cmp.equiv p.2 x.2 then [x.2] else [] := by
  rw [historyShown_append]
  by_cases hk : ∃ k ∈ keys, cmp.equiv k x.2
  · have hearlier : (∃ y ∈ historyShown cmp keys vs, cmp.equiv y x.2) ↔
        ∃ p ∈ vs, cmp.equiv p.2 x.2 := by
      rw [exists_equiv_historyShown]
      obtain ⟨k, hk, hkx⟩ := hk
      exact ⟨fun ⟨p, hp, _, h⟩ => ⟨p, hp, h⟩,
        fun ⟨p, hp, h⟩ => ⟨p, hp, ⟨k, hk, hkx.trans h.symm⟩, h⟩⟩
    by_cases hv : ∃ p ∈ vs, cmp.equiv p.2 x.2
    · obtain ⟨p, hp, hpx⟩ := hv
      rw [if_neg fun h => h.2 (hearlier.2 ⟨p, hp, hpx⟩), if_neg fun h => h.2 p hp hpx,
        List.append_nil]
    · rw [if_pos ⟨hk, fun h => hv (hearlier.1 h)⟩, if_pos ⟨hk, fun p hp hpx => hv ⟨p, hp, hpx⟩⟩]
  · rw [if_neg fun h => hk h.1, if_neg fun h => hk h.1, List.append_nil]

/-- A key is equivalent to exactly one of pairwise inequivalent lines once it is equivalent to
one of them. -/
theorem countP_equiv_eq_one {cmp : DynamicCompare} {l : List (List Char)} {k : List Char}
    (hl : l.Pairwise fun a b => ¬cmp.equiv a b) (hk : ∃ y ∈ l, cmp.equiv k y) :
    l.countP (fun y => cmp.equiv k y) = 1 := by
  induction l with
  | nil => simp at hk
  | cons a l ih =>
      rw [List.pairwise_cons] at hl
      by_cases hka : cmp.equiv k a
      · have h0 : l.countP (fun y => cmp.equiv k y) = 0 :=
          List.countP_eq_zero.2 fun y hy hky => hl.1 y hy (hka.symm.trans (of_decide_eq_true hky))
        simp [List.countP_cons, h0, hka]
      · obtain ⟨y, hy, hky⟩ := hk
        rcases List.mem_cons.1 hy with rfl | hy
        · exact absurd hky hka
        · simp [List.countP_cons, hka, ih hl.2 ⟨y, hy, hky⟩]

/-- The lines of a session are pairwise inequivalent, every key is equivalent to one of them,
and each of them is equivalent to a key. -/
theorem dmenuLines_represent (m : NameMap α) (h : Option HistoryView) :
    (dmenuLines m h).Pairwise (fun a b => ¬m.cmp.equiv a b) ∧
      (∀ k ∈ m.keys, ∃ l ∈ dmenuLines m h, m.cmp.equiv k l) ∧
      ∀ l ∈ dmenuLines m h, ∃ k ∈ m.keys, m.cmp.equiv k l := by
  cases h with
  | none =>
      exact ⟨m.keys_pairwise.imp DynamicCompare.not_equiv_of_lt,
        fun k hk => ⟨k, hk, DynamicCompare.equiv_refl k⟩,
        fun k hk => ⟨k, hk, DynamicCompare.equiv_refl k⟩⟩
  | some view =>
      rw [dmenuLines_some]
      refine ⟨List.pairwise_append.2 ⟨firstWins_pairwise m.cmp id _,
        (m.keys_pairwise.filter _).imp DynamicCompare.not_equiv_of_lt, fun a ha b hb hab => ?_⟩,
        fun k hk => ?_, fun l hl => ?_⟩
      · obtain ⟨-, p, hp, rfl⟩ := mem_historyShown ha
        exact of_decide_eq_true (List.mem_filter.1 hb).2 p hp hab.symm
      · by_cases hv : ∃ p ∈ view, m.cmp.equiv k p.2
        · obtain ⟨p, hp, hkp⟩ := hv
          obtain ⟨y, hy, hyp⟩ := (exists_equiv_historyShown m.cmp m.keys view p.2).2
            ⟨p, hp, ⟨k, hk, hkp⟩, DynamicCompare.equiv_refl _⟩
          exact ⟨y, List.mem_append_left _ hy, hkp.trans hyp.symm⟩
        · exact ⟨k, List.mem_append_right _ (List.mem_filter.2 ⟨hk, by simpa using hv⟩),
            DynamicCompare.equiv_refl k⟩
      · rcases List.mem_append.1 hl with hl | hl
        · exact (mem_historyShown hl).1
        · exact ⟨l, (List.mem_filter.1 hl).1, DynamicCompare.equiv_refl l⟩

/-- `do_dmenu` writes, for every map and every history view: the history names in view order,
each when it is equivalent to a key and no earlier history name is equivalent to it, then the
keys no history name is equivalent to, in the comparator's ascending order; without a history it
writes the keys in ascending order. Either way every key is written exactly once up to
equivalence, and every line is equivalent to a key. -/
theorem dmenuLines_spec (m : NameMap α) (view : HistoryView) :
    dmenuLines m (some view) =
        historyShown m.cmp m.keys view ++ m.keys.filter (fun k => ∀ p ∈ view, ¬m.cmp.equiv k p.2) ∧
      (∀ vs x, historyShown m.cmp m.keys (vs ++ [x]) = historyShown m.cmp m.keys vs ++
        if (∃ k ∈ m.keys, m.cmp.equiv k x.2) ∧ ∀ p ∈ vs, ¬m.cmp.equiv p.2 x.2 then [x.2] else []) ∧
      (m.keys.filter fun k => ∀ p ∈ view, ¬m.cmp.equiv k p.2).Pairwise m.cmp.lt ∧
      dmenuLines m none = m.keys ∧ m.keys.Pairwise m.cmp.lt ∧
      ∀ h : Option HistoryView,
        (∀ k ∈ m.keys, (dmenuLines m h).countP (fun l => m.cmp.equiv k l) = 1) ∧
        ∀ l ∈ dmenuLines m h, ∃ k ∈ m.keys, m.cmp.equiv k l := by
  refine ⟨dmenuLines_some m view, historyShown_snoc m.cmp m.keys, m.keys_pairwise.filter _, rfl,
    m.keys_pairwise, fun h => ?_⟩
  obtain ⟨hp, hcover, hkey⟩ := dmenuLines_represent m h
  exact ⟨fun k hk => countP_equiv_eq_one hp (hcover k hk), hkey⟩

end J4DmenuDesktop
