import Mathlib.Data.List.Nodup
import Mathlib.Data.List.Pairwise
import Mathlib.Data.List.Perm.Subperm

/-!
# The catalog and the history, modelled from the spec

`Application.hh`, `AppManager.hh` and `HistoryManager.hh` are not part of the
sources; `main.cc` uses them through `add`, `remove`, `view_name_app_mapping`,
`view` and `increment`, and its name map holds `const Application *` into the
catalog. The catalog keeps, per relative identity, the sources ranked by root,
the first being the entry. Every parse is a new object at a fresh address, and
`add` and `remove` destroy the object of the root they replace or drop. An
address is never reused, so a pointer to a destroyed object stays dangling:
`Succeeds` says what any change does to the objects a pointer can reach.
-/

namespace J4DmenuDesktop

/-- Modelled from the spec: `Application.hh` is missing. The fields of an application that the
modelled functions read (§3, "Application"). -/
structure Application where
  name : List Char
  exec : List Char
  terminal : Bool
  onlyShowIn : List (List Char)
  notShowIn : List (List Char)
  noDisplay : Bool
  hidden : Bool
  deriving DecidableEq, Repr

/-- Modelled from the spec (§3, invariant 5): not `NoDisplay`, not `Hidden`, `OnlyShowIn` empty
or meeting the current desktops, `NotShowIn` disjoint from them. -/
def Application.visible (app : Application) (desktops : List (List Char)) : Bool :=
  !app.noDisplay && !app.hidden &&
    (app.onlyShowIn.isEmpty || app.onlyShowIn.any (· ∈ desktops)) &&
    !app.notShowIn.any (· ∈ desktops)

/-- A `const Application *`: the address of an object the catalog allocated. -/
abbrev AppPtr := Nat

/-- A known source of an identity: its root's rank and the object parsed from it. -/
structure Source where
  rank : Nat
  ptr : AppPtr
  app : Application
  deriving DecidableEq, Repr

/-- The known sources of one identity, by root rank; the first is the catalog entry. -/
abbrev Sources := List Source

/-- Record a new parse, replacing (and so destroying) the source of the same root. -/
def insertSource (s : Source) : Sources → Sources
  | [] => [s]
  | t :: ts =>
      if s.rank < t.rank then s :: t :: ts
      else if s.rank = t.rank then s :: ts
      else t :: insertSource s ts

section insertSource

variable {s : Source} {ss : Sources}

/-- What `insertSource` keeps of ranked sources: the new one, and those of the other roots. -/
theorem mem_insertSource (hr : ss.Pairwise fun a b => a.rank < b.rank) {x : Source}
    (h : x ∈ insertSource s ss) : x = s ∨ x ∈ ss ∧ x.rank ≠ s.rank := by
  induction ss with
  | nil => simpa [insertSource] using h
  | cons t ts ih =>
      obtain ⟨ht, hts⟩ := List.pairwise_cons.1 hr
      simp only [insertSource] at h
      split_ifs at h with hlt heq <;> simp only [List.mem_cons] at h ⊢
      · rcases h with rfl | rfl | hx
        · exact .inl rfl
        · exact .inr ⟨.inl rfl, by omega⟩
        · exact .inr ⟨.inr hx, by have := ht x hx; omega⟩
      · rcases h with rfl | hx
        · exact .inl rfl
        · exact .inr ⟨.inr hx, by have := ht x hx; omega⟩
      · rcases h with rfl | hx
        · exact .inr ⟨.inl rfl, by omega⟩
        · exact (ih hts hx).imp_right fun ⟨hx, hne⟩ => ⟨.inr hx, hne⟩

/-- Inserting keeps the sources strictly ascending by rank, one per root. -/
theorem pairwise_insertSource (hr : ss.Pairwise fun a b => a.rank < b.rank) :
    (insertSource s ss).Pairwise fun a b => a.rank < b.rank := by
  induction ss with
  | nil => simp [insertSource]
  | cons t ts ih =>
      obtain ⟨ht, hts⟩ := List.pairwise_cons.1 hr
      simp only [insertSource]
      split_ifs with hlt heq
      · exact .cons (fun x hx => (List.mem_cons.1 hx).elim (· ▸ hlt) (hlt.trans <| ht x ·)) hr
      · exact .cons (fun x hx => heq ▸ ht x hx) hts
      · refine .cons (fun x hx => ?_) (ih hts)
        rcases mem_insertSource hts hx with rfl | ⟨hx, -⟩
        · omega
        · exact ht x hx

theorem insertSource_subperm (s : Source) (ss : Sources) :
    (insertSource s ss).Subperm (s :: ss) := by
  induction ss with
  | nil => exact List.Subperm.refl _
  | cons t ts ih =>
      simp only [insertSource]
      split_ifs
      · exact List.Subperm.refl _
      · exact (List.subperm_cons s).2 List.Subperm.cons_self
      · exact ((List.subperm_cons t).2 ih).trans (List.Perm.swap s t ts).subperm

end insertSource

theorem nodup_of_subperm {α : Type} {l₁ l₂ : List α} (h : l₁.Subperm l₂) (hn : l₂.Nodup) :
    l₁.Nodup :=
  let ⟨_, hp, hs⟩ := h
  hp.nodup_iff.1 (hn.sublist hs)

theorem subperm_map {α β : Type} (f : α → β) {l₁ l₂ : List α} (h : l₁.Subperm l₂) :
    (l₁.map f).Subperm (l₂.map f) :=
  let ⟨l, hp, hs⟩ := h
  ⟨l.map f, hp.map f, hs.map f⟩

/-- `add` on the identities' source lists. -/
def addSource (sources : List (List Char × Sources)) (id : List Char) (s : Source) :
    List (List Char × Sources) :=
  if sources.any (·.1 = id) then
    sources.map fun e => if e.1 = id then (e.1, insertSource s e.2) else e
  else sources ++ [(id, [s])]

/-- `remove` on the identities' source lists: the source of `rank` goes, and an identity with no
source left disappears. -/
def removeSource (sources : List (List Char × Sources)) (id : List Char) (rank : Nat) :
    List (List Char × Sources) :=
  (sources.map fun e => if e.1 = id then (e.1, e.2.filter (·.rank ≠ rank)) else e).filter
    (!·.2.isEmpty)

section sources

variable {sources : List (List Char × Sources)} {id : List Char}

theorem nodup_addSource (h : (sources.map Prod.fst).Nodup) (s : Source) :
    ((addSource sources id s).map Prod.fst).Nodup := by
  unfold addSource
  split_ifs with hid
  · simpa [List.map_map, Function.comp_def, apply_ite Prod.fst] using h
  · simp only [List.any_eq_true, decide_eq_true_eq, not_exists, not_and] at hid
    simpa [List.nodup_append, h] using fun ss hs => hid (id, ss) hs rfl

theorem ranked_addSource (h : ∀ e ∈ sources, e.2.Pairwise fun a b => a.rank < b.rank)
    (s : Source) : ∀ e ∈ addSource sources id s, e.2.Pairwise fun a b => a.rank < b.rank := by
  unfold addSource
  split_ifs
  · simp only [List.mem_map, forall_exists_index, and_imp, forall_apply_eq_imp_iff₂]
    intro e he
    split_ifs
    · exact pairwise_insertSource (h e he)
    · exact h e he
  · simp only [List.mem_append, List.mem_singleton]
    rintro e (he | rfl)
    · exact h e he
    · exact List.pairwise_singleton _ _

theorem flatMap_map_insertSource_subperm (h : (sources.map Prod.fst).Nodup) (s : Source) :
    ((sources.map fun e => if e.1 = id then (e.1, insertSource s e.2) else e).flatMap
      Prod.snd).Subperm (s :: sources.flatMap Prod.snd) := by
  induction sources with
  | nil => exact List.nil_subperm
  | cons e es ih =>
      obtain ⟨he, hes⟩ := List.nodup_cons.1 h
      simp only [List.map_cons, List.flatMap_cons]
      split_ifs with hid
      · have hrest : (es.map fun e => if e.1 = id then (e.1, insertSource s e.2) else e) = es := by
          conv_rhs => rw [← List.map_id es]
          exact List.map_congr_left fun x hx =>
            if_neg fun hx' => he (List.mem_map.2 ⟨x, hx, hx'.trans hid.symm⟩)
        rw [hrest]
        exact (List.subperm_append_right _).2 (insertSource_subperm s e.2)
      · exact ((List.subperm_append_left e.2).2 (ih hes)).trans List.perm_middle.subperm

/-- The objects after `add` are those before, less the one `insertSource` replaces, and the new
one. -/
theorem flatMap_addSource_subperm (h : (sources.map Prod.fst).Nodup) (s : Source) :
    ((addSource sources id s).flatMap Prod.snd).Subperm (s :: sources.flatMap Prod.snd) := by
  unfold addSource
  split_ifs
  · exact flatMap_map_insertSource_subperm h s
  · simpa using (List.perm_append_singleton s _).subperm

theorem nodup_removeSource (h : (sources.map Prod.fst).Nodup) (rank : Nat) :
    ((removeSource sources id rank).map Prod.fst).Nodup := by
  refine (((List.filter_sublist _).map Prod.fst).nodup) ?_
  simpa [List.map_map, Function.comp_def, apply_ite Prod.fst] using h

theorem ranked_removeSource (h : ∀ e ∈ sources, e.2.Pairwise fun a b => a.rank < b.rank)
    (rank : Nat) : ∀ e ∈ removeSource sources id rank, e.2.Pairwise fun a b => a.rank < b.rank := by
  simp only [removeSource, List.mem_filter, List.mem_map, and_imp, forall_exists_index]
  rintro _ e he rfl -
  split_ifs
  · exact (h e he).filter _
  · exact h e he

/-- Dropping the identities with no source left drops no object. -/
theorem flatMap_filter_isEmpty (l : List (List Char × Sources)) :
    (l.filter (!·.2.isEmpty)).flatMap Prod.snd = l.flatMap Prod.snd := by
  induction l with
  | nil => rfl
  | cons e l ih => rcases e with ⟨_, _ | _⟩ <;> simp [List.filter_cons, ih]

/-- The objects after `remove`: those before, less the ones of the root it drops. -/
theorem flatMap_removeSource (rank : Nat) :
    (removeSource sources id rank).flatMap Prod.snd =
      sources.flatMap fun e => if e.1 = id then e.2.filter (·.rank ≠ rank) else e.2 := by
  simp only [removeSource, flatMap_filter_isEmpty, List.flatMap_map, apply_ite Prod.snd]

theorem flatMap_removeSource_sublist (rank : Nat) :
    ((removeSource sources id rank).flatMap Prod.snd).Sublist (sources.flatMap Prod.snd) := by
  rw [flatMap_removeSource]
  induction sources with
  | nil => exact .slnil
  | cons e es ih =>
      refine List.Sublist.append ?_ ih
      dsimp only
      split_ifs
      · exact List.filter_sublist _
      · exact .refl _

end sources

/-- Modelled from the spec: `AppManager.hh` is missing. "The catalog retains, per identity, the
ranked set of known sources, not just the winning one"; `desktops` are the current desktop
environments of the visibility filter, and `next` is where the next parse is allocated. -/
structure AppManager where
  desktops : List (List Char)
  sources : List (List Char × Sources)
  next : AppPtr
  /-- §3, invariant 2: no two catalog entries share a relative identity. -/
  ids_nodup : (sources.map Prod.fst).Nodup
  /-- The sources of an identity ascend strictly by rank: one per root, the entry first. -/
  ranked : ∀ e ∈ sources, e.2.Pairwise fun a b => a.rank < b.rank
  /-- Every object lies below the allocation frontier. -/
  ptrs_lt : ∀ s ∈ sources.flatMap Prod.snd, s.ptr < next
  /-- Each object is owned once, at an address of its own. -/
  ptrs_nodup : ((sources.flatMap Prod.snd).map Source.ptr).Nodup

namespace AppManager

/-- The objects the catalog owns, one per known source. -/
def objects (appm : AppManager) : List Source := appm.sources.flatMap Prod.snd

/-- The catalog before any file is read. -/
def empty (desktops : List (List Char)) : AppManager :=
  ⟨desktops, [], 0, .nil, nofun, nofun, .nil⟩

/-- Modelled from the spec: `add(id, root, rank)` parses the file into a new object; the catalog
entry changes when the rank is not greater than the entry's, and the source is kept either way,
destroying the object an earlier parse of the same root left. -/
def add (appm : AppManager) (id : List Char) (rank : Nat) (app : Application) : AppManager where
  desktops := appm.desktops
  sources := addSource appm.sources id ⟨rank, appm.next, app⟩
  next := appm.next + 1
  ids_nodup := nodup_addSource appm.ids_nodup _
  ranked := ranked_addSource appm.ranked _
  ptrs_lt t ht := (List.mem_cons.1 ((flatMap_addSource_subperm appm.ids_nodup _).subset ht)).elim
    (fun h => h ▸ Nat.lt_succ_self _) fun h => Nat.lt_succ_of_lt (appm.ptrs_lt t h)
  ptrs_nodup := nodup_of_subperm (subperm_map _ (flatMap_addSource_subperm appm.ids_nodup _))
    (List.nodup_cons.2 ⟨fun h => by
      obtain ⟨t, ht, hp⟩ := List.mem_map.1 h
      exact (appm.ptrs_lt t ht).ne hp, appm.ptrs_nodup⟩)

/-- Modelled from the spec: `remove(id, root)` destroys that root's object; when it was the
entry, the next ranked source is promoted, and an identity with no source left disappears. -/
def remove (appm : AppManager) (id : List Char) (rank : Nat) : AppManager where
  desktops := appm.desktops
  sources := removeSource appm.sources id rank
  next := appm.next
  ids_nodup := nodup_removeSource appm.ids_nodup _
  ranked := ranked_removeSource appm.ranked _
  ptrs_lt t ht := appm.ptrs_lt t ((flatMap_removeSource_sublist _).subset ht)
  ptrs_nodup := appm.ptrs_nodup.sublist ((flatMap_removeSource_sublist _).map _)

/-- `*ptr`: the application at `p`, when the catalog still owns an object there. -/
def deref (appm : AppManager) (p : AppPtr) : Option Application :=
  (appm.objects.find? (·.ptr = p)).map Source.app

/-- Modelled from the spec: the visible catalog entries, each as its name and a pointer to it,
in catalog order. -/
def viewNameAppMapping (appm : AppManager) : List (List Char × AppPtr) :=
  appm.sources.filterMap fun e =>
    match e.2.head? with
    | some s => if s.app.visible appm.desktops then some (s.app.name, s.ptr) else none
    | none => none

/-- `format(key, *ptr)`. Every pointer of the view is live (`deref_of_mem_viewNameAppMapping`),
so the empty name is never produced there. -/
def formatPtr (appm : AppManager) (format : List Char → Application → List Char) (key : List Char)
    (p : AppPtr) : List Char :=
  ((appm.deref p).map (format key)).getD []

variable {appm : AppManager}

theorem ptr_inj {s t : Source} (hs : s ∈ appm.objects) (ht : t ∈ appm.objects)
    (h : s.ptr = t.ptr) : s = t :=
  List.inj_on_of_nodup_map appm.ptrs_nodup hs ht h

theorem deref_eq_some_iff {p : AppPtr} {app : Application} :
    appm.deref p = some app ↔ ∃ s ∈ appm.objects, s.ptr = p ∧ s.app = app := by
  constructor
  · intro h
    obtain ⟨s, hs, rfl⟩ := Option.map_eq_some'.1 h
    have hp := List.find?_some hs
    exact ⟨s, List.mem_of_find?_eq_some hs, by simpa using hp, rfl⟩
  · rintro ⟨s, hs, rfl, rfl⟩
    cases hf : appm.objects.find? (·.ptr = s.ptr) with
    | none => exact absurd hs (by simpa using List.find?_eq_none.1 hf s)
    | some t =>
        have ht : t.ptr = s.ptr := by simpa using List.find?_some hf
        simp [deref, hf, appm.ptr_inj (List.mem_of_find?_eq_some hf) hs ht]

theorem deref_of_mem_objects {s : Source} (hs : s ∈ appm.objects) : appm.deref s.ptr = some s.app :=
  deref_eq_some_iff.2 ⟨s, hs, rfl, rfl⟩

/-- Every pointer of the view points to the visible entry it is named after. -/
theorem deref_of_mem_viewNameAppMapping {k : List Char} {p : AppPtr}
    (h : (k, p) ∈ appm.viewNameAppMapping) :
    ∃ app, appm.deref p = some app ∧ k = app.name ∧ app.visible appm.desktops := by
  simp only [viewNameAppMapping, List.mem_filterMap] at h
  obtain ⟨e, he, hs⟩ := h
  cases hh : e.2.head? with
  | none => simp [hh] at hs
  | some s =>
      simp only [hh, Option.ite_none_right_eq_some, Option.some.injEq, Prod.mk.injEq] at hs
      obtain ⟨hv, rfl, rfl⟩ := hs
      refine ⟨s.app, deref_of_mem_objects (List.mem_flatMap.2 ⟨e, he, ?_⟩), rfl, hv⟩
      exact List.mem_of_mem_head? hh

/-- `appm'` follows `appm` by changes of the watcher: no address is reused, and a pointer into
`appm` resolves in `appm'` to the same application or to nothing. -/
structure Succeeds (appm' appm : AppManager) : Prop where
  next_le : appm.next ≤ appm'.next
  deref_eq : ∀ p < appm.next, appm'.deref p = appm.deref p ∨ appm'.deref p = none

theorem Succeeds.refl (appm : AppManager) : appm.Succeeds appm := ⟨le_rfl, fun _ _ => .inl rfl⟩

theorem Succeeds.trans {appm₁ appm₂ appm₃ : AppManager} (h₃ : appm₃.Succeeds appm₂)
    (h₂ : appm₂.Succeeds appm₁) : appm₃.Succeeds appm₁ := by
  refine ⟨h₂.next_le.trans h₃.next_le, fun p hp => ?_⟩
  rcases h₂.deref_eq p hp with h | h <;>
    rcases h₃.deref_eq p (lt_of_lt_of_le hp h₂.next_le) with h' | h'
  · exact .inl (h'.trans h)
  · exact .inr h'
  · exact .inr (h'.trans h)
  · exact .inr h'

end AppManager

/-- Modelled from the spec: `HistoryManager.hh` is missing. `(count, name)` pairs, highest count
first, ties by most recent increment first. -/
structure HistoryManager where
  entries : List (Nat × List Char)
  deriving DecidableEq, Repr

namespace HistoryManager

/-- `view()`. -/
def view (h : HistoryManager) : List (Nat × List Char) := h.entries

/-- Place an entry before the first one whose count is not greater. -/
def insertByCount (e : Nat × List Char) : List (Nat × List Char) → List (Nat × List Char)
  | [] => [e]
  | x :: xs => if x.1 ≤ e.1 then e :: x :: xs else x :: insertByCount e xs

/-- Modelled from the spec: `increment(name)` adds one to the name's count, or creates it with
count one, and moves it to its sorted position (persisting the file is left out). -/
def increment (h : HistoryManager) (name : List Char) : HistoryManager :=
  let count := ((h.entries.find? (·.2 = name)).map (·.1)).getD 0
  ⟨insertByCount (count + 1, name) (h.entries.filter (·.2 ≠ name))⟩

end HistoryManager

end J4DmenuDesktop
