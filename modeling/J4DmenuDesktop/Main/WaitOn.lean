import J4DmenuDesktop.Catalog.AppManager
import J4DmenuDesktop.Main.Lookup
import J4DmenuDesktop.Main.Dmenu
import J4DmenuDesktop.Main.ExecuteApp

/-!
# `do_wait_on`: the daemon loop

Each `poll` wakeup applies the watcher's pending changes to the catalog, then,
on a FIFO byte other than `q`, runs one menu session from the map of
`const Application *` that `main` built once, before the loop. The lines
written and the lookup never see a change; the pointer found is read in the
catalog as it is now. A run therefore serves the sessions of the catalog at
startup until one reads an application a change destroyed, where its
behaviour is undefined and the run ends. `fork`, `setsid` and the `SIGCHLD`
reaper are left out, and `application_command` (`ApplicationRunner.hh`,
missing) is a parameter.
-/

namespace J4DmenuDesktop

/-- Modelled from the spec: `Utilities.hh` is missing; `endswith(str, suffix)` is the literal
suffix test ("events whose basenames do not end in `.desktop` are filtered out"). -/
def endswith (str suf : List Char) : Bool := suf.isSuffixOf str

/-- `NotifyBase::changetype`; a modified file comes with what parsing it now gives. -/
inductive ChangeType
  | modified (app : Application)
  | deleted
  deriving DecidableEq, Repr

/-- One entry of `notify.getchanges()`. -/
structure Change where
  name : List Char
  rank : Nat
  status : ChangeType
  deriving DecidableEq, Repr

/-- The body of the loop over `notify.getchanges()`. -/
def applyChange (appm : AppManager) (i : Change) : AppManager :=
  if endswith i.name ".desktop".toList then
    match i.status with
    | .modified app => appm.add i.name i.rank app
    | .deleted => appm.remove i.name i.rank
  else appm

/-- The loop over `notify.getchanges()`, run when the watcher woke `poll`. -/
def applyChanges (appm : AppManager) : Option (List Change) → AppManager
  | some changes => changes.foldl applyChange appm
  | none => appm

/-- The arguments of `do_wait_on` that no iteration changes. -/
structure WaitOnEnv where
  shell : List Char
  terminal : List Char
  wrapper : List Char
  noExec : Bool
  i3 : Option (List Char)
  applicationCommand : Application → List Char → List Char

/-- What the loop keeps across iterations: the catalog and the history. -/
structure WaitOnState where
  appm : AppManager
  hist : Option HistoryManager

/-- What one `poll` wakeup brings: the watcher's batch, and the FIFO byte with dmenu's answer. -/
structure Wakeup where
  changes : Option (List Change)
  fifo : Option (Char × List Char)

/-- How a menu session ends. -/
inductive Outcome
  | cancelled
  | printed (text : List Char)
  | launched (launch : Launch)
  /-- `application_command(*name_lookup->app, ...)` read an application the catalog has
  destroyed: the behaviour is undefined. -/
  | undefined
  deriving DecidableEq, Repr

/-- One menu session as the user sees it. -/
structure Session where
  written : List (List Char)
  query : Option (List Char)
  lookup : Option (LookupResult AppPtr)
  outcome : Outcome
  deriving DecidableEq, Repr

/-- The rest of a session once the query is resolved: `choice` is `*name_lookup->app` with the
arguments, or `none` for a custom command. -/
def runChoice (env : WaitOnEnv) (hist : Option HistoryManager) (query : List Char)
    (choice : Option (Application × List Char)) : Outcome × Option HistoryManager :=
  let isCustom := choice.isNone
  let command := match choice with
    | none => query
    | some (app, args) => env.applicationCommand app args
  if env.noExec then
    (.printed (if env.wrapper.isEmpty then command
      else env.wrapper ++ " \"".toList ++ command ++ ['"']), hist)
  else
    let isTerminal := match choice with
      | none => false
      | some (app, _) => app.terminal
    (.launched (executeApp command env.wrapper env.terminal env.shell isTerminal isCustom env.i3),
      if isCustom then hist else hist.map (·.increment query))

/-- A menu session served from `mapping`, the pointer found read in `appm`, and the history
after it. -/
def menuSession (env : WaitOnEnv) (appm : AppManager) (mapping : NameMap AppPtr)
    (hist : Option HistoryManager) (answer : List Char) : Session × Option HistoryManager :=
  let dmenu := doDmenu mapping (hist.map HistoryManager.view) answer
  match dmenu.2 with
  | none => (⟨dmenu.1, none, none, .cancelled⟩, hist)
  | some query =>
      match lookupName query mapping with
      | none =>
          let r := runChoice env hist query none
          (⟨dmenu.1, some query, none, r.1⟩, r.2)
      | some l =>
          match appm.deref l.app with
          | none => (⟨dmenu.1, some query, some l, .undefined⟩, hist)
          | some app =>
              let r := runChoice env hist query (some (app, l.args))
              (⟨dmenu.1, some query, some l, r.1⟩, r.2)

/-- One iteration of `while (1)`: `none` when the loop returns on `'q'`. -/
def waitOnStep (env : WaitOnEnv) (mapping : NameMap AppPtr) (st : WaitOnState) (w : Wakeup) :
    Option (WaitOnState × Option Session) :=
  let appm := applyChanges st.appm w.changes
  match w.fifo with
  | none => some (⟨appm, st.hist⟩, none)
  | some (data, answer) =>
      if data = 'q' then none
      else
        let session := menuSession env appm mapping st.hist answer
        some (⟨appm, session.2⟩, some session.1)

/-- A run of the loop over a sequence of wakeups: the sessions in order, up to a `'q'`, or up to
a session whose behaviour is undefined, after which nothing is defined. -/
def runWaitOn (env : WaitOnEnv) (mapping : NameMap AppPtr) :
    WaitOnState → List Wakeup → List Session
  | _, [] => []
  | st, w :: ws =>
      match waitOnStep env mapping st w with
      | none => []
      | some (st', none) => runWaitOn env mapping st' ws
      | some (st', some s) =>
          s :: if s.outcome = .undefined then [] else runWaitOn env mapping st' ws

/-- `main` in daemon mode: the name map is built once from the catalog, then the loop runs. -/
def mainWaitOn (env : WaitOnEnv) (format : List Char → Application → List Char)
    (caseInsensitive : Bool) (st : WaitOnState) (ws : List Wakeup) : List Session :=
  runWaitOn env
    (formatNameAppMapping st.appm.viewNameAppMapping (st.appm.formatPtr format) caseInsensitive)
    st ws

/-! ## A run serves the FIFO's answers in order -/

/-- The sessions a run of wakeups asks for, up to the first `q`: each FIFO answer with the
catalog the batches up to it left. -/
def sessionRequests : AppManager → List Wakeup → List (AppManager × List Char)
  | _, [] => []
  | appm, w :: ws =>
      match w.fifo with
      | none => sessionRequests (applyChanges appm w.changes) ws
      | some (data, answer) =>
          if data = 'q' then []
          else (applyChanges appm w.changes, answer) ::
            sessionRequests (applyChanges appm w.changes) ws

/-- Sessions served one after another, each with the history the one before it left, up to one
whose behaviour is undefined. -/
def serveSessions (env : WaitOnEnv) (mapping : NameMap AppPtr) :
    Option HistoryManager → List (AppManager × List Char) → List Session
  | _, [] => []
  | hist, (appm, answer) :: rs =>
      (menuSession env appm mapping hist answer).1 ::
        if (menuSession env appm mapping hist answer).1.outcome = .undefined then []
        else serveSessions env mapping (menuSession env appm mapping hist answer).2 rs

/-- A run of the loop serves the answers the FIFO delivers before `q`, in order, each against
the catalog the change batches before it left and with the history the sessions before it left. -/
theorem runWaitOn_eq_serveSessions (env : WaitOnEnv) (mapping : NameMap AppPtr)
    (st : WaitOnState) (ws : List Wakeup) :
    runWaitOn env mapping st ws =
      serveSessions env mapping st.hist (sessionRequests st.appm ws) := by
  induction ws generalizing st with
  | nil => rfl
  | cons w ws ih =>
      rcases w with ⟨changes, _ | ⟨data, answer⟩⟩
      · exact ih _
      · by_cases hq : data = 'q' <;>
          simp [runWaitOn, waitOnStep, sessionRequests, hq, serveSessions, ih]

/-- One FIFO wakeup other than `q`: the session from the catalog the batch leaves, then the rest
of the run unless the session went wrong. -/
theorem runWaitOn_cons_fifo (env : WaitOnEnv) (mapping : NameMap AppPtr) (st : WaitOnState)
    (changes : Option (List Change)) {data : Char} (answer : List Char) (ws : List Wakeup)
    (hd : data ≠ 'q') :
    runWaitOn env mapping st (⟨changes, some (data, answer)⟩ :: ws) =
      (menuSession env (applyChanges st.appm changes) mapping st.hist answer).1 ::
        if (menuSession env (applyChanges st.appm changes) mapping st.hist answer).1.outcome =
          .undefined then []
        else runWaitOn env mapping ⟨applyChanges st.appm changes,
          (menuSession env (applyChanges st.appm changes) mapping st.hist answer).2⟩ ws := by
  simp [runWaitOn, waitOnStep, hd]

/-- Every session served is one `menuSession`, against the catalog of its request. -/
theorem mem_serveSessions {env : WaitOnEnv} {mapping : NameMap AppPtr} {P : Session → Prop}
    (hist : Option HistoryManager) (rs : List (AppManager × List Char))
    (h : ∀ r ∈ rs, ∀ hist, P (menuSession env r.1 mapping hist r.2).1) :
    ∀ s ∈ serveSessions env mapping hist rs, P s := by
  induction rs generalizing hist with
  | nil => simp [serveSessions]
  | cons r rs ih =>
      rintro s (_ | ⟨_, hs⟩)
      · exact h r (List.mem_cons_self _ _) hist
      · split_ifs at hs
        · cases hs
        · exact ih _ (fun r hr => h r (List.mem_cons_of_mem _ hr)) s hs

/-! ## What the loop's arguments allow a session to end in -/

/-- What `do_wait_on`'s arguments allow an outcome to be: a print only with `no_exec`, a launch
only without it, and over i3, to its socket, exactly when `i3` holds one. -/
def Outcome.allowedBy (env : WaitOnEnv) : Outcome → Prop
  | .cancelled => True
  | .printed _ => env.noExec = true
  | .launched l => env.noExec = false ∧ l.socket = env.i3
  | .undefined => True

theorem runChoice_allowedBy (env : WaitOnEnv) (hist : Option HistoryManager) (query : List Char)
    (choice : Option (Application × List Char)) :
    (runChoice env hist query choice).1.allowedBy env := by
  unfold runChoice
  by_cases h : env.noExec <;> simp [Outcome.allowedBy, h, executeApp_socket]

theorem menuSession_allowedBy (env : WaitOnEnv) (appm : AppManager) (mapping : NameMap AppPtr)
    (hist : Option HistoryManager) (answer : List Char) :
    (menuSession env appm mapping hist answer).1.outcome.allowedBy env := by
  unfold menuSession
  dsimp only
  split
  · trivial
  · split
    · exact runChoice_allowedBy ..
    · split
      · trivial
      · exact runChoice_allowedBy ..

/-! ## A change never alters what a pointer reaches -/

theorem runChoice_ne_undefined (env : WaitOnEnv) (hist : Option HistoryManager)
    (query : List Char) (choice : Option (Application × List Char)) :
    (runChoice env hist query choice).1 ≠ .undefined := by
  unfold runChoice
  split_ifs <;> nofun

/-- A session whose map points only at live objects never goes wrong. -/
theorem menuSession_ne_undefined {appm : AppManager} {mapping : NameMap AppPtr}
    (hm : ∀ e ∈ mapping.entries, appm.deref e.2 ≠ none) (env : WaitOnEnv)
    (hist : Option HistoryManager) (answer : List Char) :
    (menuSession env appm mapping hist answer).1.outcome ≠ .undefined := by
  unfold menuSession
  dsimp only
  split
  · nofun
  · split
    · exact runChoice_ne_undefined env hist _ _
    · next l hl =>
        split
        · next hd =>
            obtain ⟨e, he, hel⟩ := lookupName_mem hl
            exact absurd hd (hel ▸ hm e he)
        · exact runChoice_ne_undefined env hist _ _

/-- The name map `main` builds points only at live objects, under their formatted names. -/
theorem mem_formatNameAppMapping_live {appm : AppManager}
    {format : List Char → Application → List Char} {ci : Bool} {e : List Char × AppPtr}
    (he : e ∈ (formatNameAppMapping appm.viewNameAppMapping (appm.formatPtr format) ci).entries) :
    ∃ app, appm.deref e.2 = some app ∧ e.1 = format app.name app := by
  obtain ⟨⟨k, p⟩, hv, rfl⟩ := mem_formatNameAppMapping he
  obtain ⟨app, hd, rfl, -⟩ := AppManager.deref_of_mem_viewNameAppMapping hv
  exact ⟨app, hd, by simp [AppManager.formatPtr, hd]⟩

/-- Every line `do_dmenu` writes, chosen as written, is resolved by `lookup_name` to the
value of a key it is equivalent to, with no arguments. -/
theorem lookupName_dmenuLines {α : Type} (m : NameMap α) (h : Option HistoryView) {l : List Char}
    (hl : l ∈ dmenuLines m h) :
    ∃ e ∈ m.entries, m.cmp.equiv e.1 l ∧ lookupName l m = some ⟨e.2, []⟩ := by
  obtain ⟨e, he, heq⟩ := (NameMap.exists_mem_keys m).1 ((dmenuLines_represent m h).2.2 l hl)
  exact ⟨e, he, heq, lookupName_of_find (m.find_eq_some he heq)⟩

/-- A session whose answer is one of the lines written resolves it to the pointer of an
equivalent key, as a desktop entry with no arguments. Read in the catalog, that pointer reaches
an application, which the session launches without `no_exec`, in its terminal mode and with
`exec ` in front, counting the answer in the history; or it reaches nothing, and the session's
behaviour is undefined. -/
theorem menuSession_of_mem_dmenuLines (env : WaitOnEnv) (appm : AppManager)
    (mapping : NameMap AppPtr) (hist : Option HistoryManager) {answer : List Char}
    (hl : answer ∈ dmenuLines mapping (hist.map HistoryManager.view)) (hne : answer ≠ []) :
    ∃ e ∈ mapping.entries, mapping.cmp.equiv e.1 answer ∧
      (menuSession env appm mapping hist answer).1.lookup = some ⟨e.2, []⟩ ∧
      match appm.deref e.2 with
      | none => (menuSession env appm mapping hist answer).1.outcome = .undefined
      | some app => env.noExec = false →
          (menuSession env appm mapping hist answer).1.outcome =
              .launched (executeApp (env.applicationCommand app []) env.wrapper env.terminal
                env.shell app.terminal false env.i3) ∧
            (menuSession env appm mapping hist answer).2 = hist.map (·.increment answer) := by
  obtain ⟨e, he, heq, hlook⟩ := lookupName_dmenuLines mapping _ hl
  have hq : answer.isEmpty = false := List.isEmpty_eq_false.2 hne
  refine ⟨e, he, heq, ?_, ?_⟩ <;> cases hd : appm.deref e.2
  all_goals simp [menuSession, doDmenu, hq, hlook, hd, runChoice]
  all_goals intro hn; simp [hn]

/-- Choosing the line `Foo` a session wrote launches `foo` as a desktop entry. -/
theorem menuSession_choose_foo :
    let foo : Application := ⟨"Foo".toList, "foo".toList, false, [], [], false, false⟩
    let env : WaitOnEnv :=
      ⟨"/bin/sh".toList, "xterm".toList, [], false, none, fun app _ => app.exec⟩
    let appm := (AppManager.empty []).add "foo.desktop".toList 0 foo
    let mapping := formatNameAppMapping appm.viewNameAppMapping
      (appm.formatPtr fun name _ => name) false
    "Foo".toList ∈ dmenuLines mapping ((none : Option HistoryManager).map HistoryManager.view) ∧
      "Foo".toList ≠ [] ∧
      ∃ e ∈ mapping.entries, mapping.cmp.equiv e.1 "Foo".toList ∧
        (menuSession env appm mapping none "Foo".toList).1.lookup = some ⟨e.2, []⟩ ∧
        match appm.deref e.2 with
        | none => (menuSession env appm mapping none "Foo".toList).1.outcome = .undefined
        | some app => env.noExec = false →
            (menuSession env appm mapping none "Foo".toList).1.outcome =
                .launched (executeApp (env.applicationCommand app []) env.wrapper env.terminal
                  env.shell app.terminal false env.i3) ∧
              (menuSession env appm mapping none "Foo".toList).2 =
                (none : Option HistoryManager).map (·.increment "Foo".toList) := by
  intro foo env appm mapping
  exact ⟨by decide, by decide,
    menuSession_of_mem_dmenuLines env appm mapping none (by decide) (by decide)⟩

/-! ## The state carried between sessions -/

/-- The query a session counts in the history: that of a launched desktop entry. -/
def Session.counted (s : Session) : Option (List Char) :=
  match s.outcome, s.lookup with
  | .launched _, some _ => s.query
  | _, _ => none

/-- The history after a sequence of sessions: one increment per counted query, in order. -/
def histAfter (hist : Option HistoryManager) (ss : List Session) : Option HistoryManager :=
  ss.foldl (fun h s => match s.counted with
    | some q => h.map (·.increment q)
    | none => h) hist

/-- The catalog after a sequence of wakeups: every change batch applied in order. -/
def catalogAfter (appm : AppManager) (ws : List Wakeup) : AppManager :=
  ws.foldl (fun appm w => applyChanges appm w.changes) appm

/-- A session changes the history by exactly what it counts. -/
theorem menuSession_hist (env : WaitOnEnv) (appm : AppManager) (mapping : NameMap AppPtr)
    (hist : Option HistoryManager) (answer : List Char) :
    (menuSession env appm mapping hist answer).2 =
      histAfter hist [(menuSession env appm mapping hist answer).1] := by
  unfold menuSession runChoice
  dsimp only
  split
  · rfl
  · split
    · split_ifs <;> first | rfl | simp at *
    · split
      · rfl
      · split_ifs <;> first | rfl | simp at *

/-- A run of the loop split anywhere before its `q` and before any session goes wrong: the
sessions after the split are those a run from the catalog the change batches left and the
history the earlier sessions counted would serve. These two are all the loop carries from one
session to the next, and the history changes by one increment per session that launched a
desktop entry; cancelled sessions, `no_exec` prints and custom commands leave it as it was. -/
theorem runWaitOn_append (env : WaitOnEnv) (mapping : NameMap AppPtr) (st : WaitOnState)
    (ws₁ ws₂ : List Wakeup) (hq : ∀ w ∈ ws₁, w.fifo.map Prod.fst ≠ some 'q')
    (hu : ∀ s ∈ runWaitOn env mapping st ws₁, s.outcome ≠ .undefined) :
    runWaitOn env mapping st (ws₁ ++ ws₂) =
      runWaitOn env mapping st ws₁ ++
        runWaitOn env mapping
          ⟨catalogAfter st.appm ws₁, histAfter st.hist (runWaitOn env mapping st ws₁)⟩ ws₂ := by
  induction ws₁ generalizing st with
  | nil => rfl
  | cons w ws₁ ih =>
      have hq' := fun w hw => hq w (List.mem_cons_of_mem _ hw)
      rcases w with ⟨changes, _ | ⟨data, answer⟩⟩
      · exact ih _ hq' hu
      · have hd : data ≠ 'q' := by simpa using hq _ (List.mem_cons_self _ _)
        rw [runWaitOn_cons_fifo _ _ _ _ _ _ hd] at hu
        have hs := hu _ (List.mem_cons_self _ _)
        rw [if_neg hs] at hu
        rw [List.cons_append, runWaitOn_cons_fifo _ _ _ _ _ _ hd,
          runWaitOn_cons_fifo _ _ _ _ _ _ hd, if_neg hs, if_neg hs,
          ih _ hq' fun s h => hu s (List.mem_cons_of_mem _ h), List.cons_append]
        simp only [catalogAfter, histAfter, List.foldl_cons]
        rw [menuSession_hist]
        rfl

/-- A run split after its first session, which launched `Foo` while the watcher added `Bar`: the
rest is served from the catalog with `Bar` in it and the history that counted `Foo`. -/
theorem runWaitOn_append_foo_bar :
    let foo : Application := ⟨"Foo".toList, "foo".toList, false, [], [], false, false⟩
    let bar : Application := ⟨"Bar".toList, "bar".toList, false, [], [], false, false⟩
    let env : WaitOnEnv :=
      ⟨"/bin/sh".toList, "xterm".toList, [], false, none, fun app _ => app.exec⟩
    let appm := (AppManager.empty []).add "foo.desktop".toList 0 foo
    let mapping := formatNameAppMapping appm.viewNameAppMapping
      (appm.formatPtr fun name _ => name) false
    let ws₁ : List Wakeup :=
      [⟨some [⟨"bar.desktop".toList, 0, .modified bar⟩], some ('x', "Foo".toList)⟩]
    let ws₂ : List Wakeup := [⟨none, some ('x', "Foo".toList)⟩]
    (∀ w ∈ ws₁, w.fifo.map Prod.fst ≠ some 'q') ∧
      (∀ s ∈ runWaitOn env mapping ⟨appm, some ⟨[]⟩⟩ ws₁, s.outcome ≠ .undefined) ∧
      runWaitOn env mapping ⟨appm, some ⟨[]⟩⟩ (ws₁ ++ ws₂) =
        runWaitOn env mapping ⟨appm, some ⟨[]⟩⟩ ws₁ ++
          runWaitOn env mapping ⟨catalogAfter appm ws₁,
            histAfter (some ⟨[]⟩) (runWaitOn env mapping ⟨appm, some ⟨[]⟩⟩ ws₁)⟩ ws₂ := by
  intro foo bar env appm mapping ws₁ ws₂
  exact ⟨by decide, by decide, runWaitOn_append env mapping _ ws₁ ws₂ (by decide) (by decide)⟩

/-! ## The history counts the query as typed -/

/-- A session writes the lines of its mapping and the history it starts from. -/
theorem menuSession_written (env : WaitOnEnv) (appm : AppManager) (mapping : NameMap AppPtr)
    (hist : Option HistoryManager) (answer : List Char) :
    (menuSession env appm mapping hist answer).1.written =
      dmenuLines mapping (hist.map HistoryManager.view) := by
  unfold menuSession
  dsimp only
  split
  · rfl
  · split
    · rfl
    · split <;> rfl

/-- The history is counted under the query as typed, not under the key it resolved to. A
session that launches an entry found by a key its query only starts with, such as a key followed
by arguments, counts the whole query; and no session of any run from the same mapping ever
writes that query, since every line written is equivalent to a key. -/
theorem menuSession_counts_unshown_query (env : WaitOnEnv) (appm : AppManager)
    (mapping : NameMap AppPtr) (hist : Option HistoryManager) {answer : List Char}
    {r : LookupResult AppPtr} (hr : lookupName answer mapping = some r)
    (hlive : appm.deref r.app ≠ none) (hn : env.noExec = false) (hne : answer ≠ [])
    (hk : ∀ k ∈ mapping.keys, ¬mapping.cmp.equiv k answer) :
    (menuSession env appm mapping hist answer).2 = hist.map (·.increment answer) ∧
      ∀ (st : WaitOnState) (ws : List Wakeup), ∀ s ∈ runWaitOn env mapping st ws,
        answer ∉ s.written := by
  have hq : answer.isEmpty = false := List.isEmpty_eq_false.2 hne
  obtain ⟨app, hd⟩ := Option.ne_none_iff_exists'.1 hlive
  refine ⟨by simp [menuSession, doDmenu, hq, hr, hd, runChoice, hn], fun st ws s hs hl => ?_⟩
  rw [runWaitOn_eq_serveSessions] at hs
  obtain ⟨h, hw⟩ := mem_serveSessions (P := fun s => ∃ h, s.written = dmenuLines mapping h) _ _
    (fun r _ h => ⟨_, menuSession_written env r.1 mapping h r.2⟩) s hs
  obtain ⟨k, hkm, heq⟩ := (dmenuLines_represent mapping h).2.2 answer (hw ▸ hl)
  exact hk k hkm heq

/-- `Firefox --private` launches `Firefox` and is counted as `Firefox --private`, a line no
menu of the run shows. -/
theorem menuSession_counts_firefox_private :
    let ff : Application := ⟨"Firefox".toList, "firefox".toList, false, [], [], false, false⟩
    let env : WaitOnEnv :=
      ⟨"/bin/sh".toList, "xterm".toList, [], false, none, fun app args => app.exec ++ args⟩
    let appm := (AppManager.empty []).add "firefox.desktop".toList 0 ff
    let mapping := formatNameAppMapping appm.viewNameAppMapping
      (appm.formatPtr fun name _ => name) false
    lookupName "Firefox --private".toList mapping = some ⟨0, " --private".toList⟩ ∧
      appm.deref 0 ≠ none ∧ env.noExec = false ∧ "Firefox --private".toList ≠ [] ∧
      (∀ k ∈ mapping.keys, ¬mapping.cmp.equiv k "Firefox --private".toList) ∧
      ((menuSession env appm mapping (some ⟨[]⟩) "Firefox --private".toList).2 =
          (some ⟨[]⟩ : Option HistoryManager).map (·.increment "Firefox --private".toList) ∧
        ∀ (st : WaitOnState) (ws : List Wakeup), ∀ s ∈ runWaitOn env mapping st ws,
          "Firefox --private".toList ∉ s.written) := by
  intro ff env appm mapping
  exact ⟨by decide, by decide, rfl, by decide, by decide,
    @menuSession_counts_unshown_query env appm mapping (some ⟨[]⟩) _ ⟨0, " --private".toList⟩
      (by decide) (by decide) rfl (by decide) (by decide)⟩

/-- A deleted entry is still served: after the watcher reports `foo.desktop` deleted, the next
session writes `Foo` and looks it up to the pointer of the application `remove` destroyed, so
building its command reads freed memory; the name map built from the current catalog has no key
at all. -/
theorem mainWaitOn_serves_removed_entry :
    let foo : Application := ⟨"Foo".toList, "foo".toList, false, [], [], false, false⟩
    let env : WaitOnEnv :=
      ⟨"/bin/sh".toList, "xterm".toList, [], false, none, fun app _ => app.exec⟩
    let appm := (AppManager.empty []).add "foo.desktop".toList 0 foo
    let appm' := appm.remove "foo.desktop".toList 0
    mainWaitOn env (fun name _ => name) false ⟨appm, none⟩
        [⟨some [⟨"foo.desktop".toList, 0, .deleted⟩], none⟩, ⟨none, some ('x', "Foo".toList)⟩] =
      [⟨["Foo".toList], some "Foo".toList, some ⟨0, []⟩, .undefined⟩] ∧
      appm.deref 0 = some foo ∧ appm'.deref 0 = none ∧
      (formatNameAppMapping appm'.viewNameAppMapping (appm'.formatPtr fun name _ => name)
        false).keys = [] := by
  decide

end J4DmenuDesktop
