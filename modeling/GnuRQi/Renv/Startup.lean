import GnuRQi.Renv.Download
import GnuRQi.Renv.Paths

/-!
# The start-up script

The script loads renv from the library of the project, and if this fails it downloads and installs
renv first. `ExecRun` lists all courses that this can take; the properties of the script hold for
every host, whatever it answers.
-/

namespace GnuRQi.Renv

open R R.Script Text

/-- What the script is started with: the options `renv.config.autoloader.enabled` and
`renv.autoloader.running`, the working directory and the version of renv. -/
structure Settings where
  enabledOption : Option Bool
  running : Running
  project : Chars
  version : Chars

/-- `tolower(value) %in% c("true", "t", "1")`. -/
def isTruthy (value : Chars) : Bool :=
  value.map Char.toLower ∈ ["true".toList, ['t'], ['1']]

/-- Whether the autoloader is enabled: the option, else not in a sub-process of R, else the first
environment variable that is set, else it is. -/
def autoloaderEnabled (settings : Settings) (env : Env) : Bool :=
  match settings.enabledOption with
  | some override => override
  | none =>
      if env "R_LIBS".toList ≠ none ∧ env "R_CMD".toList ≠ none then false
      else
        match ["RENV_CONFIG_AUTOLOADER_ENABLED".toList, "RENV_AUTOLOADER_ENABLED".toList,
          "RENV_ACTIVATE_PROJECT".toList].findSome? env with
        | some value => isTruthy value
        | none => true

section Bootstrap

variable (host : Host) (s : Session) (version : Chars)

/-- `renv_bootstrap_install(version, tarball, library)`. -/
def renvBootstrapInstall (tarball library : Chars) : Script Event Unit := do
  let (status, output) ← perform (.install tarball library) fun history =>
    .ok (host.install history)
  match status with
  | none | some 0 => return ()
  | some _ =>
      stop (['\n'].intercalate ("installation of renv failed".toList ::
        List.replicate "installation of renv failed".toList.length '=' :: output))

/-- `bootstrap(version, library)`. -/
def bootstrap (library : Chars) : Script Event Unit := do
  let tarball ← failWith "failed to download:\n".toList
    (renvBootstrapDownload host s version)
  onExit (.unlink tarball)
    (failWith "failed to install:\n".toList (renvBootstrapInstall host tarball library))

/-- The hooks of `renv::autoload`, by whether they are functions. The handler that the script gives
for their errors is nowhere defined. -/
def runHooks : List Bool → Script Event Unit
  | [] => return ()
  | isFunction :: rest =>
      if isFunction then stop "object 'warnify' not found".toList else runHooks rest

/-- `renv_bootstrap_load(project, libpath, version)`. -/
def renvBootstrapLoad (project libpath : Chars) : Script Event Bool := do
  let found ← perform (.require libpath) fun history => .ok (host.requireNamespace history)
  if !found then return false
  else do
    runHooks host.hooks
    perform (.load project) host.load
    return true

/-- What `renv_bootstrap_run` warns of at its end. -/
def notFound : Chars :=
  ['\n'].intercalate
    ["Failed to find an renv installation: the project will not be loaded.".toList,
      "Use `renv::activate()` to re-initialize the project.".toList]

/-- `renv_bootstrap_run(version, libpath)`. -/
def renvBootstrapRun (project libpath : Chars) : Script Event Unit := do
  bootstrap host s version libpath
  if s.getenv "RENV_BOOTSTRAP_INSTALL_ONLY".toList ≠ none then return ()
  else do
    let found ← perform (.require libpath) fun history => .ok (host.requireNamespace history)
    if found then perform (.load project) host.load
    else emit (.warning notFound)

/-- `renv_bootstrap_exec(project, libpath, version)`. -/
def renvBootstrapExec (project libpath : Chars) : Script Event Unit := do
  let loaded ← renvBootstrapLoad host project libpath
  if loaded then return () else renvBootstrapRun host s version project libpath

end Bootstrap

section Autoload

variable (host : Host) (disk : Disk) (s : Session) (settings : Settings)

/-- `unloadNamespace("renv")`, if it has been loaded. -/
def unloadRenv : Script Event Unit :=
  if host.loadedRenv then perform .unloadNamespace host.unloadNamespace else return ()

/-- `readLines(path)` in `renv_bootstrap_profile_load(project)`, if it gets there. -/
def readProfile : Script Event Unit :=
  let path := renvBootstrapPathsRenv s.getenv settings.project false "profile".toList
  if (s.getenv "RENV_PROFILE".toList).getD [] = [] ∧ s.files path ≠ none then
    lookup fun history => host.readLines history path
  else return ()

/-- `renv_bootstrap_profile_load(project)`, with the environment after it. -/
def loadProfile : Script Event Env := do
  readProfile host s settings
  let env := (renvBootstrapProfileLoad s.files s.getenv settings.project).2
  match env "RENV_PROFILE".toList with
  | none => return env
  | some profile =>
      if s.getenv "RENV_PROFILE".toList = some profile then return env
      else do
        emit (.setProfile profile)
        return env

/-- The script up to the construction of the paths. -/
def prepare : Script Event Env := do
  emit .consent
  unloadRenv host
  loadProfile host s settings

/-- Some warnings. -/
def warn : List Chars → Script Event Unit
  | [] => return ()
  | message :: rest => do
      emit (.warning message)
      warn rest

/-- The path of the library from its root and the prefix for the platform. -/
def libraryPath (env : Env) : Script Event Chars := do
  let root ← lookup fun _ => renvBootstrapLibraryRoot disk env settings.project
  warn (renvBootstrapPlatformPrefix env host.machine).1
  let path ← lookup fun _ => (renvBootstrapPlatformPrefix env host.machine).2
  return filePath root path

/-- The script once it is running. -/
def startRenv : Script Event Unit := do
  let env ← prepare host s settings
  let libpath ← libraryPath host disk settings env
  renvBootstrapExec host s settings.version settings.project libpath

/-- The profile of the user is sourced, unless this is switched off. -/
def sourceUserProfile : Script Event Unit := do
  let profile := (s.getenv "R_PROFILE_USER".toList).getD "~/.Rprofile".toList
  let found ← fileExists host profile
  if found && isTruthy ((s.getenv "RENV_CONFIG_USER_PROFILE".toList).getD "TRUE".toList) then
    perform (.sourceProfile profile) host.sourceProfile
  else return ()

/-- The warning of a script within another one. -/
def recursiveAttempt : Chars := "ignoring recursive attempt to run renv autoloader".toList

/-- The script, with the value of its `return`. -/
def autoload : Script Event (Option Bool) :=
  if !autoloaderEnabled settings s.getenv then do
    sourceUserProfile host s
    return some false
  else if settings.running = .true then do
    emit (.warning recursiveAttempt)
    return some true
  else do
    emit (.setRunning .true)
    onExit (.setRunning .null) (startRenv host disk s settings)
    return none

end Autoload

/-! ## The courses of a run -/

/-- What may follow after an installation: nothing where it has failed or where this was all to be
done, else renv is loaded or not found. -/
inductive Afterwards (host : Host) (s : Session) (history : List Event) (project libpath : Chars) :
    Except Chars Unit → List Event → Prop
  | failed (message : Chars) : Afterwards host s history project libpath (.error message) []
  | only (honly : s.getenv "RENV_BOOTSTRAP_INSTALL_ONLY".toList ≠ none) :
      Afterwards host s history project libpath (.ok ()) []
  | loaded {result : Except Chars Unit}
      (hfound : host.requireNamespace (history ++ [.require libpath]) = true)
      (hload : host.load (history ++ [.require libpath, .load project]) = result) :
      Afterwards host s history project libpath result [.require libpath, .load project]
  | notFound (hfound : host.requireNamespace (history ++ [.require libpath]) = false) :
      Afterwards host s history project libpath (.ok ()) [.require libpath, .warning notFound]

/-- The courses of `renv_bootstrap_exec` after some history: renv is loaded at once, a hook stops
the script, nothing can be downloaded, or a tarball is installed and removed. -/
inductive ExecRun (host : Host) (s : Session) (version : Chars)
    (history : List Event) (project libpath : Chars) : Except Chars Unit → List Event → Prop
  | loaded {result : Except Chars Unit}
      (hfound : host.requireNamespace (history ++ [.require libpath]) = true)
      (hhooks : true ∉ host.hooks)
      (hload : host.load (history ++ [.require libpath, .load project]) = result) :
      ExecRun host s version history project libpath result [.require libpath, .load project]
  | hook (hfound : host.requireNamespace (history ++ [.require libpath]) = true)
      (hhooks : true ∈ host.hooks) :
      ExecRun host s version history project libpath
        (.error "object 'warnify' not found".toList) [.require libpath]
  | notDownloaded {fetches : List Event}
      (hfound : host.requireNamespace (history ++ [.require libpath]) = false)
      (h : OnlyFetches fetches) :
      ExecRun host s version history project libpath
        (.error ("failed to download:\n".toList ++ "All download methods failed".toList))
        (.require libpath :: fetches)
  | installed {result : Except Chars Unit} {fetches rest : List Event} {tarball : Chars}
      (hfound : host.requireNamespace (history ++ [.require libpath]) = false)
      (h : OnlyFetches fetches)
      (hexists : host.fileExists (history ++ .require libpath :: fetches) tarball = true)
      (horigin : HasOrigin host s version (history ++ [.require libpath]) fetches tarball)
      (hrest : Afterwards host s (history ++ .require libpath :: (fetches ++
        [.install tarball libpath, .unlink tarball])) project libpath result rest) :
      ExecRun host s version history project libpath result
        (.require libpath :: (fetches ++ .install tarball libpath :: .unlink tarball :: rest))

section Runs

variable {host : Host} {s : Session}  {version project libpath : Chars}
  {history : List Event}

/-- The first hook that is a function stops the script. -/
theorem gives_runHooks (hooks : List Bool) :
    Gives history (runHooks hooks) fun result events => events = [] ∧
      ((true ∈ hooks ∧ result = .error "object 'warnify' not found".toList) ∨
        (true ∉ hooks ∧ result = .ok ())) := by
  induction hooks with
  | nil => exact gives_pure ⟨rfl, Or.inr ⟨List.not_mem_nil, rfl⟩⟩
  | cons isFunction rest ih =>
      cases isFunction with
      | true => exact gives_stop ⟨rfl, Or.inl ⟨List.mem_cons_self, rfl⟩⟩
      | false =>
          refine ih.mono ?_
          rintro result events ⟨hevents, ⟨hmem, hresult⟩ | ⟨hmem, hresult⟩⟩
          · exact ⟨hevents, Or.inl ⟨List.mem_cons_of_mem false hmem, hresult⟩⟩
          · have hrest (h : true ∈ false :: rest) : true ∈ rest :=
              (List.mem_cons.mp h).resolve_left Bool.false_ne_true.symm
            exact ⟨hevents, Or.inr ⟨fun h => hmem (hrest h), hresult⟩⟩

theorem gives_requireNamespace {result : Chars} :
    Gives history (perform (.require result) fun history => .ok (host.requireNamespace history))
      fun found events => events = [.require result] ∧
        found = .ok (host.requireNamespace (history ++ [.require result])) := ⟨rfl, rfl⟩

/-- A tarball that is installed is removed, whether the installation fails or not. -/
theorem gives_bootstrap (library : Chars) :
    Gives history (bootstrap host s version library) fun result events =>
      (OnlyFetches events ∧ result =
        .error ("failed to download:\n".toList ++ "All download methods failed".toList)) ∨
      ∃ fetches tarball, OnlyFetches fetches ∧
        host.fileExists (history ++ fetches) tarball = true ∧
        HasOrigin host s version history fetches tarball ∧
        events = fetches ++ [.install tarball library, .unlink tarball] := by
  have hdownload : Gives history (failWith "failed to download:\n".toList
      (renvBootstrapDownload host s version)) fun result events => OnlyFetches events ∧
        ((∃ path, result = .ok path ∧ host.fileExists (history ++ events) path = true ∧
          HasOrigin host s version history events path) ∨
          result = .error ("failed to download:\n".toList ++
            "All download methods failed".toList)) := by
    refine gives_failWith (gives_download.mono ?_)
    rintro result events ⟨hevents, ⟨path, rfl, hpath⟩ | rfl⟩
    · exact ⟨hevents, Or.inl ⟨path, rfl, hpath⟩⟩
    · exact ⟨hevents, Or.inr rfl⟩
  refine gives_bind hdownload ?_ ?_
  · rintro message events ⟨hevents, ⟨path, ⟨⟩, -⟩ | hmessage⟩
    exact Or.inl ⟨hevents, by rw [Except.error.inj hmessage]⟩
  · rintro tarball events ⟨hevents, ⟨path, hpath, hexists, horigin⟩ | ⟨⟨⟩⟩⟩
    obtain rfl := Except.ok.inj hpath
    have hinstall : ∀ history, Gives history (renvBootstrapInstall host tarball library)
        fun _ events => events = [.install tarball library] := by
      intro history
      have hperform : Gives history (perform (.install tarball library) fun history =>
          .ok (host.install history)) fun _ events => events = [.install tarball library] := rfl
      refine gives_bind hperform (fun _ _ h => h) ?_
      rintro ⟨status, output⟩ events rfl
      match status with
      | none => exact gives_pure rfl
      | some 0 => exact gives_pure rfl
      | some (n + 1) => exact gives_stop rfl
    -- `on.exit` removes the tarball after an error as well.
    refine gives_onExit (gives_failWith ((hinstall _).mono ?_))
    rintro result later rfl
    exact Or.inr ⟨events, tarball, hevents, hexists, horigin, rfl⟩

/-- `renv_bootstrap_load` loads the project, is stopped by a hook, or finds no renv. -/
theorem gives_load :
    Gives history (renvBootstrapLoad host project libpath) fun result events =>
      (host.requireNamespace (history ++ [.require libpath]) = true ∧ true ∉ host.hooks ∧
        result = (host.load (history ++ [.require libpath, .load project])).map (fun _ => true) ∧
        events = [.require libpath, .load project]) ∨
      (host.requireNamespace (history ++ [.require libpath]) = true ∧ true ∈ host.hooks ∧
        result = .error "object 'warnify' not found".toList ∧ events = [.require libpath]) ∨
      (host.requireNamespace (history ++ [.require libpath]) = false ∧ result = .ok false ∧
        events = [.require libpath]) := by
  refine gives_bind gives_requireNamespace (fun _ _ h => nomatch h.2) ?_
  rintro found events ⟨rfl, hfound⟩
  cases found with
  | false => exact gives_pure (Or.inr (Or.inr ⟨(Except.ok.inj hfound).symm, rfl, rfl⟩))
  | true =>
      have hfound := (Except.ok.inj hfound).symm
      refine gives_bind (gives_runHooks host.hooks) ?_ ?_
      · rintro message events ⟨rfl, ⟨hhooks, hmessage⟩ | ⟨-, ⟨⟩⟩⟩
        exact Or.inr (Or.inl ⟨hfound, hhooks, by rw [Except.error.inj hmessage], rfl⟩)
      · rintro ⟨⟩ events ⟨rfl, ⟨-, ⟨⟩⟩ | ⟨hhooks, -⟩⟩
        have hload : Gives (history ++ [.require libpath] ++ []) (perform (.load project) host.load)
            fun result events => events = [.load project] ∧
              result = host.load (history ++ [.require libpath, .load project]) :=
          ⟨rfl, congrArg host.load (by simp)⟩
        refine gives_bind hload ?_ ?_
        · rintro message events ⟨rfl, hmessage⟩
          exact Or.inl ⟨hfound, hhooks, by rw [← hmessage]; rfl, rfl⟩
        · rintro ⟨⟩ events ⟨rfl, hresult⟩
          exact gives_pure (Or.inl ⟨hfound, hhooks, by rw [← hresult]; rfl, rfl⟩)

/-- The courses of `renv_bootstrap_run`. -/
theorem gives_run :
    Gives history (renvBootstrapRun host s version project libpath) fun result events =>
      (OnlyFetches events ∧ result =
        .error ("failed to download:\n".toList ++ "All download methods failed".toList)) ∨
      ∃ fetches tarball rest, OnlyFetches fetches ∧
        host.fileExists (history ++ fetches) tarball = true ∧
        HasOrigin host s version history fetches tarball ∧
        Afterwards host s (history ++ (fetches ++ [.install tarball libpath, .unlink tarball]))
          project libpath result rest ∧
        events = fetches ++ .install tarball libpath :: .unlink tarball :: rest := by
  refine gives_bind (gives_bootstrap libpath) ?_ ?_
  · rintro message events (⟨hevents, hmessage⟩ |
      ⟨fetches, tarball, hfetches, hexists, horigin, rfl⟩)
    · exact Or.inl ⟨hevents, by rw [Except.error.inj hmessage]⟩
    · exact Or.inr ⟨fetches, tarball, [], hfetches, hexists, horigin, .failed message, rfl⟩
  · rintro ⟨⟩ events (⟨-, ⟨⟩⟩ | ⟨fetches, tarball, hfetches, hexists, horigin, rfl⟩)
    generalize hdone : history ++ (fetches ++ [.install tarball libpath, .unlink tarball]) = done
    have hafterwards : Gives done (if s.getenv "RENV_BOOTSTRAP_INSTALL_ONLY".toList ≠ none then
        pure () else do
          let found ← perform (.require libpath) fun history =>
            .ok (host.requireNamespace history)
          if found then perform (.load project) host.load else emit (.warning notFound))
        (Afterwards host s done project libpath) := by
      split_ifs with honly
      · exact gives_pure (.only honly)
      · refine gives_bind gives_requireNamespace (fun _ _ h => nomatch h.2) ?_
        rintro found events ⟨rfl, hfound⟩
        cases found with
        | true =>
            exact gives_perform (Afterwards.loaded (Except.ok.inj hfound).symm
              (congrArg host.load (by simp)))
        | false => exact gives_emit (Afterwards.notFound (Except.ok.inj hfound).symm)
    refine hafterwards.mono fun result rest hrest => ?_
    exact Or.inr ⟨fetches, tarball, rest, hfetches, hexists, horigin, hdone ▸ hrest, by simp⟩

theorem gives_exec :
    Gives history (renvBootstrapExec host s version project libpath)
      (ExecRun host s version history project libpath) := by
  refine gives_bind gives_load ?_ ?_
  · rintro message events (⟨hfound, hhooks, hresult, rfl⟩ | ⟨hfound, hhooks, hresult, rfl⟩ |
      ⟨-, ⟨⟩, -⟩)
    · refine .loaded hfound hhooks ?_
      cases hload : host.load (history ++ [.require libpath, .load project]) with
      | ok => rw [hload] at hresult; cases hresult
      | error other => rw [hload] at hresult; rw [Except.error.inj hresult]
    · rw [Except.error.inj hresult]
      exact .hook hfound hhooks
  · rintro loaded events (⟨hfound, hhooks, hresult, rfl⟩ | ⟨hfound, hhooks, ⟨⟩, rfl⟩ |
      ⟨hfound, hresult, rfl⟩)
    · cases hload : host.load (history ++ [.require libpath, .load project]) with
      | ok =>
          rw [hload] at hresult
          rw [Except.ok.inj hresult]
          exact gives_pure (.loaded hfound hhooks hload)
      | error other => rw [hload] at hresult; cases hresult
    · rw [Except.ok.inj hresult]
      refine gives_run.mono ?_
      rintro result events (⟨hevents, rfl⟩ |
        ⟨fetches, tarball, rest, hfetches, hexists, horigin, hrest, rfl⟩)
      · exact .notDownloaded hfound hevents
      · rw [List.append_assoc] at hexists hrest
        exact .installed hfound hfetches hexists horigin hrest

variable {disk : Disk} {settings : Settings}

/-- What happens before the library is looked for. -/
def IsOpening : Event → Prop
  | .consent | .unloadNamespace | .setProfile _ | .warning _ => True
  | _ => False

/-- The environment once the profile is loaded. -/
def loadedEnv (s : Session) (settings : Settings) : Env :=
  (renvBootstrapProfileLoad s.files s.getenv settings.project).2

/-- The library of the project for the platform. -/
def IsLibrary (host : Host) (disk : Disk) (s : Session) (settings : Settings)
    (libpath : Chars) : Prop :=
  ∃ root path, renvBootstrapLibraryRoot disk (loadedEnv s settings) settings.project = .ok root ∧
    (renvBootstrapPlatformPrefix (loadedEnv s settings) host.machine).2 = .ok path ∧
    libpath = filePath root path

/-- Only such events. -/
def OnlyOpening (events : List Event) : Prop := ∀ event ∈ events, IsOpening event

theorem onlyOpening_nil : OnlyOpening [] := nofun

theorem onlyOpening_singleton {event : Event} (h : IsOpening event) : OnlyOpening [event] :=
  List.forall_mem_singleton.mpr h

theorem OnlyOpening.append {first second : List Event} (h : OnlyOpening first)
    (hsecond : OnlyOpening second) : OnlyOpening (first ++ second) :=
  fun event hevent => (List.mem_append.mp hevent).elim (h event) (hsecond event)

theorem gives_unloadRenv :
    Gives history (unloadRenv host) fun _ events => OnlyOpening events := by
  rw [unloadRenv]
  split_ifs
  · exact gives_perform (onlyOpening_singleton trivial)
  · exact gives_pure onlyOpening_nil

theorem gives_readProfile :
    Gives history (readProfile host s settings) fun _ events => events = [] := by
  rw [readProfile]
  split_ifs
  · exact gives_lookup rfl
  · exact gives_pure rfl

/-- The profile is loaded, or its file cannot be read. -/
theorem gives_loadProfile :
    Gives history (loadProfile host s settings) fun result events => OnlyOpening events ∧
      ∀ env, result = .ok env → env = loadedEnv s settings := by
  refine gives_bind gives_readProfile ?_ ?_
  · rintro message events rfl
    exact ⟨onlyOpening_nil, nofun⟩
  · rintro _ events rfl
    have henv : ∀ env, (Except.ok (loadedEnv s settings) : Except Chars Env) = .ok env →
        env = loadedEnv s settings := fun env h => (Except.ok.inj h).symm
    dsimp only
    split
    · exact gives_pure ⟨onlyOpening_nil, henv⟩
    · split_ifs
      · exact gives_pure ⟨onlyOpening_nil, henv⟩
      · exact gives_emit_bind (gives_pure ⟨onlyOpening_singleton trivial, henv⟩)

theorem gives_prepare :
    Gives history (prepare host s settings) fun result events => OnlyOpening events ∧
      ∀ env, result = .ok env → env = loadedEnv s settings := by
  have hconsent : OnlyOpening [.consent] := onlyOpening_singleton trivial
  refine gives_emit_bind (gives_bind gives_unloadRenv ?_ ?_)
  · exact fun message first hfirst => ⟨hconsent.append hfirst, nofun⟩
  · intro _ first hfirst
    exact gives_loadProfile.mono fun result second hsecond =>
      ⟨hconsent.append (hfirst.append hsecond.1), hsecond.2⟩

theorem gives_warn (messages : List Chars) :
    Gives history (warn messages) fun result events => result = .ok () ∧ OnlyOpening events := by
  induction messages generalizing history with
  | nil => exact gives_pure ⟨rfl, onlyOpening_nil⟩
  | cons message rest ih =>
      refine gives_emit_bind (ih.mono fun result events h => ⟨h.1, ?_⟩)
      exact List.forall_mem_cons.mpr ⟨trivial, h.2⟩

theorem gives_libraryPath :
    Gives history (libraryPath host disk settings (loadedEnv s settings)) fun result events =>
      OnlyOpening events ∧ ∀ libpath, result = .ok libpath →
        IsLibrary host disk s settings libpath := by
  have hroot : Gives history
      (lookup fun _ => renvBootstrapLibraryRoot disk (loadedEnv s settings) settings.project)
      fun root events => events = [] ∧
        root = renvBootstrapLibraryRoot disk (loadedEnv s settings) settings.project := ⟨rfl, rfl⟩
  refine gives_bind hroot ?_ ?_
  · rintro message events ⟨rfl, -⟩
    exact ⟨onlyOpening_nil, nofun⟩
  · rintro root events ⟨rfl, hroot⟩
    refine gives_bind (gives_warn _) (fun _ _ h => nomatch h.1) ?_
    rintro _ warnings ⟨-, hwarnings⟩
    have hpath : Gives (history ++ [] ++ warnings)
        (lookup fun _ => (renvBootstrapPlatformPrefix (loadedEnv s settings) host.machine).2)
        fun path events => events = [] ∧
          path = (renvBootstrapPlatformPrefix (loadedEnv s settings) host.machine).2 := ⟨rfl, rfl⟩
    refine gives_bind hpath ?_ ?_
    · rintro message events ⟨rfl, -⟩
      exact ⟨onlyOpening_nil.append (hwarnings.append onlyOpening_nil), nofun⟩
    · rintro path events ⟨rfl, hpath⟩
      refine gives_pure ⟨onlyOpening_nil.append (hwarnings.append onlyOpening_nil), ?_⟩
      intro libpath hlibpath
      exact ⟨root, path, hroot.symm, hpath.symm, (Except.ok.inj hlibpath).symm⟩

theorem gives_startRenv :
    Gives history (startRenv host disk s settings) fun result events =>
      ∃ opening, OnlyOpening opening ∧
        ((events = opening ∧ ∃ message, result = .error message) ∨
          ∃ libpath rest, IsLibrary host disk s settings libpath ∧ events = opening ++ rest ∧
            ExecRun host s settings.version (history ++ opening) settings.project libpath result
              rest) := by
  refine gives_bind gives_prepare ?_ ?_
  · exact fun message opening h => ⟨opening, h.1, Or.inl ⟨rfl, message, rfl⟩⟩
  · rintro env opening ⟨hopening, henv⟩
    obtain rfl := henv env rfl
    refine gives_bind gives_libraryPath ?_ ?_
    · exact fun message later h => ⟨_, hopening.append h.1, Or.inl ⟨rfl, message, rfl⟩⟩
    · rintro libpath later ⟨hlater, hlibpath⟩
      refine gives_exec.mono fun result rest hrun => ?_
      rw [List.append_assoc] at hrun
      exact ⟨opening ++ later, hopening.append hlater,
        Or.inr ⟨libpath, rest, hlibpath libpath rfl, (List.append_assoc _ _ _).symm, hrun⟩⟩

/-- The courses of the script: it is disabled, it is running already, it stops before it has a
library, or it goes through `renv_bootstrap_exec`. -/
inductive AutoloadRun (host : Host) (disk : Disk) (s : Session) (settings : Settings)
    (history : List Event) : Except Chars (Option Bool) → List Event → Prop
  | disabled (result : Except Chars Unit) {events : List Event}
      (henabled : autoloaderEnabled settings s.getenv = false)
      (h : events = [] ∨ ∃ profile, events = [.sourceProfile profile]) :
      AutoloadRun host disk s settings history (result.map fun _ => some false) events
  | recursive (henabled : autoloaderEnabled settings s.getenv = true)
      (hrunning : settings.running = .true) :
      AutoloadRun host disk s settings history (.ok (some true))
        [.warning recursiveAttempt]
  | stopped (message : Chars) {opening : List Event}
      (henabled : autoloaderEnabled settings s.getenv = true)
      (hrunning : settings.running ≠ .true) (hopening : OnlyOpening opening) :
      AutoloadRun host disk s settings history (.error message)
        (.setRunning .true :: (opening ++ [.setRunning .null]))
  | executed {result : Except Chars Unit} {opening rest : List Event} {libpath : Chars}
      (henabled : autoloaderEnabled settings s.getenv = true)
      (hrunning : settings.running ≠ .true) (hopening : OnlyOpening opening)
      (hlibpath : IsLibrary host disk s settings libpath)
      (hrun : ExecRun host s settings.version (history ++ .setRunning .true :: opening)
        settings.project libpath result rest) :
      AutoloadRun host disk s settings history (result.map fun _ => none)
        (.setRunning .true :: (opening ++ rest ++ [.setRunning .null]))

theorem gives_sourceUserProfile :
    Gives history (sourceUserProfile host s) fun _ events =>
      events = [] ∨ ∃ profile, events = [.sourceProfile profile] := by
  generalize hprofile : (s.getenv "R_PROFILE_USER".toList).getD "~/.Rprofile".toList = profile
  have hfound : Gives history (fileExists host profile) fun result events =>
      result = .ok (host.fileExists history profile) ∧ events = [] := ⟨rfl, rfl⟩
  rw [sourceUserProfile, hprofile]
  refine gives_bind hfound (fun _ _ h => nomatch h.1) ?_
  rintro found events ⟨-, rfl⟩
  split_ifs
  · exact gives_perform (Or.inr ⟨profile, rfl⟩)
  · exact gives_pure (Or.inl rfl)

/-- A script within another one only warns. -/
theorem gives_autoload_recursive (henabled : autoloaderEnabled settings s.getenv = true)
    (hrunning : settings.running = .true) :
    Gives history (autoload host disk s settings) fun result events =>
      result = .ok (some true) ∧ events = [.warning recursiveAttempt] := by
  rw [autoload, henabled, hrunning]
  exact ⟨rfl, rfl⟩

theorem gives_autoload :
    Gives history (autoload host disk s settings)
      (AutoloadRun host disk s settings history) := by
  rw [autoload]
  cases henabled : autoloaderEnabled settings s.getenv with
  | false =>
      refine gives_bind gives_sourceUserProfile
        (fun message events h => .disabled (.error message) henabled h) fun _ events hevents => ?_
      exact gives_pure (.disabled (.ok ()) henabled (by rwa [List.append_nil]))
  | true =>
      rw [if_neg (by decide)]
      split_ifs with hrunning
      · exact gives_emit_bind (gives_pure (.recursive henabled hrunning))
      · have hstart : Gives (history ++ [.setRunning .true])
            (onExit (.setRunning .null) (startRenv host disk s settings))
            fun result events => AutoloadRun host disk s settings history
              (result.map fun _ => none) (.setRunning .true :: events) := by
          refine gives_onExit (gives_startRenv.mono ?_)
          rintro result events ⟨opening, hopening, ⟨rfl, message, rfl⟩ |
            ⟨libpath, rest, hlibpath, rfl, hrun⟩⟩
          · exact .stopped message henabled hrunning hopening
          · rw [List.append_assoc] at hrun
            exact .executed henabled hrunning hopening hlibpath hrun
        refine gives_emit_bind (gives_bind hstart (fun _ _ h => h) fun _ events h => ?_)
        exact gives_pure (by rwa [List.append_nil])

end Runs

/-! ## What every run keeps -/

section Safety

variable {host : Host} {disk : Disk} {s : Session}  {settings : Settings}
  {version project libpath : Chars} {history : List Event}

/-- The option `renv.autoloader.running` after some events. -/
def runningAfter (running : Running) (events : List Event) : Running :=
  events.foldl (fun current event => match event with
    | .setRunning value => value
    | _ => current) running

/-- The option is not touched by these events. -/
def KeepsRunning (events : List Event) : Prop := ∀ value, .setRunning value ∉ events

theorem KeepsRunning.append {first second : List Event} (h : KeepsRunning first)
    (hsecond : KeepsRunning second) : KeepsRunning (first ++ second) :=
  fun value hvalue => (List.mem_append.mp hvalue).elim (h value) (hsecond value)

theorem KeepsRunning.runningAfter_eq {events : List Event} (h : KeepsRunning events)
    (running : Running) : runningAfter running events = running := by
  induction events with
  | nil => rfl
  | cons event events ih =>
      have hevents : KeepsRunning events := fun value hvalue =>
        h value (List.mem_cons_of_mem _ hvalue)
      cases event with
      | setRunning value => exact absurd List.mem_cons_self (h value)
      | _ => exact ih hevents

theorem OnlyOpening.keepsRunning {events : List Event} (h : OnlyOpening events) :
    KeepsRunning events := fun _ hvalue => h _ hvalue

theorem OnlyFetches.keepsRunning {events : List Event} (h : OnlyFetches events) :
    KeepsRunning events := fun _ hvalue => h _ hvalue

theorem Afterwards.keepsRunning {result : Except Chars Unit} {events : List Event}
    (h : Afterwards host s history project libpath result events) : KeepsRunning events := by
  intro value hvalue
  cases h <;> simp at hvalue

theorem ExecRun.keepsRunning {result : Except Chars Unit} {events : List Event}
    (h : ExecRun host s version history project libpath result events) :
    KeepsRunning events := by
  cases h with
  | loaded | hook => intro value hvalue; simp at hvalue
  | notDownloaded hfound h =>
      have hrequire : KeepsRunning [.require libpath] := by intro value hvalue; simp at hvalue
      exact hrequire.append h.keepsRunning
  | @installed _ fetches rest tarball hfound h hexists horigin hrest =>
      have hrequire : KeepsRunning [.require libpath] := by intro value hvalue; simp at hvalue
      have hinstall : KeepsRunning [.install tarball libpath, .unlink tarball] := by
        intro value hvalue; simp at hvalue
      exact hrequire.append (h.keepsRunning.append (hinstall.append hrest.keepsRunning))

/-- What the script must not do twice at once: everything but a warning or the profile of the
user. -/
def IsGuarded : Event → Prop
  | .setRunning _ | .sourceProfile _ | .warning _ => False
  | _ => True

/-- A step between the two settings of the option takes place while it is `TRUE`. -/
theorem running_of_guarded {middle before after : List Event} {event : Event} {running : Running}
    (hmiddle : KeepsRunning middle) (hevent : IsGuarded event)
    (h : .setRunning .true :: (middle ++ [.setRunning .null]) = before ++ event :: after) :
    runningAfter running before = .true := by
  cases before with
  | nil =>
      obtain ⟨rfl, -⟩ := List.cons.inj h
      exact hevent.elim
  | cons first before =>
      obtain ⟨rfl, hrest⟩ := List.cons.inj h
      have hbefore : KeepsRunning before := by
        obtain ⟨later, rfl, hlater⟩ | ⟨later, rfl, -⟩ := List.append_eq_append_iff.mp hrest
        · obtain ⟨-, hlast⟩ | ⟨-, hlast⟩ := List.singleton_eq_append_iff.mp hlater
          · obtain ⟨rfl, -⟩ := List.cons.inj hlast
            exact hevent.elim
          · cases hlast
        · exact fun value hvalue => hmiddle value (List.mem_append_left later hvalue)
      exact hbefore.runningAfter_eq .true

/-- The value that the option has at the end: a script that is enabled and not within another one
leaves it without a value. -/
def runningAtEnd (settings : Settings) (env : Env) : Running :=
  if autoloaderEnabled settings env = true ∧ settings.running ≠ .true then .null
  else settings.running

/-- With this value of the option an enabled script does nothing but warn. -/
def IgnoresStart (running : Running) : Prop :=
  ∀ (host : Host) (disk : Disk) (s : Session) (settings : Settings) (history : List Event),
    autoloaderEnabled settings s.getenv = true → settings.running = running →
    Gives history (autoload host disk s settings) fun result events =>
      result = .ok (some true) ∧ events = [.warning recursiveAttempt]

/-- What a run does to the option. -/
structure GuardsRunning (settings : Settings) (env : Env) (events : List Event) : Prop where
  atEnd : runningAfter settings.running events = runningAtEnd settings env
  guarded : ∀ before event after, events = before ++ event :: after → IsGuarded event →
    runningAfter settings.running before = .true

theorem guardsRunning_idle {env : Env} {events : List Event}
    (h : runningAtEnd settings env = settings.running) (hkeeps : KeepsRunning events)
    (hevents : ∀ event ∈ events, ¬IsGuarded event) : GuardsRunning settings env events where
  atEnd := (hkeeps.runningAfter_eq settings.running).trans h.symm
  guarded := by
    rintro before event after rfl hevent
    exact (hevents event (List.mem_append_right before List.mem_cons_self) hevent).elim

theorem guardsRunning_bracket {env : Env} {middle : List Event}
    (henabled : autoloaderEnabled settings env = true) (hrunning : settings.running ≠ .true)
    (hmiddle : KeepsRunning middle) :
    GuardsRunning settings env (.setRunning .true :: (middle ++ [.setRunning .null])) where
  atEnd := by
    rw [runningAtEnd, if_pos ⟨henabled, hrunning⟩]
    simp [runningAfter]
  guarded before event after h hevent := running_of_guarded hmiddle hevent h

theorem AutoloadRun.guardsRunning {result : Except Chars (Option Bool)} {events : List Event}
    (h : AutoloadRun host disk s settings history result events) :
    GuardsRunning settings s.getenv events := by
  cases h with
  | disabled result henabled h =>
      have hend : runningAtEnd settings s.getenv = settings.running := by
        simp [runningAtEnd, henabled]
      obtain rfl | ⟨profile, rfl⟩ := h
      · exact guardsRunning_idle hend nofun nofun
      · exact guardsRunning_idle hend (fun _ => by simp) (List.forall_mem_singleton.mpr id)
  | recursive henabled hrunning =>
      have hend : runningAtEnd settings s.getenv = settings.running := by
        simp [runningAtEnd, hrunning]
      exact guardsRunning_idle hend (fun _ => by simp) (List.forall_mem_singleton.mpr id)
  | stopped message henabled hrunning hopening =>
      exact guardsRunning_bracket henabled hrunning hopening.keepsRunning
  | @executed _ opening rest libpath henabled hrunning hopening hlibpath hrun =>
      exact guardsRunning_bracket henabled hrunning (hopening.keepsRunning.append hrun.keepsRunning)

/-- Whatever the host answers, the option is `TRUE` at every step of the script, so that a script
within the run is ignored, and it is `TRUE` at the end if and only if it was at the start. -/
theorem gives_autoload_running :
    Gives history (autoload host disk s settings) fun _ events =>
      runningAfter settings.running events = runningAtEnd settings s.getenv ∧
      (runningAfter settings.running events = .true ↔ settings.running = .true) ∧
      ∀ before event after, events = before ++ event :: after → IsGuarded event →
        runningAfter settings.running before = .true ∧
          IgnoresStart (runningAfter settings.running before) := by
  refine gives_autoload.mono ?_
  intro result events hrun
  obtain ⟨hend, hguarded⟩ := hrun.guardsRunning
  refine ⟨hend, ?_, ?_⟩
  · rw [hend, runningAtEnd]
    split_ifs with h
    · exact iff_of_false nofun h.2
    · rfl
  · intro before event after h hevent
    have hrunning := hguarded before event after h hevent
    refine ⟨hrunning, ?_⟩
    intro host disk s settings history henabled hnested
    exact gives_autoload_recursive henabled (hnested.trans hrunning)

/-- No installation is among these events. -/
def NoInstall (events : List Event) : Prop := ∀ tarball library, .install tarball library ∉ events

theorem OnlyOpening.noInstall {events : List Event} (h : OnlyOpening events) : NoInstall events :=
  fun _ _ hmem => h _ hmem

theorem OnlyFetches.noInstall {events : List Event} (h : OnlyFetches events) : NoInstall events :=
  fun _ _ hmem => h _ hmem

theorem Afterwards.noInstall {result : Except Chars Unit} {events : List Event}
    (h : Afterwards host s history project libpath result events) : NoInstall events := by
  intro tarball library hmem
  cases h <;> simp at hmem

/-- A run with an installation: renv was not found in the library of the project, and a tarball that
exists is installed there and removed at once. -/
theorem AutoloadRun.install {result : Except Chars (Option Bool)} {events : List Event}
    {tarball library : Chars} (h : AutoloadRun host disk s settings history result events)
    (hmem : .install tarball library ∈ events) :
    IsLibrary host disk s settings library ∧ ∃ earlier fetches rest,
      events = (earlier ++ .require library :: fetches) ++
        .install tarball library :: .unlink tarball :: rest ∧
      NoInstall (earlier ++ .require library :: fetches) ∧ NoInstall rest ∧
      OnlyFetches fetches ∧
      host.requireNamespace (history ++ earlier ++ [.require library]) = false ∧
      host.fileExists (history ++ (earlier ++ .require library :: fetches)) tarball = true ∧
      HasOrigin host s settings.version history (earlier ++ .require library :: fetches)
        tarball := by
  cases h with
  | disabled result henabled h =>
      obtain rfl | ⟨profile, rfl⟩ := h
      · cases hmem
      · simp at hmem
  | recursive => simp at hmem
  | stopped message henabled hrunning hopening =>
      have := hopening.noInstall tarball library
      simp [this] at hmem
  -- Only a run of the body gets as far as an installation.
  | @executed _ opening rest libpath henabled hrunning hopening hlibpath hrun =>
      have hfirst := hopening.noInstall tarball library
      cases hrun with
      | loaded | hook => simp [hfirst] at hmem
      | notDownloaded hfound h =>
          have := h.noInstall tarball library
          simp [hfirst, this] at hmem
      | @installed _ fetches rest other hfound h hexists horigin hrest =>
          have hfetches := h.noInstall tarball library
          have hlast := hrest.noInstall tarball library
          obtain ⟨rfl, rfl⟩ : tarball = other ∧ library = libpath := by
            simpa [hfirst, hfetches, hlast] using hmem
          refine ⟨hlibpath, .setRunning .true :: opening, fetches, rest ++ [.setRunning .null],
            ?_, ?_, ?_, h, hfound, ?_, ?_⟩
          · simp
          · intro tarball library hmem
            simp [hopening.noInstall tarball library, h.noInstall tarball library] at hmem
          · intro tarball library hmem
            simp [hrest.noInstall tarball library] at hmem
          · simpa using hexists
          · rw [List.append_assoc] at horigin
            have horigin' := horigin.append_left
            rwa [List.append_assoc] at horigin'

/-- In every run at most one tarball is installed. It exists, it goes into the library of the
project after renv was not found there, and it is removed directly afterwards. -/
theorem gives_autoload_install :
    Gives history (autoload host disk s settings) fun _ events =>
      ∀ before tarball library after, events = before ++ .install tarball library :: after →
        IsLibrary host disk s settings library ∧
        host.fileExists (history ++ before) tarball = true ∧
        (∃ earlier fetches, before = earlier ++ .require library :: fetches ∧
          OnlyFetches fetches ∧
          host.requireNamespace (history ++ earlier ++ [.require library]) = false) ∧
        NoInstall before ∧ ∃ rest, after = .unlink tarball :: rest ∧ NoInstall rest := by
  refine gives_autoload.mono ?_
  rintro result _ hrun before tarball library after rfl
  obtain ⟨hlibrary, earlier, fetches, rest, heq, hbefore, hrest, hfetches, hfound, hexists, -⟩ :=
    hrun.install (List.mem_append_right before List.mem_cons_self)
  have hlater : .install tarball library ∉ Event.unlink tarball :: rest := by
    simpa using hrest tarball library
  obtain ⟨rfl, -, rfl⟩ :=
    (List.append_cons_inj_of_notMem (hbefore tarball library) hlater).mp heq.symm
  exact ⟨hlibrary, hexists, ⟨earlier, fetches, rfl, hfetches, hfound⟩, hbefore, rest, rfl, hrest⟩

/-- No project is loaded among these events. -/
def NoLoad (events : List Event) : Prop := ∀ project, .load project ∉ events

theorem OnlyOpening.noLoad {events : List Event} (h : OnlyOpening events) : NoLoad events :=
  fun _ hmem => h _ hmem

theorem OnlyFetches.noLoad {events : List Event} (h : OnlyFetches events) : NoLoad events :=
  fun _ hmem => h _ hmem

/-- A run that loads a project: renv was found directly before, and with a hook that is a function
renv was installed by the same run. -/
theorem AutoloadRun.load {result : Except Chars (Option Bool)} {events : List Event}
    {project : Chars} (h : AutoloadRun host disk s settings history result events)
    (hmem : .load project ∈ events) :
    project = settings.project ∧ ∃ earlier library,
      events = (earlier ++ [.require library]) ++ .load project :: [.setRunning .null] ∧
      IsLibrary host disk s settings library ∧ NoLoad (earlier ++ [.require library]) ∧
      host.requireNamespace (history ++ (earlier ++ [.require library])) = true ∧
      (true ∈ host.hooks → ∃ tarball, .install tarball library ∈ earlier) := by
  cases h with
  | disabled result henabled h =>
      obtain rfl | ⟨profile, rfl⟩ := h
      · cases hmem
      · simp at hmem
  | recursive => simp at hmem
  | stopped message henabled hrunning hopening =>
      have := hopening.noLoad project
      simp [this] at hmem
  | @executed _ opening rest libpath henabled hrunning hopening hlibpath hrun =>
      have hfirst := hopening.noLoad project
      cases hrun with
      | hook => simp [hfirst] at hmem
      | notDownloaded hfound h =>
          have := h.noLoad project
          simp [hfirst, this] at hmem
      -- Found at once: there is no hook, since one would have stopped the run.
      | loaded hfound hhooks hload =>
          obtain rfl : project = settings.project := by simpa [hfirst] using hmem
          refine ⟨rfl, .setRunning .true :: opening, libpath, by simp, hlibpath, ?_, ?_,
            fun h => absurd h hhooks⟩
          · intro project hmem
            simp [hopening.noLoad project] at hmem
          · simpa using hfound
      -- Installed first: the hooks are not run before this load.
      | @installed _ fetches rest tarball hfound h hexists horigin hrest =>
          have hfetches := h.noLoad project
          cases hrest with
          | failed | only | notFound => simp [hfirst, hfetches] at hmem
          | loaded hagain hload =>
              obtain rfl : project = settings.project := by simpa [hfirst, hfetches] using hmem
              refine ⟨rfl, .setRunning .true :: (opening ++ .require libpath :: (fetches ++
                [.install tarball libpath, .unlink tarball])), libpath, by simp, hlibpath, ?_, ?_,
                fun _ => ⟨tarball, by simp⟩⟩
              · intro project hmem
                simp [hopening.noLoad project, h.noLoad project] at hmem
              · simpa using hagain

/-- In every run the project is loaded at most once, by a version of renv from its own library that
was found directly before, and nothing else is done after that. With a hook that is a function this
happens in no run but one that installs renv. -/
theorem gives_autoload_load :
    Gives history (autoload host disk s settings) fun _ events =>
      ∀ before project after, events = before ++ .load project :: after →
        project = settings.project ∧ after = [.setRunning .null] ∧ NoLoad before ∧
        ∃ earlier library, before = earlier ++ [.require library] ∧
          IsLibrary host disk s settings library ∧
          host.requireNamespace (history ++ before) = true ∧
          (true ∈ host.hooks → ∃ tarball, .install tarball library ∈ earlier) := by
  refine gives_autoload.mono ?_
  rintro result _ hrun before project after rfl
  obtain ⟨hproject, earlier, library, heq, hlibrary, hbefore, hfound, hhooks⟩ :=
    hrun.load (List.mem_append_right before List.mem_cons_self)
  have hlater : .load project ∉ [Event.setRunning .null] := by simp
  obtain ⟨rfl, -, rfl⟩ := (List.append_cons_inj_of_notMem (hbefore project) hlater).mp heq.symm
  exact ⟨hproject, rfl, hbefore, earlier, library, rfl, hlibrary, hfound, hhooks⟩

end Safety

end GnuRQi.Renv
