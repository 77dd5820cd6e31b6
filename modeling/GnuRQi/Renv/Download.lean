import GnuRQi.R.Script
import GnuRQi.Renv.Platform

/-!
# Downloading renv

`renv_bootstrap_download` tries a local tarball, the latest version of the repositories and their
archives, in this order, until one of them gives a file that exists. The `Host` answers for
everything outside of the script, and each answer may depend on the events before.
-/

namespace GnuRQi.Renv

open R R.Script Text

/-- The value of the option `renv.autoloader.running`: `NULL`, `TRUE`, or another one, as R prints
it. -/
inductive Running where
  | null
  | true
  | other (value : Chars)
  deriving DecidableEq

/-- The arguments of `download.file`. It may not know the argument `headers`. -/
structure DownloadArgs where
  url : Chars
  destfile : Chars
  mode : Chars
  headers : Option (Named Chars)
  deriving DecidableEq

/-- What the start-up script does outside of itself. -/
inductive Event where
  | setRunning (value : Running)
  | consent
  | unloadNamespace
  | sourceProfile (path : Chars)
  | warning (message : Chars)
  | setProfile (profile : Chars)
  | require (libpath : Chars)
  | load (project : Chars)
  | available (type repos : Chars)
  | download (args : DownloadArgs)
  | install (tarball library : Chars)
  | unlink (path : Chars)
  deriving DecidableEq

/-- What a function of the user returns as headers: its length, and the character vector that it is
or that `unlist` makes of it. -/
structure Headers where
  length : ℕ
  vector : Option (Named Chars)

/-- The option `renv.download.headers`. -/
inductive HeadersOption where
  | null
  | notFunction
  | function (call : List Event → Chars → Except Chars Headers)

/-- The answers of R and of the system: the packages of a repository with their versions, the status
of a download or the condition it ends with, the files, whether renv can be loaded, and the status
of an installation if its output has one. `unreadRepos` are the repositories where the lockfile is
not in the part of R that is modelled. -/
structure Host where
  available : List Event → Except Chars (List (Chars × Chars))
  download : List Event → Except Chars ℕ
  fileExists : List Event → Chars → Bool
  dirExists : List Event → Chars → Bool
  readLines : List Event → Chars → Except Chars Unit
  requireNamespace : List Event → Bool
  unloadNamespace : List Event → Except Chars Unit
  load : List Event → Except Chars Unit
  install : List Event → Option ℕ × List Chars
  sourceProfile : List Event → Except Chars Unit
  loadedRenv : Bool
  hooks : List Bool
  headersOption : HeadersOption
  headersArgument : Bool
  contribUrl : Chars → Chars → Chars
  unreadRepos : List Chars
  tempdir : Chars
  machine : Machine
  pkgType : Chars
  optionPkgType : Option Chars
  bootstrapBinary : Option Bool

section Download

variable (host : Host) (s : Session) (repos : List Chars) (version : Chars)

/-- `file.path(first, second)`. -/
def filePath (first second : Chars) : Chars := first ++ '/' :: second

/-- `file.exists(path)`. -/
def fileExists (path : Chars) : Script Event Bool :=
  observe fun history => host.fileExists history path

/-- `renv_bootstrap_repos()` each time that it is called. The warning on a lockfile that cannot be
read is left out. -/
def declaredRepos : List Chars :=
  match renvBootstrapRepos s with
  | .ok repos => repos.values
  | .error _ => host.unreadRepos

/-- The message where the function of the user does not return headers. -/
def notNamed : Chars :=
  "invocation of 'renv.download.headers' did not return a named character vector".toList

/-- `renv_bootstrap_download_custom_headers(url)`. The function `stopf` is nowhere defined. -/
def renvBootstrapDownloadCustomHeaders (history : List Event) (url : Chars) :
    Except Chars (Named Chars) :=
  match host.headersOption with
  | .null => .ok (.unnamed [])
  | .notFunction => .error "could not find function \"stopf\"".toList
  | .function call => do
      let headers ← call history url
      if headers.length = 0 then return .unnamed []
      else
        match headers.vector with
        | none => .error notNamed
        | some vector =>
            match vector.names with
            | none => .error notNamed
            | some names => if [] ∈ names then .error notNamed else return vector

/-- The argument `mode`, which differs for files on Windows. -/
def downloadMode (url : Chars) : Chars :=
  let fixup := host.machine.sysname = "Windows".toList && url.take 5 = "file:".toList
  if fixup then "w+b".toList else "wb".toList

/-- The list `args` of `renv_bootstrap_download_impl(url, destfile)`. -/
def downloadArgs (history : List Event) (url destfile : Chars) : Except Chars DownloadArgs :=
  if host.headersArgument then
    (renvBootstrapDownloadCustomHeaders host history url).map fun headers =>
      ⟨url, destfile, downloadMode host url, some headers⟩
  else .ok ⟨url, destfile, downloadMode host url, none⟩

/-- `renv_bootstrap_download_impl(url, destfile)`. -/
def renvBootstrapDownloadImpl (url destfile : Chars) : Script Event ℕ := do
  let args ← lookup fun history => downloadArgs host history url destfile
  perform (.download args) host.download

/-- `renv_bootstrap_download_tarball(version)`. -/
def renvBootstrapDownloadTarball : Script Event (Option Chars) :=
  match s.getenv "RENV_BOOTSTRAP_TARBALL".toList with
  | none => pure none
  | some tarball => do
      let isDir ← observe fun history => host.dirExists history tarball
      let path :=
        if isDir then filePath tarball ("renv_".toList ++ version ++ ".tar.gz".toList) else tarball
      if ← fileExists host path then return some path
      else do
        emit (.warning ("- RENV_BOOTSTRAP_TARBALL is set (".toList ++ path ++
          ") but does not exist.".toList))
        return none

/-- The types of packages in the order in which they are looked for. -/
def packageTypes : List Chars :=
  let binary := host.bootstrapBinary.getD true && host.pkgType ≠ "source".toList &&
    host.optionPkgType ≠ some "source".toList &&
    host.machine.sysname ∈ ["Darwin".toList, "Windows".toList]
  if binary then ["binary".toList, "source".toList] else ["source".toList]

/-- The loops of `renv_bootstrap_download_cran_latest_find(version)` over types and repositories. -/
def findEntry : List (Chars × Chars) → Script Event (Chars × Chars)
  | [] =>
      stop ("renv ".toList ++ version ++
        " is not available from your declared package repositories".toList)
  | (type, url) :: rest => do
      let db ← tryCatch (perform (.available type url) host.available)
      match db with
      | .error _ => findEntry rest
      | .ok db => if ("renv".toList, version) ∈ db then return (type, url) else findEntry rest

/-- The types and repositories in the order of the two loops. -/
def candidates : List (Chars × Chars) :=
  (packageTypes host).flatMap fun type => repos.map fun url => (type, url)

/-- `renv_bootstrap_download_cran_latest_find(version)`. -/
def renvBootstrapDownloadCranLatestFind : Script Event (Chars × Chars) :=
  findEntry host version (candidates host repos)

/-- The name of the file of a package of some type. -/
def packageName (type : Chars) : Chars :=
  let ext :=
    if type = "source".toList then ".tar.gz".toList
    else if host.machine.sysname = "Windows".toList then ".zip".toList
    else ".tgz".toList
  "renv_".toList ++ version ++ ext

/-- `renv_bootstrap_download_cran_latest(version)`, with `none` for `FALSE`. -/
def renvBootstrapDownloadCranLatest : Script Event (Option Chars) := do
  let (type, url) ← renvBootstrapDownloadCranLatestFind host repos version
  let name := packageName host version type
  let destfile := filePath host.tempdir name
  let status ← tryCatch
    (renvBootstrapDownloadImpl host (filePath (host.contribUrl url type) name) destfile)
  return status.toOption.map fun _ => destfile

/-- The loop of `renv_bootstrap_download_cran_archive(version)`. -/
def downloadFirst (destfile : Chars) : List Chars → Script Event (Option Chars)
  | [] => pure none
  | url :: rest => do
      let status ← tryCatch (renvBootstrapDownloadImpl host url destfile)
      if status.toOption = some 0 then return some destfile else downloadFirst destfile rest

/-- `renv_bootstrap_download_cran_archive(version)`. -/
def renvBootstrapDownloadCranArchive : Script Event (Option Chars) :=
  let name := "renv_".toList ++ version ++ ".tar.gz".toList
  downloadFirst host (filePath host.tempdir name)
    (repos.map fun url => filePath (filePath url "src/contrib/Archive/renv".toList) name)

/-- The loop of `renv_bootstrap_download(version)`. -/
def tryMethods : List (Script Event (Option Chars)) → Script Event Chars
  | [] => stop "All download methods failed".toList
  | method :: rest => do
      let path ← tryCatch method
      match path with
      | .ok (some path) => if ← fileExists host path then return path else tryMethods rest
      | _ => tryMethods rest

/-- `renv_bootstrap_download(version)` for a version without `sha`. -/
def renvBootstrapDownload : Script Event Chars :=
  let repos := declaredRepos host s
  tryMethods host [renvBootstrapDownloadTarball host s version,
    renvBootstrapDownloadCranLatest host repos version,
    renvBootstrapDownloadCranArchive host repos version]

end Download

/-! ## What a download gives -/

section Rules

variable {host : Host} {s : Session} {repos : List Chars} {version : Chars}
  {history : List Event}

/-- Events of a download: questions to repositories, downloads and warnings. -/
def IsFetch : Event → Prop
  | .available _ _ | .download _ | .warning _ => True
  | _ => False

/-- The repository has renv in this version, at the end of the history. -/
def HasEntry (host : Host) (version : Chars) (history : List Event) : Prop :=
  ∃ db, host.available history = .ok db ∧ ("renv".toList, version) ∈ db

/-- The question for the packages of one type in one repository. -/
def ask (pair : Chars × Chars) : Event := .available pair.1 pair.2

/-- None of the repositories has it when it is asked, one after another. -/
def NoneHas (host : Host) (version : Chars) (history : List Event)
    (pairs : List (Chars × Chars)) : Prop :=
  ∀ before pair after, pairs = before ++ pair :: after →
    ¬HasEntry host version (history ++ (before ++ [pair]).map ask)

theorem NoneHas.cons {pair : Chars × Chars} {pairs : List (Chars × Chars)}
    (h : NoneHas host version (history ++ [ask pair]) pairs)
    (hnone : ¬HasEntry host version (history ++ [ask pair])) :
    NoneHas host version history (pair :: pairs) := by
  intro before other after hpairs
  cases before with
  | nil =>
      obtain ⟨rfl, -⟩ := List.cons.inj hpairs
      exact hnone
  | cons first before =>
      obtain ⟨rfl, hrest⟩ := List.cons.inj hpairs
      have hother := h before other after hrest
      rwa [List.append_assoc] at hother

/-- The repositories are asked in their order up to the first one that has the version. -/
theorem gives_findEntry (pairs : List (Chars × Chars)) :
    Gives history (findEntry host version pairs) fun result events =>
      (∃ before pair after, pairs = before ++ pair :: after ∧ result = .ok pair ∧
        events = (before ++ [pair]).map ask ∧ NoneHas host version history before ∧
        HasEntry host version (history ++ events)) ∨
      ((∃ message, result = .error message) ∧ events = pairs.map ask ∧
        NoneHas host version history pairs) := by
  induction pairs generalizing history with
  | nil =>
      refine gives_stop (Or.inr ⟨⟨_, rfl⟩, rfl, fun before pair after h => ?_⟩)
      simp at h
  | cons pair pairs ih =>
      obtain ⟨type, url⟩ := pair
      let asked : Event := ask (type, url)
      have hask : Gives history (tryCatch (perform asked host.available)) fun result events =>
          events = [asked] ∧ result = .ok (host.available (history ++ [asked])) := ⟨rfl, rfl⟩
      rw [findEntry]
      refine gives_bind hask ?_ ?_
      · rintro message events ⟨-, ⟨⟩⟩
      · rintro db events ⟨rfl, hdb⟩
        obtain rfl := Except.ok.inj hdb
        -- A request that fails and a list without the version both lead to the next repository.
        have hrest : ¬HasEntry host version (history ++ [asked]) →
            Gives (history ++ [asked]) (findEntry host version pairs) fun result later =>
              (∃ before pair after, (type, url) :: pairs = before ++ pair :: after ∧
                result = .ok pair ∧ [asked] ++ later = (before ++ [pair]).map ask ∧
                NoneHas host version history before ∧
                HasEntry host version (history ++ ([asked] ++ later))) ∨
              ((∃ message, result = .error message) ∧
                [asked] ++ later = ((type, url) :: pairs).map ask ∧
                NoneHas host version history ((type, url) :: pairs)) := by
          intro hnone
          refine ih.mono ?_
          rintro result later (⟨before, pair, after, rfl, hresult, rfl, hbefore, hentry⟩ |
            ⟨hresult, rfl, hall⟩)
          · refine Or.inl ⟨(type, url) :: before, pair, after, rfl, hresult, rfl,
              hbefore.cons hnone, ?_⟩
            rwa [List.append_assoc] at hentry
          · exact Or.inr ⟨hresult, rfl, hall.cons hnone⟩
        cases hdb : host.available (history ++ [asked]) with
        | error message =>
            refine hrest ?_
            rintro ⟨db, hdb', -⟩
            rw [hdb] at hdb'
            cases hdb'
        | ok db =>
            show Gives _ (if ("renv".toList, version) ∈ db then pure (type, url)
              else findEntry host version pairs) _
            split_ifs with hmem
            · refine gives_pure (Or.inl ⟨[], (type, url), pairs, rfl, rfl, rfl, ?_, db, hdb, hmem⟩)
              intro before pair after h
              simp at h
            · refine hrest ?_
              rintro ⟨db', hdb', hmem'⟩
              rw [hdb] at hdb'
              cases hdb'
              exact hmem hmem'

/-- A request for a file: without its arguments nothing is requested. -/
def Requested (host : Host) (history : List Event) (url destfile : Chars)
    (status : Except Chars ℕ) (events : List Event) : Prop :=
  match downloadArgs host history url destfile with
  | .ok args => events = [.download args] ∧ status = host.download (history ++ [.download args])
  | .error message => events = [] ∧ status = .error message

theorem gives_downloadImpl {url destfile : Chars} :
    Gives history (renvBootstrapDownloadImpl host url destfile)
      (Requested host history url destfile) := by
  have hargs : Gives history (lookup fun history => downloadArgs host history url destfile)
      fun args events => args = downloadArgs host history url destfile ∧ events = [] := ⟨rfl, rfl⟩
  refine gives_bind hargs ?_ ?_
  · rintro message events ⟨hmessage, rfl⟩
    rw [Requested, ← hmessage]
    exact ⟨rfl, rfl⟩
  · rintro args events ⟨hargs, rfl⟩
    rw [List.append_nil]
    refine gives_perform ?_
    rw [Requested, ← hargs]
    exact ⟨rfl, rfl⟩

/-- What `tryCatch` gives for a request is its status. -/
theorem gives_request {url destfile : Chars} :
    Gives history (tryCatch (renvBootstrapDownloadImpl host url destfile)) fun result events =>
      ∃ status, result = .ok status ∧ Requested host history url destfile status events :=
  gives_tryCatch (gives_downloadImpl.mono fun status _ h => ⟨status, rfl, h⟩)

/-- The arguments are those for the address and the file. -/
theorem downloadArgs_eq {url destfile : Chars} {args : DownloadArgs}
    (h : downloadArgs host history url destfile = .ok args) :
    args.url = url ∧ args.destfile = destfile := by
  rw [downloadArgs] at h
  split_ifs at h with hheaders
  · cases hvalue : renvBootstrapDownloadCustomHeaders host history url with
    | error message =>
        rw [hvalue] at h
        cases h
    | ok headers =>
        rw [hvalue] at h
        obtain rfl := Except.ok.inj h
        exact ⟨rfl, rfl⟩
  · obtain rfl := Except.ok.inj h
    exact ⟨rfl, rfl⟩

/-- The latest version is requested once, from the first repository that has it, binary packages
before source packages; if none has it, nothing is requested. -/
theorem gives_cranLatest :
    Gives history (renvBootstrapDownloadCranLatest host repos version) fun result events =>
      (∃ before type url after status later,
        candidates host repos = before ++ (type, url) :: after ∧
        NoneHas host version history before ∧
        HasEntry host version (history ++ (before ++ [(type, url)]).map ask) ∧
        Requested host (history ++ (before ++ [(type, url)]).map ask)
          (filePath (host.contribUrl url type) (packageName host version type))
          (filePath host.tempdir (packageName host version type)) status later ∧
        events = (before ++ [(type, url)]).map ask ++ later ∧
        result = .ok (status.toOption.map fun _ =>
          filePath host.tempdir (packageName host version type))) ∨
      ((∃ message, result = .error message) ∧ events = (candidates host repos).map ask ∧
        NoneHas host version history (candidates host repos)) := by
  refine gives_bind (gives_findEntry _) ?_ ?_
  · rintro message events (⟨before, pair, after, -, ⟨⟩, -⟩ | hnone)
    exact Or.inr ⟨⟨message, rfl⟩, hnone.2⟩
  · rintro ⟨type, url⟩ events (⟨before, pair, after, hpairs, hpair, rfl, hbefore, hentry⟩ |
      ⟨⟨_, ⟨⟩⟩, -⟩)
    obtain rfl := Except.ok.inj hpair
    refine gives_bind gives_request (fun _ _ h => nomatch h.choose_spec.1) ?_
    rintro status later ⟨_, ⟨⟩, hrequested⟩
    refine gives_pure (Or.inl ⟨before, type, url, after, status, later, hpairs, hbefore, hentry,
      hrequested, ?_, rfl⟩)
    rw [List.append_nil]

/-- Only events of a download. -/
def OnlyFetches (events : List Event) : Prop := ∀ event ∈ events, IsFetch event

theorem OnlyFetches.append {first second : List Event} (h : OnlyFetches first)
    (hsecond : OnlyFetches second) : OnlyFetches (first ++ second) :=
  fun event hevent => (List.mem_append.mp hevent).elim (h event) (hsecond event)

theorem onlyFetches_nil : OnlyFetches [] := nofun

theorem onlyFetches_ask (pairs : List (Chars × Chars)) : OnlyFetches (pairs.map ask) := by
  intro event hevent
  obtain ⟨pair, -, rfl⟩ := List.mem_map.mp hevent
  trivial

/-- The file that the user has named, or the one in the directory that the user has named. -/
def IsLocal (s : Session) (version path : Chars) : Prop :=
  ∃ tarball, s.getenv "RENV_BOOTSTRAP_TARBALL".toList = some tarball ∧
    (path = tarball ∨ path = filePath tarball ("renv_".toList ++ version ++ ".tar.gz".toList))

/-- An address below one of the repositories: of the packages of some type, or of the archive. -/
def IsRepoUrl (host : Host) (s : Session) (url : Chars) : Prop :=
  ∃ repo ∈ declaredRepos host s,
    (∃ type ∈ packageTypes host, ∃ name, url = filePath (host.contribUrl repo type) name) ∨
    ∃ name, url = filePath (filePath repo "src/contrib/Archive/renv".toList) name

/-- The file is that of the user, or one of these events has downloaded it from a repository. -/
def HasOrigin (host : Host) (s : Session) (version : Chars) (history events : List Event)
    (path : Chars) : Prop :=
  IsLocal s version path ∨ ∃ before args after status,
    events = before ++ .download args :: after ∧ args.destfile = path ∧
    IsRepoUrl host s args.url ∧ host.download (history ++ before ++ [.download args]) = .ok status

theorem HasOrigin.append_left {earlier events : List Event} {path : Chars}
    (h : HasOrigin host s version (history ++ earlier) events path) :
    HasOrigin host s version history (earlier ++ events) path := by
  refine h.imp id ?_
  rintro ⟨before, args, after, status, rfl, hpath, hurl, hstatus⟩
  rw [List.append_assoc history] at hstatus
  exact ⟨earlier ++ before, args, after, status, by simp, hpath, hurl, hstatus⟩

/-- What each of the methods gives: it only fetches, and a file has an origin. -/
def Fetched (host : Host) (s : Session) (version : Chars) (history : List Event)
    (result : Except Chars (Option Chars)) (events : List Event) : Prop :=
  OnlyFetches events ∧
    ∀ path, result = .ok (some path) → HasOrigin host s version history events path

theorem fetched_none {events : List Event} (h : OnlyFetches events) :
    Fetched host s version history (.ok none) events := ⟨h, nofun⟩

theorem fetched_error {events : List Event} {message : Chars} (h : OnlyFetches events) :
    Fetched host s version history (.error message) events := ⟨h, nofun⟩

theorem Fetched.append_left {result : Except Chars (Option Chars)} {earlier events : List Event}
    (h : Fetched host s version (history ++ earlier) result events)
    (hearlier : OnlyFetches earlier) :
    Fetched host s version history result (earlier ++ events) :=
  ⟨hearlier.append h.1, fun path hpath => (h.2 path hpath).append_left⟩

theorem gives_fileExists {path : Chars} :
    Gives history (fileExists host path) fun result events =>
      result = .ok (host.fileExists history path) ∧ events = [] := ⟨rfl, rfl⟩

theorem gives_tarball :
    Gives history (renvBootstrapDownloadTarball host s version)
      (Fetched host s version history) := by
  rw [renvBootstrapDownloadTarball]
  cases htarball : s.getenv "RENV_BOOTSTRAP_TARBALL".toList with
  | none => exact gives_pure (fetched_none onlyFetches_nil)
  | some tarball =>
      have hdir : Gives history (observe fun history => host.dirExists history tarball)
          fun result events => (∃ isDir, result = .ok isDir) ∧ events = [] := ⟨⟨_, rfl⟩, rfl⟩
      refine gives_bind hdir (fun _ _ h => nomatch h.1) ?_
      rintro isDir events ⟨-, rfl⟩
      refine gives_bind gives_fileExists (fun _ _ h => nomatch h.1) ?_
      rintro found events ⟨-, rfl⟩
      cases found with
      | false =>
          refine gives_emit_bind (gives_pure (fetched_none ?_))
          exact List.forall_mem_singleton.mpr trivial
      | true =>
          refine gives_pure ⟨onlyFetches_nil, fun path hpath => Or.inl ⟨tarball, htarball, ?_⟩⟩
          obtain rfl := Option.some.inj (Except.ok.inj hpath)
          cases isDir with
          | true => exact Or.inr rfl
          | false => exact Or.inl rfl

/-- A request only fetches. -/
theorem Requested.onlyFetches {url destfile : Chars} {status : Except Chars ℕ}
    {events : List Event} (h : Requested host history url destfile status events) :
    OnlyFetches events := by
  rw [Requested] at h
  split at h
  · rw [h.1]
    exact List.forall_mem_singleton.mpr trivial
  · rw [h.1]
    exact onlyFetches_nil

/-- A request to a repository without a condition gives a file with an origin. -/
theorem Requested.hasOrigin {url destfile : Chars} {status : ℕ} {events : List Event}
    (h : Requested host history url destfile (.ok status) events) (hurl : IsRepoUrl host s url) :
    HasOrigin host s version history events destfile := by
  rw [Requested] at h
  split at h
  · rename_i args hargs
    obtain ⟨rfl, hstatus⟩ := h
    obtain ⟨rfl, rfl⟩ := downloadArgs_eq hargs
    exact Or.inr ⟨[], args, [], status, rfl, rfl, hurl, by rw [List.append_nil, ← hstatus]⟩
  · cases h.2

theorem gives_latest :
    Gives history (renvBootstrapDownloadCranLatest host (declaredRepos host s) version)
      (Fetched host s version history) := by
  refine gives_bind (gives_findEntry _) ?_ ?_
  · rintro message events (⟨before, pair, after, -, ⟨⟩, -⟩ | ⟨-, rfl, -⟩)
    exact fetched_error (onlyFetches_ask _)
  · rintro ⟨type, url⟩ events (⟨before, pair, after, hpairs, hpair, rfl, -⟩ | ⟨⟨_, ⟨⟩⟩, -⟩)
    obtain rfl := Except.ok.inj hpair
    have hpair : (type, url) ∈ candidates host (declaredRepos host s) :=
      hpairs ▸ List.mem_append_right before List.mem_cons_self
    obtain ⟨type, htype, hpair⟩ := List.mem_flatMap.mp hpair
    obtain ⟨repo, hrepo, hpair⟩ := List.mem_map.mp hpair
    obtain ⟨rfl, rfl⟩ := Prod.mk.inj hpair
    refine gives_bind gives_request (fun _ _ h => nomatch h.choose_spec.1) ?_
    rintro status later ⟨_, ⟨⟩, hrequested⟩
    refine gives_pure ?_
    rw [List.append_nil]
    refine Fetched.append_left ⟨hrequested.onlyFetches, fun path hpath => ?_⟩ (onlyFetches_ask _)
    cases status with
    | error message => cases hpath
    | ok status =>
        obtain rfl := Option.some.inj (Except.ok.inj hpath)
        exact hrequested.hasOrigin ⟨repo, hrepo, Or.inl ⟨type, htype, _, rfl⟩⟩

theorem gives_archive :
    Gives history (renvBootstrapDownloadCranArchive host (declaredRepos host s) version)
      (Fetched host s version history) := by
  rw [renvBootstrapDownloadCranArchive]
  generalize hname : "renv_".toList ++ version ++ ".tar.gz".toList = name
  -- An address that fails leaves the later ones, so the induction is on the addresses.
  have hloop : ∀ (urls : List Chars) (history : List Event),
      (∀ url ∈ urls, IsRepoUrl host s url) →
      Gives history (downloadFirst host (filePath host.tempdir name) urls)
        (Fetched host s version history) := by
    intro urls
    induction urls with
    | nil => exact fun _ _ => gives_pure (fetched_none onlyFetches_nil)
    | cons url urls ih =>
        intro history hurls
        obtain ⟨hurl, hrest⟩ := List.forall_mem_cons.mp hurls
        refine gives_bind gives_request (fun _ _ h => nomatch h.choose_spec.1) ?_
        rintro status events ⟨_, ⟨⟩, hrequested⟩
        cases status with
        | ok status =>
            by_cases hstatus : (Except.ok status : Except Chars ℕ).toOption = some 0
            · rw [if_pos hstatus]
              refine gives_pure ?_
              rw [List.append_nil]
              refine ⟨hrequested.onlyFetches, fun path hpath => ?_⟩
              obtain rfl := Option.some.inj (Except.ok.inj hpath)
              exact hrequested.hasOrigin hurl
            · rw [if_neg hstatus]
              exact (ih _ hrest).mono fun _ _ h => h.append_left hrequested.onlyFetches
        | error message =>
            rw [if_neg nofun]
            exact (ih _ hrest).mono fun _ _ h => h.append_left hrequested.onlyFetches
  refine hloop _ history ?_
  intro url hurl
  obtain ⟨repo, hrepo, rfl⟩ := List.mem_map.mp hurl
  exact ⟨repo, hrepo, Or.inr ⟨name, rfl⟩⟩

/-- What a download gives: a file that exists, of the user or from a repository, or one message. -/
def Downloaded (host : Host) (s : Session) (version : Chars) (history : List Event)
    (result : Except Chars Chars) (events : List Event) : Prop :=
  OnlyFetches events ∧
    ((∃ path, result = .ok path ∧ host.fileExists (history ++ events) path = true ∧
      HasOrigin host s version history events path) ∨
      result = .error "All download methods failed".toList)

theorem Downloaded.append_left {result : Except Chars Chars} {earlier events : List Event}
    (h : Downloaded host s version (history ++ earlier) result events)
    (hearlier : OnlyFetches earlier) :
    Downloaded host s version history result (earlier ++ events) := by
  refine ⟨hearlier.append h.1, h.2.imp_left ?_⟩
  rintro ⟨path, rfl, hexists, horigin⟩
  rw [List.append_assoc] at hexists
  exact ⟨path, rfl, hexists, horigin.append_left⟩

/-- The loop over the methods. -/
theorem gives_tryMethods (methods : List (Script Event (Option Chars)))
    (hmethods : ∀ method ∈ methods, ∀ history,
      Gives history method (Fetched host s version history)) :
    Gives history (tryMethods host methods) (Downloaded host s version history) := by
  induction methods generalizing history with
  | nil => exact gives_stop ⟨onlyFetches_nil, Or.inr rfl⟩
  | cons method methods ih =>
      obtain ⟨hmethod, hrest⟩ := List.forall_mem_cons.mp hmethods
      -- A method without a file is passed over, but its requests stay in the history.
      have hnext : ∀ events, OnlyFetches events → Gives (history ++ events)
          (tryMethods host methods) fun result later =>
            Downloaded host s version history result (events ++ later) :=
        fun events hevents => (ih hrest).mono fun _ _ h => h.append_left hevents
      have hcaught : Gives history (tryCatch method) fun result events =>
          ∃ path, result = .ok path ∧ Fetched host s version history path events :=
        gives_tryCatch ((hmethod history).mono fun path _ h => ⟨path, rfl, h⟩)
      rw [tryMethods]
      refine gives_bind hcaught (fun _ _ h => nomatch h.choose_spec.1) ?_
      rintro path events ⟨_, ⟨⟩, hevents, horigin⟩
      match path with
      | .error message => exact hnext events hevents
      | .ok none => exact hnext events hevents
      | .ok (some path) =>
          refine gives_bind gives_fileExists (fun _ _ h => nomatch h.1) ?_
          rintro found later ⟨hfound, rfl⟩
          obtain rfl := Except.ok.inj hfound
          cases hpath : host.fileExists (history ++ events) path with
          | true =>
              refine gives_pure ?_
              rw [List.append_nil, List.append_nil]
              exact ⟨hevents, Or.inl ⟨path, rfl, hpath, horigin path rfl⟩⟩
          | false =>
              rw [List.append_nil]
              exact (hnext events hevents).mono fun _ _ h => by simpa using h

/-- A download gives a file that exists, of the user or from a repository, and does nothing else. -/
theorem gives_download :
    Gives history (renvBootstrapDownload host s version) (Downloaded host s version history) := by
  refine gives_tryMethods _ ?_
  simp only [List.mem_cons, List.not_mem_nil, or_false, forall_eq_or_imp, forall_eq]
  exact ⟨fun _ => gives_tarball, fun _ => gives_latest, fun _ => gives_archive⟩

end Rules

end GnuRQi.Renv
