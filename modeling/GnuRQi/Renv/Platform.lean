import GnuRQi.Renv.Paths

/-!
# The directory of a platform

`renv_bootstrap_platform_prefix` names the directory of a library after the version of R and the
platform, below a prefix of the user or of the operating system.
`renvBootstrapPlatformPrefix_eq_iff`: another version of R or another platform has another
directory.
-/

namespace GnuRQi.Renv

open R Text

/-- What `R.version` says. `R.version$minor` begins with the number `minor`. -/
structure RVersion where
  major : ℕ
  minor : ℕ
  status : Chars
  nickname : Chars
  svnRev : Chars
  platform : Chars

/-- The system R runs on: `R.version`, the name of the system, the keys and values that `read.table`
finds in a file with the release of the system, and the lines of `/etc/redhat-release`. -/
structure Machine where
  version : RVersion
  sysname : Chars
  osRelease : Chars → Option (Except Chars (List (Chars × Chars)))
  redhatRelease : Option (Except Chars (List Chars))

/-- The subversion revision of a development version of R. -/
def RVersion.revision (version : RVersion) : Option Chars :=
  if version.status = "Under development (unstable)".toList ∨
    version.nickname = "Unsuffered Consequences".toList then some version.svnRev else none

/-- The component of the path for the version. -/
def RVersion.component (version : RVersion) : Chars :=
  "R-".toList ++ (Nat.toDigits 10 version.major ++ '.' :: (Nat.toDigits 10 version.minor ++
    (version.revision.map ("-r".toList ++ ·)).getD []))

/-- The value of the first of the fields that is there and not empty. -/
def firstField (vars : List (Chars × Chars)) (fields : List Chars) : Chars :=
  (fields.findSome? fun field => (vars.lookup field).filter (· ≠ [])).getD "unknown".toList

/-- `renv_bootstrap_platform_os_via_os_release(file, sysinfo)` for the contents of the file. -/
def renvBootstrapPlatformOsViaOsRelease (sysname : Chars) (vars : List (Chars × Chars)) : Chars :=
  let id := firstField vars ["ID".toList, "ID_LIKE".toList]
  let version := firstField vars ["UBUNTU_CODENAME".toList, "VERSION_CODENAME".toList,
    "VERSION_ID".toList, "BUILD_ID".toList]
  ['-'].intercalate [sysname.map Char.toLower, id, version]

/-- `numeric_version(part)`, as its components. -/
def numericVersion (part : Chars) : Option (List ℕ) :=
  let components := part.splitOnP (· ∈ ['.', '-'])
  if components.all fun component => component ≠ [] && component.all Char.isDigit then
    some (components.map (Nat.ofDigitChars 10 · 0))
  else none

/-- `renv_bootstrap_platform_os_via_redhat_release()` for the lines of the file. -/
def renvBootstrapPlatformOsViaRedhatRelease (contents : List Chars) : Except Chars Chars :=
  match contents with
  | [] => .error "argument is of length zero".toList
  | [line] =>
      let contains (word : Chars) : Bool := (line.map Char.toLower).tails.any word.isPrefixOf
      let id :=
        if contains "centos".toList then "centos".toList
        else if contains "redhat".toList then "redhat".toList
        else "unknown".toList
      let parts := line.splitOnP (· ∈ [' ', '\t', '\n', '\x0b', '\x0c', '\r'])
      let version := match parts.findSome? fun part => (numericVersion part).bind List.head? with
        | some first => Nat.toDigits 10 first
        | none => "unknown".toList
      .ok (['-'].intercalate ["linux".toList, id, version])
  | _ => .error "the condition has length > 1".toList

/-- `renv_bootstrap_platform_os()`. -/
def renvBootstrapPlatformOs (machine : Machine) : Except Chars Chars :=
  if machine.sysname = "Windows".toList then .ok "windows".toList
  else if machine.sysname = "Darwin".toList then .ok "macos".toList
  else
    match ["/etc/os-release".toList, "/usr/lib/os-release".toList].findSome? machine.osRelease with
    | some vars => vars.map (renvBootstrapPlatformOsViaOsRelease machine.sysname)
    | none =>
        match machine.redhatRelease with
        | some contents => contents.bind renvBootstrapPlatformOsViaRedhatRelease
        | none => .ok "unknown".toList

/-- The warning where the system is not known. -/
def failedToInfer : Chars :=
  "; ".toList.intercalate ["failed to infer current operating system".toList,
    "please file a bug report at https://github.com/rstudio/renv/issues".toList]

/-- `renv_bootstrap_platform_prefix_auto()` with its warnings. It returns an error as a value. -/
def renvBootstrapPlatformPrefixAuto (machine : Machine) : List Chars × Except Chars Chars :=
  match renvBootstrapPlatformOs machine with
  | .ok os => (if os = "unknown".toList then [failedToInfer] else [], .ok os)
  | .error message => ([failedToInfer], .error message)

/-- `renv_bootstrap_platform_prefix_impl()` with its warnings. -/
def renvBootstrapPlatformPrefixImpl (env : Env) (machine : Machine) :
    List Chars × Except Chars Chars :=
  match env "RENV_PATHS_PREFIX".toList with
  | some path => ([], .ok path)
  | none =>
      match env "RENV_PATHS_PREFIX_AUTO".toList with
      | some auto =>
          if auto ∈ ["TRUE".toList, "True".toList, "true".toList, "1".toList] then
            renvBootstrapPlatformPrefixAuto machine
          else ([], .ok [])
      | none => ([], .ok [])

/-- `renv_bootstrap_platform_prefix()` with its warnings. An error as a value has two elements, and
there `&&` stops. -/
def renvBootstrapPlatformPrefix (env : Env) (machine : Machine) :
    List Chars × Except Chars Chars :=
  let components := [machine.version.component, machine.version.platform]
  match renvBootstrapPlatformPrefixImpl env machine with
  | (warnings, .ok []) => (warnings, .ok (pastePath components))
  | (warnings, .ok path) => (warnings, .ok (pastePath (path :: components)))
  | (warnings, .error _) => (warnings, .error "'length = 2' in coercion to 'logical(1)'".toList)

/-! ## One directory for each platform -/

theorem toDigits_append_injective {m n : ℕ} {rest rest' : Chars}
    (hrest : ∀ c ∈ rest.head?, c.isDigit = false) (hrest' : ∀ c ∈ rest'.head?, c.isDigit = false)
    (h : Nat.toDigits 10 m ++ rest = Nat.toDigits 10 n ++ rest') : m = n ∧ rest = rest' := by
  have hdigits (k : ℕ) : ∀ c ∈ Nat.toDigits 10 k, c.isDigit = true := fun c hc =>
    Nat.isDigit_of_mem_toDigits (by decide) (by decide) hc
  obtain ⟨hm, hrestm⟩ := Decimal.span_digits (hdigits m) hrest
  obtain ⟨hn, hrestn⟩ := Decimal.span_digits (hdigits n) hrest'
  rw [h] at hm hrestm
  have hmn : Nat.ofDigitChars 10 (Nat.toDigits 10 m) 0 =
      Nat.ofDigitChars 10 (Nat.toDigits 10 n) 0 := by
    rw [← hm, hn]
  exact ⟨by simpa using hmn, hrestm.symm.trans hrestn⟩

/-- The component names the numbers of the version and the revision. -/
theorem RVersion.component_eq_iff {version other : RVersion} :
    version.component = other.component ↔ version.major = other.major ∧
      version.minor = other.minor ∧ version.revision = other.revision := by
  constructor
  · intro h
    have hrevision (v : RVersion) :
        ∀ c ∈ ((v.revision.map ("-r".toList ++ ·)).getD []).head?, c.isDigit = false := by
      cases v.revision <;> simp
    obtain ⟨hmajor, hrest⟩ := toDigits_append_injective (by simp) (by simp)
      (List.append_cancel_left h)
    obtain ⟨hminor, hrest⟩ := toDigits_append_injective (hrevision version) (hrevision other)
      (List.cons.inj hrest).2
    refine ⟨hmajor, hminor, ?_⟩
    cases hversion : version.revision <;> cases hother : other.revision <;>
      simp_all
  · rintro ⟨hmajor, hminor, hrevision⟩
    rw [RVersion.component, RVersion.component, hmajor, hminor, hrevision]

theorem RVersion.slash_notMem_component {version : RVersion}
    (h : ∀ rev ∈ version.revision, '/' ∉ rev) : '/' ∉ version.component := by
  have hdigits (k : ℕ) : '/' ∉ Nat.toDigits 10 k := fun hc =>
    absurd (Nat.isDigit_of_mem_toDigits (by decide) (by decide) hc) (by decide)
  rw [RVersion.component]
  cases hrevision : version.revision with
  | none => simp [hdigits]
  | some rev => simp [hdigits, h rev hrevision]

/-- The last two components of a path. -/
theorem pastePath_append_pair (before : List Chars) (first second : Chars) :
    pastePath (before ++ [first, second]) =
      before.flatMap (· ++ ['/']) ++ (first ++ '/' :: second) := by
  induction before with
  | nil => simp [pastePath_cons]
  | cons component before ih =>
      rw [List.cons_append, List.flatMap_cons, List.append_assoc, ← ih, pastePath_cons]
      cases before <;> simp [pastePath_cons]

/-- The first slash splits a path. -/
theorem split_slash {first other second second' : Chars} (hfirst : '/' ∉ first)
    (hother : '/' ∉ other) (h : first ++ '/' :: second = other ++ '/' :: second') :
    first = other ∧ second = second' := by
  induction first generalizing other with
  | nil =>
      cases other with
      | nil => exact ⟨rfl, (List.cons.inj h).2⟩
      | cons c other => exact absurd (List.cons.inj h).1 (List.ne_of_not_mem_cons hother)
  | cons c first ih =>
      cases other with
      | nil => exact absurd (List.cons.inj h).1.symm (List.ne_of_not_mem_cons hfirst)
      | cons d other =>
          obtain ⟨rfl, hrest⟩ := List.cons.inj h
          obtain ⟨rfl, hsecond⟩ := ih (List.not_mem_of_not_mem_cons hfirst)
            (List.not_mem_of_not_mem_cons hother) hrest
          exact ⟨rfl, hsecond⟩

/-- The directory ends with the version and the platform, or there is an error, whatever these
are. -/
theorem platformPrefix_cases (env : Env) (machine : Machine) :
    (∃ message, ∀ version, (renvBootstrapPlatformPrefix env
      { machine with version := version }).2 = .error message) ∨
    ∃ before, ∀ version, (renvBootstrapPlatformPrefix env { machine with version := version }).2 =
      .ok (pastePath (before ++ [version.component, version.platform])) := by
  have himpl : ∀ version, renvBootstrapPlatformPrefixImpl env { machine with version := version } =
      renvBootstrapPlatformPrefixImpl env machine := fun _ => rfl
  simp only [renvBootstrapPlatformPrefix, himpl]
  match renvBootstrapPlatformPrefixImpl env machine with
  | (_, .ok []) => exact Or.inr ⟨[], fun _ => rfl⟩
  | (_, .ok (c :: rest)) => exact Or.inr ⟨[c :: rest], fun _ => rfl⟩
  | (_, .error _) => exact Or.inl ⟨_, fun _ => rfl⟩

/-- Two versions of R have the same directory if and only if they have the same numbers, the same
revision if they are under development, and the same platform. -/
theorem renvBootstrapPlatformPrefix_eq_iff {env : Env} {machine : Machine} {path : Chars}
    (version : RVersion) (hrev : ∀ rev ∈ machine.version.revision, '/' ∉ rev)
    (hrev' : ∀ rev ∈ version.revision, '/' ∉ rev)
    (h : (renvBootstrapPlatformPrefix env machine).2 = .ok path) :
    (renvBootstrapPlatformPrefix env { machine with version := version }).2 = .ok path ↔
      version.major = machine.version.major ∧ version.minor = machine.version.minor ∧
        version.revision = machine.version.revision ∧
        version.platform = machine.version.platform := by
  rcases platformPrefix_cases env machine with ⟨message, herror⟩ | ⟨before, hok⟩
  · rw [herror machine.version] at h
    cases h
  · have hmachine := hok machine.version
    rw [h, Except.ok.injEq, pastePath_append_pair] at hmachine
    rw [hok version, Except.ok.injEq, pastePath_append_pair, hmachine, List.append_cancel_left_eq]
    constructor
    · intro hpath
      obtain ⟨hcomponent, hplatform⟩ := split_slash (RVersion.slash_notMem_component hrev')
        (RVersion.slash_notMem_component hrev) hpath
      obtain ⟨hmajor, hminor, hrevision⟩ := RVersion.component_eq_iff.mp hcomponent
      exact ⟨hmajor, hminor, hrevision, hplatform⟩
    · rintro ⟨hmajor, hminor, hrevision, hplatform⟩
      rw [RVersion.component_eq_iff.mpr ⟨hmajor, hminor, hrevision⟩, hplatform]

end GnuRQi.Renv
