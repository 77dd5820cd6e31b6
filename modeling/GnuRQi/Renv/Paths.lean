import GnuRQi.Renv.Repos

/-!
# Profiles and the library of a project

The environment variable `RENV_PROFILE` names a profile, and each profile has a library of its own.
`renvBootstrapLibraryRoot_eq_iff`: two profiles have the same library if and only if they are the
same once the default profile is taken for no profile.
-/

namespace GnuRQi.Renv

open R Text

/-- The values of the environment variables. -/
abbrev Env := Chars → Option Chars

/-- `Sys.setenv(name = value)`, and `Sys.unsetenv(name)` without a value. -/
def setenv (env : Env) (name : Chars) (value : Option Chars) : Env :=
  fun other => if other = name then value else env other

@[simp] theorem setenv_self (env : Env) (name : Chars) (value : Option Chars) :
    setenv env name value name = value := if_pos rfl

theorem setenv_other (env : Env) {name other : Chars} (value : Option Chars) (h : other ≠ name) :
    setenv env name value other = env other := if_neg h

/-! ## Profiles -/

/-- `renv_bootstrap_profile_normalize(profile)`. -/
def renvBootstrapProfileNormalize : Option Chars → Option Chars
  | none => none
  | some profile => if profile ∈ [[], "default".toList] then none else some profile

/-- `renv_bootstrap_profile_get()`. -/
def renvBootstrapProfileGet (env : Env) : Option Chars :=
  renvBootstrapProfileNormalize (some ((env "RENV_PROFILE".toList).getD []))

/-- `renv_bootstrap_profile_set(profile)`. -/
def renvBootstrapProfileSet (env : Env) (profile : Option Chars) : Env :=
  setenv env "RENV_PROFILE".toList (renvBootstrapProfileNormalize profile)

/-- `renv_bootstrap_profile_prefix()`. -/
def renvBootstrapProfilePrefix (env : Env) : Option Chars :=
  (renvBootstrapProfileGet env).map fun profile =>
    "profiles/".toList ++ profile ++ "/renv".toList

/-! ## Paths -/

/-- `renv_bootstrap_path_absolute(path)`. -/
def renvBootstrapPathAbsolute (path : Chars) : Bool :=
  match path with
  | [] => false
  | c :: rest =>
      c ∈ ['~', '/', '\\'] ||
        (c.isAlpha && rest.take 2 ∈ [[':', '/'], [':', '\\']])

/-- `paste(components, collapse = "/")`. -/
def pastePath (components : List Chars) : Chars := ['/'].intercalate components

/-- `renv_bootstrap_paths_renv(name, profile, project)`. -/
def renvBootstrapPathsRenv (env : Env) (project : Chars) (profile : Bool) (name : Chars) : Chars :=
  let renv := (env "RENV_PATHS_RENV".toList).getD "renv".toList
  let root := if renvBootstrapPathAbsolute renv then [] else [project]
  let middle := if profile then (renvBootstrapProfilePrefix env).toList else []
  pastePath (root ++ renv :: (middle ++ [name]))

/-- `basename(path)`. -/
def basename (path : Chars) : Chars :=
  ((path.reverse.dropWhile (· = '/')).takeWhile (· ≠ '/')).reverse

/-- A string as the condition of `if`. -/
def asCondition (value : Chars) : Except Chars Bool :=
  if value ∈ ["T".toList, "TRUE".toList, "true".toList, "True".toList] then .ok true
  else if value ∈ ["F".toList, "FALSE".toList, "false".toList, "False".toList] then .ok false
  else .error "argument is not interpretable as logical".toList

/-- What the paths depend on outside of the environment: `tools::md5sum`, the type in the
`DESCRIPTION` of a project, and the directory of the user. -/
structure Disk where
  hashText : Chars → Chars
  projectType : Chars → Chars
  userDir : Chars

section Library

variable (disk : Disk) (env : Env) (project : Chars)

/-- `renv_bootstrap_library_root_name(project)`. -/
def renvBootstrapLibraryRootName : Except Chars Chars := do
  let asis ← asCondition ((env "RENV_PATHS_LIBRARY_ROOT_ASIS".toList).getD "FALSE".toList)
  if asis then return basename project
  else return basename project ++ '-' :: (disk.hashText project).take 8

/-- `renv_bootstrap_library_root_impl(project)`. -/
def renvBootstrapLibraryRootImpl : Option Chars :=
  match env "RENV_PATHS_LIBRARY_ROOT".toList with
  | some root => some root
  | none =>
      if disk.projectType project = "package".toList then some (disk.userDir ++ "/library".toList)
      else none

/-- `renv_bootstrap_library_root(project)`. -/
def renvBootstrapLibraryRoot : Except Chars Chars :=
  let middle := (renvBootstrapProfilePrefix env).toList
  match env "RENV_PATHS_LIBRARY".toList with
  | some path => .ok (pastePath (path :: middle))
  | none =>
      match renvBootstrapLibraryRootImpl disk env project with
      | some path => do
          let name ← renvBootstrapLibraryRootName disk env project
          return pastePath (path :: (middle ++ [name]))
      | none => .ok (renvBootstrapPathsRenv env project true "library".toList)

end Library

/-- `renv_bootstrap_profile_load(project)`: the profile and the environment after it. The files are
given by their lines. -/
def renvBootstrapProfileLoad (files : Chars → Option (List Chars)) (env : Env) (project : Chars) :
    Option Chars × Env :=
  match env "RENV_PROFILE".toList with
  | some (c :: rest) => (some (c :: rest), env)
  | _ =>
      match files (renvBootstrapPathsRenv env project false "profile".toList) with
      | none | some [] => (none, env)
      | some (profile :: _) =>
          if profile ∈ [[], "default".toList] then (some profile, env)
          else (some profile, setenv env "RENV_PROFILE".toList (some profile))

/-! ## One library for each profile -/

theorem normalize_idem (profile : Option Chars) :
    renvBootstrapProfileNormalize (renvBootstrapProfileNormalize profile) =
      renvBootstrapProfileNormalize profile := by
  cases profile with
  | none => rfl
  | some profile =>
      by_cases h : profile ∈ [[], "default".toList]
      · rw [renvBootstrapProfileNormalize, if_pos h]
        rfl
      · have hsome : renvBootstrapProfileNormalize (some profile) = some profile := if_neg h
        rw [hsome, hsome]

/-- What is set is what is got. -/
theorem profileGet_set (env : Env) (profile : Option Chars) :
    renvBootstrapProfileGet (renvBootstrapProfileSet env profile) =
      renvBootstrapProfileNormalize profile := by
  rw [renvBootstrapProfileGet, renvBootstrapProfileSet, setenv_self]
  cases hprofile : renvBootstrapProfileNormalize profile with
  | none => rfl
  | some name =>
      rw [Option.getD_some, ← hprofile, normalize_idem]

theorem profileGet_setenv (env : Env) (profile : Option Chars) :
    renvBootstrapProfileGet (setenv env "RENV_PROFILE".toList profile) =
      renvBootstrapProfileNormalize profile := by
  rw [renvBootstrapProfileGet, setenv_self]
  cases profile <;> rfl

theorem pastePath_cons (first : Chars) (rest : List Chars) :
    pastePath (first :: rest) = first ++ rest.flatMap fun component => '/' :: component := by
  induction rest generalizing first with
  | nil => simp [pastePath, List.intercalate]
  | cons second rest ih =>
      have hcons : pastePath (first :: second :: rest) =
          first ++ '/' :: pastePath (second :: rest) := by
        simp [pastePath, List.intercalate]
      rw [hcons, ih, List.flatMap_cons]
      rfl

/-- A component between the same ones, or none there. -/
theorem pastePath_injective {before after : List Chars} (hne : before ≠ []) {p q : Option Chars}
    (h : pastePath (before ++ (p.toList ++ after)) = pastePath (before ++ (q.toList ++ after))) :
    p = q := by
  obtain ⟨first, before, rfl⟩ := List.exists_cons_of_ne_nil hne
  simp only [List.cons_append, pastePath_cons, List.flatMap_append] at h
  have hmiddle := List.append_cancel_right
    (List.append_cancel_left (List.append_cancel_left h))
  cases p <;> cases q <;> simp_all

theorem profilePrefix_injective {env : Env} {p q : Option Chars}
    (h : renvBootstrapProfilePrefix (setenv env "RENV_PROFILE".toList p) =
      renvBootstrapProfilePrefix (setenv env "RENV_PROFILE".toList q)) :
    renvBootstrapProfileNormalize p = renvBootstrapProfileNormalize q := by
  rw [renvBootstrapProfilePrefix, renvBootstrapProfilePrefix, profileGet_setenv,
    profileGet_setenv] at h
  refine Option.map_injective (fun first second heq => ?_) h
  exact List.append_cancel_left (List.append_cancel_right heq)

/-- The components of a path of renv before the profile. -/
def pathsRoot (env : Env) (project : Chars) : List Chars :=
  (if renvBootstrapPathAbsolute ((env "RENV_PATHS_RENV".toList).getD "renv".toList) then []
    else [project]) ++ [(env "RENV_PATHS_RENV".toList).getD "renv".toList]

theorem renvBootstrapPathsRenv_eq (env : Env) (project name : Chars) :
    renvBootstrapPathsRenv env project true name =
      pastePath (pathsRoot env project ++ ((renvBootstrapProfilePrefix env).toList ++ [name])) := by
  rw [pathsRoot, List.append_assoc]
  rfl

/-- The library is a path with the prefix of the profile in it, or there is an error, whatever the
profile is. -/
theorem libraryRoot_cases (disk : Disk) (env : Env) (project : Chars) :
    (∃ message, ∀ profile, renvBootstrapLibraryRoot disk
      (setenv env "RENV_PROFILE".toList profile) project = .error message) ∨
    ∃ before after, before ≠ [] ∧ ∀ profile,
      renvBootstrapLibraryRoot disk (setenv env "RENV_PROFILE".toList profile) project =
        .ok (pastePath (before ++ ((renvBootstrapProfilePrefix
          (setenv env "RENV_PROFILE".toList profile)).toList ++ after))) := by
  -- `RENV_PROFILE` is none of the variables that are read for the library.
  have hpath : ∀ profile, setenv env "RENV_PROFILE".toList profile "RENV_PATHS_LIBRARY".toList =
      env "RENV_PATHS_LIBRARY".toList := fun profile => setenv_other env profile (by decide)
  have hroot : ∀ profile, setenv env "RENV_PROFILE".toList profile
      "RENV_PATHS_LIBRARY_ROOT".toList = env "RENV_PATHS_LIBRARY_ROOT".toList :=
    fun profile => setenv_other env profile (by decide)
  have hasis : ∀ profile, setenv env "RENV_PROFILE".toList profile
      "RENV_PATHS_LIBRARY_ROOT_ASIS".toList = env "RENV_PATHS_LIBRARY_ROOT_ASIS".toList :=
    fun profile => setenv_other env profile (by decide)
  have hrenv : ∀ profile, setenv env "RENV_PROFILE".toList profile "RENV_PATHS_RENV".toList =
      env "RENV_PATHS_RENV".toList := fun profile => setenv_other env profile (by decide)
  have himpl : ∀ profile, renvBootstrapLibraryRootImpl disk
      (setenv env "RENV_PROFILE".toList profile) project =
        renvBootstrapLibraryRootImpl disk env project := by
    intro profile
    rw [renvBootstrapLibraryRootImpl, renvBootstrapLibraryRootImpl, hroot]
  have hname : ∀ profile, renvBootstrapLibraryRootName disk
      (setenv env "RENV_PROFILE".toList profile) project =
        renvBootstrapLibraryRootName disk env project := by
    intro profile
    rw [renvBootstrapLibraryRootName, renvBootstrapLibraryRootName, hasis]
  simp only [renvBootstrapLibraryRoot, hpath, himpl, hname]
  cases env "RENV_PATHS_LIBRARY".toList with
  | some path => exact Or.inr ⟨[path], [], by simp, fun profile => by simp⟩
  | none =>
      cases renvBootstrapLibraryRootImpl disk env project with
      | some path =>
          cases renvBootstrapLibraryRootName disk env project with
          | error message => exact Or.inl ⟨message, fun _ => rfl⟩
          | ok name => exact Or.inr ⟨[path], [name], by simp, fun _ => rfl⟩
      | none =>
          generalize hlibrary : "library".toList = library
          refine Or.inr ⟨pathsRoot env project, [library],
            List.append_ne_nil_of_right_ne_nil _ (List.cons_ne_nil _ _), fun profile => ?_⟩
          rw [renvBootstrapPathsRenv_eq, pathsRoot, hrenv]
          rfl

/-- Two values of `RENV_PROFILE` give the same library if and only if they name the same profile. -/
theorem renvBootstrapLibraryRoot_eq_iff {disk : Disk} {env : Env} {project path : Chars}
    {p : Option Chars} (q : Option Chars)
    (h : renvBootstrapLibraryRoot disk (setenv env "RENV_PROFILE".toList p) project = .ok path) :
    renvBootstrapLibraryRoot disk (setenv env "RENV_PROFILE".toList q) project = .ok path ↔
      renvBootstrapProfileNormalize p = renvBootstrapProfileNormalize q := by
  rcases libraryRoot_cases disk env project with ⟨message, herror⟩ | ⟨before, after, hne, hok⟩
  · rw [herror] at h
    cases h
  · rw [hok] at h ⊢
    constructor
    · intro hq
      exact profilePrefix_injective (pastePath_injective hne (Except.ok.inj (h.trans hq.symm)))
    · intro hpq
      have hprefix : renvBootstrapProfilePrefix (setenv env "RENV_PROFILE".toList p) =
          renvBootstrapProfilePrefix (setenv env "RENV_PROFILE".toList q) := by
        rw [renvBootstrapProfilePrefix, renvBootstrapProfilePrefix, profileGet_setenv,
          profileGet_setenv, hpq]
      rw [← hprefix]
      exact h

/-- The default profile has the library of no profile, and another one has its own. -/
theorem renvBootstrapLibraryRoot_default :
    renvBootstrapLibraryRoot ⟨id, fun _ => [], []⟩
      (setenv (fun _ => none) "RENV_PROFILE".toList (some "default".toList)) "/p".toList =
        .ok "/p/renv/library".toList ∧
    renvBootstrapLibraryRoot ⟨id, fun _ => [], []⟩
      (setenv (fun _ => none) "RENV_PROFILE".toList (some "dev".toList)) "/p".toList ≠
        .ok "/p/renv/library".toList := by
  have hnone : renvBootstrapLibraryRoot ⟨id, fun _ => [], []⟩
      (setenv (fun _ => none) "RENV_PROFILE".toList none) "/p".toList =
        .ok "/p/renv/library".toList := rfl
  exact ⟨(renvBootstrapLibraryRoot_eq_iff _ hnone).mpr rfl,
    fun h => absurd ((renvBootstrapLibraryRoot_eq_iff _ hnone).mp h) (by decide)⟩

/-- The profile after loading: the one of the environment, or else the first line of the file. -/
theorem profileGet_load (files : Chars → Option (List Chars)) (env : Env) (project : Chars) :
    renvBootstrapProfileGet (renvBootstrapProfileLoad files env project).2 =
      renvBootstrapProfileNormalize (renvBootstrapProfileLoad files env project).1 := by
  have hnone : ∀ {env : Env}, (env "RENV_PROFILE".toList).getD [] = [] →
      renvBootstrapProfileGet env = none := by
    intro env h
    rw [renvBootstrapProfileGet, h]
    rfl
  rw [renvBootstrapProfileLoad]
  split
  · rename_i c rest hprofile
    show renvBootstrapProfileGet env = _
    rw [renvBootstrapProfileGet, hprofile]
    rfl
  · rename_i hprofile
    have hempty : (env "RENV_PROFILE".toList).getD [] = [] := by
      cases henv : env "RENV_PROFILE".toList with
      | none => rfl
      | some profile =>
          cases profile with
          | nil => rfl
          | cons c rest => exact absurd henv (hprofile c rest)
    split
    · exact hnone hempty
    · exact hnone hempty
    · split_ifs with hdefault
      · rw [hnone hempty, renvBootstrapProfileNormalize, if_pos hdefault]
      · exact profileGet_setenv env _

/-- A profile of the environment is used as it is. -/
theorem profileLoad_env (files : Chars → Option (List Chars)) {env : Env} (project : Chars)
    {c : Char} {rest : Chars} (h : env "RENV_PROFILE".toList = some (c :: rest)) :
    renvBootstrapProfileLoad files env project = (some (c :: rest), env) := by
  rw [renvBootstrapProfileLoad, h]

/-- Loading leaves the environment as it is, or sets a profile that is not the default one. -/
theorem profileLoad_cases (files : Chars → Option (List Chars)) (env : Env) (project : Chars) :
    (renvBootstrapProfileLoad files env project).2 = env ∨
      ∃ c rest, renvBootstrapProfileLoad files env project =
        (some (c :: rest), setenv env "RENV_PROFILE".toList (some (c :: rest))) := by
  rw [renvBootstrapProfileLoad]
  split
  · exact Or.inl rfl
  · split
    · exact Or.inl rfl
    · exact Or.inl rfl
    · rename_i profile _ _
      split_ifs with hdefault
      · exact Or.inl rfl
      · cases profile with
        | nil => exact absurd List.mem_cons_self hdefault
        | cons c rest => exact Or.inr ⟨c, rest, rfl⟩

/-- Loading the profile again changes nothing. -/
theorem profileLoad_idem (files : Chars → Option (List Chars)) (env : Env) (project : Chars) :
    renvBootstrapProfileLoad files (renvBootstrapProfileLoad files env project).2 project =
      renvBootstrapProfileLoad files env project := by
  rcases profileLoad_cases files env project with hsame | ⟨c, rest, hset⟩
  · rw [hsame]
  · rw [hset]
    have hself := setenv_self env "RENV_PROFILE".toList (some (c :: rest))
    exact profileLoad_env files project hself

end GnuRQi.Renv
