import GnuRQi.R.Named
import GnuRQi.Renv.JsonAstray

/-!
# The repositories that renv is downloaded from

`renv_bootstrap_repos`: an override, else the repositories of the lockfile, else those of the
options with duplicates removed. A lockfile that the JSON reader cannot read is passed over.
-/

namespace GnuRQi.Renv

open R Text

/-- What the script reads: environment variables, files by their lines, options, and
`jsonlite::fromJSON` if that package is loaded. -/
structure Session where
  getenv : Chars → Option Chars
  files : Chars → Option (List Chars)
  reposCran : Option Chars
  repos : Option (Named Chars)
  bootstrapRepos : Option (Named Chars)
  jsonlite : Option (Chars → Except Failure Value)

/-- `tryCatch(expr, error = identity)`, as `none` if there was an error. -/
def caught {α : Type} (expr : Except Failure α) : Except Failure (Option α) :=
  match expr with
  | .ok value => .ok (some value)
  | .error (.error _) => .ok none
  | .error .notModelled => .error .notModelled

/-- `renv_json_read(file)`, where the file has the lines. -/
def renvJsonRead (s : Session) (lines : List Chars) : Except Failure Value := do
  match s.jsonlite with
  | none => renvJsonReadDefault lines
  | some fromJSON =>
      match fromJSON (pasteLines lines) with
      | .ok json => .ok json
      | .error .notModelled => .error .notModelled
      | .error (.error jlerr) =>
          match ← caught (renvJsonReadDefault lines) with
          | some json => .ok json
          | none => .error (.error jlerr)

/-- `vapply(repos, "[[", name, FUN.VALUE = character(1))`. -/
def vapplyElem (repos : Value) (name : Chars) : Except Failure (List Chars) :=
  repos.elements.mapM fun x => do
    let value ← x.elem name
    value.string

/-- `renv_bootstrap_repos_lockfile()`. -/
def renvBootstrapReposLockfile (s : Session) : Except Failure (Option (Named Chars)) := do
  let lockpath := (s.getenv "RENV_PATHS_LOCKFILE".toList).getD "renv.lock".toList
  match s.files lockpath with
  | none => return none
  | some lines =>
      match ← caught (renvJsonRead s lines) with
      | none => return none
      | some lockfile => do
          let r ← lockfile.dollar ['R']
          let repos ← r.dollar "Repositories".toList
          if repos.length = 0 then return none
          let keys ← vapplyElem repos "Name".toList
          let vals ← vapplyElem repos "URL".toList
          return some (.ofEntries (keys.zip vals))

/-- `getOption("renv.repos.cran", "https://cloud.r-project.org")`. -/
def cran (s : Session) : Chars := s.reposCran.getD "https://cloud.r-project.org".toList

/-- `getOption("repos")` with its `@CRAN@` entries resolved. -/
def optionRepos (s : Session) : Named Chars :=
  (s.repos.getD (.unnamed [])).map fun url => if url = "@CRAN@".toList then cran s else url

/-- `getOption("renv.bootstrap.repos", default)`. -/
def extraRepos (s : Session) : Named Chars :=
  s.bootstrapRepos.getD (.ofEntries [("FALLBACK".toList, "https://cloud.r-project.org".toList)])

/-- `renv_bootstrap_repos()`. -/
def renvBootstrapRepos (s : Session) : Except Failure (Named Chars) := do
  match s.getenv "RENV_CONFIG_REPOS_OVERRIDE".toList with
  | some repos =>
      if s.getenv "RSPM".toList = some repos then
        return .ofEntries [("RSPM".toList, repos), ("CRAN".toList, cran s)]
      else return .unnamed [repos]
  | none =>
      match ← caught (renvBootstrapReposLockfile s) with
      | some (some repos) =>
          if repos.values ≠ [] then return repos
          else return ((optionRepos s).c (extraRepos s)).dedupe
      | _ => return ((optionRepos s).c (extraRepos s)).dedupe

/-! ## Repositories of the options -/

/-- An entry of the options is used if one of the two vectors has names and no entry before it has
its name or its URL, whether that one is used or not. -/
theorem mem_dedupe_repos {s : Session} {entry : Chars × Chars} :
    entry ∈ ((optionRepos s).c (extraRepos s)).dedupe.entries ↔
      ((optionRepos s).names ≠ none ∨ (extraRepos s).names ≠ none) ∧
      ∃ before after, (optionRepos s).entries ++ (extraRepos s).entries = before ++ entry :: after ∧
        ∀ other ∈ before, other.1 ≠ entry.1 ∧ other.2 ≠ entry.2 := by
  by_cases hnone : (optionRepos s).names = none ∧ (extraRepos s).names = none
  · rw [Named.dedupe_unnamed (Named.names_c.mpr hnone)]
    simp [hnone]
  · rw [Named.dedupe_entries (mt Named.names_c.mp hnone), mem_firstsFrom, Named.c_entries,
      and_iff_right (not_and_or.mp hnone)]
    rfl

/-- No two repositories have the same name or the same URL. -/
theorem pairwise_dedupe_repos (s : Session) :
    ((optionRepos s).c (extraRepos s)).dedupe.entries.Pairwise Named.Apart := by
  by_cases hc : ((optionRepos s).c (extraRepos s)).names = none
  · rw [Named.dedupe_unnamed hc]
    exact List.Pairwise.nil
  · rw [Named.dedupe_entries hc]
    exact pairwise_firstsFrom _ _

/-! ## Repositories of the lockfile -/

/-- The value of a lockfile has a list of repositories with these names and URLs. -/
def DeclaresRepos (value : Value) (entries : List (Chars × Chars)) : Prop :=
  ∃ r repos, value.dollar ['R'] = .ok r ∧ r.dollar "Repositories".toList = .ok repos ∧
    List.Forall₂ (fun x entry => x.elem "Name".toList = .ok (.character [entry.1]) ∧
      x.elem "URL".toList = .ok (.character [entry.2])) repos.elements entries

theorem length_elements (value : Value) : value.elements.length = value.length := by
  cases value <;> simp [Value.elements, Value.length]

theorem vapplyElem_eq {repos : Value} {name : Chars} {entries : List (Chars × Chars)}
    {field : Chars × Chars → Chars}
    (h : List.Forall₂ (fun x entry => x.elem name = .ok (.character [field entry])) repos.elements
      entries) : vapplyElem repos name = .ok (entries.map field) := by
  rw [vapplyElem]
  generalize repos.elements = elems at h ⊢
  induction h with
  | nil => rfl
  | cons hfirst hrest ih =>
      rw [List.mapM_cons, ih, hfirst]
      rfl

/-- The repositories of a lockfile that is read. -/
theorem renvBootstrapReposLockfile_eq {s : Session} {lines : List Chars} {value : Value}
    {entries : List (Chars × Chars)}
    (hfile : s.files ((s.getenv "RENV_PATHS_LOCKFILE".toList).getD "renv.lock".toList) = some lines)
    (hread : renvJsonRead s lines = .ok value) (hrepos : DeclaresRepos value entries)
    (hne : entries ≠ []) :
    renvBootstrapReposLockfile s = .ok (some (.ofEntries entries)) := by
  obtain ⟨r, repos, hr, hrepositories, hentries⟩ := hrepos
  have hlength : repos.length ≠ 0 := by
    rw [← length_elements, hentries.length_eq]
    exact fun hzero => hne (List.length_eq_zero_iff.mp hzero)
  have hkeys := vapplyElem_eq (hentries.imp fun _ _ h => h.1)
  have hvals := vapplyElem_eq (hentries.imp fun _ _ h => h.2)
  have hzip : (entries.map Prod.fst).zip (entries.map Prod.snd) = entries :=
    (List.zip_of_prod rfl rfl).symm
  simp only [renvBootstrapReposLockfile, hfile, hread, caught, bind, Except.bind, hr,
    hrepositories, if_neg hlength, hkeys, hvals, hzip, pure, Except.pure]

/-! ## Repositories of a lockfile with empty lists -/

theorem lookup_unname (name : Chars) (items : List (Chars × Value)) :
    (items.map unnameItem).lookup name = (items.lookup name).map unnameEmpty := by
  induction items with
  | nil => rfl
  | cons item rest ih =>
      rcases item with ⟨key, value⟩
      rw [List.map_cons, unnameItem, List.lookup_cons, List.lookup_cons, ih]
      cases name == key <;> rfl

theorem partialMatch_unname (name : Chars) (items : List (Chars × Value)) :
    Value.partialMatch name (items.map unnameItem) =
      unnameEmpty (Value.partialMatch name items) := by
  rw [Value.partialMatch, Value.partialMatch, lookup_unname, List.filter_map]
  cases items.lookup name with
  | some value => rfl
  | none =>
      have hsame : ((fun item : Chars × Value => name.isPrefixOf item.1) ∘ unnameItem) =
          fun item => name.isPrefixOf item.1 := rfl
      rw [hsame]
      generalize items.filter (fun item => name.isPrefixOf item.1) = found
      match found with
      | [] => rfl
      | [item] => rfl
      | item :: other :: rest => rfl

/-- A member is found whether or not empty lists have names. -/
theorem dollar_unname (name : Chars) (value : Value) :
    (unnameEmpty value).dollar name = (value.dollar name).map unnameEmpty := by
  cases value with
  | list elems => rfl
  | namedList items =>
      by_cases hne : items = []
      · subst hne
        rfl
      · rw [unnameEmpty_namedList hne]
        exact congrArg Except.ok (partialMatch_unname name items)
  | _ => rfl

theorem elem_unname (name : Chars) (value : Value) :
    (unnameEmpty value).elem name = (value.elem name).map unnameEmpty := by
  cases value with
  | list elems => rfl
  | namedList items =>
      by_cases hne : items = []
      · subst hne
        rfl
      · rw [unnameEmpty_namedList hne, Value.elem, Value.elem, lookup_unname]
        cases items.lookup name <;> rfl
  | _ => rfl

theorem elements_unname (value : Value) :
    (unnameEmpty value).elements = value.elements.map unnameEmpty := by
  cases value with
  | character values => simp [unnameEmpty, Value.elements]
  | list elems => rw [unnameEmpty_list, Value.elements, Value.elements]
  | namedList items =>
      by_cases hne : items = []
      · subst hne
        rfl
      · rw [unnameEmpty_namedList hne, Value.elements, Value.elements, List.map_map, List.map_map]
        rfl
  | _ => rfl

theorem map_unname_eq_ok {result : Except Failure Value} {value : Value}
    (h : result.map unnameEmpty = .ok value) :
    ∃ original, result = .ok original ∧ unnameEmpty original = value := by
  cases result with
  | error failure => cases h
  | ok original => exact ⟨original, rfl, Except.ok.inj h⟩

/-- An element of a list of repositories is one whether or not empty lists have names. -/
theorem elem_unname_eq_character (name string : Chars) (x : Value) :
    (unnameEmpty x).elem name = .ok (.character [string]) ↔
      x.elem name = .ok (.character [string]) := by
  rw [elem_unname]
  constructor
  · intro h
    obtain ⟨value, hvalue, heq⟩ := map_unname_eq_ok h
    rw [hvalue]
    cases value with
    | character values => exact congrArg Except.ok heq
    | namedList items => cases items <;> cases heq
    | _ => cases heq
  · intro h
    rw [h]
    rfl

theorem declaresRepos_unname (value : Value) (entries : List (Chars × Chars)) :
    DeclaresRepos (unnameEmpty value) entries ↔ DeclaresRepos value entries := by
  have hentries : ∀ repos : Value,
      List.Forall₂ (fun (x : Value) (entry : Chars × Chars) =>
        x.elem "Name".toList = .ok (.character [entry.1]) ∧
          x.elem "URL".toList = .ok (.character [entry.2])) (unnameEmpty repos).elements entries ↔
      List.Forall₂ (fun (x : Value) (entry : Chars × Chars) =>
        x.elem "Name".toList = .ok (.character [entry.1]) ∧
          x.elem "URL".toList = .ok (.character [entry.2])) repos.elements entries := by
    intro repos
    rw [elements_unname, List.forall₂_map_left_iff]
    simp only [elem_unname_eq_character]
  constructor
  · rintro ⟨r, repos, hr, hrepos, hall⟩
    rw [dollar_unname] at hr
    obtain ⟨first, hfirst, rfl⟩ := map_unname_eq_ok hr
    rw [dollar_unname] at hrepos
    obtain ⟨second, hsecond, rfl⟩ := map_unname_eq_ok hrepos
    exact ⟨first, second, hfirst, hsecond, (hentries second).mp hall⟩
  · rintro ⟨r, repos, hr, hrepos, hall⟩
    refine ⟨unnameEmpty r, unnameEmpty repos, ?_, ?_, (hentries repos).mpr hall⟩
    · rw [dollar_unname, hr]
      rfl
    · rw [dollar_unname, hrepos]
      rfl

/-- The text of a lockfile with one repository and without packages, whose object has a blank. -/
def lockfileText : Chars :=
  "\x7b\"R\":\x7b\"Repositories\":[\x7b\"Name\": \"C\",\"URL\": \"https://c\"\x7d]\x7d,".toList ++
    "\"Packages\":\x7b \x7d\x7d".toList

theorem document_lockfile :
    ∃ tokens value, render tokens = lockfileText ∧ Document tokens value ∧
      DeclaresRepos value [(['C'], "https://c".toList)] ∧ Readable tokens value := by
  have hnone : Blank [] := nofun
  have hblank : Blank [.char ' '] := List.forall_mem_singleton.mpr (by decide)
  have hurl : Members _ _ := .last hnone (.of_plain (by decide : ∀ c ∈ "URL".toList, _)) hnone
    hblank (.string (.of_plain (by decide : ∀ c ∈ "https://c".toList, _))) hnone
  have hname : Members _ _ := .cons hnone (.of_plain (by decide : ∀ c ∈ "Name".toList, _)) hnone
    hblank (.string (.of_plain (by decide : ∀ c ∈ "C".toList, _))) hnone hurl
  have hrepos : Members _ _ := .last hnone
    (.of_plain (by decide : ∀ c ∈ "Repositories".toList, _)) hnone hnone
    (.array (.last hnone (.object hname) hnone)) hnone
  have hpackages : Members _ _ := .last hnone
    (.of_plain (by decide : ∀ c ∈ "Packages".toList, _)) hnone hnone (.emptyObject hblank) hnone
  have hr : Members _ _ := .cons hnone (.of_plain (by decide : ∀ c ∈ "R".toList, _)) hnone
    hnone (.object hrepos) hnone hpackages
  refine ⟨_, _, ?_, ⟨[], _, [], hnone, .object hr, hnone, rfl⟩, ?_, ⟨by decide, by decide, ?_⟩⟩
  · decide
  · exact ⟨_, _, rfl, rfl, .cons ⟨rfl, rfl⟩ .nil⟩
  · rfl

end GnuRQi.Renv
