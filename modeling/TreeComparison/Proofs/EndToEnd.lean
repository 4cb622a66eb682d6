import TreeComparison.CommandLine.Run
import TreeComparison.Proofs.AcceptedArguments
import TreeComparison.Proofs.LevelName
import TreeComparison.Proofs.SettingsPath
import TreeComparison.Proofs.Tree

/-!
A run of the program from its arguments to its answer. A run takes four steps: it finds its
settings, checks the level for the log, and opens the first and the second directory. The first step
that cannot be made ends it with status 2 and nothing printed; what is then complained of tells the
step. If all are made, the run prints the report of the comparison, and its status tells no more
than whether the report is empty.
-/

namespace TreeComparison

variable {s : Store} {u : User} {start x y : DirectoryId} {e e' : Environment} {a a' : Arguments}
  {words words' : List Bytes} {found settings settings' : Settings} {path : Bytes} {text : String}

/-! ### Settings -/

/-- Whether a run has its settings from a file: from the one that is named, or else from the user's
own if that is a file. -/
inductive Arguments.ReadsFrom (a : Arguments) (s : Store) (u : User) (start : DirectoryId)
    (e : Environment) : Bytes → Prop where
  | named (path : Bytes) (h : a.config = some path) : ReadsFrom a s u start e path
  | own (path : Bytes) (h : a.config = none) (hpath : e.HasSettingsAt (s.homes u.uid) path)
      (hfile : s.isFile u start path = true) : ReadsFrom a s u start e path

/-- Whether a file says some settings. -/
def Settings.AreIn (settings : Settings) (s : Store) (u : User) (start : DirectoryId)
    (path : Bytes) : Prop :=
  ∃ content text, s.readFile u start path = .ok content ∧ Utf8.decode? content = some text ∧
    Settings.parse? text = some settings

/-- Whether settings are those of the settings file of a run, or the default ones if there is no
such file. -/
inductive Arguments.Finds (a : Arguments) (s : Store) (u : User) (start : DirectoryId)
    (e : Environment) : Settings → Prop where
  | file (path : Bytes) (found : Settings) (hfile : a.ReadsFrom s u start e path)
      (hfound : found.AreIn s u start path) : Finds a s u start e found
  | default (hfile : ∀ path, ¬ a.ReadsFrom s u start e path) : Finds a s u start e .default

/-- Whether settings are others with arguments laid over them: a value replaces, and a flag can only
switch on. -/
structure Settings.IsOverlaid (found : Settings) (a : Arguments) (settings : Settings) : Prop where
  hash : settings.compare.hashAlgorithm = a.hash.getD found.compare.hashAlgorithm
  strict : settings.compare.strict = true ↔ found.compare.strict = true ∨ .strict ∈ a.flags
  pretty : settings.output.pretty = true ↔ found.output.pretty = true ∨ .pretty ∈ a.flags
  sorted : settings.output.sorted = true ↔ found.output.sorted = true ∨ .sorted ∈ a.flags
  level : settings.logging.level = a.logLevel.getD found.logging.level
  json : settings.logging.json = true ↔ found.logging.json = true ∨ .logJson ∈ a.flags

/-- Whether settings are those that a run goes by. -/
def Arguments.Merges (a : Arguments) (s : Store) (u : User) (start : DirectoryId)
    (e : Environment) (settings : Settings) : Prop :=
  ∃ found, a.Finds s u start e found ∧ found.IsOverlaid a settings

/-- Whether the level for the log is one of the five, in letters of any case. -/
def Settings.HasLevel (settings : Settings) : Prop :=
  ∃ l : LogLevel, LowerCase.lowerAscii settings.logging.level = l.name

theorem Arguments.has_iff {flag : Flag} : a.has flag = true ↔ flag ∈ a.flags := by
  rw [has, decide_eq_true_iff]

theorem Settings.isOverlaid_iff : found.IsOverlaid a settings ↔ settings = found.merge a := by
  constructor
  · intro h
    obtain ⟨⟨hash, strict⟩, ⟨pretty, sorted⟩, ⟨level, json⟩⟩ := settings
    obtain ⟨hhash, hstrict, hpretty, hsorted, hlevel, hjson⟩ := h
    simp only [← Arguments.has_iff, ← Bool.or_eq_true, Bool.coe_iff_coe]
      at hstrict hpretty hsorted hjson
    simp only at hhash hlevel
    rw [hhash, hstrict, hpretty, hsorted, hlevel, hjson]
    rfl
  · rintro rfl
    constructor <;> simp [merge, Arguments.has_iff]

theorem Settings.discover_of_readsFrom (h : a.ReadsFrom s u start e path) :
    discover s u start e a.config = load s u start path := by
  rw [discover.eq_def]
  cases h with
  | named h => rw [h]
  | own h hpath hfile =>
    simp only [h, Environment.settingsPath?_eq_some_iff.2 hpath, hfile, if_true]

theorem Settings.discover_of_not_readsFrom (h : ∀ path, ¬ a.ReadsFrom s u start e path) :
    discover s u start e a.config = .ok .default := by
  rw [discover.eq_def]
  cases hconfig : a.config with
  | some path => exact absurd (.named path hconfig) (h path)
  | none =>
    cases hpath : e.settingsPath? (s.homes u.uid) with
    | none => rfl
    | some path =>
      refine if_neg fun hfile => h path ?_
      exact .own path hconfig (Environment.settingsPath?_eq_some_iff.1 hpath) hfile

theorem Settings.load_eq_ok (h : settings.AreIn s u start path) :
    load s u start path = .ok settings := by
  obtain ⟨content, text, hread, htext, hparse⟩ := h
  simp only [load, hread, htext, hparse]

theorem Arguments.discover_of_finds (h : a.Finds s u start e found) :
    Settings.discover s u start e a.config = .ok found := by
  cases h with
  | file path found hfile hfound =>
    rw [Settings.discover_of_readsFrom hfile, Settings.load_eq_ok hfound]
  | default hfile => exact Settings.discover_of_not_readsFrom hfile

theorem Arguments.settings_of_merges (h : a.Merges s u start e settings) :
    a.settings s u start e = settings.level.map fun level => (settings, level) := by
  obtain ⟨found, hfound, hmerge⟩ := h
  obtain rfl := Settings.isOverlaid_iff.1 hmerge
  rw [Arguments.settings, discover_of_finds hfound]
  change ((found.merge a).level >>= fun level => .ok (found.merge a, level)) = _
  cases (found.merge a).level <;> rfl

theorem Settings.level_of_hasLevel (h : settings.HasLevel) : ∃ l, settings.level = .ok l := by
  obtain ⟨l, hl⟩ := h
  exact ⟨l, by rw [level, LogLevel.ofName?_eq_some_iff.2 hl]⟩

theorem Settings.level_of_not_hasLevel (h : ¬ settings.HasLevel) :
    settings.level = .error (.unknownLevel settings.logging.level) := by
  rw [level]
  split
  · rename_i l hl
    exact absurd ⟨l, LogLevel.ofName?_eq_some_iff.1 hl⟩ h
  · rfl

/-! ### Steps -/

/-- What a run that fails complains of. There is one case for each way in which a step can fail, and
in it all earlier steps are made. -/
inductive Arguments.Fails (a : Arguments) (s : Store) (u : User) (start : DirectoryId)
    (e : Environment) : String → Prop where
  | unreadable (path : Bytes) (fault : Fault) (hfile : a.ReadsFrom s u start e path)
      (hread : s.readFile u start path = .error fault) :
      Fails a s u start e (SettingsError.unreadable path fault).message
  | notText (path content : Bytes) (hfile : a.ReadsFrom s u start e path)
      (hread : s.readFile u start path = .ok content) (htext : Utf8.decode? content = none) :
      Fails a s u start e (SettingsError.unreadable path
        (.told .invalidData "stream did not contain valid UTF-8")).message
  | malformed (path content : Bytes) (text : String)
      (hfile : a.ReadsFrom s u start e path)
      (hread : s.readFile u start path = .ok content) (htext : Utf8.decode? content = some text)
      (hparse : Settings.parse? text = none) :
      Fails a s u start e (SettingsError.malformed path).message
  | level (settings : Settings) (hsettings : a.Merges s u start e settings)
      (hlevel : ¬ settings.HasLevel) :
      Fails a s u start e (SettingsError.unknownLevel settings.logging.level).message
  | first (settings : Settings) (refusal : Refusal) (hsettings : a.Merges s u start e settings)
      (hlevel : settings.HasLevel) (hfirst : s.openRoot u start a.dir1 = .error refusal) :
      Fails a s u start e (ComparisonError.openRoot a.dir1 (.system refusal)).chain
  | second (settings : Settings) (x : DirectoryId) (refusal : Refusal)
      (hsettings : a.Merges s u start e settings) (hlevel : settings.HasLevel)
      (hfirst : s.openRoot u start a.dir1 = .ok x)
      (hsecond : s.openRoot u start a.dir2 = .error refusal) :
      Fails a s u start e (ComparisonError.openRoot a.dir2 (.system refusal)).chain

/-- Whether all steps of a run are made, with some settings and some directories opened. -/
structure Arguments.Succeeds (a : Arguments) (s : Store) (u : User) (start : DirectoryId)
    (e : Environment) (settings : Settings) (x y : DirectoryId) : Prop where
  merges : a.Merges s u start e settings
  hasLevel : settings.HasLevel
  first : s.openRoot u start a.dir1 = .ok x
  second : s.openRoot u start a.dir2 = .ok y

theorem Arguments.fails_or_finds : (∃ text, a.Fails s u start e text) ∨
    ∃ found, a.Finds s u start e found := by
  by_cases hfile : ∃ path, a.ReadsFrom s u start e path
  · obtain ⟨path, hfile⟩ := hfile
    cases hread : s.readFile u start path with
    | error fault => exact .inl ⟨_, .unreadable path fault hfile hread⟩
    | ok content =>
      cases htext : Utf8.decode? content with
      | none => exact .inl ⟨_, .notText path content hfile hread htext⟩
      | some text =>
        cases hparse : Settings.parse? text with
        | none => exact .inl ⟨_, .malformed path content text hfile hread htext hparse⟩
        | some found =>
          exact .inr ⟨found, .file path found hfile ⟨content, text, hread, htext, hparse⟩⟩
  · exact .inr ⟨.default, .default (not_exists.1 hfile)⟩

/-- In each run a step fails or all are made. -/
theorem Arguments.fails_or_succeeds : (∃ text, a.Fails s u start e text) ∨
    ∃ settings x y, a.Succeeds s u start e settings x y := by
  have hfinds : (∃ text, a.Fails s u start e text) ∨ ∃ found, a.Finds s u start e found :=
    fails_or_finds
  rcases hfinds with hfails | ⟨found, hfound⟩
  · exact .inl hfails
  have hsettings : a.Merges s u start e (found.merge a) :=
    ⟨found, hfound, Settings.isOverlaid_iff.2 rfl⟩
  by_cases hlevel : (found.merge a).HasLevel
  · cases hfirst : s.openRoot u start a.dir1 with
    | error refusal => exact .inl ⟨_, .first _ refusal hsettings hlevel hfirst⟩
    | ok x =>
      cases hsecond : s.openRoot u start a.dir2 with
      | error refusal => exact .inl ⟨_, .second _ x refusal hsettings hlevel hfirst hsecond⟩
      | ok y => exact .inr ⟨_, x, y, hsettings, hlevel, hfirst, hsecond⟩
  · exact .inl ⟨_, .level _ hsettings hlevel⟩

/-! ### Outcomes -/

theorem Store.openRoots_of_first {refusal : Refusal}
    (h : s.openRoot u start a.dir1 = .error refusal) :
    s.openRoots u start a.dir1 a.dir2 = .error (.openRoot a.dir1 (.system refusal)) := by
  rw [openRoots, h]
  rfl

theorem Store.openRoots_of_second {refusal : Refusal} (h : s.openRoot u start a.dir1 = .ok x)
    (h' : s.openRoot u start a.dir2 = .error refusal) :
    s.openRoots u start a.dir1 a.dir2 = .error (.openRoot a.dir2 (.system refusal)) := by
  rw [openRoots, h, h']
  rfl

theorem Arguments.Succeeds.openRoots_eq (h : a.Succeeds s u start e settings x y) :
    s.openRoots u start a.dir1 a.dir2 = .ok (x, y) := by
  rw [Store.openRoots, h.first, h.second]
  rfl

/-- A run with a good level goes on to the comparison. -/
theorem run_of_hasLevel (hparse : Arguments.parse words = .ok a)
    (hsettings : a.Merges s u start e settings) (hlevel : settings.HasLevel) :
    ∃ filter, run s u start e words = a.execute s u start settings filter := by
  obtain ⟨l, hl⟩ := Settings.level_of_hasLevel hlevel
  refine ⟨e.filter l, ?_⟩
  simp only [run, hparse, Arguments.settings_of_merges hsettings, hl, Except.map]

/-- A run whose settings cannot be found ends with that. -/
theorem run_of_settings {problem : SettingsError} (hparse : Arguments.parse words = .ok a)
    (h : a.settings s u start e = .error problem) :
    run s u start e words = .failed [] problem.message := by
  simp only [run, hparse, h]

theorem Arguments.settings_of_file {problem : SettingsError}
    (hfile : a.ReadsFrom s u start e path)
    (hload : Settings.load s u start path = .error problem) :
    a.settings s u start e = .error problem := by
  rw [Arguments.settings, Settings.discover_of_readsFrom hfile, hload]
  rfl

/-- The first step that cannot be made is what the run complains of. -/
theorem run_of_fails (hparse : Arguments.parse words = .ok a) (h : a.Fails s u start e text) :
    ∃ log, run s u start e words = .failed log text := by
  cases h with
  | unreadable path fault hfile hread =>
    refine ⟨[], run_of_settings hparse (Arguments.settings_of_file hfile ?_)⟩
    simp only [Settings.load, hread]
  | notText path content hfile hread htext =>
    refine ⟨[], run_of_settings hparse (Arguments.settings_of_file hfile ?_)⟩
    simp only [Settings.load, hread, htext]
  | malformed path content text hfile hread htext hparsed =>
    refine ⟨[], run_of_settings hparse (Arguments.settings_of_file hfile ?_)⟩
    simp only [Settings.load, hread, htext, hparsed]
  | level settings hsettings hlevel =>
    refine ⟨[], run_of_settings hparse ?_⟩
    rw [Arguments.settings_of_merges hsettings, Settings.level_of_not_hasLevel hlevel]
    rfl
  | first settings refusal hsettings hlevel hfirst =>
    obtain ⟨filter, hrun⟩ := run_of_hasLevel hparse hsettings hlevel
    rw [hrun, Arguments.execute, Store.openRoots_of_first hfirst]
    exact ⟨_, rfl⟩
  | second settings x refusal hsettings hlevel hfirst hsecond =>
    obtain ⟨filter, hrun⟩ := run_of_hasLevel hparse hsettings hlevel
    rw [hrun, Arguments.execute, Store.openRoots_of_second hfirst hsecond]
    exact ⟨_, rfl⟩

/-- Whether a run ends with a report: it prints the report in the order and in the layout that the
settings ask for, and a line end. Its status is 1 if that is asked for and the trees were found to
differ, and else 0, whatever was skipped. -/
structure Outcome.Reports (o : Outcome) (a : Arguments) (settings : Settings) (r : Report) :
    Prop where
  output : o.output =
    (if settings.output.sorted then r.sort else r).print settings.output.pretty ++ "\n"
  complaint : o.complaint = none
  status : o.status = 1 ∧ .exitCode ∈ a.flags ∧ (r.added ≠ [] ∨ r.deleted ≠ [] ∨ r.differences ≠ ∅)
    ∨ o.status = 0 ∧ ¬ (.exitCode ∈ a.flags ∧
      (r.added ≠ [] ∨ r.deleted ≠ [] ∨ r.differences ≠ ∅))

theorem Report.not_isEmpty_iff {r : Report} :
    r.isEmpty = false ↔ r.added ≠ [] ∨ r.deleted ≠ [] ∨ r.differences ≠ ∅ := by
  have hdifferences : r.differences.isEmpty = true ↔ r.differences = ∅ := by
    rw [SortedMap.isEmpty, List.isEmpty_iff, SortedMap.ext_iff]
    rfl
  rw [Bool.eq_false_iff, ne_eq, isEmpty, Bool.and_eq_true, Bool.and_eq_true, List.isEmpty_iff,
    List.isEmpty_iff, hdifferences]
  simp only [Classical.not_and_iff_not_or_not, or_assoc, ne_eq]

theorem run_of_succeeds (hparse : Arguments.parse words = .ok a)
    (h : a.Succeeds s u start e settings x y) :
    (run s u start e words).Reports a settings (s.diff u settings.compare x y ∅) := by
  obtain ⟨filter, hrun⟩ := run_of_hasLevel hparse h.merges h.hasLevel
  rw [hrun, Arguments.execute, h.openRoots_eq]
  refine ⟨rfl, rfl, ?_⟩
  rw [← Report.not_isEmpty_iff, ← Arguments.has_iff]
  change (if a.has .exitCode && !(s.diff u settings.compare x y ∅).isEmpty then 1 else 0) = 1 ∧ _ ∨
    (if a.has .exitCode && !(s.diff u settings.compare x y ∅).isEmpty then 1 else 0) = 0 ∧ _
  cases a.has .exitCode <;> cases (s.diff u settings.compare x y ∅).isEmpty <;> simp

/-! ### End to end -/

/-- What holds of a run with arguments that are accepted. -/
structure Arguments.RunsEndToEnd (a : Arguments) (s : Store) (u : User) (start : DirectoryId)
    (e : Environment) (words : List Bytes) : Prop where
  /-- The arguments are what the words give, which are read in one way only. -/
  said : ∃ items, Reads words items ∧ (∀ items', Reads words items' → items' = items) ∧
    a.AreSaidBy items
  /-- The run ends with status 2 and prints nothing just if a step fails. -/
  fails_iff : (run s u start e words).status = 2 ∧ (run s u start e words).output = "" ↔
    ∃ text, a.Fails s u start e text
  /-- What it complains of is the first step that fails. -/
  complaint : ∀ text, a.Fails s u start e text →
    (run s u start e words).complaint = some text
  /-- If none fails, all are made. -/
  succeeds : (∀ text, ¬ a.Fails s u start e text) →
    ∃ settings x y, a.Succeeds s u start e settings x y
  /-- If all are made, the report is that of the comparison by the merged settings. -/
  reports : ∀ settings x y, a.Succeeds s u start e settings x y →
    s.diffTrees u settings.compare start a.dir1 a.dir2 = .ok (s.diff u settings.compare x y ∅) ∧
      (run s u start e words).Reports a settings (s.diff u settings.compare x y ∅)
  /-- Nothing but the merged settings counts: it does not matter whether a setting is given by an
  argument, in a file or by default. -/
  same : ∀ words' a' e' settings settings' x y, Arguments.parse words' = .ok a' →
    a'.timeout = none → a'.dir1 = a.dir1 → a'.dir2 = a.dir2 →
    (.exitCode ∈ a'.flags ↔ .exitCode ∈ a.flags) → a.Succeeds s u start e settings x y →
    a'.Merges s u start e' settings' → settings'.HasLevel →
    settings'.compare = settings.compare → settings'.output = settings.output →
    (run s u start e' words').status = (run s u start e words).status ∧
      (run s u start e' words').output = (run s u start e words).output

/-- The status of a run with a report is determined by the report. -/
theorem Outcome.Reports.status_eq {o o' : Outcome} {r : Report} (h : o.Reports a settings r)
    (h' : o'.Reports a' settings' r) (hflag : .exitCode ∈ a'.flags ↔ .exitCode ∈ a.flags) :
    o'.status = o.status := by
  rcases h.status with ⟨hstatus, hdiffer⟩ | ⟨hstatus, hdiffer⟩ <;>
    rcases h'.status with ⟨hstatus', hdiffer'⟩ | ⟨hstatus', hdiffer'⟩
  · rw [hstatus, hstatus']
  · exact absurd ⟨hflag.2 hdiffer.1, hdiffer.2⟩ hdiffer'
  · exact absurd ⟨hflag.1 hdiffer'.1, hdiffer'.2⟩ hdiffer
  · rw [hstatus, hstatus']

/-- A run with words that are accepted, and that set no limit of time, prints the report of the
comparison that its merged settings ask for, or fails in its first step that cannot be made. -/
theorem run_endToEnd (hparse : Arguments.parse words = .ok a) (_htimeout : a.timeout = none)
    (s : Store) (u : User) (start : DirectoryId) (e : Environment) :
    a.RunsEndToEnd s u start e words where
  said := by
    obtain ⟨items, hreads, hsaid⟩ := Arguments.parse_eq_ok_iff.1 hparse
    exact ⟨items, hreads, fun _ => hreads.unique, hsaid⟩
  fails_iff := by
    constructor
    · rintro ⟨hstatus, -⟩
      refine Arguments.fails_or_succeeds.resolve_right ?_
      rintro ⟨settings, x, y, hsucceeds⟩
      rcases (run_of_succeeds hparse hsucceeds).status with ⟨hother, -⟩ | ⟨hother, -⟩ <;>
        rw [hstatus] at hother <;> cases hother
    · rintro ⟨text, hfails⟩
      obtain ⟨log, hrun⟩ := run_of_fails hparse hfails
      rw [hrun]
      exact ⟨rfl, rfl⟩
  complaint := by
    intro text hfails
    obtain ⟨log, hrun⟩ := run_of_fails hparse hfails
    rw [hrun]
    rfl
  succeeds := fun hfails => Arguments.fails_or_succeeds.resolve_left fun ⟨text, h⟩ => hfails text h
  reports := by
    intro settings x y hsucceeds
    refine ⟨?_, run_of_succeeds hparse hsucceeds⟩
    rw [Store.diffTrees, hsucceeds.openRoots_eq]
    rfl
  same := by
    intro words' a' e' settings settings' x y hparse' _ h1 h2 hflag hsucceeds hmerges hlevel
      hcompare houtput
    have hsucceeds' : a'.Succeeds s u start e' settings' x y :=
      ⟨hmerges, hlevel, h1 ▸ hsucceeds.first, h2 ▸ hsucceeds.second⟩
    have hreports := run_of_succeeds hparse hsucceeds
    have hreports' := run_of_succeeds hparse' hsucceeds'
    rw [hcompare] at hreports'
    refine ⟨hreports.status_eq hreports' hflag, ?_⟩
    rw [hreports.output, hreports'.output, houtput]

/-- The settings in `furnished`, which name no level that there is. -/
def furnishings : String := "[output]\nsorted = true\n[logging]\nlevel = \"loud\"\n"

/-- A file system with two trees in the root, `left` with a file in it and `right` with none. A file
of settings is at `tree-diff/config.toml`. -/
def furnished : Store where
  directories := #[
    ⟨⟨0o755, 0, 0, []⟩, ⟨[(⟨Utf8.encode "left", by decide +kernel⟩, .directory 1),
      (⟨Utf8.encode "right", by decide +kernel⟩, .directory 2),
      (⟨Utf8.encode "tree-diff", by decide +kernel⟩, .directory 3)], by decide +kernel⟩⟩,
    ⟨⟨0o755, 0, 0, []⟩, ⟨[(⟨Utf8.encode "file", by decide +kernel⟩,
      .file ⟨0o644, 7, 7, []⟩ [])], by decide +kernel⟩⟩,
    ⟨⟨0o755, 0, 0, []⟩, ∅⟩,
    ⟨⟨0o755, 0, 0, []⟩, ⟨[(⟨Utf8.encode "config.toml", by decide +kernel⟩,
      .file ⟨0o644, 0, 0, []⟩ (Utf8.encode furnishings))], by decide +kernel⟩⟩]

/-- The words `--pretty`, `-lWARN`, `--exit-code`, `left` and `right`. -/
def louder : List Bytes :=
  ["--pretty", "-lWARN", "--exit-code", "left", "right"].map Utf8.encode

/-- What these words give. -/
def loudly : Arguments :=
  ⟨Utf8.encode "left", Utf8.encode "right", none, none, none, some "WARN", [.exitCode, .pretty]⟩

/-- A run with these words, whose surroundings name the root for settings, takes the order from the
user's own settings, and from the words the layout and a level that there is. -/
theorem run_loudly_endToEnd :
    Arguments.parse louder = .ok loudly ∧ loudly.timeout = none ∧
    loudly.Succeeds furnished ⟨8, 8, false⟩ Store.root ⟨some [0x2F], none, none⟩
      ⟨.default, ⟨true, true⟩, ⟨"WARN", false⟩⟩ 1 2 ∧
    loudly.RunsEndToEnd furnished ⟨8, 8, false⟩ Store.root ⟨some [0x2F], none, none⟩ louder ∧
    (run furnished ⟨8, 8, false⟩ Store.root ⟨some [0x2F], none, none⟩ louder).status = 1 := by
  have hparse : Arguments.parse louder = .ok loudly := by decide +kernel
  have hpath : Environment.HasSettingsAt ⟨some [0x2F], none, none⟩ none
      (Path.below [0x2F] "tree-diff/config.toml") := .configHome [0x2F] rfl rfl
  have hfound : Settings.AreIn ⟨.default, ⟨false, true⟩, ⟨"loud", false⟩⟩ furnished ⟨8, 8, false⟩
      Store.root (Path.below [0x2F] "tree-diff/config.toml") :=
    ⟨Utf8.encode furnishings, furnishings, by decide +kernel, Utf8.decode?_eq_some_iff.2 rfl,
      by decide +kernel⟩
  have hruns := run_endToEnd hparse rfl furnished ⟨8, 8, false⟩ Store.root ⟨some [0x2F], none, none⟩
  have hsucceeds : loudly.Succeeds furnished ⟨8, 8, false⟩ Store.root ⟨some [0x2F], none, none⟩
      ⟨.default, ⟨true, true⟩, ⟨"WARN", false⟩⟩ 1 2 :=
    ⟨⟨_, .file _ _ (.own _ rfl hpath (by decide +kernel)) hfound,
      Settings.isOverlaid_iff.2 rfl⟩, ⟨.warn, by decide +kernel⟩, by decide +kernel,
      by decide +kernel⟩
  refine ⟨hparse, rfl, hsucceeds, hruns, ?_⟩
  rcases (hruns.reports _ _ _ hsucceeds).2.status with ⟨hstatus, -⟩ | ⟨-, hdiffer⟩
  · exact hstatus
  · exact absurd ⟨by decide, .inr (.inl (by decide +kernel))⟩ hdiffer

end TreeComparison
