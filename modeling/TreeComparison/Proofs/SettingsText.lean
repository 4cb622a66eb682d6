import TreeComparison.Proofs.LevelName
import TreeComparison.Proofs.OptionsText
import TreeComparison.Proofs.TomlNames
import TreeComparison.Settings.File

/-!
Settings as text. A document gives each setting by itself: by the value of its name in its section,
or by its default if the section or the name is left out. A section that is missing and one that is
empty come to the same. So a document is read as settings just if every name in it that is known has
a value of its kind, and nothing else in it counts. Whether the level is a good one is asked
afterwards, and of nothing but its name.
-/

namespace TreeComparison

namespace Toml

variable {α : Type} {entries doc : List (String × Toml)} {name heading : String} {v : Toml}
  {Says : Toml → α → Prop} {Given Given' : Toml → Prop} {read : Toml → Option α} {fallback a : α}

/-! ### Fields -/

/-- What a field comes to: its default if no value is given to it, and else what its value says. -/
inductive Gives (Says : Toml → α → Prop) (fallback : α) (Given : Toml → Prop) : α → Prop
  | absent (h : ∀ v, ¬ Given v) : Gives Says fallback Given fallback
  | present {v : Toml} {a : α} (hv : Given v) (ha : Says v a) : Gives Says fallback Given a

/-- Whether a field that is given a value is given one of its kind. -/
def Fits (Says : Toml → α → Prop) (Given : Toml → Prop) : Prop := ∀ v, Given v → ∃ a, Says v a

theorem field?_lookup_eq_some_iff (hnames : (entries.map Prod.fst).Nodup)
    (hread : ∀ v, (name, v) ∈ entries → ∀ a, read v = some a ↔ Says v a) :
    field? read fallback (entries.lookup name) = some a ↔
      Gives Says fallback (fun v => (name, v) ∈ entries) a := by
  cases hlookup : entries.lookup name with
  | none =>
    have habsent := lookup_eq_none_iff.1 hlookup
    constructor
    · intro ha
      obtain rfl : fallback = a := Option.some.inj ha
      exact .absent habsent
    · intro h
      cases h with
      | absent => rfl
      | present hv => exact absurd hv (habsent _)
  | some v =>
    have hv := (lookup_eq_some_iff hnames).1 hlookup
    constructor
    · intro ha
      exact .present hv ((hread v hv a).1 ha)
    · intro h
      cases h with
      | absent habsent => exact absurd hv (habsent v)
      | present hv' ha =>
        obtain rfl := value_unique hnames hv hv'
        exact (hread _ hv a).2 ha

theorem Gives.fits (hunique : ∀ v w, Given v → Given w → v = w) (h : Gives Says fallback Given a) :
    Fits Says Given := by
  intro v hv
  cases h with
  | absent habsent => exact absurd hv (habsent v)
  | present hv' ha =>
    obtain rfl := hunique _ _ hv hv'
    exact ⟨a, ha⟩

theorem Fits.exists_gives (h : Fits Says Given) (fallback : α) :
    ∃ a, Gives Says fallback Given a := by
  by_cases hv : ∃ v, Given v
  · obtain ⟨v, hv⟩ := hv
    obtain ⟨a, ha⟩ := h v hv
    exact ⟨a, .present hv ha⟩
  · exact ⟨fallback, .absent (not_exists.1 hv)⟩

theorem Gives.of_iff (hsame : ∀ v, Given v ↔ Given' v) (h : Gives Says fallback Given a) :
    Gives Says fallback Given' a := by
  cases h with
  | absent habsent => exact .absent fun v hv => habsent v ((hsame v).2 hv)
  | present hv ha => exact .present ((hsame _).1 hv) ha

/-! ### Sections -/

/-- Whether a document gives a value at a place, which is a section and a name in it. -/
def GivenAt (doc : List (String × Toml)) (place : String × String) (v : Toml) : Prop :=
  ∃ entries, (place.1, .table entries) ∈ doc ∧ (place.2, v) ∈ entries

/-- The entries of a section of a document, which are none if it is left out. -/
def sectionOf (doc : List (String × Toml)) (name : String) : List (String × Toml) :=
  match doc.lookup name with
  | some (.table entries) => entries
  | _ => []

theorem IsProper.names (h : (Toml.table entries).IsProper) : (entries.map Prod.fst).Nodup := by
  cases h with
  | table hnames => exact hnames

theorem sectionOf_of_mem (hdoc : (Toml.table doc).IsProper) (h : (name, .table entries) ∈ doc) :
    sectionOf doc name = entries := by
  rw [sectionOf, (lookup_eq_some_iff hdoc.names).2 h]

theorem sectionOf_eq_nil_or_mem (hdoc : (Toml.table doc).IsProper) :
    sectionOf doc name = [] ∨ (name, .table (sectionOf doc name)) ∈ doc := by
  rw [sectionOf.eq_def]
  split
  · rename_i hlookup
    exact .inr ((lookup_eq_some_iff hdoc.names).1 hlookup)
  · exact .inl rfl

theorem nodup_sectionOf (hdoc : (Toml.table doc).IsProper) :
    ((sectionOf doc name).map Prod.fst).Nodup := by
  rcases sectionOf_eq_nil_or_mem hdoc with hnil | hsection
  · rw [hnil]
    exact List.nodup_nil
  · cases hdoc with
    | table _ hproper => exact (hproper _ hsection).names

theorem givenAt_iff (hdoc : (Toml.table doc).IsProper) :
    GivenAt doc (heading, name) v ↔ (name, v) ∈ sectionOf doc heading := by
  constructor
  · rintro ⟨entries, hsection, hv⟩
    rwa [sectionOf_of_mem hdoc hsection]
  · intro hv
    rcases sectionOf_eq_nil_or_mem hdoc with hnil | hsection
    · rw [hnil] at hv
      exact absurd hv List.not_mem_nil
    · exact ⟨_, hsection, hv⟩

theorem gives_givenAt_iff (hdoc : (Toml.table doc).IsProper) :
    Gives Says fallback (fun v => (name, v) ∈ sectionOf doc heading) a ↔
      Gives Says fallback (GivenAt doc (heading, name)) a :=
  ⟨Gives.of_iff fun _ => (givenAt_iff hdoc).symm, Gives.of_iff fun _ => givenAt_iff hdoc⟩

theorem givenAt_unique {place : String × String} (hdoc : (Toml.table doc).IsProper) (v w : Toml)
    (hv : GivenAt doc place v) (hw : GivenAt doc place w) : v = w :=
  value_unique (nodup_sectionOf hdoc) ((givenAt_iff hdoc).1 hv) ((givenAt_iff hdoc).1 hw)

/-- A section that is left out is read as an empty one. -/
theorem field?_section (hdoc : (Toml.table doc).IsProper)
    (hsection : ∀ v, (name, v) ∈ doc → ∃ entries, v = .table entries)
    (hempty : read (.table []) = some fallback) :
    field? read fallback (doc.lookup name) = read (.table (sectionOf doc name)) := by
  rw [sectionOf]
  cases hlookup : doc.lookup name with
  | none => exact hempty.symm
  | some v =>
    obtain ⟨entries, rfl⟩ := hsection v ((lookup_eq_some_iff hdoc.names).1 hlookup)
    rfl

/-! ### Kinds of values -/

/-- The algorithm that a value says by its name. -/
def SaysAlgorithm (v : Toml) (h : HashAlgorithm) : Prop := v = .string h.tag

/-- The truth value that a value says. -/
def SaysBool (v : Toml) (b : Bool) : Prop := v = .boolean b

/-- The text that a value says. -/
def SaysText (v : Toml) (text : String) : Prop := v = .string text

theorem variant?_eq_some_iff {h : HashAlgorithm} (hv : ∀ entries, v ≠ .table entries) :
    variant? HashAlgorithm.ofTag? v = some h ↔ SaysAlgorithm v h := by
  cases v with
  | table entries => exact absurd rfl (hv entries)
  | string text => simp [variant?, SaysAlgorithm, HashAlgorithm.ofTag?_eq_some_iff]
  | _ => simp [variant?, SaysAlgorithm]

theorem bool?_eq_some_iff {b : Bool} : v.bool? = some b ↔ SaysBool v b := by
  cases v <;> simp [bool?, SaysBool]

theorem text?_eq_some_iff {text : String} : v.text? = some text ↔ SaysText v text := by
  cases v <;> simp [text?, SaysText]

end Toml

variable {doc doc' entries : List (String × Toml)}

/-! ### Reading the sections -/

theorem Options.ofToml?_table_eq_some_iff {o : Options} (hnames : (entries.map Prod.fst).Nodup)
    (halgorithm : ∀ es, ("hash_algorithm", .table es) ∉ entries) :
    ofToml? (.table entries) = some o ↔
      Toml.Gives Toml.SaysAlgorithm .sha256 (fun v => ("hash_algorithm", v) ∈ entries)
        o.hashAlgorithm ∧
      Toml.Gives Toml.SaysBool false (fun v => ("strict", v) ∈ entries) o.strict := by
  have hread : ∀ v, ("hash_algorithm", v) ∈ entries → ∀ h,
      Toml.variant? HashAlgorithm.ofTag? v = some h ↔ Toml.SaysAlgorithm v h := by
    intro v hv h
    refine Toml.variant?_eq_some_iff ?_
    rintro es rfl
    exact halgorithm es hv
  rw [← Toml.field?_lookup_eq_some_iff hnames hread,
    ← Toml.field?_lookup_eq_some_iff hnames fun _ _ _ => Toml.bool?_eq_some_iff]
  obtain ⟨h, b⟩ := o
  simp [ofToml?, Toml.fields?, default, Option.bind_eq_some_iff]

theorem OutputSettings.ofToml?_table_eq_some_iff {o : OutputSettings}
    (hnames : (entries.map Prod.fst).Nodup) : ofToml? (.table entries) = some o ↔
      Toml.Gives Toml.SaysBool false (fun v => ("pretty", v) ∈ entries) o.pretty ∧
      Toml.Gives Toml.SaysBool false (fun v => ("sorted", v) ∈ entries) o.sorted := by
  rw [← Toml.field?_lookup_eq_some_iff hnames fun _ _ _ => Toml.bool?_eq_some_iff,
    ← Toml.field?_lookup_eq_some_iff hnames fun _ _ _ => Toml.bool?_eq_some_iff]
  obtain ⟨p, s⟩ := o
  simp [ofToml?, Toml.fields?, default, Option.bind_eq_some_iff]

theorem LoggingSettings.ofToml?_table_eq_some_iff {l : LoggingSettings}
    (hnames : (entries.map Prod.fst).Nodup) : ofToml? (.table entries) = some l ↔
      Toml.Gives Toml.SaysText "warn" (fun v => ("level", v) ∈ entries) l.level ∧
      Toml.Gives Toml.SaysBool false (fun v => ("json", v) ∈ entries) l.json := by
  rw [← Toml.field?_lookup_eq_some_iff hnames fun _ _ _ => Toml.text?_eq_some_iff,
    ← Toml.field?_lookup_eq_some_iff hnames fun _ _ _ => Toml.bool?_eq_some_iff]
  obtain ⟨t, j⟩ := l
  simp [ofToml?, Toml.fields?, default, LogLevel.name, Option.bind_eq_some_iff]

namespace Settings

open Toml (GivenAt Gives Fits SaysAlgorithm SaysBool SaysText)

variable {settings : Settings}

/-- The places at which settings are given: a section, and a name in it. -/
def places : List (String × String) :=
  [("compare", "hash_algorithm"), ("compare", "strict"), ("output", "pretty"),
    ("output", "sorted"), ("logging", "level"), ("logging", "json")]

/-- Whether the sections of a document are tables, and its algorithm is none. -/
structure IsPlain (doc : List (String × Toml)) : Prop where
  sections : ∀ name ∈ ["compare", "output", "logging"], ∀ v, (name, v) ∈ doc →
    ∃ entries, v = .table entries
  algorithm : ∀ entries, ¬ GivenAt doc ("compare", "hash_algorithm") (.table entries)

/-- Whether settings are those that a document gives, each by itself. -/
structure AreGiven (doc : List (String × Toml)) (s : Settings) : Prop where
  hashAlgorithm : Gives SaysAlgorithm .sha256 (GivenAt doc ("compare", "hash_algorithm"))
    s.compare.hashAlgorithm
  strict : Gives SaysBool false (GivenAt doc ("compare", "strict")) s.compare.strict
  pretty : Gives SaysBool false (GivenAt doc ("output", "pretty")) s.output.pretty
  sorted : Gives SaysBool false (GivenAt doc ("output", "sorted")) s.output.sorted
  level : Gives SaysText "warn" (GivenAt doc ("logging", "level")) s.logging.level
  json : Gives SaysBool false (GivenAt doc ("logging", "json")) s.logging.json

/-- Whether each value that a document gives at one of the places is of the kind that belongs
there. -/
structure IsFit (doc : List (String × Toml)) : Prop where
  hashAlgorithm : Fits SaysAlgorithm (GivenAt doc ("compare", "hash_algorithm"))
  strict : Fits SaysBool (GivenAt doc ("compare", "strict"))
  pretty : Fits SaysBool (GivenAt doc ("output", "pretty"))
  sorted : Fits SaysBool (GivenAt doc ("output", "sorted"))
  level : Fits SaysText (GivenAt doc ("logging", "level"))
  json : Fits SaysBool (GivenAt doc ("logging", "json"))

theorem ofToml?_table (hdoc : (Toml.table doc).IsProper) (hplain : IsPlain doc) :
    ofToml? (.table doc) = some settings ↔
      Options.ofToml? (.table (Toml.sectionOf doc "compare")) = some settings.compare ∧
      OutputSettings.ofToml? (.table (Toml.sectionOf doc "output")) = some settings.output ∧
      LoggingSettings.ofToml? (.table (Toml.sectionOf doc "logging")) = some settings.logging := by
  have hcompare : field? Options.ofToml? default.compare (doc.lookup "compare") =
      Options.ofToml? (.table (Toml.sectionOf doc "compare")) :=
    Toml.field?_section hdoc (hplain.sections "compare" (by decide)) rfl
  have houtput : field? OutputSettings.ofToml? default.output (doc.lookup "output") =
      OutputSettings.ofToml? (.table (Toml.sectionOf doc "output")) :=
    Toml.field?_section hdoc (hplain.sections "output" (by decide)) rfl
  have hlogging : field? LoggingSettings.ofToml? default.logging (doc.lookup "logging") =
      LoggingSettings.ofToml? (.table (Toml.sectionOf doc "logging")) :=
    Toml.field?_section hdoc (hplain.sections "logging" (by decide)) rfl
  rw [← hcompare, ← houtput, ← hlogging]
  obtain ⟨c, o, l⟩ := settings
  simp [ofToml?, Toml.fields?, Option.bind_eq_some_iff]

/-- A document gives each setting by itself. -/
theorem ofToml?_table_eq_some_iff (hdoc : (Toml.table doc).IsProper) (hplain : IsPlain doc) :
    ofToml? (.table doc) = some settings ↔ settings.AreGiven doc := by
  have hsection : ∀ name, ((Toml.sectionOf doc name).map Prod.fst).Nodup :=
    fun _ => Toml.nodup_sectionOf hdoc
  have halgorithm : ∀ es, ("hash_algorithm", .table es) ∉ Toml.sectionOf doc "compare" :=
    fun es hes => hplain.algorithm es ((Toml.givenAt_iff hdoc).2 hes)
  rw [ofToml?_table hdoc hplain,
    Options.ofToml?_table_eq_some_iff (hsection "compare") halgorithm,
    OutputSettings.ofToml?_table_eq_some_iff (hsection "output"),
    LoggingSettings.ofToml?_table_eq_some_iff (hsection "logging")]
  simp only [Toml.gives_givenAt_iff hdoc]
  constructor
  · rintro ⟨⟨hhash, hstrict⟩, ⟨hpretty, hsorted⟩, hlevel, hjson⟩
    exact ⟨hhash, hstrict, hpretty, hsorted, hlevel, hjson⟩
  · rintro ⟨hhash, hstrict, hpretty, hsorted, hlevel, hjson⟩
    exact ⟨⟨hhash, hstrict⟩, ⟨hpretty, hsorted⟩, hlevel, hjson⟩

/-- A document gives some settings just if all values that it gives are of their kinds. -/
theorem exists_areGiven_iff (hdoc : (Toml.table doc).IsProper) :
    (∃ settings, AreGiven doc settings) ↔ IsFit doc := by
  have hunique : ∀ {place} v w, GivenAt doc place v → GivenAt doc place w → v = w :=
    Toml.givenAt_unique hdoc
  constructor
  · rintro ⟨settings, h⟩
    exact ⟨h.hashAlgorithm.fits hunique, h.strict.fits hunique, h.pretty.fits hunique,
      h.sorted.fits hunique, h.level.fits hunique, h.json.fits hunique⟩
  · intro h
    obtain ⟨a, hhash⟩ := h.hashAlgorithm.exists_gives .sha256
    obtain ⟨b, hstrict⟩ := h.strict.exists_gives false
    obtain ⟨p, hpretty⟩ := h.pretty.exists_gives false
    obtain ⟨s, hsorted⟩ := h.sorted.exists_gives false
    obtain ⟨t, hlevel⟩ := h.level.exists_gives "warn"
    obtain ⟨j, hjson⟩ := h.json.exists_gives false
    exact ⟨⟨⟨a, b⟩, ⟨p, s⟩, ⟨t, j⟩⟩, hhash, hstrict, hpretty, hsorted, hlevel, hjson⟩

/-- Whether two documents give the same values at all places. -/
def SameGiven (doc doc' : List (String × Toml)) : Prop :=
  ∀ place ∈ places, ∀ v, GivenAt doc place v ↔ GivenAt doc' place v

theorem SameGiven.symm (h : SameGiven doc doc') : SameGiven doc' doc :=
  fun place hplace v => (h place hplace v).symm

theorem AreGiven.of_sameGiven (hsame : SameGiven doc doc') (h : AreGiven doc settings) :
    AreGiven doc' settings where
  hashAlgorithm := h.hashAlgorithm.of_iff (hsame ("compare", "hash_algorithm") (by decide))
  strict := h.strict.of_iff (hsame ("compare", "strict") (by decide))
  pretty := h.pretty.of_iff (hsame ("output", "pretty") (by decide))
  sorted := h.sorted.of_iff (hsame ("output", "sorted") (by decide))
  level := h.level.of_iff (hsame ("logging", "level") (by decide))
  json := h.json.of_iff (hsame ("logging", "json") (by decide))

/-! ### Settings from a text -/

/-- Whether a text is read as settings field by field. -/
structure ReadsFieldwise (text : String) : Prop where
  /-- A document is a table, and gives no name twice. -/
  table : ∀ v, Toml.parse? text = some v → ∃ doc, v = .table doc ∧ v.IsProper
  /-- Each setting has the value that is given to it, or its default if none is. -/
  given : ∀ doc, Toml.parse? text = some (.table doc) → IsPlain doc →
    ∀ settings, parse? text = some settings ↔ settings.AreGiven doc
  /-- There are settings just if each value that is given to one is of its kind. -/
  fit : ∀ doc, Toml.parse? text = some (.table doc) → IsPlain doc →
    ((∃ settings, parse? text = some settings) ↔ IsFit doc)
  /-- Neither the order of the sections and the names matters, nor what else is there. -/
  same : ∀ doc, Toml.parse? text = some (.table doc) → IsPlain doc →
    ∀ text' doc', Toml.parse? text' = some (.table doc') → IsPlain doc' → SameGiven doc doc' →
      parse? text = parse? text'
  /-- From a file that holds the text the settings are loaded that are read from the text. -/
  file : ∀ (s : Store) u start path content, s.readFile u start path = .ok content →
    Utf8.decode? content = some text →
    ∀ settings, load s u start path = .ok settings ↔ parse? text = some settings

theorem parse?_eq_some_iff {text : String} (h : Toml.parse? text = some (.table doc))
    (hplain : IsPlain doc) : parse? text = some settings ↔ settings.AreGiven doc := by
  obtain ⟨_, -, hproper⟩ := Toml.exists_table_of_parse? h
  rw [parse?, h, Option.bind_eq_bind, Option.bind_some, ofToml?_table_eq_some_iff hproper hplain]

theorem readsFieldwise (text : String) : ReadsFieldwise text where
  table v h := Toml.exists_table_of_parse? h
  given doc h hplain settings := parse?_eq_some_iff h hplain
  fit doc h hplain := by
    obtain ⟨_, -, hproper⟩ := Toml.exists_table_of_parse? h
    rw [← exists_areGiven_iff hproper]
    exact exists_congr fun settings => parse?_eq_some_iff h hplain
  same doc h hplain text' doc' h' hplain' hsame := by
    refine Option.ext fun settings => ?_
    rw [parse?_eq_some_iff h hplain, parse?_eq_some_iff h' hplain']
    exact ⟨AreGiven.of_sameGiven hsame, AreGiven.of_sameGiven hsame.symm⟩
  file s u start path content hread htext settings := by
    simp only [load, hread, htext]
    cases parse? text <;> simp

/-- Whether the level of settings is one of the five just if its name is, in letters of any case,
and nothing else of the settings is asked. -/
structure ChecksLevel (settings : Settings) : Prop where
  level : ∀ l, settings.level = .ok l ↔ LowerCase.lowerAscii settings.logging.level = l.name
  alone : ∀ settings' : Settings, settings'.logging.level = settings.logging.level →
    settings'.level = settings.level

theorem checksLevel (settings : Settings) : ChecksLevel settings where
  level l := by
    rw [← LogLevel.ofName?_eq_some_iff, Settings.level]
    split
    · rename_i hname
      simp [hname]
    · rename_i hname
      simp [hname]
  alone settings' h := by rw [Settings.level, Settings.level, h]

/-- Settings are read from a text field by field, and of settings the level alone is checked. -/
theorem parse?_isFieldwise (text : String) :
    ReadsFieldwise text ∧ ∀ settings : Settings, ChecksLevel settings :=
  ⟨readsFieldwise text, checksLevel⟩

/-- A text that gives three settings, and a value to a name that is not known. -/
def thorough : String :=
  "[compare]\nhash_algorithm = \"blake3\"\nstrict = true\nfast = 1\n[logging]\nlevel = \"INFO\"\n"

/-- The entries of the document that this text is. -/
def thoroughEntries : List (String × Toml) :=
  [("compare", .table [("hash_algorithm", .string "blake3"), ("strict", .boolean true),
      ("fast", .integer 1)]),
    ("logging", .table [("level", .string "INFO")])]

/-- Whether a value is the document with these entries. -/
def isThorough : Toml → Bool
  | .table [(compare, .table [(algorithm, .string a), (strict, .boolean true), (fast, .integer 1)]),
      (logging, .table [(level, .string l)])] =>
    compare = "compare" && algorithm = "hash_algorithm" && a = "blake3" && strict = "strict" &&
      fast = "fast" && logging = "logging" && level = "level" && l = "INFO"
  | _ => false

theorem eq_of_isThorough {v : Toml} (h : isThorough v = true) : v = .table thoroughEntries := by
  rw [isThorough.eq_def] at h
  split at h
  · simp only [Bool.and_eq_true, decide_eq_true_eq] at h
    obtain ⟨⟨⟨⟨⟨⟨⟨rfl, rfl⟩, rfl⟩, rfl⟩, rfl⟩, rfl⟩, rfl⟩, rfl⟩ := h
    rfl
  · cases h

/-- Values that the document gives are read, defaults stand for the others, and the level is a good
one whatever its letters are. -/
theorem parse?_thorough : Toml.parse? thorough = some (.table thoroughEntries) ∧
    IsPlain thoroughEntries ∧
    parse? thorough = some ⟨⟨.blake3, true⟩, ⟨false, false⟩, ⟨"INFO", false⟩⟩ ∧
    Settings.level ⟨⟨.blake3, true⟩, ⟨false, false⟩, ⟨"INFO", false⟩⟩ = .ok .info := by
  have hparse : Toml.parse? thorough = some (.table thoroughEntries) := by
    have hsome : (Toml.parse? thorough).any isThorough = true := by decide +kernel
    cases hv : Toml.parse? thorough with
    | none =>
      rw [hv] at hsome
      cases hsome
    | some v =>
      rw [hv] at hsome
      rw [eq_of_isThorough hsome]
  have hplain : IsPlain thoroughEntries := by
    constructor <;> simp [GivenAt, thoroughEntries]
  obtain ⟨hread, hlevel⟩ := parse?_isFieldwise thorough
  refine ⟨hparse, hplain, (hread.given _ hparse hplain _).2 ?_,
    ((hlevel _).level .info).2 (by decide)⟩
  exact {
    hashAlgorithm := .present ⟨_, .head _, .head _⟩ rfl
    strict := .present ⟨_, .head _, .tail _ (.head _)⟩ rfl
    pretty := .absent (by simp [GivenAt, thoroughEntries])
    sorted := .absent (by simp [GivenAt, thoroughEntries])
    level := .present ⟨_, .tail _ (.head _), .head _⟩ rfl
    json := .absent (by simp [GivenAt, thoroughEntries]) }

/-- A section that is not known may hold any value under a known name. -/
example : parse? "[logging]\nlevel = 'LOUD'\n[other]\nstrict = 1\n"
    = some ⟨.default, .default, ⟨"LOUD", false⟩⟩ := by decide +kernel

example : parse? "output.pretty = true\noutput.sorted = 'no'" = none := by decide +kernel

end Settings

end TreeComparison
