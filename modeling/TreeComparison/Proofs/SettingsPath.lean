import TreeComparison.Settings.File

/-!
Where a user's own settings lie. There is at most one such place. A directory for settings that the
surroundings name goes before a home directory, and a home that they name before that of the
account.
-/

namespace TreeComparison

namespace Path

variable {d : Bytes} {name rest : String}

/-- The path of what lies in a directory. One slash stands between the two. -/
def below (d : Bytes) (names : String) : Bytes :=
  (if d.getLast? = some 0x2F then d else d ++ [0x2F]) ++ Utf8.encode names

theorem join_eq_below (hne : d ≠ []) : join d name = below d name := by
  rw [join, below]
  by_cases hlast : d.getLast? = some 0x2F <;> simp [hne, hlast]

theorem below_ne_nil : below d name ≠ [] := by
  rw [below]
  split
  · rename_i hlast
    rintro hnil
    rw [(List.append_eq_nil_iff.1 hnil).1] at hlast
    cases hlast
  · simp

theorem encode_append {a b : String} : Utf8.encode (a ++ b) = Utf8.encode a ++ Utf8.encode b := by
  rw [Utf8.encode, String.toList_append, List.flatMap_append]
  rfl

/-- Names that do not end in a slash can be put together with a slash between them. -/
theorem below_below {b : UInt8} (hlast : (Utf8.encode name).getLast? = some b) (hb : b ≠ 0x2F) :
    below (below d name) rest = below d (name ++ "/" ++ rest) := by
  have hend : (below d name).getLast? ≠ some 0x2F := by
    rw [below, List.getLast?_append, hlast, Option.some_or]
    exact fun heq => hb (Option.some.inj heq)
  rw [below, if_neg hend, below, below, encode_append, encode_append]
  simp only [List.append_assoc]
  rfl

end Path

namespace Environment

variable {e : Environment} {account : Option Bytes} {path : Bytes}

/-- Where a user's own settings lie: in the directory that the surroundings name for settings, or
else in the home directory that they name, or else in that of the account. What is named for
settings must be an absolute path, and a home must not be an empty one. -/
inductive HasSettingsAt (e : Environment) (account : Option Bytes) : Bytes → Prop where
  | configHome (d : Bytes) (h : e.configHome = some d) (habsolute : d.head? = some 0x2F) :
      HasSettingsAt e account (Path.below d "tree-diff/config.toml")
  | home (d : Bytes) (hconfig : ∀ d ∈ e.configHome, d.head? ≠ some 0x2F) (h : e.home = some d)
      (hne : d ≠ []) : HasSettingsAt e account (Path.below d ".config/tree-diff/config.toml")
  | account (d : Bytes) (hconfig : ∀ d ∈ e.configHome, d.head? ≠ some 0x2F)
      (hhome : ∀ d ∈ e.home, d = []) (h : account = some d) (hne : d ≠ []) :
      HasSettingsAt e account (Path.below d ".config/tree-diff/config.toml")

/-- A home is the one that the surroundings name, or else that of the account. -/
theorem home?_eq_some_iff {d : Bytes} : e.home? account = some d ↔
    d ≠ [] ∧ (e.home = some d ∨ (∀ d ∈ e.home, d = []) ∧ account = some d) := by
  simp only [home?, Option.orElse_eq_orElse, Option.orElse_eq_or, Option.or_eq_some_iff,
    Option.filter_eq_some_iff, Option.filter_eq_none_iff, decide_eq_true_eq, ne_eq,
    Classical.not_not]
  constructor
  · rintro (⟨h, hne⟩ | ⟨hhome, h, hne⟩)
    · exact ⟨hne, .inl h⟩
    · exact ⟨hne, .inr ⟨hhome, h⟩⟩
  · rintro ⟨hne, h | ⟨hhome, h⟩⟩
    · exact .inl ⟨h, hne⟩
    · exact .inr ⟨hhome, h, hne⟩

theorem configFile_eq (hne : path ≠ []) : Path.join (Path.join path "tree-diff") "config.toml" =
    Path.below path "tree-diff/config.toml" := by
  have hlast : (Utf8.encode "tree-diff").getLast? = some 0x66 := by decide +kernel
  rw [Path.join_eq_below hne, Path.join_eq_below Path.below_ne_nil,
    Path.below_below hlast (by decide)]
  rfl

theorem homeFile_eq (hne : path ≠ []) :
    Path.join (Path.join (Path.join path ".config") "tree-diff") "config.toml" =
      Path.below path ".config/tree-diff/config.toml" := by
  have hlast : (Utf8.encode ".config").getLast? = some 0x67 := by decide +kernel
  rw [Path.join_eq_below hne, configFile_eq Path.below_ne_nil, Path.below_below hlast (by decide)]
  rfl

/-- Settings are looked for at this one place. -/
theorem settingsPath?_eq_some_iff :
    e.settingsPath? account = some path ↔ e.HasSettingsAt account path := by
  simp only [settingsPath?, Option.map_eq_some_iff, Option.orElse_eq_orElse, Option.orElse_eq_or,
    Option.or_eq_some_iff, Option.filter_eq_some_iff, Option.filter_eq_none_iff, home?_eq_some_iff,
    Path.isAbsolute, decide_eq_true_eq]
  constructor
  · rintro ⟨d, ⟨h, habsolute⟩ | ⟨hconfig, home, ⟨hne, h | ⟨hhome, h⟩⟩, rfl⟩, rfl⟩
    · rw [configFile_eq (by rintro rfl; cases habsolute)]
      exact .configHome d h habsolute
    · rw [homeFile_eq hne]
      exact .home home hconfig h hne
    · rw [homeFile_eq hne]
      exact .account home hconfig hhome h hne
  · intro h
    cases h with
    | configHome d h habsolute =>
      exact ⟨d, .inl ⟨h, habsolute⟩, configFile_eq (by rintro rfl; cases habsolute)⟩
    | home d hconfig h hne =>
      exact ⟨_, .inr ⟨hconfig, d, ⟨hne, .inl h⟩, rfl⟩, homeFile_eq hne⟩
    | account d hconfig hhome h hne =>
      exact ⟨_, .inr ⟨hconfig, d, ⟨hne, .inr ⟨hhome, h⟩⟩, rfl⟩, homeFile_eq hne⟩

end Environment

end TreeComparison
