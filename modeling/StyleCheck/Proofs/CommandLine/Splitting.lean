/-
Where a split writes.

A split writes the base and every theme to a file of its own, and the stylesheet names the themes. No file is named
like another, but a theme may have slashes in its name, and then its file is no file of the output directory: it lies
deeper, or outside if the name takes steps up. Two names that differ in empty components even give one file.
- `names_join`, `isChild_join_iff`: the components of a path in a directory, and when it is an entry of the directory;
- `isEntryName_themeFile_iff`: the file of a theme is one component unless the name of the theme holds a slash;
- `split_contained_iff`: where the files of a split are, and when they are different files;
- `split_escapes`: a stylesheet whose split replaces a file outside the output directory.
-/
import Mathlib.Data.List.Nodup
import StyleCheck.CommandLine.Run
import StyleCheck.Proofs.Text.Blank
import StyleCheck.Proofs.Theme.Partition

namespace StyleCheck

open Text

/-! ## Paths -/

namespace Path

variable {dir file : Text}

theorem names_of_not_mem (hslash : '/' ∉ file) (hempty : file ≠ []) (hdot : file ≠ ['.']) : names file = [file] := by
  unfold names
  rw [List.splitOn_eq_singleton hslash, List.filter_cons_of_pos (by simp [hempty, hdot]), List.filter_nil]

theorem not_mem_of_mem_names {path c : Text} (h : c ∈ names path) : '/' ∉ c := by
  intro hslash
  have hc := not_of_mem_splitOnP (List.mem_filter.1 h).1 '/' hslash
  simp at hc

theorem names_slash (dir file : Text) : names (dir ++ '/' :: file) = names dir ++ names file := by
  unfold names
  rw [List.splitOn_append_cons_self, List.filter_append]

/-- **A file in a directory has the components of the directory, and then its own.** -/
theorem names_join (dir file : Text) : names (join dir file) = names dir ++ names file := by
  unfold join
  split
  · rename_i h
    rcases List.eq_nil_or_concat' dir with rfl | ⟨front, c, rfl⟩
    · rfl
    · have hc : c = '/' := by simpa using h
      have hfront : names (front ++ ['/']) = names front := by
        rw [names_slash]
        exact List.append_nil _
      rw [hc, hfront, List.append_assoc, List.singleton_append, names_slash]
  · exact names_slash dir file

theorem join_injective (dir : Text) : Function.Injective (join dir) := by
  intro a b h
  unfold join at h
  split at h
  · exact List.append_cancel_left h
  · exact (List.cons.inj (List.append_cancel_left h)).2

/-- whether a text names an entry of a directory: a single component, and no step up -/
def IsEntryName (file : Text) : Prop := names file = [file] ∧ file ≠ ['.', '.']

/-- whether a path is that of an entry of the directory `dir` itself -/
def IsChild (dir path : Text) : Prop := ∃ file, IsEntryName file ∧ path = join dir file

theorem isChild_join_iff : IsChild dir (join dir file) ↔ IsEntryName file := by
  constructor
  · intro h
    obtain ⟨other, hother, hjoin⟩ := h
    rwa [join_injective dir hjoin]
  · intro h
    exact ⟨file, h, rfl⟩

end Path

namespace CommandLine

open StyleCheck.Path

/-! ## Files of themes -/

section

variable {n : Text}

/-- a slash in the file of a theme is one in its name -/
theorem slash_mem_themeFile : '/' ∈ themeFile n ↔ '/' ∈ n := by
  change '/' ∈ "theme-".toList ++ n ++ ".css".toList ↔ _
  simp

/-- **The file of a theme is one component** unless the name of the theme holds a slash. -/
theorem isEntryName_themeFile_iff : IsEntryName (themeFile n) ↔ '/' ∉ n := by
  constructor
  · intro h hslash
    have hmem : themeFile n ∈ names (themeFile n) := h.1 ▸ List.mem_singleton_self _
    exact not_mem_of_mem_names hmem (slash_mem_themeFile.2 hslash)
  · intro hslash
    exact ⟨names_of_not_mem (mt slash_mem_themeFile.1 hslash) nofun nofun, nofun⟩

/-- the first component of the file of a theme begins like the file -/
theorem names_themeFile (n : Text) : ∃ a rest, names (themeFile n) = ("theme-".toList ++ a) :: rest := by
  by_cases hslash : '/' ∈ n
  · obtain ⟨a, b, rfl, ha⟩ := List.eq_append_cons_of_mem hslash
    have hparts : themeFile (a ++ '/' :: b) = ("theme-".toList ++ a) ++ '/' :: (b ++ ".css".toList) := by
      change "theme-".toList ++ (a ++ '/' :: b) ++ ".css".toList = _
      simp
    have hfront : '/' ∉ "theme-".toList ++ a := by simp [ha]
    rw [hparts, names_slash, names_of_not_mem hfront nofun nofun]
    exact ⟨a, _, rfl⟩
  · refine ⟨n ++ ".css".toList, [], ?_⟩
    rw [(isEntryName_themeFile_iff.2 hslash).1]
    exact congrArg (· :: []) (List.append_assoc _ _ _)

end

theorem themeFile_injective : Function.Injective themeFile := by
  intro a b h
  unfold themeFile at h
  exact List.append_cancel_left (List.append_cancel_right h)

/-- the base is the file of no theme, even if empty components and steps in place are left aside -/
theorem names_base_not_mem (themes : List Text) : names "base.css".toList ∉ (themes.map themeFile).map names := by
  intro h
  rw [List.map_map] at h
  obtain ⟨n, -, hn⟩ := List.mem_map.1 h
  obtain ⟨a, rest, htheme⟩ := names_themeFile n
  have hbase : names "base.css".toList = ["base.css".toList] := by decide
  have hfirst : ("theme-".toList ++ a) :: rest = ["base.css".toList] :=
    calc ("theme-".toList ++ a) :: rest
        = names (themeFile n) := htheme.symm
      _ = names "base.css".toList := hn
      _ = ["base.css".toList] := hbase
  exact absurd (List.cons.inj (List.cons.inj hfirst).1).1 (by decide)

/-- the files of a split, by the themes that it finds -/
def filesOf (themes : List Text) : List Text := "base.css".toList :: themes.map themeFile

/-- different themes have different files -/
theorem nodup_filesOf {themes : List Text} (h : themes.Nodup) : (filesOf themes).Nodup := by
  refine List.nodup_cons.2 ⟨?_, h.map themeFile_injective⟩
  intro hbase
  exact names_base_not_mem themes (List.mem_map_of_mem hbase)

/-- the directory makes no difference to which files are the same by their components, and neither does the base -/
theorem nodup_components_iff (dir : Text) (themes : List Text) :
    (((filesOf themes).map (join dir)).map names).Nodup ↔ (themes.map fun n => names (themeFile n)).Nodup := by
  have hjoined : ((filesOf themes).map (join dir)).map names = ((filesOf themes).map names).map (names dir ++ ·) := by
    rw [List.map_map, List.map_map]
    exact List.map_congr_left fun f _ => names_join dir f
  rw [hjoined, List.nodup_map_iff (List.append_right_injective _), filesOf, List.map_cons, List.nodup_cons,
    and_iff_right (names_base_not_mem themes), List.map_map]
  rfl

/-! ## Files of a split -/

/-- the themes of a text, in the order of their files -/
def themesOf (attr text : Text) : List Text :=
  (ThemeSplit.ofRules attr (Stylesheet.parse { themeAttribute := attr } ⟨0⟩ text).rules).names

/-- the paths that a command writes with one source loaded, in the order of writing -/
def pathsWritten (i : Invocation) (source : Loaded) : List Text := (respond i [source] []).writes.map (·.1)

/-- a split is that of the first stylesheet, if there is one -/
theorem respond_split (file outDir attr : Text) (json : Bool) (files references : List Loaded) :
    respond ⟨.split file outDir, json, attr⟩ files references =
      match (Inputs.number 0 files).sheets { themeAttribute := attr } with
      | sheet :: _ => split json attr outDir sheet
      | [] => ⟨[], failure s!"{String.ofList file} is not a stylesheet"⟩ := rfl

theorem paths_split (json : Bool) (attr outDir : Text) (sheet : Stylesheet) :
    (split json attr outDir sheet).writes.map (·.1) =
      (filesOf (ThemeSplit.ofRules attr sheet.rules).names).map (join outDir) := by
  unfold split splitFiles filesOf ThemeSplit.names
  rw [List.map_map, List.map_cons, List.map_map, List.map_cons, List.map_map, List.map_map]
  rfl

/-- a split writes the base and then the themes -/
theorem pathsWritten_split (file outDir attr : Text) (json : Bool) {source : Loaded} (hsource : source.kind ≠ .script) :
    pathsWritten ⟨.split file outDir, json, attr⟩ source =
      (filesOf (themesOf attr source.text)).map (join outDir) := by
  have hsheets : (Inputs.number 0 [source]).sheets { themeAttribute := attr } =
      [.parse { themeAttribute := attr } ⟨0⟩ source.text] := by
    have hkept : ([(⟨0⟩, source)] : List (SourceId × Loaded)).filter (fun s => s.2.kind ≠ .script) = [(⟨0⟩, source)] :=
      List.filter_cons_of_pos (by simpa using hsource)
    exact congrArg (List.map _) hkept
  unfold pathsWritten
  rw [respond_split, hsheets, paths_split]
  rfl

/-- **The files of a split are entries of the output directory if and only if no theme has a slash in its name.**
Whatever the text, the theme attribute and the directory are, no path is written twice; and paths that differ are
different files, with empty components and steps in place left aside, if and only if that is so for the names of the
themes, as it is if none of them holds a slash. -/
theorem split_contained_iff (file outDir attr : Text) (json : Bool) {source : Loaded}
    (hsource : source.kind ≠ .script) :
    let themes := themesOf attr source.text
    let paths := pathsWritten ⟨.split file outDir, json, attr⟩ source
    (∀ p ∈ paths, p = join outDir "base.css".toList ∨ ∃ n ∈ themes, p = join outDir (themeFile n)) ∧
    ((∀ p ∈ paths, IsChild outDir p) ↔ ∀ n ∈ themes, '/' ∉ n) ∧
    paths.Nodup ∧
    ((paths.map names).Nodup ↔ (themes.map fun n => names (themeFile n)).Nodup) ∧
    ((∀ n ∈ themes, '/' ∉ n) → (paths.map names).Nodup) := by
  intro themes paths
  have hpaths : paths = (filesOf themes).map (join outDir) := pathsWritten_split file outDir attr json hsource
  have hthemes : themes.Nodup := (ThemeSplit.ofRules_partition attr _).1
  have hcomponents : (paths.map names).Nodup ↔ (themes.map fun n => names (themeFile n)).Nodup := by
    rw [hpaths]
    exact nodup_components_iff outDir themes
  refine ⟨?_, ?_, ?_, hcomponents, ?_⟩
  · intro p hp
    rw [hpaths, filesOf, List.map_cons, List.map_map] at hp
    rcases List.mem_cons.1 hp with hp | hp
    · exact Or.inl hp
    · obtain ⟨n, hn, rfl⟩ := List.mem_map.1 hp
      exact Or.inr ⟨n, hn, rfl⟩
  · have hbase : IsEntryName "base.css".toList := ⟨by decide, by decide⟩
    rw [hpaths, List.forall_mem_map, filesOf, List.forall_mem_cons, List.forall_mem_map]
    simp only [isChild_join_iff, isEntryName_themeFile_iff, hbase, true_and]
  · rw [hpaths]
    exact (nodup_filesOf hthemes).map (join_injective outDir)
  · intro hslash
    have hsingle : (themes.map fun n => names (themeFile n)) = themes.map fun n => [themeFile n] :=
      List.map_congr_left fun n hn => (isEntryName_themeFile_iff.2 (hslash n hn)).1
    rw [hcomponents, hsingle]
    apply hthemes.map
    intro a b h
    exact themeFile_injective (List.singleton_inj.1 h)

/-- the stylesheet of a split, with a text -/
def splitSource (text : String) : Loaded := ⟨"t.css".toList, text.toList, .loaded, .stylesheet⟩

/-- its split into the directory `out` -/
def splitOut : Invocation := ⟨.split "t.css".toList "out".toList, false, Selector.defaultThemeAttribute⟩

theorem split_contained_dark :
    let source := splitSource "[data-theme=dark] \x7b a: b \x7d .c \x7b d: e \x7d"
    source.kind ≠ .script ∧ themesOf Selector.defaultThemeAttribute source.text = ["dark".toList] ∧
    (∀ p ∈ pathsWritten splitOut source, IsChild "out".toList p) ∧ ((pathsWritten splitOut source).map names).Nodup := by
  intro source
  have hsource : source.kind ≠ .script := by decide
  have hthemes : themesOf Selector.defaultThemeAttribute source.text = ["dark".toList] := by decide +kernel
  have hslash : ∀ n ∈ themesOf Selector.defaultThemeAttribute source.text, '/' ∉ n := by
    rw [hthemes]
    decide
  obtain ⟨-, hcontained, -, -, hdistinct⟩ :=
    split_contained_iff "t.css".toList "out".toList Selector.defaultThemeAttribute false hsource
  exact ⟨hsource, hthemes, hcontained.2 hslash, hdistinct hslash⟩

/-- a theme whose name takes steps up -/
def escapingText : String := "[data-theme='x/../../kept'] \x7b a: b; \x7d"

/-- a working directory with that stylesheet, another one beside it, and directories that its theme goes through -/
def escapedTree : FileTree :=
  (((FileTree.fresh.create ["tmp".toList, "work".toList, "out".toList, "theme-x".toList] .directory).put
    ["tmp".toList, "work".toList, "t.css".toList] (.file (Decoding.encode escapingText.toList))).put
    ["tmp".toList, "work".toList, "kept.css".toList] (.file (Decoding.encode ".c \x7b d: e \x7d".toList)))

/-- **A split replaces a file outside its directory**, and two themes are written to one file. -/
theorem split_escapes :
    let ran := (run treeFiles ["split".toList, "t.css".toList, "--out-dir".toList, "out".toList]).run escapedTree
    (¬∀ p ∈ pathsWritten splitOut (splitSource escapingText), IsChild "out".toList p) ∧
    ran.1.code = 0 ∧
    escapedTree.read "kept.css".toList = .bytes (Decoding.encode ".c \x7b d: e \x7d".toList) ∧
    ran.2.read "kept.css".toList =
      .bytes (Decoding.encode "[data-theme='x/../../kept'] \x7b\n    a: b;\n\x7d\n".toList) ∧
    ¬((pathsWritten splitOut (splitSource "[data-theme='a/b'] \x7b c: d \x7d [data-theme='a//b'] \x7b e: f \x7d")).map
      names).Nodup := by
  intro ran
  have hpaths : pathsWritten splitOut (splitSource escapingText) =
      [join "out".toList "base.css".toList, join "out".toList (themeFile "x/../../kept".toList)] := by decide +kernel
  have hwritten : join "out".toList (themeFile "x/../../kept".toList) ∈
      pathsWritten splitOut (splitSource escapingText) := by
    rw [hpaths]
    exact List.mem_cons_of_mem _ (List.mem_singleton_self _)
  refine ⟨?_, by decide +kernel, by decide +kernel, by decide +kernel, by decide +kernel⟩
  intro h
  have hchild := h _ hwritten
  exact isEntryName_themeFile_iff.1 (isChild_join_iff.1 hchild) (by decide)

end CommandLine

end StyleCheck
