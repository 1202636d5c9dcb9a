/-
How an audit on the command line ends.

An audit fails if it reports an error, and what it reports depends on the options. Its exit code does so only through the
disabled checks:
- `execute_treeFiles`: a command that writes nothing answers with its response to the sources that it loads, and leaves
  the files as they are; an audit is such a command (`respond_audit`);
- `config_of_parse`: the configuration of an audit is that of the options behind the command;
- `audit_code`: an audit fails if and only if missing keyframes are not disabled and some name is missing. No limit cuts
  off the last error, and no least severity hides it.
-/
import StyleCheck.CommandLine.Run
import StyleCheck.Proofs.Audit.Findings
import StyleCheck.Proofs.Identifier.Tallies

namespace StyleCheck.CommandLine

/-! ## Runs over a file tree -/

/-- loading reads every source, and leaves the tree as it is -/
theorem loadAll_treeFiles (paths : List Text) (tree : FileTree) :
    (loadAll treeFiles paths).run tree = (tree.load paths, tree) := by
  induction paths with
  | nil => rfl
  | cons path paths ih =>
    have hread : (do return Loaded.ofReading path (← treeFiles.read path) : StateM FileTree Loaded).run tree =
        pure (.ofReading path (tree.read path), tree) := rfl
    unfold loadAll at ih ⊢
    rw [List.mapM_cons, StateT.run_bind, hread, pure_bind, StateT.run_bind, ih]
    rfl

/-- **A command that writes nothing answers with its response** to the sources that it loads. -/
theorem execute_treeFiles (i : Invocation) (tree : FileTree)
    (h : (respond i (tree.load i.command.files) (tree.load i.command.references)).writes = []) :
    (execute treeFiles i).run tree =
      ((respond i (tree.load i.command.files) (tree.load i.command.references)).outcome, tree) := by
  unfold execute
  rw [StateT.run_bind, loadAll_treeFiles]
  change StateT.run (loadAll treeFiles i.command.references >>= _) tree = _
  rw [StateT.run_bind, loadAll_treeFiles]
  change StateT.run (writeAll treeFiles (respond i (tree.load i.command.files) (tree.load i.command.references)).writes
    >>= _) tree = _
  rw [h]
  rfl

/-! ## Options of an audit -/

/-- what `do` computes from two parts comes from both -/
theorem bind_eq_ok {ε α β : Type} {x : Except ε α} {f : α → Except ε β} {b : β} (h : x >>= f = .ok b) :
    ∃ a, x = .ok a ∧ f a = .ok b := by
  cases x with
  | error e => cases h
  | ok a => exact ⟨a, rfl, h⟩

theorem config_of_command {s : St} {v : Verb} {paths : List Text} {config : Audit.Config}
    (h : s.command v = .ok (.audit paths config)) : config = auditConfig s.inner := by
  cases v with
  | audit =>
    obtain ⟨files, -, h⟩ := bind_eq_ok h
    cases h
    rfl
  | vars | integrity =>
    obtain ⟨references, -, h⟩ := bind_eq_ok h
    obtain ⟨files, -, h⟩ := bind_eq_ok h
    cases h
  | split =>
    unfold St.command at h
    simp only at h
    split at h <;> cases h
  | _ =>
    obtain ⟨files, -, h⟩ := bind_eq_ok h
    cases h

/-- **The configuration of an audit is that of the options** read behind the command. -/
theorem config_of_parse {arguments paths : List Text} {config : Audit.Config} {json : Bool} {attr : Text}
    (h : parse arguments = .ok ⟨.audit paths config, json, attr⟩) :
    ∃ s, arguments.foldlM step start = .ok s ∧ config = auditConfig s.inner := by
  obtain ⟨s, hs, hfinish⟩ := bind_eq_ok h
  unfold St.finish at hfinish
  split at hfinish
  · cases hfinish
  · cases hfinish
  · cases hfinish
  · obtain ⟨command, hcommand, hi⟩ := bind_eq_ok hfinish
    cases hi
    exact ⟨s, hs, config_of_command hcommand⟩

/-- an audit runs a check unless its id is disabled -/
theorem runs_auditConfig (given : Given) (k : Audit.Check) :
    (auditConfig given).runs k = true ↔ k.id.toList ∉ values given .disable := by
  have hmem : k.id ∈ (values given .disable).map String.ofList ↔ k.id.toList ∈ values given .disable := by
    rw [List.mem_map]
    constructor
    · rintro ⟨name, hname, hid⟩
      rwa [← hid, String.toList_ofList]
    · exact fun h => ⟨_, h, String.ofList_toList⟩
  have hruns : (auditConfig given).runs k = !((values given .disable).map String.ofList).contains k.id :=
    Bool.and_true _
  rw [hruns, Bool.not_eq_true', ← Bool.not_eq_true, List.contains_iff_mem, hmem]

/-! ## Exit codes -/

/-- the analysis that an audit looks at: of all stylesheets, with the warnings of their merge -/
def combined (attr : Text) (loaded : List Loaded) : Analysis :=
  let sheets := (Inputs.number 0 loaded).sheets { themeAttribute := attr }
  (Analysis.analyze (analysisConfig attr false) sheets).withMerge (Cascade.merge (sheets.map (·.rules)))

section

variable (paths : List Text) (config : Audit.Config) (json : Bool) (attr : Text) (loaded references : List Loaded)

theorem respond_audit : respond ⟨.audit paths config, json, attr⟩ loaded references =
    ⟨[], audit json (Inputs.number 0 loaded).names (Audit.audit config (combined attr loaded))⟩ := rfl

/-- the code of an audit says whether the check of missing keyframes runs and a name is missing -/
theorem code_respond_audit : (respond ⟨.audit paths config, json, attr⟩ loaded references).outcome.code =
    if config.runs .missingKeyframe = true ∧ (combined attr loaded).bindings.missing ≠ [] then 1 else 0 := by
  have hissues : Audit.Check.missingKeyframe.issues (combined attr loaded) = [] ↔
      (combined attr loaded).bindings.missing = [] :=
    Audit.issues_missingKeyframe_eq_nil (Analysis.agrees_identifiers _ _) rfl
  have herror : (Audit.audit config (combined attr loaded)).any (·.severity = .error) = true ↔
      config.runs .missingKeyframe = true ∧ (combined attr loaded).bindings.missing ≠ [] := by
    rw [List.any_eq_true, ne_eq, ← hissues, ← ne_eq, ← Audit.any_error_audit]
    simp only [decide_eq_true_iff]
  rw [respond_audit]
  unfold audit
  simp only [herror]

end

/-- **The exit code of an audit depends on its options only through the disabled checks.** Whatever is loaded and
whichever options are given, it is one if and only if missing keyframes are not disabled and the sheets together miss a
name. So no limit and no least severity changes it, and every audit over files ends that way, with the options read
behind the command. -/
theorem audit_code (json : Bool) (attr : Text) (paths : List Text) (loaded references : List Loaded) :
    let code (given : Given) := (respond ⟨.audit paths (auditConfig given), json, attr⟩ loaded references).outcome.code
    (∀ given, code given =
      if "missing-keyframe".toList ∉ values given .disable ∧ (combined attr loaded).bindings.missing ≠ [] then 1 else 0) ∧
    (∀ given given', values given' .disable = values given .disable → code given' = code given) ∧
    ∀ arguments config tree, parse arguments = .ok ⟨.audit paths config, json, attr⟩ → tree.load paths = loaded →
      ∃ s, arguments.foldlM step start = .ok s ∧ config = auditConfig s.inner ∧
        ((run treeFiles arguments).run tree).1.code = code s.inner := by
  intro code
  have hcode (given : Given) : code given =
      if "missing-keyframe".toList ∉ values given .disable ∧ (combined attr loaded).bindings.missing ≠ []
        then 1 else 0 := by
    have hruns := runs_auditConfig given .missingKeyframe
    calc code given
        = if (auditConfig given).runs .missingKeyframe = true ∧ (combined attr loaded).bindings.missing ≠ []
            then 1 else 0 := code_respond_audit paths _ json attr loaded references
      _ = _ := if_congr (and_congr_left' hruns) rfl rfl
  refine ⟨hcode, ?_, ?_⟩
  · intro given given' hdisabled
    rw [hcode, hcode, hdisabled]
  · intro arguments config tree hparse hload
    obtain ⟨s, hs, rfl⟩ := config_of_parse hparse
    refine ⟨s, hs, rfl, ?_⟩
    have hrun : run treeFiles arguments = execute treeFiles ⟨.audit paths (auditConfig s.inner), json, attr⟩ := by
      unfold run
      rw [hparse]
    rw [hrun, execute_treeFiles _ tree rfl]
    change (respond ⟨.audit paths (auditConfig s.inner), json, attr⟩ (tree.load paths) []).outcome.code = _
    rw [hload]
    rfl

/-- a working directory with one stylesheet, which uses two names and defines neither -/
def undefinedNames : FileTree :=
  FileTree.fresh.put ["tmp".toList, "work".toList, "a.css".toList]
    (.file (Decoding.encode "a\x7banimation:spin 1s,fade 2s\x7d".toList))

theorem audit_code_limited :
    let paths := ["a.css".toList]
    let arguments := ["audit".toList, "a.css".toList, "--max-issues=1".toList, "--min-severity".toList, "error".toList]
    let config : Audit.Config := { minSeverity := .error, maxIssues := 1 }
    let attr := Selector.defaultThemeAttribute
    parse arguments = .ok ⟨.audit paths config, false, attr⟩ ∧
    ((run treeFiles arguments).run undefinedNames).1.code = 1 ∧
    (respond ⟨.audit paths (auditConfig [(.disable, "missing-keyframe".toList)]), false, attr⟩
      (undefinedNames.load paths) []).outcome.code = 0 := by
  intro paths arguments config attr
  have hparse : parse arguments = .ok ⟨.audit paths config, false, attr⟩ := by decide +kernel
  have hspin : "spin".toList ∈ (combined attr (undefinedNames.load paths)).bindings.missing :=
    (Bindings.mem_missing _).2 (by decide +kernel)
  obtain ⟨hcode, -, hruns⟩ := audit_code false attr paths (undefinedNames.load paths) []
  refine ⟨hparse, ?_, ?_⟩
  · obtain ⟨s, -, hconfig, hrun⟩ := hruns arguments config undefinedNames hparse rfl
    have hdisabled : [] = (values s.inner .disable).map String.ofList := congrArg Audit.Config.disabled hconfig
    rw [hrun, hcode, List.map_eq_nil_iff.1 hdisabled.symm]
    exact if_pos ⟨List.not_mem_nil, List.ne_nil_of_mem hspin⟩
  · exact (hcode _).trans (if_neg fun h => h.1 (by decide +kernel))

end StyleCheck.CommandLine
