/-
What the theme attribute has no influence on.

The theme attribute decides of a rule only whether it is a plain rule or one of a theme, and extraction treats the two
alike. `unthemed` takes both for plain; of rules, counts and stylesheets that leaves what does not depend on the
attribute. So two parses agree in it, whatever their attributes are, and with them all that is read off their rules
but the variables.
- `gather_unthemed`, `foldl_gather_unthemed`: one block, and all blocks, are gathered alike;
- `parseAt_unthemed`: a text is parsed alike;
- `identifiers_attribute`: a rule holds the same identifiers, by the size of its body, through all levels of nesting;
- `analyze_attribute`: analyses agree but for their variables;
- `themeAttribute_irrelevant`: rules, identifiers and the reports of four commands.
-/
import StyleCheck.Proofs.Audit.EmptiedRules
import StyleCheck.Proofs.CommandLine.Auditing

namespace StyleCheck

open CommandLine Text

/-! ## Rules that differ in their themes -/

/-- a kind, with the rules of themes taken for plain ones -/
def RuleKind.unthemed : RuleKind → RuleKind
  | theme => plain
  | k => k

theorem RuleKind.unthemed_eq_iff {k : RuleKind} (hk : k = .media ∨ k = .keyframes) (k' : RuleKind) :
    k'.unthemed = k ↔ k' = k := by
  rcases hk with rfl | rfl <;> cases k' <;> simp [unthemed]

/-- a rule, taken for a plain one if it is of a theme -/
def Rule.unthemed (r : Rule) : Rule := { r with kind := r.kind.unthemed }

/-- `r'` is `r`, but one of them may be a plain rule and the other one of a theme -/
structure Rule.Rethemed (r r' : Rule) : Prop where
  same : { r' with kind := r.kind } = r
  kind : r.kind = r'.kind ∨ r.kind ∈ [RuleKind.plain, .theme] ∧ r'.kind ∈ [RuleKind.plain, .theme]

theorem Selector.kind_unthemed (a b selector : Text) :
    (kind a selector).unthemed = (kind b selector).unthemed := by
  have hplain (attr : Text) : (if isThemed attr selector then RuleKind.theme else .plain).unthemed = .plain := by
    split <;> rfl
  unfold kind
  cases atKeyword? selector with
  | some keyword => rfl
  | none => exact (hplain a).trans (hplain b).symm

theorem Rule.rethemed_of_unthemed {r r' : Rule} (h : r.unthemed = r'.unthemed) : r.Rethemed r' := by
  have hkind : r.kind.unthemed = r'.kind.unthemed := congrArg Rule.kind h
  refine ⟨?_, ?_⟩
  · calc { r' with kind := r.kind }
        = { r'.unthemed with kind := r.kind } := rfl
      _ = { r.unthemed with kind := r.kind } := by rw [h]
      _ = r := rfl
  · cases hr : r.kind <;> cases hr' : r'.kind <;> rw [hr, hr'] at hkind <;> simp [RuleKind.unthemed] at hkind ⊢

/-! ## Parsing -/

namespace Stats

/-- counts in which the rules of themes are plain -/
def unthemed (s : Stats) : Stats := { s with plain := s.plain + s.theme, theme := 0 }

theorem total_unthemed (s : Stats) : s.unthemed.total = s.total := by
  simp only [unthemed, total]
  omega

theorem count_unthemed (s : Stats) (k : RuleKind) : (s.count k).unthemed = s.unthemed.count k.unthemed := by
  cases k <;> simp only [count, unthemed, RuleKind.unthemed, Nat.add_right_comm, Nat.add_assoc]

end Stats

namespace Stylesheet

/-- a stylesheet with its rules and counts unthemed -/
def unthemed (s : Stylesheet) : Stylesheet :=
  { s with rules := s.rules.map Rule.unthemed, stats := s.stats.unthemed }

def Gathered.unthemed (g : Gathered) : Gathered := ⟨g.rules.map Rule.unthemed, g.stats.unthemed⟩

variable (limit : Nat) (a b : Text) (source : SourceId)

theorem toRule?_unthemed (n : Nat) (block : Block) :
    (block.toRule? ⟨limit, a⟩ source n).map Rule.unthemed = (block.toRule? ⟨limit, b⟩ source n).map Rule.unthemed := by
  unfold Block.toRule?
  simp only
  split
  · rfl
  · simp only [Option.map_some, Rule.unthemed, Selector.kind_unthemed a b]

/-- what one block does to the rules and counts, told from the unthemed ones -/
theorem unthemed_gather (config : ParseConfig) (g : Gathered) (block : Block) :
    (gather config source g block).unthemed =
      match (block.toRule? config source g.stats.total).map Rule.unthemed with
      | some r => ⟨r :: g.unthemed.rules, g.unthemed.stats.count r.kind⟩
      | none => { g.unthemed with stats := { g.unthemed.stats with dropped := g.unthemed.stats.dropped + 1 } } := by
  unfold gather
  cases block.toRule? config source g.stats.total with
  | none => rfl
  | some r =>
    simp only [Option.map_some, Gathered.unthemed, List.map_cons, Stats.count_unthemed]
    rfl

/-- **One block is gathered alike**: its rule takes the same number and is counted as the same. -/
theorem gather_unthemed {g g' : Gathered} (h : g.unthemed = g'.unthemed) (block : Block) :
    (gather ⟨limit, a⟩ source g block).unthemed = (gather ⟨limit, b⟩ source g' block).unthemed := by
  have htotal : g.stats.total = g'.stats.total :=
    calc g.stats.total
        = g.unthemed.stats.total := (Stats.total_unthemed g.stats).symm
      _ = g'.unthemed.stats.total := by rw [h]
      _ = g'.stats.total := Stats.total_unthemed g'.stats
  rw [unthemed_gather, unthemed_gather, h, htotal, toRule?_unthemed limit a b]

/-- **All blocks are gathered alike.** -/
theorem foldl_gather_unthemed (blocks : List Block) (g : Gathered) :
    (blocks.foldl (gather ⟨limit, a⟩ source) g).unthemed = (blocks.foldl (gather ⟨limit, b⟩ source) g).unthemed := by
  induction blocks using List.reverseRecOn with
  | nil => rfl
  | append_singleton blocks block ih =>
    rw [List.foldl_append, List.foldl_append]
    exact gather_unthemed limit a b source ih block

/-- **A text is parsed alike** with all theme attributes. -/
theorem parseAt_unthemed (line : Nat) (text : Text) :
    (parseAt ⟨limit, a⟩ source line text).unthemed = (parseAt ⟨limit, b⟩ source line text).unthemed := by
  unfold parseAt
  simp only
  split
  · rfl
  · have hgathered := foldl_gather_unthemed limit a b source
      (Block.scan line (Comment.run (Comment.start line) text).text).blocks
      ⟨[], { statements := (Block.scan line (Comment.run (Comment.start line) text).text).statements }⟩
    obtain ⟨hrules, hstats⟩ := Gathered.mk.inj hgathered
    simp only [unthemed, List.map_reverse, hrules, hstats]

theorem rules_unthemed (line : Nat) (text : Text) :
    (parseAt ⟨limit, a⟩ source line text).rules.map Rule.unthemed =
      (parseAt ⟨limit, b⟩ source line text).rules.map Rule.unthemed :=
  congrArg rules (parseAt_unthemed limit a b source line text)

end Stylesheet

/-! ## Identifiers -/

namespace Rule

variable (limit : Nat) (a b : Text) (extra : List Text)

/-- extraction does not ask whether a rule is of a theme -/
theorem identifiers_unthemed (config : ParseConfig) (r : Rule) :
    r.unthemed.identifiers config extra = r.identifiers config extra := by
  have hkeyframes : r.unthemed.kind = .keyframes ↔ r.kind = .keyframes := RuleKind.unthemed_eq_iff (Or.inr rfl) r.kind
  have hmedia : r.unthemed.kind = .media ↔ r.kind = .media := RuleKind.unthemed_eq_iff (Or.inl rfl) r.kind
  have hgroup : r.unthemed.isGroup = r.isGroup := by
    unfold isGroup
    rw [decide_eq_decide.2 hmedia]
    rfl
  have hname : r.unthemed.keyframesName? = r.keyframesName? := if_congr hkeyframes rfl rfl
  have hkeyframe : r.unthemed.keyframe = r.keyframe := by
    unfold keyframe
    rw [hname]
    rfl
  rw [identifiers_eq, identifiers_eq config extra r, hkeyframe, hgroup, if_congr hkeyframes rfl rfl]
  rfl

theorem flatMap_unthemed (config : ParseConfig) (rules : List Rule) :
    (rules.map unthemed).flatMap (identifiers config extra) = rules.flatMap (identifiers config extra) := by
  rw [List.flatMap_map]
  exact List.flatMap_congr fun r _ => identifiers_unthemed extra config r

/-- **A rule holds the same identifiers whatever names themes** in the blocks parsed again: the rules in its body agree
but for their themes, and they have smaller bodies. -/
theorem identifiers_attribute (r : Rule) : r.identifiers ⟨limit, a⟩ extra = r.identifiers ⟨limit, b⟩ extra := by
  induction hsize : byteSize r.body using Nat.strong_induction_on generalizing r with
  | _ n ih =>
    subst hsize
    rw [identifiers_eq, identifiers_eq ⟨limit, b⟩]
    split
    · rfl
    split
    · have hbody : (Stylesheet.parseBody ⟨limit, a⟩ r).rules.map unthemed =
          (Stylesheet.parseBody ⟨limit, b⟩ r).rules.map unthemed :=
        Stylesheet.rules_unthemed limit a b r.source r.bodyLine r.body
      calc (Stylesheet.parseBody ⟨limit, a⟩ r).rules.flatMap (identifiers ⟨limit, a⟩ extra)
          = (Stylesheet.parseBody ⟨limit, a⟩ r).rules.flatMap (identifiers ⟨limit, b⟩ extra) :=
            List.flatMap_congr fun r' hr' => ih _ (Stylesheet.nested_body_lt hr') r' rfl
        _ = ((Stylesheet.parseBody ⟨limit, a⟩ r).rules.map unthemed).flatMap (identifiers ⟨limit, b⟩ extra) :=
            (flatMap_unthemed extra _ _).symm
        _ = ((Stylesheet.parseBody ⟨limit, b⟩ r).rules.map unthemed).flatMap (identifiers ⟨limit, b⟩ extra) := by
            rw [hbody]
        _ = (Stylesheet.parseBody ⟨limit, b⟩ r).rules.flatMap (identifiers ⟨limit, b⟩ extra) :=
            flatMap_unthemed extra _ _
    · rfl

end Rule

namespace Stylesheet

variable (limit : Nat) (a b : Text) (extra : List Text)

theorem identifiers_unthemed (config : ParseConfig) (s : Stylesheet) :
    s.unthemed.identifiers config extra = s.identifiers config extra :=
  congrArg (IdentifierSet.ofOccurrences .stylesheet) (Rule.flatMap_unthemed extra config s.rules)

theorem identifiers_attribute (s : Stylesheet) : s.identifiers ⟨limit, a⟩ extra = s.identifiers ⟨limit, b⟩ extra :=
  congrArg (IdentifierSet.ofOccurrences .stylesheet)
    (List.flatMap_congr fun r _ => Rule.identifiers_attribute limit a b extra r)

end Stylesheet

/-! ## Analyses -/

theorem DuplicateSelector.ofSheet_unthemed (s : Stylesheet) : ofSheet s.unthemed = ofSheet s := by
  have hdefinitions : definitions s.unthemed = definitions s := List.foldl_map
  unfold ofSheet
  rw [hdefinitions]
  rfl

/-- what is read off unthemed stylesheets is the same for stylesheets that differ in their themes -/
theorem map_of_unthemed {α : Type} {f : Stylesheet → α} (hf : ∀ s : Stylesheet, f s.unthemed = f s)
    {sheets sheets' : List Stylesheet} (h : sheets.map Stylesheet.unthemed = sheets'.map Stylesheet.unthemed) :
    sheets.map f = sheets'.map f := by
  have hmap (sheets : List Stylesheet) : sheets.map f = (sheets.map Stylesheet.unthemed).map f := by
    rw [List.map_map]
    exact List.map_congr_left fun s _ => (hf s).symm
  rw [hmap, hmap sheets', h]

/-- an analysis with other variables -/
def Analysis.withVariables (a : Analysis) (map : VariableMap) : Analysis := { a with variableMap := map }

/-- **Analyses of stylesheets that differ in their themes agree** but for their variables. -/
theorem Analysis.analyze_attribute (a b : Text) (hex : Bool) {sheets sheets' : List Stylesheet}
    (h : sheets.map Stylesheet.unthemed = sheets'.map Stylesheet.unthemed) :
    analyze (analysisConfig a hex) sheets =
      (analyze (analysisConfig b hex) sheets').withVariables (analyze (analysisConfig a hex) sheets).variableMap := by
  have hsets : sheets.map (·.identifiers (analysisConfig a hex).parse (analysisConfig a hex).reserved) =
      sheets'.map (·.identifiers (analysisConfig b hex).parse (analysisConfig b hex).reserved) :=
    calc sheets.map (·.identifiers (analysisConfig a hex).parse [])
        = sheets.map (·.identifiers (analysisConfig b hex).parse []) :=
          List.map_congr_left fun s _ => Stylesheet.identifiers_attribute _ a b [] s
      _ = sheets'.map (·.identifiers (analysisConfig b hex).parse []) :=
          map_of_unthemed (Stylesheet.identifiers_unthemed [] _) h
  have hfaults : sheets.filterMap (fun s => s.fault.map fun f => (s.source, f)) =
      sheets'.filterMap (fun s => s.fault.map fun f => (s.source, f)) := by
    have hmap := map_of_unthemed (f := fun s => s.fault.map fun f => (s.source, f)) (fun _ => rfl) h
    simpa only [List.filterMap_map, Function.id_comp] using congrArg (List.filterMap id) hmap
  have hduplicates : sheets.flatMap DuplicateSelector.ofSheet = sheets'.flatMap DuplicateSelector.ofSheet := by
    rw [List.flatMap_def, List.flatMap_def, map_of_unthemed DuplicateSelector.ofSheet_unthemed h]
  unfold analyze withVariables
  simp only [hsets, hfaults, hduplicates]

/-- no check looks at variables -/
theorem Audit.audit_withVariables (settings : Config) (a : Analysis) (map : VariableMap) :
    audit settings (a.withVariables map) = audit settings a := by
  have hissues (k : Check) : k.issues (a.withVariables map) = k.issues a := by cases k <;> rfl
  rw [audit_eq, audit_eq]
  unfold findings
  simp only [hissues]

/-! ## Reports -/

namespace CommandLine

variable (a b : Text)

theorem sheets_unthemed (i : Inputs) : (i.sheets { themeAttribute := a }).map Stylesheet.unthemed =
    (i.sheets { themeAttribute := b }).map Stylesheet.unthemed := by
  unfold Inputs.sheets
  rw [List.map_map, List.map_map]
  exact List.map_congr_left fun s _ => Stylesheet.parseAt_unthemed _ a b s.1 1 s.2.text

theorem isParsed_sheets (config : ParseConfig) (i : Inputs) : ∀ s ∈ i.sheets config, s.IsParsed := by
  intro s hs
  obtain ⟨source, -, rfl⟩ := List.mem_map.1 hs
  exact Stylesheet.isParsed_parse config source.1 source.2.text

/-- the analysis of sources that are numbered from `first` on -/
def analysisFrom (attr : Text) (first : Nat) (sources : List Loaded) : Analysis :=
  .analyze (analysisConfig attr false) ((Inputs.number first sources).sheets { themeAttribute := attr })

theorem analysisFrom_attribute (first : Nat) (sources : List Loaded) :
    analysisFrom a first sources =
      (analysisFrom b first sources).withVariables (analysisFrom a first sources).variableMap :=
  Analysis.analyze_attribute a b false (sheets_unthemed a b (Inputs.number first sources))

theorem bindings_attribute (first : Nat) (sources : List Loaded) :
    (analysisFrom a first sources).bindings = (analysisFrom b first sources).bindings := by
  rw [analysisFrom_attribute a b]
  rfl

theorem identifiers_attribute (first : Nat) (sources : List Loaded) :
    (analysisFrom a first sources).identifiers = (analysisFrom b first sources).identifiers := by
  rw [analysisFrom_attribute a b]
  rfl

/-- an audit looks at no more than the analysis, for stylesheets that are parsed give no warnings when merged -/
theorem audit_attribute (settings : Audit.Config) (sources : List Loaded) :
    Audit.audit settings (combined a sources) = Audit.audit settings (combined b sources) := by
  have hwarnings (attr : Text) : combined attr sources = analysisFrom attr 0 sources := by
    have hnone := Cascade.warnings_of_parsed
      (isParsed_sheets { themeAttribute := attr } (Inputs.number 0 sources))
    unfold combined Analysis.withMerge
    simp only [hnone]
    rfl
  rw [hwarnings, hwarnings, analysisFrom_attribute a b, Audit.audit_withVariables]

/-- runs of one command are the same if it responds alike -/
theorem execute_congr {m : Type → Type} [Monad m] (fs : Files m) {i i' : Invocation} (hcommand : i.command = i'.command)
    (hrespond : ∀ files references, respond i files references = respond i' files references) :
    execute fs i = execute fs i' := by
  unfold execute
  simp only [hcommand, hrespond]

section

variable {m : Type → Type} [Monad m] (fs : Files m) (json : Bool) (paths references : List Text)

theorem execute_animations :
    execute fs ⟨.animations paths, json, a⟩ = execute fs ⟨.animations paths, json, b⟩ := by
  refine execute_congr fs rfl ?_
  intro files _
  let reply (bindings : Bindings) : Response :=
    ⟨[], print json (Report.bindings bindings) (Report.Plain.bindings (Inputs.number 0 files).names bindings)⟩
  exact congrArg reply (bindings_attribute a b 0 files)

theorem execute_integrity :
    execute fs ⟨.integrity references paths, json, a⟩ = execute fs ⟨.integrity references paths, json, b⟩ := by
  refine execute_congr fs rfl ?_
  intro files others
  let reply (reference current : IdentifierSet) : Response :=
    let r := PreservationReport.compare reference current .all
    ⟨[], print json (Report.preservation r) (Report.Plain.preservation r)⟩
  exact congrArg₂ reply (identifiers_attribute a b files.length others) (identifiers_attribute a b 0 files)

theorem execute_coverage : execute fs ⟨.coverage paths, json, a⟩ = execute fs ⟨.coverage paths, json, b⟩ := by
  refine execute_congr fs rfl ?_
  intro files _
  let reply (current : IdentifierSet) : Response :=
    let r := PreservationReport.coverage (Inputs.number 0 files).scripts current
    ⟨[], print json (Report.preservation r) (Report.Plain.preservation r)⟩
  exact congrArg reply (identifiers_attribute a b 0 files)

theorem execute_audit (settings : Audit.Config) :
    execute fs ⟨.audit paths settings, json, a⟩ = execute fs ⟨.audit paths settings, json, b⟩ := by
  refine execute_congr fs rfl ?_
  intro files others
  rw [respond_audit, respond_audit, audit_attribute a b]

end

end CommandLine

/-- **The theme attribute does not influence identifiers.** A text that is parsed within one size limit has the same
rules whichever attribute names themes, but that a rule may be plain under one attribute and of a theme under another.
The same identifiers are extracted from it, whichever attribute it was parsed with and whichever the blocks inside are
parsed with. So four commands print the same and end the same, over all files. -/
theorem themeAttribute_irrelevant (limit : Nat) (a b : Text) :
    (∀ (source : SourceId) (line : Nat) (text : Text),
      let s := Stylesheet.parseAt ⟨limit, a⟩ source line text
      let s' := Stylesheet.parseAt ⟨limit, b⟩ source line text
      List.Forall₂ Rule.Rethemed s.rules s'.rules ∧ s.issues = s'.issues ∧ s.fault = s'.fault ∧
      ∀ (inner : Nat) (c d : Text) (extra : List Text),
        s.identifiers ⟨inner, c⟩ extra = s'.identifiers ⟨inner, d⟩ extra) ∧
    ∀ (m : Type → Type) [Monad m] (fs : Files m) (json : Bool) (paths : List Text),
      execute fs ⟨.animations paths, json, a⟩ = execute fs ⟨.animations paths, json, b⟩ ∧
      (∀ references, execute fs ⟨.integrity references paths, json, a⟩ =
        execute fs ⟨.integrity references paths, json, b⟩) ∧
      execute fs ⟨.coverage paths, json, a⟩ = execute fs ⟨.coverage paths, json, b⟩ ∧
      ∀ settings, execute fs ⟨.audit paths settings, json, a⟩ = execute fs ⟨.audit paths settings, json, b⟩ := by
  refine ⟨?_, ?_⟩
  · intro source line text s s'
    have hsame : s.unthemed = s'.unthemed := Stylesheet.parseAt_unthemed limit a b source line text
    have hrules : List.Forall₂ (fun r r' : Rule => r.unthemed = r'.unthemed) s.rules s'.rules := by
      rw [← List.forall₂_map_right_iff, ← List.forall₂_map_left_iff, List.forall₂_eq_eq_eq]
      exact congrArg Stylesheet.rules hsame
    have hissues : s.unthemed.issues = s'.unthemed.issues := by rw [hsame]
    have hfault : s.unthemed.fault = s'.unthemed.fault := by rw [hsame]
    refine ⟨hrules.imp fun _ _ => Rule.rethemed_of_unthemed, hissues, hfault, ?_⟩
    intro inner c d extra
    calc s.identifiers ⟨inner, c⟩ extra
        = s.identifiers ⟨inner, d⟩ extra := Stylesheet.identifiers_attribute inner c d extra s
      _ = s.unthemed.identifiers ⟨inner, d⟩ extra := (Stylesheet.identifiers_unthemed extra _ s).symm
      _ = s'.unthemed.identifiers ⟨inner, d⟩ extra := by rw [hsame]
      _ = s'.identifiers ⟨inner, d⟩ extra := Stylesheet.identifiers_unthemed extra _ s'
  · intro m _ fs json paths
    exact ⟨execute_animations a b fs json paths, fun references => execute_integrity a b fs json paths references,
      execute_coverage a b fs json paths, execute_audit a b fs json paths⟩

end StyleCheck
