/-
What an audit reports.

The checks of an audit run one behind the other, and the run ends early once there are enough findings. The findings are
all the same those of the whole run, cut at the limit: what is cut off is never looked at.
- `runChecks_eq`: from any findings below the limit, running checks adds what they find, up to the limit;
- `audit_eq`: an audit is the concatenation of what the enabled checks find, by severity and up to the limit;
- `any_error_audit`: it reports an error if and only if the check of missing keyframes runs and finds something, for that
  check is the first, no other one finds errors, and errors are never below the least severity;
- `issues_missingKeyframe_eq_nil`: that check finds something if there is a name without a definition.
-/
import StyleCheck.Audit.Run
import StyleCheck.Proofs.Animation.Crosscheck

namespace StyleCheck.Audit

variable (config : Config) (a : Analysis)

/-! ## Limits -/

/-- the first findings, as many as the limit allows; zero stands for no limit -/
def upTo (limit : Nat) (issues : List Issue) : List Issue := if limit = 0 then issues else issues.take limit

theorem upTo_sublist (limit : Nat) (issues : List Issue) : (upTo limit issues).Sublist issues := by
  unfold upTo
  split
  · exact List.Sublist.refl _
  · exact List.take_sublist _ _

/-- every limit leaves the first finding -/
theorem mem_upTo_cons (limit : Nat) (i : Issue) (issues : List Issue) : i ∈ upTo limit (i :: issues) := by
  unfold upTo
  split
  · exact List.mem_cons_self
  · rename_i h
    obtain ⟨n, rfl⟩ := Nat.exists_eq_succ_of_ne_zero h
    exact List.mem_cons_self

theorem upTo_of_short {limit : Nat} {issues : List Issue} (h : limit = 0 ∨ issues.length < limit) :
    upTo limit issues = issues := by
  unfold upTo
  split
  · rfl
  · rename_i h0
    exact List.take_of_length_le (h.resolve_left h0).le

theorem upTo_append_of_full {limit : Nat} {issues : List Issue} (h0 : 0 < limit) (h : limit ≤ issues.length)
    (more : List Issue) : upTo limit (issues ++ more) = issues.take limit := by
  unfold upTo
  rw [if_neg h0.ne', List.take_append_of_le_length h]

/-! ## Runs of checks -/

/-- what the enabled ones of some checks find, by severity -/
def findings (ks : List Check) : List Issue :=
  (ks.filter config.runs).flatMap fun k => (k.issues a).filter (config.reports ·.severity)

theorem findings_cons_of_runs {k : Check} (h : config.runs k = true) (ks : List Check) :
    findings config a (k :: ks) = (k.issues a).filter (config.reports ·.severity) ++ findings config a ks := by
  unfold findings
  rw [List.filter_cons_of_pos h, List.flatMap_cons]

theorem findings_cons_of_not_runs {k : Check} (h : ¬config.runs k = true) (ks : List Check) :
    findings config a (k :: ks) = findings config a ks := by
  unfold findings
  rw [List.filter_cons_of_neg h]

/-- **Running checks adds what they find, up to the limit.** -/
theorem runChecks_eq (ks : List Check) (found : List Issue)
    (hfound : config.maxIssues = 0 ∨ found.length < config.maxIssues) :
    runChecks config a found ks = upTo config.maxIssues (found ++ findings config a ks) := by
  induction ks generalizing found with
  | nil =>
    have hnil : findings config a [] = [] := rfl
    rw [hnil, List.append_nil, upTo_of_short hfound]
    rfl
  | cons k ks ih =>
    unfold runChecks
    by_cases hk : config.runs k = true
    · rw [if_pos hk, findings_cons_of_runs config a hk, ← List.append_assoc]
      simp only
      split
      · rename_i hfull
        exact (upTo_append_of_full hfull.1 hfull.2 _).symm
      · rename_i hroom
        exact ih _ (by omega)
    · rw [if_neg hk, findings_cons_of_not_runs config a hk]
      exact ih found hfound

/-- **An audit is what the enabled checks find, up to the limit.** -/
theorem audit_eq : audit config a = upTo config.maxIssues (findings config a Check.all) := by
  have hroom : config.maxIssues = 0 ∨ ([] : List Issue).length < config.maxIssues := Nat.eq_zero_or_pos _
  exact runChecks_eq config a Check.all [] hroom

/-! ## Errors -/

/-- a finding names the check that found it -/
theorem check_of_mem_issues {k : Check} {i : Issue} (h : i ∈ k.issues a) : i.check = k := by
  cases k <;>
    · obtain ⟨_, -, rfl⟩ := List.mem_map.1 h
      rfl

/-- only missing keyframes are errors -/
theorem severity_eq_error_iff {k : Check} : k.severity = .error ↔ k = .missingKeyframe := by cases k <;> decide

/-- errors are never below the least severity -/
theorem reports_error : config.reports .error = true := by
  unfold Config.reports
  cases config.minSeverity <;> rfl

theorem not_error_of_mem_findings {ks : List Check} (hks : Check.missingKeyframe ∉ ks) {i : Issue}
    (h : i ∈ findings config a ks) : i.severity ≠ .error := by
  obtain ⟨k, hk, hi⟩ := List.mem_flatMap.1 h
  intro herror
  have hcheck : i.check = k := check_of_mem_issues a (List.mem_filter.1 hi).1
  have hmissing : k = .missingKeyframe := severity_eq_error_iff.1 (hcheck ▸ herror)
  exact hks (hmissing ▸ (List.mem_filter.1 hk).1)

/-- all findings of the first check are reported -/
theorem filter_missingKeyframe :
    (Check.missingKeyframe.issues a).filter (config.reports ·.severity) = Check.missingKeyframe.issues a := by
  refine List.filter_eq_self.2 fun i hi => ?_
  have hseverity : i.severity = .error := severity_eq_error_iff.2 (check_of_mem_issues a hi)
  rw [hseverity]
  exact reports_error config

/-- **An audit reports an error if and only if the check of missing keyframes runs and finds something**, whatever the
limit and the least severity. -/
theorem any_error_audit :
    (∃ i ∈ audit config a, i.severity = .error) ↔
      config.runs .missingKeyframe = true ∧ Check.missingKeyframe.issues a ≠ [] := by
  have hall : Check.all = .missingKeyframe :: Check.all.tail := rfl
  have hrest {i : Issue} (h : i ∈ findings config a Check.all.tail) : i.severity ≠ .error :=
    not_error_of_mem_findings config a (by decide) h
  rw [audit_eq, hall]
  constructor
  · rintro ⟨i, hi, herror⟩
    have hmem := (upTo_sublist _ _).subset hi
    by_cases hruns : config.runs .missingKeyframe = true
    · rw [findings_cons_of_runs config a hruns, filter_missingKeyframe, List.mem_append] at hmem
      exact ⟨hruns, List.ne_nil_of_mem (hmem.resolve_right fun h => hrest h herror)⟩
    · rw [findings_cons_of_not_runs config a hruns] at hmem
      exact absurd herror (hrest hmem)
  · rintro ⟨hruns, hissues⟩
    obtain ⟨i, is, his⟩ := List.exists_cons_of_ne_nil hissues
    have hi : i ∈ Check.missingKeyframe.issues a := his ▸ List.mem_cons_self
    refine ⟨i, ?_, severity_eq_error_iff.2 (check_of_mem_issues a hi)⟩
    rw [findings_cons_of_runs config a hruns, filter_missingKeyframe, his, List.cons_append]
    exact mem_upTo_cons _ i _

/-- **Missing keyframes are found if and only if a name is missing**, for every such name has a use. -/
theorem issues_missingKeyframe_eq_nil {a : Analysis} (hagrees : a.identifiers.Agrees)
    (hbindings : a.bindings = .ofSet a.identifiers) :
    Check.missingKeyframe.issues a = [] ↔ a.bindings.missing = [] := by
  have hissues : Check.missingKeyframe.issues a = [] ↔ ∀ o ∈ a.bindings.uses, o.name ∉ a.bindings.missing := by
    unfold Check.issues missingKeyframes
    rw [List.map_eq_nil_iff, List.filter_eq_nil_iff]
    simp only [List.contains_iff_mem]
  rw [hissues, List.eq_nil_iff_forall_not_mem]
  constructor
  · intro h name hname
    rw [hbindings] at hname
    obtain ⟨o, ho, hc, rfl⟩ := (hagrees.mem_names_iff _ _).1 ((Bindings.mem_missing _).1 hname).1
    refine h o ?_ (hbindings ▸ hname)
    rw [hbindings]
    exact List.mem_filter.2 ⟨ho, decide_eq_true hc⟩
  · exact fun h o _ => h o.name

end StyleCheck.Audit
