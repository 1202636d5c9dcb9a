/-
The limit of an audit.

An audit stops behind the check that fills its limit, and the findings of that check are cut. What it reports is still
the first part of what all checks find together (`fullReport`): running more checks would add findings behind the cut
only. A finding names its check, so whether it is in the full report depends on the finding alone (`Config.admits`).
Asking for a higher severity or disabling a check is therefore a filter of the full report. Below a limit, what such a
filter leaves of a report comes first in the new one, and findings that were cut before may follow.
- `findings_eq_filter`: what the enabled checks find is a filter of what all checks find;
- `audit_eq_of_full`: checks behind the one that fills the limit do not matter;
- `upTo_prefix`, `filter_upTo_prefix`: limits and filters;
- `narrowed_of_admits`: a configuration that admits less;
- `audit_limit_exact`: all of this for the audits of one analysis.
-/
import StyleCheck.Proofs.Audit.Findings

namespace StyleCheck.Audit

/-! ## The full report -/

/-- what the enabled checks find, one check behind the other, without what is below the least severity -/
def fullReport (config : Config) (a : Analysis) : List Issue :=
  (Check.all.filter fun k => k.id ∉ config.disabled ∧ (config.enabled = [] ∨ k.id ∈ config.enabled)).flatMap fun k =>
    (k.issues a).filter fun i => config.minSeverity.rank ≤ i.severity.rank

/-- whether a finding is in the full report if its check finds it -/
def Config.admits (config : Config) (i : Issue) : Bool := config.runs i.check && config.reports i.severity

theorem Config.runs_iff {config : Config} {k : Check} :
    config.runs k = true ↔ k.id ∉ config.disabled ∧ (config.enabled = [] ∨ k.id ∈ config.enabled) := by
  simp [Config.runs]

section
variable (config : Config) (a : Analysis)

theorem findings_all : findings config a Check.all = fullReport config a := by
  have hruns : config.runs = fun k => decide (k.id ∉ config.disabled ∧ (config.enabled = [] ∨ k.id ∈ config.enabled)) := by
    funext k
    rw [Bool.eq_iff_iff, Config.runs_iff, decide_eq_true_iff]
  unfold findings fullReport
  rw [hruns]
  rfl

/-- **What the enabled checks find is a filter of what all checks find**, for a finding names its check. -/
theorem findings_eq_filter (ks : List Check) : findings config a ks = (ks.flatMap (·.issues a)).filter config.admits := by
  induction ks with
  | nil => rfl
  | cons k ks ih =>
    rw [List.flatMap_cons, List.filter_append, ← ih]
    by_cases hk : config.runs k = true
    · rw [findings_cons_of_runs config a hk]
      refine congrArg (· ++ _) (List.filter_congr fun i hi => ?_)
      rw [Config.admits, check_of_mem_issues a hi, hk, Bool.true_and]
    · have hnone : (k.issues a).filter config.admits = [] := by
        refine List.filter_eq_nil_iff.2 fun i hi => ?_
        rw [Config.admits, check_of_mem_issues a hi, Bool.and_eq_true]
        exact fun h => hk h.1
      rw [findings_cons_of_not_runs config a hk, hnone, List.nil_append]

theorem findings_append (ks ls : List Check) :
    findings config a (ks ++ ls) = findings config a ks ++ findings config a ls := by
  rw [findings_eq_filter, List.flatMap_append, List.filter_append, ← findings_eq_filter, ← findings_eq_filter]

/-- **An audit without a limit** reports everything. -/
theorem audit_unlimited : audit { config with maxIssues := 0 } a = fullReport config a := by
  rw [audit_eq, findings_all]
  rfl

/-- **Checks behind the one that fills the limit do not matter.** -/
theorem audit_eq_of_full {done rest : List Check} (hall : Check.all = done ++ rest) (h0 : 0 < config.maxIssues)
    (hfull : config.maxIssues ≤ (findings config a done).length) : audit config a = runChecks config a [] done := by
  have hdone : runChecks config a [] done = upTo config.maxIssues (findings config a done) :=
    runChecks_eq config a done [] (Or.inr h0)
  calc audit config a
    _ = upTo config.maxIssues (findings config a done ++ findings config a rest) := by
      rw [audit_eq, hall, findings_append]
    _ = (findings config a done).take config.maxIssues := upTo_append_of_full h0 hfull _
    _ = upTo config.maxIssues (findings config a done) := by rw [upTo, if_neg h0.ne']
    _ = runChecks config a [] done := hdone.symm

end

/-! ## Limits and filters -/

/-- a higher limit, or none, leaves more of the same findings -/
theorem upTo_prefix {m n : Nat} (hm : 0 < m) (h : m ≤ n ∨ n = 0) (issues : List Issue) :
    upTo m issues <+: upTo n issues := by
  unfold upTo
  rw [if_neg hm.ne']
  split
  · exact List.take_prefix _ _
  · rename_i hn
    exact List.take_prefix_take_left (h.resolve_right hn)

/-- of what is within the limit, a filter leaves the first part of what it leaves of all findings -/
theorem filter_upTo_prefix (p : Issue → Bool) (limit : Nat) (issues : List Issue) :
    (upTo limit issues).filter p <+: upTo limit (issues.filter p) := by
  unfold upTo
  split
  · exact List.prefix_rfl
  · -- the filter may leave fewer findings than the limit allows
    refine List.prefix_take_iff.2 ⟨(List.take_prefix _ _).filter p, ?_⟩
    calc ((issues.take limit).filter p).length
      _ ≤ (issues.take limit).length := List.length_filter_le _ _
      _ ≤ limit := List.length_take_le _ _

/-- the second configuration reports what passes `p`: all of it without a limit, and within one all that was reported
before, in the same order and ahead of everything else -/
structure Narrowed (config narrower : Config) (a : Analysis) (p : Issue → Bool) : Prop where
  whole : audit { narrower with maxIssues := 0 } a = (audit { config with maxIssues := 0 } a).filter p
  kept : (audit config a).filter p <+: audit narrower a

/-- **A configuration that admits less** with the same limit only removes findings. -/
theorem narrowed_of_admits {config narrower : Config} (a : Analysis) {p : Issue → Bool}
    (hlimit : narrower.maxIssues = config.maxIssues) (h : ∀ i, narrower.admits i = (p i && config.admits i)) :
    Narrowed config narrower a p := by
  have hfindings : findings narrower a Check.all = (findings config a Check.all).filter p := by
    rw [findings_eq_filter, findings_eq_filter, List.filter_filter]
    exact List.filter_congr fun i _ => h i
  constructor
  · rw [audit_unlimited, audit_unlimited, ← findings_all, ← findings_all, hfindings]
  · rw [audit_eq, audit_eq, hlimit, hfindings]
    exact filter_upTo_prefix p _ _

/-- **The limit of an audit is a prefix of the full report.** Stopping at a check that fills the limit gives what all
checks would give. A higher limit only adds findings at the end. A higher severity removes what is below it, and
disabling a check what that check finds; the other findings stay in their order. -/
theorem audit_limit_exact (config : Config) (a : Analysis) :
    audit config a =
      (if config.maxIssues = 0 then fullReport config a else (fullReport config a).take config.maxIssues) ∧
    (∀ done rest, Check.all = done ++ rest → 0 < config.maxIssues →
      config.maxIssues ≤ (runChecks { config with maxIssues := 0 } a [] done).length →
      audit config a = runChecks config a [] done) ∧
    (∀ m n, 0 < m → m ≤ n ∨ n = 0 →
      audit { config with maxIssues := m } a <+: audit { config with maxIssues := n } a) ∧
    (∀ s, config.minSeverity.rank ≤ s.rank →
      Narrowed config { config with minSeverity := s } a fun i => s.rank ≤ i.severity.rank) ∧
    ∀ id, Narrowed config { config with disabled := config.disabled ++ [id] } a fun i => i.check.id ≠ id := by
  refine ⟨?_, ?_, ?_, ?_, ?_⟩
  · rw [audit_eq, findings_all, upTo]
  · intro done rest hall h0 hfull
    have hdone : runChecks { config with maxIssues := 0 } a [] done = findings config a done :=
      runChecks_eq { config with maxIssues := 0 } a done [] (Or.inl rfl)
    exact audit_eq_of_full config a hall h0 (hdone ▸ hfull)
  · intro m n hm h
    rw [audit_eq, audit_eq]
    exact upTo_prefix hm h _
  · intro s hs
    refine narrowed_of_admits a rfl fun i => ?_
    rw [Bool.eq_iff_iff]
    -- what is not below the new severity is not below the old one
    simp only [Config.admits, Config.runs, Config.reports, Bool.and_eq_true, decide_eq_true_iff]
    constructor
    · rintro ⟨hruns, h⟩
      exact ⟨h, hruns, hs.trans h⟩
    · rintro ⟨h, hruns, -⟩
      exact ⟨hruns, h⟩
  · intro id
    refine narrowed_of_admits a rfl fun i => ?_
    rw [Bool.eq_iff_iff, Bool.and_eq_true, Config.admits, Config.admits, Bool.and_eq_true, Bool.and_eq_true,
      Config.runs_iff, Config.runs_iff]
    simp [Config.reports, and_assoc, and_left_comm]

/-- a sheet with a name that is missing, one that is unused, a selector defined twice and a block left open -/
def noisySheet : Stylesheet :=
  .parse {} ⟨0⟩ ".a\x7banimation:ghost 1s\x7d.a\x7bcolor:red\x7d@keyframes idle\x7bto\x7bopacity:1\x7d\x7d.b\x7b".toList

theorem audit_limit_exact_noisy :
    let a := Analysis.analyze {} [noisySheet]
    let config : Config := { maxIssues := 2 }
    (fullReport config a).map (·.check) = [.missingKeyframe, .unusedKeyframe, .partialParse, .duplicateSelector] ∧
    audit config a = runChecks config a [] [.missingKeyframe, .unusedKeyframe] ∧
    audit { config with maxIssues := 2 } a <+: audit { config with maxIssues := 3 } a ∧
    Narrowed config { config with minSeverity := .warning } a (fun i => Severity.warning.rank ≤ i.severity.rank) ∧
    (audit { config with minSeverity := .warning } a).map (·.check) = [.missingKeyframe, .partialParse] := by
  intro a config
  obtain ⟨-, hfull, hraised, hsevere, -⟩ := audit_limit_exact config a
  refine ⟨by decide +kernel, ?_, ?_, ?_, by decide +kernel⟩
  · exact hfull [.missingKeyframe, .unusedKeyframe] [.partialParse, .duplicateSelector, .valuelessOverride] rfl
      (by decide) (by decide +kernel)
  · exact hraised 2 3 (by decide) (Or.inl (by decide))
  · exact hsevere .warning (by decide)

end StyleCheck.Audit
