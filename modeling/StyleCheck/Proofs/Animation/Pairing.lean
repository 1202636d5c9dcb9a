/-
Keyframes and their uses find each other.

The name of keyframes is read off a prelude, the name of an animation off a value, and each can be written in several
ways. Both readings give the same name, so that a definition and a use of it bind, whatever sheets they stand in.
- `gives_use`: a rule that uses a name uses that name and defines none;
- `gives_definition`: a rule that defines a name defines that name and uses none;
- `bindings_paired`: a definition and a use, in any order and in any sheets, bind.
-/
import StyleCheck.Proofs.Animation.Crosscheck
import StyleCheck.Proofs.Animation.Value
import StyleCheck.Proofs.Identifier.Written

namespace StyleCheck

open Text Quoting

/-! ## Vendors -/

/-- `base` in any case, with or without a vendor in front -/
inductive Vendored (base t : Text) : Prop where
  | standard : lower t = base → Vendored base t
  | vendor {v : Text} : isName v = true → '-' ∉ v → lower t = '-' :: v ++ '-' :: base → Vendored base t

theorem dropVendor?_vendor {v : Text} (hv : v ≠ []) (hdash : '-' ∉ v) (base : Text) :
    dropVendor? ('-' :: v ++ '-' :: base) = some base := by
  have hfirst : dropFirst? '-' ('-' :: v ++ '-' :: base) = some (v ++ '-' :: base) :=
    dropFirst?_eq_some_iff.2 (List.cons_append ..)
  have hcut : cut? '-' (v ++ '-' :: base) = some (v, base) := cut?_eq_some_iff.2 ⟨rfl, hdash⟩
  unfold dropVendor?
  rw [hfirst, Option.bind_some, hcut]
  simp [hv]

namespace Vendored

variable {base t : Text}

theorem isName (h : Vendored base t) (hbase : isName base = true) : isName t = true := by
  refine isName_of_lower ?_
  cases h with
  | standard ht => rwa [ht]
  | vendor hv _ ht =>
    rw [ht]
    refine isName_iff.2 ⟨by simp, ?_⟩
    simp only [List.cons_append, List.forall_mem_cons, List.forall_mem_append]
    exact ⟨by decide, (isName_iff.1 hv).2, by decide, (isName_iff.1 hbase).2⟩

/-- the vendor is dropped -/
theorem unprefixed (h : Vendored base t) (hbase : base.head? ≠ some '-') : Declaration.unprefixed t = base := by
  unfold Declaration.unprefixed
  cases h with
  | standard ht =>
    have hfirst : dropFirst? '-' base = none := by
      cases base with
      | nil => rfl
      | cons c b =>
        have hc : c ≠ '-' := by simpa using hbase
        simp [dropFirst?, hc]
    have hprefix : "--".toList.isPrefixOf base = false := by
      cases base with
      | nil => rfl
      | cons c b =>
        have hc : '-' ≠ c := fun he => hbase (by rw [← he]; rfl)
        simp [List.isPrefixOf, hc]
    simp only [ht, hprefix, dropVendor?, hfirst]
    rfl
  | @vendor v hv hdash ht =>
    have hne := (isName_iff.1 hv).1
    have hprefix : "--".toList.isPrefixOf ('-' :: v ++ '-' :: base) = false := by
      obtain ⟨c, v, rfl⟩ := List.exists_cons_of_ne_nil hne
      have hc : '-' ≠ c := fun he => hdash (he ▸ List.mem_cons_self)
      simp [List.isPrefixOf, hc]
    simp only [ht, hprefix, dropVendor?_vendor hne hdash]
    rfl

end Vendored

/-- the keyword of keyframes -/
theorem Vendored.keyframes {t : Text} (h : Vendored "keyframes".toList t) :
    Selector.isKeyframesKeyword (lower t) = true ∧ lower t ≠ "media".toList := by
  unfold Selector.isKeyframesKeyword
  cases h with
  | standard ht =>
    rw [ht]
    decide
  | vendor hv hdash ht =>
    rw [ht, dropVendor?_vendor (isName_iff.1 hv).1 hdash]
    simp

/-! ## The two rules -/

namespace Animation

variable {extra : List Text} {name : Text}

/-- the block of a rule that uses an animation, with blanks in front -/
def useItem (gap property value : Text) : Item :=
  .block (gap ++ ".x ".toList) (' ' :: (property ++ ':' :: ' ' :: value) ++ [' '])

/-- the block of keyframes, with blanks in front -/
def definitionItem (gap keyword written : Text) : Item :=
  .block (gap ++ '@' :: keyword ++ ' ' :: written ++ [' ']) " to \x7b a: b \x7d ".toList

/-- a rule whose value names an animation, among other parts in any order -/
inductive UseOf (extra : List Text) (name : Text) : Item → Prop where
  | intro {gap property written value : Text} {before after : List Text} : AsciiBlank gap →
      Vendored "animation".toList property ∨ Vendored "animation-name".toList property →
      Spelled name written → (∀ w ∈ before ++ after, Filler extra w) → Spaced (before ++ written :: after) value →
      UseOf extra name (useItem gap property value)

/-- a rule that defines keyframes -/
inductive DefinitionOf (name : Text) : Item → Prop where
  | intro {gap keyword written : Text} : AsciiBlank gap → Vendored "keyframes".toList keyword →
      Spelled name written → DefinitionOf name (definitionItem gap keyword written)

/-! ## Reading the two rules -/

/-- a declaration of an animation -/
theorem IsPart.declaration {property value : Text} (hp : isName property = true) (hv : IsPart value) :
    IsPart (property ++ ':' :: ' ' :: value) := by
  have hvalue : Plain (' ' :: value) := plain_nil.join hv.plain (by decide) (by decide)
  refine ⟨by simp, ?_, (plain_of_isName hp).join hvalue (by decide) (by decide)⟩
  have hword := isWord_of_isName hp
  simpa using tight_append hword.nonempty hv.nonempty hword.tight hv.tight [':', ' ']

theorem isProperty_of_vendored {property : Text}
    (h : Vendored "animation".toList property ∨ Vendored "animation-name".toList property) :
    isName property = true ∧ isProperty property = true := by
  unfold isProperty
  rcases h with h | h
  · refine ⟨h.isName (by decide), ?_⟩
    rw [h.unprefixed (by decide)]
    rfl
  · refine ⟨h.isName (by decide), ?_⟩
    rw [h.unprefixed (by decide)]
    rfl

theorem trim_between {t : Text} (h : Tight t) : trim (' ' :: t ++ [' ']) = t := by
  have hspace : Blank [' '] := by decide
  rw [append_trim _ hspace]
  exact (trim_append hspace t).trans (trim_eq_self_iff.2 h)

/-- the selector of keyframes -/
theorem normalize_definition {gap keyword written : Text} (hgap : AsciiBlank gap) (hk : isName keyword = true)
    (hw : IsWord written) :
    Selector.normalize (gap ++ '@' :: keyword ++ ' ' :: written ++ [' ']) = '@' :: keyword ++ ' ' :: written := by
  have hat : IsWord ('@' :: keyword) :=
    ⟨by simp, List.forall_mem_cons.2 ⟨by decide, (isWord_of_isName hk).solid⟩⟩
  have hwords : words ('@' :: keyword ++ ' ' :: written ++ [' ']) = ['@' :: keyword, written] := by
    rw [words_append_blank _ (by decide), words_append_blank _ (by decide), words_of_isWord hat, words_of_isWord hw]
    rfl
  rw [List.append_assoc, List.append_assoc, Selector.normalize_append hgap.blank, ← List.append_assoc]
  unfold Selector.normalize
  rw [hwords]
  simp

theorem atKeyword?_definition {keyword : Text} (hk : isName keyword = true) (written : Text) :
    Selector.atKeyword? ('@' :: keyword ++ ' ' :: written) = some (lower keyword) := by
  have htake : (keyword ++ ' ' :: written).takeWhile (fun c => !(isBlank c || c == '(')) = keyword := by
    have hchars := (isName_iff.1 hk).2
    rw [List.takeWhile_append_of_pos fun c hc => by
      simp [not_blank_of_nameChar (hchars c hc), ne_of_class (hchars c hc) (d := '(') rfl]]
    simp [show isBlank ' ' = true from rfl]
  show some (lower ((keyword ++ ' ' :: written).takeWhile fun c => !(isBlank c || c == '('))) = _
  rw [htake]

theorem kind_definition (attr : Text) {keyword : Text} (hk : Vendored "keyframes".toList keyword) (written : Text) :
    Selector.kind attr ('@' :: keyword ++ ' ' :: written) = .keyframes := by
  obtain ⟨hkeyword, hmedia⟩ := hk.keyframes
  unfold Selector.kind
  rw [atKeyword?_definition (hk.isName (by decide))]
  simp only [if_neg hmedia, if_pos hkeyword]

theorem keyframesName?_definition {keyword written : Text} (hk : isName keyword = true) (hname : isName name = true)
    (hw : Spelled name written) : Selector.keyframesName? ('@' :: keyword ++ ' ' :: written) = some name := by
  have hspace : ' ' ∉ '@' :: keyword := fun hm => by
    rcases List.mem_cons.1 hm with hm | hm
    · cases hm
    · exact absurd ((isName_iff.1 hk).2 _ hm) (by decide)
  have hcut : cut? ' ' ('@' :: keyword ++ ' ' :: written) = some ('@' :: keyword, written) :=
    cut?_eq_some_iff.2 ⟨rfl, hspace⟩
  unfold Selector.keyframesName?
  rw [hcut]
  simp [(hw.isWord hname).trim, hw.unquoteLoosely hname, (isName_iff.1 hname).1]

end Animation

/-! ## What the two rules hold -/

namespace Rule

open Occurrence

variable {r : Rule}

theorem namesIn_selectorNames (h : r.selector = ".x".toList) {c : Category} (hc : c ≠ .className) :
    namesIn c r.selectorNames = [] := by
  refine namesIn_of_ne fun o ho => ?_
  have hnames : Selector.names ".x".toList = [(.className, "x".toList)] := by decide
  unfold selectorNames at ho
  rw [h, hnames] at ho
  obtain rfl := List.mem_singleton.1 ho
  exact hc.symm

/-- a body that is one declaration of an animation uses that animation -/
theorem namesIn_animations {extra : List Text} {property value name : Text} (hp : isName property = true)
    (hproperty : Animation.isProperty property = true) (hvalue : Animation.IsPart value)
    (hnamed : Animation.named? extra value = some name) (hbody : r.body = property ++ ':' :: ' ' :: value)
    (c : Category) : namesIn c (r.animations extra) = if c = .animation then [name] else [] := by
  have htrim : trim (' ' :: value) = value :=
    (trim_append (a := [' ']) (by decide) value).trans (trim_eq_self_iff.2 hvalue.tight)
  unfold animations
  rw [hbody, Declaration.ofBody_of_plain hp (hvalue.declaration hp).plain, htrim]
  by_cases hc : c = .animation
  · simp [namesIn, hproperty, hnamed, hc]
  · simp [namesIn, hproperty, hnamed, hc, Ne.symm hc]

end Rule

namespace Animation

open Occurrence Item

variable {extra : List Text} {name : Text} {i : Item} (parse inner : ParseConfig)

/-- the value of a use is one part of a declaration -/
theorem Spaced.value {written value : Text} {before after : List Text} (hname : isName name = true)
    (hw : Spelled name written) (hfillers : ∀ w ∈ before ++ after, Filler extra w)
    (h : Spaced (before ++ written :: after) value) : IsPart value := by
  obtain ⟨hbefore, hafter⟩ := List.forall_mem_append.1 hfillers
  refine h.isPart (List.forall_mem_append.2 ⟨fun w hm => (hbefore w hm).isPart, ?_⟩)
  exact List.forall_mem_cons.2 ⟨hw.isPart hname, fun w hm => (hafter w hm).isPart⟩

theorem UseOf.wellFormed (hname : isName name = true) (h : UseOf extra name i) :
    i.WellFormed ∧ code.Uncommented i.text := by
  obtain ⟨hgap, hp, hw, hfillers, hspaced⟩ := h
  have hdeclaration := ((hspaced.value hname hw hfillers).declaration (isProperty_of_vendored hp).1).plain
  have hx : Plain "x ".toList := by decide
  have hprelude : Plain _ := (plain_of_blank hgap.blank).join hx (c := '.') (by decide) (by decide)
  have hbody : Plain _ := (plain_nil.join hdeclaration (c := ' ') (by decide) (by decide)).join plain_nil (c := ' ')
    (by decide) (by decide)
  exact ⟨⟨hprelude.isPrelude, hbody.isBody⟩, Item.uncommented_block hprelude.isPrelude hbody.isBody
    hprelude.uncommented hbody.uncommented⟩

/-- **A rule that uses a name** uses that name and defines none. -/
theorem gives_use (hname : IsReference extra name) (h : UseOf extra name i) (c : Category)
    (hc : c = .animation ∨ c = .keyframe) :
    Gives parse inner extra c i (if c = .animation then [name] else []) := by
  obtain ⟨hgap, hp, hw, hfillers, hspaced⟩ := h
  obtain ⟨hpname, hproperty⟩ := isProperty_of_vendored hp
  have hvalue := hspaced.value hname.isName hw hfillers
  have hnamed := named?_of_spaced hname hw (List.forall_mem_append.1 hfillers).1 hspaced
  have hselector := (Selector.normalize_append hgap.blank ".x ".toList).trans
    (show Selector.normalize ".x ".toList = ".x".toList by decide)
  have hbody := trim_between (hvalue.declaration hpname).tight
  intro source line
  obtain ⟨b, r, hb, hr, hs, hbr, hk⟩ := Stylesheet.toRule?_item parse source
    (by rw [hselector]; decide) (by rw [hbody]; exact (hvalue.declaration hpname).nonempty) line
  rw [hselector] at hs hk
  rw [hbody] at hbr
  refine ⟨b, r, hb, hr, ?_⟩
  have hkind : r.kind = .plain := hk
  have hgroup : r.isGroup = false := by
    unfold Rule.isGroup
    rw [hkind, hs]
    rfl
  have hclass : c ≠ .className := by rcases hc with rfl | rfl <;> decide
  have hprop : c ≠ .property := by rcases hc with rfl | rfl <;> decide
  rw [Rule.identifiers_eq, if_neg (by simp [hkind]), if_neg (by simp [hgroup]), namesIn_append, namesIn_append,
    Rule.namesIn_selectorNames hs hclass, Rule.namesIn_properties r hprop,
    Rule.namesIn_animations hpname hproperty hvalue hnamed hbr c]
  rfl

theorem DefinitionOf.wellFormed (hname : isName name = true) (h : DefinitionOf name i) :
    i.WellFormed ∧ code.Uncommented i.text := by
  obtain ⟨hgap, hk, hw⟩ := h
  have hkeyword := plain_of_isName (hk.isName (by decide))
  have hat : Plain _ := (plain_of_blank hgap.blank).join hkeyword (c := '@') (by decide) (by decide)
  have hprelude : Plain _ := (hat.join (hw.isPart hname).plain (c := ' ') (by decide) (by decide)).join plain_nil
    (c := ' ') (by decide) (by decide)
  have hbody : Block.IsBody " to \x7b a: b \x7d ".toList := by decide
  exact ⟨⟨hprelude.isPrelude, hbody⟩, Item.uncommented_block hprelude.isPrelude hbody
    hprelude.uncommented (by decide)⟩

/-- **A rule that defines a name** defines that name and uses none. -/
theorem gives_definition (hname : isName name = true) (h : DefinitionOf name i) (c : Category)
    (hc : c = .animation ∨ c = .keyframe) :
    Gives parse inner extra c i (if c = .keyframe then [name] else []) := by
  obtain ⟨hgap, hk, hw⟩ := h
  have hkname := hk.isName (by decide)
  have hselector := normalize_definition hgap hkname (hw.isWord hname)
  intro source line
  obtain ⟨b, r, hb, hr, hs, -, hkind⟩ := Stylesheet.toRule?_item parse source
    (by rw [hselector]; simp) (show trim " to \x7b a: b \x7d ".toList ≠ [] by decide) line
  rw [hselector] at hs hkind
  rw [kind_definition _ hk] at hkind
  refine ⟨b, r, hb, hr, ?_⟩
  have hdeclared : r.keyframesName? = some name := by
    unfold Rule.keyframesName?
    rw [if_pos hkind, hs, keyframesName?_definition hkname hname hw]
  have hprop : c ≠ .property := by rcases hc with rfl | rfl <;> decide
  rw [Rule.identifiers_eq, if_pos hkind, namesIn_append, Rule.namesIn_properties r hprop, List.append_nil]
  unfold Rule.keyframe
  rw [hdeclared]
  rcases hc with rfl | rfl <;> rfl

end Animation

/-! ## Binding -/

namespace Bindings

/-- a name that alone is used and alone is defined is matched -/
theorem ofSet_of_single {s : IdentifierSet} (h : s.Agrees) {name : Text}
    (hused : ∀ n, n ∈ (s.tally .animation).names ↔ n = name)
    (hdefined : ∀ n, n ∈ (s.tally .keyframe).names ↔ n = name) :
    (ofSet s).matched = [name] ∧ (ofSet s).missing = [] ∧ (ofSet s).unused = [] := by
  have hsingle {c : Category} (hc : ∀ n, n ∈ (s.tally c).names ↔ n = name) : (s.tally c).names = [name] :=
    List.perm_singleton.1 ((List.perm_ext_iff_of_nodup (h c).nodup (List.nodup_singleton name)).2 fun n => by
      rw [hc, List.mem_singleton])
  have hu : (s.tally .animation).contains name = true := (Tally.contains_iff _ _).2 ((hused name).2 rfl)
  have hd : (s.tally .keyframe).contains name = true := (Tally.contains_iff _ _).2 ((hdefined name).2 rfl)
  simp [ofSet, hsingle hused, hsingle hdefined, hu, hd, sortedNames]

end Bindings

namespace Animation

/-- **A definition and a use of it bind**, however the name is written in either, whatever else the value holds, and
in whatever sheets and order the two rules stand. -/
theorem bindings_paired (config : AnalysisConfig) (parse : ParseConfig) {name : Text}
    (hname : IsReference config.reserved name) {use definition : Item} (huse : UseOf config.reserved name use)
    (hdefinition : DefinitionOf name definition) {sheets : List Written}
    (hsheets : (sheets.flatMap (·.items)).Perm [use, definition])
    (hgap : ∀ w ∈ sheets, AsciiBlank w.gap) (hsize : ∀ w ∈ sheets, byteSize w.text ≤ parse.maxInputSize) :
    let b := (Analysis.analyze config (sheets.map (·.sheet parse))).bindings
    b.matched = [name] ∧ b.missing = [] ∧ b.unused = [] := by
  have hitem : ∀ i ∈ sheets.flatMap (·.items), i = use ∨ i = definition := fun i hi => by
    simpa using hsheets.mem_iff.1 hi
  have hproper : ∀ w ∈ sheets, w.Proper parse := by
    intro w hw
    refine ⟨fun i hi => ?_, hgap w hw, hsize w hw⟩
    rcases hitem i (List.mem_flatMap.2 ⟨w, hw, hi⟩) with rfl | rfl
    · exact huse.wellFormed hname.isName
    · exact hdefinition.wellFormed hname.isName
  -- in either category, one of the two rules holds the name and the other holds nothing
  have hused := gives_use parse config.parse hname huse
  have hdefined := @gives_definition config.reserved _ _ parse config.parse hname.isName hdefinition
  refine Bindings.ofSet_of_single (Analysis.agrees_identifiers config _) (fun n => ?_) fun n => ?_
  · have hnames := Written.mem_names_analysis config hproper fun i hi =>
      (hused .animation (Or.inl rfl)).of_pair (hdefined .animation (Or.inl rfl)) (hitem i hi)
    exact (hnames n).trans (by simp [hsheets.mem_iff])
  · have hnames := Written.mem_names_analysis config hproper fun i hi =>
      (hdefined .keyframe (Or.inr rfl)).of_pair (hused .keyframe (Or.inr rfl)) (hitem i hi).symm
    exact (hnames n).trans (by simp [hsheets.mem_iff])

/-- parts of a value around a name -/
def fillersBefore : List Text := ["2s".toList, "Infinite".toList, "steps".toList ++ '(' :: ".1,(2) 3%".toList ++ [')']]

def fillersAfter : List Text := ["GLOW".toList, "-.5MS".toList]

theorem filler_of_mem : ∀ w ∈ fillersBefore ++ fillersAfter, Filler ["Glow".toList] w := by
  have harguments : Arguments ".1,(2) 3%".toList :=
    .char rfl (.char rfl (.char rfl (.group (.char rfl .nil) (.char rfl (.char rfl (.char rfl .nil))))))
  simp only [fillersBefore, fillersAfter, List.cons_append, List.nil_append, List.forall_mem_cons]
  refine ⟨.number (by decide), .keyword (isKeyword_of_mem ?_),
    .call (isName_iff.1 ?_).2 harguments, .keyword (isKeyword_of_isName (k := "Glow".toList) ?_ ?_ ?_),
    .number (by decide), by simp⟩ <;> decide

def pairedUse : Item :=
  useItem [] "-webkit-animation-name".toList
    ([' '].intercalate (fillersBefore ++ quoted '\'' "spin".toList :: fillersAfter))

def pairedDefinition : Item := definitionItem "\n".toList "-moz-KeyFrames".toList (quoted '"' "spin".toList)

/-- keyframes in one sheet and a use in another, both with a vendor -/
def pairedSheets : List Written := [⟨⟨4⟩, [pairedDefinition], "\n".toList⟩, ⟨⟨7⟩, [pairedUse], []⟩]

theorem bindings_paired_vendors :
    let b := (Analysis.analyze { reserved := ["Glow".toList] } (pairedSheets.map (·.sheet {}))).bindings
    pairedSheets.map (·.text) =
      ["\n@-moz-KeyFrames \"spin\" \x7b to \x7b a: b \x7d \x7d\n".toList,
        ".x \x7b -webkit-animation-name: 2s Infinite steps(.1,(2) 3%) 'spin' GLOW -.5MS \x7d".toList] ∧
    b.matched = ["spin".toList] ∧ b.missing = [] ∧ b.unused = [] := by
  have hname : IsReference ["Glow".toList] "spin".toList := ⟨by decide, by decide, by decide⟩
  have hproperty : Vendored "animation-name".toList "-webkit-animation-name".toList :=
    .vendor (v := "webkit".toList) (by decide) (by decide) (by decide)
  have hkeyword : Vendored "keyframes".toList "-moz-KeyFrames".toList :=
    .vendor (v := "moz".toList) (by decide) (by decide) (by decide)
  have huse : UseOf ["Glow".toList] "spin".toList pairedUse :=
    .intro (by decide) (Or.inr hproperty) (.literal (by decide)) filler_of_mem (spaced_intercalate (by simp))
  have hdefinition : DefinitionOf "spin".toList pairedDefinition :=
    .intro (by decide) hkeyword (.literal (by decide))
  have hsheets : (pairedSheets.flatMap (·.items)).Perm [pairedUse, pairedDefinition] := List.Perm.swap _ _ _
  have hbindings := bindings_paired { reserved := ["Glow".toList] } {} hname huse hdefinition hsheets
    (by decide) (by decide)
  exact ⟨by decide, hbindings⟩

/-- the cross-check of keyframes and a use of them, with this value, where this keyword is reserved -/
def spinBindings (parse : ParseConfig) (keyword value : String) : Bindings :=
  let text := ".x \x7b animation: ".toList ++ value.toList ++ " \x7d @keyframes spin \x7b to \x7b a: b \x7d \x7d".toList
  (Analysis.analyze { reserved := [keyword.toList] } [.parse parse ⟨0⟩ text]).bindings

/-- **Being reserved is not enough** for a keyword to be passed over. A word is looked up without the comma behind it
and the quotes around it, in lower case as far as ASCII goes; and a keyword of several words, or one that opens a call,
a literal, a block or a comment, is not read as one word. Nor is a text beyond the limit read at all. -/
theorem keyword_taken_for_name :
    IsReference ["glow,".toList] "spin".toList ∧
    (spinBindings {} "glow," "glow, spin").matched = [] ∧
    (spinBindings {} "glow," "glow, spin").missing = ["glow".toList] ∧
    (spinBindings {} "glow," "glow, spin").unused = ["spin".toList] ∧
    (∀ p ∈ [("é", "É spin"), ("'glow'", "'glow' spin"), ("slow motion", "slow motion spin"), ("glow(", "glow( spin"),
        ("it's", "it's spin"), ("a;b", "a;b spin"), ("/*", "/* spin")], (spinBindings {} p.1 p.2).matched = []) ∧
    (spinBindings { maxInputSize := 10 } "glow" "glow spin").matched = [] := by
  refine ⟨⟨by decide, by decide, by decide⟩, ?_⟩
  decide +kernel

end Animation

end StyleCheck
