/-
Hexadecimal colours and their spellings.

A hexadecimal colour is a number sign with three or six digits. Written out with six digits in lower case (`spelledOut`),
two spellings are equal if they are of one colour: three digits stand for six with each of them doubled, a pair of
digits is a channel, and no two digits have one value. The decimal form keeps the channels apart, so it is the same for
the spellings of one colour and for no others.
- `digit_facts`: each digit is the one of its value, in lower case;
- `isSome_ofHex?_iff`, `ofHex?_eq_iff`: which values are colours, and which of them are equal;
- `triplet_injective`: the decimal form tells all colours apart;
- `get?_ofRules`: a variable has the value that rules of its scope declare last;
- `mem_allChanged`: which variables a comparison reports as changed;
- `hex_spellings_exact`: all of this for the values of one variable.
-/
import StyleCheck.Proofs.Variable.Counted

namespace StyleCheck

open Text

namespace Colour

/-! ## Digits -/

/-- a hexadecimal digit, in either case -/
def isHexDigit (c : Char) : Bool :=
  ('0' ≤ c && c ≤ '9') || ('a' ≤ c && c ≤ 'f') || ('A' ≤ c && c ≤ 'F')

/-- `value` is a colour with these digits, blanks around it aside -/
structure IsHex (value digits : Text) : Prop where
  written : trim value = '#' :: digits
  size : digits.length = 3 ∨ digits.length = 6
  hex : ∀ c ∈ digits, isHexDigit c = true

/-- six digits for three -/
def doubled (digits : Text) : Text := if digits.length = 3 then digits.flatMap fun c => [c, c] else digits

/-- the six digits of a colour in lower case -/
def spelledOut (digits : Text) : Text := lower (doubled digits)

/-- the value of a digit -/
def digitValue (c : Char) : Nat := (digit? c).getD 0

theorem isSome_digit? (c : Char) : (digit? c).isSome = isHexDigit c := by
  unfold digit? isHexDigit
  split_ifs <;> simp_all

/-- the digits, one by one -/
theorem digit_table : ∀ n < 128, isHexDigit (Char.ofNat n) = true →
    digitValue (Char.ofNat n) < 16 ∧ Nat.digitChar (digitValue (Char.ofNat n)) = (Char.ofNat n).toLower ∧
      digitValue (Char.ofNat n).toLower = digitValue (Char.ofNat n) := by
  decide

section
variable {c : Char}

theorem digit_facts (h : isHexDigit c = true) :
    digitValue c < 16 ∧ Nat.digitChar (digitValue c) = c.toLower ∧ digitValue c.toLower = digitValue c := by
  have hascii : c.toNat < 128 := by
    simp only [isHexDigit, Bool.or_eq_true, Bool.and_eq_true, decide_eq_true_iff, Char.le_def,
      UInt32.le_iff_toNat_le] at h
    rcases h with (⟨-, h⟩ | ⟨-, h⟩) | ⟨-, h⟩ <;> exact lt_of_le_of_lt h (by decide)
  have hfacts := digit_table c.toNat hascii
  rw [Char.ofNat_toNat] at hfacts
  exact hfacts h

/-- the values of hexadecimal digits; other characters have none -/
theorem mapM_digit? (digits : Text) :
    digits.mapM digit? = if digits.all isHexDigit then some (digits.map digitValue) else none := by
  induction digits with
  | nil => rfl
  | cons c digits ih =>
    rw [List.mapM_cons, ih, List.all_cons, List.map_cons, digitValue, ← isSome_digit?]
    cases digit? c with
    | none => rfl
    | some n => cases digits.all isHexDigit <;> rfl

end

/-! ## Channels -/

theorem eq_six_of_length {α : Type} {l : List α} (h : l.length = 6) : ∃ a b c d e f, l = [a, b, c, d, e, f] := by
  match l, h with
  | [a, b, c, d, e, f], _ => exact ⟨a, b, c, d, e, f, rfl⟩

theorem isSome_channels? (ns : List Nat) : (channels? ns).isSome = true ↔ ns.length = 3 ∨ ns.length = 6 := by
  unfold channels?
  split
  · simp
  · simp
  · rename_i hthree hsix
    refine iff_of_false (by simp) ?_
    rintro (h | h)
    · obtain ⟨r, g, b, rfl⟩ := List.length_eq_three.1 h
      exact hthree r g b rfl
    · obtain ⟨r, r', g, g', b, b', rfl⟩ := eq_six_of_length h
      exact hsix r r' g g' b b' rfl

/-- digits of which two make a channel tell all channels apart -/
theorem channels?_injective {ns ms : List Nat} (hns : ns.length = 6) (hms : ms.length = 6) (hn : ∀ n ∈ ns, n < 16)
    (hm : ∀ m ∈ ms, m < 16) (h : channels? ns = channels? ms) : ns = ms := by
  obtain ⟨r, r', g, g', b, b', rfl⟩ := eq_six_of_length hns
  obtain ⟨s, s', k, k', d, d', rfl⟩ := eq_six_of_length hms
  simp only [List.forall_mem_cons] at hn hm
  simp only [channels?, Option.some.injEq, Prod.mk.injEq] at h
  simp only [List.cons.injEq, and_true]
  omega

section
variable {value digits : Text}

theorem length_spelledOut (h : digits.length = 3 ∨ digits.length = 6) : (spelledOut digits).length = 6 := by
  unfold spelledOut doubled lower
  rw [List.length_map]
  split
  · rename_i hthree
    obtain ⟨a, b, c, rfl⟩ := List.length_eq_three.1 hthree
    rfl
  · rename_i hthree
    exact h.resolve_left hthree

theorem mem_doubled {c : Char} (h : c ∈ doubled digits) : c ∈ digits := by
  unfold doubled at h
  split at h
  · obtain ⟨d, hd, hcd⟩ := List.mem_flatMap.1 h
    have hsame : c = d := by simpa using hcd
    exact hsame ▸ hd
  · exact h

/-- **The digits written out are those of their values.** -/
theorem digit_of_mem_spelledOut (h : IsHex value digits) {c : Char} (hc : c ∈ spelledOut digits) :
    digitValue c < 16 ∧ Nat.digitChar (digitValue c) = c := by
  obtain ⟨d, hd, rfl⟩ := List.mem_map.1 hc
  obtain ⟨hbound, hchar, hlower⟩ := digit_facts (h.hex d (mem_doubled hd))
  rw [hlower]
  exact ⟨hbound, hchar⟩

theorem map_digitChar_spelledOut (h : IsHex value digits) :
    ((spelledOut digits).map digitValue).map Nat.digitChar = spelledOut digits := by
  rw [List.map_map]
  exact (List.map_congr_left fun c hc => (digit_of_mem_spelledOut h hc).2).trans (List.map_id _)

/-- three digits are the channels of the six they stand for, and case does not matter -/
theorem channels?_spelledOut (h : IsHex value digits) :
    channels? (digits.map digitValue) = channels? ((spelledOut digits).map digitValue) := by
  have hlower : (spelledOut digits).map digitValue = (doubled digits).map digitValue := by
    unfold spelledOut lower
    rw [List.map_map]
    exact List.map_congr_left fun c hc => (digit_facts (h.hex c (mem_doubled hc))).2.2
  rw [hlower, doubled]
  split
  · rename_i hthree
    obtain ⟨a, b, c, rfl⟩ := List.length_eq_three.1 hthree
    rfl
  · rfl

/-- **The channels of a colour** are those of its six digits. -/
theorem ofHex?_eq (h : IsHex value digits) : ofHex? value = channels? ((spelledOut digits).map digitValue) := by
  have hfirst : dropFirst? '#' (trim value) = some digits := dropFirst?_eq_some_iff.2 h.written
  have hdigits : digits.mapM digit? = some (digits.map digitValue) := by
    rw [mapM_digit?, if_pos (List.all_eq_true.2 h.hex)]
  unfold ofHex?
  simp only [hfirst, hdigits, Option.bind_eq_bind, Option.bind_some]
  exact channels?_spelledOut h

/-- **The values with channels** are the hexadecimal colours. -/
theorem isSome_ofHex?_iff : (ofHex? value).isSome = true ↔ ∃ digits, IsHex value digits := by
  constructor
  · intro h
    obtain ⟨p, hp⟩ := Option.isSome_iff_exists.1 h
    obtain ⟨digits, hfirst, hp⟩ := Option.bind_eq_some_iff.1 hp
    obtain ⟨ns, hns, hp⟩ := Option.bind_eq_some_iff.1 hp
    rw [mapM_digit?] at hns
    split at hns
    · rename_i hall
      obtain rfl := Option.some.inj hns
      have hsize := (isSome_channels? _).1 (Option.isSome_iff_exists.2 ⟨p, hp⟩)
      rw [List.length_map] at hsize
      exact ⟨digits, dropFirst?_eq_some_iff.1 hfirst, hsize, List.all_eq_true.1 hall⟩
    · cases hns
  · rintro ⟨digits, h⟩
    rw [ofHex?_eq h, isSome_channels?, List.length_map]
    exact Or.inr (length_spelledOut h.size)

/-- **Colours are equal if their six digits are.** -/
theorem ofHex?_eq_iff {value' digits' : Text} (h : IsHex value digits) (h' : IsHex value' digits') :
    ofHex? value = ofHex? value' ↔ spelledOut digits = spelledOut digits' := by
  rw [ofHex?_eq h, ofHex?_eq h']
  constructor
  · intro he
    -- three digits and six have different lists of values, so both are written out first
    have hvalues : (spelledOut digits).map digitValue = (spelledOut digits').map digitValue := by
      apply channels?_injective _ _ _ _ he
      · rw [List.length_map, length_spelledOut h.size]
      · rw [List.length_map, length_spelledOut h'.size]
      · exact List.forall_mem_map.2 fun c hc => (digit_of_mem_spelledOut h hc).1
      · exact List.forall_mem_map.2 fun c hc => (digit_of_mem_spelledOut h' hc).1
    calc spelledOut digits
      _ = ((spelledOut digits).map digitValue).map Nat.digitChar := (map_digitChar_spelledOut h).symm
      _ = ((spelledOut digits').map digitValue).map Nat.digitChar := by rw [hvalues]
      _ = spelledOut digits' := map_digitChar_spelledOut h'
  · intro he
    rw [he]

end

/-! ## The decimal form -/

theorem decimal_eq (n : Nat) : decimal n = Nat.toDigits 10 n := by
  show n.repr.toList = _
  rw [Nat.repr_eq_ofList_toDigits, String.toList_ofList]

theorem isWord_decimal (n : Nat) : IsWord (decimal n) := by
  rw [decimal_eq]
  refine ⟨Nat.toDigits_ne_nil, fun c hc => ?_⟩
  have hdigit := isDigit_iff.1 (Nat.isDigit_of_mem_toDigits (by decide) (by decide) hc)
  exact not_blank_of_nameChar (isNameChar_iff.2 (Or.inr (Or.inr (Or.inl hdigit))))

theorem decimal_injective : Function.Injective decimal := by
  intro m n h
  rw [decimal_eq, decimal_eq] at h
  calc m
    _ = Nat.ofDigitChars 10 (Nat.toDigits 10 m) 0 := (Nat.ofDigitChars_toDigits (by decide) (by decide)).symm
    _ = Nat.ofDigitChars 10 (Nat.toDigits 10 n) 0 := by rw [h]
    _ = n := Nat.ofDigitChars_toDigits (by decide) (by decide)

theorem triplet_eq (r g b : Nat) : triplet (r, g, b) = [' '].intercalate [decimal r, decimal g, decimal b] := by
  simp [triplet, List.intercalate]

theorem words_triplet (r g b : Nat) : words (triplet (r, g, b)) = [decimal r, decimal g, decimal b] := by
  rw [triplet_eq]
  exact words_intercalate (by simp [isWord_decimal])

theorem trim_triplet (p : Nat × Nat × Nat) : trim (triplet p) = triplet p := by
  obtain ⟨r, g, b⟩ := p
  rw [triplet_eq, trim_eq_self_iff]
  exact tight_intercalate _ (by simp [isWord_decimal, IsWord.nonempty, IsWord.tight])

/-- no blanks are around the decimal form of a value -/
theorem trim_of_hexToTriplet? {v x : Text} (h : hexToTriplet? v = some x) : trim x = x := by
  obtain ⟨p, -, rfl⟩ := Option.map_eq_some_iff.1 h
  exact trim_triplet p

/-- **The decimal form tells all colours apart.** -/
theorem triplet_injective : Function.Injective triplet := by
  rintro ⟨r, g, b⟩ ⟨r', g', b'⟩ h
  have hwords := congrArg words h
  rw [words_triplet, words_triplet] at hwords
  simpa [decimal_injective.eq_iff] using hwords

/-- **Values have one decimal form if they are spellings of one colour.** -/
theorem hexToTriplet?_eq_iff {v w digits digits' : Text} (h : IsHex v digits) (h' : IsHex w digits') :
    hexToTriplet? v = hexToTriplet? w ↔ spelledOut digits = spelledOut digits' := by
  rw [← ofHex?_eq_iff h h']
  exact (Option.map_injective triplet_injective).eq_iff

end Colour

/-! ## Colours in maps -/

namespace VariableMap

open Selector

/-- what rules declare for a variable, in order -/
def declared (config : ScopeConfig) (rules : List Rule) (key name : Text) : List Text :=
  rules.flatMap fun r =>
    if scopeKey? config.themeAttribute r.selector = some key then
      ((Declaration.ofBody r.body).filter fun d => Declaration.isCustom d.property && d.property = name).map (·.value)
    else []

/-- the values assigned to a variable are those declared, as they are kept -/
theorem map_assignments (config : ScopeConfig) (rules : List Rule) (key name : Text) :
    ((rules.flatMap (assignments config)).filter fun a => a.1 = key ∧ a.2.1 = name).map (·.2.2) =
      (declared config rules key name).map (keptValue config) := by
  induction rules with
  | nil => rfl
  | cons r rules ih =>
    unfold declared at ih ⊢
    rw [List.flatMap_cons, List.filter_append, List.map_append, ih, List.flatMap_cons, List.map_append]
    congr 1
    unfold assignments
    cases scopeKey? config.themeAttribute r.selector with
    | none => rfl
    | some k =>
      simp only [List.filter_map, List.filter_filter, List.map_map, Option.some.injEq]
      split
      · rename_i hk
        rw [List.map_map]
        refine congrArg (List.map _) (List.filter_congr fun d _ => ?_)
        simp [hk, Bool.and_comm]
      · -- a rule of another scope assigns nothing to the variable
        rename_i hk
        simp [hk]

/-- **A variable has the value that rules of its scope declare last**, as it is kept. -/
theorem get?_ofRules (config : ScopeConfig) (rules : List Rule) (key name : Text) :
    (ofRules config rules).get? key name = (declared config rules key name).getLast?.map (keptValue config) := by
  have hempty : empty.get? key name = none := rfl
  unfold ofRules
  rw [addRules_eq, get?_assign wellFormed_empty, hempty, Option.or_none, ← List.getLast?_map, map_assignments,
    List.getLast?_map]

end VariableMap

namespace VariableDiff

open VariableMap

/-- a property is among all that have changed if both maps have it, with values that differ within the blanks around
them -/
theorem mem_allChanged {r c : VariableMap} (hr : r.WellFormed) {key : Text} {v : ChangedVariable} :
    (key, v) ∈ (compute r c).allChanged ↔
      r.get? key v.name = some v.reference ∧ c.get? key v.name = some v.current ∧ trim v.reference ≠ trim v.current := by
  unfold allChanged
  rw [List.mem_flatMap]
  constructor
  · rintro ⟨s, hs, hv⟩
    obtain ⟨k, d, hd, rfl⟩ := (mem_scopes hr).1 hs
    obtain ⟨w, hw, he⟩ := List.mem_map.1 hv
    obtain ⟨rfl, rfl⟩ := Prod.mk.inj he
    rw [ScopeDiff.compute_scope]
    exact (ScopeDiff.mem_changed c hd (hr.each hd).1).1 hw
  · intro h
    obtain ⟨d, hd⟩ := mem_keys.1 (hr.mem_keys_iff.2 (List.ne_nil_of_mem (mem_names.2 ⟨_, h.1⟩)))
    refine ⟨_, (mem_scopes hr).2 ⟨key, d, hd, rfl⟩, List.mem_map.2 ⟨v, ?_, ?_⟩⟩
    · exact (ScopeDiff.mem_changed c hd (hr.each hd).1).2 h
    · rw [ScopeDiff.compute_scope]

end VariableDiff

namespace Colour

open VariableMap

/-- **Colours are kept in decimal**, if a variable has one and colours are kept so. -/
theorem exists_get?_of_hex {config : ScopeConfig} {rules : List Rule} {key name v digits : Text}
    (hconfig : config.hex = true) (hv : (declared config rules key name).getLast? = some v) (h : IsHex v digits) :
    ∃ x, (ofRules config rules).get? key name = some x ∧ hexToTriplet? v = some x := by
  have hcolour : (hexToTriplet? v).isSome = true := by
    rw [hexToTriplet?, Option.isSome_map, isSome_ofHex?_iff]
    exact ⟨digits, h⟩
  obtain ⟨x, hx⟩ := Option.isSome_iff_exists.1 hcolour
  refine ⟨x, ?_, hx⟩
  rw [get?_ofRules, hv, Option.map_some, keptValue, if_pos hconfig, hx, Option.getD_some]

/-- **Hexadecimal colours by their spellings.** A value is one if it has three or six digits behind a number sign. The
decimal forms of two are equal if their six digits are. So comparing maps that keep colours in decimal reports a variable
that both declare with a colour as changed if these are two colours. -/
theorem hex_spellings_exact :
    (∀ v, (hexToTriplet? v).isSome = true ↔ ∃ digits, IsHex v digits) ∧
    (∀ v w digits digits', IsHex v digits → IsHex w digits' →
      (hexToTriplet? v = hexToTriplet? w ↔ spelledOut digits = spelledOut digits')) ∧
    ∀ (config config' : ScopeConfig) (rules rules' : List Rule) (key name v w digits digits' : Text),
      config.hex = true → config'.hex = true →
      (declared config rules key name).getLast? = some v → (declared config' rules' key name).getLast? = some w →
      IsHex v digits → IsHex w digits' →
      let diff := VariableDiff.compute (ofRules config rules) (ofRules config' rules')
      ((∃ c, (key, c) ∈ diff.allChanged ∧ c.name = name) ↔ spelledOut digits ≠ spelledOut digits') := by
  refine ⟨?_, fun v w digits digits' => hexToTriplet?_eq_iff, ?_⟩
  · intro v
    rw [← isSome_ofHex?_iff, hexToTriplet?, Option.isSome_map]
  · intro config config' rules rules' key name v w digits digits' hconfig hconfig' hv hw h h' diff
    obtain ⟨x, hx, hkept⟩ := exists_get?_of_hex hconfig hv h
    obtain ⟨y, hy, hkept'⟩ := exists_get?_of_hex hconfig' hw h'
    have hwell : (ofRules config rules).WellFormed := wellFormed_addRules wellFormed_empty config rules
    -- both maps keep the decimal form, which no blanks surround
    have hcolours : trim x = trim y ↔ spelledOut digits = spelledOut digits' := by
      rw [trim_of_hexToTriplet? hkept, trim_of_hexToTriplet? hkept', ← hexToTriplet?_eq_iff h h', hkept, hkept',
        Option.some.injEq]
    rw [ne_eq, ← hcolours]
    constructor
    · rintro ⟨c, hc, rfl⟩
      obtain ⟨href, hcur, hne⟩ := (VariableDiff.mem_allChanged hwell).1 hc
      obtain rfl := Option.some.inj (hx.symm.trans href)
      obtain rfl := Option.some.inj (hy.symm.trans hcur)
      exact hne
    · intro hne
      exact ⟨⟨name, x, y⟩, (VariableDiff.mem_allChanged hwell).2 ⟨hx, hy, hne⟩, rfl⟩

/-- a colour that another one comes before, the same colour in full, and a colour next to it -/
def shortSheet : Stylesheet := .parse {} ⟨0⟩ ":root\x7b --a: #fff; --a: #Abc \x7d".toList

def longSheet : Stylesheet := .parse {} ⟨1⟩ ":root\x7b--a:#AABBCC\x7d".toList

def nextSheet : Stylesheet := .parse {} ⟨2⟩ ":root\x7b--a:#aabbcd\x7d".toList

/-- colours are kept in decimal -/
def inDecimal : ScopeConfig := { hex := true }

theorem hex_spellings_exact_cased :
    let short := ofRules inDecimal shortSheet.rules
    hexToTriplet? "\t#Abc ".toList = some "170 187 204".toList ∧
    hexToTriplet? "#aabbcd".toList ≠ hexToTriplet? "#Abc".toList ∧
    (¬∃ c, (":root".toList, c) ∈ (VariableDiff.compute short (ofRules inDecimal longSheet.rules)).allChanged ∧
      c.name = "--a".toList) ∧
    ∃ c, (":root".toList, c) ∈ (VariableDiff.compute short (ofRules inDecimal nextSheet.rules)).allChanged ∧
      c.name = "--a".toList := by
  intro short
  have hshort : IsHex "#Abc".toList "Abc".toList := ⟨by decide, by decide, List.all_eq_true.1 (by decide)⟩
  have hlong : IsHex "#AABBCC".toList "AABBCC".toList := ⟨by decide, by decide, List.all_eq_true.1 (by decide)⟩
  have hnext : IsHex "#aabbcd".toList "aabbcd".toList := ⟨by decide, by decide, List.all_eq_true.1 (by decide)⟩
  have hofShort : (declared inDecimal shortSheet.rules ":root".toList "--a".toList).getLast? = some "#Abc".toList := by
    decide +kernel
  have hofLong : (declared inDecimal longSheet.rules ":root".toList "--a".toList).getLast? = some "#AABBCC".toList := by
    decide +kernel
  have hofNext : (declared inDecimal nextSheet.rules ":root".toList "--a".toList).getLast? = some "#aabbcd".toList := by
    decide +kernel
  obtain ⟨-, hequal, hchanged⟩ := hex_spellings_exact
  refine ⟨by decide +kernel, ?_, ?_, ?_⟩
  · rw [Ne, hequal _ _ _ _ hnext hshort]
    decide
  · intro h
    exact (hchanged _ _ _ _ _ _ _ _ _ _ rfl rfl hofShort hofLong hshort hlong).1 h (by decide)
  · exact (hchanged _ _ _ _ _ _ _ _ _ _ rfl rfl hofShort hofNext hshort hnext).2 (by decide)

end Colour

end StyleCheck
