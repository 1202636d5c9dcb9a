/-
Custom properties by scope.

Only rules whose selector is exactly a scope contribute: the global scope or a theme. Scopes and the properties in them
are kept in ascending order, and a later value of a property replaces an earlier one.
-/
import StyleCheck.Rule
import StyleCheck.Declaration
import StyleCheck.Selector.Theme
import StyleCheck.Variable.Colour

namespace StyleCheck

/-- values by name, names in ascending order -/
structure Dictionary (α : Type) where
  entries : List (Text × α)
  deriving DecidableEq, Repr

namespace Dictionary

variable {α : Type}

def empty : Dictionary α := ⟨[]⟩

/-- set `name` to `f` of its present value -/
def update (name : Text) (f : Option α → α) : List (Text × α) → List (Text × α)
  | [] => [(name, f none)]
  | e :: es =>
    if name < e.1 then (name, f none) :: e :: es
    else if name = e.1 then (name, f (some e.2)) :: es
    else e :: update name f es

def alter (d : Dictionary α) (name : Text) (f : Option α → α) : Dictionary α := ⟨update name f d.entries⟩

def insert (d : Dictionary α) (name : Text) (value : α) : Dictionary α := d.alter name fun _ => value

def get? (d : Dictionary α) (name : Text) : Option α := (d.entries.find? (·.1 = name)).map (·.2)

def keys (d : Dictionary α) : List Text := d.entries.map (·.1)

def values (d : Dictionary α) : List α := d.entries.map (·.2)

def contains (d : Dictionary α) (name : Text) : Bool := d.entries.any (·.1 = name)

end Dictionary

/-- how scopes are found and values kept -/
structure ScopeConfig where
  themeAttribute : Text := Selector.defaultThemeAttribute
  /-- keep hexadecimal colours as decimal triplets -/
  hex : Bool := false
  deriving DecidableEq, Repr

/-- values by scope and property -/
structure VariableMap where
  scopes : Dictionary (Dictionary Text)
  deriving DecidableEq, Repr

namespace VariableMap

def empty : VariableMap := ⟨.empty⟩

/-- set one property, opening its scope where there is none -/
def insert (m : VariableMap) (scope name value : Text) : VariableMap :=
  ⟨m.scopes.alter scope fun d => (d.getD .empty).insert name value⟩

/-- the value of a custom property as it is kept -/
def keptValue (config : ScopeConfig) (value : Text) : Text :=
  if config.hex then (Colour.hexToTriplet? value).getD value else value

/-- the custom properties in one rule, with their scope -/
def assignments (config : ScopeConfig) (r : Rule) : List (Text × Text × Text) :=
  match Selector.scopeKey? config.themeAttribute r.selector with
  | none => []
  | some key => ((Declaration.ofBody r.body).filter fun d => Declaration.isCustom d.property).map fun d =>
      (key, d.property, keptValue config d.value)

/-- add the custom properties of rules in their order -/
def addRules (config : ScopeConfig) (m : VariableMap) (rules : List Rule) : VariableMap :=
  (rules.flatMap (assignments config)).foldl (fun m (scope, name, value) => m.insert scope name value) m

/-- the custom properties of rules -/
def ofRules (config : ScopeConfig) (rules : List Rule) : VariableMap := addRules config empty rules

def scope? (m : VariableMap) (key : Text) : Option (Dictionary Text) := m.scopes.get? key

def get? (m : VariableMap) (scope name : Text) : Option Text := (m.scope? scope).bind (·.get? name)

def keys (m : VariableMap) : List Text := m.scopes.keys

/-- names of the theme scopes -/
def themeNames (m : VariableMap) : List Text := m.keys.filterMap Selector.keyTheme?

/-- properties over all scopes -/
def count (m : VariableMap) : Nat := (m.scopes.values.flatMap (·.entries)).length

def isEmpty (m : VariableMap) : Bool := m.scopes.entries.isEmpty

end VariableMap

end StyleCheck
