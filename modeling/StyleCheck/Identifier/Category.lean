/-
Categories of identifiers and values kept per category.
-/
namespace StyleCheck

/-- what an identifier names -/
inductive Category where
  /-- a class in a selector -/
  | className
  /-- an id in a selector -/
  | id
  /-- a custom property -/
  | property
  /-- a definition of keyframes -/
  | keyframe
  /-- a use of an animation -/
  | animation
  deriving DecidableEq, Repr

namespace Category

/-- every category in report order -/
def all : List Category := [.className, .id, .property, .keyframe, .animation]

/-- name in reports -/
def name : Category → String
  | className => "class"
  | id => "id"
  | property => "variable"
  | keyframe => "keyframe"
  | animation => "animation-ref"

theorem mem_all (c : Category) : c ∈ all := by cases c <;> decide

end Category

/-- one value for each category -/
structure ByCategory (α : Type) where
  classNames : α
  ids : α
  properties : α
  keyframes : α
  animations : α
  deriving DecidableEq, Repr

namespace ByCategory

variable {α β : Type}

/-- the same value for each category -/
def const (a : α) : ByCategory α := ⟨a, a, a, a, a⟩

def get (v : ByCategory α) : Category → α
  | .className => v.classNames
  | .id => v.ids
  | .property => v.properties
  | .keyframe => v.keyframes
  | .animation => v.animations

/-- change the value of one category -/
def modify (v : ByCategory α) (f : α → α) : Category → ByCategory α
  | .className => { v with classNames := f v.classNames }
  | .id => { v with ids := f v.ids }
  | .property => { v with properties := f v.properties }
  | .keyframe => { v with keyframes := f v.keyframes }
  | .animation => { v with animations := f v.animations }

/-- combine two values category by category -/
def zipWith (f : α → β → α) (v : ByCategory α) (w : ByCategory β) : ByCategory α where
  classNames := f v.classNames w.classNames
  ids := f v.ids w.ids
  properties := f v.properties w.properties
  keyframes := f v.keyframes w.keyframes
  animations := f v.animations w.animations

@[simp] theorem get_const (a : α) (c : Category) : (const a).get c = a := by cases c <;> rfl

theorem get_modify (v : ByCategory α) (f : α → α) (c d : Category) :
    (v.modify f c).get d = if c = d then f (v.get d) else v.get d := by
  cases c <;> cases d <;> rfl

@[simp] theorem get_zipWith (f : α → β → α) (v : ByCategory α) (w : ByCategory β) (c : Category) :
    (zipWith f v w).get c = f (v.get c) (w.get c) := by cases c <;> rfl

end ByCategory

/-- a selection of categories -/
abbrev CategorySet := ByCategory Bool

namespace CategorySet

def all : CategorySet := ByCategory.const true

/-- the selection of a list of categories -/
def ofList (cs : List Category) : CategorySet where
  classNames := cs.contains .className
  ids := cs.contains .id
  properties := cs.contains .property
  keyframes := cs.contains .keyframe
  animations := cs.contains .animation

/-- the selection whose members are the set bits of a number, classes lowest; higher bits mean nothing -/
def ofBits (n : Nat) : CategorySet where
  classNames := n.testBit 0
  ids := n.testBit 1
  properties := n.testBit 2
  keyframes := n.testBit 3
  animations := n.testBit 4

/-- whether every set bit of a number is a category -/
def isBits (n : Nat) : Bool := n < 32

/-- selected categories in report order -/
def categories (s : CategorySet) : List Category := Category.all.filter s.get

end CategorySet

end StyleCheck
