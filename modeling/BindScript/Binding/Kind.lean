/-
**Binding kinds.**

An element of a page has bindings of seven kinds.  The body of a binding is one expression, or, for
the kinds that set several things at once, an expression for each of several names.
-/

import BindScript.Table

namespace BindScript

namespace Binding

inductive Kind where
  | visible
  | enabled
  | css
  | style
  | options
  | value
  | click
  deriving DecidableEq

namespace Kind

def all : List Kind := [visible, enabled, css, style, options, value, click]

def name : Kind → String
  | visible => "visible"
  | enabled => "enabled"
  | css => "css"
  | style => "style"
  | options => "options"
  | value => "value"
  | click => "click"

def ofName? (name : String) : Option Kind := all.find? fun k => k.name == name

/-- Whether the body has an expression for each of several names. -/
def hasEntries : Kind → Bool
  | css | style | options => true
  | visible | enabled | value | click => false

end Kind

/-- The body of a binding over expressions of type `α`. -/
inductive Body (α : Type) where
  | expr (e : α)
  | entries (es : Table α)

/-- A body with its expressions changed. -/
def Body.map {α β : Type} (f : α → β) : Body α → Body β
  | .expr e => .expr (f e)
  | .entries es => .entries (es.map fun (name, e) => (name, f e))

end Binding

/-- The bindings of an element over expressions of type `α`, in the order of their declaration. -/
abbrev Bindings (α : Type) := List (Binding.Kind × Binding.Body α)

namespace Bindings

def find? {α : Type} (bindings : Bindings α) (kind : Binding.Kind) : Option (Binding.Body α) :=
  bindings.lookup kind

def kinds {α : Type} (bindings : Bindings α) : List Binding.Kind := bindings.map (·.1)

/-- Bindings with their expressions changed. -/
def map {α β : Type} (f : α → β) (bindings : Bindings α) : Bindings β :=
  List.map (fun (kind, body) => (kind, body.map f)) bindings

end Bindings

end BindScript
