/-
**Tables in insertion order.**

A table is a list of names with values, looked up from the front by `List.lookup`.  Putting a value
under a name that is there replaces the value and keeps the place; a new name goes to the end.
-/

namespace BindScript

/-- Values under names, in the order in which the names came. -/
abbrev Table (α : Type) := List (String × α)

namespace Table

/-- Sets the value of a name: in its place if it is there, at the end if not. -/
def put {α : Type} (name : String) (value : α) : Table α → Table α
  | [] => [(name, value)]
  | (n, v) :: rest => if n = name then (n, value) :: rest else (n, v) :: put name value rest

/-- The table built by putting the entries one after the other. -/
def ofList {α : Type} (entries : List (String × α)) : Table α :=
  entries.foldl (fun table (name, value) => put name value table) []

/-- Changes the first value under a name; a table without the name stays as it is. -/
def replace {α : Type} (name : String) (change : α → α) : Table α → Table α
  | [] => []
  | (n, v) :: rest =>
    if n = name then (n, change v) :: rest else (n, v) :: replace name change rest

end Table

end BindScript
