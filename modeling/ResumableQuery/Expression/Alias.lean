import ResumableQuery.Record

/-!
# Aliases

An alias names the current record of a stream inside of an expression.  Bindings say which record
each alias stands for, and an alias map renames aliases.
-/

namespace ResumableQuery

/-- The name of a record that an expression refers to. -/
abbrev Alias := String

/-- A renaming of aliases, in order of the renamed ones. -/
abbrev AliasMap := List (Alias × Alias)

/-- An alias that is not among some others, being longer than any of them. -/
def Alias.fresh (used : List Alias) : Alias := String.join used ++ "_"

namespace AliasMap

/-- The renaming that also takes `source` to `target`. -/
def add (m : AliasMap) (source target : Alias) : AliasMap := Ordered.insert source target m

/-- The renaming of some pairs, a later one replacing an earlier one of the same source. -/
def ofPairs (pairs : List (Alias × Alias)) : AliasMap := Ordered.ofList pairs

/-- The renaming that takes each of some aliases to itself. -/
def identities (names : List Alias) : AliasMap := ofPairs (names.map fun a => (a, a))

/-- What an alias is renamed to, if it is renamed. -/
def target? (m : AliasMap) (source : Alias) : Option Alias := Ordered.find? source m

/-- What an alias is renamed to; an alias that is not renamed stays. -/
def apply (m : AliasMap) (source : Alias) : Alias := (m.target? source).getD source

/-- The renamed aliases in order. -/
def sources (m : AliasMap) : List Alias := m.map (·.1)

end AliasMap

/-- The records that aliases stand for. -/
abbrev Bindings := List (Alias × Record)

namespace Bindings

/-- The bindings in which `name` stands for `r`. -/
def bind (b : Bindings) (name : Alias) (r : Record) : Bindings := Ordered.insert name r b

/-- The record that an alias stands for. -/
def record? (b : Bindings) (name : Alias) : Option Record := Ordered.find? name b

/-- The bindings of some pairs, a later one replacing an earlier one of the same alias. -/
def ofPairs (pairs : List (Alias × Record)) : Bindings := Ordered.ofList pairs

end Bindings

end ResumableQuery
