import Std.Data.ExtTreeMap.Lemmas
import TripleStore.Uri

/-!
# Datasets

A dataset is what a data file says: statements, in order and with repetitions,
and the namespaces its prefixes stand for.  A namespace is kept without the `#`
it is usually declared with, as a term is split at its last `#`.

`lookupNamespace?` is the one rule by which a prefix finds its namespace, in data
files and in queries: a declaration first, then what needs none.
-/

namespace TripleStore

/-- The namespace of each declared prefix. -/
abbrev Namespaces := Std.ExtTreeMap String String compare

/-- The namespace of a prefix. -/
def lookupNamespace? (declared : Namespaces) (name : String) : Option String :=
  match declared[name]? with
  | some ns => some ns
  | none => Uri.wellKnownNamespace? name

/-- A term with its prefix replaced by the namespace it stands for, if it stands for one. -/
def Uri.expand (declared : Namespaces) (u : Uri) : Uri :=
  match lookupNamespace? declared u.ns with
  | some ns => ⟨ns, u.value⟩
  | none => u

/-- Statements and the namespaces of their prefixes. -/
@[ext]
structure Dataset where
  /-- The statements, in the order of the file. -/
  triples : List Triple
  /-- The declared prefixes. -/
  namespaces : Namespaces
deriving DecidableEq

namespace Dataset

/-- A dataset that says nothing. -/
def empty : Dataset := ⟨[], ∅⟩

instance : Inhabited Dataset := ⟨empty⟩

/-- A dataset of statements, without prefixes. -/
def ofTriples (triples : List Triple) : Dataset := ⟨triples, ∅⟩

/-- The number of statements. -/
def size (d : Dataset) : Nat := d.triples.length

/-- A namespace without the `#` it ends in. -/
def trimNamespace (ns : List Char) : List Char :=
  if ns.getLast? = some '#' then ns.dropLast else ns

/-- A dataset with one more prefix.  A later declaration of a prefix replaces an earlier one. -/
def addNamespace (d : Dataset) (name ns : String) : Dataset :=
  { d with namespaces := d.namespaces.insert name (String.ofList (trimNamespace ns.toList)) }

/-- A dataset with one more statement. -/
def addTriple (d : Dataset) (t : Triple) : Dataset := { d with triples := d.triples ++ [t] }

/-- A dataset with all that another one says.  A prefix declared here keeps its namespace. -/
def extend (d other : Dataset) : Dataset where
  triples := d.triples ++ other.triples
  namespaces := other.namespaces.foldl (fun m name ns => m.insertIfNew name ns) d.namespaces

end Dataset

end TripleStore
