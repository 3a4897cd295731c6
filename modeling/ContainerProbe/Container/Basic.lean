import ContainerProbe.Container.Kind
import ContainerProbe.Source.Stream
import ContainerProbe.EntryPath.Basic

/-!
# Containers as data

Identification needs three things of a container: its format, the name of its file (for
templated entry paths) and, for each entry in order, its name and what opening it gives:
either the bytes a reader would deliver (with the failure that ends them, if any), or the
reason it cannot be opened. A container is that list.

Opening is addressed by position, with a label that names the entry in reports; a position
past the last entry is an entry that does not exist.
-/

namespace ContainerProbe

/-- Why an entry cannot be opened. -/
inductive OpenFailure where
  /-- The container holds no such entry. -/
  | notFound
  /-- The entry exists but cannot be read; the detail is the reader's text. -/
  | unreadable (detail : String)
  deriving DecidableEq, Repr

/-- The fault reported for an entry, under the label it was asked for by. -/
def OpenFailure.fault (label : String) : OpenFailure → Fault
  | .notFound => .entryNotFound label
  | .unreadable detail => .entryRead label detail

/-- One entry of a container. -/
structure Entry where
  /-- The entry's name, as paths are matched against. -/
  name : String
  /-- What opening the entry gives. -/
  content : Except OpenFailure Feed

/-- A container: its format, the name of its file, and its entries in order. -/
structure Container where
  /-- The format. -/
  kind : ContainerKind
  /-- The name of the container's file, when known. -/
  name : Option String := none
  /-- The entries, in order. -/
  entries : List Entry

namespace Container

/-- A container held in memory: entry names lose their trailing slashes. -/
def inMemory (kind : ContainerKind) (name : Option String)
    (entries : List (String × Except OpenFailure Feed)) : Container :=
  { kind, name, entries := entries.map fun (n, c) => ⟨trimEntryName n, c⟩ }

/-- Opens the entry at a position, reporting failures under the given label. -/
def openAt (c : Container) (index : Nat) (label : String) : Except Fault Feed :=
  match c.entries[index]? with
  | some e => e.content.mapError (OpenFailure.fault label)
  | none => .error (.entryNotFound label)

end Container

end ContainerProbe
