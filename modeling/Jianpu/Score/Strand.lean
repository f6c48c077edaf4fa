import Jianpu.Score.Graph

/-!
# Strands

A strand is a sequence of a score under construction. It starts at `head` and, through the chain of
siblings up to `lastSibling`, at every branch that starts with it. It ends at `tail` and at the ends
of the other branches, `openTails`. What is put after it becomes the successor of all of these. All
its nodes have `top`, the anchor of the sequence, above their own modifiers. An empty sequence is no
strand.

A slot is where the suffixes of the last note or group go: the first one next to it, each further
one around those before, and all of them inside the anchor of the sequence.
-/

namespace Jianpu

/-- A non-empty sequence under construction. -/
structure Strand where
  head : Nat
  tail : Nat
  lastSibling : Nat
  top : Nat
  openTails : List Nat := []
  deriving DecidableEq, Repr, Inhabited

/-- Where suffixes go: between a note and the anchor of its sequence, or between a group's anchor
and that of the sequence around it. -/
inductive Slot where
  | note (node top : Nat) (last : Option Nat)
  | group (top last : Nat)
  deriving DecidableEq, Repr, Inhabited

namespace Slot

/-- Puts a modifier around those in the slot. -/
def insert (s : Slot) (g : Score) (m : Nat) : Slot × Score :=
  match s with
  | .note node top none => (.note node top (some m), (g.setParent m top).setModifier node m)
  | .note node top (some last) => (.note node top (some m), (g.setParent m top).setParent last m)
  | .group top last => (.group top m, (g.setParent m top).setParent last m)

end Slot

namespace Strand

/-- Makes a node the successor of every end of a strand. -/
def connect (s : Strand) (g : Score) (node : Nat) : Score :=
  let g := s.openTails.foldl (·.setNext · node) (g.setNext s.tail node)
  g.setJoin node (.pending (s.openTails.length + 1) 0)

/-- Puts a node at the end. -/
def append (s : Option Strand) (g : Score) (node : Nat) : Strand × Slot × Score :=
  match s with
  | some s =>
    let g := (s.connect g node).setModifier node s.top
    ({ s with tail := node, openTails := [] }, .note node s.top none, g)
  | none =>
    let (top, g) := g.addModifier .anchor ((g.nodes[node]?.map (·.span)).getD {})
    (⟨node, node, node, top, []⟩, .note node top none, g.setModifier node top)

/-- Adds a branch that starts together with the strand. -/
def branch (s other : Option Strand) (g : Score) : Option Strand × Score :=
  match s, other with
  | s, none => (s, g)
  | none, some o => (some o, g)
  | some s, some o =>
    (some { s with
        lastSibling := o.lastSibling
        openTails := s.openTails ++ o.tail :: o.openTails },
      (g.setSibling s.lastSibling o.head).setParent o.top s.top)

/-- Puts a group at the end. An empty group has no slot. -/
def concat (s other : Option Strand) (g : Score) : Option Strand × Option Slot × Score :=
  match s, other with
  | s, none => (s, none, g)
  | some s, some o =>
    let g := (s.connect g o.head).setParent o.top s.top
    (some { s with tail := o.tail, openTails := o.openTails }, some (.group s.top o.top), g)
  | none, some o =>
    let (top, g) := g.addModifier .anchor ((g.nodes[o.head]?.map (·.span)).getD {})
    (some { o with top }, some (.group top o.top), g.setParent o.top top)

end Strand

end Jianpu
