import Jianpu.Key
import Jianpu.Pitch
import Jianpu.Score.Modifier

/-!
# Scores

A score is a graph of nodes: notes, rests and changes of tempo, key or time. A node has a successor
in its voice and a sibling, the first node of a further branch that starts with it. Where branches
end together they share a successor, whose `join` counts the predecessors still to come. The
modifiers that apply to a node form a chain, which the notes of a group share above the group's
anchor.

Nodes and modifiers are referred to by number, in the order in which they were added.
-/

namespace Jianpu

/-- What stands at a node. The pitch of a note can be out of range until modifiers are applied. -/
inductive Content where
  | note (pitch : Int32) (velocity : Nat)
  | rest
  | tempo (microseconds : Nat)
  | key (key : Key)
  | time (numerator denominator : UInt8)
  deriving DecidableEq, Repr, Inhabited

namespace Content

/-- Whether the content takes no time. -/
def isMeta : Content → Bool
  | note .. | rest => false
  | _ => true

end Content

/-- Whether a node waits for predecessors, of which there are fewer than nodes, and the latest tick
at which one of them ended. -/
inductive Join where
  | pending (remaining readyAt : Nat)
  | armed
  deriving DecidableEq, Repr, Inhabited

/-- A node of a score. -/
structure Node where
  content : Content
  span : Span
  next : Option Nat := none
  sibling : Option Nat := none
  /-- The innermost modifier that applies. -/
  modifier : Option Nat := none
  join : Join := .pending 1 0
  deriving DecidableEq, Repr, Inhabited

/-- A note's pitch and a note's or rest's duration with all modifiers applied. -/
structure Resolved where
  pitch : Nat
  duration : Nat
  deriving DecidableEq, Repr, Inhabited

/-- The nodes of a track and the modifiers that they refer to. -/
structure Score where
  modifiers : Array Modifier := #[]
  nodes : Array Node := #[]
  deriving Repr, Inhabited

namespace Score

/-- Adds a modifier that no chain holds yet. -/
def addModifier (g : Score) (kind : Modifier.Kind) (span : Span) : Nat × Score :=
  (g.modifiers.size, { g with modifiers := g.modifiers.push { kind, span } })

/-- Adds a node that no strand holds yet. -/
def addNode (g : Score) (content : Content) (span : Span) : Nat × Score :=
  (g.nodes.size, { g with nodes := g.nodes.push { content, span } })

/-- The score with one node changed. -/
def modifyNode (g : Score) (id : Nat) (f : Node → Node) : Score :=
  { g with nodes := g.nodes.modify id f }

/-- The score with one modifier changed. -/
def modifyModifier (g : Score) (id : Nat) (f : Modifier → Modifier) : Score :=
  { g with modifiers := g.modifiers.modify id f }

/-- Gives a node a successor. -/
def setNext (g : Score) (id next : Nat) : Score := g.modifyNode id ({ · with next := some next })

/-- Gives a node a sibling. -/
def setSibling (g : Score) (id sibling : Nat) : Score :=
  g.modifyNode id ({ · with sibling := some sibling })

/-- Gives a node its innermost modifier. -/
def setModifier (g : Score) (id modifier : Nat) : Score :=
  g.modifyNode id ({ · with modifier := some modifier })

/-- Says what a node waits for. -/
def setJoin (g : Score) (id : Nat) (join : Join) : Score := g.modifyNode id ({ · with join })

/-- Puts a modifier around another one. -/
def setParent (g : Score) (id parent : Nat) : Score :=
  g.modifyModifier id ({ · with parent := some parent })

/-- The chain of modifiers from one outwards, at most `fuel` of them. -/
def chain (g : Score) : Nat → Option Nat → List Modifier
  | 0, _ | _, none => []
  | fuel + 1, some id =>
    match g.modifiers[id]? with
    | none => []
    | some m => m :: chain g fuel m.parent

/-- The modifiers that apply to a node, the innermost first. A chain holds no modifier twice, so it
is no longer than there are modifiers. -/
def modifiersOf (g : Score) (n : Node) : List Modifier := g.chain g.modifiers.size n.modifier

/-- The pitch and duration of a node where a plain note takes `division` ticks. -/
def resolve (g : Score) (n : Node) (division : Nat) : Resolved :=
  let kinds := (g.modifiersOf n).map (·.kind)
  let pitch := match n.content with
    | .note pitch _ => Pitch.clamp (kinds.foldl (fun p k => p + k.transpose) pitch)
    | _ => 0
  ⟨pitch, Duration.under division kinds⟩

/-- Notes that a predecessor of a node ended at a tick. The last one arms the node, and gives the
tick at which it is ready. -/
def arrive (g : Score) (id tick : Nat) : Option Nat × Score :=
  match g.nodes[id]?.map Node.join with
  | some (.pending remaining readyAt) =>
    let ready := max readyAt tick
    if remaining ≤ 1 then (some ready, g.setJoin id .armed)
    else (none, g.setJoin id (.pending (remaining - 1) ready))
  | _ => (none, g)

end Score

end Jianpu
