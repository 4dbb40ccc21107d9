import CircuitForms.Circuit.Operation
import CircuitForms.Json.Basic

/-! # What a conversion gives up

A conversion to vertices reports what it lost, node by node.
-/

namespace CircuitForms

inductive Loss where
  | condition (node : Nat) (name : String) (c : Condition)
  /-- An operation kept as a box. -/
  | meaning (node : Nat) (name : String)
  /-- The parameters of a boxed operation. -/
  | params (node : Nat) (name : String) (count : Nat)
  deriving DecidableEq, Repr

namespace Loss

def isMeaning : Loss → Bool
  | meaning .. => true
  | _ => false

def isCondition : Loss → Bool
  | condition .. => true
  | _ => false

def boxedCount (losses : List Loss) : Nat :=
  losses.countP isMeaning

def droppedCount (losses : List Loss) : Nat :=
  losses.countP isCondition

def text : Loss → String
  | condition node name c =>
    s!"node {node}: dropped condition " ++ c.register ++ s!"=={c.value} on '" ++ name ++ "'"
  | meaning node name => s!"node {node}: '" ++ name ++ "' boxed as an opaque operation"
  | params node name count =>
    s!"node {node}: {count} parameter(s) of boxed '" ++ name ++ "' dropped"

/-- What is said when a loss is met. -/
def warning : Loss → String
  | condition node name c =>
    "Dropping condition " ++ c.register ++ s!"=={c.value} from '" ++ name ++ s!"' at node {node}"
  | meaning node name => "Boxing unknown operation '" ++ name ++ s!"' at node {node}"
  | params node name count =>
    s!"Dropping {count} parameters of boxed '" ++ name ++ s!"' at node {node}"

def toJson : Loss → Json
  | condition node name c =>
    .object [("event", .string "dropped_condition"), ("node", .nat node), ("name", .string name),
      ("register", .string c.register), ("value", .nat c.value)]
  | meaning node name =>
    .object [("event", .string "boxed_operation"), ("node", .nat node), ("name", .string name)]
  | params node name count =>
    .object [("event", .string "dropped_box_params"), ("node", .nat node), ("name", .string name),
      ("count", .nat count)]

end Loss

end CircuitForms
