import CircuitForms.Vertex.Basic

/-! # Listings of circuits of vertices -/

namespace CircuitForms

structure VertexListing where
  vertices : List Descriptor
  edges : List Link := []
  deriving DecidableEq

/-- Whether two listings have like vertices and the same links. A number that is none keeps a
listing from being like itself. -/
def VertexListing.alike (l m : VertexListing) : Bool :=
  l.vertices.isEqv m.vertices Descriptor.alike && l.edges == m.edges

namespace VertexCircuit

/-- A link between the vertices that two numbers of any size stand for. -/
def join (l : Link) : Edit Unit :=
  addLink { l with source := nodeNumber l.source, target := nodeNumber l.target }

/-- The edits a listing stands for. -/
def enter (l : VertexListing) : Edit Unit := do
  l.vertices.forM fun d => discard (addVertex d)
  l.edges.forM join

def ofListing (l : VertexListing) : Except CircuitFault VertexCircuit :=
  after (enter l) {}

def toListing (c : VertexCircuit) : VertexListing :=
  ⟨c.vertices.toList, c.links.toList⟩

end VertexCircuit

end CircuitForms
