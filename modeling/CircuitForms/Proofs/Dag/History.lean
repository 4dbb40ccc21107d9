import CircuitForms.Proofs.Dag.Sound

/-! # Histories of circuits of wires

A history is the circuit after some calls, each of which succeeds or fails, together
with the operations that were appended. However the calls went, the segments of
every wire are the steps of one path: from its start through the operations that
name it, in the order of their appending, to its end.
-/

namespace CircuitForms.Dag

/-- A call on a circuit of wires. -/
inductive Call where
  | addQreg (r : Register)
  | addCreg (r : Register)
  | growCreg (name : String) (size : Nat)
  | declare (s : Signature)
  | append (op : Operation)

/-- A circuit and what the successful appends among its calls added: each operation with the node
it was given, in order. -/
structure History where
  dag : Dag := {}
  applied : List (Nat × Operation) := []

namespace History

def call (h : History) : Call → History
  | .addQreg r => { h with dag := (edit (addQreg r) h.dag).2 }
  | .addCreg r => { h with dag := (edit (addCreg r) h.dag).2 }
  | .growCreg name size => { h with dag := (edit (growCreg name size) h.dag).2 }
  | .declare s => { h with dag := (edit (declare s) h.dag).2 }
  | .append op =>
    match edit (append op) h.dag with
    | (.ok v, d) => ⟨d, h.applied ++ [(v, op)]⟩
    | (.error _, d) => { h with dag := d }

/-- The history of some calls on the empty circuit. -/
def of (calls : List Call) : History :=
  calls.foldl call {}

/-- A circuit is sound and holds exactly the operations of its history. -/
structure Sound (h : History) : Prop where
  dag : h.dag.Sound
  operations : h.dag.operations = h.applied

theorem Sound.call {h : History} (hs : h.Sound) (c : Call) : (h.call c).Sound := by
  cases c with
  | addQreg r =>
    obtain ⟨hd, hops⟩ := hs.dag.addRegister .quantum r
    exact ⟨hd, hops.trans hs.operations⟩
  | addCreg r =>
    obtain ⟨hd, hops⟩ := hs.dag.addRegister .classical r
    exact ⟨hd, hops.trans hs.operations⟩
  | growCreg name size =>
    exact ⟨(hs.dag.growCreg name size).1, (hs.dag.growCreg name size).2.trans hs.operations⟩
  | declare s => exact ⟨(hs.dag.declare s).1, (hs.dag.declare s).2.trans hs.operations⟩
  | append op =>
    rcases hs.dag.append op with ⟨f, -, he⟩ | ⟨-, d, he, hd, hops, -⟩
    · rw [History.call, he]
      exact hs
    · rw [History.call, he]
      exact ⟨hd, by rw [hops, hs.operations]⟩

theorem sound_of (calls : List Call) : (of calls).Sound := by
  have hrun : ∀ (calls : List Call) (h : History),
      h.Sound → (calls.foldl History.call h).Sound := by
    intro calls
    induction calls with
    | nil => exact fun h hs => hs
    | cons c calls ih => exact fun h hs => ih _ (hs.call c)
  exact hrun calls {} ⟨Dag.Sound.empty, rfl⟩

/-- Every wire is a path through the operations that name it. -/
structure WirePaths (h : History) : Prop where
  /-- A declared bit has one start and no other wire has any. -/
  inputs : ∀ w, h.dag.graph.nodes.toList.count (.input w) = if h.dag.hasWire w then 1 else 0
  /-- A declared bit has one end and no other wire has any. -/
  outputs : ∀ w, h.dag.graph.nodes.toList.count (.output w) = if h.dag.hasWire w then 1 else 0
  /-- Every segment is on a declared wire. -/
  labels : ∀ a ∈ h.dag.graph.arcs, h.dag.hasWire a.label
  /-- The tables have the declared wires and no others. -/
  recorded : ∀ t ∈ [h.dag.inputs, h.dag.outputs, h.dag.fronts], ∀ w,
    (t.get? w).isSome = h.dag.hasWire w
  /-- The segments of a wire are the steps of its path, and its front is the last node before its
  end. -/
  path : ∀ w, h.dag.hasWire w → ∃ s e,
    h.dag.inputs.get? w = some s ∧ h.dag.node? s = some (.input w) ∧
    h.dag.outputs.get? w = some e ∧ h.dag.node? e = some (.output w) ∧
    (h.dag.graph.segments w).Perm (s :: visits h.applied w ++ [e]).consecutivePairs ∧
    h.dag.fronts.get? w = (s :: visits h.applied w).getLast?
  /-- The operation nodes are those that appends gave out. -/
  nodes : ∀ v op, h.dag.node? v = some (.op op) ↔ (v, op) ∈ h.applied
  order : h.applied.Pairwise fun a b => a.1 < b.1
  op_count : h.dag.opCount = h.applied.length
  node_count : h.dag.nodeCount = 2 * (h.dag.qubitCount + h.dag.clbitCount) + h.dag.opCount
  segment_count : h.dag.segmentCount = h.dag.qubitCount + h.dag.clbitCount +
    (h.applied.map fun (_, op) => op.qargs.length + op.cargs.length).sum

/-- Whatever calls are made, and whether they succeed or fail, every wire is a path. -/
theorem wirePaths_of (calls : List Call) : (of calls).WirePaths := by
  obtain ⟨hd, hops⟩ := sound_of calls
  have hcount : ∀ w, (of calls).dag.wires.count w = if (of calls).dag.hasWire w then 1 else 0 := by
    intro w
    rw [hd.threaded.nodup.count]
    simp only [hd.mem_wires_iff]
  have hlength := hd.length_operations.symm
  constructor
  case inputs => exact fun w => (hd.threaded.inputs w).trans (hcount w)
  case outputs => exact fun w => (hd.threaded.outputs w).trans (hcount w)
  case labels =>
    exact fun a ha => hd.mem_wires_iff.mp (hd.threaded.labels a (Array.mem_toList_iff.mpr ha))
  case recorded =>
    intro t ht w
    simp only [List.mem_cons, List.not_mem_nil, or_false] at ht
    rcases ht with rfl | rfl | rfl
    · exact hd.isSome_get? hd.threaded.inputs_keys w
    · exact hd.isSome_get? hd.threaded.outputs_keys w
    · exact hd.isSome_get? hd.threaded.fronts_keys w
  case path =>
    intro w hw
    obtain ⟨s, e, hs, hr⟩ := hd.threaded.wire w (hd.mem_wires_iff.mpr hw)
    rw [hops] at hs hr
    exact ⟨s, e, hr.input, hs.start, hr.output, hs.finish, hs.segments, hr.front⟩
  case nodes => exact fun v op => by rw [← hops, mem_operations_iff]
  case order => rw [← hops]; exact operations_pairwise _
  case op_count => rw [hlength, hops]
  case node_count => rw [hd.node_count, length_wires, hlength]
  case segment_count =>
    rw [hd.segment_count, length_wires, hops]
    simp [Operation.wires]

end History

end CircuitForms.Dag
