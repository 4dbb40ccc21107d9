import CircuitForms.Proofs.Dag.Sound

/-! # What a sound circuit of wires is made of

The nodes are the two ends of every wire and the operations. Every wire has one
segment of its own and one more for each time an operation names it.
-/

namespace CircuitForms.Dag

variable {d : Dag}

/-- The nodes are the ends of the wires and the operations. -/
theorem Sound.nodes_perm (h : d.Sound) : d.graph.nodes.toList.Perm
    (d.wires.map .input ++ d.wires.map .output ++ (d.operations.map Prod.snd).map .op) := by
  rw [List.perm_iff_count]
  intro node
  rw [List.count_append, List.count_append]
  -- A node is counted in one of the three rows, told by its constructor.
  cases node with
  | input w =>
    have hwire : (d.wires.map Node.input).count (.input w) = d.wires.count w :=
      List.count_map_of_injective _ _ (fun _ _ he => Node.input.inj he) w
    have hrest : (d.wires.map Node.output).count (.input w) = 0 ∧
        ((d.operations.map Prod.snd).map Node.op).count (.input w) = 0 := by
      simp [List.count_eq_zero]
    rw [h.threaded.inputs, hwire, hrest.1, hrest.2]
    rfl
  | output w =>
    have hwire : (d.wires.map Node.output).count (.output w) = d.wires.count w :=
      List.count_map_of_injective _ _ (fun _ _ he => Node.output.inj he) w
    have hrest : (d.wires.map Node.input).count (.output w) = 0 ∧
        ((d.operations.map Prod.snd).map Node.op).count (.output w) = 0 := by
      simp [List.count_eq_zero]
    rw [h.threaded.outputs, hwire, hrest.1, hrest.2, Nat.zero_add]
    rfl
  | op o =>
    have hops : ((d.operations.map Prod.snd).map Node.op).count (.op o) =
        d.graph.nodes.toList.count (.op o) := by
      rw [List.count_map_of_injective _ _ fun _ _ he => Node.op.inj he, map_snd_operations,
        List.count_filterMap, List.count]
      refine List.countP_congr fun node _ => ?_
      cases node <;> simp [Node.operation?]
    have hrest : (d.wires.map Node.input).count (.op o) = 0 ∧
        (d.wires.map Node.output).count (.op o) = 0 := by
      simp [List.count_eq_zero]
    rw [hops, hrest.1, hrest.2, Nat.zero_add]

theorem Sound.labels_perm (h : d.Sound) : (d.graph.arcs.toList.map Arc.label).Perm
    (d.wires ++ (d.operations.map Prod.snd).flatMap Operation.wires) := by
  rw [List.perm_iff_count]
  intro w
  have hlabel : (d.graph.arcs.toList.map Arc.label).count w = (d.graph.segments w).length := by
    rw [Digraph.segments, List.length_map, List.count, List.countP_map,
      List.countP_eq_length_filter]
    rfl
  have hvisits : ((d.operations.map Prod.snd).flatMap Operation.wires).count w =
      (visits d.operations w).length := by
    rw [List.flatMap_map, List.count_flatMap, visits, List.length_flatMap]
    simp [Function.comp_def]
  rw [hlabel, List.count_append, hvisits]
  by_cases hw : w ∈ d.wires
  · obtain ⟨s, e, hs⟩ := h.threaded.exists_strand hw
    rw [hs.segments.length_eq, h.threaded.nodup.count, if_pos hw]
    simp [Nat.add_comm]
  · rw [h.threaded.segments_eq_nil hw, h.threaded.idle w hw, List.count_eq_zero.mpr hw]
    rfl

theorem countP_qubit? (qs : List Qubit) (cs : List Clbit) :
    (qs.map Wire.qubit ++ cs.map Wire.clbit).countP (·.qubit?.isSome) = qs.length := by
  rw [List.countP_append, List.countP_map, List.countP_map]
  have hq : qs.countP ((·.qubit?.isSome) ∘ Wire.qubit) = qs.length :=
    List.countP_eq_length.mpr fun _ _ => rfl
  have hc : cs.countP ((·.qubit?.isSome) ∘ Wire.clbit) = 0 :=
    List.countP_eq_zero.mpr fun _ _ => Bool.false_ne_true
  rw [hq, hc, Nat.add_zero]

theorem Sound.countP_label (h : d.Sound) : d.graph.arcs.toList.countP (·.label.qubit?.isSome) =
    d.qubitCount + (d.operations.map fun x => x.2.qargs.length).sum := by
  have hmap : d.graph.arcs.toList.countP (·.label.qubit?.isSome) =
      (d.graph.arcs.toList.map Arc.label).countP (·.qubit?.isSome) := by
    rw [List.countP_map]
    rfl
  rw [hmap, h.labels_perm.countP_eq, List.countP_append, wires, countP_qubit?, List.countP_flatMap,
    List.map_map, length_qubits]
  simp only [Function.comp_def, Operation.wires, countP_qubit?]

end CircuitForms.Dag
