import CircuitForms.Proofs.Convert.Assembled
import CircuitForms.Proofs.Convert.Pins
import CircuitForms.Proofs.Dag.Inventory

/-! # The graph of the qubit wires

A circuit of wires that is carried over becomes the graph of its qubit wires: from each
pin by which a wire leaves a node a link leads to the pin by which it enters the next.
Nothing but an operation can keep a circuit from being carried over.
-/

namespace CircuitForms

/-- A fault that an operation at a node has by itself. -/
inductive ConversionFault.OfOperation (v : Nat) (name : String) : ConversionFault → Prop
  | unsupportedOperation : OfOperation v name (.unsupportedOperation v name)
  | unsupportedUse (use : ClassicalUse) : OfOperation v name (.unsupportedUse v name use)
  | arity (e : Entry) (qubits params : Nat) (he : e.name = name) :
    OfOperation v name (.arity v e qubits params)
  | emptyBox : OfOperation v name (.emptyBox v name)

namespace Dag

open ConversionFault

variable {d : Dag} {p : Policy} {c : VertexCircuit} {losses : List Loss} {q : Qubit}
  {v v' i k : Nat} {op : Operation} {f : ConversionFault}

theorem ofOperation_of_dropCondition (h : dropCondition p v op = .error f) :
    OfOperation v op.name f := by
  rw [dropCondition] at h
  split at h
  · cases h
  · split_ifs at h
    cases h
    exact .unsupportedUse _

theorem ofOperation_of_boxed (h : boxed v op = .error f) : OfOperation v op.name f := by
  rw [boxed] at h
  split_ifs at h
  · cases h
    exact .emptyBox
  · cases h
    exact .unsupportedUse _

theorem ofOperation_of_listed {e : Entry} (he : e.name = op.name)
    (h : d.listed v e op = .error f) : OfOperation v op.name f := by
  rcases bind_eq_error.mp h with h | ⟨_, -, h⟩
  · rw [Entry.check] at h
    split_ifs at h
    cases h
    exact .arity e _ _ he
  · split_ifs at h
    · rw [measured] at h
      split_ifs at h
      cases h
      exact .unsupportedUse _
    · cases h
      exact .unsupportedUse _

theorem ofOperation_of_describe (h : d.describe p v op = .error f) : OfOperation v op.name f := by
  rw [describe] at h
  cases he : Catalog.standard.byName? op.name with
  | some e =>
    have hname : e.name = op.name := (Catalog.byName?_eq_some_iff.mp he).2
    rw [he] at h
    rcases bind_eq_error.mp h with h | ⟨_, -, h⟩
    · exact ofOperation_of_dropCondition h
    rcases bind_eq_error.mp h with h | ⟨_, -, h⟩
    · exact ofOperation_of_listed hname h
    · cases h
  | none =>
    rw [he] at h
    dsimp only at h
    split_ifs at h
    · rcases bind_eq_error.mp h with h | ⟨_, -, h⟩
      · exact ofOperation_of_dropCondition h
      rcases bind_eq_error.mp h with h | ⟨_, -, h⟩
      · exact ofOperation_of_boxed h
      · cases h
    · cases h
      exact .unsupportedOperation

theorem exists_op_of_toVertex? {node : Node} (h : d.toVertex? p v node = .error f) :
    ∃ o, node = .op o ∧ d.describe p v o = .error f := by
  unfold toVertex? at h
  split_ifs at h
  cases node with
  | input w => cases h
  | output w => cases h
  | op o => exact ⟨o, rfl, map_eq_error.mp h⟩

section Consistent

variable (hd : d.Sound) (hc : d.Consistent)

include hd hc

section Nodes

variable {r : List (Option (Descriptor × List Loss))}
  (hr : (d.graph.nodes.toList.zipIdx.mapM fun (node, v) => d.toVertex? p v node) = .ok r)

include hr

theorem Leaves.lt_outputs (h : d.Leaves q v i) :
    ∃ x, (r.reduceOption.map Prod.fst)[d.rank v]? = some x ∧ i < x.outputs := by
  obtain ⟨node, hn, hcarried, -⟩ := h.passes.node hd hc
  obtain ⟨x, losses, hx, hv⟩ := exists_vertex hr hn hcarried
  refine ⟨x, by rw [List.getElem?_map, hv]; rfl, ?_⟩
  cases h with
  | input hv =>
    obtain rfl := Option.some.inj (hv.symm.trans hn)
    rw [toVertex?, if_pos hcarried] at hx
    cases hx
    exact Nat.zero_lt_one
  | op hv hi =>
    obtain rfl := Option.some.inj (hv.symm.trans hn)
    rw [(describes_of_toVertex? hx).outputs]
    exact (List.getElem?_eq_some_iff.mp hi).1

theorem Enters.lt_inputs (h : d.Enters q v i) :
    ∃ x, (r.reduceOption.map Prod.fst)[d.rank v]? = some x ∧ i < x.inputs := by
  obtain ⟨node, hn, hcarried, -⟩ := h.passes.node hd hc
  obtain ⟨x, losses, hx, hv⟩ := exists_vertex hr hn hcarried
  refine ⟨x, by rw [List.getElem?_map, hv]; rfl, ?_⟩
  cases h with
  | output hv =>
    obtain rfl := Option.some.inj (hv.symm.trans hn)
    rw [toVertex?, if_pos hcarried] at hx
    cases hx
    exact Nat.zero_lt_one
  | op hv hi =>
    obtain rfl := Option.some.inj (hv.symm.trans hn)
    rw [(describes_of_toVertex? hx).inputs]
    exact (List.getElem?_eq_some_iff.mp hi).1

end Nodes

/-- A circuit is carried over as far as its operations are. -/
theorem map_snd_toVertices : (d.toVertices p).map Prod.snd =
    (d.graph.nodes.toList.zipIdx.mapM fun (node, v) => d.toVertex? p v node).map
      (fun r : List (Option (Descriptor × List Loss)) => r.reduceOption.flatMap Prod.snd) := by
  rw [toVertices]
  cases hr : d.graph.nodes.toList.zipIdx.mapM fun (node, v) => d.toVertex? p v node with
  | error f => rfl
  | ok r =>
    -- The links and the assembly cannot fail, so the descriptions alone decide.
    obtain ⟨ls, hls⟩ := exists_links hd hc
    have hmem : ∀ l ∈ ls.reduceOption, ∃ q i k v v', d.Leaves q v i ∧ d.Enters q v' k ∧
        l = ⟨d.rank v, i, d.rank v', k⟩ := by
      intro l hl
      rw [List.reduceOption_mem_iff, mem_of_mapM_eq_ok hls] at hl
      obtain ⟨a, ha, ho⟩ := hl
      obtain ⟨q, i, k, -, hi, hk, he⟩ := exists_of_toLink? hd hc ha ho
      exact ⟨q, i, k, _, _, hi, hk, he⟩
    have hout : ∀ l ∈ ls.reduceOption, ∃ x, (r.reduceOption.map Prod.fst)[l.source]? = some x ∧
        l.sourcePin < x.outputs := by
      intro l hl
      obtain ⟨q, i, k, v, v', hi, -, rfl⟩ := hmem l hl
      exact hi.lt_outputs hd hc hr
    have hinto : ∀ l ∈ ls.reduceOption, ∃ x, (r.reduceOption.map Prod.fst)[l.target]? = some x ∧
        l.targetPin < x.inputs := by
      intro l hl
      obtain ⟨q, i, k, v, v', -, hk, rfl⟩ := hmem l hl
      exact hk.lt_inputs hd hc hr
    obtain ⟨hn, hp⟩ := nodup_links hd hc hls
    obtain ⟨c, hassemble⟩ := VertexCircuit.exists_assemble hout hinto hn hp
    simp only [bind, Except.bind, hls, hassemble]
    rfl

end Consistent

/-- The vertices of a circuit are its nodes, less the ends of the classical wires, and its links are
the steps of the qubit wires. -/
structure WireGraph (d : Dag) (p : Policy) (c : VertexCircuit) : Prop where
  vertex_count : c.vertexCount = 2 * d.qubitCount + d.opCount
  link_count : c.linkCount = d.qubitCount + (d.operations.map fun x => x.2.qargs.length).sum
  /-- The vertices are numbered in the order of the nodes they come from. -/
  strictMono : StrictMonoOn d.rank {v | (d.node? v).any d.isCarried}
  image : d.rank '' {v | (d.node? v).any d.isCarried} = Set.Iio c.vertexCount
  input : ∀ v q, d.node? v = some (.input (.qubit q)) → c.vertex? (d.rank v) = some .lineStart
  output : ∀ v q, d.node? v = some (.output (.qubit q)) → c.vertex? (d.rank v) = some .lineEnd
  op : ∀ v o, d.node? v = some (.op o) →
    ∃ x losses, d.describe p v o = .ok (x, losses) ∧ c.vertex? (d.rank v) = some x
  /-- The lines start where the qubit wires do, in the order of the qubits. -/
  inputs : List.Forall₂ (fun q u => ∃ v, d.node? v = some (.input (.qubit q)) ∧ d.rank v = u)
    d.qubits c.inputs
  /-- From where a wire leaves a node a link leads to where it enters the next. -/
  next : ∀ q v i, d.Leaves q v i → ∃ v' k, (∀ u, d.Follows q v u ↔ u = v') ∧ d.Enters q v' k ∧
    c.next? ⟨d.rank v, i⟩ = some ⟨d.rank v', k⟩
  previous : ∀ q v' k, d.Enters q v' k → ∃ v i, (∀ u, d.Follows q u v' ↔ u = v) ∧ d.Leaves q v i ∧
    c.previous? ⟨d.rank v', k⟩ = some ⟨d.rank v, i⟩
  /-- There are no other links. -/
  link : ∀ l ∈ c.links.toList, ∃ q v i v' k, d.Follows q v v' ∧ d.Leaves q v i ∧ d.Enters q v' k ∧
    l = ⟨d.rank v, i, d.rank v', k⟩
  /-- Every output pin has one link. -/
  out_once : ∀ u x, c.vertex? u = some x → ∀ i < x.outputs,
    (c.links.toList.map Link.out).count ⟨u, i⟩ = 1
  /-- Every input pin has one link. -/
  into_once : ∀ u x, c.vertex? u = some x → ∀ i < x.inputs,
    (c.links.toList.map Link.into).count ⟨u, i⟩ = 1

theorem WireGraph.bijOn_rank (h : WireGraph d p c) :
    Set.BijOn d.rank {v | (d.node? v).any d.isCarried} (Set.Iio c.vertexCount) := by
  rw [← h.image]
  exact h.strictMono.injOn.bijOn_image

theorem Sound.countP_isCarried (h : d.Sound) :
    d.graph.nodes.toList.countP d.isCarried = 2 * d.qubitCount + d.opCount := by
  have hends : d.wires.countP (fun w => w.qubit?.any d.hasQubit) = d.qubitCount := by
    rw [← length_qubits, ← countP_qubit? d.qubits d.clbits]
    refine List.countP_congr fun w hw => ?_
    cases w with
    | qubit q => exact iff_of_true (h.mem_wires_iff.mp hw) rfl
    | clbit b => rfl
  have hinputs : d.wires.countP (d.isCarried ∘ Node.input) = d.qubitCount := hends
  have houtputs : d.wires.countP (d.isCarried ∘ Node.output) = d.qubitCount := hends
  have hops : (d.operations.map Prod.snd).countP (d.isCarried ∘ Node.op) = d.opCount := by
    rw [← h.length_operations, ← List.length_map Prod.snd]
    exact List.countP_eq_length.mpr fun _ _ => rfl
  rw [h.nodes_perm.countP_eq, List.countP_append, List.countP_append, List.countP_map,
    List.countP_map, List.countP_map, hinputs, houtputs, hops, two_mul]

theorem sizes_of_toVertices (hd : d.Sound) (hc : d.Consistent)
    (h : d.toVertices p = .ok (c, losses)) :
    c.vertexCount = 2 * d.qubitCount + d.opCount ∧
      c.linkCount = d.qubitCount + (d.operations.map fun x => x.2.qargs.length).sum := by
  obtain ⟨r, hr, h⟩ := bind_eq_ok.mp h
  obtain ⟨ls, hls, h⟩ := bind_eq_ok.mp h
  obtain ⟨c', hc', h⟩ := bind_eq_ok.mp h
  obtain ⟨rfl, -⟩ := Prod.mk.inj (Except.ok.inj h)
  obtain ⟨hv, hl, -⟩ := VertexCircuit.assemble_ok (mapError_eq_ok.mp hc')
  constructor
  · have hlen : r.reduceOption.length = d.rank r.length := by
      rw [← countP_isSome_eq_rank hr, List.take_length, List.reduceOption_length_eq,
        List.countP_eq_length_filter]
    rw [VertexCircuit.vertexCount, ← Array.length_toList, hv, List.length_map, hlen, rank,
      ← length_of_toVertex? hr, List.take_length, hd.countP_isCarried]
  · rw [VertexCircuit.linkCount, ← Array.length_toList, hl, reduceOption_of_mapM hls,
      List.length_filterMap_eq_countP, ← hd.countP_label]
    refine List.countP_congr fun a ha => ?_
    rcases toLink?_cases hd hc ha with ⟨hq, ho⟩ | ⟨q, i, k, hq, -, -, ho⟩
    · rw [hq, ho]
      rfl
    · rw [hq, ho]
      rfl

namespace Carries

variable (h : d.Carries p c) (hd : d.Sound) (hc : d.Consistent)

include h hd hc

theorem next?_eq (hl : d.Leaves q v i) (hf : d.Follows q v v') (he : d.Enters q v' k) :
    c.next? ⟨d.rank v, i⟩ = some ⟨d.rank v', k⟩ := by
  rw [← hl.passes.cellAt hd hc, ← he.passes.cellAt hd hc]
  exact h.next?_of_mem_segments ((mem_segments_iff_follows hd).mpr hf)

theorem exists_next (hl : d.Leaves q v i) : ∃ v' k, (∀ u, d.Follows q v u ↔ u = v') ∧
    d.Enters q v' k ∧ c.next? ⟨d.rank v, i⟩ = some ⟨d.rank v', k⟩ := by
  obtain ⟨v', hf⟩ := hl.exists_follows hd
  obtain ⟨-, k, -, he⟩ := hf.exists_pins hd
  have hn := h.next?_eq hd hc hl hf he
  refine ⟨v', k, fun u => ⟨fun hu => ?_, fun hu => hu ▸ hf⟩, he, hn⟩
  obtain ⟨-, k', -, he'⟩ := hu.exists_pins hd
  have heq := Option.some.inj ((h.next?_eq hd hc hl hu he').symm.trans hn)
  obtain rfl : k' = k := congrArg Cell.pin heq
  exact (he'.passes.eq_of_rank_eq hd hc he.passes (congrArg Cell.vertex heq)).1

theorem exists_previous (he : d.Enters q v' k) : ∃ v i, (∀ u, d.Follows q u v' ↔ u = v) ∧
    d.Leaves q v i ∧ c.previous? ⟨d.rank v', k⟩ = some ⟨d.rank v, i⟩ := by
  obtain ⟨v, hf⟩ := he.exists_follows hd
  obtain ⟨i, -, hl, -⟩ := hf.exists_pins hd
  have hp := h.wired.previous?_eq_some_iff.mpr (h.next?_eq hd hc hl hf he)
  refine ⟨v, i, fun u => ⟨fun hu => ?_, fun hu => hu ▸ hf⟩, hl, hp⟩
  obtain ⟨i', -, hl', -⟩ := hu.exists_pins hd
  have hp' := h.wired.previous?_eq_some_iff.mpr (h.next?_eq hd hc hl' hu he)
  have heq := Option.some.inj (hp'.symm.trans hp)
  obtain rfl : i' = i := congrArg Cell.pin heq
  exact (hl'.passes.eq_of_rank_eq hd hc hl.passes (congrArg Cell.vertex heq)).1

theorem exists_step {l : Link} (hl : l ∈ c.links.toList) : ∃ q v i v' k, d.Follows q v v' ∧
    d.Leaves q v i ∧ d.Enters q v' k ∧ l = ⟨d.rank v, i, d.rank v', k⟩ := by
  obtain ⟨a, ha, ho⟩ := (h.mem_links l).mp hl
  obtain ⟨q, i, k, hq, hi, hk, he⟩ := exists_of_toLink? hd hc ha ho
  refine ⟨q, _, i, _, k, (mem_segments_iff_follows hd).mp ?_, hi, hk, he⟩
  exact List.mem_map.mpr ⟨a, List.mem_filter.mpr ⟨ha, decide_eq_true hq⟩, rfl⟩

omit hd hc in
theorem exists_leaves_of_lt {u : Nat} {x : Descriptor} (hx : c.vertex? u = some x)
    (hi : i < x.outputs) : ∃ q v, d.rank v = u ∧ d.Leaves q v i := by
  obtain ⟨v, hv, ⟨q, hn, -, rfl⟩ | ⟨q, -, -, rfl⟩ | ⟨o, hn, ho⟩⟩ := h.node_cases hx
  · obtain rfl : i = 0 := Nat.lt_one_iff.mp hi
    exact ⟨q, v, hv, .input hn⟩
  · exact absurd hi (Nat.not_lt_zero i)
  · rw [ho.outputs] at hi
    exact ⟨_, v, hv, .op hn (List.getElem?_eq_getElem hi)⟩

omit hd hc in
theorem exists_enters_of_lt {u : Nat} {x : Descriptor} (hx : c.vertex? u = some x)
    (hi : i < x.inputs) : ∃ q v, d.rank v = u ∧ d.Enters q v i := by
  obtain ⟨v, hv, ⟨q, -, -, rfl⟩ | ⟨q, hn, -, rfl⟩ | ⟨o, hn, ho⟩⟩ := h.node_cases hx
  · exact absurd hi (Nat.not_lt_zero i)
  · obtain rfl : i = 0 := Nat.lt_one_iff.mp hi
    exact ⟨q, v, hv, .output hn⟩
  · rw [ho.inputs] at hi
    exact ⟨_, v, hv, .op hn (List.getElem?_eq_getElem hi)⟩

end Carries

theorem strictMonoOn_rank (d : Dag) : StrictMonoOn d.rank {v | (d.node? v).any d.isCarried} := by
  intro v hv u _ hvu
  obtain ⟨node, hn, hcarried⟩ := (Option.any_eq_true _ _).mp hv
  exact countP_take_lt (by simpa [node?] using hn) hcarried hvu

/-- What is carried over is the graph of the qubit wires. -/
theorem wireGraph (hd : d.Sound) (hc : d.Consistent) (hcd : d.toVertices p = .ok (c, losses)) :
    WireGraph d p c := by
  have h := carries_of_toVertices hcd
  obtain ⟨hvertices, hlinks⟩ := sizes_of_toVertices hd hc hcd
  constructor
  case vertex_count => exact hvertices
  case link_count => exact hlinks
  case strictMono => exact strictMonoOn_rank d
  case image =>
    refine Set.eq_of_subset_of_subset ?_ fun u hu => ?_
    · rintro _ ⟨v, hv, rfl⟩
      obtain ⟨node, hn, hcarried⟩ := (Option.any_eq_true _ _).mp hv
      obtain ⟨x, -, -, hx⟩ := h.vertex v node hn hcarried
      exact VertexCircuit.lt_of_vertex? hx
    · obtain ⟨v, node, -, hn, hcarried, rfl, -⟩ := h.node u _ (Array.getElem?_eq_getElem hu)
      exact ⟨v, (Option.any_eq_true _ _).mpr ⟨node, hn, hcarried⟩, rfl⟩
  case input => exact fun v q hv => h.vertex_input hv (hasQubit_of_input hd hv)
  case output =>
    exact fun v q hv => h.vertex_output hv (hd.mem_wires_iff.mp (hd.mem_wires_of_output hv))
  case op => exact fun v o hv => h.vertex_describe hv
  case inputs =>
    refine List.forall₂_iff_get.mpr ⟨?_, fun j hj hj' => ?_⟩
    · rw [length_qubits, ← h.lineCount_eq hd]
      rfl
    · obtain ⟨v, -, hn⟩ := startNodes_getElem? hd (List.getElem?_eq_getElem hj)
      have hu := h.inputs_getElem? hd (List.getElem?_eq_getElem hj) hn
      exact ⟨v, hn, (List.getElem?_eq_some_iff.mp hu).2.symm⟩
  case next => exact fun q v i hl => h.exists_next hd hc hl
  case previous => exact fun q v' k he => h.exists_previous hd hc he
  case link => exact fun l hl => h.exists_step hd hc hl
  -- No two links share a pin, so one link for each pin is enough.
  case out_once =>
    intro u x hx i hi
    obtain ⟨q, v, rfl, hl⟩ := h.exists_leaves_of_lt hx hi
    obtain ⟨v', k, -, -, hn⟩ := h.exists_next hd hc hl
    obtain ⟨l, hmem, hout, -⟩ := h.wired.next?_iff.mp hn
    exact List.count_eq_one_of_mem h.wired.out_nodup (List.mem_map.mpr ⟨l, hmem, hout⟩)
  case into_once =>
    intro u x hx i hi
    obtain ⟨q, v, rfl, he⟩ := h.exists_enters_of_lt hx hi
    obtain ⟨v', k, -, -, hp⟩ := h.exists_previous hd hc he
    obtain ⟨l, hmem, -, hinto⟩ := h.wired.previous?_iff.mp hp
    exact List.count_eq_one_of_mem h.wired.into_nodup (List.mem_map.mpr ⟨l, hmem, hinto⟩)

/-- Whatever calls a circuit is built by, what it is carried over to is the graph of its qubit
wires, and if it is not carried over it is for one of its operations. -/
theorem wireGraph_of_toVertices (calls : List Call) (p : Policy) :
    (∀ c losses, (History.of calls).dag.toVertices p = .ok (c, losses) →
      WireGraph (History.of calls).dag p c) ∧
    ∀ f, (History.of calls).dag.toVertices p = .error f → ∃ v o,
      (History.of calls).dag.node? v = some (.op o) ∧
      (History.of calls).dag.describe p v o = .error f ∧ OfOperation v o.name f := by
  have hd := (History.sound_of calls).dag
  have hc := consistent_of calls
  refine ⟨fun c losses h => wireGraph hd hc h, fun f h => ?_⟩
  have hf : ((History.of calls).dag.toVertices p).map Prod.snd = .error f := map_eq_error.mpr h
  rw [map_snd_toVertices hd hc, map_eq_error] at hf
  obtain ⟨x, hx, hf⟩ := exists_of_mapM_eq_error hf
  obtain ⟨o, ho, hf⟩ := exists_op_of_toVertex? hf
  refine ⟨x.2, o, ?_, hf, ofOperation_of_describe hf⟩
  have hnode := List.mem_zipIdx_iff_getElem?.mp hx
  rw [← ho]
  simpa [node?] using hnode

/-- Two qubits cross an operation and are then measured into one bit. -/
def remeasuring : List Call :=
  [.addQreg ⟨"q", 2⟩, .addCreg ⟨"c", 1⟩, .declare ⟨"cx", 2, 0, 0⟩, .declare ⟨"measure", 2, 2, 0⟩,
    .append ⟨"cx", [⟨"q", 1⟩, ⟨"q", 0⟩], [], [], none⟩,
    .append (.measurement [⟨"q", 0⟩, ⟨"q", 1⟩] [⟨"c", 0⟩, ⟨"c", 0⟩])]

def remeasuringVertices : VertexCircuit :=
  .of [.addVertex .lineStart, .addVertex .lineEnd, .addVertex .lineStart, .addVertex .lineEnd,
    .addVertex (.onLines .cx 2),
    .addVertex (.onLines .measure 2
      (.description (Destination.encode ⟨[⟨"c", 0⟩, ⟨"c", 0⟩], [⟨"c", 1⟩]⟩))),
    .addLink ⟨5, 0, 1, 0⟩, .addLink ⟨5, 1, 3, 0⟩, .addLink ⟨2, 0, 4, 0⟩, .addLink ⟨0, 0, 4, 1⟩,
    .addLink ⟨4, 1, 5, 0⟩, .addLink ⟨4, 0, 5, 1⟩]

theorem wireGraph_remeasuring :
    (History.of remeasuring).dag.toVertices {} = .ok (remeasuringVertices, []) ∧
      WireGraph (History.of remeasuring).dag {} remeasuringVertices := by
  have h : (History.of remeasuring).dag.toVertices {} = .ok (remeasuringVertices, []) := by
    decide +kernel
  exact ⟨h, (wireGraph_of_toVertices remeasuring {}).1 _ _ h⟩

end Dag

end CircuitForms
