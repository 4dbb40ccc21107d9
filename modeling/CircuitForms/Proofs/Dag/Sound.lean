import CircuitForms.Dag.Order
import CircuitForms.Proofs.Dag.Edit

/-! # Sound circuits of wires

In a sound circuit the wires are the bits of its registers, and the strand of each
passes through the operations that name it in the order in which they were
appended. Every edit leaves a sound circuit sound, whether it succeeds or not.
-/

namespace CircuitForms

namespace Register

variable {rs : List Register} {r : Register}

theorem find?_any_iff (hn : (rs.map name).Nodup) (s : String) (i : Nat) :
    (find? rs s).any (fun r => i < r.size) = true ↔ ∃ r ∈ rs, r.name = s ∧ i < r.size := by
  induction rs with
  | nil => simp [find?]
  | cons r rs ih =>
    rw [List.map_cons, List.nodup_cons] at hn
    by_cases hr : r.name = s
    · have hrest : ∀ r' ∈ rs, r'.name ≠ s := fun r' hr' hs =>
        hn.1 (hr ▸ hs ▸ List.mem_map_of_mem hr')
      simp only [find?, List.find?_cons, hr, beq_self_eq_true, Option.any_some, decide_eq_true_eq,
        List.mem_cons]
      constructor
      · exact fun hi => ⟨r, .inl rfl, hr, hi⟩
      · rintro ⟨r', rfl | hr', hs, hi⟩
        · exact hi
        · exact absurd hs (hrest r' hr')
    · have hf : find? (r :: rs) s = find? rs s := by simp [find?, hr]
      rw [hf, ih hn.2]
      simp [hr]

theorem mem_qubits {q : Qubit} : q ∈ r.qubits ↔ r.name = q.register ∧ q.index < r.size := by
  simp only [qubits, List.mem_map, List.mem_range]
  constructor
  · rintro ⟨i, hi, rfl⟩
    exact ⟨rfl, hi⟩
  · rintro ⟨hr, hi⟩
    exact ⟨q.index, hi, by rw [hr]⟩

theorem mem_clbits {c : Clbit} : c ∈ r.clbits ↔ r.name = c.register ∧ c.index < r.size := by
  simp only [clbits, List.mem_map, List.mem_range]
  constructor
  · rintro ⟨i, hi, rfl⟩
    exact ⟨rfl, hi⟩
  · rintro ⟨hr, hi⟩
    exact ⟨c.index, hi, by rw [hr]⟩

theorem qubits_nodup (r : Register) : r.qubits.Nodup :=
  List.nodup_range.map fun _ _ h => congrArg Qubit.index h

theorem clbits_nodup (r : Register) : r.clbits.Nodup :=
  List.nodup_range.map fun _ _ h => congrArg Clbit.index h

theorem wires_nodup (r : Register) : ∀ k, (r.wires k).Nodup
  | .quantum => r.qubits_nodup.map fun _ _ h => Wire.qubit.inj h
  | .classical => r.clbits_nodup.map fun _ _ h => Wire.clbit.inj h

@[simp] theorem length_qubits (r : Register) : r.qubits.length = r.size := by simp [qubits]

@[simp] theorem length_clbits (r : Register) : r.clbits.length = r.size := by simp [clbits]

theorem total_eq_sum (rs : List Register) : total rs = (rs.map size).sum := by
  induction rs with
  | nil => rfl
  | cons r rs ih => rw [List.map_cons, List.sum_cons, ← ih, total, List.foldr_cons, total]

theorem find?_isSome_iff {s : String} : (find? rs s).isSome ↔ s ∈ rs.map name := by
  simp only [find?, List.find?_isSome, beq_iff_eq, List.mem_map]

end Register

namespace Dag

variable {d : Dag}

def wires (d : Dag) : List Wire :=
  d.qubits.map .qubit ++ d.clbits.map .clbit

def hasWire (d : Dag) : Wire → Bool
  | .qubit q => d.hasQubit q
  | .clbit c => d.hasClbit c

/-- The wires in the order in which their starts were added. -/
def starts (d : Dag) : List Wire :=
  d.graph.nodes.toList.filterMap fun
    | .input w => some w
    | _ => none

def operations (d : Dag) : List (Nat × Operation) :=
  (List.range d.nodeCount).filterMap d.numbered?

/-- The nodes met on a wire between its ends: each as often as its operation names the wire. -/
def visits (ops : List (Nat × Operation)) (w : Wire) : List Nat :=
  ops.flatMap fun (v, op) => List.replicate (op.wires.count w) v

structure Sound (d : Dag) : Prop where
  qnames : (d.qregs.map Register.name).Nodup
  cnames : (d.cregs.map Register.name).Nodup
  threaded : d.Threaded d.wires (visits d.operations)
  starts_eq : d.starts.filterMap Wire.qubit? = d.qubits
  node_count : d.nodeCount = 2 * d.wires.length + d.operations.length
  segment_count :
    d.segmentCount = d.wires.length + (d.operations.map (·.2.wires.length)).sum

theorem Sound.mem_qubits_iff (h : d.Sound) {q : Qubit} : q ∈ d.qubits ↔ d.hasQubit q := by
  rw [hasQubit, qreg?, Register.find?_any_iff h.qnames, qubits, List.mem_flatMap]
  simp only [Register.mem_qubits]

theorem Sound.mem_clbits_iff (h : d.Sound) {c : Clbit} : c ∈ d.clbits ↔ d.hasClbit c := by
  rw [hasClbit, creg?, Register.find?_any_iff h.cnames, clbits, List.mem_flatMap]
  simp only [Register.mem_clbits]

theorem Sound.mem_wires_iff (h : d.Sound) {w : Wire} : w ∈ d.wires ↔ d.hasWire w := by
  cases w with
  | qubit q => simp [wires, hasWire, h.mem_qubits_iff]
  | clbit c => simp [wires, hasWire, h.mem_clbits_iff]

theorem Sound.isSome_get? (h : d.Sound) {t : Table Wire Nat} (ht : t.keys.Perm d.wires) (w : Wire) :
    (t.get? w).isSome = d.hasWire w := by
  rw [Bool.eq_iff_iff, Table.isSome_get?_iff, ht.mem_iff, h.mem_wires_iff]

theorem Sound.exists_strand (h : d.Sound) {q : Qubit} (hq : q ∈ d.qubits) :
    ∃ s e, d.graph.Strand (.qubit q) s (visits d.operations (.qubit q)) e :=
  h.threaded.exists_strand (List.mem_append_left _ (List.mem_map_of_mem hq))

theorem Sound.mem_wires_of_input (h : d.Sound) {v : Nat} {w : Wire}
    (hv : d.node? v = some (.input w)) : w ∈ d.wires := by
  rw [← List.count_pos_iff, ← h.threaded.inputs, List.count_pos_iff]
  exact Array.mem_toList_iff.mpr (Array.mem_of_getElem? hv)

theorem Sound.mem_wires_of_output (h : d.Sound) {v : Nat} {w : Wire}
    (hv : d.node? v = some (.output w)) : w ∈ d.wires := by
  rw [← List.count_pos_iff, ← h.threaded.outputs, List.count_pos_iff]
  exact Array.mem_toList_iff.mpr (Array.mem_of_getElem? hv)

/-- The wire of a declared bit starts at one node. -/
theorem Sound.start_unique (h : d.Sound) {v u : Nat} {w : Wire} (hv : d.node? v = some (.input w))
    (hu : d.node? u = some (.input w)) : v = u := by
  have hcount := (h.threaded.inputs w).trans
    (List.count_eq_one_of_mem h.threaded.nodup (h.mem_wires_of_input hv))
  exact eq_of_count_eq_one hcount (by simpa [node?] using hv) (by simpa [node?] using hu)

theorem Sound.finish_unique (h : d.Sound) {v u : Nat} {w : Wire}
    (hv : d.node? v = some (.output w)) (hu : d.node? u = some (.output w)) : v = u := by
  have hcount := (h.threaded.outputs w).trans
    (List.count_eq_one_of_mem h.threaded.nodup (h.mem_wires_of_output hv))
  exact eq_of_count_eq_one hcount (by simpa [node?] using hv) (by simpa [node?] using hu)

theorem length_qubits (d : Dag) : d.qubits.length = d.qubitCount := by
  simp [qubits, qubitCount, Register.total_eq_sum, List.length_flatMap]

theorem length_wires (d : Dag) : d.wires.length = d.qubitCount + d.clbitCount := by
  simp [wires, qubits, clbits, qubitCount, clbitCount, Register.total_eq_sum, List.length_flatMap]

theorem numbered?_eq_some_iff {v u : Nat} {op : Operation} :
    d.numbered? v = some (u, op) ↔ u = v ∧ d.node? v = some (.op op) := by
  simp only [numbered?, Option.map_eq_some_iff, Option.bind_eq_some_iff, Prod.mk.injEq]
  constructor
  · rintro ⟨o, ⟨node, hnode, ho⟩, rfl, rfl⟩
    cases node with
    | op o' => exact ⟨rfl, hnode.trans (congrArg (some ∘ Node.op) (Option.some.inj ho))⟩
    | input w | output w => cases ho
  · rintro ⟨rfl, h⟩
    exact ⟨op, ⟨_, h, rfl⟩, rfl, rfl⟩

theorem mem_operations_iff {v : Nat} {op : Operation} :
    (v, op) ∈ d.operations ↔ d.node? v = some (.op op) := by
  simp only [operations, List.mem_filterMap, numbered?_eq_some_iff, List.mem_range]
  constructor
  · rintro ⟨_, _, rfl, h⟩
    exact h
  · intro h
    exact ⟨v, (Array.getElem?_eq_some_iff.mp h).1, rfl, h⟩

theorem mem_visits {v : Nat} {w : Wire} :
    v ∈ visits d.operations w ↔ ∃ o, d.node? v = some (.op o) ∧ w ∈ o.wires := by
  simp only [visits, List.mem_flatMap, List.mem_replicate, Prod.exists, ne_eq,
    List.count_eq_zero, not_not]
  constructor
  · rintro ⟨u, o, ho, hw, rfl⟩
    exact ⟨o, mem_operations_iff.mp ho, hw⟩
  · rintro ⟨o, ho, hw⟩
    exact ⟨v, o, mem_operations_iff.mpr ho, hw, rfl⟩

theorem Sound.mem_wires_of_op (h : d.Sound) {v : Nat} {op : Operation} {w : Wire}
    (hv : d.node? v = some (.op op)) (hw : w ∈ op.wires) : w ∈ d.wires := by
  by_contra hn
  have hmem : v ∈ visits d.operations w := mem_visits.mpr ⟨op, hv, hw⟩
  rw [h.threaded.idle w hn] at hmem
  cases hmem

theorem operations_pairwise (d : Dag) : d.operations.Pairwise fun a b => a.1 < b.1 := by
  refine List.pairwise_lt_range.filterMap _ fun u v huv a ha b hb => ?_
  obtain ⟨rfl, -⟩ := numbered?_eq_some_iff.mp (show d.numbered? u = some (a.1, a.2) from ha)
  obtain ⟨rfl, -⟩ := numbered?_eq_some_iff.mp (show d.numbered? v = some (b.1, b.2) from hb)
  exact huv

theorem filterMap_range_getElem? {α : Type} (l : List α) :
    (List.range l.length).filterMap (fun i => l[i]?) = l := by
  induction l using List.reverseRecOn with
  | nil => rfl
  | append_singleton l a ih =>
    have hold : ∀ i ∈ List.range l.length, (l ++ [a])[i]? = l[i]? := fun i hi =>
      List.getElem?_append_left (List.mem_range.mp hi)
    rw [List.length_append, List.length_singleton, List.range_succ, List.filterMap_append,
      List.filterMap_congr hold, ih]
    simp

theorem filterMap_node? (d : Dag) :
    (List.range d.nodeCount).filterMap d.node? = d.graph.nodes.toList := by
  have hl := filterMap_range_getElem? d.graph.nodes.toList
  simp only [Array.length_toList, Array.getElem?_toList] at hl
  exact hl

theorem map_snd_operations (d : Dag) :
    d.operations.map Prod.snd = d.graph.nodes.toList.filterMap Node.operation? := by
  rw [operations, List.map_filterMap, ← filterMap_node?, List.filterMap_filterMap]
  refine List.filterMap_congr fun v _ => ?_
  simp [numbered?]

theorem operations_of_nodes_eq {d' : Dag} (h : d'.graph.nodes = d.graph.nodes) :
    d'.operations = d.operations := by
  have hn : d'.numbered? = d.numbered? := by
    funext v
    rw [numbered?, numbered?, node?, node?, h]
  rw [operations, operations, hn, nodeCount, nodeCount, Digraph.size, Digraph.size, h]

theorem operations_of_nodes_push {d' : Dag} {node : Node}
    (h : d'.graph.nodes = d.graph.nodes.push node) :
    d'.operations = d.operations ++ (node.operation?.map (d.nodeCount, ·)).toList := by
  have hcount : d'.nodeCount = d.nodeCount + 1 := by
    rw [nodeCount, Digraph.size, h, Array.size_push]
    rfl
  have hold : ∀ v ∈ List.range d.nodeCount, d'.numbered? v = d.numbered? v := by
    intro v hv
    rw [numbered?, numbered?, node?, node?, h, Array.getElem?_push_lt (List.mem_range.mp hv),
      Array.getElem?_eq_getElem (List.mem_range.mp hv)]
  have hlast : d'.node? d.nodeCount = some node := by
    rw [node?, h]
    exact Array.getElem?_push_size
  rw [operations, operations, hcount, List.range_succ, List.filterMap_append,
    List.filterMap_congr hold, List.filterMap_cons, List.filterMap_nil, numbered?, hlast,
    Option.bind_some]
  cases node.operation? <;> rfl

/-- Besides the ends of the wires there are the operations. -/
theorem Sound.length_operations (h : d.Sound) : d.operations.length = d.opCount := by
  have hcount := h.node_count
  have hinputs := h.threaded.inputs_keys.length_eq
  rw [Table.keys, List.length_map] at hinputs
  rw [opCount, Table.size, hinputs]
  rw [nodeCount] at hcount
  omega

theorem Sound.empty : Sound {} where
  qnames := List.nodup_nil
  cnames := List.nodup_nil
  threaded := Threaded.empty
  starts_eq := rfl
  node_count := rfl
  segment_count := rfl

theorem foldl_addWire_declared (new : List Wire) (d : Dag) :
    (new.foldl addWire d).qregs = d.qregs ∧ (new.foldl addWire d).cregs = d.cregs ∧
      (new.foldl addWire d).basis = d.basis := by
  induction new generalizing d with
  | nil => exact ⟨rfl, rfl, rfl⟩
  | cons w new ih => exact ih (d.addWire w)

@[simp] theorem foldl_addWire_qregs (new : List Wire) (d : Dag) :
    (new.foldl addWire d).qregs = d.qregs :=
  (foldl_addWire_declared new d).1

@[simp] theorem foldl_addWire_cregs (new : List Wire) (d : Dag) :
    (new.foldl addWire d).cregs = d.cregs :=
  (foldl_addWire_declared new d).2.1

@[simp] theorem foldl_addWire_basis (new : List Wire) (d : Dag) :
    (new.foldl addWire d).basis = d.basis :=
  (foldl_addWire_declared new d).2.2

theorem edit_addCreg_of_new {r : Register} (hr : d.creg? r.name = none) :
    edit (addCreg r) d =
      (.ok (), { (r.clbits.map Wire.clbit).foldl addWire d with cregs := d.cregs ++ [r] }) := by
  have hnew : ¬ (Register.find? (d.registers .classical) r.name).isSome :=
    Option.not_isSome_iff_eq_none.mpr hr
  rw [addCreg, edit_addRegister, if_neg hnew]
  simp

theorem registers_addRegister (d : Dag) (r : Register) (k k' : BitKind) :
    (((r.wires k).foldl addWire d).withRegister k r).registers k' =
      if k' = k then d.registers k ++ [r] else d.registers k' := by
  cases k <;> cases k' <;> simp

theorem threaded_foldl_addWire {ws : List Wire} {trail : Wire → List Nat} (new : List Wire)
    (h : d.Threaded ws trail) (hn : new.Nodup) (hd : ∀ w ∈ new, w ∉ ws) :
    (new.foldl addWire d).Threaded (ws ++ new) trail := by
  induction new generalizing d ws with
  | nil => simpa using h
  | cons w new ih =>
    obtain ⟨hwn, hn⟩ := List.nodup_cons.mp hn
    have hrest := ih (h.addWire (hd w List.mem_cons_self)) hn fun x hx => by
      rw [List.mem_append, List.mem_singleton, not_or]
      exact ⟨hd x (List.mem_cons_of_mem _ hx), fun hxw => hwn (hxw ▸ hx)⟩
    simpa using hrest

theorem foldl_addWire_nodes (new : List Wire) (d : Dag) :
    (new.foldl addWire d).graph.nodes.toList =
      d.graph.nodes.toList ++ new.flatMap fun w => [.input w, .output w] := by
  induction new generalizing d with
  | nil => simp
  | cons w new ih =>
    rw [List.foldl_cons, ih]
    simp [addWire, Digraph.addNode, Digraph.addArc]

theorem foldl_addWire_size (new : List Wire) (d : Dag) :
    (new.foldl addWire d).graph.size = d.graph.size + 2 * new.length ∧
      (new.foldl addWire d).graph.arcs.size = d.graph.arcs.size + new.length := by
  induction new generalizing d with
  | nil => exact ⟨rfl, rfl⟩
  | cons w new ih =>
    obtain ⟨hnodes, harcs⟩ := ih (d.addWire w)
    rw [List.foldl_cons, hnodes, harcs]
    simp only [addWire, Digraph.size, Digraph.addNode, Digraph.addArc, Array.size_push,
      List.length_cons]
    omega

theorem foldl_addWire_operations (new : List Wire) (d : Dag) :
    (new.foldl addWire d).operations = d.operations := by
  induction new generalizing d with
  | nil => rfl
  | cons w new ih =>
    rw [List.foldl_cons, ih,
      operations_of_nodes_push (d := { d with graph := d.graph.addNode (.input w) }) rfl,
      operations_of_nodes_push (d := d) rfl]
    simp [Node.operation?]

theorem foldl_addWire_starts (new : List Wire) (d : Dag) :
    (new.foldl addWire d).starts = d.starts ++ new := by
  have hnew : (new.flatMap fun w => [Node.input w, .output w]).filterMap (fun
      | .input w => some w
      | _ => none) = new := by
    induction new with
    | nil => rfl
    | cons w new ih => simpa using ih
  rw [starts, starts, foldl_addWire_nodes, List.filterMap_append, hnew]

/-- A circuit that gains wires stays sound, if its registers gain the same bits. -/
theorem Sound.gain {d' : Dag} {new : List Wire} (h : d.Sound)
    (hd' : (new.foldl addWire d).SameWiring d') (hn : new.Nodup)
    (hd : ∀ w ∈ new, d.hasWire w = false) (hq : (d'.qregs.map Register.name).Nodup)
    (hc : (d'.cregs.map Register.name).Nodup) (hw : (d.wires ++ new).Perm d'.wires)
    (hs : d.qubits ++ new.filterMap Wire.qubit? = d'.qubits) :
    d'.Sound ∧ d'.operations = d.operations := by
  have hops : d'.operations = d.operations :=
    (operations_of_nodes_eq (by rw [hd'.graph])).trans (foldl_addWire_operations new d)
  have hthreaded := threaded_foldl_addWire new h.threaded hn fun w hw => by
    rw [h.mem_wires_iff, hd w hw]
    exact Bool.false_ne_true
  obtain ⟨hnodes, harcs⟩ := foldl_addWire_size new d
  -- Each new wire brings two nodes and one arc, which is what the counts ask for.
  have hlen := hw.length_eq
  have hnode := h.node_count
  have hsegment := h.segment_count
  rw [List.length_append] at hlen
  constructor
  · constructor
    case qnames => exact hq
    case cnames => exact hc
    case threaded =>
      rw [hops]
      exact (hthreaded.of_sameWiring hd').perm hw
    case starts_eq =>
      have hstarts : d'.starts = d.starts ++ new := by
        rw [← foldl_addWire_starts, starts, starts, hd'.graph]
      rw [hstarts, List.filterMap_append, h.starts_eq, hs]
    case node_count =>
      rw [hops, nodeCount, hd'.graph, hnodes]
      rw [nodeCount] at hnode
      omega
    case segment_count =>
      rw [hops, segmentCount, hd'.graph, harcs]
      rw [segmentCount] at hsegment
      omega
  · exact hops

theorem hasQubit_eq_false {q : Qubit} (h : d.qreg? q.register = none) : d.hasQubit q = false := by
  rw [hasQubit, h]
  rfl

theorem hasClbit_eq_false {c : Clbit} (h : d.creg? c.register = none) : d.hasClbit c = false := by
  rw [hasClbit, h]
  rfl

theorem nodup_names_append {rs : List Register} {r : Register} (hn : (rs.map Register.name).Nodup)
    (hr : ¬ (Register.find? rs r.name).isSome) : ((rs ++ [r]).map Register.name).Nodup := by
  rw [List.map_append, List.map_singleton]
  refine hn.append (List.nodup_singleton _) (List.disjoint_singleton.mpr fun hm => hr ?_)
  exact Register.find?_isSome_iff.mpr hm

theorem Sound.addRegister (h : d.Sound) (k : BitKind) (r : Register) :
    (edit (addRegister k r) d).2.Sound ∧
      (edit (addRegister k r) d).2.operations = d.operations := by
  rw [edit_addRegister]
  split
  · exact ⟨h, rfl⟩
  · rename_i hr
    cases k with
    | quantum =>
      refine h.gain ⟨rfl, rfl, rfl, rfl⟩ (r.wires_nodup .quantum) ?_ ?_ (by simpa using h.cnames)
        ?_ ?_
      · intro w hw
        obtain ⟨q, hq, rfl⟩ := List.mem_map.mp hw
        refine hasQubit_eq_false ?_
        rw [← (Register.mem_qubits.mp hq).1]
        simpa [qreg?] using hr
      · simpa using nodup_names_append h.qnames hr
      · simp only [wires, qubits, clbits, wires_quantum, withRegister_quantum, foldl_addWire_qregs,
          foldl_addWire_cregs, List.flatMap_append, List.flatMap_singleton, List.map_append,
          List.append_assoc]
        exact List.perm_append_comm.append_left _
      · simp [qubits, Wire.qubit?, List.filterMap_map, Function.comp_def]
    | classical =>
      refine h.gain ⟨rfl, rfl, rfl, rfl⟩ (r.wires_nodup .classical) ?_ (by simpa using h.qnames)
        ?_ ?_ ?_
      · intro w hw
        obtain ⟨c, hc, rfl⟩ := List.mem_map.mp hw
        refine hasClbit_eq_false ?_
        rw [← (Register.mem_clbits.mp hc).1]
        simpa [creg?] using hr
      · simpa using nodup_names_append h.cnames hr
      · simp [wires, qubits, clbits]
      · simp [qubits, Wire.qubit?, List.filterMap_map, Function.comp_def]

theorem enlarge_map_name (name : String) (size : Nat) (rs : List Register) :
    (enlarge name size rs).map Register.name = rs.map Register.name := by
  induction rs with
  | nil => rfl
  | cons r rs ih =>
    rw [enlarge]
    split
    · rfl
    · rw [List.map_cons, List.map_cons, ih]

theorem clbits_enlarge_perm {name : String} {rs : List Register} {r : Register}
    (hr : Register.find? rs name = some r) (size : Nat) :
    (rs.flatMap Register.clbits ++
        (List.range' r.size (size - r.size)).map (Clbit.mk r.name)).Perm
      ((enlarge name size rs).flatMap Register.clbits) := by
  induction rs with
  | nil => simp [Register.find?] at hr
  | cons r' rs ih =>
    rw [enlarge]
    by_cases hn : r'.name = name
    · obtain rfl : r' = r := by simpa [Register.find?, hn] using hr
      have hrange : List.range (max r'.size size) =
          List.range r'.size ++ List.range' r'.size (size - r'.size) := by
        rw [List.range_eq_range', List.range_eq_range',
          ← Nat.add_sub_of_le (Nat.le_max_left r'.size size), ← List.range'_append_1, Nat.zero_add]
        congr 2
        omega
      rw [if_pos hn, List.flatMap_cons, List.flatMap_cons, Register.clbits, Register.clbits, hrange,
        List.map_append, List.append_assoc, List.append_assoc]
      exact List.perm_append_comm.append_left _
    · rw [if_neg hn, List.flatMap_cons, List.flatMap_cons, List.append_assoc]
      exact (ih (by simpa [Register.find?, hn] using hr)).append_left _

theorem Sound.growCreg (h : d.Sound) (name : String) (size : Nat) :
    (edit (growCreg name size) d).2.Sound ∧
      (edit (growCreg name size) d).2.operations = d.operations := by
  rw [edit_growCreg]
  cases hr : d.creg? name with
  | none => exact ⟨h, rfl⟩
  | some r =>
    have hn : r.name = name := by simpa using List.find?_some hr
    refine h.gain ⟨rfl, rfl, rfl, rfl⟩ ?_ ?_ (by simpa using h.qnames)
      (by simpa [enlarge_map_name] using h.cnames) ?_ ?_
    · exact (List.nodup_range').map fun _ _ hc => congrArg Clbit.index (Wire.clbit.inj hc)
    · intro w hw
      obtain ⟨i, hi, rfl⟩ := List.mem_map.mp hw
      rw [List.mem_range'_1] at hi
      simp only [hasWire, hasClbit, hn, hr, Option.any_some, decide_eq_false_iff_not]
      omega
    · have hp := (clbits_enlarge_perm hr size).map Wire.clbit
      simp only [wires, qubits, clbits, foldl_addWire_qregs, List.append_assoc]
      refine List.Perm.append_left _ ?_
      simpa [gained, Function.comp_def] using hp
    · simp [gained, qubits, Wire.qubit?, List.filterMap_map, Function.comp_def]

theorem Sound.withBasis (h : d.Sound) (basis : List Signature) : Sound { d with basis := basis } :=
  { h with threaded := h.threaded.of_sameWiring ⟨rfl, rfl, rfl, rfl⟩ }

theorem Sound.declare (h : d.Sound) (s : Signature) :
    (edit (declare s) d).2.Sound ∧ (edit (declare s) d).2.operations = d.operations := by
  rw [edit_declare]
  cases d.signature? s.name with
  | none => exact ⟨h.withBasis _, rfl⟩
  | some declared => dsimp only; split <;> exact ⟨h, rfl⟩

theorem wires_subset_of_fault?_eq_none (h : d.Sound) {op : Operation} (hf : d.fault? op = none) :
    op.wires ⊆ d.wires := by
  simp only [fault?, Option.or_eq_none_iff, Option.map_eq_none_iff, List.find?_eq_none,
    Bool.not_eq_true, Bool.not_eq_false'] at hf
  obtain ⟨-, hq, hc, -, -⟩ := hf
  intro w hw
  rw [h.mem_wires_iff]
  rcases List.mem_append.mp hw with hw | hw
  · obtain ⟨q, hq', rfl⟩ := List.mem_map.mp hw
    simpa [hasWire] using hq q hq'
  · obtain ⟨c, hc', rfl⟩ := List.mem_map.mp hw
    simpa [hasWire] using hc c hc'

theorem visits_concat (ops : List (Nat × Operation)) (v : Nat) (op : Operation) (w : Wire) :
    visits (ops ++ [(v, op)]) w = visits ops w ++ List.replicate (op.wires.count w) v := by
  simp [visits]

/-- An append either fails and changes nothing, or adds its operation to those there are. -/
theorem Sound.append (h : d.Sound) (op : Operation) :
    (∃ f, d.fault? op = some f ∧ edit (append op) d = (.error f, d)) ∨
    (d.fault? op = none ∧ ∃ d', edit (append op) d = (.ok d.nodeCount, d') ∧ d'.Sound ∧
      d'.operations = d.operations ++ [(d.nodeCount, op)] ∧ d'.qregs = d.qregs ∧
      d'.cregs = d.cregs ∧ d'.basis = d.basis) := by
  cases hf : d.fault? op with
  | some f => exact .inl ⟨f, rfl, edit_append_of_fault hf⟩
  | none =>
    obtain ⟨g, fs, hg, hnodes, harcs, ht⟩ :=
      h.threaded.exists_append hf (wires_subset_of_fault?_eq_none h hf)
    have hops : operations { d with graph := g, fronts := fs } =
        d.operations ++ [(d.nodeCount, op)] :=
      @operations_of_nodes_push d { d with graph := g, fronts := fs } _ hnodes
    have hnode := h.node_count
    have hsegment := h.segment_count
    refine .inr ⟨rfl, _, hg, ⟨h.qnames, h.cnames, ?_, ?_, ?_, ?_⟩, hops, rfl, rfl, rfl⟩
    · rw [hops, funext (visits_concat d.operations d.nodeCount op)]
      exact ht
    · have hst : starts { d with graph := g, fronts := fs } = d.starts := by
        rw [starts, starts, hnodes, Array.toList_push, List.filterMap_append]
        simp
      rw [hst]
      exact h.starts_eq
    · rw [hops, nodeCount, Digraph.size, hnodes, Array.size_push, List.length_append,
        List.length_singleton]
      rw [nodeCount, Digraph.size] at hnode
      have hw : wires { d with graph := g, fronts := fs } = d.wires := rfl
      rw [hw]
      omega
    · rw [hops, segmentCount, harcs, List.map_append, List.sum_append]
      rw [segmentCount] at hsegment
      have hw : wires { d with graph := g, fronts := fs } = d.wires := rfl
      simp only [hw, List.map_cons, List.map_nil, List.sum_singleton]
      omega

end Dag

end CircuitForms
