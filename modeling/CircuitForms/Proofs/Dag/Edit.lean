import CircuitForms.Proofs.Dag.Strand
import CircuitForms.Proofs.Effect

/-! # What an edit does

One equation for each edit of a circuit of wires: when it fails, and the circuit it
leaves. An append runs to its end once its checks are passed, since every wire it
names has a last segment.
-/

namespace CircuitForms.Dag

variable {α β : Type} {d : Dag}

@[simp] theorem edit_pure (a : α) (d : Dag) : edit (pure a) d = (.ok a, d) := rfl

@[simp] theorem edit_throw (f : CircuitFault) (d : Dag) :
    edit (throw f : Edit α) d = (.error f, d) := rfl

@[simp] theorem edit_get (d : Dag) : edit get d = (.ok d, d) := rfl

@[simp] theorem edit_set (d d' : Dag) : edit (set d') d = (.ok (), d') := rfl

theorem edit_bind_ok {x : Edit α} {k : α → Edit β} {a : α} {d' : Dag}
    (h : edit x d = (.ok a, d')) : edit (x >>= k) d = edit (k a) d' :=
  run_bind_ok h

theorem edit_bind_eq_ok {x : Edit α} {k : α → Edit β} {b : β} {d' : Dag}
    (h : edit (x >>= k) d = (.ok b, d')) :
    ∃ a d₁, edit x d = (.ok a, d₁) ∧ edit (k a) d₁ = (.ok b, d') :=
  run_bind_eq_ok h

theorem discard_eq (x : Edit α) : discard x = x >>= fun _ => pure () := by
  rw [Functor.discard, map_const, Function.comp_apply, map_eq_pure_bind]

@[simp] theorem edit_get_bind (k : Dag → Edit β) : edit (get >>= k) d = edit (k d) d := rfl

@[simp] theorem registers_quantum (d : Dag) : d.registers .quantum = d.qregs := rfl

@[simp] theorem registers_classical (d : Dag) : d.registers .classical = d.cregs := rfl

@[simp] theorem withRegister_quantum (d : Dag) (r : Register) :
    d.withRegister .quantum r = { d with qregs := d.qregs ++ [r] } := rfl

@[simp] theorem withRegister_classical (d : Dag) (r : Register) :
    d.withRegister .classical r = { d with cregs := d.cregs ++ [r] } := rfl

@[simp] theorem wires_quantum (r : Register) : r.wires .quantum = r.qubits.map .qubit := rfl

@[simp] theorem wires_classical (r : Register) : r.wires .classical = r.clbits.map .clbit := rfl

theorem edit_addRegister (k : BitKind) (r : Register) (d : Dag) :
    edit (addRegister k r) d =
      if (Register.find? (d.registers k) r.name).isSome then (.error (.duplicateRegister r.name), d)
      else (.ok (), ((r.wires k).foldl addWire d).withRegister k r) := by
  rw [addRegister, edit_get_bind]
  split <;> rfl

def gained (r : Register) (size : Nat) : List Wire :=
  (List.range' r.size (size - r.size)).map fun i => .clbit ⟨r.name, i⟩

theorem edit_growCreg (name : String) (size : Nat) (d : Dag) :
    edit (growCreg name size) d =
      match d.creg? name with
      | none => (.error (.registerNotFound name), d)
      | some r => (.ok (), { (gained r size).foldl addWire d with
          cregs := enlarge name size d.cregs }) := by
  rw [growCreg, edit_get_bind]
  cases hr : d.creg? name with
  | none => rfl
  | some r =>
    have hn : r.name = name := by simpa using List.find?_some hr
    subst hn
    rfl

theorem edit_declare (s : Signature) (d : Dag) :
    edit (declare s) d =
      match d.signature? s.name with
      | none => (.ok (), { d with basis := d.basis ++ [s] })
      | some declared =>
        if declared = s then (.ok (), d) else (.error (.basisMismatch s.name declared s), d) := by
  rw [declare, edit_get_bind]
  cases d.signature? s.name with
  | none => rfl
  | some declared => dsimp only; split <;> rfl

variable {ws : List Wire} {trail : Wire → List Nat} {w : Wire} {v source target : Nat}

theorem of_segment?_eq_some {a : Arc Wire} (h : d.segment? w source target = some a) :
    a ∈ d.graph.arcs ∧ a.label = w ∧ a.source = source ∧ a.target = target := by
  have hp : a.label = w ∧ a.target = target := by simpa using List.find?_some h
  obtain ⟨ha, hs⟩ := Digraph.mem_outgoing.mp (List.mem_reverse.mp (List.mem_of_find?_eq_some h))
  exact ⟨Array.mem_toList_iff.mp ha, hp.1, hs, hp.2⟩

theorem exists_segment? (h : (source, target) ∈ d.graph.segments w) :
    ∃ a, d.segment? w source target = some a := by
  obtain ⟨a, ha, hends⟩ := List.mem_map.mp h
  obtain ⟨rfl, rfl⟩ := Prod.mk.inj hends
  obtain ⟨ha, hl⟩ := List.mem_filter.mp ha
  have hout : a ∈ (d.graph.outgoing a.source).reverse :=
    List.mem_reverse.mpr (Digraph.mem_outgoing.mpr ⟨ha, rfl⟩)
  refine Option.isSome_iff_exists.mp (List.find?_isSome.mpr ⟨a, hout, ?_⟩)
  simpa using hl

/-- A wire that can be led on: the tables have its front and its end, and a segment of the wire
joins them. -/
def LeadsOn (d : Dag) (w : Wire) : Prop :=
  ∃ front finish a, d.fronts.get? w = some front ∧ d.outputs.get? w = some finish ∧
    d.segment? w front finish = some a

theorem Threaded.leadsOn (h : d.Threaded ws trail) (hw : w ∈ ws) : d.LeadsOn w := by
  obtain ⟨s, e, hs, hr⟩ := h.wire w hw
  have hlast := List.getLast?_eq_some_getLast (List.cons_ne_nil s (trail w))
  obtain ⟨a, ha⟩ := exists_segment? (hs.last_mem hlast)
  exact ⟨_, e, a, hr.front.trans hlast, hr.output, ha⟩

theorem edit_extend {a : Arc Wire} (hf : d.fronts.get? w = some source)
    (ho : d.outputs.get? w = some target) (ha : d.segment? w source target = some a) (v : Nat) :
    edit (extend v w) d = (.ok (), { d with
      graph := ((d.graph.removeArc a).addArc source v w).addArc v target w
      fronts := d.fronts.insert w v }) := by
  simp [extend, recorded, hf, ho, ha]

/-- Only a wire that leads on is led through a node. -/
theorem leadsOn_of_extend {d' : Dag} {u : Unit} (h : edit (extend v w) d = (.ok u, d')) :
    d.LeadsOn w := by
  rw [extend, edit_get_bind, recorded, recorded] at h
  cases ho : d.outputs.get? w with
  | none =>
    rw [ho] at h
    cases h
  | some finish =>
    cases hf : d.fronts.get? w with
    | none =>
      rw [ho, hf] at h
      cases h
    | some front =>
      rw [ho, hf, pure_bind, pure_bind] at h
      cases ha : d.segment? w front finish with
      | none =>
        rw [ha] at h
        cases h
      | some a => exact ⟨front, finish, a, hf, ho, ha⟩

theorem Threaded.exists_extend (h : d.Threaded ws trail) (hw : w ∈ ws) {op : Operation}
    (hv : d.graph.nodes[v]? = some (.op op)) :
    ∃ g fs, edit (extend v w) d = (.ok (), { d with graph := g, fronts := fs }) ∧
      g.nodes = d.graph.nodes ∧ g.arcs.size = d.graph.arcs.size + 1 ∧
      Threaded { d with graph := g, fronts := fs } ws
        (Function.update trail w (trail w ++ [v])) := by
  obtain ⟨s, e, hs, hr⟩ := h.wire w hw
  obtain ⟨front, finish, a, hf, ho, ha⟩ := h.leadsOn hw
  obtain ⟨ham, hl, rfl, rfl⟩ := of_segment?_eq_some ha
  have he : a.target = e := Option.some.inj (ho.symm.trans hr.output)
  have hsize := (Digraph.removeArc_perm ham).length_eq
  simp only [Array.length_toList, List.length_cons] at hsize
  refine ⟨_, _, edit_extend hf ho ha v, by simp [Digraph.addArc], ?_, ?_⟩
  · simp only [Digraph.addArc, Array.size_push]
    omega
  · rw [he]
    exact h.detour hs hr ham hl hf he hv

/-- Leading the ends of some wires through a node puts it on each as often as it is listed. -/
theorem Threaded.exists_forM_extend {op : Operation} (l : List Wire) (hl : l ⊆ ws)
    (h : d.Threaded ws trail) (hv : d.graph.nodes[v]? = some (.op op)) :
    ∃ g fs, edit (l.forM (extend v)) d = (.ok (), { d with graph := g, fronts := fs }) ∧
      g.nodes = d.graph.nodes ∧ g.arcs.size = d.graph.arcs.size + l.length ∧
      Threaded { d with graph := g, fronts := fs } ws
        fun w => trail w ++ List.replicate (l.count w) v := by
  induction l generalizing d trail with
  | nil => exact ⟨d.graph, d.fronts, rfl, rfl, rfl, by simpa using h⟩
  | cons w l ih =>
    obtain ⟨hw, hl⟩ := List.cons_subset.mp hl
    obtain ⟨g₁, fs₁, hg₁, hnodes₁, harcs₁, ht₁⟩ := h.exists_extend hw hv
    obtain ⟨g, fs, hg, hnodes, harcs, ht⟩ := ih hl ht₁ (hnodes₁ ▸ hv)
    refine ⟨g, fs, (edit_bind_ok hg₁).trans hg, hnodes.trans hnodes₁, ?_, ?_⟩
    · simp only [harcs, harcs₁, List.length_cons]
      omega
    · convert ht using 2 with x
      by_cases hx : x = w
      · subst hx
        rw [Function.update_self, List.count_cons_self, List.append_assoc, List.singleton_append,
          List.replicate_succ]
      · rw [Function.update_of_ne hx, List.count_cons_of_ne (Ne.symm hx)]

theorem edit_append_of_fault {op : Operation} {f : CircuitFault} (h : d.fault? op = some f) :
    edit (append op) d = (.error f, d) := by
  rw [append, edit_get_bind, h]
  rfl

/-- An append that passes its checks succeeds. -/
theorem Threaded.exists_append {op : Operation} (h : d.Threaded ws trail) (hf : d.fault? op = none)
    (hw : op.wires ⊆ ws) :
    ∃ g fs, edit (append op) d = (.ok d.graph.size, { d with graph := g, fronts := fs }) ∧
      g.nodes = d.graph.nodes.push (.op op) ∧
      g.arcs.size = d.graph.arcs.size + op.wires.length ∧
      Threaded { d with graph := g, fronts := fs } ws
        fun w => trail w ++ List.replicate (op.wires.count w) d.graph.size := by
  obtain ⟨g, fs, hg, hnodes, harcs, ht⟩ :=
    (h.addOp op).exists_forM_extend op.wires hw Array.getElem?_push_size
  refine ⟨g, fs, ?_, hnodes, harcs, ht⟩
  rw [append, edit_get_bind, hf]
  exact edit_bind_ok hg

end CircuitForms.Dag
