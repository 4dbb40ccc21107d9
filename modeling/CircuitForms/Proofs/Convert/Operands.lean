import CircuitForms.Proofs.Convert.Lines
import CircuitForms.Proofs.Measurement.Codec

/-! # What is restored of an operation

An operation that is carried over into a vertex and restored from it keeps its name, its
qubits and the bits it writes. What is lost is its condition, and its parameters if it
is boxed.
-/

namespace CircuitForms

namespace VertexCircuit

variable {c : VertexCircuit} {ds : List (Nat × Destination)} {v : Nat}

theorem lookup_of_forall₂ {xs : List (Descriptor × Nat)}
    (h : List.Forall₂ (fun x b => (destination x.2 x.1).map (x.2, ·) = .ok b) xs ds) :
    (∀ x, (x, v) ∈ xs → (ds.lookup v).isSome) ∧
      ∀ dest, ds.lookup v = some dest → ∃ x, (x, v) ∈ xs ∧ destination v x = .ok dest := by
  induction h with
  | nil => exact ⟨(fun x hx => nomatch hx), fun dest hd => nomatch hd⟩
  | @cons a b xs ds hb _ ih =>
    obtain ⟨dest₀, hdest, rfl⟩ := map_eq_ok.mp hb
    by_cases hv : v = a.2
    · rw [List.lookup_cons, hv, beq_self_eq_true]
      refine ⟨fun _ _ => rfl, fun dest hd => ?_⟩
      obtain rfl := Option.some.inj hd
      exact ⟨a.1, List.mem_cons_self, hdest⟩
    · rw [List.lookup_cons, beq_eq_false_iff_ne.mpr hv]
      refine ⟨fun x hx => ?_, fun dest hd => ?_⟩
      · rcases List.mem_cons.mp hx with rfl | hx
        · exact absurd rfl hv
        · exact ih.1 x hx
      · obtain ⟨x, hx, hxd⟩ := ih.2 dest hd
        exact ⟨x, List.mem_cons_of_mem _ hx, hxd⟩

theorem mem_measurements {x : Descriptor} :
    (x, v) ∈ c.vertices.toList.zipIdx.filter (·.1.kind == .measure) ↔
      c.vertex? v = some x ∧ x.kind = .measure := by
  rw [List.mem_filter, List.mem_zipIdx_iff_getElem?, beq_iff_eq, Array.getElem?_toList, vertex?]

theorem measurements_pairwise (c : VertexCircuit) :
    (c.vertices.toList.zipIdx.filter (·.1.kind == .measure)).Pairwise fun a b => a.2 < b.2 := by
  refine List.Pairwise.filter _ (List.pairwise_map.mp ?_)
  rw [List.zipIdx_map_snd]
  exact List.pairwise_lt_range'

/-- Every measurement has a destination, and nothing else has one. -/
theorem lookup_destinations (h : c.destinations = .ok ds) {x : Descriptor}
    (hx : c.vertex? v = some x) :
    (x.kind = .measure → ∃ dest, ds.lookup v = some dest ∧ destination v x = .ok dest) ∧
      (x.kind ≠ .measure → ds.lookup v = none) := by
  obtain ⟨hsome, hdest⟩ := @lookup_of_forall₂ ds v _ (mapM_eq_ok.mp h)
  constructor
  · intro hk
    obtain ⟨dest, hd⟩ := Option.isSome_iff_exists.mp (hsome x (mem_measurements.mpr ⟨hx, hk⟩))
    obtain ⟨y, hy, hyd⟩ := hdest dest hd
    obtain rfl := Option.some.inj ((mem_measurements.mp hy).1.symm.trans hx)
    exact ⟨dest, hd, hyd⟩
  · intro hk
    cases hd : ds.lookup v with
    | none => rfl
    | some dest =>
      obtain ⟨y, hy, -⟩ := hdest dest hd
      obtain ⟨hxy, hky⟩ := mem_measurements.mp hy
      obtain rfl := Option.some.inj (hxy.symm.trans hx)
      exact absurd hky hk

theorem mem_destinations (h : c.destinations = .ok ds) {dest : Destination} :
    (v, dest) ∈ ds ↔
      ∃ x, c.vertex? v = some x ∧ x.kind = .measure ∧ destination v x = .ok dest := by
  rw [mem_of_mapM_eq_ok h]
  constructor
  · rintro ⟨⟨x, u⟩, hm, he⟩
    obtain ⟨dest', hdest, he⟩ := map_eq_ok.mp he
    obtain ⟨rfl, rfl⟩ := Prod.mk.inj he
    obtain ⟨hx, hk⟩ := mem_measurements.mp hm
    exact ⟨x, hx, hk, hdest⟩
  · rintro ⟨x, hx, hk, hdest⟩
    exact ⟨(x, v), mem_measurements.mpr ⟨hx, hk⟩, map_eq_ok.mpr ⟨dest, hdest, rfl⟩⟩

theorem mem_reservedNames {name : String} :
    name ∈ reservedNames ds ↔ ∃ v dest, (v, dest) ∈ ds ∧ ∃ b ∈ dest.bits, b.register = name := by
  simp only [reservedNames, List.mem_flatMap, List.mem_map, Prod.exists]

end VertexCircuit

namespace Dag

variable {d : Dag} {p : Policy} {c : VertexCircuit} {register : String}

def onLine (d : Dag) (register : String) (q : Qubit) : Qubit :=
  ⟨register, d.qubits.idxOf q⟩

/-- What is restored of an operation. -/
structure Restores (d : Dag) (register : String) (o o' : Operation) : Prop where
  name : o'.name = o.name
  qargs : o'.qargs = o.qargs.map (d.onLine register)
  cargs : o.cargs ≠ [] → o'.cargs = o.cargs
  params : o'.params = if (Catalog.standard.byName? o.name).isSome then
    o.params.map fun a => (Rotation.ofAngle a).toAngle else []
  condition : o'.condition = none

theorem qubits_nodup (hd : d.Sound) : d.qubits.Nodup :=
  (List.Nodup.of_append_left hd.threaded.nodup).of_map _

theorem onLine_of_getElem? (hd : d.Sound) {j : Nat} {q : Qubit} (hq : d.qubits[j]? = some q) :
    d.onLine register q = ⟨register, j⟩ := by
  obtain ⟨hj, rfl⟩ := List.getElem?_eq_some_iff.mp hq
  rw [onLine, (qubits_nodup hd).idxOf_getElem j hj]

theorem getElem?_pinAt {v : Nat} {o : Operation} {q : Qubit} (hq : q ∈ o.qargs) :
    o.qargs[(pinAt v (.op o) q).toOption.getD 0]? = some q := by
  by_cases hlen : o.qargs.length ≤ 1
  · have hpin : (pinAt v (.op o) q).toOption.getD 0 = 0 := by
      rw [pinAt, if_pos hlen]
      rfl
    rw [hpin]
    match hargs : o.qargs, hq, hlen with
    | [q'], hq, _ => rw [List.mem_singleton.mp hq]; rfl
  · obtain ⟨i, hi⟩ := Option.isSome_iff_exists.mp (List.isSome_idxOf?.mpr hq)
    have hpin : (pinAt v (.op o) q).toOption.getD 0 = i := by
      rw [pinAt, if_neg hlen, hi]
      rfl
    obtain ⟨hlt, he, -⟩ := List.idxOf?_eq_some_iff.mp hi
    rw [hpin, List.getElem?_eq_getElem hlt, he]

theorem Describes.lookup {u : Nat} {o : Operation} {x : Descriptor}
    {ds : List (Nat × Destination)} (hx : Describes d o x) (hds : c.destinations = .ok ds)
    (hu : c.vertex? u = some x) (hne : o.cargs ≠ []) :
    ds.lookup u = some (Destination.ofClbits o.cargs d.cregs) ∧ o.cargs.Nodup := by
  have hk : x.kind = .measure := by
    by_contra hk
    exact hne (hx.cargs hk)
  obtain ⟨dest, hdest, hdecode⟩ := (VertexCircuit.lookup_destinations hds hu).1 hk
  rw [VertexCircuit.destination, hx.measure hk] at hdecode
  obtain ⟨rfl, hf⟩ := Destination.of_decode_encode (mapError_eq_ok.mp hdecode)
  exact ⟨hdest, Destination.bits_nodup hf⟩

namespace Carries

variable {g : Grid} {ds : List (Nat × Destination)} (h : d.Carries p c)

theorem exists_readOff {d' : Dag} (h : d.Carries p c) (hd' : c.toWires register = .ok d') :
    ∃ g ds op, Grid.Layered c g ∧ c.destinations = .ok ds ∧ c.ReadOff register g ds op d' := by
  obtain ⟨g, ds, op, -, hg, hds, r⟩ :=
    VertexCircuit.exists_readOff h.wired (fun _ hu => h.pins_of_input hu) hd'
  exact ⟨g, ds, op, hg, hds, r⟩

theorem restored_op {op : Nat → Nat × Operation} {d' : Dag} (h : d.Carries p c)
    (r : c.ReadOff register g ds op d') {v : Nat} {o : Operation} (hv : d.node? v = some (.op o)) :
    ∃ x, c.vertex? (d.rank v) = some x ∧ Describes d o x ∧
      VertexCircuit.RestoredAs g register ds (d.rank v) x (op (d.rank v)).2 := by
  obtain ⟨x, hxv, hx⟩ := h.vertex_op hv
  obtain ⟨x', hxv', ho⟩ := r.restored _ (h.isInner_iff.mpr ⟨v, o, hv, rfl⟩)
  obtain rfl := Option.some.inj (hxv.symm.trans hxv')
  exact ⟨x, hxv, hx, ho⟩

variable (hd : d.Sound) (hg : Grid.Layered c g)

include h hd hg

theorem exists_line {j : Nat} {q : Qubit} (hq : d.qubits[j]? = some q) :
    ∃ l, g.lines[j]? = some l := by
  have hj : j < g.lines.length := by
    rw [hg.length_lines, h.lineCount_eq hd]
    rw [← length_qubits]
    exact (List.getElem?_eq_some_iff.mp hq).1
  exact ⟨_, List.getElem?_eq_getElem hj⟩

theorem exists_qubit {j : Nat} {l : List (Option Cell)} (hl : g.lines[j]? = some l) :
    ∃ q, d.qubits[j]? = some q := by
  have hj : j < d.qubits.length := by
    rw [length_qubits, ← h.lineCount_eq hd, ← hg.length_lines]
    exact (List.getElem?_eq_some_iff.mp hl).1
  exact ⟨_, List.getElem?_eq_getElem hj⟩

omit h hg in
theorem carried_of_mem_strand {q : Qubit} {s e u : Nat}
    (hs : d.graph.Strand (.qubit q) s (visits d.operations (.qubit q)) e)
    (hu : u ∈ s :: visits d.operations (.qubit q) ++ [e]) :
    ∃ node, d.node? u = some node ∧ d.isCarried node ∧
      (node.isOp → u ∈ visits d.operations (.qubit q)) := by
  have hqubit : d.hasQubit q := hasQubit_of_input hd hs.start
  rcases List.mem_append.mp hu with hu | hu
  · rcases List.mem_cons.mp hu with rfl | hu
    · refine ⟨_, hs.start, by simpa [isCarried, Wire.qubit?] using hqubit, fun ho => ?_⟩
      exact absurd ho Bool.false_ne_true
    · obtain ⟨o', ho'⟩ := hs.inner u hu
      exact ⟨_, ho', rfl, fun _ => hu⟩
  · obtain rfl := List.mem_singleton.mp hu
    refine ⟨_, hs.finish, by simpa [isCarried, Wire.qubit?] using hqubit, fun ho => ?_⟩
    exact absurd ho Bool.false_ne_true

theorem getElem?_of_lineThrough {v i j : Nat} {o : Operation} (hv : d.node? v = some (.op o))
    (hj : g.lineThrough? ⟨d.rank v, i⟩ = some j) :
    ∃ q, d.qubits[j]? = some q ∧ o.qargs[i]? = some q := by
  obtain ⟨k, hk⟩ := (hg.lineThrough _ _).mp hj
  obtain ⟨l, hl, hcell⟩ := Grid.cell?_eq_some.mp hk
  obtain ⟨q, hq⟩ := h.exists_qubit hd hg hl
  obtain ⟨s, e, hs⟩ := hd.exists_strand (List.mem_of_getElem? hq)
  have hmem : (⟨d.rank v, i⟩ : Cell) ∈ l.reduceOption :=
    List.reduceOption_mem_iff.mpr (List.mem_of_getElem? hcell)
  rw [h.line_eq hd hg hq hs hl] at hmem
  obtain ⟨u, hu, he⟩ := List.mem_map.mp hmem
  obtain ⟨node, hn, hc, hop⟩ := carried_of_mem_strand hd hs hu
  obtain rfl := rank_inj hn hc hv rfl (congrArg Cell.vertex he)
  obtain rfl := Option.some.inj (hn.symm.trans hv)
  obtain ⟨o', ho', hw⟩ := mem_visits.mp (hop rfl)
  obtain rfl := Node.op.inj (Option.some.inj (hn.symm.trans ho'))
  refine ⟨q, hq, ?_⟩
  have hpin : (pinAt u (.op o) q).toOption.getD 0 = i := by
    rw [cellAt, hn] at he
    exact congrArg Cell.pin he
  rw [← hpin]
  refine getElem?_pinAt ?_
  simpa [Operation.wires] using hw

theorem qargs_eq {v : Nat} {o o' : Operation} {x : Descriptor} (hv : d.node? v = some (.op o))
    (hx : Describes d o x) (ho : VertexCircuit.RestoredAs g register ds (d.rank v) x o') :
    o'.qargs = o.qargs.map (d.onLine register) := by
  have hall := VertexCircuit.lineQubits_ok ho.qargs
  have hlen : o'.qargs.length = o.qargs.length := by
    rw [← hall.length_eq, List.length_range, hx.inputs]
  refine List.ext_getElem (by rw [List.length_map, hlen]) fun i hi hi' => ?_
  have hr : i < (List.range x.inputs).length := hall.length_eq ▸ hi
  obtain ⟨j, hj, hq'⟩ := hall.get hr hi
  rw [List.get_eq_getElem, List.getElem_range] at hj
  obtain ⟨q, hq, hqi⟩ := h.getElem?_of_lineThrough hd hg hv hj
  obtain ⟨hi'', he⟩ := List.getElem?_eq_some_iff.mp hqi
  rw [List.getElem_map, he, onLine_of_getElem? hd hq]
  exact hq'

/-- What is restored of an operation. -/
theorem restores {v : Nat} {o o' : Operation} {x : Descriptor}
    (hds : c.destinations = .ok ds) (hv : d.node? v = some (.op o))
    (hxv : c.vertex? (d.rank v) = some x) (hx : Describes d o x)
    (ho : VertexCircuit.RestoredAs g register ds (d.rank v) x o') : d.Restores register o o' where
  name := (Except.ok.inj ((hx.name _).symm.trans ho.name)).symm
  qargs := h.qargs_eq hd hg hv hx ho
  cargs := fun hne =>
    ho.cargs _ (hx.lookup hds hxv hne).1 (List.isEmpty_eq_false_iff.mpr hne)
  params := ho.params.trans hx.params
  condition := ho.condition

end Carries

end Dag

end CircuitForms
