import CircuitForms.Proofs.Convert.RoundTrip

/-! # Losses accounted for

What a conversion to vertices reports as lost is what the circuit that is restored lacks,
node by node: the condition of an operation, what it means if it was boxed, and then its
parameters if it had any.
-/

namespace CircuitForms

inductive LossKind where
  | condition
  | meaning
  | params
  deriving DecidableEq

namespace Loss

def node : Loss → Nat
  | condition v _ _ | meaning v _ | params v _ _ => v

def name : Loss → String
  | condition _ n _ | meaning _ n | params _ n _ => n

def kind : Loss → LossKind
  | condition .. => .condition
  | meaning .. => .meaning
  | params .. => .params

end Loss

namespace Operation

variable {u v k : Nat} {o : Operation} {l : Loss} {n : String} {cnd : Condition}

/-- What is lost of an operation at a node. -/
def losses (v : Nat) (o : Operation) : List Loss :=
  (o.condition.map (.condition v o.name)).toList ++
    if (Catalog.standard.byName? o.name).isSome then []
    else .meaning v o.name :: if o.params.isEmpty then [] else [.params v o.name o.params.length]

theorem mem_losses : l ∈ o.losses v ↔
    (∃ cnd, o.condition = some cnd ∧ l = .condition v o.name cnd) ∨
      Catalog.standard.byName? o.name = none ∧
        (l = .meaning v o.name ∨ o.params ≠ [] ∧ l = .params v o.name o.params.length) := by
  rw [losses, List.mem_append, Option.mem_toList, Option.map_eq_some_iff]
  refine or_congr (by simp only [eq_comm]) ?_
  cases Catalog.standard.byName? o.name <;> cases o.params <;> simp

theorem losses_eq_nil_iff : o.losses v = [] ↔
    o.condition = none ∧ (Catalog.standard.byName? o.name).isSome := by
  rw [losses, List.append_eq_nil_iff]
  cases o.condition <;> cases Catalog.standard.byName? o.name <;> simp

theorem condition_mem_losses : .condition u n cnd ∈ o.losses v ↔
    u = v ∧ n = o.name ∧ o.condition = some cnd := by
  simp only [mem_losses, Loss.condition.injEq, reduceCtorEq, and_false, or_false]
  constructor
  · rintro ⟨_, hc, rfl, rfl, rfl⟩
    exact ⟨rfl, rfl, hc⟩
  · rintro ⟨rfl, rfl, hc⟩
    exact ⟨cnd, hc, rfl, rfl, rfl⟩

theorem meaning_mem_losses : .meaning u n ∈ o.losses v ↔
    u = v ∧ n = o.name ∧ Catalog.standard.byName? o.name = none := by
  simp only [mem_losses, Loss.meaning.injEq, reduceCtorEq, and_false, exists_false, or_false,
    false_or]
  tauto

theorem params_mem_losses : .params u n k ∈ o.losses v ↔
    u = v ∧ n = o.name ∧ Catalog.standard.byName? o.name = none ∧ o.params ≠ [] ∧
      k = o.params.length := by
  simp only [mem_losses, Loss.params.injEq, reduceCtorEq, and_false, exists_false, false_or]
  tauto

theorem node_name_of_mem_losses (h : l ∈ o.losses v) : l.node = v ∧ l.name = o.name := by
  obtain ⟨_, -, rfl⟩ | ⟨-, rfl | ⟨-, rfl⟩⟩ := mem_losses.mp h
  · exact ⟨rfl, rfl⟩
  · exact ⟨rfl, rfl⟩
  · exact ⟨rfl, rfl⟩

theorem nodup_kinds (v : Nat) (o : Operation) : ((o.losses v).map Loss.kind).Nodup := by
  rw [losses]
  cases o.condition <;> cases Catalog.standard.byName? o.name <;> cases o.params <;>
    simp [Loss.kind]

end Operation

namespace Dag

variable {d d' : Dag} {p : Policy} {c : VertexCircuit} {register : String} {f : Nat → Nat}
  {v : Nat} {op : Operation} {x : Descriptor} {reported : List Loss} {l : Loss}

/-- What is lost of the operations of a circuit, node by node. -/
def losses (d : Dag) : List Loss :=
  d.operations.flatMap fun x => x.2.losses x.1

theorem mem_losses : l ∈ d.losses ↔
    ∃ o, d.node? l.node = some (.op o) ∧ l ∈ o.losses l.node := by
  simp only [losses, List.mem_flatMap, Prod.exists, mem_operations_iff]
  constructor
  · rintro ⟨v, o, hv, hl⟩
    obtain ⟨rfl, -⟩ := Operation.node_name_of_mem_losses hl
    exact ⟨o, hv, hl⟩
  · rintro ⟨o, hv, hl⟩
    exact ⟨l.node, o, hv, hl⟩

theorem mem_losses_at (hv : d.node? v = some (.op op)) (hl : l.node = v) :
    l ∈ d.losses ↔ l ∈ op.losses v := by
  obtain rfl := hl
  rw [mem_losses]
  constructor
  · rintro ⟨o, ho, hl⟩
    obtain rfl := Node.op.inj (Option.some.inj (ho.symm.trans hv))
    exact hl
  · exact fun hl => ⟨op, hv, hl⟩

theorem losses_eq_nil_iff : d.losses = [] ↔
    ∀ v o, d.node? v = some (.op o) → o.losses v = [] := by
  simp only [losses, List.flatMap_eq_nil_iff, Prod.forall, mem_operations_iff]

theorem ordered_losses (d : Dag) : (d.losses.map Loss.node).Pairwise (· ≤ ·) := by
  rw [List.pairwise_map, losses, List.pairwise_flatMap]
  refine ⟨fun x _ => List.pairwise_of_forall_mem_list fun l hl l' hl' => ?_,
    (operations_pairwise d).imp fun {x y} hxy l hl l' hl' => ?_⟩
  · rw [(Operation.node_name_of_mem_losses hl).1, (Operation.node_name_of_mem_losses hl').1]
  · rw [(Operation.node_name_of_mem_losses hl).1, (Operation.node_name_of_mem_losses hl').1]
    exact hxy.le

theorem nodup_losses (d : Dag) : (d.losses.map fun l => (l.node, l.kind)).Nodup := by
  refine List.pairwise_map.mpr (List.pairwise_flatMap.mpr ⟨fun x _ => ?_, ?_⟩)
  · refine (List.pairwise_map.mp (Operation.nodup_kinds x.1 x.2)).imp fun hne he => ?_
    exact hne (congrArg Prod.snd he)
  · refine (operations_pairwise d).imp fun {x y} hxy l hl l' hl' he => ?_
    have hx := (Operation.node_name_of_mem_losses hl).1
    have hy := (Operation.node_name_of_mem_losses hl').1
    exact hxy.ne (hx.symm.trans ((congrArg Prod.fst he).trans hy))

theorem operations_eq_filterMap_zipIdx (d : Dag) : d.operations =
    d.graph.nodes.toList.zipIdx.filterMap fun x => x.1.operation?.map (x.2, ·) := by
  rw [operations, ← filterMap_range_getElem? d.graph.nodes.toList.zipIdx, List.filterMap_filterMap,
    List.length_zipIdx]
  refine List.filterMap_congr fun v _ => ?_
  rw [numbered?, node?, List.getElem?_zipIdx, Array.getElem?_toList, Nat.zero_add]
  cases d.graph.nodes[v]? <;> rfl

theorem losses_of_dropCondition (h : dropCondition p v op = .ok reported) :
    reported = (op.condition.map (.condition v op.name)).toList := by
  rw [dropCondition] at h
  cases hc : op.condition with
  | none =>
    rw [hc] at h
    exact (Except.ok.inj h).symm
  | some cnd =>
    rw [hc] at h
    dsimp only at h
    split_ifs at h
    exact (Except.ok.inj h).symm

theorem losses_of_boxed (h : boxed v op = .ok (x, reported)) :
    reported = .meaning v op.name ::
      if op.params.isEmpty then [] else [.params v op.name op.params.length] := by
  rw [boxed] at h
  by_cases hq : op.qargs.isEmpty
  · rw [if_pos hq] at h
    cases h
  by_cases hc : !op.cargs.isEmpty
  · rw [if_neg hq, if_pos hc] at h
    cases h
  rw [if_neg hq, if_neg hc] at h
  exact (congrArg Prod.snd (Except.ok.inj h)).symm

/-- However an operation is carried over, what is reported is what it loses. -/
theorem losses_of_describe (h : d.describe p v op = .ok (x, reported)) :
    reported = op.losses v := by
  rw [describe] at h
  rw [Operation.losses]
  cases he : Catalog.standard.byName? op.name with
  | some e =>
    rw [he] at h
    obtain ⟨dropped, hdrop, h⟩ := bind_eq_ok.mp h
    obtain ⟨x', -, h⟩ := bind_eq_ok.mp h
    obtain ⟨-, rfl⟩ := Prod.mk.inj (Except.ok.inj h)
    rw [losses_of_dropCondition hdrop]
    exact (List.append_nil _).symm
  | none =>
    rw [he] at h
    dsimp only at h
    split_ifs at h
    obtain ⟨dropped, hdrop, h⟩ := bind_eq_ok.mp h
    obtain ⟨⟨x', boxing⟩, hbox, h⟩ := bind_eq_ok.mp h
    obtain ⟨-, rfl⟩ := Prod.mk.inj (Except.ok.inj h)
    rw [losses_of_dropCondition hdrop, losses_of_boxed hbox]
    rfl

theorem losses_of_toVertex? {node : Node} {r : Option (Descriptor × List Loss)}
    (h : d.toVertex? p v node = .ok r) :
    (r.map Prod.snd).getD [] = (node.operation?.map (Operation.losses v)).getD [] := by
  cases node with
  | op o =>
    obtain ⟨⟨x, reported⟩, hx, rfl⟩ := map_eq_ok.mp (show (d.describe p v o).map some = _ from h)
    exact losses_of_describe hx
  | input w | output w =>
    unfold toVertex? at h
    split_ifs at h
    · obtain rfl := Except.ok.inj h
      rfl
    · obtain rfl := Except.ok.inj h
      rfl

theorem losses_of_forall₂ {nodes : List (Node × Nat)} {r : List (Option (Descriptor × List Loss))}
    (h : List.Forall₂ (fun x b => d.toVertex? p x.2 x.1 = .ok b) nodes r) :
    r.reduceOption.flatMap Prod.snd =
      (nodes.filterMap fun x => x.1.operation?.map (x.2, ·)).flatMap fun x => x.2.losses x.1 := by
  induction h with
  | nil => rfl
  | @cons a b nodes r hab _ ih =>
    have hb := losses_of_toVertex? hab
    rw [List.filterMap_cons]
    cases b <;> cases ho : a.1.operation? <;> simp_all

/-- What a conversion reports is what the operations lose, in the order of their nodes. -/
theorem losses_of_toVertices (h : d.toVertices p = .ok (c, reported)) : reported = d.losses := by
  obtain ⟨r, hr, h⟩ := bind_eq_ok.mp h
  obtain ⟨ls, -, h⟩ := bind_eq_ok.mp h
  obtain ⟨c', -, h⟩ := bind_eq_ok.mp h
  obtain ⟨-, rfl⟩ := Prod.mk.inj (Except.ok.inj h)
  rw [losses, operations_eq_filterMap_zipIdx]
  exact losses_of_forall₂ (mapM_eq_ok.mp hr)

/-- What is reported of each operation of a circuit is what its vertex and the operation that is
restored of it lack. -/
structure Accounts (d d' : Dag) (c : VertexCircuit) (f : Nat → Nat) (reported : List Loss) :
    Prop where
  ordered : (reported.map Loss.node).Pairwise (· ≤ ·)
  named : ∀ l ∈ reported, ∃ o, d.node? l.node = some (.op o) ∧ l.name = o.name
  /-- Nothing is reported twice of a node. -/
  once : (reported.map fun l => (l.node, l.kind)).Nodup
  condition : ∀ v o, d.node? v = some (.op o) → ∀ n cnd,
    (.condition v n cnd ∈ reported ↔ n = o.name ∧ o.condition = some cnd)
  meaning : ∀ v o, d.node? v = some (.op o) → ∀ n,
    (.meaning v n ∈ reported ↔ n = o.name ∧ c.hasKind .box (d.rank v))
  /-- Boxes stand for the operations that the catalog lacks. -/
  box : ∀ v o, d.node? v = some (.op o) →
    (c.hasKind .box (d.rank v) ↔ Catalog.standard.byName? o.name = none)
  params : ∀ v o o', d.node? v = some (.op o) → d'.node? (f v) = some (.op o') → ∀ n k,
    (.params v n k ∈ reported ↔ n = o.name ∧ o'.params.length ≠ o.params.length ∧
      k = o.params.length - o'.params.length)
  lossless : reported = [] ↔
    ∀ v o o', d.node? v = some (.op o) → d'.node? (f v) = some (.op o') →
      o'.condition = o.condition ∧ o'.params.length = o.params.length ∧
        ¬ c.hasKind .box (d.rank v)

theorem Describes.box_iff (h : Describes d op x) :
    x.kind = .box ↔ Catalog.standard.byName? op.name = none := by
  rw [h.kind]
  cases he : Catalog.standard.byName? op.name with
  | none => simp
  | some e => simpa using Catalog.not_box e (Catalog.byName?_eq_some_iff.mp he).1

theorem Carries.hasKind_box_iff (h : d.Carries p c) (hv : d.node? v = some (.op op)) :
    c.hasKind .box (d.rank v) ↔ Catalog.standard.byName? op.name = none := by
  obtain ⟨x, hx, hdesc⟩ := h.vertex_op hv
  rw [VertexCircuit.hasKind_iff, hx, ← hdesc.box_iff]
  simp

theorem Restores.length_params_eq {o o' : Operation} (h : d.Restores register o o') :
    o'.params.length =
      if Catalog.standard.byName? o.name = none then 0 else o.params.length := by
  rw [h.params]
  cases Catalog.standard.byName? o.name <;> simp

theorem RoundTrip.restores_of_node? (h : RoundTrip d d' register f) {o o' : Operation}
    (hv : d.node? v = some (.op o)) (hv' : d'.node? (f v) = some (.op o')) :
    d.Restores register o o' := by
  obtain ⟨o'', hn, hr⟩ := h.restores v o hv
  obtain rfl := Node.op.inj (Option.some.inj (hn.symm.trans hv'))
  exact hr

theorem RoundTrip.accounts (hf : RoundTrip d d' register f) (h : d.Carries p c) :
    Accounts d d' c f d.losses := by
  constructor
  case ordered => exact ordered_losses d
  case named =>
    intro l hl
    obtain ⟨o, ho, hl⟩ := mem_losses.mp hl
    exact ⟨o, ho, (Operation.node_name_of_mem_losses hl).2⟩
  case once => exact nodup_losses d
  case condition =>
    intro v o hv n cnd
    rw [mem_losses_at hv rfl, Operation.condition_mem_losses, and_iff_right rfl]
  case meaning =>
    intro v o hv n
    rw [mem_losses_at hv rfl, Operation.meaning_mem_losses, and_iff_right rfl, h.hasKind_box_iff hv]
  case box => exact fun v o hv => h.hasKind_box_iff hv
  case params =>
    intro v o o' hv hv' n k
    rw [mem_losses_at hv rfl, Operation.params_mem_losses, and_iff_right rfl,
      (hf.restores_of_node? hv hv').length_params_eq]
    -- A boxed operation loses every parameter, one of the catalog none.
    by_cases hn : Catalog.standard.byName? o.name = none
    · simp [hn, eq_comm (a := 0)]
    · simp [hn]
  case lossless =>
    rw [losses_eq_nil_iff]
    constructor
    · intro hl v o o' hv hv'
      obtain ⟨hcond, hname⟩ := Operation.losses_eq_nil_iff.mp (hl v o hv)
      have hr := hf.restores_of_node? hv hv'
      have hn := Option.isSome_iff_ne_none.mp hname
      rw [h.hasKind_box_iff hv, hr.length_params_eq, if_neg hn, hr.condition, hcond]
      exact ⟨rfl, rfl, hn⟩
    · intro hl v o hv
      obtain ⟨o', hv', hr⟩ := hf.restores v o hv
      obtain ⟨hcond, -, hbox⟩ := hl v o o' hv hv'
      rw [h.hasKind_box_iff hv] at hbox
      exact Operation.losses_eq_nil_iff.mpr
        ⟨hcond.symm.trans hr.condition, Option.isSome_iff_ne_none.mpr hbox⟩

/-- Whatever calls a circuit is built by, the losses that are reported when it is carried over are
what the circuit restored of its vertices lacks. -/
theorem accounts_of {calls : List Call}
    (hc : (History.of calls).dag.toVertices p = .ok (c, reported))
    (hd' : c.toWires register = .ok d') :
    (∃ f, RoundTrip (History.of calls).dag d' register f) ∧
      ∀ f, RoundTrip (History.of calls).dag d' register f →
        Accounts (History.of calls).dag d' c f reported := by
  have h := carries_of_toVertices hc
  obtain ⟨g, ds, op, hg, hds, r⟩ := h.exists_readOff hd'
  refine ⟨⟨_, h.roundTrip (History.sound_of calls).dag hg r hds⟩, fun f hf => ?_⟩
  rw [losses_of_toVertices hc]
  exact hf.accounts h

/-- A guarded gate, and a gate with an angle that the catalog lacks. -/
def lossy : List Call :=
  [.addQreg ⟨"q", 2⟩, .addCreg ⟨"m", 1⟩, .declare ⟨"h", 1, 0, 0⟩, .declare ⟨"xx", 2, 0, 1⟩,
    .append ⟨"h", [⟨"q", 0⟩], [], [], some ⟨"m", 1⟩⟩,
    .append ⟨"xx", [⟨"q", 1⟩, ⟨"q", 0⟩], [], [.symbol "t"], none⟩]

def lossyVertices : VertexCircuit :=
  .of [.addVertex .lineStart, .addVertex .lineEnd, .addVertex .lineStart, .addVertex .lineEnd,
    .addVertex (.onLines .h 1), .addVertex (.onLines .box 2 (.description "xx")),
    .addLink ⟨5, 0, 3, 0⟩, .addLink ⟨0, 0, 4, 0⟩, .addLink ⟨2, 0, 5, 0⟩, .addLink ⟨4, 0, 5, 1⟩,
    .addLink ⟨5, 1, 1, 0⟩]

def lossyRestored : Dag :=
  (History.of [.addQreg ⟨"q", 2⟩, .declare ⟨"h", 1, 0, 0⟩, .append ⟨"h", [⟨"q", 0⟩], [], [], none⟩,
    .declare ⟨"xx", 2, 0, 0⟩, .append ⟨"xx", [⟨"q", 1⟩, ⟨"q", 0⟩], [], [], none⟩]).dag

def lossyReport : List Loss :=
  [.condition 6 "h" ⟨"m", 1⟩, .meaning 7 "xx", .params 7 "xx" 1]

theorem accounts_lossy :
    (History.of lossy).dag.toVertices ⟨true, true⟩ = .ok (lossyVertices, lossyReport) ∧
      lossyVertices.toWires "q" = .ok lossyRestored ∧
      (∃ f, RoundTrip (History.of lossy).dag lossyRestored "q" f) ∧
      ∀ f, RoundTrip (History.of lossy).dag lossyRestored "q" f →
        Accounts (History.of lossy).dag lossyRestored lossyVertices f lossyReport := by
  have hc : (History.of lossy).dag.toVertices ⟨true, true⟩ = .ok (lossyVertices, lossyReport) := by
    decide +kernel
  have hd : lossyVertices.toWires "q" = .ok lossyRestored := by
    decide +kernel
  exact ⟨hc, hd, accounts_of hc hd⟩

end Dag

end CircuitForms
