import CircuitForms.Proofs.Dag.Entered
import CircuitForms.Proofs.Digraph.Walk

/-! # Circuits without conditions

A condition is checked when its operation is appended and has no effect after that. What
a circuit is without its conditions can be built without them, and is put in the same
order.
-/

namespace CircuitForms

def Operation.unguarded (op : Operation) : Operation :=
  { op with condition := none }

def Node.unguarded : Node → Node
  | .op o => .op o.unguarded
  | node => node

def DagListing.unguarded (l : DagListing) : DagListing :=
  { l with operations := l.operations.map Operation.unguarded }

namespace Dag

variable {α β : Type} {d d' : Dag} {w : Wire} {op : Operation} {l l' : DagListing}

def unguarded (d : Dag) : Dag :=
  { d with graph := { d.graph with nodes := d.graph.nodes.map Node.unguarded } }

theorem node?_unguarded (d : Dag) (v : Nat) :
    d.unguarded.node? v = (d.node? v).map Node.unguarded := by
  rw [node?, unguarded, Array.getElem?_map]
  rfl

theorem nodeCount_unguarded (d : Dag) : d.unguarded.nodeCount = d.nodeCount :=
  Array.size_map

/-- One edit does without conditions what another does with them, where this one succeeds. -/
def Mirrors (e' e : Edit α) : Prop :=
  ∀ d a d', edit e d = (.ok a, d') → edit e' d.unguarded = (.ok a, d'.unguarded)

theorem Mirrors.pure (a : α) : Mirrors (Pure.pure a) (Pure.pure a) := by
  intro d b d' h
  obtain ⟨he, rfl⟩ := Prod.mk.inj h
  obtain rfl := Except.ok.inj he
  rfl

theorem Mirrors.bind {e e' : Edit α} {k k' : α → Edit β} (he : Mirrors e' e)
    (hk : ∀ a, Mirrors (k' a) (k a)) : Mirrors (e' >>= k') (e >>= k) := by
  intro d b d' h
  obtain ⟨a, d₁, h₁, h₂⟩ := edit_bind_eq_ok h
  exact (edit_bind_ok (he d a d₁ h₁)).trans (hk a d₁ b d' h₂)

theorem Mirrors.discard {e e' : Edit α} (he : Mirrors e' e) :
    Mirrors (Functor.discard e') (Functor.discard e) := by
  rw [discard_eq, discard_eq]
  exact he.bind fun _ => .pure ()

theorem Mirrors.forM_map {f : α → Edit Unit} {f' : β → Edit Unit} {m : α → β}
    (hf : ∀ a, Mirrors (f' (m a)) (f a)) (as : List α) :
    Mirrors ((as.map m).forM f') (as.forM f) := by
  induction as with
  | nil => exact .pure ()
  | cons a as ih => exact (hf a).bind fun _ => ih

theorem Mirrors.forM {f f' : α → Edit Unit} (hf : ∀ a, Mirrors (f' a) (f a)) (as : List α) :
    Mirrors (as.forM f') (as.forM f) := by
  have h := Mirrors.forM_map (m := id) hf as
  rwa [List.map_id] at h

theorem foldl_addWire_unguarded (new : List Wire) (d : Dag) :
    new.foldl addWire d.unguarded = (new.foldl addWire d).unguarded := by
  induction new generalizing d with
  | nil => rfl
  | cons w new ih =>
    have hw : d.unguarded.addWire w = (d.addWire w).unguarded := by
      simp [addWire, unguarded, Digraph.addNode, Digraph.addArc, Digraph.size, Node.unguarded]
    rw [List.foldl_cons, hw, ih, List.foldl_cons]

theorem mirrors_addRegister (k : BitKind) (r : Register) :
    Mirrors (addRegister k r) (addRegister k r) := by
  intro d a d' h
  have hregisters : d.unguarded.registers k = d.registers k := by cases k <;> rfl
  rw [edit_addRegister] at h ⊢
  rw [hregisters, foldl_addWire_unguarded]
  split at h
  · cases h
  · rename_i hr
    obtain ⟨-, rfl⟩ := Prod.mk.inj h
    rw [if_neg hr]
    cases k <;> rfl

theorem mirrors_declare (s : Signature) : Mirrors (declare s) (declare s) := by
  intro d a d' h
  have hs : d.unguarded.signature? s.name = d.signature? s.name := rfl
  rw [edit_declare] at h ⊢
  rw [hs]
  cases hd : d.signature? s.name with
  | none =>
    rw [hd] at h
    obtain ⟨-, rfl⟩ := Prod.mk.inj h
    rfl
  | some declared =>
    rw [hd] at h
    dsimp only at h ⊢
    split at h
    · rename_i he
      obtain ⟨-, rfl⟩ := Prod.mk.inj h
      rw [if_pos he]
    · cases h

theorem removeArc_unguarded (d : Dag) (a : Arc Wire) : d.unguarded.graph.removeArc a =
    { d.graph.removeArc a with nodes := d.graph.nodes.map Node.unguarded } := by
  have harcs : d.unguarded.graph.arcs = d.graph.arcs := rfl
  rw [Digraph.removeArc, Digraph.removeArc, harcs]
  cases d.graph.arcs.findIdx? (· == a) <;> rfl

theorem mirrors_extend (v : Nat) (w : Wire) : Mirrors (extend v w) (extend v w) := by
  intro d a d' h
  obtain ⟨front, finish, arc, hf, ho, harc⟩ := leadsOn_of_extend h
  rw [edit_extend hf ho harc] at h
  obtain ⟨-, rfl⟩ := Prod.mk.inj h
  refine (edit_extend (d := d.unguarded) hf ho harc v).trans ?_
  rw [removeArc_unguarded]
  simp [unguarded, Digraph.addArc]

theorem fault?_unguarded (h : d.fault? op = none) : d.unguarded.fault? op.unguarded = none := by
  simp only [fault?, Option.or_eq_none_iff] at h ⊢
  obtain ⟨hs, hq, hc, hn, -⟩ := h
  exact ⟨hs, hq, hc, hn, rfl⟩

theorem mirrors_append (op : Operation) : Mirrors (append op.unguarded) (append op) := by
  intro d v d' h
  cases hf : d.fault? op with
  | some f =>
    rw [edit_append_of_fault hf] at h
    cases h
  | none =>
    rw [append, edit_get_bind, hf] at h
    rw [append, edit_get_bind, fault?_unguarded hf]
    obtain ⟨_, d₁, h₁, h⟩ := edit_bind_eq_ok h
    obtain ⟨-, rfl⟩ := Prod.mk.inj h₁
    have hnode :
        edit (set { d.unguarded with graph := d.unguarded.graph.addNode (.op op.unguarded) })
          d.unguarded = (.ok (), unguarded { d with graph := d.graph.addNode (.op op) }) := by
      simp [unguarded, Digraph.addNode, Node.unguarded]
    refine (edit_bind_ok hnode).trans ?_
    have hsize : d.unguarded.graph.size = d.graph.size := nodeCount_unguarded d
    have hrest := (Mirrors.forM (mirrors_extend d.graph.size) op.wires).bind fun _ =>
      Mirrors.pure d.graph.size
    rw [hsize]
    exact hrest _ v d' h

theorem mirrors_declareAppend (op : Operation) :
    Mirrors (declareAppend op.unguarded) (declareAppend op) :=
  (mirrors_declare op.signature).bind fun _ => mirrors_append op

/-- A listing that is accepted is accepted without its conditions, and read as the same circuit
without them. -/
theorem ofListing_unguarded (h : ofListing l = .ok d) :
    ofListing l.unguarded = .ok d.unguarded := by
  have hmirror : Mirrors (enter l.unguarded) (enter l) := by
    refine (Mirrors.forM (mirrors_addRegister .quantum) l.qregs).bind fun _ =>
      (Mirrors.forM (mirrors_addRegister .classical) l.cregs).bind fun _ => ?_
    exact Mirrors.forM_map (m := Operation.unguarded)
      (fun op => (mirrors_declareAppend op).discard) l.operations
  have hempty : unguarded {} = {} := by
    simp [unguarded]
  have hrun := hmirror {} () d (ofListing_eq_ok_iff.mp h)
  rw [hempty] at hrun
  exact ofListing_eq_ok_iff.mpr hrun

theorem numbered?_unguarded (d : Dag) (v : Nat) :
    d.unguarded.numbered? v = (d.numbered? v).map (Prod.map id Operation.unguarded) := by
  rw [numbered?, numbered?, node?_unguarded]
  cases d.node? v with
  | none => rfl
  | some node => cases node <;> rfl

theorem order_unguarded (d : Dag) : d.unguarded.order = d.order := by
  have hgraph : d.unguarded.graph.topologicalOrder? = d.graph.topologicalOrder? :=
    Digraph.topologicalOrder?_of_arcs_eq rfl (nodeCount_unguarded d)
  rw [order, order, hgraph]

/-- Without its conditions a circuit is listed as before but for these. -/
theorem toListing_unguarded (h : d.toListing = .ok l) :
    d.unguarded.toListing = .ok l.unguarded := by
  obtain ⟨ops, hops, rfl⟩ := map_eq_ok.mp h
  obtain ⟨order, ho, rfl⟩ := map_eq_ok.mp hops
  have hnumbered : (order.filterMap d.unguarded.numbered?).map Prod.snd =
      ((order.filterMap d.numbered?).map Prod.snd).map Operation.unguarded := by
    rw [funext d.numbered?_unguarded, ← List.map_filterMap, List.map_map, List.map_map]
    rfl
  rw [toListing, topologicalOps, order_unguarded, ho, DagListing.unguarded, ← hnumbered]
  rfl

end Dag

end CircuitForms
