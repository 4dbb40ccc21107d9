import CircuitForms.Proofs.Dag.Sound
import CircuitForms.Proofs.Stacking

/-! # Layers of operations

The operations of a circuit of wires can be laid over its qubits in layers, one after
the other and each as low as it goes. An operation then lies one layer over the highest
of the earlier operations that share a qubit with it. Classical wires play no part.
-/

namespace CircuitForms

/-- The lowest layer over all qubits of an operation, given how many layers each has. -/
def Operation.layerOver (op : Operation) (height : Qubit → Nat) : Nat :=
  (op.qargs.map height).max?.getD 0 + 1

theorem Operation.isGreatest_layerOver {op : Operation} (hq : op.qargs ≠ [])
    (height : Qubit → Nat) :
    IsGreatest {n | ∃ q ∈ op.qargs, n = height q + 1} (op.layerOver height) :=
  Stack.isGreatest_levelOver hq height

namespace Dag

variable {d : Dag} {v u : Nat} {op : Operation} {pre mid post : List (Nat × Operation)} {q : Qubit}

def heights (ops : List (Nat × Operation)) : Qubit → Nat :=
  ops.foldl (fun height x q => if q ∈ x.2.qargs then x.2.layerOver height else height q) fun _ => 0

def layer (d : Dag) (v : Nat) : Nat :=
  match d.node? v with
  | some (.op op) => op.layerOver (heights (d.operations.filter (·.1 < v)))
  | _ => 0

def firstLine (d : Dag) (v : Nat) : Nat :=
  match d.node? v with
  | some (.op op) => d.qubits.findIdx (· ∈ op.qargs)
  | _ => 0

/-- Whether an operation lies in a lower layer than another, or in the same layer further ahead. -/
def Precedes (d : Dag) (v u : Nat) : Prop :=
  d.layer v < d.layer u ∨ d.layer v = d.layer u ∧ d.firstLine v < d.firstLine u

instance (d : Dag) (v u : Nat) : Decidable (d.Precedes v u) :=
  inferInstanceAs (Decidable (_ ∨ _))

theorem Precedes.asymm (h : d.Precedes v u) : ¬ d.Precedes u v := by
  unfold Precedes at *
  omega

theorem heights_concat (ops : List (Nat × Operation)) (v : Nat) (op : Operation) (q : Qubit) :
    heights (ops ++ [(v, op)]) q =
      if q ∈ op.qargs then op.layerOver (heights ops) else heights ops q := by
  rw [heights, List.foldl_append]
  rfl

theorem lt_layerOver (hq : q ∈ op.qargs) (height : Qubit → Nat) : height q < op.layerOver height :=
  Stack.lt_levelOver hq height

/-- Over each qubit the operations reach as high as the highest tower that ends there. -/
theorem isGreatest_heights (ops : List (Nat × Operation)) (q : Qubit) :
    IsGreatest (Stack.lengths (·.2.qargs) ops (q ∈ ·.2.qargs)) (heights ops q) :=
  Stack.isGreatest_heights ops q

theorem heights_le (ops new : List (Nat × Operation)) (q : Qubit) :
    heights ops q ≤ heights (ops ++ new) q := by
  induction new using List.reverseRecOn with
  | nil => rw [List.append_nil]
  | append_singleton new x ih =>
    rw [← List.append_assoc, heights_concat]
    split
    · rename_i hq
      exact ih.trans (lt_layerOver hq _).le
    · exact ih

theorem node?_of_split (h : d.operations = pre ++ (v, op) :: post) :
    d.node? v = some (.op op) := by
  rw [← mem_operations_iff, h]
  exact List.mem_append_right _ List.mem_cons_self

theorem layer_eq (h : d.operations = pre ++ (v, op) :: post) :
    d.layer v = op.layerOver (heights pre) := by
  have hpair := operations_pairwise d
  rw [h, List.pairwise_append, List.pairwise_cons] at hpair
  obtain ⟨-, ⟨hpost, -⟩, hpre⟩ := hpair
  have hbefore : d.operations.filter (·.1 < v) = pre := by
    rw [h, List.filter_append, List.filter_cons_of_neg (by simp),
      List.filter_eq_self.mpr fun x hx => by simpa using hpre x hx _ List.mem_cons_self,
      List.filter_eq_nil_iff.mpr fun x hx => by simpa using (hpost x hx).le, List.append_nil]
  rw [layer, node?_of_split h]
  dsimp only
  rw [hbefore]

theorem firstLine_eq (hv : d.node? v = some (.op op)) :
    d.firstLine v = d.qubits.findIdx (· ∈ op.qargs) := by
  rw [firstLine, hv]

theorem exists_firstLine (hv : d.node? v = some (.op op)) (hq : q ∈ op.qargs)
    (hd : q ∈ d.qubits) : ∃ q', d.qubits[d.firstLine v]? = some q' ∧ q' ∈ op.qargs := by
  rw [firstLine_eq hv]
  have hlt : d.qubits.findIdx (· ∈ op.qargs) < d.qubits.length :=
    List.findIdx_lt_length_of_exists ⟨q, hd, decide_eq_true hq⟩
  refine ⟨_, List.getElem?_eq_getElem hlt, ?_⟩
  simpa using List.findIdx_getElem (w := hlt)

theorem firstLine_le {j : Nat} (hv : d.node? v = some (.op op)) (hj : d.qubits[j]? = some q)
    (hq : q ∈ op.qargs) : d.firstLine v ≤ j := by
  obtain ⟨hlt, rfl⟩ := List.getElem?_eq_some_iff.mp hj
  rw [firstLine_eq hv]
  by_contra hn
  exact of_decide_eq_false (List.not_of_lt_findIdx (Nat.lt_of_not_le hn)) hq

theorem pairwise_of_splits {α : Type} {R : α → α → Prop} {l : List α}
    (h : ∀ pre a mid b post, l = pre ++ a :: (mid ++ b :: post) → R a b) : l.Pairwise R := by
  induction l with
  | nil => exact .nil
  | cons a l ih =>
    refine .cons (fun b hb => ?_) (ih fun pre a' mid b post hl => ?_)
    · obtain ⟨mid, post, rfl⟩ := List.append_of_mem hb
      exact h [] a mid b post rfl
    · exact h (a :: pre) a' mid b post (by rw [hl, List.cons_append])

/-- Of two operations that share a qubit, the later one lies in the higher layer. -/
theorem layer_pairwise (d : Dag) : d.operations.Pairwise fun x y =>
    (∃ q ∈ x.2.qargs, q ∈ y.2.qargs) → d.layer x.1 < d.layer y.1 := by
  refine pairwise_of_splits fun pre ⟨v, op⟩ mid ⟨u, op'⟩ post h ⟨q, hq, hq'⟩ => ?_
  have h' : d.operations = (pre ++ [(v, op)] ++ mid) ++ (u, op') :: post := by
    rw [h]
    simp
  calc d.layer v
    _ = heights (pre ++ [(v, op)]) q := by rw [heights_concat, if_pos hq, layer_eq h]
    _ ≤ heights (pre ++ [(v, op)] ++ mid) q := heights_le _ _ _
    _ < d.layer u := by
      rw [layer_eq h']
      exact lt_layerOver hq' _

end Dag

end CircuitForms
