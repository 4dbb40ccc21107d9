import CircuitForms.Dag.Listing
import CircuitForms.Proofs.Dag.Sound

/-! # Circuits read from listings

A circuit that is read from a listing is sound, has the listed registers, and its nodes
are the two ends of each wire and then the listed operations, all in order. Conditions
play no part in how it is wired.
-/

namespace CircuitForms

theorem getElem?_flatMap_pair {α β : Type} (f g : α → β) (l : List α) (j : Nat) :
    (l.flatMap fun a => [f a, g a])[2 * j]? = l[j]?.map f ∧
      (l.flatMap fun a => [f a, g a])[2 * j + 1]? = l[j]?.map g := by
  induction l generalizing j with
  | nil => exact ⟨rfl, rfl⟩
  | cons a l ih =>
    cases j with
    | zero => exact ⟨rfl, rfl⟩
    | succ j => exact ih j

def DagListing.withRegister (l : DagListing) : BitKind → Register → DagListing
  | .quantum, r => { l with qregs := l.qregs ++ [r] }
  | .classical, r => { l with cregs := l.cregs ++ [r] }

namespace Dag

variable {α β : Type} {d d' : Dag} {op : Operation} {l : DagListing}

theorem of_edit_forM {f : α → Edit Unit} {P : List α → Dag → Prop}
    (hstep : ∀ as a d d', P as d → edit (f a) d = (.ok (), d') → P (as ++ [a]) d')
    {as bs : List α} (h : P as d) (he : edit (bs.forM f) d = (.ok (), d')) : P (as ++ bs) d' := by
  induction bs generalizing as d with
  | nil =>
    cases he
    rwa [List.append_nil]
  | cons b bs ih =>
    obtain ⟨_, d₁, h₁, he⟩ := edit_bind_eq_ok he
    have hrest := ih (hstep as b d d₁ h h₁) he
    rwa [List.append_assoc, List.singleton_append] at hrest

/-- A circuit holds what is listed and nothing else. -/
structure Holds (d : Dag) (l : DagListing) : Prop where
  sound : d.Sound
  qregs : d.qregs = l.qregs
  cregs : d.cregs = l.cregs
  nodes : d.graph.nodes.toList =
    (d.wires.flatMap fun w => [Node.input w, Node.output w]) ++ l.operations.map Node.op

/-- The wires of a classical register come after all others, those of a quantum one do so where no
classical one is there yet. -/
theorem Holds.addRegister {k : BitKind} {r : Register} (h : d.Holds l) (hl : l.operations = [])
    (hk : k = .quantum → l.cregs = []) (he : edit (Dag.addRegister k r) d = (.ok (), d')) :
    d'.Holds (l.withRegister k r) := by
  have hsound := (h.sound.addRegister k r).1
  have hnodes := h.nodes
  rw [he] at hsound
  rw [edit_addRegister] at he
  split at he
  · cases he
  · obtain ⟨-, rfl⟩ := Prod.mk.inj he
    rw [hl] at hnodes
    cases k with
    | quantum =>
      have hc : d.cregs = [] := h.cregs.trans (hk rfl)
      refine ⟨hsound, by simp [h.qregs, DagListing.withRegister],
        by simp [h.cregs, DagListing.withRegister], ?_⟩
      simp [foldl_addWire_nodes, hnodes, wires, qubits, clbits, hc, hl, DagListing.withRegister]
    | classical =>
      refine ⟨hsound, by simp [h.qregs, DagListing.withRegister],
        by simp [h.cregs, DagListing.withRegister], ?_⟩
      simp [foldl_addWire_nodes, hnodes, wires, qubits, clbits, hl, DagListing.withRegister]

theorem Holds.declare {s : Signature} (h : d.Holds l) (he : edit (Dag.declare s) d = (.ok (), d')) :
    d'.Holds l := by
  have hsound := (h.sound.declare s).1
  rw [he] at hsound
  rw [edit_declare] at he
  cases hs : d.signature? s.name with
  | none =>
    rw [hs] at he
    obtain ⟨-, rfl⟩ := Prod.mk.inj he
    exact ⟨hsound, h.qregs, h.cregs, h.nodes⟩
  | some declared =>
    rw [hs] at he
    dsimp only at he
    split at he
    · obtain ⟨-, rfl⟩ := Prod.mk.inj he
      exact h
    · cases he

theorem Holds.append {v : Nat} (h : d.Holds l) (he : edit (Dag.append op) d = (.ok v, d')) :
    d'.Holds { l with operations := l.operations ++ [op] } := by
  rcases h.sound.append op with ⟨f, -, hf⟩ | ⟨hf, d₁, hd₁, hs₁, -, hq, hc, -⟩
  · cases hf.symm.trans he
  · obtain ⟨g, fs, hg, hnodes, -, -⟩ :=
      h.sound.threaded.exists_append hf (wires_subset_of_fault?_eq_none h.sound hf)
    obtain ⟨-, rfl⟩ := Prod.mk.inj (hd₁.symm.trans he)
    obtain ⟨-, rfl⟩ := Prod.mk.inj (hg.symm.trans hd₁)
    refine ⟨hs₁, hq.trans h.qregs, hc.trans h.cregs, ?_⟩
    rw [hnodes, Array.toList_push, h.nodes, List.map_append, List.append_assoc]
    rfl

theorem edit_discard_eq_ok {x : Edit α} (h : edit (discard x) d = (.ok (), d')) :
    ∃ a, edit x d = (.ok a, d') := by
  rw [discard_eq] at h
  obtain ⟨a, d₁, h₁, h⟩ := edit_bind_eq_ok h
  obtain ⟨-, rfl⟩ := Prod.mk.inj h
  exact ⟨a, h₁⟩

theorem ofListing_eq_ok_iff : ofListing l = .ok d ↔ edit (enter l) {} = (.ok (), d) := by
  rcases hrun : edit (enter l) {} with ⟨o, d'⟩
  rw [ofListing, after, hrun]
  dsimp only
  rw [map_eq_ok, Prod.mk.injEq]
  exact ⟨fun ⟨_, ho, hd⟩ => ⟨ho, hd⟩, fun ⟨ho, hd⟩ => ⟨(), ho, hd⟩⟩

/-- A listing is entered by three loops. -/
theorem exists_entered (h : ofListing l = .ok d) : ∃ d₁ d₂,
    edit (l.qregs.forM addQreg) {} = (.ok (), d₁) ∧
    edit (l.cregs.forM addCreg) d₁ = (.ok (), d₂) ∧
    edit (l.operations.forM fun op => discard (declareAppend op)) d₂ = (.ok (), d) := by
  obtain ⟨_, d₁, h₁, hrun⟩ := edit_bind_eq_ok (ofListing_eq_ok_iff.mp h)
  obtain ⟨_, d₂, h₂, h₃⟩ := edit_bind_eq_ok hrun
  exact ⟨d₁, d₂, h₁, h₂, h₃⟩

theorem holds_of_ofListing (h : ofListing l = .ok d) : d.Holds l := by
  obtain ⟨d₁, d₂, h₁, h₂, h₃⟩ := exists_entered h
  have hq : d₁.Holds ⟨[] ++ l.qregs, [], []⟩ :=
    of_edit_forM (P := fun rs d => d.Holds ⟨rs, [], []⟩)
      (fun _ _ _ _ hd he => hd.addRegister (k := .quantum) rfl (fun _ => rfl) he)
      ⟨Sound.empty, rfl, rfl, rfl⟩ h₁
  have hc : d₂.Holds ⟨l.qregs, [] ++ l.cregs, []⟩ :=
    of_edit_forM (P := fun rs d => d.Holds ⟨l.qregs, rs, []⟩)
      (fun _ _ _ _ hd he => hd.addRegister (k := .classical) rfl nofun he) hq h₂
  refine of_edit_forM (P := fun ops d => d.Holds ⟨l.qregs, l.cregs, ops⟩)
    (fun ops op d d' hd he => ?_) hc h₃
  obtain ⟨_, he⟩ := edit_discard_eq_ok he
  obtain ⟨_, _, hdeclare, happend⟩ := edit_bind_eq_ok he
  exact (hd.declare hdeclare).append happend

namespace Holds

variable (h : d.Holds l)

include h

theorem map_snd_operations : d.operations.map Prod.snd = l.operations := by
  have hends : ((d.wires.flatMap fun w => [Node.input w, Node.output w]).filterMap
      Node.operation?) = [] := by
    refine List.filterMap_eq_nil_iff.mpr fun n hn => ?_
    obtain ⟨w, -, hn⟩ := List.mem_flatMap.mp hn
    rcases List.mem_pair.mp hn with rfl | rfl
    · rfl
    · rfl
  rw [Dag.map_snd_operations, h.nodes, List.filterMap_append, hends, List.nil_append,
    List.filterMap_map]
  exact List.filterMap_some

theorem node?_ends {j : Nat} {w : Wire} (hw : d.wires[j]? = some w) :
    d.node? (2 * j) = some (.input w) ∧ d.node? (2 * j + 1) = some (.output w) := by
  have hends := getElem?_flatMap_pair Node.input Node.output d.wires j
  rw [hw] at hends
  have hlt : ∀ {i : Nat} {n : Node},
      (d.wires.flatMap fun w => [Node.input w, Node.output w])[i]? = some n →
        d.node? i = some n := by
    intro i n hi
    rw [node?, ← Array.getElem?_toList, h.nodes,
      List.getElem?_append_left (List.getElem?_eq_some_iff.mp hi).1, hi]
  exact ⟨hlt hends.1, hlt hends.2⟩

end Holds

end Dag

end CircuitForms
