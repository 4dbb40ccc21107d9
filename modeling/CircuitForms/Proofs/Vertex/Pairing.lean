import CircuitForms.Proofs.Vertex.Listed

/-! # Paired pins

However a circuit of vertices is built, its links pair output pins with input pins: looked up
from either side they are the same, whichever of the links a search meets first. A link is
added exactly between two free pins, and the listing of a circuit is the listing of no other.
-/

namespace CircuitForms.VertexCircuit

variable {c : VertexCircuit} {a b : Cell} {l : Link} {x : Descriptor}

namespace Wired

variable (h : c.Wired)

include h

theorem links_nodup : c.links.toList.Nodup :=
  List.Nodup.of_map _ h.out_nodup

theorem count_eq_one_iff : c.links.toList.count l = 1 ↔ c.next? l.out = some l.into := by
  rw [← h.mem_links_iff]
  constructor
  · exact fun hone => List.count_pos_iff.mp (hone ▸ Nat.one_pos)
  · exact List.count_eq_one_of_mem h.links_nodup

theorem next?_eq_of_perm {ls : List Link} (hp : ls.Perm c.links.toList) (a : Cell) :
    (ls.find? (·.out == a)).map Link.into = c.next? a := by
  have hn := (hp.map Link.out).nodup_iff.mpr h.out_nodup
  refine Option.ext fun b => ?_
  simp only [h.next?_iff, Option.map_eq_some_iff, find?_key_eq_some_iff hn, hp.mem_iff, and_assoc]

theorem previous?_eq_of_perm {ls : List Link} (hp : ls.Perm c.links.toList) (b : Cell) :
    (ls.find? (·.into == b)).map Link.out = c.previous? b := by
  have hn := (hp.map Link.into).nodup_iff.mpr h.into_nodup
  refine Option.ext fun a => ?_
  simp only [h.previous?_iff, Option.map_eq_some_iff, find?_key_eq_some_iff hn, hp.mem_iff,
    and_assoc, and_comm]

end Wired

theorem fault?_eq_none_iff : c.fault? l = none ↔
    (∃ x, c.vertex? l.source = some x ∧ l.sourcePin < x.outputs) ∧
    (∃ x, c.vertex? l.target = some x ∧ l.targetPin < x.inputs) ∧
    c.next? l.out = none ∧ c.previous? l.into = none := by
  constructor
  · exact free_of_fault?_eq_none
  · rintro ⟨hout, hinto, hn, hp⟩
    exact fault?_eq_none hout hinto hn hp

theorem addLink_eq_ok_iff : (edit (addLink l) c).1 = .ok () ↔ c.fault? l = none := by
  rw [edit_addLink]
  cases c.fault? l <;> simp

theorem addLink_eq_of_ne_ok (h : (edit (addLink l) c).1 ≠ .ok ()) : (edit (addLink l) c).2 = c := by
  rw [edit_addLink] at h ⊢
  cases hf : c.fault? l with
  | none => exact absurd (by rw [hf]) h
  | some f => rfl

def Call.newInputs (n : Nat) : Call → List Nat
  | .addVertex x => if x.kind = .input then [n] else []
  | .addLink _ => []

theorem inputs_call (k : Call) (c : VertexCircuit) :
    (c.call k).inputs = c.inputs ++ k.newInputs c.vertexCount := by
  cases k with
  | addLink l =>
    rw [call, edit_addLink, Call.newInputs, List.append_nil]
    cases c.fault? l <;> rfl
  | addVertex x =>
    change (c.push x).inputs = _
    by_cases hx : x.kind = .input <;> simp [push, hx, Call.newInputs]

/-- Pins are paired by the links of a circuit, which may be listed and rebuilt. -/
structure Paired (c : VertexCircuit) : Prop where
  source_exists : ∀ l ∈ c.links.toList, ∃ x, c.vertex? l.source = some x ∧ l.sourcePin < x.outputs
  target_exists : ∀ l ∈ c.links.toList, ∃ x, c.vertex? l.target = some x ∧ l.targetPin < x.inputs
  /-- Where an output pin leads is led to from it, and the other way round. -/
  next_iff_previous : ∀ v p w q, c.next? ⟨v, p⟩ = some ⟨w, q⟩ ↔ c.previous? ⟨w, q⟩ = some ⟨v, p⟩
  next_iff_count : ∀ v p w q,
    c.next? ⟨v, p⟩ = some ⟨w, q⟩ ↔ c.links.toList.count ⟨v, p, w, q⟩ = 1
  /-- A search from either side may meet the links in any order. -/
  search : ∀ ls : List Link, ls.Perm c.links.toList →
    (∀ a, (ls.find? (·.out == a)).map Link.into = c.next? a) ∧
    ∀ b, (ls.find? (·.into == b)).map Link.out = c.previous? b
  /-- Lines start at the inputs, in the order of their numbers. -/
  inputs_ascending : c.inputs.Pairwise (· < ·)
  mem_inputs_iff : ∀ v, v ∈ c.inputs ↔ ∃ x, c.vertex? v = some x ∧ x.kind = .input
  /-- A new input comes last among them, and no other vertex or link changes them. -/
  inputs_call : ∀ k, (c.call k).inputs = c.inputs ++ k.newInputs c.vertexCount
  addLink_ok_iff : ∀ l, (edit (addLink l) c).1 = .ok () ↔
    (∃ x, c.vertex? l.source = some x ∧ l.sourcePin < x.outputs) ∧
    (∃ x, c.vertex? l.target = some x ∧ l.targetPin < x.inputs) ∧
    c.next? ⟨l.source, l.sourcePin⟩ = none ∧ c.previous? ⟨l.target, l.targetPin⟩ = none
  /-- A link that cannot be added leaves the circuit as it is. -/
  addLink_unchanged : ∀ l, (edit (addLink l) c).1 ≠ .ok () → (edit (addLink l) c).2 = c
  rebuilt : ofListing c.toListing = .ok c

/-- Whatever calls build a circuit, and whether they succeed or fail, its pins are paired. -/
theorem paired_of (calls : List Call) (hc : (of calls).vertexCount < 1 <<< 32) :
    (of calls).Paired := by
  have hw := wired_of calls
  constructor
  case source_exists => exact hw.out_lt
  case target_exists => exact hw.into_lt
  case next_iff_previous => exact fun v p w q => hw.previous?_eq_some_iff.symm
  case next_iff_count => exact fun v p w q => (hw.count_eq_one_iff (l := ⟨v, p, w, q⟩)).symm
  case search => exact fun ls hp => ⟨hw.next?_eq_of_perm hp, hw.previous?_eq_of_perm hp⟩
  case inputs_ascending => exact inputs_pairwise _
  case mem_inputs_iff => exact fun v => mem_inputs.trans hasKind_iff
  case inputs_call => exact fun k => inputs_call k _
  case addLink_ok_iff => exact fun l => addLink_eq_ok_iff.trans fault?_eq_none_iff
  case addLink_unchanged => exact fun l => addLink_eq_of_ne_ok
  case rebuilt => exact hw.ofListing_toListing hc.le

/-- Two vertices with two links side by side between them and one from a vertex to itself, and a
link that is refused. -/
def entwined : List Call :=
  [.addVertex .lineStart, .addVertex ⟨.box, 3, 3, .description "swap"⟩, .addVertex (.onLines .cx 2),
    .addLink ⟨1, 0, 2, 1⟩, .addLink ⟨1, 1, 2, 0⟩, .addLink ⟨1, 2, 1, 2⟩, .addLink ⟨0, 0, 1, 2⟩]

theorem paired_entwined : (of entwined).vertexCount < 1 <<< 32 ∧
    (of entwined).links = #[⟨1, 0, 2, 1⟩, ⟨1, 1, 2, 0⟩, ⟨1, 2, 1, 2⟩] ∧ (of entwined).Paired := by
  have hc : (of entwined).vertexCount < 1 <<< 32 := by decide +kernel
  exact ⟨hc, by decide +kernel, paired_of entwined hc⟩

end CircuitForms.VertexCircuit
