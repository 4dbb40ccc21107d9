import CircuitForms.Proofs.Effect
import CircuitForms.Proofs.Rows
import CircuitForms.Vertex.Basic

/-! # Wirings

However a circuit of vertices is built, its links join pins that exist and no pin
takes two of them. Where an output pin leads and where an input pin is led to from
are therefore inverse partial functions.
-/

namespace CircuitForms

namespace Link

def out (l : Link) : Cell := ⟨l.source, l.sourcePin⟩

def into (l : Link) : Cell := ⟨l.target, l.targetPin⟩

end Link

namespace VertexCircuit

variable {c : VertexCircuit} {a b : Cell} {l : Link}

inductive Call where
  | addVertex (x : Descriptor)
  | addLink (l : Link)

def call (c : VertexCircuit) : Call → VertexCircuit
  | .addVertex x => (edit (addVertex x) c).2
  | .addLink l => (edit (addLink l) c).2

def of (calls : List Call) : VertexCircuit :=
  calls.foldl call {}

/-- The number of input pins of a vertex, none if there is no such vertex. -/
def pins (c : VertexCircuit) (v : Nat) : Nat :=
  ((c.vertex? v).map Descriptor.inputs).getD 0

theorem lt_of_vertex? {v : Nat} {x : Descriptor} (h : c.vertex? v = some x) : v < c.vertexCount :=
  (Array.getElem?_eq_some_iff.mp h).1

theorem lt_of_pin_lt {v p : Nat} (h : p < c.pins v) : v < c.vertexCount := by
  cases hv : c.vertex? v with
  | none => simp [pins, hv] at h
  | some x => exact lt_of_vertex? hv

structure Wired (c : VertexCircuit) : Prop where
  out_lt : ∀ l ∈ c.links.toList, ∃ x, c.vertex? l.source = some x ∧ l.sourcePin < x.outputs
  into_lt : ∀ l ∈ c.links.toList, ∃ x, c.vertex? l.target = some x ∧ l.targetPin < x.inputs
  out_nodup : (c.links.toList.map Link.out).Nodup
  into_nodup : (c.links.toList.map Link.into).Nodup

theorem exists_link_of_next? (h : c.next? a = some b) :
    ∃ l ∈ c.links.toList, l.out = a ∧ l.into = b := by
  obtain ⟨l, hl, rfl⟩ := Option.map_eq_some_iff.mp h
  have hp := Array.find?_some hl
  simp only [Bool.and_eq_true, beq_iff_eq] at hp
  refine ⟨l, by simpa using Array.mem_of_find?_eq_some hl, ?_, rfl⟩
  rw [Link.out, hp.1, hp.2]

theorem exists_link_of_previous? (h : c.previous? b = some a) :
    ∃ l ∈ c.links.toList, l.out = a ∧ l.into = b := by
  obtain ⟨l, hl, rfl⟩ := Option.map_eq_some_iff.mp h
  have hp := Array.find?_some hl
  simp only [Bool.and_eq_true, beq_iff_eq] at hp
  refine ⟨l, by simpa using Array.mem_of_find?_eq_some hl, rfl, ?_⟩
  rw [Link.into, hp.1, hp.2]

theorem next?_isSome (hl : l ∈ c.links.toList) : (c.next? l.out).isSome := by
  rw [next?, Option.isSome_map, Array.find?_isSome]
  exact ⟨l, by simpa using hl, by simp [Link.out]⟩

theorem previous?_isSome (hl : l ∈ c.links.toList) : (c.previous? l.into).isSome := by
  rw [previous?, Option.isSome_map, Array.find?_isSome]
  exact ⟨l, by simpa using hl, by simp [Link.into]⟩

namespace Wired

variable (h : c.Wired)

include h

theorem next?_iff : c.next? a = some b ↔ ∃ l ∈ c.links.toList, l.out = a ∧ l.into = b := by
  refine ⟨exists_link_of_next?, ?_⟩
  rintro ⟨l, hl, rfl, rfl⟩
  obtain ⟨b, hb⟩ := Option.isSome_iff_exists.mp (next?_isSome hl)
  obtain ⟨l', hl', ho, rfl⟩ := exists_link_of_next? hb
  rw [hb, List.inj_on_of_nodup_map h.out_nodup hl' hl ho]

theorem previous?_iff : c.previous? b = some a ↔ ∃ l ∈ c.links.toList, l.out = a ∧ l.into = b := by
  refine ⟨exists_link_of_previous?, ?_⟩
  rintro ⟨l, hl, rfl, rfl⟩
  obtain ⟨a, ha⟩ := Option.isSome_iff_exists.mp (previous?_isSome hl)
  obtain ⟨l', hl', rfl, hi⟩ := exists_link_of_previous? ha
  rw [ha, List.inj_on_of_nodup_map h.into_nodup hl' hl hi]

theorem previous?_eq_some_iff : c.previous? b = some a ↔ c.next? a = some b := by
  rw [h.previous?_iff, h.next?_iff]

theorem mem_links_iff : l ∈ c.links.toList ↔ c.next? l.out = some l.into := by
  rw [h.next?_iff]
  constructor
  · exact fun hl => ⟨l, hl, rfl, rfl⟩
  · rintro ⟨⟨s, p, t, q⟩, hl, ho, hi⟩
    obtain ⟨rfl, rfl⟩ := Cell.mk.inj ho
    obtain ⟨rfl, rfl⟩ := Cell.mk.inj hi
    exact hl

/-- Two pins never lead to one. -/
theorem next?_inj {a' : Cell} (ha : c.next? a = some b) (ha' : c.next? a' = some b) : a = a' := by
  rw [← h.previous?_eq_some_iff] at ha ha'
  exact Option.some.inj (ha.symm.trans ha')

theorem pin_lt (hb : c.next? a = some b) : b.pin < c.pins b.vertex := by
  obtain ⟨l, hl, -, rfl⟩ := h.next?_iff.mp hb
  obtain ⟨x, hx, hlt⟩ := h.into_lt l hl
  rw [pins, Link.into, hx]
  exact hlt

end Wired

theorem vertex?_push {x y : Descriptor} {v : Nat} (h : c.vertex? v = some y) :
    (c.push x).vertex? v = some y := by
  obtain ⟨hv, rfl⟩ := Array.getElem?_eq_some_iff.mp h
  rw [vertex?, push, Array.getElem?_push_lt hv]

theorem edit_addLink (l : Link) (c : VertexCircuit) :
    edit (addLink l) c =
      match c.fault? l with
      | some f => (.error f, c)
      | none => (.ok (), { c with links := c.links.push l }) := by
  have hget : edit (addLink l) c = edit (match c.fault? l with
      | some f => throw f
      | none => set { c with links := c.links.push l }) c := rfl
  rw [hget]
  cases c.fault? l <;> rfl

/-- A link that may be added joins two free pins. -/
theorem free_of_fault?_eq_none (h : c.fault? l = none) :
    (∃ x, c.vertex? l.source = some x ∧ l.sourcePin < x.outputs) ∧
    (∃ x, c.vertex? l.target = some x ∧ l.targetPin < x.inputs) ∧
    c.next? l.out = none ∧ c.previous? l.into = none := by
  rw [fault?] at h
  cases hs : c.vertex? l.source with
  | none => simp [hs] at h
  | some x =>
    cases ht : c.vertex? l.target with
    | none => simp [hs, ht] at h
    | some y =>
      simp only [hs, ht] at h
      split_ifs at h with h₁ h₂ h₃ h₄
      exact ⟨⟨x, rfl, Nat.lt_of_not_le h₁⟩, ⟨y, rfl, Nat.lt_of_not_le h₂⟩,
        Option.not_isSome_iff_eq_none.mp h₃, Option.not_isSome_iff_eq_none.mp h₄⟩

theorem Wired.addLink (h : c.Wired) (l : Link) : (edit (VertexCircuit.addLink l) c).2.Wired := by
  rw [edit_addLink]
  cases hf : c.fault? l with
  | some f => exact h
  | none =>
    obtain ⟨ho, hi, hn, hp⟩ := free_of_fault?_eq_none hf
    refine ⟨?_, ?_, ?_, ?_⟩
    · intro l' hl'
      rcases List.mem_append.mp (Array.toList_push ▸ hl') with hl' | hl'
      · exact h.out_lt l' hl'
      · exact List.mem_singleton.mp hl' ▸ ho
    · intro l' hl'
      rcases List.mem_append.mp (Array.toList_push ▸ hl') with hl' | hl'
      · exact h.into_lt l' hl'
      · exact List.mem_singleton.mp hl' ▸ hi
    · rw [Array.toList_push, List.map_append]
      refine h.out_nodup.append (List.nodup_singleton _) (List.disjoint_singleton.mpr fun hm => ?_)
      obtain ⟨l', hl', he⟩ := List.mem_map.mp hm
      have hsome := next?_isSome hl'
      rw [he, hn] at hsome
      cases hsome
    · rw [Array.toList_push, List.map_append]
      refine h.into_nodup.append (List.nodup_singleton _) (List.disjoint_singleton.mpr fun hm => ?_)
      obtain ⟨l', hl', he⟩ := List.mem_map.mp hm
      have hsome := previous?_isSome hl'
      rw [he, hp] at hsome
      cases hsome

theorem Wired.addVertex (h : c.Wired) (x : Descriptor) :
    (edit (VertexCircuit.addVertex x) c).2.Wired where
  out_lt l hl := (h.out_lt l hl).imp fun _ hy => ⟨vertex?_push hy.1, hy.2⟩
  into_lt l hl := (h.into_lt l hl).imp fun _ hy => ⟨vertex?_push hy.1, hy.2⟩
  out_nodup := h.out_nodup
  into_nodup := h.into_nodup

theorem wired_empty : Wired {} := ⟨by simp, by simp, List.nodup_nil, List.nodup_nil⟩

theorem wired_of (calls : List Call) : (of calls).Wired := by
  have hrun : ∀ (calls : List Call) (c : VertexCircuit), c.Wired →
      (calls.foldl call c).Wired := by
    intro calls
    induction calls with
    | nil => exact fun c hc => hc
    | cons k calls ih =>
      intro c hc
      refine ih _ ?_
      cases k with
      | addVertex x => exact hc.addVertex x
      | addLink l => exact hc.addLink l
  exact hrun calls {} wired_empty

theorem hasKind_iff {k : Kind} {v : Nat} :
    c.hasKind k v ↔ ∃ x, c.vertex? v = some x ∧ x.kind = k := by
  simp [hasKind, Option.any_eq_true]

theorem mem_inputs {v : Nat} : v ∈ c.inputs ↔ c.hasKind .input v := by
  rw [c.inputs_eq, inputPlaces, List.mem_filter, List.mem_range]
  refine and_iff_right_of_imp fun hv => ?_
  obtain ⟨x, hx, -⟩ := hasKind_iff.mp hv
  exact lt_of_vertex? hx

theorem lineCount_le_vertexCount (c : VertexCircuit) : c.lineCount ≤ c.vertexCount := by
  rw [lineCount, c.inputs_eq]
  exact (List.length_filter_le _ _).trans_eq List.length_range

theorem not_output_of_input {v : Nat} (hi : c.hasKind .input v) : ¬ c.hasKind .output v := by
  intro ho
  obtain ⟨x, hx, hk⟩ := hasKind_iff.mp hi
  obtain ⟨y, hy, hk'⟩ := hasKind_iff.mp ho
  obtain rfl := Option.some.inj (hx.symm.trans hy)
  exact Kind.noConfusion (hk.symm.trans hk')

theorem inputs_pairwise (c : VertexCircuit) : c.inputs.Pairwise (· < ·) :=
  c.inputs_eq ▸ List.pairwise_lt_range.filter _

theorem inputs_nodup (c : VertexCircuit) : c.inputs.Nodup :=
  c.inputs_pairwise.imp Nat.ne_of_lt

end VertexCircuit

end CircuitForms
