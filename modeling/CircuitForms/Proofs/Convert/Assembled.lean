import CircuitForms.Proofs.Convert.Carried

/-! # Assembling circuits of vertices

Vertices are always added, and links whenever they join pins that exist and no two of
them share a pin.
-/

namespace CircuitForms.VertexCircuit

variable {c : VertexCircuit} {l : Link} {ls : List Link}

theorem fault?_eq_none (hout : ∃ x, c.vertex? l.source = some x ∧ l.sourcePin < x.outputs)
    (hinto : ∃ x, c.vertex? l.target = some x ∧ l.targetPin < x.inputs)
    (hn : c.next? l.out = none) (hp : c.previous? l.into = none) : c.fault? l = none := by
  obtain ⟨x, hx, hlt⟩ := hout
  obtain ⟨y, hy, hlt'⟩ := hinto
  rw [Link.out] at hn
  rw [Link.into] at hp
  simp [fault?, hx, hy, hn, hp, Nat.not_le.mpr hlt, Nat.not_le.mpr hlt']

theorem next?_eq_none (h : l.out ∉ c.links.toList.map Link.out) : c.next? l.out = none := by
  cases hn : c.next? l.out with
  | none => rfl
  | some b =>
    obtain ⟨l', hl', he, -⟩ := exists_link_of_next? hn
    exact absurd (List.mem_map.mpr ⟨l', hl', he⟩) h

theorem previous?_eq_none (h : l.into ∉ c.links.toList.map Link.into) :
    c.previous? l.into = none := by
  cases hp : c.previous? l.into with
  | none => rfl
  | some a =>
    obtain ⟨l', hl', -, he⟩ := exists_link_of_previous? hp
    exact absurd (List.mem_map.mpr ⟨l', hl', he⟩) h

theorem exists_forM_addLink
    (hout : ∀ l ∈ ls, ∃ x, c.vertex? l.source = some x ∧ l.sourcePin < x.outputs)
    (hinto : ∀ l ∈ ls, ∃ x, c.vertex? l.target = some x ∧ l.targetPin < x.inputs)
    (hn : ((c.links.toList ++ ls).map Link.out).Nodup)
    (hp : ((c.links.toList ++ ls).map Link.into).Nodup) :
    ∃ c', (ls.forM addLink).run.run c = (.ok (), c') := by
  induction ls generalizing c with
  | nil => exact ⟨c, rfl⟩
  | cons l ls ih =>
    have hl : l ∈ l :: ls := List.mem_cons_self
    have hfree : l.out ∉ c.links.toList.map Link.out ∧ l.into ∉ c.links.toList.map Link.into := by
      rw [List.map_append, List.map_cons] at hn hp
      exact ⟨fun hm => (List.disjoint_of_nodup_append hn) hm List.mem_cons_self,
        fun hm => (List.disjoint_of_nodup_append hp) hm List.mem_cons_self⟩
    have hfault := fault?_eq_none (hout l hl) (hinto l hl) (next?_eq_none hfree.1)
      (previous?_eq_none hfree.2)
    have hadd : (addLink l).run.run c = (.ok (), { c with links := c.links.push l }) := by
      have he := edit_addLink l c
      rw [hfault] at he
      exact he
    have hlinks : (c.links.push l).toList ++ ls = c.links.toList ++ l :: ls := by simp
    obtain ⟨c', hrun⟩ := ih (c := { c with links := c.links.push l })
      (fun l' hl' => hout l' (List.mem_cons_of_mem l hl'))
      (fun l' hl' => hinto l' (List.mem_cons_of_mem l hl')) (hlinks ▸ hn) (hlinks ▸ hp)
    exact ⟨c', (run_bind_ok hadd).trans hrun⟩

/-- An assembly succeeds if its links join pins of its vertices and no two of them share one. -/
theorem exists_assemble {xs : List Descriptor}
    (hout : ∀ l ∈ ls, ∃ x, xs[l.source]? = some x ∧ l.sourcePin < x.outputs)
    (hinto : ∀ l ∈ ls, ∃ x, xs[l.target]? = some x ∧ l.targetPin < x.inputs)
    (hn : (ls.map Link.out).Nodup) (hp : (ls.map Link.into).Nodup) :
    ∃ c, after (Dag.assemble xs ls) {} = .ok c := by
  obtain ⟨c, hvertices, hxs, hlinks, -⟩ := forM_addVertex xs {} wired_empty
  have hv : ∀ u, c.vertex? u = xs[u]? := by
    intro u
    rw [vertex?, ← Array.getElem?_toList, hxs]
    rfl
  have hls : c.links.toList ++ ls = ls := by
    rw [hlinks]
    rfl
  obtain ⟨c', hrun⟩ := exists_forM_addLink (c := c) (fun l hl => by rw [hv]; exact hout l hl)
    (fun l hl => by rw [hv]; exact hinto l hl) (by rwa [hls]) (by rwa [hls])
  refine ⟨c', ?_⟩
  have hedit : edit (Dag.assemble xs ls) {} = (.ok (), c') := (run_bind_ok hvertices).trans hrun
  rw [after, hedit]
  rfl

end CircuitForms.VertexCircuit
