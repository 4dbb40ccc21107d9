import CircuitForms.Proofs.Convert.Assembled
import CircuitForms.Vertex.Listing

/-! # Listings taken for circuits

A listing may name its vertices by numbers of any size, of which 32 bits count. It is accepted
exactly if with these bits its edges join pins that exist, each of them once, and the circuit has
the edges with these bits. A listing is therefore the listing of the circuit made of it as long as
no number is greater, and a listing with a greater number never is.
-/

namespace CircuitForms

def Link.numbered (l : Link) : Link :=
  { l with source := nodeNumber l.source, target := nodeNumber l.target }

namespace VertexListing

variable {l : VertexListing}

/-- A listing with the numbers that its own are taken for. -/
def numbered (l : VertexListing) : VertexListing :=
  { l with edges := l.edges.map Link.numbered }

/-- A listing whose edges join pins of its vertices, no two of them the same pin. -/
structure Wired (l : VertexListing) : Prop where
  source_exists : ∀ e ∈ l.edges, ∃ x, l.vertices[e.source]? = some x ∧ e.sourcePin < x.outputs
  target_exists : ∀ e ∈ l.edges, ∃ x, l.vertices[e.target]? = some x ∧ e.targetPin < x.inputs
  out_nodup : (l.edges.map Link.out).Nodup
  into_nodup : (l.edges.map Link.into).Nodup

theorem nodeNumber_eq_self_iff {n : Nat} : nodeNumber n = n ↔ n < 1 <<< 32 :=
  Nat.mod_eq_iff_lt (by decide)

theorem numbered_eq_self_iff : l.numbered = l ↔
    ∀ e ∈ l.edges, e.source < 1 <<< 32 ∧ e.target < 1 <<< 32 := by
  obtain ⟨xs, es⟩ := l
  have hlink : ∀ e : Link, e.numbered = e ↔ e.source < 1 <<< 32 ∧ e.target < 1 <<< 32 := by
    rintro ⟨s, p, t, q⟩
    simp [Link.numbered, nodeNumber_eq_self_iff]
  have hmap : es.map Link.numbered = es ↔ ∀ e ∈ es, e.numbered = e := by
    simpa using List.map_inj_left (f := Link.numbered) (g := id) (l := es)
  simp only [numbered, mk.injEq, true_and, hmap, hlink]

theorem Wired.numbered_eq (h : l.Wired) (hsize : l.vertices.length ≤ 1 <<< 32) :
    l.numbered = l := by
  refine numbered_eq_self_iff.mpr fun e he => ⟨?_, ?_⟩
  · obtain ⟨x, hx, -⟩ := h.source_exists e he
    exact (List.getElem?_eq_some_iff.mp hx).1.trans_le hsize
  · obtain ⟨x, hx, -⟩ := h.target_exists e he
    exact (List.getElem?_eq_some_iff.mp hx).1.trans_le hsize

end VertexListing

namespace VertexCircuit

variable {c : VertexCircuit} {l : VertexListing} {xs : List Descriptor} {es : List Link} {e : Link}
  {f : CircuitFault}

theorem wired_toListing_iff : c.toListing.Wired ↔ c.Wired := by
  have hvertex : ∀ v, c.toListing.vertices[v]? = c.vertex? v := fun v => Array.getElem?_toList
  constructor
  · rintro ⟨hs, ht, ho, hi⟩
    exact ⟨fun e he => hvertex e.source ▸ hs e he, fun e he => hvertex e.target ▸ ht e he, ho, hi⟩
  · rintro ⟨hs, ht, ho, hi⟩
    exact ⟨fun e he => hvertex e.source ▸ hs e he, fun e he => hvertex e.target ▸ ht e he, ho, hi⟩

theorem toListing_injective : Function.Injective toListing := by
  rintro ⟨vertices, links, inputs, rfl⟩ ⟨vertices', links', inputs', rfl⟩ h
  obtain ⟨hv, hl⟩ := VertexListing.mk.inj h
  obtain rfl : vertices = vertices' := Array.toList_inj.mp hv
  obtain rfl : links = links' := Array.toList_inj.mp hl
  rfl

theorem enter_eq_assemble (l : VertexListing) :
    enter l = Dag.assemble l.vertices l.numbered.edges := by
  have hlinks : l.edges.forM join = l.numbered.edges.forM addLink :=
    (List.forM_map (g := Link.numbered) (f := addLink)).symm
  rw [enter, hlinks]
  rfl

theorem wired_of_ofListing (h : ofListing l = .ok c) : c.toListing = l.numbered ∧ c.Wired := by
  rw [ofListing, enter_eq_assemble] at h
  obtain ⟨hv, hl, hw⟩ := assemble_ok h
  exact ⟨by rw [toListing, hv, hl]; rfl, hw⟩

theorem exists_ofListing_iff : (∃ c, ofListing l = .ok c) ↔ l.numbered.Wired := by
  constructor
  · rintro ⟨c, hc⟩
    obtain ⟨he, hw⟩ := wired_of_ofListing hc
    exact he ▸ wired_toListing_iff.mpr hw
  · rintro ⟨hs, ht, ho, hi⟩
    rw [ofListing, enter_eq_assemble]
    exact exists_assemble hs ht ho hi

theorem exists_toListing_eq_iff (hsize : l.vertices.length ≤ 1 <<< 32) :
    (∃ c, ofListing l = .ok c ∧ c.toListing = l) ↔ l.Wired := by
  constructor
  · rintro ⟨c, hc, rfl⟩
    exact wired_toListing_iff.mpr (wired_of_ofListing hc).2
  · intro h
    have hself := h.numbered_eq hsize
    obtain ⟨c, hc⟩ := exists_ofListing_iff.mpr (hself.symm ▸ h)
    exact ⟨c, hc, (wired_of_ofListing hc).1.trans hself⟩

/-- A circuit that 32 bits can number is rebuilt from its listing. -/
theorem Wired.ofListing_toListing (h : c.Wired) (hc : c.vertexCount ≤ 1 <<< 32) :
    ofListing c.toListing = .ok c := by
  obtain ⟨c', hc', hsame⟩ :=
    (exists_toListing_eq_iff (l := c.toListing) hc).mpr (wired_toListing_iff.mpr h)
  rw [hc', toListing_injective hsame]

theorem after_eq {α : Type} {x : Edit α} {r : Except CircuitFault α} {c' : VertexCircuit}
    (h : x.run.run c = (r, c')) : after x c = r.map fun _ => c' := by
  have he : edit x c = (r, c') := h
  rw [after, he]

theorem after_bind {x y : Edit Unit} : after (x >>= fun _ => y) c = after x c >>= after y := by
  rcases hx : x.run.run c with ⟨f | a, c'⟩
  · rw [after_eq hx, after_eq (run_bind_error hx)]
    rfl
  · rw [after_eq hx]
    exact congrArg (fun r : Except CircuitFault Unit × VertexCircuit => r.1.map fun _ => r.2)
      (run_bind_ok hx)

theorem ofListing_concat : ofListing ⟨xs, es ++ [e]⟩ = ofListing ⟨xs, es⟩ >>= after (join e) := by
  have henter : enter ⟨xs, es ++ [e]⟩ = enter ⟨xs, es⟩ >>= fun _ => join e := by
    simp [enter]
  rw [ofListing, henter, after_bind]
  rfl

theorem after_join_eq_error : after (join e) c = .error f ↔ c.fault? e.numbered = some f := by
  have hjoin : after (join e) c = (edit (addLink e.numbered) c).1.map fun _ =>
      (edit (addLink e.numbered) c).2 := rfl
  rw [hjoin, edit_addLink]
  cases c.fault? e.numbered <;> simp [Except.map]

theorem ofListing_eq_error_iff : ofListing l = .error f ↔ ∃ pre e post,
    l.edges = pre ++ e :: post ∧
      ∃ c, ofListing ⟨l.vertices, pre⟩ = .ok c ∧ c.fault? e.numbered = some f := by
  obtain ⟨xs, es⟩ := l
  induction es using List.reverseRecOn with
  | nil =>
    obtain ⟨c, hc⟩ : ∃ c, ofListing ⟨xs, []⟩ = .ok c :=
      exists_ofListing_iff.mpr ⟨by simp [VertexListing.numbered], by simp [VertexListing.numbered],
        List.nodup_nil, List.nodup_nil⟩
    simp [hc]
  | append_singleton es e ih =>
    rw [ofListing_concat, bind_eq_error, ih]
    simp only [after_join_eq_error]
    exact exists_split_concat_iff.symm

end VertexCircuit

namespace VertexListing

open VertexCircuit

/-- What becomes of a listing. -/
structure Taken (l : VertexListing) : Prop where
  /-- It is accepted with the numbers that its own are taken for. -/
  accepted_iff : (∃ c, ofListing l = .ok c) ↔ l.numbered.Wired
  toListing_eq : ∀ c, ofListing l = .ok c → c.toListing = l.numbered
  /-- It is accepted and listed again as it was exactly if its own numbers wire its vertices. -/
  faithful_iff : (∃ c, ofListing l = .ok c ∧ c.toListing = l) ↔ l.Wired
  /-- The listing of what is made of it is another one only for the sake of a number too great. -/
  unfaithful_iff : ∀ c, ofListing l = .ok c →
    (c.toListing ≠ l ↔ ∃ e ∈ l.edges, 1 <<< 32 ≤ e.source ∨ 1 <<< 32 ≤ e.target)
  /-- It is refused for its first edge that cannot be added after those before it. -/
  refused_iff : ∀ f, ofListing l = .error f ↔ ∃ pre e post, l.edges = pre ++ e :: post ∧
    ∃ c, ofListing ⟨l.vertices, pre⟩ = .ok c ∧ c.fault? e.numbered = some f

/-- Whatever numbers and pins a listing names, if 32 bits can number its vertices it is taken for
the circuit that its numbers stand for. -/
theorem taken_of_length_lt (l : VertexListing) (hsize : l.vertices.length < 1 <<< 32) :
    l.Taken := by
  constructor
  case accepted_iff => exact exists_ofListing_iff
  case toListing_eq => exact fun c hc => (wired_of_ofListing hc).1
  case faithful_iff => exact exists_toListing_eq_iff hsize.le
  case unfaithful_iff =>
    intro c hc
    rw [(wired_of_ofListing hc).1, Ne, numbered_eq_self_iff]
    simp only [← Nat.not_lt, ← not_and_or, not_forall, exists_prop]
  case refused_iff => exact fun f => ofListing_eq_error_iff

/-- A line whose start is named by a number with 33 bits. -/
def wrapping : VertexListing :=
  ⟨[.lineStart, .lineEnd], [⟨1 <<< 32, 0, 1, 0⟩]⟩

theorem taken_wrapping : wrapping.vertices.length < 1 <<< 32 ∧ wrapping.Taken ∧ ¬ wrapping.Wired ∧
    ∃ c, ofListing wrapping = .ok c ∧ c.toListing = ⟨wrapping.vertices, [⟨0, 0, 1, 0⟩]⟩ := by
  have hsize : wrapping.vertices.length < 1 <<< 32 := by decide
  have htaken := taken_of_length_lt wrapping hsize
  obtain ⟨c, hc⟩ := htaken.accepted_iff.mpr
    ⟨by decide, by decide, List.nodup_singleton _, List.nodup_singleton _⟩
  have hgreat : ∃ e ∈ wrapping.edges, 1 <<< 32 ≤ e.source ∨ 1 <<< 32 ≤ e.target := by decide
  refine ⟨hsize, htaken, fun h => ?_, c, hc, htaken.toListing_eq c hc⟩
  obtain ⟨c', hc', hsame⟩ := htaken.faithful_iff.mpr h
  exact (htaken.unfaithful_iff c' hc').mpr hgreat hsame

end VertexListing

end CircuitForms
