import CircuitForms.Proofs.Convert.Renumbered
import CircuitForms.Proofs.Convert.WireGraph
import CircuitForms.Proofs.Dag.Exchanged

/-! # Carrying over and restoring exchanged operations

Circuits of wires that differ in the numbers of their nodes alone are carried over to
circuits of vertices that differ in the numbers of their vertices alone. So the order in
which operations without a common wire are listed does not matter: both are carried over
or neither, and what comes back is the same circuit.
-/

namespace CircuitForms

namespace Dag

variable {d d' : Dag} {p : Policy} {v v' : Nat} {op : Operation} {x : Descriptor}
  {losses : List Loss} {e : Equiv.Perm Nat} {c c' : VertexCircuit} {q : Qubit} {i : Nat}

theorem exists_dropCondition (v' : Nat) (h : dropCondition p v op = .ok losses) :
    ∃ losses', dropCondition p v' op = .ok losses' := by
  unfold dropCondition at h ⊢
  split at h
  · exact ⟨_, rfl⟩
  · split_ifs at h with hp
    exact ⟨_, if_pos hp⟩

theorem exists_boxed (v' : Nat) (h : boxed v op = .ok (x, losses)) :
    ∃ losses', boxed v' op = .ok (x, losses') := by
  rw [boxed] at h
  rw [boxed]
  by_cases hq : op.qargs.isEmpty
  · rw [if_pos hq] at h
    cases h
  by_cases hc : !op.cargs.isEmpty
  · rw [if_neg hq, if_pos hc] at h
    cases h
  rw [if_neg hq, if_neg hc] at h
  obtain ⟨rfl, -⟩ := Prod.mk.inj (Except.ok.inj h)
  rw [if_neg hq, if_neg hc]
  exact ⟨_, rfl⟩

theorem listed_eq_ok (hc : d'.cregs = d.cregs) {entry : Entry} (v' : Nat)
    (h : d.listed v entry op = .ok x) : d'.listed v' entry op = .ok x := by
  obtain ⟨_, hcheck, h⟩ := bind_eq_ok.mp h
  refine bind_eq_ok.mpr ⟨(), ?_, ?_⟩
  · rw [Entry.check] at hcheck ⊢
    split_ifs at hcheck ⊢
    rfl
  · rw [measured] at h ⊢
    rw [hc]
    split_ifs at h ⊢ <;> exact h

/-- The vertex of an operation does not depend on the number of its node. -/
theorem exists_describe (hc : d'.cregs = d.cregs) (v' : Nat)
    (h : d.describe p v op = .ok (x, losses)) :
    ∃ losses', d'.describe p v' op = .ok (x, losses') := by
  rw [describe] at h ⊢
  cases he : Catalog.standard.byName? op.name with
  | some entry =>
    rw [he] at h
    obtain ⟨dropped, hdropped, h⟩ := bind_eq_ok.mp h
    obtain ⟨y, hy, h⟩ := bind_eq_ok.mp h
    obtain ⟨rfl, -⟩ := Prod.mk.inj (Except.ok.inj h)
    obtain ⟨dropped', hdropped'⟩ := exists_dropCondition v' hdropped
    exact ⟨_, bind_eq_ok.mpr ⟨_, hdropped', bind_eq_ok.mpr ⟨_, listed_eq_ok hc v' hy, rfl⟩⟩⟩
  | none =>
    rw [he] at h
    dsimp only at h ⊢
    split_ifs at h ⊢
    obtain ⟨dropped, hdropped, h⟩ := bind_eq_ok.mp h
    obtain ⟨⟨y, ls⟩, hy, h⟩ := bind_eq_ok.mp h
    obtain ⟨rfl, -⟩ := Prod.mk.inj (Except.ok.inj h)
    obtain ⟨dropped', hdropped'⟩ := exists_dropCondition v' hdropped
    obtain ⟨ls', hboxed⟩ := exists_boxed v' hy
    exact ⟨_, bind_eq_ok.mpr ⟨_, hdropped', bind_eq_ok.mpr ⟨_, hboxed, rfl⟩⟩⟩

/-- A circuit is carried over exactly if its operations are. -/
theorem exists_toVertices_iff (hd : d.Sound) (hc : d.Consistent) :
    (∃ r, d.toVertices p = .ok r) ↔
      ∀ v o, d.node? v = some (.op o) → ∃ r, d.describe p v o = .ok r := by
  constructor
  · rintro ⟨⟨c, losses⟩, h⟩ v o hv
    obtain ⟨x, ls, hx, -⟩ := (wireGraph hd hc h).op v o hv
    exact ⟨(x, ls), hx⟩
  · intro h
    cases hf : d.toVertices p with
    | ok r => exact ⟨r, rfl⟩
    | error f =>
      have hsnd := map_snd_toVertices (p := p) hd hc
      rw [hf, eq_comm, Except.map, map_eq_error] at hsnd
      obtain ⟨x, hx, hf⟩ := exists_of_mapM_eq_error hsnd
      obtain ⟨o, ho, hf⟩ := exists_op_of_toVertex? hf
      have hnode := List.mem_zipIdx_iff_getElem?.mp hx
      obtain ⟨r, hr⟩ := h x.2 o (by rw [← ho]; simpa [node?] using hnode)
      cases hf.symm.trans hr

namespace Renumbers

variable (h : Renumbers e d d')

include h

theorem leaves : d'.Leaves q (e v) i ↔ d.Leaves q v i := by
  constructor
  · rintro (hv | ⟨hv, hi⟩)
    · exact .input (h.node? v ▸ hv)
    · exact .op (h.node? v ▸ hv) hi
  · rintro (hv | ⟨hv, hi⟩)
    · exact .input ((h.node? v).trans hv)
    · exact .op ((h.node? v).trans hv) hi

theorem enters : d'.Enters q (e v) i ↔ d.Enters q v i := by
  constructor
  · rintro (hv | ⟨hv, hi⟩)
    · exact .output (h.node? v ▸ hv)
    · exact .op (h.node? v ▸ hv) hi
  · rintro (hv | ⟨hv, hi⟩)
    · exact .output ((h.node? v).trans hv)
    · exact .op ((h.node? v).trans hv) hi

theorem follows_apply (hf : d.Follows q v v') : d'.Follows q (e v) (e v') := by
  obtain ⟨s, t, hs, ht, hm⟩ := hf
  refine ⟨e s, e t, (h.node? s).trans hs, (h.node? t).trans ht, ?_⟩
  have hpairs (l : List Nat) :
      (l.map e).consecutivePairs = l.consecutivePairs.map (Prod.map e e) := by
    rw [List.consecutivePairs, List.consecutivePairs, ← List.map_tail, List.zip_map]
  have hmap : e s :: Dag.visits d'.operations (.qubit q) ++ [e t] =
      (s :: Dag.visits d.operations (.qubit q) ++ [t]).map e := by
    rw [h.visits, List.map_append, List.map_cons]
    rfl
  rw [hmap, hpairs]
  exact List.mem_map.mpr ⟨_, hm, rfl⟩

theorem isCarried (node : Node) : d'.isCarried node = d.isCarried node := by
  have hq : d'.hasQubit = d.hasQubit := by
    funext q
    rw [hasQubit, hasQubit, qreg?, qreg?, h.qregs]
  cases node <;> simp only [Dag.isCarried, hq]

theorem carried_iff : (d'.node? (e v)).any d'.isCarried ↔ (d.node? v).any d.isCarried := by
  rw [h.node?, funext h.isCarried]

theorem exists_toVertices (hd : d.Sound) (hc : d.Consistent) (hd' : d'.Sound) (hc' : d'.Consistent)
    (hok : ∃ r, d.toVertices p = .ok r) : ∃ r, d'.toVertices p = .ok r := by
  rw [exists_toVertices_iff hd hc] at hok
  rw [exists_toVertices_iff hd' hc']
  intro v o hv
  obtain ⟨v, rfl⟩ := e.surjective v
  obtain ⟨⟨x, losses⟩, hx⟩ := hok v o (h.node? v ▸ hv)
  obtain ⟨losses', hx'⟩ := exists_describe h.cregs (e v) hx
  exact ⟨_, hx'⟩

end Renumbers

noncomputable def vertexMap (e : Equiv.Perm Nat) (d d' : Dag) (u : Nat) : Nat :=
  d'.rank (e (Function.invFunOn d.rank {v | (d.node? v).any d.isCarried} u))

section Vertices

variable (h : Renumbers e d d') (g : WireGraph d p c) (g' : WireGraph d' p c')

theorem vertexMap_rank (e : Equiv.Perm Nat) (d' : Dag) (hv : (d.node? v).any d.isCarried) :
    vertexMap e d d' (d.rank v) = d'.rank (e v) := by
  rw [vertexMap, (strictMonoOn_rank d).injOn.leftInvOn_invFunOn hv]

include g in
theorem exists_rank {u : Nat} (hu : u < c.vertexCount) :
    ∃ v, (d.node? v).any d.isCarried ∧ d.rank v = u :=
  g.bijOn_rank.surjOn hu

include h g g' in
theorem bijOn_vertexMap :
    Set.BijOn (vertexMap e d d') (Set.Iio c.vertexCount) (Set.Iio c'.vertexCount) := by
  have hinv := g.bijOn_rank.symm g.bijOn_rank.invOn_invFunOn.symm
  have he := e.bijOn (s := {v | (d.node? v).any d.isCarried})
    (t := {v | (d'.node? v).any d'.isCarried}) fun v => h.carried_iff
  exact (g'.bijOn_rank.comp he).comp hinv

include h g' in
theorem vertexMap_symm {u : Nat} (hu : u < c'.vertexCount) :
    vertexMap e d d' (vertexMap e.symm d' d u) = u := by
  obtain ⟨v, hv, rfl⟩ := exists_rank g' hu
  have hback : (d.node? (e.symm v)).any d.isCarried := by
    rwa [← h.carried_iff, e.apply_symm_apply]
  rw [vertexMap_rank e.symm d hv, vertexMap_rank e d' hback, e.apply_symm_apply]

include h g in
theorem renumber_mem_links (hd : d.Sound) (hc : d.Consistent) (hd' : d'.Sound)
    (hc' : d'.Consistent) (k : d'.Carries p c') {l : Link} (hl : l ∈ c.links.toList) :
    l.renumber (vertexMap e d d') ∈ c'.links.toList := by
  obtain ⟨q, v, i, v', j, hf, hi, hj, rfl⟩ := g.link l hl
  rw [k.wired.mem_links_iff, Link.renumber, vertexMap_rank e d' (hi.passes.carried hd hc),
    vertexMap_rank e d' (hj.passes.carried hd hc)]
  exact k.next?_eq hd' hc' (h.leaves.mpr hi) (h.follows_apply hf) (h.enters.mpr hj)

include h g g' in
theorem inputs_renumber (hd : d.Sound) (hd' : d'.Sound) :
    c'.inputs = c.inputs.map (vertexMap e d d') := by
  have hqubits : d'.qubits = d.qubits := by rw [qubits, qubits, h.qregs]
  have hinputs := g.inputs
  have hinputs' := g'.inputs
  rw [hqubits] at hinputs'
  have hlength := hinputs.length_eq
  have hlength' := hinputs'.length_eq
  refine List.ext_getElem (by rw [List.length_map, ← hlength, ← hlength']) fun j hj hj' => ?_
  rw [List.length_map] at hj'
  have hq : j < d.qubits.length := hlength ▸ hj'
  obtain ⟨v, hv, hr⟩ := hinputs.get hq hj'
  obtain ⟨v', hv', hr'⟩ := hinputs'.get hq hj
  obtain rfl := hd'.start_unique hv' ((h.node? v).trans hv)
  have hcarried : (d.node? v).any d.isCarried := by
    rw [hv]
    exact hasQubit_of_input hd hv
  rw [List.getElem_map]
  exact hr'.symm.trans ((vertexMap_rank e d' hcarried).symm.trans (congrArg _ hr))

include h g g' in
theorem vertex?_renumber {u : Nat} (hu : u < c.vertexCount) :
    c'.vertex? (vertexMap e d d' u) = c.vertex? u := by
  obtain ⟨v, hcarried, rfl⟩ := exists_rank g hu
  rw [vertexMap_rank e d' hcarried]
  obtain ⟨node, hn, hnode⟩ := (Option.any_eq_true _ _).mp hcarried
  have hn' := (h.node? v).trans hn
  cases node with
  | input w =>
    cases w with
    | qubit q => rw [g.input v q hn, g'.input _ q hn']
    | clbit b => cases hnode
  | output w =>
    cases w with
    | qubit q => rw [g.output v q hn, g'.output _ q hn']
    | clbit b => cases hnode
  | op o =>
    obtain ⟨x, losses, hx, hv⟩ := g.op v o hn
    obtain ⟨x', losses', hx', hv'⟩ := g'.op _ o hn'
    obtain ⟨ls, hsame⟩ := exists_describe h.cregs (e v) hx
    rw [hv, hv', (Prod.mk.inj (Except.ok.inj (hx'.symm.trans hsame))).1]

theorem renumbers_vertexMap (h : Renumbers e d d') (hd : d.Sound) (hc : d.Consistent)
    (hd' : d'.Sound) (hc' : d'.Consistent) {losses' : List Loss}
    (hv : d.toVertices p = .ok (c, losses)) (hv' : d'.toVertices p = .ok (c', losses')) :
    VertexCircuit.Renumbers (vertexMap e d d') c c' := by
  have g := wireGraph hd hc hv
  have g' := wireGraph hd' hc' hv'
  have k := carries_of_toVertices hv
  have k' := carries_of_toVertices hv'
  refine ⟨⟨bijOn_vertexMap h g g', inputs_renumber h g g' hd hd', fun l => ⟨fun hl => ?_, ?_⟩⟩,
    fun u hu => vertex?_renumber h g g' hu⟩
  · obtain ⟨x, hx, -⟩ := k'.wired.out_lt l hl
    obtain ⟨y, hy, -⟩ := k'.wired.into_lt l hl
    refine ⟨_, renumber_mem_links h.symm g' hd' hc' hd hc k hl, ?_⟩
    rw [Link.renumber, Link.renumber, vertexMap_symm h g' (VertexCircuit.lt_of_vertex? hx),
      vertexMap_symm h g' (VertexCircuit.lt_of_vertex? hy)]
  · rintro ⟨l, hl, rfl⟩
    exact renumber_mem_links h g hd hc hd' hc' k' hl

end Vertices

/-- What comes of two circuits that are the same but for the order of their operations. -/
structure SameOutcome (p : Policy) (d d' : Dag) : Prop where
  /-- One is carried over if the other is. -/
  carried : (∃ r, d'.toVertices p = .ok r) ↔ ∃ r, d.toVertices p = .ok r
  /-- What one is carried over to is restored if that of the other is, and as the same circuit. -/
  restored : ∀ c losses c' losses', d.toVertices p = .ok (c, losses) →
    d'.toVertices p = .ok (c', losses') → ∀ register namer d₁,
      (c'.toWiresWith register namer).1 = .ok d₁ ↔ (c.toWiresWith register namer).1 = .ok d₁

theorem SameOutcome.refl (p : Policy) (d : Dag) : SameOutcome p d d where
  carried := .rfl
  restored c losses c' losses' h h' register namer d₁ := by
    obtain ⟨rfl, -⟩ := Prod.mk.inj (Except.ok.inj (h.symm.trans h'))
    rfl

theorem SameOutcome.trans {d'' : Dag} (h : SameOutcome p d d') (h' : SameOutcome p d' d'') :
    SameOutcome p d d'' where
  carried := h'.carried.trans h.carried
  restored c losses c'' losses'' hv hv'' register namer d₁ := by
    obtain ⟨⟨c', losses'⟩, hv'⟩ := h.carried.mpr ⟨_, hv⟩
    rw [h'.restored c' losses' c'' losses'' hv' hv'', h.restored c losses c' losses' hv hv']

theorem Renumbers.sameOutcome (h : Renumbers e d d') (hd : d.Sound) (hc : d.Consistent)
    (hd' : d'.Sound) (hc' : d'.Consistent) (p : Policy) : SameOutcome p d d' where
  carried := ⟨h.symm.exists_toVertices hd' hc' hd hc, h.exists_toVertices hd hc hd' hc'⟩
  restored c losses c' losses' hv hv' register namer d₁ := by
    have k := carries_of_toVertices hv
    have k' := carries_of_toVertices hv'
    obtain ⟨i, -, hi⟩ := (renumbers_vertexMap h hd hc hd' hc' hv hv').exists_perm k.wired
    have hw := VertexCircuit.toWiresWith_renumber hi k.wired k'.wired
      (fun _ hu => k.pins_of_input hu) register namer
    rw [← toOption_eq_some, hw.1, toOption_eq_some]

theorem exists_sameOutcome_of_exchange {l l' : DagListing} (hd : ofListing l = .ok d)
    (hq : l'.qregs = l.qregs) (hc : l'.cregs = l.cregs)
    (h : Exchange l.operations l'.operations) :
    ∃ d', ofListing l' = .ok d' ∧ ∀ p, SameOutcome p d d' := by
  obtain ⟨d', e, hd', he⟩ := exists_of_exchange hd hq hc h
  exact ⟨d', hd', he.sameOutcome (holds_of_ofListing hd).sound (consistent_of_ofListing hd)
    (holds_of_ofListing hd').sound (consistent_of_ofListing hd')⟩

/-- If operations of a listing that is accepted change places any number of times, each time two
that follow each other and have no wire in common, then the new listing is accepted, what is read
from both is carried over by the same policies, and what it is carried over to is restored as the
same circuit. -/
theorem exists_of_exchanges {l l' : DagListing} (hd : ofListing l = .ok d) (h : l.Exchanges l') :
    ∃ d', ofListing l' = .ok d' ∧ ∀ p, SameOutcome p d d' := by
  obtain ⟨qregs, cregs, ops'⟩ := l'
  obtain ⟨rfl, rfl, hops⟩ := h
  dsimp only at hops
  induction hops with
  | refl => exact ⟨d, hd, fun p => .refl p d⟩
  | @tail _ ops₂ _ hstep ih =>
    obtain ⟨d₁, hd₁, h₁⟩ := ih
    obtain ⟨d₂, hd₂, h₂⟩ : ∃ d₂, ofListing ⟨l.qregs, l.cregs, ops₂⟩ = .ok d₂ ∧
        ∀ p, SameOutcome p d₁ d₂ :=
      exists_sameOutcome_of_exchange hd₁ rfl rfl hstep
    exact ⟨d₂, hd₂, fun p => (h₁ p).trans (h₂ p)⟩

/-- Two qubits are turned and measured side by side. -/
def sideBySide : DagListing :=
  ⟨[⟨"a", 2⟩], [⟨"m", 2⟩],
    [⟨"h", [⟨"a", 0⟩], [], [], none⟩, ⟨"x", [⟨"a", 1⟩], [], [], none⟩,
      .measurement [⟨"a", 0⟩] [⟨"m", 0⟩], .measurement [⟨"a", 1⟩] [⟨"m", 1⟩]]⟩

def oneByOne : DagListing :=
  ⟨[⟨"a", 2⟩], [⟨"m", 2⟩],
    [⟨"x", [⟨"a", 1⟩], [], [], none⟩, .measurement [⟨"a", 1⟩] [⟨"m", 1⟩],
      ⟨"h", [⟨"a", 0⟩], [], [], none⟩, .measurement [⟨"a", 0⟩] [⟨"m", 0⟩]]⟩

theorem exchanges_oneByOne : sideBySide.Exchanges oneByOne := by
  refine ⟨rfl, rfl, ?_⟩
  have turns := Exchange.swap (a := ⟨"h", [⟨"a", 0⟩], [], [], none⟩)
    (b := ⟨"x", [⟨"a", 1⟩], [], [], none⟩) []
    [.measurement [⟨"a", 0⟩] [⟨"m", 0⟩], .measurement [⟨"a", 1⟩] [⟨"m", 1⟩]]
    (by unfold Operation.Apart; decide)
  have measurements := Exchange.swap (a := .measurement [⟨"a", 0⟩] [⟨"m", 0⟩])
    (b := .measurement [⟨"a", 1⟩] [⟨"m", 1⟩])
    [⟨"x", [⟨"a", 1⟩], [], [], none⟩, ⟨"h", [⟨"a", 0⟩], [], [], none⟩] []
    (by unfold Operation.Apart; decide)
  have between := Exchange.swap (a := ⟨"h", [⟨"a", 0⟩], [], [], none⟩)
    (b := .measurement [⟨"a", 1⟩] [⟨"m", 1⟩]) [⟨"x", [⟨"a", 1⟩], [], [], none⟩]
    [.measurement [⟨"a", 0⟩] [⟨"m", 0⟩]] (by unfold Operation.Apart; decide)
  exact ((Relation.ReflTransGen.single turns).tail measurements).tail between

theorem exists_of_exchanges_sideBySide :
    ∃ d, ofListing sideBySide = .ok d ∧
      ∃ d', ofListing oneByOne = .ok d' ∧ ∀ p, SameOutcome p d d' := by
  have hok : (ofListing sideBySide).toOption.isSome := by decide +kernel
  obtain ⟨d, hd⟩ := Option.isSome_iff_exists.mp hok
  exact ⟨d, toOption_eq_some.mp hd, exists_of_exchanges (toOption_eq_some.mp hd) exchanges_oneByOne⟩

end Dag

end CircuitForms
