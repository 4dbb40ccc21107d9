import CircuitForms.Proofs.Convert.WireGraph
import CircuitForms.Proofs.Dag.Exchanged
import CircuitForms.Proofs.Document.Listing
import CircuitForms.Proofs.Json.Accepted
import CircuitForms.Proofs.Vertex.Pairing

/-! # Files of vertices

A circuit of wires is carried over and its vertices are written to a file. Whether the file can be
read again is a matter of the angles of the operations that the catalog has: an angle with a value
becomes a quotient, which is written as a number only if it is finite, and any other angle stands
deeper in the new file than it stood in the old one. Everything else is read again as it was.
-/

namespace CircuitForms

open Json Reader

variable {rule : Number.Literal → Float} {P : Float → Prop} {room : Nat}

namespace Angle

theorem depth_binary {tag : String} {build : Angle → Angle → Angle} (h : binary? tag = some build)
    (a b : Angle) : (build a b).toJson.depth = max a.toJson.depth b.toJson.depth + 2 := by
  unfold binary? at h
  split_ifs at h
  all_goals
    cases h
    simp [toJson, depth, depthItems, depthMembers]

/-- An angle that is read is nested no deeper than its reader goes. -/
theorem depth_le_of_read {j : Json} {a : Angle} (h : read room j = some a) :
    a.toJson.depth ≤ room := by
  fun_induction read room j generalizing a with
  | case1 | case4 | case6 =>
    obtain rfl := Option.some.inj h
    exact Nat.zero_le _
  | case2 | case3 | case5 | case7 | case12 | case13 => cases h
  | case8 room content =>
    obtain ⟨x, -, rfl⟩ := Option.map_eq_some_iff.mp h
    exact Nat.succ_le_succ (Nat.zero_le room)
  | case9 room content =>
    obtain ⟨name, -, rfl⟩ := Option.map_eq_some_iff.mp h
    exact Nat.succ_le_succ (Nat.zero_le room)
  | case10 room content _ _ _ ih =>
    obtain ⟨b, hb, rfl⟩ := Option.map_eq_some_iff.mp h
    simpa [toJson, depth, depthMembers] using ih hb
  | case11 tag _ _ _ _ build room i j htag ihi ihj =>
    obtain ⟨b, hb, h⟩ := Option.bind_eq_some_iff.mp h
    obtain ⟨c, hc, h⟩ := Option.bind_eq_some_iff.mp h
    obtain rfl := Option.some.inj h
    rw [depth_binary htag]
    exact Nat.add_le_add_right (max_le (ihi hb) (ihj hc)) 2

end Angle

theorem DagListing.exists_of_read {j : Json} {l : DagListing} (h : Reader.run read j = some l)
    {op : Operation} (hop : op ∈ l.operations) : ∃ item, Operation.read 125 item = some op := by
  obtain ⟨room, fields, hroom, h⟩ := exists_of_record_eq_some h
  obtain rfl : room = 126 := (Nat.succ.inj hroom).symm
  split at h
  · simp only [bind, Option.bind_eq_some_iff, pure, Option.some.injEq] at h
    obtain ⟨_, -, _, -, ops, hops, rfl⟩ := h
    obtain ⟨room, item, hroom, hread⟩ := exists_of_optional_list_eq_some hops hop
    obtain rfl : room = 125 := (Nat.succ.inj hroom).symm
    exact ⟨item, hread⟩
  · cases h

theorem Operation.depth_le_of_read {j : Json} {op : Operation} (h : read (room + 2) j = some op)
    {a : Angle} (ha : a ∈ op.params) : a.toJson.depth ≤ room := by
  obtain ⟨_, fields, hroom, h⟩ := exists_of_record_eq_some h
  obtain rfl := Nat.succ.inj hroom
  split at h
  · simp only [bind, Option.bind_eq_some_iff, pure, Option.some.injEq] at h
    obtain ⟨_, -, _, -, _, -, as, has, _, -, rfl⟩ := h
    obtain ⟨_, item, hroom, hread⟩ := exists_of_optional_list_eq_some has ha
    obtain rfl := Nat.succ.inj hroom
    exact Angle.depth_le_of_read hread
  · cases h

/-- An angle comes into the document of its vertex as a number with a property, or as an
expression over such numbers that is not nested too deep. -/
structure Angle.Survives (P : Float → Prop) (room : Nat) (a : Angle) : Prop where
  quotient : ∀ x, a.value? = some x → P (x / halfTurn)
  depth_le : a.value? = none → a.toJson.depth ≤ room
  reals : a.value? = none → ∀ x ∈ a.toJson.reals, P x

theorem Angle.survives_iff_of_some {a : Angle} {x : Float} (hv : a.value? = some x) :
    a.Survives P room ↔ P (x / halfTurn) := by
  refine ⟨fun h => h.quotient x hv, fun hx => ?_⟩
  constructor <;> simp [hv, hx]

theorem Angle.survives_iff_of_none {a : Angle} (hv : a.value? = none) :
    a.Survives P room ↔ Readable P room a.toJson := by
  refine ⟨fun h => ⟨h.depth_le hv, h.reals hv⟩, fun h => ?_⟩
  constructor
  case quotient => simp [hv]
  case depth_le => exact fun _ => h.depth_le
  case reals => exact fun _ => h.reals

theorem Rotation.readable_ofAngle {a : Angle} :
    Readable P (room + 1) (ofAngle a).toJson ↔ a.Survives P room := by
  cases hv : a.value? with
  | some x =>
    have he : ofAngle a = .halfTurns (x / Angle.halfTurn) := by rw [ofAngle, hv]
    rw [he, Angle.survives_iff_of_some hv]
    simp [toJson]
  | none =>
    have he : ofAngle a = .symbolic a := by rw [ofAngle, hv]
    rw [he, Angle.survives_iff_of_none hv]
    simp [toJson]

theorem Payload.readable_ofRotations {as : List Angle} :
    Readable P (room + 3) (ofRotations (as.map Rotation.ofAngle)).toJson ↔
      ∀ a ∈ as, a.Survives P (if as.length = 1 then room + 1 else room) := by
  match as with
  | [] => simp [ofRotations, toJson]
  | [a] => simp [ofRotations, toJson, Rotation.readable_ofAngle]
  | a :: b :: as => simp [ofRotations, toJson, Rotation.readable_ofAngle]

/-- The angles of an operation that the catalog has survive, one alone with room for a list more.
The angles of any other operation are left out. -/
def Operation.Survives (P : Float → Prop) (op : Operation) : Prop :=
  (Catalog.standard.byName? op.name).isSome →
    ∀ a ∈ op.params, a.Survives P (if op.params.length = 1 then 122 else 121)

theorem Descriptor.readable_toJson {x : Descriptor} :
    Readable P (room + 1) x.toJson ↔ Readable P room x.payload.toJson := by
  simp [toJson, Kind.toJson]

namespace Dag

variable {d : Dag} {p : Policy} {c : VertexCircuit} {v : Nat} {op : Operation} {x : Descriptor}
  {losses : List Loss}

theorem Becomes.readable_iff (h : Becomes d op x) :
    Json.Readable P 125 x.toJson ↔ op.Survives P := by
  rw [Descriptor.readable_toJson, Operation.Survives]
  cases h with
  | measurement e he hk hq hp hc => simp [Descriptor.onLines, Payload.toJson, hp]
  | entry e he hk hi hq hc => simp [Descriptor.onLines, Payload.readable_ofRotations, he]
  | box hn hq hc => simp [Descriptor.onLines, Payload.toJson, hn]

theorem Carries.readable_iff (h : d.Carries p c) :
    Json.Readable P deepest c.toListing.toJson ↔ ∀ o ∈ d.operations.map Prod.snd, o.Survives P := by
  have hvertices : Json.Readable P deepest c.toListing.toJson ↔
      ∀ x ∈ c.vertices.toList, Json.Readable P 125 x.toJson := by
    change Json.Readable P (125 + 1 + 1) _ ↔ _
    simp [VertexCircuit.toListing, VertexListing.toJson, Link.toJson]
  rw [hvertices, List.forall_mem_map]
  constructor
  · rintro hall ⟨v, o⟩ ho
    obtain ⟨x, losses, hdescribe, hx⟩ := h.vertex_describe (mem_operations_iff.mp ho)
    exact (becomes_of_describe hdescribe).readable_iff.mp (hall x (Array.mem_toList_iff.mpr
      (Array.mem_of_getElem? hx)))
  · intro hall x hx
    obtain ⟨u, hu⟩ := Array.mem_iff_getElem?.mp (Array.mem_toList_iff.mp hx)
    obtain ⟨v, hv, ⟨_, -, -, rfl⟩ | ⟨_, -, -, rfl⟩ | ⟨o, ho, -⟩⟩ := h.node_cases hu
    · exact Descriptor.readable_toJson.mpr (readable_string _)
    · exact Descriptor.readable_toJson.mpr (readable_string _)
    · obtain ⟨y, losses, hdescribe, hy⟩ := h.vertex_describe ho
      obtain rfl : x = y := Option.some.inj (hu.symm.trans (hv ▸ hy))
      exact (becomes_of_describe hdescribe).readable_iff.mpr
        (hall (v, o) (mem_operations_iff.mpr ho))

theorem Carries.pins_le (h : d.Carries p c) (hd : d.Sound) (hc : d.Consistent) {u : Nat}
    (hx : c.vertex? u = some x) : x.inputs ≤ d.qubitCount ∧ x.outputs ≤ d.qubitCount := by
  have hone : ∀ q, d.hasQubit q → 1 ≤ d.qubitCount := by
    intro q hq
    rw [← length_qubits]
    exact List.length_pos_of_mem (hd.mem_qubits_iff.mpr hq)
  obtain ⟨v, -, ⟨q, -, hq, rfl⟩ | ⟨q, -, hq, rfl⟩ | ⟨o, ho, hdesc⟩⟩ := h.node_cases hx
  · exact ⟨Nat.zero_le _, hone q hq⟩
  · exact ⟨hone q hq, Nat.zero_le _⟩
  · have hadmits := hc (v, o) (mem_operations_iff.mpr ho)
    have hle : o.qargs.length ≤ d.qubitCount := by
      rw [← length_qubits]
      exact (hadmits.nodup.subperm fun q hq =>
        hd.mem_qubits_iff.mpr (hadmits.qubit q hq)).length_le
    exact ⟨hdesc.inputs ▸ hle, hdesc.outputs ▸ hle⟩

end Dag

namespace VertexCircuit

variable {c : VertexCircuit} {f : Float → Float}

def map (f : Float → Float) (c : VertexCircuit) : VertexCircuit where
  vertices := c.vertices.map (Descriptor.map f)
  links := c.links
  inputs := c.inputs
  inputs_eq := by
    rw [c.inputs_eq, inputPlaces, inputPlaces, Array.size_map]
    refine List.filter_congr fun v _ => ?_
    rw [Array.getElem?_map, Option.any_map]
    rfl

theorem vertex?_map (f : Float → Float) (c : VertexCircuit) (v : Nat) :
    (c.map f).vertex? v = (c.vertex? v).map (Descriptor.map f) :=
  Array.getElem?_map

theorem toListing_map (f : Float → Float) (c : VertexCircuit) :
    (c.map f).toListing = c.toListing.map f := by
  rw [toListing, map, Array.toList_map]
  rfl

theorem Wired.map (h : c.Wired) (f : Float → Float) : (c.map f).Wired where
  out_lt l hl := by
    obtain ⟨x, hx, hlt⟩ := h.out_lt l hl
    exact ⟨x.map f, by rw [vertex?_map, hx]; rfl, hlt⟩
  into_lt l hl := by
    obtain ⟨x, hx, hlt⟩ := h.into_lt l hl
    exact ⟨x.map f, by rw [vertex?_map, hx]; rfl, hlt⟩
  out_nodup := h.out_nodup
  into_nodup := h.into_nodup

/-- As far as 32 bits can number the vertices and their pins, all numbers of their document fit. -/
theorem Wired.fits (h : c.Wired) (hsize : c.vertexCount ≤ 1 <<< 32)
    (hpins : ∀ u x, c.vertex? u = some x → x.inputs ≤ 1 <<< 32 ∧ x.outputs ≤ 1 <<< 32) :
    c.toListing.Fits := by
  have hwide : ∀ {n : Nat}, n ≤ 1 <<< 32 → n < 1 <<< 64 := fun hn => hn.trans_lt (by decide)
  constructor
  case vertices =>
    intro x hx
    obtain ⟨u, hu⟩ := Array.mem_iff_getElem?.mp (Array.mem_toList_iff.mp hx)
    obtain ⟨hi, ho⟩ := hpins u x hu
    exact ⟨hwide hi, hwide ho⟩
  case edges =>
    intro l hl
    obtain ⟨x, hx, hout⟩ := h.out_lt l hl
    obtain ⟨y, hy, hinto⟩ := h.into_lt l hl
    exact ⟨hwide ((lt_of_vertex? hx).le.trans hsize), hwide (hout.le.trans (hpins _ x hx).2),
      hwide ((lt_of_vertex? hy).le.trans hsize), hwide (hinto.le.trans (hpins _ y hy).1)⟩

theorem Wired.ofListing_map (h : c.Wired) (hsize : c.vertexCount ≤ 1 <<< 32) (f : Float → Float) :
    ofListing (c.toListing.map f) = .ok (c.map f) := by
  rw [← toListing_map]
  refine (h.map f).ofListing_toListing ?_
  rwa [vertexCount, VertexCircuit.map, Array.size_map]

def reread? (rule : Number.Literal → Float) (c : VertexCircuit) : Option VertexListing :=
  (parse? c.toListing.toJson.pretty rule).bind (Reader.run VertexListing.read)

end VertexCircuit

namespace Dag

variable {d : Dag} {p : Policy} {c : VertexCircuit} {losses : List Loss}

/-- What becomes of the file of the vertices that some operations are carried over to. -/
structure Reopens (rule : Number.Literal → Float) (ops : List Operation) (c : VertexCircuit) :
    Prop where
  /-- The angles were nested deeper, by a level or two, than those that survive may be. -/
  depth_le : ∀ op ∈ ops, ∀ a ∈ op.params, a.toJson.depth ≤ 123
  /-- The file is read exactly if the angles survive as numbers that are finite and read as
  such. -/
  accepted_iff : (c.reread? rule).isSome ↔ ∀ op ∈ ops, op.Survives (Legible rule)
  /-- What is read is a circuit, which is the one written apart from its numbers. -/
  rebuilt : ∀ m, c.reread? rule = some m →
    ∃ c', VertexCircuit.ofListing m = .ok c' ∧ c'.toListing = c.toListing.map (again rule)
  /-- It is the one written exactly if every number is read as the very number it was. -/
  unchanged_iff : (∃ m c', c.reread? rule = some m ∧ VertexCircuit.ofListing m = .ok c' ∧
    c'.toListing = c.toListing) ↔ ∀ op ∈ ops, op.Survives (Json.Kept rule)

section

variable (hd : d.Sound) (hc : d.Consistent) (hcd : d.toVertices p = .ok (c, losses))
  (hsize : c.vertexCount ≤ 1 <<< 32)

include hd hc hcd hsize

theorem fits_of_toVertices : c.toListing.Fits := by
  have hcarries := carries_of_toVertices hcd
  have hcount := (sizes_of_toVertices hd hc hcd).1
  have hlines : d.qubitCount ≤ 1 <<< 32 := by omega
  refine hcarries.wired.fits hsize fun u x hx => ?_
  obtain ⟨hi, ho⟩ := hcarries.pins_le hd hc hx
  exact ⟨hi.trans hlines, ho.trans hlines⟩

theorem reread?_eq_some_iff {m : VertexListing} : c.reread? rule = some m ↔
    (∀ o ∈ d.operations.map Prod.snd, o.Survives (Legible rule)) ∧
      c.toListing.map (again rule) = m := by
  rw [VertexCircuit.reread?, VertexListing.readsBack.pretty,
    (carries_of_toVertices hcd).readable_iff, and_iff_left (fits_of_toVertices hd hc hcd hsize)]

end

/-- Whatever circuit is read from a text and carried over, if 32 bits can number its vertices, their
file is read again exactly as far as the angles of the operations survive. -/
theorem reopens_of_toVertices {text : String} {l : DagListing}
    (htext : (parse? text rule).bind (Reader.run DagListing.read) = some l)
    (hl : ofListing l = .ok d) (hc : d.toVertices p = .ok (c, losses))
    (hsize : c.vertexCount ≤ 1 <<< 32) : Reopens rule l.operations c := by
  have hcarries := carries_of_toVertices hc
  have hholds := holds_of_ofListing hl
  have hread : ∀ m, c.reread? rule = some m ↔
      (∀ op ∈ l.operations, op.Survives (Legible rule)) ∧ c.toListing.map (again rule) = m := by
    intro m
    rw [← hholds.map_snd_operations]
    exact reread?_eq_some_iff hholds.sound (consistent_of_ofListing hl) hc hsize
  have hrebuilt := hcarries.wired.ofListing_map hsize (again rule)
  constructor
  case depth_le =>
    intro op hop a ha
    obtain ⟨j, -, hj⟩ := Option.bind_eq_some_iff.mp htext
    obtain ⟨item, hitem⟩ := DagListing.exists_of_read hj hop
    exact Operation.depth_le_of_read hitem ha
  case accepted_iff =>
    rw [Option.isSome_iff_exists]
    simp only [hread, exists_and_left, exists_eq', and_true]
  case rebuilt =>
    intro m hm
    obtain ⟨-, rfl⟩ := (hread m).mp hm
    exact ⟨_, hrebuilt, VertexCircuit.toListing_map _ c⟩
  case unchanged_iff =>
    -- to survive with every number kept is to survive and to be listed as before
    have hkept : (∀ op ∈ l.operations, op.Survives (Json.Kept rule)) ↔
        (∀ op ∈ l.operations, op.Survives (Legible rule)) ∧
          c.toListing.map (again rule) = c.toListing := by
      rw [← hholds.map_snd_operations, ← hcarries.readable_iff, ← hcarries.readable_iff,
        readable_kept_iff, VertexListing.map_eq_self_iff]
    rw [hkept]
    constructor
    · rintro ⟨m, c', hm, hc', hsame⟩
      obtain ⟨hlegible, rfl⟩ := (hread m).mp hm
      obtain rfl := Except.ok.inj (hrebuilt.symm.trans hc')
      exact ⟨hlegible, (VertexCircuit.toListing_map _ c).symm.trans hsame⟩
    · rintro ⟨hlegible, hsame⟩
      exact ⟨_, _, (hread _).mpr ⟨hlegible, rfl⟩, hrebuilt,
        (VertexCircuit.toListing_map _ c).trans hsame⟩

def turning (a : Angle) : DagListing :=
  ⟨[⟨"q", 1⟩], [], [⟨"rz", [⟨"q", 0⟩], [], [a], none⟩]⟩

def turningDag (a : Angle) : Dag :=
  (History.of [.addQreg ⟨"q", 1⟩, .declare ⟨"rz", 1, 0, 1⟩,
    .append ⟨"rz", [⟨"q", 0⟩], [], [a], none⟩]).dag

def turningVertices (a : Angle) : VertexCircuit :=
  .of [.addVertex .lineStart, .addVertex .lineEnd,
    .addVertex (.onLines .rz 1 (.single (.ofAngle a))), .addLink ⟨0, 0, 2, 0⟩,
    .addLink ⟨2, 0, 1, 0⟩]

def rightAngle : Angle := .div .pi (.constant 2)

def overflowing : Angle := .mul (.constant 1e308) (.constant 10)

theorem read_turning : ∀ a ∈ [rightAngle, overflowing],
    (parse? (turning a).toJson.compact).bind (Reader.run DagListing.read) = some (turning a) := by
  have hfits : ∀ a ∈ [rightAngle, overflowing], (turning a).Fits := by decide
  have hdepth : ∀ a ∈ [rightAngle, overflowing], (turning a).toJson.depth ≤ deepest := by decide
  have hreals : ∀ a ∈ [rightAngle, overflowing], ∀ x ∈ (turning a).toJson.reals,
      Number.isFinite x ∧ again Number.Literal.scaled x = x := by
    decide +kernel
  intro a ha
  refine (rereadable_of_readsBack DagListing.readsBack (hfits a ha) (hdepth a ha) ?_ ?_).compact
  · exact fun x hx => kept_iff.mpr (hreals a ha x hx)
  · exact DagListing.map_eq_self_iff.mpr fun x hx => (hreals a ha x hx).2

theorem survives_turning {a : Angle} {x : Float} (hv : a.value? = some x) :
    (∀ op ∈ (turning a).operations, op.Survives P) ↔ P (x / Angle.halfTurn) := by
  have hlisted : (Catalog.standard.byName? "rz").isSome := by decide
  simp [turning, Operation.Survives, hlisted, Angle.survives_iff_of_some hv]

theorem reopens_turning :
    (∀ a ∈ [rightAngle, overflowing],
      (parse? (turning a).toJson.compact).bind (Reader.run DagListing.read) = some (turning a) ∧
      ofListing (turning a) = .ok (turningDag a) ∧
      (turningDag a).toVertices {} = .ok (turningVertices a, []) ∧
      (turningVertices a).vertexCount ≤ 1 <<< 32 ∧
      Reopens Number.Literal.scaled (turning a).operations (turningVertices a)) ∧
    (∃ m c, (turningVertices rightAngle).reread? Number.Literal.scaled = some m ∧
      VertexCircuit.ofListing m = .ok c ∧ c.toListing = (turningVertices rightAngle).toListing) ∧
    (turningVertices overflowing).reread? Number.Literal.scaled = none := by
  have hlisting : ∀ a ∈ [rightAngle, overflowing], ofListing (turning a) = .ok (turningDag a) := by
    decide +kernel
  have hvertices : ∀ a ∈ [rightAngle, overflowing],
      (turningDag a).toVertices {} = .ok (turningVertices a, []) := by
    decide +kernel
  have hsize : ∀ a ∈ [rightAngle, overflowing], (turningVertices a).vertexCount ≤ 1 <<< 32 := by
    decide +kernel
  have hreopens : ∀ a ∈ [rightAngle, overflowing],
      Reopens Number.Literal.scaled (turning a).operations (turningVertices a) := fun a ha =>
    reopens_of_toVertices (read_turning a ha) (hlisting a ha) (hvertices a ha) (hsize a ha)
  have hright : rightAngle.value? = some (Angle.halfTurn / 2) := by decide +kernel
  have hhalf : Json.Kept Number.Literal.scaled (Angle.halfTurn / 2 / Angle.halfTurn) :=
    kept_iff.mpr (by decide +kernel)
  have hover : overflowing.value? = some Number.infinity := by decide +kernel
  have hinfinite : ¬ Number.isFinite (Number.infinity / Angle.halfTurn) := by decide +kernel
  refine ⟨fun a ha => ⟨read_turning a ha, hlisting a ha, hvertices a ha, hsize a ha, hreopens a ha⟩,
    ?_, ?_⟩
  · exact (hreopens rightAngle (by simp)).unchanged_iff.mpr ((survives_turning hright).mpr hhalf)
  · refine Option.not_isSome_iff_eq_none.mp fun h => ?_
    have hs := (hreopens overflowing (by simp)).accepted_iff.mp h
    exact hinfinite ((survives_turning hover).mp hs).1

end Dag

end CircuitForms
