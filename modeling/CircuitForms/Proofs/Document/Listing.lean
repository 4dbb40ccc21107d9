import CircuitForms.Document.Listing
import CircuitForms.Proofs.Document.Descriptor

/-! # Listings read back -/

namespace CircuitForms

open Json Reader

variable {rule : Number.Literal → Float} {room : Nat}

def Link.Fits (l : Link) : Prop :=
  l.source < 1 <<< 64 ∧ l.sourcePin < 1 <<< 64 ∧ l.target < 1 <<< 64 ∧ l.targetPin < 1 <<< 64

instance (l : Link) : Decidable l.Fits :=
  inferInstanceAs (Decidable (l.source < 1 <<< 64 ∧ l.sourcePin < 1 <<< 64 ∧
    l.target < 1 <<< 64 ∧ l.targetPin < 1 <<< 64))

theorem Link.readsBack : ReadsBack rule Link.toJson Link.read Link.Fits id := by
  intro l room m
  cases room with
  | zero => simp [toJson, read]
  | succ room =>
    rw [toJson, read, record_reread (by simp) (by simp)]
    simp [List.lookup, Option.bind_eq_some_iff, Fits, and_assoc]

namespace VertexListing

def map (f : Float → Float) (l : VertexListing) : VertexListing :=
  { l with vertices := l.vertices.map (Descriptor.map f) }

theorem map_eq_self_iff {f : Float → Float} {l : VertexListing} :
    l.map f = l ↔ ∀ x ∈ l.toJson.reals, f x = x := by
  obtain ⟨vertices, edges⟩ := l
  simp [map, toJson, Link.toJson, Reader.map_eq_self_iff, Descriptor.map_eq_self_iff]

structure Fits (l : VertexListing) : Prop where
  vertices : ∀ x ∈ l.vertices, x.Fits
  edges : ∀ k ∈ l.edges, k.Fits

theorem fits_iff {l : VertexListing} :
    l.Fits ↔ (∀ x ∈ l.vertices, x.Fits) ∧ ∀ k ∈ l.edges, k.Fits :=
  ⟨fun h => ⟨h.vertices, h.edges⟩, fun h => ⟨h.1, h.2⟩⟩

instance (l : VertexListing) : Decidable l.Fits :=
  decidable_of_iff' _ fits_iff

theorem readsBack : ReadsBack rule toJson read Fits (map (again rule)) := by
  intro l room m
  cases room with
  | zero => simp [toJson, read]
  | succ room =>
    rw [toJson, read, record_reread (by simp) (by simp)]
    simp [List.lookup, Option.bind_eq_some_iff, Descriptor.readsBack.list l.vertices room _,
      Link.readsBack.list l.edges room _, fits_iff, map, and_assoc, and_left_comm]

end VertexListing

namespace DagListing

def map (f : Float → Float) (l : DagListing) : DagListing :=
  { l with operations := l.operations.map (Operation.map f) }

theorem map_eq_self_iff {f : Float → Float} {l : DagListing} :
    l.map f = l ↔ ∀ x ∈ l.toJson.reals, f x = x := by
  obtain ⟨qregs, cregs, operations⟩ := l
  simp [map, toJson, labelled, Register.toJson, Reader.map_eq_self_iff,
    Operation.map_eq_self_iff]

structure Fits (l : DagListing) : Prop where
  qregs : ∀ r ∈ l.qregs, r.size < 1 <<< 32
  cregs : ∀ r ∈ l.cregs, r.size < 1 <<< 32
  operations : ∀ op ∈ l.operations, op.Fits

theorem fits_iff {l : DagListing} : l.Fits ↔ (∀ r ∈ l.qregs, r.size < 1 <<< 32) ∧
    (∀ r ∈ l.cregs, r.size < 1 <<< 32) ∧ ∀ op ∈ l.operations, op.Fits :=
  ⟨fun h => ⟨h.qregs, h.cregs, h.operations⟩, fun h => ⟨h.1, h.2.1, h.2.2⟩⟩

instance (l : DagListing) : Decidable l.Fits :=
  decidable_of_iff' _ fits_iff

theorem readsBack : ReadsBack rule toJson read Fits (map (again rule)) := by
  intro l room m
  cases room with
  | zero => simp [toJson, read]
  | succ room =>
    rw [toJson, read, record_reread (by simp) (by simp)]
    simp [List.lookup, Option.bind_eq_some_iff, Register.readsBack.list l.qregs room _,
      Register.readsBack.list l.cregs room _, Operation.readsBack.list l.operations room _,
      fits_iff, map, and_assoc, and_left_comm]

end DagListing

/-- A value is read from either text of its document as exactly what it is. -/
structure Rereadable {α : Type} (rule : Number.Literal → Float) (toJson : α → Json)
    (read : Reader α) (a : α) : Prop where
  compact : (parse? (toJson a).compact rule).bind (Reader.run read) = some a
  pretty : (parse? (toJson a).pretty rule).bind (Reader.run read) = some a

theorem rereadable_of_readsBack {α : Type} {toJson : α → Json} {read : Reader α} {fits : α → Prop}
    {image : α → α} (h : ReadsBack rule toJson read fits image) {a : α} (hfits : fits a)
    (hdepth : (toJson a).depth ≤ deepest) (hkept : ∀ x ∈ (toJson a).reals, Kept rule x)
    (himage : image a = a) : Rereadable rule toJson read a := by
  have hreadable : Readable (Legible rule) deepest (toJson a) :=
    (readable_kept_iff.mp ⟨hdepth, hkept⟩).1
  exact ⟨h.compact.mpr ⟨⟨hreadable, hfits⟩, himage⟩, h.pretty.mpr ⟨⟨hreadable, hfits⟩, himage⟩⟩

theorem DagListing.rereadable {l : DagListing} (hfits : l.Fits) (hdepth : l.toJson.depth ≤ deepest)
    (hkept : ∀ x ∈ l.toJson.reals, Kept rule x) : Rereadable rule toJson read l :=
  rereadable_of_readsBack readsBack hfits hdepth hkept
    (map_eq_self_iff.mpr fun x hx => (kept_iff.mp (hkept x hx)).2)

theorem VertexListing.rereadable {l : VertexListing} (hfits : l.Fits)
    (hdepth : l.toJson.depth ≤ deepest) (hkept : ∀ x ∈ l.toJson.reals, Kept rule x) :
    Rereadable rule toJson read l :=
  rereadable_of_readsBack readsBack hfits hdepth hkept
    (map_eq_self_iff.mpr fun x hx => (kept_iff.mp (hkept x hx)).2)

/-- Listings of either kind are read from both their texts as what they are, as far as the rule of
the reader takes the texts of their doubles for those doubles. -/
theorem rereadable_listings (rule : Number.Literal → Float) :
    (∀ l : DagListing, l.Fits → l.toJson.depth ≤ 127 → (∀ x ∈ l.toJson.reals, Kept rule x) →
      Rereadable rule DagListing.toJson DagListing.read l) ∧
    ∀ l : VertexListing, l.Fits → l.toJson.depth ≤ 127 → (∀ x ∈ l.toJson.reals, Kept rule x) →
      Rereadable rule VertexListing.toJson VertexListing.read l := by
  constructor
  · exact fun l hfits hdepth hkept => DagListing.rereadable hfits hdepth hkept
  · exact fun l hfits hdepth hkept => VertexListing.rereadable hfits hdepth hkept

def escaped : Angle :=
  .div (.neg (.mul .pi (.symbol "\"\n"))) (.constant 0.5)

def escapedDag : DagListing :=
  ⟨[⟨"q", 1⟩], [⟨"c\\", 1⟩], [⟨"rz", [⟨"q", 0⟩], [], [escaped], some ⟨"c\\", 1⟩⟩,
    ⟨"h", [⟨"q", 0⟩], [], [], none⟩]⟩

def escapedVertices : VertexListing :=
  ⟨[.lineStart, ⟨.u2, 1, 1, .multi [.halfTurns 0.5, .symbolic escaped]⟩,
    ⟨.box, 1, 1, .description "\t"⟩], [⟨0, 0, 1, 0⟩, ⟨1, 0, 2, 0⟩]⟩

theorem rereadable_escaped :
    Rereadable Number.Literal.scaled DagListing.toJson DagListing.read escapedDag ∧
    Rereadable Number.Literal.scaled VertexListing.toJson VertexListing.read escapedVertices := by
  have hhalf : Kept Number.Literal.scaled 0.5 :=
    kept_iff.mpr ⟨by decide +kernel, by decide +kernel⟩
  have hdag : escapedDag.toJson.reals = [0.5] := rfl
  have hvertices : escapedVertices.toJson.reals = [0.5, 0.5] := rfl
  obtain ⟨hdags, hlistings⟩ := rereadable_listings Number.Literal.scaled
  constructor
  · refine hdags escapedDag (by decide) (by decide) ?_
    simpa [hdag] using hhalf
  · refine hlistings escapedVertices (by decide) (by decide) ?_
    simpa [hvertices] using hhalf

end CircuitForms
