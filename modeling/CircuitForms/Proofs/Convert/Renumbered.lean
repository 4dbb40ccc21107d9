import CircuitForms.Proofs.Convert.Fresh
import CircuitForms.Proofs.Convert.Restorable
import CircuitForms.Proofs.Grid.Renumbered

/-! # Restoring renumbered vertices

What a circuit of vertices is restored as, and which names are left, does not depend
on the numbers of its vertices. Only the faults and what is said on the way tell them.
-/

namespace CircuitForms

variable {α β : Type}

namespace VertexCircuit

structure Restoration.Alike (s t : Restoration) : Prop where
  dag : s.dag = t.dag
  namer : s.namer = t.namer

theorem Restoration.Alike.refl (s : Restoration) : s.Alike s := ⟨rfl, rfl⟩

/-- Two steps that give the same and lead to the same point, or both fail. -/
def Restore.Alike (x y : Restore α) : Prop :=
  ∀ s t, s.Alike t → (x.run.run s).1.toOption = (y.run.run t).1.toOption ∧
    (x.run.run s).2.Alike (y.run.run t).2

namespace Restore.Alike

theorem pure (a : α) : Alike (Pure.pure a) (Pure.pure a) := fun _ _ hst => ⟨rfl, hst⟩

theorem throw (e e' : ConversionFault) : Alike (throw e : Restore α) (throw e') :=
  fun _ _ hst => ⟨rfl, hst⟩

theorem say (w : Weight) (text text' : String) : Alike (say w text) (say w text') :=
  fun _ _ hst => ⟨rfl, hst.dag, hst.namer⟩

theorem edit (e : Dag.Edit α) : Alike (edit e) (edit e) := by
  intro s t hst
  rw [run_edit, run_edit, hst.dag]
  exact ⟨rfl, rfl, hst.namer⟩

theorem ofExcept {x y : Except ConversionFault α} (h : x.toOption = y.toOption) :
    Alike (liftExcept x) (liftExcept y) := by
  intro s t hst
  rw [run_liftExcept, run_liftExcept]
  exact ⟨h, hst⟩

theorem bind {x y : Restore α} {k k' : α → Restore β} (hx : Alike x y)
    (hk : ∀ a, Alike (k a) (k' a)) : Alike (x >>= k) (y >>= k') := by
  intro s t hst
  obtain ⟨ho, hs⟩ := hx s t hst
  rcases hxs : x.run.run s with ⟨_ | a, s₁⟩ <;> rcases hyt : y.run.run t with ⟨_ | b, t₁⟩ <;>
    rw [hxs, hyt] at ho hs
  · rw [run_bind_error hxs, run_bind_error hyt]
    exact ⟨rfl, hs⟩
  · cases ho
  · cases ho
  · obtain rfl := Option.some.inj ho
    rw [run_bind_ok hxs, run_bind_ok hyt]
    exact hk a s₁ t₁ hs

theorem ofOk_bind {γ : Type} {a : α} {b : β} {k : α → Restore γ} {k' : β → Restore γ}
    (h : Alike (k a) (k' b)) :
    Alike (liftExcept (.ok a : Except ConversionFault α) >>= k)
      (liftExcept (.ok b : Except ConversionFault β) >>= k') := by
  intro s t hst
  rw [run_bind_ok (run_liftExcept (.ok a) s), run_bind_ok (run_liftExcept (.ok b) t)]
  exact h s t hst

theorem lift_bind {γ : Type} (x : Except ConversionFault α) {k k' : α → Restore γ}
    (h : ∀ a, Alike (k a) (k' a)) : Alike (liftExcept x >>= k) (liftExcept x >>= k') :=
  (ofExcept rfl).bind h

theorem discard {x y : Restore α} (hx : Alike x y) :
    Alike (Functor.discard x) (Functor.discard y) := by
  have hd : ∀ z : Restore α, Functor.discard z = z >>= fun _ => Pure.pure () := fun z => rfl
  rw [hd, hd]
  exact hx.bind fun _ => pure ()

theorem forM_map {k k' : Nat → Restore Unit} {f : Nat → Nat} {vs : List Nat}
    (h : ∀ v ∈ vs, Alike (k v) (k' (f v))) : Alike (vs.forM k) ((vs.map f).forM k') := by
  induction vs with
  | nil => exact pure ()
  | cons v vs ih =>
    exact (h v List.mem_cons_self).bind fun _ => ih fun u hu => h u (List.mem_cons_of_mem v hu)

theorem freshName {reserved reserved' : List String}
    (h : ∀ name, name ∈ reserved ↔ name ∈ reserved') :
    Alike (freshName reserved) (freshName reserved') := by
  intro s t hst
  have htaken : ∀ name, name ∈ s.taken reserved ↔ name ∈ t.taken reserved' := by
    intro name
    simp only [Restoration.taken, List.mem_append, h, hst.dag]
  rw [run_freshName, run_freshName, hst.namer, t.namer.fresh_congr htaken]
  exact ⟨rfl, hst.dag, rfl⟩

theorem writtenBits {reserved reserved' : List String}
    (h : ∀ name, name ∈ reserved ↔ name ∈ reserved') (v v' : Nat) (x : Descriptor)
    (d : Destination) : Alike (writtenBits reserved v x d) (writtenBits reserved' v' x d) := by
  rw [VertexCircuit.writtenBits, VertexCircuit.writtenBits]
  split
  · refine (freshName h).bind fun name => lift_bind _ fun size => ?_
    exact (say _ _ _).bind fun _ => (edit _).bind fun _ => pure _
  · exact (edit _).bind fun _ => pure _

end Restore.Alike

section Renumbers

variable {c c' : VertexCircuit} {e : Equiv.Perm Nat} {g : Grid} {ds ds' : List (Nat × Destination)}
  {register : String} {v : Nat} {x : Descriptor} {name : String}

theorem operationName_toOption (u v : Nat) (x : Descriptor) :
    (operationName u x).toOption = (operationName v x).toOption := by
  unfold operationName
  dsimp only
  split <;> rfl

theorem destination_toOption (u v : Nat) (x : Descriptor) :
    (destination u x).toOption = (destination v x).toOption := by
  unfold destination
  cases Destination.decode (x.description?.getD "") x.outputs <;> rfl

theorem lineQubits_renumber (e : Equiv.Perm Nat) (g : Grid) (register : String) (v : Nat)
    (x : Descriptor) : (lineQubits (g.renumber e) register (e v) x).toOption =
      (lineQubits g register v x).toOption := by
  have hpin : ∀ pin, (g.renumber e).lineThrough? ⟨e v, pin⟩ = g.lineThrough? ⟨v, pin⟩ := fun pin =>
    g.lineThrough?_renumber e ⟨v, pin⟩
  refine toOption_mapM_congr (fun pin => ?_) _
  rw [hpin]
  cases g.lineThrough? ⟨v, pin⟩ <;> rfl

variable (h : Renumbers e c c')

include h

theorem decoded_renumber : c'.Decoded ↔ c.Decoded := by
  constructor
  · intro hd v x hx hk
    exact hd (e v) x (by rw [h.vertex?_apply, hx]) hk
  · intro hd v x hx hk
    obtain ⟨v, rfl⟩ := e.surjective v
    exact hd v x (by rw [← h.vertex?_apply, hx]) hk

variable (hds : c.destinations = .ok ds) (hds' : c'.destinations = .ok ds')

include hds hds'

theorem mem_destinations_renumber {dest : Destination} :
    (e v, dest) ∈ ds' ↔ (v, dest) ∈ ds := by
  simp only [mem_destinations hds, mem_destinations hds', h.vertex?_apply, ← toOption_eq_some,
    destination_toOption (e v) v]

theorem lookup_renumber (hx : c.vertex? v = some x) : ds'.lookup (e v) = ds.lookup v := by
  have hx' : c'.vertex? (e v) = some x := (h.vertex?_apply v).trans hx
  obtain ⟨hmeasure, hother⟩ := lookup_destinations hds hx
  obtain ⟨hmeasure', hother'⟩ := lookup_destinations hds' hx'
  by_cases hk : x.kind = .measure
  · obtain ⟨dest, hdest, hd⟩ := hmeasure hk
    obtain ⟨dest', hdest', hd'⟩ := hmeasure' hk
    have he := destination_toOption v (e v) x
    rw [hd, hd'] at he
    rw [hdest, hdest', ← Option.some.inj he]
  · rw [hother hk, hother' hk]

theorem mem_reservedNames_renumber (name : String) :
    name ∈ reservedNames ds ↔ name ∈ reservedNames ds' := by
  rw [mem_reservedNames, mem_reservedNames]
  constructor
  · rintro ⟨v, dest, hm, hname⟩
    exact ⟨e v, dest, (mem_destinations_renumber h hds hds').mpr hm, hname⟩
  · rintro ⟨v, dest, hm, hname⟩
    obtain ⟨v, rfl⟩ := e.surjective v
    exact ⟨v, dest, (mem_destinations_renumber h hds hds').mp hm, hname⟩

/-- A vertex is restored alike under its new number. -/
theorem alike_restoreVertex (hv : v < c.vertexCount) : Restore.Alike
    (c.restoreVertex g register ds v) (c'.restoreVertex (g.renumber e) register ds' (e v)) := by
  obtain ⟨x, hx⟩ : ∃ x, c.vertex? v = some x := ⟨_, Array.getElem?_eq_getElem hv⟩
  unfold restoreVertex
  rw [h.vertex?_apply, hx]
  dsimp only
  split
  · exact .pure ()
  · refine (Restore.Alike.ofExcept (lineQubits_renumber e g register v x).symm).bind fun qargs => ?_
    refine (Restore.Alike.ofExcept (operationName_toOption v (e v) x)).bind fun name => ?_
    rw [lookup_renumber h hds hds' hx]
    have hlast : ∀ op, Restore.Alike
        (do Restore.say .detail (s!"vertex {v} -> " ++ name)
            discard (Restore.edit (Dag.declareAppend op)))
        (do Restore.say .detail (s!"vertex {e v} -> " ++ name)
            discard (Restore.edit (Dag.declareAppend op))) := fun op =>
      (Restore.Alike.say _ _ _).bind fun _ => (Restore.Alike.edit _).discard
    cases ds.lookup v with
    | none => exact (Restore.Alike.pure _).bind fun cargs => hlast _
    | some d =>
      have hbits := Restore.Alike.writtenBits (mem_reservedNames_renumber h hds hds') v (e v) x d
      exact hbits.bind fun cargs => hlast _

end Renumbers

section Circuits

variable {f : Nat → Nat} {c c' : VertexCircuit} {e : Equiv.Perm Nat}

/-- A circuit is restored alike under other numbers of its vertices. -/
theorem alike_restore (h : Renumbers e c c') (hc : c.Wired) (hc' : c'.Wired)
    (hin : ∀ v, c.hasKind .input v → c.pins v = 0) (register : String) :
    Restore.Alike (c.restore register) (c'.restore register) := by
  have hid : ∀ (k : Nat) (gs : List Grid.Group), (id gs).Perm gs := fun _ gs => .refl gs
  have hlay : ∀ g', Grid.layOut c' = .ok g' ↔ ∃ g, Grid.layOut c = .ok g ∧ g.renumber e = g' :=
    fun _ => Grid.layOutBy_renumber h hc hc' hin hid hid
  rw [restore, restore, h.lineCount]
  refine Restore.Alike.lift_bind _ fun qubits => (Restore.Alike.edit _).bind fun _ => ?_
  -- Both lay out or neither does, though not always for the same fault.
  cases hg : Grid.layOut c with
  | error fault =>
    cases hg' : Grid.layOut c' with
    | ok g' =>
      obtain ⟨g, hok, -⟩ := (hlay g').mp hg'
      cases hg.symm.trans hok
    | error fault' => exact Restore.Alike.throw _ _
  | ok g =>
    have hg' : Grid.layOut c' = .ok (g.renumber e) := (hlay _).mpr ⟨g, hg, rfl⟩
    rw [hg']
    refine Restore.Alike.ofOk_bind ?_
    cases hds : c.destinations with
    | error fault =>
      cases hds' : c'.destinations with
      | error fault' => exact Restore.Alike.throw _ _
      | ok ds' =>
        have hdecoded := (decoded_renumber h).mp (decoded_of_destinations hds')
        obtain ⟨ds, hok⟩ := hdecoded.exists_destinations
        cases hds.symm.trans hok
    | ok ds =>
      have hdecoded := (decoded_renumber h).mpr (decoded_of_destinations hds)
      obtain ⟨ds', hds'⟩ := hdecoded.exists_destinations
      rw [hds']
      refine Restore.Alike.ofOk_bind (.bind ?_ fun _ s t hst => ⟨rfl, hst.dag, hst.namer⟩)
      have hlayered := Grid.layered_of_wired hc hin hid hg
      have hreading : (g.renumber e).slices.flatMap Slice.vertices = g.reading.map e :=
        g.reading_renumber e
      rw [hreading]
      exact Restore.Alike.forM_map fun v hv =>
        alike_restoreVertex h hds hds' (hlayered.mem_reading.mp hv)

theorem toWiresWith_renumber (h : Renumbers e c c') (hc : c.Wired) (hc' : c'.Wired)
    (hin : ∀ v, c.hasKind .input v → c.pins v = 0) (register : String) (namer : Namer) :
    (c'.toWiresWith register namer).1.toOption = (c.toWiresWith register namer).1.toOption ∧
      (c'.toWiresWith register namer).2 = (c.toWiresWith register namer).2 := by
  obtain ⟨ho, hdag, hnamer⟩ : (c.restored register namer).1.toOption = _ ∧ _ :=
    alike_restore h hc hc' hin register { namer } { namer } (.refl _)
  rw [toWiresWith_def, toWiresWith_def, toOption_map, toOption_map, ho]
  have hdag' : (c.restored register namer).2.dag = (c'.restored register namer).2.dag := hdag
  exact ⟨by rw [hdag']; rfl, hnamer.symm⟩

end Circuits

/-- What circuits that differ in the numbers of their vertices alone have in common. -/
structure SameUpTo (f : Nat → Nat) (c c' : VertexCircuit) : Prop where
  /-- One is laid out if the other is, and the cells are renumbered. -/
  laid : ∀ order order' : Nat → List Grid.Group → List Grid.Group,
    (∀ k gs, (order k gs).Perm gs) → (∀ k gs, (order' k gs).Perm gs) →
    ∀ g', Grid.layOutBy order' c' = .ok g' ↔
      ∃ g, Grid.layOutBy order c = .ok g ∧ g.renumber f = g'
  /-- One is restored if the other is, and as the same circuit. -/
  restored : ∀ register namer d,
    (c'.toWiresWith register namer).1 = .ok d ↔ (c.toWiresWith register namer).1 = .ok d
  /-- The same names are left. -/
  namer : ∀ register namer, (c'.toWiresWith register namer).2 = (c.toWiresWith register namer).2

/-- Whatever calls two circuits are built by, if no input has input pins and they differ only in the
numbers of their vertices and in the order of their links, then their layouts differ only in the
numbers of the vertices, and what they are restored as does not differ. -/
theorem sameUpTo_of_renumbers {calls calls' : List Call} {f : Nat → Nat}
    (hin : ∀ v, (of calls).hasKind .input v → (of calls).pins v = 0)
    (hf : Renumbers f (of calls) (of calls')) : SameUpTo f (of calls) (of calls') := by
  have hc := wired_of calls
  have hc' := wired_of calls'
  obtain ⟨e, he, h⟩ := hf.exists_perm hc
  constructor
  case laid =>
    intro order order' ho ho' g'
    rw [Grid.layOutBy_renumber h hc hc' hin ho ho']
    refine exists_congr fun g => and_congr_right fun hg => ?_
    rw [Grid.renumber_congr (Grid.layered_of_wired hc hin ho hg) he]
  case restored =>
    intro register namer d
    rw [← toOption_eq_some, (toWiresWith_renumber h hc hc' hin register namer).1, toOption_eq_some]
  case namer => exact fun register namer => (toWiresWith_renumber h hc hc' hin register namer).2

/-- Two lines with a measurement on each, built from the starts on. -/
def measuring : List Call :=
  [.addVertex .lineStart, .addVertex .lineStart, .addVertex (.onLines .measure 1),
    .addVertex (.onLines .measure 1), .addVertex .lineEnd, .addVertex .lineEnd,
    .addLink ⟨0, 0, 2, 0⟩, .addLink ⟨2, 0, 4, 0⟩, .addLink ⟨1, 0, 3, 0⟩, .addLink ⟨3, 0, 5, 0⟩]

def measuringBackwards : List Call :=
  [.addVertex .lineEnd, .addVertex .lineEnd, .addVertex (.onLines .measure 1),
    .addVertex (.onLines .measure 1), .addVertex .lineStart, .addVertex .lineStart,
    .addLink ⟨2, 0, 0, 0⟩, .addLink ⟨5, 0, 2, 0⟩, .addLink ⟨3, 0, 1, 0⟩, .addLink ⟨4, 0, 3, 0⟩]

def backwards (v : Nat) : Nat :=
  if v < 2 then v + 4 else 5 - v

theorem renumbers_measuring : Renumbers backwards (of measuring) (of measuringBackwards) where
  vertices := by
    have hcount : (of measuring).vertexCount = 6 ∧ (of measuringBackwards).vertexCount = 6 := by
      decide +kernel
    have hlt : ∀ v < 6, backwards v < 6 := by decide
    have hinj : ∀ v < 6, ∀ u < 6, backwards v = backwards u → v = u := by decide
    have hsurj : ∀ u < 6, ∃ v < 6, backwards v = u := by decide
    rw [hcount.1, hcount.2]
    exact ⟨hlt, fun v hv u hu => hinj v hv u hu, hsurj⟩
  inputs := by decide +kernel
  link l := by
    rw [← List.mem_map]
    apply List.Perm.mem_iff
    decide +kernel
  vertex := by decide +kernel

theorem sameUpTo_measuring :
    SameUpTo backwards (of measuring) (of measuringBackwards) ∧
    ∃ d, ((of measuring).toWiresWith "q" {}).1 = .ok d ∧
      d.cregs = [⟨"tk_c1", 1⟩, ⟨"tk_c2", 1⟩] := by
  have hpins : ∀ v ∈ (of measuring).inputs, (of measuring).pins v = 0 := by
    decide +kernel
  refine ⟨sameUpTo_of_renumbers (fun v hv => hpins v (mem_inputs.mpr hv)) renumbers_measuring, ?_⟩
  have hok : ((of measuring).toWires "q").toOption.map Dag.cregs =
      some [⟨"tk_c1", 1⟩, ⟨"tk_c2", 1⟩] := by
    decide +kernel
  obtain ⟨d, hd, hcregs⟩ := Option.map_eq_some_iff.mp hok
  exact ⟨d, toOption_eq_some.mp hd, hcregs⟩

end VertexCircuit

end CircuitForms
