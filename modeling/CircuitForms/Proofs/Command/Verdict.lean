import CircuitForms.Command.Run
import CircuitForms.Command.Session
import CircuitForms.Proofs.Convert.Trails
import CircuitForms.Proofs.Dag.Exchanged
import CircuitForms.Proofs.Document.Listing

/-! # The verdict on a round trip

The command that converts a circuit and brings it back compares two counts and the depth
before it reports that nothing changed. The counts never differ. The depth tells nothing of
the order on a classical wire, so the report holds for the wires of the qubits alone.
-/

namespace CircuitForms

namespace Command

variable {α ε : Type} {s s' : Session} {n : Nat} {d d' : Dag} {p : Policy} {c : VertexCircuit}
  {losses : List Loss} {path input register context : String}

/-- The last of what was printed is a line. -/
def Session.EndsWith (s : Session) (line : String) : Prop :=
  ∃ before, s.output = before ++ line ++ "\n"

def Session.Holds (s : Session) (path : String) (l : DagListing) : Prop :=
  ∃ text, Session.look s.files path = .text text ∧
    (Json.parse? text).bind (Json.Reader.run DagListing.read) = some l

def registerOf (d : Dag) : String :=
  (d.qregs.head?.map Register.name).getD "q"

theorem run_say (n : Nat) (line : String) (s : Session) :
    (say (Session.host.upTo n) line).run.run s = (.ok (), s.printLine line) :=
  rfl

theorem orFail_eq_ok {context : List String} {chain : ε → List String} {x : Except ε α} {a : α}
    (h : (orFail context chain x : Step (StateM Session) α).run.run s = (.ok a, s')) :
    x = .ok a ∧ s' = s := by
  cases x with
  | error f => cases h
  | ok b =>
    obtain ⟨hb, hs⟩ := Prod.mk.inj h
    exact ⟨congrArg _ (Except.ok.inj hb), hs.symm⟩

theorem loadWires_eq_ok (h : (loadWires (Session.host.upTo n) path).run.run s = (.ok d, s')) :
    s' = s ∧ ∃ l, s.Holds path l ∧ Dag.ofListing l = .ok d := by
  obtain ⟨l, s₁, hload, h⟩ := run_bind_eq_ok h
  obtain ⟨hl, rfl⟩ := orFail_eq_ok h
  have hread :
      (ExceptT.lift ((Session.host.upTo n).read path) : Step (StateM Session) Found).run.run s =
        (.ok (Session.look s.files path), s) := rfl
  rw [load, run_bind_ok hread] at hload
  cases hlook : Session.look s.files path with
  | missing => rw [hlook] at hload; cases hload
  | unreadable reason => rw [hlook] at hload; cases hload
  | text t =>
    rw [hlook] at hload
    dsimp only at hload
    cases hparse : (Json.parse? t).bind (Json.Reader.run DagListing.read) with
    | none => rw [hparse] at hload; cases hload
    | some l' =>
      rw [hparse] at hload
      obtain ⟨hl', rfl⟩ := Prod.mk.inj hload
      obtain rfl := Except.ok.inj hl'
      exact ⟨rfl, l', ⟨t, hlook, hparse⟩, hl⟩

theorem toVertices_eq_ok {r : VertexCircuit × List Loss}
    (h : (toVertices (Session.host.upTo n) d p input).run.run s = (.ok r, s')) :
    d.toVertices p = .ok r := by
  obtain ⟨_, s₁, -, h⟩ := run_bind_eq_ok h
  exact (orFail_eq_ok h).1

theorem toWires_eq_ok
    (h : (toWires (Session.host.upTo n) c register context).run.run s = (.ok d, s')) :
    c.toWires register = .ok d := by
  obtain ⟨_, s₁, -, h⟩ := run_bind_eq_ok h
  exact (orFail_eq_ok h).1

theorem haveSameShape_eq_ok {b : Bool}
    (h : (haveSameShape d d' : Step (StateM Session) Bool).run.run s = (.ok b, s')) :
    b ↔ d.qubitCount = d'.qubitCount ∧ d.opCount = d'.opCount ∧ d.depth = d'.depth := by
  rw [haveSameShape] at h
  split_ifs at h with hcounts
  · obtain ⟨k, s₁, hk, h⟩ := run_bind_eq_ok h
    obtain ⟨k', s₂, hk', h⟩ := run_bind_eq_ok h
    obtain ⟨hb, -⟩ := Prod.mk.inj h
    obtain rfl := Except.ok.inj hb
    simp only [Bool.and_eq_true, beq_iff_eq] at hcounts
    rw [(orFail_eq_ok hk).1, (orFail_eq_ok hk').1]
    simp [hcounts]
  · obtain ⟨hb, -⟩ := Prod.mk.inj h
    obtain rfl := Except.ok.inj hb
    simp only [Bool.and_eq_true, beq_iff_eq] at hcounts
    exact iff_of_false Bool.false_ne_true fun hsame => hcounts ⟨hsame.1, hsame.2.1⟩

theorem getLast?_append {t u : String} {ch : Char} (h : u.toList.getLast? = some ch) :
    (t ++ u).toList.getLast? = some ch := by
  rw [String.toList_append, List.getLast?_append, h]
  rfl

theorem getLast?_verdict (b : Bool) (losses : List Loss) : (verdict b losses).toList.getLast? =
    some (if b && losses.isEmpty then 't' else ')') := by
  rw [verdict]
  split_ifs
  · decide
  · exact getLast?_append (getLast?_append (by decide))

/-- The two verdicts are told apart by how they end. -/
theorem endsWith_iff {b : Bool} {out : String} (hout : s.output = out ++ verdict b losses ++ "\n") :
    s.EndsWith (verdict true []) ↔ b ∧ losses = [] := by
  constructor
  · rintro ⟨before, hbefore⟩
    have hsame : (out ++ verdict b losses).toList ++ "\n".toList =
        (before ++ verdict true []).toList ++ "\n".toList := by
      rw [← String.toList_append, ← String.toList_append, ← hout, hbefore]
    have hlast := getLast?_append (t := out) (getLast?_verdict b losses)
    rw [List.append_cancel_right hsame, getLast?_append (getLast?_verdict true [])] at hlast
    by_contra hn
    have hneg : ¬ (b && losses.isEmpty) := by simpa using hn
    rw [if_neg hneg] at hlast
    exact absurd hlast (by decide)
  · rintro ⟨hb, rfl⟩
    exact ⟨out, hb ▸ hout⟩

/-- What the command has loaded and brought back when it succeeds. -/
structure BroughtBack (s : Session) (input : String) (p : Policy) (d : Dag) (losses : List Loss)
    (d' : Dag) : Prop where
  loaded : ∃ l, s.Holds input l ∧ Dag.ofListing l = .ok d
  converted : ∃ c, d.toVertices p = .ok (c, losses) ∧ c.toWires (registerOf d) = .ok d'

theorem exists_broughtBack
    (h : (roundTrip (Session.host.upTo n) input p).run.run s = (.ok (), s')) :
    ∃ d losses d' b out, BroughtBack s input p d losses d' ∧
      s'.output = out ++ verdict b losses ++ "\n" ∧
      (b ↔ d.qubitCount = d'.qubitCount ∧ d.opCount = d'.opCount ∧ d.depth = d'.depth) := by
  rw [roundTrip, run_bind_ok (run_say n _ s)] at h
  obtain ⟨d, s₁, hload, h⟩ := run_bind_eq_ok h
  obtain ⟨rfl, l, hholds, hl⟩ := loadWires_eq_ok hload
  obtain ⟨⟨c, losses⟩, s₂, hc, h⟩ := run_bind_eq_ok h
  obtain ⟨_, s₃, -, h⟩ := run_bind_eq_ok h
  obtain ⟨d', s₄, hd', h⟩ := run_bind_eq_ok h
  rw [run_bind_ok (run_say n _ s₄)] at h
  obtain ⟨_, s₅, -, h⟩ := run_bind_eq_ok h
  rw [run_bind_ok (run_say n _ s₅)] at h
  obtain ⟨_, s₆, -, h⟩ := run_bind_eq_ok h
  obtain ⟨b, s₇, hb, h⟩ := run_bind_eq_ok h
  obtain ⟨-, rfl⟩ := Prod.mk.inj ((run_say n _ s₇).symm.trans h)
  exact ⟨d, losses, d', b, s₇.output, ⟨⟨l, hholds, hl⟩, c, toVertices_eq_ok hc, toWires_eq_ok hd'⟩,
    rfl, haveSameShape_eq_ok hb⟩

def Speaks (x : Step (StateM Session) Unit) : Prop :=
  ∀ s, ∃ s', x.run.run s = (.ok (), s')

theorem Speaks.forM {f : α → Step (StateM Session) Unit} (hf : ∀ a, Speaks (f a)) (as : List α) :
    Speaks (as.forM f) := by
  induction as with
  | nil => exact fun s => ⟨s, rfl⟩
  | cons a as ih =>
    intro s
    obtain ⟨s₁, h₁⟩ := hf a s
    obtain ⟨s₂, h₂⟩ := ih s₁
    exact ⟨s₂, (run_bind_ok h₁).trans h₂⟩

theorem speaks_say (n : Nat) (line : String) : Speaks (say (Session.host.upTo n) line) :=
  fun s => ⟨_, run_say n line s⟩

theorem speaks_remark (n : Nat) (r : Remark) :
    Speaks (ExceptT.lift ((Session.host.upTo n).remark r)) := by
  intro s
  have hremark : (Session.host.upTo n).remark r =
      if r.weight.isShown n then Session.host.remark r else pure () := rfl
  rw [hremark]
  split_ifs
  · exact ⟨s.printLine (Session.stamp ++ r.line), rfl⟩
  · exact ⟨s, rfl⟩

theorem loadWires_of_holds {l : DagListing} (hl : s.Holds path l) (hd : Dag.ofListing l = .ok d) :
    (loadWires (Session.host.upTo n) path).run.run s = (.ok d, s) := by
  obtain ⟨text, hlook, hparse⟩ := hl
  have hread :
      (ExceptT.lift ((Session.host.upTo n).read path) : Step (StateM Session) Found).run.run s =
        (.ok (Session.look s.files path), s) := rfl
  have hload : (load (Session.host.upTo n) DagListing.read path).run.run s = (.ok l, s) := by
    rw [load, run_bind_ok hread, hlook]
    dsimp only
    rw [hparse]
    rfl
  rw [loadWires, run_bind_ok hload, hd]
  rfl

theorem exists_sayShape {k : Nat} (hk : d.depth = .ok k) (n : Nat) (label : String) :
    Speaks (sayShape (Session.host.upTo n) label d) := by
  intro s
  have hdepth : (depthOf d : Step (StateM Session) Nat).run.run s = (.ok k, s) := by
    rw [depthOf, hk]
    rfl
  exact ⟨_, (run_bind_ok hdepth).trans (run_say n _ s)⟩

theorem exists_haveSameShape {k k' : Nat} (hk : d.depth = .ok k) (hk' : d'.depth = .ok k')
    (s : Session) :
    ∃ b, (haveSameShape d d' : Step (StateM Session) Bool).run.run s = (.ok b, s) := by
  rw [haveSameShape, depthOf, depthOf, hk, hk']
  split_ifs
  · exact ⟨_, rfl⟩
  · exact ⟨_, rfl⟩

/-- The command succeeds when the circuit can be brought back. -/
theorem BroughtBack.exists_run (h : BroughtBack s input p d losses d') (n : Nat) :
    ∃ s', (roundTrip (Session.host.upTo n) input p).run.run s = (.ok (), s') := by
  obtain ⟨l, hholds, hl⟩ := h.loaded
  obtain ⟨c, hc, hd'⟩ := h.converted
  obtain ⟨⟨k, hk⟩, k', hk'⟩ : (∃ k, d.depth = .ok k) ∧ ∃ k, d'.depth = .ok k := by
    obtain ⟨calls, rfl⟩ := Dag.exists_calls_of_ofListing hl
    exact Dag.exists_depths calls hc hd'
  -- What is printed only moves the session on; the results are those of the translations.
  rw [roundTrip, run_bind_ok (run_say n _ s)]
  have hload : (loadWires (Session.host.upTo n) input).run.run
      (s.printLine ("→ Round-tripping " ++ input)) = (.ok d, _) := loadWires_of_holds hholds hl
  rw [run_bind_ok hload]
  obtain ⟨s₁, h₁⟩ := Speaks.forM (speaks_remark n) (d.remarks p)
    (s.printLine ("→ Round-tripping " ++ input))
  have hvertices : (toVertices (Session.host.upTo n) d p input).run.run
      (s.printLine ("→ Round-tripping " ++ input)) = (.ok (c, losses), s₁) := by
    rw [toVertices, hc]
    exact run_bind_ok h₁
  rw [run_bind_ok hvertices]
  obtain ⟨s₂, h₂⟩ := Speaks.forM (fun l : Loss => speaks_say n ("  ! " ++ l.text)) losses s₁
  dsimp only
  rw [sayLosses, run_bind_ok h₂]
  obtain ⟨s₃, h₃⟩ := Speaks.forM (speaks_remark n) (c.remarks (registerOf d)) s₂
  have hwires :
      (toWires (Session.host.upTo n) c (registerOf d) "Reverse translation failed").run.run s₂ =
        (.ok d', s₃) := by
    rw [toWires, hd']
    exact run_bind_ok h₃
  rw [← registerOf, run_bind_ok hwires, run_bind_ok (run_say n _ s₃)]
  obtain ⟨s₄, h₄⟩ := exists_sayShape hk n "original"
    (s₃.printLine (comparisonRow "" "qubits" "ops" "depth"))
  rw [run_bind_ok h₄, run_bind_ok (run_say n _ s₄)]
  obtain ⟨s₅, h₅⟩ := exists_sayShape hk' n "restored"
    (s₄.printLine (comparisonRow "vertex" (toString c.lineCount) (toString c.vertexCount) "-"))
  obtain ⟨b, hb⟩ := exists_haveSameShape hk hk' s₅
  rw [run_bind_ok h₅, run_bind_ok hb]
  exact ⟨_, run_say n _ s₅⟩

theorem exists_run_iff (n : Nat) (s : Session) (input : String) (p : Policy) :
    (∃ s', (roundTrip (Session.host.upTo n) input p).run.run s = (.ok (), s')) ↔
      ∃ d losses d', BroughtBack s input p d losses d' := by
  constructor
  · rintro ⟨s', h⟩
    obtain ⟨d, losses, d', -, -, hback, -⟩ := exists_broughtBack h
    exact ⟨d, losses, d', hback⟩
  · rintro ⟨d, losses, d', hback⟩
    exact hback.exists_run n

theorem BroughtBack.unique {e e' : Dag} {losses' : List Loss}
    (h : BroughtBack s input p d losses d') (h' : BroughtBack s input p e losses' e') :
    d = e ∧ losses = losses' ∧ d' = e' := by
  obtain ⟨⟨l, ⟨text, hlook, hparse⟩, hl⟩, c, hc, hd⟩ := h
  obtain ⟨⟨l', ⟨text', hlook', hparse'⟩, hl'⟩, c', hc', he⟩ := h'
  obtain rfl := Found.text.inj (hlook.symm.trans hlook')
  obtain rfl := Option.some.inj (hparse.symm.trans hparse')
  obtain rfl := Except.ok.inj (hl.symm.trans hl')
  obtain ⟨rfl, rfl⟩ := Prod.mk.inj (Except.ok.inj (hc.symm.trans hc'))
  exact ⟨rfl, rfl, Except.ok.inj (hd.symm.trans he)⟩

/-- What a run of the command that succeeds says of what it has brought back. -/
structure Reports (s s' : Session) (input : String) (p : Policy) (d : Dag) (losses : List Loss)
    (d' : Dag) : Prop extends BroughtBack s input p d losses d' where
  /-- That nothing changed is reported exactly if nothing was lost and the depth is the same. -/
  verdict_iff : s'.EndsWith (verdict true []) ↔ losses = [] ∧ d.depth = d'.depth
  /-- Whether it is reported or not, only the wires of classical bits may have changed. -/
  wires : ∃ f made, Dag.RestoresWires d d' (registerOf d) f made

/-- Whatever is found under its path and whatever the policy, if the command succeeds, then it has
brought back the circuit with the operations of every qubit's wire in their order, and with those of
the wire of a classical bit in the order of their layers. -/
theorem exists_reports_of_run
    (h : (roundTrip (Session.host.upTo n) input p).run.run s = (.ok (), s')) :
    ∃ d losses d', Reports s s' input p d losses d' := by
  obtain ⟨d, losses, d', b, out, hback, hout, hb⟩ := exists_broughtBack h
  obtain ⟨l, -, hl⟩ := hback.loaded
  obtain ⟨c, hc, hd'⟩ := hback.converted
  obtain ⟨calls, rfl⟩ := Dag.exists_calls_of_ofListing hl
  obtain ⟨f, made, hwires⟩ := Dag.exists_restoresWires calls hc hd'
  refine ⟨_, losses, d', hback, ?_, f, made, hwires⟩
  rw [endsWith_iff hout, hb, hwires.qubit_count, hwires.op_count]
  simp only [true_and, and_comm]

/-- A bit is overwritten out of order, and a later gate makes up for the depth. -/
def masking : DagListing :=
  ⟨[⟨"q", 2⟩], [⟨"c", 1⟩],
    [⟨"h", [⟨"q", 0⟩], [], [], none⟩, .measurement [⟨"q", 0⟩] [⟨"c", 0⟩],
      ⟨"x", [⟨"q", 0⟩], [], [], none⟩, .measurement [⟨"q", 1⟩] [⟨"c", 0⟩]]⟩

def maskingDag : Dag :=
  (Dag.ofListing masking).toOption.getD {}

def maskingVertices : VertexCircuit :=
  ((maskingDag.toVertices {}).toOption.getD ({}, [])).1

def maskingBack : Dag :=
  (maskingVertices.toWires "q").toOption.getD {}

def maskingSession : Session where
  files := .ofHome [("d.json", masking.toJson.compact)]

theorem broughtBack_masking : BroughtBack maskingSession "d.json" {} maskingDag [] maskingBack := by
  have hreals : masking.toJson.reals = [] := rfl
  have hread : Rereadable Number.Literal.scaled DagListing.toJson DagListing.read masking :=
    DagListing.rereadable (by decide) (by decide) (by simp [hreals])
  have hlook : Session.look maskingSession.files "d.json" = .text masking.toJson.compact := by
    decide +kernel
  exact ⟨⟨masking, ⟨_, hlook, hread.compact⟩, by decide +kernel⟩, maskingVertices,
    by decide +kernel, by decide +kernel⟩

theorem exists_reports_of_run_masking : ∃ s',
    (roundTrip (Session.host.upTo 0) "d.json" {}).run.run maskingSession = (.ok (), s') ∧
      Reports maskingSession s' "d.json" {} maskingDag [] maskingBack ∧
      s'.EndsWith (verdict true []) ∧
      (maskingDag.trail (.clbit ⟨"c", 0⟩)).map Prod.snd =
        [.measurement [⟨"q", 0⟩] [⟨"c", 0⟩], .measurement [⟨"q", 1⟩] [⟨"c", 0⟩]] ∧
      (maskingBack.trail (.clbit ⟨"c", 0⟩)).map Prod.snd =
        [.measurement [⟨"q", 1⟩] [⟨"c", 0⟩], .measurement [⟨"q", 0⟩] [⟨"c", 0⟩]] := by
  obtain ⟨s', h⟩ := broughtBack_masking.exists_run 0
  obtain ⟨d, losses, d', hreports⟩ := exists_reports_of_run h
  obtain ⟨rfl, rfl, rfl⟩ := hreports.toBroughtBack.unique broughtBack_masking
  exact ⟨s', h, hreports, hreports.verdict_iff.mpr ⟨rfl, by decide +kernel⟩, by decide +kernel,
    by decide +kernel⟩

end Command

end CircuitForms
