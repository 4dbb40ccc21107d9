import CircuitForms.Coupling.PairList
import CircuitForms.Proofs.Coupling.Relation
import CircuitForms.Proofs.Effect
import CircuitForms.Proofs.Json.Token
import CircuitForms.Proofs.Text.Cut

/-! # Texts of pairs

A text lists pairs when between its commas there is only white space or a pair of indices, written
in digits with a minus sign between them. Exactly these texts are read, as the pairs they list, so
pairs written in decimal are read back however they are spaced out. What is read has no index out
of range and is always a coupling.
-/

namespace CircuitForms.Coupling

open Number Text

variable {cs as bs ds core : List Char} {ps : List (Nat × Nat)} {a b n : Nat} {p : Nat × Nat}

/-- Decimal digits, one at least. -/
def IsRow (ds : List Char) : Prop :=
  ds ≠ [] ∧ ∀ d ∈ ds, d.isDigit

/-- A number in decimal digits, which may follow a plus sign. -/
inductive Numeral : List Char → Nat → Prop
  | plain {ds : List Char} (h : IsRow ds) : Numeral ds (ofDigits ds)
  | plus {ds : List Char} (h : IsRow ds) : Numeral ('+' :: ds) (ofDigits ds)

def SpellsIndex (cs : List Char) (n : Nat) : Prop :=
  n < limit ∧ Padded (Numeral · n) cs

theorem Numeral.mem (h : Numeral cs n) : ∀ c ∈ cs, c = '+' ∨ c.isDigit := by
  cases h with
  | plain h => exact fun c hc => .inr (h.2 c hc)
  | plus h =>
    intro c hc
    rcases List.mem_cons.mp hc with rfl | hc
    · exact .inl rfl
    · exact .inr (h.2 c hc)

theorem isBlank_of_isDigit {c : Char} (h : c.isDigit) : isBlank c = false := by
  simp only [Char.isDigit, Bool.and_eq_true, decide_eq_true_eq, ge_iff_le,
    UInt32.le_iff_toNat_le] at h
  have h : 48 ≤ c.toNat ∧ c.toNat ≤ 57 := h
  simp [isBlank]
  omega

theorem Numeral.isBlank (h : Numeral cs n) : ∀ c ∈ cs, isBlank c = false := by
  intro c hc
  rcases h.mem c hc with rfl | hd
  · rfl
  · exact isBlank_of_isDigit hd

theorem unsigned_eq_self (h : IsRow ds) : unsigned ds = ds := by
  unfold unsigned
  split
  · exact absurd (h.2 '+' List.mem_cons_self) (by decide)
  · rfl

theorem numeral_iff : Numeral cs n ↔ IsRow (unsigned cs) ∧ ofDigits (unsigned cs) = n := by
  constructor
  · rintro (⟨h⟩ | ⟨h⟩)
    · rw [unsigned_eq_self h]
      exact ⟨h, rfl⟩
    · exact ⟨h, rfl⟩
  · rintro ⟨h, rfl⟩
    unfold unsigned at h ⊢
    split at h
    · exact .plus h
    · exact .plain h

theorem takeWhile_isDigit (h : IsRow ds) : ds.takeWhile Char.isDigit = ds :=
  List.takeWhile_eq_self_iff.mpr h.2

theorem word_eq_ok_iff : word cs = .ok n ↔ Numeral cs n ∧ n < 1 <<< 32 := by
  rw [numeral_iff]
  constructor
  · intro h
    simp only [word] at h
    split_ifs at h with hcs hds hlarge hlength
    obtain rfl := Except.ok.inj h
    have hall : (unsigned cs).takeWhile Char.isDigit = unsigned cs :=
      (List.takeWhile_prefix _).eq_of_length_le (Nat.not_lt.mp hlength)
    rw [hall] at hlarge ⊢
    refine ⟨⟨⟨by simpa using hds, List.takeWhile_eq_self_iff.mp hall⟩, rfl⟩, Nat.not_le.mp hlarge⟩
  · rintro ⟨⟨h, rfl⟩, hlt⟩
    have hcs : cs ≠ [] := by
      rintro rfl
      exact h.1 rfl
    simpa [word, takeWhile_isDigit h, hcs, h.1] using hlt

theorem index_eq_ok_iff {text : String} : index text cs = .ok n ↔ SpellsIndex cs n := by
  have hlimit : limit ≤ 1 <<< 32 := by decide
  have hword : n < limit → (Numeral (strip cs) n ↔ word (strip cs) = .ok n) := fun hn => by
    rw [word_eq_ok_iff, and_iff_left (hn.trans_le hlimit)]
  rw [SpellsIndex, padded_iff fun core h => h.isBlank, and_congr_right hword]
  unfold index
  cases word (strip cs) with
  | error fault => simp
  | ok m =>
    simp only [Except.ok.injEq]
    split_ifs with hm
    · simp only [false_iff, not_and]
      omega
    · simp only [Except.ok.injEq]
      omega

theorem SpellsIndex.notMem {c : Char} (h : SpellsIndex cs n) (hb : isBlank c = false)
    (hsign : c ≠ '+') (hd : c.isDigit = false) : c ∉ cs := by
  obtain ⟨-, before, core, after, rfl, hbefore, hafter, hcore⟩ := h
  simp only [List.mem_append, not_or]
  refine ⟨⟨fun hc => ?_, fun hc => ?_⟩, fun hc => ?_⟩
  · simp [hbefore c hc] at hb
  · rcases hcore.mem c hc with rfl | hc
    · exact hsign rfl
    · simp [hc] at hd
  · simp [hafter c hc] at hb

/-- What stands between two commas: nothing but white space, or a pair with a minus sign between
its indices. -/
inductive SpellsPart : List Char → Option (Nat × Nat) → Prop
  | blank {cs : List Char} (h : Blank cs) : SpellsPart cs none
  | pair {as bs : List Char} {a b : Nat} (ha : SpellsIndex as a) (hb : SpellsIndex bs b) :
    SpellsPart (as ++ '-' :: bs) (some (a, b))

theorem SpellsPart.comma_notMem {o : Option (Nat × Nat)} (h : SpellsPart cs o) : ',' ∉ cs := by
  cases h with
  | blank h =>
    intro hc
    exact absurd (h ',' hc) (by decide)
  | pair ha hb =>
    have ha := ha.notMem (c := ',') rfl (by decide) rfl
    have hb := hb.notMem (c := ',') rfl (by decide) rfl
    simp [ha, hb]

theorem pair_eq_ok_iff : pair cs = .ok p ↔
    ∃ as bs, firstCut '-' cs = some (as, bs) ∧ SpellsIndex as p.1 ∧ SpellsIndex bs p.2 := by
  unfold pair
  cases hcut : firstCut '-' cs with
  | none => simp
  | some cut =>
    obtain ⟨as, bs⟩ := cut
    obtain ⟨a, b⟩ := p
    simp [bind_eq_ok, index_eq_ok_iff, pure, Except.pure]

theorem spellsIndex_congr (h : strip as = strip bs) : SpellsIndex as n ↔ SpellsIndex bs n := by
  simp only [SpellsIndex, padded_iff fun core (h : Numeral core n) => h.isBlank, h]

/-- A part spells a pair if what is left of it when it is stripped is taken for that pair. -/
theorem spellsPart_some_iff : SpellsPart cs (some p) ↔ pair (strip cs) = .ok p := by
  rw [pair_eq_ok_iff]
  constructor
  · intro h
    cases h with
    | @pair as bs a b ha hb =>
      have hminus : '-' ∉ as := ha.notMem rfl (by decide) rfl
      refine ⟨as.dropWhile isBlank, bs.rdropWhile isBlank, ?_, ?_, ?_⟩
      · rw [strip_append_cons rfl, firstCut_eq_some_iff]
        exact ⟨rfl, fun hm => hminus ((List.dropWhile_suffix _).subset hm)⟩
      · exact (spellsIndex_congr (strip_dropWhile as)).mpr ha
      · exact (spellsIndex_congr (strip_rdropWhile bs)).mpr hb
  · rintro ⟨as, bs, hcut, ha, hb⟩
    obtain ⟨he, -⟩ := firstCut_eq_some_iff.mp hcut
    obtain ⟨before, after, hbefore, hafter, hcs⟩ := exists_eq_append_strip cs
    have hsplit : cs = (before ++ as) ++ '-' :: (bs ++ after) := by
      rw [hcs, he]
      simp
    rw [hsplit]
    exact .pair ((spellsIndex_congr (strip_blank_append hbefore)).mpr ha)
      ((spellsIndex_congr (strip_append_blank hafter)).mpr hb)

theorem spellsPart_none_iff : SpellsPart cs none ↔ strip cs = [] := by
  rw [strip_eq_nil_iff]
  constructor
  · rintro ⟨h⟩
    exact h
  · exact .blank

/-- The pairs of some parts are read if each part spells one or is left out. -/
theorem mapM_pair_eq_ok_iff {parts : List (List Char)} :
    ((parts.map strip).filter (!·.isEmpty)).mapM pair = .ok ps ↔
      ∃ os, List.Forall₂ SpellsPart parts os ∧ os.reduceOption = ps := by
  induction parts generalizing ps with
  | nil => simp [pure, Except.pure, eq_comm]
  | cons part parts ih =>
    simp only [List.map_cons, List.forall₂_cons_left_iff]
    -- A blank part spells no pair and is left out before any is read.
    by_cases hpart : strip part = []
    · rw [List.filter_cons_of_neg (by simp [hpart]), ih]
      constructor
      · rintro ⟨os, hos, rfl⟩
        exact ⟨none :: os, ⟨none, os, spellsPart_none_iff.mpr hpart, hos, rfl⟩, by simp⟩
      · rintro ⟨_, ⟨o, os, ho, hos, rfl⟩, rfl⟩
        cases o with
        | none => exact ⟨os, hos, by simp⟩
        | some p =>
          have hp := spellsPart_some_iff.mp ho
          rw [hpart] at hp
          cases hp
    · rw [List.filter_cons_of_pos (by simp [hpart]), List.mapM_cons]
      simp only [bind_eq_ok, ih, pure, Except.pure, Except.ok.injEq]
      constructor
      · rintro ⟨p, hp, _, ⟨os, hos, rfl⟩, rfl⟩
        exact ⟨some p :: os, ⟨some p, os, spellsPart_some_iff.mpr hp, hos, rfl⟩, by simp⟩
      · rintro ⟨_, ⟨o, os, ho, hos, rfl⟩, rfl⟩
        cases o with
        | none => exact absurd (spellsPart_none_iff.mp ho) hpart
        | some p => exact ⟨p, spellsPart_some_iff.mp ho, _, ⟨os, hos, rfl⟩, by simp⟩

def commas (parts : List (List Char)) : List Char :=
  [','].intercalate parts

/-- A text that is made of parts with commas between them, which spell some pairs. -/
def Spells (text : List Char) (ps : List (Nat × Nat)) : Prop :=
  ∃ parts os, commas parts = text ∧ List.Forall₂ SpellsPart parts os ∧ os.reduceOption = ps

theorem parsePairs_eq_ok_iff {text : String} :
    parsePairs text = .ok ps ↔ Spells text.toList ps := by
  rw [parsePairs, mapM_pair_eq_ok_iff]
  constructor
  · rintro ⟨os, hos, rfl⟩
    exact ⟨_, os, List.intercalate_splitOn ',', hos, rfl⟩
  · rintro ⟨parts, os, htext, hos, rfl⟩
    rw [← htext]
    cases hos with
    | nil => exact ⟨[none], .cons (.blank fun c hc => nomatch hc) .nil, rfl⟩
    | @cons part o parts os ho hos =>
      have hall := hos.cons ho
      have hcomma : ∀ part ∈ _, ',' ∉ part :=
        ((List.forall₂_and_left _ _).mp (hall.imp fun _ _ h => ⟨h.comma_notMem, h⟩)).1
      rw [commas, pieces, List.splitOn_intercalate ',' hcomma (List.cons_ne_nil part parts)]
      exact ⟨_, hall, rfl⟩

theorem SpellsPart.inRange (h : SpellsPart cs (some p)) : InRange p := by
  cases h with
  | pair ha hb => exact ⟨ha.1, hb.1⟩

theorem Spells.inRange {text : List Char} (h : Spells text ps) : ∀ p ∈ ps, InRange p := by
  obtain ⟨parts, os, -, hos, rfl⟩ := h
  have hall : ∀ o ∈ os, ∀ p, o = some p → InRange p := by
    refine ((List.forall₂_and_left os parts).mp (hos.flip.imp fun o part h => ⟨?_, h⟩)).1
    rintro p rfl
    exact h.inRange
  exact fun p hp => hall (some p) (List.reduceOption_mem_iff.mp hp) p rfl

theorem exists_ofPairs_of_spells {text : List Char} (h : Spells text ps) :
    ∃ c, ofPairs ps = .ok c :=
  ⟨_, ofPairs_eq_ok_iff.mpr ⟨h.inRange, rfl⟩⟩

theorem numeral_toString (n : Nat) : Numeral (toString n).toList n := by
  have hrow : IsRow (Nat.toDigits 10 n) := ⟨Nat.toDigits_ne_nil, Json.isDigit_of_mem_toDigits⟩
  simpa [Json.ofDigits_toDigits] using Numeral.plain hrow

/-- White space alone, or a pair with white space around its indices. -/
inductive Item where
  | gap (space : List Char)
  | pair (a b : Nat) (beforeA afterA beforeB afterB : List Char)

namespace Item

def chars : Item → List Char
  | gap space => space
  | pair a b beforeA afterA beforeB afterB =>
    beforeA ++ (toString a).toList ++ afterA ++ '-' :: (beforeB ++ (toString b).toList ++ afterB)

def pair? : Item → Option (Nat × Nat)
  | gap _ => none
  | pair a b _ _ _ _ => some (a, b)

def IsSpaced : Item → Prop
  | gap space => Blank space
  | pair _ _ beforeA afterA beforeB afterB =>
    Blank beforeA ∧ Blank afterA ∧ Blank beforeB ∧ Blank afterB

instance (i : Item) : Decidable i.IsSpaced :=
  match i with
  | gap space => inferInstanceAs (Decidable (Blank space))
  | pair _ _ beforeA afterA beforeB afterB =>
    inferInstanceAs (Decidable (Blank beforeA ∧ Blank afterA ∧ Blank beforeB ∧ Blank afterB))

theorem IsSpaced.spells {i : Item} (h : i.IsSpaced) (hr : ∀ p, i.pair? = some p → InRange p) :
    SpellsPart i.chars i.pair? := by
  cases i with
  | gap space => exact .blank h
  | pair a b beforeA afterA beforeB afterB =>
    obtain ⟨hbeforeA, hafterA, hbeforeB, hafterB⟩ := h
    obtain ⟨ha, hb⟩ := hr (a, b) rfl
    exact .pair ⟨ha, beforeA, _, afterA, rfl, hbeforeA, hafterA, numeral_toString a⟩
      ⟨hb, beforeB, _, afterB, rfl, hbeforeB, hafterB, numeral_toString b⟩

end Item

theorem spells_commas {items : List Item} (h : ∀ i ∈ items, i.IsSpaced)
    (hr : ∀ p ∈ items.filterMap Item.pair?, InRange p) :
    Spells (commas (items.map Item.chars)) (items.filterMap Item.pair?) := by
  refine ⟨_, items.map Item.pair?, rfl, ?_, ?_⟩
  · rw [List.forall₂_map_left_iff, List.forall₂_map_right_iff, List.forall₂_same]
    exact fun i hi => (h i hi).spells fun p hp => hr p (List.mem_filterMap.mpr ⟨i, hi, hp⟩)
  · rw [List.reduceOption, List.filterMap_map, Function.id_comp]

/-- The texts that are read are those that spell some pairs, which are always a coupling; and any
pairs in range are read back from a text that has them in decimal with commas between them,
whatever white space stands around pairs and indices and whatever parts are left out. -/
theorem reads_parsePairs :
    (∀ text ps, parsePairs text = .ok ps ↔ Spells text.toList ps) ∧
    (∀ text ps, parsePairs text = .ok ps → ∃ c, ofPairs ps = .ok c) ∧
    ∀ ps, (∀ p ∈ ps, InRange p) → ∀ items : List Item, (∀ i ∈ items, i.IsSpaced) →
      items.filterMap Item.pair? = ps →
      parsePairs (String.ofList (commas (items.map Item.chars))) = .ok ps := by
  refine ⟨fun text ps => parsePairs_eq_ok_iff, fun text ps h => ?_, ?_⟩
  · exact exists_ofPairs_of_spells (parsePairs_eq_ok_iff.mp h)
  · rintro _ hr items hspaced rfl
    rw [parsePairs_eq_ok_iff, String.toList_ofList]
    exact spells_commas hspaced hr

def spacedOut : List Item :=
  [.pair 3 0 [' '] [' '] ['\t'] ['\u00a0'], .gap [' '], .pair 1 65535 [] [] [] []]

theorem reads_parsePairs_spacedOut :
    parsePairs (String.ofList (commas (spacedOut.map Item.chars))) = .ok [(3, 0), (1, 65535)] ∧
    Spells (commas (spacedOut.map Item.chars)) [(3, 0), (1, 65535)] ∧
    ∃ c, ofPairs [(3, 0), (1, 65535)] = .ok c := by
  obtain ⟨hreads, hcoupling, hwritten⟩ := reads_parsePairs
  have hread := hwritten [(3, 0), (1, 65535)] (by decide) spacedOut (by decide) rfl
  exact ⟨hread, by simpa using (hreads _ _).mp hread, hcoupling _ _ hread⟩

end CircuitForms.Coupling
