import CircuitForms.Proofs.Json.Spelling
import CircuitForms.Proofs.Json.Written

/-! # Reading what was written

A document is read back from either of its texts. What comes back is the document apart from
its numbers: a whole number that does not fit 64 bits becomes a double, a finite double the one
its text is taken for, and any other double nothing.
-/

namespace CircuitForms.Json

open Number Text

variable {rule : Literal → Float} {x : Float}

/-- The double that a finite double is read back as. -/
def again (rule : Literal → Float) (x : Float) : Float :=
  match binary? x with
  | some b => rule (spelling (isNegative x) b).literal
  | none => x

mutual

def reread (rule : Literal → Float) : Json → Json
  | .nat n => numeral rule false (Nat.toDigits 10 n) [] none
  | .real x => if isFinite x then .real (again rule x) else .null
  | .broken => .null
  | .array items => .array (rereadItems rule items)
  | .object members => .object (rereadMembers rule members)
  | j => j

def rereadItems (rule : Literal → Float) : List Json → List Json
  | [] => []
  | item :: items => reread rule item :: rereadItems rule items

def rereadMembers (rule : Literal → Float) : List (String × Json) → List (String × Json)
  | [] => []
  | (name, value) :: members => (name, reread rule value) :: rereadMembers rule members

end

theorem rereadItems_eq_map (items : List Json) :
    rereadItems rule items = items.map (reread rule) := by
  induction items with
  | nil => rfl
  | cons item items ih => rw [rereadItems, List.map_cons, ih]

theorem rereadMembers_eq_map (members : List (String × Json)) :
    rereadMembers rule members = members.map fun m => (m.1, reread rule m.2) := by
  induction members with
  | nil => rfl
  | cons m members ih => rw [rereadMembers, List.map_cons, ih]

theorem reread_array (items : List Json) :
    reread rule (.array items) = .array (items.map (reread rule)) := by
  rw [reread, rereadItems_eq_map]

theorem reread_object (members : List (String × Json)) :
    reread rule (.object members) = .object (members.map fun m => (m.1, reread rule m.2)) := by
  rw [reread, rereadMembers_eq_map]

/-- A whole number is read back as such if it fits 64 bits. -/
theorem reread_nat (n : Nat) : reread rule (.nat n) =
    if n < 1 <<< 64 then .nat n else .real (rule ⟨false, Nat.toDigits 10 n, [], 0⟩) := by
  have hplain : (!false && ([] : List Char).isEmpty && (none : Option Int).isNone &&
      decide (n < 1 <<< 64)) = decide (n < 1 <<< 64) := rfl
  simp only [reread, numeral, ofDigits_toDigits, hplain, decide_eq_true_eq]
  rfl

theorem Spelling.Proper.written {s : Spelling} (h : s.Proper) :
    Written rule (numeral rule s.negative s.whole s.fraction s.exponent) s.chars := by
  obtain ⟨c, cs, hcs, hc⟩ := h.exists_cons
  have hnumber : ∀ rest, Ends rest → number? rule (s.chars ++ rest) =
      some (numeral rule s.negative s.whole s.fraction s.exponent, rest) :=
    fun rest hr => h.number?_eq hr
  rw [hcs] at hnumber ⊢
  exact .number hc hnumber

theorem written_nat (n : Nat) : Written rule (reread rule (.nat n)) (toString n).toList := by
  rw [chars_plainSpelling]
  exact (proper_plainSpelling n).written

theorem numeral_eq_real {s : Spelling} (h : s.fraction ≠ [] ∨ s.exponent ≠ none) :
    numeral rule s.negative s.whole s.fraction s.exponent = .real (rule s.literal) := by
  rw [numeral, if_neg]
  · rfl
  · rcases h with h | h
    · simp [h]
    · simp [h]

theorem written_real (x : Float) : Written rule (reread rule (.real x)) (realText x).toList := by
  rw [reread, realText, isFinite]
  cases hb : binary? x with
  | none => exact .null
  | some b =>
    have hagain : again rule x = rule (spelling (isNegative x) b).literal := by rw [again, hb]
    rw [if_pos Option.isSome_some, if_pos Option.isSome_some, chars_spelling hb, hagain,
      ← numeral_eq_real (fraction_or_exponent _ b)]
    exact (proper_spelling hb _).written

section Rows

variable {before after : String} (hb : Gap before.toList) (ha : Gap after.toList)

include hb ha

theorem writtenItems_intercalate {items : List Json} {parts : List String} (hne : items ≠ [])
    (h : List.Forall₂ (fun j s => Written rule j s.toList) items parts) :
    WrittenItems rule items (before ++ ("," ++ before).intercalate parts ++ after).toList := by
  induction h with
  | nil => exact absurd rfl hne
  | cons hj hrest ih =>
    cases hrest with
    | nil => simpa using WrittenItems.one hb hj ha
    | cons hj' hrest =>
      have hmore := WrittenItems.cons hb hj gap_nil (ih (List.cons_ne_nil _ _))
      simpa using hmore

def MemberText (rule : Literal → Float) (m : String × Json) (s : String) : Prop :=
  ∃ g t, Gap g ∧ Written rule m.2 t ∧ s.toList = (quote m.1).toList ++ ':' :: (g ++ t)

theorem writtenMembers_intercalate {members : List (String × Json)} {parts : List String}
    (hne : members ≠ []) (h : List.Forall₂ (MemberText rule) members parts) :
    WrittenMembers rule members (before ++ ("," ++ before).intercalate parts ++ after).toList := by
  induction h with
  | nil => exact absurd rfl hne
  | @cons m s members parts hm hrest ih =>
    obtain ⟨name, j⟩ := m
    obtain ⟨g, t, hg, hj, hs⟩ := hm
    cases hrest with
    | nil =>
      have hone := @WrittenMembers.one rule name j _ _ _ _ _ hb gap_nil hg hj ha
      simpa [hs] using hone
    | cons hm' hrest =>
      have hmore := @WrittenMembers.cons rule name j _ _ _ _ _ _ _ hb gap_nil hg hj gap_nil
        (ih (List.cons_ne_nil _ _))
      simpa [hs] using hmore

end Rows

mutual

theorem written_compact : ∀ j : Json, Written rule (reread rule j) (compact j).toList
  | .null => .null
  | .bool b => .bool b
  | .nat n => written_nat n
  | .real x => written_real x
  | .string s => .string s
  | .broken => .null
  | .array [] => .emptyArray gap_nil
  | .array (item :: items) => by
    have hitems := @writtenItems_intercalate rule "" "" gap_nil gap_nil _ _ (List.cons_ne_nil _ _)
      (forall₂_compactItems (item :: items))
    simpa [compact, reread, rereadItems] using Written.array hitems
  | .object [] => .emptyObject gap_nil
  | .object (member :: members) => by
    have hmembers := @writtenMembers_intercalate rule "" "" gap_nil gap_nil _ _
      (List.cons_ne_nil _ _) (forall₂_compactMembers (member :: members))
    simpa [compact, reread, rereadMembers] using Written.object hmembers

theorem forall₂_compactItems : ∀ items : List Json,
    List.Forall₂ (fun j s => Written rule j s.toList) (rereadItems rule items)
      (compactItems items)
  | [] => .nil
  | item :: items => .cons (written_compact item) (forall₂_compactItems items)

theorem forall₂_compactMembers : ∀ members : List (String × Json),
    List.Forall₂ (MemberText rule) (rereadMembers rule members) (compactMembers members)
  | [] => .nil
  | (name, value) :: members =>
    .cons ⟨[], _, gap_nil, written_compact value, by simp⟩ (forall₂_compactMembers members)

end

/-- Reading the compact text of a document. -/
theorem parse?_compact (j : Json) : parse? (compact j) rule = some (reread rule j) := by
  have hp := (@written_compact rule j).parse?_eq gap_nil gap_nil
  rwa [List.nil_append, List.append_nil, String.ofList_toList] at hp

theorem gap_newline (level : Nat) : Gap (newline level).toList := by
  intro c hc
  rw [newline, String.toList_ofList, List.mem_cons] at hc
  rcases hc with rfl | hc
  · rfl
  · rw [List.eq_of_mem_replicate hc]
    rfl

theorem toList_spread_nil (level : Nat) (opening closing : String) :
    (spread level opening closing []).toList = opening.toList ++ closing.toList := by
  simp [spread]

theorem toList_spread (level : Nat) (opening closing : String) (part : String)
    (parts : List String) : (spread level opening closing (part :: parts)).toList =
      opening.toList ++ (newline (level + 1) ++ ("," ++ newline (level + 1)).intercalate
        (part :: parts) ++ newline level).toList ++ closing.toList := by
  simp [spread]

mutual

theorem written_prettyAt : ∀ (level : Nat) (j : Json),
    Written rule (reread rule j) (prettyAt level j).toList
  | _, .null => .null
  | _, .bool b => .bool b
  | _, .nat n => written_nat n
  | _, .real x => written_real x
  | _, .string s => .string s
  | _, .broken => .null
  | _, .array [] => by
    rw [prettyAt, prettyItems, toList_spread_nil]
    exact .emptyArray gap_nil
  | level, .array (item :: items) => by
    have hitems := writtenItems_intercalate (gap_newline (level + 1)) (gap_newline level)
      (List.cons_ne_nil _ _) (forall₂_prettyItems (level + 1) (item :: items))
    rw [prettyAt, prettyItems, toList_spread]
    exact Written.array hitems
  | _, .object [] => by
    rw [prettyAt, prettyMembers, toList_spread_nil]
    exact .emptyObject gap_nil
  | level, .object ((name, value) :: members) => by
    have hmembers := writtenMembers_intercalate (gap_newline (level + 1)) (gap_newline level)
      (List.cons_ne_nil _ _) (forall₂_prettyMembers (level + 1) ((name, value) :: members))
    rw [prettyAt, prettyMembers, toList_spread]
    exact Written.object hmembers

theorem forall₂_prettyItems : ∀ (level : Nat) (items : List Json),
    List.Forall₂ (fun j s => Written rule j s.toList) (rereadItems rule items)
      (prettyItems level items)
  | _, [] => .nil
  | level, item :: items =>
    .cons (written_prettyAt level item) (forall₂_prettyItems level items)

theorem forall₂_prettyMembers : ∀ (level : Nat) (members : List (String × Json)),
    List.Forall₂ (MemberText rule) (rereadMembers rule members) (prettyMembers level members)
  | _, [] => .nil
  | level, (name, value) :: members =>
    .cons ⟨[' '], _, fun _ hc => List.mem_singleton.mp hc ▸ rfl, written_prettyAt level value,
      by simp⟩ (forall₂_prettyMembers level members)

end

theorem parse?_pretty (j : Json) : parse? (pretty j) rule = some (reread rule j) := by
  have hp := (@written_prettyAt rule 0 j).parse?_eq gap_nil gap_nil
  rwa [List.nil_append, List.append_nil, String.ofList_toList] at hp

end CircuitForms.Json
