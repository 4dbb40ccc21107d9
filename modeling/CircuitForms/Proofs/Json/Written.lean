import CircuitForms.Proofs.Json.Token

/-! # Texts of documents

Which texts a document can be written as, with gaps between the tokens wherever they
may stand. Whatever text of a document is read, the document is what is found.
-/

namespace CircuitForms.Json

open Number

variable {rule : Literal → Float} {steps : Nat} {c : Char} {cs g rest : List Char}

/-- Characters that may stand between tokens. -/
def Gap (g : List Char) : Prop :=
  ∀ c ∈ g, isGap c

theorem gap_nil : Gap [] := fun _ h => nomatch h

theorem skipGap_append (hg : Gap g) (cs : List Char) : skipGap (g ++ cs) = skipGap cs :=
  List.dropWhile_append_of_pos hg

theorem skipGap_cons (hc : isGap c = false) (cs : List Char) : skipGap (c :: cs) = c :: cs := by
  rw [skipGap, List.dropWhile_cons_of_neg]
  simp [hc]

theorem skipGap_skipGap (cs : List Char) : skipGap (skipGap cs) = skipGap cs := by
  induction cs with
  | nil => rfl
  | cons c cs ih =>
    by_cases hc : isGap c
    · have hskip : skipGap (c :: cs) = skipGap cs := List.dropWhile_cons_of_pos hc
      rw [hskip, ih]
    · rw [skipGap_cons (by simpa using hc), skipGap_cons (by simpa using hc)]

theorem ends_gap_append (hg : Gap g) (h : Ends cs) : Ends (g ++ cs) := by
  cases g with
  | nil => exact h
  | cons c g =>
    have hc : isGap c := hg c List.mem_cons_self
    simp only [isGap, Bool.or_eq_true, beq_iff_eq] at hc
    rcases hc with ((rfl | rfl) | rfl) | rfl <;> exact ends_cons (by decide)

theorem value_skipGap : value rule steps (skipGap cs) = value rule steps cs := by
  cases steps with
  | zero => rw [value, value]
  | succ steps => rw [value, value, skipGap_skipGap]

theorem items_skipGap : items rule steps (skipGap cs) = items rule steps cs := by
  cases steps with
  | zero => rw [items, items]
  | succ steps => rw [items, items, value_skipGap]

theorem members_skipGap : members rule steps (skipGap cs) = members rule steps cs := by
  cases steps with
  | zero => rw [members, members]
  | succ steps => rw [members, members, skipGap_skipGap]

theorem value_null (rest : List Char) :
    value rule (steps + 1) ('n' :: 'u' :: 'l' :: 'l' :: rest) = some (.null, rest) := by
  rw [value, skipGap_cons (by decide)]
  rfl

theorem value_bool (b : Bool) (rest : List Char) :
    value rule (steps + 1) ((if b then "true" else "false").toList ++ rest) =
      some (.bool b, rest) := by
  cases b with
  | true => rw [value, if_pos rfl]; rfl
  | false => rw [value, if_neg Bool.false_ne_true]; rfl

theorem value_string (s : String) (rest : List Char) :
    value rule (steps + 1) ((quote s).toList ++ rest) = some (.string s, rest) := by
  rw [toList_quote, value, skipGap_cons (by decide)]
  simp only [stringBody?_quote]
  rfl

theorem value_number (hc : c = '-' ∨ c.isDigit) :
    value rule (steps + 1) (c :: cs) = number? rule (c :: cs) := by
  have hne : ∀ d : Char, (d = '-' ∨ d.isDigit) = False → c ≠ d := by
    rintro d hd rfl
    exact hd ▸ hc
  have hgap : isGap c = false := by
    simp only [isGap, Bool.or_eq_false_iff, beq_eq_false_iff_ne]
    exact ⟨⟨⟨hne _ (by decide), hne _ (by decide)⟩, hne _ (by decide)⟩, hne _ (by decide)⟩
  rw [value, skipGap_cons hgap]
  split <;> rename_i he <;> first | rfl | exact absurd (List.cons.inj he).1 (hne _ (by decide))

theorem value_open_array : value rule (steps + 1) ('[' :: cs) = match skipGap cs with
    | ']' :: rest => some (.array [], rest)
    | rest => (items rule steps rest).map fun (vs, rest) => (.array vs, rest) := by
  rw [value, skipGap_cons (by decide)]
  rfl

theorem value_array (h : ∀ rest, skipGap cs ≠ ']' :: rest) :
    value rule (steps + 1) ('[' :: cs) =
      (items rule steps cs).map fun (vs, rest) => (.array vs, rest) := by
  rw [value_open_array]
  split
  · exact absurd ‹_› (h _)
  · rw [items_skipGap]

theorem value_open_object : value rule (steps + 1) ('\x7b' :: cs) = match skipGap cs with
    | '\x7d' :: rest => some (.object [], rest)
    | rest => (members rule steps rest).map fun (ms, rest) => (ofMembers ms, rest) := by
  rw [value, skipGap_cons (by decide)]
  rfl

theorem value_object (h : ∀ rest, skipGap cs ≠ '\x7d' :: rest) :
    value rule (steps + 1) ('\x7b' :: cs) =
      (members rule steps cs).map fun (ms, rest) => (ofMembers ms, rest) := by
  rw [value_open_object]
  split
  · exact absurd ‹_› (h _)
  · rw [members_skipGap]

mutual

/-- A text that a document can be written as. -/
inductive Written (rule : Literal → Float) : Json → List Char → Prop
  | null : Written rule .null "null".toList
  | bool (b : Bool) : Written rule (.bool b) (if b then "true" else "false").toList
  | number {j : Json} {c : Char} {cs : List Char} : c = '-' ∨ c.isDigit →
      (∀ rest, Ends rest → number? rule (c :: cs ++ rest) = some (j, rest)) →
      Written rule j (c :: cs)
  | string (s : String) : Written rule (.string s) (quote s).toList
  | emptyArray {g : List Char} : Gap g → Written rule (.array []) ('[' :: g ++ [']'])
  | array {js : List Json} {t : List Char} : WrittenItems rule js t →
      Written rule (.array js) ('[' :: t ++ [']'])
  | emptyObject {g : List Char} : Gap g → Written rule (.object []) ('\x7b' :: g ++ ['\x7d'])
  | object {ms : List (String × Json)} {t : List Char} : WrittenMembers rule ms t →
      Written rule (.object ms) ('\x7b' :: t ++ ['\x7d'])

inductive WrittenItems (rule : Literal → Float) : List Json → List Char → Prop
  | one {j : Json} {g t g' : List Char} : Gap g → Written rule j t → Gap g' →
      WrittenItems rule [j] (g ++ t ++ g')
  | cons {j : Json} {js : List Json} {g t g' ts : List Char} : Gap g → Written rule j t → Gap g' →
      WrittenItems rule js ts → WrittenItems rule (j :: js) (g ++ t ++ g' ++ ',' :: ts)

inductive WrittenMembers (rule : Literal → Float) : List (String × Json) → List Char → Prop
  | one {name : String} {j : Json} {g₁ g₂ g t g' : List Char} : Gap g₁ → Gap g₂ → Gap g →
      Written rule j t → Gap g' →
      WrittenMembers rule [(name, j)] (g₁ ++ (quote name).toList ++ g₂ ++ ':' :: (g ++ t ++ g'))
  | cons {name : String} {j : Json} {ms : List (String × Json)} {g₁ g₂ g t g' ts : List Char} :
      Gap g₁ → Gap g₂ → Gap g → Written rule j t → Gap g' → WrittenMembers rule ms ts →
      WrittenMembers rule ((name, j) :: ms)
        (g₁ ++ (quote name).toList ++ g₂ ++ ':' :: (g ++ t ++ g') ++ ',' :: ts)

end

/-- A document does not start with a gap or a closing bracket. -/
theorem Written.skipGap_append {j : Json} {t : List Char} (h : Written rule j t)
    (rest : List Char) : skipGap (t ++ rest) = t ++ rest ∧ ∃ c cs, t = c :: cs ∧ c ≠ ']' := by
  have hcons : ∀ c cs, t = c :: cs → isGap c = false ∧ c ≠ ']' →
      skipGap (t ++ rest) = t ++ rest ∧ ∃ c cs, t = c :: cs ∧ c ≠ ']' := by
    rintro c cs rfl ⟨hg, hc⟩
    exact ⟨skipGap_cons hg _, c, cs, rfl, hc⟩
  cases h with
  | null => exact hcons _ _ rfl (by decide)
  | bool b => cases b <;> exact hcons _ _ rfl (by decide)
  | @number j c cs hc _ =>
    refine hcons c cs rfl ?_
    have hne : ∀ d : Char, (d = '-' ∨ d.isDigit) = False → c ≠ d := by
      rintro d hd rfl
      exact hd ▸ hc
    simp only [isGap, Bool.or_eq_false_iff, beq_eq_false_iff_ne]
    exact ⟨⟨⟨⟨hne _ (by decide), hne _ (by decide)⟩, hne _ (by decide)⟩, hne _ (by decide)⟩,
      hne _ (by decide)⟩
  | string s =>
    exact hcons '"' _ (by rw [← List.append_nil (quote s).toList, toList_quote]) (by decide)
  | emptyArray _ | array _ => exact hcons _ _ rfl (by decide)
  | emptyObject _ | object _ => exact hcons _ _ rfl (by decide)

theorem Written.length_pos {j : Json} {t : List Char} (h : Written rule j t) : 0 < t.length := by
  obtain ⟨-, c, cs, rfl, -⟩ := h.skipGap_append []
  exact Nat.succ_pos _

theorem WrittenItems.skipGap_ne {js : List Json} {t : List Char} (h : WrittenItems rule js t)
    (cs rest : List Char) : skipGap (t ++ cs) ≠ ']' :: rest := by
  have hhead : ∀ {j : Json} {t : List Char} (ts : List Char), Written rule j t →
      skipGap (t ++ ts) ≠ ']' :: rest := by
    intro j t ts hj he
    obtain ⟨hskip, c, cs, rfl, hc⟩ := hj.skipGap_append ts
    exact hc (List.cons.inj (hskip.symm.trans he)).1
  cases h with
  | one hg hj _ =>
    simp only [List.append_assoc, Json.skipGap_append hg]
    exact hhead _ hj
  | cons hg hj _ _ =>
    simp only [List.append_assoc, Json.skipGap_append hg]
    exact hhead _ hj

theorem skipGap_quote (hg : Gap g) (s : String) (cs : List Char) :
    skipGap (g ++ ((quote s).toList ++ cs)) = '"' :: (s.toList.flatMap escape ++ '"' :: cs) := by
  rw [skipGap_append hg, toList_quote, skipGap_cons (by decide)]

theorem WrittenMembers.skipGap_ne {ms : List (String × Json)} {t : List Char}
    (h : WrittenMembers rule ms t) (cs rest : List Char) : skipGap (t ++ cs) ≠ '\x7d' :: rest := by
  cases h with
  | one hg _ _ _ _ =>
    simp only [List.append_assoc, skipGap_quote hg]
    exact fun he => absurd (List.cons.inj he).1 (by decide)
  | cons hg _ _ _ _ _ =>
    simp only [List.append_assoc, skipGap_quote hg]
    exact fun he => absurd (List.cons.inj he).1 (by decide)

theorem items_last {j : Json} {rest : List Char}
    (hv : value rule steps cs = some (j, g ++ ']' :: rest)) (hg : Gap g) :
    items rule (steps + 1) cs = some ([j], rest) := by
  rw [items, hv]
  simp only [skipGap_append hg, skipGap_cons (show isGap ']' = false by decide)]

theorem items_more {j : Json} {rest : List Char}
    (hv : value rule steps cs = some (j, g ++ ',' :: rest)) (hg : Gap g) :
    items rule (steps + 1) cs = (items rule steps rest).map fun (js, rest) => (j :: js, rest) := by
  rw [items, hv]
  simp only [skipGap_append hg, skipGap_cons (show isGap ',' = false by decide)]

theorem members_last {name : String} {j : Json} {g₁ g₂ t rest : List Char} (hg₁ : Gap g₁)
    (hg₂ : Gap g₂) (hv : value rule steps t = some (j, g ++ '\x7d' :: rest)) (hg : Gap g) :
    members rule (steps + 1) (g₁ ++ ((quote name).toList ++ (g₂ ++ ':' :: t))) =
      some ([(some name, j)], rest) := by
  rw [members, skipGap_quote hg₁]
  simp only [stringBody?_quote, skipGap_append hg₂, skipGap_cons (show isGap ':' = false by decide),
    hv, skipGap_append hg, skipGap_cons (show isGap '\x7d' = false by decide)]

theorem members_more {name : String} {j : Json} {g₁ g₂ t rest : List Char} (hg₁ : Gap g₁)
    (hg₂ : Gap g₂) (hv : value rule steps t = some (j, g ++ ',' :: rest)) (hg : Gap g) :
    members rule (steps + 1) (g₁ ++ ((quote name).toList ++ (g₂ ++ ':' :: t))) =
      (members rule steps rest).map fun (ms, rest) => ((some name, j) :: ms, rest) := by
  rw [members, skipGap_quote hg₁]
  simp only [stringBody?_quote, skipGap_append hg₂, skipGap_cons (show isGap ':' = false by decide),
    hv, skipGap_append hg, skipGap_cons (show isGap ',' = false by decide)]

theorem ofMembers_map_some (ms : List (String × Json)) :
    ofMembers (ms.map fun m => (some m.1, m.2)) = .object ms := by
  have hm : (ms.map fun m => (some m.1, m.2)).mapM
      (fun (m : Option String × Json) => m.1.map (·, m.2)) = some ms := by
    induction ms with
    | nil => rfl
    | cons m ms ih => rw [List.map_cons, List.mapM_cons, ih]; rfl
  rw [ofMembers, hm]

mutual

/-- A text of a document is read as that document. -/
theorem Written.value_eq {j : Json} {t : List Char} (h : Written rule j t) {steps : Nat}
    {g rest : List Char} (hg : Gap g) (hs : 2 * t.length ≤ steps + 1) (hr : Ends rest) :
    value rule steps (g ++ (t ++ rest)) = some (j, rest) := by
  rw [← value_skipGap, skipGap_append hg, value_skipGap]
  have hpos := h.length_pos
  -- No text is empty, so there is a step to spend on its first character.
  obtain ⟨steps, rfl⟩ : ∃ n, steps = n + 1 := Nat.exists_eq_add_one.mpr (by omega)
  cases h with
  | null => exact value_null rest
  | bool b => exact value_bool b rest
  | number hc hn => exact (value_number hc).trans (hn rest hr)
  | string s => exact value_string s rest
  | emptyArray hg =>
    rw [value, List.cons_append, List.cons_append, skipGap_cons (by decide)]
    simp only [List.append_assoc, skipGap_append hg, List.singleton_append,
      skipGap_cons (show isGap ']' = false by decide)]
  | @array js t hjs =>
    have hlen : 2 * t.length ≤ steps := by
      simp only [List.length_append, List.length_cons, List.length_nil] at hs
      omega
    rw [List.append_assoc, List.singleton_append, List.cons_append,
      value_array (hjs.skipGap_ne _), hjs.items_eq hlen, Option.map_some]
  | emptyObject hg =>
    rw [value, List.cons_append, List.cons_append, skipGap_cons (by decide)]
    simp only [List.append_assoc, skipGap_append hg, List.singleton_append,
      skipGap_cons (show isGap '\x7d' = false by decide)]
  | @object ms t hms =>
    have hlen : 2 * t.length ≤ steps := by
      simp only [List.length_append, List.length_cons, List.length_nil] at hs
      omega
    rw [List.append_assoc, List.singleton_append, List.cons_append,
      value_object (hms.skipGap_ne _), hms.members_eq hlen, Option.map_some]
    exact congrArg (fun j => some (j, rest)) (ofMembers_map_some ms)

theorem WrittenItems.items_eq {js : List Json} {t : List Char} (h : WrittenItems rule js t)
    {steps : Nat} {rest : List Char} (hs : 2 * t.length ≤ steps) :
    items rule steps (t ++ ']' :: rest) = some (js, rest) := by
  cases h with
  | @one j g t g' hg hj hg' =>
    simp only [List.length_append] at hs
    have hpos := hj.length_pos
    obtain ⟨steps, rfl⟩ : ∃ n, steps = n + 1 := Nat.exists_eq_add_one.mpr (by omega)
    simp only [List.append_assoc]
    exact items_last (hj.value_eq hg (by omega) (ends_gap_append hg' (ends_cons (by decide)))) hg'
  | @cons j js g t g' ts hg hj hg' hjs =>
    simp only [List.length_append, List.length_cons] at hs
    have hpos := hj.length_pos
    obtain ⟨steps, rfl⟩ : ∃ n, steps = n + 1 := Nat.exists_eq_add_one.mpr (by omega)
    simp only [List.append_assoc, List.cons_append]
    rw [items_more (hj.value_eq hg (by omega) (ends_gap_append hg' (ends_cons (by decide)))) hg',
      hjs.items_eq (by omega), Option.map_some]

theorem WrittenMembers.members_eq {ms : List (String × Json)} {t : List Char}
    (h : WrittenMembers rule ms t) {steps : Nat} {rest : List Char} (hs : 2 * t.length ≤ steps) :
    members rule steps (t ++ '\x7d' :: rest) =
      some (ms.map fun m => (some m.1, m.2), rest) := by
  cases h with
  | @one name j g₁ g₂ g t g' hg₁ hg₂ hg hj hg' =>
    simp only [List.length_append, List.length_cons] at hs
    have hpos := hj.length_pos
    obtain ⟨steps, rfl⟩ : ∃ n, steps = n + 1 := Nat.exists_eq_add_one.mpr (by omega)
    simp only [List.append_assoc, List.cons_append]
    exact members_last hg₁ hg₂
      (hj.value_eq hg (by omega) (ends_gap_append hg' (ends_cons (by decide)))) hg'
  | @cons name j ms g₁ g₂ g t g' ts hg₁ hg₂ hg hj hg' hms =>
    simp only [List.length_append, List.length_cons] at hs
    have hpos := hj.length_pos
    obtain ⟨steps, rfl⟩ : ∃ n, steps = n + 1 := Nat.exists_eq_add_one.mpr (by omega)
    simp only [List.append_assoc, List.cons_append]
    rw [members_more hg₁ hg₂
      (hj.value_eq hg (by omega) (ends_gap_append hg' (ends_cons (by decide)))) hg',
      hms.members_eq (by omega), Option.map_some, List.map_cons]

end

/-- A whole text of a document, with gaps around it, is read as that document. -/
theorem Written.parse?_eq {j : Json} {t : List Char} (h : Written rule j t) {g g' : List Char}
    (hg : Gap g) (hg' : Gap g') : parse? (String.ofList (g ++ (t ++ g'))) rule = some j := by
  have hends : Ends g' := by
    rw [← List.append_nil g']
    exact ends_gap_append hg' fun c hc => nomatch hc
  have hskip : skipGap g' = [] := by
    rw [← List.append_nil g', Json.skipGap_append hg']
    rfl
  have hlen : 2 * t.length ≤ 2 * (g ++ (t ++ g')).length + 1 + 1 := by
    simp only [List.length_append]
    omega
  rw [parse?]
  simp only [String.toList_ofList, h.value_eq hg hlen hends, hskip, List.isEmpty_nil, if_true]

end CircuitForms.Json
