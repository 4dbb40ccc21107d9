import CircuitForms.Proofs.Json.Token
import CircuitForms.Proofs.Number.Shortest

/-! # Numbers in documents

Whole numbers are written by their digits. A finite double is written with a fraction or an
exponent, so it is read as a double again, though by the rule of the reader and not always as
the same one.
-/

namespace CircuitForms.Json

open Number

variable {rule : Literal → Float} {x : Float} {b : Binary} {rest : List Char}

structure Spelling where
  negative : Bool
  whole : List Char
  fraction : List Char
  exponent : Option Int

namespace Spelling

variable {s : Spelling}

def literal (s : Spelling) : Literal :=
  ⟨s.negative, s.whole, s.fraction, s.exponent.getD 0⟩

def fractionPart : List Char → List Char
  | [] => []
  | ds => '.' :: ds

def exponentPart : Option Int → List Char
  | none => []
  | some e => 'e' :: (if e < 0 then '-' else '+') :: Nat.toDigits 10 e.natAbs

def chars (s : Spelling) : List Char :=
  (if s.negative then ['-'] else []) ++
    (s.whole ++ (fractionPart s.fraction ++ exponentPart s.exponent))

/-- A spelling that can be read: digits without a needless zero at their head. -/
structure Proper (s : Spelling) : Prop where
  whole_ne : s.whole ≠ []
  whole_digits : ∀ c ∈ s.whole, c.isDigit
  whole_head : s.whole.length = 1 ∨ s.whole.head? ≠ some '0'
  fraction_digits : ∀ c ∈ s.fraction, c.isDigit

theorem exponent?_exponentPart (e : Option Int) (hr : Ends rest) :
    exponent? (exponentPart e ++ rest) = some (e, rest) := by
  cases e with
  | none => exact exponent?_of_ends hr
  | some e =>
    have hdigits : digits? (Nat.toDigits 10 e.natAbs ++ rest) =
        some (Nat.toDigits 10 e.natAbs, rest) :=
      digits?_append Nat.toDigits_ne_nil isDigit_of_mem_toDigits fun c hc => (hr c hc).1
    by_cases he : e < 0
    · simp [exponentPart, exponent?, he, hdigits, ofDigits_toDigits, abs_of_neg he]
    · simp [exponentPart, exponent?, he, hdigits, ofDigits_toDigits, le_of_not_gt he]

theorem head?_exponentPart (e : Option Int) (hr : Ends rest) :
    ∀ c ∈ (exponentPart e ++ rest).head?, c.isDigit = false ∧ c ≠ '.' := by
  cases e with
  | none => exact fun c hc => ⟨(hr c hc).1, (hr c hc).2.1⟩
  | some e => simp [exponentPart]

theorem fraction?_fractionPart {ds cs : List Char} (hds : ∀ c ∈ ds, c.isDigit)
    (hcs : ∀ c ∈ cs.head?, c.isDigit = false ∧ c ≠ '.') :
    fraction? (fractionPart ds ++ cs) = some (ds, cs) := by
  cases ds with
  | nil =>
    cases cs with
    | nil => rfl
    | cons c cs =>
      rw [fractionPart, List.nil_append, fraction?]
      exact fun _ h => (hcs c rfl).2 (List.cons.inj h).1
  | cons d ds => exact digits?_append (List.cons_ne_nil d ds) hds fun c hc => (hcs c hc).1

theorem head?_fractionPart {ds cs : List Char}
    (hcs : ∀ c ∈ cs.head?, c.isDigit = false ∧ c ≠ '.') :
    ∀ c ∈ (fractionPart ds ++ cs).head?, c.isDigit = false := by
  cases ds with
  | nil => exact fun c hc => (hcs c hc).1
  | cons d ds => simp [fractionPart]

/-- A number is read as it is spelled. -/
theorem Proper.number?_eq (h : s.Proper) (hr : Ends rest) : number? rule (s.chars ++ rest) =
    some (numeral rule s.negative s.whole s.fraction s.exponent, rest) := by
  obtain ⟨negative, whole, fraction, exponent⟩ := s
  obtain ⟨hne, hwhole, hhead, hfraction⟩ := h
  dsimp only at hne hwhole hhead hfraction
  have hexponent := head?_exponentPart exponent hr
  have hpoint : ∀ c ∈ (fractionPart fraction ++ (exponentPart exponent ++ rest)).head?,
      c.isDigit = false := head?_fractionPart hexponent
  have hdigits := digits?_append hne hwhole hpoint
  have hzero : ¬ (1 < whole.length ∧ whole.head? = some '0') := by
    rintro ⟨hlen, hzero⟩
    rcases hhead with hone | hhead
    · omega
    · exact hhead hzero
  obtain ⟨d, ds, rfl⟩ := List.exists_cons_of_ne_nil hne
  have hminus : d ≠ '-' := by
    rintro rfl
    exact absurd (hwhole '-' List.mem_cons_self) (by decide)
  rw [List.cons_append] at hdigits
  cases negative with
  | true =>
    simpa [chars, number?, hdigits, fraction?_fractionPart hfraction hexponent,
      exponent?_exponentPart exponent hr] using hzero
  | false =>
    simpa [chars, number?, hminus, hdigits, fraction?_fractionPart hfraction hexponent,
      exponent?_exponentPart exponent hr] using hzero

theorem Proper.exists_cons (h : s.Proper) :
    ∃ c cs, s.chars = c :: cs ∧ (c = '-' ∨ c.isDigit) := by
  obtain ⟨negative, whole, fraction, exponent⟩ := s
  obtain ⟨d, ds, hds⟩ := List.exists_cons_of_ne_nil h.whole_ne
  cases negative with
  | true => exact ⟨'-', _, rfl, .inl rfl⟩
  | false =>
    dsimp only at hds
    subst hds
    exact ⟨d, _, rfl, .inr (h.whole_digits d List.mem_cons_self)⟩

end Spelling

def plainSpelling (n : Nat) : Spelling :=
  ⟨false, Nat.toDigits 10 n, [], none⟩

theorem chars_plainSpelling (n : Nat) : (toString n).toList = (plainSpelling n).chars := by
  simp [plainSpelling, Spelling.chars, Spelling.fractionPart, Spelling.exponentPart]

theorem proper_plainSpelling (n : Nat) : (plainSpelling n).Proper where
  whole_ne := Nat.toDigits_ne_nil
  whole_digits := isDigit_of_mem_toDigits
  whole_head := by
    rcases Nat.eq_zero_or_pos n with rfl | hn
    · exact .inl rfl
    · exact .inr (head?_toDigits_ne hn)
  fraction_digits := fun _ h => nomatch h

/-- How the number with these digits, times a power of ten, is written. -/
def decimalSpelling (negative : Bool) (digits : List Char) (exponent : Int) : Spelling :=
  let first := exponent + digits.length - 1
  if Layout.exact.positional first then
    if 0 ≤ exponent then ⟨negative, digits ++ List.replicate exponent.toNat '0', ['0'], none⟩
    else if 0 ≤ first then
      ⟨negative, digits.take (first.toNat + 1), digits.drop (first.toNat + 1), none⟩
    else ⟨negative, ['0'], List.replicate (-first - 1).toNat '0' ++ digits, none⟩
  else ⟨negative, digits.take 1, digits.drop 1, some first⟩

def spelling (negative : Bool) (b : Binary) : Spelling :=
  if b.significand = 0 then ⟨negative, ['0'], ['0'], none⟩
  else
    let d := b.shortest .toEven
    decimalSpelling negative (Nat.toDigits 10 d.digits) d.exponent

section Decimal

variable {digits : List Char} {exponent : Int} {negative : Bool}

theorem isDigit_of_mem_replicate {n : Nat} : ∀ c ∈ List.replicate n '0', c.isDigit := by
  intro c hc
  rw [List.eq_of_mem_replicate hc]
  rfl

theorem proper_decimalSpelling (hne : digits ≠ []) (hdigits : ∀ c ∈ digits, c.isDigit)
    (hhead : digits.head? ≠ some '0') : (decimalSpelling negative digits exponent).Proper := by
  obtain ⟨d, ds, rfl⟩ := List.exists_cons_of_ne_nil hne
  have htake : ∀ i, ((d :: ds).take (i + 1)).head? ≠ some '0' := fun i => by simpa using hhead
  unfold decimalSpelling
  dsimp only
  split_ifs with hpos hexp hfirst
  · refine ⟨by simp, ?_, .inr (by simpa using hhead), by simp⟩
    exact fun c hc => (List.mem_append.mp hc).elim (hdigits c) (isDigit_of_mem_replicate c)
  · exact ⟨by simp, fun c hc => hdigits c (List.mem_of_mem_take hc), .inr (htake _),
      fun c hc => hdigits c (List.mem_of_mem_drop hc)⟩
  · refine ⟨by simp, by simp, .inl rfl, ?_⟩
    exact fun c hc => (List.mem_append.mp hc).elim (isDigit_of_mem_replicate c) (hdigits c)
  · exact ⟨by simp, fun c hc => hdigits c (List.mem_of_mem_take hc), .inr (htake 0),
      fun c hc => hdigits c (List.mem_of_mem_drop hc)⟩

theorem fraction_or_exponent_decimalSpelling (hne : digits ≠ []) :
    (decimalSpelling negative digits exponent).fraction ≠ [] ∨
      (decimalSpelling negative digits exponent).exponent ≠ none := by
  unfold decimalSpelling
  dsimp only
  split_ifs with hpos hexp hfirst
  · exact .inl (List.cons_ne_nil _ _)
  · refine .inl fun hdrop => ?_
    have hlen := List.drop_eq_nil_iff.mp hdrop
    omega
  · exact .inl (by simp [hne])
  · exact .inr (Option.some_ne_none _)

theorem chars_decimalSpelling (d : Decimal) (hne : digits ≠ []) :
    (if Layout.exact.positional (d.exponent + digits.length - 1) then
      Layout.exact.positionalText d digits (d.exponent + digits.length - 1)
    else Layout.exponentText digits (d.exponent + digits.length - 1)).toList =
      (decimalSpelling false digits d.exponent).chars := by
  have hpart : ∀ {ds : List Char}, ds ≠ [] → Spelling.fractionPart ds = '.' :: ds := by
    intro ds hds
    cases ds with
    | nil => exact absurd rfl hds
    | cons d ds => rfl
  unfold decimalSpelling
  dsimp only
  generalize hf : d.exponent + digits.length - 1 = first
  -- Zeros at the end, a point among the digits, a point before them, or an exponent.
  split_ifs with hpos hexp hfirst
  · simp [Layout.positionalText, hexp, Layout.exact, Layout.zeros, Spelling.chars,
      Spelling.fractionPart, Spelling.exponentPart]
  · have hdrop : digits.drop (first.toNat + 1) ≠ [] := by
      rw [Ne, List.drop_eq_nil_iff]
      omega
    simp [Layout.positionalText, hexp, hfirst, Layout.pointed, Spelling.chars, hpart hdrop,
      Spelling.exponentPart]
  · have hzeros : Layout.exact.positionalText d digits first =
        "0." ++ Layout.zeros (-first - 1).toNat ++ String.ofList digits := by
      rw [Layout.positionalText, if_neg hexp, if_neg hfirst]
    rw [hzeros]
    generalize (-first - 1).toNat = n
    have happend : List.replicate n '0' ++ digits ≠ [] := by simp [hne]
    simp [Layout.zeros, Spelling.chars, hpart happend, Spelling.exponentPart]
  · obtain ⟨c, ds, rfl⟩ := List.exists_cons_of_ne_nil hne
    have hsign : (if first < 0 then "e-" else "e+").toList =
        ['e', if first < 0 then '-' else '+'] := by
      split <;> rfl
    cases ds with
    | nil =>
      simp [Layout.exponentText, hsign, Spelling.chars, Spelling.fractionPart,
        Spelling.exponentPart]
    | cons c' ds =>
      simp [Layout.exponentText, hsign, Layout.pointed, Spelling.chars, Spelling.fractionPart,
        Spelling.exponentPart]

end Decimal

theorem proper_spelling (h : binary? x = some b) (negative : Bool) :
    (spelling negative b).Proper := by
  unfold spelling
  split_ifs with hs
  · exact ⟨by simp, by simp, .inl rfl, by simp⟩
  · exact proper_decimalSpelling Nat.toDigits_ne_nil isDigit_of_mem_toDigits
      (head?_toDigits_ne (Binary.shortest_pos h (Nat.pos_of_ne_zero hs) .toEven))

theorem fraction_or_exponent (negative : Bool) (b : Binary) :
    (spelling negative b).fraction ≠ [] ∨ (spelling negative b).exponent ≠ none := by
  unfold spelling
  split_ifs with hs
  · exact .inl (List.cons_ne_nil _ _)
  · exact fraction_or_exponent_decimalSpelling Nat.toDigits_ne_nil

theorem chars_spelling_negative (b : Binary) :
    (spelling true b).chars = '-' :: (spelling false b).chars := by
  unfold spelling decimalSpelling
  dsimp only
  split_ifs <;> rfl

/-- A finite double is written as it is spelled. -/
theorem chars_spelling (h : binary? x = some b) :
    (render .exact x).toList = (spelling (isNegative x) b).chars := by
  have hmagnitude : (Layout.exact.magnitude b).toList = (spelling false b).chars := by
    rw [Layout.magnitude, spelling]
    by_cases hs : b.significand = 0
    · rw [if_pos hs, if_pos hs]
      rfl
    · rw [if_neg hs, if_neg hs]
      exact chars_decimalSpelling (b.shortest .toEven) Nat.toDigits_ne_nil
  have hrender : render .exact x =
      (if isNegative x then "-" else "") ++ Layout.exact.magnitude b := by
    rw [render, h]
  rw [hrender, String.toList_append, hmagnitude]
  cases isNegative x with
  | true => exact (chars_spelling_negative b).symm
  | false => rfl

end CircuitForms.Json
