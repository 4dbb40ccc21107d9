import CircuitForms.Json.Reader
import CircuitForms.Proofs.Json.Reread

/-! # Values that are read back

A document is readable if its arrays and objects are not nested deeper than its reader goes and
its doubles are read as numbers again. A value is read back from the text of its document if the
document is readable and its numbers fit. What is read back is the value apart from its doubles.
-/

namespace CircuitForms.Json

open Number

variable {rule : Literal → Float} {P : Float → Prop} {room : Nat} {x : Float}
  {items : List Json} {members : List (String × Json)}

mutual

/-- How many arrays and objects stand inside one another. -/
def depth : Json → Nat
  | .array items => depthItems items + 1
  | .object members => depthMembers members + 1
  | _ => 0

def depthItems : List Json → Nat
  | [] => 0
  | item :: items => max (depth item) (depthItems items)

def depthMembers : List (String × Json) → Nat
  | [] => 0
  | (_, value) :: members => max (depth value) (depthMembers members)

end

mutual

def reals : Json → List Float
  | .real x => [x]
  | .array items => realsItems items
  | .object members => realsMembers members
  | _ => []

def realsItems : List Json → List Float
  | [] => []
  | item :: items => reals item ++ realsItems items

def realsMembers : List (String × Json) → List Float
  | [] => []
  | (_, value) :: members => reals value ++ realsMembers members

end

/-- A double whose text is that of a finite double. -/
def Legible (rule : Literal → Float) (x : Float) : Prop :=
  isFinite x ∧ isFinite (again rule x)

/-- A document that a reader may enter as deep as it goes, whose doubles all have a property. -/
structure Readable (P : Float → Prop) (room : Nat) (j : Json) : Prop where
  depth_le : j.depth ≤ room
  reals : ∀ x ∈ j.reals, P x

theorem depthItems_le_iff {n : Nat} : depthItems items ≤ n ↔ ∀ j ∈ items, j.depth ≤ n := by
  induction items with
  | nil => simp [depthItems]
  | cons j items ih => rw [depthItems, max_le_iff, ih, List.forall_mem_cons]

theorem depthMembers_le_iff {n : Nat} :
    depthMembers members ≤ n ↔ ∀ m ∈ members, m.2.depth ≤ n := by
  induction members with
  | nil => simp [depthMembers]
  | cons m members ih => rw [depthMembers, max_le_iff, ih, List.forall_mem_cons]

theorem mem_realsItems : x ∈ realsItems items ↔ ∃ j ∈ items, x ∈ j.reals := by
  induction items with
  | nil => simp [realsItems]
  | cons j items ih => rw [realsItems, List.mem_append, ih, List.exists_mem_cons_iff]

theorem mem_realsMembers : x ∈ realsMembers members ↔ ∃ m ∈ members, x ∈ m.2.reals := by
  induction members with
  | nil => simp [realsMembers]
  | cons m members ih => rw [realsMembers, List.mem_append, ih, List.exists_mem_cons_iff]

@[simp] theorem reals_string (s : String) : (string s).reals = [] := rfl

@[simp] theorem reals_nat (n : Nat) : (nat n).reals = [] := rfl

@[simp] theorem forall_reals_real : (∀ y ∈ (real x).reals, P y) ↔ P x := by
  simp [reals]

@[simp] theorem forall_reals_array :
    (∀ x ∈ (array items).reals, P x) ↔ ∀ j ∈ items, ∀ x ∈ j.reals, P x := by
  simp only [reals, mem_realsItems]
  exact ⟨fun h j hj x hx => h x ⟨j, hj, hx⟩, fun h x ⟨j, hj, hx⟩ => h j hj x hx⟩

@[simp] theorem forall_reals_object :
    (∀ x ∈ (object members).reals, P x) ↔ ∀ m ∈ members, ∀ x ∈ m.2.reals, P x := by
  simp only [reals, mem_realsMembers]
  exact ⟨fun h m hm x hx => h x ⟨m, hm, hx⟩, fun h x ⟨m, hm, hx⟩ => h m hm x hx⟩

theorem readable_iff {j : Json} :
    Readable P room j ↔ j.depth ≤ room ∧ ∀ x ∈ j.reals, P x :=
  ⟨fun h => ⟨h.depth_le, h.reals⟩, fun h => ⟨h.1, h.2⟩⟩

@[simp] theorem readable_string (s : String) : Readable P room (.string s) :=
  ⟨Nat.zero_le _, fun _ h => nomatch h⟩

@[simp] theorem readable_nat (n : Nat) : Readable P room (.nat n) :=
  ⟨Nat.zero_le _, fun _ h => nomatch h⟩

@[simp] theorem readable_real_iff : Readable P room (.real x) ↔ P x := by
  simp [readable_iff, depth]

@[simp] theorem not_readable_array : ¬ Readable P 0 (.array items) :=
  fun h => Nat.not_succ_le_zero _ h.depth_le

@[simp] theorem not_readable_object : ¬ Readable P 0 (.object members) :=
  fun h => Nat.not_succ_le_zero _ h.depth_le

@[simp] theorem readable_array_iff :
    Readable P (room + 1) (.array items) ↔ ∀ j ∈ items, Readable P room j := by
  simp only [readable_iff, depth, Nat.add_le_add_iff_right, depthItems_le_iff,
    forall_reals_array, forall_and]

@[simp] theorem readable_object_iff :
    Readable P (room + 1) (.object members) ↔ ∀ m ∈ members, Readable P room m.2 := by
  simp only [readable_iff, depth, Nat.add_le_add_iff_right, depthMembers_le_iff,
    forall_reals_object, forall_and]

namespace Reader

variable {α β : Type}

@[simp] theorem string_reread (s : String) : string room (reread rule (.string s)) = some s := rfl

theorem natBelow_reread {bound : Nat} (hb : bound ≤ 1 <<< 64) (n : Nat) :
    natBelow bound room (reread rule (.nat n)) = if n < bound then some n else none := by
  by_cases h : n < 1 <<< 64
  · rw [reread_nat, if_pos h]
    rfl
  · rw [reread_nat, if_neg h, if_neg fun hn => h (hn.trans_le hb)]
    rfl

@[simp] theorem word_reread {n m : Nat} :
    word room (reread rule (.nat n)) = some m ↔ n < 1 <<< 32 ∧ n = m := by
  rw [word, natBelow_reread (by decide), Option.ite_none_right_eq_some, Option.some.injEq]

@[simp] theorem wide_reread {n m : Nat} :
    wide room (reread rule (.nat n)) = some m ↔ n < 1 <<< 64 ∧ n = m := by
  rw [wide, natBelow_reread le_rfl, Option.ite_none_right_eq_some, Option.some.injEq]

@[simp] theorem real_reread {y : Float} :
    real room (reread rule (.real x)) = some y ↔ Legible rule x ∧ again rule x = y := by
  rw [reread, Legible]
  by_cases hx : isFinite x
  · rw [if_pos hx, real, Option.ite_none_right_eq_some, Option.some.injEq]
    simp [hx]
  · rw [if_neg hx]
    simp [hx, real]

/-- A value is read back from its document as its image, if the document is readable and the
value fits. -/
def ReadBack (rule : Literal → Float) (toJson : α → Json) (read : Reader α) (fits : α → Prop)
    (image : α → α) (a : α) : Prop :=
  ∀ room b, read room (reread rule (toJson a)) = some b ↔
    (Readable (Legible rule) room (toJson a) ∧ fits a) ∧ image a = b

def ReadsBack (rule : Literal → Float) (toJson : α → Json) (read : Reader α) (fits : α → Prop)
    (image : α → α) : Prop :=
  ∀ a, ReadBack rule toJson read fits image a

section

variable {toJson : α → Json} {read : Reader α} {fits : α → Prop} {image : α → α}

theorem mapM_reread (h : ReadsBack rule toJson read fits image) (as bs : List α) :
    ((as.map toJson).map (reread rule)).mapM (read room) = some bs ↔
      (∀ a ∈ as, Readable (Legible rule) room (toJson a) ∧ fits a) ∧ as.map image = bs := by
  induction as generalizing bs with
  | nil => simp [eq_comm]
  | cons a as ih =>
    have hread : ∀ b, read room (reread rule (toJson a)) = some b ↔
        (Readable (Legible rule) room (toJson a) ∧ fits a) ∧ image a = b := h a room
    simp only [List.map_cons, List.mapM_cons, Option.bind_eq_bind, Option.bind_eq_some_iff, hread,
      ih, Option.pure_def, Option.some.injEq, List.forall_mem_cons]
    constructor
    · rintro ⟨b, ⟨ha, rfl⟩, bs, ⟨has, rfl⟩, rfl⟩
      exact ⟨⟨ha, has⟩, rfl⟩
    · rintro ⟨⟨ha, has⟩, rfl⟩
      exact ⟨_, ⟨ha, rfl⟩, _, ⟨has, rfl⟩, rfl⟩

/-- A list is read back if its members are. -/
theorem ReadsBack.list (h : ReadsBack rule toJson read fits image) :
    ReadsBack rule (fun as : List α => .array (as.map toJson)) (Reader.list read)
      (fun as => ∀ a ∈ as, fits a) (List.map image) := by
  intro as room bs
  cases room with
  | zero => simp [Reader.list]
  | succ room =>
    rw [reread_array, Reader.list, mapM_reread h, readable_array_iff,
      List.forall_mem_map]
    simp only [imp_and, forall_and]

end

theorem map_eq_self_iff {as : List α} {image : α → α} :
    as.map image = as ↔ ∀ a ∈ as, image a = a := by
  conv_lhs => rhs; rw [← List.map_id as]
  exact List.map_inj_left

theorem filter_eq_lookup (hn : (members.map Prod.fst).Nodup) (name : String) :
    members.filter (·.1 = name) = ((members.lookup name).map (name, ·)).toList := by
  induction members with
  | nil => rfl
  | cons m members ih =>
    obtain ⟨key, value⟩ := m
    obtain ⟨hkey, hn⟩ := List.nodup_cons.mp hn
    by_cases h : key = name
    · subst h
      have hnone : members.filter (·.1 = key) = [] := by
        rw [List.filter_eq_nil_iff]
        intro m hm he
        exact hkey (List.mem_map.mpr ⟨m, hm, of_decide_eq_true he⟩)
      rw [List.filter_cons_of_pos (by simp), hnone, List.lookup_cons_self]
      rfl
    · have hne : (name == key) = false := beq_eq_false_iff_ne.mpr (Ne.symm h)
      rw [List.filter_cons_of_neg (by simpa using h), ih hn, List.lookup_cons, hne]

/-- The values of named members, where no name is repeated and all are known. -/
theorem byName_eq {closed : Bool} {names : List String} (hn : (members.map Prod.fst).Nodup)
    (hknown : ∀ m ∈ members, m.1 ∈ names) :
    byName closed names members = some (names.map fun name => members.lookup name) := by
  have hopen : ¬ (closed && members.any fun m => !names.contains m.1) := by
    rw [Bool.and_eq_true, List.any_eq_true]
    rintro ⟨-, m, hm, hnot⟩
    simp [hknown m hm] at hnot
  rw [byName, if_neg hopen]
  refine Eq.trans (congrArg (List.mapM · names) (funext fun name => ?_)) List.mapM_pure
  rw [filter_eq_lookup hn]
  cases members.lookup name <;> rfl

theorem lookup_map_reread (name : String) :
    (members.map fun m => (m.1, reread rule m.2)).lookup name =
      (members.lookup name).map (reread rule) := by
  induction members with
  | nil => rfl
  | cons m members ih =>
    rw [List.map_cons, List.lookup_cons, List.lookup_cons, ih]
    cases name == m.1 <;> rfl

/-- A record is built from the values of the members that were written. -/
theorem record_reread {closed : Bool} {names : List String}
    {build : Nat → List (Option Json) → Option α} (hn : (members.map Prod.fst).Nodup)
    (hknown : ∀ m ∈ members, m.1 ∈ names) :
    record closed names build (room + 1) (reread rule (.object members)) =
      build room (names.map fun name => (members.lookup name).map (reread rule)) := by
  have hn' : ((members.map fun m => (m.1, reread rule m.2)).map Prod.fst).Nodup := by
    rwa [List.map_map]
  have hknown' : ∀ m ∈ members.map fun m => (m.1, reread rule m.2), m.1 ∈ names :=
    List.forall_mem_map.mpr hknown
  rw [reread_object, record, byName_eq hn' hknown', Option.bind_some]
  simp only [lookup_map_reread]

@[simp] theorem record_zero {closed : Bool} {names : List String}
    {build : Nat → List (Option Json) → Option α} {j : Json} :
    record closed names build 0 j = none := rfl

@[simp] theorem required_some (read : Reader α) (j : Json) :
    required read room (some j) = read room j := rfl

@[simp] theorem optional_some (read : Reader α) (default : α) (j : Json) :
    optional read default room (some j) = read room j := rfl

@[simp] theorem optional_none (read : Reader α) (default : α) :
    optional read default room none = some default := rfl

variable {toJson : α → Json} {read : Reader α} {fits : α → Prop} {image : α → α} {a b : α}

theorem ReadsBack.compact (h : ReadsBack rule toJson read fits image) :
    (parse? (toJson a).compact rule).bind (Reader.run read) = some b ↔
      (Readable (Legible rule) deepest (toJson a) ∧ fits a) ∧ image a = b := by
  rw [parse?_compact, Option.bind_some]
  exact h a deepest b

theorem ReadsBack.pretty (h : ReadsBack rule toJson read fits image) :
    (parse? (toJson a).pretty rule).bind (Reader.run read) = some b ↔
      (Readable (Legible rule) deepest (toJson a) ∧ fits a) ∧ image a = b := by
  rw [parse?_pretty, Option.bind_some]
  exact h a deepest b

end Reader

/-- The text of a double is taken for the double itself. -/
def Kept (rule : Literal → Float) (x : Float) : Prop :=
  parse? (compact (.real x)) rule = some (.real x)

theorem kept_iff : Kept rule x ↔ isFinite x ∧ again rule x = x := by
  rw [Kept, parse?_compact, Option.some.injEq, reread]
  by_cases hx : isFinite x
  · simp [hx]
  · simp [hx]

theorem Kept.legible (h : Kept rule x) : Legible rule x := by
  obtain ⟨hx, he⟩ := kept_iff.mp h
  exact ⟨hx, he.symm ▸ hx⟩

theorem readable_kept_iff {j : Json} : Readable (Kept rule) room j ↔
    Readable (Legible rule) room j ∧ ∀ x ∈ j.reals, again rule x = x := by
  constructor
  · intro h
    exact ⟨⟨h.depth_le, fun x hx => (h.reals x hx).legible⟩,
      fun x hx => (kept_iff.mp (h.reals x hx)).2⟩
  · rintro ⟨h, hsame⟩
    exact ⟨h.depth_le, fun x hx => kept_iff.mpr ⟨(h.reals x hx).1, hsame x hx⟩⟩

end CircuitForms.Json
