import CircuitForms.Catalog.Standard
import CircuitForms.Proofs.Effect
import CircuitForms.Proofs.Rows

/-! # Looking up in catalogs

A table is a catalog unless an entry has the name or the kind of one before it. Its index then has
each name and each kind at the one place where it stands, so names and kinds are paired one with
one: what is found for a name is the entry of the table that has it, what is found for a kind
likewise, and a name is translated to a kind exactly if the kind is translated to this name.
-/

namespace CircuitForms.Catalog

variable {es : List Entry} {e : Entry} {c : Catalog} {r : Repetition} {ix : Index}

/-- An entry that has neither its name nor its kind from one before it. -/
def IsNew (before : List Entry) (e : Entry) : Prop :=
  e.name ∉ before.map Entry.name ∧ e.kind ∉ before.map Entry.kind

/-- What an entry has from one before it: its name, or with a new name its kind. -/
@[mk_iff]
inductive Repeats (before : List Entry) (e : Entry) : Repetition → Prop
  | name (h : e.name ∈ before.map Entry.name) : Repeats before e (.name e.name)
  | kind (hname : e.name ∉ before.map Entry.name) (h : e.kind ∈ before.map Entry.kind) :
    Repeats before e (.kind e.kind)

/-- A table in which no name and no kind occurs twice. -/
structure OneToOne (es : List Entry) : Prop where
  names : (es.map Entry.name).Nodup
  kinds : (es.map Entry.kind).Nodup

theorem oneToOne_concat_iff : OneToOne (es ++ [e]) ↔ OneToOne es ∧ IsNew es e := by
  have hconcat : ∀ {β : Type} (f : Entry → β),
      ((es ++ [e]).map f).Nodup ↔ (es.map f).Nodup ∧ f e ∉ es.map f := by
    intro β f
    rw [List.map_append, List.map_singleton, ← List.concat_eq_append, List.nodup_concat, and_comm]
  constructor
  · rintro ⟨hname, hkind⟩
    rw [hconcat] at hname hkind
    exact ⟨⟨hname.1, hkind.1⟩, hname.2, hkind.2⟩
  · rintro ⟨⟨hname, hkind⟩, hnew⟩
    exact ⟨(hconcat _).mpr ⟨hname, hnew.1⟩, (hconcat _).mpr ⟨hkind, hnew.2⟩⟩

section Places

variable {κ : Type} {key : Entry → κ} {k : κ} {i : Nat}

theorem places_concat (key : Entry → κ) (es : List Entry) (e : Entry) :
    places key (es ++ [e]) = (key e, es.length) :: places key es := by
  simp [places, List.zipIdx_append]

theorem mem_places_iff : (k, i) ∈ places key es ↔ ∃ e, es[i]? = some e ∧ key e = k := by
  simp [places, List.mk_mem_zipIdx_iff_getElem?]

variable [BEq κ] [LawfulBEq κ]

theorem lookup_places_isSome_iff : ((places key es).lookup k).isSome ↔ k ∈ es.map key := by
  induction es using List.reverseRecOn with
  | nil => simp [places]
  | append_singleton es e ih =>
    rw [places_concat, List.lookup_cons]
    by_cases hk : k = key e
    · simp [hk]
    · simpa [hk, beq_eq_false_iff_ne.mpr hk] using ih

theorem exists_of_lookup_places (h : (places key es).lookup k = some i) :
    ∃ e, es[i]? = some e ∧ key e = k := by
  obtain ⟨before, after, hsplit, -⟩ := List.lookup_eq_some_iff.mp h
  exact mem_places_iff.mp (hsplit ▸ List.mem_append_right before List.mem_cons_self)

/-- Where no key is repeated, what stands at the place found for a key is the entry that has it. -/
theorem bind_lookup_places_eq_some_iff (hn : (es.map key).Nodup) :
    ((places key es).lookup k).bind (es[·]?) = some e ↔ e ∈ es ∧ key e = k := by
  rw [Option.bind_eq_some_iff]
  constructor
  · rintro ⟨i, hi, he⟩
    obtain ⟨e', he', hk⟩ := exists_of_lookup_places hi
    obtain rfl : e = e' := Option.some.inj (he.symm.trans he')
    exact ⟨List.mem_of_getElem? he, hk⟩
  · rintro ⟨he, hk⟩
    have hmem : k ∈ es.map key := List.mem_map.mpr ⟨e, he, hk⟩
    obtain ⟨i, hi⟩ := Option.isSome_iff_exists.mp (lookup_places_isSome_iff.mpr hmem)
    obtain ⟨e', he', hk'⟩ := exists_of_lookup_places hi
    have hsame : e' = e :=
      List.inj_on_of_nodup_map hn (List.mem_of_getElem? he') he (hk'.trans hk.symm)
    exact ⟨i, hi, hsame ▸ he'⟩

end Places

theorem add_ofTable_eq_ok_iff : (Index.ofTable es).add e es.length = .ok ix ↔
    IsNew es e ∧ ix = .ofTable (es ++ [e]) := by
  simp only [Index.add, Index.ofTable, lookup_places_isSome_iff, IsNew, places_concat]
  split_ifs with hname hkind
  · simp [hname]
  · simp [hkind]
  · simp [hname, hkind, eq_comm]

theorem add_ofTable_eq_error_iff : (Index.ofTable es).add e es.length = .error r ↔
    Repeats es e r := by
  simp only [Index.add, Index.ofTable, lookup_places_isSome_iff, repeats_iff]
  split_ifs with hname hkind
  · simp [hname, eq_comm]
  · simp [hname, hkind, eq_comm]
  · simp [hname, hkind]

theorem fill_concat :
    Index.fill (es ++ [e]) = Index.fill es >>= fun ix => ix.add e es.length := by
  simp [Index.fill, List.zipIdx_append]

theorem fill_eq_ok_iff : Index.fill es = .ok ix ↔ OneToOne es ∧ ix = .ofTable es := by
  induction es using List.reverseRecOn generalizing ix with
  | nil =>
    have hnil : OneToOne [] := ⟨List.nodup_nil, List.nodup_nil⟩
    simp [hnil, Index.fill, Index.ofTable, places, pure, Except.pure, eq_comm]
  | append_singleton es e ih =>
    simp only [fill_concat, bind_eq_ok, ih, oneToOne_concat_iff]
    constructor
    · rintro ⟨_, ⟨hes, rfl⟩, he⟩
      obtain ⟨hnew, rfl⟩ := add_ofTable_eq_ok_iff.mp he
      exact ⟨⟨hes, hnew⟩, rfl⟩
    · rintro ⟨⟨hes, hnew⟩, rfl⟩
      exact ⟨_, ⟨hes, rfl⟩, add_ofTable_eq_ok_iff.mpr ⟨hnew, rfl⟩⟩

theorem fill_eq_error_iff : Index.fill es = .error r ↔
    ∃ pre e post, es = pre ++ e :: post ∧ OneToOne pre ∧ Repeats pre e r := by
  induction es using List.reverseRecOn with
  | nil => simp [Index.fill, pure, Except.pure]
  | append_singleton es e ih =>
    simp only [fill_concat, bind_eq_error, ih, exists_split_concat_iff, fill_eq_ok_iff]
    constructor
    · rintro (h | ⟨_, ⟨hes, rfl⟩, he⟩)
      · exact .inl h
      · exact .inr ⟨hes, add_ofTable_eq_error_iff.mp he⟩
    · rintro (h | ⟨hes, he⟩)
      · exact .inl h
      · exact .inr ⟨_, ⟨hes, rfl⟩, add_ofTable_eq_error_iff.mpr he⟩

theorem oneToOne_entries (c : Catalog) : OneToOne c.entries :=
  (fill_eq_ok_iff.mp c.indexed).1

theorem index_eq (c : Catalog) : c.index = .ofTable c.entries :=
  (fill_eq_ok_iff.mp c.indexed).2

/-- A catalog is what its own table gives. -/
theorem ofEntries_eq_ok_iff : ofEntries es = .ok c ↔ c.entries = es := by
  unfold ofEntries
  constructor
  · intro h
    split at h
    · cases h
    · cases h
      rfl
  · rintro rfl
    split
    case h_1 r hr => exact absurd (hr.symm.trans c.indexed) nofun
    case h_2 ix hix =>
      obtain rfl : ix = c.index := Except.ok.inj (hix.symm.trans c.indexed)
      rfl

theorem exists_ofEntries_iff : (∃ c, ofEntries es = .ok c) ↔ OneToOne es := by
  constructor
  · rintro ⟨c, hc⟩
    exact ofEntries_eq_ok_iff.mp hc ▸ c.oneToOne_entries
  · intro h
    exact ⟨⟨es, .ofTable es, fill_eq_ok_iff.mpr ⟨h, rfl⟩⟩, ofEntries_eq_ok_iff.mpr rfl⟩

theorem ofEntries_eq_error_iff : ofEntries es = .error r ↔
    ∃ pre e post, es = pre ++ e :: post ∧ OneToOne pre ∧ Repeats pre e r := by
  rw [← fill_eq_error_iff, ofEntries]
  split
  case h_1 r' h => simp [h]
  case h_2 ix h => simp [h]

theorem byName?_eq_some_iff {name : String} :
    c.byName? name = some e ↔ e ∈ c.entries ∧ e.name = name := by
  have hlookup : c.byName? name =
      ((places Entry.name c.entries).lookup name).bind (c.entries[·]?) := by
    rw [byName?, index_eq]
    rfl
  rw [hlookup, bind_lookup_places_eq_some_iff c.oneToOne_entries.names]

theorem byKind?_eq_some_iff {kind : Kind} :
    c.byKind? kind = some e ↔ e ∈ c.entries ∧ e.kind = kind := by
  have hlookup : c.byKind? kind =
      ((places Entry.kind c.entries).lookup kind).bind (c.entries[·]?) := by
    rw [byKind?, index_eq]
    rfl
  rw [hlookup, bind_lookup_places_eq_some_iff c.oneToOne_entries.kinds]

theorem map_kind_eq_some_iff {name : String} {kind : Kind} :
    (c.byName? name).map Entry.kind = some kind ↔ (c.byKind? kind).map Entry.name = some name := by
  simp only [Option.map_eq_some_iff, byName?_eq_some_iff, byKind?_eq_some_iff]
  constructor
  · rintro ⟨e, ⟨he, rfl⟩, rfl⟩
    exact ⟨e, ⟨he, rfl⟩, rfl⟩
  · rintro ⟨e, ⟨he, rfl⟩, rfl⟩
    exact ⟨e, ⟨he, rfl⟩, rfl⟩

/-- What the catalog of a table answers. -/
structure Translates (es : List Entry) (c : Catalog) : Prop where
  entries_eq : c.entries = es
  byName?_iff : ∀ name e, c.byName? name = some e ↔ e ∈ es ∧ e.name = name
  byKind?_iff : ∀ kind e, c.byKind? kind = some e ↔ e ∈ es ∧ e.kind = kind
  byName?_none_iff : ∀ name, c.byName? name = none ↔ ∀ e ∈ es, e.name ≠ name
  byKind?_none_iff : ∀ kind, c.byKind? kind = none ↔ ∀ e ∈ es, e.kind ≠ kind
  /-- A name stands for a kind exactly if the kind is called by this name. -/
  inverse : ∀ name kind,
    (c.byName? name).map Entry.kind = some kind ↔ (c.byKind? kind).map Entry.name = some name

/-- Whatever the entries of a table, it is a catalog that pairs their names with their kinds, or
it is refused for the first entry that is not new. -/
theorem translates_or_repeats (es : List Entry) :
    ((∃ c, ofEntries es = .ok c) ↔ (es.map Entry.name).Nodup ∧ (es.map Entry.kind).Nodup) ∧
    (∀ c, ofEntries es = .ok c → Translates es c) ∧
    ∀ r, ofEntries es = .error r ↔
      ∃ pre e post, es = pre ++ e :: post ∧ OneToOne pre ∧ Repeats pre e r := by
  refine ⟨?_, ?_, fun r => ofEntries_eq_error_iff⟩
  · rw [exists_ofEntries_iff]
    exact ⟨fun h => ⟨h.names, h.kinds⟩, fun h => ⟨h.1, h.2⟩⟩
  · intro c hc
    obtain rfl := ofEntries_eq_ok_iff.mp hc
    constructor
    case entries_eq => rfl
    case byName?_iff => exact fun name e => byName?_eq_some_iff
    case byKind?_iff => exact fun kind e => byKind?_eq_some_iff
    case byName?_none_iff =>
      intro name
      simp only [Option.eq_none_iff_forall_ne_some, Ne, byName?_eq_some_iff, not_and]
    case byKind?_none_iff =>
      intro kind
      simp only [Option.eq_none_iff_forall_ne_some, Ne, byKind?_eq_some_iff, not_and]
    case inverse => exact fun name kind => map_kind_eq_some_iff

/-- Two names for one kind, before one of them is used again. -/
def ambiguous : List Entry :=
  [⟨"x", .x, .fixed 1, 0⟩, ⟨"not", .x, .fixed 1, 0⟩, ⟨"x", .y, .fixed 1, 0⟩]

theorem translates_or_repeats_standard : ofEntries standard.entries = .ok standard ∧
    Translates standard.entries standard ∧ ofEntries ambiguous = .error (.kind .x) := by
  refine ⟨ofEntries_standard, ?_, ?_⟩
  · exact (translates_or_repeats standard.entries).2.1 standard ofEntries_standard
  · refine ((translates_or_repeats ambiguous).2.2 (.kind .x)).mpr
      ⟨[⟨"x", .x, .fixed 1, 0⟩], ⟨"not", .x, .fixed 1, 0⟩, _, rfl, ?_, ?_⟩
    · exact ⟨by decide, by decide⟩
    · exact .kind (by decide) (by decide)

end CircuitForms.Catalog
