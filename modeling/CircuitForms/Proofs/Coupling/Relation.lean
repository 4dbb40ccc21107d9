import CircuitForms.Coupling.Basic
import CircuitForms.Proofs.Digraph.Walk
import CircuitForms.Proofs.Effect
import CircuitForms.Proofs.Rows

/-! # Couplings as relations

A list of pairs with no index out of range becomes a coupling, whose graph has an arc for each of
the pairs, in the order in which they first stand in the list. All its answers are about one
relation, that of the pairs in the list: which qubits are connected, what the successors of a
qubit are, and how many qubits there have to be.
-/

namespace CircuitForms.Coupling

variable {ps : List (Nat × Nat)} {p : Nat × Nat} {c : Coupling} {g : Digraph Nat Unit}
  {fault : OutOfRange} {a b q n m : Nat}

def InRange (p : Nat × Nat) : Prop :=
  p.1 < limit ∧ p.2 < limit

instance : DecidablePred InRange := fun p =>
  inferInstanceAs (Decidable (p.1 < limit ∧ p.2 < limit))

theorem not_inRange_iff : ¬ InRange p ↔ limit ≤ max p.1 p.2 := by
  unfold InRange
  omega

theorem widen_eq_ok_iff : widen n p = .ok m ↔ InRange p ∧ m = max n (max p.1 p.2 + 1) := by
  simp only [widen]
  split_ifs with h
  · simp [not_inRange_iff.mpr h]
  · simp [not_not.mp (not_inRange_iff.not.mpr h), eq_comm]

theorem widen_eq_error_iff :
    widen n p = .error fault ↔ ¬ InRange p ∧ fault.index = max p.1 p.2 := by
  obtain ⟨i⟩ := fault
  simp only [widen]
  split_ifs with h
  · simp [not_inRange_iff.mpr h, eq_comm]
  · simp [not_not.mp (not_inRange_iff.not.mpr h)]

def width (ps : List (Nat × Nat)) : Nat :=
  (ps.map fun (a, b) => max a b + 1).foldl max 0

def indices (ps : List (Nat × Nat)) : Set Nat :=
  {i | ∃ p ∈ ps, i = p.1 ∨ i = p.2}

theorem width_concat : width (ps ++ [p]) = max (width ps) (max p.1 p.2 + 1) := by
  simp [width]

theorem foldlM_widen_eq_ok_iff :
    ps.foldlM widen 0 = .ok n ↔ (∀ p ∈ ps, InRange p) ∧ n = width ps := by
  induction ps using List.reverseRecOn generalizing n with
  | nil => simp [pure, Except.pure, width, eq_comm]
  | append_singleton ps p ih =>
    simp only [List.foldlM_append, List.foldlM_cons, List.foldlM_nil, bind_pure, bind_eq_ok, ih,
      widen_eq_ok_iff, width_concat]
    constructor
    · rintro ⟨_, ⟨hps, rfl⟩, hp, rfl⟩
      exact ⟨List.forall_mem_append.mpr ⟨hps, List.forall_mem_singleton.mpr hp⟩, rfl⟩
    · rintro ⟨hall, rfl⟩
      exact ⟨_, ⟨fun p hp => hall p (by simp [hp]), rfl⟩, hall p (by simp), rfl⟩

/-- The first pair out of range is at fault, by its greater index. -/
theorem foldlM_widen_eq_error_iff : ps.foldlM widen 0 = .error fault ↔
    ∃ pre p post, ps = pre ++ p :: post ∧ (∀ r ∈ pre, InRange r) ∧ ¬ InRange p ∧
      fault.index = max p.1 p.2 := by
  induction ps using List.reverseRecOn with
  | nil => simp [pure, Except.pure]
  | append_singleton ps p ih =>
    simp only [List.foldlM_append, List.foldlM_cons, List.foldlM_nil, bind_pure, bind_eq_error, ih,
      widen_eq_error_iff, foldlM_widen_eq_ok_iff]
    rw [exists_split_concat_iff]
    simp

theorem width_le_iff : width ps ≤ n ↔ ∀ i ∈ indices ps, i < n := by
  induction ps using List.reverseRecOn with
  | nil => simp [width, indices]
  | append_singleton ps p ih =>
    rw [width_concat, max_le_iff, ih, Nat.succ_le_iff, max_lt_iff]
    constructor
    · rintro ⟨hps, ha, hb⟩ i ⟨r, hr, hi⟩
      rcases List.mem_append.mp hr with hr | hr
      · exact hps i ⟨r, hr, hi⟩
      · obtain rfl := List.mem_singleton.mp hr
        rcases hi with rfl | rfl
        · exact ha
        · exact hb
    · intro h
      refine ⟨fun i hi => ?_, h _ ⟨p, by simp, .inl rfl⟩, h _ ⟨p, by simp, .inr rfl⟩⟩
      obtain ⟨r, hr, hi⟩ := hi
      exact h i ⟨r, List.mem_append_left _ hr, hi⟩

theorem lt_width {i : Nat} (hi : i ∈ indices ps) : i < width ps :=
  width_le_iff.mp le_rfl i hi

/-- There is one qubit more than the greatest index. -/
theorem exists_isGreatest_indices (h : ps ≠ []) :
    ∃ n, width ps = n + 1 ∧ IsGreatest (indices ps) n := by
  obtain ⟨p, hp⟩ := List.exists_mem_of_ne_nil ps h
  have hpos : 0 < width ps := (Nat.zero_le p.1).trans_lt (lt_width ⟨p, hp, .inl rfl⟩)
  obtain ⟨n, hn⟩ := Nat.exists_eq_succ_of_ne_zero hpos.ne'
  have hle : ∀ i ∈ indices ps, i ≤ n := fun i hi => Nat.le_of_lt_succ (hn ▸ lt_width hi)
  refine ⟨n, hn, ?_, hle⟩
  by_contra hmem
  have hlt : ∀ i ∈ indices ps, i < n := fun i hi =>
    lt_of_le_of_ne (hle i hi) fun he => hmem (he ▸ hi)
  have := width_le_iff.mpr hlt
  omega

theorem indices_eraseDups (ps : List (Nat × Nat)) : indices ps.eraseDups = indices ps := by
  simp [indices]

theorem width_eraseDups (ps : List (Nat × Nat)) : width ps.eraseDups = width ps := by
  refine le_antisymm (width_le_iff.mpr fun i hi => ?_) (width_le_iff.mpr fun i hi => ?_)
  · exact lt_width (indices_eraseDups ps ▸ hi)
  · exact lt_width ((indices_eraseDups ps).symm ▸ hi)

theorem size_unpaired (n : Nat) : (unpaired n).size = n := by
  induction n with
  | zero => rfl
  | succ n ih => simpa [unpaired, List.range_succ, Digraph.addNode, Digraph.size] using ih

theorem ends_unpaired (n : Nat) : (unpaired n).ends = [] := by
  induction n with
  | zero => rfl
  | succ n ih => simpa [unpaired, List.range_succ, Digraph.addNode, Digraph.ends] using ih

theorem hasArc_iff_mem_ends : g.hasArc p.1 p.2 ↔ p ∈ g.ends :=
  Digraph.hasArc_iff.trans Digraph.mem_ends.symm

theorem addPair_of_mem (h : p ∈ g.ends) : addPair g p = g :=
  if_pos (hasArc_iff_mem_ends.mpr h)

theorem addPair_of_notMem (h : p ∉ g.ends) : addPair g p = g.addArc p.1 p.2 () :=
  if_neg (hasArc_iff_mem_ends.not.mpr h)

theorem size_addPair (g : Digraph Nat Unit) (p : Nat × Nat) : (addPair g p).size = g.size := by
  unfold addPair
  split_ifs <;> rfl

theorem ends_addPair : (addPair g p).ends = if p ∈ g.ends then g.ends else g.ends ++ [p] := by
  split_ifs with h
  · rw [addPair_of_mem h]
  · rw [addPair_of_notMem h]
    simp [Digraph.ends, Arc.ends, Digraph.addArc]

theorem size_foldl_addPair (ps : List (Nat × Nat)) (g : Digraph Nat Unit) :
    (ps.foldl addPair g).size = g.size := by
  induction ps generalizing g with
  | nil => rfl
  | cons p ps ih => rw [List.foldl_cons, ih, size_addPair]

theorem ends_foldl_addPair (hg : g.ends = []) : (ps.foldl addPair g).ends = ps.eraseDups := by
  induction ps using List.reverseRecOn with
  | nil => simpa using hg
  | append_singleton ps p ih => simp [ends_addPair, ih, eraseDups_concat]

theorem foldl_addPair_eraseDups (hg : g.ends = []) :
    ps.eraseDups.foldl addPair g = ps.foldl addPair g := by
  induction ps using List.reverseRecOn with
  | nil => simp
  | append_singleton ps p ih =>
    rw [eraseDups_concat, List.foldl_append, List.foldl_cons, List.foldl_nil]
    split_ifs with hp
    · have hmem : p ∈ (ps.foldl addPair g).ends := by simpa [ends_foldl_addPair hg] using hp
      rw [ih, addPair_of_mem hmem]
    · rw [List.foldl_append, List.foldl_cons, List.foldl_nil, ih]

theorem insertAscending_eq (n : Nat) (ns : List Nat) :
    insertAscending n ns = ns.orderedInsert (· ≤ ·) n := by
  induction ns with
  | nil => rfl
  | cons m ns ih => simp [insertAscending, ih]

theorem ascending_eq (ns : List Nat) : ascending ns = ns.insertionSort (· ≤ ·) := by
  unfold ascending
  induction ns with
  | nil => rfl
  | cons n ns ih => simp [ih, insertAscending_eq]

theorem ascending_perm (ns : List Nat) : (ascending ns).Perm ns := by
  rw [ascending_eq]
  exact List.perm_insertionSort _ ns

theorem ascending_pairwise {ns : List Nat} (h : ns.Nodup) : (ascending ns).Pairwise (· < ·) := by
  have hle : (ascending ns).Pairwise (· ≤ ·) := by
    rw [ascending_eq]
    exact List.pairwise_insertionSort _ ns
  have hne : (ascending ns).Nodup := (ascending_perm ns).nodup_iff.mpr h
  exact hle.and hne |>.imp fun h => lt_of_le_of_ne h.1 h.2

theorem ofPairs_eq_error_iff : ofPairs ps = .error fault ↔
    ∃ pre p post, ps = pre ++ p :: post ∧ (∀ r ∈ pre, InRange r) ∧ ¬ InRange p ∧
      fault.index = max p.1 p.2 := by
  rw [← foldlM_widen_eq_error_iff, ofPairs, bind_eq_error]
  simp [pure, Except.pure]

theorem ofPairs_eq_ok_iff : ofPairs ps = .ok c ↔
    (∀ p ∈ ps, InRange p) ∧ c = ⟨ps.foldl addPair (unpaired (width ps))⟩ := by
  simp only [ofPairs, bind_eq_ok, foldlM_widen_eq_ok_iff, pure, Except.pure, Except.ok.injEq]
  constructor
  · rintro ⟨_, ⟨hps, rfl⟩, rfl⟩
    exact ⟨hps, rfl⟩
  · rintro ⟨hps, rfl⟩
    exact ⟨_, ⟨hps, rfl⟩, rfl⟩

theorem isConnected_iff :
    c.isConnected a b ↔ a < c.qubitCount ∧ b < c.qubitCount ∧ (a, b) ∈ c.pairs := by
  have harc : c.graph.hasArc a b ↔ (a, b) ∈ c.pairs := hasArc_iff_mem_ends (p := (a, b))
  simp [isConnected, harc, and_assoc]

theorem mem_successors_iff : b ∈ c.successors q ↔ q < c.qubitCount ∧ (q, b) ∈ c.pairs := by
  unfold successors
  split_ifs with hq
  · simp [hq]
  · rw [(ascending_perm _).mem_iff, (Digraph.neighbors_perm _ _).mem_iff]
    simp [pairs, Nat.not_le.mp hq]

theorem successors_pairwise (h : c.pairs.Nodup) : (c.successors q).Pairwise (· < ·) := by
  unfold successors
  split_ifs
  · exact .nil
  · refine ascending_pairwise ((Digraph.neighbors_perm _ _).nodup_iff.mpr ?_)
    refine List.Nodup.map_on ?_ (h.filter _)
    -- among the pairs of one control, the target tells which pair it is
    rintro ⟨a, b⟩ hp ⟨a', b'⟩ hp' rfl
    simp only [List.mem_filter, beq_iff_eq] at hp hp'
    rw [hp.2, hp'.2]

/-- What the coupling of some pairs answers. -/
structure Couples (ps : List (Nat × Nat)) (c : Coupling) : Prop where
  /-- A pair that repeats an earlier one is left out, and the others are in order. -/
  pairs_eq : c.pairs = ps.eraseDups
  qubitCount_of_nil : ps = [] → c.qubitCount = 0
  qubitCount_of_ne_nil : ps ≠ [] → ∃ n, c.qubitCount = n + 1 ∧ IsGreatest (indices ps) n
  isConnected_iff : ∀ a b, c.isConnected a b ↔ (a, b) ∈ ps
  successors_ascending : ∀ q, (c.successors q).Pairwise (· < ·)
  mem_successors_iff : ∀ q b, b ∈ c.successors q ↔ (q, b) ∈ ps
  rebuilt : ofPairs c.pairs = .ok c

theorem couples_of_ofPairs (h : ofPairs ps = .ok c) : Couples ps c := by
  obtain ⟨hrange, hc⟩ := ofPairs_eq_ok_iff.mp h
  have hpairs : c.pairs = ps.eraseDups := by
    rw [hc]
    exact ends_foldl_addPair (ends_unpaired _)
  have hcount : c.qubitCount = width ps := by
    rw [hc]
    exact (size_foldl_addPair _ _).trans (size_unpaired _)
  constructor
  case pairs_eq => exact hpairs
  case qubitCount_of_nil =>
    rintro rfl
    exact hcount
  case qubitCount_of_ne_nil =>
    rw [hcount]
    exact exists_isGreatest_indices
  case isConnected_iff =>
    intro a b
    have hlt : (a, b) ∈ ps → a < width ps ∧ b < width ps := fun h =>
      ⟨lt_width ⟨_, h, .inl rfl⟩, lt_width ⟨_, h, .inr rfl⟩⟩
    rw [isConnected_iff, hcount, hpairs, List.mem_eraseDups]
    exact ⟨fun h => h.2.2, fun h => ⟨(hlt h).1, (hlt h).2, h⟩⟩
  case successors_ascending => exact fun q => successors_pairwise (hpairs ▸ nodup_eraseDups ps)
  case mem_successors_iff =>
    intro q b
    rw [mem_successors_iff, hcount, hpairs, List.mem_eraseDups]
    exact ⟨fun h => h.2, fun h => ⟨lt_width ⟨_, h, .inl rfl⟩, h⟩⟩
  -- A pair added once more changes nothing, so the distinct pairs are enough.
  case rebuilt =>
    rw [hpairs]
    refine ofPairs_eq_ok_iff.mpr ⟨by simpa using hrange, ?_⟩
    rw [hc, width_eraseDups, foldl_addPair_eraseDups (ends_unpaired _)]

/-- Whatever the pairs, they are refused for the first of them that is out of range, by its greater
index, or they are a coupling all of whose answers are about which pairs they are. -/
theorem couples_or_outOfRange (ps : List (Nat × Nat)) :
    ((∃ fault, ofPairs ps = .error fault) ↔ ∃ i ∈ indices ps, limit ≤ i) ∧
    (∀ fault, ofPairs ps = .error fault ↔ ∃ pre p post, ps = pre ++ p :: post ∧
      (∀ r ∈ pre, InRange r) ∧ ¬ InRange p ∧ fault.index = max p.1 p.2) ∧
    ∀ c, ofPairs ps = .ok c → Couples ps c := by
  refine ⟨?_, fun fault => ofPairs_eq_error_iff, fun c hc => couples_of_ofPairs hc⟩
  have hfault : (∃ fault, ofPairs ps = .error fault) ↔ ¬ ∀ p ∈ ps, InRange p := by
    cases h : ofPairs ps with
    | error fault =>
      obtain ⟨pre, p, post, rfl, -, hp, -⟩ := ofPairs_eq_error_iff.mp h
      exact iff_of_true ⟨fault, rfl⟩ fun hall => hp (hall p (by simp))
    | ok c => simpa using (ofPairs_eq_ok_iff.mp h).1
  rw [hfault]
  constructor
  · intro h
    simp only [not_forall, not_inRange_iff, le_max_iff] at h
    obtain ⟨p, hp, ha | hb⟩ := h
    · exact ⟨p.1, ⟨p, hp, .inl rfl⟩, ha⟩
    · exact ⟨p.2, ⟨p, hp, .inr rfl⟩, hb⟩
  · rintro ⟨i, ⟨p, hp, rfl | rfl⟩, hi⟩ h
    · exact (h p hp).1.not_ge hi
    · exact (h p hp).2.not_ge hi

/-- Pairs with a repetition, a pair the other way round and one of a qubit with itself. -/
def looped : List (Nat × Nat) :=
  [(3, 1), (0, 1), (3, 1), (1, 1), (1, 3)]

theorem couples_or_outOfRange_looped :
    (∃ c, ofPairs looped = .ok c ∧ Couples looped c ∧ c.qubitCount = 4 ∧
      c.pairs = [(3, 1), (0, 1), (1, 1), (1, 3)] ∧ c.successors 1 = [1, 3]) ∧
    ofPairs (looped ++ [(1, limit), (limit + 1, 0)]) = .error ⟨limit⟩ := by
  constructor
  · obtain ⟨c, hc⟩ : ∃ c, ofPairs looped = .ok c := ⟨_, rfl⟩
    exact ⟨c, hc, (couples_or_outOfRange looped).2.2 c hc, by cases hc; decide⟩
  · refine ((couples_or_outOfRange _).2.1 _).mpr ⟨looped, (1, limit), [(limit + 1, 0)], rfl, ?_⟩
    exact ⟨by decide, by decide, by decide⟩

end CircuitForms.Coupling
