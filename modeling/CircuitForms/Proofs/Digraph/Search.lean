import CircuitForms.Proofs.Digraph.Walk

/-! # Searches with a stack

A depth-first search that keeps a stack meets a node twice: when it is discovered the
targets of its arcs go on the stack, newest arc first, and when it comes up again it is
finished. Such a search finishes the nodes in the order in which a walk leaves them,
and the order is a topological one if no arc leads back in it.
-/

namespace CircuitForms.Digraph

variable {α β : Type} {g : Digraph α β} {v n : Nat} {w w' : Walk} {rest discovered : List Nat}

structure Search where
  discovered : List Nat := []
  /-- The nodes finished, the last one first. -/
  finished : List Nat := []
  /-- The nodes that are still to come up, the next one first. -/
  stack : List Nat := []
  deriving DecidableEq, Repr

/-- A stack after the targets of some arcs were put on it, less those discovered already. -/
def pushTargets (discovered stack : List Nat) (arcs : List (Arc β)) : List Nat :=
  arcs.foldl (fun stack a => if a.target ∈ discovered then stack else a.target :: stack) stack

def searchStep? (g : Digraph α β) : Search → Option Search
  | ⟨_, _, []⟩ => none
  | ⟨discovered, finished, v :: rest⟩ =>
    if v ∈ discovered then
      some ⟨discovered, if v ∈ finished then finished else v :: finished, rest⟩
    else
      some ⟨v :: discovered, finished,
        pushTargets (v :: discovered) (v :: rest) (g.outgoing v).reverse⟩

def Searches (g : Digraph α β) : Search → Search → Prop :=
  Relation.ReflTransGen fun s s' => g.searchStep? s = some s'

/-- Searches from one node after the other, each until its stack is empty. Nodes discovered already
are passed over. -/
inductive Sweeps (g : Digraph α β) : List Nat → Search → Search → Prop
  | nil (s : Search) : Sweeps g [] s s
  | skip {v : Nat} {vs : List Nat} {s s' : Search} (hv : v ∈ s.discovered)
    (h : Sweeps g vs s s') : Sweeps g (v :: vs) s s'
  | start {v : Nat} {vs : List Nat} {s s₁ s' : Search} (hv : v ∉ s.discovered)
    (hs : g.Searches { s with stack := [v] } s₁) (he : s₁.stack = []) (h : Sweeps g vs s₁ s') :
    Sweeps g (v :: vs) s s'

/-- A row of nodes is what a sweep over the graph finishes, no arc leads from a node to itself, and
looked at one by one no node has an arc from one that was not looked at. -/
structure Sorts (g : Digraph α β) (order : List Nat) : Prop where
  swept : ∃ discovered, g.Sweeps (List.range g.size) {} ⟨discovered, order, []⟩
  loopless : ∀ v, ¬ g.Steps v v
  checked : ∀ pre v post, order = pre ++ v :: post → ∀ u, g.Steps u v → u ∈ pre ∨ u = v

theorem pushTargets_reverse (discovered stack : List Nat) (arcs : List (Arc β)) :
    pushTargets discovered stack arcs.reverse =
      (arcs.filter (·.target ∉ discovered)).map Arc.target ++ stack := by
  rw [pushTargets, List.foldl_reverse]
  induction arcs with
  | nil => rfl
  | cons a arcs ih =>
    rw [List.foldr_cons, ih, List.filter_cons]
    by_cases ha : a.target ∈ discovered <;> simp [ha]

def Walk.search (w : Walk) (stack : List Nat) : Search :=
  ⟨w.entered, w.left, stack⟩

theorem walkFrom_of_mem (hv : v ∈ w.entered) : g.walkFrom n v w = w := by
  cases n with
  | zero => rfl
  | succ n => exact if_pos (List.contains_iff_mem.mpr hv)

theorem searches_of_left (hv : v ∈ w.entered) (hl : v ∈ w.left) :
    g.Searches (w.search (v :: rest)) (w.search rest) := by
  refine .single ((if_pos hv).trans ?_)
  rw [if_pos hl]
  rfl

theorem searches_of_notMem (hv : v ∉ w.entered) :
    g.Searches (w.search (v :: rest)) (Walk.search { w with entered := v :: w.entered }
      (((g.outgoing v).filter (·.target ∉ v :: w.entered)).map Arc.target ++ v :: rest)) := by
  refine .single ((if_neg hv).trans ?_)
  rw [pushTargets_reverse]
  rfl

theorem searches_of_notMem_left (hv : v ∈ w.entered) (hl : v ∉ w.left) :
    g.Searches (w.search (v :: rest)) (Walk.search { w with left := v :: w.left } rest) := by
  refine .single ((if_pos hv).trans ?_)
  rw [if_neg hl]
  rfl

/-- Of the nodes entered those that are not left were discovered when the stack was last put on. -/
structure Walk.Resumes (discovered : List Nat) (w : Walk) : Prop where
  entered : ∀ u ∈ discovered, u ∈ w.entered
  left : ∀ u ∈ w.left, u ∈ w.entered
  closed : ∀ u ∈ w.entered, u ∉ discovered → u ∈ w.left

theorem Walk.Resumes.adds {new : List Nat} (h : w.Resumes discovered) (ha : g.Adds v w new w') :
    w'.Resumes discovered where
  entered u hu := ha.mem_entered (h.entered u hu)
  left u hu := by
    rw [ha.left, List.mem_append] at hu
    exact ha.entered.mem_iff.mpr (List.mem_append.mpr (hu.imp_right (h.left u)))
  closed u hu hd := by
    by_contra hl
    obtain ⟨hu, hl⟩ := ha.open_of_open hu hl
    exact hl (h.closed u hu hd)

theorem searches_foldl {l : List (Arc β)}
    (hwalk : ∀ a ∈ l, ∀ (w : Walk) (rest : List Nat), w.Resumes discovered →
      a.target ∉ discovered →
      g.Searches (w.search (a.target :: rest)) ((g.walkFrom n a.target w).search rest))
    (hw : w.Resumes discovered) :
    g.Searches (w.search ((l.filter (·.target ∉ discovered)).map Arc.target ++ rest))
      ((l.foldl (fun w a => g.walkFrom n a.target w) w).search rest) := by
  induction l generalizing w with
  | nil => exact .refl
  | cons a l ih =>
    have hrest := fun b hb => hwalk b (List.mem_cons_of_mem a hb)
    rw [List.foldl_cons, List.filter_cons]
    by_cases ha : a.target ∈ discovered
    · rw [walkFrom_of_mem (hw.entered _ ha), if_neg (by simpa using ha)]
      exact ih hrest hw
    · rw [if_pos (by simpa using ha), List.map_cons, List.cons_append]
      obtain ⟨new, hadds⟩ := g.exists_adds n a.target w
      exact (hwalk a List.mem_cons_self w _ hw ha).trans (ih hrest (hw.adds hadds))

section Bounded

variable (hb : ∀ a ∈ g.arcs.toList, a.target < g.size)

include hb

/-- A search finishes what a walk leaves, in the same order. -/
theorem searches_walkFrom (hv : v < g.size) (hdeep : (g.unentered w).card ≤ n)
    (hsub : ∀ u ∈ w.left, u ∈ w.entered) (hleft : v ∈ w.entered → v ∈ w.left) :
    g.Searches (w.search (v :: rest)) ((g.walkFrom n v w).search rest) := by
  induction n generalizing v w rest with
  | zero =>
    have hall := Finset.sdiff_eq_empty_iff_subset.mp
      (Finset.card_eq_zero.mp (Nat.le_zero.mp hdeep))
    have hin : v ∈ w.entered := List.mem_toFinset.mp (hall (Finset.mem_range.mpr hv))
    exact searches_of_left hin (hleft hin)
  | succ n ih =>
    by_cases hin : v ∈ w.entered
    · rw [walkFrom_of_mem hin]
      exact searches_of_left hin (hleft hin)
    · let w₁ : Walk := { w with entered := v :: w.entered }
      have hresumes : w₁.Resumes w₁.entered :=
        ⟨fun _ => id, fun u hu => List.mem_cons_of_mem v (hsub u hu), fun u hu hd => absurd hu hd⟩
      have hwalk : ∀ a ∈ g.outgoing v, ∀ (w' : Walk) (rest : List Nat), w'.Resumes w₁.entered →
          a.target ∉ w₁.entered →
          g.Searches (w'.search (a.target :: rest)) ((g.walkFrom n a.target w').search rest) := by
        intro a ha w' rest hw' hnew
        have hdeep' := (card_unentered_le hw'.entered).trans (card_unentered_enter hv hin hdeep)
        exact ih (hb a (mem_outgoing.mp ha).1) hdeep' hw'.left fun hm => hw'.closed _ hm hnew
      -- What the walk inside adds is new, so `v` is still open when it comes up again.
      obtain ⟨new, hadds⟩ := exists_adds_foldl (g.exists_adds n)
        (fun a (ha : a ∈ g.outgoing v) => steps_of_mem_outgoing ha) w₁
      have hopen : v ∉ ((g.outgoing v).foldl (fun w a => g.walkFrom n a.target w) w₁).left := by
        rw [hadds.left, List.mem_append, not_or]
        exact ⟨fun hm => hadds.fresh v hm List.mem_cons_self, fun hm => hin (hsub v hm)⟩
      rw [walkFrom, if_neg (by simpa using hin)]
      exact ((searches_of_notMem hin).trans (searches_foldl hwalk hresumes)).trans
        (searches_of_notMem_left (hadds.mem_entered List.mem_cons_self) hopen)

theorem sweeps_foldl {vs : List Nat} (hvs : ∀ v ∈ vs, v < g.size) (hw : w.Resumes []) :
    g.Sweeps vs (w.search []) ((vs.foldl (fun w v => g.walkFrom g.size v w) w).search []) := by
  induction vs generalizing w with
  | nil => exact .nil _
  | cons v vs ih =>
    have hrest := fun u hu => hvs u (List.mem_cons_of_mem v hu)
    rw [List.foldl_cons]
    by_cases hin : v ∈ w.entered
    · rw [walkFrom_of_mem hin]
      exact .skip hin (ih hrest hw)
    · obtain ⟨new, hadds⟩ := g.exists_adds g.size v w
      have hdeep : (g.unentered w).card ≤ g.size :=
        (Finset.card_le_card Finset.sdiff_subset).trans (Finset.card_range _).le
      exact .start hin (searches_walkFrom hb (hvs v List.mem_cons_self) hdeep hw.left
        fun hm => absurd hm hin) rfl (ih hrest (hw.adds hadds))

end Bounded

theorem eq_of_searches {s s' : Search} (h : g.Searches s s') (hs : s.stack = []) : s' = s := by
  rcases h.cases_head with he | ⟨s₁, hstep, -⟩
  · exact he.symm
  · obtain ⟨discovered, finished, stack⟩ := s
    obtain rfl : stack = [] := hs
    cases hstep

/-- A sweep ends in one way only. -/
theorem Sweeps.unique {vs : List Nat} {s s' s'' : Search} (h : g.Sweeps vs s s')
    (h' : g.Sweeps vs s s'') : s' = s'' := by
  induction h generalizing s'' with
  | nil s =>
    cases h'
    rfl
  | skip hv _ ih =>
    cases h' with
    | skip _ h' => exact ih h'
    | start hv' => exact absurd hv hv'
  | @start v vs s s₁ _ hv hs he _ ih =>
    cases h' with
    | skip hv' => exact absurd hv' hv
    | @start _ _ _ s₂ _ _ hs' he' h' =>
      have hunique : Relator.RightUnique fun s s' => g.searchStep? s = some s' :=
        fun _ _ _ h h' => Option.some.inj (h.symm.trans h')
      have heq : s₁ = s₂ := by
        rcases Relation.ReflTransGen.total_of_right_unique hunique hs hs' with h₁ | h₁
        · exact (eq_of_searches h₁ he).symm
        · exact eq_of_searches h₁ he'
      exact ih (heq ▸ h')

theorem idxOf_lt_idxOf_iff {pre post : List Nat} {u : Nat} (hn : (pre ++ v :: post).Nodup) :
    (pre ++ v :: post).idxOf u < (pre ++ v :: post).idxOf v ↔ u ∈ pre := by
  have hv : v ∉ pre := fun hm => (List.disjoint_of_nodup_append hn) hm List.mem_cons_self
  rw [List.idxOf_append_of_notMem hv, List.idxOf_cons_self]
  by_cases hu : u ∈ pre
  · rw [List.idxOf_append_of_mem hu]
    exact iff_of_true (List.idxOf_lt_length_iff.mpr hu) hu
  · rw [List.idxOf_append_of_notMem hu]
    exact iff_of_false (by omega) hu

theorem forward_iff {order : List Nat} (hn : order.Nodup)
    (hmem : ∀ a ∈ g.arcs.toList, a.target ∈ order) :
    (∀ a ∈ g.arcs.toList, order.idxOf a.source < order.idxOf a.target) ↔
      (∀ v, ¬ g.Steps v v) ∧
        ∀ pre v post, order = pre ++ v :: post → ∀ u, g.Steps u v → u ∈ pre ∨ u = v := by
  constructor
  · refine fun h => ⟨?_, ?_⟩
    · rintro v ⟨a, ha, hs, ht⟩
      exact (h a ha).ne (by rw [hs, ht])
    · rintro pre v post rfl u ⟨a, ha, rfl, rfl⟩
      exact .inl ((idxOf_lt_idxOf_iff hn).mp (h a ha))
  · rintro ⟨hloop, hchecked⟩ a ha
    obtain ⟨pre, post, rfl⟩ := List.append_of_mem (hmem a ha)
    rcases hchecked pre _ post rfl a.source ⟨a, ha, rfl, rfl⟩ with hpre | he
    · exact (idxOf_lt_idxOf_iff hn).mpr hpre
    · exact absurd ⟨a, ha, he, rfl⟩ (hloop a.target)

/-- The topological order of a graph is the one that a search with a stack finds. -/
theorem topologicalOrder?_eq_some_iff_sorts (hb : ∀ a ∈ g.arcs.toList, a.target < g.size)
    {order : List Nat} : g.topologicalOrder? = some order ↔ g.Sorts order := by
  have hperm := leavingOrder_perm hb
  have hforward := forward_iff (hperm.nodup_iff.mpr List.nodup_range) fun a ha =>
    hperm.mem_iff.mpr (List.mem_range.mpr (hb a ha))
  have hsweep := sweeps_foldl (w := {}) hb (fun v hv => List.mem_range.mp hv)
    ⟨fun _ => id, fun _ => id, fun _ hu _ => hu⟩
  rw [topologicalOrder?_eq_some]
  constructor
  · rintro ⟨rfl, ha⟩
    obtain ⟨hloop, hchecked⟩ := hforward.mp ha
    exact ⟨⟨_, hsweep⟩, hloop, hchecked⟩
  · rintro ⟨⟨discovered, hswept⟩, hloop, hchecked⟩
    obtain rfl : g.leavingOrder = order := congrArg Search.finished (hsweep.unique hswept)
    exact ⟨rfl, hforward.mpr ⟨hloop, hchecked⟩⟩

end CircuitForms.Digraph
