import CircuitForms.Digraph.Order
import Mathlib

/-! # Depth-first walks

A walk leaves every node it enters, and only nodes that can be reached from where it
starts. Where every arc leads uphill, a node is left after all nodes its arcs lead to.
So the reverse of the order in which the nodes of the whole graph are left is a
topological order. It puts what only later starts lead to first.
-/

namespace CircuitForms.Digraph

variable {α β : Type} {g : Digraph α β} {u v n : Nat} {w w' : Walk}

def Steps (g : Digraph α β) (u v : Nat) : Prop :=
  ∃ a ∈ g.arcs.toList, a.source = u ∧ a.target = v

def Reaches (g : Digraph α β) : Nat → Nat → Prop :=
  Relation.ReflTransGen g.Steps

theorem insertBySerial_perm (a : Arc β) (l : List (Arc β)) :
    (insertBySerial a l).Perm (a :: l) := by
  induction l with
  | nil => exact .refl _
  | cons b l ih =>
    rw [insertBySerial]
    split
    · exact .refl _
    · exact (ih.cons b).trans (.swap a b l)

theorem bySerial_perm (l : List (Arc β)) : (bySerial l).Perm l := by
  induction l with
  | nil => exact .refl _
  | cons a l ih => exact (insertBySerial_perm a _).trans (ih.cons a)

theorem mem_outgoing {a : Arc β} : a ∈ g.outgoing v ↔ a ∈ g.arcs.toList ∧ a.source = v := by
  rw [outgoing, (bySerial_perm _).mem_iff, List.mem_filter, beq_iff_eq]

theorem steps_iff : g.Steps u v ↔ ∃ a ∈ g.outgoing u, a.target = v := by
  simp only [Steps, mem_outgoing, and_assoc]

theorem hasArc_iff : g.hasArc u v ↔ g.Steps u v := by
  simp [hasArc, steps_iff]

theorem mem_ends : (u, v) ∈ g.ends ↔ g.Steps u v := by
  simp [ends, Arc.ends, Steps]

theorem neighbors_perm (g : Digraph α β) (v : Nat) :
    (g.neighbors v).Perm ((g.ends.filter (·.1 == v)).map Prod.snd) := by
  have hends : (g.ends.filter (·.1 == v)).map Prod.snd =
      (g.arcs.toList.filter (·.source == v)).map Arc.target := by
    rw [ends, List.filter_map, List.map_map]
    rfl
  rw [neighbors, hends]
  exact (List.reverse_perm _).trans ((bySerial_perm _).map Arc.target)

theorem topologicalOrder?_eq_some {order : List Nat} : g.topologicalOrder? = some order ↔
    order = g.leavingOrder ∧
      ∀ a ∈ g.arcs.toList, order.idxOf a.source < order.idxOf a.target := by
  simp only [topologicalOrder?, respects, Option.ite_none_right_eq_some, Option.some.injEq,
    List.all_eq_true, decide_eq_true_eq]
  constructor
  · rintro ⟨ha, rfl⟩
    exact ⟨rfl, ha⟩
  · rintro ⟨rfl, ha⟩
    exact ⟨ha, rfl⟩

section Arcs

variable {α' : Type} {g' : Digraph α' β} (harcs : g'.arcs = g.arcs)

include harcs

theorem walkFrom_of_arcs_eq (n v : Nat) (w : Walk) : g'.walkFrom n v w = g.walkFrom n v w := by
  induction n generalizing v w with
  | zero => rfl
  | succ n ih =>
    have hout : g'.outgoing v = g.outgoing v := by rw [outgoing, outgoing, harcs]
    rw [walkFrom, walkFrom, hout]
    simp only [ih]

theorem topologicalOrder?_of_arcs_eq (hsize : g'.size = g.size) :
    g'.topologicalOrder? = g.topologicalOrder? := by
  have hleaving : g'.leavingOrder = g.leavingOrder := by
    rw [leavingOrder, leavingOrder, hsize]
    simp only [walkFrom_of_arcs_eq harcs]
  rw [topologicalOrder?, topologicalOrder?, hleaving, respects, respects, harcs]

end Arcs

/-- A walk from a node enters and leaves some new nodes that can be reached from it. -/
structure Adds (g : Digraph α β) (v : Nat) (w : Walk) (new : List Nat) (w' : Walk) : Prop where
  left : w'.left = new ++ w.left
  entered : w'.entered.Perm (new ++ w.entered)
  nodup : new.Nodup
  fresh : ∀ u ∈ new, u ∉ w.entered
  reaches : ∀ u ∈ new, g.Reaches v u

namespace Adds

variable {new : List Nat}

theorem refl (v : Nat) (w : Walk) : g.Adds v w [] w :=
  ⟨rfl, .refl _, List.nodup_nil, by simp, by simp⟩

theorem trans {new' : List Nat} {w'' : Walk} (h : g.Adds v w new w') (h' : g.Adds v w' new' w'') :
    g.Adds v w (new' ++ new) w'' where
  left := by rw [h'.left, h.left, List.append_assoc]
  entered := by
    rw [List.append_assoc]
    exact h'.entered.trans (h.entered.append_left _)
  nodup := by
    refine h'.nodup.append h.nodup fun u hu' hu => h'.fresh u hu' ?_
    exact h.entered.mem_iff.mpr (List.mem_append_left _ hu)
  fresh u hu := by
    rcases List.mem_append.mp hu with hu | hu
    · exact fun hw => h'.fresh u hu (h.entered.mem_iff.mpr (List.mem_append_right _ hw))
    · exact h.fresh u hu
  reaches u hu := (List.mem_append.mp hu).elim (h'.reaches u) (h.reaches u)

theorem of_reaches (h : g.Adds v w new w') (hu : g.Reaches u v) : g.Adds u w new w' :=
  { h with reaches := fun x hx => hu.trans (h.reaches x hx) }

/-- A walk through what a new node leads to becomes one from this node. -/
theorem enter (hv : v ∉ w.entered) (h : g.Adds v { w with entered := v :: w.entered } new w') :
    g.Adds v w (v :: new) { w' with left := v :: w'.left } where
  left := congrArg (v :: ·) h.left
  entered := h.entered.trans List.perm_middle
  nodup := List.nodup_cons.mpr ⟨fun hn => h.fresh v hn List.mem_cons_self, h.nodup⟩
  fresh u hu := by
    rcases List.mem_cons.mp hu with rfl | hu
    · exact hv
    · exact fun hw => h.fresh u hu (List.mem_cons_of_mem _ hw)
  reaches u hu := by
    rcases List.mem_cons.mp hu with rfl | hu
    · exact .refl
    · exact h.reaches u hu

theorem mem_entered (h : g.Adds v w new w') (hu : u ∈ w.entered) : u ∈ w'.entered :=
  h.entered.mem_iff.mpr (List.mem_append_right _ hu)

theorem mem_left (h : g.Adds v w new w') (hu : u ∈ w.left) : u ∈ w'.left := by
  rw [h.left]
  exact List.mem_append_right _ hu

theorem open_of_open (h : g.Adds v w new w') (hu : u ∈ w'.entered) (hl : u ∉ w'.left) :
    u ∈ w.entered ∧ u ∉ w.left := by
  rw [h.left, List.mem_append, not_or] at hl
  exact ⟨(List.mem_append.mp (h.entered.mem_iff.mp hu)).resolve_left hl.1, hl.2⟩

end Adds

/-- If walks add what their starts lead to, a row of them adds what all their starts lead to. -/
theorem exists_adds_foldl
    (hwalk : ∀ (u : Nat) (w : Walk), ∃ new, g.Adds u w new (g.walkFrom n u w))
    {l : List (Arc β)} (hl : ∀ a ∈ l, g.Steps v a.target) (w : Walk) :
    ∃ new, g.Adds v w new (l.foldl (fun w a => g.walkFrom n a.target w) w) := by
  induction l generalizing w with
  | nil => exact ⟨[], .refl v w⟩
  | cons a l ih =>
    obtain ⟨new, h⟩ := hwalk a.target w
    obtain ⟨new', h'⟩ := ih (fun b hb => hl b (List.mem_cons_of_mem a hb)) (g.walkFrom n a.target w)
    exact ⟨_, (h.of_reaches (.single (hl a List.mem_cons_self))).trans h'⟩

theorem steps_of_mem_outgoing {a : Arc β} (ha : a ∈ g.outgoing v) : g.Steps v a.target :=
  steps_iff.mpr ⟨a, ha, rfl⟩

theorem exists_adds (g : Digraph α β) (n v : Nat) (w : Walk) :
    ∃ new, g.Adds v w new (g.walkFrom n v w) := by
  induction n generalizing v w with
  | zero => exact ⟨[], .refl v w⟩
  | succ n ih =>
    rw [walkFrom]
    split
    · exact ⟨[], .refl v w⟩
    · rename_i hv
      obtain ⟨new, h⟩ := exists_adds_foldl ih (fun a => steps_of_mem_outgoing)
        { w with entered := v :: w.entered }
      exact ⟨v :: new, h.enter (by simpa using hv)⟩

theorem mem_entered_walkFrom (g : Digraph α β) (hn : 0 < n) (v : Nat) (w : Walk) :
    v ∈ (g.walkFrom n v w).entered := by
  cases n with
  | zero => cases hn
  | succ n =>
    rw [walkFrom]
    split
    · rename_i hv
      simpa using hv
    · have hfold : ∀ (l : List (Arc β)) (w : Walk), v ∈ w.entered →
          v ∈ (l.foldl (fun w a => g.walkFrom n a.target w) w).entered := by
        intro l
        induction l with
        | nil => exact fun w hw => hw
        | cons a l ih =>
          intro w hw
          obtain ⟨new, h⟩ := g.exists_adds n a.target w
          exact ih _ (h.mem_entered hw)
      exact hfold _ _ List.mem_cons_self

/-- The walk through what the nodes before a node lead to. -/
def walkBefore (g : Digraph α β) (n : Nat) : Walk :=
  (List.range n).foldl (fun w v => g.walkFrom g.size v w) {}

theorem walkBefore_succ (g : Digraph α β) (n : Nat) :
    g.walkBefore (n + 1) = g.walkFrom g.size n (g.walkBefore n) := by
  rw [walkBefore, List.range_succ, List.foldl_append]
  rfl

theorem leavingOrder_eq (g : Digraph α β) : g.leavingOrder = (g.walkBefore g.size).left := rfl

theorem entered_perm_walkBefore (g : Digraph α β) (n : Nat) :
    (g.walkBefore n).entered.Perm (g.walkBefore n).left ∧ (g.walkBefore n).left.Nodup := by
  induction n with
  | zero => exact ⟨.refl _, List.nodup_nil⟩
  | succ n ih =>
    obtain ⟨new, h⟩ := g.exists_adds g.size n (g.walkBefore n)
    rw [walkBefore_succ]
    refine ⟨h.entered.trans (by rw [h.left]; exact ih.1.append_left new), ?_⟩
    rw [h.left]
    exact h.nodup.append ih.2 fun u hu hl => h.fresh u hu (ih.1.mem_iff.mpr hl)

theorem exists_walkBefore_eq (g : Digraph α β) {m : Nat} (h : n ≤ m) :
    ∃ new, (g.walkBefore m).left = new ++ (g.walkBefore n).left := by
  induction m, h using Nat.le_induction with
  | base => exact ⟨[], rfl⟩
  | succ m _ ih =>
    obtain ⟨new, hnew⟩ := ih
    obtain ⟨new', h⟩ := g.exists_adds g.size m (g.walkBefore m)
    refine ⟨new' ++ new, ?_⟩
    rw [walkBefore_succ, h.left, hnew, List.append_assoc]

theorem mem_walkBefore_of_lt (hv : v < g.size) (h : v < n) : v ∈ (g.walkBefore n).left := by
  obtain ⟨new, hnew⟩ := g.exists_walkBefore_eq (Nat.succ_le_of_lt h)
  rw [hnew]
  refine List.mem_append_right _ ((g.entered_perm_walkBefore _).1.mem_iff.mp ?_)
  rw [walkBefore_succ]
  exact g.mem_entered_walkFrom (Nat.zero_lt_of_lt hv) v _

theorem exists_reaches_of_mem_walkBefore (h : u ∈ (g.walkBefore n).left) :
    ∃ v < n, g.Reaches v u := by
  induction n with
  | zero => cases h
  | succ n ih =>
    obtain ⟨new, hw⟩ := g.exists_adds g.size n (g.walkBefore n)
    rw [walkBefore_succ, hw.left] at h
    rcases List.mem_append.mp h with h | h
    · exact ⟨n, n.lt_succ_self, hw.reaches u h⟩
    · obtain ⟨v, hv, hr⟩ := ih h
      exact ⟨v, hv.trans n.lt_succ_self, hr⟩

section Bounded

variable (hb : ∀ a ∈ g.arcs.toList, a.target < g.size)

include hb

theorem lt_size_of_reaches (h : g.Reaches v u) (hv : v < g.size) : u < g.size := by
  induction h with
  | refl => exact hv
  | tail _ hs =>
    obtain ⟨a, ha, -, rfl⟩ := hs
    exact hb a ha

/-- Every node is left once. -/
theorem leavingOrder_perm : g.leavingOrder.Perm (List.range g.size) := by
  refine (List.perm_ext_iff_of_nodup (g.entered_perm_walkBefore _).2 List.nodup_range).mpr
    fun u => ⟨fun hu => ?_, fun hu => ?_⟩
  · obtain ⟨v, hv, hr⟩ := exists_reaches_of_mem_walkBefore hu
    exact List.mem_range.mpr (lt_size_of_reaches hb hr hv)
  · rw [List.mem_range] at hu
    exact mem_walkBefore_of_lt hu hu

end Bounded

def Closed (g : Digraph α β) : List Nat → Prop
  | [] => True
  | u :: row => (∀ v, g.Steps u v → v ∈ row) ∧ g.Closed row

theorem Closed.mem_of_reaches {row : List Nat} (h : g.Closed row) (hu : u ∈ row)
    (hr : g.Reaches u v) : v ∈ row := by
  have hstep : ∀ {row x y}, g.Closed row → x ∈ row → g.Steps x y → y ∈ row := by
    intro row
    induction row with
    | nil => exact fun _ hx => absurd hx List.not_mem_nil
    | cons z row ih =>
      intro x y h hx hs
      rcases List.mem_cons.mp hx with rfl | hx
      · exact List.mem_cons_of_mem _ (h.1 y hs)
      · exact List.mem_cons_of_mem _ (ih h.2 hx hs)
  induction hr with
  | refl => exact hu
  | tail _ hs ih => exact hstep h ih hs

theorem Closed.idxOf_lt {row : List Nat} (h : g.Closed row) (hn : row.Nodup) (hu : u ∈ row)
    (hs : g.Steps u v) : row.idxOf u < row.idxOf v := by
  induction row with
  | nil => cases hu
  | cons x row ih =>
    obtain ⟨hx, hn⟩ := List.nodup_cons.mp hn
    rcases List.mem_cons.mp hu with rfl | hu
    · have hne : u ≠ v := fun he => hx (he ▸ h.1 v hs)
      rw [List.idxOf_cons_self, List.idxOf_cons_ne _ hne]
      exact Nat.succ_pos _
    · have hxu : x ≠ u := fun he => hx (he ▸ hu)
      have hxv : x ≠ v := fun he => hx (he ▸ h.2.mem_of_reaches hu (.single hs))
      rw [List.idxOf_cons_ne _ hxu, List.idxOf_cons_ne _ hxv]
      exact Nat.succ_lt_succ (ih h.2 hn hu)

/-- Every arc joins nodes that are there, and leads uphill. -/
structure Climbs (g : Digraph α β) (height : Nat → Nat) : Prop where
  source_lt : ∀ a ∈ g.arcs.toList, a.source < g.size
  target_lt : ∀ a ∈ g.arcs.toList, a.target < g.size
  height_lt : ∀ a ∈ g.arcs.toList, height a.source < height a.target

def unentered (g : Digraph α β) (w : Walk) : Finset Nat :=
  Finset.range g.size \ w.entered.toFinset

theorem card_unentered_le (h : ∀ u ∈ w.entered, u ∈ w'.entered) :
    (g.unentered w').card ≤ (g.unentered w).card := by
  refine Finset.card_le_card (Finset.sdiff_subset_sdiff le_rfl fun u hu => ?_)
  rw [List.mem_toFinset] at hu ⊢
  exact h u hu

theorem card_unentered_enter (hv : v < g.size) (hin : v ∉ w.entered)
    (hdeep : (g.unentered w).card ≤ n + 1) :
    (g.unentered { w with entered := v :: w.entered }).card ≤ n := by
  have hmem : v ∈ g.unentered w := by simpa [unentered, hv] using hin
  have hcard := Finset.card_erase_of_mem hmem
  rw [unentered, List.toFinset_cons, Finset.sdiff_insert]
  rw [unentered] at hcard hdeep
  omega

/-- A walk at most `n` nodes deep may go on. The nodes still open lie below a height. -/
structure Walk.Ready (g : Digraph α β) (height : Nat → Nat) (n h : Nat) (w : Walk) : Prop where
  closed : g.Closed w.left
  below : ∀ u ∈ w.entered, u ∉ w.left → height u < h
  deep : (g.unentered w).card ≤ n

namespace Climbs

variable {height : Nat → Nat} (h : g.Climbs height)

include h

theorem closed_foldl
    (hwalk : ∀ (v : Nat) (w : Walk), v < g.size → w.Ready g height n (height v) →
      g.Closed (g.walkFrom n v w).left ∧ v ∈ (g.walkFrom n v w).left)
    {l : List (Arc β)} (hl : ∀ a ∈ l, a ∈ g.outgoing v)
    (hw : w.Ready g height n (height v + 1)) :
    g.Closed (l.foldl (fun w a => g.walkFrom n a.target w) w).left ∧
      (∀ u ∈ w.left, u ∈ (l.foldl (fun w a => g.walkFrom n a.target w) w).left) ∧
      ∀ a ∈ l, a.target ∈ (l.foldl (fun w a => g.walkFrom n a.target w) w).left := by
  -- What a walk enters it leaves as well, so the nodes still open stay the same.
  induction l generalizing w with
  | nil => exact ⟨hw.closed, fun u hu => hu, by simp⟩
  | cons a l ih =>
    obtain ⟨ha, rfl⟩ := mem_outgoing.mp (hl a List.mem_cons_self)
    have hlt := h.height_lt a ha
    obtain ⟨new, hadds⟩ := g.exists_adds n a.target w
    obtain ⟨hclosed, hleft⟩ := hwalk a.target w (h.target_lt a ha)
      ⟨hw.closed, fun u hu hul => (hw.below u hu hul).trans_le hlt, hw.deep⟩
    have hready : (g.walkFrom n a.target w).Ready g height n (height a.source + 1) := by
      refine ⟨hclosed, fun u hu hul => ?_, ?_⟩
      · obtain ⟨hu, hul⟩ := hadds.open_of_open hu hul
        exact hw.below u hu hul
      · exact (card_unentered_le fun u => hadds.mem_entered).trans hw.deep
    obtain ⟨hclosed', hold, htargets⟩ := ih (fun b hb => hl b (List.mem_cons_of_mem a hb)) hready
    refine ⟨hclosed', fun u hu => hold u (hadds.mem_left hu), fun b hb => ?_⟩
    rcases List.mem_cons.mp hb with rfl | hb
    · exact hold _ hleft
    · exact htargets b hb

/-- A walk that may go deep enough leaves its start, and every node after those its arcs lead to.
The nodes still open lie below the start, so no arc leads to one. -/
theorem closed_walkFrom (hv : v < g.size) (hw : w.Ready g height n (height v)) :
    g.Closed (g.walkFrom n v w).left ∧ v ∈ (g.walkFrom n v w).left := by
  induction n generalizing v w with
  | zero =>
    -- With no depth left every node was entered, and an open one would lie below itself.
    have hall := Finset.sdiff_eq_empty_iff_subset.mp
      (Finset.card_eq_zero.mp (Nat.le_zero.mp hw.deep))
    have hin : v ∈ w.entered := List.mem_toFinset.mp (hall (Finset.mem_range.mpr hv))
    exact ⟨hw.closed, by_contra fun hl => Nat.lt_irrefl _ (hw.below v hin hl)⟩
  | succ n ih =>
    rw [walkFrom]
    split
    · rename_i hin
      rw [List.contains_iff_mem] at hin
      exact ⟨hw.closed, by_contra fun hl => Nat.lt_irrefl _ (hw.below v hin hl)⟩
    · rename_i hin
      rw [List.contains_iff_mem] at hin
      have hready : Walk.Ready g height n (height v + 1)
          { w with entered := v :: w.entered } := by
        refine ⟨hw.closed, fun u hu hul => ?_, ?_⟩
        · rcases List.mem_cons.mp hu with rfl | hu
          · exact Nat.lt_succ_self _
          · exact (hw.below u hu hul).trans (Nat.lt_succ_self _)
        · exact card_unentered_enter hv hin hw.deep
      obtain ⟨hclosed, -, htargets⟩ := h.closed_foldl (fun _ _ => ih) (fun a ha => ha) hready
      refine ⟨⟨fun u hu => ?_, hclosed⟩, List.mem_cons_self⟩
      obtain ⟨a, ha, rfl⟩ := steps_iff.mp hu
      exact htargets a ha

theorem closed_walkBefore (hn : n ≤ g.size) : g.Closed (g.walkBefore n).left := by
  induction n with
  | zero => exact trivial
  | succ n ih =>
    rw [walkBefore_succ]
    refine (h.closed_walkFrom (Nat.lt_of_succ_le hn) ⟨ih (Nat.le_of_succ_le hn), ?_, ?_⟩).1
    · exact fun u hu hl => absurd ((g.entered_perm_walkBefore n).1.mem_iff.mp hu) hl
    · exact (Finset.card_le_card Finset.sdiff_subset).trans (Finset.card_range _).le

theorem topologicalOrder?_eq : g.topologicalOrder? = some g.leavingOrder := by
  refine topologicalOrder?_eq_some.mpr ⟨rfl, fun a ha => ?_⟩
  have hperm := leavingOrder_perm h.target_lt
  exact (h.closed_walkBefore le_rfl).idxOf_lt (hperm.nodup_iff.mpr List.nodup_range)
    (hperm.mem_iff.mpr (List.mem_range.mpr (h.source_lt a ha))) ⟨a, ha, rfl, rfl⟩

/-- What an earlier start leads to comes after what only later ones lead to. -/
theorem idxOf_lt_of_reaches (hn : n ≤ g.size) {x y s : Nat} (hs : s < n) (hx : g.Reaches s x)
    (hy : ∀ s < n, ¬ g.Reaches s y) (hlt : y < g.size) :
    g.leavingOrder.idxOf y < g.leavingOrder.idxOf x := by
  obtain ⟨new, hnew⟩ := g.exists_walkBefore_eq hn
  rw [← leavingOrder_eq] at hnew
  have hxmem : x ∈ (g.walkBefore n).left :=
    (h.closed_walkBefore hn).mem_of_reaches (mem_walkBefore_of_lt (hs.trans_le hn) hs) hx
  have hymem : y ∈ new := by
    have hall : y ∈ g.leavingOrder :=
      (leavingOrder_perm h.target_lt).mem_iff.mpr (List.mem_range.mpr hlt)
    rw [hnew] at hall
    refine (List.mem_append.mp hall).resolve_right fun hm => ?_
    obtain ⟨s, hs, hr⟩ := exists_reaches_of_mem_walkBefore hm
    exact hy s hs hr
  have hnodup := (leavingOrder_perm h.target_lt).nodup_iff.mpr List.nodup_range
  rw [hnew] at hnodup ⊢
  have hxnew : x ∉ new := fun hm => (List.disjoint_of_nodup_append hnodup) hm hxmem
  rw [List.idxOf_append_of_mem hymem, List.idxOf_append_of_notMem hxnew]
  exact (List.idxOf_lt_length_iff.mpr hymem).trans_le (Nat.le_add_right _ _)

end Climbs

end CircuitForms.Digraph
