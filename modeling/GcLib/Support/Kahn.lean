import Mathlib.Tactic
import Mathlib.Data.List.Nodup
import Mathlib.Data.Fintype.Card
import Mathlib.Order.WellFounded
import Mathlib.Logic.Relation

/-! # Topological emission by in-degrees

Nodes are emitted once all of their predecessors are. The invariant counts, for each
node, the predecessors still to be emitted, with the edges of the latest node that
have not been relaxed yet on top. When no node is ready, the nodes left over are
those that a cycle reaches, and among the emitted ones every edge goes forward.
-/

namespace GcLib.Support
open Relation

variable {α : Type*}

/-- `u` occurs before `v` in a list without repetitions. -/
def Before (l : List α) (u v : α) : Prop := [u,v].Sublist l

namespace Before
variable {l l' : List α} {u v w : α}

theorem mem_left (h : Before l u v) : u ∈ l := h.subset (by simp)

theorem mem_right (h : Before l u v) : v ∈ l := h.subset (by simp)

theorem append_right (h : Before l u v) (l' : List α) : Before (l ++ l') u v :=
  h.trans (List.sublist_append_left l l')

theorem append_left (h : Before l' u v) (l : List α) : Before (l ++ l') u v :=
  h.trans (List.sublist_append_right l l')

theorem of_append (hu : u ∈ l) (hv : v ∈ l') : Before (l ++ l') u v :=
  (List.singleton_sublist.mpr hu).append (List.singleton_sublist.mpr hv)

theorem ne (hl : l.Nodup) (h : Before l u v) : u ≠ v := by
  rintro rfl
  exact List.nodup_iff_sublist.mp hl u h

theorem cons_iff {a : α} :
    Before (a :: l) u v ↔ (u = a ∧ v ∈ l) ∨ Before l u v := by
  unfold Before
  constructor
  · intro h
    cases h with
    | cons _ h => exact Or.inr h
    | cons_cons _ h => exact Or.inl ⟨rfl,List.singleton_sublist.mp h⟩
  · rintro (⟨rfl,hv⟩ | h)
    · exact (List.singleton_sublist.mpr hv).cons_cons u
    · exact h.cons a

theorem trans (hl : l.Nodup) (huv : Before l u v) (hvw : Before l v w) : Before l u w := by
  induction l with
  | nil => cases huv
  | cons a l ih =>
    obtain ⟨ha,hl⟩ := List.nodup_cons.mp hl
    rw [cons_iff] at huv hvw ⊢
    rcases huv with ⟨rfl,hv⟩ | huv
    · rcases hvw with ⟨rfl,-⟩ | hvw
      · exact absurd hv ha
      · exact Or.inl ⟨rfl,hvw.mem_right⟩
    · rcases hvw with ⟨rfl,-⟩ | hvw
      · exact absurd huv.mem_right ha
      · exact Or.inr (ih hl huv hvw)

theorem asymm (hl : l.Nodup) (huv : Before l u v) : ¬ Before l v u :=
  fun hvu => (huv.trans hl hvu).ne hl rfl

/-- Across a split of the list, an earlier node never lies in the later part. -/
theorem not_of_append (hl : (l ++ l').Nodup) (hu : u ∈ l) (hv : v ∈ l') :
    ¬ Before (l ++ l') v u :=
  (of_append hu hv).asymm hl

theorem append_iff_right (hl : (l ++ l').Nodup) (hu : u ∈ l') :
    Before (l ++ l') u v ↔ Before l' u v := by
  constructor
  · induction l with
    | nil => exact id
    | cons a l ih =>
      intro h
      rw [List.cons_append] at hl h
      obtain ⟨ha,hl⟩ := List.nodup_cons.mp hl
      rcases cons_iff.mp h with ⟨rfl,-⟩ | h
      · exact absurd (List.mem_append_right l hu) ha
      · exact ih hl h
  · exact fun h => h.append_left l

theorem of_append_left (h : Before (l ++ l') u v) (hv : v ∉ l') : Before l u v := by
  obtain ⟨l₁,l₂,heq,h₁,h₂⟩ := List.sublist_append_iff.mp h
  rcases List.eq_nil_or_concat l₂ with rfl | ⟨l₂,x,rfl⟩
  · rw [List.append_nil] at heq
    rw [← heq] at h₁
    exact h₁
  · have heq : [u] ++ [v] = (l₁ ++ l₂) ++ [x] := by simpa using heq
    obtain ⟨-,hx⟩ := List.append_inj' heq rfl
    obtain rfl := (List.cons.inj hx).1
    exact absurd (h₂.subset (by simp)) hv

theorem of_append_right (h : Before (l ++ l') u v) (hu : u ∉ l) : Before l' u v := by
  obtain ⟨l₁,l₂,heq,h₁,h₂⟩ := List.sublist_append_iff.mp h
  cases l₁ with
  | nil =>
    rw [List.nil_append] at heq
    rw [← heq] at h₂
    exact h₂
  | cons x l₁ =>
    obtain rfl := (List.cons.inj heq).1
    exact absurd (h₁.subset List.mem_cons_self) hu

theorem of_map {β : Type*} {f : β → α} {l : List β} (h : Before (l.map f) u v) :
    ∃ x y, Before l x y ∧ f x = u ∧ f y = v := by
  obtain ⟨l',hl',heq⟩ := List.sublist_map_iff.mp h
  obtain ⟨x,l₁,rfl,hx,h₁⟩ := List.map_eq_cons_iff.mp heq.symm
  obtain ⟨y,l₂,rfl,hy,h₂⟩ := List.map_eq_cons_iff.mp h₁
  obtain rfl := List.map_eq_nil_iff.mp h₂
  exact ⟨x,y,hl',hx,hy⟩

/-- What comes before an element lies left of it. -/
theorem mem_left_of_split (hl : (l ++ v :: l').Nodup) (h : Before (l ++ v :: l') u v) : u ∈ l := by
  by_contra hu
  have hmem := h.mem_left
  rcases List.mem_append.mp hmem with hmem | hmem
  · exact hu hmem
  · rcases List.mem_cons.mp hmem with rfl | hmem
    · exact h.ne hl rfl
    · rw [List.append_cons] at hl h
      exact not_of_append hl (by simp) hmem h

/-- In a list sorted by an asymmetric relation, related elements come in that order. -/
theorem of_pairwise {r : α → α → Prop} (hr : ∀ a b, r a b → ¬ r b a) (hl : l.Pairwise r)
    (hu : u ∈ l) (hv : v ∈ l) (huv : r u v) : Before l u v := by
  induction l with
  | nil => cases hu
  | cons a l ih =>
    obtain ⟨ha,hl⟩ := List.pairwise_cons.mp hl
    rw [cons_iff]
    rcases List.mem_cons.mp hu with rfl | hul
    · refine Or.inl ⟨rfl,(List.mem_cons.mp hv).resolve_left ?_⟩
      rintro rfl
      exact hr _ _ huv huv
    · rcases List.mem_cons.mp hv with rfl | hvl
      · exact absurd (ha u hul) (hr _ _ huv)
      · exact Or.inr (ih hl hul hvl)

end Before

namespace Kahn

/-- A finite graph given by its nodes and successor lists. -/
structure Graph (α : Type*) where
  nodes : List α
  succ : α → List α
  nodes_nodup : nodes.Nodup
  succ_nodup : ∀ u, (succ u).Nodup
  succ_mem : ∀ u v, v ∈ succ u → u ∈ nodes ∧ v ∈ nodes

namespace Graph

def Edge (g : Graph α) (u v : α) : Prop := v ∈ g.succ u

/-- Reachable from a node that lies on a cycle. -/
def BelowCycle (g : Graph α) (v : α) : Prop := ∃ c, TransGen g.Edge c c ∧ ReflTransGen g.Edge c v

theorem BelowCycle.step {g : Graph α} {u v : α} (h : g.BelowCycle u) (huv : g.Edge u v) :
    g.BelowCycle v := by
  obtain ⟨c,hc,hcu⟩ := h
  exact ⟨c,hc,hcu.tail huv⟩

/-- A node that may be emitted next. -/
def Ready (g : Graph α) (emitted : List α) (v : α) : Prop :=
  v ∈ g.nodes ∧ v ∉ emitted ∧ ∀ u, g.Edge u v → u ∈ emitted

/-- At every step the ready node with the greatest key is emitted. -/
def Greedy (g : Graph α) (key : α → ℕ) (emitted : List α) : Prop :=
  ∀ l v l', emitted = l ++ v :: l' → g.Ready l v ∧ ∀ w, g.Ready l w → key w ≤ key v

theorem Greedy.nil (g : Graph α) (key : α → ℕ) : g.Greedy key [] := by
  intro l v l' h
  simp at h

theorem Greedy.concat {g : Graph α} {key : α → ℕ} {emitted : List α} {z : α}
    (h : g.Greedy key emitted) (hz : g.Ready emitted z)
    (hmax : ∀ w, g.Ready emitted w → key w ≤ key z) : g.Greedy key (emitted ++ [z]) := by
  intro l v l' heq
  rcases List.eq_nil_or_concat l' with rfl | ⟨l',y,rfl⟩
  · obtain ⟨rfl,hv⟩ := List.append_inj' heq rfl
    obtain rfl := (List.cons.inj hv).1
    exact ⟨hz,hmax⟩
  · rw [List.concat_eq_append, ← List.cons_append, ← List.append_assoc] at heq
    exact h l v l' (List.append_inj' heq rfl).1

variable [DecidableEq α]

/-- Predecessors of a node that are still to be emitted. -/
def waiting (g : Graph α) (emitted : List α) (v : α) : List α :=
  g.nodes.filter (fun u => decide (u ∉ emitted ∧ v ∈ g.succ u))

theorem mem_waiting {g : Graph α} {emitted : List α} {u v : α} :
    u ∈ g.waiting emitted v ↔ u ∉ emitted ∧ g.Edge u v := by
  simp only [waiting, List.mem_filter, decide_eq_true_eq, Edge, and_iff_right_iff_imp]
  exact fun h => (g.succ_mem u v h.2).1

/-- Emitting a node takes it off the list of each of its successors, and no other. -/
theorem length_waiting_emit (g : Graph α) {emitted : List α} {z : α} (hz : z ∉ emitted)
    (v : α) :
    (g.waiting emitted v).length =
      (g.waiting (emitted ++ [z]) v).length + if v ∈ g.succ z then 1 else 0 := by
  have hnodup : (g.waiting emitted v).Nodup := g.nodes_nodup.filter _
  have hnodup' : (g.waiting (emitted ++ [z]) v).Nodup := g.nodes_nodup.filter _
  split_ifs with hv
  · have hnew : z ∉ g.waiting (emitted ++ [z]) v := fun h => (mem_waiting.mp h).1 (by simp)
    have hp : (g.waiting emitted v).Perm (z :: g.waiting (emitted ++ [z]) v) := by
      refine (List.perm_ext_iff_of_nodup hnodup (List.nodup_cons.mpr ⟨hnew,hnodup'⟩)).mpr ?_
      intro u
      rw [List.mem_cons, mem_waiting, mem_waiting, List.mem_append, List.mem_singleton]
      constructor
      · rintro ⟨hu,huv⟩
        by_cases huz : u = z
        · exact Or.inl huz
        · exact Or.inr ⟨by simp [hu, huz],huv⟩
      · rintro (rfl | ⟨hu,huv⟩)
        · exact ⟨hz,hv⟩
        · exact ⟨fun h => hu (Or.inl h),huv⟩
    rw [hp.length_eq, List.length_cons]
  · have hp : (g.waiting emitted v).Perm (g.waiting (emitted ++ [z]) v) := by
      refine (List.perm_ext_iff_of_nodup hnodup hnodup').mpr (fun u => ?_)
      rw [mem_waiting, mem_waiting, List.mem_append, List.mem_singleton]
      constructor
      · rintro ⟨hu,huv⟩
        refine ⟨?_,huv⟩
        rintro (h | rfl)
        · exact hu h
        · exact hv huv
      · exact fun ⟨hu,huv⟩ => ⟨fun h => hu (Or.inl h),huv⟩
    rw [hp.length_eq, Nat.add_zero]

end Graph

variable [DecidableEq α]

/-- The loop invariant; `targets` are the edges of the latest node still to be relaxed. -/
structure Emission (g : Graph α) (indegree : α → ℕ) (ready emitted targets : List α) : Prop where
  indegree_eq : ∀ v ∈ g.nodes,
    indegree v = (g.waiting emitted v).length + if v ∈ targets then 1 else 0
  mem_ready : ∀ v, v ∈ ready ↔ v ∈ g.nodes ∧ v ∉ emitted ∧ indegree v = 0
  ready_nodup : ready.Nodup
  emitted_mem : ∀ v ∈ emitted, v ∈ g.nodes
  emitted_nodup : emitted.Nodup
  forward : ∀ u v, v ∈ emitted → g.Edge u v → Before emitted u v
  targets_nodup : targets.Nodup
  targets_new : ∀ v ∈ targets, v ∈ g.nodes ∧ v ∉ emitted

namespace Emission
variable {g : Graph α} {indegree : α → ℕ} {ready emitted targets : List α}

theorem start (hindegree : ∀ v ∈ g.nodes, indegree v = (g.waiting [] v).length)
    (hready : ∀ v, v ∈ ready ↔ v ∈ g.nodes ∧ indegree v = 0) (hnodup : ready.Nodup) :
    Emission g indegree ready [] [] where
  indegree_eq v hv := by simpa using hindegree v hv
  mem_ready v := by simpa using hready v
  ready_nodup := hnodup
  emitted_mem := by simp
  emitted_nodup := List.nodup_nil
  forward := by simp
  targets_nodup := List.nodup_nil
  targets_new := by simp

/-- Emitting a ready node. -/
theorem emit (h : Emission g indegree ready emitted []) {z : α} (hz : z ∈ ready) :
    Emission g indegree (ready.erase z) (emitted ++ [z]) (g.succ z) := by
  obtain ⟨hnode,hnew,hzero⟩ := (h.mem_ready z).mp hz
  have hpreds : ∀ u, g.Edge u z → u ∈ emitted := by
    intro u hu
    by_contra hue
    have hw := Graph.mem_waiting.mpr ⟨hue,hu⟩
    have hlen := List.length_pos_of_mem hw
    have heq := h.indegree_eq z hnode
    rw [hzero] at heq
    omega
  refine ⟨fun v hv => ?_,fun v => ?_,h.ready_nodup.erase z,?_,?_,?_,g.succ_nodup z,?_⟩
  · rw [h.indegree_eq v hv, g.length_waiting_emit hnew]
    simp
  · rw [h.ready_nodup.mem_erase_iff, h.mem_ready, List.mem_append, List.mem_singleton]
    tauto
  · intro v hv
    rcases List.mem_append.mp hv with hv | hv
    · exact h.emitted_mem v hv
    · exact List.mem_singleton.mp hv ▸ hnode
  · exact h.emitted_nodup.append (List.nodup_singleton z) (by simpa using hnew)
  · intro u v hv huv
    rcases List.mem_append.mp hv with hv | hv
    · exact (h.forward u v hv huv).append_right _
    · obtain rfl := List.mem_singleton.mp hv
      exact Before.of_append (hpreds u huv) (List.mem_singleton_self v)
  · intro v hv
    refine ⟨(g.succ_mem z v hv).2,fun hve => ?_⟩
    rcases List.mem_append.mp hve with hve | hve
    · exact hnew (h.forward z v hve hv).mem_left
    · obtain rfl := List.mem_singleton.mp hve
      exact hnew (hpreds v hv)

/-- Between two emissions the ready list holds exactly the ready nodes. -/
theorem mem_ready_iff (h : Emission g indegree ready emitted []) {v : α} :
    v ∈ ready ↔ g.Ready emitted v := by
  rw [h.mem_ready]
  refine and_congr_right (fun hv => and_congr_right (fun _ => ?_))
  rw [h.indegree_eq v hv]
  simp only [List.not_mem_nil, if_false, Nat.add_zero, List.length_eq_zero_iff,
    List.eq_nil_iff_forall_not_mem, Graph.mem_waiting, not_and]
  exact ⟨fun hw u hu => by_contra fun hn => hw u hn hu,fun hw u hn hu => hn (hw u hu)⟩

/-- Relaxing one edge: its target gives up one predecessor, and is ready at zero. -/
theorem relax {t : α} (h : Emission g indegree ready emitted (t :: targets)) :
    0 < indegree t ∧ Emission g (Function.update indegree t (indegree t-1))
      (if indegree t-1 = 0 then t :: ready else ready) emitted targets := by
  obtain ⟨htl,hnodup⟩ := List.nodup_cons.mp h.targets_nodup
  obtain ⟨hnode,hnew⟩ := h.targets_new t List.mem_cons_self
  have hpos : 0 < indegree t := by
    rw [h.indegree_eq t hnode]
    simp
  have hnotReady : t ∉ ready := fun hr => by
    have hz := ((h.mem_ready t).mp hr).2.2
    omega
  refine ⟨hpos,fun v hv => ?_,fun v => ?_,?_,h.emitted_mem,h.emitted_nodup,h.forward,hnodup,
    fun v hv => h.targets_new v (List.mem_cons_of_mem _ hv)⟩
  · have heq := h.indegree_eq v hv
    by_cases hvt : v = t
    · subst hvt
      rw [Function.update_self, heq]
      simp [htl]
    · rw [Function.update_of_ne hvt, heq]
      simp [hvt]
  · by_cases hvt : v = t
    · subst hvt
      rw [Function.update_self]
      split_ifs with hz
      · simp [hnode, hnew, hz]
      · simp [hnotReady, hz]
    · rw [Function.update_of_ne hvt, ← h.mem_ready v]
      split_ifs
      · simp [hvt]
      · exact Iff.rfl
  · split_ifs
    · exact List.nodup_cons.mpr ⟨hnotReady,h.ready_nodup⟩
    · exact h.ready_nodup

/-- The edges of a node may be relaxed in any order. -/
theorem perm (h : Emission g indegree ready emitted targets) {targets' : List α}
    (hp : targets.Perm targets') : Emission g indegree ready emitted targets' where
  indegree_eq v hv := by simpa only [hp.mem_iff] using h.indegree_eq v hv
  mem_ready := h.mem_ready
  ready_nodup := h.ready_nodup
  emitted_mem := h.emitted_mem
  emitted_nodup := h.emitted_nodup
  forward := h.forward
  targets_nodup := hp.nodup_iff.mp h.targets_nodup
  targets_new v hv := h.targets_new v (hp.mem_iff.mpr hv)

/-- Each emission uses up a node. -/
theorem length_le (h : Emission g indegree ready emitted targets) :
    emitted.length ≤ g.nodes.length :=
  (h.emitted_nodup.subperm h.emitted_mem).length_le

/-- Predecessors of emitted nodes are emitted. -/
theorem emitted_of_reaches (h : Emission g indegree ready emitted targets) {u v : α}
    (hv : v ∈ emitted) (huv : ReflTransGen g.Edge u v) : u ∈ emitted := by
  induction huv using ReflTransGen.head_induction_on with
  | refl => exact hv
  | head hab _ ih => exact (h.forward _ _ ih hab).mem_left

theorem before_of_reaches (h : Emission g indegree ready emitted targets) {u v : α}
    (hv : v ∈ emitted) (huv : TransGen g.Edge u v) : Before emitted u v := by
  induction huv using TransGen.head_induction_on with
  | single hab => exact h.forward _ _ hv hab
  | head hab hbc ih => exact (h.forward _ _ ih.mem_left hab).trans h.emitted_nodup ih

/-- When nothing is ready, the nodes left over are exactly those below a cycle. -/
theorem emitted_iff (h : Emission g indegree [] emitted []) {v : α} (hv : v ∈ g.nodes) :
    v ∈ emitted ↔ ¬ g.BelowCycle v := by
  constructor
  · rintro hve ⟨c,hcc,hcv⟩
    have hc := h.emitted_of_reaches hve hcv
    exact (h.before_of_reaches hc hcc).ne h.emitted_nodup rfl
  · intro hbelow
    by_contra hve
    -- The ancestors of `v` that are left over would have no first element.
    let A : Set α := {u | u ∈ g.nodes ∧ u ∉ emitted ∧ ReflTransGen g.Edge u v}
    have hfin : Finite A := (g.nodes.finite_toSet.subset (fun u hu => hu.1)).to_subtype
    have hpred : ∀ u ∈ A, ∃ w ∈ A, g.Edge w u := by
      rintro u ⟨hu,hue,huv⟩
      have hne : indegree u ≠ 0 := fun hz => by
        simpa using (h.mem_ready u).mpr ⟨hu,hue,hz⟩
      have hlen : 0 < (g.waiting emitted u).length := by
        have heq := h.indegree_eq u hu
        simp only [List.not_mem_nil, if_false] at heq
        omega
      obtain ⟨w,hw⟩ := List.exists_mem_of_length_pos hlen
      obtain ⟨hwe,hwu⟩ := Graph.mem_waiting.mp hw
      exact ⟨w,⟨(g.succ_mem w u hwu).1,hwe,huv.head hwu⟩,hwu⟩
    let r : A → A → Prop := fun a b => TransGen g.Edge a b
    have hr : IsTrans A r := ⟨fun _ _ _ => TransGen.trans⟩
    have hirr : Std.Irrefl r := ⟨fun a ha => hbelow ⟨a,ha,a.2.2.2⟩⟩
    have hwf : WellFounded r := Finite.wellFounded_of_trans_of_irrefl r
    obtain ⟨m,-,hmin⟩ := hwf.has_min Set.univ ⟨⟨v,hv,hve,.refl⟩,trivial⟩
    obtain ⟨w,hw,hwm⟩ := hpred m m.2
    exact hmin ⟨w,hw⟩ trivial (.single hwm)

end Emission
end Kahn
end GcLib.Support
