import Mathlib.Tactic
import Mathlib.Data.List.TakeWhile
import Mathlib.Order.Basic

/-! # Maps with ascending keys

A finite map is the list of its entries in strictly ascending key order, which is
also its iteration order. The order is a field, so two maps with the same entries
are the same map and a floor search may stop at the first larger key.
-/

namespace GcLib.Support

/-- Entries in strictly ascending key order. -/
@[ext] structure OrderedMap (κ β : Type*) [LinearOrder κ] where
  entries : List (κ × β)
  sorted : entries.Pairwise (fun a b => a.1 < b.1)

namespace OrderedMap
variable {κ β : Type*} [LinearOrder κ]

def empty : OrderedMap κ β := ⟨[], List.Pairwise.nil⟩

instance : Inhabited (OrderedMap κ β) := ⟨empty⟩

def size (m : OrderedMap κ β) : ℕ := m.entries.length

def values (m : OrderedMap κ β) : List β := m.entries.map Prod.snd

def keys (m : OrderedMap κ β) : List κ := m.entries.map Prod.fst

def find? (m : OrderedMap κ β) (k : κ) : Option β :=
  (m.entries.find? (fun e => decide (e.1 = k))).map Prod.snd

/-- The entry with the greatest key that does not exceed `k`. -/
def floor? (m : OrderedMap κ β) (k : κ) : Option β :=
  ((m.entries.takeWhile (fun e => decide (e.1 ≤ k))).getLast?).map Prod.snd

/-- Insertion into a sorted list; an entry with the same key is kept. -/
def insertEntry (k : κ) (v : β) : List (κ × β) → List (κ × β)
  | [] => [(k,v)]
  | e :: es => if k < e.1 then (k,v) :: e :: es else
      if e.1 = k then e :: es else e :: insertEntry k v es

theorem mem_insertEntry {k : κ} {v : β} {es : List (κ × β)} {e : κ × β}
    (he : e ∈ insertEntry k v es) : e = (k,v) ∨ e ∈ es := by
  induction es with
  | nil => simpa [insertEntry] using he
  | cons a es ih =>
    rw [insertEntry] at he
    split_ifs at he with h₁ h₂
    · simpa using he
    · exact Or.inr he
    · rcases List.mem_cons.mp he with rfl | he
      · exact Or.inr List.mem_cons_self
      · exact (ih he).imp id (List.mem_cons_of_mem _)

theorem insertEntry_sorted (k : κ) (v : β) {es : List (κ × β)}
    (hs : es.Pairwise (fun a b => a.1 < b.1)) :
    (insertEntry k v es).Pairwise (fun a b => a.1 < b.1) := by
  induction es with
  | nil => simp [insertEntry]
  | cons a es ih =>
    obtain ⟨ha,hes⟩ := List.pairwise_cons.mp hs
    rw [insertEntry]
    split_ifs with h₁ h₂
    · refine List.pairwise_cons.mpr ⟨?_,hs⟩
      intro b hb
      rcases List.mem_cons.mp hb with rfl | hb
      · exact h₁
      · exact h₁.trans (ha b hb)
    · exact hs
    · refine List.pairwise_cons.mpr ⟨?_,ih hes⟩
      intro b hb
      rcases mem_insertEntry hb with rfl | hb
      · exact lt_of_le_of_ne (not_lt.mp h₁) h₂
      · exact ha b hb

/-- Insertion that leaves an existing entry alone. -/
def emplace (m : OrderedMap κ β) (k : κ) (v : β) : OrderedMap κ β :=
  ⟨insertEntry k v m.entries, insertEntry_sorted k v m.sorted⟩

/-- Rewrite the value stored under one key; the keys stay as they are. -/
def modify (m : OrderedMap κ β) (k : κ) (f : β → β) : OrderedMap κ β where
  entries := m.entries.map (fun e => (e.1, if e.1 = k then f e.2 else e.2))
  sorted := m.sorted.map _ (fun _ _ h => h)

def erase (m : OrderedMap κ β) (k : κ) : OrderedMap κ β where
  entries := m.entries.filter (fun e => decide (e.1 ≠ k))
  sorted := m.sorted.filter _

@[simp] theorem entries_empty : (empty : OrderedMap κ β).entries = [] := rfl

theorem size_eq_length_values (m : OrderedMap κ β) : m.size = m.values.length := by
  simp [size, values]

theorem keys_nodup (m : OrderedMap κ β) : m.keys.Nodup :=
  List.Pairwise.map _ (fun _ _ h => ne_of_lt h) m.sorted

theorem entries_nodup (m : OrderedMap κ β) : m.entries.Nodup :=
  m.sorted.imp (fun h he => absurd (congrArg Prod.fst he) (ne_of_lt h))

theorem mem_values {m : OrderedMap κ β} {v : β} : v ∈ m.values ↔ ∃ k, (k,v) ∈ m.entries := by
  simp [values]

theorem value_unique (m : OrderedMap κ β) {k : κ} {v w : β} (hv : (k,v) ∈ m.entries)
    (hw : (k,w) ∈ m.entries) : v = w := by
  have h := List.inj_on_of_nodup_map m.keys_nodup hv hw rfl
  exact congrArg Prod.snd h

theorem find?_eq_some {m : OrderedMap κ β} {k : κ} {v : β} :
    m.find? k = some v ↔ (k,v) ∈ m.entries := by
  constructor
  · intro h
    obtain ⟨e,he,rfl⟩ := Option.map_eq_some_iff.mp h
    have hk : e.1 = k := by simpa using List.find?_some he
    exact hk ▸ List.mem_of_find?_eq_some he
  · intro h
    cases hf : m.entries.find? (fun e => decide (e.1 = k)) with
    | none => simpa using List.find?_eq_none.mp hf _ h
    | some e =>
      have hk : e.1 = k := by simpa using List.find?_some hf
      have he : (k,e.2) ∈ m.entries := hk ▸ List.mem_of_find?_eq_some hf
      simp [find?, hf, m.value_unique he h]

theorem find?_eq_none {m : OrderedMap κ β} {k : κ} :
    m.find? k = none ↔ ∀ v, (k,v) ∉ m.entries := by
  constructor
  · intro h v hv
    rw [find?_eq_some.mpr hv] at h
    exact absurd h (by simp)
  · intro h
    cases hf : m.find? k with
    | none => rfl
    | some v => exact absurd (find?_eq_some.mp hf) (h v)

/-- The floor entry is the last one at or below the probe. -/
theorem floor?_eq_some {m : OrderedMap κ β} {a : κ} {v : β} :
    m.floor? a = some v ↔
      ∃ k, (k,v) ∈ m.entries ∧ k ≤ a ∧ ∀ e ∈ m.entries, e.1 ≤ a → e.1 ≤ k := by
  obtain ⟨es,hs⟩ := m
  simp only [floor?]
  induction es with
  | nil => simp
  | cons e es ih =>
    obtain ⟨he,hes⟩ := List.pairwise_cons.mp hs
    have ih := ih hes
    by_cases hea : e.1 ≤ a
    · simp only [List.takeWhile_cons, hea, decide_true, ite_true]
      cases hl : es.takeWhile (fun e => decide (e.1 ≤ a)) with
      | nil =>
        have hall : ∀ b ∈ es, ¬ b.1 ≤ a := by
          intro b hb hba
          cases es with
          | nil => simp at hb
          | cons c es =>
            have hc : ¬ c.1 ≤ a := by
              intro hca
              simp [hca] at hl
            rcases List.mem_cons.mp hb with rfl | hb
            · exact hc hba
            · exact hc (((List.pairwise_cons.mp hes).1 b hb).le.trans hba)
        simp only [List.getLast?_singleton, Option.map_some, Option.some.injEq]
        constructor
        · rintro rfl
          refine ⟨e.1,List.mem_cons_self,hea,?_⟩
          intro b hb hba
          rcases List.mem_cons.mp hb with rfl | hb
          · exact le_rfl
          · exact absurd hba (hall b hb)
        · rintro ⟨k,hk,hka,-⟩
          rcases List.mem_cons.mp hk with h | h
          · rw [← h]
          · exact absurd hka (hall _ h)
      | cons b bs =>
        rw [hl] at ih
        rw [List.getLast?_cons_cons, ih]
        have hb : b ∈ es ∧ b.1 ≤ a := by
          have hm : b ∈ es.takeWhile (fun e => decide (e.1 ≤ a)) := by rw [hl]; simp
          exact ⟨List.takeWhile_subset _ hm, by simpa using List.mem_takeWhile_imp hm⟩
        constructor
        · rintro ⟨k,hk,hka,hmax⟩
          refine ⟨k,List.mem_cons_of_mem _ hk,hka,?_⟩
          intro c hc hca
          rcases List.mem_cons.mp hc with rfl | hc
          · exact (he _ hk).le
          · exact hmax c hc hca
        · rintro ⟨k,hk,hka,hmax⟩
          refine ⟨k,?_,hka,fun c hc => hmax c (List.mem_cons_of_mem _ hc)⟩
          rcases List.mem_cons.mp hk with h | h
          · have hle := hmax b (List.mem_cons_of_mem _ hb.1) hb.2
            have hlt : k < b.1 := by rw [show k = e.1 by rw [← h]]; exact he b hb.1
            exact absurd hle (not_le.mpr hlt)
          · exact h
    · have hall : ∀ b ∈ e :: es, ¬ b.1 ≤ a := by
        intro b hb hba
        rcases List.mem_cons.mp hb with rfl | hb
        · exact hea hba
        · exact hea ((he b hb).le.trans hba)
      simp only [List.takeWhile_cons, hea, decide_false, Bool.false_eq_true, ite_false,
        List.getLast?_nil, Option.map_none, reduceCtorEq, false_iff]
      rintro ⟨k,hk,hka,-⟩
      exact hall _ hk hka

theorem floor?_eq_none {m : OrderedMap κ β} {a : κ} :
    m.floor? a = none ↔ ∀ e ∈ m.entries, a < e.1 := by
  obtain ⟨es,hs⟩ := m
  simp only [floor?, Option.map_eq_none_iff, List.getLast?_eq_none_iff]
  cases es with
  | nil => simp
  | cons e es =>
    obtain ⟨he,-⟩ := List.pairwise_cons.mp hs
    by_cases hea : e.1 ≤ a
    · simp only [List.takeWhile_cons, hea, decide_true, ite_true, reduceCtorEq, false_iff]
      intro h
      exact absurd (h e List.mem_cons_self) (not_lt.mpr hea)
    · simp only [List.takeWhile_cons, hea, decide_false, Bool.false_eq_true, ite_false, true_iff]
      intro b hb
      rcases List.mem_cons.mp hb with rfl | hb
      · exact not_le.mp hea
      · exact (not_le.mp hea).trans (he b hb)

/-- When entries stand for disjoint ranges, the floor search finds the range around a probe. -/
theorem floor?_of_range {m : OrderedMap κ β} (hi : β → κ)
    (hdisj : ∀ e ∈ m.entries, ∀ e' ∈ m.entries, e.1 < e'.1 → hi e.2 ≤ e'.1) {k a : κ} {v : β}
    (hv : (k,v) ∈ m.entries) (hk : k ≤ a) (ha : a < hi v) : m.floor? a = some v := by
  cases hf : m.floor? a with
  | none => exact absurd hk (not_le.mpr (floor?_eq_none.mp hf _ hv))
  | some w =>
    obtain ⟨k',hk',hka,hmax⟩ := floor?_eq_some.mp hf
    have hle : k ≤ k' := hmax _ hv hk
    rcases hle.lt_or_eq with hlt | rfl
    · exact absurd ((hdisj _ hv _ hk' hlt).trans hka) (not_le.mpr ha)
    · rw [m.value_unique hk' hv]

theorem emplace_perm {m : OrderedMap κ β} {k : κ} {v : β} (hk : m.find? k = none) :
    (m.emplace k v).entries.Perm ((k,v) :: m.entries) := by
  obtain ⟨es,hs⟩ := m
  replace hk : ∀ v, (k,v) ∉ es := find?_eq_none.mp hk
  change (insertEntry k v es).Perm ((k,v) :: es)
  clear hs
  induction es with
  | nil => exact List.Perm.refl _
  | cons e es ih =>
    rw [insertEntry]
    split_ifs with h₁ h₂
    · exact List.Perm.refl _
    · exact absurd List.mem_cons_self (h₂ ▸ hk e.2)
    · have h := ih (fun w hw => hk w (List.mem_cons_of_mem _ hw))
      exact (h.cons e).trans (List.Perm.swap _ _ _)

theorem mem_emplace {m : OrderedMap κ β} {k : κ} {v : β} {e : κ × β} (hk : m.find? k = none) :
    e ∈ (m.emplace k v).entries ↔ e = (k,v) ∨ e ∈ m.entries := by
  rw [(emplace_perm hk).mem_iff, List.mem_cons]

theorem find?_emplace {m : OrderedMap κ β} {k : κ} {v : β} (hk : m.find? k = none) (k' : κ) :
    (m.emplace k v).find? k' = if k' = k then some v else m.find? k' := by
  split_ifs with h
  · exact find?_eq_some.mpr ((mem_emplace hk).mpr (Or.inl (by rw [h])))
  · cases hf : m.find? k' with
    | none =>
      refine find?_eq_none.mpr (fun w hw => ?_)
      rcases (mem_emplace hk).mp hw with he | he
      · exact h (congrArg Prod.fst he)
      · exact find?_eq_none.mp hf w he
    | some w => exact find?_eq_some.mpr ((mem_emplace hk).mpr (Or.inr (find?_eq_some.mp hf)))

theorem emplace_of_mem {m : OrderedMap κ β} {k : κ} {v w : β} (h : m.find? k = some w) :
    m.emplace k v = m := by
  obtain ⟨es,hs⟩ := m
  replace h : (k,w) ∈ es := find?_eq_some.mp h
  refine OrderedMap.ext ?_
  change insertEntry k v es = es
  induction es with
  | nil => cases h
  | cons e es ih =>
    obtain ⟨he,hes⟩ := List.pairwise_cons.mp hs
    rw [insertEntry]
    rcases List.mem_cons.mp h with rfl | h
    · simp
    · have hlt := he _ h
      rw [if_neg (not_lt.mpr hlt.le), if_neg (ne_of_lt hlt), ih hes h]

theorem mem_modify {m : OrderedMap κ β} {k : κ} {f : β → β} {e : κ × β} :
    e ∈ (m.modify k f).entries ↔
      ∃ v, (e.1,v) ∈ m.entries ∧ e.2 = if e.1 = k then f v else v := by
  simp only [modify, List.mem_map, Prod.exists]
  constructor
  · rintro ⟨a,v,h,rfl⟩
    exact ⟨v,h,rfl⟩
  · rintro ⟨v,h,hv⟩
    exact ⟨e.1,v,h,Prod.ext rfl hv.symm⟩

theorem find?_modify (m : OrderedMap κ β) (k : κ) (f : β → β) (k' : κ) :
    (m.modify k f).find? k' = if k' = k then (m.find? k').map f else m.find? k' := by
  cases hf : m.find? k' with
  | none =>
    have h : (m.modify k f).find? k' = none := by
      refine find?_eq_none.mpr (fun w hw => ?_)
      obtain ⟨v,hv,-⟩ := mem_modify.mp hw
      exact find?_eq_none.mp hf v hv
    simp [h]
  | some v =>
    have hv := find?_eq_some.mp hf
    split_ifs with h
    · exact find?_eq_some.mpr (mem_modify.mpr ⟨v,hv,by simp [h]⟩)
    · exact find?_eq_some.mpr (mem_modify.mpr ⟨v,hv,by simp [h]⟩)

/-- Rewriting a new entry is inserting the rewritten one. -/
theorem modify_emplace {m : OrderedMap κ β} {k : κ} {v : β} (f : β → β) (hk : m.find? k = none) :
    (m.emplace k v).modify k f = m.emplace k (f v) := by
  obtain ⟨es,hs⟩ := m
  replace hk : ∀ w, (k,w) ∉ es := find?_eq_none.mp hk
  refine OrderedMap.ext ?_
  change (insertEntry k v es).map (fun e => (e.1,if e.1 = k then f e.2 else e.2)) =
    insertEntry k (f v) es
  clear hs
  have hsame : ∀ l : List (κ × β), (∀ w, (k,w) ∉ l) →
      l.map (fun e => (e.1,if e.1 = k then f e.2 else e.2)) = l := by
    intro l hl
    conv_rhs => rw [← List.map_id l]
    refine List.map_congr_left (fun e he => ?_)
    rw [if_neg]
    · rfl
    · rintro rfl
      exact hl e.2 he
  induction es with
  | nil => simp [insertEntry]
  | cons e es ih =>
    have hes : ∀ w, (k,w) ∉ es := fun w hw => hk w (List.mem_cons_of_mem _ hw)
    have hne : e.1 ≠ k := by
      rintro rfl
      exact hk e.2 List.mem_cons_self
    rw [insertEntry, insertEntry]
    split_ifs with h₁
    · rw [List.map_cons, hsame _ hk]
      simp
    · rw [List.map_cons, ih hes, if_neg hne]

theorem mem_erase {m : OrderedMap κ β} {k : κ} {e : κ × β} :
    e ∈ (m.erase k).entries ↔ e ∈ m.entries ∧ e.1 ≠ k := by
  simp [erase]

theorem find?_erase (m : OrderedMap κ β) (k k' : κ) :
    (m.erase k).find? k' = if k' = k then none else m.find? k' := by
  split_ifs with h
  · exact find?_eq_none.mpr (fun w hw => (mem_erase.mp hw).2 h)
  · cases hf : m.find? k' with
    | none =>
      exact find?_eq_none.mpr (fun w hw => find?_eq_none.mp hf w (mem_erase.mp hw).1)
    | some v => exact find?_eq_some.mpr (mem_erase.mpr ⟨find?_eq_some.mp hf,h⟩)

end OrderedMap
end GcLib.Support
