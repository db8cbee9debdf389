import GcLib.Protocol.Changes

/-! # Blocks under construction

A block under construction keeps its record until its construction is finished or withdrawn,
whatever the threads do in between.
-/

namespace GcLib.Protocol
open GcLib.Heap GcLib.Support Relation

/-- Some thread is inside `finish_construction` or `release_unconstructed` for a payload. -/
def Unpins (payload : ℕ) (w : World) : Prop :=
  ∃ thread stage rest,
    w.control thread = .entering (.call (.finishConstruction payload)) stage :: rest ∨
      w.control thread = .entering (.call (.releaseUnconstructed payload)) stage :: rest

/-- A thread is inside `finish_construction` or `release_unconstructed` for a payload. -/
def UnpinsBy (thread : ThreadId) (payload : ℕ) (w : World) : Prop :=
  ∃ stage rest,
    w.control thread = .entering (.call (.finishConstruction payload)) stage :: rest ∨
      w.control thread = .entering (.call (.releaseUnconstructed payload)) stage :: rest

/-- A frame of `finish_construction` or `release_unconstructed` for a payload. -/
def Frame.unpins (payload : ℕ) : Frame → Bool
  | .entering (.call (.finishConstruction pointer)) _ => pointer = payload
  | .entering (.call (.releaseUnconstructed pointer)) _ => pointer = payload
  | _ => false

theorem unpinsBy_iff {thread : ThreadId} {payload : ℕ} {w : World} :
    UnpinsBy thread payload w ↔ (w.control thread).head?.any (Frame.unpins payload) = true := by
  unfold UnpinsBy
  cases w.control thread with
  | nil => simp
  | cons frame rest =>
    simp only [List.head?_cons, Option.any_some]
    unfold Frame.unpins
    split <;> simp_all

instance (thread : ThreadId) (payload : ℕ) (w : World) : Decidable (UnpinsBy thread payload w) :=
  decidable_of_iff _ unpinsBy_iff.symm

/-- A step taken while nobody finishes or withdraws the construction of a payload. -/
def PinnedStep (payload : ℕ) (w w' : World) : Prop := Steps step w w' ∧ ¬ Unpins payload w

section
variable {w w' : World} {label : Label} {b : BlockRecord}

/-- Registration zeroes the payload before it inserts the record. -/
theorem registered_zeroed (h : ReachableWorld w) {header : ℕ} {constructing : Bool} {stage : Stage}
    {rest : List Frame}
    (hc : w.control label.thread = .entering (.publish header constructing) stage :: rest)
    (hstep : step label w = some w') (hr : header ∈ registered w'.state) :
    ∃ b ∈ w'.state.allocations.values, b.header = header ∧ b.constructing = constructing ∧
      ∀ x, b.payloadBegin ≤ x → x < b.payloadEnd → w'.state.memory x = 0 := by
  have hnew := (h.invariant.ownership.registrable hc).new
  have hold : ∀ {s : State}, s.allocations = w.state.allocations → header ∉ registered s := by
    intro s ha hmem
    obtain ⟨b,hb,he⟩ := mem_registered.mp hmem
    exact hnew b (ha ▸ hb) he
  cases h.heapChange hstep with
  | quiet ha => exact absurd hr (hold ha)
  | window hc' =>
    rw [hc] at hc'
    cases hc'
  | «section» hc' hco he hctl' hl =>
    clear hl
    rw [hc] at hc'
    cases hc'
    have hheap := hco.sameHeap.heapInvariant h.invariant.heap
    obtain ⟨⟨chunk,hchunk⟩,hnew'⟩ := hco.registrable h.invariant.ownership hc _ _ rfl
    generalize w'.state = s' at he
    cases he with
    | publish hreg hm ht =>
      rename_i s
      refine ⟨_,(hheap.publish_values hchunk hnew' constructing).mem_iff.mpr List.mem_cons_self,rfl,
        rfl,fun x hlo hhi => ?_⟩
      change s.memory.writeBytes (s.payloadBegin header) 0 (s.header header).size x = 0
      simp only [Memory.writeBytes, if_pos (And.intro hlo hhi), Nat.zero_div]
      rfl

theorem kept_by_window {thread : ThreadId} {env : ScanEnvironment} {s s' : State}
    {call : WindowCall} {blocks : List ℕ}
    (he : WindowEffect thread env s call (.destroy blocks) s') (hinv : HeapInvariant s)
    (hb : b ∈ s.allocations.values) (hc : b.constructing = true) : b ∈ s'.allocations.values := by
  cases he with
  | collect hcollected => exact (hcollected.mem_values hinv b).mpr ⟨b,⟨hb,Or.inl hc⟩,.refl⟩
  | shutdown hnone =>
    rw [hnone b hb] at hc
    cases hc

theorem pinned_step_by (h : ReachableWorld w) (hb : b ∈ w.state.allocations.values)
    (hc : b.constructing = true) (hpin : ¬ UnpinsBy label.thread b.payloadBegin w)
    (hstep : step label w = some w') : b ∈ w'.state.allocations.values := by
  cases h.heapChange hstep with
  | quiet ha => exact ha ▸ hb
  | «section» hctl hco he hctl' hl =>
    rename_i code stage rest s next
    have hs := hco.sameHeap
    have hheap := hs.heapInvariant h.invariant.heap
    have hpublish := hco.registrable h.invariant.ownership hctl
    have hbs : b ∈ s.allocations.values := hs.allocations ▸ hb
    have hentry := hheap.entry_mem hbs
    generalize w'.state = s' at he ⊢
    cases he with
    | publish hreg hm ht =>
      obtain ⟨⟨chunk,hchunk⟩,hnew⟩ := hpublish _ _ rfl
      exact (hheap.publish_values hchunk hnew _).mem_iff.mpr (List.mem_cons_of_mem _ hbs)
    | finish hf =>
      rename_i payload block
      have hne : b.payloadBegin ≠ payload := by
        rintro rfl
        exact hpin ⟨_,_,Or.inl hctl⟩
      exact OrderedMap.mem_values.mpr
        ⟨_,OrderedMap.mem_modify.mpr ⟨b,hentry,(if_neg hne).symm⟩⟩
    | release hreg hf =>
      rename_i payload block
      have hmem := OrderedMap.find?_eq_some.mp hf
      have hlive : block ∈ s.allocations.values := OrderedMap.mem_values.mpr ⟨_,hmem⟩
      have hremoved := HeapInvariant.removed_removeBlock s block
      refine (hremoved.mem_values hheap (by simpa using hlive)).mpr ⟨hbs,?_⟩
      rw [List.mem_singleton]
      rintro rfl
      have hkey := hheap.key _ _ hmem
      subst hkey
      exact hpin ⟨_,_,Or.inr hctl⟩
    | _ => exact hbs
  | window hctl he => exact kept_by_window he h.invariant.heap hb hc

theorem pinned_step (h : ReachableWorld w) (hb : b ∈ w.state.allocations.values)
    (hc : b.constructing = true) (hpin : ¬ Unpins b.payloadBegin w)
    (hstep : step label w = some w') : b ∈ w'.state.allocations.values :=
  pinned_step_by h hb hc (fun ⟨stage,rest,hu⟩ => hpin ⟨_,stage,rest,hu⟩) hstep

theorem pinned_run (h : ReachableWorld w) (hb : b ∈ w.state.allocations.values)
    (hc : b.constructing = true) (hsteps : ReflTransGen (PinnedStep b.payloadBegin) w w') :
    ReachableWorld w' ∧ b ∈ w'.state.allocations.values := by
  induction hsteps with
  | refl => exact ⟨h,hb⟩
  | tail _ hstep ih =>
    obtain ⟨⟨label,hstep⟩,hpin⟩ := hstep
    exact ⟨ih.1.step hstep,pinned_step ih.1 ih.2 hc hpin hstep⟩

end
end GcLib.Protocol
