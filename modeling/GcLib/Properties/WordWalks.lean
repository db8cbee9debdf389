import GcLib.Heap.WordWalks
import GcLib.Protocol.Windows

/-! # Word walks

`scan_words` reads exactly the aligned complete words between its endpoints and never
wraps. The three payload loops of the collector read the same words, unless the
payload ends in the last eight bytes of the address space: there the sum in their
condition wraps, and they run past the payload for ever.
-/

namespace GcLib.Properties
open GcLib.Heap GcLib.Support GcLib.Protocol

variable {α : Type}

/-- A visitor that always ends, and fails only with an allocation. -/
def Total (visitor : α → ℕ → M α) : Prop :=
  ∀ a word s, (visitor a word).Terminates s (fun _ _ => True) (fun _ _ => True)

theorem Total.foldlM {visitor : α → ℕ → M α} (h : Total visitor) (addresses : List ℕ) (a : α)
    (s : State) : (addresses.foldlM (visitWord visitor) a).Terminates s (fun _ _ => True)
      (fun _ _ => True) :=
  Exec.terminates_foldlM (I := fun _ _ _ => True)
    (fun _ _ _ _ _ => Exec.terminates_bind (Exec.terminates_get (h _ _ _))) addresses trivial

theorem not_diverges {β : Type} {m : M β} {s : State} {Q : β → State → Prop}
    {E : GCError → State → Prop} (h : m.Terminates s Q E) (supply : Supply) :
    m s supply ≠ .diverges := by
  rcases h.returns_or_throws supply with ⟨a,s',left,hrun,-⟩ | ⟨e,s',hrun,-⟩ <;> simp [hrun]

/-- Between two addresses in either order the root scanner visits each aligned complete word once,
in ascending order, and none of its sums and differences wraps. -/
theorem scan_words_exact {begin_ end_ : ℕ} (hb₀ : begin_ ≠ 0) (he₀ : end_ ≠ 0)
    (hb : begin_ < addressLimit) (he : end_ < addressLimit) :
    let words := alignedWords (min begin_ end_) (max begin_ end_)
    (∀ x, x ∈ words ↔ x % wordSize = 0 ∧ min begin_ end_ ≤ x ∧ x+wordSize ≤ max begin_ end_) ∧
    words.Pairwise (· < ·) ∧
    ∃ fuel₀, ∀ fuel ≥ fuel₀, ∀ (visitor : α → ℕ → M α) a s supply,
      scanWords fuel begin_ end_ visitor a s supply =
        words.foldlM (visitWord visitor) a s supply ∧
      scanWordsWithin fuel begin_ end_ visitor a s supply =
        words.foldlM (visitWord visitor) a s supply ∧
      scanRange fuel begin_ end_ visitor a s supply =
        words.foldlM (visitWord visitor) a s supply ∧
      scanThreadStack fuel begin_ end_ visitor a s supply =
        words.foldlM (visitWord visitor) a s supply ∧
      (Total visitor → scanWords fuel begin_ end_ visitor a s supply ≠ .diverges) := by
  intro words
  refine ⟨fun x => mem_alignedWords,alignedWords_pairwise _ _,
    max begin_ end_-min begin_ end_+1,fun fuel hfuel visitor a s supply => ?_⟩
  have hscan : scanWords fuel begin_ end_ visitor a = words.foldlM (visitWord visitor) a :=
    scanWords_eq_foldlM hb₀ he₀ hb he (by simp only [wordSize]; omega)
  have hstack : scanThreadStack fuel begin_ end_ visitor a =
      scanWords fuel begin_ end_ visitor a := if_neg (by simp [hb₀,he₀])
  refine ⟨by rw [hscan],by rw [← scanWords_within hb he, hscan],by rw [scanRange, hscan],
    by rw [hstack, hscan],fun ht => ?_⟩
  rw [hscan]
  exact not_diverges (ht.foldlM words a s) supply

/-- A range at the top of the address space with an unaligned start holds one word. -/
theorem scan_words_exact_top : ∃ fuel₀, ∀ fuel ≥ fuel₀,
    ∀ (visitor : ℕ → ℕ → M ℕ) a s supply,
      scanWords fuel 18446744073709551615 18446744073709551599 visitor a s supply =
        [18446744073709551600].foldlM (visitWord visitor) a s supply := by
  obtain ⟨fuel₀,h⟩ := (@scan_words_exact ℕ 18446744073709551615 18446744073709551599
    (by decide) (by decide) (by decide) (by decide)).2.2
  refine ⟨fuel₀,fun fuel hfuel visitor a s supply => ?_⟩
  exact (h fuel hfuel visitor a s supply).1.trans (by
    rw [show alignedWords _ _ = [18446744073709551600] by decide])

/-! ## The payload loops -/

/-- A visitor that also keeps the words it was shown. -/
def recorded (visitor : α → ℕ → M α) (a : α × List ℕ) (word : ℕ) : M (α × List ℕ) := do
  let value ← visitor a.1 word
  pure (value,a.2 ++ [word])

/-- What `collect_outgoing_references_locked` does with a word. -/
def noteReference (block : BlockRecord) (references : Vec ℕ) (candidate : ℕ) : M (Vec ℕ) := do
  let s ← Exec.get
  match s.findBlockLocked candidate with
  | none => pure references
  | some target =>
    if target = block then pure references
    else
      let payload := s.payloadBegin target.header
      if payload ∈ references.items then pure references
      else references.pushBack .badAlloc payload

/-- The walk over a payload ends, does what `scan_range` does, and shows its visitor the same words
in the same order: the complete words of the payload. -/
def AgreesWithScanRange (visitor : α → ℕ → M α) (block : BlockRecord) : Prop :=
  ∃ fuel₀, ∀ fuel ≥ fuel₀, ∀ a s supply,
    let walk := payloadWalk fuel block (recorded visitor) a s supply
    walk ≠ .diverges ∧
    payloadWalk fuel block visitor a.1 s supply =
      scanRange fuel block.payloadBegin block.payloadEnd visitor a.1 s supply ∧
    walk = scanRange fuel block.payloadBegin block.payloadEnd (recorded visitor) a s supply ∧
    walk = (alignedWords block.payloadBegin block.payloadEnd).foldlM
      (visitWord (recorded visitor)) a s supply

/-- The payload ends below the last eight bytes of the address space, and a null payload, which
the root scanner refuses, has no word. -/
def EndsBelowLimit (block : BlockRecord) : Prop :=
  block.payloadEnd+wordSize < addressLimit ∧
    (block.payloadBegin = 0 → block.payloadEnd < wordSize)

theorem scanPayloadLocked_eq_walk (fuel : ℕ) (block : BlockRecord) (worklist : Worklist) :
    scanPayloadLocked fuel block worklist =
      payloadWalk fuel block markCandidateLocked worklist := rfl

theorem collectOutgoingReferencesLocked_eq_walk (fuel : ℕ) (block : BlockRecord) :
    collectOutgoingReferencesLocked fuel block = (do
      let references ← payloadWalk fuel block (noteReference block) {}
      pure references.items.reverse) := rfl

theorem collectEdges_eq_walk (fuel : ℕ) (blocks : List BlockRecord)
    (indexByBegin : OrderedMap ℕ ℕ) :
    collectEdges fuel blocks indexByBegin = (List.range blocks.length).foldlM
      (fun graph sourceIndex => payloadWalk fuel (blockAt blocks sourceIndex)
        (recordReference blocks indexByBegin sourceIndex) graph) ⟨fun _ => {},fun _ => 0⟩ := rfl

section
variable {visitor : α → ℕ → M α} {block : BlockRecord}

theorem Total.recorded (h : Total visitor) : Total (recorded visitor) := fun a word s =>
  Exec.terminates_bind ((h a.1 word s).mono (fun _ _ _ => Exec.terminates_pure trivial)
    (fun _ _ => id))

theorem Total.not_throws (h : Total visitor) (payloadEnd fuel : ℕ) :
    ∀ cur a s e s', forPayloadWords payloadEnd (visitWord visitor) fuel cur a s none ≠
      .throws e s' := by
  induction fuel with
  | zero => exact fun _ _ _ _ _ hrun => by cases hrun
  | succ fuel ih =>
    intro cur a s e s' hrun
    rw [forPayloadWords] at hrun
    split_ifs at hrun
    obtain ⟨a',s₁,hbody,-⟩ := (h a (readWord s.memory cur) s).returns
    have hvisit : visitWord visitor a cur s none = .returns a' s₁ none := hbody
    rw [Exec.bind_run, hvisit] at hrun
    exact ih _ _ _ _ _ hrun

/-- A walk that would have to leave the last word of the address space never ends. -/
theorem Total.diverges (h : Total visitor) (haligned : block.payloadBegin % wordSize = 0)
    (hend : addressLimit ≤ block.payloadEnd+wordSize) (fuel : ℕ) (a : α) (s : State) :
    payloadWalk fuel block visitor a s none = .diverges := by
  have hnever := forPayloadWords_never_returns (visitWord visitor) hend fuel (a := a) (s := s)
    haligned
  cases hrun : payloadWalk fuel block visitor a s none with
  | returns a' s' left => exact (hnever.returns hrun).elim
  | throws e s' => exact absurd hrun (h.not_throws _ _ _ _ _ _ _)
  | diverges => rfl

theorem payloadWalk_eq_foldlM {fuel : ℕ} (haligned : block.payloadBegin % wordSize = 0)
    (hlt : block.payloadBegin < block.payloadEnd) (hends : EndsBelowLimit block)
    (hfuel : block.payloadEnd < fuel) (visitor : α → ℕ → M α) (a : α) :
    payloadWalk fuel block visitor a =
      (alignedWords block.payloadBegin block.payloadEnd).foldlM (visitWord visitor) a :=
  forPayloadWords_eq_foldlM hends.1 fuel (by simp only [wordSize]; omega) haligned hlt.le

theorem scanRange_eq_foldlM {fuel : ℕ} (haligned : block.payloadBegin % wordSize = 0)
    (hlt : block.payloadBegin < block.payloadEnd) (hends : EndsBelowLimit block)
    (hfuel : block.payloadEnd < fuel) (visitor : α → ℕ → M α) (a : α) :
    scanRange fuel block.payloadBegin block.payloadEnd visitor a =
      (alignedWords block.payloadBegin block.payloadEnd).foldlM (visitWord visitor) a := by
  obtain ⟨hlimit,hnull⟩ := hends
  by_cases h₀ : block.payloadBegin = 0
  · have hshort := hnull h₀
    rw [scanRange, scanWords, if_pos (Or.inl h₀), alignedWords_eq_nil haligned (by omega)]
    rfl
  · rw [scanRange, scanWords_eq_foldlM h₀ (by omega) (by omega) (by omega)
      (by rw [max_eq_right hlt.le, min_eq_left hlt.le]; simp only [wordSize]; omega),
      max_eq_right hlt.le, min_eq_left hlt.le]

theorem agreesWithScanRange_of (h : Total visitor)
    (haligned : block.payloadBegin % wordSize = 0) (hlt : block.payloadBegin < block.payloadEnd)
    (hends : EndsBelowLimit block) : AgreesWithScanRange visitor block := by
  refine ⟨block.payloadEnd+1,fun fuel hfuel a s supply => ?_⟩
  have hwalk := payloadWalk_eq_foldlM haligned hlt hends hfuel (recorded visitor) a
  have hscan := scanRange_eq_foldlM haligned hlt hends hfuel (recorded visitor) a
  refine ⟨?_,?_,by rw [hwalk, hscan],by rw [hwalk]⟩
  · rw [hwalk]
    exact not_diverges (h.recorded.foldlM _ a s) supply
  · rw [payloadWalk_eq_foldlM haligned hlt hends hfuel visitor,
      scanRange_eq_foldlM haligned hlt hends hfuel visitor]

theorem endsBelowLimit_of (h : Total visitor) (haligned : block.payloadBegin % wordSize = 0)
    (a : α) (hagrees : AgreesWithScanRange visitor block) : EndsBelowLimit block := by
  obtain ⟨fuel₀,hagrees⟩ := hagrees
  obtain ⟨hend,-,hscan,hfold⟩ := hagrees fuel₀ le_rfl (a,[]) (.initial fun _ => 0) none
  constructor
  · by_contra hlimit
    exact hend (h.recorded.diverges haligned (not_lt.mp hlimit) _ _ _)
  · intro h₀
    by_contra hword
    have hempty : scanRange fuel₀ block.payloadBegin block.payloadEnd (recorded visitor) (a,[])
        (.initial fun _ => 0) none = .returns (a,[]) (.initial fun _ => 0) none := by
      rw [scanRange, scanWords, if_pos (Or.inl h₀)]
      rfl
    have hcount : ∀ (l : List ℕ) (p : α × List ℕ) (s : State),
        (l.foldlM (visitWord (recorded visitor)) p).Meets s
          (fun q _ => q.2.length = p.2.length+l.length) (fun _ _ => True) := by
      intro l p s
      refine (Exec.meets_foldlM (I := fun rest (q : α × List ℕ) _ =>
        q.2.length+rest.length = p.2.length+l.length) ?_ l rfl).mono
        (fun q _ hq => by simpa using hq) (fun _ _ => id)
      intro c rest q s' hq
      refine Exec.meets_bind (Exec.meets_get (Exec.meets_bind ?_))
      intro supply
      cases visitor q.1 (readWord s'.memory c) s' supply with
      | returns a' s₁ left =>
        refine Exec.meets_pure ?_
        simp only [List.length_append, List.length_cons, List.length_nil] at *
        omega
      | throws e s₁ => trivial
      | diverges => trivial
    rw [hscan, hempty] at hfold
    have hlength := (hcount _ _ _).returns hfold.symm
    rw [alignedWords_eq_cons haligned (by omega)] at hlength
    simp at hlength

theorem agreesWithScanRange_iff (h : Total visitor)
    (haligned : block.payloadBegin % wordSize = 0) (hlt : block.payloadBegin < block.payloadEnd)
    (a : α) : AgreesWithScanRange visitor block ↔ EndsBelowLimit block :=
  ⟨endsBelowLimit_of h haligned a,agreesWithScanRange_of h haligned hlt⟩

end

theorem total_markCandidateLocked : Total markCandidateLocked := by
  intro worklist word s
  refine Exec.terminates_bind (Exec.terminates_get ?_)
  cases s.findBlockLocked word with
  | none => exact Exec.terminates_pure trivial
  | some block =>
    dsimp only
    split_ifs
    · exact Exec.terminates_pure trivial
    · exact Exec.terminates_bind (Exec.terminates_modify
        (Vec.terminates_pushBack (fun _ => trivial) trivial))

theorem total_noteReference (block : BlockRecord) : Total (noteReference block) := by
  intro references word s
  refine Exec.terminates_bind (Exec.terminates_get ?_)
  cases s.findBlockLocked word with
  | none => exact Exec.terminates_pure trivial
  | some target =>
    dsimp only
    split_ifs
    · exact Exec.terminates_pure trivial
    · exact Exec.terminates_pure trivial
    · exact Vec.terminates_pushBack (fun _ => trivial) trivial

theorem total_recordReference (blocks : List BlockRecord) (indexByBegin : OrderedMap ℕ ℕ)
    (sourceIndex : ℕ) : Total (recordReference blocks indexByBegin sourceIndex) :=
  fun graph word _ => (terminates_recordReference sourceIndex graph word).mono
    (fun _ _ _ => trivial) (fun _ _ _ => trivial)

/-- Each payload loop of the collector agrees with the root scanner exactly on the payloads that
end below the last eight bytes of the address space. -/
theorem payload_walks_agree_iff (block : BlockRecord)
    (haligned : block.payloadBegin % wordSize = 0) (hlt : block.payloadBegin < block.payloadEnd) :
    (∀ fuel worklist, scanPayloadLocked fuel block worklist =
      payloadWalk fuel block markCandidateLocked worklist) ∧
    (∀ fuel, collectOutgoingReferencesLocked fuel block = (do
      let references ← payloadWalk fuel block (noteReference block) {}
      pure references.items.reverse)) ∧
    (∀ fuel blocks indexByBegin, collectEdges fuel blocks indexByBegin =
      (List.range blocks.length).foldlM (fun graph sourceIndex =>
        payloadWalk fuel (blockAt blocks sourceIndex)
          (recordReference blocks indexByBegin sourceIndex) graph) ⟨fun _ => {},fun _ => 0⟩) ∧
    (AgreesWithScanRange markCandidateLocked block ↔ EndsBelowLimit block) ∧
    (AgreesWithScanRange (noteReference block) block ↔ EndsBelowLimit block) ∧
    ∀ blocks indexByBegin sourceIndex, blockAt blocks sourceIndex = block →
      (AgreesWithScanRange (recordReference blocks indexByBegin sourceIndex) block ↔
        EndsBelowLimit block) := by
  refine ⟨fun fuel worklist => scanPayloadLocked_eq_walk fuel block worklist,
    fun fuel => collectOutgoingReferencesLocked_eq_walk fuel block,
    fun fuel blocks indexByBegin => collectEdges_eq_walk fuel blocks indexByBegin,
    agreesWithScanRange_iff total_markCandidateLocked haligned hlt {},
    agreesWithScanRange_iff (total_noteReference block) haligned hlt {},?_⟩
  exact fun blocks indexByBegin sourceIndex _ => agreesWithScanRange_iff
    (total_recordReference blocks indexByBegin sourceIndex) haligned hlt ⟨fun _ => {},fun _ => 0⟩

theorem payload_walks_agree_iff_ordinary :
    AgreesWithScanRange markCandidateLocked ⟨65536,65568,65589,false⟩ :=
  (payload_walks_agree_iff ⟨65536,65568,65589,false⟩ (by decide) (by decide)).2.2.2.1.mpr
    ⟨by decide,by decide⟩

/-- A thread asks for 24 bytes and gets them right below the last eight bytes. -/
def topAllocationRun : List Label :=
  [.user 0 (.call (.registerStackBottom 28672)),.run 0 {},
    .user 0 (.call (.mallocInternal 24 16 none false)),.run 0 {},
    .run 0 { region := 18446744073709551552 },.run 0 {}]

def topBlock : BlockRecord := ⟨18446744073709551552,18446744073709551584,18446744073709551608,false⟩

/-- The payload of a live block that ends at `2^64 - 8` is well formed, and walking it never ends. -/
theorem topBlock_never_walked :
    topBlock ∈ (worldAfter topAllocationRun).state.allocations.values ∧
    topBlock.payloadBegin % wordSize = 0 ∧ topBlock.payloadBegin < topBlock.payloadEnd ∧
    topBlock.payloadEnd ≤ sizeMax ∧
    ¬ AgreesWithScanRange markCandidateLocked topBlock := by
  refine ⟨by decide +kernel,by decide,by decide,by decide,fun h => ?_⟩
  have hends := endsBelowLimit_of total_markCandidateLocked (by decide) {} h
  exact absurd hends.1 (by decide)

end GcLib.Properties
