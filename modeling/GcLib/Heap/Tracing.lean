import GcLib.Heap.Marking

/-! # Correctness of the mark phase

Visiting one candidate word either changes nothing or greys the one live block that
contains it. The loops of the mark phase are folds of that step, so each of them
carries the tricolour invariant with the words it has yet to visit as the pending
part.
-/

namespace GcLib.Heap
open Support

/-- Addresses read by a collection are 64-bit values. -/
structure RootsInSpace (s : State) (env : ScanEnvironment) : Prop where
  ranges : ∀ range ∈ s.registeredRootRanges,
    range.begin_ < addressLimit ∧ range.end_ < addressLimit
  threads : ∀ thread state, (thread,state) ∈ s.threads.entries →
    state.stackBottom < addressLimit ∧ state.parkedStackTop < addressLimit
  marker : env.localMarker < addressLimit

/-- The mark phase never throws once its worklist is reserved. -/
def NoThrow (_ : GCError) (_ : State) : Prop := False

/-- The mark bytes of headers outside the registry are left alone. -/
def SameMarksOutside (s₀ s : State) : Prop :=
  ∀ header ∉ s₀.allocations.values.map BlockRecord.header, s.marks header = s₀.marks header

/-- What every visit keeps, whatever word it visits. -/
structure MarkFrame (s₀ : State) (worklist : Worklist) (s : State) : Prop where
  same : s.EqButMarks s₀
  live : ∀ block ∈ worklist.items, block ∈ s₀.allocations.values
  marked : ∀ block ∈ worklist.items, s.marks block.header = true
  nodup : worklist.items.Nodup
  capacity : worklist.capacity = s₀.allocations.size
  outside : SameMarksOutside s₀ s

/-- A live block whose mark byte is set. -/
def MarkedBlock (s₀ s : State) (block : BlockRecord) : Prop :=
  block ∈ s₀.allocations.values ∧ s.marks block.header = true

section
variable {s₀ s : State} {collector : ThreadId} {env : ScanEnvironment} {worklist : Worklist}

/-- The single step of the mark phase: nothing to mark, or one white block turned grey
without growing the vector. -/
theorem markCandidateLocked_run (hinv : HeapInvariant s₀) (hf : MarkFrame s₀ worklist s)
    (word : ℕ) (supply : Supply) :
    (markCandidateLocked worklist word s supply = .returns worklist s supply ∧
      ∀ block ∈ s₀.allocations.values, block.Contains word → s.marks block.header = true) ∨
    ∃ block ∈ s₀.allocations.values, block.Contains word ∧ s.marks block.header = false ∧
      markCandidateLocked worklist word s supply =
        .returns { worklist with items := block :: worklist.items }
          (s.setMarked block.header true) supply := by
  have hfind := hf.same.findBlockLocked word
  cases hb : s₀.findBlockLocked word with
  | none =>
    refine Or.inl ⟨?_,fun block hlive hc => absurd hc (hinv.findBlockLocked_eq_none.mp hb _ hlive)⟩
    simp [markCandidateLocked, Exec.bind_run, Exec.get, hfind, hb]
  | some block =>
    obtain ⟨hlive,hc⟩ := hinv.findBlockLocked_eq_some.mp hb
    have hmagic : (s.header block.header).magicNumber = kChunkMagicNumber := by
      rw [hf.same.header]
      exact hinv.header_magic hlive
    cases hm : s.marks block.header with
    | true =>
      refine Or.inl ⟨?_,fun b hb' hcb => ?_⟩
      · simp [markCandidateLocked, Exec.bind_run, Exec.get, hfind, hb, State.isMarked, hm]
      · rw [hinv.contains_unique hb' hlive hcb hc]
        exact hm
    | false =>
      refine Or.inr ⟨block,hlive,hc,hm,?_⟩
      have hroom : worklist.items.length < worklist.capacity := by
        have hnew : block ∉ worklist.items := by
          intro hmem
          rw [hf.marked block hmem] at hm
          exact absurd hm (by simp)
        have hsub : (block :: worklist.items).Subperm s₀.allocations.values := by
          apply (List.nodup_cons.mpr ⟨hnew,hf.nodup⟩).subperm
          intro b hb'
          rcases List.mem_cons.mp hb' with rfl | hb'
          · exact hlive
          · exact hf.live b hb'
        have hlen := hsub.length_le
        rw [List.length_cons, ← OrderedMap.size_eq_length_values, ← hf.capacity] at hlen
        omega
      simp [markCandidateLocked, Exec.bind_run, Exec.get, Exec.modify, hfind, hb, State.isMarked,
        hm, hmagic, Vec.pushBack, hroom]

/-- The state after a white block has been greyed. -/
theorem MarkFrame.grey {block : BlockRecord} (hf : MarkFrame s₀ worklist s)
    (hlive : block ∈ s₀.allocations.values) (hwhite : s.marks block.header = false) :
    MarkFrame s₀ { worklist with items := block :: worklist.items }
      (s.setMarked block.header true) where
  same := hf.same.setMarked _ _
  live b hb := by
    rcases List.mem_cons.mp hb with rfl | hb
    · exact hlive
    · exact hf.live b hb
  marked b hb := by
    simp only [State.setMarked, Function.update_apply]
    rcases List.mem_cons.mp hb with rfl | hb
    · simp
    · simp [hf.marked b hb]
  nodup := List.nodup_cons.mpr ⟨fun h => by simp [hf.marked block h] at hwhite,hf.nodup⟩
  capacity := hf.capacity
  outside h hh := by
    have hne : h ≠ block.header := fun he => hh (he ▸ List.mem_map_of_mem hlive)
    rw [← hf.outside h hh]
    exact Function.update_of_ne hne ..

theorem MarkFrame.pop {block : BlockRecord} {items : List BlockRecord} {capacity : ℕ}
    (hf : MarkFrame s₀ ⟨block :: items,capacity⟩ s) : MarkFrame s₀ ⟨items,capacity⟩ s where
  same := hf.same
  live b hb := hf.live b (List.mem_cons_of_mem _ hb)
  marked b hb := hf.marked b (List.mem_cons_of_mem _ hb)
  nodup := (List.nodup_cons.mp hf.nodup).2
  capacity := hf.capacity
  outside := hf.outside

theorem markedBlock_setMarked (hinv : HeapInvariant s₀) {block : BlockRecord}
    (hlive : block ∈ s₀.allocations.values) (b : BlockRecord) :
    MarkedBlock s₀ (s.setMarked block.header true) b ↔ b = block ∨ MarkedBlock s₀ s b := by
  simp only [MarkedBlock, State.setMarked, Function.update_apply]
  constructor
  · rintro ⟨hb,hm⟩
    split_ifs at hm with he
    · exact Or.inl (hinv.header_inj hb hlive he)
    · exact Or.inr ⟨hb,hm⟩
  · rintro (rfl | ⟨hb,hm⟩)
    · exact ⟨hlive,by simp⟩
    · exact ⟨hb,by simp [hm]⟩

theorem meets_markCandidateLocked_frame (hinv : HeapInvariant s₀) (word : ℕ)
    (hf : MarkFrame s₀ worklist s) :
    (markCandidateLocked worklist word).Meets s (MarkFrame s₀) NoThrow := by
  intro supply
  rcases markCandidateLocked_run hinv hf word supply with ⟨hrun,-⟩ | ⟨block,hlive,-,hw,hrun⟩
  · rw [hrun]
    exact hf
  · rw [hrun]
    exact hf.grey hlive hw

/-- The invariant of every loop of the mark phase. -/
def Marking (s₀ : State) (collector : ThreadId) (env : ScanEnvironment)
    (pendingRoot : BlockRecord → Prop) (pending : BlockRecord → BlockRecord → Prop)
    (worklist : Worklist) (s : State) : Prop :=
  MarkFrame s₀ worklist s ∧
    Tricolour (MarkRoot s₀ collector env) (References s₀) pendingRoot pending
      (MarkedBlock s₀ s) worklist.items

variable {pendingRoot pendingRoot' : BlockRecord → Prop}
  {pending pending' : BlockRecord → BlockRecord → Prop}

/-- Visiting a word discharges everything that was pending through that word. -/
theorem meets_markCandidateLocked (hinv : HeapInvariant s₀) {word : ℕ}
    (h : Marking s₀ collector env pendingRoot pending worklist s)
    (hreached : ∀ block ∈ s₀.allocations.values, block.Contains word →
      Retained s₀ collector env block)
    (hroot : ∀ x, pendingRoot x → (x ∈ s₀.allocations.values ∧ x.Contains word) ∨ pendingRoot' x)
    (hedge : ∀ x y, pending x y →
      (y ∈ s₀.allocations.values ∧ y.Contains word) ∨ pending' x y) :
    (markCandidateLocked worklist word).Meets s
      (Marking s₀ collector env pendingRoot' pending') NoThrow := by
  intro supply
  obtain ⟨hf,ht⟩ := h
  rcases markCandidateLocked_run hinv hf word supply with ⟨hrun,hall⟩ | ⟨block,hlive,hc,hw,hrun⟩
  · rw [hrun]
    refine ⟨hf,ht.skip (fun x hx => ?_) (fun x y hxy => ?_)⟩
    · exact (hroot x hx).imp (fun hx' => ⟨hx'.1,hall x hx'.1 hx'.2⟩) id
    · exact (hedge x y hxy).imp (fun hy => ⟨hy.1,hall y hy.1 hy.2⟩) id
  · rw [hrun]
    have hmarked := markedBlock_setMarked (s := s) hinv hlive
    have hhit : ∀ x, x ∈ s₀.allocations.values ∧ x.Contains word →
        MarkedBlock s₀ (s.setMarked block.header true) x := fun x hx =>
      (hmarked x).mpr (Or.inl (hinv.contains_unique hx.1 hlive hx.2 hc))
    refine ⟨hf.grey hlive hw,ht.visit (hreached block hlive hc) ?_ hmarked ?_ ?_⟩
    · exact fun hb => absurd hb.2 (by simp [hw])
    · exact fun x hx => (hroot x hx).imp (hhit x) id
    · exact fun x y hxy => (hedge x y hxy).imp (hhit y) id

/-- Scanning a black block's payload marks everything it references. -/
theorem meets_scanPayloadLocked (hinv : HeapInvariant s₀) {block : BlockRecord} {fuel : ℕ}
    (hblock : MarkedBlock s₀ s block)
    (h : Marking s₀ collector env pendingRoot
      (fun x y => x = block ∧ References s₀ block y) worklist s) :
    (scanPayloadLocked fuel block worklist).Meets s
      (Marking s₀ collector env pendingRoot (fun _ _ => False)) NoThrow := by
  have hbounds := hinv.payload_bounds hblock.1
  let I : List ℕ → Worklist → State → Prop := fun l worklist s =>
    Marking s₀ collector env pendingRoot (fun x y => x = block ∧ y ∈ s₀.allocations.values ∧
      ∃ a ∈ l, y.Contains (readWord s₀.memory a)) worklist s ∧
    Retained s₀ collector env block ∧
    ∀ a ∈ l, a ∈ alignedWords block.payloadBegin block.payloadEnd
  have hdone : (scanPayloadLocked fuel block worklist).Meets s (I []) NoThrow := by
    refine meets_forPayloadWords (J := MarkFrame s₀) (I := I) hbounds.2.2.2 hbounds.2.1.le
      (fun l a s hI => hI.1.1) ?_ ?_ ⟨h,h.2.sound block hblock,fun _ => id⟩
    · intro x worklist s hf
      refine Exec.meets_bind (Exec.meets_get ?_)
      exact meets_markCandidateLocked_frame hinv _ hf
    · rintro x l worklist s ⟨hm,hr,hl⟩
      refine Exec.meets_bind (Exec.meets_get ?_)
      rw [hm.1.same.memory]
      refine (meets_markCandidateLocked hinv hm ?_ (fun _ => Or.inr) ?_).mono
        (fun _ _ hm' => ⟨hm',hr,fun a ha => hl a (List.mem_cons_of_mem _ ha)⟩) (fun _ _ => id)
      · exact fun y hy hc => hr.step ⟨hy,x,hl x List.mem_cons_self,hc⟩
      · rintro u y ⟨hu,hy,a,ha,hc⟩
        rcases List.mem_cons.mp ha with rfl | ha
        · exact Or.inl ⟨hy,hc⟩
        · exact Or.inr ⟨hu,hy,a,ha,hc⟩
  refine hdone.mono (fun worklist s hI => ?_) (fun _ _ => id)
  refine ⟨hI.1.1,hI.1.2.skip (fun x hx => Or.inr hx) ?_⟩
  rintro x y ⟨-,-,a,ha,-⟩
  exact absurd ha List.not_mem_nil

/-- Draining ends with an empty worklist and no reference left to follow. -/
theorem meets_drainMarkWorklistLocked (hinv : HeapInvariant s₀) (scanFuel fuel : ℕ) :
    ∀ {worklist : Worklist} {s : State},
      Marking s₀ collector env pendingRoot (fun _ _ => False) worklist s →
      (drainMarkWorklistLocked scanFuel fuel worklist).Meets s
        (fun worklist s => Marking s₀ collector env pendingRoot (fun _ _ => False) worklist s ∧
          worklist.items = []) NoThrow := by
  induction fuel with
  | zero => exact fun _ => Exec.meets_diverge
  | succ fuel ih =>
    rintro ⟨items,capacity⟩ s h
    cases items with
    | nil => exact Exec.meets_pure ⟨h,rfl⟩
    | cons block items =>
      have hblock : MarkedBlock s₀ s block :=
        ⟨h.1.live block List.mem_cons_self,h.1.marked block List.mem_cons_self⟩
      have hpop : Marking s₀ collector env pendingRoot
          (fun x y => x = block ∧ References s₀ block y) ⟨items,capacity⟩ s := ⟨h.1.pop,h.2.pop⟩
      exact Exec.meets_bind ((meets_scanPayloadLocked hinv hblock hpop).mono
        (fun _ _ h' => ih h') (fun _ _ => id))

/-- The blocks some word of a set points into. -/
def Hit (s₀ : State) (words : ℕ → Prop) (block : BlockRecord) : Prop :=
  block ∈ s₀.allocations.values ∧ ∃ word, words word ∧ block.Contains word

/-- The mark phase between two root words: the remaining root words are what is pending. -/
abbrev MarkingRoots (s₀ : State) (collector : ThreadId) (env : ScanEnvironment)
    (words : ℕ → Prop) (worklist : Worklist) (s : State) : Prop :=
  Marking s₀ collector env (Hit s₀ words) (fun _ _ => False) worklist s

variable {words : ℕ → Prop}

theorem MarkingRoots.weaken {words' : ℕ → Prop}
    (h : MarkingRoots s₀ collector env words worklist s) (hw : ∀ w, words w → words' w) :
    MarkingRoots s₀ collector env words' worklist s :=
  ⟨h.1,h.2.skip (fun _ ⟨hx,w,hw',hc⟩ => Or.inr ⟨hx,w,hw w hw',hc⟩) (fun _ _ => False.elim)⟩

/-- A word that may be visited: only retained blocks contain it. -/
def Justified (s₀ : State) (collector : ThreadId) (env : ScanEnvironment) (word : ℕ) : Prop :=
  ∀ block ∈ s₀.allocations.values, block.Contains word → Retained s₀ collector env block

theorem RootWord.justified {word : ℕ} (h : RootWord s₀ collector env word) :
    Justified s₀ collector env word :=
  fun _ hb hc => .of_root ⟨hb,Or.inr ⟨word,h,hc⟩⟩

theorem meets_markRootWord (hinv : HeapInvariant s₀) (words : ℕ → Prop) {word : ℕ}
    (hword : Justified s₀ collector env word)
    (h : MarkingRoots s₀ collector env (fun w => w = word ∨ words w) worklist s) :
    (markCandidateLocked worklist word).Meets s (MarkingRoots s₀ collector env words) NoThrow := by
  refine meets_markCandidateLocked hinv h hword ?_ (fun _ _ => False.elim)
  rintro x ⟨hx,w,rfl | hw,hc⟩
  · exact Or.inl ⟨hx,hc⟩
  · exact Or.inr ⟨hx,w,hw,hc⟩

/-- Invariant of a loop over root words: the words of `l` and those of `words` remain. -/
def WordsLeft (s₀ : State) (collector : ThreadId) (env : ScanEnvironment) (words : ℕ → Prop)
    (l : List ℕ) (worklist : Worklist) (s : State) : Prop :=
  MarkingRoots s₀ collector env (fun w => w ∈ l ∨ words w) worklist s ∧
    ∀ w ∈ l, Justified s₀ collector env w

theorem WordsLeft.step (hinv : HeapInvariant s₀) (word : ℕ) (l : List ℕ) (worklist : Worklist)
    (s : State) (h : WordsLeft s₀ collector env words (word :: l) worklist s) :
    (markCandidateLocked worklist word).Meets s (WordsLeft s₀ collector env words l) NoThrow := by
  refine (meets_markRootWord hinv (fun w => w ∈ l ∨ words w)
    (h.2 word List.mem_cons_self) (h.1.weaken ?_)).mono
    (fun _ _ h' => ⟨h',fun w hw => h.2 w (List.mem_cons_of_mem _ hw)⟩) (fun _ _ => id)
  rintro w (hw | hw)
  · exact (List.mem_cons.mp hw).imp id Or.inl
  · exact Or.inr (Or.inr hw)

theorem meets_markWords (hinv : HeapInvariant s₀) (words : ℕ → Prop) {l : List ℕ}
    (h : WordsLeft s₀ collector env words l worklist s) :
    (l.foldlM markCandidateLocked worklist).Meets s (MarkingRoots s₀ collector env words)
      NoThrow :=
  (Exec.meets_foldlM (WordsLeft.step hinv) l h).mono
    (fun _ _ h' => h'.1.weaken (fun _ hw => hw.resolve_left List.not_mem_nil)) (fun _ _ => id)

theorem meets_scanRootRange (hinv : HeapInvariant s₀) {fuel begin_ end_ : ℕ}
    (hb : begin_ < addressLimit) (he : end_ < addressLimit)
    (h : WordsLeft s₀ collector env words (rangeWords s₀.memory begin_ end_) worklist s) :
    (scanWords fuel begin_ end_ markCandidateLocked worklist).Meets s
      (MarkingRoots s₀ collector env words) NoThrow :=
  (meets_scanWords (I := WordsLeft s₀ collector env words) hb he
    (fun _ _ _ h' => h'.1.1.same.memory) (WordsLeft.step hinv) h).mono
    (fun _ _ h' => h'.1.weaken (fun _ hw => hw.resolve_left List.not_mem_nil)) (fun _ _ => id)

theorem meets_scanStackRange (hinv : HeapInvariant s₀) {fuel top bottom : ℕ}
    (ht : top < addressLimit) (hb : bottom < addressLimit)
    (h : WordsLeft s₀ collector env words (rangeWords s₀.memory top bottom) worklist s) :
    (scanStackRange fuel top bottom markCandidateLocked worklist).Meets s
      (MarkingRoots s₀ collector env words) NoThrow := by
  unfold scanStackRange
  split_ifs with h₀
  · refine Exec.meets_pure (h.1.weaken (fun w hw => hw.resolve_left ?_))
    simp [rangeWords, h₀]
  · exact meets_scanRootRange hinv ht hb h

/-- A fold over sources of root words visits the words of each of them. -/
theorem meets_markSources {γ : Type} {g : Worklist → γ → M Worklist} {wordsOf : γ → ℕ → Prop} :
    ∀ {l : List γ} {worklist : Worklist} {s : State},
      (∀ c ∈ l, ∀ words worklist s,
        MarkingRoots s₀ collector env (fun w => wordsOf c w ∨ words w) worklist s →
        (g worklist c).Meets s (MarkingRoots s₀ collector env words) NoThrow) →
      MarkingRoots s₀ collector env (fun w => (∃ c ∈ l, wordsOf c w) ∨ words w) worklist s →
      (l.foldlM g worklist).Meets s (MarkingRoots s₀ collector env words) NoThrow
  | [], _, _, _, h => Exec.meets_pure (h.weaken (fun w hw => hw.resolve_left (by simp)))
  | c :: l, _, _, hstep, h => by
    rw [List.foldlM_cons]
    have hc := hstep c List.mem_cons_self (fun w => (∃ c ∈ l, wordsOf c w) ∨ words w) _ _
      (h.weaken (fun w hw => by simpa [or_assoc] using hw))
    exact Exec.meets_bind (hc.mono
      (fun _ _ h' => meets_markSources (fun c' hc' => hstep c' (List.mem_cons_of_mem _ hc')) h')
      (fun _ _ => id))

def SegmentWord (s₀ : State) (image : LoadedImage) (segment : Segment) (word : ℕ) : Prop :=
  segment.isScanned image.addr = true ∧
    word ∈ rangeWords s₀.memory (wrapAdd image.addr segment.vaddr)
      (wrapAdd image.addr segment.vaddr+segment.memsz)

theorem Segment.end_lt {segment : Segment} {addr : ℕ} (h : segment.isScanned addr = true) :
    wrapAdd addr segment.vaddr+segment.memsz < addressLimit := by
  have hlt : wrapAdd addr segment.vaddr < addressLimit := wrapAdd_lt _ _
  simp only [Segment.isScanned, Bool.and_eq_true, Bool.not_eq_true', decide_eq_false_iff_not] at h
  have hmem := h.2
  unfold sizeMax addressLimit at *
  omega

theorem meets_scanSegments (hinv : HeapInvariant s₀) {fuel : ℕ} {image : LoadedImage}
    (hroot : ∀ segment ∈ image.segments, ∀ w, SegmentWord s₀ image segment w →
      Justified s₀ collector env w)
    (h : MarkingRoots s₀ collector env
      (fun w => (∃ segment ∈ image.segments, SegmentWord s₀ image segment w) ∨ words w)
      worklist s) :
    (scanLinuxImage fuel markCandidateLocked image worklist).Meets s
      (MarkingRoots s₀ collector env words) NoThrow := by
  refine meets_markSources (fun segment hseg words worklist s h => ?_) h
  split_ifs with hscan
  · refine meets_scanRootRange hinv (wrapAdd_lt _ _)
      (Segment.end_lt hscan) ⟨h.weaken ?_,fun w hw => hroot segment hseg w ⟨hscan,hw⟩⟩
    exact fun w hw => hw.imp (fun hw' => hw'.2) id
  · exact Exec.meets_pure (h.weaken (fun w hw => hw.resolve_left (fun hw' => hscan hw'.1)))

theorem meets_scanGlobals (hinv : HeapInvariant s₀) {fuel : ℕ}
    (hroot : ∀ image ∈ env.images, ∀ segment ∈ image.segments, ∀ w,
      SegmentWord s₀ image segment w → Justified s₀ collector env w)
    (h : MarkingRoots s₀ collector env (fun w => (∃ image ∈ env.images,
      ∃ segment ∈ image.segments, SegmentWord s₀ image segment w) ∨ words w) worklist s) :
    (scanGlobals fuel env markCandidateLocked worklist).Meets s
      (MarkingRoots s₀ collector env words) NoThrow :=
  meets_markSources (fun image hi _ _ _ h' => meets_scanSegments hinv (hroot image hi) h') h

/-- Scanning one registered thread visits exactly the words `ThreadWord` lists for it. -/
theorem meets_scanRegisteredThread (hinv : HeapInvariant s₀) (hspace : RootsInSpace s₀ env)
    {fuel : ℕ} {thread : ThreadId} {state : ThreadState}
    (hentry : (thread,state) ∈ s₀.threads.entries)
    (h : MarkingRoots s₀ collector env (fun w => (state.stackBottom ≠ 0 ∧
      ThreadWord s₀ collector env thread state w) ∨ words w) worklist s) :
    (scanRegisteredThread fuel collector env worklist (thread,state)).Meets s
      (MarkingRoots s₀ collector env words) NoThrow := by
  obtain ⟨hbottom,htop⟩ := hspace.threads thread state hentry
  unfold scanRegisteredThread
  split_ifs with h₀ hc
  · exact Exec.meets_pure (h.weaken (fun w hw => hw.resolve_left (fun hw' => hw'.1 h₀)))
  · have hroot : ∀ w, ThreadWord s₀ collector env thread state w → Justified s₀ collector env w :=
      fun w hw => (RootWord.thread hentry h₀ hw).justified
    refine Exec.meets_bind ((meets_markWords (l := env.registers) hinv
      (fun w => w ∈ rangeWords s₀.memory env.localMarker state.stackBottom ∨
        (∃ image ∈ env.images, ∃ segment ∈ image.segments, SegmentWord s₀ image segment w) ∨
          words w) ⟨h.weaken ?_,fun w hw => hroot w (.registers hc hw)⟩).mono
      (fun worklist s h₁ => ?_) (fun _ _ => id))
    · rintro w (⟨-,hw⟩ | hw)
      · cases hw with
        | spill hne => exact absurd hc hne
        | parkedStack hne => exact absurd hc hne
        | registers _ hw => exact Or.inl hw
        | stack _ hw => exact Or.inr (Or.inl hw)
        | global _ hi hseg hscan hw =>
          exact Or.inr (Or.inr (Or.inl ⟨_,hi,_,hseg,hscan,hw⟩))
      · exact Or.inr (Or.inr (Or.inr hw))
    · refine Exec.meets_bind ((meets_scanStackRange hinv hspace.marker hbottom
        ⟨h₁,fun w hw => hroot w (.stack hc hw)⟩).mono (fun worklist s h₂ => ?_) (fun _ _ => id))
      exact meets_scanGlobals hinv
        (fun image hi segment hseg w hw => hroot w (.global hc hi hseg hw.1 hw.2)) h₂
  · have hroot : ∀ w, ThreadWord s₀ collector env thread state w → Justified s₀ collector env w :=
      fun w hw => (RootWord.thread hentry h₀ hw).justified
    refine Exec.meets_bind ((meets_markWords (l := state.registerSpill) hinv
      (fun w => w ∈ rangeWords s₀.memory state.parkedStackTop state.stackBottom ∨ words w)
      ⟨h.weaken ?_,fun w hw => hroot w (.spill hc hw)⟩).mono (fun worklist s h₁ => ?_)
      (fun _ _ => id))
    · rintro w (⟨-,hw⟩ | hw)
      · cases hw with
        | spill _ hw => exact Or.inl hw
        | parkedStack _ hw => exact Or.inr (Or.inl hw)
        | registers he => exact absurd he hc
        | stack he => exact absurd he hc
        | global he => exact absurd he hc
      · exact Or.inr (Or.inr hw)
    · exact meets_scanStackRange hinv htop hbottom
        ⟨h₁,fun w hw => hroot w (.parkedStack hc hw)⟩

theorem meets_markConstructing (hinv : HeapInvariant s₀)
    (h : MarkingRoots s₀ collector env (fun w => (∃ entry ∈ s₀.allocations.entries,
      entry.2.constructing = true ∧ w = entry.1) ∨ words w) worklist s) :
    (markConstructing worklist).Meets s (MarkingRoots s₀ collector env words) NoThrow := by
  refine Exec.meets_bind (Exec.meets_get ?_)
  rw [h.1.same.allocations]
  refine meets_markSources (fun entry hentry words worklist s h => ?_) h
  have hlive : entry.2 ∈ s₀.allocations.values := OrderedMap.mem_values.mpr ⟨entry.1,hentry⟩
  have hkey : entry.1 = entry.2.payloadBegin := hinv.key _ _ hentry
  split_ifs with hc
  · refine meets_markRootWord hinv _ (fun block hb hcontains => ?_)
      (h.weaken (fun w hw => hw.imp And.right id))
    have hself : entry.2.Contains entry.1 :=
      ⟨hkey.ge,hkey ▸ (hinv.payload_bounds hlive).2.1⟩
    rw [hinv.contains_unique hb hlive hcontains hself]
    exact .of_root ⟨hlive,Or.inl hc⟩
  · exact Exec.meets_pure (h.weaken (fun w hw => hw.resolve_left (fun hw' => hc hw'.1)))

theorem meets_scanRegisteredThreadsLocked (hinv : HeapInvariant s₀)
    (hspace : RootsInSpace s₀ env) {fuel : ℕ}
    (h : MarkingRoots s₀ collector env (fun w => (∃ entry ∈ s₀.threads.entries,
      entry.2.stackBottom ≠ 0 ∧ ThreadWord s₀ collector env entry.1 entry.2 w) ∨ words w)
      worklist s) :
    (scanRegisteredThreadsLocked fuel collector env worklist).Meets s
      (MarkingRoots s₀ collector env words) NoThrow := by
  refine Exec.meets_bind (Exec.meets_get ?_)
  rw [h.1.same.threads]
  exact meets_markSources
    (fun _ hentry _ _ _ h' => meets_scanRegisteredThread hinv hspace hentry h') h

theorem meets_scanRegisteredRootsLocked (hinv : HeapInvariant s₀)
    (hspace : RootsInSpace s₀ env) {fuel : ℕ}
    (h : MarkingRoots s₀ collector env (fun w => (∃ range ∈ s₀.registeredRootRanges,
      w ∈ rangeWords s₀.memory range.begin_ range.end_) ∨ words w) worklist s) :
    (scanRegisteredRootsLocked fuel worklist).Meets s
      (MarkingRoots s₀ collector env words) NoThrow := by
  refine Exec.meets_bind (Exec.meets_get ?_)
  rw [h.1.same.registeredRootRanges]
  refine meets_markSources (fun range hrange words worklist s h => ?_) h
  obtain ⟨hb,he⟩ := hspace.ranges range hrange
  exact meets_scanRootRange hinv hb he ⟨h,fun w hw => (RootWord.range hrange hw).justified⟩

end

/-- Clearing writes mark bytes of live blocks only, and leaves none of them set. -/
theorem State.clearMarksLocked_marks (s : State) (header : ℕ) :
    s.clearMarksLocked.marks header =
      if header ∈ s.allocations.values.map BlockRecord.header then false else s.marks header := by
  unfold State.clearMarksLocked
  generalize s.allocations.values = blocks
  induction blocks generalizing s with
  | nil => simp
  | cons block blocks ih =>
    rw [List.foldl_cons, ih]
    by_cases he : header = block.header <;> simp [State.setMarked, he]

theorem State.clearMarksLocked_eqButMarks (s : State) : s.clearMarksLocked.EqButMarks s := by
  unfold State.clearMarksLocked
  suffices h : ∀ (blocks : List BlockRecord) (s' : State), s'.EqButMarks s →
      (blocks.foldl (fun s block => s.setMarked block.header false) s').EqButMarks s from
    h _ s (.refl s)
  intro blocks
  induction blocks with
  | nil => exact fun _ h => h
  | cons block blocks ih => exact fun s' h => ih _ (h.setMarked _ _)

theorem MarkFrame.start (s : State) :
    MarkFrame s ⟨[],s.allocations.size⟩ s.clearMarksLocked where
  same := s.clearMarksLocked_eqButMarks
  live := by simp
  marked := by simp
  nodup := List.nodup_nil
  capacity := rfl
  outside h hh := by rw [State.clearMarksLocked_marks, if_neg hh]

/-- The state a finished mark phase leaves behind. -/
structure MarkedFrom (s₀ : State) (collector : ThreadId) (env : ScanEnvironment) (s : State) :
    Prop where
  same : s.EqButMarks s₀
  marked_iff : ∀ block ∈ s₀.allocations.values,
    s.marks block.header = true ↔ Retained s₀ collector env block
  outside : SameMarksOutside s₀ s

/-- The mark phase marks exactly the retained blocks; only its reservation can throw. -/
theorem meets_markLocked {s₀ : State} {collector : ThreadId} {env : ScanEnvironment}
    (hinv : HeapInvariant s₀) (hspace : RootsInSpace s₀ env) (fuel : ℕ) :
    (markLocked fuel collector env).Meets s₀ (fun _ => MarkedFrom s₀ collector env)
      (fun e s => e = .badAlloc ∧ s = s₀.clearMarksLocked) := by
  have hclear := s₀.clearMarksLocked_eqButMarks
  have hwhite : ∀ block, ¬ MarkedBlock s₀ s₀.clearMarksLocked block := by
    rintro block ⟨hb,hm⟩
    rw [State.clearMarksLocked_marks, if_pos (List.mem_map_of_mem hb)] at hm
    exact absurd hm (by simp)
  let threadWords : ℕ → Prop := fun w => ∃ entry ∈ s₀.threads.entries,
    entry.2.stackBottom ≠ 0 ∧ ThreadWord s₀ collector env entry.1 entry.2 w
  let rangeRoots : ℕ → Prop := fun w => ∃ range ∈ s₀.registeredRootRanges,
    w ∈ rangeWords s₀.memory range.begin_ range.end_
  have hstart : MarkingRoots s₀ collector env (fun w => (∃ entry ∈ s₀.allocations.entries,
      entry.2.constructing = true ∧ w = entry.1) ∨ threadWords w ∨ rangeRoots w ∨ False)
      ⟨[],s₀.allocations.size⟩ s₀.clearMarksLocked := by
    refine ⟨.start s₀,(Tricolour.start hwhite).skip ?_
      (fun _ _ => False.elim)⟩
    rintro block ⟨hb,hc | ⟨w,hw,hcontains⟩⟩
    · refine Or.inr ⟨hb,block.payloadBegin,Or.inl ⟨_,hinv.entry_mem hb,hc,rfl⟩,le_rfl,?_⟩
      exact (hinv.payload_bounds hb).2.1
    · refine Or.inr ⟨hb,w,Or.inr ?_,hcontains⟩
      cases hw with
      | range hr hw => exact Or.inr (Or.inl ⟨_,hr,hw⟩)
      | thread ht hs hw => exact Or.inl ⟨_,ht,hs,hw⟩
  have hrest : ∀ (worklist : Worklist), worklist = ⟨[],s₀.allocations.size⟩ →
      Exec.Meets (do
        let worklist ← markConstructing worklist
        let worklist ← scanRegisteredThreadsLocked fuel collector env worklist
        let worklist ← scanRegisteredRootsLocked fuel worklist
        let _ ← drainMarkWorklistLocked fuel fuel worklist) s₀.clearMarksLocked
        (fun _ => MarkedFrom s₀ collector env) NoThrow := by
    rintro _ rfl
    refine Exec.meets_bind ((meets_markConstructing hinv hstart).mono (fun w₁ s₁ h₁ => ?_)
      (fun _ _ => id))
    refine Exec.meets_bind ((meets_scanRegisteredThreadsLocked hinv hspace h₁).mono
      (fun w₂ s₂ h₂ => ?_) (fun _ _ => id))
    refine Exec.meets_bind ((meets_scanRegisteredRootsLocked hinv hspace h₂).mono
      (fun w₃ s₃ h₃ => ?_) (fun _ _ => id))
    refine Exec.meets_bind ((meets_drainMarkWorklistLocked hinv fuel fuel h₃).mono
      (fun w₄ s₄ h₄ => Exec.meets_pure ⟨h₄.1.1.same,fun block hb => ?_,h₄.1.1.outside⟩) (fun _ _ => id))
    have ht := h₄.1.2
    rw [h₄.2] at ht
    have hnone : Tricolour (MarkRoot s₀ collector env) (References s₀) (fun _ => False)
        (fun _ _ => False) (MarkedBlock s₀ s₄) [] :=
      ht.skip (fun _ ⟨_,_,hf,_⟩ => hf.elim) (fun _ _ => False.elim)
    have hdone := hnone.marked_iff block
    exact ⟨fun hm => hdone.mp ⟨hb,hm⟩,fun hr => (hdone.mpr hr).2⟩
  have hthrow : ∀ (e : GCError) (s : State), NoThrow e s →
      e = .badAlloc ∧ s = s₀.clearMarksLocked := fun _ _ => False.elim
  refine Exec.meets_bind (Exec.meets_modify (Exec.meets_bind (Exec.meets_get ?_)))
  refine Exec.meets_bind ?_
  have hsize : s₀.clearMarksLocked.allocations.size = s₀.allocations.size := by
    rw [hclear.allocations]
  rw [hsize]
  exact Vec.meets_reserve ((hrest _ rfl).mono (fun _ _ => id) hthrow) ⟨rfl,rfl⟩

end GcLib.Heap
