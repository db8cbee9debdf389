import GcLib.Heap.OrderTermination
import GcLib.Heap.Collect

/-! # A collection terminates

The root scanner passes over finitely many words, and the drain loop pops each block
at most once: the blocks on the worklist and the white ones together grow fewer with
every pop. With enough fuel the window of a collection or a shutdown therefore
returns, unless one of its allocations fails.
-/

namespace GcLib.Heap
open Support

section Scanner
variable {α : Type} {E : GCError → State → Prop} {J : α → State → Prop} {visitor : α → ℕ → M α}

/-- Fuel for a walk over any part of the address space. -/
def CoversSpace (fuel : ℕ) : Prop := addressLimit ≤ wordSize*fuel

theorem terminates_scanWordsLoop {finish : ℕ} (hfin : finish < addressLimit)
    (hv : ∀ word a s, J a s → (visitor a word).Terminates s J E) (fuel : ℕ) :
    ∀ {cur : ℕ} {a : α} {s : State}, finish-cur < wordSize*fuel → cur ≤ finish → J a s →
      (scanWordsLoop finish visitor fuel cur a).Terminates s J E := by
  induction fuel with
  | zero => exact fun hfuel => absurd hfuel (Nat.not_lt_zero _)
  | succ fuel ih =>
    intro cur a s hfuel hle h
    rw [scanWordsLoop, wrapSub_of_le hle hfin]
    split_ifs with hc
    · have hnext : wrapAdd cur wordSize = cur+wordSize := wrapAdd_of_lt (by omega)
      rw [hnext]
      refine Exec.terminates_bind (Exec.terminates_get ?_)
      refine Exec.terminates_bind ((hv _ a s h).mono (fun _ _ h' => ?_) (fun _ _ => id))
      exact ih (by simp only [wordSize] at *; omega) (by omega) h'
    · exact Exec.terminates_pure h

theorem terminates_scanAscending {fuel start finish : ℕ} {a : α} {s : State}
    (hle : start ≤ finish) (hfin : finish < addressLimit) (hfuel : CoversSpace fuel)
    (hv : ∀ word a s, J a s → (visitor a word).Terminates s J E) (h : J a s) :
    (scanAscending fuel start finish visitor a).Terminates s J E := by
  unfold scanAscending
  simp only [wrapSub_of_le hle hfin]
  split_ifs with hshort
  · exact Exec.terminates_pure h
  · rw [wrapAdd_of_lt (by omega)]
    refine terminates_scanWordsLoop hfin hv fuel ?_ (by omega) h
    unfold CoversSpace at hfuel
    omega

theorem terminates_scanWords {fuel begin_ end_ : ℕ} {a : α} {s : State}
    (hb : begin_ < addressLimit) (he : end_ < addressLimit) (hfuel : CoversSpace fuel)
    (hv : ∀ word a s, J a s → (visitor a word).Terminates s J E) (h : J a s) :
    (scanWords fuel begin_ end_ visitor a).Terminates s J E := by
  unfold scanWords
  split_ifs with h₀ h₁
  · exact Exec.terminates_pure h
  · exact terminates_scanAscending (by omega) hb hfuel hv h
  · exact terminates_scanAscending (by omega) he hfuel hv h

theorem terminates_scanStackRange {fuel top bottom : ℕ} {a : α} {s : State}
    (ht : top < addressLimit) (hb : bottom < addressLimit) (hfuel : CoversSpace fuel)
    (hv : ∀ word a s, J a s → (visitor a word).Terminates s J E) (h : J a s) :
    (scanStackRange fuel top bottom visitor a).Terminates s J E := by
  unfold scanStackRange
  split_ifs
  · exact Exec.terminates_pure h
  · exact terminates_scanWords ht hb hfuel hv h

theorem terminates_visitWords {words : List ℕ} {a : α} {s : State}
    (hv : ∀ word a s, J a s → (visitor a word).Terminates s J E) (h : J a s) :
    (words.foldlM visitor a).Terminates s J E :=
  Exec.terminates_foldlM (I := fun _ => J) (fun word _ a s h' => hv word a s h') words h

theorem terminates_scanGlobals {fuel : ℕ} {env : ScanEnvironment} {a : α} {s : State}
    (hfuel : CoversSpace fuel) (hv : ∀ word a s, J a s → (visitor a word).Terminates s J E)
    (h : J a s) : (scanGlobals fuel env visitor a).Terminates s J E := by
  refine Exec.terminates_foldlM (I := fun _ => J) (fun image _ a s h => ?_) _ h
  refine Exec.terminates_foldlM (I := fun _ => J) (fun segment _ a s h => ?_) _ h
  split_ifs with hscan
  · exact terminates_scanWords (wrapAdd_lt _ _) (Segment.end_lt hscan) hfuel hv h
  · exact Exec.terminates_pure h

theorem terminates_rootScan {fuel bottom : ℕ} {env : ScanEnvironment} {a : α} {s : State}
    (hm : env.localMarker < addressLimit) (hb : bottom < addressLimit) (hfuel : CoversSpace fuel)
    (hv : ∀ word a s, J a s → (visitor a word).Terminates s J E) (h : J a s) :
    (rootScan fuel bottom env visitor a).Terminates s J E := by
  refine Exec.terminates_bind ((terminates_visitWords hv h).mono (fun a s h => ?_) (fun _ _ => id))
  exact Exec.terminates_bind ((terminates_scanStackRange hm hb hfuel hv h).mono
    (fun a s h => terminates_scanGlobals hfuel hv h) (fun _ _ => id))

/-! ## Root visits for any visitor -/

def visitConstructing (visitor : α → ℕ → M α) (a : α) : M α := do
  let s ← Exec.get
  s.allocations.entries.foldlM (fun a entry =>
    if entry.2.constructing then visitor a entry.1 else pure a) a

def visitThread (fuel : ℕ) (collector : ThreadId) (env : ScanEnvironment) (visitor : α → ℕ → M α)
    (a : α) (entry : ThreadId × ThreadState) : M α := do
  if entry.2.stackBottom = 0 then pure a
  else if entry.1 = collector then rootScan fuel entry.2.stackBottom env visitor a
  else
    let a ← entry.2.registerSpill.foldlM visitor a
    scanStackRange fuel entry.2.parkedStackTop entry.2.stackBottom visitor a

def visitThreads (fuel : ℕ) (collector : ThreadId) (env : ScanEnvironment)
    (visitor : α → ℕ → M α) (a : α) : M α := do
  let s ← Exec.get
  s.threads.entries.foldlM (visitThread fuel collector env visitor) a

def visitRootRanges (fuel : ℕ) (visitor : α → ℕ → M α) (a : α) : M α := do
  let s ← Exec.get
  s.registeredRootRanges.foldlM (fun a range =>
    scanWords fuel range.begin_ range.end_ visitor a) a

section
variable {s₀ s : State} {fuel : ℕ} {collector : ThreadId} {env : ScanEnvironment} {a : α}

theorem terminates_visitConstructing
    (hv : ∀ word a s, J a s → (visitor a word).Terminates s J E) (h : J a s) :
    (visitConstructing visitor a).Terminates s J E := by
  refine Exec.terminates_bind (Exec.terminates_get ?_)
  refine Exec.terminates_foldlM (I := fun _ => J) (fun entry _ _ _ h' => ?_) _ h
  split_ifs
  · exact hv _ _ _ h'
  · exact Exec.terminates_pure h'

theorem terminates_visitThread (hspace : RootsInSpace s₀ env) {entry : ThreadId × ThreadState}
    (hentry : entry ∈ s₀.threads.entries) (hfuel : CoversSpace fuel)
    (hv : ∀ word a s, J a s → (visitor a word).Terminates s J E) (h : J a s) :
    (visitThread fuel collector env visitor a entry).Terminates s J E := by
  obtain ⟨hbottom,htop⟩ := hspace.threads _ _ hentry
  unfold visitThread
  split_ifs
  · exact Exec.terminates_pure h
  · exact terminates_rootScan hspace.marker hbottom hfuel hv h
  · exact Exec.terminates_bind ((terminates_visitWords hv h).mono
      (fun _ _ h' => terminates_scanStackRange htop hbottom hfuel hv h') (fun _ _ => id))

theorem terminates_visitThreads (hspace : RootsInSpace s₀ env) (hfuel : CoversSpace fuel)
    (hJ : ∀ a s, J a s → s.EqButMarks s₀)
    (hv : ∀ word a s, J a s → (visitor a word).Terminates s J E) (h : J a s) :
    (visitThreads fuel collector env visitor a).Terminates s J E := by
  refine Exec.terminates_bind (Exec.terminates_get ?_)
  rw [(hJ a s h).threads]
  refine (Exec.terminates_foldlM (I := fun l a s => J a s ∧
    ∀ entry ∈ l, entry ∈ s₀.threads.entries) ?_ _ ⟨h,fun _ => id⟩).mono
    (fun _ _ h => h.1) (fun _ _ => id)
  rintro entry l a s ⟨h,hl⟩
  exact (terminates_visitThread hspace (hl entry List.mem_cons_self) hfuel hv h).mono
    (fun _ _ h' => ⟨h',fun e he => hl e (List.mem_cons_of_mem _ he)⟩) (fun _ _ => id)

theorem terminates_visitRootRanges (hspace : RootsInSpace s₀ env) (hfuel : CoversSpace fuel)
    (hJ : ∀ a s, J a s → s.EqButMarks s₀)
    (hv : ∀ word a s, J a s → (visitor a word).Terminates s J E) (h : J a s) :
    (visitRootRanges fuel visitor a).Terminates s J E := by
  refine Exec.terminates_bind (Exec.terminates_get ?_)
  rw [(hJ a s h).registeredRootRanges]
  refine (Exec.terminates_foldlM (I := fun l a s => J a s ∧
    ∀ range ∈ l, range ∈ s₀.registeredRootRanges) ?_ _ ⟨h,fun _ => id⟩).mono
    (fun _ _ h => h.1) (fun _ _ => id)
  rintro range l a s ⟨h,hl⟩
  obtain ⟨hb,he⟩ := hspace.ranges range (hl range List.mem_cons_self)
  exact (terminates_scanWords hb he hfuel hv h).mono
    (fun _ _ h' => ⟨h',fun r hr => hl r (List.mem_cons_of_mem _ hr)⟩) (fun _ _ => id)

end
end Scanner

/-- The live blocks whose mark byte is clear. -/
def whiteBlocks (s₀ s : State) : List BlockRecord :=
  s₀.allocations.values.filter fun block => !s.marks block.header

/-- A loop of the mark phase with `n` blocks grey or white. -/
def Remaining (s₀ : State) (n : ℕ) (worklist : Worklist) (s : State) : Prop :=
  MarkFrame s₀ worklist s ∧ worklist.items.length+(whiteBlocks s₀ s).length = n

section
variable {s₀ s : State} {worklist : Worklist} {n fuel : ℕ} {collector : ThreadId}
  {env : ScanEnvironment}

/-- Greying a block takes it from the white ones. -/
theorem length_whiteBlocks_grey (hinv : HeapInvariant s₀) {block : BlockRecord}
    (hlive : block ∈ s₀.allocations.values) (hwhite : s.marks block.header = false) :
    (whiteBlocks s₀ (s.setMarked block.header true)).length+1 = (whiteBlocks s₀ s).length := by
  have hnodup := fun s => (hinv.values_nodup.filter fun b => !State.marks s b.header)
  have hp : (whiteBlocks s₀ s).Perm (block :: whiteBlocks s₀ (s.setMarked block.header true)) := by
    refine (List.perm_ext_iff_of_nodup (hnodup s) (List.nodup_cons.mpr ⟨?_,hnodup _⟩)).mpr ?_
    · simp [State.setMarked]
    · intro b
      simp only [List.mem_filter, List.mem_cons, State.setMarked,
        Function.update_apply, Bool.not_eq_true']
      constructor
      · rintro ⟨hb,hm⟩
        by_cases he : b.header = block.header
        · exact Or.inl (hinv.header_inj hb hlive he)
        · exact Or.inr ⟨hb,by rw [if_neg he]; exact hm⟩
      · rintro (rfl | ⟨hb,hm⟩)
        · exact ⟨hlive,hwhite⟩
        · split_ifs at hm
          exact ⟨hb,hm⟩
  rw [hp.length_eq, List.length_cons]

theorem terminates_markCandidateLocked (hinv : HeapInvariant s₀) (word : ℕ)
    (h : Remaining s₀ n worklist s) :
    (markCandidateLocked worklist word).Terminates s (Remaining s₀ n) NoThrow := by
  obtain ⟨hf,hn⟩ := h
  intro supply
  rcases markCandidateLocked_run hinv hf word supply with ⟨hrun,-⟩ | ⟨block,hlive,-,hw,hrun⟩
  · rw [hrun]
    exact ⟨⟨hf,hn⟩,id⟩
  · rw [hrun]
    have hcount := length_whiteBlocks_grey (s := s) hinv hlive hw
    refine ⟨⟨hf.grey hlive hw,?_⟩,id⟩
    rw [List.length_cons]
    omega

theorem terminates_scanPayloadLocked (hinv : HeapInvariant s₀) {block : BlockRecord}
    (hlive : block ∈ s₀.allocations.values) (hend : block.payloadEnd+wordSize < addressLimit)
    (hfuel : CoversSpace fuel) (h : Remaining s₀ n worklist s) :
    (scanPayloadLocked fuel block worklist).Terminates s (Remaining s₀ n) NoThrow := by
  refine terminates_forPayloadWords hend ?_ fuel ?_ (hinv.payload_bounds hlive).2.1.le h
  · intro cur worklist s h
    exact Exec.terminates_bind (Exec.terminates_get (terminates_markCandidateLocked hinv _ h))
  · unfold CoversSpace at hfuel
    omega

/-- Every round of the drain loop pops a block that is never pushed again. -/
theorem terminates_drainMarkWorklistLocked (hinv : HeapInvariant s₀)
    (hend : ∀ b ∈ s₀.allocations.values, b.payloadEnd+wordSize < addressLimit) {scanFuel : ℕ}
    (hscan : CoversSpace scanFuel) (fuel : ℕ) :
    ∀ {n : ℕ} {worklist : Worklist} {s : State}, n < fuel → Remaining s₀ n worklist s →
      (drainMarkWorklistLocked scanFuel fuel worklist).Terminates s
        (fun _ s => s.EqButMarks s₀) NoThrow := by
  induction fuel with
  | zero => exact fun hn => absurd hn (Nat.not_lt_zero _)
  | succ fuel ih =>
    rintro n ⟨items,capacity⟩ s hn ⟨hf,hcount⟩
    cases items with
    | nil => exact Exec.terminates_pure hf.same
    | cons block items =>
      have hlive := hf.live block List.mem_cons_self
      have hpop : Remaining s₀ (n-1) ⟨items,capacity⟩ s := by
        refine ⟨hf.pop,?_⟩
        rw [List.length_cons] at hcount
        dsimp only
        omega
      have hpos : 0 < n := by
        rw [List.length_cons] at hcount
        omega
      exact Exec.terminates_bind ((terminates_scanPayloadLocked hinv hlive (hend block hlive) hscan
        hpop).mono (fun _ _ h' => ih (by omega) h') (fun _ _ => id))

/-- What bounds the loops of a collection: the walks over memory, and the number of blocks. -/
structure CollectFuel (s : State) (fuel : ℕ) : Prop where
  space : CoversSpace fuel
  blocks : s.allocations.size < fuel

theorem exists_collectFuel (s : State) : ∃ fuel₀, ∀ fuel ≥ fuel₀, CollectFuel s fuel := by
  refine ⟨addressLimit+s.allocations.size+1,fun fuel hfuel => ⟨?_,by omega⟩⟩
  simp only [CoversSpace, wordSize]
  omega

theorem terminates_markLocked (hinv : HeapInvariant s₀) (hspace : RootsInSpace s₀ env)
    (hend : ∀ b ∈ s₀.allocations.values, b.payloadEnd+wordSize < addressLimit)
    (hfuel : CollectFuel s₀ fuel) :
    (markLocked fuel collector env).Terminates s₀ (fun _ s => s.EqButMarks s₀)
      (fun e _ => e = .badAlloc) := by
  have hclear := s₀.clearMarksLocked_eqButMarks
  have hthrow : ∀ (e : GCError) (s : State), NoThrow e s → e = .badAlloc := fun _ _ => False.elim
  have hstart : Remaining s₀ (whiteBlocks s₀ s₀.clearMarksLocked).length
      ⟨[],s₀.allocations.size⟩ s₀.clearMarksLocked :=
    ⟨.start s₀,by simp⟩
  have hwhite : (whiteBlocks s₀ s₀.clearMarksLocked).length < fuel := by
    refine lt_of_le_of_lt (List.length_filter_le _ _) ?_
    rw [← OrderedMap.size_eq_length_values]
    exact hfuel.blocks
  generalize (whiteBlocks s₀ s₀.clearMarksLocked).length = n at hstart hwhite
  have hsize : s₀.clearMarksLocked.allocations.size = s₀.allocations.size := by
    rw [hclear.allocations]
  refine Exec.terminates_bind (Exec.terminates_modify (Exec.terminates_bind
    (Exec.terminates_get (Exec.terminates_bind ?_))))
  rw [hsize]
  refine Vec.terminates_reserve ?_ rfl
  have hv : ∀ word worklist s, Remaining s₀ n worklist s →
      (markCandidateLocked worklist word).Terminates s (Remaining s₀ n) NoThrow :=
    fun word _ _ h => terminates_markCandidateLocked hinv word h
  have hJ : ∀ worklist s, Remaining s₀ n worklist s → s.EqButMarks s₀ := fun _ _ h => h.1.same
  have hconstructing : (markConstructing ⟨[],s₀.allocations.size⟩).Terminates s₀.clearMarksLocked
      (Remaining s₀ n) NoThrow := terminates_visitConstructing hv hstart
  refine Exec.terminates_bind (hconstructing.mono (fun w₁ s₁ h₁ => ?_) hthrow)
  have hthreads : (scanRegisteredThreadsLocked fuel collector env w₁).Terminates s₁
      (Remaining s₀ n) NoThrow := terminates_visitThreads hspace hfuel.space hJ hv h₁
  refine Exec.terminates_bind (hthreads.mono (fun w₂ s₂ h₂ => ?_) hthrow)
  have hroots : (scanRegisteredRootsLocked fuel w₂).Terminates s₂ (Remaining s₀ n) NoThrow :=
    terminates_visitRootRanges hspace hfuel.space hJ hv h₂
  refine Exec.terminates_bind (hroots.mono (fun w₃ s₃ h₃ => ?_) hthrow)
  exact Exec.terminates_bind ((terminates_drainMarkWorklistLocked hinv hend hfuel.space fuel hwhite
    h₃).mono (fun _ _ h => Exec.terminates_pure h) hthrow)

theorem CollectFuel.enough (h : CollectFuel s fuel) {blocks : List BlockRecord}
    (hend : ∀ b ∈ blocks, b.payloadEnd < addressLimit)
    (hsub : blocks.Sublist s.allocations.values) : EnoughFuel blocks fuel := by
  have hspace := h.space
  have hsize := h.blocks
  rw [OrderedMap.size_eq_length_values] at hsize
  refine ⟨fun u hu => ?_,lt_of_le_of_lt hsub.length_le hsize⟩
  have hlt := hend u hu
  unfold CoversSpace at hspace
  omega

theorem terminates_sweepLocked (hinv : HeapInvariant s)
    (hend : ∀ b ∈ s.allocations.values, b.payloadEnd+wordSize < addressLimit)
    (hfuel : CollectFuel s fuel) :
    (sweepLocked fuel).Terminates s (fun _ _ => True) (fun e _ => e = .badAlloc) := by
  have hsub := s.unmarkedBlocks_sublist
  have hend' : ∀ b ∈ s.unmarkedBlocks, b.payloadEnd+wordSize < addressLimit :=
    fun b hb => hend b (hsub.subset hb)
  refine Exec.terminates_bind (Exec.terminates_get ?_)
  refine Exec.terminates_bind (Vec.terminates_reserve ?_ rfl)
  refine Exec.terminates_bind ((terminates_orderBlocksForFinalizationLocked
    (hinv.finalizationSet hsub) hend' (hfuel.enough (fun b hb => ?_) hsub)).mono ?_
    (fun _ _ h => h.1))
  · have := hend' b hb
    omega
  · exact fun _ _ _ => Exec.terminates_bind (Exec.terminates_modify (Exec.terminates_pure trivial))

/-- With enough fuel the window of a collection returns, unless an allocation fails. -/
theorem terminates_collectWindow (hinv : HeapInvariant s₀) (hspace : RootsInSpace s₀ env)
    (hend : ∀ b ∈ s₀.allocations.values, b.payloadEnd+wordSize < addressLimit)
    (hfuel : CollectFuel s₀ fuel) :
    (collectWindow fuel collector env).Terminates s₀ (fun _ _ => True)
      (fun e _ => e = .badAlloc) := by
  refine Exec.terminates_bind ((terminates_markLocked hinv hspace hend hfuel).mono ?_
    (fun _ _ => id))
  intro _ s hs
  have hfuel' : CollectFuel s fuel := ⟨hfuel.space,by rw [hs.allocations]; exact hfuel.blocks⟩
  refine Exec.terminates_bind ((terminates_sweepLocked (hs.invariant hinv)
    (by rw [hs.allocations]; exact hend) hfuel').mono ?_ (fun _ _ => id))
  exact fun _ _ _ => Exec.terminates_bind (Exec.terminates_modify (Exec.terminates_pure trivial))

end
end GcLib.Heap
