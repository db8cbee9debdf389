import GcLib.Heap.CollectTermination
import GcLib.Support.Ghost

/-! # What a mark phase pushes and scans

The mark phase is run again with a record of the blocks it pushed on the worklist and
of the blocks whose payloads it scanned. The record is read off the worklist, so the
run without it is the mark phase itself, down to each call of the visitor.
-/

namespace GcLib.Heap
open Support

/-- The worklist with the blocks pushed on it and the blocks scanned so far, the latest first. -/
structure TracedWorklist where
  worklist : Worklist
  pushed : List BlockRecord := []
  scanned : List BlockRecord := []

/-- The blocks by which a worklist grew. -/
def newItems (before after : Worklist) : List BlockRecord :=
  after.items.take (after.items.length-before.items.length)

def markCandidateTraced (t : TracedWorklist) (candidate : ℕ) : M TracedWorklist := do
  let worklist ← markCandidateLocked t.worklist candidate
  pure { t with worklist := worklist, pushed := newItems t.worklist worklist ++ t.pushed }

def scanPayloadTraced (fuel : ℕ) (block : BlockRecord) (t : TracedWorklist) : M TracedWorklist :=
  forPayloadWords block.payloadEnd (fun t cur => do
    let s ← Exec.get
    markCandidateTraced t (readWord s.memory cur)) fuel block.payloadBegin
      { t with scanned := block :: t.scanned }

def drainTraced (scanFuel : ℕ) : ℕ → TracedWorklist → M TracedWorklist
  | 0, _ => Exec.diverge
  | fuel+1, t =>
    match t.worklist.items with
    | [] => pure t
    | block :: items => do
      let t ← scanPayloadTraced scanFuel block { t with worklist := { t.worklist with items := items } }
      drainTraced scanFuel fuel t

/-- The mark phase once its worklist is reserved. -/
def markReservedTraced (fuel : ℕ) (collector : ThreadId) (env : ScanEnvironment)
    (t : TracedWorklist) : M TracedWorklist := do
  let t ← visitConstructing markCandidateTraced t
  let t ← visitThreads fuel collector env markCandidateTraced t
  let t ← visitRootRanges fuel markCandidateTraced t
  drainTraced fuel fuel t

def markTraced (fuel : ℕ) (collector : ThreadId) (env : ScanEnvironment) : M TracedWorklist := do
  Exec.modify State.clearMarksLocked
  let s ← Exec.get
  let worklist ← Vec.reserve .badAlloc s.allocations.size
  markReservedTraced fuel collector env { worklist := worklist }

/-! ## Forgetting the record -/

section
variable {α α' : Type} {f : α' → α} {visitor : α → ℕ → M α} {visitor' : α' → ℕ → M α'}
  {fuel : ℕ} {collector : ThreadId} {env : ScanEnvironment}

theorem erases_forPayloadWords {payloadEnd : ℕ}
    (hv : ∀ a x, Exec.Erases f (visitor' a x) (visitor (f a) x)) (fuel : ℕ) :
    ∀ cur a, Exec.Erases f (forPayloadWords payloadEnd visitor' fuel cur a)
      (forPayloadWords payloadEnd visitor fuel cur (f a)) := by
  induction fuel with
  | zero => exact fun _ _ => Exec.erases_diverge
  | succ fuel ih =>
    intro cur a
    rw [forPayloadWords, forPayloadWords]
    split_ifs
    · exact (hv a cur).bind (ih _)
    · exact Exec.erases_pure a

variable (hv : ∀ a word, Exec.Erases f (visitor' a word) (visitor (f a) word))
include hv

theorem erases_scanWordsLoop {finish : ℕ} (fuel : ℕ) :
    ∀ cur a, Exec.Erases f (scanWordsLoop finish visitor' fuel cur a)
      (scanWordsLoop finish visitor fuel cur (f a)) := by
  induction fuel with
  | zero => exact fun _ _ => Exec.erases_diverge
  | succ fuel ih =>
    intro cur a
    rw [scanWordsLoop, scanWordsLoop]
    split_ifs
    · exact Exec.erases_bind _ fun s => (hv a _).bind (ih _)
    · exact Exec.erases_pure a

theorem erases_scanWords (begin_ end_ : ℕ) (a : α') :
    Exec.Erases f (scanWords fuel begin_ end_ visitor' a)
      (scanWords fuel begin_ end_ visitor (f a)) := by
  have hascending : ∀ start finish, Exec.Erases f (scanAscending fuel start finish visitor' a)
      (scanAscending fuel start finish visitor (f a)) := by
    intro start finish
    unfold scanAscending
    dsimp only
    split_ifs
    · exact Exec.erases_pure a
    · exact erases_scanWordsLoop hv fuel _ a
  unfold scanWords
  split_ifs
  · exact Exec.erases_pure a
  · exact hascending end_ begin_
  · exact hascending begin_ end_

theorem erases_scanStackRange (top bottom : ℕ) (a : α') :
    Exec.Erases f (scanStackRange fuel top bottom visitor' a)
      (scanStackRange fuel top bottom visitor (f a)) := by
  unfold scanStackRange
  split_ifs
  · exact Exec.erases_pure a
  · exact erases_scanWords hv top bottom a

theorem erases_scanGlobals (a : α') :
    Exec.Erases f (scanGlobals fuel env visitor' a) (scanGlobals fuel env visitor (f a)) := by
  refine Exec.erases_foldlM (fun a image => ?_) _ a
  refine Exec.erases_foldlM (fun a segment => ?_) _ a
  split_ifs
  · exact erases_scanWords hv _ _ a
  · exact Exec.erases_pure a

theorem erases_rootScan (bottom : ℕ) (a : α') :
    Exec.Erases f (rootScan fuel bottom env visitor' a) (rootScan fuel bottom env visitor (f a)) :=
  (Exec.erases_foldlM hv _ a).bind fun a =>
    (erases_scanStackRange hv _ _ a).bind fun a => erases_scanGlobals hv a

theorem erases_visitConstructing (a : α') :
    Exec.Erases f (visitConstructing visitor' a) (visitConstructing visitor (f a)) := by
  refine Exec.erases_bind _ fun s => Exec.erases_foldlM (fun a entry => ?_) _ a
  split_ifs
  · exact hv a _
  · exact Exec.erases_pure a

theorem erases_visitThreads (a : α') :
    Exec.Erases f (visitThreads fuel collector env visitor' a)
      (visitThreads fuel collector env visitor (f a)) := by
  refine Exec.erases_bind _ fun s => Exec.erases_foldlM (fun a entry => ?_) _ a
  unfold visitThread
  split_ifs
  · exact Exec.erases_pure a
  · exact erases_rootScan hv _ a
  · exact (Exec.erases_foldlM hv _ a).bind fun a => erases_scanStackRange hv _ _ a

theorem erases_visitRootRanges (a : α') :
    Exec.Erases f (visitRootRanges fuel visitor' a) (visitRootRanges fuel visitor (f a)) :=
  Exec.erases_bind _ fun _ => Exec.erases_foldlM (fun a _ => erases_scanWords hv _ _ a) _ a

end

theorem erases_markCandidateTraced (t : TracedWorklist) (word : ℕ) :
    Exec.Erases TracedWorklist.worklist (markCandidateTraced t word)
      (markCandidateLocked t.worklist word) := by
  intro s supply
  rw [markCandidateTraced, Exec.bind_run]
  cases markCandidateLocked t.worklist word s supply <;> rfl

theorem erases_drainTraced (scanFuel : ℕ) (fuel : ℕ) :
    ∀ t, Exec.Erases TracedWorklist.worklist (drainTraced scanFuel fuel t)
      (drainMarkWorklistLocked scanFuel fuel t.worklist) := by
  induction fuel with
  | zero => exact fun _ => Exec.erases_diverge
  | succ fuel ih =>
    rintro ⟨⟨items,capacity⟩,pushed,scanned⟩
    cases items with
    | nil => exact Exec.erases_pure _
    | cons block items =>
      exact (erases_forPayloadWords (fun t cur => Exec.erases_bind _ fun s =>
        erases_markCandidateTraced t _) scanFuel _ _).bind ih

/-- Without its record the traced mark phase is the mark phase. -/
theorem erases_markTraced (fuel : ℕ) (collector : ThreadId) (env : ScanEnvironment) :
    Exec.Erases (fun _ => ()) (markTraced fuel collector env) (markLocked fuel collector env) := by
  refine Exec.erases_bind _ fun _ => Exec.erases_bind _ fun _ => Exec.erases_bind _ fun _ => ?_
  refine (erases_visitConstructing erases_markCandidateTraced _).bind fun t => ?_
  refine (erases_visitThreads erases_markCandidateTraced t).bind fun t => ?_
  refine (erases_visitRootRanges erases_markCandidateTraced t).bind fun t => ?_
  have hdrain := erases_drainTraced fuel fuel t
  intro s supply
  rw [Exec.bind_run, hdrain s supply]
  cases drainTraced fuel fuel t s supply <;> rfl

/-! ## The record -/

/-- A mark phase under way: the pushed blocks are the marked ones, each was pushed once, and each
was scanned or waits on the worklist. -/
structure TraceFrame (s₀ : State) (t : TracedWorklist) (s : State) : Prop where
  frame : MarkFrame s₀ t.worklist s
  pushed_nodup : t.pushed.Nodup
  mem_pushed : ∀ b, b ∈ t.pushed ↔ MarkedBlock s₀ s b
  accounted : t.pushed.Perm (t.worklist.items ++ t.scanned)

section
variable {s₀ s : State} {t : TracedWorklist} {fuel : ℕ} {collector : ThreadId}
  {env : ScanEnvironment}

theorem TraceFrame.start (s₀ : State) :
    TraceFrame s₀ { worklist := ⟨[],s₀.allocations.size⟩ } s₀.clearMarksLocked where
  frame := .start s₀
  pushed_nodup := List.nodup_nil
  mem_pushed b := by
    refine ⟨fun h => absurd h List.not_mem_nil,fun ⟨hb,hm⟩ => ?_⟩
    rw [State.clearMarksLocked_marks, if_pos (List.mem_map_of_mem hb)] at hm
    cases hm
  accounted := .nil

/-- There are no more pushes than there are live blocks. -/
theorem TraceFrame.length_pushed_le (h : TraceFrame s₀ t s) :
    t.pushed.length ≤ s₀.allocations.size := by
  have hsub : t.pushed.Subperm s₀.allocations.values :=
    h.pushed_nodup.subperm fun b hb => ((h.mem_pushed b).mp hb).1
  rw [OrderedMap.size_eq_length_values]
  exact hsub.length_le

/-- One visit: nothing happens, or a white block is pushed; no allocation is made. -/
theorem markCandidateTraced_run (hinv : HeapInvariant s₀) (h : TraceFrame s₀ t s) (word : ℕ)
    (supply : Supply) : ∃ t' s', markCandidateTraced t word s supply = .returns t' s' supply ∧
      TraceFrame s₀ t' s' ∧
      (t' = t ∧ s' = s ∨ ∃ block, block ∉ t.pushed ∧ t'.pushed = block :: t.pushed) := by
  rw [markCandidateTraced, Exec.bind_run]
  rcases markCandidateLocked_run hinv h.frame word supply with
    ⟨hrun,-⟩ | ⟨block,hlive,-,hwhite,hrun⟩
  · rw [hrun]
    have hnone : newItems t.worklist t.worklist = [] := by simp [newItems]
    refine ⟨t,s,?_,h,Or.inl ⟨rfl,rfl⟩⟩
    dsimp only
    rw [hnone]
    rfl
  · rw [hrun]
    have hone : newItems t.worklist { t.worklist with items := block :: t.worklist.items } =
        [block] := by simp [newItems]
    have hnew : block ∉ t.pushed := by
      intro hmem
      have hm := ((h.mem_pushed block).mp hmem).2
      rw [hwhite] at hm
      cases hm
    refine ⟨_,_,rfl,?_,Or.inr ⟨block,hnew,by rw [hone]; rfl⟩⟩
    rw [hone]
    exact {
      frame := h.frame.grey hlive hwhite
      pushed_nodup := List.nodup_cons.mpr ⟨hnew,h.pushed_nodup⟩
      mem_pushed := fun b => by
        rw [markedBlock_setMarked hinv hlive, List.singleton_append, List.mem_cons, h.mem_pushed]
      accounted := h.accounted.cons block }

/-- A traced loop with `n` blocks grey or white. -/
def TracedRemaining (s₀ : State) (n : ℕ) (t : TracedWorklist) (s : State) : Prop :=
  TraceFrame s₀ t s ∧ Remaining s₀ n t.worklist s

theorem terminates_markCandidateTraced (hinv : HeapInvariant s₀) {n : ℕ} (word : ℕ)
    (h : TracedRemaining s₀ n t s) :
    (markCandidateTraced t word).Terminates s (TracedRemaining s₀ n) NoThrow := by
  intro supply
  obtain ⟨t',s',hrun,htrace,-⟩ := markCandidateTraced_run hinv h.1 word supply
  have hplain := (erases_markCandidateTraced t word).returns hrun
  have hcount := terminates_markCandidateLocked hinv word h.2 supply
  rw [hplain] at hcount
  rw [hrun]
  exact ⟨⟨htrace,hcount.1⟩,id⟩

theorem terminates_scanPayloadTraced (hinv : HeapInvariant s₀) {block : BlockRecord} {n : ℕ}
    (hlive : block ∈ s₀.allocations.values) (hend : block.payloadEnd+wordSize < addressLimit)
    (hfuel : CoversSpace fuel)
    (h : TracedRemaining s₀ n { t with scanned := block :: t.scanned } s) :
    (scanPayloadTraced fuel block t).Terminates s (TracedRemaining s₀ n) NoThrow := by
  refine terminates_forPayloadWords hend ?_ fuel ?_ (hinv.payload_bounds hlive).2.1.le h
  · intro cur t s h
    exact Exec.terminates_bind (Exec.terminates_get (terminates_markCandidateTraced hinv _ h))
  · unfold CoversSpace at hfuel
    omega

/-- The drain loop ends with an empty worklist; every round scans the block it pops. -/
theorem terminates_drainTraced (hinv : HeapInvariant s₀)
    (hend : ∀ b ∈ s₀.allocations.values, b.payloadEnd+wordSize < addressLimit) {scanFuel : ℕ}
    (hscan : CoversSpace scanFuel) (fuel : ℕ) :
    ∀ {n : ℕ} {t : TracedWorklist} {s : State}, n < fuel → TracedRemaining s₀ n t s →
      (drainTraced scanFuel fuel t).Terminates s
        (fun t s => TraceFrame s₀ t s ∧ t.worklist.items = []) NoThrow := by
  induction fuel with
  | zero => exact fun hn => absurd hn (Nat.not_lt_zero _)
  | succ fuel ih =>
    rintro n ⟨⟨items,capacity⟩,pushed,scanned⟩ s hn ⟨htrace,hf,hcount⟩
    cases items with
    | nil => exact Exec.terminates_pure ⟨htrace,rfl⟩
    | cons block items =>
      have hlive := hf.live block List.mem_cons_self
      rw [List.length_cons] at hcount
      have hpop : TracedRemaining s₀ (n-1) ⟨⟨items,capacity⟩,pushed,block :: scanned⟩ s := by
        refine ⟨⟨hf.pop,htrace.pushed_nodup,htrace.mem_pushed,?_⟩,hf.pop,?_⟩
        · exact htrace.accounted.trans List.perm_middle.symm
        · dsimp only
          omega
      exact Exec.terminates_bind ((terminates_scanPayloadTraced hinv hlive (hend block hlive) hscan
        hpop).mono (fun _ _ h' => ih (by omega) h') (fun _ _ => id))

/-- Once the worklist is reserved the mark phase throws nothing and drains it. -/
theorem terminates_markReservedTraced (hinv : HeapInvariant s₀) (hspace : RootsInSpace s₀ env)
    (hend : ∀ b ∈ s₀.allocations.values, b.payloadEnd+wordSize < addressLimit)
    (hfuel : CollectFuel s₀ fuel) :
    (markReservedTraced fuel collector env { worklist := ⟨[],s₀.allocations.size⟩ }).Terminates
      s₀.clearMarksLocked (fun t s => TraceFrame s₀ t s ∧ t.worklist.items = []) NoThrow := by
  have hstart : TracedRemaining s₀ (whiteBlocks s₀ s₀.clearMarksLocked).length
      { worklist := ⟨[],s₀.allocations.size⟩ } s₀.clearMarksLocked :=
    ⟨.start s₀,.start s₀,by simp⟩
  have hwhite : (whiteBlocks s₀ s₀.clearMarksLocked).length < fuel := by
    refine lt_of_le_of_lt (List.length_filter_le _ _) ?_
    rw [← OrderedMap.size_eq_length_values]
    exact hfuel.blocks
  generalize (whiteBlocks s₀ s₀.clearMarksLocked).length = n at hstart hwhite
  have hv : ∀ word t s, TracedRemaining s₀ n t s →
      (markCandidateTraced t word).Terminates s (TracedRemaining s₀ n) NoThrow :=
    fun word _ _ h => terminates_markCandidateTraced hinv word h
  have hJ : ∀ t s, TracedRemaining s₀ n t s → s.EqButMarks s₀ := fun _ _ h => h.1.frame.same
  refine Exec.terminates_bind ((terminates_visitConstructing hv hstart).mono
    (fun t₁ s₁ h₁ => ?_) (fun _ _ => id))
  refine Exec.terminates_bind ((terminates_visitThreads hspace hfuel.space hJ hv h₁).mono
    (fun t₂ s₂ h₂ => ?_) (fun _ _ => id))
  exact Exec.terminates_bind ((terminates_visitRootRanges hspace hfuel.space hJ hv h₂).mono
    (fun t₃ s₃ h₃ => terminates_drainTraced hinv hend hfuel.space fuel hwhite h₃) (fun _ _ => id))

end
end GcLib.Heap
