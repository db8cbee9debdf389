import GcLib.Heap.MarkTrace
import GcLib.Protocol.Reachable

/-! # The mark phase within its reserve

The worklist is reserved for as many blocks as are live. A block is pushed when its
mark byte is set and never again, so the pushes of one collection fit: none of them
grows the vector, and none throws, whichever allocation is made to fail. What is
pushed is popped and scanned once.
-/

namespace GcLib.Properties
open GcLib.Heap GcLib.Support GcLib.Protocol

/-- A finished mark phase, with its record. -/
structure WithinReserve (s₀ : State) (t : TracedWorklist) (s : State) : Prop where
  drained : t.worklist.items = []
  pushed_nodup : t.pushed.Nodup
  pushed_le : t.pushed.length ≤ s₀.allocations.size
  capacity : t.worklist.capacity = s₀.allocations.size
  pushed_iff : ∀ b, b ∈ t.pushed ↔ b ∈ s₀.allocations.values ∧ s.marks b.header = true
  scanned : t.scanned.Perm t.pushed

/-- The reservation of the worklist. -/
def reserveWorklist (n : ℕ) : M Worklist := Vec.reserve .badAlloc n

theorem reserveWorklist_run (n : ℕ) (s : State) (supply : Supply) :
    reserveWorklist n s supply = .throws .badAlloc s ∨
      ∃ left, reserveWorklist n s supply = .returns ⟨[],n⟩ s left := by
  have hterm : (reserveWorklist n).Terminates s (fun worklist s' => worklist = ⟨[],n⟩ ∧ s' = s)
      (fun e s' => e = .badAlloc ∧ s' = s) := Vec.terminates_reserve ⟨rfl,rfl⟩ ⟨rfl,rfl⟩
  rcases hterm.returns_or_throws supply with ⟨_,_,left,hrun,rfl,rfl⟩ | ⟨_,_,hrun,rfl,rfl⟩
  · exact Or.inr ⟨left,hrun⟩
  · exact Or.inl hrun

theorem TraceFrame.withinReserve {s₀ s : State} {t : TracedWorklist} (h : TraceFrame s₀ t s)
    (hdrained : t.worklist.items = []) : WithinReserve s₀ t s where
  drained := hdrained
  pushed_nodup := h.pushed_nodup
  pushed_le := h.length_pushed_le
  capacity := h.frame.capacity
  pushed_iff := h.mem_pushed
  scanned := by
    have hperm := h.accounted
    rw [hdrained, List.nil_append] at hperm
    exact hperm.symm

/-- In every heap whose blocks end below the last eight bytes of the address space, and for all
roots and payloads, the mark phase throws only if its reservation does. It ends with an empty
worklist, after it pushed and scanned each marked block once and grew the worklist never; a visit,
and a whole call of the loader with its visits, makes no allocation. -/
theorem marking_within_reserve {s₀ : State} {env : ScanEnvironment} (hinv : HeapInvariant s₀)
    (hspace : RootsInSpace s₀ env)
    (hend : ∀ b ∈ s₀.allocations.values, b.payloadEnd+wordSize < addressLimit)
    (collector : ThreadId) :
    ∃ fuel₀, ∀ fuel ≥ fuel₀,
      Exec.Erases (fun _ => ()) (markTraced fuel collector env) (markLocked fuel collector env) ∧
      (∀ supply,
        reserveWorklist s₀.allocations.size s₀.clearMarksLocked supply =
            .throws .badAlloc s₀.clearMarksLocked ∧
          markTraced fuel collector env s₀ supply = .throws .badAlloc s₀.clearMarksLocked ∨
        ∃ t s left, markTraced fuel collector env s₀ supply = .returns t s left ∧
          WithinReserve s₀ t s) ∧
      (∀ t s, TraceFrame s₀ t s → t.pushed.length ≤ s₀.allocations.size ∧
        t.worklist.capacity = s₀.allocations.size ∧ ∀ word supply, ∃ t' s',
          markCandidateTraced t word s supply = .returns t' s' supply ∧ TraceFrame s₀ t' s' ∧
          (t' = t ∧ s' = s ∨ ∃ block, block ∉ t.pushed ∧ t'.pushed = block :: t.pushed)) ∧
      ∀ t s, TraceFrame s₀ t s → ∀ supply, ∃ t' s' left,
        scanGlobals fuel env markCandidateTraced t s supply = .returns t' s' left ∧
          TraceFrame s₀ t' s' := by
  obtain ⟨fuel₀,hfuel₀⟩ := exists_collectFuel s₀
  refine ⟨fuel₀,fun fuel hfuel => ⟨erases_markTraced fuel collector env,fun supply => ?_,
    fun t s h => ⟨h.length_pushed_le,h.frame.capacity,fun word supply =>
      markCandidateTraced_run hinv h word supply⟩,fun t s h supply => ?_⟩⟩
  · have hmarked : (markReservedTraced fuel collector env
        { worklist := ⟨[],s₀.allocations.size⟩ }).Terminates s₀.clearMarksLocked
        (fun t s => TraceFrame s₀ t s ∧ t.worklist.items = []) NoThrow :=
      terminates_markReservedTraced hinv hspace hend (hfuel₀ fuel hfuel)
    have hrun : markTraced fuel collector env s₀ supply =
        (reserveWorklist s₀.clearMarksLocked.allocations.size >>= fun worklist =>
          markReservedTraced fuel collector env { worklist := worklist })
            s₀.clearMarksLocked supply := rfl
    rw [s₀.clearMarksLocked_eqButMarks.allocations, Exec.bind_run] at hrun
    rcases reserveWorklist_run s₀.allocations.size s₀.clearMarksLocked supply with
      hthrows | ⟨left,hreturns⟩
    · rw [hthrows] at hrun
      exact Or.inl ⟨hthrows,hrun⟩
    · rw [hreturns] at hrun
      rcases hmarked.returns_or_throws left with ⟨t,s,left',hmark,ht,hdrained⟩ | ⟨_,_,_,hthrow⟩
      · exact Or.inr ⟨t,s,left',hrun.trans hmark,TraceFrame.withinReserve ht hdrained⟩
      · exact hthrow.elim
  · have hv : ∀ word t s, TraceFrame s₀ t s →
        (markCandidateTraced t word).Terminates s (TraceFrame s₀) NoThrow := by
      intro word t s h supply
      obtain ⟨t',s',hrun,h',-⟩ := markCandidateTraced_run hinv h word supply
      rw [hrun]
      exact ⟨h',id⟩
    have hglobals : (scanGlobals fuel env markCandidateTraced t).Terminates s (TraceFrame s₀)
        NoThrow := terminates_scanGlobals (hfuel₀ fuel hfuel).space hv h
    rcases hglobals.returns_or_throws supply with ⟨t',s',left,hrun,h'⟩ | ⟨_,_,_,hthrow⟩
    · exact ⟨t',s',left,hrun,h'⟩
    · exact hthrow.elim

/-- The root word keeps the first of two blocks, and its reference the second. -/
theorem retained_pairRun : ∀ b ∈ (worldAfter pairRun).state.allocations.values,
    Retained (worldAfter pairRun).state 0 {} b := by
  have hrange : (⟨256,264⟩ : RootRange) ∈ (worldAfter pairRun).state.registeredRootRanges := by
    decide +kernel
  have hword : 4128 ∈ rangeWords (worldAfter pairRun).state.memory 256 264 := by decide +kernel
  have hroot : MarkRoot (worldAfter pairRun).state 0 {} ⟨4096,4128,4144,false⟩ :=
    ⟨by decide +kernel,Or.inr ⟨4128,.range hrange hword,by decide⟩⟩
  have hedge : References (worldAfter pairRun).state ⟨4096,4128,4144,false⟩
      ⟨8192,8224,8240,false⟩ := ⟨by decide +kernel,4128,by decide +kernel,by decide +kernel⟩
  have hvalues : (worldAfter pairRun).state.allocations.values =
      [⟨4096,4128,4144,false⟩,⟨8192,8224,8240,false⟩] := by decide +kernel
  intro b hb
  rw [hvalues, List.mem_pair] at hb
  rcases hb with rfl | rfl
  · exact .of_root hroot
  · exact (Reached.of_root hroot).step hedge

/-- Both blocks are pushed and scanned. -/
theorem marking_within_reserve_pairRun : ∃ fuel₀, ∀ fuel ≥ fuel₀, ∃ t s left,
    markTraced fuel 0 {} (worldAfter pairRun).state none = .returns t s left ∧
      WithinReserve (worldAfter pairRun).state t s ∧
      ∀ b ∈ (worldAfter pairRun).state.allocations.values, b ∈ t.scanned := by
  have hinv := (reachable_worldAfter pairRun).invariant
  have hspace : RootsInSpace (worldAfter pairRun).state {} :=
    hinv.protocol.rootsInSpace (by decide)
  obtain ⟨fuel₀,h⟩ := marking_within_reserve hinv.heap hspace (by decide +kernel) 0
  refine ⟨fuel₀,fun fuel hfuel => ?_⟩
  obtain ⟨herases,hruns,-⟩ := h fuel hfuel
  rcases hruns none with ⟨hthrows,-⟩ | ⟨t,s,left,hrun,hwithin⟩
  · rcases (Vec.terminates_reserve (n := (worldAfter pairRun).state.allocations.size)
      (s := (worldAfter pairRun).state.clearMarksLocked) (e := GCError.badAlloc)
      (Q := fun (_ : Worklist) _ => True) (E := fun _ _ => True) trivial trivial).returns with
      ⟨_,_,hreserves,-⟩
    rw [reserveWorklist, hreserves] at hthrows
    cases hthrows
  · have hmarks : markLocked fuel 0 {} (worldAfter pairRun).state none = .returns () s left := by
      rw [herases, hrun]
    have hmarked := ((meets_markLocked hinv.heap hspace fuel).returns hmarks).marked_iff
    refine ⟨t,s,left,hrun,hwithin,fun b hb => hwithin.scanned.mem_iff.mpr ?_⟩
    exact (hwithin.pushed_iff b).mpr ⟨hb,(hmarked b hb).mpr (retained_pairRun b hb)⟩

end GcLib.Properties
