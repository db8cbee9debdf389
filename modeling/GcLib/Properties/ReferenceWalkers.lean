import GcLib.Properties.PointerLookup

/-! # One reference graph

The graph a snapshot of the live objects reports is the one the mark phase follows and
the one the finalization order is computed from, for every set of blocks it is given.
A collection keeps the closure of its roots in that graph.
-/

namespace GcLib.Properties
open GcLib.Heap GcLib.Support GcLib.Protocol

/-- The snapshot lists `v` among the references of `u`. -/
def ReportedEdge (s : State) (objects : List HeapObjectInfo) (u v : BlockRecord) : Prop :=
  u ∈ s.allocations.values ∧ v ∈ s.allocations.values ∧
    ∃ o ∈ objects, o.payload = u.payloadBegin ∧ v.payloadBegin ∈ o.outgoingReferences

/-- References are listed once, name other objects, and name objects of the same snapshot. -/
structure WellReported (objects : List HeapObjectInfo) (o : HeapObjectInfo) : Prop where
  nodup : o.outgoingReferences.Nodup
  not_self : o.payload ∉ o.outgoingReferences
  inside : ∀ p ∈ o.outgoingReferences, ∃ o' ∈ objects, o'.payload = p

section
variable {s : State} {objects : List HeapObjectInfo} {u v : BlockRecord}

theorem payloads_eq {blocks : List BlockRecord} (h : List.Forall₂ (Describes s) blocks objects) :
    objects.map HeapObjectInfo.payload = blocks.map BlockRecord.payloadBegin := by
  induction h with
  | nil => rfl
  | cons hd _ ih => rw [List.map_cons, List.map_cons, hd.payload, ih]

variable (hinv : HeapInvariant s)
  (h : List.Forall₂ (Describes s) s.allocations.values objects)

include hinv h

theorem reportedEdge_iff :
    ReportedEdge s objects u v ↔ u ∈ s.allocations.values ∧ ReferencesOther s u v := by
  obtain ⟨hback,hforth⟩ := exists_describes h
  constructor
  · rintro ⟨hu,hv,o,ho,hpayload,hmem⟩
    obtain ⟨b,hb,hd⟩ := hback o ho
    obtain rfl := hinv.payloadBegin_inj hb hu (hd.payload.symm.trans hpayload)
    obtain ⟨v',hv',heq⟩ := (hd.references.mem _).mp hmem
    obtain rfl := hinv.payloadBegin_inj hv hv'.1.1 heq
    exact ⟨hb,hv'⟩
  · rintro ⟨hu,hv⟩
    obtain ⟨o,ho,hd⟩ := hforth u hu
    exact ⟨hu,hv.1.1,o,ho,hd.payload,(hd.references.mem _).mpr ⟨v,hv,rfl⟩⟩

theorem wellReported {b : BlockRecord} {o : HeapObjectInfo} (hb : b ∈ s.allocations.values)
    (hd : Describes s b o) : WellReported objects o := by
  refine ⟨hd.references.nodup,fun hself => ?_,fun p hp => ?_⟩
  · obtain ⟨v,hv,heq⟩ := (hd.references.mem _).mp hself
    rw [hd.payload] at heq
    exact hv.2 (hinv.payloadBegin_inj hb hv.1.1 heq).symm
  · obtain ⟨v,hv,rfl⟩ := (hd.references.mem p).mp hp
    obtain ⟨o',ho',hd'⟩ := (exists_describes h).2 v hv.1.1
    exact ⟨o',ho',hd'.payload⟩

/-- References of a block to itself change no closure. -/
theorem reached_reportedEdge (root : BlockRecord → Prop)
    (hroot : ∀ b, root b → b ∈ s.allocations.values) (b : BlockRecord) :
    Reached root (ReportedEdge s objects) b ↔ Reached root (References s) b := by
  constructor
  · rintro ⟨r,hr,hrb⟩
    have hsub : ∀ u v, ReportedEdge s objects u v → References s u v :=
      fun u v huv => ((reportedEdge_iff hinv h).mp huv).2.1
    exact ⟨r,hr,hrb.lift id hsub⟩
  · rintro ⟨r,hr,hrb⟩
    induction hrb with
    | refl => exact .of_root hr
    | @tail u v hru huv ih =>
      by_cases he : v = u
      · exact he ▸ ih
      · have hu : u ∈ s.allocations.values := by
          cases hru with
          | refl => exact hroot _ hr
          | tail _ hxu => exact hxu.1
        exact ih.step ((reportedEdge_iff hinv h).mpr ⟨hu,huv,he⟩)

end

/-- Every walk over the payloads returns once it has fuel, and all of them see one graph. -/
theorem one_reference_graph {w : World} (h : ReachableWorld w)
    (hend : ∀ b ∈ w.state.allocations.values, b.payloadEnd+wordSize < addressLimit) :
    (∃ fuel₀, ∀ fuel ≥ fuel₀,
      (∃ objects, liveObjectsLocked fuel w.state none = .returns objects w.state none) ∧
      (∀ pointer, ∃ o, objectInfoLocked fuel pointer w.state none = .returns o w.state none) ∧
      (∀ u ∈ w.state.allocations.values, ∀ marks worklist, ∃ worklist' s',
        scanPayloadLocked fuel u worklist { w.state with marks := marks } none =
          .returns worklist' s' none) ∧
      ∀ S, S.Sublist w.state.allocations.values → ∃ graph,
        (indexBlocksByBegin S >>= collectEdges fuel S) w.state none =
          .returns graph w.state none) ∧
    ∀ fuel supply objects s left,
      liveObjectsLocked fuel w.state supply = .returns objects s left →
      s = w.state ∧
      objects.map HeapObjectInfo.payload =
        w.state.allocations.values.map BlockRecord.payloadBegin ∧
      (∀ o ∈ objects, WellReported objects o) ∧
      (∀ fuel supply pointer result s left,
        objectInfoLocked fuel pointer w.state supply = .returns result s left →
        s = w.state ∧
        ((∀ b ∈ w.state.allocations.values, ¬ b.Contains pointer) → result = none) ∧
        ∀ b ∈ w.state.allocations.values, b.Contains pointer →
          ∃ o ∈ objects, result = some o ∧ o.payload = b.payloadBegin ∧
            b.payloadEnd = o.payload+o.payloadSize) ∧
      (∀ u ∈ w.state.allocations.values, ∀ v ∈ w.state.allocations.values, v ≠ u →
        ∀ fuel supply marks worklist worklist' s left, marks v.header = false →
        scanPayloadLocked fuel u worklist { w.state with marks := marks } supply =
          .returns worklist' s left →
        (s.marks v.header = true ↔ ReportedEdge w.state objects u v)) ∧
      (∀ S, S.Sublist w.state.allocations.values → ∀ fuel supply graph s left,
        (indexBlocksByBegin S >>= collectEdges fuel S) w.state supply = .returns graph s left →
        ∀ i j, j ∈ (graph.edges i).items ↔ i < S.length ∧ j < S.length ∧
          ReportedEdge w.state objects (blockAt S i) (blockAt S j)) ∧
      ∀ thread choice w' blocks, Completes thread choice .collect w w' blocks → ∀ b,
        b ∈ w'.state.allocations.values ↔
          Reached (MarkRoot w.state thread choice.env) (ReportedEdge w.state objects) b := by
  have hinv := h.invariant.heap
  constructor
  · obtain ⟨fuel₀,hfuel₀⟩ := exists_enoughFuel w.state.allocations.values
    refine ⟨fuel₀,fun fuel hfuel => ?_⟩
    have hfuel := hfuel₀ fuel hfuel
    refine ⟨?_,fun pointer => ?_,fun u hu marks worklist => ?_,fun S hS => ?_⟩
    · obtain ⟨objects,s,hrun,rfl⟩ := (terminates_liveObjectsLocked hinv hend hfuel).returns
      exact ⟨objects,hrun⟩
    · obtain ⟨o,s,hrun,rfl⟩ := (terminates_objectInfoLocked hinv hend hfuel pointer).returns
      exact ⟨o,hrun⟩
    · have hmarks : HeapInvariant { w.state with marks := marks } := hinv.congr rfl rfl rfl rfl
      obtain ⟨worklist',s',hrun,-⟩ := (terminates_scanPayloadLocked_any hmarks hu (hend u hu)
        (hfuel.words u hu) worklist).returns
      exact ⟨worklist',s',hrun⟩
    · have hS' : EnoughFuel S fuel := ⟨fun b hb => hfuel.words b (hS.subset hb),
        lt_of_le_of_lt hS.length_le hfuel.rounds⟩
      have hterminates : (indexBlocksByBegin S >>= collectEdges fuel S).Terminates w.state
          (fun _ s => s = w.state) (Unchanged w.state) := by
        refine Exec.terminates_bind (terminates_indexBlocksByBegin.mono ?_ (fun _ _ => id))
        rintro indexByBegin s rfl
        exact terminates_collectEdges (hinv.finalizationSet hS)
          (fun b hb => hend b (hS.subset hb)) hS'
      obtain ⟨graph,s,hrun,rfl⟩ := hterminates.returns
      exact ⟨graph,hrun⟩
  · intro fuel supply objects s left hrun
    obtain ⟨rfl,hobjects⟩ := (meets_liveObjectsLocked_exact hinv).returns hrun
    refine ⟨rfl,payloads_eq hobjects,fun o ho => ?_,?_,?_,?_,?_⟩
    · obtain ⟨b,hb,hd⟩ := (exists_describes hobjects).1 o ho
      exact wellReported hinv hobjects hb hd
    · intro fuel supply pointer result s left hrun'
      obtain ⟨rfl,rfl⟩ := (meets_objectInfoLocked_value hinv fuel pointer).returns hrun'
      refine ⟨rfl,fun hnone => ?_,fun b hb hcontains => ?_⟩
      · rw [hinv.findBlockLocked_eq_none.mpr hnone]
        rfl
      · have hf := hinv.findBlockLocked_eq_some.mpr ⟨hb,hcontains⟩
        obtain ⟨-,rfl,-⟩ := (meets_liveObjectsLocked_value hinv _).returns hrun
        have hpayload : (description w.state b).payload = b.payloadBegin :=
          hinv.payloadBegin_header hb
        refine ⟨description w.state b,List.mem_map_of_mem hb,by rw [hf]; rfl,hpayload,?_⟩
        rw [hpayload]
        exact (hinv.header_size hb).1
    · intro u hu v hv hne fuel supply marks worklist worklist' s left hwhite hscan
      have hmarks : HeapInvariant { w.state with marks := marks } := hinv.congr rfl rfl rfl rfl
      have hexact := (meets_scanPayloadLocked_exact hmarks hu worklist).returns hscan v hv
      rw [hexact, reportedEdge_iff hinv hobjects]
      change marks v.header = true ∨ References w.state u v ↔ _
      rw [hwhite]
      exact ⟨fun hor => ⟨hu,hor.resolve_left (by simp),hne⟩,fun hd => Or.inr hd.2.1⟩
    · intro S hS fuel supply graph s left hrun'
      have hset := hinv.finalizationSet hS
      have hmeets : (indexBlocksByBegin S >>= collectEdges fuel S).Meets w.state
          (fun graph _ => Recording w.state S (fun _ _ => False) graph) (Unchanged w.state) := by
        refine Exec.meets_bind ((meets_indexBlocksByBegin hset).mono ?_ (fun _ _ => id))
        rintro indexByBegin s ⟨rfl,hindex⟩
        exact (meets_collectEdges hset hindex fuel).mono (fun _ _ h' => h'.2) (fun _ _ => id)
      intro i j
      refine ((hmeets.returns hrun').edge_iff i j).trans ?_
      refine and_congr_right fun hi => and_congr_right fun hj => ?_
      rw [dependsOn_iff (fun b hb => hS.subset hb), reportedEdge_iff hinv hobjects]
      have hlive := hS.subset (FinalizationSet.blockAt_mem hi)
      exact ⟨fun hd => ⟨hlive,hd.2.2⟩,fun hd => ⟨FinalizationSet.blockAt_mem hi,
        FinalizationSet.blockAt_mem hj,hd.2⟩⟩
    · intro thread choice w' blocks hc b
      obtain ⟨dead,hcollected⟩ := hc.collected h
      rw [hcollected.mem_values hinv, reached_reportedEdge hinv hobjects _ (fun _ hb => hb.1)]
      rfl

/-- The blocks a payload scan marks, from white ones. -/
def scannedMarks (s : State) (block : BlockRecord) : Option (List ℕ) :=
  match scanPayloadLocked 8 block ⟨[],s.allocations.size⟩ { s with marks := fun _ => false } none with
  | .returns _ s' _ => some ((s.allocations.values.map BlockRecord.header).filter s'.marks)
  | _ => none

/-- Two blocks refer to each other in every snapshot, as the mark phase finds. -/
theorem one_reference_graph_pairRun :
    (∃ fuel objects, liveObjectsLocked fuel (worldAfter pairRun).state none =
      .returns objects (worldAfter pairRun).state none) ∧
    ∀ fuel supply objects s left,
      liveObjectsLocked fuel (worldAfter pairRun).state supply = .returns objects s left →
      objects.map HeapObjectInfo.payload = [4128,8224] ∧
      ReportedEdge (worldAfter pairRun).state objects ⟨4096,4128,4144,false⟩
        ⟨8192,8224,8240,false⟩ ∧
      ReportedEdge (worldAfter pairRun).state objects ⟨8192,8224,8240,false⟩
        ⟨4096,4128,4144,false⟩ ∧
      ∀ fuel supply result s left,
        objectInfoLocked fuel 8227 (worldAfter pairRun).state supply = .returns result s left →
          ∃ o ∈ objects, result = some o ∧ o.payload = 8224 := by
  obtain ⟨⟨fuel₀,hreturns⟩,hexact⟩ :=
    one_reference_graph (reachable_worldAfter pairRun) (by decide +kernel)
  refine ⟨⟨fuel₀,(hreturns fuel₀ le_rfl).1⟩,fun fuel supply objects s left hrun => ?_⟩
  obtain ⟨-,hpayloads,-,hinfo,hscan,-⟩ := hexact fuel supply objects s left hrun
  have hedge : ∀ u ∈ (worldAfter pairRun).state.allocations.values,
      ∀ v ∈ (worldAfter pairRun).state.allocations.values, v ≠ u →
        (∃ headers, scannedMarks (worldAfter pairRun).state u = some headers ∧
          v.header ∈ headers) → ReportedEdge (worldAfter pairRun).state objects u v := by
    rintro u hu v hv hne ⟨headers,hmarks,hmem⟩
    unfold scannedMarks at hmarks
    split at hmarks
    · rename_i worklist s' left' hrun'
      cases hmarks
      exact (hscan u hu v hv hne _ _ _ _ _ _ _ rfl hrun').mp (List.mem_filter.mp hmem).2
    · cases hmarks
  refine ⟨hpayloads.trans (by decide +kernel),
    hedge _ (by decide +kernel) _ (by decide +kernel) (by decide)
      ⟨[8192],by decide +kernel,by decide⟩,
    hedge _ (by decide +kernel) _ (by decide +kernel) (by decide)
      ⟨[4096],by decide +kernel,by decide⟩,
    fun fuel supply result s left hrun' => ?_⟩
  obtain ⟨-,-,hfound⟩ := hinfo fuel supply 8227 result s left hrun'
  obtain ⟨o,ho,hresult,hpayload,-⟩ :=
    hfound ⟨8192,8224,8240,false⟩ (by decide +kernel) (by decide)
  exact ⟨o,ho,hresult,hpayload⟩

end GcLib.Properties
