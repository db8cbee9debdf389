import GcLib.Protocol.Lifecycle

/-! # Block layout

`malloc_internal` refuses exactly the sizes and alignments whose layout does not fit:
the header offset has sixteen bits and the region a 64-bit size. For every other
request the header, the padding and the payload fill the region that is asked for,
and the header fields give back the offset, the size and the alignment of the region.
-/

namespace GcLib.Properties
open GcLib.Heap GcLib.Support GcLib.Protocol Relation

/-- The size of the header, rounded up to the alignment of the region. -/
def headerOffset (alignment : ℕ) : ℕ :=
  (chunkHeaderSize+normalizeAlignment alignment-1)/normalizeAlignment alignment *
    normalizeAlignment alignment

/-- The requests that have no layout. -/
def Refused (size alignment : ℕ) : Prop :=
  size = 0 ∨ (¬ ∃ k, alignment = 2^k) ∨ 65535 < headerOffset alignment ∨
    sizeMax < headerOffset alignment+size

/-- What is asked of `operator new` for the other requests. -/
def layoutRequest (size alignment : ℕ) (destructor : Option ℕ) (constructing : Bool) :
    AllocationRequest :=
  ⟨size,headerOffset alignment,normalizeAlignment alignment,destructor,constructing⟩

/-- The header at a region describes its layout. -/
structure LaidOut (s : State) (region size alignment : ℕ) : Prop where
  payload_aligned : s.payloadBegin region % alignment = 0
  payload_max_aligned : s.payloadBegin region % maxAlignment = 0
  header_below : region+chunkHeaderSize ≤ s.payloadBegin region
  fills : s.payloadBegin region+size = region+(headerOffset alignment+size)
  in_space : region+(headerOffset alignment+size) < addressLimit
  size_eq : (s.header region).size = size
  offset_eq : (s.header region).payloadOffset = headerOffset alignment
  reserved_eq : (s.header region).blockAllocationSize = headerOffset alignment+size
  alignment_eq : (s.header region).allocationAlignment = normalizeAlignment alignment

section
variable {size alignment : ℕ} {destructor : Option ℕ} {constructing : Bool}

theorem normalizeAlignment_two_pow (k : ℕ) :
    normalizeAlignment (2^k) = 2^(max k 4) ∧ 2^k ∣ normalizeAlignment (2^k) ∧
      maxAlignment ∣ normalizeAlignment (2^k) := by
  have hpow : normalizeAlignment (2^k) = 2^(max k 4) := by
    unfold normalizeAlignment
    rw [show maxAlignment = 2^4 from rfl]
    have hmono : Monotone fun n => 2^n := fun _ _ h => Nat.pow_le_pow_right (by norm_num) h
    exact (hmono.map_max).symm
  rw [hpow]
  exact ⟨rfl,pow_dvd_pow 2 (le_max_left k 4),pow_dvd_pow 2 (le_max_right k 4)⟩

/-- An alignment that is a power of two and fits in a word is at most `2^63`. -/
theorem normalizeAlignment_le (halign : alignment < addressLimit) (hpow : ∃ k, alignment = 2^k) :
    normalizeAlignment alignment ≤ 2^63 := by
  obtain ⟨k,rfl⟩ := hpow
  have hk : k < 64 := by
    have hlim : addressLimit = 2^64 := by norm_num [addressLimit]
    rw [hlim] at halign
    exact (Nat.pow_lt_pow_iff_right (by norm_num)).mp halign
  rw [(normalizeAlignment_two_pow k).1]
  exact Nat.pow_le_pow_right (by norm_num) (by omega)

theorem allocationRequest_eq (hsize : size < addressLimit) (halign : alignment < addressLimit)
    (hpow : ∃ k, alignment = 2^k) :
    allocationRequest size alignment destructor constructing =
      if 65535 < headerOffset alignment ∨ sizeMax < headerOffset alignment+size then none
      else some (layoutRequest size alignment destructor constructing) := by
  have hle := normalizeAlignment_le halign hpow
  obtain ⟨k,rfl⟩ := hpow
  have hnorm := (normalizeAlignment_two_pow k).1
  have hround : roundUpToAlignment chunkHeaderSize (normalizeAlignment (2^k)) =
      some (headerOffset (2^k)) := by
    rw [headerOffset, hnorm]
    refine roundUpToAlignment_two_pow ?_
    rw [hnorm] at hle
    norm_num at hle
    simp only [chunkHeaderSize, addressLimit]
    omega
  have hover : addWouldOverflow (headerOffset (2^k)) size = true ↔
      sizeMax < headerOffset (2^k)+size := by
    unfold addWouldOverflow sizeMax
    unfold addressLimit at hsize
    rw [decide_eq_true_eq]
    omega
  unfold allocationRequest
  dsimp only
  rw [hround]
  simp only [hover, gt_iff_lt]
  rfl

theorem immediate_mallocInternal (h : size = 0 ∨ ¬ ∃ k, alignment = 2^k) :
    (Call.mallocInternal size alignment destructor constructing).immediate =
      some (.error .badAlloc) := by
  rw [← hasSingleBit_eq_true, Bool.not_eq_true] at h
  exact if_pos h

theorem immediate_mallocInternal_none (hs : size ≠ 0) (hpow : ∃ k, alignment = 2^k) :
    (Call.mallocInternal size alignment destructor constructing).immediate = none := by
  refine if_neg ?_
  rw [hasSingleBit_eq_true.mpr hpow]
  simpa using hs

/-- What a registered thread gets from the computation of a layout. -/
theorem body_mallocInternal {thread : ThreadId} {s : State} (hr : s.isRegistered thread = true)
    (fuel : ℕ) (supply : Supply) :
    Section.body thread fuel (.call (.mallocInternal size alignment destructor constructing))
      s supply = match allocationRequest size alignment destructor constructing with
        | none => .throws .badAlloc s
        | some request => .returns (.allocate request) s supply := by
  have hrequire : requireRegisteredThreadLocked thread s supply = .returns () s supply := by
    unfold requireRegisteredThreadLocked
    rw [Exec.bind_run]
    simp [Exec.get, hr]
  change (requireRegisteredThreadLocked thread >>= fun _ => _) s supply = _
  rw [Exec.bind_run, hrequire]
  cases allocationRequest size alignment destructor constructing <;> rfl

theorem not_refused : ¬ Refused size alignment ↔ size ≠ 0 ∧ (∃ k, alignment = 2^k) ∧
    headerOffset alignment ≤ 65535 ∧ headerOffset alignment+size ≤ sizeMax := by
  simp only [Refused, not_or, not_not, not_lt, ne_eq]

/-- The layout of an accepted request. -/
theorem laidOut_of_header (hsize : size < addressLimit) (halign : alignment < addressLimit)
    (hok : ¬ Refused size alignment) {s : State} {region : ℕ}
    (hregion : region % normalizeAlignment alignment = 0)
    (hspace : region+(headerOffset alignment+size) < addressLimit)
    (hheader : s.header region =
      (layoutRequest size alignment destructor constructing).header) :
    LaidOut s region size alignment := by
  obtain ⟨hs,hpow,hoffset,htotal⟩ := not_refused.mp hok
  have hle := normalizeAlignment_le halign hpow
  have hlim : normalizeAlignment alignment < addressLimit := by
    norm_num [addressLimit] at hle ⊢
    omega
  have hrequest : allocationRequest size alignment destructor constructing =
      some (layoutRequest size alignment destructor constructing) := by
    rw [allocationRequest_eq hsize halign hpow, if_neg (by omega)]
  have hvalid := allocationRequest_valid hs hsize halign hrequest
  have hoff : (s.header region).payloadOffset = headerOffset alignment := by
    rw [hheader, hvalid.payloadOffset_eq]
    rfl
  have hsz : (s.header region).size = size := by rw [hheader]; rfl
  have hpayload : s.payloadBegin region = region+headerOffset alignment := by
    rw [State.payloadBegin, hoff]
  have hdvd : normalizeAlignment alignment ∣ s.payloadBegin region := by
    rw [hpayload]
    exact Nat.dvd_add (Nat.dvd_of_mod_eq_zero hregion) (Dvd.intro_left _ rfl)
  obtain ⟨k,rfl⟩ := hpow
  obtain ⟨-,halignment,hmax⟩ := normalizeAlignment_two_pow k
  have hfits : chunkHeaderSize ≤ headerOffset (2^k) := hvalid.header_fits
  refine ⟨Nat.mod_eq_zero_of_dvd (halignment.trans hdvd),
    Nat.mod_eq_zero_of_dvd (hmax.trans hdvd),by omega,by omega,hspace,hsz,hoff,?_,?_⟩
  · rw [ChunkHeader.blockAllocationSize, hoff, hsz]
    refine wrapAdd_of_lt ?_
    unfold sizeMax at htotal
    unfold addressLimit
    omega
  · refine allocationAlignment_eq hlim ⟨_,(normalizeAlignment_two_pow k).1⟩ ?_
    rw [hheader]
    rfl

/-- The step in which `operator new` returns a region. -/
theorem placed_of_step {w w' : World} {thread : ThreadId} {choice : Choice}
    {request : AllocationRequest} {retried : Bool} {rest : List Frame}
    (hc : w.control thread = .allocating request retried :: rest) (hregion : choice.region ≠ 0)
    (hstep : step (.run thread choice) w = some w') :
    w.state.FreshRegion choice.region request.totalSize request.alignment ∧
      w'.state = w.state.placeHeader choice.region request := by
  simp only [step, hc] at hstep
  split_ifs at hstep
  simp only [runFrame, runAllocating, if_neg hregion] at hstep
  split_ifs at hstep with hf
  cases hstep
  exact ⟨hf,rfl⟩

/-- `malloc_internal` refuses exactly the requests without a layout. Every other request is laid
out in whichever region `operator new` returns, until the block is freed. -/
theorem block_layout (hsize : size < addressLimit) (halign : alignment < addressLimit)
    (destructor : Option ℕ) (constructing : Bool) :
    (∀ thread s fuel supply, s.isRegistered thread = true →
      let call := Call.mallocInternal size alignment destructor constructing
      (Refused size alignment → call.immediate = some (.error .badAlloc) ∨
        call.immediate = none ∧
          Section.body thread fuel (.call call) s supply = .throws .badAlloc s) ∧
      (¬ Refused size alignment → call.immediate = none ∧
        Section.body thread fuel (.call call) s supply =
          .returns (.allocate (layoutRequest size alignment destructor constructing)) s supply)) ∧
    (¬ Refused size alignment → ∀ w w' thread choice retried rest, ReachableWorld w →
      w.control thread =
        .allocating (layoutRequest size alignment destructor constructing) retried :: rest →
      choice.region ≠ 0 → step (.run thread choice) w = some w' →
        w.state.FreshRegion choice.region (headerOffset alignment+size)
            (normalizeAlignment alignment) ∧
        ∀ w'', ReflTransGen (Steps step) w' w'' → ∀ chunk,
          w''.state.chunks.find? choice.region = some chunk → chunk.serial = w.state.nextSerial →
            LaidOut w''.state choice.region size alignment) := by
  constructor
  · intro thread s fuel supply hr call
    have hbody : Section.body thread fuel (.call call) s supply = _ :=
      body_mallocInternal hr fuel supply
    constructor
    · intro hrefused
      by_cases himm : size = 0 ∨ ¬ ∃ k, alignment = 2^k
      · exact Or.inl (immediate_mallocInternal himm)
      · obtain ⟨hs,hpow⟩ := not_or.mp himm
        rw [not_not] at hpow
        have hlarge : 65535 < headerOffset alignment ∨ sizeMax < headerOffset alignment+size :=
          (hrefused.resolve_left hs).resolve_left (not_not.mpr hpow)
        rw [allocationRequest_eq hsize halign hpow, if_pos hlarge] at hbody
        exact Or.inr ⟨immediate_mallocInternal_none hs hpow,hbody⟩
    · intro hok
      obtain ⟨hs,hpow,hoffset,htotal⟩ := not_refused.mp hok
      rw [allocationRequest_eq hsize halign hpow, if_neg (by omega)] at hbody
      exact ⟨immediate_mallocInternal_none hs hpow,hbody⟩
  · intro hok w w' thread choice retried rest h hc hregion hstep
    obtain ⟨hf,hs⟩ := placed_of_step hc hregion hstep
    refine ⟨hf,fun w'' hsteps chunk hchunk hserial => ?_⟩
    have hlt : w.state.nextSerial < w'.state.nextSerial := by
      rw [hs]
      exact Nat.lt_succ_self _
    obtain ⟨-,-,hback⟩ := ReachableWorld.chunk_stable (Reachable.step h hstep) hsteps hlt
    have hplaced := hback _ chunk hchunk hserial
    have hnone := HeapInvariant.fresh_new hf h.invariant.heap
      (Nat.add_pos_right _ (Nat.pos_of_ne_zero (not_refused.mp hok).1))
    rw [hs, placeHeader_find? _ hnone, if_pos rfl] at hplaced
    have hheader := State.header_eq hchunk
    obtain rfl := Option.some.inj hplaced
    exact laidOut_of_header hsize halign hok hf.2.1 hf.2.2.1 hheader

end

/-- A thread asks for sixteen bytes at the largest alignment whose offset has sixteen bits. -/
def alignedRequestRun : List Label :=
  [.user 0 (.call (.registerStackBottom 28672)),.run 0 {},
    .user 0 (.call (.mallocInternal 16 32768 (some 7) false)),.run 0 {}]

theorem not_refused_alignedRequest : ¬ Refused 16 32768 :=
  not_refused.mpr ⟨by decide,⟨15,by decide⟩,by decide,by decide⟩

theorem block_layout_alignedRequest :
    LaidOut (worldAfter (alignedRequestRun ++ [.run 0 { region := 65536 }])).state 65536 16 32768 :=
  ((block_layout (by decide) (by decide) (some 7) false).2 not_refused_alignedRequest _ _ 0
    { region := 65536 } false [] (reachable_worldAfter alignedRequestRun) (by decide +kernel)
    (by decide) (worldAfter_step alignedRequestRun _ (by decide +kernel))).2 _ .refl
    ⟨(layoutRequest 16 32768 (some 7) false).header,0⟩ (by decide +kernel) (by decide +kernel)

end GcLib.Properties
