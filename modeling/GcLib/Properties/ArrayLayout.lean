import GcLib.Client.ArrayConstruction
import GcLib.Client.Execution
import GcLib.Properties.BlockLayout

/-! # Array layout

`construct_array` refuses the counts whose payload does not fit in a word, and only these. For
every other count the prefix and the elements fill the payload that it asks for, wherever the
block is placed, and its three ways to compute the address of an element agree: the loop constructs
these elements from the first one on, and the destructor destroys as many as the prefix says from
the last one down.
-/

namespace GcLib.Properties
open GcLib.Heap GcLib.Support GcLib.Protocol GcLib.Client Relation

/-- How an array of some length lies in a payload. -/
structure ArrayLaidOut (T : ElementType) (count base : ℕ) : Prop where
  in_space : base+T.payloadSize count < addressLimit
  prefix_aligned : base % wordSize = 0
  prefix_below : base+wordSize ≤ base+T.arrayElementsOffset
  begin_eq : T.arrayElementsBegin base = base+T.arrayElementsOffset
  distance : ∀ i < count, wrapMul i T.size = i*T.size
  aligned : ∀ i < count, T.constructedElement base i % T.alignment = 0
  constructed : ∀ i < count, T.constructedElement base i = base+T.arrayElementsOffset+T.size*i
  recomputed : ∀ i < count, T.element (T.arrayElementsBegin base) i = T.constructedElement base i
  disjoint : ∀ i j, i < j → j < count →
    T.constructedElement base i+T.size ≤ T.constructedElement base j
  last : T.constructedElement base (count-1)+T.size = base+T.payloadSize count

/-! ## What the loops do -/

section
variable (T : ElementType) (payload : ℕ)

/-- Elements constructed one after the other. -/
def constructedEvents (first count : ℕ) : List ElementEvent :=
  (List.range' first count).map fun i => .constructs (T.constructedElement payload i) i (.ok ())

/-- Elements destroyed from the last one down. -/
def destroyedEvents (count : ℕ) : List ElementEvent :=
  (List.range count).reverse.map fun i => .destroys (T.constructedElement payload i)

/-- How far the construction loop came, and what it did. -/
inductive LoopEvents (first remaining : ℕ) :
    ℕ → List ElementEvent → Outcome (Option Thrown) → Prop where
  | done : LoopEvents first remaining remaining (constructedEvents T payload first remaining)
      (.returned none)
  | failed {completed : ℕ} {exception : Thrown} (hk : completed < remaining) :
      LoopEvents first remaining completed (constructedEvents T payload first completed ++
        [.constructs (T.constructedElement payload (first+completed)) (first+completed)
          (.error exception)]) (.returned (some exception))
  | constructing {completed : ℕ} (hk : completed < remaining) :
      LoopEvents first remaining completed (constructedEvents T payload first completed)
        (.constructing (T.constructedElement payload (first+completed)) (first+completed))

end

section
variable {T : ElementType} {calls user : Label → World → Prop} {thread : ThreadId}
  {payload elems count : ℕ} {w w' : World}

theorem LoopEvents.succ {first remaining completed : ℕ} {events : List ElementEvent}
    {outcome : Outcome (Option Thrown)}
    (h : LoopEvents T payload (first+1) remaining completed events outcome) :
    LoopEvents T payload first (remaining+1) (completed+1)
      (.constructs (T.constructedElement payload first) first (.ok ()) :: events) outcome := by
  cases h with
  | done => exact .done
  | failed hk =>
    rw [Nat.add_right_comm]
    exact .failed (Nat.succ_lt_succ hk)
  | constructing hk =>
    rw [Nat.add_right_comm]
    exact .constructing (Nat.succ_lt_succ hk)

/-- The construction loop constructs the elements in order. What holds of the number of complete
elements may rest on the count that it stores. -/
theorem constructElements_runs {I : ℕ → World → Prop}
    (hother : ∀ {n u u'}, ReflTransGen (OtherStep calls thread) u u' → I n u → I n u')
    (huser : ∀ {n rest u u'}, ReflTransGen (UserStep user thread rest) u u' → I n u → I n u')
    (hstore : ∀ {m n u u'}, n < addressLimit → run step (storeLabels thread payload n) u = some u' →
      I m u → I n u') {outcome : Outcome (Option Thrown)} :
    ∀ {remaining first : ℕ} {w : World} {events : List ElementEvent},
      first+remaining < addressLimit → I first w →
      Runs calls user thread (T.constructElements payload first remaining) w events outcome w' →
      ∃ completed, I (first+completed) w' ∧
        LoopEvents T payload first remaining completed events outcome
  | 0, first, w, events, _, hw, hruns => by
    cases hruns
    exact ⟨0,hw,.done⟩
  | remaining+1, first, w, events, hlt, hw, hruns => by
    cases hruns with
    | constructing ho hu => exact ⟨0,huser hu (hother ho hw),.constructing (Nat.succ_pos _)⟩
    | construct ho hu hcontrol hruns =>
      rename_i result w₀ w₁ events
      have hw₁ := huser hu (hother ho hw)
      cases result with
      | error exception =>
        cases hruns
        exact ⟨0,hw₁,.failed (Nat.succ_pos _)⟩
      | ok value =>
        cases hruns with
        | store ho' hs hruns =>
          have hnext : wrapAdd first 1 = first+1 := wrapAdd_of_lt (by omega)
          rw [hnext] at hs
          have hw₂ := hstore (by omega) hs (hother ho' hw₁)
          obtain ⟨completed,hend,hevents⟩ :=
            constructElements_runs (I := I) hother huser hstore (by omega) hw₂ hruns
          refine ⟨completed+1,?_,hevents.succ⟩
          rwa [show first+(completed+1) = first+1+completed by omega]

theorem destroyElements_runs {I : World → Prop}
    (hother : ∀ {u u'}, ReflTransGen (OtherStep calls thread) u u' → I u → I u')
    (huser : ∀ {rest u u'}, ReflTransGen (UserStep user thread rest) u u' → I u → I u')
    {outcome : Outcome Unit} : ∀ {n : ℕ} {w : World} {events : List ElementEvent}, I w →
      Runs calls user thread (T.destroyElements elems n) w events outcome w' →
      outcome = .returned () ∧ I w' ∧
        events = (List.range n).reverse.map fun i => .destroys (T.element elems i)
  | 0, w, events, hw, hruns => by
    cases hruns
    exact ⟨rfl,hw,rfl⟩
  | n+1, w, events, hw, hruns => by
    cases hruns with
    | destroy ho hu hcontrol hruns =>
      obtain ⟨houtcome,hw',hevents⟩ :=
        destroyElements_runs hother huser (huser hu (hother ho hw)) hruns
      refine ⟨houtcome,hw',?_⟩
      rw [hevents, List.range_succ]
      simp

/-- The destructor of an array reads the count, and destroys as many elements. -/
theorem arrayDestructor_runs {I : World → Prop}
    (hother : ∀ {u u'}, ReflTransGen (OtherStep calls thread) u u' → I u → I u')
    (huser : ∀ {rest u u'}, ReflTransGen (UserStep user thread rest) u u' → I u → I u')
    (hlaid : ArrayLaidOut T count payload) {outcome : Outcome Unit} {events : List ElementEvent}
    (hw : I w) (hruns : Runs calls user thread (T.arrayDestructor payload) w events outcome w') :
    outcome = .returned () ∧ I w' ∧ ∃ u, ReflTransGen (OtherStep calls thread) w u ∧
      (readWord u.state.memory payload ≤ count →
        events = destroyedEvents T payload (readWord u.state.memory payload)) := by
  cases hruns with
  | load ho hruns =>
    rename_i u
    generalize hword : readWord u.state.memory payload = n at hruns
    obtain ⟨houtcome,hw',hevents⟩ := destroyElements_runs hother huser (hother ho hw) hruns
    refine ⟨houtcome,hw',u,ho,fun hle => ?_⟩
    rw [hword] at hle ⊢
    refine hevents.trans (List.map_congr_left fun i hi => ?_)
    have hi' : i < count := by
      rw [List.mem_reverse, List.mem_range] at hi
      omega
    rw [hlaid.recomputed i hi']

end

/-! ## The layout -/

section
variable (T : ElementType) {count base : ℕ}

theorem element_alignment_le : T.alignment ≤ 2^63 := by
  obtain ⟨k,hk⟩ := T.alignment_pow
  have hle : T.alignment ≤ T.size := Nat.le_of_dvd T.size_pos T.alignment_dvd
  have hlt := T.size_lt
  have hlim : addressLimit = 2^64 := by norm_num [addressLimit]
  rw [hlim] at hlt
  have hpow : 2^k < 2^64 := hk ▸ hle.trans_lt hlt
  have hexp : k < 64 := (Nat.pow_lt_pow_iff_right (by norm_num)).mp hpow
  rw [hk]
  exact Nat.pow_le_pow_right (by norm_num) (by omega)

/-- The unchecked rounding of the prefix is exact. -/
theorem arrayElementsOffset_eq : T.arrayElementsOffset = T.payloadAlignment := by
  have hle := element_alignment_le T
  obtain ⟨k,hk⟩ := T.alignment_pow
  have hpos : 0 < T.alignment := hk ▸ Nat.two_pow_pos k
  have hlim : addressLimit = 2^64 := by norm_num [addressLimit]
  have hsum : wordSize+T.alignment < addressLimit := by
    rw [hlim, wordSize]
    norm_num at hle ⊢
    omega
  have hround : T.arrayElementsOffset =
      (wordSize+T.alignment-1) - (wordSize+T.alignment-1) % T.alignment := by
    unfold ElementType.arrayElementsOffset roundUpUnchecked
    rw [wrapAdd_of_lt hsum, wrapSub_of_le (by omega) hsum, wrapSub_of_le hpos (by omega), hk]
    exact and_complement_pred _ k (by rw [← hk]; omega)
  rw [hround, ElementType.payloadAlignment]
  split_ifs with hword
  · have hmod : (wordSize+T.alignment-1) % T.alignment = wordSize-1 := by
      rw [show wordSize+T.alignment-1 = wordSize-1+T.alignment by unfold wordSize; omega,
        Nat.add_mod_right]
      exact Nat.mod_eq_of_lt (by unfold wordSize at *; omega)
    rw [hmod]
    unfold wordSize
    omega
  · have hsmall : k < 3 := by
      by_contra hge
      have hmono : 2^3 ≤ 2^k := Nat.pow_le_pow_right (by norm_num) (by omega)
      rw [← hk] at hmono
      exact hword hmono
    rw [hk]
    unfold wordSize
    interval_cases k <;> rfl

theorem payloadAlignment_lt : T.payloadAlignment < addressLimit := by
  have hle := element_alignment_le T
  have hlim : addressLimit = 2^64 := by norm_num [addressLimit]
  rw [hlim]
  unfold ElementType.payloadAlignment wordSize
  split_ifs
  · exact hle.trans_lt (by norm_num)
  · norm_num

theorem payloadAlignment_two_pow : ∃ k, T.payloadAlignment = 2^k := by
  unfold ElementType.payloadAlignment
  split_ifs
  · exact T.alignment_pow
  · exact ⟨3,rfl⟩

/-- The payload is aligned for the prefix and for the elements. -/
theorem alignments_dvd : wordSize ∣ T.payloadAlignment ∧ T.alignment ∣ T.payloadAlignment := by
  obtain ⟨k,hk⟩ := T.alignment_pow
  have hword : wordSize = 2^3 := rfl
  unfold ElementType.payloadAlignment
  split_ifs with hge
  · refine ⟨?_,dvd_rfl⟩
    rw [hk, hword] at hge ⊢
    exact pow_dvd_pow 2 ((Nat.pow_le_pow_iff_right (by norm_num)).mp hge)
  · refine ⟨dvd_rfl,?_⟩
    rw [hk, hword] at hge ⊢
    exact pow_dvd_pow 2 ((Nat.pow_le_pow_iff_right (by norm_num)).mp (not_le.mp hge).le)

/-- Both guards together refuse exactly the payloads that do not fit. -/
theorem array_guards (hlt : count < addressLimit) :
    (multiplyWouldOverflow T.size count = true ∨
      addWouldOverflow T.arrayElementsOffset (wrapMul T.size count) = true) ↔
      sizeMax < T.arrayElementsOffset+T.size*count := by
  have hmul : multiplyWouldOverflow T.size count = true ↔ sizeMax < T.size*count := by
    unfold multiplyWouldOverflow
    rw [Bool.and_eq_true, decide_eq_true_eq, decide_eq_true_eq]
    rcases Nat.eq_zero_or_pos count with rfl | hpos
    · simp
    · rw [gt_iff_lt, Nat.div_lt_iff_lt_mul hpos]
      exact and_iff_right hpos.ne'
  rw [hmul]
  rcases lt_or_ge sizeMax (T.size*count) with hbig | hfits
  · exact iff_of_true (Or.inl hbig) (hbig.trans_le (Nat.le_add_left _ _))
  · have hprod : wrapMul T.size count = T.size*count := by
      refine wrapMul_of_lt ?_
      unfold sizeMax at hfits
      unfold addressLimit
      omega
    rw [hprod, addWouldOverflow, decide_eq_true_eq]
    omega

theorem payloadSize_eq (hfits : T.arrayElementsOffset+T.size*count ≤ sizeMax) :
    T.payloadSize count = T.arrayElementsOffset+T.size*count := by
  unfold sizeMax at hfits
  have hlim : T.arrayElementsOffset+T.size*count < addressLimit := by
    unfold addressLimit
    omega
  unfold ElementType.payloadSize
  rw [wrapMul_of_lt (by omega), wrapAdd_of_lt hlim]

theorem payloadSize_bounds (hpos : 0 < count)
    (hfits : T.arrayElementsOffset+T.size*count ≤ sizeMax) :
    T.payloadSize count ≠ 0 ∧ T.payloadSize count < addressLimit := by
  have hprod : 0 < T.size*count := Nat.mul_pos T.size_pos hpos
  rw [payloadSize_eq T hfits]
  unfold sizeMax at hfits
  unfold addressLimit
  omega

/-- The elements fill what the prefix leaves of the payload. -/
theorem array_laid_out (hpos : 0 < count) (hfits : T.arrayElementsOffset+T.size*count ≤ sizeMax)
    (hspace : base+T.payloadSize count < addressLimit) (hbase : base % T.payloadAlignment = 0) :
    ArrayLaidOut T count base := by
  have hsize := payloadSize_eq T hfits
  obtain ⟨hword,hdvd⟩ := alignments_dvd T
  have hoffset := arrayElementsOffset_eq T
  have hbasedvd : T.payloadAlignment ∣ base := Nat.dvd_of_mod_eq_zero hbase
  have hdistance : ∀ i < count, T.size*i+T.size ≤ T.size*count := by
    intro i hi
    rw [← Nat.mul_succ]
    exact Nat.mul_le_mul_left _ hi
  have hbegin : T.arrayElementsBegin base = base+T.arrayElementsOffset :=
    wrapAdd_of_lt (by omega)
  have hmul : ∀ i < count, wrapMul i T.size = i*T.size := by
    intro i hi
    have := hdistance i hi
    refine wrapMul_of_lt ?_
    rw [mul_comm]
    omega
  have helement : ∀ i < count,
      T.element (T.arrayElementsBegin base) i = base+T.arrayElementsOffset+T.size*i := by
    intro i hi
    have := hdistance i hi
    rw [ElementType.element, hbegin, hmul i hi, mul_comm i]
    exact wrapAdd_of_lt (by omega)
  have hconstructed : ∀ i < count,
      T.constructedElement base i = base+T.arrayElementsOffset+T.size*i := helement
  refine ⟨hspace,?_,?_,hbegin,hmul,fun i hi => ?_,hconstructed,fun i hi => ?_,
    fun i j hij hj => ?_,?_⟩
  · exact Nat.mod_eq_zero_of_dvd (hword.trans hbasedvd)
  · have hle : wordSize ≤ T.payloadAlignment :=
      Nat.le_of_dvd (by obtain ⟨k,hk⟩ := payloadAlignment_two_pow T; rw [hk]; positivity) hword
    omega
  · rw [hconstructed i hi, hoffset]
    exact Nat.mod_eq_zero_of_dvd (Nat.dvd_add (Nat.dvd_add (hdvd.trans hbasedvd) hdvd)
      (T.alignment_dvd.mul_right i))
  · rw [helement i hi, hconstructed i hi]
  · rw [hconstructed i (hij.trans hj), hconstructed j hj]
    have hle : T.size*i+T.size ≤ T.size*j := by
      rw [← Nat.mul_succ]
      exact Nat.mul_le_mul_left _ hij
    omega
  · have hlast : T.size*(count-1)+T.size = T.size*count := by
      rw [← Nat.mul_succ, Nat.succ_eq_add_one, Nat.sub_add_cancel hpos]
    rw [hconstructed _ (by omega)]
    omega

theorem allocated_aligned {size alignment : ℕ} {destructor : Option ℕ} {constructing : Bool}
    {P : Label → World → Prop} {thread : ThreadId} {rest : List Frame} {w w' : World}
    (hsize : size < addressLimit)
    (halign : alignment < addressLimit) (hs : size ≠ 0) (hpow : ∃ k, alignment = 2^k)
    (ha : Allocated P thread size alignment destructor constructing rest w w' base) :
    base % alignment = 0 ∧ base+size < addressLimit := by
  cases ha with
  | @intro u v v' request region s hq hun hp hl hsame hheader hchunk hnew hw hbase =>
    rw [allocationRequest_eq hsize halign hpow] at hq
    split_ifs at hq with hlarge
    obtain rfl := Option.some.inj hq
    rw [not_or, not_lt, not_lt] at hlarge
    have hlaid := laidOut_of_header hsize halign (not_refused.mpr ⟨hs,hpow,hlarge⟩)
      hp.fresh.2.1 hp.fresh.2.2.1 hheader
    rw [hbase]
    have hspace := hlaid.in_space
    have hfills := hlaid.fills
    exact ⟨hlaid.payload_aligned,by omega⟩

theorem arrayDestructor_returns {payload : ℕ} {next : Unit → Program α} {value : α}
    (h : (T.arrayDestructor payload >>= next).Reaches (.returns value)) :
    (next ()).Reaches (.returns value) := by
  rcases Program.reaches_bind h with ⟨p',hp,hq⟩ | ⟨⟨⟩,-,hq⟩
  · cases p' with
    | returns u => exact hq ▸ .refl _
    | _ => cases hq
  · exact hq

theorem constructArrayAt_returns {payload value : ℕ}
    (h : (T.constructArrayAt payload count).Reaches (.returns value)) :
    value = T.arrayElementsBegin payload := by
  cases h with
  | store h =>
    have hfinish : ∀ outcome, (T.endConstruction payload outcome).Reaches (.returns value) →
        value = T.arrayElementsBegin payload := by
      rintro (_ | exception) hr
      · cases hr with
        | call result hr =>
          cases result <;> cases hr
          rfl
      · cases arrayDestructor_returns T hr with
        | call result hr => cases result <;> cases hr
    change (T.constructElements payload 0 count >>= _).Reaches _ at h
    rcases Program.reaches_bind h with ⟨p',hp,hq⟩ | ⟨outcome,-,hq⟩
    · cases p' with
      | returns outcome => exact hfinish outcome (hq ▸ .refl _)
      | _ => cases hq
    · exact hfinish outcome hq

end

/-- For every count either nothing is asked of the manager, because the payload would not fit in
a word, or the payload that is asked for is filled exactly by the prefix and the elements. -/
theorem array_layout (T : ElementType) {count : ℕ} (hpos : 0 < count) (hlt : count < addressLimit) :
    (T.constructArray count = .throws (.manager .badAlloc) ↔
      sizeMax < T.arrayElementsOffset+T.size*count) ∧
    (T.arrayElementsOffset+T.size*count ≤ sizeMax →
      T.payloadSize count = T.arrayElementsOffset+T.size*count ∧
      T.constructArray count = (do
        let _ ← Program.invoke (.collectIfNeeded (T.payloadSize count))
        let payload ← Program.invoke
          (.mallocInternal (T.payloadSize count) T.payloadAlignment (some T.destructor) true)
        T.constructArrayAt (addressOf payload) count) ∧
      ∀ thread w w' base, ReachableWorld w →
        Returns thread (.mallocInternal (T.payloadSize count) T.payloadAlignment
          (some T.destructor) true) w w' (.ok (.word base)) →
        ArrayLaidOut T count base ∧
        (∀ calls user thread' w₁ events outcome w₂,
          Runs calls user thread' (T.constructElements base 0 count) w₁ events outcome w₂ →
            ∃ completed, LoopEvents T base 0 count completed events outcome) ∧
        (∀ calls user thread' w₁ events outcome w₂,
          Runs calls user thread' (T.arrayDestructor base) w₁ events outcome w₂ →
            outcome = .returned () ∧ ∃ u, ReflTransGen (OtherStep calls thread') w₁ u ∧
              (readWord u.state.memory base ≤ count →
                events = destroyedEvents T base (readWord u.state.memory base))) ∧
        (∀ value, (T.constructArrayAt base count).Reaches (.returns value) →
          value = T.constructedElement base 0) ∧
        ∃ b ∈ w'.state.allocations.values, b.payloadBegin = base ∧
          b.payloadEnd = base+T.payloadSize count ∧
          ∀ u, ReachableWorld u → ∀ b' ∈ u.state.allocations.values,
            b'.payloadBegin = base → b'.payloadEnd = b.payloadEnd →
              (∀ i < count, u.state.findBlockLocked (T.constructedElement base i) = some b') ∧
              u.state.findBlockLocked (base+T.payloadSize count) ≠ some b') := by
  have hguards := array_guards T hlt
  constructor
  · unfold ElementType.constructArray
    rw [if_neg hpos.ne']
    split_ifs with hoverflow
    · exact iff_of_true rfl (hguards.mp hoverflow)
    · refine iff_of_false (fun h => ?_) (mt hguards.mpr hoverflow)
      cases h
  · intro hfits
    have hsize := payloadSize_eq T hfits
    refine ⟨hsize,?_,fun thread w w' base hw hret => ?_⟩
    · unfold ElementType.constructArray
      rw [if_neg hpos.ne', if_neg (mt hguards.mp (not_lt.mpr hfits))]
    · obtain ⟨e,he,-⟩ | ⟨base',hbase',hall⟩ := hret.mallocInternal hw
      · cases he
      cases hbase'
      obtain ⟨hnonzero,hword⟩ := payloadSize_bounds T hpos hfits
      obtain ⟨halign,hspace⟩ := allocated_aligned hword (payloadAlignment_lt T) hnonzero
        (payloadAlignment_two_pow T) hall
      have hlaid := array_laid_out T hpos hfits hspace halign
      obtain ⟨b,hb,hbegin,-,hend,-⟩ := hall.record hw
      refine ⟨hlaid,fun calls user thread' w₁ events outcome w₂ hruns => ?_,
        fun calls user thread' w₁ events outcome w₂ hruns => ?_,
        fun value hreach => ?_,b,hb,hbegin,hend,fun u hu b' hb' hbegin' hend' => ⟨fun i hi => ?_,?_⟩⟩
      · obtain ⟨completed,-,hevents⟩ := constructElements_runs (I := fun _ _ => True)
          (fun _ _ => trivial) (fun _ _ => trivial) (fun _ _ _ => trivial)
          (by omega) trivial hruns
        exact ⟨completed,hevents⟩
      · obtain ⟨houtcome,-,hdestroys⟩ := arrayDestructor_runs (I := fun _ => True)
          (fun _ _ => trivial) (fun _ _ => trivial) hlaid trivial hruns
        exact ⟨houtcome,hdestroys⟩
      · rw [constructArrayAt_returns T hreach, hlaid.constructed 0 hpos, hlaid.begin_eq,
          Nat.mul_zero, Nat.add_zero]
      · have hi' : T.size*i+T.size ≤ T.size*count := by
          rw [← Nat.mul_succ]
          exact Nat.mul_le_mul_left _ hi
        have hpositive := T.size_pos
        refine hu.invariant.heap.findBlockLocked_eq_some.mpr ⟨hb',?_⟩
        rw [hlaid.constructed i hi]
        exact ⟨by omega,by omega⟩
      · intro hfound
        have hinside := (hu.invariant.heap.findBlockLocked_eq_some.mp hfound).2.2
        omega

/-- Elements of 24 bytes, aligned to words. -/
def tripleElement : ElementType where
  size := 24
  alignment := 8
  destructor := 7
  size_pos := by decide
  size_lt := by decide
  alignment_pow := ⟨3,rfl⟩
  alignment_dvd := ⟨3,rfl⟩

def tripleCall : Call := .mallocInternal (tripleElement.payloadSize 3)
  tripleElement.payloadAlignment (some tripleElement.destructor) true

def tripleRun : List Label := registeredRun ++ [.user 0 (.call tripleCall)] ++
  [.run 0 {},.run 0 { region := 4096 },.run 0 {}]

theorem returns_triple : Returns 0 tripleCall (worldAfter registeredRun) (worldAfter tripleRun)
    (.ok (.word 4128)) :=
  .run (by decide +kernel) trivial (worldAfter_step registeredRun _ (by decide +kernel))
    (Inside.steps (worldAfter_run _ _ (by decide +kernel)) (by decide +kernel)
      (by decide +kernel)) (by decide +kernel) (by decide +kernel)

/-- With two elements counted, the destructor destroys these two. -/
theorem array_layout_triple : ArrayLaidOut tripleElement 3 4128 ∧
    ∀ events outcome w', Runs (fun _ _ => False) (fun _ _ => True) 0
      (tripleElement.arrayDestructor 4128) (worldAfter (tripleRun ++ storeLabels 0 4128 2)) events
      outcome w' → events = [.destroys 4160,.destroys 4136] := by
  obtain ⟨hlaid,-,hdestroys,-⟩ := ((array_layout tripleElement (by decide : 0 < 3)
    (by decide)).2 (by decide +kernel)).2.2 0 _ _ 4128 (reachable_worldAfter registeredRun)
    returns_triple
  have hcount : readWord (worldAfter (tripleRun ++ storeLabels 0 4128 2)).state.memory 4128 = 2 := by
    decide +kernel
  have htwo : destroyedEvents tripleElement 4128 2 = [.destroys 4160,.destroys 4136] := by
    decide +kernel
  refine ⟨hlaid,fun events outcome w' hruns => ?_⟩
  obtain ⟨-,u,ho,hevents⟩ := hdestroys _ _ _ _ _ _ _ hruns
  cases ho with
  | refl =>
    rw [hcount] at hevents
    rw [hevents (by decide), htwo]
  | tail _ hstep =>
    obtain ⟨label,-,hfalse,-⟩ := hstep
    exact hfalse.elim

end GcLib.Properties
