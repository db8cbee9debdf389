import GcLib.Protocol.CallRuns

/-! # Root ranges and registered threads

A root range enters the list where its registration starts to cooperate, and leaves it in
the section that unregisters it. A thread's stack bottom is set and dropped by that thread
alone.
-/

namespace GcLib.Protocol
open GcLib.Heap GcLib.Support

/-- What a step does to the list of root ranges. -/
inductive RangeChange (thread : ThreadId) (w w' : World) : Prop where
  | same (h : w'.state.registeredRootRanges = w.state.registeredRootRanges)
      (hr : ∀ begin_ end_ rest,
        w.control thread = .entering (.call (.registerRootRange begin_ end_)) .enter :: rest →
          w'.control thread = resumed rest false)
      (hu : ∀ begin_ end_ stage rest,
        w.control thread = .entering (.call (.unregisterRootRange begin_ end_)) stage :: rest →
          ∃ stage', w'.control thread =
            .entering (.call (.unregisterRootRange begin_ end_)) stage' :: rest)
  | publishes {begin_ end_ : ℕ} {rest : List Frame}
      (hc : w.control thread = .entering (.call (.registerRootRange begin_ end_)) .enter :: rest)
      (h : w'.state.registeredRootRanges =
        w.state.registeredRootRanges ++ [rootRange begin_ end_])
      (hc' : w'.control thread = resumed rest true ∨ ∃ stage, stage ≠ .enter ∧
        w'.control thread = .entering (.call (.registerRootRange begin_ end_)) stage :: rest)
  | erases {begin_ end_ : ℕ} {stage : Stage} {rest : List Frame}
      (hc : w.control thread = .entering (.call (.unregisterRootRange begin_ end_)) stage :: rest)
      (h : w'.state.registeredRootRanges =
        w.state.registeredRootRanges.erase (rootRange begin_ end_))
      (hc' : w'.control thread = resumed rest true)

section
variable {w w' : World} {thread : ThreadId}

theorem meets_registerRootRange {s : State} (fuel begin_ end_ : ℕ) :
    (Section.body thread fuel (.call (.registerRootRange begin_ end_))).Meets s
      (fun next s' => next = .done .unit ∧ s' = s) (fun _ _ => False) :=
  Exec.meets_bind (Exec.meets_get (Exec.meets_pure ⟨rfl,rfl⟩))

theorem meets_unregisterRootRange {s : State} (fuel begin_ end_ : ℕ) :
    (Section.body thread fuel (.call (.unregisterRootRange begin_ end_))).Meets s
      (fun next s' => next = .done .unit ∧ s' = s.eraseRootRange (rootRange begin_ end_))
      (fun _ _ => False) :=
  Exec.meets_bind (Exec.meets_get
    (Exec.meets_bind (Exec.meets_modify (Exec.meets_pure ⟨rfl,rfl⟩))))

/-- Cooperation moves no range but the one that is published. -/
theorem Cooperated.registeredRootRanges {s s' : State} {code : Section} {stage : Stage}
    (h : Cooperated thread s code stage s') :
    (s'.registeredRootRanges = s.registeredRootRanges ∧ (stage = .enter →
      ∀ begin_ end_, code ≠ .call (.registerRootRange begin_ end_))) ∨
    ∃ begin_ end_, stage = .enter ∧ code = .call (.registerRootRange begin_ end_) ∧
      s'.registeredRootRanges = s.registeredRootRanges ++ [rootRange begin_ end_] := by
  cases h with
  | enter hp =>
    cases hp with
    | nothing hn => exact Or.inl ⟨rfl,fun _ => hn⟩
    | rootRange => exact Or.inr ⟨_,_,rfl,rfl,rfl⟩
  | blocked | spilling | parked => exact Or.inl ⟨rfl,nofun⟩

theorem Effect.registeredRootRanges {s s' : State} {code : Section} {next : Next}
    (h : Effect thread s code next s')
    (hn : ∀ begin_ end_, code ≠ .call (.unregisterRootRange begin_ end_)) :
    s'.registeredRootRanges = s.registeredRootRanges := by
  cases h with
  | eraseRootRange => exact absurd rfl (hn _ _)
  | _ => rfl

/-- A section that returns publishes its range, erases it, or leaves the list alone. -/
theorem RangeChange.runsSection (hheap : HeapInvariant w.state) {code : Section} {stage : Stage}
    {rest : List Frame} {s s' : State} {fuel : ℕ} {supply supply' : Supply} {next : Next}
    (hc : w.control thread = .entering code stage :: rest)
    (hco : Cooperated thread w.state code stage s)
    (hrun : code.body thread fuel s supply = .returns next s' supply')
    (hstate : w'.state = s') (hcontrol : w'.control thread = proceeded rest next) :
    RangeChange thread w w' := by
  have heffect := effect_of_run hheap hco hrun
  subst hstate
  by_cases hu : ∃ begin_ end_, code = .call (.unregisterRootRange begin_ end_)
  · obtain ⟨begin_,end_,rfl⟩ := hu
    obtain ⟨rfl,hs⟩ := (meets_unregisterRootRange fuel begin_ end_).returns hrun
    rcases hco.registeredRootRanges with ⟨hr,-⟩ | ⟨_,_,-,h,-⟩
    · exact .erases hc (by rw [hs, ← hr]; rfl) hcontrol
    · cases h
  · have hsame := heffect.registeredRootRanges (fun b e h => hu ⟨b,e,h⟩)
    rcases hco.registeredRootRanges with ⟨hr,hn⟩ | ⟨begin_,end_,rfl,rfl,hr⟩
    · refine .same (hsame.trans hr) (fun b e rest' hc' => ?_) (fun b e stage' rest' hc' => ?_)
      · rw [hc] at hc'
        cases hc'
        exact absurd rfl (hn rfl b e)
      · rw [hc] at hc'
        cases hc'
        exact absurd ⟨b,e,rfl⟩ hu
    · obtain ⟨rfl,-⟩ := (meets_registerRootRange fuel begin_ end_).returns hrun
      exact .publishes hc (hsame.trans hr) (Or.inl hcontrol)

/-- A thread that is held up has published its range, or leaves the list alone. -/
theorem RangeChange.stalls {code : Section} {stage stage' : Stage} {rest : List Frame} {s : State}
    (hc : w.control thread = .entering code stage :: rest)
    (hs : Stalled thread w.state code stage s stage') (hstate : w'.state = s)
    (hcontrol : w'.control thread = .entering code stage' :: rest) : RangeChange thread w w' := by
  have hkept : s.registeredRootRanges = w.state.registeredRootRanges →
      (stage = .enter → ∀ begin_ end_, code ≠ .call (.registerRootRange begin_ end_)) →
      RangeChange thread w w' := by
    intro hr hn
    refine .same (hstate ▸ hr) (fun b e rest' hc' => ?_) (fun b e stage' rest' hc' => ?_)
    · rw [hc] at hc'
      cases hc'
      exact absurd rfl (hn rfl b e)
    · rw [hc] at hc'
      cases hc'
      exact ⟨_,hcontrol⟩
  have hpublished : ∀ {s : State}, Published w.state code s → stage = .enter →
      stage' ≠ .enter → w'.state = s → RangeChange thread w w' := by
    intro s hp he hne hst
    cases hp with
    | nothing hn =>
      refine .same (congrArg State.registeredRootRanges hst) (fun b e rest' hc' => ?_)
        (fun b e stage' rest' hc' => ?_)
      · rw [hc] at hc'
        cases hc'
        exact absurd rfl (hn b e)
      · rw [hc] at hc'
        cases hc'
        exact ⟨_,hcontrol⟩
    | rootRange =>
      subst he
      exact .publishes hc (congrArg State.registeredRootRanges hst) (Or.inr ⟨_,hne,hcontrol⟩)
  cases hs with
  | spill hp => exact hpublished hp rfl nofun hstate
  | block hp => exact hpublished hp rfl nofun hstate
  | park => exact hkept rfl nofun
  | reblock => exact hkept rfl nofun

/-- Steps publish and erase root ranges in these two places only. -/
theorem Transition.rangeChange (h : ProtocolInvariant w) (hheap : HeapInvariant w.state)
    (ht : Transition thread w w') : RangeChange thread w w' := by
  have hother : w'.state.registeredRootRanges = w.state.registeredRootRanges →
      (∀ call stage rest, w.control thread ≠ .entering (.call call) stage :: rest) →
      RangeChange thread w w' := by
    intro hr hn
    exact .same hr (fun _ _ _ hc => absurd hc (hn _ _ _)) (fun _ _ _ _ hc => absurd hc (hn _ _ _))
  have hnot : ∀ {frame : Frame} {rest : List Frame}, w.control thread = frame :: rest →
      (∀ call stage, frame ≠ .entering (.call call) stage) →
      ∀ call stage rest', w.control thread ≠ .entering (.call call) stage :: rest' := by
    intro frame rest hc hf call stage rest' hc'
    rw [hc] at hc'
    exact hf call stage (List.cons.inj hc').1
  have huser : inUserCode (w.control thread) = true →
      ∀ call stage rest, w.control thread ≠ .entering (.call call) stage :: rest := by
    intro hu call stage rest hc
    rw [hc] at hu
    cases hu
  cases ht with
  | store address value hu => exact hother rfl (huser hu)
  | immediate hi hu => exact hother rfl (huser hu)
  | call hw hi hu => exact hother rfl (huser hu)
  | finalizerReturns hc | destroyed hc | skips hc | finalizes hc | freed hc | frees hc
  | retries hc | places hc => exact hother rfl (hnot hc nofun)
  | runsSection hc hco hrun =>
    refine .runsSection hheap hc hco hrun (proceed_state _) ?_
    rw [proceed_control, Function.update_self]
  | callThrows hc hco hrun =>
    rename_i call stage rest s s' fuel supply e
    have hf := failed_of_run hheap hco hrun
    cases hf
    have hnone : ∀ begin_ end_, call ≠ .unregisterRootRange begin_ end_ := by
      rintro begin_ end_ rfl
      exact (meets_unregisterRootRange _ _ _).throws hrun
    rcases hco.registeredRootRanges with ⟨hr,hn⟩ | ⟨b,e,rfl,he,-⟩
    · refine .same (by rw [deliver_state]; exact hr) (fun b e rest' hc' => ?_)
        (fun b e stage' rest' hc' => ?_)
      · rw [hc] at hc'
        cases hc'
        exact absurd rfl (hn rfl b e)
      · rw [hc] at hc'
        cases hc'
        exact absurd rfl (hnone _ _)
    · cases he
      exact absurd ((meets_registerRootRange _ _ _).throws hrun) not_false
  | publishThrows hc hco hrun =>
    have hf := failed_of_run hheap hco hrun
    refine hother ?_ (hnot hc nofun)
    rw [deliver_state]
    rcases hco.registeredRootRanges with ⟨hr,-⟩ | ⟨_,_,-,he,-⟩
    · rw [← hr]
      cases hf <;> rfl
    · cases he
  | prologueThrows hc =>
    refine .same (by rw [deliver_state]) (fun b e rest' hc' => ?_) (fun b e stage' rest' hc' => ?_)
    · rw [hc] at hc'
      cases hc'
      rw [deliver_control, Function.update_self]
      rfl
    · rw [hc] at hc'
      cases hc'
  | outOfMemory hc => exact hother (by rw [deliver_state]) (hnot hc nofun)
  | releases hc | freesBlock hc =>
    refine hother ?_ (hnot hc nofun)
    rw [deliver_state]
    rfl
  | stalls hc hs => exact .stalls hc hs rfl (Function.update_self ..)
  | windowDestroys hc hp hm hrun =>
    have he := (meets_windowBody hheap (h.rootsInSpace hm) _ _).returns hrun
    exact hother he.sameProtocol.ranges (hnot hc nofun)
  | windowReturns hc hp hm hrun =>
    have he := (meets_windowBody hheap (h.rootsInSpace hm) _ _).returns hrun
    exact hother he.sameProtocol.ranges (hnot hc nofun)
  | windowThrows hc hp hm hrun =>
    have he := (meets_windowBody hheap (h.rootsInSpace hm) _ _).throws hrun
    exact hother he.registeredRootRanges (hnot hc nofun)

/-! ## Stack bottoms -/

/-- The stack bottom a thread is registered with. -/
def stackBottomOf (s : State) (thread : ThreadId) : Option ℕ :=
  (s.threads.find? thread).map ThreadState.stackBottom

/-- The operations that change the registration of their thread. -/
def Call.registersThread : Call → Bool
  | .registerStackBottom _ => true
  | .unregisterCurrentThread => true
  | _ => false

theorem stackBottomOf_park (s : State) (stackMarker : ℕ) (spill : List ℕ) (other : ThreadId) :
    stackBottomOf (s.park thread stackMarker spill) other = stackBottomOf s other := by
  simp only [stackBottomOf, State.park, OrderedMap.find?_modify]
  split_ifs
  · rw [Option.map_map]
    rfl
  · rfl

theorem stackBottomOf_unpark (s : State) (other : ThreadId) :
    stackBottomOf (s.unpark thread) other = stackBottomOf s other := by
  simp only [stackBottomOf, State.unpark, OrderedMap.find?_modify]
  split_ifs
  · rw [Option.map_map]
    rfl
  · rfl

theorem Cooperated.stackBottomOf {s s' : State} {code : Section} {stage : Stage}
    (h : Cooperated thread s code stage s') (other : ThreadId) :
    stackBottomOf s' other = stackBottomOf s other := by
  cases h with
  | enter hp => rw [Protocol.stackBottomOf, hp.flags.2.2.2, Protocol.stackBottomOf]
  | blocked => rfl
  | spilling => rfl
  | parked => exact stackBottomOf_unpark s other

theorem Effect.stackBottomOf {s s' : State} {code : Section} {next : Next}
    (h : Effect thread s code next s') (other : ThreadId) :
    stackBottomOf s' other = stackBottomOf s other ∨
      other = thread ∧ ∃ call, code = .call call ∧ call.registersThread = true := by
  cases h with
  | registerThread =>
    by_cases hother : other = thread
    · exact Or.inr ⟨hother,_,rfl,rfl⟩
    · left
      rw [Protocol.stackBottomOf, find?_setStackBottom, if_neg hother, Protocol.stackBottomOf]
  | unregisterThread =>
    by_cases hother : other = thread
    · exact Or.inr ⟨hother,_,rfl,rfl⟩
    · left
      simp only [Protocol.stackBottomOf, State.unregisterThread, OrderedMap.find?_erase,
        if_neg hother]
  | _ => exact Or.inl rfl

/-- A thread's stack bottom changes in the registration calls of that thread only. -/
theorem Transition.stackBottomOf (h : ProtocolInvariant w) (hheap : HeapInvariant w.state)
    (ht : Transition thread w w') (other : ThreadId) :
    stackBottomOf w'.state other = stackBottomOf w.state other ∨
      other = thread ∧ ∃ call stage rest,
        w.control thread = .entering (.call call) stage :: rest ∧ call.registersThread = true := by
  have hsame : SameProtocol w.state w'.state →
      Protocol.stackBottomOf w'.state other = Protocol.stackBottomOf w.state other := by
    intro hs
    rw [Protocol.stackBottomOf, hs.threads, Protocol.stackBottomOf]
  have hstate : ∀ {s : State}, w'.state.threads = s.threads →
      Protocol.stackBottomOf w'.state other = Protocol.stackBottomOf s other := by
    intro s hs
    rw [Protocol.stackBottomOf, hs, Protocol.stackBottomOf]
  cases ht with
  | runsSection hc hco hrun =>
    have heffect := effect_of_run hheap hco hrun
    rw [← hco.stackBottomOf other, proceed_state]
    rcases heffect.stackBottomOf other with hs | ⟨rfl,call,rfl,hcall⟩
    · exact Or.inl hs
    · exact Or.inr ⟨rfl,_,_,_,hc,hcall⟩
  | callThrows hc hco hrun =>
    have hf := failed_of_run hheap hco hrun
    cases hf
    left
    rw [← hco.stackBottomOf other]
    exact hstate (by rw [deliver_state]; rfl)
  | publishThrows hc hco hrun =>
    have hf := failed_of_run hheap hco hrun
    left
    rw [← hco.stackBottomOf other]
    refine hstate ?_
    rw [deliver_state]
    cases hf <;> rfl
  | stalls hc hs =>
    left
    cases hs with
    | spill hp => exact hstate hp.flags.2.2.2
    | block hp => exact hstate hp.flags.2.2.2
    | park => exact stackBottomOf_park _ _ _ _
    | reblock => rfl
  | windowDestroys hc hp hm hrun =>
    exact Or.inl (hsame ((meets_windowBody hheap (h.rootsInSpace hm) _ _).returns hrun).sameProtocol)
  | windowReturns hc hp hm hrun =>
    exact Or.inl (hsame ((meets_windowBody hheap (h.rootsInSpace hm) _ _).returns hrun).sameProtocol)
  | windowThrows hc hp hm hrun =>
    have he := (meets_windowBody hheap (h.rootsInSpace hm) _ _).throws hrun
    exact Or.inl (hsame (.of_eqButMarks he))
  | prologueThrows | outOfMemory => exact Or.inl (hstate (by rw [deliver_state]))
  | releases | freesBlock =>
    left
    refine hstate ?_
    rw [deliver_state]
    rfl
  | _ => exact Or.inl rfl

end

theorem ReachableWorld.rangeChange {w w' : World} {label : Label} (h : ReachableWorld w)
    (hstep : step label w = some w') : RangeChange label.thread w w' :=
  (step_transition hstep).rangeChange h.invariant.protocol h.invariant.heap

theorem ReachableWorld.stackBottomOf {w w' : World} {label : Label} (h : ReachableWorld w)
    (hstep : step label w = some w') (thread : ThreadId) :
    stackBottomOf w'.state thread = stackBottomOf w.state thread ∨
      thread = label.thread ∧ ∃ call stage rest,
        w.control thread = .entering (.call call) stage :: rest ∧
          call.registersThread = true := by
  rcases (step_transition hstep).stackBottomOf h.invariant.protocol h.invariant.heap thread with
    hs | ⟨rfl,hc⟩
  · exact Or.inl hs
  · exact Or.inr ⟨rfl,hc⟩

/-! ## Registration calls -/

section
variable {w w' : World} {begin_ end_ : ℕ} {stage : Stage} {below : List Frame}

/-- The root ranges once a registration is past its start. -/
def publishedRanges (s : State) (stage : Stage) (range : RootRange) : List RootRange :=
  if stage = .enter then s.registeredRootRanges ++ [range] else s.registeredRootRanges

theorem Cooperated.publishedRanges {s s' : State} {thread : ThreadId}
    (h : Cooperated thread s (.call (.registerRootRange begin_ end_)) stage s') :
    s'.registeredRootRanges = Protocol.publishedRanges s stage (rootRange begin_ end_) := by
  cases h with
  | enter hp =>
    cases hp with
    | nothing hn => exact absurd rfl (hn begin_ end_)
    | rootRange => rfl
  | blocked | spilling | parked => rfl

/-- A registration fails before it publishes, or publishes and returns. -/
theorem registerRootRange_step (label : Label) (hu : inUserCode below = true)
    (hc : w.control label.thread = .entering (.call (.registerRootRange begin_ end_)) stage :: below)
    (hstep : step label w = some w') :
    (stage = .enter ∧ w'.state = w.state ∧ w'.control label.thread = below ∧
      ∃ e, w'.result label.thread = some (.error e)) ∨
    w'.state.registeredRootRanges = publishedRanges w.state stage (rootRange begin_ end_) ∧
      ((∃ stage', stage' ≠ .enter ∧ w'.control label.thread =
          .entering (.call (.registerRootRange begin_ end_)) stage' :: below) ∨
        w'.control label.thread = below ∧ w'.result label.thread = some (.ok .unit)) := by
  cases step_transition hstep with
  | runsSection hc' hco hrun =>
    rw [hc] at hc'
    cases hc'
    right
    obtain ⟨rfl,rfl⟩ := (meets_registerRootRange _ _ _).returns hrun
    refine ⟨?_,Or.inr ⟨?_,?_⟩⟩
    · rw [proceed_state]
      exact hco.publishedRanges
    · rw [proceed_control, Function.update_self]
      exact resumed_user hu
    · exact deliver_result hu _
  | callThrows hc' hco hrun =>
    rw [hc] at hc'
    cases hc'
    exact absurd ((meets_registerRootRange _ _ _).throws hrun) not_false
  | prologueThrows hc' =>
    rw [hc] at hc'
    cases hc'
    left
    refine ⟨rfl,deliver_state _,?_,_,deliver_result hu _⟩
    rw [deliver_control, Function.update_self]
    exact resumed_user hu
  | stalls hc' hs =>
    rw [hc] at hc'
    cases hc'
    right
    rename_i stage' s
    have hne : stage' ≠ .enter := by
      cases hs <;> decide
    refine ⟨?_,Or.inl ⟨stage',hne,Function.update_self ..⟩⟩
    cases hs with
    | spill hp | block hp =>
      cases hp with
      | nothing hn => exact absurd rfl (hn begin_ end_)
      | rootRange => rfl
    | park | reblock => rfl
  | _ => simp_all [inUserCode]

/-- An unregistration waits, or erases one range of its kind and returns. -/
theorem unregisterRootRange_step (label : Label) (hu : inUserCode below = true)
    (hc : w.control label.thread =
      .entering (.call (.unregisterRootRange begin_ end_)) stage :: below)
    (hstep : step label w = some w') :
    (w'.state.registeredRootRanges = w.state.registeredRootRanges ∧ ∃ stage',
      w'.control label.thread =
        .entering (.call (.unregisterRootRange begin_ end_)) stage' :: below) ∨
    w'.state.registeredRootRanges = w.state.registeredRootRanges.erase (rootRange begin_ end_) ∧
      w'.control label.thread = below ∧ w'.result label.thread = some (.ok .unit) := by
  cases step_transition hstep with
  | runsSection hc' hco hrun =>
    rw [hc] at hc'
    cases hc'
    right
    obtain ⟨rfl,rfl⟩ := (meets_unregisterRootRange _ _ _).returns hrun
    refine ⟨?_,?_,deliver_result hu _⟩
    · rw [proceed_state]
      rcases hco.registeredRootRanges with ⟨hr,-⟩ | ⟨_,_,-,he,-⟩
      · exact congrArg (fun ranges => List.erase ranges (rootRange begin_ end_)) hr
      · cases he
    · rw [proceed_control, Function.update_self]
      exact resumed_user hu
  | callThrows hc' hco hrun =>
    rw [hc] at hc'
    cases hc'
    exact absurd ((meets_unregisterRootRange _ _ _).throws hrun) not_false
  | stalls hc' hs =>
    rw [hc] at hc'
    cases hc'
    left
    refine ⟨?_,_,Function.update_self ..⟩
    cases hs with
    | spill hp | block hp =>
      cases hp
      rfl
    | park | reblock => rfl
  | _ => simp_all [inUserCode]

end
end GcLib.Protocol
