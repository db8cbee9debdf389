import GcLib.Protocol.Calls

/-! # Complete calls

A call made from user code pushes its frame, and the thread stays above the stack it called
from until the result is there. What every step inside the call preserves holds before its
last step.
-/

namespace GcLib.Protocol
open GcLib.Heap GcLib.Support Relation

/-- A step that some condition allows. -/
def StepBy (P : Label → World → Prop) (w w' : World) : Prop :=
  ∃ label, P label w ∧ step label w = some w'

/-- A step taken while a thread is inside the call it made on a stack. -/
def StepInside (P : Label → World → Prop) (thread : ThreadId) (rest : List Frame)
    (w w' : World) : Prop :=
  StepBy P w w' ∧ rest <:+ w.control thread ∧ w.control thread ≠ rest

/-- A complete call made in allowed steps: its last one puts the result where the caller finds
it. -/
inductive ReturnsBy (P : Label → World → Prop) (thread : ThreadId) (call : Call) (w : World) :
    World → Except GCError Value → Prop where
  | immediate {w' : World} {result : Except GCError Value} (hi : call.immediate = some result)
      (hP : P (.user thread (.call call)) w)
      (hcall : step (.user thread (.call call)) w = some w') : ReturnsBy P thread call w w' result
  | run {w₁ w' : World} {result : Except GCError Value}
      (hi : call.immediate = none) (hP : P (.user thread (.call call)) w)
      (hcall : step (.user thread (.call call)) w = some w₁)
      (hin : ReflTransGen (StepInside P thread (w.control thread)) w₁ w')
      (hc : w'.control thread = w.control thread) (hr : w'.result thread = some result) :
      ReturnsBy P thread call w w' result

/-- A complete call, whatever the other threads do meanwhile. -/
abbrev Returns : ThreadId → Call → World → World → Except GCError Value → Prop :=
  ReturnsBy fun _ _ => True

section
variable {w w' : World} {thread : ThreadId} {rest : List Frame} {label : Label}
  {P : Label → World → Prop}

theorem steps_of_stepBy (h : ReflTransGen (StepBy P) w w') :
    ReflTransGen (Steps step) w w' :=
  ReflTransGen.mono (fun _ _ ⟨label,_,hstep⟩ => ⟨label,hstep⟩) _ _ h

theorem steps_of_inside (h : ReflTransGen (StepInside P thread rest) w w') :
    ReflTransGen (Steps step) w w' :=
  ReflTransGen.mono (fun _ _ ⟨⟨label,_,hstep⟩,_⟩ => ⟨label,hstep⟩) _ _ h

theorem resumed_user {ok : Bool} (hu : inUserCode rest = true) : resumed rest ok = rest := by
  cases rest with
  | nil => rfl
  | cons frame rest => cases frame <;> first | rfl | cases hu

theorem deliver_result (hu : inUserCode rest = true) (result : Except GCError Value) :
    (w.deliver thread rest result).result thread = some result := by
  cases rest with
  | nil => exact Function.update_self ..
  | cons frame rest => cases frame <;> first | exact Function.update_self .. | cases hu

theorem Transition.delivers (ht : Transition thread w w')
    (hlt : (w'.control thread).length < (w.control thread).length) :
    ∃ (frame : Frame) (below : List Frame) (w₁ : World) (result : Except GCError Value),
      w.control thread = frame :: below ∧ w' = w₁.deliver thread below result := by
  cases ht with
  | runsSection hc hco hrun =>
    rename_i code stage rest s s' fuel supply supply' next
    cases next with
    | done value => exact ⟨_,_,_,_,hc,rfl⟩
    | _ =>
      rw [proceed_control, Function.update_self, hc] at hlt
      simp [proceeded] at hlt
  | callThrows hc => exact ⟨_,_,_,_,hc,rfl⟩
  | publishThrows hc => exact ⟨_,_,_,_,hc,rfl⟩
  | prologueThrows hc => exact ⟨_,_,_,_,hc,rfl⟩
  | releases hc => exact ⟨_,_,_,_,hc,rfl⟩
  | outOfMemory hc => exact ⟨_,_,_,_,hc,rfl⟩
  | freesBlock hc => exact ⟨_,_,_,_,hc,rfl⟩
  | store | immediate => exact absurd hlt (lt_irrefl _)
  | _ => simp_all [World.setControl, World.freeBlock, World.emit, World.setState]

/-- The step that takes a thread back to user code from the inside of a call it made there. -/
theorem delivers_to_caller (hstep : step label w = some w') (hu : inUserCode rest = true)
    (hsuffix : rest <:+ w.control label.thread) (hne : w.control label.thread ≠ rest)
    (hc : w'.control label.thread = rest) :
    ∃ (frame : Frame) (below : List Frame) (w₁ : World) (result : Except GCError Value),
      w.control label.thread = frame :: below ∧ w' = w₁.deliver label.thread below result ∧
      (below = rest ∨ result.isOk = false ∧ ∃ request, below = .collecting request :: rest) := by
  have hlt : rest.length < (w.control label.thread).length := by
    refine lt_of_le_of_ne hsuffix.length_le fun he => hne ?_
    exact (hsuffix.eq_of_length he).symm
  obtain ⟨frame,below,w₁,result,hframe,hw⟩ :=
    (step_transition hstep).delivers (by rw [hc]; exact hlt)
  refine ⟨frame,below,w₁,result,hframe,hw,?_⟩
  rw [hw, deliver_control, Function.update_self] at hc
  unfold resumed at hc
  split at hc
  · split_ifs at hc with hok
    · rw [← hc] at hu
      cases hu
    · subst hc
      exact Or.inr ⟨by simpa using hok,_,rfl⟩
  · exact Or.inl hc

theorem StepInside.last {I : World → Prop} (h : ReachableWorld w) (hw : I w)
    (hI : ∀ label u u', P label u → ReachableWorld u → I u → Protocol.step label u = some u' →
      u'.control thread ≠ rest → I u')
    (hin : ReflTransGen (StepInside P thread rest) w w') (hne : w.control thread ≠ rest)
    (hc : w'.control thread = rest) :
    ∃ u label, P label u ∧ ReachableWorld u ∧ I u ∧ Protocol.step label u = some w' ∧
      label.thread = thread ∧ u.control thread ≠ rest := by
  have hkept : ∀ {u : World}, ReflTransGen (StepInside P thread rest) w u →
      ReachableWorld u ∧ (u.control thread ≠ rest → I u) := by
    intro u hu
    induction hu with
    | refl => exact ⟨h,fun _ => hw⟩
    | tail _ hstep ih =>
      obtain ⟨⟨label,hP,hstep⟩,-,hne'⟩ := hstep
      exact ⟨ih.1.step hstep,hI label _ _ hP ih.1 (ih.2 hne') hstep⟩
  cases hin with
  | refl => exact absurd hc hne
  | tail hin hlast =>
    rename_i u
    obtain ⟨⟨label,hP,hstep⟩,-,hne'⟩ := hlast
    obtain ⟨hu,hIu⟩ := hkept hin
    refine ⟨u,label,hP,hu,hIu hne',hstep,?_,hne'⟩
    by_contra hother
    exact hne' ((hu.control hstep thread (Ne.symm hother)).symm.trans hc)

theorem returned_inside (hin : ReflTransGen (StepInside P thread rest) w w')
    (hc : w.control thread = rest) : w' = w := by
  cases hin using ReflTransGen.head_induction_on with
  | refl => rfl
  | head hstep => exact absurd hc hstep.2.2

/-- A rule holds at every step of a run. -/
def Obeys (P : Label → World → Prop) : List Label → World → Prop
  | [], _ => True
  | label :: labels, w => P label w ∧ match Protocol.step label w with
    | none => True
    | some w' => Obeys P labels w'

instance decidableObeys (P : Label → World → Prop) [∀ label w, Decidable (P label w)] :
    ∀ labels w, Decidable (Obeys P labels w)
  | [], _ => inferInstanceAs (Decidable True)
  | label :: labels, w =>
    have : Decidable (match Protocol.step label w with
        | none => True
        | some w' => Obeys P labels w') :=
      match Protocol.step label w with
      | none => inferInstanceAs (Decidable True)
      | some w' => decidableObeys P labels w'
    inferInstanceAs (Decidable (_ ∧ _))

theorem Obeys.step {labels : List Label} (h : Obeys P (label :: labels) w)
    (hstep : Protocol.step label w = some w') : Obeys P labels w' := by
  have hnext := h.2
  rw [hstep] at hnext
  exact hnext

theorem Obeys.mono {Q : Label → World → Prop} (hPQ : ∀ label u, P label u → Q label u) :
    ∀ {labels : List Label} {w : World}, Obeys P labels w → Obeys Q labels w
  | [], _, _ => trivial
  | label :: labels, w, h => by
    refine ⟨hPQ _ _ h.1,?_⟩
    have hrest := h.2
    split
    · trivial
    · rename_i w' hstep
      rw [hstep] at hrest
      exact hrest.mono hPQ

theorem Inside.steps : ∀ {labels : List Label} {w : World},
    run Protocol.step labels w = some w' → Inside thread rest labels w → Obeys P labels w →
      ReflTransGen (StepInside P thread rest) w w'
  | [], w, hrun, _, _ => by
    cases hrun
    exact .refl
  | label :: labels, w, hrun, hin, hP => by
    obtain ⟨w₁,hstep,hrest⟩ := Option.bind_eq_some_iff.mp hrun
    exact .head ⟨⟨label,hP.1,hstep⟩,hin.1,hin.2.1⟩
      (Inside.steps hrest (hin.step hstep) (hP.step hstep))

theorem step_call {call : Call} (hi : call.immediate = none)
    (hstep : step (.user thread (.call call)) w = some w') :
    inUserCode (w.control thread) = true ∧
      w' = w.setControl thread (.entering (.call call) .enter :: w.control thread) := by
  simp only [step] at hstep
  split_ifs at hstep with hu
  simp only [runAction] at hstep
  split_ifs at hstep with hw
  rw [hi] at hstep
  exact ⟨hu,(Option.some.inj hstep).symm⟩

theorem step_immediate {call : Call} {result : Except GCError Value}
    (hi : call.immediate = some result) (hstep : step (.user thread (.call call)) w = some w') :
    w' = w.setResult thread result := by
  simp only [step] at hstep
  split_ifs at hstep with hu
  simp only [runAction] at hstep
  split_ifs at hstep with hw
  rw [hi] at hstep
  exact (Option.some.inj hstep).symm

theorem run_not_user {thread : ThreadId} {choice : Choice}
    (hstep : step (.run thread choice) w = some w') : inUserCode (w.control thread) = false := by
  simp only [step] at hstep
  split at hstep
  · cases hstep
  · rename_i frame rest hc
    rw [hc]
    cases frame with
    | finalizer blocks pending =>
      split_ifs at hstep
      cases hstep
    | _ => rfl

/-! ## Quiet steps and the section of a call -/

/-- A step that changes nothing but the protocol if the thread takes it. -/
def QuietStep (P : Label → World → Prop) (thread : ThreadId) (w w' : World) : Prop :=
  ∃ label, P label w ∧ step label w = some w' ∧
    (label.thread = thread → SameHeap w.state w'.state ∧ w'.log = w.log)

theorem steps_of_quiet (h : ReflTransGen (QuietStep P thread) w w') :
    ReflTransGen (Steps step) w w' :=
  ReflTransGen.mono (fun _ _ ⟨label,_,hstep,_⟩ => ⟨label,hstep⟩) _ _ h

theorem quietStep_of_other (hP : P label w) (hstep : step label w = some w')
    (hne : label.thread ≠ thread) : QuietStep P thread w w' :=
  ⟨label,hP,hstep,fun h => absurd h hne⟩

theorem quietStep_of_same (hP : P label w) (hstep : step label w = some w')
    (hs : SameHeap w.state w'.state) (hl : w'.log = w.log) : QuietStep P thread w w' :=
  ⟨label,hP,hstep,fun _ => ⟨hs,hl⟩⟩

/-- A step that runs the section of a call. -/
inductive SectionRuns (thread : ThreadId) (call : Call) (rest : List Frame) (w w' : World) :
    Prop where
  | returns {stage : Stage} {s s' : State} {fuel : ℕ} {supply supply' : Supply} {next : Next}
      (hco : Cooperated thread w.state (.call call) stage s)
      (hrun : Section.body thread fuel (.call call) s supply = .returns next s' supply')
      (hw : w' = ((w.setState s').emit ((Section.call call).events s s' next)).proceed
        thread rest next)
  | throws {stage : Stage} {s s' : State} {fuel : ℕ} {supply : Supply} {e : GCError}
      (hco : Cooperated thread w.state (.call call) stage s)
      (hrun : Section.body thread fuel (.call call) s supply = .throws e s')
      (hw : w' = (w.setState s').deliver thread rest (.error e))
  | prologueThrows {begin_ end_ : ℕ} {e : GCError} (hcall : call = .registerRootRange begin_ end_)
      (hw : w' = w.deliver thread rest (.error e))

/-- A thread about to run its section is held up, or runs it. -/
theorem entering_step {call : Call} {stage : Stage}
    (hc : w.control label.thread = .entering (.call call) stage :: rest)
    (hstep : step label w = some w') :
    (SameHeap w.state w'.state ∧ w'.log = w.log ∧
      ∃ stage', w'.control label.thread = .entering (.call call) stage' :: rest) ∨
    SectionRuns label.thread call rest w w' := by
  cases step_transition hstep with
  | runsSection hc' hco hrun =>
    rw [hc] at hc'
    cases hc'
    exact Or.inr (.returns hco hrun rfl)
  | callThrows hc' hco hrun =>
    rw [hc] at hc'
    cases hc'
    exact Or.inr (.throws hco hrun rfl)
  | prologueThrows hc' =>
    rw [hc] at hc'
    cases hc'
    exact Or.inr (.prologueThrows rfl rfl)
  | stalls hc' hs =>
    rw [hc] at hc'
    cases hc'
    exact Or.inl ⟨hs.sameHeap,rfl,_,Function.update_self ..⟩
  | _ => simp_all [inUserCode]

/-- A call that returns ran its section, and was quiet before. -/
theorem ReturnsBy.section {call : Call} {result : Except GCError Value} (h : ReachableWorld w)
    (hi : call.immediate = none) (hret : ReturnsBy P thread call w w' result) :
    ∃ u v label stage, ReachableWorld u ∧ ReflTransGen (QuietStep P thread) w u ∧
      u.control thread = .entering (.call call) stage :: w.control thread ∧ P label u ∧
      label.thread = thread ∧ step label u = some v ∧
      SectionRuns thread call (w.control thread) u v ∧
      ReflTransGen (StepInside P thread (w.control thread)) v w' := by
  cases hret with
  | immediate hi' => rw [hi] at hi'; cases hi'
  | @run w₁ _ _ _ hP hcall hin hc hr =>
    obtain ⟨hu,hw₁⟩ := step_call hi hcall
    have hquiet : QuietStep P thread w w₁ :=
      quietStep_of_same hP hcall (by rw [hw₁]; rfl) (by rw [hw₁]; rfl)
    have hcontrol : w₁.control thread = .entering (.call call) .enter :: w.control thread := by
      rw [hw₁]
      exact Function.update_self ..
    have hw₁' : ReachableWorld w₁ := h.step hcall
    have hpath := ReflTransGen.single hquiet
    clear hquiet hw₁ hcall
    generalize Stage.enter = stage at hcontrol
    induction hin using ReflTransGen.head_induction_on generalizing stage with
    | refl =>
      rw [hcontrol] at hc
      exact absurd hc (List.cons_ne_self _ _)
    | head hstep hin ih =>
      rename_i u u'
      obtain ⟨⟨label,hP',hstep⟩,hsuffix,hne⟩ := hstep
      by_cases hthread : label.thread = thread
      · subst hthread
        rcases entering_step hcontrol hstep with ⟨hs,hlog,stage',hcontrol'⟩ | hruns
        · exact ih (hw₁'.step hstep) (hpath.tail (quietStep_of_same hP' hstep hs hlog)) stage'
            hcontrol'
        · exact ⟨u,u',label,stage,hw₁',hpath,hcontrol,hP',rfl,hstep,hruns,hin⟩
      · have hsame := hw₁'.control hstep thread (Ne.symm hthread)
        exact ih (hw₁'.step hstep) (hpath.tail (quietStep_of_other hP' hstep hthread)) stage
          (hsame.trans hcontrol)

theorem ReturnsBy.reachable {call : Call} {result : Except GCError Value} (h : ReachableWorld w)
    (hret : ReturnsBy P thread call w w' result) : ReachableWorld w' := by
  cases hret with
  | immediate _ _ hcall => exact h.step hcall
  | run _ _ hcall hin => exact Reachable.steps (h.step hcall) (steps_of_inside hin)

theorem ReturnsBy.result {call : Call} {result : Except GCError Value}
    (hi : call.immediate = none) (hret : ReturnsBy P thread call w w' result) :
    w'.control thread = w.control thread ∧ w'.result thread = some result ∧
      inUserCode (w.control thread) = true := by
  cases hret with
  | immediate hi' => rw [hi] at hi'; cases hi'
  | run _ hP hcall hin hc hr => exact ⟨hc,hr,(step_call hi hcall).1⟩

/-! ## Calls that are one section -/

/-- The calls whose critical section is all they do. -/
def Call.singleSection : Call → Bool
  | .registerRootRange _ _ => true
  | .unregisterRootRange _ _ => true
  | .registerWeakRef _ _ => true
  | .readWeakRef _ => true
  | .unregisterWeakRef _ => true
  | .copyWeakRef _ _ => true
  | .updateWeakRef _ _ => true
  | _ => false

theorem meets_returning_done {m : M Value} {s : State} :
    (returning m).Meets s (fun next _ => ∃ value, next = .done value) (fun _ _ => True) := by
  apply meets_returning
  intro supply
  cases m s supply <;> simp

theorem singleSection_done {call : Call} (h : call.singleSection = true) {fuel : ℕ} {s s' : State}
    {supply supply' : Supply} {next : Next}
    (hrun : Section.body thread fuel (.call call) s supply = .returns next s' supply') :
    ∃ value, next = .done value := by
  have hmeets : (Section.body thread fuel (.call call)).Meets s
      (fun next _ => ∃ value, next = .done value) (fun _ _ => True) := by
    apply Exec.meets_bind
    apply Exec.meets_get
    cases call with
    | registerRootRange begin_ end_ => exact Exec.meets_pure ⟨_,rfl⟩
    | unregisterRootRange begin_ end_ =>
      exact Exec.meets_bind (Exec.meets_modify (Exec.meets_pure ⟨_,rfl⟩))
    | registerWeakRef | readWeakRef | unregisterWeakRef | copyWeakRef | updateWeakRef =>
      exact meets_returning_done
    | _ => cases h
  exact hmeets.returns hrun

/-- A thread in such a call is held up, or returns with a result. -/
theorem single_step {call : Call} {stage : Stage} (h : call.singleSection = true)
    (hu : inUserCode rest = true)
    (hc : w.control label.thread = .entering (.call call) stage :: rest)
    (hstep : step label w = some w') :
    (∃ stage', w'.control label.thread = .entering (.call call) stage' :: rest) ∨
      w'.control label.thread = rest ∧ ∃ result, w'.result label.thread = some result := by
  rcases entering_step hc hstep with ⟨-,-,hstage⟩ | hruns
  · exact Or.inl hstage
  · right
    cases hruns with
    | returns hco hrun hw =>
      obtain ⟨value,rfl⟩ := singleSection_done h hrun
      rw [hw]
      refine ⟨?_,_,deliver_result hu _⟩
      rw [proceed_control, Function.update_self]
      exact resumed_user hu
    | throws hco hrun hw =>
      rw [hw, deliver_control, Function.update_self]
      exact ⟨resumed_user hu,_,deliver_result hu _⟩
    | prologueThrows hcall hw =>
      rw [hw, deliver_control, Function.update_self]
      exact ⟨resumed_user hu,_,deliver_result hu _⟩

theorem ReachableWorld.immediate_of_entering (h : ReachableWorld w) {call : Call} {stage : Stage}
    (hc : w.control thread = .entering (.call call) stage :: rest) : call.immediate = none := by
  have hvalid : Frame.Valid (.entering (.call call) stage) :=
    (h.invariant.protocol.thread thread).valid _ (by rw [hc]; exact List.mem_cons_self)
  exact hvalid.1

/-- A thread comes to a section of a call by making the call, for a collection, or by waiting. -/
theorem ReachableWorld.entering_after (hr : ReachableWorld w) {call : Call} {stage : Stage}
    (hstep : step label w = some w')
    (hc : w'.control label.thread = .entering (.call call) stage :: rest) :
    label = .user label.thread (.call call) ∨ call = .collect ∨
      ∃ stage', w.control label.thread = .entering (.call call) stage' :: rest := by
  have hbelow : ∀ {frame : Frame} {below : List Frame} {ok : Bool},
      w.control label.thread = frame :: below →
      resumed below ok ≠ .entering (.call call) stage :: rest := by
    intro frame below ok hcontrol he
    have hawaits := (hr.invariant.protocol.thread label.thread).below
    rw [hcontrol] at hawaits
    cases below with
    | nil => cases he
    | cons top below =>
      have htop := hawaits top List.mem_cons_self
      cases top <;> cases ok <;> simp_all [resumed, Frame.awaits]
  have huser : inUserCode (w.control label.thread) = true →
      w.control label.thread ≠ .entering (.call call) stage :: rest := by
    intro hu he
    rw [he] at hu
    cases hu
  cases label with
  | user thread action =>
    have hu : inUserCode (w.control thread) = true := by
      simp only [step] at hstep
      split_ifs at hstep with hu
      exact hu
    cases action with
    | call c =>
      cases hi : c.immediate with
      | none =>
        obtain ⟨-,rfl⟩ := step_call hi hstep
        simp only [World.setControl, Label.thread, Function.update_self] at hc
        cases hc
        exact Or.inl rfl
      | some result =>
        rw [step_immediate hi hstep] at hc
        exact absurd hc (huser hu)
    | storeByte address value =>
      simp only [step, hu, if_true, runAction] at hstep
      cases hstep
      exact absurd hc (huser hu)
    | finalizerReturns =>
      simp only [step, hu, if_true, runAction] at hstep
      split at hstep
      · cases hstep
        simp [World.setControl, Label.thread] at hc
      · cases hstep
  | run thread choice =>
    have hnot := run_not_user hstep
    right
    cases step_transition hstep with
    | store address value hu | immediate hi hu | call hw hi hu =>
      exact absurd (show inUserCode (w.control thread) = true from hu) (by simp [hnot])
    | runsSection hc' hco hrun =>
      rename_i code stage' rest' s s' fuel supply supply' next
      rw [proceed_control, Function.update_self] at hc
      cases next with
      | done value => exact absurd hc (hbelow hc')
      | collect =>
        cases hc
        exact Or.inl rfl
      | _ => cases hc
    | callThrows hc' | publishThrows hc' | prologueThrows hc' | outOfMemory hc' | releases hc'
    | freesBlock hc' =>
      rw [deliver_control, Function.update_self] at hc
      exact absurd hc (hbelow hc')
    | stalls hc' hs =>
      simp only [World.setControl, Function.update_self] at hc
      cases hc
      exact Or.inr ⟨_,hc'⟩
    | retries hc' =>
      simp only [World.setControl, Function.update_self] at hc
      cases hc
      exact Or.inl rfl
    | _ => simp [World.setControl] at hc

end
end GcLib.Protocol
