import GcLib.Heap.MarkIndependence
import GcLib.Protocol.Reachable

/-! # Worlds that differ in mark bytes only

Two such worlds go through the same steps: a label is enabled in both or in neither,
and leads to worlds that again differ in mark bytes only, with the same log and the
same results delivered. A diagnostic snapshot reports mark bytes, so snapshots are
compared without them.
-/

namespace GcLib.Protocol
open GcLib.Heap GcLib.Support Exec

/-- The same error, or the same value up to the mark bytes it reports. -/
def SameResult (result₁ result₂ : Except GCError Value) : Prop :=
  result₁.map Value.forgetMarks = result₂.map Value.forgetMarks

inductive Frame.Alike : Frame → Frame → Prop where
  | refl (frame : Frame) : Frame.Alike frame frame
  | releasing {result₁ result₂ : Except GCError Value} (h : SameResult result₁ result₂) :
      Frame.Alike (.releasing result₁) (.releasing result₂)

inductive Next.Alike : Next → Next → Prop where
  | refl (next : Next) : Next.Alike next next
  | done {value₁ value₂ : Value} (h : value₁.forgetMarks = value₂.forgetMarks) :
      Next.Alike (.done value₁) (.done value₂)

inductive Afterwards.Alike : Afterwards → Afterwards → Prop where
  | refl (after : Afterwards) : Afterwards.Alike after after
  | done {value₁ value₂ : Value} (h : value₁.forgetMarks = value₂.forgetMarks) :
      Afterwards.Alike (.done value₁) (.done value₂)

/-- Worlds that differ in mark bytes, and in the results that were there from the start. -/
structure Twins (start₁ start₂ : ThreadId → Option (Except GCError Value)) (w₁ w₂ : World) :
    Prop where
  state : w₁.state.EqButMarks w₂.state
  control : ∀ t, List.Forall₂ Frame.Alike (w₁.control t) (w₂.control t)
  log : w₁.log = w₂.log
  result : ∀ t, w₁.result t = start₁ t ∧ w₂.result t = start₂ t ∨
    Option.Rel SameResult (w₁.result t) (w₂.result t)

section
variable {s₁ s₂ : State} {thread : ThreadId} {fuel : ℕ}

theorem rel_ite {σ : Type} {R : σ → σ → Prop} {p q : Prop} [Decidable p] [Decidable q]
    {a₁ a₂ b₁ b₂ : Option σ} (hpq : p ↔ q) (ha : Option.Rel R a₁ a₂) (hb : Option.Rel R b₁ b₂) :
    Option.Rel R (if p then a₁ else b₁) (if q then a₂ else b₂) := by
  by_cases hq : q
  · rwa [if_pos (hpq.mpr hq), if_pos hq]
  · rwa [if_neg fun hp => hq (hpq.mp hp), if_neg hq]

theorem sameResult_ok {value₁ value₂ : Value} (h : value₁.forgetMarks = value₂.forgetMarks) :
    SameResult (.ok value₁) (.ok value₂) := congrArg Except.ok h

theorem alike_rfl (stack : List Frame) : List.Forall₂ Frame.Alike stack stack :=
  List.forall₂_same.mpr fun frame _ => .refl frame

theorem respects_returning {m : M Value} (h : Respects State.EqButMarks m) :
    Respects State.EqButMarks (returning m) := h.bind fun _ => respects_pure _

theorem respects_openWindow (call : WindowCall) :
    Respects State.EqButMarks (openWindow thread call) :=
  (respects_modifyState fun _ marks => ⟨marks,rfl⟩).bind fun _ => respects_pure _

/-- A section does the same whatever the mark bytes are. -/
theorem agree_sectionBody (code : Section) (h : s₁.EqButMarks s₂) :
    Agree (code.body thread fuel) (code.body thread fuel) s₁ s₂
      (fun next₁ t₁ next₂ t₂ => Next.Alike next₁ next₂ ∧ t₁.EqButMarks t₂) State.EqButMarks := by
  have hrespects : ∀ {m : M Next}, Respects State.EqButMarks m → Agree m m s₁ s₂
      (fun next₁ t₁ next₂ t₂ => Next.Alike next₁ next₂ ∧ t₁.EqButMarks t₂) State.EqButMarks := by
    intro m hm
    refine (hm s₁ s₂ h).mono ?_ fun _ _ => id
    rintro next t₁ _ t₂ ⟨rfl,ht⟩
    exact ⟨.refl next,ht⟩
  have hmodify : ∀ {g : State → State}, (∀ s marks, ∃ marks',
      g { s with marks := marks } = { g s with marks := marks' }) →
      Respects State.EqButMarks (do Exec.modify g; pure (.done .unit) : M Next) :=
    fun hg => (respects_modifyState hg).bind fun _ => respects_pure _
  cases code with
  | publish header constructing =>
    exact hrespects (respects_returning (respects_publishAllocation header constructing))
  | call call =>
    have hcollecting : s₁.collecting = s₂.collecting := (congrArg State.collecting h.eq :)
    have hsnapshot : s₁.snapshot = s₂.snapshot := by
      rw [h.eq_with]
      rfl
    have hregistered : s₁.isRegistered thread = s₂.isRegistered thread := by
      rw [h.eq_with]
      rfl
    have hthreshold : s₁.collectionThresholdBytes = s₂.collectionThresholdBytes :=
      (congrArg State.collectionThresholdBytes h.eq :)
    apply agree_get
    cases call with
    | registerStackBottom stackBottom =>
      exact hrespects (respects_returning (respects_registerStackBottomLocked stackBottom))
    | unregisterCurrentThread => exact hrespects (hmodify fun s marks => ⟨marks,rfl⟩)
    | isCurrentThreadRegistered =>
      simp only [hregistered]
      exact hrespects (respects_pure _)
    | safepoint => exact hrespects (respects_pure _)
    | registerRootRange begin_ end_ => exact hrespects (respects_pure _)
    | unregisterRootRange begin_ end_ => exact hrespects (hmodify fun s marks => ⟨marks,rfl⟩)
    | setCollectionThresholdBytes bytes => exact hrespects (hmodify fun s marks => ⟨marks,rfl⟩)
    | collectionThresholdBytes =>
      simp only [hthreshold]
      exact hrespects (respects_pure _)
    | managedBytes =>
      simp only [h.managedBytes]
      exact hrespects (respects_pure _)
    | managedBlockCount =>
      simp only [h.allocations]
      exact hrespects (respects_pure _)
    | stats =>
      simp only [hsnapshot]
      exact hrespects (respects_pure _)
    | liveObjects =>
      dsimp only
      rw [hcollecting]
      split_ifs
      · refine agree_bind ((agree_liveObjectsLocked h).mono ?_ fun _ _ => id)
        rintro l₁ t₁ l₂ t₂ ⟨hl,ht⟩
        exact agree_pure ⟨.done (congrArg Value.objects hl),ht⟩
      · exact hrespects (respects_openWindow _)
    | objectInfo pointer =>
      dsimp only
      rw [hcollecting]
      split_ifs
      · refine agree_bind ((agree_objectInfoLocked h pointer).mono ?_ fun _ _ => id)
        rintro o₁ t₁ o₂ t₂ ⟨ho,ht⟩
        exact agree_pure ⟨.done (congrArg Value.object ho),ht⟩
      · exact hrespects (respects_openWindow _)
    | isLive payload =>
      simp only [h.findBlockLocked]
      exact hrespects (respects_pure _)
    | mallocInternal payloadSize payloadAlignment destructor constructing =>
      refine hrespects (respects_requireRegisteredThreadLocked.bind fun _ => ?_)
      cases allocationRequest payloadSize payloadAlignment destructor constructing with
      | none => exact respects_raise _
      | some request => exact respects_pure _
    | finishConstruction payload =>
      exact hrespects (respects_returning (respects_finishConstructionLocked payload))
    | releaseUnconstructed payload =>
      refine hrespects ((respects_releaseUnconstructedLocked payload).bind fun header => ?_)
      cases header with
      | none => exact respects_pure _
      | some header => exact respects_pure _
    | collectIfNeeded incoming =>
      exact hrespects ((respects_shouldCollectLocked incoming).bind fun _ =>
        .ite (respects_pure _) (respects_pure _))
    | collect =>
      dsimp only
      rw [hcollecting]
      exact hrespects (.ite (respects_pure _)
        (respects_requireRegisteredThreadLocked.bind fun _ => respects_openWindow _))
    | shutdown =>
      dsimp only
      rw [hcollecting]
      exact hrespects (.ite (respects_pure _) (respects_openWindow _))
    | registerWeakRef target storage =>
      exact hrespects (respects_returning (respects_registerWeakRefLocked target storage))
    | readWeakRef storage =>
      exact hrespects (respects_returning
        (respects_getState (fun _ _ => rfl) fun _ => respects_pure _))
    | unregisterWeakRef storage =>
      exact hrespects (respects_returning
        ((respects_modifyState fun s marks => ⟨marks,rfl⟩).bind fun _ => respects_pure _))
    | copyWeakRef oldStorage newStorage =>
      exact hrespects (respects_returning (respects_copyWeakRefLocked oldStorage newStorage))
    | updateWeakRef oldStorage newStorage =>
      exact hrespects (respects_returning (respects_updateWeakRefLocked oldStorage newStorage))

/-- A window does the same whatever the mark bytes are. -/
theorem agree_windowBody (call : WindowCall) (env : ScanEnvironment) (h : s₁.EqButMarks s₂) :
    Agree (call.body thread fuel env) (call.body thread fuel env) s₁ s₂
      (fun after₁ t₁ after₂ t₂ => Afterwards.Alike after₁ after₂ ∧ t₁.EqButMarks t₂)
      State.EqButMarks := by
  cases call with
  | collect =>
    refine agree_bind ((respects_collectWindow s₁ s₂ h).mono ?_ fun _ _ => id)
    rintro blocks t₁ _ t₂ ⟨rfl,ht⟩
    exact agree_pure ⟨.refl _,ht⟩
  | shutdown =>
    refine agree_bind ((respects_shutdownWindow s₁ s₂ h).mono ?_ fun _ _ => id)
    rintro blocks t₁ _ t₂ ⟨rfl,ht⟩
    exact agree_pure ⟨.refl _,ht⟩
  | liveObjects =>
    refine agree_bind ((agree_liveObjectsLocked h).mono ?_ fun _ _ => id)
    rintro l₁ t₁ l₂ t₂ ⟨hl,ht⟩
    exact agree_pure ⟨.done (congrArg Value.objects hl),ht⟩
  | objectInfo pointer =>
    refine agree_bind ((agree_objectInfoLocked h pointer).mono ?_ fun _ _ => id)
    rintro o₁ t₁ o₂ t₂ ⟨ho,ht⟩
    exact agree_pure ⟨.done (congrArg Value.object ho),ht⟩

end

namespace Twins
variable {start₁ start₂ : ThreadId → Option (Except GCError Value)} {w₁ w₂ : World}
  {thread : ThreadId} {rest₁ rest₂ : List Frame}

theorem setState (h : Twins start₁ start₂ w₁ w₂) {s₁ s₂ : State} (hs : s₁.EqButMarks s₂) :
    Twins start₁ start₂ (w₁.setState s₁) (w₂.setState s₂) :=
  ⟨hs,h.control,h.log,h.result⟩

theorem setControl (h : Twins start₁ start₂ w₁ w₂) (thread : ThreadId)
    (hrest : List.Forall₂ Frame.Alike rest₁ rest₂) :
    Twins start₁ start₂ (w₁.setControl thread rest₁) (w₂.setControl thread rest₂) := by
  refine ⟨h.state,fun t => ?_,h.log,h.result⟩
  by_cases ht : t = thread
  · subst ht
    simpa only [World.setControl, Function.update_self] using hrest
  · simpa only [World.setControl, Function.update_of_ne ht] using h.control t

theorem setResult (h : Twins start₁ start₂ w₁ w₂) (thread : ThreadId)
    {result₁ result₂ : Except GCError Value} (hr : SameResult result₁ result₂) :
    Twins start₁ start₂ (w₁.setResult thread result₁) (w₂.setResult thread result₂) := by
  refine ⟨h.state,h.control,h.log,fun t => ?_⟩
  by_cases ht : t = thread
  · subst ht
    simp only [World.setResult, Function.update_self]
    exact Or.inr (.some hr)
  · simpa only [World.setResult, Function.update_of_ne ht] using h.result t

theorem emit (h : Twins start₁ start₂ w₁ w₂) (events : List Event) :
    Twins start₁ start₂ (w₁.emit events) (w₂.emit events) :=
  ⟨h.state,h.control,congrArg (· ++ events) h.log,h.result⟩

theorem deliver (h : Twins start₁ start₂ w₁ w₂) (thread : ThreadId)
    (hrest : List.Forall₂ Frame.Alike rest₁ rest₂) {result₁ result₂ : Except GCError Value}
    (hr : SameResult result₁ result₂) :
    Twins start₁ start₂ (w₁.deliver thread rest₁ result₁) (w₂.deliver thread rest₂ result₂) := by
  have hplain := (h.setControl thread hrest).setResult thread hr
  cases hrest with
  | nil => exact hplain
  | @cons frame₁ frame₂ below₁ below₂ hframe hbelow =>
    cases hframe with
    | releasing h => exact hplain
    | refl =>
      cases frame₁ with
      | collecting request =>
        cases result₁ with
        | ok value₁ =>
          cases result₂ with
          | ok value₂ => exact h.setControl thread (.cons (.refl _) hbelow)
          | error e => cases hr
        | error e₁ =>
          cases result₂ with
          | ok value₂ => cases hr
          | error e₂ => exact (h.setControl thread hbelow).setResult thread hr
      | _ => exact hplain

theorem proceed (h : Twins start₁ start₂ w₁ w₂) (thread : ThreadId)
    (hrest : List.Forall₂ Frame.Alike rest₁ rest₂) {next₁ next₂ : Next}
    (hn : Next.Alike next₁ next₂) :
    Twins start₁ start₂ (w₁.proceed thread rest₁ next₁) (w₂.proceed thread rest₂ next₂) := by
  cases hn with
  | done hv => exact h.deliver thread hrest (sameResult_ok hv)
  | refl =>
    cases next₁ with
    | done value => exact h.deliver thread hrest rfl
    | _ => exact h.setControl thread (.cons (.refl _) hrest)

theorem freeBlock (h : Twins start₁ start₂ w₁ w₂) (header : ℕ) :
    Twins start₁ start₂ (w₁.freeBlock header) (w₂.freeBlock header) := by
  have hserial : w₁.state.serial header = w₂.state.serial header := by
    simp only [State.serial, h.state.chunks]
  unfold World.freeBlock
  rw [hserial]
  refine (h.setState ?_).emit _
  rw [h.state.eq_with]
  rfl

theorem runSection (h : Twins start₁ start₂ w₁ w₂) (choice : Choice) (code : Section)
    (hrest : List.Forall₂ Frame.Alike rest₁ rest₂) {s₁ s₂ : State} (hs : s₁.EqButMarks s₂)
    (supply : Supply) :
    Option.Rel (Twins start₁ start₂) (runSection w₁ thread choice code rest₁ s₁ supply)
      (runSection w₂ thread choice code rest₂ s₂ supply) := by
  have hbody := @agree_sectionBody s₁ s₂ thread choice.fuel code hs supply
  have hevents : ∀ {next₁ next₂ : Next} {t₁ t₂ : State}, Next.Alike next₁ next₂ →
      t₁.EqButMarks t₂ → code.events s₁ t₁ next₁ = code.events s₂ t₂ next₂ := by
    intro next₁ next₂ t₁ t₂ hn ht
    cases hn with
    | refl =>
      cases code <;> cases next₁ <;> simp only [Section.events, State.serial, hs.chunks, ht.chunks]
    | done =>
      cases code <;> simp only [Section.events, State.serial, ht.chunks]
  unfold Protocol.runSection
  revert hbody
  generalize code.body thread choice.fuel s₁ supply = o₁
  generalize code.body thread choice.fuel s₂ supply = o₂
  intro hbody
  cases hbody with
  | diverges => exact .none
  | returns hq =>
    dsimp only
    rw [hevents hq.1 hq.2]
    exact .some (((h.setState hq.2).emit _).proceed thread hrest hq.1)
  | throws ht =>
    cases code with
    | publish header constructing =>
      exact .some (((h.setState ht).freeBlock header).deliver thread hrest rfl)
    | call call => exact .some ((h.setState ht).deliver thread hrest rfl)

theorem respects_prologue (code : Section) : Respects State.EqButMarks code.prologue := by
  cases code with
  | publish header constructing => exact respects_pure ()
  | call call =>
    cases call with
    | registerRootRange begin_ end_ =>
      exact respects_allocateState.bind fun _ => respects_modifyState fun _ marks => ⟨marks,rfl⟩
    | _ => exact respects_pure ()

theorem runEntering (h : Twins start₁ start₂ w₁ w₂) (choice : Choice) (code : Section)
    (stage : Stage) (hrest : List.Forall₂ Frame.Alike rest₁ rest₂) :
    Option.Rel (Twins start₁ start₂) (runEntering w₁ thread choice code stage rest₁)
      (runEntering w₂ thread choice code stage rest₂) := by
  have hstall : ∀ {s₁ s₂ : State} (stage : Stage), s₁.EqButMarks s₂ →
      Option.Rel (Twins start₁ start₂)
        (some ((w₁.setState s₁).setControl thread (.entering code stage :: rest₁)))
        (some ((w₂.setState s₂).setControl thread (.entering code stage :: rest₂))) :=
    fun stage hs => .some ((h.setState hs).setControl thread (.cons (.refl _) hrest))
  have hproceeds : ∀ {s₁ s₂ : State}, s₁.EqButMarks s₂ →
      s₁.mayProceed thread = s₂.mayProceed thread := by
    intro s₁ s₂ hs
    rw [hs.eq_with]
    rfl
  have hregistered : ∀ {s₁ s₂ : State}, s₁.EqButMarks s₂ →
      s₁.isRegistered thread = s₂.isRegistered thread := by
    intro s₁ s₂ hs
    rw [hs.eq_with]
    rfl
  have hs := h.state
  unfold Protocol.runEntering
  cases stage with
  | enter =>
    have hprologue := respects_prologue code _ _ hs choice.supply
    dsimp only
    revert hprologue
    generalize code.prologue w₁.state choice.supply = o₁
    generalize code.prologue w₂.state choice.supply = o₂
    intro hprologue
    cases hprologue with
    | diverges => exact .none
    | throws ht => exact .some ((h.setState ht).deliver thread hrest rfl)
    | returns hq =>
      dsimp only
      rw [hproceeds hq.2, hregistered hq.2]
      split_ifs
      · exact h.runSection choice code hrest hq.2 _
      · exact hstall .spilling hq.2
      · exact hstall .blocked hq.2
  | blocked =>
    dsimp only
    rw [hproceeds hs]
    split_ifs
    · exact h.runSection choice code hrest hs _
    · exact .none
  | spilling =>
    dsimp only
    rw [hproceeds hs, hregistered hs]
    split_ifs
    · exact h.runSection choice code hrest hs _
    · refine hstall .parked ?_
      rw [hs.eq_with]
      rfl
    · exact hstall .blocked hs
  | parked =>
    have hstop : w₁.state.stopTheWorldRequested = w₂.state.stopTheWorldRequested :=
      (congrArg State.stopTheWorldRequested hs.eq :)
    dsimp only
    rw [hstop]
    split_ifs
    · exact .none
    · refine h.runSection choice code hrest ?_ _
      rw [hs.eq_with]
      rfl

theorem runWindow (h : Twins start₁ start₂ w₁ w₂) (choice : Choice) (call : WindowCall)
    (hrest : List.Forall₂ Frame.Alike rest₁ rest₂) :
    Option.Rel (Twins start₁ start₂) (runWindow w₁ thread choice call rest₁)
      (runWindow w₂ thread choice call rest₂) := by
  have hpaused : w₁.state.othersPaused thread = w₂.state.othersPaused thread := by
    simp only [State.othersPaused, h.state.threads]
  have hbody := @agree_windowBody _ _ thread choice.fuel call choice.env h.state choice.supply
  unfold Protocol.runWindow
  rw [hpaused]
  split_ifs
  · revert hbody
    generalize call.body thread choice.fuel choice.env w₁.state choice.supply = o₁
    generalize call.body thread choice.fuel choice.env w₂.state choice.supply = o₂
    intro hbody
    cases hbody with
    | diverges => exact .none
    | throws ht =>
      exact .some ((h.setState ht).setControl thread (.cons (.refl _) hrest))
    | returns hq =>
      obtain ⟨ha,ht⟩ := hq
      cases ha with
      | done hv =>
        exact .some ((h.setState ht).setControl thread
          (.cons (.releasing (sameResult_ok hv)) hrest))
      | refl =>
        rename_i after t₁ t₂ supply'
        cases after with
        | done value => exact .some ((h.setState ht).setControl thread (.cons (.refl _) hrest))
        | destroy blocks =>
          have hserial : ∀ header, t₁.serial header = t₂.serial header := by
            simp only [State.serial, ht.chunks, implies_true]
          simp only [hserial, h.log]
          exact .some (((h.setState ht).emit _).setControl thread (.cons (.refl _) hrest))
  · exact .none

theorem runAllocating (h : Twins start₁ start₂ w₁ w₂) (choice : Choice)
    (request : AllocationRequest) (retried : Bool)
    (hrest : List.Forall₂ Frame.Alike rest₁ rest₂) :
    Option.Rel (Twins start₁ start₂) (runAllocating w₁ thread choice request retried rest₁)
      (runAllocating w₂ thread choice request retried rest₂) := by
  have hserial : w₁.state.nextSerial = w₂.state.nextSerial :=
    (congrArg State.nextSerial h.state.eq :)
  have hplaced : (w₁.state.placeHeader choice.region request).EqButMarks
      (w₂.state.placeHeader choice.region request) := by
    rw [h.state.eq_with]
    rfl
  have hfresh : w₁.state.FreshRegion choice.region request.totalSize request.alignment ↔
      w₂.state.FreshRegion choice.region request.totalSize request.alignment := by
    simp only [State.FreshRegion, h.state.chunks]
  unfold Protocol.runAllocating
  rw [hserial]
  refine rel_ite Iff.rfl (rel_ite Iff.rfl ?_ ?_) (rel_ite hfresh ?_ .none)
  · exact .some (h.deliver thread hrest rfl)
  · exact .some (h.setControl thread (.cons (.refl _) (.cons (.refl _) hrest)))
  · exact .some (((h.setState hplaced).emit _).setControl thread (.cons (.refl _) hrest))

theorem runFrame (h : Twins start₁ start₂ w₁ w₂) (choice : Choice)
    (hrest : List.Forall₂ Frame.Alike rest₁ rest₂) {frame₁ frame₂ : Frame}
    (hframe : Frame.Alike frame₁ frame₂) :
    Option.Rel (Twins start₁ start₂) (runFrame w₁ thread choice rest₁ frame₁)
      (runFrame w₂ thread choice rest₂ frame₂) := by
  have hrelease : w₁.state.releaseStopTheWorld.EqButMarks w₂.state.releaseStopTheWorld := by
    rw [h.state.eq_with]
    rfl
  cases hframe with
  | releasing hr => exact .some ((h.setState hrelease).deliver thread hrest hr)
  | refl =>
    cases frame₁ with
    | entering code stage => exact h.runEntering choice code stage hrest
    | waiting call => exact h.runWindow choice call hrest
    | destroying blocks pending =>
      cases pending with
      | nil => exact .some (h.setControl thread (.cons (.refl _) hrest))
      | cons header pending =>
        have hserial : w₁.state.serial header = w₂.state.serial header := by
          simp only [State.serial, h.state.chunks]
        simp only [Protocol.runFrame, hserial]
        refine rel_ite (by rw [h.state.header]) ?_ ?_
        · exact .some (h.setControl thread (.cons (.refl _) hrest))
        · exact .some ((h.emit _).setControl thread (.cons (.refl _) hrest))
    | finalizer blocks pending => exact .none
    | freeing pending =>
      cases pending with
      | nil => exact .some (h.setControl thread (.cons (.refl _) hrest))
      | cons header pending =>
        exact .some ((h.freeBlock header).setControl thread (.cons (.refl _) hrest))
    | releasing result => exact .some ((h.setState hrelease).deliver thread hrest rfl)
    | allocating request retried => exact h.runAllocating choice request retried hrest
    | collecting request => exact .none
    | freeingBlock header => exact .some ((h.freeBlock header).deliver thread hrest rfl)

theorem runAction (h : Twins start₁ start₂ w₁ w₂) (action : Action) :
    Option.Rel (Twins start₁ start₂) (runAction w₁ thread action)
      (runAction w₂ thread action) := by
  cases action with
  | storeByte address value =>
    refine .some (h.setState ?_)
    rw [h.state.eq_with]
    rfl
  | call call =>
    simp only [Protocol.runAction]
    split_ifs
    · cases call.immediate with
      | some result => exact .some (h.setResult thread rfl)
      | none => exact .some (h.setControl thread (.cons (.refl _) (h.control thread)))
    · exact .none
  | finalizerReturns =>
    have hstack := h.control thread
    simp only [Protocol.runAction]
    revert hstack
    generalize w₁.control thread = stack₁
    generalize w₂.control thread = stack₂
    intro hstack
    cases hstack with
    | nil => exact .none
    | @cons frame₁ frame₂ below₁ below₂ hframe hbelow =>
      cases hframe with
      | releasing hr => exact .none
      | refl =>
        cases frame₁ with
        | finalizer blocks pending =>
          exact .some (h.setControl thread (.cons (.refl _) hbelow))
        | _ => exact .none

/-- A label is enabled in both worlds or in neither, and does the same in both. -/
theorem step (h : Twins start₁ start₂ w₁ w₂) (label : Label) :
    Option.Rel (Twins start₁ start₂) (step label w₁) (step label w₂) := by
  cases label with
  | user thread action =>
    have huser : inUserCode (w₁.control thread) = inUserCode (w₂.control thread) := by
      have hstack := h.control thread
      revert hstack
      generalize w₁.control thread = stack₁
      generalize w₂.control thread = stack₂
      intro hstack
      cases hstack with
      | nil => rfl
      | @cons frame₁ frame₂ below₁ below₂ hframe hbelow =>
        cases hframe with
        | releasing hr => rfl
        | refl => cases frame₁ <;> rfl
    simp only [Protocol.step, huser]
    split_ifs
    · exact h.runAction action
    · exact .none
  | run thread choice =>
    have hstack := h.control thread
    simp only [Protocol.step]
    revert hstack
    generalize w₁.control thread = stack₁
    generalize w₂.control thread = stack₂
    intro hstack
    cases hstack with
    | nil => exact .none
    | cons hframe hbelow =>
      dsimp only
      split_ifs
      · exact h.runFrame choice hbelow hframe
      · exact .none

/-- Every run goes the same in both worlds. -/
theorem run (labels : List Label) : ∀ {w₁ w₂ : World}, Twins start₁ start₂ w₁ w₂ →
    Option.Rel (Twins start₁ start₂) (run Protocol.step labels w₁)
      (run Protocol.step labels w₂) := by
  induction labels with
  | nil => exact fun h => .some h
  | cons label labels ih =>
    intro w₁ w₂ h
    have hstep := h.step label
    simp only [Support.run]
    revert hstep
    generalize Protocol.step label w₁ = o₁
    generalize Protocol.step label w₂ = o₂
    intro hstep
    cases hstep with
    | none => exact .none
    | some h' => exact ih h'

end Twins
end GcLib.Protocol
