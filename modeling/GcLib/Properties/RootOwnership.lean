import GcLib.Client.RootLedger

/-! # Root registrations are what is owned

Over every run of operations on root handles, on any number of threads, the registered ranges
are the ones of the handles and of the registrations by hand, counted with repetition.
-/

namespace GcLib.Properties
open GcLib.Heap GcLib.Support GcLib.Protocol GcLib.Client Relation

section
variable {Asks : RootOperation → List RootOwner → List RootOperation → Prop}
  {Admits : List RootOwner → List RootOperation → Label → World → Prop}
  {s : Session (rootInterface Asks Admits)}

/-- What the handles at rest own is registered as often as they own it. -/
theorem count_owned_le (h : (rootLedger Asks Admits).Balanced s) (range : RootRange) :
    (s.handles.flatMap RootOwner.owned).count range ≤
      s.world.state.registeredRootRanges.count range := by
  obtain ⟨accounts,-,-,hregistry⟩ := h
  have hcount := hregistry.count_eq range
  rw [List.count_append] at hcount
  exact hcount.symm ▸ Nat.le_add_left _ _

/-- An unregistration returns to the operation that made it. -/
theorem unregistration_returns (h : s.Reachable) {thread : ThreadId} {choice : Choice}
    {begin_ end_ : ℕ} {stage : Stage} {below : List Frame} {w' : World}
    (hc : s.world.control thread =
      .entering (.call (.unregisterRootRange begin_ end_)) stage :: below)
    (hstep : step (.run thread choice) s.world = some w') (hc' : w'.control thread = below) :
    ∃ s' : Session (rootInterface Asks Admits), s'.Reachable ∧ s'.world = w' ∧
      s'.handles = s.handles ∧ w'.state.registeredRootRanges =
        s.world.state.registeredRootRanges.erase (rootRange begin_ end_) := by
  have hplaced := h.placed
  have hbusy : ¬ s.Idle thread := fun hidle => Bool.noConfusion (hplaced.idle thread hidle _ _ _ hc)
  simp only [Session.Idle, not_forall, not_not] at hbusy
  obtain ⟨job,hjob,rfl⟩ := hbusy
  obtain ⟨others,hjobs⟩ := Session.perm_of_mem hjob
  have hat := hplaced.jobs job hjob
  cases hp : job.progress with
  | running code =>
    have huser := (Job.placed_running hat hp).2
    rw [hc] at huser
    cases huser
  | calling c below' next =>
    obtain ⟨-,-,huser,stage',hc''⟩ := Job.placed_calling hat hp
    have he := hc.symm.trans hc''
    cases he
    rcases unregisterRootRange_step (.run job.thread choice) huser hc hstep with
      ⟨-,stage'',hcontrol⟩ | ⟨hranges,-,hresult⟩
    · exact absurd (hcontrol.symm.trans hc') (List.cons_ne_self _ _)
    · exact ⟨_,h.step (.returns hjobs hp hstep hc' hresult),rfl,rfl,hranges⟩

/-- In every session the registered ranges are, counted with repetition, those that the handles
at rest own and those that the operations in progress hold; between the operations they are
exactly those of the live `gc_root`s, the engaged scoped handles and the outstanding registrations
by hand. A registration that fails changes nothing, and an operation that throws has registered
and unregistered nothing and has written to no other handle. An unregistration takes one range of
its kind away, and the handles at rest keep theirs. -/
theorem root_registrations_owned (h : s.Reachable) :
    (∃ accounts : List (Job (rootInterface Asks Admits) × List RootRange),
      s.jobs.Perm (accounts.map Prod.fst) ∧
      (∀ account ∈ accounts, (rootLedger Asks Admits).Holds s.world account.1 account.2) ∧
      s.world.state.registeredRootRanges.Perm
        (accounts.flatMap Prod.snd ++ s.handles.flatMap RootOwner.owned)) ∧
    (s.jobs = [] →
      s.world.state.registeredRootRanges.Perm (s.handles.flatMap RootOwner.owned)) ∧
    (∀ range, (s.handles.flatMap RootOwner.owned).count range ≤
      s.world.state.registeredRootRanges.count range) ∧
    (∀ thread choice begin_ end_ stage below e w',
      s.world.control thread = .entering (.call (.registerRootRange begin_ end_)) stage :: below →
      inUserCode below = true → step (.run thread choice) s.world = some w' →
      w'.control thread = below → w'.result thread = some (.error e) →
        w'.state = s.world.state) ∧
    (∀ job others exception, s.jobs.Perm (job :: others) →
      job.progress = .running (.throws exception) →
        (∀ event ∈ job.trace, event.Undone (RootOperation.constructs job.operation)) ∧
        ∃ accounts : List (Job (rootInterface Asks Admits) × List RootRange),
          others.Perm (accounts.map Prod.fst) ∧ s.world.state.registeredRootRanges.Perm
            (accounts.flatMap Prod.snd ++
              (RootOperation.takes job.operation ++ s.handles).flatMap RootOwner.owned)) ∧
    ∀ thread choice begin_ end_ stage below w',
      s.world.control thread =
        .entering (.call (.unregisterRootRange begin_ end_)) stage :: below →
      step (.run thread choice) s.world = some w' → w'.control thread = below →
        w'.state.registeredRootRanges =
          s.world.state.registeredRootRanges.erase (rootRange begin_ end_) ∧
        ∀ range, (s.handles.flatMap RootOwner.owned).count range ≤
          w'.state.registeredRootRanges.count range := by
  have hL : (rootLedger Asks Admits).Sound := sound_rootLedger
  have hbalanced := hL.balanced h
  refine ⟨hbalanced,fun hjobs => ?_,count_owned_le hbalanced,?_,?_,?_⟩
  · obtain ⟨accounts,hperm,-,hregistry⟩ := hbalanced
    rw [hjobs] at hperm
    obtain rfl : accounts = [] := List.map_eq_nil_iff.mp hperm.nil_eq.symm
    exact hregistry
  · intro thread choice begin_ end_ stage below e w' hc huser hstep hc' hresult
    rcases registerRootRange_step (.run thread choice) huser hc hstep with
      ⟨-,hstate,-⟩ | ⟨-,⟨stage',-,hcontrol⟩ | ⟨-,hok⟩⟩
    · exact hstate
    · exact absurd (hcontrol.symm.trans hc') (List.cons_ne_self _ _)
    · have he := hresult.symm.trans hok
      cases he
  · intro job others exception hjobs hprogress
    obtain ⟨held,accounts,hperm,hheld,-,hregistry⟩ := hbalanced.account hL hjobs
    obtain ⟨-,⟨spent,hcovers,hspent⟩,hundone⟩ := hheld.running hprogress
    refine ⟨hundone,accounts,hperm,hregistry.trans ?_⟩
    obtain rfl : spent = [] := List.eq_nil_iff_forall_not_mem.mpr hspent
    rw [List.flatMap_append]
    refine (hcovers.append_right _).trans ?_
    rw [List.nil_append, ← List.append_assoc, ← List.append_assoc]
    exact List.perm_append_comm.append_right _
  · intro thread choice begin_ end_ stage below w' hc hstep hc'
    obtain ⟨s',hs',rfl,hhandles,hranges⟩ := unregistration_returns h hc hstep hc'
    refine ⟨hranges,fun range => ?_⟩
    have hcount := count_owned_le (hL.balanced hs') range
    rwa [hhandles] at hcount

end

/-- A client that is asked for nothing. -/
abbrev freeRoots : Interface RootOwner := rootInterface (fun _ _ _ => True) (fun _ _ _ _ => True)

/-- A thread constructs a `gc_root`, and copies it. -/
def rootStores : List Label := storeLabels 0 4096 0

def rootCall : List Label := rootStores ++ [.user 0 (.call (.registerRootRange 4096 4104))]

def rootRun : List Label := rootCall ++ [.run 0 {}]

def copyStores : List Label := rootRun ++ storeLabels 0 4112 0

def copyCall : List Label := copyStores ++ [.user 0 (.call (.registerRootRange 4112 4120))]

def copyRun : List Label := copyCall ++ [.run 0 {}]

theorem reachable_rootRun : Session.Reachable (I := freeRoots)
    ⟨worldAfter rootRun,[],[.root 4096]⟩ := by
  have hinitial : Session.Reachable (I := freeRoots) ⟨worldAfter [],[],[]⟩ :=
    ⟨_,⟨fun _ => 0,rfl⟩,.refl⟩
  have hstores : run step (storeLabels 0 4096 0) (worldAfter []) = some (worldAfter rootStores) :=
    worldAfter_run [] _ (by decide +kernel)
  have hcalls : step (.user 0 (.call (.registerRootRange 4096 4104))) (worldAfter rootStores) =
      some (worldAfter rootCall) := worldAfter_step rootStores _ (by decide +kernel)
  have hreturns : step (.run 0 {}) (worldAfter rootCall) = some (worldAfter rootRun) :=
    worldAfter_step rootCall _ (by decide +kernel)
  have hresult : (worldAfter rootRun).result 0 = some (.ok .unit) := by decide +kernel
  have hcontrol : (worldAfter rootRun).control 0 = (worldAfter rootStores).control 0 := by
    decide +kernel
  generalize worldAfter rootStores = w₁ at hstores hcalls hcontrol
  generalize worldAfter rootCall = w₂ at hcalls hreturns
  generalize worldAfter rootRun = w₃ at *
  let operation : RootOperation := .constructRoot 4096 0
  have hbegun : Session.Reachable (I := freeRoots)
      ⟨worldAfter [],[⟨0,operation,.running operation.code,[]⟩],[]⟩ :=
    hinitial.step (.begins_alone (by decide +kernel) (List.Perm.refl _)
      (fun _ h => absurd h List.not_mem_nil) ⟨trivial,trivial⟩)
  have hstored := hbegun.step (.stores (List.Perm.refl _) rfl hstores)
  have hcalled := hstored.step (.calls (List.Perm.refl _) rfl (by decide) hcalls)
  have hreturned := hcalled.step (.returns (List.Perm.refl _) rfl hreturns hcontrol hresult)
  exact hreturned.step
    (@Session.Step.finishes _ _ _ _ _ (fun _ => [RootOwner.root 4096]) (List.Perm.refl _) rfl)

/-- The copy reads the pointer of the first handle, which stays as it is. -/
theorem reachable_copyRun : Session.Reachable (I := freeRoots)
    ⟨worldAfter copyRun,[],[.root 4112,.root 4096]⟩ := by
  have hconstructed := reachable_rootRun
  have huser : inUserCode ((worldAfter rootRun).control 0) = true := by decide +kernel
  have hword : readWord (worldAfter rootRun).state.memory 4096 = 0 := by decide +kernel
  have hstores : run step (storeLabels 0 4112 0) (worldAfter rootRun) =
      some (worldAfter copyStores) := worldAfter_run rootRun _ (by decide +kernel)
  have hcalls : step (.user 0 (.call (.registerRootRange 4112 4120))) (worldAfter copyStores) =
      some (worldAfter copyCall) := worldAfter_step copyStores _ (by decide +kernel)
  have hreturns : step (.run 0 {}) (worldAfter copyCall) = some (worldAfter copyRun) :=
    worldAfter_step copyCall _ (by decide +kernel)
  have hresult : (worldAfter copyRun).result 0 = some (.ok .unit) := by decide +kernel
  have hcontrol : (worldAfter copyRun).control 0 = (worldAfter copyStores).control 0 := by
    decide +kernel
  generalize worldAfter rootRun = w₀ at *
  generalize worldAfter copyStores = w₁ at *
  generalize worldAfter copyCall = w₂ at *
  generalize worldAfter copyRun = w₃ at *
  let operation : RootOperation := .copyConstructRoot 4112 4096
  let rest (word : ℕ) : Program (Trace → List RootOwner) :=
    Program.writeWord 4112 word >>= fun _ => registerRootObject 4112 wordSize >>= fun _ =>
      pure fun _ => [.root 4112]
  have hbegun : Session.Reachable (I := freeRoots)
      ⟨w₀,[⟨0,operation,.running (.load 4096 rest),[]⟩],[.root 4096]⟩ :=
    hconstructed.step (.begins_alone huser (List.Perm.refl _) (fun _ h => h) ⟨trivial,trivial⟩)
  have hloads := hbegun.step (@Session.Step.loads _ _ _ _ [] 4096 rest (List.Perm.refl _) rfl)
  have hloaded : ∀ word, word = readWord w₀.state.memory 4096 →
      Session.Reachable (I := freeRoots)
        ⟨w₀,[⟨0,operation,.running (rest word),[]⟩],[.root 4096]⟩ := by
    rintro word rfl
    exact hloads
  have hstored := (hloaded 0 hword.symm).step (.stores (List.Perm.refl _) rfl hstores)
  have hcalled := hstored.step (.calls (List.Perm.refl _) rfl (by decide) hcalls)
  have hreturned := hcalled.step (.returns (List.Perm.refl _) rfl hreturns hcontrol hresult)
  exact hreturned.step
    (@Session.Step.finishes _ _ _ _ _ (fun _ => [RootOwner.root 4112]) (List.Perm.refl _) rfl)

theorem root_registrations_owned_copyRun :
    (worldAfter copyRun).state.registeredRootRanges.Perm [⟨4112,4120⟩,⟨4096,4104⟩] :=
  (root_registrations_owned reachable_copyRun).2.1 rfl

/-! ## Owners by their kind -/

end GcLib.Properties
