import GcLib.Client.StrongPlans

/-! # What roots keep

Over every run of operations on `gc_root`s, on any number of threads, mixed with all other calls of
the manager, a root holds what it was last given, and the very block of that value stays
registered, from the hand that gave it to the last root that holds it.
-/

namespace GcLib.Properties
open GcLib.Heap GcLib.Support GcLib.Protocol GcLib.Client Relation

section
variable {s : Session strongInterface} {handle : StrongHandle}

theorem slots_owned (handles : List StrongHandle) :
    (handles.flatMap strongLedger.owned).filterMap StrongPart.slot =
      handles.map StrongHandle.slot := by
  rw [StrongPlan.owned_eq, List.filterMap_map, ← List.filterMap_eq_map]
  rfl

theorem rooted_of_mem {parts : List StrongPart}
    (h : StrongRegistry s.world (parts ++ s.handles.flatMap strongLedger.owned))
    (hmem : handle ∈ s.handles) : Rooted s.world.state handle :=
  h.holds (.linked handle) (List.mem_append_right _
    (List.mem_flatMap.mpr ⟨handle,hmem,List.mem_singleton_self _⟩))

/-- A value that is live has been live ever since its block was registered. -/
theorem live_since {w : World} (hw : ReachableWorld w)
    (hsteps : ReflTransGen (Steps step) w s.world) {origin : Origin}
    (hlive : origin.Live s.world.state) (hregistered : .registered origin.serial ∈ w.log) :
    w.state.live origin.serial = true := by
  obtain ⟨b,hb,-,hserial⟩ := hlive
  exact hw.live_back_steps hsteps hregistered (live_iff.mpr ⟨b,hb,hserial⟩)

/-- In every session the roots at rest have places of their own. Each holds the pointer that it
was last given, through copies and moves, or null; its range is registered, and the very block that
contained the pointer when it was given is registered, and has been all the time since it was
published. An operation in progress accounts for the words and the pointers it handles. One that
throws leaves the roots it took rooted, and has written to no other place than the one it was to
construct. -/
theorem strong_handles_rooted (h : s.Reachable) :
    (s.handles.map StrongHandle.slot).Nodup ∧
    (∃ accounts : List (Job strongInterface × List StrongPart),
      s.jobs.Perm (accounts.map Prod.fst) ∧
      (∀ account ∈ accounts, strongLedger.Holds s.world account.1 account.2) ∧
      StrongRegistry s.world (accounts.flatMap Prod.snd ++ s.handles.map .linked)) ∧
    (∀ handle ∈ s.handles, Rooted s.world.state handle ∧
      ∀ origin ∈ handle.origin, ∀ w, ReachableWorld w → ReflTransGen (Steps step) w s.world →
        .registered origin.serial ∈ w.log → w.state.live origin.serial = true) ∧
    ∀ job others exception, s.jobs.Perm (job :: others) →
      job.progress = .running (.throws exception) →
        (∀ event ∈ job.trace, event.Undone (strongInterface.constructs job.operation)) ∧
        ∀ handle ∈ StrongOperation.takes job.operation, Rooted s.world.state handle := by
  have hL : strongLedger.Sound := sound_strongLedger
  have hbalanced := hL.balanced h
  obtain ⟨accounts,hperm,hholds,hregistry⟩ := hbalanced
  have hapart := hregistry.apart
  rw [List.filterMap_append, slots_owned] at hapart
  refine ⟨hapart.of_append_right,⟨accounts,hperm,hholds,?_⟩,fun handle hmem => ?_,?_⟩
  · rw [← StrongPlan.owned_eq]
    exact hregistry
  · have hrooted := rooted_of_mem hregistry hmem
    refine ⟨hrooted,fun origin ho w hw hsteps hregistered => ?_⟩
    exact live_since hw hsteps (hrooted.live origin ho) hregistered
  · intro job others exception hjobs hprogress
    have hthrown := h.step (.throws hjobs hprogress)
    obtain ⟨held,-,-,hheld,-,-⟩ := (hL.balanced h).account hL hjobs
    refine ⟨(hheld.running hprogress).2.2,fun handle hmem => ?_⟩
    obtain ⟨accounts',-,-,hregistry'⟩ := hL.balanced hthrown
    have hmem' : handle ∈ StrongOperation.takes job.operation ++ s.handles :=
      List.mem_append_left _ hmem
    exact hregistry'.holds (.linked handle) (List.mem_append_right _
      (List.mem_flatMap.mpr ⟨handle,hmem',List.mem_singleton_self _⟩))

end

/-- A thread allocates a block and constructs a root from the pointer. -/
def strongSlot : Slot := ⟨256,by decide,by decide⟩

def strongStores : List Label := allocatingRun ++ storeLabels 0 256 4128

def strongCall : List Label := strongStores ++ [.user 0 (.call (.registerRootRange 256 264))]

def strongRun : List Label := strongCall ++ [.run 0 {}]

theorem reachable_strongRun : Session.Reachable (I := strongInterface)
    ⟨worldAfter strongRun,[],[⟨strongSlot,some ⟨4128,0⟩⟩]⟩ := by
  have hallocates : run step allocatingRun (worldAfter []) = some (worldAfter allocatingRun) :=
    worldAfter_run [] _ (by decide +kernel)
  have hstores : run step (storeLabels 0 256 4128) (worldAfter allocatingRun) =
      some (worldAfter strongStores) := worldAfter_run allocatingRun _ (by decide +kernel)
  have hcalls : step (.user 0 (.call (.registerRootRange 256 264))) (worldAfter strongStores) =
      some (worldAfter strongCall) := worldAfter_step strongStores _ (by decide +kernel)
  have hreturns : step (.run 0 {}) (worldAfter strongCall) = some (worldAfter strongRun) :=
    worldAfter_step strongCall _ (by decide +kernel)
  have huser : inUserCode ((worldAfter allocatingRun).control 0) = true := by decide +kernel
  have hregistered : (worldAfter allocatingRun).state.isRegistered 0 = true := by decide +kernel
  have hlive : Origin.Live (worldAfter allocatingRun).state ⟨4128,0⟩ :=
    ⟨⟨4096,4128,4144,false⟩,by decide +kernel,by decide,by decide +kernel⟩
  have hcontrol : (worldAfter strongRun).control 0 = (worldAfter strongStores).control 0 := by
    decide +kernel
  have hresult : (worldAfter strongRun).result 0 = some (.ok .unit) := by decide +kernel
  have hinitial : Session.Reachable (I := strongInterface) ⟨worldAfter [],[],[]⟩ :=
    ⟨_,⟨fun _ => 0,rfl⟩,.refl⟩
  have hallocated := hinitial.outside_run rfl (fun _ _ _ _ => rfl)
    (fun _ _ _ => ⟨fun _ hmem => absurd hmem List.not_mem_nil,
      fun _ hmem => absurd hmem List.not_mem_nil⟩) hallocates
  generalize worldAfter allocatingRun = w₁ at *
  generalize worldAfter strongStores = w₂ at *
  generalize worldAfter strongCall = w₃ at *
  generalize worldAfter strongRun = w₄ at *
  let operation : StrongOperation := .construct strongSlot (some ⟨4128,0⟩)
  have hpromised : StrongPromise w₁ 0 operation [] [] := by
    refine ⟨fun _ _ hmem => absurd hmem List.not_mem_nil,fun origin horigin => ?_⟩
    obtain rfl := List.mem_singleton.mp horigin
    exact ⟨hregistered,hlive⟩
  have hbegun := hallocated.step (.begins_alone huser (List.Perm.refl _)
    (fun _ h => absurd h List.not_mem_nil) hpromised)
  have hstored := hbegun.step (.stores (List.Perm.refl _) rfl hstores)
  have hcalled := hstored.step (.calls (List.Perm.refl _) rfl (by decide) hcalls)
  have hreturned := hcalled.step (.returns (List.Perm.refl _) rfl hreturns hcontrol hresult)
  have hfinished := hreturned.step (.finishes (List.Perm.refl _) rfl)
  exact hfinished

theorem strong_handles_rooted_strongRun :
    Rooted (worldAfter strongRun).state ⟨strongSlot,some ⟨4128,0⟩⟩ :=
  ((strong_handles_rooted reachable_strongRun).2.2.1 _ (List.mem_singleton_self _)).1

end GcLib.Properties
