import GcLib.Client.Contracts

/-! # Handles shared by threads

The handles of the library are objects of the client. An operation on them is client code that
calls the manager and reads and writes words: it takes the handles it changes and gives back
those it leaves, and nobody takes a handle while it is read. Any number of threads run such
operations, section by section and word by word, among any other steps.
-/

namespace GcLib.Client
open GcLib.Heap GcLib.Support GcLib.Protocol Relation

/-- A call of an operation, with the state that the step it returned in started from. -/
structure CallRecord where
  call : Call
  before : State
  result : Except GCError Value

inductive OperationEvent where
  | called (record : CallRecord)
  | stored (address value : ℕ)

/-- A call that failed, or a store in one of the given objects. -/
def OperationEvent.Undone (objects : List ℕ) : OperationEvent → Prop
  | .called record => record.result.isOk = false
  | .stored address _ => address ∈ objects

/-- What an operation did so far. -/
abbrev Trace := List OperationEvent

/-- Client code that makes calls of one kind and runs no constructor or destructor. -/
def Program.CallsOnly {α : Type} (P : Call → Prop) : Program α → Prop
  | .returns _ => True
  | .throws _ => True
  | .call c next => P c ∧ ∀ result, (next result).CallsOnly P
  | .load _ next => ∀ word, (next word).CallsOnly P
  | .store _ _ next => next.CallsOnly P
  | .construct _ _ _ => False
  | .destroy _ _ => False

theorem Program.CallsOnly.bind {α β : Type} {P : Call → Prop} {f : α → Program β}
    (hf : ∀ value, (f value).CallsOnly P) :
    ∀ {p : Program α}, p.CallsOnly P → (p >>= f).CallsOnly P := by
  intro p
  induction p with
  | returns value => exact fun _ => hf value
  | throws exception => exact fun _ => trivial
  | call c next ih => exact fun h => ⟨h.1,fun result => ih result (h.2 result)⟩
  | load address next ih => exact fun h word => ih word (h word)
  | store address value next ih => exact ih
  | construct => exact False.elim
  | destroy => exact False.elim

/-- The operations on the handles of one kind, and the storage that each constructs handles in.
`Promised` is what the caller of an operation answers for, given the handles at rest and the
operations in progress; `Admits` is what the steps outside the operations keep to, which make no
exclusive calls. -/
structure Interface (H : Type) where
  Operation : Type
  takes : Operation → List H
  borrows : Operation → List H
  constructs : Operation → List ℕ
  code : Operation → Program (Trace → List H)
  Promised : World → ThreadId → Operation → List H → List Operation → Prop
  Admits : List H → List Operation → Label → World → Prop
  reserved : Call → Bool
  exclusive : Call → Bool
  exclusive_reserved : ∀ c, exclusive c = true → reserved c = true
  single : ∀ c, reserved c = true → c.singleSection = true
  calls : ∀ operation, (code operation).CallsOnly (fun c => reserved c = true)

/-- An operation in progress is in its own code, or inside a call above the stack it called from. -/
inductive Progress (H : Type) where
  | running (code : Program (Trace → List H))
  | calling (call : Call) (below : List Frame)
      (next : Except GCError Value → Program (Trace → List H))

structure Job {H : Type} (I : Interface H) where
  thread : ThreadId
  operation : I.Operation
  progress : Progress H
  trace : Trace

structure Session {H : Type} (I : Interface H) where
  world : World
  jobs : List (Job I)
  handles : List H

section
variable {H : Type} {I : Interface H}

def Job.goTo (job : Job I) (progress : Progress H) : Job I := { job with progress := progress }

def Job.returned (job : Job I) (next : Except GCError Value → Program (Trace → List H))
    (record : CallRecord) : Job I :=
  { job with progress := .running (next record.result), trace := job.trace ++ [.called record] }

def Job.stored (job : Job I) (next : Program (Trace → List H)) (address value : ℕ) : Job I :=
  { job with progress := .running next, trace := job.trace ++ [.stored address value] }

namespace Session

/-- No operation of the thread is in progress. -/
def Idle (s : Session I) (thread : ThreadId) : Prop := ∀ job ∈ s.jobs, job.thread ≠ thread

def operations (s : Session I) : List I.Operation := s.jobs.map Job.operation

/-- The operations in progress, with their threads. -/
def tasks (s : Session I) : List (ThreadId × I.Operation) :=
  s.jobs.map fun job => (job.thread,job.operation)

theorem tasks_operations (s : Session I) : s.tasks.map Prod.snd = s.operations := by
  rw [tasks, List.map_map]
  rfl

/-- One step: of a thread outside the operations, or of an operation. One that throws leaves the
handles it took as they were. -/
inductive Step (s : Session I) : Session I → Prop where
  | outside {label : Label} {w' : World} (hidle : s.Idle label.thread)
      (hcall : ∀ c, label = .user label.thread (.call c) → I.exclusive c = false)
      (hadmits : I.Admits s.handles s.operations label s.world)
      (hstep : step label s.world = some w') : s.Step { s with world := w' }
  | begins {thread : ThreadId} {operation : I.Operation} {rest : List H}
      (hidle : s.Idle thread) (huser : inUserCode (s.world.control thread) = true)
      (htakes : s.handles.Perm (I.takes operation ++ rest))
      (hborrows : ∀ handle ∈ I.borrows operation, handle ∈ rest)
      (hshared : ∀ job ∈ s.jobs, ∀ handle ∈ I.takes operation, handle ∉ I.borrows job.operation)
      (hpromised : I.Promised s.world thread operation s.handles s.operations) :
      s.Step { s with
        jobs := ⟨thread,operation,.running (I.code operation),[]⟩ :: s.jobs
        handles := rest }
  | calls {job : Job I} {others : List (Job I)} {c : Call}
      {next : Except GCError Value → Program (Trace → List H)} {w' : World}
      (hjobs : s.jobs.Perm (job :: others)) (hprogress : job.progress = .running (.call c next))
      (hi : c.immediate = none) (hstep : step (.user job.thread (.call c)) s.world = some w') :
      s.Step { s with
        world := w'
        jobs := job.goTo (.calling c (s.world.control job.thread) next) :: others }
  | immediate {job : Job I} {others : List (Job I)} {c : Call}
      {next : Except GCError Value → Program (Trace → List H)} {result : Except GCError Value}
      {w' : World} (hjobs : s.jobs.Perm (job :: others))
      (hprogress : job.progress = .running (.call c next)) (hi : c.immediate = some result)
      (hstep : step (.user job.thread (.call c)) s.world = some w') :
      s.Step { s with
        world := w'
        jobs := job.returned next ⟨c,s.world.state,result⟩ :: others }
  | waits {job : Job I} {c : Call} {below : List Frame}
      {next : Except GCError Value → Program (Trace → List H)} {choice : Choice} {w' : World}
      (hjob : job ∈ s.jobs) (hprogress : job.progress = .calling c below next)
      (hstep : step (.run job.thread choice) s.world = some w')
      (hc : w'.control job.thread ≠ below) : s.Step { s with world := w' }
  | returns {job : Job I} {others : List (Job I)} {c : Call} {below : List Frame}
      {next : Except GCError Value → Program (Trace → List H)} {result : Except GCError Value}
      {choice : Choice} {w' : World} (hjobs : s.jobs.Perm (job :: others))
      (hprogress : job.progress = .calling c below next)
      (hstep : step (.run job.thread choice) s.world = some w')
      (hc : w'.control job.thread = below) (hr : w'.result job.thread = some result) :
      s.Step { s with
        world := w'
        jobs := job.returned next ⟨c,s.world.state,result⟩ :: others }
  | loads {job : Job I} {others : List (Job I)} {address : ℕ}
      {next : ℕ → Program (Trace → List H)} (hjobs : s.jobs.Perm (job :: others))
      (hprogress : job.progress = .running (.load address next)) :
      s.Step { s with
        jobs := job.goTo (.running (next (readWord s.world.state.memory address))) :: others }
  | stores {job : Job I} {others : List (Job I)} {address value : ℕ}
      {next : Program (Trace → List H)} {w' : World} (hjobs : s.jobs.Perm (job :: others))
      (hprogress : job.progress = .running (.store address value next))
      (hrun : run step (storeLabels job.thread address value) s.world = some w') :
      s.Step { s with
        world := w'
        jobs := job.stored next address value :: others }
  | finishes {job : Job I} {others : List (Job I)} {done : Trace → List H}
      (hjobs : s.jobs.Perm (job :: others)) (hprogress : job.progress = .running (.returns done)) :
      s.Step { s with
        jobs := others
        handles := done job.trace ++ s.handles }
  | throws {job : Job I} {others : List (Job I)} {exception : Thrown}
      (hjobs : s.jobs.Perm (job :: others)) (hprogress : job.progress = .running (.throws exception)) :
      s.Step { s with
        jobs := others
        handles := I.takes job.operation ++ s.handles }

/-- A process without handles, before the first use of its manager. -/
def Initial (s : Session I) : Prop := ∃ memory, s = ⟨.initial memory,[],[]⟩

/-- A session that some interleaving of the threads leads to. -/
def Reachable (s : Session I) : Prop := ∃ s₀, s₀.Initial ∧ ReflTransGen Step s₀ s

end Session

/-! ## Where the threads are -/

/-- The stack of a thread with an operation in progress. -/
def Job.Placed (w : World) (job : Job I) : Prop :=
  match job.progress with
  | .running code =>
    code.CallsOnly (fun c => I.reserved c = true) ∧ inUserCode (w.control job.thread) = true
  | .calling c below next =>
    I.reserved c = true ∧ (∀ result, (next result).CallsOnly (fun c => I.reserved c = true)) ∧
      inUserCode below = true ∧
      ∃ stage, w.control job.thread = .entering (.call c) stage :: below

theorem Job.Placed.congr {w w' : World} {job : Job I} (h : job.Placed w)
    (hc : w'.control job.thread = w.control job.thread) : job.Placed w' := by
  unfold Job.Placed at h ⊢
  rwa [hc]

theorem Job.placed_running {w : World} {job : Job I} {code : Program (Trace → List H)}
    (h : job.Placed w) (hp : job.progress = .running code) :
    code.CallsOnly (fun c => I.reserved c = true) ∧ inUserCode (w.control job.thread) = true := by
  unfold Job.Placed at h
  rwa [hp] at h

theorem Job.placed_calling {w : World} {job : Job I} {c : Call} {below : List Frame}
    {next : Except GCError Value → Program (Trace → List H)} (h : job.Placed w)
    (hp : job.progress = .calling c below next) :
    I.reserved c = true ∧ (∀ result, (next result).CallsOnly (fun c => I.reserved c = true)) ∧
      inUserCode below = true ∧
      ∃ stage, w.control job.thread = .entering (.call c) stage :: below := by
  unfold Job.Placed at h
  rwa [hp] at h

namespace Session
variable {s s' : Session I} {job job' : Job I} {others : List (Job I)}

/-- Exclusive calls are made by operations only, one on a thread, and what they read stays. -/
structure Placed (s : Session I) : Prop where
  reachable : ReachableWorld s.world
  threads : (s.jobs.map Job.thread).Nodup
  jobs : ∀ job ∈ s.jobs, job.Placed s.world
  idle : ∀ thread, s.Idle thread → ∀ c stage rest,
    s.world.control thread = .entering (.call c) stage :: rest → I.exclusive c = false
  borrowed : ∀ job ∈ s.jobs, ∀ handle ∈ I.borrows job.operation, handle ∈ s.handles

theorem perm_of_mem {α : Type*} {a : α} {l : List α} (h : a ∈ l) :
    ∃ others, l.Perm (a :: others) := by
  obtain ⟨left,right,rfl⟩ := List.append_of_mem h
  exact ⟨left ++ right,List.perm_middle⟩

namespace Placed

theorem mem (hjobs : s.jobs.Perm (job :: others)) : job ∈ s.jobs :=
  hjobs.symm.subset List.mem_cons_self

theorem thread_ne (hs : s.Placed) (hjobs : s.jobs.Perm (job :: others)) :
    ∀ other ∈ others, other.thread ≠ job.thread := by
  intro other hother he
  have hnodup := (hjobs.map Job.thread).nodup_iff.mp hs.threads
  rw [List.map_cons, List.nodup_cons] at hnodup
  exact hnodup.1 (List.mem_map.mpr ⟨other,hother,he⟩)

/-- One operation goes on, and the other threads stay where they are. -/
theorem goesOn (hs : s.Placed) (hjobs : s.jobs.Perm (job :: others))
    (hjobs' : s'.jobs.Perm (job' :: others)) (hhandles : s'.handles = s.handles)
    (hthread : job'.thread = job.thread) (hoperation : job'.operation = job.operation)
    (hreachable : ReachableWorld s'.world) (hplaced : job'.Placed s'.world)
    (hcontrol : ∀ thread, thread ≠ job.thread →
      s'.world.control thread = s.world.control thread) : s'.Placed where
  reachable := hreachable
  threads := by
    have hnodup := (hjobs.map Job.thread).nodup_iff.mp hs.threads
    apply (hjobs'.map Job.thread).nodup_iff.mpr
    rw [List.map_cons] at hnodup ⊢
    rwa [hthread]
  jobs other hother := by
    rcases List.mem_cons.mp (hjobs'.subset hother) with rfl | hmem
    · exact hplaced
    · have hold := hs.jobs other (hjobs.symm.subset (List.mem_cons_of_mem _ hmem))
      exact hold.congr (hcontrol _ (hs.thread_ne hjobs other hmem))
  idle thread hidle := by
    have hne : thread ≠ job.thread := by
      rintro rfl
      exact hidle job' (hjobs'.symm.subset List.mem_cons_self) hthread
    rw [hcontrol thread hne]
    apply hs.idle thread
    intro other hother
    rcases List.mem_cons.mp (hjobs.subset hother) with rfl | hmem
    · exact hne.symm
    · exact hidle other (hjobs'.symm.subset (List.mem_cons_of_mem _ hmem))
  borrowed other hother handle hborrows := by
    rw [hhandles]
    rcases List.mem_cons.mp (hjobs'.subset hother) with rfl | hmem
    · rw [hoperation] at hborrows
      exact hs.borrowed job (mem hjobs) handle hborrows
    · exact hs.borrowed other (hjobs.symm.subset (List.mem_cons_of_mem _ hmem)) handle hborrows

/-- An operation ends and gives handles back. -/
theorem ends (hs : s.Placed) (hjobs : s.jobs.Perm (job :: others))
    {code : Program (Trace → List H)} (hprogress : job.progress = .running code)
    (given : List H) : ({ s with jobs := others, handles := given ++ s.handles } : Session I).Placed
    where
  reachable := hs.reachable
  threads := by
    have hnodup := (hjobs.map Job.thread).nodup_iff.mp hs.threads
    rw [List.map_cons] at hnodup
    exact (List.nodup_cons.mp hnodup).2
  jobs other hother := hs.jobs other (hjobs.symm.subset (List.mem_cons_of_mem _ hother))
  idle thread hidle c stage rest hc := by
    by_cases hthread : thread = job.thread
    · have huser := (Job.placed_running (hs.jobs job (mem hjobs)) hprogress).2
      change s.world.control thread = _ at hc
      rw [← hthread, hc] at huser
      cases huser
    · apply hs.idle thread _ c stage rest hc
      intro other hother
      rcases List.mem_cons.mp (hjobs.subset hother) with rfl | hmem
      · exact Ne.symm hthread
      · exact hidle other hmem
  borrowed other hother handle hborrows :=
    List.mem_append_right _
      (hs.borrowed other (hjobs.symm.subset (List.mem_cons_of_mem _ hother)) handle hborrows)

theorem step (hs : s.Placed) (hstep : s.Step s') : s'.Placed := by
  cases hstep with
  | outside hidle hcall hadmits hstep =>
    rename_i label w'
    have hcontrol := hs.reachable.control hstep
    refine ⟨hs.reachable.step hstep,hs.threads,fun job hjob => ?_,
      fun thread hidle' c stage rest hc => ?_,hs.borrowed⟩
    · exact (hs.jobs job hjob).congr (hcontrol _ (hidle job hjob))
    · by_cases hthread : thread = label.thread
      · subst hthread
        rcases hs.reachable.entering_after hstep hc with hl | rfl | ⟨stage',hc'⟩
        · exact hcall c hl
        · exact Bool.eq_false_iff.mpr fun he =>
          Bool.noConfusion (I.single _ (I.exclusive_reserved _ he))
        · exact hs.idle _ hidle c stage' rest hc'
      · rw [hcontrol thread hthread] at hc
        exact hs.idle thread hidle' c stage rest hc
  | begins hidle huser htakes hborrows hshared hpromised =>
    rename_i thread operation rest
    refine ⟨hs.reachable,?_,fun job hjob => ?_,fun other hidle' => ?_,fun job hjob handle hb => ?_⟩
    · rw [List.map_cons, List.nodup_cons]
      refine ⟨fun hmem => ?_,hs.threads⟩
      obtain ⟨job,hjob,he⟩ := List.mem_map.mp hmem
      exact hidle job hjob he
    · rcases List.mem_cons.mp hjob with rfl | hjob
      · exact ⟨I.calls operation,huser⟩
      · exact hs.jobs job hjob
    · exact hs.idle other fun job hjob => hidle' job (List.mem_cons_of_mem _ hjob)
    · rcases List.mem_cons.mp hjob with rfl | hjob
      · exact hborrows handle hb
      · have hmem := htakes.subset (hs.borrowed job hjob handle hb)
        rcases List.mem_append.mp hmem with htaken | hrest
        · exact absurd hb (hshared job hjob handle htaken)
        · exact hrest
  | calls hjobs hprogress hi hstep =>
    rename_i job others c next w'
    obtain ⟨hcalls,huser⟩ := Job.placed_running (hs.jobs job (mem hjobs)) hprogress
    refine hs.goesOn hjobs (List.Perm.refl _) rfl rfl rfl (hs.reachable.step hstep) ?_
      (hs.reachable.control hstep)
    refine ⟨hcalls.1,hcalls.2,huser,.enter,?_⟩
    obtain ⟨-,rfl⟩ := step_call hi hstep
    exact Function.update_self ..
  | immediate hjobs hprogress hi hstep =>
    rename_i job others c next result w'
    obtain ⟨hcalls,huser⟩ := Job.placed_running (hs.jobs job (mem hjobs)) hprogress
    refine hs.goesOn hjobs (List.Perm.refl _) rfl rfl rfl (hs.reachable.step hstep)
      ⟨hcalls.2 result,?_⟩ (hs.reachable.control hstep)
    rw [step_immediate hi hstep]
    exact huser
  | waits hjob hprogress hstep hc =>
    rename_i job c below next choice w'
    obtain ⟨others,hjobs⟩ := perm_of_mem hjob
    obtain ⟨hreserved,hcalls,huser,stage,hcontrol⟩ := Job.placed_calling (hs.jobs job hjob) hprogress
    refine hs.goesOn hjobs hjobs rfl rfl rfl (hs.reachable.step hstep) ?_
      (hs.reachable.control hstep)
    unfold Job.Placed
    rw [hprogress]
    refine ⟨hreserved,hcalls,huser,?_⟩
    rcases single_step (I.single c hreserved) huser hcontrol hstep with hstage | ⟨hdone,-⟩
    · exact hstage
    · exact absurd hdone hc
  | returns hjobs hprogress hstep hc hr =>
    rename_i job others c below next result choice w'
    obtain ⟨hreserved,hcalls,huser,stage,hcontrol⟩ :=
      Job.placed_calling (hs.jobs job (mem hjobs)) hprogress
    refine hs.goesOn hjobs (List.Perm.refl _) rfl rfl rfl (hs.reachable.step hstep)
      ⟨hcalls result,?_⟩ (hs.reachable.control hstep)
    exact (congrArg inUserCode hc).trans huser
  | loads hjobs hprogress =>
    rename_i job others address next
    obtain ⟨hcalls,huser⟩ := Job.placed_running (hs.jobs job (mem hjobs)) hprogress
    exact hs.goesOn hjobs (List.Perm.refl _) rfl rfl rfl hs.reachable ⟨hcalls _,huser⟩
      fun _ _ => rfl
  | stores hjobs hprogress hrun =>
    rename_i job others address value next w'
    obtain ⟨hcalls,huser⟩ := Job.placed_running (hs.jobs job (mem hjobs)) hprogress
    have hreachable : ReachableWorld w' := Reachable.steps hs.reachable (steps_of_run hrun)
    obtain rfl := run_storeWord hrun
    exact hs.goesOn hjobs (List.Perm.refl _) rfl rfl rfl hreachable ⟨hcalls,huser⟩
      fun _ _ => rfl
  | finishes hjobs hprogress => exact hs.ends hjobs hprogress _
  | throws hjobs hprogress => exact hs.ends hjobs hprogress _

end Placed

theorem Initial.placed (h : s.Initial) : s.Placed := by
  obtain ⟨memory,rfl⟩ := h
  refine ⟨.of_init ⟨memory,rfl⟩,List.nodup_nil,nofun,fun thread _ c stage rest hc => ?_,nofun⟩
  cases hc

theorem Reachable.placed (h : s.Reachable) : s.Placed := by
  obtain ⟨s₀,hinit,hsteps⟩ := h
  induction hsteps with
  | refl => exact hinit.placed
  | tail _ hstep ih => exact ih.step hstep

theorem Reachable.step (h : s.Reachable) (hstep : s.Step s') : s'.Reachable := by
  obtain ⟨s₀,hinit,hsteps⟩ := h
  exact ⟨s₀,hinit,hsteps.tail hstep⟩

/-- Steps of threads without operations that make no exclusive call. -/
theorem Reachable.outside_run (h : s.Reachable) (hjobs : s.jobs = []) {labels : List Label}
    {w' : World} (hfree : ∀ label ∈ labels, ∀ c, label = .user label.thread (.call c) →
      I.exclusive c = false) (hadmits : ∀ label ∈ labels, ∀ w, I.Admits s.handles [] label w)
    (hrun : run Protocol.step labels s.world = some w') :
    ({ s with world := w' } : Session I).Reachable := by
  induction labels generalizing s with
  | nil =>
    cases hrun
    exact h
  | cons label labels ih =>
    obtain ⟨w₁,hstep,hrest⟩ := Option.bind_eq_some_iff.mp hrun
    let next : Session I := { s with world := w₁ }
    have hidle : s.Idle label.thread := by
      intro job hjob
      rw [hjobs] at hjob
      cases hjob
    have hoperations : s.operations = [] := by rw [Session.operations, hjobs, List.map_nil]
    have hnext : next.Reachable := h.step (.outside hidle (hfree label List.mem_cons_self)
      (hoperations ▸ hadmits label List.mem_cons_self s.world) hstep)
    exact @ih next hnext hjobs (fun l hl => hfree l (List.mem_cons_of_mem _ hl))
      (fun l hl => hadmits l (List.mem_cons_of_mem _ hl)) hrest

/-! ## Whole operations -/

/-- With no other operation in progress one begins whose promise holds. -/
theorem Step.begins_alone {w : World} {handles rest : List H} {thread : ThreadId}
    {operation : I.Operation} (huser : inUserCode (w.control thread) = true)
    (htakes : handles.Perm (I.takes operation ++ rest))
    (hborrows : ∀ handle ∈ I.borrows operation, handle ∈ rest)
    (hpromised : I.Promised w thread operation handles []) :
    Step ⟨w,[],handles⟩ ⟨w,[⟨thread,operation,.running (I.code operation),[]⟩],rest⟩ :=
  .begins (fun _ hjob => absurd hjob List.not_mem_nil) huser htakes hborrows
    (fun _ hjob => absurd hjob List.not_mem_nil) hpromised

/-- Handles move only where an operation begins or ends. -/
theorem Step.handles_eq (h : s.Step s') (htasks : s'.tasks.length = s.tasks.length) :
    s'.handles = s.handles := by
  simp only [tasks, List.length_map] at htasks
  cases h with
  | begins => simp at htasks
  | finishes hjobs | throws hjobs =>
    have hlength := hjobs.length_eq
    rw [List.length_cons] at hlength
    dsimp only at htasks
    omega
  | _ => rfl

/-- The only operation in progress goes on, or a thread outside it takes a step. -/
def Carries (task : ThreadId × I.Operation) (s s' : Session I) : Prop :=
  s.Step s' ∧ s.tasks = [task] ∧ s'.tasks = [task]

/-- An operation begins where none is in progress, goes on by itself and ends with an exception. -/
def Fails (task : ThreadId × I.Operation) (s s' : Session I) : Prop :=
  ∃ s₁ s₂ job exception, s.jobs = [] ∧ s.Step s₁ ∧ s₁.tasks = [task] ∧
    ReflTransGen (Carries task) s₁ s₂ ∧ s₂.jobs = [job] ∧
    job.progress = .running (.throws exception) ∧ s₂.Step s' ∧ s'.jobs = []

section
variable {task : ThreadId × I.Operation}

theorem carries_run {s₁ s₂ : Session I} (htasks : s₁.tasks = [task])
    (h : ReflTransGen (Carries task) s₁ s₂) :
    s₂.tasks = [task] ∧ s₂.handles = s₁.handles ∧ ReflTransGen Step s₁ s₂ := by
  induction h with
  | refl => exact ⟨htasks,rfl,.refl⟩
  | tail _ hstep ih =>
    obtain ⟨hstep,hbefore,hafter⟩ := hstep
    obtain ⟨-,hhandles,hsteps⟩ := ih
    refine ⟨hafter,?_,hsteps.tail hstep⟩
    rw [hstep.handles_eq (by rw [hbefore, hafter]), hhandles]

theorem Step.begun (h : s.Step s') (hjobs : s.jobs = []) (htasks : s'.tasks = [task]) :
    s.handles.Perm (I.takes task.2 ++ s'.handles) := by
  have hempty : ∀ {job : Job I} {others : List (Job I)}, ¬ s.jobs.Perm (job :: others) := by
    intro job others hperm
    rw [hjobs] at hperm
    exact List.cons_ne_nil _ _ hperm.nil_eq.symm
  cases h with
  | begins hidle huser htakes =>
    rename_i thread operation rest
    simp only [tasks, hjobs, List.map_cons, List.map_nil, List.cons.injEq, and_true] at htasks
    rw [← htasks]
    exact htakes
  | outside => simp [tasks, hjobs] at htasks
  | waits hjob =>
    rw [hjobs] at hjob
    cases hjob
  | calls hperm | immediate hperm | returns hperm | loads hperm | stores hperm
  | finishes hperm | throws hperm => exact absurd hperm hempty

/-- An operation that fails gives back the handles that it took. -/
theorem Fails.handles (h : Fails task s s') : s'.handles.Perm s.handles := by
  obtain ⟨s₁,s₂,job,exception,hjobs,hbegins,htasks,hruns,hjob,hprogress,hends,hdone⟩ := h
  obtain ⟨htasks',hhandles,-⟩ := carries_run htasks hruns
  have hoperation : job.operation = task.2 := by
    simp only [tasks, hjob, List.map_cons, List.map_nil, List.cons.injEq, and_true] at htasks'
    rw [← htasks']
  have hbegun := hbegins.begun hjobs htasks
  rw [← hhandles, ← hoperation] at hbegun
  have hlonely : ∀ {job' : Job I}, job' ∈ s₂.jobs → job' = job := by
    intro job' hmem
    rw [hjob] at hmem
    exact List.mem_singleton.mp hmem
  cases hends with
  | throws hperm hthrows =>
    obtain rfl := hlonely (Placed.mem hperm)
    exact hbegun.symm
  | finishes hperm hreturns =>
    obtain rfl := hlonely (Placed.mem hperm)
    rw [hprogress] at hreturns
    cases hreturns
  | outside | waits =>
    change s₂.jobs = [] at hdone
    rw [hjob] at hdone
    cases hdone
  | begins | calls | immediate | returns | loads | stores => cases hdone

theorem Fails.reachable (h : Fails task s s') (hs : s.Reachable) : s'.Reachable ∧ s'.jobs = [] := by
  obtain ⟨s₁,s₂,-,-,-,hbegins,htasks,hruns,-,-,hends,hdone⟩ := h
  obtain ⟨s₀,hinit,hsteps⟩ := hs
  obtain ⟨-,-,hruns⟩ := carries_run htasks hruns
  exact ⟨⟨s₀,hinit,((hsteps.tail hbegins).trans hruns).tail hends⟩,hdone⟩

end
end Session
end
end GcLib.Client
