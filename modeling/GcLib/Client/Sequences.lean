import GcLib.Client.Session

/-! # Operations one after another

What an operation leaves is often known when it begins. A thread may carry out a list of
operations on handles of its own, among the steps of all other threads, and own afterwards what
they left.
-/

namespace GcLib.Client
open GcLib.Heap GcLib.Support GcLib.Protocol Relation

/-- Client code that throws only after a call, and otherwise ends with such a value. -/
def Program.Settles {α : Type} (Q : α → Prop) : Program α → Prop
  | .returns value => Q value
  | .throws _ => False
  | .call _ next => (next (.ok .unit)).Settles Q ∧
      ∀ result, (next result).Settles Q ∨ ∃ exception, next result = .throws exception
  | .load _ next => ∀ word, (next word).Settles Q
  | .store _ _ next => next.Settles Q
  | .construct _ _ _ => False
  | .destroy _ _ => False

theorem Program.Settles.bind {α β : Type} {P : α → Prop} {Q : β → Prop} {f : α → Program β}
    (hf : ∀ value, P value → (f value).Settles Q) :
    ∀ {p : Program α}, p.Settles P → (p >>= f).Settles Q := by
  intro p
  induction p with
  | returns value => exact hf value
  | throws exception => exact False.elim
  | call c next ih =>
    intro h
    refine ⟨ih _ h.1,fun result => ?_⟩
    rcases h.2 result with hnext | ⟨exception,hthrows⟩
    · exact .inl (ih result hnext)
    · exact .inr ⟨exception,congrArg (fun p => p >>= f) hthrows⟩
  | load address next ih => exact fun h word => ih word (h word)
  | store address value next ih => exact ih
  | construct => exact False.elim
  | destroy => exact False.elim

/-- What a list of operations makes of handles. -/
def afterwards {O H : Type} [DecidableEq H] (takes leaves : O → List H) :
    Multiset H → List O → Multiset H
  | own, [] => own
  | own, operation :: operations =>
    afterwards takes leaves (leaves operation + (own - takes operation)) operations

theorem afterwards_append {O H : Type} [DecidableEq H] {takes leaves : O → List H}
    (own : Multiset H) (first second : List O) : afterwards takes leaves own (first ++ second) =
      afterwards takes leaves (afterwards takes leaves own first) second := by
  induction first generalizing own with
  | nil => rfl
  | cons operation operations ih => exact ih _

section
variable {H : Type} {I : Interface H}

/-! ## What operations leave -/

/-- What an operation in progress is going to end with, unless it throws. -/
def Job.Settles (Q : I.Operation → (Trace → List H) → Prop) (job : Job I) : Prop :=
  match job.progress with
  | .running code => code.Settles (Q job.operation) ∨ ∃ exception, code = .throws exception
  | .calling c _ next => (Program.call c next).Settles (Q job.operation)

section
variable {job : Job I} {Q : I.Operation → (Trace → List H) → Prop}
  {code : Program (Trace → List H)}

theorem Job.Settles.running (h : job.Settles Q) (hp : job.progress = .running code)
    (hcode : ∀ exception, code ≠ .throws exception) : code.Settles (Q job.operation) := by
  unfold Job.Settles at h
  rw [hp] at h
  rcases h with hsettles | ⟨exception,hthrows⟩
  · exact hsettles
  · exact absurd hthrows (hcode exception)

theorem Job.Settles.calling {c : Call} {below : List Frame}
    {next : Except GCError Value → Program (Trace → List H)} (h : job.Settles Q)
    (hp : job.progress = .calling c below next) :
    (Program.call c next).Settles (Q job.operation) := by
  unfold Job.Settles at h
  rwa [hp] at h

end

namespace Session
variable {s s' : Session I} {job job' : Job I} {others : List (Job I)}
  {Q : I.Operation → (Trace → List H) → Prop}

theorem settles_cons (h : ∀ job ∈ s.jobs, job.Settles Q) (hjobs : s.jobs.Perm (job :: others))
    (hjob : job'.Settles Q) : ∀ other ∈ job' :: others, other.Settles Q := by
  intro other hother
  rcases List.mem_cons.mp hother with rfl | hmem
  · exact hjob
  · exact h other (hjobs.symm.subset (List.mem_cons_of_mem _ hmem))

theorem Step.settles (hQ : ∀ operation, (I.code operation).Settles (Q operation))
    (h : ∀ job ∈ s.jobs, job.Settles Q) (hstep : s.Step s') : ∀ job ∈ s'.jobs, job.Settles Q := by
  have hat : ∀ {job : Job I} {others : List (Job I)}, s.jobs.Perm (job :: others) →
      job.Settles Q := fun hjobs => h _ (Placed.mem hjobs)
  have hrest : ∀ {job : Job I} {others : List (Job I)}, s.jobs.Perm (job :: others) →
      ∀ other ∈ others, other.Settles Q :=
    fun hjobs other hother => h other (hjobs.symm.subset (List.mem_cons_of_mem _ hother))
  cases hstep with
  | outside | waits => exact h
  | begins =>
    intro job hjob
    rcases List.mem_cons.mp hjob with rfl | hmem
    · exact .inl (hQ _)
    · exact h job hmem
  | calls hjobs hprogress =>
    exact settles_cons h hjobs ((hat hjobs).running hprogress (by simp))
  | immediate hjobs hprogress =>
    exact settles_cons h hjobs (((hat hjobs).running hprogress (by simp)).2 _)
  | returns hjobs hprogress =>
    exact settles_cons h hjobs (((hat hjobs).calling hprogress).2 _)
  | loads hjobs hprogress =>
    exact settles_cons h hjobs (.inl ((hat hjobs).running hprogress (by simp) _))
  | stores hjobs hprogress =>
    have hsettles := (hat hjobs).running hprogress (by simp)
    exact settles_cons h hjobs (.inl hsettles)
  | finishes hjobs | throws hjobs => exact hrest hjobs

theorem Reachable.settles (hQ : ∀ operation, (I.code operation).Settles (Q operation))
    (h : s.Reachable) : ∀ job ∈ s.jobs, job.Settles Q := by
  obtain ⟨s₀,⟨memory,rfl⟩,hsteps⟩ := h
  induction hsteps with
  | refl => exact fun job hjob => absurd hjob List.not_mem_nil
  | tail _ hstep ih => exact hstep.settles hQ ih

theorem Reachable.run {R : Session I → Session I → Prop} (hR : ∀ {u u'}, R u u' → u.Step u')
    (h : s.Reachable) (hsteps : ReflTransGen R s s') : s'.Reachable := by
  induction hsteps with
  | refl => exact h
  | tail _ hstep ih => exact ih.step (hR hstep)

/-! ## Operations of one thread -/

/-- An operation is in progress, and nobody takes these handles. -/
def Continues (task : ThreadId × I.Operation) (kept : List H) (s s' : Session I) : Prop :=
  s.Step s' ∧ task ∈ s'.tasks ∧ kept.Subperm s'.handles

/-- A thread carries out an operation and is given handles, while nobody takes those it keeps. -/
def Performs (thread : ThreadId) (operation : I.Operation) (kept given : List H)
    (s s' : Session I) : Prop :=
  ∃ s₁ s₂ job others done, s.Step s₁ ∧ s₁.tasks = (thread,operation) :: s.tasks ∧
    ReflTransGen (Continues (thread,operation) kept) s₁ s₂ ∧
    s₂.jobs.Perm (job :: others) ∧ job.thread = thread ∧ job.operation = operation ∧
    job.progress = .running (.returns done) ∧ given = done job.trace ∧
    s' = { s₂ with jobs := others, handles := given ++ s₂.handles }

/-- A thread carries out a list of operations on handles that it owns, and owns the last handles
in the end. Nobody else takes any of them meanwhile. -/
inductive Sequence (thread : ThreadId) :
    List H → List I.Operation → Session I → List H → Session I → Prop where
  | done {own : List H} {s : Session I} : Sequence thread own [] s own s
  | rests {own own' : List H} {operations : List I.Operation} {s s₁ s' : Session I}
      (hstep : s.Step s₁) (hidle : s₁.Idle thread) (hown : own.Subperm s₁.handles)
      (h : Sequence thread own operations s₁ own' s') : Sequence thread own operations s own' s'
  | performs {own kept given own' : List H} {operation : I.Operation}
      {operations : List I.Operation} {s s₁ s' : Session I}
      (htakes : own.Perm (I.takes operation ++ kept))
      (hperforms : Performs thread operation kept given s s₁)
      (h : Sequence thread (given ++ kept) operations s₁ own' s') :
      Sequence thread own (operation :: operations) s own' s'

theorem Step.begun_at {task : ThreadId × I.Operation} (h : s.Step s')
    (htasks : s'.tasks = task :: s.tasks) : s.handles.Perm (I.takes task.2 ++ s'.handles) := by
  have hlength : s'.jobs.length = s.jobs.length+1 := by
    have hmap := congrArg List.length htasks
    rwa [List.length_cons, tasks, tasks, List.length_map, List.length_map] at hmap
  cases h with
  | begins hidle huser htakes =>
    simp only [tasks, List.map_cons, List.cons.injEq] at htasks
    rw [← htasks.1]
    exact htakes
  | outside | waits => exact absurd hlength (Nat.ne_add_one _)
  | calls hjobs | immediate hjobs | returns hjobs | loads hjobs | stores hjobs =>
    rw [hjobs.length_eq] at hlength
    exact absurd hlength (Nat.ne_add_one _)
  | finishes hjobs | throws hjobs =>
    rw [hjobs.length_eq, List.length_cons] at hlength
    dsimp only at hlength
    omega

section
variable {thread : ThreadId} {operation : I.Operation} {operations : List I.Operation}
  {own kept given own' : List H}

theorem Performs.reachable (h : Performs thread operation kept given s s') (hs : s.Reachable) :
    s'.Reachable := by
  obtain ⟨s₁,s₂,job,others,done,hbegins,-,hruns,hjobs,-,-,hprogress,rfl,rfl⟩ := h
  have hbegun := hs.step hbegins
  exact (hbegun.run (fun hstep => hstep.1) hruns).step (.finishes hjobs hprogress)

/-- The thread owns what it kept and what it was given. -/
theorem Performs.owns (h : Performs thread operation kept given s s')
    (htakes : own.Perm (I.takes operation ++ kept)) (hown : own.Subperm s.handles) :
    (given ++ kept).Subperm s'.handles := by
  obtain ⟨s₁,s₂,job,others,done,hbegins,htasks,hruns,-,-,-,-,-,rfl⟩ := h
  have hbegun := hbegins.begun_at htasks
  have hkept : kept.Subperm s₁.handles := by
    have htaken := (htakes.symm.subperm.trans hown).trans hbegun.subperm
    exact (List.subperm_append_left _).mp htaken
  refine (List.subperm_append_left given).mpr ?_
  cases hruns with
  | refl => exact hkept
  | tail _ hstep => exact hstep.2.2

/-- What the operation leaves is what it is known to leave. -/
theorem Performs.given_eq {leaves : I.Operation → List H} (hs : s.Reachable)
    (hleaves : ∀ operation, (I.code operation).Settles fun done => ∀ trace, done trace = leaves operation)
    (h : Performs thread operation kept given s s') : given = leaves operation := by
  obtain ⟨s₁,s₂,job,others,done,hbegins,-,hruns,hjobs,-,rfl,hprogress,rfl,-⟩ := h
  have hbegun := hs.step hbegins
  have hsettles := (hbegun.run (fun hstep => hstep.1) hruns).settles hleaves job (Placed.mem hjobs)
  exact hsettles.running hprogress (by simp) _

theorem Sequence.reachable (h : Sequence thread own operations s own' s') (hs : s.Reachable) :
    s'.Reachable := by
  induction h with
  | done => exact hs
  | rests hstep _ _ _ ih => exact ih (hs.step hstep)
  | performs _ hperforms _ ih => exact ih (hperforms.reachable hs)

/-- The thread owns handles at rest throughout. -/
theorem Sequence.owns (h : Sequence thread own operations s own' s')
    (hown : own.Subperm s.handles) : own'.Subperm s'.handles := by
  induction h with
  | done => exact hown
  | rests _ _ hown' _ ih => exact ih hown'
  | performs htakes hperforms _ ih => exact ih (hperforms.owns htakes hown)

end

theorem Sequence.owned_eq [DecidableEq H] {leaves : I.Operation → List H} {thread : ThreadId}
    {own own' : List H} {operations : List I.Operation}
    (hleaves : ∀ operation,
      (I.code operation).Settles fun done => ∀ trace, done trace = leaves operation)
    (h : Sequence thread own operations s own' s') (hs : s.Reachable) :
    (own' : Multiset H) = afterwards I.takes leaves own operations := by
  induction h with
  | done => rfl
  | rests hstep _ _ _ ih => exact ih (hs.step hstep)
  | performs htakes hperforms _ ih =>
    rw [ih (hperforms.reachable hs), hperforms.given_eq hs hleaves, afterwards]
    have hown := Multiset.coe_eq_coe.mpr htakes
    rw [← Multiset.coe_add] at hown
    rw [hown, add_tsub_cancel_left, Multiset.coe_add]

end Session

/-! ## Other promises -/

/-- The same operations, with other obligations of their callers. -/
def Interface.promising (I : Interface H)
    (P : World → ThreadId → I.Operation → List H → List I.Operation → Prop) : Interface H :=
  { I with Promised := P }

section
variable {P : World → ThreadId → I.Operation → List H → List I.Operation → Prop}

def Job.forget (job : Job (I.promising P)) : Job I :=
  ⟨job.thread,job.operation,job.progress,job.trace⟩

def Session.forget (s : Session (I.promising P)) : Session I :=
  ⟨s.world,s.jobs.map Job.forget,s.handles⟩

variable {s s' : Session (I.promising P)}

theorem Session.forget_operations : s.forget.operations = s.operations := by
  simp only [operations, forget, List.map_map]
  rfl

theorem Session.Step.forget (h : s.Step s') (hP : ∀ {thread operation},
      inUserCode (s.world.control thread) = true →
      P s.world thread operation s.handles s.operations →
        I.Promised s.world thread operation s.handles s.operations) :
    s.forget.Step s'.forget := by
  have hidle : ∀ {thread}, s.Idle thread → s.forget.Idle thread := by
    intro thread hfree job hjob
    obtain ⟨job',hmem,rfl⟩ := List.mem_map.mp hjob
    exact hfree job' hmem
  cases h with
  | outside hfree hcall hadmits hstep =>
    rw [← forget_operations] at hadmits
    exact .outside (hidle hfree) hcall hadmits hstep
  | begins hfree huser htakes hborrows hshared hpromised =>
    have hpromised' := hP huser hpromised
    rw [← forget_operations] at hpromised'
    refine .begins (hidle hfree) huser htakes hborrows (fun job hjob => ?_) hpromised'
    obtain ⟨job',hmem,rfl⟩ := List.mem_map.mp hjob
    exact hshared job' hmem
  | @calls job _ _ _ _ hjobs hprogress hi hstep =>
    exact @Step.calls _ I s.forget job.forget _ _ _ _ (hjobs.map Job.forget) hprogress hi hstep
  | @immediate job _ _ _ _ _ hjobs hprogress hi hstep =>
    exact @Step.immediate _ I s.forget job.forget _ _ _ _ _ (hjobs.map Job.forget) hprogress hi
      hstep
  | @waits job _ _ _ _ _ hjob hprogress hstep hc =>
    exact @Step.waits _ I s.forget job.forget _ _ _ _ _ (List.mem_map_of_mem hjob) hprogress hstep
      hc
  | @returns job _ _ _ _ _ _ _ hjobs hprogress hstep hc hr =>
    exact @Step.returns _ I s.forget job.forget _ _ _ _ _ _ _ (hjobs.map Job.forget) hprogress
      hstep hc hr
  | @loads job _ _ _ hjobs hprogress =>
    exact @Step.loads _ I s.forget job.forget _ _ _ (hjobs.map Job.forget) hprogress
  | @stores job _ _ _ _ _ hjobs hprogress hrun =>
    exact @Step.stores _ I s.forget job.forget _ _ _ _ _ (hjobs.map Job.forget) hprogress hrun
  | @finishes job _ _ hjobs hprogress =>
    exact @Step.finishes _ I s.forget job.forget _ _ (hjobs.map Job.forget) hprogress
  | @throws job _ _ hjobs hprogress =>
    exact @Step.throws _ I s.forget job.forget _ _ (hjobs.map Job.forget) hprogress

/-- Obligations that imply others in every world that can be reached. -/
theorem Session.Reachable.forget (h : s.Reachable)
    (hP : ∀ {w thread operation handles operations}, ReachableWorld w →
      inUserCode (w.control thread) = true → P w thread operation handles operations →
        I.Promised w thread operation handles operations) : s.forget.Reachable := by
  obtain ⟨s₀,⟨memory,rfl⟩,hsteps⟩ := h
  induction hsteps with
  | refl => exact ⟨_,⟨memory,rfl⟩,.refl⟩
  | tail hsteps hstep ih =>
    have hplaced := Reachable.placed ⟨_,⟨memory,rfl⟩,hsteps⟩
    exact ih.step (hstep.forget (hP hplaced.reachable))

end
end
end GcLib.Client
