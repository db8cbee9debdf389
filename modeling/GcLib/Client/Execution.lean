import GcLib.Client.Program
import GcLib.Protocol.AllocationCalls

/-! # Runs of client code

One thread runs client code while the others take steps. A call of the manager is a complete
one; a constructor or destructor is any user code of the thread that comes back to the stack it
started from. What the other threads do, and what the user code does, may be restricted.
-/

namespace GcLib.Client
open GcLib.Heap GcLib.Support GcLib.Protocol Relation

/-- What happened to the elements. -/
inductive ElementEvent where
  | constructs (address index : ℕ) (result : Except Thrown Unit)
  | destroys (address : ℕ)
  deriving DecidableEq

/-- How far a run came: to its end, or into a constructor. -/
inductive Outcome (α : Type) where
  | returned (value : α)
  | threw (exception : Thrown)
  | constructing (address index : ℕ)

/-- A step of another thread. -/
def OtherStep (P : Label → World → Prop) (thread : ThreadId) (w w' : World) : Prop :=
  ∃ label, label.thread ≠ thread ∧ P label w ∧ step label w = some w'

/-- A step taken while a thread runs user code above a stack. -/
def UserStep (P : Label → World → Prop) (thread : ThreadId) (rest : List Frame)
    (w w' : World) : Prop :=
  StepBy P w w' ∧ rest <:+ w.control thread ∧ rest <:+ w'.control thread

/-- A word is stored byte by byte. -/
def storeLabels (thread : ThreadId) (address value : ℕ) : List Label :=
  (List.range wordSize).map fun i =>
    .user thread (.storeByte (address+i) (UInt8.ofNat (value/256^i)))

/-- The runs of a program: `calls` restricts what happens outside its constructors and
destructors, and `user` what happens in them. -/
inductive Runs {α : Type} (calls user : Label → World → Prop) (thread : ThreadId) :
    Program α → World → List ElementEvent → Outcome α → World → Prop where
  | returns {value : α} {w : World} :
      Runs calls user thread (.returns value) w [] (.returned value) w
  | throws {exception : Thrown} {w : World} :
      Runs calls user thread (.throws exception) w [] (.threw exception) w
  | call {c : Call} {next : Except GCError Value → Program α} {result : Except GCError Value}
      {w w₀ w₁ w' : World} {events : List ElementEvent} {outcome : Outcome α}
      (ho : ReflTransGen (OtherStep calls thread) w w₀)
      (hret : ReturnsBy calls thread c w₀ w₁ result)
      (h : Runs calls user thread (next result) w₁ events outcome w') :
      Runs calls user thread (.call c next) w events outcome w'
  | load {address : ℕ} {next : ℕ → Program α} {w w₀ w' : World} {events : List ElementEvent}
      {outcome : Outcome α} (ho : ReflTransGen (OtherStep calls thread) w w₀)
      (h : Runs calls user thread (next (readWord w₀.state.memory address)) w₀ events outcome w') :
      Runs calls user thread (.load address next) w events outcome w'
  | store {address value : ℕ} {next : Program α} {w w₀ w₁ w' : World}
      {events : List ElementEvent} {outcome : Outcome α}
      (ho : ReflTransGen (OtherStep calls thread) w w₀)
      (hs : run step (storeLabels thread address value) w₀ = some w₁)
      (h : Runs calls user thread next w₁ events outcome w') :
      Runs calls user thread (.store address value next) w events outcome w'
  | construct {address index : ℕ} {next : Except Thrown Unit → Program α}
      {result : Except Thrown Unit} {w w₀ w₁ w' : World} {events : List ElementEvent}
      {outcome : Outcome α} (ho : ReflTransGen (OtherStep calls thread) w w₀)
      (hu : ReflTransGen (UserStep user thread (w₀.control thread)) w₀ w₁)
      (hc : w₁.control thread = w₀.control thread)
      (h : Runs calls user thread (next result) w₁ events outcome w') :
      Runs calls user thread (.construct address index next) w
        (.constructs address index result :: events) outcome w'
  | constructing {address index : ℕ} {next : Except Thrown Unit → Program α} {w w₀ w' : World}
      (ho : ReflTransGen (OtherStep calls thread) w w₀)
      (hu : ReflTransGen (UserStep user thread (w₀.control thread)) w₀ w') :
      Runs calls user thread (.construct address index next) w []
        (.constructing address index) w'
  | destroy {address : ℕ} {next : Program α} {w w₀ w₁ w' : World} {events : List ElementEvent}
      {outcome : Outcome α} (ho : ReflTransGen (OtherStep calls thread) w w₀)
      (hu : ReflTransGen (UserStep user thread (w₀.control thread)) w₀ w₁)
      (hc : w₁.control thread = w₀.control thread)
      (h : Runs calls user thread next w₁ events outcome w') :
      Runs calls user thread (.destroy address next) w (.destroys address :: events) outcome w'

section
variable {P calls user : Label → World → Prop} {thread : ThreadId} {rest : List Frame}
  {w w' : World} {α β : Type}

theorem userSteps_of_run : ∀ {labels : List Label} {w : World},
    run step labels w = some w' →
      Obeys (fun label u => P label u ∧ rest <:+ u.control thread) labels w →
      rest <:+ w'.control thread → ReflTransGen (UserStep P thread rest) w w'
  | [], w, hrun, _, _ => by
    cases hrun
    exact .refl
  | label :: labels, w, hrun, hP, hend => by
    obtain ⟨w₁,hstep,hrest⟩ := Option.bind_eq_some_iff.mp hrun
    have hnext := hP.step hstep
    have habove : rest <:+ w₁.control thread := by
      cases labels with
      | nil =>
        cases hrest
        exact hend
      | cons label' labels => exact hnext.1.2
    exact .head ⟨⟨label,hP.1.1,hstep⟩,hP.1.2,habove⟩ (userSteps_of_run hrest hnext hend)

theorem control_of_other (hw : ReachableWorld w) (h : ReflTransGen (OtherStep P thread) w w') :
    ReachableWorld w' ∧ w'.control thread = w.control thread := by
  induction h with
  | refl => exact ⟨hw,rfl⟩
  | tail _ hstep ih =>
    obtain ⟨label,hne,-,hstep⟩ := hstep
    exact ⟨ih.1.step hstep,(ih.1.control hstep thread (Ne.symm hne)).trans ih.2⟩

/-- A word that is known is what a program goes on with. -/
theorem Runs.loads {address n : ℕ} {next : ℕ → Program α} {events : List ElementEvent}
    {outcome : Outcome α} (hn : Heap.readWord w.state.memory address = n)
    (h : Runs calls user thread (next n) w events outcome w') :
    Runs calls user thread (.load address next) w events outcome w' := by
  subst hn
  exact .load .refl h

/-- A run of a sequence is a run of its first program, or runs through it. -/
theorem Runs.bind {f : α → Program β} {events : List ElementEvent} {outcome : Outcome β} :
    ∀ {p : Program α} {w : World}, Runs calls user thread (p >>= f) w events outcome w' →
      (∃ value w₁ events₁ events₂, events = events₁ ++ events₂ ∧
        Runs calls user thread p w events₁ (.returned value) w₁ ∧
        Runs calls user thread (f value) w₁ events₂ outcome w') ∨
      (∃ exception, outcome = .threw exception ∧
        Runs calls user thread p w events (.threw exception) w') ∨
      ∃ address index, outcome = .constructing address index ∧
        Runs calls user thread p w events (.constructing address index) w' := by
  intro p
  induction p generalizing events with
  | returns value => exact fun {w} h => Or.inl ⟨value,w,[],events,rfl,.returns,h⟩
  | throws exception =>
    intro _ h
    cases h
    exact Or.inr (Or.inl ⟨exception,rfl,.throws⟩)
  | call c next ih =>
    intro _ h
    cases h with
    | call ho hret h =>
      rcases ih _ h with ⟨value,w₁,events₁,events₂,he,hp,hf⟩ | ⟨exception,he,hp⟩ |
        ⟨address,index,he,hp⟩
      · exact Or.inl ⟨value,w₁,events₁,events₂,he,.call ho hret hp,hf⟩
      · exact Or.inr (Or.inl ⟨exception,he,.call ho hret hp⟩)
      · exact Or.inr (Or.inr ⟨address,index,he,.call ho hret hp⟩)
  | load address next ih =>
    intro _ h
    cases h with
    | load ho h =>
      rcases ih _ h with ⟨value,w₁,events₁,events₂,he,hp,hf⟩ | ⟨exception,he,hp⟩ |
        ⟨address,index,he,hp⟩
      · exact Or.inl ⟨value,w₁,events₁,events₂,he,.load ho hp,hf⟩
      · exact Or.inr (Or.inl ⟨exception,he,.load ho hp⟩)
      · exact Or.inr (Or.inr ⟨address,index,he,.load ho hp⟩)
  | store address value next ih =>
    intro _ h
    cases h with
    | store ho hs h =>
      rcases ih h with ⟨value,w₁,events₁,events₂,he,hp,hf⟩ | ⟨exception,he,hp⟩ |
        ⟨address,index,he,hp⟩
      · exact Or.inl ⟨value,w₁,events₁,events₂,he,.store ho hs hp,hf⟩
      · exact Or.inr (Or.inl ⟨exception,he,.store ho hs hp⟩)
      · exact Or.inr (Or.inr ⟨address,index,he,.store ho hs hp⟩)
  | construct address index next ih =>
    intro _ h
    cases h with
    | construct ho hu hc h =>
      rcases ih _ h with ⟨value,w₁,events₁,events₂,he,hp,hf⟩ | ⟨exception,he,hp⟩ |
        ⟨address,index,he,hp⟩
      · exact Or.inl ⟨value,w₁,_,events₂,congrArg _ he,.construct ho hu hc hp,hf⟩
      · exact Or.inr (Or.inl ⟨exception,he,.construct ho hu hc hp⟩)
      · exact Or.inr (Or.inr ⟨address,index,he,.construct ho hu hc hp⟩)
    | constructing ho hu => exact Or.inr (Or.inr ⟨address,index,rfl,.constructing ho hu⟩)
  | destroy address next ih =>
    intro _ h
    cases h with
    | destroy ho hu hc h =>
      rcases ih h with ⟨value,w₁,events₁,events₂,he,hp,hf⟩ | ⟨exception,he,hp⟩ |
        ⟨address,index,he,hp⟩
      · exact Or.inl ⟨value,w₁,_,events₂,congrArg _ he,.destroy ho hu hc hp,hf⟩
      · exact Or.inr (Or.inl ⟨exception,he,.destroy ho hu hc hp⟩)
      · exact Or.inr (Or.inr ⟨address,index,he,.destroy ho hu hc hp⟩)

/-- A call that is not caught goes on with its value, or ends the run. -/
theorem Runs.invoke {c : Call} {f : Value → Program α} {events : List ElementEvent}
    {outcome : Outcome α}
    (h : Runs calls user thread (Program.invoke c >>= f) w events outcome w') :
    ∃ w₀ w₁ result, ReflTransGen (OtherStep calls thread) w w₀ ∧
      ReturnsBy calls thread c w₀ w₁ result ∧
      ((∃ value, result = .ok value ∧ Runs calls user thread (f value) w₁ events outcome w') ∨
        ∃ e, result = .error e ∧ outcome = .threw (.manager e) ∧ events = [] ∧ w' = w₁) := by
  cases h with
  | call ho hret h =>
    rename_i result w₀ w₁
    refine ⟨w₀,w₁,result,ho,hret,?_⟩
    cases result with
    | ok value => exact Or.inl ⟨value,rfl,h⟩
    | error e =>
      cases h
      exact Or.inr ⟨e,rfl,rfl,rfl,rfl⟩

/-- The two calls in front of a construction end the run with their exception, or return a
payload. -/
theorem Runs.allocation {size alignment destructor : ℕ} {f : ℕ → Program α}
    {events : List ElementEvent} {outcome : Outcome α} (h : ReachableWorld w)
    (hruns : Runs calls user thread (do
      let _ ← Program.invoke (.collectIfNeeded size)
      let payload ← Program.invoke (.mallocInternal size alignment (some destructor) true)
      f (addressOf payload)) w events outcome w') :
    (∃ c ∈ [Call.collectIfNeeded size,.mallocInternal size alignment (some destructor) true],
      ∃ u e, ReturnsBy calls thread c u w' (.error e) ∧ events = [] ∧
        outcome = .threw (.manager e)) ∨
    ∃ u u' base, ReachableWorld u ∧
      ReturnsBy calls thread (.mallocInternal size alignment (some destructor) true) u u'
        (.ok (.word base)) ∧ Runs calls user thread (f base) u' events outcome w' := by
  obtain ⟨w₀,w₁,result,ho,hret,⟨value,rfl,hruns⟩ | ⟨e,rfl,hthrew,hevents,rfl⟩⟩ := hruns.invoke
  swap
  · exact Or.inl ⟨_,by simp,_,e,hret,hevents,hthrew⟩
  have hr₁ : ReachableWorld w₁ := hret.reachable (control_of_other h ho).1
  obtain ⟨w₂,w₃,result,ho',hret',⟨value',rfl,hruns⟩ | ⟨e,rfl,hthrew,hevents,rfl⟩⟩ := hruns.invoke
  swap
  · exact Or.inl ⟨_,by simp,_,e,hret',hevents,hthrew⟩
  have hr₂ := (control_of_other hr₁ ho').1
  obtain ⟨e,he,-⟩ | ⟨base,hbase,-⟩ := hret'.mallocInternal hr₂
  · cases he
  · cases hbase
    exact Or.inr ⟨w₂,w₃,base,hr₂,hret',hruns⟩

end
end GcLib.Client
