import GcLib.Client.Execution

/-! # Construction of objects -/

namespace GcLib.Client
open GcLib.Heap GcLib.Protocol Relation

/-- `gc_new` from its allocation on. -/
def constructObject (payload : ℕ) : Program ℕ := do
  match ← Program.runConstructor payload 0 with
  | .error exception => do
    let _ ← Program.invoke (.releaseUnconstructed payload)
    .throws exception
  | .ok () => do
    let _ ← Program.invoke (.finishConstruction payload)
    pure payload

/-- `gc_new` of a type of some size and alignment, finalized by `destroy_object`. -/
def gcNew (size alignment destroyObject : ℕ) : Program ℕ := do
  let _ ← Program.invoke (.collectIfNeeded size)
  let payload ← Program.invoke (.mallocInternal size alignment (some destroyObject) true)
  constructObject (addressOf payload)

/-- A run that ends with a call goes on with the exception of the call, if it throws one. -/
def Outcome.after {α : Type} (outcome : Outcome α) : Except GCError Value → Outcome α
  | .ok _ => outcome
  | .error e => .threw (.manager e)

/-- The constructor runs once; then the construction is finished, or withdrawn if it threw. -/
inductive ObjectRun (calls user : Label → World → Prop) (thread : ThreadId) (payload : ℕ)
    (w w' : World) : List ElementEvent → Outcome ℕ → Prop where
  | constructing {u : World} (ho : ReflTransGen (OtherStep calls thread) w u)
      (hu : ReflTransGen (UserStep user thread (u.control thread)) u w') :
      ObjectRun calls user thread payload w w' [] (.constructing payload 0)
  | constructed {u v v' : World} {result : Except GCError Value}
      (ho : ReflTransGen (OtherStep calls thread) w u)
      (hu : ReflTransGen (UserStep user thread (u.control thread)) u v)
      (hc : v.control thread = u.control thread)
      (ho' : ReflTransGen (OtherStep calls thread) v v')
      (hret : ReturnsBy calls thread (.finishConstruction payload) v' w' result) :
      ObjectRun calls user thread payload w w' [.constructs payload 0 (.ok ())]
        (Outcome.after (.returned payload) result)
  | failed {u v v' : World} {exception : Thrown} {result : Except GCError Value}
      (ho : ReflTransGen (OtherStep calls thread) w u)
      (hu : ReflTransGen (UserStep user thread (u.control thread)) u v)
      (hc : v.control thread = u.control thread)
      (ho' : ReflTransGen (OtherStep calls thread) v v')
      (hret : ReturnsBy calls thread (.releaseUnconstructed payload) v' w' result) :
      ObjectRun calls user thread payload w w' [.constructs payload 0 (.error exception)]
        (Outcome.after (.threw exception) result)

section
variable {calls user : Label → World → Prop} {thread : ThreadId} {payload : ℕ} {w w' : World}
  {events : List ElementEvent} {outcome : Outcome ℕ}

theorem constructObject_shape
    (hruns : Runs calls user thread (constructObject payload) w events outcome w') :
    ObjectRun calls user thread payload w w' events outcome := by
  cases hruns with
  | constructing ho hu => exact .constructing ho hu
  | construct ho hu hc hruns =>
    rename_i constructed u v events
    cases constructed with
    | ok value =>
      obtain ⟨v',w₁,result,ho',hret,⟨value,rfl,hruns⟩ | ⟨e,rfl,rfl,rfl,rfl⟩⟩ := hruns.invoke
      · cases hruns
        exact .constructed ho hu hc ho' hret
      · exact .constructed ho hu hc ho' hret
    | error exception =>
      obtain ⟨v',w₁,result,ho',hret,⟨value,rfl,hruns⟩ | ⟨e,rfl,rfl,rfl,rfl⟩⟩ := hruns.invoke
      · cases hruns
        exact .failed ho hu hc ho' hret
      · exact .failed ho hu hc ho' hret

theorem ObjectRun.runs (h : ObjectRun calls user thread payload w w' events outcome) :
    Runs calls user thread (constructObject payload) w events outcome w' := by
  cases h with
  | constructing ho hu => exact .constructing ho hu
  | @constructed u v v' result ho hu hc ho' hret =>
    refine .construct ho hu hc (.call ho' hret ?_)
    cases result with
    | ok value => exact .returns
    | error e => exact .throws
  | @failed u v v' exception result ho hu hc ho' hret =>
    refine .construct ho hu hc (.call ho' hret ?_)
    cases result with
    | ok value => exact .throws
    | error e => exact .throws

theorem constructObject_runs :
    Runs calls user thread (constructObject payload) w events outcome w' ↔
      ObjectRun calls user thread payload w w' events outcome :=
  ⟨constructObject_shape,ObjectRun.runs⟩

end
end GcLib.Client
