import GcLib.Protocol.Machine

/-! # Client code

The headers of the library are code of the client: they call the manager, read and write words
of memory, and run the constructors and destructors of the element type at addresses that they
compute. What such code does next depends on what it reads and on what comes back.
-/

namespace GcLib.Client
open GcLib.Heap GcLib.Protocol

/-- An exception in client code: one of the manager, or one that user code threw. -/
inductive Thrown where
  | manager (error : GCError)
  | user (exception : ℕ)
  deriving DecidableEq

/-- A computation of client code. A constructor may throw; a destructor does not return if it
does. -/
inductive Program (α : Type) where
  | returns (value : α)
  | throws (exception : Thrown)
  | call (call : Call) (next : Except GCError Value → Program α)
  | load (address : ℕ) (next : ℕ → Program α)
  | store (address value : ℕ) (next : Program α)
  | construct (address index : ℕ) (next : Except Thrown Unit → Program α)
  | destroy (address : ℕ) (next : Program α)

namespace Program
variable {α β : Type}

def bind : Program α → (α → Program β) → Program β
  | .returns value, f => f value
  | .throws exception, _ => .throws exception
  | .call c next, f => .call c fun result => (next result).bind f
  | .load address next, f => .load address fun word => (next word).bind f
  | .store address value next, f => .store address value (next.bind f)
  | .construct address index next, f => .construct address index fun result => (next result).bind f
  | .destroy address next, f => .destroy address (next.bind f)

instance : Monad Program where
  pure := .returns
  bind := Program.bind

@[simp] theorem pure_eq (value : α) : (pure value : Program α) = .returns value := rfl

@[simp] theorem returns_bind (value : α) (f : α → Program β) :
    (returns value >>= f) = f value := rfl

@[simp] theorem throws_bind (exception : Thrown) (f : α → Program β) :
    (throws exception >>= f) = .throws exception := rfl

@[simp] theorem call_bind (c : Call) (next : Except GCError Value → Program α)
    (f : α → Program β) : (call c next >>= f) = .call c fun result => next result >>= f := rfl

@[simp] theorem load_bind (address : ℕ) (next : ℕ → Program α) (f : α → Program β) :
    (load address next >>= f) = .load address fun word => next word >>= f := rfl

@[simp] theorem store_bind (address value : ℕ) (next : Program α) (f : α → Program β) :
    (store address value next >>= f) = .store address value (next >>= f) := rfl

@[simp] theorem construct_bind (address index : ℕ) (next : Except Thrown Unit → Program α)
    (f : α → Program β) : (construct address index next >>= f) =
      .construct address index fun result => next result >>= f := rfl

@[simp] theorem destroy_bind (address : ℕ) (next : Program α) (f : α → Program β) :
    (destroy address next >>= f) = .destroy address (next >>= f) := rfl

theorem bind_assoc {γ : Type} (f : α → Program β) (g : β → Program γ) :
    ∀ p : Program α, (p >>= f) >>= g = p >>= fun value => f value >>= g := by
  intro p
  induction p with
  | returns value => rfl
  | throws exception => rfl
  | call c next ih => exact congrArg (Program.call c) (funext ih)
  | load address next ih => exact congrArg (Program.load address) (funext ih)
  | store address value next ih => exact congrArg (Program.store address value) ih
  | construct address index next ih => exact congrArg (Program.construct address index) (funext ih)
  | destroy address next ih => exact congrArg (Program.destroy address) ih

/-- A call of the manager; what it throws is not caught. -/
def invoke (c : Call) : Program Value :=
  .call c fun
    | .ok value => .returns value
    | .error e => .throws (.manager e)

def writeWord (address value : ℕ) : Program Unit := .store address value (.returns ())

def readWord (address : ℕ) : Program ℕ := .load address .returns

def runConstructor (address index : ℕ) : Program (Except Thrown Unit) :=
  .construct address index .returns

def runDestructor (address : ℕ) : Program Unit := .destroy address (.returns ())

/-- What is left of a program on one of its paths. -/
inductive Reaches : Program α → Program α → Prop where
  | refl (p : Program α) : Reaches p p
  | call {c : Call} {next : Except GCError Value → Program α} {q : Program α}
      (result : Except GCError Value) (h : Reaches (next result) q) : Reaches (.call c next) q
  | load {address : ℕ} {next : ℕ → Program α} {q : Program α} (word : ℕ)
      (h : Reaches (next word) q) : Reaches (.load address next) q
  | store {address value : ℕ} {next q : Program α} (h : Reaches next q) :
      Reaches (.store address value next) q
  | construct {address index : ℕ} {next : Except Thrown Unit → Program α} {q : Program α}
      (result : Except Thrown Unit) (h : Reaches (next result) q) :
      Reaches (.construct address index next) q
  | destroy {address : ℕ} {next q : Program α} (h : Reaches next q) :
      Reaches (.destroy address next) q

/-- A path of a sequence stops in the first program, or runs through it. -/
theorem reaches_bind {f : α → Program β} {q : Program β} :
    ∀ {p : Program α}, (p >>= f).Reaches q →
      (∃ p', p.Reaches p' ∧ q = p' >>= f) ∨ ∃ value, p.Reaches (.returns value) ∧
        (f value).Reaches q := by
  intro p
  induction p with
  | returns value => exact fun h => Or.inr ⟨value,.refl _,h⟩
  | throws exception =>
    intro h
    cases h
    exact Or.inl ⟨_,.refl _,rfl⟩
  | call c next ih =>
    intro h
    cases h with
    | refl => exact Or.inl ⟨_,.refl _,rfl⟩
    | call result h =>
      rcases ih result h with ⟨p',hp,hq⟩ | ⟨value,hp,hq⟩
      · exact Or.inl ⟨p',.call result hp,hq⟩
      · exact Or.inr ⟨value,.call result hp,hq⟩
  | load address next ih =>
    intro h
    cases h with
    | refl => exact Or.inl ⟨_,.refl _,rfl⟩
    | load word h =>
      rcases ih word h with ⟨p',hp,hq⟩ | ⟨value,hp,hq⟩
      · exact Or.inl ⟨p',.load word hp,hq⟩
      · exact Or.inr ⟨value,.load word hp,hq⟩
  | store address value next ih =>
    intro h
    cases h with
    | refl => exact Or.inl ⟨_,.refl _,rfl⟩
    | store h =>
      rcases ih h with ⟨p',hp,hq⟩ | ⟨value,hp,hq⟩
      · exact Or.inl ⟨p',.store hp,hq⟩
      · exact Or.inr ⟨value,.store hp,hq⟩
  | construct address index next ih =>
    intro h
    cases h with
    | refl => exact Or.inl ⟨_,.refl _,rfl⟩
    | construct result h =>
      rcases ih result h with ⟨p',hp,hq⟩ | ⟨value,hp,hq⟩
      · exact Or.inl ⟨p',.construct result hp,hq⟩
      · exact Or.inr ⟨value,.construct result hp,hq⟩
  | destroy address next ih =>
    intro h
    cases h with
    | refl => exact Or.inl ⟨_,.refl _,rfl⟩
    | destroy h =>
      rcases ih h with ⟨p',hp,hq⟩ | ⟨value,hp,hq⟩
      · exact Or.inl ⟨p',.destroy hp,hq⟩
      · exact Or.inr ⟨value,.destroy hp,hq⟩

end Program

/-- The address in a result. -/
def addressOf : Value → ℕ
  | .word address => address
  | _ => 0

end GcLib.Client
