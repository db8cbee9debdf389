import GcLib.Client.Session

/-! # Ledgers of operations

What the manager has registered belongs to somebody: each handle at rest owns its part, and an
operation in progress holds what it took, obtained and has not given back yet. A ledger states
the parts, and how calls, loads and stores move them. Then the registry is the disjoint union of
all parts in every session.
-/

namespace GcLib.Client
open GcLib.Heap GcLib.Support GcLib.Protocol Relation

/-- Parts of a registry, and the rules of the operations: a rule takes what an operation holds
to what it may hold afterwards. An operation of a thread brings in fresh parts, and leaves spent
ones. -/
structure Ledger {H : Type} (I : Interface H) (R : Type) where
  owned : H → List R
  fresh : ThreadId → I.Operation → List R
  Spent : R → Prop
  Concerns : ThreadId → I.Operation → R → Prop
  Registry : World → List R → Prop
  CallRule : Call → Stage → List R → List R → (CallRecord → List R → Prop) → Prop
  LoadRule : ℕ → List R → List R → (ℕ → List R → Prop) → Prop
  StoreRule : ℕ → ℕ → List R → List R → (List R → Prop) → Prop

namespace Ledger
variable {H R : Type} {I : Interface H} {L : Ledger I R}

def Within (L : Ledger I R) (thread : ThreadId) (operation : I.Operation) (held : List R) : Prop :=
  ∀ part ∈ held, L.Concerns thread operation part

/-- What is held covers what these handles own, up to spent parts. -/
def Covers (L : Ledger I R) (held : List R) (handles : List H) : Prop :=
  ∃ spent, held.Perm (spent ++ handles.flatMap L.owned) ∧ ∀ part ∈ spent, L.Spent part

/-- The rest of an operation accounts for what it holds: it leaves handles that own it, or
throws before any call succeeded and holds what it took, and has stored nothing elsewhere than in
the handle it was to construct. -/
def Outline (L : Ledger I R) (thread : ThreadId) (operation : I.Operation) :
    Trace → Program (Trace → List H) → List R → Prop
  | trace, .returns done, held => L.Within thread operation held ∧ L.Covers held (done trace)
  | trace, .throws _, held => L.Within thread operation held ∧ L.Covers held (I.takes operation) ∧
      ∀ event ∈ trace, event.Undone (I.constructs operation)
  | trace, .call c next, held => L.Within thread operation held ∧
      L.CallRule c .enter held ((I.borrows operation).flatMap L.owned) fun record held' =>
        Outline L thread operation (trace ++ [.called record]) (next record.result) held'
  | trace, .load address next, held => L.Within thread operation held ∧
      L.LoadRule address held ((I.borrows operation).flatMap L.owned) fun word held' =>
        Outline L thread operation trace (next word) held'
  | trace, .store address value next, held => L.Within thread operation held ∧
      L.StoreRule address value held ((I.borrows operation).flatMap L.owned) fun held' =>
        Outline L thread operation (trace ++ [.stored address value]) next held'
  | _, .construct _ _ _, _ => False
  | _, .destroy _ _, _ => False

theorem Outline.within {thread : ThreadId} {operation : I.Operation} {trace : Trace}
    {code : Program (Trace → List H)} {held : List R}
    (h : L.Outline thread operation trace code held) : L.Within thread operation held := by
  cases code with
  | construct | destroy => exact h.elim
  | _ => exact h.1

/-- A part belongs to a handle at rest or to an operation in progress. -/
def Concerned (L : Ledger I R) (handles : List H) (tasks : List (ThreadId × I.Operation))
    (part : R) : Prop :=
  (∃ handle ∈ handles, part ∈ L.owned handle) ∨
    ∃ task ∈ tasks, L.Concerns task.1 task.2 part

/-- A part is none of a thread's. -/
def Foreign (L : Ledger I R) (thread : ThreadId) (part : R) : Prop :=
  (∃ handle, part ∈ L.owned handle) ∨
    ∃ other operation, other ≠ thread ∧ L.Concerns other operation part

/-- The rules are those of the manager, and every operation keeps to them. -/
structure Sound (L : Ledger I R) : Prop where
  outline : ∀ {w : World} {thread : ThreadId} {operation : I.Operation} {handles : List H}
    {operations : List I.Operation}, I.Promised w thread operation handles operations →
    (∀ handle ∈ I.takes operation, handle ∈ handles) →
    L.Outline thread operation [] (I.code operation)
      (L.fresh thread operation ++ (I.takes operation).flatMap L.owned)
  initial : ∀ memory, L.Registry (.initial memory) []
  perm : ∀ {w : World} {parts parts' : List R}, L.Registry w parts → parts.Perm parts' →
    L.Registry w parts'
  congr : ∀ {w w' : World} {parts : List R}, L.Registry w parts → w'.state = w.state →
    w'.log = w.log → L.Registry w' parts
  fresh : ∀ {w : World} {parts : List R} {operation : I.Operation} {handles : List H}
    {tasks : List (ThreadId × I.Operation)} {thread : ThreadId}, ReachableWorld w →
    inUserCode (w.control thread) = true →
    I.Promised w thread operation handles (tasks.map Prod.snd) →
    (∀ part ∈ parts, L.Concerned handles tasks part) → L.Registry w parts →
    L.Registry w (L.fresh thread operation ++ parts)
  spent : ∀ {w : World} {spent parts : List R}, (∀ part ∈ spent, L.Spent part) →
    L.Registry w (spent ++ parts) → L.Registry w parts
  outside : ∀ {w w' : World} {parts : List R} {label : Label} {handles : List H}
    {tasks : List (ThreadId × I.Operation)}, ReachableWorld w →
    I.Admits handles (tasks.map Prod.snd) label w →
    (∀ part ∈ parts, L.Concerned handles tasks part) →
    (∀ part ∈ parts, L.Foreign label.thread part) →
    (∀ c stage rest, w.control label.thread = .entering (.call c) stage :: rest →
      I.exclusive c = false) → step label w = some w' → L.Registry w parts → L.Registry w' parts
  immediate : ∀ {w w' : World} {held others borrowed : List R} {thread : ThreadId} {c : Call}
    {result : Except GCError Value} {post : CallRecord → List R → Prop}, ReachableWorld w →
    I.reserved c = true → c.immediate = some result →
    step (.user thread (.call c)) w = some w' → L.CallRule c .enter held borrowed post →
    (∀ part ∈ borrowed, part ∈ others) → L.Registry w (held ++ others) →
      ∃ held', post ⟨c,w.state,result⟩ held' ∧ L.Registry w' (held' ++ others)
  waits : ∀ {w w' : World} {held others borrowed : List R} {thread : ThreadId} {choice : Choice}
    {operation : I.Operation} {c : Call} {stage stage' : Stage} {below : List Frame}
    {post : CallRecord → List R → Prop}, ReachableWorld w →
    borrowed = (I.borrows operation).flatMap L.owned → L.Within thread operation held →
    I.reserved c = true → inUserCode below = true →
    w.control thread = .entering (.call c) stage :: below →
    step (.run thread choice) w = some w' →
    w'.control thread = .entering (.call c) stage' :: below →
    L.CallRule c stage held borrowed post → (∀ part ∈ borrowed, part ∈ others) →
    (∀ part ∈ others, L.Foreign thread part) → L.Registry w (held ++ others) →
    ∃ held', L.CallRule c stage' held' borrowed post ∧ L.Within thread operation held' ∧
      L.Registry w' (held' ++ others)
  returns : ∀ {w w' : World} {held others borrowed : List R} {thread : ThreadId} {choice : Choice}
    {c : Call} {stage : Stage} {below : List Frame} {result : Except GCError Value}
    {post : CallRecord → List R → Prop}, ReachableWorld w → I.reserved c = true →
    inUserCode below = true → w.control thread = .entering (.call c) stage :: below →
    step (.run thread choice) w = some w' → w'.control thread = below →
    w'.result thread = some result → L.CallRule c stage held borrowed post →
    (∀ part ∈ borrowed, part ∈ others) → (∀ part ∈ others, L.Foreign thread part) →
    L.Registry w (held ++ others) →
      ∃ held', post ⟨c,w.state,result⟩ held' ∧ L.Registry w' (held' ++ others)
  loads : ∀ {w : World} {held others borrowed : List R} {address : ℕ}
    {post : ℕ → List R → Prop}, ReachableWorld w → L.LoadRule address held borrowed post →
    (∀ part ∈ borrowed, part ∈ others) → L.Registry w (held ++ others) →
      ∃ held', post (readWord w.state.memory address) held' ∧ L.Registry w (held' ++ others)
  stores : ∀ {w : World} {held others borrowed : List R} {address value : ℕ}
    {post : List R → Prop}, ReachableWorld w → L.StoreRule address value held borrowed post →
    (∀ part ∈ borrowed, part ∈ others) → L.Registry w (held ++ others) →
      ∃ held', post held' ∧ L.Registry
        (w.setState { w.state with memory := writeWord w.state.memory address value })
        (held' ++ others)

/-- What an operation in progress holds. -/
def Holds (L : Ledger I R) (w : World) (job : Job I) (held : List R) : Prop :=
  match job.progress with
  | .running code => L.Outline job.thread job.operation job.trace code held
  | .calling c below next => L.Within job.thread job.operation held ∧
      ∃ stage, w.control job.thread = .entering (.call c) stage :: below ∧
        L.CallRule c stage held ((I.borrows job.operation).flatMap L.owned) fun record held' =>
          L.Outline job.thread job.operation (job.trace ++ [.called record]) (next record.result) held'

theorem Holds.congr {w w' : World} {job : Job I} {held : List R} (h : L.Holds w job held)
    (hc : w'.control job.thread = w.control job.thread) : L.Holds w' job held := by
  unfold Holds at h ⊢
  rwa [hc]

theorem Holds.running {w : World} {job : Job I} {code : Program (Trace → List H)}
    {held : List R} (h : L.Holds w job held) (hp : job.progress = .running code) :
    L.Outline job.thread job.operation job.trace code held := by
  unfold Holds at h
  rwa [hp] at h

theorem Holds.calling {w : World} {job : Job I} {c : Call} {below : List Frame}
    {next : Except GCError Value → Program (Trace → List H)} {held : List R}
    (h : L.Holds w job held) (hp : job.progress = .calling c below next) :
    L.Within job.thread job.operation held ∧
      ∃ stage, w.control job.thread = .entering (.call c) stage :: below ∧
        L.CallRule c stage held ((I.borrows job.operation).flatMap L.owned) fun record held' =>
          L.Outline job.thread job.operation (job.trace ++ [.called record]) (next record.result)
            held' := by
  unfold Holds at h
  rwa [hp] at h

theorem Holds.within {w : World} {job : Job I} {held : List R} (h : L.Holds w job held) :
    L.Within job.thread job.operation held := by
  unfold Holds at h
  split at h
  · exact h.within
  · exact h.1

/-- The registry is made up of what the operations in progress hold and of what the handles at
rest own. -/
def Balanced (L : Ledger I R) (s : Session I) : Prop :=
  ∃ accounts : List (Job I × List R), s.jobs.Perm (accounts.map Prod.fst) ∧
    (∀ account ∈ accounts, L.Holds s.world account.1 account.2) ∧
    L.Registry s.world (accounts.flatMap Prod.snd ++ s.handles.flatMap L.owned)

section
variable {s s' : Session I} {job job' : Job I} {others : List (Job I)}

/-- The accounts of all operations but one, and of that one. -/
theorem Balanced.account (h : L.Balanced s) (hL : L.Sound) (hjobs : s.jobs.Perm (job :: others)) :
    ∃ (held : List R) (accounts : List (Job I × List R)),
      others.Perm (accounts.map Prod.fst) ∧ L.Holds s.world job held ∧
      (∀ account ∈ accounts, L.Holds s.world account.1 account.2) ∧
      L.Registry s.world
        (held ++ (accounts.flatMap Prod.snd ++ s.handles.flatMap L.owned)) := by
  obtain ⟨accounts,hperm,hholds,hregistry⟩ := h
  have hall := hjobs.symm.trans hperm
  obtain ⟨⟨job',held⟩,hmem,rfl⟩ := List.mem_map.mp (hall.subset List.mem_cons_self)
  obtain ⟨left,right,rfl⟩ := List.append_of_mem hmem
  have hmiddle : (left ++ (job',held) :: right).Perm ((job',held) :: (left ++ right)) :=
    List.perm_middle
  refine ⟨held,left ++ right,?_,hholds _ hmem,fun account haccount => hholds account ?_,?_⟩
  · exact (hall.trans (hmiddle.map Prod.fst)).cons_inv
  · exact hmiddle.symm.subset (List.mem_cons_of_mem _ haccount)
  · apply hL.perm hregistry
    rw [← List.append_assoc]
    exact (hmiddle.flatMap_right Prod.snd).append_right _

/-- One operation went on, and the others hold what they held. -/
theorem Balanced.of_account (job : Job I) {held : List R} {accounts : List (Job I × List R)} {w : World}
    (hL : L.Sound) (hperm : others.Perm (accounts.map Prod.fst))
    (hholds : ∀ account ∈ accounts, L.Holds w account.1 account.2)
    (hcontrol : ∀ account ∈ accounts,
      s'.world.control account.1.thread = w.control account.1.thread)
    (hjobs : s'.jobs.Perm (job :: others)) (hjob : L.Holds s'.world job held)
    (hregistry : L.Registry s'.world
      (held ++ (accounts.flatMap Prod.snd ++ s'.handles.flatMap L.owned))) : L.Balanced s' := by
  refine ⟨(job,held) :: accounts,hjobs.trans (hperm.cons _),fun account haccount => ?_,?_⟩
  · rcases List.mem_cons.mp haccount with rfl | hmem
    · exact hjob
    · exact (hholds account hmem).congr (hcontrol account hmem)
  · apply hL.perm hregistry
    rw [List.flatMap_cons, List.append_assoc]

/-- Every part belongs to a handle at rest or to an operation in progress. -/
theorem concerned {accounts : List (Job I × List R)}
    (hperm : s.jobs.Perm (accounts.map Prod.fst))
    (hholds : ∀ account ∈ accounts, L.Holds s.world account.1 account.2) :
    ∀ part ∈ accounts.flatMap Prod.snd ++ s.handles.flatMap L.owned,
      L.Concerned s.handles s.tasks part := by
  intro part hpart
  rcases List.mem_append.mp hpart with hheld | howned
  · obtain ⟨account,haccount,hpart⟩ := List.mem_flatMap.mp hheld
    right
    refine ⟨(account.1.thread,account.1.operation),?_,(hholds account haccount).within part hpart⟩
    exact List.mem_map_of_mem (hperm.symm.subset (List.mem_map_of_mem haccount))
  · exact Or.inl (List.mem_flatMap.mp howned)

/-- The parts of the handles at rest and of the operations of other threads. -/
theorem foreign {w : World} {thread : ThreadId} {accounts : List (Job I × List R)} {handles : List H}
    (hholds : ∀ account ∈ accounts, L.Holds w account.1 account.2)
    (hne : ∀ account ∈ accounts, account.1.thread ≠ thread) :
    ∀ part ∈ accounts.flatMap Prod.snd ++ handles.flatMap L.owned, L.Foreign thread part := by
  intro part hpart
  rcases List.mem_append.mp hpart with hheld | howned
  · obtain ⟨account,haccount,hpart⟩ := List.mem_flatMap.mp hheld
    exact Or.inr ⟨_,_,hne account haccount,(hholds account haccount).within part hpart⟩
  · obtain ⟨handle,-,hpart⟩ := List.mem_flatMap.mp howned
    exact Or.inl ⟨handle,hpart⟩

/-- An operation that ends gives back handles that own what it held. -/
theorem Balanced.ends (h : L.Balanced s) (hL : L.Sound) (hjobs : s.jobs.Perm (job :: others))
    {given : List H} (hcovers : ∀ held, L.Holds s.world job held → L.Covers held given) :
    L.Balanced { s with jobs := others, handles := given ++ s.handles } := by
  obtain ⟨held,accounts,hperm,hjob,hholds,hregistry⟩ := h.account hL hjobs
  obtain ⟨spent,hspent,hdone⟩ := hcovers held hjob
  refine ⟨accounts,hperm,hholds,hL.spent hdone (hL.perm hregistry ?_)⟩
  change (held ++ (accounts.flatMap Prod.snd ++ s.handles.flatMap L.owned)).Perm
    (spent ++ (accounts.flatMap Prod.snd ++ (given ++ s.handles).flatMap L.owned))
  rw [List.flatMap_append]
  refine (hspent.append_right _).trans ?_
  rw [List.append_assoc]
  apply List.Perm.append_left
  rw [← List.append_assoc, ← List.append_assoc]
  exact List.perm_append_comm.append_right _

theorem Balanced.step (h : L.Balanced s) (hL : L.Sound) (hs : s.Placed) (hstep : s.Step s') :
    L.Balanced s' := by
  have hothers : ∀ {accounts : List (Job I × List R)} {job : Job I} {others : List (Job I)},
      s.jobs.Perm (job :: others) → others.Perm (accounts.map Prod.fst) →
      ∀ account ∈ accounts, account.1.thread ≠ job.thread := by
    intro accounts job others hjobs hperm account haccount
    exact hs.thread_ne hjobs _ (hperm.symm.subset (List.mem_map_of_mem haccount))
  have hkept : ∀ {w' : World} {label : Label}, Protocol.step label s.world = some w' →
      ∀ thread, thread ≠ label.thread → w'.control thread = s.world.control thread :=
    fun hstep thread hne => hs.reachable.control hstep thread hne
  have hborrowed : ∀ {job : Job I} {others : List (Job I)} (parts : List R),
      s.jobs.Perm (job :: others) → ∀ part ∈ (I.borrows job.operation).flatMap L.owned,
        part ∈ parts ++ s.handles.flatMap L.owned := by
    intro job others parts hjobs part hpart
    obtain ⟨handle,hhandle,hpart⟩ := List.mem_flatMap.mp hpart
    have hmem := hs.borrowed job (Session.Placed.mem hjobs) handle hhandle
    exact List.mem_append_right _ (List.mem_flatMap.mpr ⟨handle,hmem,hpart⟩)
  cases hstep with
  | outside hidle hcall hadmits hstep =>
    obtain ⟨accounts,hperm,hholds,hregistry⟩ := h
    refine ⟨accounts,hperm,fun account haccount => ?_,?_⟩
    · have hmem := hperm.symm.subset (List.mem_map_of_mem haccount)
      exact (hholds account haccount).congr (hkept hstep _ (hidle _ hmem))
    · have hne : ∀ account ∈ accounts, account.1.thread ≠ _ := fun account haccount =>
        hidle _ (hperm.symm.subset (List.mem_map_of_mem haccount))
      exact hL.outside hs.reachable (s.tasks_operations ▸ hadmits) (concerned (s := s) hperm hholds)
        (foreign hholds hne) (hs.idle _ hidle) hstep hregistry
  | begins hidle huser htakes hborrows hshared hpromised =>
    rename_i thread operation rest
    obtain ⟨accounts,hperm,hholds,hregistry⟩ := h
    refine ⟨(⟨thread,operation,.running (I.code operation),[]⟩,
      L.fresh thread operation ++ (I.takes operation).flatMap L.owned) :: accounts,hperm.cons _,
      fun account haccount => ?_,?_⟩
    · rcases List.mem_cons.mp haccount with rfl | hmem
      · exact hL.outline hpromised fun handle hmem =>
          htakes.symm.subset (List.mem_append_left _ hmem)
      · exact hholds account hmem
    · rw [← s.tasks_operations] at hpromised
      apply hL.perm (hL.fresh hs.reachable huser hpromised (concerned hperm hholds) hregistry)
      rw [List.flatMap_cons, List.append_assoc, List.append_assoc]
      apply List.Perm.append_left
      have hsplit := htakes.flatMap_right L.owned
      rw [List.flatMap_append] at hsplit
      refine (hsplit.append_left _).trans ?_
      rw [← List.append_assoc, ← List.append_assoc]
      exact List.perm_append_comm.append_right _
  | calls hjobs hprogress hi hstep =>
    rename_i job others c next w'
    obtain ⟨held,accounts,hperm,hjob,hholds,hregistry⟩ := h.account hL hjobs
    obtain ⟨-,hcall⟩ := step_call hi hstep
    refine .of_account (job.goTo _) hL hperm hholds
      (fun account haccount => hkept hstep _ (hothers hjobs hperm account haccount))
      (List.Perm.refl _) ?_
      (hL.congr hregistry (by rw [hcall]; rfl) (by rw [hcall]; rfl))
    obtain ⟨hwithin,hrule⟩ := hjob.running hprogress
    refine ⟨hwithin,.enter,?_,hrule⟩
    rw [hcall]
    exact Function.update_self ..
  | immediate hjobs hprogress hi hstep =>
    rename_i job others c next result w'
    obtain ⟨held,accounts,hperm,hjob,hholds,hregistry⟩ := h.account hL hjobs
    obtain ⟨hcalls,-⟩ := Job.placed_running (hs.jobs job (Session.Placed.mem hjobs)) hprogress
    obtain ⟨held',hpost,hregistry'⟩ := hL.immediate hs.reachable hcalls.1 hi hstep
      (hjob.running hprogress).2 (hborrowed _ hjobs) hregistry
    exact .of_account (job.returned next ⟨c,s.world.state,result⟩) hL hperm hholds
      (fun account haccount => hkept hstep _ (hothers hjobs hperm account haccount))
      (List.Perm.refl _) hpost hregistry'
  | waits hjob hprogress hstep hc =>
    rename_i job c below next choice w'
    obtain ⟨others,hjobs⟩ := Session.perm_of_mem hjob
    obtain ⟨held,accounts,hperm,hheld,hholds,hregistry⟩ := h.account hL hjobs
    obtain ⟨hreserved,-,huser,-⟩ := Job.placed_calling (hs.jobs job hjob) hprogress
    obtain ⟨hwithin,stage,hcontrol,hrule⟩ := hheld.calling hprogress
    rcases single_step (I.single c hreserved) huser hcontrol hstep with ⟨stage',hstage⟩ | ⟨hdone,-⟩
    · obtain ⟨held',hrule',hwithin',hregistry'⟩ :=
        hL.waits hs.reachable rfl hwithin hreserved huser hcontrol hstep hstage hrule
          (hborrowed _ hjobs) (foreign hholds (hothers hjobs hperm)) hregistry
      refine .of_account job hL hperm hholds
        (fun account haccount => hkept hstep _ (hothers hjobs hperm account haccount))
        hjobs ?_ hregistry'
      unfold Holds
      rw [hprogress]
      exact ⟨hwithin',stage',hstage,hrule'⟩
    · exact absurd hdone hc
  | returns hjobs hprogress hstep hc hr =>
    rename_i job others c below next result choice w'
    obtain ⟨held,accounts,hperm,hjob,hholds,hregistry⟩ := h.account hL hjobs
    obtain ⟨hreserved,-,huser,-⟩ :=
      Job.placed_calling (hs.jobs job (Session.Placed.mem hjobs)) hprogress
    obtain ⟨-,stage,hcontrol,hrule⟩ := hjob.calling hprogress
    obtain ⟨held',hpost,hregistry'⟩ :=
      hL.returns hs.reachable hreserved huser hcontrol hstep hc hr hrule (hborrowed _ hjobs)
        (foreign hholds (hothers hjobs hperm)) hregistry
    exact .of_account (job.returned next ⟨c,s.world.state,result⟩) hL hperm hholds
      (fun account haccount => hkept hstep _ (hothers hjobs hperm account haccount))
      (List.Perm.refl _) hpost hregistry'
  | loads hjobs hprogress =>
    rename_i job others address next
    obtain ⟨held,accounts,hperm,hjob,hholds,hregistry⟩ := h.account hL hjobs
    obtain ⟨held',hpost,hregistry'⟩ :=
      hL.loads hs.reachable (hjob.running hprogress).2 (hborrowed _ hjobs) hregistry
    exact .of_account (job.goTo _) hL hperm hholds (fun _ _ => rfl) (List.Perm.refl _) hpost
      hregistry'
  | stores hjobs hprogress hrun =>
    rename_i job others address value next w'
    obtain ⟨held,accounts,hperm,hjob,hholds,hregistry⟩ := h.account hL hjobs
    obtain ⟨held',hpost,hregistry'⟩ :=
      hL.stores hs.reachable (hjob.running hprogress).2 (hborrowed _ hjobs) hregistry
    obtain rfl := run_storeWord hrun
    exact .of_account (job.stored next address value) hL hperm hholds (fun _ _ => rfl)
      (List.Perm.refl _) hpost hregistry'
  | finishes hjobs hprogress =>
    exact h.ends hL hjobs fun held hheld => (hheld.running hprogress).2
  | throws hjobs hprogress =>
    exact h.ends hL hjobs fun held hheld => (hheld.running hprogress).2.1

/-- A sound ledger is balanced in every session. -/
theorem Sound.balanced (hL : L.Sound) (h : s.Reachable) : L.Balanced s := by
  obtain ⟨s₀,⟨memory,rfl⟩,hsteps⟩ := h
  induction hsteps with
  | refl => exact ⟨[],List.Perm.refl _,nofun,hL.initial memory⟩
  | tail hsteps hstep ih =>
    exact ih.step hL (Session.Reachable.placed ⟨_,⟨memory,rfl⟩,hsteps⟩) hstep

end
end Ledger
end GcLib.Client
