import GcLib.Protocol.Batches

/-! # The order of destructor calls

The blocks of a batch are detached in the order in which `destroy_blocks` receives them,
and their destructors are called in that order.
-/

namespace GcLib.Protocol
open GcLib.Heap GcLib.Support

/-- Destructors are called in the order of detachment. For a block whose call is pending, the
blocks detached before it have had theirs or come before it on the same stack. -/
structure CallOrder (w : World) : Prop where
  pending : ∀ thread left header right a batch destructor,
    custody (w.control thread) = left ++ (header,.detached) :: right →
    Before w.log (.detached a batch) (.detached (w.state.serial header) batch) →
    .placed a (some destructor) ∈ w.log →
      .finalized a ∈ w.log ∨ ∃ other, (other,.detached) ∈ left ∧ w.state.serial other = a
  ordered : ∀ a b batch destructor, Before w.log (.detached a batch) (.detached b batch) →
    .placed a (some destructor) ∈ w.log → .finalized b ∈ w.log →
      Before w.log (.finalized a) (.finalized b)

section
variable {w w' : World} {thread : ThreadId} {events : List Event}

/-- A step detaches registered blocks only, and calls no destructor at the same time. -/
theorem Move.detached_registered (hm : Move thread w w') (hlog : w'.log = w.log ++ events)
    {b batch : ℕ} (hd : .detached b batch ∈ events) :
    (∃ header ∈ registered w.state, w.state.serial header = b) ∧ ∀ c, .finalized c ∉ events := by
  have hsome : ∀ {new : List Event}, w'.log = w.log ++ new → events = new := by
    intro new heq
    rw [hlog] at heq
    exact List.append_cancel_left heq
  cases hm with
  | stays hs hr hc hl' =>
    rw [hsome (hl'.trans (List.append_nil _).symm)] at hd
    cases hd
  | detaches blocks hs hr hc hl' =>
    rw [hsome hl'] at hd ⊢
    obtain ⟨x,hx,heq⟩ := List.mem_map.mp hd
    refine ⟨⟨x,hr.mem_iff.mpr (List.mem_append_left _ hx),(Event.detached.inj heq).1⟩,?_⟩
    intro c hc
    obtain ⟨y,-,heq⟩ := List.mem_map.mp hc
    cases heq
  | finalizes header left right hs hr hc hc' hl' =>
    rw [hsome hl'] at hd
    split_ifs at hd <;> simp at hd
  | places region request hv hf hs hc hl' => simp [hsome hl'] at hd
  | registers header hs hr hc hl' => simp [hsome hl'] at hd
  | withdraws header hs hr hc hl' => simp [hsome hl'] at hd
  | frees header phase hphase hchunks hserial hr hc hl' => simp [hsome hl'] at hd

/-- A step calls the first destructor that is pending on its thread's stack. -/
theorem Move.finalized_pending (hm : Move thread w w') (hlog : w'.log = w.log ++ events)
    {b : ℕ} (hf : .finalized b ∈ events) : ∃ header left right,
      custody (w.control thread) = left ++ (header,.detached) :: right ∧
      w.state.serial header = b ∧ ∀ entry ∈ left, entry.2 = .finalized := by
  have hsome : ∀ {new : List Event}, w'.log = w.log ++ new → events = new := by
    intro new heq
    rw [hlog] at heq
    exact List.append_cancel_left heq
  cases hm with
  | stays hs hr hc hl' =>
    rw [hsome (hl'.trans (List.append_nil _).symm)] at hf
    cases hf
  | detaches blocks hs hr hc hl' => simp [hsome hl'] at hf
  | finalizes header left right hs hr hc hc' hl' hleft =>
    rw [hsome hl'] at hf
    refine ⟨header,left,right,hc,?_,hleft⟩
    split_ifs at hf
    · cases hf
    · exact (Event.finalized.inj (List.mem_singleton.mp hf)).symm
  | places region request hv hf' hs hc hl' => simp [hsome hl'] at hf
  | registers header hs hr hc hl' => simp [hsome hl'] at hf
  | withdraws header hs hr hc hl' => simp [hsome hl'] at hf
  | frees header phase hphase hchunks hserial hr hc hl' => simp [hsome hl'] at hf

theorem Move.not_detached (ho : Ownership w) (hl : Lifecycle w) (hm : Move thread w w')
    (hlog : w'.log = w.log ++ events) {other : ThreadId} {header batch : ℕ}
    (hh : header ∈ held (w.control other)) :
    Event.detached (w.state.serial header) batch ∉ events := by
  intro hd
  obtain ⟨⟨x,hreg,heq⟩,-⟩ := hm.detached_registered hlog hd
  obtain ⟨chunk,hchunk⟩ := (ho.mem_chunks x).mpr (Or.inl hreg)
  obtain ⟨chunk',hchunk'⟩ := ho.held_chunk other hh
  have hserial : chunk.serial = chunk'.serial := by
    rw [← State.serial_eq hchunk, ← State.serial_eq hchunk']
    exact heq
  obtain rfl := hl.serial_inj _ _ _ _ hchunk hchunk' hserial
  exact (List.nodup_append.mp (ho.nodup other)).2.2 _ hreg _ hh rfl

/-- What is known about a pending block survives the events of a step. -/
theorem CallOrder.kept (h : CallOrder w) (ho : Ownership w) (hl : Lifecycle w)
    (hm : Move thread w w') (hlog : w'.log = w.log ++ events) (hg : Growth w.log events)
    {other : ThreadId} {left right : List (ℕ × Phase)} {header a batch destructor : ℕ}
    (hc : custody (w.control other) = left ++ (header,.detached) :: right)
    (hb : Before w'.log (.detached a batch) (.detached (w.state.serial header) batch))
    (hp : .placed a (some destructor) ∈ w'.log) :
    .finalized a ∈ w.log ∨ ∃ x, (x,.detached) ∈ left ∧ w.state.serial x = a := by
  have hheld : header ∈ held (w.control other) := by
    rw [held, hc]
    simp
  rw [hlog] at hb hp
  have hb := hb.of_append_left (hm.not_detached ho hl hlog hheld)
  have hp : Event.placed a (some destructor) ∈ w.log := by
    rcases List.mem_append.mp hp with hp | hp
    · exact hp
    · exact absurd rfl (hg.fresh a _ hp _ hb.mem_left)
  exact h.pending other left header right a batch destructor hc hb hp

/-- In a new batch the blocks come in the order in which they were detached. -/
theorem mem_of_detached (hb : Batches w) (hl : Lifecycle w) {blocks l l' : List ℕ}
    {header a batch : ℕ} (hblocks : blocks = l ++ header :: l') (hnodup : blocks.Nodup)
    (hchunks : ∀ x ∈ blocks, ∃ chunk, w.state.chunks.find? x = some chunk)
    (hnew : .detached (w.state.serial header) batch ∉ w.log)
    (h : Before (w.log ++ blocks.map fun x => .detached (w.state.serial x) w.log.length)
      (.detached a batch) (.detached (w.state.serial header) batch)) :
    ∃ x ∈ l, w.state.serial x = a := by
  have hbatch : batch = w.log.length := by
    rcases List.mem_append.mp h.mem_right with hd | hd
    · exact absurd hd hnew
    · obtain ⟨x,-,heq⟩ := List.mem_map.mp hd
      exact (Event.detached.inj heq).2.symm
  subst hbatch
  obtain ⟨x,y,hxy,hx,hy⟩ := (h.of_append_right (fun hd => lt_irrefl _ (hb.named _ _ hd))).of_map
  have hheader : header ∈ blocks := hblocks ▸ by simp
  obtain ⟨c,hc⟩ := hchunks y hxy.mem_right
  obtain ⟨c',hc'⟩ := hchunks header hheader
  have hserial : c.serial = c'.serial := by
    rw [← State.serial_eq hc, ← State.serial_eq hc']
    exact (Event.detached.inj hy).1
  obtain rfl := hl.serial_inj _ _ _ _ hc hc' hserial
  subst hblocks
  exact ⟨x,hxy.mem_left_of_split hnodup,(Event.detached.inj hx).1⟩

/-- A registered block has not been detached, and its destructor has not been called. -/
theorem Lifecycle.registered_new (hl : Lifecycle w) (ho : Ownership w) {header : ℕ}
    (hr : header ∈ Protocol.registered w.state) :
    (∀ batch, .detached (w.state.serial header) batch ∉ w.log) ∧
      .finalized (w.state.serial header) ∉ w.log := by
  obtain ⟨chunk,hchunk⟩ := (ho.mem_chunks header).mpr (Or.inl hr)
  have hhistory := hl.registered header hr chunk hchunk
  rw [State.serial_eq hchunk]
  constructor
  · intro batch hd
    have hmem : Event.detached chunk.serial batch ∈ history w.log chunk.serial :=
      mem_history.mpr ⟨hd,rfl⟩
    rw [hhistory] at hmem
    simp at hmem
  · intro hf
    have hmem : Event.finalized chunk.serial ∈ history w.log chunk.serial :=
      mem_history.mpr ⟨hf,rfl⟩
    rw [hhistory] at hmem
    simp at hmem

theorem Lifecycle.held_destructor (hl : Lifecycle w) (ho : Ownership w) {header destructor : ℕ}
    (hc : (header,Phase.detached) ∈ custody (w.control thread))
    (hp : .placed (w.state.serial header) (some destructor) ∈ w.log) :
    (w.state.header header).destructor = some destructor := by
  obtain ⟨chunk,hchunk⟩ := ho.held_chunk thread (List.mem_map_of_mem hc)
  have hpast := hl.held thread _ hc chunk hchunk
  rw [State.serial_eq hchunk] at hp
  have hmem : Event.placed chunk.serial (some destructor) ∈ history w.log chunk.serial :=
    mem_history.mpr ⟨hp,rfl⟩
  rw [State.header_eq hchunk]
  generalize history w.log chunk.serial = past at hpast hmem
  cases hpast with
  | detached batch =>
    have hmem : Event.placed chunk.serial (some destructor) =
        .placed chunk.serial chunk.header.destructor := by simpa using hmem
    exact (Event.placed.inj hmem).2.symm

theorem CallOrder.step (h : CallOrder w) (hbatches : Batches w) (hheap : HeapInvariant w.state)
    (ho : Ownership w) (ho' : Ownership w') (hl : Lifecycle w)
    (hcontrol : ∀ other, other ≠ thread → w'.control other = w.control other)
    (hm : Move thread w w') : CallOrder w' := by
  obtain ⟨events,hlog,hg⟩ := hm.growth hl ho
  have hheldOf : ∀ {stack : List Frame} {x : ℕ} {phase : Phase}, (x,phase) ∈ custody stack →
      x ∈ held stack := fun hx => List.mem_map_of_mem hx
  constructor
  · intro other left header right a batch destructor hc hb hp
    have hheader' : header ∈ held (w'.control other) := by
      rw [held, hc]
      simp
    have hserial : ∀ {x : ℕ}, x ∈ held (w.control other) → x ∈ held (w'.control other) →
        w'.state.serial x = w.state.serial x := hm.serial_eq ho ho' hheap
    -- A block that was pending before the step, with what came before it on the stack.
    have hold : ∀ {left₀ right₀ : List (ℕ × Phase)},
        custody (w.control other) = left₀ ++ (header,.detached) :: right₀ →
        (∀ x, (x,Phase.detached) ∈ left₀ → w.state.serial x = a →
          (x,Phase.detached) ∈ left ∨ .finalized a ∈ w'.log) →
        .finalized a ∈ w'.log ∨ ∃ x, (x,Phase.detached) ∈ left ∧ w'.state.serial x = a := by
      intro left₀ right₀ hc₀ hleft
      have hheader : header ∈ held (w.control other) := by
        rw [held, hc₀]
        simp
      rw [hserial hheader hheader'] at hb
      rcases h.kept ho hl hm hlog hg hc₀ hb hp with hf | ⟨x,hx,he⟩
      · rw [hlog]
        exact Or.inl (List.mem_append_left _ hf)
      · rcases hleft x hx he with hx' | hf
        · refine Or.inr ⟨x,hx',?_⟩
          rw [hserial (hheldOf (hc₀ ▸ List.mem_append_left _ hx))
            (hheldOf (hc ▸ List.mem_append_left _ hx')), he]
        · exact Or.inl hf
    by_cases hne : other = thread
    · subst hne
      cases hm with
      | stays hs hr hcustody hl' =>
        exact hold (hcustody ▸ hc) (fun x hx _ => Or.inl hx)
      | places region request hv hf hs hcustody hl' =>
        rw [hcustody] at hc
        rcases List.cons_eq_append_iff.mp hc with ⟨rfl,hrest⟩ | ⟨left₀,rfl,hrest⟩
        · simp at hrest
        · exact hold hrest (fun x hx _ => Or.inl (List.mem_cons_of_mem _ hx))
      | withdraws freed hs hr hcustody hl' =>
        rw [hcustody] at hc
        rcases List.cons_eq_append_iff.mp hc with ⟨rfl,hrest⟩ | ⟨left₀,rfl,hrest⟩
        · simp at hrest
        · exact hold hrest (fun x hx _ => Or.inl (List.mem_cons_of_mem _ hx))
      | registers placed hs hr hcustody hl' =>
        rw [hc, ← List.cons_append] at hcustody
        refine hold hcustody (fun x hx _ => Or.inl ?_)
        simpa using hx
      | frees freed phase hphase hchunks hnext hr hcustody hl' =>
        rw [hc, ← List.cons_append] at hcustody
        refine hold hcustody (fun x hx _ => Or.inl ?_)
        rcases List.mem_cons.mp hx with heq | hx
        · exact absurd (congrArg Prod.snd heq).symm hphase
        · exact hx
      | finalizes called L R hs hr hcustody hcustody' hl' hleft =>
        rw [hcustody'] at hc
        rcases List.append_eq_append_iff.mp hc with ⟨l,rfl,hl₁⟩ | ⟨l,rfl,hl₁⟩
        · rcases List.cons_eq_append_iff.mp hl₁ with ⟨rfl,hl₁⟩ | ⟨l,rfl,rfl⟩
          · simp at hl₁
          · have hsplit : custody (w.control other) =
                (L ++ (called,.detached) :: l) ++ (header,.detached) :: right := by
              rw [hcustody]
              simp
            refine hold hsplit (fun x hx he => ?_)
            rcases List.mem_append.mp hx with hx | hx
            · exact Or.inl (List.mem_append_left _ hx)
            · rcases List.mem_cons.mp hx with heq | hx
              · obtain ⟨rfl,-⟩ := Prod.mk.inj heq
                have hcalled : (x,Phase.detached) ∈ custody (w.control other) := by
                  rw [hcustody]
                  simp
                subst he
                have hp : Event.placed (w.state.serial x) (some destructor) ∈ w.log := by
                  rw [hl'] at hp
                  rcases List.mem_append.mp hp with hp | hp
                  · exact hp
                  · split_ifs at hp <;> simp at hp
                have hd := hl.held_destructor ho hcalled hp
                refine Or.inr ?_
                rw [hl', hd]
                simp
              · exact Or.inl (List.mem_append_right _ (List.mem_cons_of_mem _ hx))
        · rcases List.cons_eq_append_iff.mp hl₁ with ⟨rfl,hl₁⟩ | ⟨l,rfl,-⟩
          · simp at hl₁
          · have hphase := hleft (header,.detached) (by simp)
            cases hphase
      | detaches blocks hs hr hcustody hl' =>
        have hbelow : ∀ {left₀ : List (ℕ × Phase)},
            left = (blocks.map fun x => (x,Phase.detached)) ++ left₀ →
            custody (w.control other) = left₀ ++ (header,.detached) :: right →
            .finalized a ∈ w'.log ∨ ∃ x, (x,Phase.detached) ∈ left ∧ w'.state.serial x = a := by
          rintro left₀ rfl hc₀
          exact hold hc₀ (fun x hx _ => Or.inl (List.mem_append_right _ hx))
        rw [hcustody] at hc
        rcases List.append_eq_append_iff.mp hc with ⟨l,hleft,hl₁⟩ | ⟨l,hleft,hl₁⟩
        · exact hbelow hleft hl₁
        · rcases List.cons_eq_append_iff.mp hl₁ with ⟨rfl,hl₁⟩ | ⟨l,rfl,-⟩
          · rw [List.append_nil] at hleft
            exact hbelow (hleft.symm.trans (List.append_nil _).symm) hl₁.symm
          · obtain ⟨l₁,l₂,hblocks,rfl,hl₂⟩ := List.map_eq_append_iff.mp hleft
            obtain ⟨x,l₃,rfl,hx,-⟩ := List.map_eq_cons_iff.mp hl₂
            obtain ⟨rfl,-⟩ := Prod.mk.inj hx
            have hregistered : ∀ y ∈ blocks, y ∈ registered w.state := fun y hy =>
              hr.mem_iff.mpr (List.mem_append_left _ hy)
            have hnodup : blocks.Nodup := (List.nodup_append.mp
              (hr.nodup_iff.mp (List.nodup_append.mp (ho.nodup other)).1)).1
            have hmem : x ∈ blocks := hblocks ▸ by simp
            rw [hs.serial, hl'] at hb
            obtain ⟨y,hy,he⟩ := mem_of_detached hbatches hl hblocks hnodup
              (fun y hy => (ho.mem_chunks y).mpr (Or.inl (hregistered y hy)))
              ((hl.registered_new ho (hregistered x hmem)).1 batch) hb
            refine Or.inr ⟨y,List.mem_map_of_mem hy,?_⟩
            rw [hs.serial]
            exact he
    · rw [hcontrol other hne] at hc
      exact hold hc (fun x hx _ => Or.inl hx)
  · intro a b batch destructor hb hp hf
    have hpast : .detached b batch ∉ events → Before w.log (.detached a batch) (.detached b batch) ∧
        .placed a (some destructor) ∈ w.log := by
      intro hnew
      rw [hlog] at hb hp
      have hb := hb.of_append_left hnew
      refine ⟨hb,?_⟩
      rcases List.mem_append.mp hp with hp | hp
      · exact hp
      · exact absurd rfl (hg.fresh a _ hp _ hb.mem_left)
    rw [hlog] at hf ⊢
    rcases List.mem_append.mp hf with hf | hf
    · have hnew : Event.detached b batch ∉ events := by
        intro hd
        obtain ⟨⟨x,hx,rfl⟩,-⟩ := hm.detached_registered hlog hd
        exact (hl.registered_new ho hx).2 hf
      obtain ⟨hb,hp⟩ := hpast hnew
      exact (h.ordered a b batch destructor hb hp hf).append_right _
    · obtain ⟨hb,hp⟩ := hpast (fun hd => (hm.detached_registered hlog hd).2 b hf)
      obtain ⟨header,left,right,hc,rfl,hleft⟩ := hm.finalized_pending hlog hf
      rcases h.pending thread left header right a batch destructor hc hb hp with ha | ⟨x,hx,-⟩
      · exact Before.of_append ha hf
      · cases hleft _ hx

end

theorem ReachableWorld.callOrder {w : World} (h : ReachableWorld w) : CallOrder w := by
  refine h.induction (fun memory => ?_) (fun label w w' hr hb hstep => ?_)
  · constructor
    · intro thread left header right a batch destructor hc
      simp [World.initial, custody] at hc
    · intro a b batch destructor hb
      exact absurd hb.mem_left (by simp [World.initial])
  · exact hb.step hr.batches hr.invariant.heap hr.invariant.ownership
      (hr.invariant.step hstep).ownership hr.lifecycle (hr.control hstep) (hr.move hstep)

end GcLib.Protocol
