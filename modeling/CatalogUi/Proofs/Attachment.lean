import CatalogUi.Proofs.Board

/-!
Views and a store, one operation at a time. In a well-kept store every listener is that of a view or
knows nothing of marks, and every mark is older than the next one. An attached view has its listener
and its mark there, and what is done with one view leaves all that another sees as it was.
-/

namespace CatalogUi

/-- The store has only listeners that leave marks in order. -/
structure Store.WellKept {σ : Type} (s : Store (Board σ)) : Prop where
  numbered : s.Numbered
  polite : ∀ entry ∈ s.listeners, s.memory.Polite entry.2
  marks_below : ∀ m, (s.memory.mark? m).isSome → m.number < s.memory.nextMark

/-- Rendering sees the data and the revision of a store only. -/
theorem ValidatedTree.render_congr {O σ τ : Type} {tree : ValidatedTree}
    {registry : VerifiedRegistry O} {s : Store σ} {t : Store τ} (hdata : t.data = s.data)
    (hrevision : t.revision = s.revision) : tree.render registry t = tree.render registry s := by
  rw [render, render, hdata, hrevision]

namespace LiveView

variable {O σ : Type}

/-- The pass of a view that is rendered anew. -/
def rendered (v : LiveView O) (s : Store σ) : Pass O := v.tree.render v.registry s

/-- The view has its listener and its mark. -/
structure Attached (v : LiveView O) (s : Store (Board σ)) : Prop where
  listens : (v.listener, Board.listener v.mark) ∈ s.listeners
  marked : (s.memory.mark? v.mark).isSome

/-- What a view sees of a store is as it was. -/
structure Unmoved (v : LiveView O) (s t : Store (Board σ)) : Prop where
  data_eq : t.data = s.data
  revision_eq : t.revision = s.revision
  mark_eq : t.memory.mark? v.mark = s.memory.mark? v.mark
  listens : (v.listener, Board.listener v.mark) ∈ s.listeners →
    (v.listener, Board.listener v.mark) ∈ t.listeners

variable {v w : LiveView O} {s t : Store (Board σ)}

theorem Unmoved.refl (v : LiveView O) (s : Store (Board σ)) : v.Unmoved s s := ⟨rfl, rfl, rfl, id⟩

theorem Unmoved.attached (h : v.Unmoved s t) (hv : v.Attached s) : v.Attached t :=
  ⟨h.listens hv.listens, h.mark_eq ▸ hv.marked⟩

theorem Unmoved.isStale_eq (h : v.Unmoved s t) : v.isStale t = v.isStale s := by
  rw [isStale, isStale, h.mark_eq]

theorem Unmoved.rendered_eq (h : v.Unmoved s t) : v.rendered t = v.rendered s :=
  ValidatedTree.render_congr h.data_eq h.revision_eq

theorem isStale_iff (hv : v.Attached s) :
    v.isStale s = true ↔ v.last = none ∨ s.memory.mark? v.mark = some true := by
  obtain ⟨stale, hstale⟩ := Option.isSome_iff_exists.1 hv.marked
  rw [isStale, hstale]
  cases v.last <;> simp

/-! ## Asking for a pass -/

/-- The pass of a view, from a renderer that may do more than render. -/
def currentBy {m : Type → Type} [Monad m] (render : LiveView O → Store (Board σ) → m (Pass O))
    (v : LiveView O) (s : Store (Board σ)) : m (Pass O × LiveView O × Store (Board σ)) :=
  match v.last, v.isStale s with
  | some pass, false => pure (pass, v, s)
  | _, _ => do
    let pass ← render v s
    pure (pass, { v with last := some pass }, { s with memory := s.memory.set v.mark false })

/-- Renders, and counts that. -/
def counting (v : LiveView O) (s : Store (Board σ)) : StateM Nat (Pass O) := do
  modify (· + 1)
  pure (v.rendered s)

theorem current_eq_currentBy (v : LiveView O) (s : Store (Board σ)) :
    v.current s = Id.run (v.currentBy (fun v s => pure (v.rendered s)) s) := by
  rw [current, currentBy]
  cases v.last <;> cases v.isStale s <;> rfl

theorem current_of_stale (h : v.isStale s = true) : v.current s =
    (v.rendered s, { v with last := some (v.rendered s) },
      { s with memory := s.memory.set v.mark false }) := by
  rw [current, h]
  cases v.last <;> rfl

theorem exists_pass (h : v.isStale s = false) :
    ∃ pass, v.last = some pass ∧ v.current s = (pass, v, s) := by
  cases hlast : v.last with
  | none =>
    rw [isStale, hlast] at h
    cases h
  | some pass =>
    refine ⟨pass, rfl, ?_⟩
    rw [current, hlast, h]

theorem run_counting_of_stale (h : v.isStale s = true) (count : Nat) :
    (v.currentBy counting s).run count = (v.current s, count + 1) := by
  rw [current_of_stale h, currentBy, h]
  cases v.last <;> rfl

theorem run_counting_of_not_stale (h : v.isStale s = false) (count : Nat) :
    (v.currentBy counting s).run count = (v.current s, count) := by
  obtain ⟨pass, hlast, hcurrent⟩ := exists_pass h
  rw [hcurrent, currentBy, hlast, h]
  rfl

theorem current_view (v : LiveView O) (s : Store (Board σ)) :
    (v.current s).2.1 = { v with last := some (v.current s).1 } := by
  cases h : v.isStale s with
  | true => rw [current_of_stale h]
  | false =>
    obtain ⟨pass, hlast, hcurrent⟩ := exists_pass h
    rw [hcurrent, ← hlast]

/-- Only the mark of the view can be another after it was asked. -/
theorem current_store (v : LiveView O) (s : Store (Board σ)) :
    ∃ board, (v.current s).2.2 = { s with memory := board } ∧
      board.nextMark = s.memory.nextMark ∧
      (∀ m, (board.mark? m).isSome = (s.memory.mark? m).isSome) ∧
      ∀ m, m ≠ v.mark → board.mark? m = s.memory.mark? m := by
  cases h : v.isStale s with
  | true =>
    rw [current_of_stale h]
    refine ⟨_, rfl, rfl, fun m => Board.isSome_mark?_set, fun m hm => ?_⟩
    rw [Board.mark?_set, if_neg hm]
  | false =>
    obtain ⟨pass, -, hcurrent⟩ := exists_pass h
    rw [hcurrent]
    exact ⟨_, rfl, rfl, fun _ => rfl, fun _ _ => rfl⟩

/-- Asking for a pass takes no view away. -/
theorem Attached.current (hw : w.Attached s) (v : LiveView O) : w.Attached (v.current s).2.2 := by
  obtain ⟨board, hstore, -, hmarks, -⟩ := v.current_store s
  rw [hstore]
  exact ⟨hw.listens, hmarks w.mark ▸ hw.marked⟩

/-! ## What one view leaves alone -/

theorem unmoved_subscribe (v : LiveView O) (s : Store (Board σ)) (listener : Listener (Board σ)) :
    v.Unmoved s (s.subscribe listener).2 :=
  ⟨rfl, rfl, rfl, List.mem_append_left _⟩

theorem Attached.unmoved_attach (hv : v.Attached s) (tree : ValidatedTree)
    (registry : VerifiedRegistry O) : v.Unmoved s (attach tree registry s).2 where
  data_eq := rfl
  revision_eq := rfl
  mark_eq := by
    obtain ⟨stale, hstale⟩ := Option.isSome_iff_exists.1 hv.marked
    change s.memory.add.2.mark? v.mark = _
    rw [Board.mark?_add, hstale, Option.some_or]
  listens := List.mem_append_left _

theorem unmoved_current (h : w.mark ≠ v.mark) : w.Unmoved s (v.current s).2.2 := by
  obtain ⟨board, hstore, -, -, hothers⟩ := v.current_store s
  rw [hstore]
  exact ⟨rfl, rfl, hothers w.mark h, id⟩

theorem unmoved_drop (h : w.mark ≠ v.mark) : w.Unmoved s (v.drop s) where
  data_eq := rfl
  revision_eq := rfl
  mark_eq := by
    change (s.memory.remove v.mark).mark? w.mark = _
    rw [Board.mark?_remove, if_neg h]
  listens := id

theorem unmoved_detach (hmark : w.mark ≠ v.mark) (hlistener : w.listener ≠ v.listener) :
    w.Unmoved s (v.detach s).2 where
  data_eq := rfl
  revision_eq := rfl
  mark_eq := (unmoved_drop hmark).mark_eq
  listens h := List.mem_filter.2 ⟨h, decide_eq_true hlistener⟩

theorem attached_attach (s : Store (Board σ)) (tree : ValidatedTree)
    (registry : VerifiedRegistry O) :
    (attach tree registry s).1.Attached (attach tree registry s).2 where
  listens := List.mem_append_right _ (List.mem_singleton_self _)
  marked := by
    change (s.memory.add.2.mark? s.memory.add.1).isSome
    rw [Board.mark?_add, if_pos rfl]
    cases s.memory.mark? s.memory.add.1 <;> rfl

/-- Detaching takes away the listener of the view and no other. -/
theorem detach_listeners (hs : s.WellKept) (hv : v.Attached s) : (v.detach s).1 = true ∧
    ∃ before after, s.listeners = before ++ (v.listener, Board.listener v.mark) :: after ∧
      (v.detach s).2.listeners = before ++ after := by
  have hids : v.listener ∈ (v.drop s).ids := List.mem_map_of_mem hv.listens
  obtain ⟨before, after, hsplit⟩ := List.mem_iff_append.1 hv.listens
  have hdrop : (v.drop s).listeners = before ++ (v.listener, Board.listener v.mark) :: after :=
    hsplit
  exact ⟨Store.unsubscribe_iff.2 hids, before, after, hsplit,
    Store.listeners_without hdrop hs.numbered.nodup⟩

end LiveView

namespace Store

variable {O σ : Type} {s t : Store (Board σ)} {v : LiveView O} {p : Path} {value : Value}

/-! ## What keeps a store in order -/

theorem wellKept_create (data : Value) (rest : σ) : (create data (Board.create rest)).WellKept where
  numbered := .create data _
  polite := nofun
  marks_below := nofun

/-- Marks may be set and taken away. -/
theorem WellKept.of_board {board : Board σ} (hs : s.WellKept)
    (hnext : board.nextMark = s.memory.nextMark)
    (hmarks : ∀ m, (board.mark? m).isSome → (s.memory.mark? m).isSome) :
    ({ s with memory := board } : Store (Board σ)).WellKept where
  numbered := ⟨hs.numbered.nodup, hs.numbered.below⟩
  polite entry hmem := (hs.polite entry hmem).of_nextMark (Nat.le_of_eq hnext.symm)
  marks_below m hm := by
    rw [hnext]
    exact hs.marks_below m (hmarks m hm)

theorem WellKept.subscribe {listener : Listener (Board σ)} (hs : s.WellKept)
    (hlistener : s.memory.Polite listener) : (s.subscribe listener).2.WellKept where
  numbered := hs.numbered.happens (happens_subscribe s listener)
  polite entry hmem := by
    rcases List.mem_append.1 hmem with hmem | hmem
    · exact hs.polite entry hmem
    · rw [List.mem_singleton.1 hmem]
      exact hlistener
  marks_below := hs.marks_below

theorem WellKept.unsubscribe (hs : s.WellKept) (id : ListenerId) :
    (s.unsubscribe id).2.WellKept where
  numbered := hs.numbered.happens (happens_unsubscribe s id)
  polite entry hmem := hs.polite entry (List.mem_of_mem_filter hmem)
  marks_below := hs.marks_below

theorem WellKept.attach (hs : s.WellKept) (tree : ValidatedTree) (registry : VerifiedRegistry O) :
    (LiveView.attach tree registry s).2.WellKept := by
  have hadd : ({ s with memory := s.memory.add.2 } : Store (Board σ)).WellKept := by
    refine ⟨⟨hs.numbered.nodup, hs.numbered.below⟩, fun entry hmem => ?_, fun m hm => ?_⟩
    · exact (hs.polite entry hmem).of_nextMark (Nat.le_succ _)
    · change (s.memory.add.2.mark? m).isSome at hm
      rw [Board.mark?_add, Option.isSome_or, Bool.or_eq_true] at hm
      rcases hm with hm | hm
      · exact Nat.lt_succ_of_lt (hs.marks_below m hm)
      · split at hm
        · subst m
          exact Nat.lt_succ_self _
        · cases hm
  exact hadd.subscribe (.view _ (Nat.lt_succ_self _))

theorem WellKept.current (hs : s.WellKept) (v : LiveView O) : (v.current s).2.2.WellKept := by
  obtain ⟨board, hstore, hnext, hmarks, -⟩ := v.current_store s
  rw [hstore]
  exact hs.of_board hnext fun m hm => hmarks m ▸ hm

theorem WellKept.drop (hs : s.WellKept) (v : LiveView O) : (v.drop s).WellKept := by
  refine hs.of_board rfl fun m hm => ?_
  rw [Board.mark?_remove] at hm
  split at hm
  · cases hm
  · exact hm

theorem WellKept.detach (hs : s.WellKept) (v : LiveView O) : (v.detach s).2.WellKept :=
  (hs.drop v).unsubscribe v.listener

/-! ## Writes -/

theorem told_of_write (hs : s.WellKept) (h : s.write p value = .ok t) :
    Board.Told s.memory s.listeners (t.listeners, t.memory) := by
  obtain ⟨data, -, rfl⟩ := write_ok_iff.1 h
  exact Board.told_notify hs.polite

theorem WellKept.write (hs : s.WellKept) (h : s.write p value = .ok t) : t.WellKept := by
  have htold := told_of_write hs h
  constructor
  case numbered => exact hs.numbered.happens (happens_write_ok hs.numbered h)
  case polite =>
    intro entry hmem
    exact (hs.polite entry (htold.sublist.subset hmem)).of_nextMark
      (Nat.le_of_eq htold.raised.nextMark_eq.symm)
  case marks_below =>
    intro m hm
    rw [htold.raised.nextMark_eq]
    exact hs.marks_below m (htold.raised.isSome_eq m ▸ hm)

/-- A write leaves every attached view attached, and makes it stale. -/
theorem attached_of_write (hs : s.WellKept) (hv : v.Attached s) (h : s.write p value = .ok t) :
    v.Attached t ∧ v.isStale t = true := by
  have htold := told_of_write hs h
  obtain ⟨hthere, htrue⟩ := htold.stays v.listener v.mark hv.listens hv.marked
  have hattached : v.Attached t := ⟨hthere, by rw [htrue, Option.isSome_some]⟩
  exact ⟨hattached, (LiveView.isStale_iff hattached).2 (.inr htrue)⟩

/-! ## Listeners without a view -/

/-- From one store to a later one, no listener and no mark that was gone comes back. -/
structure Later (s t : Store (Board σ)) : Prop where
  nextListener_le : s.nextListener ≤ t.nextListener
  nextMark_le : s.memory.nextMark ≤ t.memory.nextMark
  listeners : ∀ entry ∈ t.listeners, entry ∈ s.listeners ∨ s.nextListener ≤ entry.1.number
  marks : ∀ m, m.number < s.memory.nextMark → s.memory.mark? m = none → t.memory.mark? m = none

/-- A listener that was given out and, if it is still there, has lost its mark. -/
structure Leaving (id : ListenerId) (s : Store (Board σ)) : Prop where
  below : id.number < s.nextListener
  unmarked : ∀ listener, (id, listener) ∈ s.listeners → ∃ m, listener = Board.listener m ∧
    m.number < s.memory.nextMark ∧ s.memory.mark? m = none

variable {u : Store (Board σ)} {id : ListenerId}

theorem Later.refl (s : Store (Board σ)) : Later s s :=
  ⟨Nat.le_refl _, Nat.le_refl _, fun _ => .inl, fun _ _ hnone => hnone⟩

theorem Later.trans (h : Later s t) (h' : Later t u) : Later s u where
  nextListener_le := Nat.le_trans h.nextListener_le h'.nextListener_le
  nextMark_le := Nat.le_trans h.nextMark_le h'.nextMark_le
  listeners entry hmem := by
    rcases h'.listeners entry hmem with hmem | hnew
    · exact h.listeners entry hmem
    · exact .inr (Nat.le_trans h.nextListener_le hnew)
  marks m hm hnone := h'.marks m (Nat.lt_of_lt_of_le hm h.nextMark_le) (h.marks m hm hnone)

theorem later_of_board {board : Board σ} (hnext : s.memory.nextMark ≤ board.nextMark)
    (hmarks : ∀ m, m.number < s.memory.nextMark → s.memory.mark? m = none → board.mark? m = none) :
    Later s { s with memory := board } :=
  ⟨Nat.le_refl _, hnext, fun _ => .inl, hmarks⟩

theorem later_subscribe (s : Store (Board σ)) (listener : Listener (Board σ)) :
    Later s (s.subscribe listener).2 where
  nextListener_le := Nat.le_succ _
  nextMark_le := Nat.le_refl _
  listeners entry hmem := by
    rcases List.mem_append.1 hmem with hmem | hmem
    · exact .inl hmem
    · rw [List.mem_singleton.1 hmem]
      exact .inr (Nat.le_refl _)
  marks _ _ hnone := hnone

theorem later_unsubscribe (s : Store (Board σ)) (id : ListenerId) :
    Later s (s.unsubscribe id).2 :=
  ⟨Nat.le_refl _, Nat.le_refl _, fun _ hmem => .inl (List.mem_of_mem_filter hmem),
    fun _ _ hnone => hnone⟩

theorem later_attach (s : Store (Board σ)) (tree : ValidatedTree) (registry : VerifiedRegistry O) :
    Later s (LiveView.attach tree registry s).2 := by
  have hadd : Later s { s with memory := s.memory.add.2 } := by
    refine later_of_board (Nat.le_succ _) fun m hm hnone => ?_
    rw [Board.mark?_add, hnone, Option.none_or, if_neg]
    rintro rfl
    exact Nat.lt_irrefl _ hm
  exact hadd.trans (later_subscribe _ _)

theorem later_current (s : Store (Board σ)) (v : LiveView O) : Later s (v.current s).2.2 := by
  obtain ⟨board, hstore, hnext, hmarks, -⟩ := v.current_store s
  rw [hstore]
  refine later_of_board (Nat.le_of_eq hnext.symm) fun m _ hnone => ?_
  rw [← Option.not_isSome_iff_eq_none, hmarks, hnone]
  exact Bool.false_ne_true

theorem later_drop (s : Store (Board σ)) (v : LiveView O) : Later s (v.drop s) := by
  refine later_of_board (Nat.le_refl _) fun m _ hnone => ?_
  rw [Board.mark?_remove, hnone]
  split <;> rfl

theorem later_detach (s : Store (Board σ)) (v : LiveView O) : Later s (v.detach s).2 :=
  (later_drop s v).trans (later_unsubscribe _ _)

theorem later_write (hs : s.WellKept) (h : s.write p value = .ok t) : Later s t := by
  have htold := told_of_write hs h
  obtain ⟨data, -, rfl⟩ := write_ok_iff.1 h
  refine ⟨Nat.le_refl _, Nat.le_of_eq htold.raised.nextMark_eq.symm,
    fun entry hmem => .inl (htold.sublist.subset hmem), fun m _ hnone => ?_⟩
  rw [← Option.not_isSome_iff_eq_none, htold.raised.isSome_eq, hnone]
  exact Bool.false_ne_true

theorem Leaving.later (hid : Leaving id s) (h : Later s t) : Leaving id t where
  below := Nat.lt_of_lt_of_le hid.below h.nextListener_le
  unmarked listener hmem := by
    rcases h.listeners _ hmem with hmem | hnew
    · obtain ⟨m, hlistener, hm, hnone⟩ := hid.unmarked listener hmem
      exact ⟨m, hlistener, Nat.lt_of_lt_of_le hm h.nextMark_le, h.marks m hm hnone⟩
    · exact absurd hnew (Nat.not_le.2 hid.below)

theorem Leaving.not_mem_later (hid : Leaving id s) (h : Later s t) (hgone : id ∉ s.ids) :
    id ∉ t.ids := by
  intro hmem
  obtain ⟨entry, hentry, rfl⟩ := List.mem_map.1 hmem
  rcases h.listeners entry hentry with hold | hnew
  · exact hgone (List.mem_map_of_mem hold)
  · exact absurd hnew (Nat.not_le.2 hid.below)

/-- A write sends away a listener without its mark. -/
theorem Leaving.not_mem_of_write (hid : Leaving id s) (hs : s.WellKept)
    (h : s.write p value = .ok t) : id ∉ t.ids := by
  intro hmem
  have htold := told_of_write hs h
  obtain ⟨⟨_, listener⟩, hentry, rfl⟩ := List.mem_map.1 hmem
  obtain ⟨m, rfl, -, hnone⟩ := hid.unmarked listener (htold.sublist.subset hentry)
  have hsome := htold.leaves _ m hentry
  rw [hnone] at hsome
  cases hsome

theorem leaving_drop (hs : s.WellKept) (hv : v.Attached s) : Leaving v.listener (v.drop s) where
  below := hs.numbered.below v.listener (List.mem_map_of_mem hv.listens)
  unmarked listener hmem := by
    have hlistener : listener = Board.listener v.mark := by
      have heq := List.inj_on_of_nodup_map hs.numbered.nodup hmem hv.listens rfl
      cases heq
      rfl
    refine ⟨v.mark, hlistener, hs.marks_below v.mark hv.marked, ?_⟩
    change (s.memory.remove v.mark).mark? v.mark = none
    rw [Board.mark?_remove, if_pos rfl]

end Store

end CatalogUi
