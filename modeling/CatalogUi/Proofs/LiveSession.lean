import CatalogUi.Proofs.Attachment
import Mathlib.Data.List.Pairwise

/-!
Sessions with views. Views of one store are attached, asked for their passes, detached and dropped,
while the store is written to and others listen to it too. Every operation is taken apart into events,
a batch into its single writes; what holds before an event and after it is what keeps the views, their
marks and their listeners together.
-/

namespace CatalogUi

/-- A store with views, each of which is named by its listener. -/
structure Session (O σ : Type) where
  store : Store (Board σ)
  views : List (LiveView O)

namespace Session

variable {O σ : Type}

def start (data : Value) (rest : σ) : Session O σ := ⟨.create data (.create rest), []⟩

/-- What can be done in a session. -/
inductive Operation (O σ : Type) where
  | attach (tree : ValidatedTree) (registry : VerifiedRegistry O)
  /-- Someone who has nothing to do with views listens to the store. -/
  | listen (listen : Listener σ)
  | current (id : ListenerId)
  | detach (id : ListenerId)
  | drop (id : ListenerId)
  | write (p : Path) (v : Value)
  | writeAll (batch : List (Path × Value))

def view? (s : Session O σ) (id : ListenerId) : Option (LiveView O) :=
  s.views.find? (·.listener = id)

/-! ## Operations -/

def attached (s : Session O σ) (tree : ValidatedTree) (registry : VerifiedRegistry O) :
    Session O σ :=
  let attached := LiveView.attach tree registry s.store
  ⟨attached.2, s.views ++ [attached.1]⟩

def listened (s : Session O σ) (listen : Listener σ) : Session O σ :=
  ⟨(s.store.subscribe (Board.lifted listen)).2, s.views⟩

/-- A view has been asked for its pass. -/
def asked (s : Session O σ) (v : LiveView O) : Session O σ :=
  let now := v.current s.store
  ⟨now.2.2, s.views.map fun w => if w.listener = v.listener then now.2.1 else w⟩

def detached (s : Session O σ) (v : LiveView O) : Session O σ :=
  ⟨(v.detach s.store).2, s.views.filter (·.listener ≠ v.listener)⟩

def dropped (s : Session O σ) (v : LiveView O) : Session O σ :=
  ⟨v.drop s.store, s.views.filter (·.listener ≠ v.listener)⟩

def perform (s : Session O σ) : Operation O σ → Session O σ
  | .attach tree registry => s.attached tree registry
  | .listen listen => s.listened listen
  | .current id => (s.view? id).elim s s.asked
  | .detach id => (s.view? id).elim s s.detached
  | .drop id => (s.view? id).elim s s.dropped
  | .write p v =>
    match s.store.write p v with
    | .ok store => { s with store := store }
    | .error _ => s
  | .writeAll batch => { s with store := (s.store.writeAll batch).1 }

def run (s : Session O σ) (operations : List (Operation O σ)) : Session O σ :=
  operations.foldl perform s

/-! ## Events -/

inductive Event where
  | attached (id : ListenerId)
  | listened (id : ListenerId)
  | asked (id : ListenerId)
  | detached (id : ListenerId)
  | dropped (id : ListenerId)
  /-- A write has succeeded. -/
  | changed (p : Path) (v : Value)
  | refused (p : Path) (e : BindingError)

/-- One event takes a session to another. -/
inductive Does : Session O σ → Event → Session O σ → Prop
  | attached (s : Session O σ) (tree : ValidatedTree) (registry : VerifiedRegistry O) :
      Does s (.attached ⟨s.store.nextListener⟩) (s.attached tree registry)
  | listened (s : Session O σ) (listen : Listener σ) :
      Does s (.listened ⟨s.store.nextListener⟩) (s.listened listen)
  | asked {s : Session O σ} {v : LiveView O} (hv : v ∈ s.views) :
      Does s (.asked v.listener) (s.asked v)
  | detached {s : Session O σ} {v : LiveView O} (hv : v ∈ s.views) :
      Does s (.detached v.listener) (s.detached v)
  | dropped {s : Session O σ} {v : LiveView O} (hv : v ∈ s.views) :
      Does s (.dropped v.listener) (s.dropped v)
  | changed {s : Session O σ} {p : Path} {v : Value} {store : Store (Board σ)}
      (h : s.store.write p v = .ok store) : Does s (.changed p v) { s with store := store }
  | refused {s : Session O σ} {p : Path} {v : Value} {e : BindingError}
      (h : s.store.write p v = .error e) : Does s (.refused p e) s

/-- The events of writes up to the first one that is refused. -/
def writesEvents (store : Store (Board σ)) : List (Path × Value) → List Event
  | [] => []
  | (p, v) :: rest =>
    match store.write p v with
    | .ok store => .changed p v :: writesEvents store rest
    | .error e => [.refused p e]

/-- The events of an operation. One that is about a view that is not there has none. -/
def happenings (s : Session O σ) : Operation O σ → List Event
  | .attach tree registry => [.attached (LiveView.attach tree registry s.store).1.listener]
  | .listen listen => [.listened (s.store.subscribe (Board.lifted listen)).1]
  | .current id => (s.view? id).elim [] fun _ => [.asked id]
  | .detach id => (s.view? id).elim [] fun _ => [.detached id]
  | .drop id => (s.view? id).elim [] fun _ => [.dropped id]
  | .write p v => writesEvents s.store [(p, v)]
  | .writeAll batch => writesEvents s.store (Store.batchOrder batch)

/-- The events of operations, one after the other. -/
def history (s : Session O σ) : List (Operation O σ) → List Event
  | [] => []
  | operation :: rest => s.happenings operation ++ (s.perform operation).history rest

variable {s t : Session O σ} {events more : List Event} {event : Event} {v w : LiveView O}
  {id : ListenerId}

theorem mem_views_of_view? (h : s.view? id = some v) : v ∈ s.views ∧ v.listener = id :=
  ⟨List.mem_of_find?_eq_some h, by simpa using List.find?_some h⟩

theorem happens_writes (s : Session O σ) (batch : List (Path × Value)) :
    Happens Does s (writesEvents s.store batch)
      { s with store := (s.store.writeInOrder batch).1 } := by
  induction batch generalizing s with
  | nil => exact .start
  | cons entry rest ih =>
    obtain ⟨p, v⟩ := entry
    rw [writesEvents, Store.writeInOrder]
    cases h : s.store.write p v with
    | ok store => exact .cons (.changed h) (ih { s with store := store })
    | error e => exact .single (.refused h)

/-- What is done with a view that is there, and nothing otherwise. -/
theorem happens_elim {step : LiveView O → Session O σ} {event : ListenerId → Event}
    (h : ∀ v ∈ s.views, Does s (event v.listener) (step v)) :
    Happens Does s ((s.view? id).elim [] fun _ => [event id]) ((s.view? id).elim s step) := by
  cases hv : s.view? id with
  | none => exact .start
  | some v =>
    obtain ⟨hmem, rfl⟩ := mem_views_of_view? hv
    exact .single (h v hmem)

theorem happens_perform (s : Session O σ) (operation : Operation O σ) :
    Happens Does s (s.happenings operation) (s.perform operation) := by
  cases operation with
  | attach tree registry => exact .single (.attached s tree registry)
  | listen listen => exact .single (.listened s listen)
  | current id => exact happens_elim fun v hv => .asked hv
  | detach id => exact happens_elim fun v hv => .detached hv
  | drop id => exact happens_elim fun v hv => .dropped hv
  | write p v =>
    rw [happenings, perform, writesEvents]
    cases h : s.store.write p v with
    | ok store => exact .single (.changed h)
    | error e => exact .single (.refused h)
  | writeAll batch => exact happens_writes s (Store.batchOrder batch)

/-- A run does what its history says. -/
theorem happens_run (s : Session O σ) (operations : List (Operation O σ)) :
    Happens Does s (s.history operations) (s.run operations) := by
  induction operations generalizing s with
  | nil => exact .start
  | cons operation rest ih => exact (s.happens_perform operation).append (ih _)

/-! ## Views, listeners and marks -/

/-- Two views share neither a listener nor a mark. -/
structure Apart (v w : LiveView O) : Prop where
  listener_ne : v.listener ≠ w.listener
  mark_ne : v.mark ≠ w.mark

instance : Std.Symm (Apart (O := O)) where
  symm _ _ h := ⟨h.listener_ne.symm, h.mark_ne.symm⟩

/-- Every view has a listener and a mark of its own. -/
structure Paired (s : Session O σ) : Prop where
  kept : s.store.WellKept
  attached : ∀ v ∈ s.views, v.Attached s.store
  apart : s.views.Pairwise Apart

theorem Paired.start (data : Value) (rest : σ) : Paired (start data rest : Session O σ) :=
  ⟨Store.wellKept_create data rest, nofun, .nil⟩

theorem Paired.eq_of_listener (hs : Paired s) (hv : v ∈ s.views) (hw : w ∈ s.views)
    (h : w.listener = v.listener) : w = v := by
  by_contra hne
  exact (hs.apart.forall hw hv hne).listener_ne h

theorem Paired.mark_ne (hs : Paired s) (hv : v ∈ s.views) (hw : w ∈ s.views)
    (h : w.listener ≠ v.listener) : w.mark ≠ v.mark := by
  refine (hs.apart.forall hw hv ?_).mark_ne
  rintro rfl
  exact h rfl

theorem Paired.view?_eq (hs : Paired s) (hv : v ∈ s.views) : s.view? v.listener = some v := by
  cases h : s.view? v.listener with
  | none =>
    have hnone := List.find?_eq_none.1 h v hv
    simp at hnone
  | some w =>
    obtain ⟨hw, hlistener⟩ := mem_views_of_view? h
    rw [hs.eq_of_listener hv hw hlistener]

/-- After a view was asked, there is that view with its pass, and the others. -/
theorem mem_views_asked (h : w ∈ (s.asked v).views) :
    w = { v with last := some (v.current s.store).1 } ∨ w ∈ s.views ∧ w.listener ≠ v.listener := by
  obtain ⟨w', hw', rfl⟩ := List.mem_map.1 h
  split
  · exact .inl (v.current_view s.store)
  · exact .inr ⟨hw', ‹_›⟩

theorem mem_views_asked_of_ne (hw : w ∈ s.views) (h : w.listener ≠ v.listener) :
    w ∈ (s.asked v).views :=
  List.mem_map.2 ⟨w, hw, if_neg h⟩

theorem mem_views_filter : w ∈ s.views.filter (·.listener ≠ v.listener) ↔
    w ∈ s.views ∧ w.listener ≠ v.listener := by
  rw [List.mem_filter, decide_eq_true_eq]

/-- Asking a view for its pass changes neither the listeners nor the marks of views. -/
theorem Paired.apart_asked (hs : Paired s) (hv : v ∈ s.views) :
    (s.asked v).views.Pairwise Apart := by
  have hsame : ∀ w ∈ s.views,
      (if w.listener = v.listener then (v.current s.store).2.1 else w).listener = w.listener ∧
      (if w.listener = v.listener then (v.current s.store).2.1 else w).mark = w.mark := by
    intro w hw
    split
    · rw [hs.eq_of_listener hv hw ‹_›, v.current_view s.store]
      exact ⟨rfl, rfl⟩
    · exact ⟨rfl, rfl⟩
  refine List.pairwise_map.2 (hs.apart.imp_of_mem fun {a b} ha hb hab => ⟨?_, ?_⟩)
  · rw [(hsame a ha).1, (hsame b hb).1]
    exact hab.listener_ne
  · rw [(hsame a ha).2, (hsame b hb).2]
    exact hab.mark_ne

theorem Paired.does (hs : Paired s) (h : Does s event t) : Paired t := by
  cases h with
  | attached tree registry =>
    refine ⟨hs.kept.attach tree registry, fun w hw => ?_, ?_⟩
    · rcases List.mem_append.1 hw with hw | hw
      · have hattached := hs.attached w hw
        exact (hattached.unmoved_attach tree registry).attached hattached
      · rw [List.mem_singleton.1 hw]
        exact LiveView.attached_attach s.store tree registry
    · refine List.pairwise_append.2 ⟨hs.apart, List.pairwise_singleton _ _, fun w hw v hv => ?_⟩
      rw [List.mem_singleton.1 hv]
      -- What is there is older than the listener and the mark that are given out.
      have hattached := hs.attached w hw
      have hlistener := hs.kept.numbered.below w.listener (List.mem_map_of_mem hattached.listens)
      have hmark := hs.kept.marks_below w.mark hattached.marked
      refine ⟨fun heq => ?_, fun heq => ?_⟩
      · rw [heq] at hlistener
        exact Nat.lt_irrefl _ hlistener
      · rw [heq] at hmark
        exact Nat.lt_irrefl _ hmark
  | listened listen =>
    exact ⟨hs.kept.subscribe (.lifted listen),
      fun w hw => (w.unmoved_subscribe s.store _).attached (hs.attached w hw), hs.apart⟩
  | @asked v hv =>
    refine ⟨hs.kept.current v, fun w hw => ?_, hs.apart_asked hv⟩
    rcases mem_views_asked hw with rfl | ⟨hw, -⟩
    · have hattached := (hs.attached v hv).current v
      exact ⟨hattached.listens, hattached.marked⟩
    · exact (hs.attached w hw).current v
  | detached hv =>
    refine ⟨hs.kept.detach _, fun w hw => ?_, hs.apart.filter _⟩
    obtain ⟨hw, hne⟩ := mem_views_filter.1 hw
    exact (LiveView.unmoved_detach (hs.mark_ne hv hw hne) hne).attached (hs.attached w hw)
  | dropped hv =>
    refine ⟨hs.kept.drop _, fun w hw => ?_, hs.apart.filter _⟩
    obtain ⟨hw, hne⟩ := mem_views_filter.1 hw
    exact (LiveView.unmoved_drop (hs.mark_ne hv hw hne)).attached (hs.attached w hw)
  | changed h =>
    exact ⟨hs.kept.write h, fun w hw => (Store.attached_of_write hs.kept (hs.attached w hw) h).1,
      hs.apart⟩
  | refused => exact hs

theorem Does.later (h : Does s event t) (hs : Paired s) : Store.Later s.store t.store := by
  cases h with
  | attached tree registry => exact Store.later_attach s.store tree registry
  | listened listen => exact Store.later_subscribe s.store _
  | asked => exact Store.later_current s.store _
  | detached => exact Store.later_detach s.store _
  | dropped => exact Store.later_drop s.store _
  | changed h => exact Store.later_write hs.kept h
  | refused => exact .refl s.store

end Session

end CatalogUi
