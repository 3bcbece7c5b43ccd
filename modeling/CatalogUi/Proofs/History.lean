import CatalogUi.Proofs.Lens
import Mathlib.Data.List.Nodup

/-!
What happens in a store, one thing after the other. An operation is taken apart into events: a write
first changes the data and then calls the listeners one by one, and a listener that does not want to be
called again leaves at its call. Every operation, and so every run of operations, does just what its
events do in their order.
-/

namespace CatalogUi

/-! ## Events one after the other -/

/-- Events take a state to another, one after the other. -/
inductive Happens {α ε : Type} (does : α → ε → α → Prop) (s : α) : List ε → α → Prop
  | start : Happens does s [] s
  | next {t u : α} {events : List ε} {event : ε} (h : Happens does s events t)
      (hnext : does t event u) : Happens does s (events ++ [event]) u

namespace Happens

variable {α ε : Type} {does : α → ε → α → Prop} {s t u : α} {events more : List ε} {event : ε}

theorem append (h : Happens does s events t) (hmore : Happens does t more u) :
    Happens does s (events ++ more) u := by
  induction hmore with
  | start => rwa [List.append_nil]
  | next _ hnext ih =>
    rw [← List.append_assoc]
    exact ih.next hnext

theorem single (h : does s event t) : Happens does s [event] t := start.next h

theorem cons (h : does s event t) (hmore : Happens does t more u) :
    Happens does s (event :: more) u := (single h).append hmore

/-- What every event preserves about a state and what has happened so far holds all the time. -/
theorem preserves {P : List ε → α → Prop}
    (hstep : ∀ {events s event t}, P events s → does s event t → P (events ++ [event]) t)
    (hs : P [] s) (h : Happens does s events t) : P events t := by
  induction h with
  | start => exact hs
  | next _ hnext ih => exact hstep ih hnext

end Happens

namespace Store

variable {σ : Type}

/-- What can be done with a store. -/
inductive Operation (σ : Type) where
  | subscribe (listen : Path → Value → σ → σ)
  | subscribeWhile (listener : Listener σ)
  | unsubscribe (id : ListenerId)
  | write (p : Path) (v : Value)
  | writeAll (batch : List (Path × Value))

def perform (s : Store σ) : Operation σ → Store σ
  | .subscribe listen => (s.subscribe (.lasting listen)).2
  | .subscribeWhile listener => (s.subscribe listener).2
  | .unsubscribe id => (s.unsubscribe id).2
  | .write p v =>
    match s.write p v with
    | .ok s' => s'
    | .error _ => s
  | .writeAll batch => (s.writeAll batch).1

def run (s : Store σ) (operations : List (Operation σ)) : Store σ :=
  operations.foldl perform s

/-- The ids of the listeners, in the order of their subscription. -/
def ids (s : Store σ) : List ListenerId := s.listeners.map (·.1)

/-! ## Events -/

inductive Event where
  | subscribed (id : ListenerId)
  | unsubscribed (id : ListenerId) (found : Bool)
  /-- The data have changed. -/
  | changed (p : Path) (v : Value)
  | refused (p : Path) (e : BindingError)
  /-- A listener was called, and said whether it wants to be called again. -/
  | called (id : ListenerId) (p : Path) (v : Value) (again : Bool)

/-- The store without a listener. -/
def without (s : Store σ) (id : ListenerId) : Store σ :=
  { s with listeners := s.listeners.filter (·.1 ≠ id) }

/-- One event takes a store to another. -/
inductive Does : Store σ → Event → Store σ → Prop
  | subscribed (s : Store σ) (listener : Listener σ) :
      Does s (.subscribed ⟨s.nextListener⟩)
        { s with
          listeners := s.listeners ++ [(⟨s.nextListener⟩, listener)]
          nextListener := s.nextListener + 1 }
  | unsubscribed {s : Store σ} {id : ListenerId} (h : id ∈ s.ids) :
      Does s (.unsubscribed id true) (s.without id)
  | missed {s : Store σ} {id : ListenerId} (h : id ∉ s.ids) : Does s (.unsubscribed id false) s
  | changed {s : Store σ} {p : Path} {v data : Value} (h : s.data.write p v = .ok data) :
      Does s (.changed p v) { s with data := data, revision := s.revision + 1 }
  | refused {s : Store σ} {p : Path} {v : Value} {e : BindingError}
      (h : s.data.write p v = .error e) : Does s (.refused p e) s
  | stays {s : Store σ} {id : ListenerId} {listener : Listener σ} {p : Path} {v : Value} {memory : σ}
      (hmem : (id, listener) ∈ s.listeners) (h : listener p v s.memory = (true, memory)) :
      Does s (.called id p v true) { s with memory := memory }
  | leaves {s : Store σ} {id : ListenerId} {listener : Listener σ} {p : Path} {v : Value} {memory : σ}
      (hmem : (id, listener) ∈ s.listeners) (h : listener p v s.memory = (false, memory)) :
      Does s (.called id p v false) { s.without id with memory := memory }

/-! ## The events of an operation -/

/-- The calls of listeners in their order. -/
def calls (p : Path) (v : Value) : List (ListenerId × Listener σ) → σ → List Event
  | [], _ => []
  | (id, listener) :: rest, memory =>
    .called id p v (listener p v memory).1 :: calls p v rest (listener p v memory).2

def writeEvents (s : Store σ) (p : Path) (v : Value) : List Event :=
  match s.data.write p v with
  | .ok _ => .changed p v :: calls p v s.listeners s.memory
  | .error e => [.refused p e]

/-- The events of writes up to the first one that is refused. -/
def writesEvents (s : Store σ) : List (Path × Value) → List Event
  | [] => []
  | (p, v) :: rest =>
    s.writeEvents p v ++
      match s.write p v with
      | .ok s' => s'.writesEvents rest
      | .error _ => []

def happenings (s : Store σ) : Operation σ → List Event
  | .subscribe listen => [.subscribed (s.subscribe (.lasting listen)).1]
  | .subscribeWhile listener => [.subscribed (s.subscribe listener).1]
  | .unsubscribe id => [.unsubscribed id (s.unsubscribe id).1]
  | .write p v => s.writeEvents p v
  | .writeAll batch => s.writesEvents (batchOrder batch)

/-- The events of operations, one after the other. -/
def history (s : Store σ) : List (Operation σ) → List Event
  | [] => []
  | operation :: rest => s.happenings operation ++ (s.perform operation).history rest

/-- No two listeners share an id, and new ids are larger than those in use. -/
structure Numbered (s : Store σ) : Prop where
  nodup : s.ids.Nodup
  below : ∀ id ∈ s.ids, id.number < s.nextListener

variable {s s' t u : Store σ} {events more : List Event} {event : Event} {p : Path} {v : Value}
  {id : ListenerId} {listener : Listener σ}

theorem ids_without (s : Store σ) (id : ListenerId) : (s.without id).ids = s.ids.filter (· ≠ id) := by
  rw [ids, ids, List.filter_map]
  rfl

theorem filter_ne_of_not_mem {listeners : List (ListenerId × Listener σ)}
    (h : id ∉ listeners.map (·.1)) : listeners.filter (·.1 ≠ id) = listeners := by
  refine List.filter_eq_self.2 fun entry hmem => decide_eq_true ?_
  rintro rfl
  exact h (List.mem_map_of_mem hmem)

theorem Numbered.create (data : Value) (memory : σ) : Numbered (create data memory) :=
  ⟨List.nodup_nil, nofun⟩

theorem Numbered.without (hs : Numbered s) (id : ListenerId) : Numbered (s.without id) := by
  refine ⟨?_, fun id' hmem => ?_⟩
  · rw [ids_without]
    exact hs.nodup.filter _
  · rw [ids_without] at hmem
    exact hs.below id' (List.mem_of_mem_filter hmem)

theorem Numbered.does (hs : Numbered s) (h : Does s event t) : Numbered t := by
  cases h with
  | subscribed listener =>
    have hnew : (⟨s.nextListener⟩ : ListenerId) ∉ s.ids :=
      fun hmem => Nat.lt_irrefl _ (hs.below _ hmem)
    refine ⟨?_, fun id hmem => ?_⟩
    · rw [ids, List.map_append]
      exact List.nodup_append_comm.1 (List.nodup_cons.2 ⟨hnew, hs.nodup⟩)
    · rw [ids, List.map_append] at hmem
      rcases List.mem_append.1 hmem with hmem | hmem
      · exact Nat.lt_succ_of_lt (hs.below id hmem)
      · rw [List.mem_singleton.1 hmem]
        exact Nat.lt_succ_self _
  | unsubscribed => exact hs.without _
  | missed => exact hs
  | changed => exact ⟨hs.nodup, hs.below⟩
  | refused => exact hs
  | stays => exact ⟨hs.nodup, hs.below⟩
  | leaves => exact ⟨(hs.without _).nodup, (hs.without _).below⟩

theorem Numbered.happens (hs : Numbered s) (h : Happens Does s events t) : Numbered t :=
  h.preserves (P := fun _ => Numbered) Numbered.does hs

/-! ## Operations do what their events do -/

theorem happens_subscribe (s : Store σ) (listener : Listener σ) :
    Happens Does s [.subscribed (s.subscribe listener).1] (s.subscribe listener).2 :=
  .single (.subscribed s listener)

theorem unsubscribe_iff : (s.unsubscribe id).1 = true ↔ id ∈ s.ids := by
  rw [unsubscribe, List.any_eq_true, ids, List.mem_map]
  simp only [decide_eq_true_eq]

theorem happens_unsubscribe (s : Store σ) (id : ListenerId) :
    Happens Does s [.unsubscribed id (s.unsubscribe id).1] (s.unsubscribe id).2 := by
  by_cases h : id ∈ s.ids
  · rw [unsubscribe_iff.2 h]
    exact .single (.unsubscribed h)
  · rw [Bool.eq_false_iff.2 (mt unsubscribe_iff.1 h), unsubscribe, filter_ne_of_not_mem h]
    exact .single (.missed h)

theorem listeners_without {kept rest : List (ListenerId × Listener σ)}
    (hs : s.listeners = kept ++ (id, listener) :: rest) (hd : s.ids.Nodup) :
    (s.without id).listeners = kept ++ rest := by
  rw [ids, hs, List.map_append, List.map_cons, List.nodup_middle, List.nodup_cons,
    List.mem_append] at hd
  obtain ⟨hnew, -⟩ := hd
  rw [not_or] at hnew
  rw [without, hs, List.filter_append, List.filter_cons_of_neg (by simp),
    filter_ne_of_not_mem hnew.1, filter_ne_of_not_mem hnew.2]

/-- Telling listeners calls those that wait one after the other, and those before them stay. -/
theorem happens_notify {kept waiting : List (ListenerId × Listener σ)} (hnumbered : Numbered s)
    (hs : s.listeners = kept ++ waiting) :
    Happens Does s (calls p v waiting s.memory)
      { s with
        listeners := kept ++ (notify p v waiting s.memory).1
        memory := (notify p v waiting s.memory).2 } := by
  -- What varies is the store, of which the listeners that were called already are the first part.
  induction waiting generalizing s kept with
  | nil =>
    rw [calls, notify, ← hs]
    exact .start
  | cons entry rest ih =>
    obtain ⟨id, listener⟩ := entry
    have hmem : (id, listener) ∈ s.listeners := hs ▸ List.mem_append_right _ List.mem_cons_self
    rw [calls, notify]
    obtain ⟨again, memory, h⟩ : ∃ again memory, listener p v s.memory = (again, memory) :=
      ⟨_, _, rfl⟩
    rw [h]
    cases again with
    | true =>
      have hkept : s.listeners = (kept ++ [(id, listener)]) ++ rest := by
        rw [hs, List.append_assoc, List.singleton_append]
      have hrest := ih (s := { s with memory := memory }) ⟨hnumbered.nodup, hnumbered.below⟩ hkept
      rw [List.append_assoc] at hrest
      exact .cons (.stays hmem h) hrest
    | false =>
      have hwithout := hnumbered.without id
      have hrest := ih (s := { s.without id with memory := memory })
        ⟨hwithout.nodup, hwithout.below⟩ (listeners_without hs hnumbered.nodup)
      exact .cons (.leaves hmem h) hrest

theorem write_ok_iff : s.write p v = .ok s' ↔ ∃ data, s.data.write p v = .ok data ∧
    s' =
      { s with
        data := data
        revision := s.revision + 1
        listeners := (notify p v s.listeners s.memory).1
        memory := (notify p v s.listeners s.memory).2 } := by
  rw [write]
  cases s.data.write p v <;> simp [eq_comm]

theorem write_error_iff {e : BindingError} :
    s.write p v = .error e ↔ s.data.write p v = .error e := by
  rw [write]
  cases s.data.write p v <;> simp

theorem writeEvents_of_ok (h : s.write p v = .ok s') :
    s.writeEvents p v = .changed p v :: calls p v s.listeners s.memory := by
  obtain ⟨data, hdata, -⟩ := write_ok_iff.1 h
  rw [writeEvents, hdata]

theorem writeEvents_of_error {e : BindingError} (h : s.write p v = .error e) :
    s.writeEvents p v = [.refused p e] := by
  rw [writeEvents, write_error_iff.1 h]

theorem happens_write_ok (hs : Numbered s) (h : s.write p v = .ok s') :
    Happens Does s (s.writeEvents p v) s' := by
  obtain ⟨data, hdata, rfl⟩ := write_ok_iff.1 h
  have hchanged : Does s (.changed p v) { s with data := data, revision := s.revision + 1 } :=
    .changed hdata
  have hwaiting : ({ s with data := data, revision := s.revision + 1 } : Store σ).listeners =
      [] ++ s.listeners := rfl
  rw [writeEvents_of_ok h]
  exact .cons hchanged (happens_notify (hs.does hchanged) hwaiting)

theorem happens_write_error {e : BindingError} (h : s.write p v = .error e) :
    Happens Does s (s.writeEvents p v) s := by
  rw [writeEvents_of_error h]
  exact .single (.refused (write_error_iff.1 h))

theorem happens_writeInOrder (hs : Numbered s) (batch : List (Path × Value)) :
    Happens Does s (s.writesEvents batch) (s.writeInOrder batch).1 := by
  induction batch generalizing s with
  | nil => exact .start
  | cons entry rest ih =>
    obtain ⟨p, v⟩ := entry
    rw [writesEvents, writeInOrder]
    cases h : s.write p v with
    | ok s' =>
      have hnow := happens_write_ok hs h
      exact hnow.append (ih (hs.happens hnow))
    | error e =>
      rw [List.append_nil]
      exact happens_write_error h

theorem happens_perform (hs : Numbered s) (operation : Operation σ) :
    Happens Does s (s.happenings operation) (s.perform operation) := by
  cases operation with
  | subscribe listen => exact happens_subscribe s _
  | subscribeWhile listener => exact happens_subscribe s listener
  | unsubscribe id => exact happens_unsubscribe s id
  | write p v =>
    rw [perform]
    cases h : s.write p v with
    | ok s' => exact happens_write_ok hs h
    | error e => exact happens_write_error h
  | writeAll batch => exact happens_writeInOrder hs (batchOrder batch)

/-- A run does what its history says. -/
theorem happens_run (hs : Numbered s) (operations : List (Operation σ)) :
    Happens Does s (s.history operations) (s.run operations) := by
  induction operations generalizing s with
  | nil => exact .start
  | cons operation rest ih =>
    have hnow := happens_perform hs operation
    exact hnow.append (ih (hs.happens hnow))

end Store

end CatalogUi
