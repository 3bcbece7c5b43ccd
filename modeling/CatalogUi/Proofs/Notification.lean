import CatalogUi.Proofs.Batch
import CatalogUi.Proofs.History

/-!
What the history of a store says about it. The listeners of a store are those that were subscribed
and have not left since, its revision is the number of changes, no id is given twice, and a listener
that has left is not called again. From there a write calls the listeners of that moment, each of
them once and in the order of their subscription.
-/

namespace CatalogUi

namespace Store

/-! ## Reading a history -/

def Event.isChange : Event → Bool
  | .changed _ _ => true
  | _ => false

/-- The listener that is new after an event. -/
def Event.subscribed? : Event → Option ListenerId
  | .subscribed id => some id
  | _ => none

/-- The listener that is not there any more after an event. -/
def Event.left? : Event → Option ListenerId
  | .unsubscribed id true => some id
  | .called id _ _ false => some id
  | _ => none

def Event.called? : Event → Option ListenerId
  | .called id _ _ _ => some id
  | _ => none

/-- The ids that were given, in their order. -/
def subscriptions (events : List Event) : List ListenerId := events.filterMap (·.subscribed?)

def departures (events : List Event) : List ListenerId := events.filterMap (·.left?)

/-- The listeners that were subscribed and have not left, in the order of their subscription. -/
def registered (events : List Event) : List ListenerId :=
  (subscriptions events).filter (· ∉ departures events)

/-- A history tells the listeners and the revision of a store. -/
structure Tells (events : List Event) {σ : Type} (s : Store σ) : Prop where
  numbered : Numbered s
  fresh : (subscriptions events).Nodup
  below : ∀ id ∈ subscriptions events, id.number < s.nextListener
  left_below : ∀ id ∈ departures events, id.number < s.nextListener
  registered_eq : s.ids = registered events
  revision_eq : s.revision = events.countP (·.isChange)
  silent : events.Pairwise fun earlier later =>
    ∀ id, earlier.left? = some id → later.called? ≠ some id

variable {σ : Type} {s t : Store σ} {events : List Event} {event : Event} {id : ListenerId}
  {p : Path} {v : Value}

theorem subscriptions_concat :
    subscriptions (events ++ [event]) = subscriptions events ++ event.subscribed?.toList := by
  rw [subscriptions, List.filterMap_append]
  cases h : event.subscribed? <;> simp [subscriptions, h]

theorem departures_concat :
    departures (events ++ [event]) = departures events ++ event.left?.toList := by
  rw [departures, List.filterMap_append]
  cases h : event.left? <;> simp [departures, h]

theorem countP_concat : (events ++ [event]).countP (·.isChange) =
    events.countP (·.isChange) + if event.isChange then 1 else 0 := by
  rw [List.countP_append, List.countP_singleton]

theorem registered_of_subscribed (hnew : id ∉ departures events) :
    registered (events ++ [.subscribed id]) = registered events ++ [id] := by
  rw [registered, subscriptions_concat, departures_concat]
  simp [registered, Event.subscribed?, Event.left?, List.filter_append, hnew]

theorem registered_of_left (hsubscribed : event.subscribed? = none) (hleft : event.left? = some id) :
    registered (events ++ [event]) = (registered events).filter (· ≠ id) := by
  rw [registered, subscriptions_concat, departures_concat, hsubscribed, hleft, registered,
    List.filter_filter]
  simp [and_comm]

theorem registered_of_none (hsubscribed : event.subscribed? = none) (hleft : event.left? = none) :
    registered (events ++ [event]) = registered events := by
  rw [registered, subscriptions_concat, departures_concat, hsubscribed, hleft]
  simp [registered]

/-! ## What an event does to the listeners -/

theorem Does.nextListener_eq (h : Does s event t) :
    t.nextListener = s.nextListener + event.subscribed?.toList.length := by
  cases h <;> rfl

theorem Does.nextListener_le (h : Does s event t) : s.nextListener ≤ t.nextListener := by
  rw [h.nextListener_eq]
  exact Nat.le_add_right _ _

theorem Does.revision_eq (h : Does s event t) :
    t.revision = s.revision + if event.isChange then 1 else 0 := by
  cases h <;> rfl

theorem Does.of_subscribed (h : Does s event t) (hsubscribed : event.subscribed? = some id) :
    id = ⟨s.nextListener⟩ ∧ t.nextListener = s.nextListener + 1 ∧ event = .subscribed id ∧
      t.ids = s.ids ++ [id] := by
  cases h with
  | subscribed listener =>
    cases hsubscribed
    exact ⟨rfl, rfl, rfl, List.map_append⟩
  | _ => cases hsubscribed

theorem Does.of_left (h : Does s event t) (hleft : event.left? = some id) :
    id ∈ s.ids ∧ event.subscribed? = none ∧ t.ids = s.ids.filter (· ≠ id) := by
  cases h with
  | unsubscribed hmem =>
    cases hleft
    exact ⟨hmem, rfl, ids_without _ _⟩
  | leaves hmem _ =>
    cases hleft
    exact ⟨List.mem_map_of_mem hmem, rfl, ids_without _ _⟩
  | _ => cases hleft

theorem Does.ids_eq (h : Does s event t) (hsubscribed : event.subscribed? = none)
    (hleft : event.left? = none) : t.ids = s.ids := by
  cases h with
  | subscribed => cases hsubscribed
  | unsubscribed => cases hleft
  | leaves => cases hleft
  | _ => rfl

theorem Does.mem_ids_of_called (h : Does s event t) (hcalled : event.called? = some id) :
    id ∈ s.ids := by
  cases h with
  | stays hmem _ =>
    cases hcalled
    exact List.mem_map_of_mem hmem
  | leaves hmem _ =>
    cases hcalled
    exact List.mem_map_of_mem hmem
  | _ => cases hcalled

/-! ## A history tells the listeners and the revision -/

theorem Tells.create (data : Value) (memory : σ) : Tells [] (create data memory) where
  numbered := .create data memory
  fresh := List.nodup_nil
  below := nofun
  left_below := nofun
  registered_eq := rfl
  revision_eq := rfl
  silent := .nil

theorem Tells.registered_does (hs : Tells events s) (h : Does s event t) :
    t.ids = registered (events ++ [event]) := by
  cases hsubscribed : event.subscribed? with
  | some id =>
    obtain ⟨rfl, -, rfl, hids⟩ := h.of_subscribed hsubscribed
    have hnew : (⟨s.nextListener⟩ : ListenerId) ∉ departures events :=
      fun hmem => Nat.lt_irrefl _ (hs.left_below _ hmem)
    rw [hids, hs.registered_eq, registered_of_subscribed hnew]
  | none =>
    cases hleft : event.left? with
    | some id =>
      obtain ⟨-, -, hids⟩ := h.of_left hleft
      rw [hids, hs.registered_eq, registered_of_left hsubscribed hleft]
    | none => rw [h.ids_eq hsubscribed hleft, hs.registered_eq, registered_of_none hsubscribed hleft]

theorem Tells.does (hs : Tells events s) (h : Does s event t) : Tells (events ++ [event]) t where
  numbered := hs.numbered.does h
  fresh := by
    rw [subscriptions_concat]
    cases hsubscribed : event.subscribed? with
    | none =>
      rw [Option.toList_none, List.append_nil]
      exact hs.fresh
    | some id =>
      obtain ⟨rfl, -⟩ := h.of_subscribed hsubscribed
      have hnew : (⟨s.nextListener⟩ : ListenerId) ∉ subscriptions events :=
        fun hmem => Nat.lt_irrefl _ (hs.below _ hmem)
      exact List.nodup_append_comm.1 (List.nodup_cons.2 ⟨hnew, hs.fresh⟩)
  below id hmem := by
    rw [subscriptions_concat, List.mem_append, Option.mem_toList] at hmem
    rcases hmem with hmem | hsubscribed
    · exact Nat.lt_of_lt_of_le (hs.below id hmem) h.nextListener_le
    · obtain ⟨rfl, hnext, -⟩ := h.of_subscribed hsubscribed
      rw [hnext]
      exact Nat.lt_succ_self _
  left_below id hmem := by
    rw [departures_concat, List.mem_append, Option.mem_toList] at hmem
    refine Nat.lt_of_lt_of_le ?_ h.nextListener_le
    rcases hmem with hmem | hleft
    · exact hs.left_below id hmem
    · exact hs.numbered.below id (h.of_left hleft).1
  registered_eq := hs.registered_does h
  revision_eq := by rw [h.revision_eq, hs.revision_eq, countP_concat]
  silent := by
    refine List.pairwise_append.2 ⟨hs.silent, List.pairwise_singleton _ _, ?_⟩
    intro earlier hmem later hlater id hleft hcalled
    rw [List.mem_singleton.1 hlater] at hcalled
    -- Whoever has left is not among the listeners, and nobody else is called.
    have hgone : id ∈ departures events := List.mem_filterMap.2 ⟨earlier, hmem, hleft⟩
    have hthere : id ∈ registered events := hs.registered_eq ▸ h.mem_ids_of_called hcalled
    exact of_decide_eq_true (List.mem_filter.1 hthere).2 hgone

theorem tells_run (data : Value) (memory : σ) (operations : List (Operation σ)) :
    Tells ((create data memory).history operations) ((create data memory).run operations) :=
  (happens_run (.create data memory) operations).preserves
    (P := fun events s => Tells events s) Tells.does (.create data memory)

/-! ## The two counters -/

/-- The number of the next listener tells how many there were. -/
theorem nextListener_run (data : Value) (memory : σ) (operations : List (Operation σ)) :
    ((create data memory).run operations).nextListener =
      (subscriptions ((create data memory).history operations)).length + 1 := by
  refine (happens_run (.create data memory) operations).preserves
    (P := fun events s => s.nextListener = (subscriptions events).length + 1) ?_ rfl
  intro events s event t hs h
  rw [h.nextListener_eq, hs, subscriptions_concat, List.length_append]
  omega

/-- As long as fewer things have happened in a store than 64 bits can count, its counters fit into
64 bits. -/
theorem counters_run_lt {data : Value} {memory : σ} {operations : List (Operation σ)}
    (hfew : ((create data memory).history operations).length + 1 < UInt64.size) :
    ((create data memory).run operations).revision < UInt64.size ∧
      ((create data memory).run operations).nextListener < UInt64.size := by
  have hchanges : ((create data memory).history operations).countP (·.isChange) ≤ _ :=
    List.countP_le_length
  have hsubscriptions :=
    List.length_filterMap_le (·.subscribed?) ((create data memory).history operations)
  constructor
  · rw [(tells_run data memory operations).revision_eq]
    omega
  · rw [nextListener_run, subscriptions]
    omega

/-! ## Writes -/

/-- Every listener is called once, in its turn. -/
theorem forall₂_calls (listeners : List (ListenerId × Listener σ)) (memory : σ) :
    List.Forall₂ (fun id event => ∃ again, event = Event.called id p v again)
      (listeners.map (·.1)) (calls p v listeners memory) := by
  induction listeners generalizing memory with
  | nil => exact .nil
  | cons entry rest ih => exact .cons ⟨_, rfl⟩ (ih _)

/-- Writes that go through, one after the other. -/
inductive Writes : Store σ → List (Path × Value) → Store σ → Prop
  | done (s : Store σ) : Writes s [] s
  | next {s s' t : Store σ} {p : Path} {v : Value} {later : List (Path × Value)}
      (h : s.write p v = .ok s') (hlater : Writes s' later t) : Writes s ((p, v) :: later) t

/-- The entries of a batch as single writes. -/
def singly (batch : List (Path × Value)) : List (Operation σ) :=
  batch.map fun entry => .write entry.1 entry.2

/-- What a batch does: the writes before the first one that is refused, as if they had been made one
by one. -/
structure Batched (s : Store σ) (batch done : List (Path × Value)) (t : Store σ) : Prop where
  perm : (batchOrder batch).Perm batch
  sorted : (batchOrder batch).Pairwise fun a b => a.1.depth ≤ b.1.depth
  writes : Writes s done t
  applied : (s.writeAll batch).1 = t ∧ s.run (singly done) = t
  counted : t.revision = s.revision + done.length
  ended :
    (batchOrder batch = done ∧ (s.writeAll batch).2 = .ok () ∧
      s.happenings (.writeAll batch) = s.history (singly done)) ∨
    ∃ p v later e, batchOrder batch = done ++ (p, v) :: later ∧ t.write p v = .error e ∧
      (s.writeAll batch).2 = .error e ∧
      s.happenings (.writeAll batch) = s.history (singly done) ++ [.refused p e]

variable {batch done : List (Path × Value)}

theorem revision_of_write {s' : Store σ} (h : s.write p v = .ok s') :
    s'.revision = s.revision + 1 := by
  obtain ⟨data, -, rfl⟩ := write_ok_iff.1 h
  rfl

theorem Writes.run_eq (h : Writes s done t) : s.run (singly done) = t := by
  induction h with
  | done => rfl
  | next h _ ih =>
    rw [← ih]
    simp only [singly, run, List.map_cons, List.foldl_cons, perform, h]

theorem Writes.history_eq (h : Writes s done t) : s.history (singly done) = s.writesEvents done := by
  induction h with
  | done => rfl
  | next h _ ih =>
    simp only [singly] at ih
    simp only [singly, List.map_cons, history, happenings, perform, writesEvents, h, ih]

theorem Writes.revision_eq (h : Writes s done t) : t.revision = s.revision + done.length := by
  induction h with
  | done => rfl
  | next h _ ih =>
    rw [ih, revision_of_write h, List.length_cons]
    omega

/-- Writes in order go through up to the first one that is refused. -/
theorem exists_writes (s : Store σ) (batch : List (Path × Value)) : ∃ done t, Writes s done t ∧
    ((batch = done ∧ s.writeInOrder batch = (t, .ok ())) ∨
      ∃ p v later e, batch = done ++ (p, v) :: later ∧ t.write p v = .error e ∧
        s.writeInOrder batch = (t, .error e) ∧
        s.writesEvents batch = s.writesEvents done ++ [.refused p e]) := by
  induction batch generalizing s with
  | nil => exact ⟨[], s, .done s, .inl ⟨rfl, rfl⟩⟩
  | cons entry rest ih =>
    obtain ⟨p, v⟩ := entry
    cases h : s.write p v with
    | error e =>
      refine ⟨[], s, .done s, .inr ⟨p, v, rest, e, rfl, h, ?_, ?_⟩⟩
      · rw [writeInOrder, h]
      · simp only [writesEvents, h, writeEvents_of_error h, List.append_nil, List.nil_append]
    | ok s' =>
      obtain ⟨done, t, hwrites, hend⟩ := ih s'
      refine ⟨(p, v) :: done, t, .next h hwrites, ?_⟩
      rcases hend with ⟨rfl, hall⟩ | ⟨p', v', later, e, rfl, hrefused, hall, hevents⟩
      · refine .inl ⟨rfl, ?_⟩
        rw [writeInOrder, h]
        exact hall
      · refine .inr ⟨p', v', later, e, rfl, hrefused, ?_, ?_⟩
        · rw [writeInOrder, h]
          exact hall
        · simp only [writesEvents, h, hevents, List.append_assoc]

theorem exists_batched (s : Store σ) (batch : List (Path × Value)) :
    ∃ done t, Batched s batch done t := by
  obtain ⟨done, t, hwrites, hend⟩ := exists_writes s (batchOrder batch)
  refine ⟨done, t, ?_⟩
  constructor
  case perm => exact perm_batchOrder batch
  case sorted => exact pairwise_batchOrder batch
  case writes => exact hwrites
  case counted => exact hwrites.revision_eq
  case applied =>
    refine ⟨?_, hwrites.run_eq⟩
    rcases hend with ⟨-, hall⟩ | ⟨_, _, _, _, -, -, hall, -⟩
    · rw [writeAll, hall]
    · rw [writeAll, hall]
  case ended =>
    rw [writeAll, happenings, hwrites.history_eq]
    rcases hend with ⟨hbatch, hall⟩ | ⟨p, v, later, e, hbatch, hrefused, hall, hevents⟩
    · exact .inl ⟨hbatch, by rw [hall], by rw [hbatch]⟩
    · exact .inr ⟨p, v, later, e, hbatch, hrefused, by rw [hall], hevents⟩

/-! ## Every moment of a store -/

/-- What holds of a store after the events of a history, and what its operations do then. -/
structure Orderly (events : List Event) (s : Store σ) : Prop where
  fresh : (subscriptions events).Nodup
  silent : events.Pairwise fun earlier later =>
    ∀ id, earlier.left? = some id → later.called? ≠ some id
  registered_eq : s.ids = registered events
  revision_eq : s.revision = events.countP (·.isChange)
  write_ok : ∀ p v s', s.write p v = .ok s' → ∃ calls,
    s.happenings (.write p v) = .changed p v :: calls ∧
    List.Forall₂ (fun id event => ∃ again, event = .called id p v again) (registered events) calls ∧
    Happens Does s (.changed p v :: calls) s'
  write_error : ∀ p v e, s.write p v = .error e →
    s.happenings (.write p v) = [.refused p e] ∧ s.perform (.write p v) = s
  unsubscribe : ∀ id, ((s.unsubscribe id).1 = true ↔ id ∈ registered events) ∧
    (s.unsubscribe id).2 = s.without id ∧ (s.without id).ids = (registered events).filter (· ≠ id)
  writeAll : ∀ batch, ∃ done t, Batched s batch done t

theorem Tells.orderly (hs : Tells events s) : Orderly events s where
  fresh := hs.fresh
  silent := hs.silent
  registered_eq := hs.registered_eq
  revision_eq := hs.revision_eq
  write_ok p v s' h := by
    have hcalls := forall₂_calls (p := p) (v := v) s.listeners s.memory
    have hhappens := happens_write_ok hs.numbered h
    rw [writeEvents_of_ok h] at hhappens
    rw [← ids, hs.registered_eq] at hcalls
    exact ⟨_, writeEvents_of_ok h, hcalls, hhappens⟩
  write_error p v e h := ⟨writeEvents_of_error h, by rw [perform, h]⟩
  unsubscribe id := by
    rw [unsubscribe_iff, ids_without, hs.registered_eq]
    exact ⟨Iff.rfl, rfl, rfl⟩
  writeAll := exists_batched s

end Store

/-- Whatever is done with a store, its history is what happens, and at every moment listeners are
told as they should be. -/
theorem Store.run_orderly {σ : Type} (data : Value) (memory : σ) (operations : List (Operation σ)) :
    Happens Does (create data memory) ((create data memory).history operations)
      ((create data memory).run operations) ∧
    Orderly ((create data memory).history operations) ((create data memory).run operations) := by
  have hhappens := happens_run (.create data memory) operations
  exact ⟨hhappens, (tells_run data memory operations).orderly⟩

namespace Sample

/-- Counts the writes. -/
def bell : Path → Value → Nat → Nat := fun _ _ count => count + 1

/-- Looks in once. -/
def guest : Listener Nat := fun _ _ count => (false, count + 10)

def visits : List (Store.Operation Nat) :=
  [.subscribe bell, .subscribeWhile guest, .write remark .null, .write remark (.bool true)]

end Sample

/-- The guest is called at the first write only, and cannot be unsubscribed later. -/
theorem Store.run_orderly_visits :
    let s := (create .emptyObject 0).run Sample.visits
    s.ids = [⟨1⟩] ∧ s.revision = 2 ∧ (s.unsubscribe ⟨1⟩).1 = true ∧ (s.unsubscribe ⟨2⟩).1 ≠ true := by
  obtain ⟨-, h⟩ := run_orderly .emptyObject 0 Sample.visits
  have hregistered : registered ((create .emptyObject 0).history Sample.visits) = [⟨1⟩] := rfl
  refine ⟨h.registered_eq.trans hregistered, h.revision_eq, ?_, ?_⟩
  · exact (h.unsubscribe ⟨1⟩).1.2 (hregistered ▸ List.mem_singleton_self _)
  · rw [Ne, (h.unsubscribe ⟨2⟩).1, hregistered]
    decide

end CatalogUi
