import CatalogUi.Proofs.Defaults
import CatalogUi.Proofs.Eligibility
import Mathlib.Data.List.Induction

/-!
What activations call. Handlers are registered one after the other, and each of them leaves a note
when it is called. An activation that passes all guards calls one handler once; any other activation
is refused at the first guard that it does not pass, and leaves the handlers alone. Over a session,
in which activations and writes to the store take turns, the notes are those of the calls that ended
well or failed.
-/

namespace CatalogUi

/-! ## Handlers registered one after the other -/

namespace Handlers

variable {τ : Type} {registrations : List (String × Handler τ)} {action : String}
  {handler : Handler τ}

def ofList (registrations : List (String × Handler τ)) : Handlers τ :=
  registrations.foldl (fun handlers r => handlers.register r.1 r.2) .empty

/-- The last of the handlers that are registered for an action, with the place of its
registration. -/
structure IsLast (registrations : List (String × Handler τ)) (action : String) (place : Nat)
    (handler : Handler τ) : Prop where
  registered : registrations[place]? = some (action, handler)
  no_later : ∀ later, place < later → ∀ r, registrations[later]? = some r → r.1 ≠ action

theorem handler?_register (handlers : Handlers τ) (name : String) :
    (handlers.register name handler).handler? action =
      if name = action then some handler else handlers.handler? action := by
  split
  · subst name
    exact Entries.get?_set_self _ _ _
  · exact Entries.get?_set_of_ne _ _ (Ne.symm ‹_›)

theorem handler?_ofList_concat (r : String × Handler τ) :
    (ofList (registrations ++ [r])).handler? action =
      if r.1 = action then some r.2 else (ofList registrations).handler? action := by
  rw [ofList, List.foldl_append]
  exact handler?_register _ _

theorem IsLast.concat_self : IsLast (registrations ++ [(action, handler)]) action
    registrations.length handler where
  registered := List.getElem?_concat_length
  no_later later hlater r hr := by
    have hlength := (List.getElem?_eq_some_iff.1 hr).1
    rw [List.length_append, List.length_singleton] at hlength
    omega

theorem IsLast.concat_of_ne {place : Nat} {r : String × Handler τ} (hr : r.1 ≠ action)
    (h : IsLast registrations action place handler) :
    IsLast (registrations ++ [r]) action place handler where
  registered := by
    rw [List.getElem?_append_left (List.getElem?_eq_some_iff.1 h.registered).1]
    exact h.registered
  no_later later hlater r' hr' := by
    by_cases hlength : later < registrations.length
    · rw [List.getElem?_append_left hlength] at hr'
      exact h.no_later later hlater r' hr'
    · rw [List.getElem?_append_right (Nat.le_of_not_lt hlength)] at hr'
      obtain rfl := List.mem_singleton.1 (List.mem_of_getElem? hr')
      exact hr

theorem IsLast.unique {place place' : Nat} {handler' : Handler τ}
    (h : IsLast registrations action place handler)
    (h' : IsLast registrations action place' handler') : place = place' ∧ handler = handler' := by
  have hplace : place = place' := by
    rcases Nat.lt_trichotomy place place' with hlt | heq | hgt
    · exact absurd rfl (h.no_later place' hlt _ h'.registered)
    · exact heq
    · exact absurd rfl (h'.no_later place hgt _ h.registered)
  subst hplace
  have heq := h.registered.symm.trans h'.registered
  cases heq
  exact ⟨rfl, rfl⟩

/-- Either no handler is registered for an action, or the last one is what is found for it. -/
theorem handler?_ofList (registrations : List (String × Handler τ)) (action : String) :
    ((∀ r ∈ registrations, r.1 ≠ action) ∧ (ofList registrations).handler? action = none) ∨
    ∃ place handler, IsLast registrations action place handler ∧
      (ofList registrations).handler? action = some handler := by
  induction registrations using List.reverseRecOn with
  | nil => exact Or.inl ⟨nofun, rfl⟩
  | append_singleton registrations r ih =>
    rw [handler?_ofList_concat]
    by_cases hr : r.1 = action
    · subst hr
      exact Or.inr ⟨_, r.2, .concat_self, if_pos rfl⟩
    · rw [if_neg hr]
      rcases ih with ⟨hnone, hfound⟩ | ⟨place, handler, hlast, hfound⟩
      · refine Or.inl ⟨fun r' hmem => ?_, hfound⟩
        rcases List.mem_append.1 hmem with hmem | hmem
        · exact hnone r' hmem
        · rwa [List.mem_singleton.1 hmem]
      · exact Or.inr ⟨place, handler, hlast.concat_of_ne hr, hfound⟩

end Handlers

/-! ## Guards -/

/-- What activations meet: a tree, a catalog, a configuration, and the handlers that are
registered, one after the other. -/
structure Stage (τ : Type) where
  tree : ValidatedTree
  catalog : Catalog
  config : Config
  registrations : List (String × Handler τ)

/-- One call of a handler, with the place of its registration. -/
structure Call where
  place : Nat
  invocation : Invocation

namespace Stage

variable {τ : Type} (g : Stage τ) (data : Value) (key : String) (params : Option Value)

/-- The tree has the node under the key, and the conditions on its lineage hold. -/
def Seen (n : Node) : Prop :=
  g.tree.node? key = some n ∧ ∀ m ∈ g.tree.lineage key, m.isVisible data = true

/-- The node can be seen and names an action. -/
def Names (action : String) : Prop :=
  ∃ n, g.Seen data key n ∧ n.action = some action

/-- The action is named, and the catalog has it. -/
def Knows (spec : ActionSpec) (action : String) : Prop :=
  g.Names data key action ∧ g.catalog.action? action = some spec

/-- What a check of the params against the shape of an action comes to. -/
def checkParams (spec : ActionSpec) : Checked Value :=
  spec.params.validate g.config.rejectUnknownProps (some (params.getD .emptyObject))

/-- An activation passes all guards, and this is the call that it leads to. -/
structure Cleared (handler : Handler τ) (call : Call) : Prop where
  source_eq : call.invocation.source = key
  params_fit : ∃ spec, g.Knows data key spec call.invocation.action ∧
    g.checkParams params spec = .ok call.invocation.params
  last : Handlers.IsLast g.registrations call.invocation.action call.place handler

/-- An activation is refused, at the first guard that it does not pass. -/
inductive Refused : ActivationError → Prop
  | unknownElement (h : g.tree.node? key = none) : Refused (.unknownElement key)
  | notEligible (n : Node) (hn : g.tree.node? key = some n)
    (h : ∃ m ∈ g.tree.lineage key, m.isVisible data = false) : Refused (.notEligible key)
  | noAction (n : Node) (hn : g.Seen data key n) (h : n.action = none) : Refused (.noAction key)
  | unknownAction (action : String) (hnamed : g.Names data key action)
    (h : g.catalog.action? action = none) : Refused (.unknownAction key action)
  | invalidParams (action : String) (spec : ActionSpec) (hknown : g.Knows data key spec action)
    (errors : List SchemaError) (h : g.checkParams params spec = .error errors) :
    Refused (.invalidParams action errors)
  | missingHandler (action : String) (spec : ActionSpec) (hknown : g.Knows data key spec action)
    (fit : Value) (hfit : g.checkParams params spec = .ok fit)
    (h : ∀ r ∈ g.registrations, r.1 ≠ action) : Refused (.missingHandler action)

/-- Leaves a note of each call. -/
def noting (place : Nat) (handler : Handler τ) : Handler (τ × List Call) :=
  fun invocation memory =>
    let answer := handler invocation memory.1
    (answer.1, answer.2, memory.2 ++ [⟨place, invocation⟩])

/-- The registered handlers, each of which leaves notes. -/
def handlers : Handlers (τ × List Call) :=
  .ofList (g.registrations.mapIdx fun place r => (r.1, noting place r.2))

variable {g data key params} {n : Node} {action : String} {spec : ActionSpec}
  {handler : Handler τ} {call : Call} {e : ActivationError}

theorem handler?_handlers (g : Stage τ) (action : String) :
    ((∀ r ∈ g.registrations, r.1 ≠ action) ∧ g.handlers.handler? action = none) ∨
    ∃ place handler, Handlers.IsLast g.registrations action place handler ∧
      g.handlers.handler? action = some (noting place handler) := by
  rcases Handlers.handler?_ofList
    (g.registrations.mapIdx fun place r => (r.1, noting place r.2)) action with
    ⟨hnone, hfound⟩ | ⟨place, noting', hlast, hfound⟩
  · refine Or.inl ⟨fun r hmem => ?_, hfound⟩
    obtain ⟨place, hplace, rfl⟩ := List.getElem_of_mem hmem
    exact hnone _ (List.mem_mapIdx.2 ⟨place, hplace, rfl⟩)
  · have hget := hlast.registered
    rw [List.getElem?_mapIdx, Option.map_eq_some_iff] at hget
    obtain ⟨⟨name, handler⟩, hget, heq⟩ := hget
    cases heq
    refine Or.inr ⟨place, handler, ⟨hget, fun later hlater r hr => ?_⟩, hfound⟩
    exact hlast.no_later later hlater (r.1, noting later r.2) <| by
      rw [List.getElem?_mapIdx, hr, Option.map_some]

theorem Seen.isVisible (h : g.Seen data key n) : g.tree.isVisible key data = true :=
  List.all_eq_true.2 h.2

theorem invocation_of_cleared (h : g.Cleared data key params handler call) :
    g.tree.invocation g.catalog g.config data g.handlers key params =
      .ok (noting call.place handler, call.invocation) := by
  obtain ⟨rfl, ⟨spec, ⟨⟨n, hn, haction⟩, hspec⟩, hfit⟩, hlast⟩ := h
  rw [checkParams] at hfit
  rcases g.handler?_handlers call.invocation.action with
    ⟨hnone, -⟩ | ⟨place, handler', hlast', hfound⟩
  · exact absurd rfl (hnone _ (List.mem_of_getElem? hlast.registered))
  · obtain ⟨rfl, rfl⟩ := hlast.unique hlast'
    simp [ValidatedTree.invocation, hn.1, hn.isVisible, haction, hspec, hfit, hfound]

theorem invocation_of_refused (h : g.Refused data key params e) :
    g.tree.invocation g.catalog g.config data g.handlers key params = .error e := by
  cases h with
  | unknownElement h => simp [ValidatedTree.invocation, h]
  | notEligible n hn h =>
    have hhidden : g.tree.isVisible key data = false := by
      rw [ValidatedTree.isVisible, List.all_eq_false]
      simpa using h
    exact ValidatedTree.invocation_of_hidden (ValidatedTree.mem_keys_iff.2 ⟨n, hn⟩) hhidden
  | noAction n hn h => simp [ValidatedTree.invocation, hn.1, hn.isVisible, h]
  | unknownAction action hnamed h =>
    obtain ⟨n, hn, haction⟩ := hnamed
    simp [ValidatedTree.invocation, hn.1, hn.isVisible, haction, h]
  | invalidParams action spec hknown errors h =>
    obtain ⟨⟨n, hn, haction⟩, hspec⟩ := hknown
    rw [checkParams] at h
    simp [ValidatedTree.invocation, hn.1, hn.isVisible, haction, hspec, h]
  | missingHandler action spec hknown fit hfit h =>
    obtain ⟨⟨n, hn, haction⟩, hspec⟩ := hknown
    rw [checkParams] at hfit
    rcases g.handler?_handlers action with ⟨-, hnone⟩ | ⟨place, handler, hlast, -⟩
    · simp [ValidatedTree.invocation, hn.1, hn.isVisible, haction, hspec, hfit, hnone]
    · exact absurd rfl (h _ (List.mem_of_getElem? hlast.registered))

/-- An activation passes all guards, or there is a first one that it does not pass. -/
theorem cleared_or_refused (g : Stage τ) (data : Value) (key : String) (params : Option Value) :
    (∃ handler call, g.Cleared data key params handler call) ∨
      ∃ e, g.Refused data key params e := by
  cases hn : g.tree.node? key with
  | none => exact Or.inr ⟨_, .unknownElement hn⟩
  | some n =>
    by_cases hhidden : ∃ m ∈ g.tree.lineage key, m.isVisible data = false
    · exact Or.inr ⟨_, .notEligible n hn hhidden⟩
    have hseen : g.Seen data key n := by
      refine ⟨hn, fun m hm => ?_⟩
      rw [← Bool.not_eq_false]
      exact fun hfalse => hhidden ⟨m, hm, hfalse⟩
    cases haction : n.action with
    | none => exact Or.inr ⟨_, .noAction n hseen haction⟩
    | some action =>
      have hnamed : g.Names data key action := ⟨n, hseen, haction⟩
      cases hspec : g.catalog.action? action with
      | none => exact Or.inr ⟨_, .unknownAction action hnamed hspec⟩
      | some spec =>
        have hknown : g.Knows data key spec action := ⟨hnamed, hspec⟩
        cases hfit : g.checkParams params spec with
        | error errors => exact Or.inr ⟨_, .invalidParams action spec hknown errors hfit⟩
        | ok fit =>
          rcases g.handler?_handlers action with ⟨hnone, -⟩ | ⟨place, handler, hlast, -⟩
          · exact Or.inr ⟨_, .missingHandler action spec hknown fit hfit hnone⟩
          · exact Or.inl
              ⟨handler, ⟨place, action, fit, key⟩, rfl, ⟨spec, hknown, hfit⟩, hlast⟩

theorem not_refused_of_cleared (h : g.Cleared data key params handler call) :
    ¬ g.Refused data key params e := by
  intro hrefused
  cases (invocation_of_cleared h).symm.trans (invocation_of_refused hrefused)

/-- In a catalog, what a handler is given fits the shape of the action in every way of checking. -/
theorem Cleared.accepts (hsound : g.catalog.Sound) (hw : g.catalog.WellFormed)
    (h : g.Cleared data key params handler call) :
    ∃ spec, g.catalog.action? call.invocation.action = some spec ∧
      ∃ w, spec.params.validate true (some call.invocation.params) = .ok w := by
  obtain ⟨spec, hknown, hfit⟩ := h.params_fit
  have hmem : spec.params ∈ g.catalog.shapes :=
    List.mem_append_right _ (List.mem_map_of_mem (List.mem_of_find?_eq_some hknown.2))
  obtain ⟨w, hw', -⟩ := (Schema.validate_ok_iff.1 hfit).again
    (hsound.shapes_sound _ hmem) (hw _ hmem)
  exact ⟨spec, hknown.2, w, Schema.validate_ok_iff.2 hw'⟩

/-- How an activation ends with the answer of a handler. -/
def conclude (action : String) : Except String Unit → Except ActivationError Unit
  | .ok () => .ok ()
  | .error reason => .error (.handlerFailed action reason)

theorem activate_of_cleared (h : g.Cleared data key params handler call) (memory : τ)
    (calls : List Call) :
    g.tree.activate g.catalog g.config data g.handlers key params (memory, calls) =
      (conclude call.invocation.action (handler call.invocation memory).1,
        (handler call.invocation memory).2, calls ++ [call]) := by
  rw [ValidatedTree.activate, invocation_of_cleared h]
  dsimp only [noting]
  cases (handler call.invocation memory).1 <;> rfl

/-! ## Sessions -/

/-- What changes while activations and writes take turns. -/
structure Session (σ τ : Type) where
  store : Store σ
  /-- The memory of the handlers. -/
  memory : τ
  /-- The calls of handlers so far. -/
  calls : List Call

inductive Event where
  | activate (key : String) (params : Option Value)
  | write (p : Path) (v : Value)
  | writeAll (batch : List (Path × Value))

inductive Answer where
  | activated (outcome : Except ActivationError Unit)
  | written (outcome : Except BindingError Unit)

/-- An activation has led to a call, which ended well or failed. -/
def Answer.isCall : Answer → Bool
  | .activated (.ok ()) => true
  | .activated (.error (.handlerFailed _ _)) => true
  | _ => false

variable {σ : Type}

def step (g : Stage τ) (s : Session σ τ) : Event → Answer × Session σ τ
  | .activate key params =>
    let activated :=
      g.tree.activate g.catalog g.config s.store.data g.handlers key params (s.memory, s.calls)
    (.activated activated.1, { s with memory := activated.2.1, calls := activated.2.2 })
  | .write p v =>
    match s.store.write p v with
    | .ok store => (.written (.ok ()), { s with store := store })
    | .error e => (.written (.error e), s)
  | .writeAll batch =>
    let written := s.store.writeAll batch
    (.written written.2, { s with store := written.1 })

def run (g : Stage τ) (s : Session σ τ) : List Event → List Answer × Session σ τ
  | [] => ([], s)
  | event :: rest =>
    let now := g.step s event
    let later := g.run now.2 rest
    (now.1 :: later.1, later.2)

theorem run_append (s : Session σ τ) (before after : List Event) :
    g.run s (before ++ after) =
      ((g.run s before).1 ++ (g.run (g.run s before).2 after).1,
        (g.run (g.run s before).2 after).2) := by
  induction before generalizing s with
  | nil => rfl
  | cons event rest ih => rw [List.cons_append, run, ih, run, List.cons_append]

/-- What calls make of the memory of the handlers, one after the other. -/
def replay (g : Stage τ) (memory : τ) (calls : List Call) : τ :=
  calls.foldl
    (fun memory call =>
      match g.registrations[call.place]? with
      | some (_, handler) => (handler call.invocation memory).2
      | none => memory)
    memory

/-- An activation that passes all guards calls one handler once; one that does not is refused at the
first such guard, and nothing else happens. -/
structure Gated (g : Stage τ) (s : Session σ τ) (key : String) (params : Option Value) : Prop where
  called : ∀ handler call, g.Cleared s.store.data key params handler call →
    g.step s (.activate key params) =
      (.activated (conclude call.invocation.action (handler call.invocation s.memory).1),
        { s with
          memory := (handler call.invocation s.memory).2
          calls := s.calls ++ [call] })
  accepted : ∀ handler call, g.Cleared s.store.data key params handler call →
    ∃ spec, g.catalog.action? call.invocation.action = some spec ∧
      ∃ w, spec.params.validate true (some call.invocation.params) = .ok w
  refused : ∀ e, g.Refused s.store.data key params e →
    g.step s (.activate key params) = (.activated (.error e), s)
  decided : (∃ e, g.Refused s.store.data key params e) ↔
    ¬ ∃ handler call, g.Cleared s.store.data key params handler call

theorem step_of_cleared {s : Session σ τ} (h : g.Cleared s.store.data key params handler call) :
    g.step s (.activate key params) =
      (.activated (conclude call.invocation.action (handler call.invocation s.memory).1),
        { s with
          memory := (handler call.invocation s.memory).2
          calls := s.calls ++ [call] }) := by
  rw [step, activate_of_cleared h]

theorem step_of_refused {s : Session σ τ} (h : g.Refused s.store.data key params e) :
    g.step s (.activate key params) = (.activated (.error e), s) := by
  rw [step, ValidatedTree.activate_of_error (invocation_of_refused h)]

theorem gated (hsound : g.catalog.Sound) (hw : g.catalog.WellFormed) (s : Session σ τ)
    (key : String) (params : Option Value) : g.Gated s key params where
  called _ _ h := step_of_cleared h
  accepted _ _ h := h.accepts hsound hw
  refused _ h := step_of_refused h
  decided := by
    constructor
    · rintro ⟨e, hrefused⟩ ⟨handler, call, hcleared⟩
      exact not_refused_of_cleared hcleared hrefused
    · exact (g.cleared_or_refused s.store.data key params).resolve_left

/-- What one step adds to the calls: one call if the answer says so, and nothing otherwise. -/
theorem step_calls (s : Session σ τ) (event : Event) :
    ∃ calls, (g.step s event).2.calls = s.calls ++ calls ∧
      (g.step s event).2.memory = g.replay s.memory calls ∧
      calls.length = if (g.step s event).1.isCall then 1 else 0 := by
  have hquiet (s' : Session σ τ) (answer : Answer) (hcalls : s'.calls = s.calls)
      (hmemory : s'.memory = s.memory) (hanswer : answer.isCall = false) :
      ∃ calls, s'.calls = s.calls ++ calls ∧ s'.memory = g.replay s.memory calls ∧
        calls.length = if answer.isCall then 1 else 0 :=
    ⟨[], by rw [hcalls, List.append_nil], hmemory, by rw [hanswer]; rfl⟩
  cases event with
  | write p v =>
    rw [step]
    split
    · exact hquiet _ _ rfl rfl rfl
    · exact hquiet _ _ rfl rfl rfl
  | writeAll batch => exact hquiet _ _ rfl rfl rfl
  | activate key params =>
    rcases g.cleared_or_refused s.store.data key params with ⟨handler, call, h⟩ | ⟨e, h⟩
    · rw [step_of_cleared h]
      refine ⟨[call], rfl, ?_, ?_⟩
      · rw [replay, List.foldl_cons, List.foldl_nil, h.last.registered]
      · cases (handler call.invocation s.memory).1 <;> rfl
    · rw [step_of_refused h]
      exact hquiet s _ rfl rfl (by cases h <;> rfl)

theorem run_calls (s : Session σ τ) (events : List Event) :
    ∃ calls, (g.run s events).2.calls = s.calls ++ calls ∧
      (g.run s events).2.memory = g.replay s.memory calls ∧
      calls.length = (g.run s events).1.countP (·.isCall) := by
  induction events generalizing s with
  | nil => exact ⟨[], (List.append_nil _).symm, rfl, rfl⟩
  | cons event rest ih =>
    obtain ⟨calls, hcalls, hmemory, hlength⟩ := g.step_calls s event
    obtain ⟨later, hlater, hmemory', hlength'⟩ := ih (g.step s event).2
    refine ⟨calls ++ later, ?_, ?_, ?_⟩
    · rw [run, hlater, hcalls, List.append_assoc]
    · rw [run, hmemory', hmemory, replay, replay, replay, List.foldl_append]
    · rw [run, List.length_append, List.countP_cons, hlength, hlength', Nat.add_comm]

/-- Over a session, every activation goes as the guards say about that moment, and handlers are
called for nothing else: the calls are as many as the activations that ended well or in the failure
of a handler, and made one after the other they give the memory of the handlers. -/
theorem run_gated {g : Stage τ} {components : List ComponentSpec} {actions : List ActionSpec}
    (hc : Catalog.create components actions = .ok g.catalog) (hw : g.catalog.WellFormed)
    (s : Session σ τ) :
    (∀ before key params after,
      let now := (g.run s before).2
      let next := g.step now (.activate key params)
      g.run s (before ++ .activate key params :: after) =
        ((g.run s before).1 ++ next.1 :: (g.run next.2 after).1, (g.run next.2 after).2) ∧
      g.Gated now key params) ∧
    ∀ events, ∃ calls, (g.run s events).2.calls = s.calls ++ calls ∧
      (g.run s events).2.memory = g.replay s.memory calls ∧
      calls.length = (g.run s events).1.countP (·.isCall) :=
  ⟨fun before key params _ => ⟨run_append s before _,
    gated (Catalog.create_ok_iff.1 hc).2 hw _ key params⟩, run_calls s⟩

end Stage

namespace Sample

theorem create_catalog : Catalog.create catalog.components catalog.actions = .ok catalog := rfl

theorem wellFormed_catalog : catalog.WellFormed := by
  intro s hs
  simp only [Catalog.shapes, catalog, List.map_cons, List.map_nil, List.cons_append,
    List.nil_append, List.mem_cons, List.not_mem_nil, or_false] at hs
  rcases hs with rfl | rfl | rfl
  · exact ⟨List.nodup_nil, trivial⟩
  · exact ⟨List.nodup_singleton _, trivial, trivial⟩
  · exact ⟨List.nodup_nil, trivial⟩

/-- The page, with a handler that is always busy and a later one that counts. -/
def stage : Stage Nat where
  tree := page
  catalog := catalog
  config := Config.default
  registrations := [
    ("send", fun _ count => (.error "busy", count)),
    ("send", fun _ count => (.ok (), count + 1))]

def session : Stage.Session Unit Nat := ⟨closed, 0, []⟩

theorem open_ne : "open" ≠ "" := by decide

def openSide : Stage.Event := .write ⟨[⟨"open", open_ne⟩]⟩ (.bool true)

end Sample

/-- The button of the page leads to a call once its side box has been opened. -/
theorem Stage.run_gated_page :
    Catalog.create Sample.catalog.components Sample.catalog.actions = .ok Sample.stage.catalog ∧
      Sample.stage.catalog.WellFormed ∧
      Sample.stage.Gated (Sample.stage.run Sample.session [Sample.openSide]).2 "send" none ∧
      ∃ calls,
        (Sample.stage.run Sample.session
          [.activate "send" none, Sample.openSide, .activate "send" none]).2.calls = calls ∧
        calls.length = 1 := by
  obtain ⟨hgated, hcalls⟩ := run_gated (g := Sample.stage) Sample.create_catalog
    Sample.wellFormed_catalog Sample.session
  obtain ⟨calls, hall, -, hlength⟩ :=
    hcalls [.activate "send" none, Sample.openSide, .activate "send" none]
  exact ⟨Sample.create_catalog, Sample.wellFormed_catalog,
    (hgated [Sample.openSide] "send" none []).2, calls, hall, hlength.trans (by cbv)⟩

end CatalogUi
