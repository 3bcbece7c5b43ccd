import CatalogUi.Value.Access

/-!
The data store of a session: one value, the number of writes so far, and the listeners to be told of
every write. Listeners share a memory, which they read and change when they are called; a listener
that asks for it is removed after the call.
-/

namespace CatalogUi

/-- Names a listener for as long as the store lives. -/
structure ListenerId where
  number : Nat
deriving DecidableEq

/-- Takes the path and the value of a write and the memory of the listeners. The answer says whether
the listener wants to be called again. -/
abbrev Listener (σ : Type) := Path → Value → σ → Bool × σ

/-- A listener that always wants to be called again. -/
def Listener.lasting {σ : Type} (listen : Path → Value → σ → σ) : Listener σ :=
  fun p v memory => (true, listen p v memory)

/-- The two counters are natural numbers. They fit into 64 bits as long as fewer than 2^64 - 1 things
have happened in the store (`Store.counters_run_lt`). -/
structure Store (σ : Type) where
  data : Value
  /-- How many writes there were. -/
  revision : Nat
  /-- The listeners in the order of their subscription. -/
  listeners : List (ListenerId × Listener σ)
  /-- The number of the next listener. -/
  nextListener : Nat
  memory : σ

namespace Store

variable {σ : Type}

def create (data : Value) (memory : σ) : Store σ := ⟨data, 0, [], 1, memory⟩

def read? (s : Store σ) (p : Path) : Option Value := s.data.read? p

/-- Calls listeners in order, and keeps those that want to be called again. -/
def notify (p : Path) (v : Value) : List (ListenerId × Listener σ) → σ →
    List (ListenerId × Listener σ) × σ
  | [], memory => ([], memory)
  | (id, listener) :: rest, memory =>
    let called := listener p v memory
    let others := notify p v rest called.2
    (if called.1 then (id, listener) :: others.1 else others.1, others.2)

/-- Writes a value and tells every listener. A write that is refused does nothing. -/
def write (s : Store σ) (p : Path) (v : Value) : Except BindingError (Store σ) :=
  match s.data.write p v with
  | .error e => .error e
  | .ok data =>
    let told := notify p v s.listeners s.memory
    .ok { s with
      data := data
      revision := s.revision + 1
      listeners := told.1
      memory := told.2 }

/-- Writes one after the other, up to the first write that is refused. -/
def writeInOrder (s : Store σ) : List (Path × Value) → Store σ × Except BindingError Unit
  | [] => (s, .ok ())
  | (p, v) :: rest =>
    match s.write p v with
    | .ok s => s.writeInOrder rest
    | .error e => (s, .error e)

/-- The order in which a batch is written: shorter paths first, and paths of one length as given. -/
def batchOrder (batch : List (Path × Value)) : List (Path × Value) :=
  batch.mergeSort fun a b => a.1.depth ≤ b.1.depth

/-- Writes a batch, so that of two overlapping paths the longer one has the last word. What was
written before a write is refused stays. -/
def writeAll (s : Store σ) (batch : List (Path × Value)) : Store σ × Except BindingError Unit :=
  s.writeInOrder (batchOrder batch)

def subscribe (s : Store σ) (listener : Listener σ) : ListenerId × Store σ :=
  let id : ListenerId := ⟨s.nextListener⟩
  (id, { s with
    listeners := s.listeners ++ [(id, listener)]
    nextListener := s.nextListener + 1 })

/-- Removes a listener, and says whether there was one. -/
def unsubscribe (s : Store σ) (id : ListenerId) : Bool × Store σ :=
  (s.listeners.any (·.1 = id), { s with listeners := s.listeners.filter (·.1 ≠ id) })

end Store

end CatalogUi
