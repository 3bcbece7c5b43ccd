import CatalogUi.Condition

/-!
Trees of elements as they are received: elements under keys, linked by the keys of their children.
Nothing about a tree is certain before it is validated.
-/

namespace CatalogUi

structure Element where
  key : String
  type : String
  /-- Any value, so that what is no object is an error of its props and not of the document. -/
  props : Value
  children : List String
  parentKey : Option String
  visible : Option Condition

structure Tree where
  root : String
  /-- The elements under their keys, in the order of the document. -/
  elements : List (String × Element)
  /-- No key stands twice. -/
  distinct : Entries.Distinct elements

namespace Tree

/-- Puts elements under the keys that they declare; the last of several with one key counts. -/
def ofElements (root : String) (elements : List Element) : Tree :=
  ⟨root, Entries.ofPairs (elements.map fun e => (e.key, e)), Entries.distinct_ofPairs _⟩

def element? (t : Tree) (key : String) : Option Element := Entries.get? t.elements key

end Tree

end CatalogUi
