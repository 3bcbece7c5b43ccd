import CatalogUi.Store
import CatalogUi.Proofs.Write

/-!
A store is a lens at every path: what was written is read back, writing what is read changes nothing,
and of two writes at one path only the last one counts.
-/

namespace CatalogUi

namespace Store

variable {σ : Type} {s s' : Store σ} {p : Path} {v : Value}

/-- A write that goes through leaves the written data, whatever the listeners do. -/
theorem data_of_write (h : s.write p v = .ok s') :
    Value.Writable (some s.data) p.segments ∧
      s'.data = Value.placed (some s.data) p.segments v := by
  rw [write] at h
  cases hdata : s.data.write p v with
  | error e =>
    rw [hdata] at h
    cases h
  | ok data =>
    rw [hdata] at h
    cases h
    obtain ⟨hwritable, hplaced⟩ := Value.write_ok_iff.1 hdata
    exact ⟨hwritable, hplaced.symm⟩

theorem exists_write (h : Value.Writable (some s.data) p.segments) :
    ∃ s', s.write p v = .ok s' ∧ s'.data = Value.placed (some s.data) p.segments v := by
  rw [write, Value.write_ok_iff.2 ⟨h, rfl⟩]
  exact ⟨_, rfl, rfl⟩

theorem read?_eq_look : s.read? p = Value.look (some s.data) p.segments := rfl

end Store

/-- Reading gives what was written, writing what is read goes through and changes nothing, and a
write after a write at the same path leaves what it would have left alone. -/
theorem Store.write_lens_laws {σ : Type} (s : Store σ) (p : Path) (v w : Value) :
    (∀ s', s.write p v = .ok s' → s'.read? p = some v) ∧
    (s.read? p = some v → ∃ s', s.write p v = .ok s' ∧ s'.data = s.data) ∧
    (∀ s', s.write p v = .ok s' → ∃ again alone, s'.write p w = .ok again ∧
      s.write p w = .ok alone ∧ again.data = alone.data) := by
  refine ⟨fun s' h => ?put_get, fun h => ?get_put, fun s' h => ?put_put⟩
  case put_get =>
    obtain ⟨hwritable, hdata⟩ := data_of_write h
    rw [read?_eq_look, hdata]
    exact Value.look_placed hwritable
  case get_put =>
    rw [read?_eq_look] at h
    obtain ⟨s', hwrite, hdata⟩ := exists_write (v := v) (Value.writable_of_look h)
    exact ⟨s', hwrite, hdata.trans (Value.placed_of_look h)⟩
  case put_put =>
    obtain ⟨hwritable, hdata⟩ := data_of_write h
    have hagain : Value.Writable (some s'.data) p.segments := by
      rw [hdata]
      exact Value.writable_placed hwritable
    obtain ⟨again, hwriteAgain, hdataAgain⟩ := exists_write (v := w) hagain
    obtain ⟨alone, hwriteAlone, hdataAlone⟩ := exists_write (v := w) hwritable
    refine ⟨again, alone, hwriteAgain, hwriteAlone, ?_⟩
    calc again.data
      _ = Value.placed (some (Value.placed (some s.data) p.segments v)) p.segments w := by
          rw [hdataAgain, hdata]
      _ = Value.placed (some s.data) p.segments w := Value.placed_placed hwritable
      _ = alone.data := hdataAlone.symm

namespace Sample

/-- An order whose remark is a text, and which has no items yet. -/
def order : Store Unit := .create (.object [("remark", .string "soon")]) ()

def itemsField : Segment := ⟨"items", by decide⟩

/-- The name of the second item. -/
def itemName : Path := ⟨[itemsField, ⟨"1", by decide⟩, ⟨"name", by decide⟩]⟩

end Sample

/-- The name of an item that is not there can be written, read, and written anew. -/
theorem Store.write_lens_laws_order :
    (∃ s', Sample.order.write Sample.itemName (.string "disk") = .ok s' ∧
      s'.read? Sample.itemName = some (.string "disk")) ∧
    ∃ s' again alone, Sample.order.write Sample.itemName (.string "disk") = .ok s' ∧
      s'.write Sample.itemName .null = .ok again ∧
      Sample.order.write Sample.itemName .null = .ok alone ∧ again.data = alone.data := by
  obtain ⟨hread, -, hagain⟩ := write_lens_laws Sample.order Sample.itemName (.string "disk") .null
  have hwrite : ∃ s', Sample.order.write Sample.itemName (.string "disk") = .ok s' := ⟨_, rfl⟩
  obtain ⟨s', hs'⟩ := hwrite
  obtain ⟨again, alone, hwrites⟩ := hagain s' hs'
  exact ⟨⟨s', hs', hread s' hs'⟩, s', again, alone, hs', hwrites⟩

end CatalogUi
