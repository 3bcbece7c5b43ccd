import CatalogUi.Catalog
import CatalogUi.Tree

/-!
A complete scenario: the catalog for buying a server, and the form that is filled in.
-/

namespace CatalogUi.Demo

/-- A shape with something that stands in for absent values. -/
def withDefault (s : Schema) (default : Value) : Schema := .optional s (some default)

def cardProps : Schema :=
  .object [("title", .string), ("description", .nullable .string)]

def metricProps : Schema :=
  .object [
    ("label", .string),
    ("valuePath", .path),
    ("format", .oneOf ["currency", "percent", "number"])]

def buttonProps : Schema :=
  .object [
    ("label", .string),
    ("action", .string),
    ("variant", withDefault (.oneOf ["primary", "secondary", "danger"]) (.string "primary"))]

def textProps : Schema :=
  .object [
    ("content", .string),
    ("size", withDefault (.oneOf ["sm", "base", "lg", "xl"]) (.string "base"))]

def gridProps : Schema :=
  .object [
    ("columns",
      withDefault (.number (some (.finite (.ofInt 1))) (some (.finite (.ofInt 4))))
        (.number (.int 2)))]

def chartProps : Schema :=
  .object [("type", .oneOf ["bar", "line", "pie"]), ("title", .string), ("dataPath", .path)]

def selectProps : Schema :=
  .object [("label", .string), ("options", .array .string), ("valuePath", .path)]

def components : List ComponentSpec := [
  ⟨"Card", cardProps, true⟩,
  ⟨"Metric", metricProps, false⟩,
  ⟨"Button", buttonProps, false⟩,
  ⟨"Text", textProps, false⟩,
  ⟨"Grid", gridProps, true⟩,
  ⟨"Chart", chartProps, false⟩,
  ⟨"Select", selectProps, false⟩]

def actions : List ActionSpec := [⟨"confirm_order", "确认订单配置", .emptyObject⟩]

/-- The catalog for buying a server. -/
def catalog : Except CatalogError Catalog := Catalog.create components actions

/-- A choice among the given options, bound to a path of the data. -/
def select (key label : String) (options : List String) (path : String) : Element where
  key := key
  type := "Select"
  props := .object [
    ("label", .string label),
    ("options", .array (options.map .string)),
    ("valuePath", .string path)]
  children := []
  parentKey := some "form-card"
  visible := none

def formCard : Element where
  key := "form-card"
  type := "Card"
  props := .object [
    ("title", .string "🖥️ 服务器配置"),
    ("description", .string "请选择您需要的服务器规格")]
  children := ["cpu-select", "memory-select", "storage-select", "confirm-btn"]
  parentKey := none
  visible := none

def confirmButton : Element where
  key := "confirm-btn"
  type := "Button"
  props := .object [
    ("label", .string "确认配置"),
    ("action", .string "confirm_order"),
    ("variant", .string "primary")]
  children := []
  parentKey := some "form-card"
  visible := none

/-- The form in which a server is configured. -/
def formTree : Tree :=
  .ofElements "form-card" [
    formCard,
    select "cpu-select" "CPU 规格" ["2核", "4核", "8核", "16核"] "/server/cpu",
    select "memory-select" "内存大小" ["4GB", "8GB", "16GB", "32GB"] "/server/memory",
    select "storage-select" "存储空间" ["100GB SSD", "200GB SSD", "500GB SSD", "1TB SSD"]
      "/server/storage",
    confirmButton]

end CatalogUi.Demo
