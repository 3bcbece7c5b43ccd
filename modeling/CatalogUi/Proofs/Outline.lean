import CatalogUi.Prompt
import CatalogUi.Proofs.Delimiter
import CatalogUi.Proofs.Line
import CatalogUi.Proofs.Pruning

/-!
What the text about a catalog shows of it. Each part of the text ends in a way that nothing inside of it
can have: a name at the end of its line, a field at its colon, the fields at an empty line, and the
component types and the actions at their announced number. So two catalogs with the same text have the
same component types and actions with the same fields, in the same order, as long as names, descriptions
and listed strings stay on their lines and no name of a field has a colon.
-/

namespace CatalogUi

open Text

/-- The names of the declared fields of an object shape, in order. -/
def Schema.fieldNames? (s : Schema) : Option (List String) := s.fields?.map Entries.names

/-- A component type in outline. -/
structure ComponentOutline where
  name : String
  acceptsChildren : Bool
  fieldNames : Option (List String)
deriving DecidableEq

/-- An action in outline. -/
structure ActionOutline where
  name : String
  description : String
  fieldNames : Option (List String)
deriving DecidableEq

namespace ComponentSpec

def outline (spec : ComponentSpec) : ComponentOutline :=
  ⟨spec.name, spec.acceptsChildren, spec.props.fieldNames?⟩

def KeepsLines (spec : ComponentSpec) : Prop := IsLine spec.name ∧ spec.props.KeepsLines

end ComponentSpec

namespace ActionSpec

def outline (spec : ActionSpec) : ActionOutline :=
  ⟨spec.name, spec.description, spec.params.fieldNames?⟩

def KeepsLines (spec : ActionSpec) : Prop :=
  IsLine spec.name ∧ IsLine spec.description ∧ spec.params.KeepsLines

end ActionSpec

/-- No name, no description and no listed string has a line break, and no name of a field a colon. -/
structure Catalog.KeepsLines (c : Catalog) : Prop where
  components : ∀ spec ∈ c.components, spec.KeepsLines
  actions : ∀ spec ∈ c.actions, spec.KeepsLines

namespace Prompt

/-! ## Lines -/

theorem line_inj {line line' rest rest' : String} (h : IsLine line) (h' : IsLine line')
    (heq : line ++ ("\n" ++ rest) = line' ++ ("\n" ++ rest')) : line = line' ∧ rest = rest' :=
  append_separator_inj rfl h h' heq

/-- What a line says about a field behind its name. -/
def declaration (s : Schema) : String :=
  s.describe ++ " (" ++ (if s.isOptional then "optional" else "required") ++
    (match s.default? with
      | some v => ", default " ++ v.compact
      | none => "") ++ ")"

theorem isLine_declaration {s : Schema} (h : s.KeepsLines) : IsLine (declaration s) := by
  simp only [declaration, isLine_append_iff]
  refine ⟨⟨⟨⟨Schema.isLine_describe h, by decide⟩, ?presence⟩, ?default⟩, by decide⟩
  case presence => cases s.isOptional <;> decide
  case default =>
    cases s.default? with
    | none => decide
    | some v => exact isLine_append_iff.2 ⟨by decide, v.isLine_compact⟩

theorem fieldLine_append (name : String) (s : Schema) (rest : String) :
    fieldLine name s ++ rest = "- " ++ (name ++ (": " ++ (declaration s ++ ("\n" ++ rest)))) := by
  refine String.toList_injective ?_
  cases h : s.default? <;> simp [fieldLine, declaration, h]

/-- A line shows the name of its field. -/
theorem delimits_fieldLine :
    Delimits (fun field : String × Schema => Schema.IsLabel field.1 ∧ field.2.KeepsLines)
      (fun (name, s) => fieldLine name s) (·.1) := by
  rintro ⟨name, s⟩ ⟨name', s'⟩ ⟨hname, hs⟩ ⟨hname', hs'⟩ rest rest' h
  simp only [fieldLine_append, String.append_right_inj] at h
  obtain ⟨hnames, htail⟩ := append_separator_inj rfl hname.2 hname'.2 h
  obtain ⟨-, hrest⟩ := line_inj (isLine_declaration hs) (isLine_declaration hs') htail
  exact ⟨hnames, hrest⟩

/-! ## Fields -/

/-- What stands behind the title in the same line. -/
def headline (s : Schema) : String :=
  match s.fields? with
  | none => ": " ++ s.describe
  | some [] => ": none"
  | some (_ :: _) => ":"

theorem isLine_headline {s : Schema} (h : s.KeepsLines) : IsLine (headline s) := by
  unfold headline
  split
  · exact isLine_append_iff.2 ⟨by decide, Schema.isLine_describe h⟩
  · decide
  · decide

/-- What stands behind the title. -/
def block (s : Schema) : String :=
  headline s ++ "\n" ++ String.join ((s.fields?.getD []).map fun (name, s) => fieldLine name s)

theorem fields_eq_match (title : String) (s : Schema) :
    fields title s = match s.fields? with
      | none => title ++ ": " ++ s.describe ++ "\n"
      | some [] => title ++ ": none\n"
      | some declared =>
        title ++ ":\n" ++ String.join (declared.map fun (name, s) => fieldLine name s) := by
  cases s with
  | object declared => cases declared <;> rfl
  | _ => rfl

theorem fields_eq (title : String) (s : Schema) : fields title s = title ++ block s := by
  refine String.toList_injective ?_
  rw [fields_eq_match, block, headline]
  rcases s.fields? with _ | _ | ⟨field, rest⟩ <;> simp

/-- No other shape in words says that there are no fields. -/
theorem fields?_eq_of_headline {s : Schema} (h : headline s = ": none") : s.fields? = some [] := by
  unfold headline at h
  split at h
  · have hwords := congrArg String.toList h
    rw [String.toList_append] at hwords
    exact (Schema.toList_describe_ne s _ (List.append_cancel_left hwords)).elim
  · assumption
  · exact absurd h (by decide)

/-- The line of the title tells a shape without fields from one that is no object. -/
theorem fieldNames?_eq (s : Schema) :
    s.fieldNames? = match Entries.names (s.fields?.getD []) with
      | [] => if headline s = ": none" then some [] else none
      | names => some names := by
  unfold Schema.fieldNames?
  cases hfields : s.fields? with
  | none =>
    have hne : headline s ≠ ": none" := fun h => by
      cases hfields.symm.trans (fields?_eq_of_headline h)
    exact (if_neg hne).symm
  | some declared =>
    cases declared with
    | nil =>
      have heq : headline s = ": none" := by rw [headline, hfields]
      exact (if_pos heq).symm
    | cons field rest => rfl

theorem keepsLines_fields {s : Schema} (h : s.KeepsLines) :
    ∀ field ∈ s.fields?.getD [], Schema.IsLabel field.1 ∧ field.2.KeepsLines := by
  cases s with
  | object declared => exact Schema.keepsLines_object_iff.1 h
  | _ => exact nofun

/-- The fields of a shape end where a line is empty. -/
theorem block_inj {s t : Schema} (hs : s.KeepsLines) (ht : t.KeepsLines) {rest rest' : String}
    (h : block s ++ ("\n" ++ rest) = block t ++ ("\n" ++ rest')) :
    s.fieldNames? = t.fieldNames? ∧ rest = rest' := by
  simp only [block, String.append_assoc] at h
  obtain ⟨hheadline, htail⟩ := line_inj (isLine_headline hs) (isLine_headline ht) h
  -- An empty line is no field, since the line of a field begins with a dash.
  have hstop (field : String × Schema) (_ : Schema.IsLabel field.1 ∧ field.2.KeepsLines)
      (rest rest' : String) : fieldLine field.1 field.2 ++ rest ≠ "\n" ++ rest' := by
    intro h
    have hchars := congrArg String.toList h
    simp [fieldLine_append] at hchars
  obtain ⟨hnames, hrest⟩ :=
    delimits_fieldLine.join_until hstop (keepsLines_fields hs) (keepsLines_fields ht) htail
  have heq : Entries.names (s.fields?.getD []) = Entries.names (t.fields?.getD []) := hnames
  rw [fieldNames?_eq, fieldNames?_eq t, hheadline, heq]
  exact ⟨rfl, hrest⟩

/-! ## Component types and actions -/

theorem delimits_component :
    Delimits ComponentSpec.KeepsLines component ComponentSpec.outline := by
  rintro a b ⟨hname, hprops⟩ ⟨hname', hprops'⟩ rest rest' h
  have hflag (accepts : Bool) : IsLine (if accepts then "yes" else "no") := by
    cases accepts <;> decide
  -- One part after the other is cut off in front: the name, the flag, the fields.
  simp only [component, fields_eq, String.append_assoc, String.append_right_inj] at h
  obtain ⟨hnames, h⟩ := line_inj hname hname' h
  rw [String.append_right_inj] at h
  obtain ⟨hflags, h⟩ := line_inj (hflag _) (hflag _) h
  rw [String.append_right_inj] at h
  obtain ⟨hfields, hrest⟩ := block_inj hprops hprops' h
  have haccepts : a.acceptsChildren = b.acceptsChildren := by
    cases ha : a.acceptsChildren <;> cases hb : b.acceptsChildren <;> simp [ha, hb] at hflags ⊢
  rw [ComponentSpec.outline, ComponentSpec.outline, hnames, haccepts, hfields]
  exact ⟨rfl, hrest⟩

/-- Behind the name of an action stands its description or the title of its parameters. -/
theorem description_inj {text text' rest rest' : String} (h : IsLine text) (h' : IsLine text')
    (heq : (if text = "" then "" else "Description: " ++ text ++ "\n") ++ ("Params" ++ rest) =
      (if text' = "" then "" else "Description: " ++ text' ++ "\n") ++ ("Params" ++ rest')) :
    text = text' ∧ rest = rest' := by
  have hne (rest rest' : String) : "Params" ++ rest ≠ "Description: " ++ rest' := by
    intro h
    have hchars := congrArg String.toList h
    simp at hchars
  by_cases hempty : text = "" <;> by_cases hempty' : text' = "" <;>
    simp only [hempty, hempty', if_true, if_false, String.empty_append, String.append_assoc,
      String.append_right_inj] at heq
  · exact ⟨hempty.trans hempty'.symm, heq⟩
  · exact (hne _ _ heq).elim
  · exact (hne _ _ heq.symm).elim
  · obtain ⟨htext, htail⟩ := line_inj h h' heq
    exact ⟨htext, (String.append_right_inj _).1 htail⟩

theorem delimits_action : Delimits ActionSpec.KeepsLines action ActionSpec.outline := by
  rintro a b ⟨hname, hdescription, hparams⟩ ⟨hname', hdescription', hparams'⟩ rest rest' h
  simp only [action, fields_eq, String.append_assoc, String.append_right_inj] at h
  obtain ⟨hnames, h⟩ := line_inj hname hname' h
  obtain ⟨hdescriptions, h⟩ := description_inj hdescription hdescription' h
  obtain ⟨hfields, hrest⟩ := block_inj hparams hparams' h
  rw [ActionSpec.outline, ActionSpec.outline, hnames, hdescriptions, hfields]
  exact ⟨rfl, hrest⟩

/-! ## The parts of the text -/

theorem rules_inj {m n : Nat} {rest rest' : String} (h : rules m ++ rest = rules n ++ rest') :
    m = n ∧ rest = rest' := by
  simp only [rules, lines, List.map_cons, List.map_nil, String.join_cons, String.join_nil,
    String.append_assoc, String.append_right_inj] at h
  obtain ⟨hnumber, htail⟩ := toString_separator_inj (c := ' ') (by decide) (by decide) h
  simp only [String.append_right_inj] at htail
  exact ⟨hnumber, htail⟩

theorem components_eq (specs : List ComponentSpec) :
    components specs = "## Components (" ++ toString specs.length ++ ")\n\n" ++
      String.join (specs.map component) := rfl

theorem components_inj {as bs : List ComponentSpec} (has : ∀ spec ∈ as, spec.KeepsLines)
    (hbs : ∀ spec ∈ bs, spec.KeepsLines) {rest rest' : String}
    (h : components as ++ rest = components bs ++ rest') :
    as.map ComponentSpec.outline = bs.map ComponentSpec.outline ∧ rest = rest' := by
  simp only [components_eq, String.append_assoc, String.append_right_inj] at h
  obtain ⟨hlength, htail⟩ := toString_separator_inj (c := ')') rfl (by decide) h
  exact delimits_component.join has hbs hlength htail

theorem actions_inj {as bs : List ActionSpec} (has : ∀ spec ∈ as, spec.KeepsLines)
    (hbs : ∀ spec ∈ bs, spec.KeepsLines) (h : actions as = actions bs) :
    as.map ActionSpec.outline = bs.map ActionSpec.outline := by
  simp only [actions, String.append_assoc, String.append_right_inj] at h
  obtain ⟨hlength, htail⟩ := toString_separator_inj (c := ')') rfl (by decide) h
  cases as with
  | nil =>
    cases List.length_eq_zero_iff.1 hlength.symm
    rfl
  | cons a as =>
    obtain ⟨b, bs, rfl⟩ := List.exists_cons_of_length_eq_add_one hlength.symm
    simp only [List.isEmpty_cons, Bool.false_eq_true, if_false, String.append_right_inj] at htail
    exact (delimits_action.join has hbs hlength (congrArg (· ++ "") htail)).1

end Prompt

/-- When catalogs have the same text, they state the same limit and have the same component types and
the same actions, each with the same fields, in the same order. So none of them is left out of the
text, and none stands there twice or in another place. -/
theorem Catalog.prompt_outlines {c d : Catalog} {m n : Nat} (hc : c.KeepsLines) (hd : d.KeepsLines)
    (h : c.prompt m = d.prompt n) :
    m = n ∧ c.components.map ComponentSpec.outline = d.components.map ComponentSpec.outline ∧
      c.actions.map ActionSpec.outline = d.actions.map ActionSpec.outline := by
  simp only [prompt, String.append_assoc, String.append_right_inj] at h
  obtain ⟨hlimit, h⟩ := Prompt.rules_inj h
  rw [String.append_right_inj] at h
  obtain ⟨hcomponents, h⟩ := Prompt.components_inj hc.components hd.components h
  exact ⟨hlimit, hcomponents, Prompt.actions_inj hc.actions hd.actions h⟩

namespace Sample

/-- Alerts with a level, which can be dismissed. -/
def alerts (levels : List String) : Catalog :=
  ⟨[⟨"Alert", .object [("level", .oneOf levels), ("label", .optional .string none)], false⟩],
    [⟨"dismiss", "", .object []⟩]⟩

theorem keepsLines_alerts {levels : List String} (h : ∀ level ∈ levels, IsLine level) :
    (alerts levels).KeepsLines := by
  have hnames : IsLine "Alert" ∧ IsLine "dismiss" ∧ IsLine "" := by decide
  have hlabels : Schema.IsLabel "level" ∧ Schema.IsLabel "label" := by decide
  have hprops : (Schema.object [("level", .oneOf levels),
      ("label", .optional .string none)]).KeepsLines :=
    ⟨hlabels.1, h, hlabels.2, trivial, trivial⟩
  exact ⟨List.forall_mem_singleton.2 ⟨hnames.1, hprops⟩,
    List.forall_mem_singleton.2 ⟨hnames.2.1, hnames.2.2, trivial⟩⟩

end Sample

/-- A level with quotes in it can look like two levels, so that the text does not show all of a
catalog. What it shows is the outline. -/
theorem Catalog.prompt_outlines_alerts :
    (Sample.alerts ["low", "high"]).KeepsLines ∧ (Sample.alerts ["low\" | \"high"]).KeepsLines ∧
      (Sample.alerts ["low", "high"]).prompt 50 = (Sample.alerts ["low\" | \"high"]).prompt 50 ∧
      (Sample.alerts ["low\" | \"high"]).components.map ComponentSpec.outline =
        [⟨"Alert", false, some ["level", "label"]⟩] ∧
      (Sample.alerts ["low\" | \"high"]).actions.map ActionSpec.outline =
        [⟨"dismiss", "", some []⟩] := by
  have hc : (Sample.alerts ["low", "high"]).KeepsLines := Sample.keepsLines_alerts (by decide)
  have hd : (Sample.alerts ["low\" | \"high"]).KeepsLines := Sample.keepsLines_alerts (by decide)
  have htext : (Sample.alerts ["low", "high"]).prompt 50 =
      (Sample.alerts ["low\" | \"high"]).prompt 50 := by
    have hwords : (Schema.oneOf ["low", "high"]).describe =
        (Schema.oneOf ["low\" | \"high"]).describe := by decide
    have hline : Prompt.fieldLine "level" (.oneOf ["low", "high"]) =
        Prompt.fieldLine "level" (.oneOf ["low\" | \"high"]) := by
      rw [Prompt.fieldLine, Prompt.fieldLine, hwords]
      rfl
    simp only [prompt, Sample.alerts, Prompt.components_eq, Prompt.component,
      Prompt.fields_eq_match, Schema.fields?, List.map_cons, List.length_cons, hline]
  obtain ⟨-, hcomponents, hactions⟩ := prompt_outlines hc hd htext
  exact ⟨hc, hd, htext, hcomponents.symm, hactions.symm⟩

end CatalogUi
