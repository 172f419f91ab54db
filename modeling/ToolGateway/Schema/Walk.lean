import ToolGateway.Document

/-!
# Walking over the schemas of a description

A walk visits schema objects, parents before children, each at the place where it is defined: a node
with a `$ref` is neither visited nor entered. The visitor may change the node it is given and says
whether the walk goes on below it. `Schema.walk` starts at one schema, `Schema.walkDocument` at
every schema of a description: in parameters, request bodies, responses and headers, at operations
and among the reusable components.

The walk below a node goes over the subschemas that the node had when the visitor met it, keyword
after keyword, and puts each result back under its keyword.
-/

namespace ToolGateway.Schema

/-- Keywords whose value is one subschema, or a list of them. -/
def singleKeywords : List String :=
  ["if", "then", "else", "not", "contains", "contentSchema", "items", "unevaluatedItems",
    "additionalItems", "additionalProperties", "unevaluatedProperties", "propertyNames"]

/-- Keywords whose value maps names to subschemas. -/
def mapKeywords : List String :=
  ["properties", "patternProperties", "dependentSchemas", "$defs", "definitions"]

/-- Keywords whose value is a list of subschemas. -/
def listKeywords : List String := ["allOf", "anyOf", "oneOf", "prefixItems"]

/-- The parts of `components` whose entries hold schemas under `schema` or `content`. -/
def holderSections : List String := ["parameters", "requestBodies", "responses", "headers"]

/-- A visitor's answer: the node as it is to be, and whether the walk goes on below it. -/
inductive Visit where
  | skip (node : Json.Members)
  | descend (node : Json.Members)

/-- A visitor with a state of type `σ`. -/
abbrev Visitor (σ : Type) := Json.Members → σ → Visit × σ

variable {σ : Type}

/-! ### What the walk enters is smaller -/

theorem sizeOf_items_lt {node : Json.Members} {keyword : String} {items : List Json}
    (h : node.get? keyword = some (.arr items)) : sizeOf items < sizeOf node := by
  have := Dict.sizeOf_get?_lt h
  simp only [Json.arr.sizeOf_spec] at this
  omega

theorem sizeOf_children_lt {node : Json.Members} {keyword : String}
    {children : List (String × Json)} (h : node.get? keyword = some (.obj ⟨children⟩)) :
    sizeOf children < sizeOf node := by
  have := Dict.sizeOf_get?_lt h
  simp only [Json.obj.sizeOf_spec, Dict.mk.sizeOf_spec] at this
  omega

/-! ### The walk -/

mutual

/-- Visits a schema and, unless the visitor says otherwise, its subschemas. -/
def walk (visit : Visitor σ) (schema : Json) (s : σ) : Json × σ :=
  match schema with
  | .obj node =>
    if node.contains "$ref" then (.obj node, s)
    else
      match visit node s with
      | (.skip node', s) => (.obj node', s)
      | (.descend node', s) =>
        let (node', s) := walkSingles visit node singleKeywords node' s
        let (node', s) := walkMaps visit node mapKeywords node' s
        let (node', s) := walkLists visit node listKeywords node' s
        (.obj node', s)
  | other => (other, s)
termination_by (sizeOf schema, 0)
decreasing_by all_goals simp_wf; omega

/-- Goes into the single subschemas of a node, under the given keywords. -/
def walkSingles (visit : Visitor σ) (node : Json.Members) (keywords : List String)
    (out : Json.Members) (s : σ) : Json.Members × σ :=
  match keywords with
  | [] => (out, s)
  | keyword :: rest =>
    match _h : node.get? keyword with
    | some (.arr items) =>
      let (items, s) := walkItems visit items s
      walkSingles visit node rest (out.replace keyword (.arr items)) s
    | some child =>
      let (child, s) := walk visit child s
      walkSingles visit node rest (out.replace keyword child) s
    | none => walkSingles visit node rest out s
termination_by (sizeOf node, keywords.length + 1)
decreasing_by
  · exact Prod.Lex.left _ _ (sizeOf_items_lt _h)
  · exact Prod.Lex.right _ (by simp)
  · exact Prod.Lex.left _ _ (Dict.sizeOf_get?_lt _h)
  · exact Prod.Lex.right _ (by simp)
  · exact Prod.Lex.right _ (by simp)

/-- Goes into the named subschemas of a node, under the given keywords. -/
def walkMaps (visit : Visitor σ) (node : Json.Members) (keywords : List String)
    (out : Json.Members) (s : σ) : Json.Members × σ :=
  match keywords with
  | [] => (out, s)
  | keyword :: rest =>
    match _h : node.get? keyword with
    | some (.obj ⟨children⟩) =>
      let (children, s) := walkEntries visit children s
      walkMaps visit node rest (out.replace keyword (.obj ⟨children⟩)) s
    | _ => walkMaps visit node rest out s
termination_by (sizeOf node, keywords.length + 1)
decreasing_by
  · exact Prod.Lex.left _ _ (sizeOf_children_lt _h)
  · exact Prod.Lex.right _ (by simp)
  · exact Prod.Lex.right _ (by simp)

/-- Goes into the listed subschemas of a node, under the given keywords. -/
def walkLists (visit : Visitor σ) (node : Json.Members) (keywords : List String)
    (out : Json.Members) (s : σ) : Json.Members × σ :=
  match keywords with
  | [] => (out, s)
  | keyword :: rest =>
    match _h : node.get? keyword with
    | some (.arr items) =>
      let (items, s) := walkItems visit items s
      walkLists visit node rest (out.replace keyword (.arr items)) s
    | _ => walkLists visit node rest out s
termination_by (sizeOf node, keywords.length + 1)
decreasing_by
  · exact Prod.Lex.left _ _ (sizeOf_items_lt _h)
  · exact Prod.Lex.right _ (by simp)
  · exact Prod.Lex.right _ (by simp)

/-- Walks over the schemas of a list. -/
def walkItems (visit : Visitor σ) (items : List Json) (s : σ) : List Json × σ :=
  match items with
  | [] => ([], s)
  | item :: rest =>
    let (item, s) := walk visit item s
    let (rest, s) := walkItems visit rest s
    (item :: rest, s)
termination_by (sizeOf items, 0)
decreasing_by all_goals simp_wf; omega

/-- Walks over the schemas of a map. -/
def walkEntries (visit : Visitor σ) (entries : List (String × Json)) (s : σ) :
    List (String × Json) × σ :=
  match entries with
  | [] => ([], s)
  | (name, schema) :: rest =>
    let (schema, s) := walk visit schema s
    let (rest, s) := walkEntries visit rest s
    ((name, schema) :: rest, s)
termination_by (sizeOf entries, 0)
decreasing_by all_goals simp_wf; omega

end

end ToolGateway.Schema
