import ToolGateway.Schema.WalkDocument

/-!
# Flattening discriminators

A schema with a discriminator is turned into a plain `oneOf` of the variants that its mapping names.
In the variant for a value the discriminating property admits that value only. A variant that
is an `allOf` has the branch that declares the property narrowed, and is also stored back under its
name; a variant that does not declare the property is taken as it is.

A pass over the description flattens the outermost discriminators, with variants taken from the
description before the pass; what the variants still nest is left to the next pass. After
`maxPasses` passes remaining discriminators are dropped.
-/

namespace ToolGateway.Schema.Discriminator

/-- How many passes there are at most. -/
def maxPasses : Nat := 8

/-- Whether a schema has a property of the given name among its own. -/
def declares (schema : Json.Members) (property : String) : Bool :=
  match schema.get? "properties" with
  | some (.obj properties) => properties.contains property
  | _ => false

/-- The schema that admits one value only. -/
def constant (value : String) : Json :=
  .object [("type", .str "string"), ("enum", .arr [.str value]), ("default", .str value),
    ("description", .str s!"Always set to '{value}'.")]

/-- A copy of a schema without its discriminator, in which a property admits one value only. -/
def narrowed (schema : Json.Members) (property value : String) : Json.Members :=
  let out := schema.swapErase "discriminator"
  match out.get? "properties" with
  | some (.obj properties) =>
    out.replace "properties" (.obj (properties.insert property (constant value)))
  | _ => out

/-- The schema that a branch of an `allOf` stands for, if it declares the property. -/
def declaring? (schemas : Json.Members) (property : String) (branch : Json) :
    Option Json.Members :=
  let schema := match branch.getStr? "$ref" with
    | some reference => (schemas.get? (Document.simpleName reference)).bind Json.obj?
    | none => branch.obj?
  schema.filter (declares · property)

/-- The branches of an `allOf` with the first that declares the property narrowed, none when no
branch declares it. -/
def narrowBranches? (schemas : Json.Members) (property value : String) :
    List Json → Option (List Json)
  | [] => none
  | branch :: rest =>
    match declaring? schemas property branch with
    | some schema => some (.obj (narrowed schema property value) :: rest)
    | none => (narrowBranches? schemas property value rest).map (branch :: ·)

/-- A branch list that is to replace the `allOf` of a named schema. -/
abbrev Narrowing := String × List Json

/-- The variant for one entry of a mapping, and the narrowing it asks for; none when the target is
not a known schema. -/
def variant? (schemas : Json.Members) (property value : String) (target : Json) :
    Option (Json × Option Narrowing) := do
  let reference ← target.str?
  let name := Document.simpleName reference
  let schema ← (schemas.get? name).bind Json.obj?
  if declares schema property then
    return (.obj (narrowed schema property value), none)
  match ((schema.get? "allOf").bind Json.arr?).bind (narrowBranches? schemas property value) with
  | some branches =>
    let copy := (schema.swapErase "discriminator").insert "allOf" (.arr branches)
    return (.obj copy, some (name, branches))
  | none => return (.obj schema, none)

/-- The variants of a mapping in order, with the narrowings they ask for. -/
def variants (schemas : Json.Members) (property : String) (mapping : Json.Members) :
    List Json × List Narrowing :=
  let found := mapping.entries.filterMap fun (value, target) =>
    variant? schemas property value target
  (found.map (·.1), found.filterMap (·.2))

/-- Flattens a node with a discriminator. Without a property name or a mapping the discriminator is
only removed. -/
def flatten (schemas : Json.Members) (node : Json.Members) : Json.Members × List Narrowing :=
  match node.get? "discriminator" with
  | none => (node, [])
  | some discriminator =>
    let node := node.swapErase "discriminator"
    match discriminator.getStr? "propertyName", discriminator.getObj? "mapping" with
    | some property, some mapping =>
      -- Every removal moves the last member into the gap, so their order shows.
      let existing := ((node.get? "oneOf").bind Json.arr?).getD []
      let (branches, narrowings) := variants schemas property mapping
      let node := (node.swapErase "oneOf").insert "oneOf" (.arr (existing ++ branches))
      (node.swapErase "properties", narrowings)
    | _, _ => (node, [])

/-- What a pass has gathered: the narrowings, and how many nodes it flattened. -/
structure Progress where
  narrowings : List Narrowing
  flattened : Nat

/-- Flattens a node with a discriminator and does not go below it. -/
def flattenVisitor (schemas : Json.Members) : Visitor Progress := fun node s =>
  if node.contains "discriminator" then
    let (node, narrowings) := flatten schemas node
    (.skip node, ⟨s.narrowings ++ narrowings, s.flattened + 1⟩)
  else (.descend node, s)

/-- Stores a narrowed `allOf` under its name. -/
def applyNarrowing (schemas : Json.Members) : Narrowing → Json.Members
  | (name, branches) =>
    match schemas.get? name with
    | some (.obj target) => schemas.replace name (.obj (target.insert "allOf" (.arr branches)))
    | _ => schemas

/-- One pass: the description after it, and how many nodes it flattened. -/
def pass (d : Document) : Document × Nat :=
  let (root, progress) := walkDocument (flattenVisitor (d.schemas.getD .empty)) d.root ⟨[], 0⟩
  let d : Document := ⟨root⟩
  match d.schemas with
  | some schemas =>
    (d.withSchemas (progress.narrowings.foldl applyNarrowing schemas), progress.flattened)
  | none => (d, progress.flattened)

/-- Drops the discriminator of the node it is given. -/
def dropVisitor : Visitor Unit := fun node s => (.descend (node.swapErase "discriminator"), s)

/-- Up to `n` passes, as long as a pass finds something to flatten. -/
def passes : Nat → Document → Document
  | 0, d => ⟨(walkDocument dropVisitor d.root ()).1⟩
  | n + 1, d =>
    let (d, flattened) := pass d
    if flattened = 0 then d else passes n d

/-- The description without discriminators. -/
def flattenAll (d : Document) : Document := passes maxPasses d

end ToolGateway.Schema.Discriminator
