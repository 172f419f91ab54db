import ToolGateway.Schema.Walk

/-!
# Walking over every schema of a description

The walk goes through the path items in order, then through the reusable schemas and the other
reusable components. A parameter, header, request body or response holds a schema directly, under
its media types, and under its headers.
-/

namespace ToolGateway.Schema

variable {σ : Type}

/-- Changes the value under a key, if there is one. -/
def overMember (key : String) (f : Json → σ → Json × σ) (ms : Json.Members) (s : σ) :
    Json.Members × σ :=
  match ms.get? key with
  | some v =>
    let (v, s) := f v s
    (ms.replace key v, s)
  | none => (ms, s)

/-- Changes the members of an object; other values are left alone. -/
def overObject (f : Json.Members → σ → Json.Members × σ) (v : Json) (s : σ) : Json × σ :=
  match v with
  | .obj ms =>
    let (ms, s) := f ms s
    (.obj ms, s)
  | other => (other, s)

/-- Changes the items of a list in order. -/
def overEach (f : Json → σ → Json × σ) : List Json → σ → List Json × σ
  | [], s => ([], s)
  | v :: rest, s =>
    let (v, s) := f v s
    let (rest, s) := overEach f rest s
    (v :: rest, s)

/-- Changes the values of the entries in order. -/
def overEachEntry (f : Json → σ → Json × σ) :
    List (String × Json) → σ → List (String × Json) × σ
  | [], s => ([], s)
  | (k, v) :: rest, s =>
    let (v, s) := f v s
    let (rest, s) := overEachEntry f rest s
    ((k, v) :: rest, s)

/-- Changes the items of an array; other values are left alone. -/
def overItems (f : Json → σ → Json × σ) (v : Json) (s : σ) : Json × σ :=
  match v with
  | .arr items =>
    let (items, s) := overEach f items s
    (.arr items, s)
  | other => (other, s)

/-- Changes the values of an object; other values are left alone. -/
def overValues (f : Json → σ → Json × σ) (v : Json) (s : σ) : Json × σ :=
  match v with
  | .obj ⟨entries⟩ =>
    let (entries, s) := overEachEntry f entries s
    (.obj ⟨entries⟩, s)
  | other => (other, s)

mutual

/-- Walks over the schemas that a parameter, header, request body or response holds. -/
def walkHolder (visit : Visitor σ) (holder : Json) (s : σ) : Json × σ :=
  match holder with
  | .obj ms =>
    let (out, s) := overMember "schema" (walk visit) ms s
    let (out, s) :=
      overMember "content" (overValues (overObject (overMember "schema" (walk visit)))) out s
    match _h : ms.get? "headers" with
    | some (.obj ⟨headers⟩) =>
      let (headers, s) := walkHolders visit headers s
      (.obj (out.replace "headers" (.obj ⟨headers⟩)), s)
    | _ => (.obj out, s)
  | other => (other, s)
termination_by sizeOf holder
decreasing_by
  have := Dict.sizeOf_get?_lt _h
  simp only [Json.obj.sizeOf_spec, Dict.mk.sizeOf_spec] at *
  omega

/-- Walks over the schemas of named holders. -/
def walkHolders (visit : Visitor σ) (entries : List (String × Json)) (s : σ) :
    List (String × Json) × σ :=
  match entries with
  | [] => ([], s)
  | (name, holder) :: rest =>
    let (holder, s) := walkHolder visit holder s
    let (rest, s) := walkHolders visit rest s
    ((name, holder) :: rest, s)
termination_by sizeOf entries

end

def walkOperation (visit : Visitor σ) : Json → σ → Json × σ :=
  overObject fun op s =>
    let (op, s) := overMember "parameters" (overItems (walkHolder visit)) op s
    let (op, s) := overMember "requestBody" (walkHolder visit) op s
    overMember "responses" (overValues (walkHolder visit)) op s

/-- Walks over the operations of a path item, under the given method keys. -/
def walkMethods (visit : Visitor σ) : List String → Json.Members → σ → Json.Members × σ
  | [], item, s => (item, s)
  | method :: rest, item, s =>
    let (item, s) := overMember method (walkOperation visit) item s
    walkMethods visit rest item s

def walkPathItem (visit : Visitor σ) : Json → σ → Json × σ :=
  overObject fun item s =>
    let (item, s) := overMember "parameters" (overItems (walkHolder visit)) item s
    walkMethods visit Document.methods item s

/-- Walks over the holders of the given sections of the reusable components. -/
def walkSections (visit : Visitor σ) : List String → Json.Members → σ → Json.Members × σ
  | [], components, s => (components, s)
  | name :: rest, components, s =>
    let (components, s) := overMember name (overValues (walkHolder visit)) components s
    walkSections visit rest components s

def walkComponents (visit : Visitor σ) : Json → σ → Json × σ :=
  overObject fun components s =>
    let (components, s) := overMember "schemas" (overValues (walk visit)) components s
    walkSections visit holderSections components s

/-- Walks over every schema of a tree that is a description. -/
def walkDocument (visit : Visitor σ) : Json → σ → Json × σ :=
  overObject fun root s =>
    let (root, s) := overMember "paths" (overValues (walkPathItem visit)) root s
    overMember "components" (walkComponents visit) root s

end ToolGateway.Schema
