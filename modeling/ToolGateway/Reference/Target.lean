import ToolGateway.Reference.Pointer
import ToolGateway.Source.Basic

/-!
# Targets of references

A reference is an object with a string under `$ref`. The text names a document, the one that holds
the reference when nothing stands before the number sign, and a place in it after the sign.
-/

namespace ToolGateway

/-- What a reference points to: a whole document, or a place in it. -/
structure Target where
  source : Source
  pointer : Option String
deriving DecidableEq, Repr, Inhabited

namespace Target

/-- The text that tells a target from others. -/
def key (t : Target) : String :=
  match t.pointer with
  | none => t.source.key
  | some p => t.source.key ++ "#" ++ p

/-- The document part of a reference and its fragment. -/
def parts (reference : String) : String × Option String :=
  match Text.splitOnce? '#' reference.toList with
  | some (document, fragment) => (String.ofList document, some (String.ofList fragment))
  | none => (reference, none)

/-- The pointer in a fragment; an empty fragment stands for the whole document. -/
def pointerOf (base : Source) (reference : String) : Option String → Except Error (Option String)
  | none => .ok none
  | some fragment =>
    if fragment.isEmpty then .ok none
    else if Text.startsWith fragment "/" then .ok (some (Pointer.ofFragment fragment))
    else
      .error (base.fault
        s!"Unsupported $ref fragment (expected JSON pointer starting with '/'): {reference}")

/-- The target of a reference in a document from `base`. -/
def parse (files : Files) (base : Source) (reference : String) : Except Error Target := do
  let (document, fragment) := parts reference
  let source ← base.relative files document
  let pointer ← pointerOf base reference fragment
  return ⟨source, pointer⟩

/-- The texts that a reference can bring into the path of a file. -/
def texts (reference : String) : List String :=
  let part := (parts reference).1
  part :: ("/" ++ part) :: ((Url.parse part).toOption.bind Url.filePath?).toList

end Target

/-- The text of the reference that an object is, if it is one. -/
def Json.referenceOf? (members : List (String × Json)) : Option String :=
  (Dict.lookup "$ref" members).bind Json.str?

mutual

/-- The references in a value, outer ones first. -/
def Json.references : Json → List String
  | .obj ⟨members⟩ => (Json.referenceOf? members).toList ++ Json.memberReferences members
  | .arr items => Json.itemReferences items
  | _ => []

def Json.itemReferences : List Json → List String
  | [] => []
  | v :: rest => v.references ++ Json.itemReferences rest

def Json.memberReferences : List (String × Json) → List String
  | [] => []
  | (_, v) :: rest => v.references ++ Json.memberReferences rest

end

/-- The targets of the references in a value of a document; texts that are no references are left
out. -/
def Target.within (files : Files) (base : Source) (v : Json) : List Target :=
  v.references.filterMap fun r => (Target.parse files base r).toOption

end ToolGateway
