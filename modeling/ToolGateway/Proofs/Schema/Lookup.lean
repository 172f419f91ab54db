import ToolGateway.Proofs.Reference.Keys
import ToolGateway.Proofs.Schema.Branches

/-!
# What a reference names

Two parts of the gateway look schemas up. Flattening takes what stands behind the last slash of a
reference for the name of a component of the description at hand, whatever the reference says before
it. Resolution reads all of the reference: the document before the number sign, and the decoded
pointer behind it. They agree on a reference in every description exactly when it leads to that
component (`lookup_agrees_iff`), and one does that is written in the usual way
(`namesComponent_plain`).
-/

namespace ToolGateway

/-! ### Texts -/

theorem Text.afterLast_append {sep : Char} {s name : String} {before : List Char}
    (text : s.toList = before ++ sep :: name.toList) (h : sep ∉ name.toList) :
    afterLast sep s = name := by
  have plain : ∀ c ∈ name.toList.reverse, (c != sep) = true := by
    intro c hc
    rw [bne_iff_ne]
    rintro rfl
    exact h (List.mem_reverse.mp hc)
  rw [afterLast, text, List.reverse_append, List.reverse_cons, List.append_assoc,
    List.takeWhile_append_of_pos plain, List.singleton_append,
    List.takeWhile_cons_of_neg (by simp), List.append_nil, List.reverse_reverse,
    String.ofList_toList]

namespace Pointer

theorem unescape_of_notMem {cs : List Char} (h : '~' ∉ cs) : unescape cs = cs := by
  fun_induction unescape cs with
  | case1 | case2 => simp at h
  | case3 c rest _ _ ih => rw [ih fun tilde => h (List.mem_cons_of_mem _ tilde)]
  | case4 => rfl

theorem ofFragment_of_notMem {fragment : String} (h : '%' ∉ fragment.toList) :
    ofFragment fragment = fragment := by
  have plain : ¬ Text.mentions fragment '%' = true := by simpa [Text.mentions] using h
  exact if_neg plain

/-- The steps of a pointer to a component. -/
theorem steps?_component {name : String} (slash : '/' ∉ name.toList) (tilde : '~' ∉ name.toList) :
    steps? ("/components/schemas/" ++ name) = some ["components", "schemas", name] := by
  have parts : Text.pieces (· == '/') ("components/schemas/".toList ++ name.toList) =
      ["components".toList, "schemas".toList, name.toList] := by
    have plain : ∀ c ∈ name.toList, (c == '/') = false := by
      intro c hc
      rw [beq_eq_false_iff_ne]
      rintro rfl
      exact slash hc
    show Text.pieces (· == '/') ("components".toList ++ '/' :: ("schemas".toList ++ '/' ::
      name.toList)) = _
    rw [Text.pieces_append_cons (by simp) rfl, Text.pieces_append_cons (by simp) rfl,
      Text.pieces_of_forall plain]
  have text : ("/components/schemas/" ++ name).toList =
      '/' :: ("components/schemas/".toList ++ name.toList) := String.toList_append
  rw [steps?, text]
  simp only [parts, List.map_cons, List.map_nil, unescape_of_notMem tilde, String.ofList_toList]
  rfl

end Pointer

namespace Schema.Discriminator

variable {files : Files} {l : Library} {base : Source} {reference name : String} {root : Json}
  {schemas : Json.Members}

/-! ### Two ways to look up a schema -/

/-- The object that the resolver looks up for a reference in a document. -/
def resolved? (files : Files) (l : Library) (base : Source) (reference : String) :
    Option Json.Members :=
  match Target.parse files base reference with
  | .ok t => (l.find? t).bind (·.2.obj?)
  | .error _ => none

/-- A reference leads into the document in which it stands, to the component that has what stands
behind its last slash for a name. -/
def NamesComponent (files : Files) (base : Source) (reference : String) : Prop :=
  ∃ t p, Target.parse files base reference = .ok t ∧ t.source.same base = true ∧
    t.pointer = some p ∧
    Pointer.steps? p = some ["components", "schemas", Document.simpleName reference]

theorem same_self (s : Source) : s.same s = true := Source.same_iff.mpr rfl

/-- The steps to a component lead to it. -/
theorem follow_component (hs : (Document.mk root).schemas = some schemas) :
    Pointer.follow root ["components", "schemas", name] = schemas.get? name := by
  obtain ⟨members, components, rfl, hc, hs⟩ := Document.schemas_eq_some_iff.mp hs
  show Option.bind (Dict.get? members "components") _ = _
  rw [hc, Option.bind_some]
  show Option.bind (Dict.get? components "schemas") _ = _
  rw [hs, Option.bind_some]
  show Option.bind (Dict.get? schemas name) some = _
  rw [Option.bind_fun_some]

theorem target?_eq_resolved? (names : NamesComponent files base reference)
    (hd : l.document? base = some (base, root))
    (hs : (Document.mk root).schemas = some schemas) :
    target? schemas (.str reference) = resolved? files l base reference := by
  obtain ⟨t, p, parsed, same, pointer, steps⟩ := names
  have document : l.document? t.source = some (base, root) := by
    rw [Library.document?_congr (Source.same_iff.mp same), hd]
  have found : l.find? t = (schemas.get? (Document.simpleName reference)).map (t.source, ·) := by
    rw [Library.find?, document, pointer]
    show (Pointer.find? root p).map _ = _
    rw [Pointer.find?, steps, Option.bind_some, follow_component hs]
  rw [resolved?, parsed]
  show _ = (l.find? t).bind _
  rw [found, Option.bind_map]
  rfl

namespace Sample

/-- A description that has nothing but one component. -/
def only (name : String) : Json.Members :=
  ⟨[("components", .object [("schemas", .object [(name, .obj .empty)])])]⟩

end Sample

theorem follow_object_cons_iff {key step : String} {v w : Json} {steps : List String} :
    Pointer.follow (.object [(key, v)]) (step :: steps) = some w ↔
      key = step ∧ Pointer.follow v steps = some w := by
  show Option.bind (if key = step then some v else none) _ = _ ↔ _
  by_cases same : key = step
  · rw [if_pos same, Option.bind_some]
    exact (and_iff_right same).symm
  · rw [if_neg same]
    exact iff_of_false nofun fun both => same both.1

open Sample in
/-- The steps that lead to the empty object in a description with one component are those to that
component. -/
theorem eq_of_follow_only {steps : List String}
    (h : Pointer.follow (.obj (only name)) steps = some (.obj .empty)) :
    steps = ["components", "schemas", name] := by
  cases steps with
  | nil => cases h
  | cons a steps =>
    obtain ⟨rfl, inComponents⟩ := follow_object_cons_iff.mp h
    cases steps with
    | nil => cases inComponents
    | cons b steps =>
      obtain ⟨rfl, inSchemas⟩ := follow_object_cons_iff.mp inComponents
      cases steps with
      | nil => cases inSchemas
      | cons c steps =>
        obtain ⟨rfl, inside⟩ := follow_object_cons_iff.mp inSchemas
        cases steps with
        | nil => rfl
        | cons _ _ => cases inside

open Sample in
/-- Where both find the same in every description, the reference leads to the component. -/
theorem namesComponent_of_agree
    (agree : ∀ (l : Library) root schemas, l.document? base = some (base, root) →
      (Document.mk root).schemas = some schemas →
        target? schemas (.str reference) = resolved? files l base reference) :
    NamesComponent files base reference := by
  -- Agreement is used where the component stands alone: what is found there is found by its steps.
  have document :
      (Library.mk [(base, .obj (only (Document.simpleName reference)))]).document? base =
        some (base, .obj (only (Document.simpleName reference))) := by
    simp [Library.document?, same_self]
  have found := agree _ _ ⟨[(Document.simpleName reference, .obj .empty)]⟩ document rfl
  have here : target? ⟨[(Document.simpleName reference, .obj .empty)]⟩ (.str reference) =
      some .empty := by
    simp [target?, Json.str?, Dict.get?, Dict.lookup, Json.obj?]
  rw [here, resolved?] at found
  split at found
  · next t parsed =>
    obtain ⟨⟨source, v⟩, point, hv⟩ := Option.bind_eq_some_iff.mp found.symm
    rw [Json.obj?_eq_some_iff] at hv
    rw [Library.find?] at point
    split at point
    · cases point
    · -- The whole description is not empty.
      next d hd _ =>
      obtain ⟨mem, -⟩ := Library.document?_spec hd
      cases List.mem_singleton.mp mem
      cases point
      cases hv
    · next p hd pointer =>
      obtain ⟨mem, same⟩ := Library.document?_spec hd
      cases List.mem_singleton.mp mem
      obtain ⟨w, hw, eq⟩ := Option.map_eq_some_iff.mp point
      cases eq
      obtain ⟨steps, hsteps, follow⟩ := Option.bind_eq_some_iff.mp hw
      obtain rfl : v = _ := hv
      exact ⟨t, p, parsed, same, pointer, eq_of_follow_only follow ▸ hsteps⟩
  · cases found

/-- A fragment without percent signs is the pointer, in the document where the reference stands. -/
theorem parse_fragment (files : Files) (base : Source) {fragment : String}
    (text : reference.toList = '#' :: fragment.toList)
    (slash : Text.startsWith fragment "/" = true) (plain : '%' ∉ fragment.toList) :
    Target.parse files base reference = .ok ⟨base, some fragment⟩ := by
  have parts : Target.parts reference = ("", some fragment) := by
    rw [Target.parts, text, Text.splitOnce?_cons_self]
    simp only [String.ofList_nil, String.ofList_toList]
  have filled : fragment.isEmpty = false := by
    rw [← Bool.not_eq_true, String.isEmpty_iff]
    rintro rfl
    cases slash
  have pointer : Target.pointerOf base reference (some fragment) = .ok (some fragment) := by
    rw [Target.pointerOf, filled, slash, Pointer.ofFragment_of_notMem plain]
    rfl
  rw [Target.parse, parts]
  show Except.bind (base.relative files "") _ = _
  rw [show base.relative files "" = .ok base from rfl]
  show Except.bind (Target.pointerOf _ _ _) _ = _
  rw [pointer]
  rfl

/-- A reference of the usual form leads to the component that it names. -/
theorem namesComponent_plain (files : Files) (base : Source) (slash : '/' ∉ name.toList)
    (tilde : '~' ∉ name.toList) (percent : '%' ∉ name.toList) :
    NamesComponent files base ("#/components/schemas/" ++ name) := by
  have text : ("#/components/schemas/" ++ name).toList =
      '#' :: ("/components/schemas/" ++ name).toList := by
    rw [String.toList_append, String.toList_append]
    rfl
  have last : Document.simpleName ("#/components/schemas/" ++ name) = name := by
    have parts : ("#/components/schemas/" ++ name).toList =
        "#/components/schemas".toList ++ '/' :: name.toList := by
      rw [String.toList_append, show "#/components/schemas/".toList =
        "#/components/schemas".toList ++ ['/'] by decide, List.append_assoc, List.singleton_append]
    exact Text.afterLast_append parts slash
  have slashed : Text.startsWith ("/components/schemas/" ++ name) "/" = true := by
    rw [Text.startsWith, String.toList_append]
    rfl
  have plain : '%' ∉ ("/components/schemas/" ++ name).toList := by
    rw [String.toList_append, List.mem_append, not_or]
    exact ⟨by decide, percent⟩
  have steps := Pointer.steps?_component slash tilde
  generalize "/components/schemas/" ++ name = fragment at text slashed plain steps
  refine ⟨⟨base, some fragment⟩, fragment, parse_fragment files base text slashed plain,
    same_self base, rfl, ?_⟩
  rw [last]
  exact steps

/-- What flattening copies for a mapping value, and what it narrows for a branch of an `allOf` that
is a reference, is the component with what stands behind the last slash of the reference for a name.
It is what the resolver looks up in the same description, whichever that is, exactly when the
reference leads there. A reference of the usual form does, one into another document or another
section does not. -/
theorem lookup_agrees_iff (files : Files) (base : Source) (reference : String) :
    (∀ schemas property value, Option.Rel (IsVariant schemas property)
      ((target? schemas (.str reference)).map (value, ·))
      ((variant? schemas property value (.str reference)).map (·.1))) ∧
    (∀ (schemas : Json.Members) (property : String) (branch : Json),
      branch.getStr? "$ref" = some reference → declaring? schemas property branch =
        (target? schemas (.str reference)).filter (declares · property)) ∧
    (∀ schemas : Json.Members, target? schemas (.str reference) =
      (schemas.get? (Document.simpleName reference)).bind Json.obj?) ∧
    ((∀ (l : Library) root schemas, l.document? base = some (base, root) →
        (Document.mk root).schemas = some schemas →
          target? schemas (.str reference) = resolved? files l base reference) ↔
      NamesComponent files base reference) ∧
    (∀ name, reference = "#/components/schemas/" ++ name → '/' ∉ name.toList →
      '~' ∉ name.toList → '%' ∉ name.toList → NamesComponent files base reference) := by
  refine ⟨fun schemas property value => rel_variant? schemas property (value, .str reference),
    fun schemas property branch ref => ?_, fun _ => rfl,
    ⟨namesComponent_of_agree, fun names _ _ _ hd hs => target?_eq_resolved? names hd hs⟩, ?_⟩
  · rw [declaring?, ref]
    rfl
  · rintro name rfl slash tilde percent
    exact namesComponent_plain files base slash tilde percent

namespace Sample

/-- A house cat. -/
def tame : Json.Members :=
  ⟨[("properties", .object [("kind", .object [("type", .str "string")]), ("meows", .object [])])]⟩

/-- A wild cat. -/
def wild : Json.Members :=
  ⟨[("properties", .object [("kind", .object [("type", .str "string")]), ("hunts", .object [])])]⟩

def zooSchemas : Json.Members := ⟨[("Cat", .obj tame), ("Old Cat", .obj wild)]⟩

/-- A description with a cat among its components, and another one in a section of its own. -/
def zoo : Json :=
  .object [("components", .object [("schemas", .obj zooSchemas)]),
    ("x-schemas", .object [("Cat", .obj wild)])]

def zooFile : Source := .file "zoo.json"

end Sample

open Sample in
/-- A reference to the wild cat in its section gets the house cat. So does one to a cat in another
document, and one to the old cat in percent-coding gets none. -/
theorem lookup_crosses_sections :
    (Document.mk zoo).schemas = some zooSchemas ∧ tame ≠ wild ∧
      (resolved? default ⟨[(zooFile, zoo)]⟩ zooFile "#/x-schemas/Cat" = some wild ∧
        variant? zooSchemas "kind" "cat" (.str "#/x-schemas/Cat") =
          some (.obj (narrowed tame "kind" "cat"), none)) ∧
      (Target.parse default zooFile "wild.json#/components/schemas/Cat" =
          .ok ⟨.file "wild.json", some "/components/schemas/Cat"⟩ ∧
        variant? zooSchemas "kind" "cat" (.str "wild.json#/components/schemas/Cat") =
          some (.obj (narrowed tame "kind" "cat"), none)) ∧
      resolved? default ⟨[(zooFile, zoo)]⟩ zooFile "#/components/schemas/Old%20Cat" = some wild ∧
        variant? zooSchemas "kind" "old" (.str "#/components/schemas/Old%20Cat") = none := by
  have decoded : Pointer.ofFragment "/components/schemas/Old%20Cat" =
      "/components/schemas/Old Cat" := by decide +kernel
  have parsed : Target.parse default zooFile "#/components/schemas/Old%20Cat" =
      .ok ⟨zooFile, some (Pointer.ofFragment "/components/schemas/Old%20Cat")⟩ := rfl
  have resolves : resolved? default ⟨[(zooFile, zoo)]⟩ zooFile "#/components/schemas/Old%20Cat" =
      some wild := by
    rw [resolved?, parsed, decoded]
    rfl
  exact ⟨rfl, by simp [tame, wild, Json.object], ⟨rfl, rfl⟩, ⟨rfl, rfl⟩, resolves, rfl⟩

end Schema.Discriminator

end ToolGateway
