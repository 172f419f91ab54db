import ToolGateway.Proofs.Schema.Calls
import ToolGateway.Proofs.Schema.Filtering

/-!
# What goes with the patterns

A textual `pattern` is taken out of every schema that a walk visits, and nothing else is changed but
the order of the members of that schema (`removePatterns_frame`). Whether a member called `pattern`
is a keyword or a name is told by the path to it: a keyword is a member of an object that stands at
a position. The positions are the same before and after, so a second run finds nothing to do.
-/

namespace ToolGateway.Schema

open Json (Step Path)

/-- A node that a walk over a description visits, at its path. -/
abbrev VisitedAt (root : Json) (path : Path) (n : Json.Members) : Prop :=
  Position (.part .document) root path n

/-- The path leads to a textual pattern of a node that is visited. -/
def IsPattern (root : Json) (path : Path) : Prop :=
  ∃ above n text, VisitedAt root above n ∧ n.get? "pattern" = some (.str text) ∧
    path = above ++ [.member "pattern"]

/-! ### One node -/

section

variable {n : Json.Members}

theorem keepsPlaces_patternVisitor : KeepsPlaces patternVisitor := by
  intro n s distinct k place
  obtain ⟨n', on, -, same⟩ := patternVisitor_spec distinct.keys s
  rw [on]
  exact same k (ne_of_mem_places k place).2.2

theorem not_skips_patternVisitor (c : Call Unit) : ¬c.Skips patternVisitor := by
  rintro ⟨out, skipped⟩
  unfold patternVisitor at skipped
  split at skipped <;> cases skipped

theorem patternVisitor_of_text {text : String} (h : n.get? "pattern" = some (.str text))
    (s : Unit) : patternVisitor n s = (.descend (n.swapErase "pattern"), s) := by
  rw [patternVisitor, h]

theorem patternVisitor_of_none (h : ∀ text, n.get? "pattern" ≠ some (.str text)) (s : Unit) :
    patternVisitor n s = (.descend n, s) := by
  unfold patternVisitor
  split
  · next text there => exact absurd there (h text)
  · rfl

/-- Below a node everything is found as before, but for its textual pattern. -/
theorem at?_patternVisitor (nodup : n.keys.Nodup) (s : Unit) {rest : Path} (below : rest ≠ [])
    (other : ∀ text, n.get? "pattern" = some (.str text) → rest ≠ [.member "pattern"]) :
    (Json.obj (patternVisitor n s).1.node).at? rest = (Json.obj n).at? rest := by
  by_cases textual : ∃ text, n.get? "pattern" = some (.str text)
  · obtain ⟨text, there⟩ := textual
    rw [patternVisitor_of_text there]
    match rest with
    | [] => exact absurd rfl below
    | .item _ :: _ => rfl
    | .member k :: tail =>
      show (Dict.get? (n.swapErase "pattern") k).bind _ = (n.get? k).bind _
      by_cases same : "pattern" = k
      · subst same
        rw [Dict.get?_swapErase_self nodup, there]
        cases tail with
        | nil => exact absurd rfl (other text there)
        | cons _ _ => rfl
      · rw [Dict.get?_swapErase_of_ne nodup same]
  · rw [patternVisitor_of_none fun text there => textual ⟨text, there⟩]
    rfl

end

/-! ### The calls of the visitor -/

section

variable {d : Document} {path : Path} {n : Json.Members}

/-- The visitor is called for every node at a position. -/
theorem exists_calls_removePatterns (distinct : d.root.Distinct) :
    ∃ calls, Tour patternVisitor (VisitedAt d.root) d.root () calls (removePatterns d).root () ∧
      ∀ path n, Meets calls path n ↔ VisitedAt d.root path n := by
  obtain ⟨calls, tour⟩ := exists_tour keepsPlaces_patternVisitor distinct ()
  refine ⟨calls, tour, fun path n => (tour.met path n).trans (and_iff_left ?_)⟩
  intro c _ skips
  exact absurd skips (not_skips_patternVisitor c)

/-- Where no node is visited and no pattern stands, nothing that the visitor does is seen. -/
theorem kept_of_removePatterns {calls : List (Call Unit)} (distinct : d.root.Distinct)
    (met : ∀ path n, Meets calls path n ↔ VisitedAt d.root path n)
    (here : ∀ n, ¬VisitedAt d.root path n) (other : ¬IsPattern d.root path) :
    ∀ c ∈ calls, ∀ rest, path = c.path ++ rest →
      (Json.obj (c.answer patternVisitor)).at? rest = (Json.obj c.node).at? rest := by
  rintro c mem rest rfl
  have visited := (met c.path c.node).mp ⟨c, mem, rfl, rfl⟩
  apply at?_patternVisitor (distinct.at? visited.schema.1).keys
  · rintro rfl
    rw [List.append_nil] at here
    exact here c.node visited
  · rintro text there rfl
    exact other ⟨c.path, c.node, text, visited, there, rfl⟩

/-- Where no node is visited and no pattern stands, the outline is kept. -/
theorem outline_removePatterns (distinct : d.root.Distinct)
    (here : ∀ n, ¬VisitedAt d.root path n) (other : ¬IsPattern d.root path) :
    ((removePatterns d).root.at? path).map Json.outline =
      (d.root.at? path).map Json.outline := by
  obtain ⟨calls, tour, met⟩ := exists_calls_removePatterns distinct
  exact tour.performs.outline_at? (kept_of_removePatterns distinct met here other)

/-- Where no node is visited below either, the value is kept. -/
theorem at?_removePatterns (distinct : d.root.Distinct)
    (below : ∀ rest n, ¬VisitedAt d.root (path ++ rest) n) (other : ¬IsPattern d.root path) :
    (removePatterns d).root.at? path = d.root.at? path := by
  obtain ⟨calls, tour, met⟩ := exists_calls_removePatterns distinct
  have here : ∀ n, ¬VisitedAt d.root path n := by
    intro n visited
    apply below [] n
    rw [List.append_nil]
    exact visited
  refine tour.performs.at?_eq (kept_of_removePatterns distinct met here other) fun c mem under => ?_
  obtain ⟨rest, same⟩ := under
  apply below rest c.node
  rw [same]
  exact (met c.path c.node).mp ⟨c, mem, rfl, rfl⟩

/-- A node that is visited stays an object, with the keys that the visitor leaves. -/
theorem exists_keys_removePatterns (distinct : d.root.Distinct)
    (visited : VisitedAt d.root path n) :
    ∃ m, (removePatterns d).root.at? path = some (.obj m) ∧
      m.keys = (patternVisitor n ()).1.node.keys := by
  obtain ⟨calls, tour, met⟩ := exists_calls_removePatterns distinct
  obtain ⟨c, mem, rfl, rfl⟩ := (met path n).mpr visited
  obtain ⟨v, there, same⟩ := Option.map_eq_some_iff.mp (tour.performs.outline_answer tour.ordered mem)
  obtain ⟨m, rfl, keys⟩ := Json.exists_obj_of_outline same
  exact ⟨m, there, keys⟩

theorem keys_of_visitedAt (distinct : d.root.Distinct) (visited : VisitedAt d.root path n) :
    ∃ m, (removePatterns d).root.at? path = some (.obj m) ∧
      (∀ text, n.get? "pattern" = some (.str text) → m.keys.Perm (n.keys.filter (· != "pattern"))) ∧
      ((∀ text, n.get? "pattern" ≠ some (.str text)) → m.keys = n.keys) := by
  obtain ⟨m, there, keys⟩ := exists_keys_removePatterns distinct visited
  have nodup : n.keys.Nodup := (distinct.at? visited.schema.1).keys
  refine ⟨m, there, fun text textual => ?_, fun none => ?_⟩
  · rw [keys, patternVisitor_of_text textual]
    exact Dict.keys_swapErase_perm nodup
  · rw [keys, patternVisitor_of_none none]
    rfl

/-- A reference at a node is there afterwards exactly when it was before. -/
theorem contains_of_visitedAt (distinct : d.root.Distinct) (visited : VisitedAt d.root path n)
    {m : Json.Members} (there : (removePatterns d).root.at? path = some (.obj m)) :
    m.contains "$ref" = false := by
  obtain ⟨m', there', keys⟩ := exists_keys_removePatterns distinct visited
  rw [there] at there'
  cases there'
  have nodup : n.keys.Nodup := (distinct.at? visited.schema.1).keys
  obtain ⟨n', on, -, same⟩ := patternVisitor_spec nodup ()
  have own := visited.own path n List.prefix_rfl visited.schema
  rw [Bool.eq_false_iff, Ne, ← Dict.mem_keys_iff, keys, Dict.mem_keys_iff, on]
  show ¬(n'.get? "$ref").isSome = true
  rw [same "$ref" (by decide)]
  exact Bool.eq_false_iff.mp own

/-- No pattern is left where one was. -/
theorem at?_of_isPattern (distinct : d.root.Distinct) (h : IsPattern d.root path) :
    (removePatterns d).root.at? path = none := by
  obtain ⟨above, n, text, visited, textual, rfl⟩ := h
  obtain ⟨m, there, keys, -⟩ := keys_of_visitedAt distinct visited
  have gone : m.get? "pattern" = none := by
    rw [← Dict.contains_eq_false_iff, Bool.eq_false_iff, Ne, ← Dict.mem_keys_iff,
      (keys text textual).mem_iff]
    simp
  rw [Json.at?_append, there]
  show (m.get? "pattern").bind _ = none
  rw [gone]
  rfl

/-- The pattern of a node is a text. -/
theorem at?_isPattern (h : IsPattern d.root path) : ∃ text, d.root.at? path = some (.str text) := by
  obtain ⟨above, n, text, visited, textual, rfl⟩ := h
  refine ⟨text, ?_⟩
  rw [Json.at?_append, visited.schema.1]
  show (n.get? "pattern").bind _ = _
  rw [textual]
  rfl

/-! ### The nodes visited afterwards -/

/-- A schema that stands somewhere afterwards and was not visited was a schema before, with the same
keys. -/
theorem schemaAt_of_removePatterns (distinct : d.root.Distinct)
    (here : ∀ n, ¬VisitedAt d.root path n) {m : Json.Members}
    (schema : SchemaAt (.part .document) (removePatterns d).root path m) :
    ∃ n, SchemaAt (.part .document) d.root path n ∧ n.keys = m.keys := by
  have other : ¬IsPattern d.root path := by
    intro isPattern
    have gone := at?_of_isPattern distinct isPattern
    rw [schema.1] at gone
    cases gone
  have same := outline_removePatterns distinct here other
  rw [schema.1] at same
  obtain ⟨v, there, same⟩ := Option.map_eq_some_iff.mp same.symm
  obtain ⟨n, rfl, keys⟩ := Json.exists_obj_of_outline same
  exact ⟨n, ⟨there, schema.2⟩, keys⟩

/-- What was visited at some path is visited there afterwards. -/
theorem VisitedAt.after (distinct : d.root.Distinct) (visited : VisitedAt d.root path n) :
    ∃ m, VisitedAt (removePatterns d).root path m := by
  obtain ⟨m, there, -⟩ := keys_of_visitedAt distinct visited
  refine ⟨m, ⟨there, visited.schema.2⟩, fun above m' isPrefix schema => ?_⟩
  -- A schema on the way was visited as well, and the visitor adds no reference to it.
  by_cases found : ∃ n', VisitedAt d.root above n'
  · obtain ⟨n', found⟩ := found
    exact contains_of_visitedAt distinct found schema.1
  · have none : ∀ n', ¬VisitedAt d.root above n' := fun n' h => found ⟨n', h⟩
    obtain ⟨n', before, -⟩ := schemaAt_of_removePatterns distinct none schema
    exact absurd (visited.above isPrefix before) (none n')

/-- What is visited at some path was visited there before. -/
theorem VisitedAt.before (distinct : d.root.Distinct) {m : Json.Members}
    (visited : VisitedAt (removePatterns d).root path m) : ∃ n, VisitedAt d.root path n := by
  apply Classical.byContradiction
  intro unvisited
  have none : ∀ n, ¬VisitedAt d.root path n := fun n h => unvisited ⟨n, h⟩
  obtain ⟨n, schema, -⟩ := schemaAt_of_removePatterns distinct none visited.schema
  refine none n ⟨schema, fun above n' isPrefix before => Bool.eq_false_iff.mpr fun ref => ?_⟩
  -- A reference on the way is not visited, so it is still there.
  have noNode : ∀ n, ¬VisitedAt d.root above n := by
    intro n'' h
    have same := h.schema.1.symm.trans before.1
    cases same
    rw [h.own above n' List.prefix_rfl before] at ref
    cases ref
  have other : ¬IsPattern d.root above := by
    intro isPattern
    obtain ⟨text, there⟩ := at?_isPattern isPattern
    rw [before.1] at there
    cases there
  have same := outline_removePatterns distinct noNode other
  rw [before.1] at same
  obtain ⟨v, there, same⟩ := Option.map_eq_some_iff.mp same
  obtain ⟨m', rfl, keys⟩ := Json.exists_obj_of_outline same
  have own := visited.own above m' isPrefix ⟨there, before.2⟩
  rw [Bool.eq_false_iff, Ne, ← Dict.mem_keys_iff, keys, Dict.mem_keys_iff] at own
  exact own ref

/-- A second run changes nothing. -/
theorem removePatterns_removePatterns (distinct : d.root.Distinct) :
    removePatterns (removePatterns d) = removePatterns d := by
  have none := patternless_removePatterns distinct
  have still := (walks_walkDocument patternVisitor (removePatterns d).root ()).unmoved trivial
    fun n visits s => patternVisitor_of_none (none n (mem_visited_iff.mpr visits)) s
  exact congrArg Document.mk still.1

/-- Removing the patterns of a description that repeats no key calls the visitor for the nodes that
are visited, and for no others. Where no node is visited, the outline of every value is kept, and a
value with no such node in it is kept as it is, unless it is a textual pattern of a node: that is
gone. A node that is visited has its other keys still, and in their order when it had no textual
pattern. The paths of the nodes visited are the same afterwards, and a second run changes nothing. -/
theorem removePatterns_frame (distinct : d.root.Distinct) :
    (∃ calls, Performs patternVisitor d.root () calls (removePatterns d).root () ∧
      ∀ path n, (∃ c ∈ calls, c.path = path ∧ c.node = n) ↔ VisitedAt d.root path n) ∧
    (∀ path, (∀ n, ¬VisitedAt d.root path n) → ¬IsPattern d.root path →
      ((removePatterns d).root.at? path).map Json.outline =
        (d.root.at? path).map Json.outline) ∧
    (∀ path, (∀ rest n, ¬VisitedAt d.root (path ++ rest) n) → ¬IsPattern d.root path →
      (removePatterns d).root.at? path = d.root.at? path) ∧
    (∀ path, IsPattern d.root path → (removePatterns d).root.at? path = none) ∧
    (∀ path n, VisitedAt d.root path n → ∃ m, (removePatterns d).root.at? path = some (.obj m) ∧
      (∀ text, n.get? "pattern" = some (.str text) →
        m.keys.Perm (n.keys.filter (· != "pattern"))) ∧
      ((∀ text, n.get? "pattern" ≠ some (.str text)) → m.keys = n.keys)) ∧
    (∀ path, (∃ m, VisitedAt (removePatterns d).root path m) ↔ ∃ n, VisitedAt d.root path n) ∧
    removePatterns (removePatterns d) = removePatterns d := by
  obtain ⟨calls, tour, met⟩ := exists_calls_removePatterns distinct
  refine ⟨⟨calls, tour.performs, met⟩, fun _ => outline_removePatterns distinct,
    fun _ => at?_removePatterns distinct, fun _ => at?_of_isPattern distinct,
    fun _ _ => keys_of_visitedAt distinct, fun path => ⟨?_, ?_⟩,
    removePatterns_removePatterns distinct⟩
  · rintro ⟨m, visited⟩
    exact VisitedAt.before distinct visited
  · rintro ⟨n, visited⟩
    exact VisitedAt.after distinct visited

/-- A schema with a pattern, a property of that name and an example that has a member of that name. -/
def coupon : Json.Members := ⟨[
  ("pattern", .str "^[A-Z]+$"),
  ("properties", .object [("pattern", .object [("type", .str "string")])]),
  ("example", .object [("pattern", .str "SALE")])]⟩

def coupons : Document :=
  ⟨.object [("components", .object [("schemas", .object [("Coupon", .obj coupon)])])]⟩

/-- The path to a member of the schema. -/
def couponPath (rest : Path) : Path :=
  .member "components" :: .member "schemas" :: .member "Coupon" :: rest

theorem visitedAt_coupon : VisitedAt coupons.root (couponPath []) coupon :=
  position_component rfl rfl

theorem removePatterns_frame_coupons :
    coupons.root.Distinct ∧ VisitedAt coupons.root (couponPath []) coupon ∧
      (removePatterns coupons).root.at? (couponPath [.member "pattern"]) = none ∧
      (removePatterns coupons).root.at? (couponPath [.member "example"]) =
        some (.object [("pattern", .str "SALE")]) ∧
      removePatterns (removePatterns coupons) = removePatterns coupons := by
  have distinct : coupons.root.Distinct := by
    simp [coupons, coupon, Json.object, Json.distinct_obj_iff]
  obtain ⟨-, -, kept, gone, -, -, again⟩ := removePatterns_frame distinct
  refine ⟨distinct, visitedAt_coupon, ?_, ?_, again⟩
  · exact gone _ ⟨_, coupon, "^[A-Z]+$", visitedAt_coupon, rfl, rfl⟩
  · have below : ∀ rest n, ¬VisitedAt coupons.root (couponPath [.member "example"] ++ rest) n := by
      intro rest n visited
      obtain ⟨-, _, along, -⟩ := visited.schema
      cases along
    have other : ¬IsPattern coupons.root (couponPath [.member "example"]) := by
      intro isPattern
      obtain ⟨text, there⟩ := at?_isPattern isPattern
      cases there
    exact kept _ below other

end

end ToolGateway.Schema
