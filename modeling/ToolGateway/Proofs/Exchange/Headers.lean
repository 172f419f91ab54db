import ToolGateway.Exchange.Client

/-!
# Headers that stand once

A client adds up to five headers of its own after those of a request. It looks for a header of the
same name only before it adds `Accept`, and there a parameter counts that has a value, although
nothing may be left of the value as a text. So each of the five stands once, and `Accept` always,
exactly when no header parameter gets in the way (`headers_single_iff`).
-/

namespace ToolGateway

/-- The values of the headers of a name, in either case. -/
def headerValues (name : String) (headers : List (String × String)) : List String :=
  (headers.filter fun h => Text.equalsIgnoringCase h.1 name).map (·.2)

theorem headerValues_append (name : String) (xs ys : List (String × String)) :
    headerValues name (xs ++ ys) = headerValues name xs ++ headerValues name ys := by
  rw [headerValues, List.filter_append, List.map_append]
  rfl

/-- The headers that a client adds by itself. -/
inductive OwnHeader where
  | cookie
  | authorization
  | userAgent
  | accept
  | contentType
deriving DecidableEq, Repr

namespace OwnHeader

def name : OwnHeader → String
  | cookie => "cookie"
  | authorization => "authorization"
  | userAgent => "user-agent"
  | accept => "accept"
  | contentType => "content-type"

/-- In the order in which they are added. -/
def all : List OwnHeader := [cookie, authorization, userAgent, accept, contentType]

theorem equalsIgnoringCase_name (g h : OwnHeader) :
    Text.equalsIgnoringCase g.name h.name = decide (g = h) := by
  cases g <;> cases h <;> decide +kernel

end OwnHeader

namespace Client

variable {c : Client} {r : Request} {authorization : Option String}

/-! ### The headers of a client -/

/-- What a client adds by itself to a request. -/
def own (c : Client) (r : Request) (authorization : Option String) : OwnHeader → Option String
  | .cookie => r.cookieText
  | .authorization => (authorization.map Text.trim).filter (!·.isEmpty)
  | .userAgent => c.userAgent
  | .accept => if r.hasHeader "accept" then none else some "application/json"
  | .contentType => r.payload.map (·.contentType)

/-- The header that a client adds by itself, none without a value. -/
def added (c : Client) (r : Request) (authorization : Option String) (h : OwnHeader) :
    List (String × String) :=
  ((c.own r authorization h).map (h.name, ·)).toList

theorem headers_eq (c : Client) (r : Request) (authorization : Option String) :
    c.headers r authorization =
      r.headerPairs ++ OwnHeader.all.flatMap (c.added r authorization) := by
  have accept : (if r.hasHeader "accept" then [] else [("accept", "application/json")]) =
      c.added r authorization .accept := by
    unfold added own
    split <;> rfl
  have payload : (r.payload.map fun p => ("content-type", p.contentType)).toList =
      c.added r authorization .contentType := by
    unfold added own
    rw [Option.map_map]
    rfl
  unfold headers
  rw [accept, payload]
  simp only [OwnHeader.all, List.flatMap_cons, List.flatMap_nil, List.append_nil, List.append_assoc]
  rfl

theorem headerValues_added (g h : OwnHeader) :
    headerValues h.name (c.added r authorization g) =
      if g = h then (c.own r authorization g).toList else [] := by
  unfold added headerValues
  cases c.own r authorization g with
  | none => simp
  | some value => by_cases same : g = h <;> simp [OwnHeader.equalsIgnoringCase_name, same]

/-- The values under a name of the client's own are those of the request, and then the client's. -/
theorem headerValues_headers (c : Client) (r : Request) (authorization : Option String)
    (h : OwnHeader) : headerValues h.name (c.headers r authorization) =
      headerValues h.name r.headerPairs ++ (c.own r authorization h).toList := by
  rw [headers_eq, headerValues_append]
  congr 1
  simp only [OwnHeader.all, List.flatMap_cons, List.flatMap_nil, List.append_nil,
    headerValues_append, headerValues_added]
  cases h <;> simp

/-! ### Header parameters -/

/-- A parameter with a text has a value. -/
theorem hasHeader_of_headerValues {name : String} (h : headerValues name r.headerPairs ≠ []) :
    r.hasHeader name = true := by
  obtain ⟨_, value⟩ := List.exists_mem_of_ne_nil _ h
  obtain ⟨⟨key, text⟩, named, rfl⟩ := List.mem_map.mp value
  obtain ⟨pair, same⟩ := List.mem_filter.mp named
  obtain ⟨shown, filled⟩ := List.mem_filter.mp pair
  obtain ⟨⟨k, v⟩, hm, shown⟩ := List.mem_map.mp shown
  cases shown
  refine List.any_eq_true.mpr ⟨(key, v), hm, ?_⟩
  rw [Bool.and_eq_true]
  refine ⟨same, ?_⟩
  cases v with
  | null => cases filled
  | _ => rfl

theorem hasHeader_eq_false_iff {name : String} : r.hasHeader name = false ↔
    ∀ m ∈ r.headers.entries, Text.equalsIgnoringCase m.1 name = true → m.2.isNull = true := by
  simp [Request.hasHeader]

/-! ### Once -/

/-- The value of `Accept` that a request asks for: that of a header parameter, else JSON. -/
def wish (r : Request) : String := (headerValues "accept" r.headerPairs).headD "application/json"

/-- Each header that a client may add by itself stands once at most, and `Accept` stands once. -/
structure Single (c : Client) (r : Request) (authorization : Option String) : Prop where
  accept : headerValues "accept" (c.headers r authorization) = [wish r]
  other : ∀ h : OwnHeader, h ≠ .accept →
    (headerValues h.name (c.headers r authorization)).length ≤ 1

/-- No header parameter gets in the way of the headers that a client adds by itself. -/
structure Unrivalled (c : Client) (r : Request) (authorization : Option String) : Prop where
  /-- No two of them with a text have one of these names, in either case. -/
  alone : ∀ h : OwnHeader, (headerValues h.name r.headerPairs).length ≤ 1
  /-- None with a text has the name of a header that the client adds. -/
  absent : ∀ h : OwnHeader, h ≠ .accept → (c.own r authorization h).isSome = true →
    headerValues h.name r.headerPairs = []
  /-- If none named `Accept` has a text, then none has a value. -/
  worded : headerValues "accept" r.headerPairs = [] → ∀ m ∈ r.headers.entries,
    Text.equalsIgnoringCase m.1 "accept" = true → m.2.isNull = true

theorem length_append_toList_le_one_iff {α : Type} {xs : List α} {o : Option α} :
    (xs ++ o.toList).length ≤ 1 ↔ xs.length ≤ 1 ∧ (o.isSome = true → xs = []) := by
  cases o with
  | none => simp
  | some a => cases xs <;> simp

theorem headerValues_accept_eq_iff :
    headerValues "accept" (c.headers r authorization) = [wish r] ↔
      (headerValues "accept" r.headerPairs).length ≤ 1 ∧
      (headerValues "accept" r.headerPairs = [] → r.hasHeader "accept" = false) := by
  have split := headerValues_headers c r authorization .accept
  have given : headerValues "accept" r.headerPairs ≠ [] → r.hasHeader "accept" = true :=
    hasHeader_of_headerValues
  simp only [OwnHeader.name, own] at split
  rw [split, wish]
  generalize headerValues "accept" r.headerPairs = values at given
  cases values with
  | nil => cases r.hasHeader "accept" <;> simp
  | cons value values =>
    rw [given (List.cons_ne_nil _ _)]
    simp

/-- Each of the headers that a client may add stands once at most, and `Accept` once with the value
that the request asks for, exactly when no header parameter gets in the way: at most one with a text
for each of the names, none where the client has a header to add, and none named `Accept` that has a
value without a text. -/
theorem headers_single_iff (c : Client) (r : Request) (authorization : Option String) :
    c.Single r authorization ↔ c.Unrivalled r authorization := by
  have other : ∀ h : OwnHeader, (headerValues h.name (c.headers r authorization)).length ≤ 1 ↔
      (headerValues h.name r.headerPairs).length ≤ 1 ∧
      ((c.own r authorization h).isSome = true → headerValues h.name r.headerPairs = []) := by
    intro h
    rw [headerValues_headers, length_append_toList_le_one_iff]
  constructor
  · intro single
    obtain ⟨alone, worded⟩ := headerValues_accept_eq_iff.mp single.accept
    refine ⟨fun h => ?_, fun h ne => ((other h).mp (single.other h ne)).2, fun none => ?_⟩
    · by_cases accept : h = .accept
      · rw [accept]
        exact alone
      · exact ((other h).mp (single.other h accept)).1
    · exact hasHeader_eq_false_iff.mp (worded none)
  · intro unrivalled
    refine ⟨headerValues_accept_eq_iff.mpr ⟨unrivalled.alone .accept, fun none => ?_⟩, ?_⟩
    · exact hasHeader_eq_false_iff.mpr (unrivalled.worded none)
    · exact fun h ne => (other h).mpr ⟨unrivalled.alone h, unrivalled.absent h ne⟩

/-- A request with header parameters and nothing else. -/
def asking (headers : List (String × Json)) : Request :=
  ⟨"GET", "/items", .empty, .empty, ⟨headers⟩, .empty, none⟩

/-- Two ways to get in the way: an empty list for `Accept` is not sent and keeps the client's own
away, and credentials in a parameter stand beside those that are passed on. -/
theorem headers_not_single : ∃ c : Client,
    (headerValues "accept" (c.headers (asking [("Accept", .arr [])]) none) = [] ∧
      ¬ c.Single (asking [("Accept", .arr [])]) none) ∧
    headerValues "authorization"
        (c.headers (asking [("Authorization", .str "Basic a")]) (some "Bearer b")) =
      ["Basic a", "Bearer b"] ∧
      ¬ c.Single (asking [("Authorization", .str "Basic a")]) (some "Bearer b") := by
  refine ⟨⟨default, none, none⟩, ?_, ?_⟩
  · have none : headerValues "accept"
        (headers ⟨default, none, none⟩ (asking [("Accept", .arr [])]) none) = [] := by
      decide +kernel
    refine ⟨none, fun single => ?_⟩
    rw [single.accept] at none
    cases none
  · have two : headerValues "authorization"
        (headers ⟨default, none, none⟩ (asking [("Authorization", .str "Basic a")])
          (some "Bearer b")) = ["Basic a", "Bearer b"] := by
      decide +kernel
    refine ⟨two, fun single => ?_⟩
    have once := single.other .authorization (by decide)
    rw [OwnHeader.name, two] at once
    exact absurd once (by decide)

end Client

end ToolGateway
