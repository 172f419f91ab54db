import Mathlib.Data.List.Basic
import Mathlib.Data.List.Induction
import Mathlib.Data.List.Nodup
import ToolGateway.BaseUrl
import ToolGateway.Proofs.Json.Distinct
import ToolGateway.Proofs.Operation.Composition

/-!
# Templates of server URLs

The variables of a server are filled in one after the other, each into the text that the ones before
it left. When names have no braces, places do not overlap, so it is clear what it means to fill in
all variables at once (`atOnce`), and that does not depend on their order. Filling them in one after
the other may do more, since a value may bring the place of another variable with it, or may close a
gap between characters that were apart. Places are never lost that way, so it is enough to count
them: every order comes to the same as all at once, and replaces what is written only, exactly when
no variable gets a new place by filling in all the others (`fill_order_iff`).
-/

namespace ToolGateway.BaseUrl

/-! ### Places -/

/-- How the place of a variable is written, after the brace that opens it. -/
def placeTail (name : String) : List Char := name.toList ++ ['\x7d']

/-- How the place of a variable is written. -/
def place (name : String) : List Char := '\x7b' :: placeTail name

/-- How often the place of a variable stands in a text. -/
def placesIn (name : String) : List Char → Nat
  | [] => 0
  | c :: cs => placesIn name cs + if place name <+: c :: cs then 1 else 0

def places (name text : String) : Nat := placesIn name text.toList

/-- Puts values into the places that stand in a text, and keeps the other characters. -/
def spread (values : List (String × String)) : List Char → List Char
  | [] => []
  | c :: cs =>
    match values.find? fun v => place v.1 <+: c :: cs with
    | some v => v.2.toList ++ spread values (cs.drop (placeTail v.1).length)
    | none => c :: spread values cs
termination_by cs => cs.length

/-- Puts all values into their places at once. -/
def atOnce (text : String) (values : List (String × String)) : String :=
  String.ofList (spread values text.toList)

/-- Variables of different names, none of which has a brace in it, with their values. -/
structure Variables (values : List (String × String)) : Prop where
  distinct : (values.map (·.1)).Nodup
  opens : ∀ v ∈ values, '\x7b' ∉ v.1.toList
  closes : ∀ v ∈ values, '\x7d' ∉ v.1.toList

theorem placesIn_cons_of_not_prefix {name : String} {c : Char} {cs : List Char}
    (h : ¬place name <+: c :: cs) : placesIn name (c :: cs) = placesIn name cs := by
  rw [placesIn, if_neg h, Nat.add_zero]

theorem placesIn_le_append (name : String) (front cs : List Char) :
    placesIn name cs ≤ placesIn name (front ++ cs) := by
  induction front with
  | nil => exact Nat.le_refl _
  | cons c front ih => exact Nat.le_trans ih (Nat.le_add_right _ _)

theorem not_place_prefix_of_ne {name : String} {c : Char} {cs : List Char} (h : c ≠ '\x7b') :
    ¬place name <+: c :: cs := by
  rintro ⟨rest, written⟩
  exact h (List.cons.inj written).1.symm

/-- A text without an opening brace starts no place. -/
theorem placesIn_append_of_notMem {name : String} {front : List Char} (h : '\x7b' ∉ front)
    (cs : List Char) : placesIn name (front ++ cs) = placesIn name cs := by
  induction front with
  | nil => rfl
  | cons c front ih =>
    obtain ⟨head, tail⟩ := not_or.mp (h ∘ List.mem_cons.mpr)
    rw [List.cons_append, placesIn_cons_of_not_prefix (not_place_prefix_of_ne (Ne.symm head)),
      ih tail]

@[simp] theorem spread_nil (values : List (String × String)) : spread values [] = [] := by
  rw [spread]

theorem spread_cons {values : List (String × String)} {c : Char} {cs : List Char}
    (h : ∀ v ∈ values, ¬place v.1 <+: c :: cs) :
    spread values (c :: cs) = c :: spread values cs := by
  have none : values.find? (fun v => place v.1 <+: c :: cs) = none :=
    List.find?_eq_none.mpr fun v hv => by simpa using h v hv
  rw [spread, none]

theorem spread_append_of_notMem {values : List (String × String)} {front : List Char}
    (h : '\x7b' ∉ front) (cs : List Char) :
    spread values (front ++ cs) = front ++ spread values cs := by
  induction front with
  | nil => rfl
  | cons c front ih =>
    obtain ⟨head, tail⟩ := not_or.mp (h ∘ List.mem_cons.mpr)
    rw [List.cons_append, spread_cons fun _ _ => not_place_prefix_of_ne (Ne.symm head), ih tail]
    rfl

theorem spread_none (cs : List Char) : spread [] cs = cs := by
  induction cs with
  | nil => rw [spread_nil]
  | cons c cs ih => rw [spread_cons (by simp), ih]

/-! ### What texts start with -/

/-- One text starts like another, up to where the other one opens a place. -/
def StartsLike (cs ds : List Char) : Prop :=
  ∀ front, '\x7b' ∉ front → front <+: ds → front <+: cs

theorem StartsLike.append {cs ds : List Char} (h : StartsLike cs ds) (first : List Char) :
    StartsLike (first ++ cs) (first ++ ds) := by
  intro front closed there
  rcases List.prefix_or_prefix_of_prefix there (List.prefix_append first ds) with
    inside | ⟨beyond, rfl⟩
  · exact inside.trans (List.prefix_append _ _)
  · rw [List.prefix_append_right_inj] at there ⊢
    exact h beyond (fun opened => closed (List.mem_append_right _ opened)) there

theorem startsLike_place (cs : List Char) (name : String) (ds : List Char) :
    StartsLike cs (place name ++ ds) := by
  intro front closed there
  cases front with
  | nil => exact List.nil_prefix
  | cons c front =>
    obtain ⟨_, written⟩ := there
    exact absurd (List.mem_cons.mpr (.inl (List.cons.inj written).1.symm)) closed

/-- What stands before two texts has no more places before the one than before the other, when that
one starts the same way. -/
theorem placesIn_append_le {name : String} (closed : '\x7b' ∉ placeTail name)
    {cs ds : List Char} (like : StartsLike cs ds) (le : placesIn name ds ≤ placesIn name cs)
    (front : List Char) : placesIn name (front ++ ds) ≤ placesIn name (front ++ cs) := by
  induction front with
  | nil => exact le
  | cons c front ih =>
    rw [List.cons_append, List.cons_append, placesIn, placesIn]
    refine Nat.add_le_add ih ?_
    split
    · next there =>
      obtain ⟨opens, tail⟩ := List.cons_prefix_cons.mp there
      have here : place name <+: c :: (front ++ cs) :=
        List.cons_prefix_cons.mpr ⟨opens, like.append front _ closed tail⟩
      exact Nat.le_of_eq (if_pos here).symm
    · exact Nat.zero_le _

/-- Nothing is replaced in a text in which no place starts. -/
theorem spread_append_of_placesIn_le {v : String × String} (front : List Char) {cs : List Char}
    (h : placesIn v.1 (front ++ cs) ≤ placesIn v.1 cs) :
    spread [v] (front ++ cs) = front ++ spread [v] cs := by
  induction front with
  | nil => rfl
  | cons c front ih =>
    have later := placesIn_le_append v.1 front cs
    have none : ¬place v.1 <+: c :: (front ++ cs) := by
      intro here
      rw [List.cons_append, placesIn, if_pos here] at h
      omega
    rw [List.cons_append, placesIn_cons_of_not_prefix none] at h
    rw [List.cons_append, spread_cons (by simpa using none), ih h, List.cons_append]

/-! ### Variables of one text -/

namespace Variables

variable {values done more : List (String × String)} {v w : String × String}

theorem eq_of_name (vars : Variables values) (hv : v ∈ values) (hw : w ∈ values)
    (same : v.1 = w.1) : v = w :=
  List.inj_on_of_nodup_map vars.distinct hv hw same

theorem nodup (vars : Variables values) : values.Nodup := vars.distinct.of_map

theorem placeTail_opens (vars : Variables values) (hv : v ∈ values) : '\x7b' ∉ placeTail v.1 := by
  simpa [placeTail] using vars.opens v hv

theorem eq_of_placeTail (vars : Variables values) (hv : v ∈ values) (hw : w ∈ values)
    (h : placeTail v.1 <+: placeTail w.1) : v = w := by
  rcases List.prefix_concat_iff.mp h with same | inside
  · exact vars.eq_of_name hv hw (String.toList_inj.mp (List.append_cancel_right same))
  · have closed : '\x7d' ∈ placeTail v.1 := by simp [placeTail]
    exact absurd (inside.subset closed) (vars.closes w hw)

/-- At one position of a text stands the place of one variable. -/
theorem eq_of_prefix (vars : Variables values) (hv : v ∈ values) (hw : w ∈ values)
    {cs : List Char} (h : place v.1 <+: cs) (h' : place w.1 <+: cs) : v = w := by
  rcases List.prefix_or_prefix_of_prefix h h' with first | first
  · exact vars.eq_of_placeTail hv hw ((List.prefix_cons_inj _).mp first)
  · exact (vars.eq_of_placeTail hw hv ((List.prefix_cons_inj _).mp first)).symm

/-- What stands in the place of a variable when only some of them are filled in. -/
def put (done : List (String × String)) (v : String × String) : List Char :=
  if v ∈ done then v.2.toList else place v.1

theorem put_of_mem (h : v ∈ done) : put done v = v.2.toList := if_pos h

theorem put_of_notMem (h : v ∉ done) : put done v = place v.1 := if_neg h

theorem spread_place (vars : Variables values) (sub : done ⊆ values) (hv : v ∈ values)
    (rest : List Char) : spread done (place v.1 ++ rest) = put done v ++ spread done rest := by
  have here : place v.1 <+: place v.1 ++ rest := List.prefix_append _ _
  unfold put
  split
  · next hd =>
    cases found : done.find? fun w => place w.1 <+: place v.1 ++ rest with
    | none => simpa using List.find?_eq_none.mp found v hd
    | some w =>
      have there : place w.1 <+: place v.1 ++ rest := by simpa using List.find?_some found
      obtain rfl := vars.eq_of_prefix hv (sub (List.mem_of_find?_eq_some found)) here there
      rw [place, List.cons_append] at found ⊢
      rw [spread, found]
      exact congrArg (v.2.toList ++ spread done ·) (List.drop_left' rfl)
  · next hd =>
    have others : ∀ w ∈ done, ¬place w.1 <+: place v.1 ++ rest := by
      intro w hw there
      exact hd (vars.eq_of_prefix hv (sub hw) here there ▸ hw)
    rw [place, List.cons_append] at others ⊢
    rw [spread_cons others, spread_append_of_notMem (vars.placeTail_opens hv)]
    rfl

theorem placesIn_place (vars : Variables values) (hv : v ∈ values) (hw : w ∈ values)
    (rest : List Char) :
    placesIn w.1 (place v.1 ++ rest) = placesIn w.1 rest + if v = w then 1 else 0 := by
  have tail : placesIn w.1 (placeTail v.1 ++ rest) = placesIn w.1 rest :=
    placesIn_append_of_notMem (vars.placeTail_opens hv) rest
  rw [place, List.cons_append, placesIn, tail, ← List.cons_append]
  congr 1
  refine if_congr ⟨fun there => ?_, fun same => ?_⟩ rfl rfl
  · exact vars.eq_of_prefix hv hw (List.prefix_append _ _) there
  · exact same ▸ List.prefix_append _ _

/-- A text is read from the left, place by place and character by character. -/
theorem byPlaces {motive : List Char → Prop} (values : List (String × String))
    (nil : motive [])
    (place : ∀ v ∈ values, ∀ rest, motive rest → motive (place v.1 ++ rest))
    (char : ∀ c rest, (∀ v ∈ values, ¬BaseUrl.place v.1 <+: c :: rest) → motive rest →
      motive (c :: rest)) : ∀ cs, motive cs
  | [] => nil
  | c :: cs => by
    by_cases h : ∃ v ∈ values, BaseUrl.place v.1 <+: c :: cs
    · obtain ⟨v, hv, rest, written⟩ := h
      have shorter : rest.length < cs.length + 1 := by
        have := congrArg List.length written
        simp only [BaseUrl.place, List.cons_append, List.length_cons, List.length_append] at this
        omega
      rw [← written]
      exact place v hv rest (byPlaces values nil place char rest)
    · exact char c cs (fun v hv there => h ⟨v, hv, there⟩) (byPlaces values nil place char cs)
termination_by cs => cs.length

/-! ### Filling in more -/

/-- When more variables are filled in, the text stays as it was up to where a place opens. -/
theorem startsLike_spread (vars : Variables values) (sub : done ⊆ more) (all : more ⊆ values)
    (cs : List Char) : StartsLike (spread more cs) (spread done cs) := by
  induction cs using byPlaces values with
  | nil =>
    rw [spread_nil, spread_nil]
    exact fun _ _ there => there
  | place w hw rest ih =>
    rw [vars.spread_place (List.Subset.trans sub all) hw, vars.spread_place all hw]
    by_cases hd : w ∈ done
    · rw [put_of_mem hd, put_of_mem (sub hd)]
      exact ih.append _
    · rw [put_of_notMem hd]
      exact startsLike_place _ _ _
  | char c rest none ih =>
    rw [spread_cons fun w hw => none w (all hw), spread_cons fun w hw => none w (all (sub hw))]
    exact ih.append [c]

/-- No place is lost when more of the other variables are filled in. -/
theorem placesIn_spread_le (vars : Variables values) (sub : done ⊆ more) (all : more ⊆ values)
    (hv : v ∈ values) (left : v ∉ more) (cs : List Char) :
    placesIn v.1 (spread done cs) ≤ placesIn v.1 (spread more cs) := by
  induction cs using byPlaces values with
  | nil => simp
  | place w hw rest ih =>
    rw [vars.spread_place (List.Subset.trans sub all) hw, vars.spread_place all hw]
    by_cases hd : w ∈ done
    · rw [put_of_mem hd, put_of_mem (sub hd)]
      exact placesIn_append_le (vars.placeTail_opens hv) (vars.startsLike_spread sub all rest) ih _
    · rw [put_of_notMem hd, vars.placesIn_place hw hv]
      by_cases hm : w ∈ more
      · have other : w ≠ v := fun same => left (same ▸ hm)
        rw [if_neg other]
        exact Nat.le_trans ih (placesIn_le_append _ _ _)
      · rw [put_of_notMem hm, vars.placesIn_place hw hv]
        exact Nat.add_le_add_right ih _
  | char c rest none ih =>
    rw [spread_cons fun w hw => none w (all hw), spread_cons fun w hw => none w (all (sub hw))]
    exact placesIn_append_le (vars.placeTail_opens hv) (vars.startsLike_spread sub all rest) ih [c]

theorem placesIn_le_spread (vars : Variables values) (all : done ⊆ values) (hv : v ∈ values)
    (left : v ∉ done) (cs : List Char) : placesIn v.1 cs ≤ placesIn v.1 (spread done cs) := by
  have h := vars.placesIn_spread_le (List.nil_subset done) all hv left cs
  rwa [spread_none] at h

/-- One more variable is filled in as it would have been with the ones before it, provided that
these made no new place for it. -/
theorem spread_spread (vars : Variables values) (all : done ⊆ values) (hv : v ∈ values)
    (left : v ∉ done) {cs : List Char}
    (kept : placesIn v.1 (spread done cs) = placesIn v.1 cs) :
    spread [v] (spread done cs) = spread (done ++ [v]) cs := by
  have one : [v] ⊆ values := by simpa using hv
  have both : done ++ [v] ⊆ values := List.append_subset.mpr ⟨all, one⟩
  induction cs using byPlaces values with
  | nil => simp
  | place w hw rest ih =>
    have least := vars.placesIn_le_spread all hv left rest
    rw [vars.spread_place all hw, vars.placesIn_place hw hv] at kept
    rw [vars.spread_place all hw, vars.spread_place both hw]
    by_cases hd : w ∈ done
    · have other : w ≠ v := fun same => left (same ▸ hd)
      have more := placesIn_le_append v.1 w.2.toList (spread done rest)
      rw [put_of_mem hd, if_neg other] at kept
      rw [put_of_mem hd, put_of_mem (List.mem_append_left _ hd),
        spread_append_of_placesIn_le _ (by omega), ih (by omega)]
    · rw [put_of_notMem hd, vars.placesIn_place hw hv] at kept
      rw [put_of_notMem hd, vars.spread_place one hw, ih (by omega)]
      congr 1
      simp [put, hd]
  | char c rest none ih =>
    have least := vars.placesIn_le_spread all hv left rest
    have more := placesIn_le_append v.1 [c] (spread done rest)
    rw [spread_cons fun w hw => none w (all hw), placesIn_cons_of_not_prefix (none v hv)] at kept
    rw [spread_cons fun w hw => none w (all hw), spread_cons fun w hw => none w (both hw)]
    exact (spread_append_of_placesIn_le [c] (by simpa using by omega)).trans
      (congrArg (c :: ·) (ih (by simp at *; omega)))

theorem spread_congr (vars : Variables values) (all : done ⊆ values) (all' : more ⊆ values)
    (same : ∀ w, w ∈ done ↔ w ∈ more) (cs : List Char) : spread done cs = spread more cs := by
  induction cs using byPlaces values with
  | nil => rw [spread_nil, spread_nil]
  | place w hw rest ih =>
    rw [vars.spread_place all hw, vars.spread_place all' hw, ih]
    simp only [put, same]
  | char c rest none ih =>
    rw [spread_cons fun w hw => none w (all hw), spread_cons fun w hw => none w (all' hw), ih]

end Variables

/-! ### One after the other -/

theorem replaceChars_eq_spread (name value : String) (cs : List Char) :
    Text.replaceChars (place name) value.toList cs = spread [(name, value)] cs := by
  fun_induction Text.replaceChars (place name) value.toList cs with
  | case1 => rw [spread_nil]
  | case2 c cs here ih =>
    have here : place name <+: c :: cs := List.isPrefixOf_iff_prefix.mp here
    rw [spread, List.find?_cons_of_pos (by simpa using here), ih]
    rfl
  | case3 c cs none ih =>
    rw [spread_cons, ih]
    intro v hv
    rw [List.mem_singleton.mp hv]
    exact fun here => none (List.isPrefixOf_iff_prefix.mpr here)

theorem fillIn_eq (text name value : String) :
    fillIn text name value = atOnce text [(name, value)] :=
  congrArg String.ofList (replaceChars_eq_spread name value text.toList)

theorem fill_concat (text : String) (done : List (String × String)) (v : String × String) :
    fill text (done ++ [v]) = atOnce (fill text done) [v] := by
  rw [fill, List.foldl_append, ← fill]
  exact fillIn_eq _ _ _

/-- Filling in values in an order comes to filling them all in at once: the result is the same, and
each value is put into as many places as the text as written has for it. -/
structure FillsAtOnce (text : String) (values order : List (String × String)) : Prop where
  result : fill text order = atOnce text values
  written : ∀ done v rest, order = done ++ v :: rest →
    places v.1 (fill text done) = places v.1 text

namespace Variables

variable {values done : List (String × String)} {v : String × String} {text : String}

theorem fill_concat (vars : Variables values) (all : done ⊆ values) (hv : v ∈ values)
    (left : v ∉ done) (before : fill text done = atOnce text done)
    (kept : places v.1 (atOnce text done) = places v.1 text) :
    fill text (done ++ [v]) = atOnce text (done ++ [v]) := by
  have kept : placesIn v.1 (spread done text.toList) = placesIn v.1 text.toList := by
    simpa only [places, atOnce, String.toList_ofList] using kept
  rw [BaseUrl.fill_concat, before, atOnce, atOnce, String.toList_ofList,
    vars.spread_spread all hv left kept, atOnce]

/-- Values are filled in as if at once as long as those before another make no new place for it. -/
theorem fill_eq_atOnce (vars : Variables values) (nodup : done.Nodup) (all : done ⊆ values)
    (kept : ∀ front v rest, done = front ++ v :: rest → fill text front = atOnce text front →
      places v.1 (atOnce text front) = places v.1 text) :
    fill text done = atOnce text done := by
  induction done using List.reverseRecOn with
  | nil => rw [atOnce, spread_none, String.ofList_toList, fill, List.foldl_nil]
  | append_singleton done v ih =>
    obtain ⟨front, one⟩ := List.append_subset.mp all
    obtain ⟨nodup, -, apart⟩ := List.nodup_append.mp nodup
    have left : v ∉ done := fun hd => apart v hd v (List.mem_singleton_self v) rfl
    have before : fill text done = atOnce text done :=
      ih nodup front fun front w rest split => kept front w (rest ++ [v]) (by simp [split])
    exact vars.fill_concat front (one (List.mem_singleton_self v)) left before
      (kept done v [] rfl before)

theorem subset_erase (vars : Variables values) {rest : List (String × String)}
    (perm : (done ++ v :: rest).Perm values) : done ⊆ values.erase v := by
  intro w hw
  have nodup : (done ++ v :: rest).Nodup := perm.nodup_iff.mpr vars.nodup
  have apart : w ≠ v := (List.nodup_append.mp nodup).2.2 w hw v (by simp)
  exact vars.nodup.mem_erase_iff.mpr ⟨apart, perm.subset (List.mem_append_left _ hw)⟩

/-- A variable that has no new place when all the others are filled in has none before. -/
theorem places_atOnce (vars : Variables values) (hv : v ∈ values) (all : done ⊆ values.erase v)
    (kept : places v.1 (atOnce text (values.erase v)) = places v.1 text) :
    places v.1 (atOnce text done) = places v.1 text := by
  have others : values.erase v ⊆ values := List.erase_subset
  have out : v ∉ values.erase v := fun h => (vars.nodup.mem_erase_iff.mp h).1 rfl
  have least :=
    vars.placesIn_le_spread (List.Subset.trans all others) hv (fun h => out (all h)) text.toList
  have most := vars.placesIn_spread_le all others hv out text.toList
  simp only [places, atOnce, String.toList_ofList] at kept ⊢
  omega

end Variables

theorem keys_filterMap_sublist {α β : Type} (f : α → Option β) (entries : List (String × α)) :
    ((entries.filterMap fun (name, v) => (f v).map (name, ·)).map (·.1)).Sublist
      (entries.map (·.1)) := by
  induction entries with
  | nil => exact .slnil
  | cons entry entries ih =>
    cases found : f entry.2 with
    | none => simpa [List.filterMap_cons, found] using ih.cons entry.1
    | some w => simpa [List.filterMap_cons, found] using ih.cons_cons entry.1

/-- Variables that have a default stand under the keys of an object, which does not repeat any. -/
theorem variables_defaults {server : Json} (distinct : server.Distinct)
    (opens : ∀ v ∈ defaults server, '\x7b' ∉ v.1.toList)
    (closes : ∀ v ∈ defaults server, '\x7d' ∉ v.1.toList) : Variables (defaults server) where
  distinct := by
    have keys : ((server.getObj? "variables").getD .empty).keys.Nodup := by
      cases found : server.getObj? "variables" with
      | none => exact .nil
      | some members => exact (distinct.inner (Json.getObj?_eq_some_iff.mp found)).keys
    exact keys.sublist (keys_filterMap_sublist (fun v : Json => v.getStr? "default") _)
  opens := opens
  closes := closes

/-- In every order, filling in comes to the same as all at once, with nothing replaced but what is
written, exactly when filling in all the others makes no new place for any variable. -/
theorem fill_order_iff {values : List (String × String)} (vars : Variables values) (text : String) :
    (∀ order, order.Perm values → FillsAtOnce text values order) ↔
      ∀ v ∈ values, places v.1 (atOnce text (values.erase v)) = places v.1 text := by
  constructor
  · intro fills v hv
    have order : (values.erase v ++ [v]).Perm values :=
      (List.perm_append_singleton v _).trans (List.perm_cons_erase hv).symm
    have written := (fills _ order).written
    have before : fill text (values.erase v) = atOnce text (values.erase v) := by
      refine vars.fill_eq_atOnce (vars.nodup.erase v) List.erase_subset ?_
      intro front w rest split same
      rw [← same]
      exact written front w (rest ++ [v]) (by simp [split])
    rw [← before]
    exact written _ v [] rfl
  · intro kept order perm
    have stage : ∀ front v rest, order = front ++ v :: rest →
        places v.1 (atOnce text front) = places v.1 text := by
      rintro front v rest rfl
      have hv : v ∈ values := perm.subset (by simp)
      exact vars.places_atOnce hv (vars.subset_erase perm) (kept v hv)
    have filled : ∀ front rest, order = front ++ rest → fill text front = atOnce text front := by
      intro front rest split
      have part : front ⊆ values := fun w hw => perm.subset (split ▸ List.mem_append_left _ hw)
      have nodup : (front ++ rest).Nodup := split ▸ perm.nodup_iff.mpr vars.nodup
      refine vars.fill_eq_atOnce (List.nodup_append.mp nodup).1 part ?_
      intro before v between inner _
      exact stage before v (between ++ rest) (by simp [split, inner])
    constructor
    · rw [filled order [] (by simp), atOnce, atOnce,
        vars.spread_congr perm.subset (List.Subset.refl _) fun _ => perm.mem_iff]
    · intro done v rest split
      rw [filled done (v :: rest) split]
      exact stage done v rest split

theorem fill_order_iff_host :
    Variables [("host", "h"), ("base", "v1")] ∧
    ∀ order, order.Perm [("host", "h"), ("base", "v1")] →
      FillsAtOnce "https://\x7bhost\x7d/\x7bbase\x7d" [("host", "h"), ("base", "v1")] order := by
  have vars : Variables [("host", "h"), ("base", "v1")] :=
    ⟨by decide, by decide, by decide⟩
  exact ⟨vars, (fill_order_iff vars _).mpr (by decide +kernel)⟩

/-- A description with one server, whose URL has one place. -/
def chained (values : List (String × String)) : Document where
  root := .obj ⟨[("servers", .arr [.obj ⟨[("url", .str "https://h/\x7ba\x7d"),
    ("variables", .obj ⟨values.map fun (name, value) =>
      (name, .obj ⟨[("default", .str value)]⟩)⟩)]⟩])]⟩

/-- A default that brings the place of another variable is filled in itself when that variable comes
later, and not when it comes earlier. -/
theorem ofServer_chained :
    ofServer (chained [("a", "\x7bb\x7d"), ("b", "c")]) 0 = .ok "https://h/c" ∧
    ofServer (chained [("b", "c"), ("a", "\x7bb\x7d")]) 0 = .ok "https://h/\x7bb\x7d" ∧
    atOnce "https://h/\x7ba\x7d" [("a", "\x7bb\x7d"), ("b", "c")] = "https://h/\x7bb\x7d" := by
  decide +kernel

end ToolGateway.BaseUrl
