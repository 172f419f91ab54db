import ToolGateway.Proofs.Url.Printed

/-!
# A URL of the web is told by its printed form

Two settled URLs without fragments that are printed alike are one (`Settled.eq_of_render_eq`):
reading the printed form gives back what stands before the path, and what stands after it is cut at
its slashes and at the question mark. A URL that a settled one leads to is settled, too, unless it
has left the web (`proper_of_join`).
-/

namespace ToolGateway.Url

variable {u v base : Url} {host : Host}

/-! ### Printed forms -/

/-- The query with the question mark before it. -/
def queryPart (u : Url) : List Char := u.query.elim [] fun q => '?' :: q.toList

/-- The segments of a path are told apart again. -/
theorem pieces_slashed {segments : List String} (settled : ∀ s ∈ segments, SettledSegment s) :
    Text.pieces (isSlash true) (slashed segments) = [] :: segments.map String.toList := by
  rcases List.eq_nil_or_concat segments with rfl | ⟨start, last, rfl⟩
  · rfl
  · rw [List.concat_eq_append] at settled ⊢
    have text : slashed (start ++ [last]) = '/' :: (leading start ++ last.toList) := by
      rw [slashed, List.flatMap_append, List.flatMap_singleton, ← slashed, slashed_append_slash]
    have whole := (settled last (List.mem_append_right _ List.mem_cons_self)).whole
    rw [text, Text.pieces_cons_of_pos (by decide),
      pieces_leading fun s hs => settled s (List.mem_append_left _ hs),
      Text.pieces_of_forall whole, List.map_append, List.map_singleton]

/-- What is printed after the authority is cut into the path and the query. -/
theorem Settled.splitTail_printed (h : u.Settled) :
    splitTail (slashed u.path.list ++ queryPart u) =
      (slashed u.path.list, u.query.map String.toList, none) := by
  have question : '?' ∉ slashed u.path.list := fun mem => (of_mem_slashed h.path.list mem).2.1 rfl
  have sign : '#' ∉ slashed u.path.list := fun mem => (of_mem_slashed h.path.list mem).2.2 rfl
  rw [splitTail_append question sign, queryPart]
  cases query : u.query with
  | none =>
    have none : splitTail [] = ([], none, none) := rfl
    rw [Option.elim_none, none, List.append_nil, Option.map_none]
  | some q =>
    have plain : '#' ∉ q.toList := (h.query q query).notMem (by decide)
    rw [Option.elim_some, splitTail_question plain, List.append_nil, Option.map_some]

theorem Settled.toList_render (h : u.Settled) (bare : u.fragment = none)
    (hosted : u.host = some host) :
    u.render.toList = startText u host ++ (slashed u.path.list ++ queryPart u) := by
  rw [Url.toList_render h hosted, bare, Option.elim_none, List.append_nil]
  rfl

/-- The printed form of a settled URL starts anew at its path. -/
theorem Settled.exists_toList_render (h : u.Settled) (bare : u.fragment = none)
    (hosted : u.host = some host) :
    ∃ rest, u.render.toList = startText u host ++ '/' :: rest := by
  obtain ⟨list, path, ne, -⟩ := h.path
  obtain ⟨s, segments, rfl⟩ := List.exists_cons_of_ne_nil ne
  refine ⟨s.toList ++ (slashed segments ++ queryPart u), ?_⟩
  have text : slashed (s :: segments) = '/' :: (s.toList ++ slashed segments) := rfl
  rw [h.toList_render bare hosted, path, Path.list, text, List.cons_append, List.append_assoc]

/-- URLs that are printed alike are one. -/
theorem Settled.eq_of_render_eq (hu : u.Settled) (hv : v.Settled) (bare : u.fragment = none)
    (bare' : v.fragment = none) (same : u.render = v.render) : u = v := by
  obtain ⟨host, hosted, settled⟩ := hu.host
  obtain ⟨host', hosted', settled'⟩ := hv.host
  obtain ⟨rest, text⟩ := hu.exists_toList_render bare hosted
  obtain ⟨rest', text'⟩ := hv.exists_toList_render bare' hosted'
  -- Both are what is read from the one text, as far as that does not depend on the path.
  have read := parse_printed hu hosted settled text
  rw [same, parse_printed hv hosted' settled' text'] at read
  have start := (Except.ok.inj read).symm
  have scheme : u.scheme = v.scheme := (congrArg Url.scheme start :)
  have username : u.username = v.username := (congrArg Url.username start :)
  have password : u.password = v.password := (congrArg Url.password start :)
  have port : u.port = v.port := (congrArg Url.port start :)
  have hosts : u.host = v.host := (congrArg Url.host start :)
  have host_eq : host = host' := Option.some.inj (hosted.symm.trans (hosts.trans hosted'))
  have first : startText u host = startText v host' := by
    unfold startText authorityText renderUser portText
    rw [scheme, username, password, port, host_eq]
  have whole : startText u host ++ (slashed u.path.list ++ queryPart u) =
      startText u host ++ (slashed v.path.list ++ queryPart v) := by
    rw [← hu.toList_render bare hosted, same, hv.toList_render bare' hosted', first]
  have tail := List.append_cancel_left whole
  have parts := congrArg splitTail tail
  rw [hu.splitTail_printed, hv.splitTail_printed] at parts
  obtain ⟨paths, queries⟩ := Prod.mk.inj parts
  have query : u.query = v.query :=
    Option.map_injective (fun _ _ => String.toList_inj.mp) (Prod.mk.inj queries).1
  have path : u.path = v.path := by
    have pieces := congrArg (Text.pieces (isSlash true)) paths
    rw [pieces_slashed hu.path.list, pieces_slashed hv.path.list] at pieces
    have lists := List.map_injective_iff.mpr (fun _ _ => String.toList_inj.mp)
      (List.cons.inj pieces).2
    obtain ⟨list, is, -⟩ := hu.path
    obtain ⟨list', is', -⟩ := hv.path
    rw [is, is'] at lists ⊢
    exact congrArg Path.segments lists
  cases u
  cases v
  simp_all

/-! ### Schemes -/

/-- A URL whose scheme ends before the first colon, and which is settled when it is of the web. -/
structure Proper (u : Url) : Prop where
  colon : ':' ∉ u.scheme.toList
  settled : IsWeb u.scheme → u.Settled

theorem IsWeb.colon_notMem {scheme : String} (h : IsWeb scheme) : ':' ∉ scheme.toList := by
  rcases h with rfl | rfl <;> decide

theorem Settled.proper (h : u.Settled) : u.Proper := ⟨h.web.colon_notMem, fun _ => h⟩

theorem isWeb_of_render (h : u.Proper) {scheme : String} (web : IsWeb scheme) {rest : List Char}
    (text : u.render.toList = scheme.toList ++ ':' :: rest) : IsWeb u.scheme := by
  have first : Text.splitOnce? ':' u.render.toList = some (scheme.toList, rest) := by
    rw [text, Text.splitOnce?_append web.colon_notMem, Text.splitOnce?_cons_self]
    simp
  unfold render renderWithoutFragment at first
  simp only [String.toList_append, List.append_assoc] at first
  rw [Text.splitOnce?_append h.colon] at first
  have colon : ":".toList = [':'] := rfl
  rw [colon, List.singleton_append, Text.splitOnce?_cons_self] at first
  simp only [Option.map_some, List.append_nil, Option.some.injEq, Prod.mk.injEq,
    String.toList_inj] at first
  rwa [first.1]

theorem colon_notMem_of_splitScheme? {cs rest : List Char} {scheme : String}
    (h : splitScheme? cs = some (scheme, rest)) : ':' ∉ scheme.toList :=
  fun mem => absurd (isSchemeChar_of_splitScheme? h ':' mem) (by decide)

theorem not_isWeb_of_not_isSpecial {scheme : String} (h : isSpecial scheme = false) :
    ¬IsWeb scheme := by
  intro web
  rw [web.isSpecial] at h
  cases h

theorem proper_of_scheme {scheme : String} (colon : ':' ∉ scheme.toList) (other : ¬IsWeb scheme)
    (same : u.scheme = scheme) : u.Proper :=
  ⟨same ▸ colon, fun web => absurd (same ▸ web) other⟩

theorem proper_of_readAuthority {scheme : String} {cs : List Char} (colon : ':' ∉ scheme.toList)
    (h : readAuthority scheme cs = .ok u) : u.Proper where
  colon := scheme_of_readAuthority h ▸ colon
  settled web := settled_of_readAuthority (scheme_of_readAuthority h ▸ web) h

/-- A URL that is read against a settled one. -/
theorem proper_of_join {text : String} (settled : base.Settled) (h : join base text = .ok u) :
    u.Proper := by
  cases split : splitScheme? (cleaned text) with
  | none => exact (settled_of_join settled split h).proper
  | some parts =>
    obtain ⟨scheme, rest⟩ := parts
    have colon := colon_notMem_of_splitScheme? split
    unfold join read readWithScheme at h
    dsimp only at h
    rw [split] at h
    dsimp only at h
    split at h
    · have apart : (some base).filter (·.scheme == "file") = none := by
        rw [Option.filter_some, settled.web.ne_file]
        rfl
      rw [apart] at h
      have file : ¬IsWeb "file" := by simp [IsWeb]
      exact proper_of_scheme (by decide) file (scheme_of_readFileUrl h)
    · split at h
      · split at h
        · exact (settled_of_readRelative settled h).proper
        · exact proper_of_readAuthority colon h
      · next special =>
        split at h
        · exact proper_of_readAuthority colon h
        · cases h
          exact proper_of_scheme colon
            (not_isWeb_of_not_isSpecial (Bool.eq_false_iff.mpr special)) rfl

end ToolGateway.Url
