import ToolGateway.BaseUrl
import ToolGateway.Proofs.Url.Printed

/-!
# The base URL is settled

Whatever way the base URL is chosen, it is a URL of the web in the form in which it is printed
(`settled_of_resolve`): it was read as an absolute URL, or against the location of the description.
-/

namespace ToolGateway

namespace Url

/-! ### Texts without a scheme

Only a text without a scheme needs a base. -/

theorem Host.bracketed?_ne_noBase (cs : List Char) : bracketed? cs ≠ .error .noBase := by
  intro h
  unfold bracketed? at h
  split at h
  · split at h <;> cases h
  · cases h

theorem Host.ofText?_ne_noBase (cs : List Char) : ofText? cs ≠ .error .noBase := by
  intro h
  unfold ofText? at h
  split at h
  · exact bracketed?_ne_noBase _ h
  · split at h
    · cases h
    · split at h
      · cases h
      · split at h
        · split at h <;> cases h
        · cases h

theorem readHost_ne_noBase (scheme : String) (cs : List Char) :
    readHost scheme cs ≠ .error .noBase := by
  intro h
  unfold readHost at h
  split at h
  · split at h
    · cases h
    · exact Host.ofText?_ne_noBase cs h
  · unfold Host.ofOpaque? at h
    split at h
    · exact Host.bracketed?_ne_noBase _ h
    · split at h <;> cases h

theorem readPort_ne_noBase (scheme : String) (cs : List Char) :
    readPort scheme cs ≠ .error .noBase := by
  intro h
  unfold readPort at h
  split_ifs at h <;> cases h

theorem readPort?_ne_noBase {scheme : String} (text : Option (List Char)) :
    text.elim (.ok none) (readPort scheme) ≠ .error .noBase := by
  cases text with
  | none => exact fun h => by cases h
  | some digits => exact readPort_ne_noBase scheme digits

theorem refuse_ne_noBase {wrong : Bool} {fault : Fault} (other : fault ≠ .noBase) :
    refuse wrong fault ≠ .error .noBase := by
  intro h
  unfold refuse at h
  split at h
  · exact other (Except.error.inj h)
  · cases h

theorem readAuthority_ne_noBase (scheme : String) (cs : List Char) :
    readAuthority scheme cs ≠ .error .noBase := by
  have host : Fault.emptyHost ≠ .noBase := by decide
  intro h
  unfold readAuthority at h
  rcases Except.error_of_bind h with h | ⟨_, -, h⟩
  · exact refuse_ne_noBase host h
  rcases Except.error_of_bind h with h | ⟨_, -, h⟩
  · exact readHost_ne_noBase _ _ h
  rcases Except.error_of_bind h with h | ⟨_, -, h⟩
  · exact refuse_ne_noBase host h
  rcases Except.error_of_bind h with h | ⟨_, -, h⟩
  · exact readPort?_ne_noBase _ h
  rcases Except.error_of_bind h with h | ⟨_, -, h⟩
  · exact refuse_ne_noBase host h
  · cases h

theorem readFileUrl_ne_noBase (base : Option Url) (cs : List Char) :
    readFileUrl base cs ≠ .error .noBase := by
  intro h
  unfold readFileUrl at h
  split at h
  · split at h
    · split at h
      · split at h
        · unfold readFileHost at h
          dsimp only at h
          split at h
          · cases h
          · rcases Except.error_of_bind h with h | ⟨_, -, h⟩
            · split at h
              · cases h
              · exact Host.ofText?_ne_noBase _ h
            · cases h
        · cases h
      · cases h
    · cases h
  · cases h

theorem readWithScheme_ne_noBase (scheme : String) (cs : List Char) :
    readWithScheme none scheme cs ≠ .error .noBase := by
  intro h
  unfold readWithScheme at h
  split at h
  · exact readFileUrl_ne_noBase _ _ h
  · split at h
    · exact readAuthority_ne_noBase _ _ h
    · split at h
      · exact readAuthority_ne_noBase _ _ h
      · cases h

theorem splitScheme?_of_noBase {text : String} (h : parse text = .error .noBase) :
    splitScheme? (cleaned text) = none := by
  unfold parse read at h
  dsimp only at h
  split at h
  · exact absurd h (readWithScheme_ne_noBase _ _)
  · assumption

end Url

namespace BaseUrl

/-! ### The choice -/

open Url

/-- A location on the web starts with a scheme of the web. -/
theorem exists_scheme_of_isWeb {location : String} (web : Source.isWeb location = true) :
    ∃ scheme rest, IsWeb scheme ∧ location.toList = scheme.toList ++ ':' :: rest := by
  rcases Bool.or_eq_true_iff.mp web with start | start
  · obtain ⟨rest, text⟩ := List.isPrefixOf_iff_prefix.mp start
    exact ⟨"http", _, Or.inl rfl, text.symm⟩
  · obtain ⟨rest, text⟩ := List.isPrefixOf_iff_prefix.mp start
    exact ⟨"https", _, Or.inr rfl, text.symm⟩

/-- The location of a description on the web has a scheme of the web. -/
theorem isWeb_scheme {location : String} {u : Url} (web : Source.isWeb location = true)
    (h : Url.parse location = .ok u) : IsWeb u.scheme := by
  obtain ⟨scheme, rest, known, text⟩ := exists_scheme_of_isWeb web
  have visible : ∀ c ∈ scheme.toList ++ [':'], 32 < c.toNat := by
    intro c hc
    rcases List.mem_append.mp hc with hc | hc
    · exact known.scheme_visible c hc
    · rw [List.mem_singleton.mp hc]
      decide
  have start : location.toList = scheme.toList ++ [':'] ++ rest := by simp [text]
  have clean := cleaned_append start visible (by simp)
  rw [List.append_assoc, List.singleton_append] at clean
  unfold Url.parse Url.read at h
  dsimp only at h
  rw [clean, known.splitScheme?] at h
  rwa [scheme_of_readWithScheme h]

theorem settled_of_relative {text location : String} {u : Url}
    (schemeless : splitScheme? (cleaned text) = none) (h : relative text location = .ok u) :
    u.Settled := by
  unfold relative at h
  split at h
  · cases h
  · next web =>
    split at h
    · cases h
    · next page read =>
      have web : IsWeb page.scheme := isWeb_scheme (by simpa using web) read
      have settled : page.withoutFragment.Settled :=
        (settled_of_parse read web).withFragment (by simp)
      exact settled_of_join settled schemeless (Except.ok_of_mapError h)

theorem settled_of_ofText {text location : String} {u : Url} (h : ofText text location = .ok u) :
    u.Settled := by
  unfold ofText at h
  split at h
  · cases h
  · split at h
    · next read =>
      split at h
      · next web =>
        cases h
        refine settled_of_parse read ?_
        simpa [IsWeb] using web
      · cases h
    · next read => exact settled_of_relative (splitScheme?_of_noBase read) h
    · cases h

/-- The base URL is settled. -/
theorem settled_of_resolve {choice : Option BaseUrlChoice} {d : Document} {location : String}
    {base : Url} (h : resolve choice d location = .ok base) : base.Settled := by
  obtain ⟨text, -, read⟩ := Except.ok_of_bind (Except.ok_of_mapError h)
  exact settled_of_ofText read

end BaseUrl

end ToolGateway
