import ToolGateway.Proofs.Except
import ToolGateway.Url.Parser

/-!
# URLs of one page

Two URLs agree when they differ in user info, query or fragment only. What is shown of them is the
same (`Agrees.redact_eq`), and a reference that is read against both leads to URLs that agree or fails
with one fault (`Agrees.join`): nothing of a base but its scheme, host, port and path decides how a
reference is read.
-/

namespace ToolGateway.Url

/-- Two URLs that differ in user info, query or fragment only. -/
structure Agrees (u v : Url) : Prop where
  scheme : u.scheme = v.scheme
  host : u.host = v.host
  port : u.port = v.port
  path : u.path = v.path

namespace Agrees

variable {u v : Url}

theorem refl (u : Url) : u.Agrees u := ⟨rfl, rfl, rfl, rfl⟩

theorem withoutFragment (h : u.Agrees v) : u.withoutFragment.Agrees v.withoutFragment :=
  ⟨h.scheme, h.host, h.port, h.path⟩

theorem withTail (h : u.Agrees v) (query fragment : Option (List Char)) :
    (u.withTail query fragment).Agrees (v.withTail query fragment) :=
  ⟨h.scheme, h.host, h.port, h.path⟩

theorem withPath (h : u.Agrees v) (path : Path) :
    ({ u with path } : Url).Agrees { v with path } :=
  ⟨h.scheme, h.host, h.port, rfl⟩

/-- What is shown of URLs that agree is the same. -/
theorem redact_eq (h : u.Agrees v) : u.redact = v.redact := by
  have same : u.redacted = v.redacted := by
    unfold redacted
    rw [h.scheme, h.host, h.port, h.path]
  rw [redact, redact, same]

/-! ### References against them -/

variable {base base' : Option Url}

theorem rooted (h : Option.Rel Agrees base base') (cs : List Char) :
    readFileUrl.rooted base cs = readFileUrl.rooted base' cs := by
  cases h with
  | none => rfl
  | some h =>
    unfold readFileUrl.rooted
    -- Of the base only the host and the path count.
    cases drive : startsWithDrive cs with
    | true => rfl
    | false =>
      simp only [Bool.false_eq_true, if_false, Option.map_some, Option.bind_some, h.host, h.path]

theorem relative (h : Option.Rel Agrees base base') (cs : List Char) :
    (readFileUrl.relative base cs).Agrees (readFileUrl.relative base' cs) := by
  cases h with
  | none => exact .refl _
  | some h =>
    unfold readFileUrl.relative
    dsimp only
    split
    · split
      · exact h.withTail _ _
      · exact ⟨h.scheme, h.host, h.port, h.path⟩
    · split
      · exact .refl _
      · rw [h.path]
        exact (h.withPath _).withTail _ _

theorem readFileUrl (h : Option.Rel Agrees base base') (cs : List Char) :
    Except.Related Eq Agrees (readFileUrl base cs) (readFileUrl base' cs) := by
  unfold Url.readFileUrl
  simp only [rooted h]
  split
  · split
    · split
      · split
        · exact .refl (fun _ => rfl) refl _
        · exact .ok (.refl _)
      · exact .ok (.refl _)
    · exact .ok (relative h _)
  · exact .ok (relative h _)

theorem under (h : u.Agrees v) (segments : List String) (cs : List Char) :
    (readRelative.under u segments cs).Agrees (readRelative.under v segments cs) :=
  ⟨h.scheme, h.host, h.port,
    congrArg (fun scheme => readPath scheme segments (splitTail cs).1) h.scheme⟩

theorem readRelative (h : u.Agrees v) (cs : List Char) :
    Except.Related Eq Agrees (readRelative u cs) (readRelative v cs) := by
  have aside : ∀ cs, (readRelative.relative u cs).Agrees (readRelative.relative v cs) := by
    intro cs
    unfold readRelative.relative
    dsimp only
    split
    · split
      · exact h.withTail _ _
      · exact ⟨h.scheme, h.host, h.port, h.path⟩
    · rw [h.path]
      exact h.under _ _
  unfold Url.readRelative
  rw [h.scheme]
  split
  · split
    · split
      · split
        · split
          · exact .refl (fun _ => rfl) refl _
          · exact .refl (fun _ => rfl) refl _
        · exact .ok (h.under _ _)
      · exact .ok (h.under _ _)
    · exact .ok (aside _)
  · exact .ok (aside _)

theorem readWithScheme (h : u.Agrees v) (scheme : String) (cs : List Char) :
    Except.Related Eq Agrees (readWithScheme (some u) scheme cs) (readWithScheme (some v) scheme cs) := by
  have file : Option.Rel Agrees ((some u).filter (·.scheme == "file"))
      ((some v).filter (·.scheme == "file")) := by
    simp only [Option.filter_some, h.scheme]
    split
    · exact .some h
    · exact .none
  unfold Url.readWithScheme
  split
  · exact readFileUrl file cs
  · split
    · dsimp only
      rw [h.scheme]
      split
      · exact h.readRelative cs
      · exact .refl (fun _ => rfl) refl _
    · exact .refl (fun _ => rfl) refl _

/-- A reference leads from URLs that agree to URLs that agree, or fails with one fault. -/
theorem join (h : u.Agrees v) (reference : String) :
    Except.Related Eq Agrees (u.join reference) (v.join reference) := by
  unfold Url.join read
  dsimp only
  split
  · exact h.readWithScheme _ _
  · rw [h.path, h.scheme]
    split
    · exact .ok ⟨rfl, h.host, h.port, rfl⟩
    · exact .error rfl
    · split
      · exact readFileUrl (.some h) _
      · exact h.readRelative _

end Agrees

end ToolGateway.Url
