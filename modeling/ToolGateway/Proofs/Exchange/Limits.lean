import ToolGateway.Exchange.Basic
import ToolGateway.Proofs.Text.Utf8

/-!
# Bodies that are read up to a limit

A body comes in chunks, and whether it fits is decided chunk by chunk. Since a buffer that was
filled so far is what the chunks so far hold (`gather_eq`), the decision comes to the same wherever
the body is cut, and a buffer never holds more than the limit. So what is read depends on the
declared length and on the bytes alone, and it is a text exactly when both lengths are within the
limit and the bytes are those of that text (`limitedText_spec`).
-/

namespace ToolGateway.Reply

variable {max : Nat}

/-! ### The buffer -/

/-- The buffer after the first chunks of a reply, none when they did not fit. -/
def buffer? (max : Nat) (r : Reply) (count : Nat) : Option (List UInt8) :=
  gather max [] (r.chunks.take count)

/-- Gathering goes on from the buffer that was filled so far. -/
theorem gather_append (buffer : List UInt8) (before after : List (List UInt8)) :
    gather max buffer (before ++ after) = (gather max buffer before).bind (gather max · after) := by
  induction before generalizing buffer with
  | nil => rfl
  | cons chunk before ih =>
    rw [List.cons_append, gather, gather]
    split
    · rfl
    · exact ih (buffer ++ chunk)

/-- Chunks fit exactly when all their bytes fit behind those in the buffer. -/
theorem gather_eq {buffer : List UInt8} (fits : buffer.length ≤ max) (chunks : List (List UInt8)) :
    gather max buffer chunks =
      if buffer.length + chunks.flatten.length ≤ max then some (buffer ++ chunks.flatten)
      else none := by
  induction chunks generalizing buffer with
  | nil => simp [gather, fits]
  | cons chunk chunks ih =>
    rw [gather, List.flatten_cons, List.length_append]
    by_cases exceeds : buffer.length + chunk.length > max
    · -- The rest of the chunks cannot make up for one that is too long.
      rw [if_pos exceeds, if_neg (by omega)]
    · have fits' : (buffer ++ chunk).length ≤ max := by
        rw [List.length_append]
        omega
      rw [if_neg exceeds, ih fits', List.length_append, Nat.add_assoc, List.append_assoc]

theorem gather_eq_some_iff {chunks : List (List UInt8)} {bytes : List UInt8} :
    gather max [] chunks = some bytes ↔ bytes = chunks.flatten ∧ bytes.length ≤ max := by
  rw [gather_eq (Nat.zero_le max), List.length_nil, Nat.zero_add, List.nil_append]
  constructor
  · intro h
    split at h
    · next fits =>
      cases h
      exact ⟨rfl, fits⟩
    · cases h
  · rintro ⟨rfl, fits⟩
    exact if_pos fits

/-! ### The text -/

/-- What is read of a reply with a limit, said of its bytes as a whole. -/
theorem limitedText_eq (max : Nat) (r : Reply) :
    r.limitedText max =
      match r.declaredLength.filter (· > max) with
      | some n => .error (.http
          ("Response too large: " ++ decimal n ++ " bytes (limit " ++ decimal max ++ ")"))
      | none =>
        if r.chunks.flatten.length ≤ max then
          if r.complete then
            ((Utf8.decode? r.chunks.flatten).map .ok).getD
              (.error (.http "Response is not valid UTF-8"))
          else .error .transport
        else .error (.http ("Response too large: exceeded " ++ decimal max ++ " bytes")) := by
  rw [limitedText, gather_eq (Nat.zero_le max), List.length_nil, Nat.zero_add, List.nil_append]
  cases r.declaredLength.filter (· > max) with
  | some n => rfl
  | none =>
    by_cases fits : r.chunks.flatten.length ≤ max
    · simp only [if_pos fits]
      cases r.complete with
      | false => rfl
      | true => cases Utf8.decode? r.chunks.flatten <;> rfl
    · simp only [if_neg fits]

theorem filter_gt_eq_none_iff {declared : Option Nat} :
    declared.filter (· > max) = none ↔ ∀ n, declared = some n → n ≤ max := by
  cases declared <;> simp

/-- Reading a reply with a limit. -/
structure ReadWithin (max : Nat) (r : Reply) : Prop where
  /-- Replies with the same declared length and the same bytes are read alike, however the bytes are
  cut into chunks. -/
  alike : ∀ r' : Reply, r'.declaredLength = r.declaredLength → r'.complete = r.complete →
    r'.chunks.flatten = r.chunks.flatten → r'.limitedText max = r.limitedText max
  /-- A body that did not break off is read exactly when its lengths are within the limit and its
  bytes are those of a text. -/
  ok_iff : ∀ text, r.limitedText max = .ok text ↔ r.complete = true ∧
    (∀ n, r.declaredLength = some n → n ≤ max) ∧ r.chunks.flatten.length ≤ max ∧
    Utf8.encode text = r.chunks.flatten
  /-- After every chunk the buffer holds the bytes so far, which are within the limit, and the
  reading goes on from it. -/
  buffer : ∀ count buffer, r.buffer? max count = some buffer →
    buffer = (r.chunks.take count).flatten ∧ buffer.length ≤ max ∧
      gather max [] r.chunks = gather max buffer (r.chunks.drop count)

/-- However a body is cut into chunks, it is read as its bytes say, and no buffer is longer than the
limit. -/
theorem limitedText_spec (max : Nat) (r : Reply) : r.ReadWithin max where
  alike r' declared complete bytes := by
    rw [limitedText_eq, limitedText_eq, declared, complete, bytes]
  ok_iff text := by
    rw [limitedText_eq, ← filter_gt_eq_none_iff, ← Utf8.decode?_eq_some_iff]
    generalize r.chunks.flatten = bytes
    cases r.declaredLength.filter (· > max) with
    | some n => simp
    | none =>
      by_cases fits : bytes.length ≤ max
      · cases r.complete with
        | false => simp [fits]
        | true => cases Utf8.decode? bytes <;> simp [fits]
      · simp [fits]
  buffer count buffer h := by
    obtain ⟨same, fits⟩ := gather_eq_some_iff.mp h
    refine ⟨same, fits, ?_⟩
    have cut : gather max [] r.chunks =
        gather max [] (r.chunks.take count ++ r.chunks.drop count) := by
      rw [List.take_append_drop]
    rw [cut, gather_append]
    exact congrArg (Option.bind · _) h

/-- A body that fills the limit is read, in whatever chunks it comes, also when one of them ends
inside of a character. -/
example :
    (⟨200, none, some 3, [[0x61, 0xC3], [], [0xA4]], true⟩ : Reply).limitedText 3 = .ok "aä" := by
  decide +kernel

end ToolGateway.Reply
