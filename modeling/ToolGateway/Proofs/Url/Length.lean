import Mathlib.Data.List.Flatten
import ToolGateway.Proofs.Url.Printed

/-!
# How long a path is once it is read

Reading a path on top of segments may lose characters and never adds any, apart from escapes
(`length_slashed_appendSegments`). So a text that is shorter than another one, but is read as a path
of the same length, is the other one (`eq_of_length_encoded`).
-/

namespace ToolGateway.Url

variable {cs ds : List Char} {c : Char}

theorem encoded_cons (c : Char) (cs : List Char) :
    encoded (c :: cs) = encoded [c] ++ encoded cs := by
  rw [encoded, encoded, encoded, List.flatMap_cons, List.flatMap_singleton]

theorem encoded_append (cs ds : List Char) : encoded (cs ++ ds) = encoded cs ++ encoded ds := by
  rw [encoded, List.flatMap_append]
  rfl

theorem encoded_singleton_ne_nil (c : Char) : encoded [c] ≠ [] := by
  by_cases kept : Percent.Keeps (keeps pathExtra) c
  · rw [encoded_cons_of_kept kept]
    exact List.cons_ne_nil _ _
  · obtain ⟨x, y, rest, same, -⟩ := encoded_cons_of_not_kept kept []
    rw [same]
    exact List.cons_ne_nil _ _

theorem slashed_append (segments more : List String) :
    slashed (segments ++ more) = slashed segments ++ slashed more := by
  rw [slashed, List.flatMap_append]
  rfl

/-! ### Appending segments -/

theorem slashed_encodePart (cs : List Char) : slashed [encodePart pathExtra cs] = '/' :: encoded cs := by
  rw [slashed, List.flatMap_singleton, toList_encodePart]

theorem length_slashed_appendSegment (segments : List String) (cs : List Char) (last : Bool) :
    (slashed (appendSegment false segments cs last)).length ≤
      (slashed segments).length + (slashed [encodePart pathExtra cs]).length := by
  have empty : (slashed [""]).length = 1 := rfl
  have shortened : (slashed (shorten false segments)).length ≤ (slashed segments).length := by
    refine List.Sublist.length_le (List.Sublist.flatMap ?_ _)
    unfold shorten
    split
    · exact List.nil_sublist _
    · exact List.dropLast_sublist _
  rw [slashed_encodePart, List.length_cons]
  unfold appendSegment
  split
  · dsimp only
    split
    · rw [slashed_append, List.length_append, empty]
      omega
    · omega
  · split
    · split
      · rw [slashed_append, List.length_append, empty]
        omega
      · omega
    · rw [if_neg (by simp), slashed_append, List.length_append, slashed_encodePart, List.length_cons]

/-- Segments take as much room as when they are appended as they are, or less. -/
theorem length_slashed_appendSegments (segments : List String) (parts : List (List Char)) :
    (slashed (appendSegments false segments parts)).length ≤
      (slashed segments).length + (slashed (parts.map (encodePart pathExtra))).length := by
  fun_induction appendSegments false segments parts with
  | case1 segments => exact Nat.le_add_right _ _
  | case2 segments last => exact length_slashed_appendSegment segments last true
  | case3 segments part rest _ ih =>
    have first := length_slashed_appendSegment segments part false
    have split : slashed ((part :: rest).map (encodePart pathExtra)) =
        slashed [encodePart pathExtra part] ++ slashed (rest.map (encodePart pathExtra)) :=
      slashed_append [_] _
    rw [split, List.length_append]
    omega

/-! ### Texts of segments -/

theorem length_slashed_pieces (cs : List Char) :
    (slashed ((Text.pieces (isSlash true) cs).map (encodePart pathExtra))).length =
      (encoded cs).length + 1 := by
  induction cs with
  | nil => rfl
  | cons c cs ih =>
    cases slash : isSlash true c with
    | true =>
      have kept : Percent.Keeps (keeps pathExtra) c := by
        simp only [isSlash, Bool.true_and, Bool.or_eq_true, decide_eq_true_eq] at slash
        rcases slash with rfl | rfl <;> decide
      have split : slashed (([] :: Text.pieces (isSlash true) cs).map (encodePart pathExtra)) =
          '/' :: slashed ((Text.pieces (isSlash true) cs).map (encodePart pathExtra)) := rfl
      rw [Text.pieces_cons_of_pos slash, split, List.length_cons, ih, encoded_cons_of_kept kept,
        List.length_cons]
    | false =>
      obtain ⟨piece, rest, same, cut⟩ := Text.pieces_cons_of_neg slash cs
      have split (part : List Char) : slashed ((part :: rest).map (encodePart pathExtra)) =
          '/' :: encoded part ++ slashed (rest.map (encodePart pathExtra)) := by
        rw [← slashed_encodePart]
        exact slashed_append [_] _
      rw [same, split] at ih
      rw [cut, split, encoded_cons c piece, encoded_cons c cs]
      simp only [List.cons_append, List.length_cons, List.length_append] at ih ⊢
      omega

theorem slashed_map_encodePart {parts : List (List Char)} (ne : parts ≠ []) :
    slashed (parts.map (encodePart pathExtra)) = '/' :: encoded (['/'].intercalate parts) := by
  induction parts with
  | nil => exact absurd rfl ne
  | cons part parts ih =>
    cases parts with
    | nil => rw [List.intercalate_singleton, List.map_singleton, slashed_encodePart]
    | cons next parts =>
      have slash : encoded ('/' :: ['/'].intercalate (next :: parts)) =
          '/' :: encoded (['/'].intercalate (next :: parts)) := encoded_cons_of_kept (by decide) _
      rw [List.map_cons, List.intercalate_cons_cons, List.append_assoc, List.singleton_append,
        encoded_append, slash, ← ih (List.cons_ne_nil _ _), ← List.cons_append,
        ← slashed_encodePart]
      exact slashed_append [_] _

/-- A text without some characters of another one takes less room. -/
theorem eq_of_length_encoded (sub : cs.Sublist ds)
    (length : (encoded ds).length ≤ (encoded cs).length) : cs = ds := by
  induction sub with
  | slnil => rfl
  | @cons cs ds c sub ih =>
    have less : (encoded cs).length ≤ (encoded ds).length := (sub.flatMap _).length_le
    have some := List.length_pos_of_ne_nil (encoded_singleton_ne_nil c)
    rw [encoded_cons, List.length_append] at length
    omega
  | @cons_cons cs ds c sub ih =>
    rw [encoded_cons c ds, encoded_cons c cs, List.length_append, List.length_append] at length
    rw [ih (by omega)]

end ToolGateway.Url
