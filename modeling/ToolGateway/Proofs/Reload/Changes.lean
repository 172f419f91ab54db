import ToolGateway.Proofs.Reload.Overlap
import ToolGateway.Proofs.Tool.Ordered

/-!
# The changes of an update

An update asks for no more than it has to. Between two catalogs that repeat no name, the names that
are gone are withdrawn in the order of the old catalog, and the tools that are new or look different
are published in the order of the new one; then clients are told, once, when there was anything to
tell (`Diff.changes_eq`). A tool that looks as before is left alone. So it is in every cycle that ends
as updated, however many of its attempts failed and whatever other cycles were started meanwhile
(`Reload.flight_changes`).
-/

namespace ToolGateway

namespace Catalog

/-- Whether a catalog has a tool that looks the same to clients. -/
def shows (c : Catalog) (t : Tool) : Bool := c.any (·.definition.same t.definition)

/-- The names that the new one of two catalogs does not have any more. -/
def gone (before after : Catalog) : List String :=
  (before.map Tool.name).filter (· ∉ after.map Tool.name)

/-- The tools of the new one of two catalogs that are new or look different. -/
def fresh (before after : Catalog) : Catalog := after.filter (!before.shows ·)

end Catalog

theorem Definition.name_eq_of_same {a b : Definition} (h : a.same b = true) : a.name = b.name := by
  simp only [same, Bool.and_eq_true, beq_iff_eq] at h
  exact h.1.1.1

namespace Diff

open Catalog

variable {before after : Catalog}

theorem removed_eq_gone : (between before after).removed = gone before after := by
  apply List.filter_congr
  intro name _
  rw [Bool.eq_iff_iff, Option.isNone_iff_eq_none, last?_eq_none_iff]
  simp

/-- Without repeated names, the tool that counts in the old catalog is the one that looks the same.
-/
theorem isKept_eq_shows (hb : (before.map Tool.name).Nodup) (t : Tool) :
    isKept before t = before.shows t := by
  rw [Bool.eq_iff_iff, isKept_eq_true_iff, shows, List.any_eq_true]
  constructor
  · rintro ⟨u, last, same⟩
    exact ⟨u, mem_of_last? last, same⟩
  · rintro ⟨u, hu, same⟩
    have name : u.name = t.name := Definition.name_eq_of_same same
    exact ⟨u, name ▸ last?_of_mem hb hu, same⟩

theorem upserted_eq_fresh (hb : (before.map Tool.name).Nodup) :
    (between before after).upserted = (fresh before after).map Tool.name := by
  simp only [between, fresh, isKept_eq_shows hb]

/-- The tools whose names stand in the difference are the fresh ones, and no other tool shares a name
with them. -/
theorem added_eq_fresh (hb : (before.map Tool.name).Nodup) (ha : (after.map Tool.name).Nodup) :
    after.filter (fun t => (between before after).upserted.contains t.name) =
      fresh before after := by
  apply List.filter_congr
  intro t ht
  rw [Bool.eq_iff_iff, List.contains_iff_mem, mem_upserted_iff_of_nodup ha ht, isKept_eq_shows hb,
    Bool.not_eq_true']

/-- The changes between two catalogs without repeated names. -/
theorem changes_eq (hb : (before.map Tool.name).Nodup) (ha : (after.map Tool.name).Nodup) :
    (between before after).changes after =
      (gone before after).map .remove ++ (fresh before after).map .add ++
        if (gone before after).isEmpty && (fresh before after).isEmpty then [] else [.notify] := by
  rw [changes, isEmpty, added_eq_fresh hb ha, removed_eq_gone, upserted_eq_fresh hb,
    List.isEmpty_map]

/-- No change concerns a tool that looks as before. -/
theorem not_concerns_of_shows (hb : (before.map Tool.name).Nodup)
    (ha : (after.map Tool.name).Nodup) {t : Tool} (ht : t ∈ after)
    (shown : before.shows t = true) {c : Change} (hc : c ∈ (between before after).changes after) :
    c.concerns t.name = false := by
  rw [changes_eq hb ha, List.mem_append, List.mem_append] at hc
  rcases hc with (hc | hc) | hc
  · obtain ⟨name, hname, rfl⟩ := List.mem_map.mp hc
    have away := (List.mem_filter.mp hname).2
    simp only [decide_eq_true_eq] at away
    rw [Change.concerns, beq_eq_false_iff_ne]
    rintro rfl
    exact away (List.mem_map_of_mem ht)
  · obtain ⟨u, hu, rfl⟩ := List.mem_map.mp hc
    obtain ⟨mem, new⟩ := List.mem_filter.mp hu
    rw [Change.concerns, beq_eq_false_iff_ne]
    intro same
    -- Two tools of one name in the new catalog are the same tool.
    have last := last?_of_mem ha mem
    rw [same, last?_of_mem ha ht] at last
    cases last
    simp [shown] at new
  · split at hc
    · cases hc
    · cases List.mem_singleton.mp hc
      rfl

end Diff

namespace Reload

open Catalog

/-- What a cycle that ends as updated asked for, between the catalog it found and the one it left: it
withdraws the names that are gone, in the old order, publishes the tools that are new or look
different, in the new order, and tells the clients exactly when there was anything of the kind. The
outcome counts both. A tool that looks as before is concerned by none of it. -/
theorem flight_changes {tools : Toolset} {moves : List Move} {f : Flight}
    (hf : f ∈ ((Traffic.idle tools).run moves).flights) {removed upserted : Nat}
    (ended : f.cycle = .over (.updated removed upserted))
    (hb : (f.found.catalog.map Tool.name).Nodup) (ha : (f.left.catalog.map Tool.name).Nodup) :
    f.asked = (gone f.found.catalog f.left.catalog).map .remove ++
        (fresh f.found.catalog f.left.catalog).map .add ++
        (if (gone f.found.catalog f.left.catalog).isEmpty &&
            (fresh f.found.catalog f.left.catalog).isEmpty then [] else [.notify]) ∧
      removed = (gone f.found.catalog f.left.catalog).length ∧
      upserted = (fresh f.found.catalog f.left.catalog).length ∧
      ∀ t ∈ f.left.catalog, f.found.catalog.shows t = true →
        ∀ c ∈ f.asked, c.concerns t.name = false := by
  have kept : ((Traffic.idle tools).run moves).Kept _ _ :=
    Traffic.run_spec lasts_accounted trivial moves
  have account := kept.flights f hf
  rw [Flight.Accounted, ended] at account
  generalize f.left.catalog = after, f.asked = asked at account ha ⊢
  cases account with
  | kept settled => exact absurd rfl (settled _ _)
  | replaced =>
    refine ⟨Diff.changes_eq hb ha, congrArg List.length Diff.removed_eq_gone, ?_, ?_⟩
    · rw [Diff.upserted_eq_fresh hb, List.length_map]
    · intro t ht shown c hc
      exact Diff.not_concerns_of_shows hb ha ht shown hc

/-! ### A catalog that changes in three ways -/

namespace Sample

open Gateway.Sample (world description)

/-- A cycle fails at first, and then finds a description where one operation is gone and another one
is new. -/
def succession : List Move :=
  [.start 2, .event 0 (.fetched (world .null)), .event 0 .slept,
    .event 0 (.fetched (world (description "2" [("/a", "x"), ("/c", "z")]))),
    .event 0 .notified]

/-- Whether a flight replaced one tool of two by another one and left the third alone. -/
def succeeded (f : Flight) : Bool :=
  endedAs (.updated 1 1) f && f.found.catalog.map Tool.name == ["x", "y"] &&
    f.left.catalog.map Tool.name == ["x", "z"]

theorem exists_succeeded : ∃ g, Gateway.build
    (world (description "1" [("/a", "x"), ("/b", "y")])) Gateway.Sample.silent
    Gateway.Sample.settings = .ok g ∧
    ((Traffic.idle g.tools).run succession).flights.any succeeded = true :=
  Except.exists_of_any
    (p := fun g : Gateway Unit => ((Traffic.idle g.tools).run succession).flights.any succeeded)
    (by decide +kernel)

end Sample

open Sample in
/-- The statement where one tool is replaced by another and a third one stays. -/
theorem flight_changes_succession : ∃ tools f,
    f ∈ ((Traffic.idle tools).run succession).flights ∧ f.cycle = .over (.updated 1 1) ∧
    (f.found.catalog.map Tool.name).Nodup ∧ (f.left.catalog.map Tool.name).Nodup ∧
    f.asked = (gone f.found.catalog f.left.catalog).map .remove ++
        (fresh f.found.catalog f.left.catalog).map .add ++
        (if (gone f.found.catalog f.left.catalog).isEmpty &&
            (fresh f.found.catalog f.left.catalog).isEmpty then [] else [.notify]) ∧
      1 = (gone f.found.catalog f.left.catalog).length ∧
      1 = (fresh f.found.catalog f.left.catalog).length ∧
      ∀ t ∈ f.left.catalog, f.found.catalog.shows t = true →
        ∀ c ∈ f.asked, c.concerns t.name = false := by
  obtain ⟨g, -, some⟩ := exists_succeeded
  obtain ⟨f, hf, succeeded⟩ := List.any_eq_true.mp some
  simp only [Sample.succeeded, Bool.and_eq_true, beq_iff_eq] at succeeded
  obtain ⟨⟨ended, found⟩, left⟩ := succeeded
  have updated := over_of_endedAs ended
  have hb : (f.found.catalog.map Tool.name).Nodup := by simp [found]
  have ha : (f.left.catalog.map Tool.name).Nodup := by simp [left]
  exact ⟨g.tools, f, hf, updated, hb, ha, flight_changes hf updated hb ha⟩

end Reload

end ToolGateway
