import ToolGateway.Proofs.Reading
import ToolGateway.Proofs.Reload.Overlap
import ToolGateway.Proofs.Schema.Filtering
import ToolGateway.Proofs.Tool.Names
import ToolGateway.Proofs.Reference.Copying

/-!
# Catalogs and the descriptions they were compiled from

A cycle takes a description for known by the version of the catalog, or of the current description
when the catalog is empty. The current description may be one that was put in place and did not
compile, so a cycle can end without a change although the catalog was not compiled from it. What
lasts is less: if the current description compiles at all, the catalog is what it compiles to
(`Toolset.Settled`). So a cycle that ends as updated or without a change leaves a catalog that was
compiled from the current description, with the version just fetched, exactly when that description
compiles and has a version still (`success_compiled_iff`).
-/

namespace ToolGateway

/-! ### Descriptions of catalogs -/

namespace Toolset

variable {t : Toolset}

/-- The catalog was compiled from the current description. -/
def Compiled (t : Toolset) : Prop := t.compiler.catalog t.registry.document = .ok t.catalog

/-- The current description compiles. -/
def Compiles (t : Toolset) : Prop :=
  ∃ catalog, t.compiler.catalog t.registry.document = .ok catalog

/-- If the current description compiles at all, the catalog was compiled from it. -/
def Settled (t : Toolset) : Prop := t.Compiles → t.Compiled

/-- A catalog that was compiled from the current description is known by its version. -/
theorem Compiled.knownVersion (h : t.Compiled) : t.knownVersion = t.registry.version := by
  unfold Toolset.knownVersion compiledVersion
  cases hc : t.catalog with
  | nil => rfl
  | cons tool tools =>
    have same : tool.operation.document = t.registry.document :=
      Compiler.document_of_mem h (hc ▸ List.mem_cons_self)
    rw [List.head?_cons, Option.bind_some, same]
    exact Option.or_self

end Toolset

/-! ### Versions of finished descriptions -/

/-- What is made of a description that was read has its version, or none any more. -/
theorem Registry.version_finish {w : World} {check : DigestCheck} {location : String}
    {root : Source} {switches : Dict Bool} {raw document : Document}
    (read : Document.read w check location = .ok raw)
    (finished : finish w root switches raw = .ok document) :
    document.version = raw.version ∨ document.version = none := by
  obtain ⟨filtered, applied, resolved⟩ := Except.ok_of_bind finished
  obtain ⟨distinct, version, known⟩ := Document.read_spec read
  rw [← Filter.version_apply applied] at known ⊢
  rw [known]
  exact Document.version_resolve resolved (Filter.distinct_apply distinct applied) known

namespace Reload

/-! ### What a flight leaves -/

/-- Before its end a flight knows the version that it found, and has the tools that it found or a
description that does not compile. When its outcome is an update or no change, the last world that
it saw decides about the description and the catalog that it leaves. -/
def Flight.Faithful (f : Flight) : Prop :=
  match f.cycle with
  | .fetching plan _ | .waiting plan _ _ =>
    plan.version = f.found.knownVersion ∧ f.found.Settled ∧ (f.left = f.found ∨ ¬f.left.Compiles)
  | .notifying outcome | .over outcome =>
    (outcome = .noChange ∨ ∃ removed upserted, outcome = .updated removed upserted) →
      ∃ w raw, f.seen.getLast? = some w ∧ f.left.registry.raw w = .ok raw ∧
        (f.left.Compiled ∧ f.left.registry.version = raw.version ↔
          f.left.Compiles ∧ f.left.registry.version.isSome = true)

/-- After an attempt that found the known version, the catalog was compiled from the description
that was found, or that description does not compile. -/
theorem compiled_iff_of_gated {found left : Toolset} {w : World} {raw : Document}
    (read : left.registry.raw w = .ok raw) (known : raw.version = found.knownVersion)
    (settled : found.Settled) (kept : left = found ∨ ¬left.Compiles) :
    left.Compiled ∧ left.registry.version = raw.version ↔
      left.Compiles ∧ left.registry.version.isSome = true := by
  obtain ⟨-, version, has⟩ := Document.read_spec read
  constructor
  · rintro ⟨compiled, same⟩
    exact ⟨⟨_, compiled⟩, by rw [same, has]; rfl⟩
  · rintro ⟨compiles, -⟩
    rcases kept with rfl | bad
    · have compiled := settled compiles
      exact ⟨compiled, by rw [known, compiled.knownVersion]⟩
    · exact absurd compiles bad

/-- After an attempt that compiled what was fetched, only the version can be lost. -/
theorem compiled_iff_of_replaced {left : Toolset} {w : World} {raw document : Document}
    {catalog : Catalog} (read : left.registry.raw w = .ok raw)
    (finished : Registry.finish w left.registry.root left.registry.filters raw = .ok document)
    (compiled : left.compiler.catalog document = .ok catalog) :
    let after := { left with registry := { left.registry with document }, catalog }
    after.Compiled ∧ after.registry.version = raw.version ↔
      after.Compiles ∧ after.registry.version.isSome = true := by
  obtain ⟨-, version, has⟩ := Document.read_spec read
  constructor
  · rintro ⟨-, same⟩
    exact ⟨⟨_, compiled⟩, by rw [same, has]; rfl⟩
  · rintro ⟨-, some⟩
    refine ⟨compiled, ?_⟩
    rcases Registry.version_finish read finished with same | lost
    · exact same
    · rw [Registry.version, lost] at some
      cases some

theorem lasts_faithful : Lasts Toolset.Settled Flight.Faithful where
  skipped _ := by
    rintro (h | ⟨_, _, h⟩) <;> cases h
  launched _ _ settled := ⟨rfl, settled, Or.inl rfl⟩
  next f e awaits h settled := by
    have step := f.next_spec e awaits
    generalize f.next e = f' at step ⊢
    cases step with
    | @failed _ _ _ left _ _ _ _ registry bad after =>
      obtain ⟨version, before, kept⟩ := h
      have kept' : { left with registry } = left ∨ ¬Toolset.Compiles { left with registry } := by
        rcases bad with rfl | ⟨e, bad⟩
        · exact Or.inl rfl
        · refine Or.inr ?_
          rintro ⟨catalog, compiles⟩
          cases bad.symm.trans compiles
      constructor
      · rcases after with rfl | rfl
        · refine ⟨version, before, ?_⟩
          rcases kept' with same | bad
          · rw [same]
            exact kept
          · exact Or.inr bad
        · rintro (h | ⟨_, _, h⟩) <;> cases h
      · rcases kept' with same | bad
        · rw [same]
          exact settled
        · exact fun compiles => absurd compiles bad
    | gated read known =>
      obtain ⟨version, before, kept⟩ := h
      refine ⟨fun _ => ⟨_, _, List.getLast?_concat .., read, ?_⟩, settled⟩
      exact compiled_iff_of_gated read (known.trans version) before kept
    | replaced catalog read finished compiled _ after =>
      refine ⟨?_, fun _ => compiled⟩
      rcases after with rfl | rfl <;>
      exact fun _ => ⟨_, _, List.getLast?_concat .., read,
        compiled_iff_of_replaced read finished compiled⟩
    | notified => exact ⟨h, settled⟩
    | slept => exact ⟨h, settled⟩
    | cancelled =>
      refine ⟨?_, settled⟩
      rintro (h | ⟨_, _, h⟩) <;> cases h

/-- In every run of moves, a cycle that ends as updated or without a change has read a description
in the world that it saw last. It leaves a catalog that was compiled from the current description,
with the version just read, exactly when the current description compiles and has a version. -/
theorem success_compiled_iff {σ : Type} {w₀ : World} {server : Server σ}
    {settings : GatewaySettings} {g : Gateway σ} (h : Gateway.build w₀ server settings = .ok g)
    {moves : List Move} {f : Flight} (hf : f ∈ ((Traffic.idle g.tools).run moves).flights)
    {outcome : ReloadOutcome} (ended : f.cycle = .over outcome)
    (success : outcome = .noChange ∨ ∃ removed upserted, outcome = .updated removed upserted) :
    ∃ w raw, f.seen.getLast? = some w ∧ f.left.registry.raw w = .ok raw ∧
      (f.left.Compiled ∧ f.left.registry.version = raw.version ↔
        f.left.Compiles ∧ f.left.registry.version.isSome = true) := by
  have settled : g.tools.Settled := fun _ => (Gateway.exists_addAll_of_build h).1
  have faithful := (Traffic.run_spec lasts_faithful settled moves).flights f hf
  rw [Flight.Faithful, ended] at faithful
  exact faithful success

/-! ### A description that does not compile and is taken for known -/

namespace Sample

open Gateway.Sample (world description)

/-- A description whose only operation cannot be named. -/
def unusable : World := world (description "2" [("/a", "-")])

/-- Two cycles of one attempt, one after the other, that find it. -/
def twice : List Move :=
  [.start 1, .event 0 (.fetched unusable), .start 1, .event 1 (.fetched unusable)]

/-- A cycle that finds an operation to add, and tells the clients. -/
def usual : List Move :=
  [.start 1, .event 0 (.fetched (world (description "2" [("/b", "y")]))), .event 0 .notified]

/-- Whether a flight ended without a change and left version 2, which does not compile. -/
def tookForKnown (f : Flight) : Bool :=
  endedAs .noChange f && f.left.registry.version == some "2" &&
    (f.left.compiler.catalog f.left.registry.document).toOption.isNone

theorem exists_tookForKnown : ∃ g, Gateway.build (world (description "1" []))
    Gateway.Sample.silent Gateway.Sample.settings = .ok g ∧
    ((Traffic.idle g.tools).run twice).flights.any tookForKnown = true :=
  Except.exists_of_any
    (p := fun g : Gateway Unit => ((Traffic.idle g.tools).run twice).flights.any tookForKnown)
    (by decide +kernel)

theorem exists_updated : ∃ g, Gateway.build (world (description "1" [("/a", "x")]))
    Gateway.Sample.silent Gateway.Sample.settings = .ok g ∧
    ((Traffic.idle g.tools).run usual).flights.any (endedAs (.updated 1 1)) = true :=
  Except.exists_of_any (p := fun g : Gateway Unit =>
    ((Traffic.idle g.tools).run usual).flights.any (endedAs (.updated 1 1))) (by decide +kernel)

end Sample

open Sample in
/-- The statement at a cycle that ends as updated. -/
theorem success_compiled_iff_updated : ∃ g, Gateway.build
    (Gateway.Sample.world (Gateway.Sample.description "1" [("/a", "x")])) Gateway.Sample.silent
    Gateway.Sample.settings = .ok g ∧
    ∃ f ∈ ((Traffic.idle g.tools).run usual).flights, f.cycle = .over (.updated 1 1) ∧
    ∃ w raw, f.seen.getLast? = some w ∧ f.left.registry.raw w = .ok raw ∧
      (f.left.Compiled ∧ f.left.registry.version = raw.version ↔
        f.left.Compiles ∧ f.left.registry.version.isSome = true) := by
  obtain ⟨g, hg, some⟩ := exists_updated
  obtain ⟨f, hf, updated⟩ := List.any_eq_true.mp some
  have ended := over_of_endedAs updated
  exact ⟨g, hg, f, hf, ended, success_compiled_iff hg hf ended (Or.inr ⟨1, 1, rfl⟩)⟩

open Sample in
/-- A description that was put in place and does not compile is taken for known by the next cycle,
which ends without a change and without another attempt to compile it. -/
theorem uncompiled_without_change : ∃ g, Gateway.build
    (Gateway.Sample.world (Gateway.Sample.description "1" [])) Gateway.Sample.silent
    Gateway.Sample.settings = .ok g ∧
    ∃ f ∈ ((Traffic.idle g.tools).run twice).flights, f.cycle = .over .noChange ∧
      f.left.registry.version = some "2" ∧ ¬f.left.Compiles ∧ ¬f.left.Compiled := by
  obtain ⟨g, hg, some⟩ := exists_tookForKnown
  obtain ⟨f, hf, took⟩ := List.any_eq_true.mp some
  simp only [tookForKnown, Bool.and_eq_true, beq_iff_eq] at took
  obtain ⟨⟨ended, version⟩, bad⟩ := took
  have never : ¬f.left.Compiles := by
    rintro ⟨catalog, compiles⟩
    rw [compiles] at bad
    cases bad
  exact ⟨g, hg, f, hf, over_of_endedAs ended, version, never, fun compiled => never ⟨_, compiled⟩⟩

end Reload

end ToolGateway
