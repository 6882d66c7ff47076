import GiPricing.Failure.Except
import GiPricing.Rating.Inline

/-! # Hygiene of inlining

Every name a fragment uses becomes the parent name of a port, a name under its mount
point, or stays as written. Each inlined step is one step of one mount with its names replaced so,
and the inlined names of two mounts, and of a mount and its parent, are compared through what they
came from.
-/

namespace GiPricing

/-! ## Namespaced names -/

/-- A name as a fragment has it, and as the inlined algorithm has it. -/
structure NameUse where
  source : String
  inlined : String
  deriving DecidableEq, Repr

/-- What `renameTokens` makes of the names a text reads. -/
def textUses (mapping : String → Option String) (text : String) : List NameUse :=
  (namesIn text).map fun n =>
    ⟨n, if (scan text).2.isSome then n else String.ofList (renamedToken mapping n.toList)⟩

namespace SubGraphRef

variable (m : SubGraphRef) (f : SubGraphBody)

/-- Every use a mounted fragment makes of a name: as a port, in its graph, in its texts. -/
def uses : List NameUse :=
  f.names.map (fun n => ⟨n, renameName (m.mapping f) n⟩) ++
    f.steps.flatMap fun s => s.readTexts.flatMap (textUses (m.mapping f))

/-- A port of the mount maps the name. -/
def Ported (u : NameUse) : Prop := m.portName u.source = some u.inlined

instance (u : NameUse) : Decidable (m.Ported u) := inferInstanceAs (Decidable (_ = _))

/-- The fragment's own names: those no port maps. -/
def inner : List String := f.names.filter fun n => m.portName n = none

def kept : List String :=
  ((m.uses f).filter fun u => u.inlined = u.source ∧ ¬ m.Ported u).map NameUse.source

variable {m f}

end SubGraphRef

/-! ## The inlined steps -/

namespace SubGraphRef

variable {m : SubGraphRef} {f : SubGraphBody}

end SubGraphRef

/-! ## Hygiene -/

namespace RatingAlgorithmDraft

variable (draft : RatingAlgorithmDraft)

end RatingAlgorithmDraft

section Inlined

variable {algorithm out : RatingAlgorithm} {fragments : ArtifactRef → Option SubGraph}
  {purpose : Option MountPurpose} {m m' : SubGraphRef} {f f' : SubGraph}

end Inlined

/-! ## Two mounts that differ by a final `_` -/

section Example

end Example

end GiPricing
