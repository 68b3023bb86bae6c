/-
How options are written in a settings document.

`ofValue?` accepts what a document may say, `toValue` is the full form: every field is
there, and what is absent is `null`.  A limit is written the way it was given, once
or once for each axis.
-/
import AdaptiveMesh.Options.Basic
import AdaptiveMesh.Options.Value

namespace AdaptiveMesh

/-! ### Names -/

/-- The isotropy's name. -/
def Isotropy.name : Isotropy → String
  | isotropic => "Isotropic"
  | anisotropic => "Anisotropic"

/-- The isotropy with a name. -/
def Isotropy.ofName? (s : String) : Option Isotropy :=
  [isotropic, anisotropic].find? fun i => i.name = s

/-- The mode's name. -/
def RefinementMode.name : RefinementMode → String
  | resolutionOnly => "POnly"
  | full => "HAndP"

/-- The mode with a name. -/
def RefinementMode.ofName? (s : String) : Option RefinementMode :=
  [resolutionOnly, full].find? fun m => m.name = s

namespace Value

variable {α : Type}

/-! ### Parts of options -/

/-- What has a name, and nothing but a name. -/
def named? (ofName? : String → Option α) (v : Value) : Option α :=
  (v.name? isNull).bind ofName?

/-- A flag as part of a criterion. -/
def flag? (v : Value) : Option Flag := (v.name? isVoid).bind Flag.ofName?

/-- One value for all axes, or a list with one for each. -/
def perAxis? (read : Value → Option α) (v : Value) : Option (PerAxis α) :=
  match read v with
  | some value => some (.uniform value)
  | none => (v.listOf? read).map .each

/-- An eight-bit number. -/
def ofUInt8 (n : UInt8) : Value := integer n.toNat

/-- A 64-bit number. -/
def ofUInt64 (n : UInt64) : Value := integer n.toNat

/-- A flag. -/
def ofFlag (f : Flag) : Value := text f.name

/-- A list. -/
def ofList (write : α → Value) (values : List α) : Value := list (values.map write)

/-- Something that may be absent. -/
def ofOption (write : α → Value) : Option α → Value
  | none => null
  | some x => write x

/-- A value for all axes, or one for each. -/
def ofPerAxis (write : α → Value) : PerAxis α → Value
  | .uniform value => write value
  | .each values => ofList write values

end Value

open Value

/-! ### Criteria -/

namespace CriterionOptions

/-- Reads a criterion of a kind from the rest of its record. -/
def ofKind? (kind : String) (rest : Value) : Option CriterionOptions :=
  if kind = CriterionKind.increaseResolution.name then do
    let fields ← rest.fields? ["dimensions"]
    return increaseResolution
      (← withDefault fields "dimensions" none (orNull? (listOf? uint64?)))
  else if kind = CriterionKind.driveToTarget.name then do
    let fields ← rest.fields? ["target_extents", "target_levels", "flags_at_target", "dimensions"]
    return driveToTarget
      (← required fields "target_extents" (listOf? uint64?))
      (← required fields "target_levels" (listOf? uint8?))
      (← withDefault fields "flags_at_target" none (orNull? (listOf? flag?)))
      (← withDefault fields "dimensions" none (orNull? (listOf? uint64?)))
  else none

/-- Reads a criterion. -/
def ofValue? (v : Value) : Option CriterionOptions := do
  let (kind, rest) ← v.tagged? "kind"
  ofKind? kind rest

/-- Writes a criterion. -/
def toValue : CriterionOptions → Value
  | increaseResolution axes => object [
      ("kind", text CriterionKind.increaseResolution.name),
      ("dimensions", ofOption (ofList ofUInt64) axes)]
  | driveToTarget extents levels flags axes => object [
      ("kind", text CriterionKind.driveToTarget.name),
      ("target_extents", ofList ofUInt64 extents),
      ("target_levels", ofList ofUInt8 levels),
      ("flags_at_target", ofOption (ofList ofFlag) flags),
      ("dimensions", ofOption (ofList ofUInt64) axes)]

end CriterionOptions

/-! ### Limits and policies -/

namespace LimitsOptions

/-- Reads limits. -/
def ofValue? (v : Value) : Option LimitsOptions := do
  let fields ← v.fields? ["min_level", "max_level", "min_extent", "max_extent"]
  let default : LimitsOptions := {}
  return {
    minLevel := ← withDefault fields "min_level" default.minLevel (perAxis? uint8?)
    maxLevel := ← withDefault fields "max_level" default.maxLevel (perAxis? uint8?)
    minExtent := ← withDefault fields "min_extent" default.minExtent (perAxis? uint64?)
    maxExtent := ← withDefault fields "max_extent" default.maxExtent
      (orNull? (perAxis? uint64?)) }

/-- Writes limits. -/
def toValue (o : LimitsOptions) : Value := object [
  ("min_level", ofPerAxis ofUInt8 o.minLevel),
  ("max_level", ofPerAxis ofUInt8 o.maxLevel),
  ("min_extent", ofPerAxis ofUInt64 o.minExtent),
  ("max_extent", ofOption (ofPerAxis ofUInt64) o.maxExtent)]

end LimitsOptions

namespace PolicyOptions

/-- Reads policies. -/
def ofValue? (v : Value) : Option PolicyOptions := do
  let fields ← v.fields? ["isotropy", "limits", "error_on_violation",
    "enforce_two_to_one_balance_in_normal_direction"]
  let default : PolicyOptions := {}
  return {
    isotropy := ← withDefault fields "isotropy" default.isotropy (named? Isotropy.ofName?)
    limits := ← withDefault fields "limits" default.limits LimitsOptions.ofValue?
    strict := ← withDefault fields "error_on_violation" default.strict bool?
    balanceNormal := ← withDefault fields "enforce_two_to_one_balance_in_normal_direction"
      default.balanceNormal bool? }

/-- Writes policies. -/
def toValue (o : PolicyOptions) : Value := object [
  ("isotropy", text o.isotropy.name),
  ("limits", o.limits.toValue),
  ("error_on_violation", bool o.strict),
  ("enforce_two_to_one_balance_in_normal_direction", bool o.balanceNormal)]

end PolicyOptions

/-! ### All options -/

namespace Options

/-- Reads options. -/
def ofValue? (v : Value) : Option Options := do
  let fields ← v.fields? ["criteria", "policies", "mode", "basis", "quadrature"]
  let criteria ← required fields "criteria" (listOf? CriterionOptions.ofValue?)
  let default : Options := { criteria }
  return {
    criteria
    policies := ← withDefault fields "policies" default.policies PolicyOptions.ofValue?
    mode := ← withDefault fields "mode" default.mode (named? RefinementMode.ofName?)
    basis := ← withDefault fields "basis" default.basis (named? Basis.ofName?)
    quadrature := ← withDefault fields "quadrature" default.quadrature
      (named? Quadrature.ofName?) }

/-- Writes options. -/
def toValue (o : Options) : Value := object [
  ("criteria", ofList CriterionOptions.toValue o.criteria),
  ("policies", o.policies.toValue),
  ("mode", text o.mode.name),
  ("basis", text o.basis.name),
  ("quadrature", text o.quadrature.name)]

end Options

end AdaptiveMesh
