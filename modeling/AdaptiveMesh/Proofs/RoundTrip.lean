/-
Options that are written and read again.

Options are written as a document that is read back as the same options.  A document is
put together from parts, and so is the proof: `Rereads` says of a reader and a writer that
the one gets back what the other wrote, and every way to make a larger writer out of
smaller ones keeps it.

Two things could go wrong, and both where different values share a form.  What is absent
is written as `null`, so nothing that may be absent must be written as `null` when it is
there.  Values for single axes are written as a list, so a value for all axes must not be
read from a list.
-/
import AdaptiveMesh.Options.Format

namespace AdaptiveMesh

namespace Value

variable {α : Type} {read : Value → Option α} {write : α → Value}

/-- Whatever is written is read back. -/
def Rereads (read : Value → Option α) (write : α → Value) : Prop :=
  ∀ x, read (write x) = some x

/-! ### Scalars and names -/

theorem rereads_bool : Rereads bool? bool := by
  intro b
  rfl

theorem rereads_uint8 : Rereads uint8? ofUInt8 := by
  intro n
  have hlt : n.toNat < UInt8.size := n.toNat_lt_size
  show (if n.toNat < UInt8.size then some (UInt8.ofNat n.toNat) else none) = some n
  rw [if_pos hlt, UInt8.ofNat_toNat]

theorem rereads_uint64 : Rereads uint64? ofUInt64 := by
  intro n
  have hlt : n.toNat < UInt64.size := n.toNat_lt_size
  show (if n.toNat < UInt64.size then some (UInt64.ofNat n.toNat) else none) = some n
  rw [if_pos hlt, UInt64.ofNat_toNat]

/-- What is told by its name is written as the name. -/
theorem rereads_named {ofName? : String → Option α} {name : α → String}
    (h : ∀ x, ofName? (name x) = some x) : Rereads (named? ofName?) fun x => text (name x) := by
  intro x
  show ofName? (name x) = some x
  exact h x

theorem rereads_flag : Rereads flag? ofFlag := by
  intro f
  cases f <;> decide

/-! ### Lists, and what may be absent -/

theorem Rereads.list (h : Rereads read write) : Rereads (listOf? read) (ofList write) := by
  intro values
  show (values.map write).mapM read = some values
  induction values with
  | nil => rfl
  | cons x values ih =>
      rw [List.map_cons, List.mapM_cons, h x, ih]
      rfl

theorem ofList_ne_null (values : List α) : ofList write values ≠ null := by
  intro h
  contradiction

/-- What is never written as `null` may be absent. -/
theorem Rereads.option (h : Rereads read write) (hnull : ∀ x, write x ≠ null) :
    Rereads (orNull? read) (ofOption write) := by
  intro x
  cases x with
  | none => rfl
  | some x =>
      have hread : orNull? read (write x) = (read (write x)).map some := by
        cases hw : write x with
        | null => exact absurd hw (hnull x)
        | _ => rfl
      show orNull? read (write x) = some (some x)
      rw [hread, h x]
      rfl

/-- What is never read from a list may be given once for all axes. -/
theorem Rereads.perAxis (h : Rereads read write) (hlist : ∀ values, read (.list values) = none) :
    Rereads (perAxis? read) (ofPerAxis write) := by
  intro p
  cases p with
  | uniform x =>
      show perAxis? read (write x) = some (.uniform x)
      unfold perAxis?
      rw [h x]
  | each values =>
      show perAxis? read (ofList write values) = some (.each values)
      have hnot : read (ofList write values) = none := hlist _
      unfold perAxis?
      rw [hnot, h.list values]
      rfl

theorem ofPerAxis_ne_null (hnull : ∀ x, write x ≠ null) (p : PerAxis α) :
    ofPerAxis write p ≠ null := by
  cases p with
  | uniform x => exact hnull x
  | each values => exact ofList_ne_null values

theorem rereads_levels : Rereads (perAxis? uint8?) (ofPerAxis ofUInt8) :=
  rereads_uint8.perAxis fun _ => rfl

theorem rereads_extents : Rereads (perAxis? uint64?) (ofPerAxis ofUInt64) :=
  rereads_uint64.perAxis fun _ => rfl

/-! ### Records

A reader looks for a field by its name, wherever it stands.  The names of a record are all
different, so it finds what was written for that field. -/

theorem fields?_object {names : List String} {entries : List (String × Value)}
    (h : ∀ entry ∈ entries, entry.1 ∈ names) : fields? names (object entries) = some entries :=
  if_pos h

variable {fields : List (String × Value)} {name : String}

/-- A field that was written is read back, whether or not it may be missing. -/
theorem Rereads.required (h : Rereads read write) {x : α}
    (hfield : fields.lookup name = some (write x)) :
    required fields name read = some x := by
  unfold Value.required
  rw [hfield]
  exact h x

theorem Rereads.withDefault (h : Rereads read write) {x default : α}
    (hfield : fields.lookup name = some (write x)) :
    withDefault fields name default read = some x := by
  unfold Value.withDefault
  rw [hfield]
  exact h x

end Value

open Value

theorem Isotropy.ofName?_name (i : Isotropy) : ofName? i.name = some i := by
  cases i <;> decide

theorem RefinementMode.ofName?_name (m : RefinementMode) : ofName? m.name = some m := by
  cases m <;> decide

theorem Basis.ofName?_name (b : Basis) : ofName? b.name = some b := by
  cases b <;> decide

theorem Quadrature.ofName?_name (q : Quadrature) : ofName? q.name = some q := by
  cases q <;> decide

/-! ### The parts of options -/

namespace CriterionOptions

theorem rereads : Rereads ofValue? toValue := by
  intro o
  have hlevels := rereads_uint8.list
  have hextents := rereads_uint64.list
  have haxes := hextents.option ofList_ne_null
  have hflags := rereads_flag.list.option ofList_ne_null
  cases o with
  | increaseResolution axes =>
      show ofKind? CriterionKind.increaseResolution.name
        (object [("dimensions", ofOption (ofList ofUInt64) axes)]) = _
      unfold ofKind?
      rw [if_pos rfl, fields?_object (by simp), Option.bind_eq_bind, Option.bind_some,
        haxes.withDefault rfl]
      rfl
  | driveToTarget extents levels flags axes =>
      show ofKind? CriterionKind.driveToTarget.name (object [
        ("target_extents", ofList ofUInt64 extents),
        ("target_levels", ofList ofUInt8 levels),
        ("flags_at_target", ofOption (ofList ofFlag) flags),
        ("dimensions", ofOption (ofList ofUInt64) axes)]) = _
      unfold ofKind?
      rw [if_neg (by decide), if_pos rfl, fields?_object (by simp), Option.bind_eq_bind,
        Option.bind_some, hextents.required rfl, hlevels.required rfl, hflags.withDefault rfl,
        haxes.withDefault rfl]
      rfl

end CriterionOptions

theorem LimitsOptions.rereads : Rereads ofValue? toValue := by
  intro o
  have hmax := rereads_extents.option (ofPerAxis_ne_null fun n h => by contradiction)
  unfold ofValue? toValue
  rw [fields?_object (by simp), Option.bind_eq_bind, Option.bind_some]
  dsimp only
  rw [rereads_levels.withDefault rfl, rereads_levels.withDefault rfl,
    rereads_extents.withDefault rfl, hmax.withDefault rfl]
  rfl

theorem PolicyOptions.rereads : Rereads ofValue? toValue := by
  intro o
  have hisotropy := rereads_named Isotropy.ofName?_name
  unfold ofValue? toValue
  rw [fields?_object (by simp), Option.bind_eq_bind, Option.bind_some]
  dsimp only
  rw [hisotropy.withDefault rfl, LimitsOptions.rereads.withDefault rfl,
    rereads_bool.withDefault rfl, rereads_bool.withDefault rfl]
  rfl

/-! ### All options -/

/-- Options survive being written and read again. -/
theorem Options.ofValue?_toValue (o : Options) : Options.ofValue? o.toValue = some o := by
  have hmode := rereads_named RefinementMode.ofName?_name
  have hbasis := rereads_named Basis.ofName?_name
  have hquadrature := rereads_named Quadrature.ofName?_name
  unfold ofValue? toValue
  rw [fields?_object (by simp), Option.bind_eq_bind, Option.bind_some,
    CriterionOptions.rereads.list.required rfl, Option.bind_eq_bind, Option.bind_some]
  dsimp only
  rw [PolicyOptions.rereads.withDefault rfl, hmode.withDefault rfl, hbasis.withDefault rfl,
    hquadrature.withDefault rfl]
  rfl

end AdaptiveMesh
