import JavaAtlas.Proofs.Record.RoundTrip
import JavaAtlas.Proofs.Text.Ends
import JavaAtlas.Store.Directory

/-!
# The marker of a directory

The version is written in decimal digits and read back as the same version, so a directory is emptied
when it is opened for another schema and left as it is when it is opened for its own.
-/

namespace JavaAtlas

set_option autoImplicit false

theorem readSchema?_toString (schema : UInt32) :
    readSchema? (toString schema.toNat) = some schema := by
  have hdigits : (toString schema.toNat).toList = Nat.toDigits 10 schema.toNat := Nat.toList_repr
  have hall : ∀ c ∈ Nat.toDigits 10 schema.toNat, c.isDigit = true := fun c hc =>
    Nat.isDigit_of_mem_toDigits (by decide) (by decide) hc
  have hvalue : (Nat.toDigits 10 schema.toNat).foldl (fun n c => 10 * n + (c.toNat - 48)) 0 =
      schema.toNat := Nat.ofDigitChars_ten_toDigits
  have hguard : ((Nat.toDigits 10 schema.toNat).isEmpty ||
      !(Nat.toDigits 10 schema.toNat).all Char.isDigit) = false := by
    have hne : (Nat.toDigits 10 schema.toNat).isEmpty = false :=
      List.isEmpty_eq_false_iff.mpr Nat.toDigits_ne_nil
    rw [hne, List.all_eq_true.mpr hall]
    rfl
  have hlt : schema.toNat < 4294967296 := schema.toNat_lt
  rw [readSchema?, hdigits]
  dsimp only
  split
  next rest heq =>
    have hplus := hall '+' (by rw [heq]; exact List.mem_cons_self)
    simp at hplus
  next =>
    rw [hguard, hvalue, if_pos hlt, UInt32.ofNat_toNat]
    rfl

theorem isBlank_of_isDigit {c : Char} (h : c.isDigit = true) : Text.isBlank c = false := by
  have hrange := Char.isDigit_iff_toNat.mp h
  have hlow : 48 ≤ c.toNat := hrange.1
  have hhigh : c.toNat ≤ 57 := hrange.2
  simp only [Text.isBlank, Bool.or_eq_false_iff, Bool.and_eq_false_iff, beq_eq_false_iff_ne,
    decide_eq_false_iff_not]
  omega

theorem trim_of_not_blank {cs : List Char} (h : ∀ c ∈ cs, Text.isBlank c = false) :
    Text.trim cs = cs := by
  have htrim := Text.trim_append (List.forall_mem_nil _) h (List.forall_mem_nil _)
  rwa [List.nil_append, List.append_nil] at htrim

/-- A marker is read as the version it was written for. -/
theorem markerVersion_toString (schema : UInt32) :
    markerVersion (toString schema.toNat) = schema := by
  have htrim : Text.trim (toString schema.toNat).toList = (toString schema.toNat).toList := by
    apply trim_of_not_blank
    intro c hc
    have hdigits : (toString schema.toNat).toList = Nat.toDigits 10 schema.toNat := Nat.toList_repr
    rw [hdigits] at hc
    exact isBlank_of_isDigit (Nat.isDigit_of_mem_toDigits (by decide) (by decide) hc)
  rw [markerVersion, htrim, String.ofList_toList, readSchema?_toString]
  rfl

namespace StoreDirectory

variable {d : StoreDirectory} {schema : UInt32}

theorem openFor_of_marker (hfree : d.blocked = false)
    (hmarker : d.marker = some (Text.encode (toString schema.toNat))) (wanted : UInt32) :
    ∃ opened, d.openFor wanted = some opened ∧ opened.1.blocked = false ∧
      opened.1.marker = some (Text.encode (toString wanted.toNat)) ∧
      ∀ name, opened.1.node? name = if wanted = schema then d.node? name else none := by
  have htext : d.markerText? = some (toString schema.toNat) := by
    rw [markerText?, hmarker, Option.bind_some, Codec.decode?_encode]
  have hguard : ¬ (d.blocked || (d.marker.isSome && d.markerText?.isNone)) = true := by
    rw [hfree, htext]
    simp
  rw [openFor, if_neg hguard, htext, Option.map_some, markerVersion_toString]
  by_cases hschema : schema = wanted
  · subst hschema
    refine ⟨_, if_pos rfl, hfree, hmarker, fun name => ?_⟩
    rw [if_pos rfl, node?, node?]
    cases d.records <;> rfl
  · have hne : some schema ≠ some wanted := fun h => hschema (Option.some.inj h)
    refine ⟨_, if_neg hne, hfree, rfl, fun name => ?_⟩
    rw [if_neg (Ne.symm hschema)]
    rfl

/-- There is nothing where no store was opened yet. -/
theorem openFor_default (wanted : UInt32) :
    ∃ opened, (default : StoreDirectory).openFor wanted = some opened ∧
      opened.1.blocked = false ∧ opened.1.marker = some (Text.encode (toString wanted.toNat)) ∧
      ∀ name, opened.1.node? name = none :=
  ⟨_, rfl, rfl, rfl, fun _ => rfl⟩

end StoreDirectory

end JavaAtlas
