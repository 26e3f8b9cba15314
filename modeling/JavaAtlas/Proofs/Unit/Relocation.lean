import JavaAtlas.Proofs.Path
import JavaAtlas.Proofs.Unit.Origin

/-!
# One text in two files

Which file a tree is read for goes into the unit and nowhere else. So the units of one text under two
spellings of a path differ in the spelling alone.
-/

namespace JavaAtlas

set_option autoImplicit false

open Java

namespace SourceUnit

def relocate (u : SourceUnit) (path : Path) : SourceUnit := { u with path := path }

theorem relocate_pushRef (u : SourceUnit) (path : Path) (name : String) (span : Span) (c : Context) :
    (u.relocate path).pushRef name span c = (u.pushRef name span c).relocate path := by
  unfold pushRef
  split <;> rfl

theorem relocate_noteSupertype (owner : Nat) (before after : SourceUnit) (path : Path) :
    noteSupertype owner (before.relocate path) (after.relocate path) =
      (noteSupertype owner before after).relocate path := by
  rw [noteSupertype, noteSupertype, apply_ite (fun u : SourceUnit => u.relocate path)]
  rfl

end SourceUnit

namespace Java

theorem relocate_addMembers (text : String) (t : Tree) (c : Context) (u : SourceUnit) (path : Path) :
    addMembers text t c (u.relocate path) = (addMembers text t c u).relocate path := by
  unfold addMembers
  split
  · rfl
  · rename_i owner _
    exact List.foldl_hom (fun u : SourceUnit => u.relocate path) fun u m => rfl

theorem planPlain_relocate (text : String) (t : Tree) (c : Context) (u : SourceUnit) (path : Path) :
    planPlain text t c (u.relocate path) =
      ((planPlain text t c u).1.relocate path, (planPlain text t c u).2) := by
  unfold planPlain
  split
  · rfl
  · rfl
  · split
    · split <;> rfl
    · split
      case _ => split <;> rfl
      -- an entry is added for the members or the name of the tree, or none is
      all_goals try first | rw [relocate_addMembers] | rw [SourceUnit.relocate_pushRef] | rfl
      split
      · rw [SourceUnit.relocate_pushRef]
      · rfl

theorem plan_relocate (text : String) (v : Visit) (t : Tree) (u : SourceUnit) (path : Path) :
    plan text v t (u.relocate path) =
      ((plan text v t u).1.relocate path, (plan text v t u).2) := by
  unfold plan
  split
  case h_1 | h_3 | h_4 | h_6 | h_7 => rfl
  case h_2 c => exact planPlain_relocate text t c u path
  case h_5 scope owner c =>
    split
    · dsimp only
      split
      · rfl
      · split <;> rfl
    · rfl
  case h_8 owner c =>
    split
    · cases componentOf? text t <;> rfl
    · exact planPlain_relocate text t c u path
  case h_9 c =>
    split
    · exact planPlain_relocate text t c u path
    · split <;> rfl

/-- What is noted after a child does not depend on which file it stands in. -/
def Plan.Relocates (p : Plan) : Prop :=
  ∀ child before after path, p.settle child (before.relocate path) (after.relocate path) =
    (p.settle child before after).relocate path

theorem settle_planPlain (text : String) (t : Tree) (c : Context) (u : SourceUnit) :
    (planPlain text t c u).2.settle = fun _ _ after => after := by
  unfold planPlain
  split
  · rfl
  · rfl
  · split
    · split <;> rfl
    · split
      case _ => split <;> rfl
      all_goals rfl

theorem Plan.relocates_of_settle {p : Plan} (h : p.settle = fun _ _ after => after) : p.Relocates := by
  intro child before after path
  rw [h]

theorem relocates_plan (text : String) (v : Visit) (t : Tree) (u : SourceUnit) :
    (plan text v t u).2.Relocates := by
  have hplain (c : Context) : (planPlain text t c u).2.Relocates :=
    Plan.relocates_of_settle (settle_planPlain text t c u)
  unfold plan
  split
  case h_1 | h_3 | h_4 | h_7 => exact Plan.relocates_of_settle rfl
  case h_2 c => exact hplain c
  case h_5 => split <;> exact Plan.relocates_of_settle rfl
  case h_6 owner c =>
    intro child before after path
    dsimp only
    split
    · rfl
    · exact SourceUnit.relocate_noteSupertype owner before after path
  case h_8 c =>
    split
    · exact Plan.relocates_of_settle rfl
    · exact hplain c
  case h_9 c =>
    split
    · exact hplain c
    · split <;> exact Plan.relocates_of_settle rfl

mutual

theorem visit_relocate (text : String) (v : Visit) (t : Tree) (u : SourceUnit) (path : Path) :
    visit text v t (u.relocate path) = (visit text v t u).relocate path := by
  cases t with
  | node l children =>
    rw [visit, visit, plan_relocate]
    exact visitAll_relocate text _ (relocates_plan text v _ u) children _ path

theorem visitAll_relocate (text : String) (p : Plan) (hp : p.Relocates) (trees : List Tree)
    (u : SourceUnit) (path : Path) :
    visitAll text p trees (u.relocate path) = (visitAll text p trees u).relocate path := by
  cases trees with
  | nil => rfl
  | cons t rest =>
    rw [visitAll, visitAll, ← visitAll_relocate text p hp rest, visit_relocate text _ t, hp,
      apply_ite (fun u : SourceUnit => u.relocate path)]

end

end Java

namespace SourceUnit

theorem parse_relocate (parser : Java.Parser) (p q : Path) (text : String) (print : Fingerprint)
    (level : LanguageLevel) :
    (parse parser p text print level).relocate q = parse parser q text print level := by
  unfold parse lower
  split
  next root _ =>
    have hvisit := visit_relocate text (.plain {}) root
      { path := p, fingerprint := print, languageLevel := level } q
    rw [show SourceUnit.relocate { path := p, fingerprint := print, languageLevel := level } q =
      { path := q, fingerprint := print, languageLevel := level } from rfl] at hvisit
    dsimp only
    rw [hvisit]
    rfl
  next => rfl

/-- The same unit, but for how the path of its file is spelled. -/
def SameAs (u v : SourceUnit) : Prop := compare u.path v.path = .eq ∧ u.relocate v.path = v

namespace SameAs

variable {u v : SourceUnit}

theorem refl (u : SourceUnit) : u.SameAs u := ⟨Std.ReflCmp.compare_self, rfl⟩

theorem fingerprint (h : u.SameAs v) : u.fingerprint = v.fingerprint := by
  rw [← h.2]
  rfl

theorem parse (parser : Java.Parser) {p q : Path} (h : compare p q = .eq) (text : String)
    (print : Fingerprint) (level : LanguageLevel) :
    (SourceUnit.parse parser p text print level).SameAs (.parse parser q text print level) := by
  refine ⟨?_, ?_⟩
  · rw [path_parse, path_parse]
    exact h
  · rw [path_parse, parse_relocate]

end SameAs

end SourceUnit

end JavaAtlas
