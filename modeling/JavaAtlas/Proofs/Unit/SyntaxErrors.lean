import JavaAtlas.Proofs.Attribution.Accounting
import JavaAtlas.Proofs.Unit.Places
import JavaAtlas.Unit.Parse
import Mathlib

/-!
# The faults of a tree

A fault is reported if no other fault is around it. The walk keeps the trees it has still to see on a
stack and passes over those without a fault; what it has found at any time is what stands before the
trees on the stack. Sorting then moves nothing past a diagnostic at the same place.
-/

namespace JavaAtlas

set_option autoImplicit false

/-- Sorting leaves the diagnostics of one place in their order. -/
theorem Diagnostic.filter_sortByPosition (ds : List Diagnostic) (s : Span) :
    (sortByPosition ds).filter (·.span = s) = ds.filter (·.span = s) := by
  have hequal : (ds.filter (·.span = s)).Pairwise fun a b => a.span.before b.span = true := by
    apply List.pairwise_of_forall_mem_list
    intro a ha b hb
    have hsame : a.span = b.span :=
      (of_decide_eq_true (List.mem_filter.mp ha).2).trans (of_decide_eq_true (List.mem_filter.mp hb).2).symm
    rw [hsame, Span.before_iff]
    omega
  have hsublist : (ds.filter (·.span = s)).Sublist (sortByPosition ds) := by
    apply List.sublist_mergeSort _ _ hequal List.filter_sublist
    · intro a b c hab hbc
      rw [Span.before_iff] at *
      omega
    · intro a b
      rw [Bool.or_eq_true, Span.before_iff, Span.before_iff]
      omega
  have hkept := hsublist.filter (·.span = s)
  rw [List.filter_filter] at hkept
  simp only [Bool.and_self] at hkept
  exact (hkept.eq_of_length ((perm_sortByPosition ds).filter _).length_eq.symm).symm

namespace Java

/-! ## Places seen from further out -/

def Place.inside (around : List Tree) (p : Place) : Place := ⟨p.node, p.around ++ around⟩

mutual

theorem Tree.places_eq_map (around : List Tree) (t : Tree) :
    t.places around = (t.places []).map (Place.inside around) := by
  match t with
  | .node l children =>
    rw [Tree.places, Tree.places, Tree.placesAll_eq_map (.node l children :: around) children,
      Tree.placesAll_eq_map [.node l children] children, List.map_cons, List.map_map]
    congr 1
    apply List.map_congr_left
    intro p _
    simp [Place.inside]

theorem Tree.placesAll_eq_map (around : List Tree) (trees : List Tree) :
    Tree.placesAll around trees = (Tree.placesAll [] trees).map (Place.inside around) := by
  match trees with
  | [] => rfl
  | t :: rest =>
    rw [Tree.placesAll, Tree.placesAll, Tree.places_eq_map around t,
      Tree.placesAll_eq_map around rest, List.map_append]

end

theorem Tree.placesAll_append (around : List Tree) (ts us : List Tree) :
    Tree.placesAll around (ts ++ us) = Tree.placesAll around ts ++ Tree.placesAll around us := by
  induction ts with
  | nil => rfl
  | cons t ts ih => rw [List.cons_append, Tree.placesAll, Tree.placesAll, ih, List.append_assoc]

theorem Tree.mem_places_self (t : Tree) (around : List Tree) : ⟨t, around⟩ ∈ t.places around := by
  cases t
  exact List.mem_cons_self

theorem Tree.exists_mem_places_child {l : Label} {children : List Tree} {t : Tree}
    (ht : t ∈ children) {p : Place} (hp : p ∈ t.places []) :
    ∃ q ∈ (Tree.node l children).places [], q.node = p.node := by
  obtain ⟨left, right, rfl⟩ := List.append_of_mem ht
  refine ⟨p.inside [.node l (left ++ t :: right)], ?_, rfl⟩
  rw [Tree.places, Tree.placesAll_append, Tree.placesAll, Tree.places_eq_map]
  apply List.mem_cons_of_mem
  apply List.mem_append_right
  exact List.mem_append_left _ (List.mem_map.mpr ⟨p, hp, rfl⟩)

/-! ## Outermost faults -/

def Place.isOutermostFault (p : Place) : Bool :=
  p.node.label.isFault && p.around.all fun t => !t.label.isFault

/-- The faults of a tree that are not within another one, in the order of the text. -/
def Tree.faults (root : Tree) : List Place := (root.places []).filter Place.isOutermostFault

/-- The labels of the outermost faults of some trees in a row. -/
def faultsAmong (trees : List Tree) : List Label :=
  ((Tree.placesAll [] trees).filter Place.isOutermostFault).map (·.node.label)

theorem faultsAmong_singleton (t : Tree) : faultsAmong [t] = t.faults.map (·.node.label) := by
  rw [faultsAmong, Tree.placesAll, Tree.placesAll, List.append_nil, Tree.faults]

theorem faultsAmong_append (ts us : List Tree) :
    faultsAmong (ts ++ us) = faultsAmong ts ++ faultsAmong us := by
  unfold faultsAmong
  rw [Tree.placesAll_append, List.filter_append, List.map_append]

theorem faultsAmong_cons (t : Tree) (rest : List Tree) :
    faultsAmong (t :: rest) = faultsAmong [t] ++ faultsAmong rest :=
  faultsAmong_append [t] rest

/-- Everything within a fault has that fault around it. -/
theorem faultsAmong_of_isFault {l : Label} (h : l.isFault = true) (children : List Tree) :
    faultsAmong [.node l children] = [l] := by
  have hwithin : (Tree.placesAll [.node l children] children).filter Place.isOutermostFault = [] := by
    rw [List.filter_eq_nil_iff]
    intro p hp hout
    have hmem : Tree.node l children ∈ p.around :=
      (Tree.suffix_of_mem_placesAll children hp).subset List.mem_cons_self
    rw [Place.isOutermostFault, Bool.and_eq_true, List.all_eq_true] at hout
    have hclear := hout.2 _ hmem
    rw [Tree.label, h] at hclear
    simp at hclear
  have hself : Place.isOutermostFault ⟨.node l children, []⟩ = true := by
    rw [Place.isOutermostFault, Tree.label, h]
    rfl
  rw [faultsAmong_singleton, Tree.faults, Tree.places, List.filter_cons_of_pos hself, hwithin]
  rfl

/-- What is around a place does not count as long as it is no fault. -/
theorem faultsAmong_of_not_isFault {l : Label} (h : l.isFault = false) (children : List Tree) :
    faultsAmong [.node l children] = faultsAmong children := by
  have hself : ¬ Place.isOutermostFault ⟨.node l children, []⟩ = true := by
    rw [Place.isOutermostFault, Tree.label, h]
    simp
  have hinside (p : Place) :
      (p.inside [.node l children]).isOutermostFault = p.isOutermostFault := by
    simp [Place.isOutermostFault, Place.inside, Tree.label, h]
  rw [faultsAmong_singleton, Tree.faults, Tree.places, List.filter_cons_of_neg hself,
    Tree.placesAll_eq_map, List.filter_map, List.map_map, faultsAmong]
  congr 1
  apply List.filter_congr
  intro p _
  exact hinside p

theorem faultsAmong_of_clear {t : Tree} (h : ∀ p ∈ t.places [], p.node.label.isFault = false) :
    faultsAmong [t] = [] := by
  rw [faultsAmong_singleton, List.map_eq_nil_iff, Tree.faults, List.filter_eq_nil_iff]
  intro p hp
  rw [Place.isOutermostFault, h p hp]
  simp

/-! ## The walk -/

/-- The flag is set on those nodes of a tree that are a fault or have one below them. -/
def FlagsFaults (hasError : Tree → Bool) (root : Tree) : Prop :=
  ∀ p ∈ root.places [],
    hasError p.node = true ↔ ∃ q ∈ p.node.places [], q.node.label.isFault = true

theorem FlagsFaults.root {hasError : Tree → Bool} {t : Tree} (h : FlagsFaults hasError t) :
    hasError t = true ↔ ∃ q ∈ t.places [], q.node.label.isFault = true :=
  h _ (t.mem_places_self [])

theorem FlagsFaults.clear {hasError : Tree → Bool} {t : Tree} (h : FlagsFaults hasError t)
    (hflag : ¬ hasError t = true) : faultsAmong [t] = [] := by
  apply faultsAmong_of_clear
  intro p hp
  rw [← Bool.not_eq_true]
  intro hfault
  exact hflag (h.root.mpr ⟨p, hp, hfault⟩)

theorem FlagsFaults.child {hasError : Tree → Bool} {l : Label} {children : List Tree}
    (h : FlagsFaults hasError (.node l children)) {t : Tree} (ht : t ∈ children) :
    FlagsFaults hasError t := by
  intro p hp
  obtain ⟨q, hq, hnode⟩ := Tree.exists_mem_places_child (l := l) ht hp
  rw [← hnode]
  exact h q hq

theorem collectFaults_eq {hasError : Tree → Bool} (text : String) {stack : List Tree}
    (h : ∀ t ∈ stack, FlagsFaults hasError t) (found : List Diagnostic) :
    collectFaults hasError text stack found =
      found ++ (faultsAmong stack).map (faultDiagnostic text) := by
  fun_induction collectFaults hasError text stack found with
  | case1 found => exact (List.append_nil found).symm
  | case2 l children rest found hfault ih =>
    rw [List.forall_mem_cons] at h
    rw [ih h.2, faultsAmong_cons, faultsAmong_of_isFault hfault, List.map_append, List.append_assoc]
    rfl
  | case3 l children rest found hfault hflag ih =>
    rw [List.forall_mem_cons] at h
    have hstack : ∀ t ∈ children ++ rest, FlagsFaults hasError t := by
      rw [List.forall_mem_append]
      exact ⟨fun t ht => h.1.child ht, h.2⟩
    rw [ih hstack, faultsAmong_append, faultsAmong_cons,
      faultsAmong_of_not_isFault (Bool.eq_false_iff.mpr hfault)]
  | case4 l children rest found hfault hflag ih =>
    rw [List.forall_mem_cons] at h
    rw [ih h.2, faultsAmong_cons, h.1.clear hflag, List.nil_append]

theorem addSyntaxErrors_eq {hasError : Tree → Bool} {root : Tree} (h : FlagsFaults hasError root)
    (text : String) (before : List Diagnostic) :
    addSyntaxErrors hasError text root before = before ++ Diagnostic.sortByPosition
      (root.faults.map fun p => faultDiagnostic text p.node.label) := by
  have hfaults : root.faults.map (fun p => faultDiagnostic text p.node.label) =
      (faultsAmong [root]).map (faultDiagnostic text) := by
    rw [faultsAmong_singleton, List.map_map]
    rfl
  rw [hfaults, addSyntaxErrors]
  split
  next =>
    rw [collectFaults_eq text (List.forall_mem_singleton.mpr h)]
    simp only [List.take_left, List.drop_left]
  next hflag =>
    rw [h.clear hflag]
    simp [Diagnostic.sortByPosition]

/-! ## What is reported -/

/-- One syntax error for each outermost fault of a tree, at its place and in the order of the places;
of several at one place the first in the text comes first. -/
structure Reports (text : String) (root : Tree) (added : List Diagnostic) : Prop where
  once : added.Perm (root.faults.map fun p => faultDiagnostic text p.node.label)
  sorted : added.Pairwise fun a b => a.span.before b.span = true
  ties : ∀ s : Span, added.filter (·.span = s) =
    (root.faults.map fun p => faultDiagnostic text p.node.label).filter (·.span = s)
  clear : (∀ p ∈ root.places [], p.node.label.isFault = false) → added = []

theorem reports_sortByPosition (text : String) (root : Tree) :
    Reports text root (Diagnostic.sortByPosition
      (root.faults.map fun p => faultDiagnostic text p.node.label)) where
  once := Diagnostic.perm_sortByPosition _
  sorted := Diagnostic.pairwise_sortByPosition _
  ties := Diagnostic.filter_sortByPosition _
  clear h := by
    have hnone := faultsAmong_of_clear h
    rw [faultsAmong_singleton, List.map_eq_nil_iff] at hnone
    rw [hnone]
    simp [Diagnostic.sortByPosition]

mutual

theorem Tree.hasError_iff (around : List Tree) (t : Tree) :
    t.hasError = true ↔ ∃ q ∈ t.places around, q.node.label.isFault = true := by
  match t with
  | .node l children =>
    rw [Tree.hasError, Bool.or_eq_true,
      Tree.hasErrorAmong_iff (.node l children :: around) children, Tree.places]
    simp only [List.mem_cons, or_and_right, exists_or, exists_eq_left]
    rfl

theorem Tree.hasErrorAmong_iff (around : List Tree) (trees : List Tree) :
    Tree.hasErrorAmong trees = true ↔
      ∃ q ∈ Tree.placesAll around trees, q.node.label.isFault = true := by
  match trees with
  | [] => simp [Tree.hasErrorAmong, Tree.placesAll]
  | t :: rest =>
    rw [Tree.hasErrorAmong, Bool.or_eq_true, Tree.hasError_iff around t,
      Tree.hasErrorAmong_iff around rest, Tree.placesAll]
    simp only [List.mem_append, or_and_right, exists_or]

end

theorem flagsFaults_hasError (root : Tree) : FlagsFaults Tree.hasError root :=
  fun p _ => p.node.hasError_iff []

/-- The walk adds one diagnostic per outermost fault behind those that are there. -/
theorem reports_addSyntaxErrors {hasError : Tree → Bool} {root : Tree}
    (h : FlagsFaults hasError root) (text : String) (before : List Diagnostic) :
    ∃ added, addSyntaxErrors hasError text root before = before ++ added ∧ Reports text root added :=
  ⟨_, addSyntaxErrors_eq h text before, reports_sortByPosition text root⟩

/-- An error with a missing token in it, a missing token at the place where that error begins, and two
missing brackets at the end, one of them within a block. -/
def brokenTree : Tree :=
  let missing (text : String) (offset : Nat) : Tree :=
    .node ⟨.token text, none, .clamp offset offset, true⟩ []
  .node ⟨.phrase .classBody, none, .clamp 0 12, false⟩
    [.node ⟨.error, none, .clamp 4 7, false⟩ [missing ")" 7], missing ";" 4,
      .node ⟨.phrase .block, none, .clamp 8 12, false⟩ [missing "]" 12], missing "]" 12]

theorem reports_brokenTree :
    FlagsFaults Tree.hasError brokenTree ∧
      (∃ added, addSyntaxErrors Tree.hasError "int x ( [ 1 " brokenTree
          [.unresolvedSymbol (.clamp 9 9) "A"] = [.unresolvedSymbol (.clamp 9 9) "A"] ++ added ∧
        Reports "int x ( [ 1 " brokenTree added) ∧
      addSyntaxErrors Tree.hasError "int x ( [ 1 " brokenTree [.unresolvedSymbol (.clamp 9 9) "A"] =
        [.unresolvedSymbol (.clamp 9 9) "A", .syntaxError (.clamp 4 4) "missing `;`",
          .syntaxError (.clamp 4 7) "unexpected `x (`", .syntaxError (.clamp 12 12) "missing `]`",
          .syntaxError (.clamp 12 12) "missing `]`"] := by
  have hflags := flagsFaults_hasError brokenTree
  refine ⟨hflags, reports_addSyntaxErrors hflags _ _, ?_⟩
  cbv

end Java

/-- The diagnostics of a parsed text are those of its tree. -/
theorem SourceUnit.reports_parse {parser : Java.Parser} {text : String} {root : Java.Tree}
    (h : parser text = .ok root) (path : Path) (print : Fingerprint) (level : LanguageLevel) :
    ∃ added, (SourceUnit.parse parser path text print level).diagnostics =
      (Java.lower text root
        { path := path, fingerprint := print, languageLevel := level }).diagnostics ++ added ∧
      Java.Reports text root added := by
  rw [SourceUnit.parse, h]
  exact ⟨_, Java.addSyntaxErrors_eq (Java.flagsFaults_hasError root) text _,
    Java.reports_sortByPosition text root⟩

end JavaAtlas
