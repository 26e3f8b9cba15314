import JavaAtlas.Completion.Candidates
import JavaAtlas.Proofs.Data.MultiMap
import JavaAtlas.Proofs.Text.Split

/-!
# The packages that are offered

Below a name the next segments of packages are offered. The packages of the project are known; those
of the classpath are read off the type names, and not in the way in which the classpath does it when
types are bound: whatever precedes the last dot counts, so for a nested type the types around it are
offered as packages too.
-/

namespace JavaAtlas

set_option autoImplicit false

open Text (Leads segments ownerOf?)

/-! ## Packages of type names -/

def Capitalised (segment : String) : Prop := segment.toList.head?.any Char.isUpper = true

instance : DecidablePred Capitalised := fun _ => inferInstanceAs (Decidable (_ = true))

theorem prefix_takeWhile_iff {α : Type} {p : α → Bool} {xs ys : List α} :
    xs <+: ys.takeWhile p ↔ xs <+: ys ∧ ∀ x ∈ xs, p x = true := by
  induction ys generalizing xs with
  | nil =>
    rw [List.takeWhile_nil, List.prefix_nil]
    constructor
    · rintro rfl
      simp
    · exact And.left
  | cons y ys ih =>
    cases xs with
    | nil => simp
    | cons x xs =>
      rw [List.takeWhile_cons, List.forall_mem_cons]
      by_cases hy : p y = true
      · rw [if_pos hy, List.cons_prefix_cons, List.cons_prefix_cons, ih]
        constructor
        · rintro ⟨rfl, hxs, hall⟩
          exact ⟨⟨rfl, hxs⟩, hy, hall⟩
        · rintro ⟨⟨rfl, hxs⟩, -, hall⟩
          exact ⟨rfl, hxs, hall⟩
      · rw [if_neg hy, List.cons_prefix_cons]
        refine iff_of_false (by simp) ?_
        rintro ⟨⟨rfl, -⟩, hx, -⟩
        exact hy hx

theorem packageOf?_eq_some_iff {fqn package : String} :
    packageOf? fqn = some package ↔ package ≠ "" ∧
      (segments fqn).dropLast.takeWhile (fun s => !(s.toList.head?.any Char.isUpper)) =
        segments package := by
  rw [packageOf?]
  generalize hleading : (segments fqn).dropLast.takeWhile _ = leading
  have hdots : ∀ segment ∈ leading, '.' ∉ segment.toList := by
    intro segment hsegment
    rw [← hleading] at hsegment
    exact Text.no_dot_of_mem_segments (List.dropLast_subset _ (List.takeWhile_subset _ hsegment))
  have hjoin : ".".intercalate leading = package ∧ package ≠ "" ↔
      package ≠ "" ∧ leading = segments package := by
    constructor
    · rintro ⟨rfl, hne⟩
      have hleading : leading ≠ [] := by
        rintro rfl
        exact hne rfl
      exact ⟨hne, (Text.segments_intercalate hleading hdots).symm⟩
    · rintro ⟨hne, rfl⟩
      exact ⟨Text.intercalate_segments package, hne⟩
  rw [← hjoin]
  split
  next hempty =>
    rw [hempty]
    exact iff_of_false (by simp) fun h => h.2 h.1.symm
  next hne =>
    rw [Option.some.injEq]
    exact ⟨fun h => ⟨h, h ▸ hne⟩, And.left⟩

/-- Pieces without dots are the segments of a name. -/
theorem exists_segments_eq {name : String} {pieces : List String} (h : segments name <+: pieces)
    (hdots : ∀ piece ∈ pieces, '.' ∉ piece.toList) : ∃ longer, segments longer = pieces := by
  have hne : pieces ≠ [] := by
    rintro rfl
    exact Text.segments_ne_nil name (List.prefix_nil.mp h)
  exact ⟨_, Text.segments_intercalate hne hdots⟩

theorem leads_ownerOf?_iff {name fqn : String} :
    (∃ owner, ownerOf? fqn = some owner ∧ Leads name owner) ↔
      segments name <+: (segments fqn).dropLast := by
  simp only [Text.ownerOf?_eq_some_iff, Text.leads_iff]
  constructor
  · rintro ⟨owner, howner, hleads⟩
    rwa [howner]
  · intro hleads
    obtain ⟨owner, howner⟩ := exists_segments_eq hleads fun _ hpiece =>
      Text.no_dot_of_mem_segments (List.dropLast_subset _ hpiece)
    exact ⟨owner, howner.symm, howner ▸ hleads⟩

theorem leads_packageOf?_iff {name fqn : String} (hname : name ≠ "") :
    (∃ package, packageOf? fqn = some package ∧ Leads name package) ↔
      segments name <+: (segments fqn).dropLast ∧ ∀ s ∈ segments name, ¬ Capitalised s := by
  have hlower : segments name <+: (segments fqn).dropLast.takeWhile
        (fun s => !(s.toList.head?.any Char.isUpper)) ↔
      segments name <+: (segments fqn).dropLast ∧ ∀ s ∈ segments name, ¬ Capitalised s := by
    rw [prefix_takeWhile_iff]
    simp only [Capitalised, Bool.not_eq_true', Bool.not_eq_true]
  rw [← hlower]
  simp only [packageOf?_eq_some_iff, Text.leads_iff]
  constructor
  · rintro ⟨package, ⟨-, hpackage⟩, hleads⟩
    rwa [hpackage]
  · intro hleads
    obtain ⟨package, hpackage⟩ := exists_segments_eq hleads fun _ hpiece =>
      Text.no_dot_of_mem_segments (List.dropLast_subset _ (List.takeWhile_subset _ hpiece))
    rw [← hpackage] at hleads
    refine ⟨package, ⟨?_, hpackage.symm⟩, hleads⟩
    -- nothing but the empty name leads to it
    rintro rfl
    have hpos : 0 < (segments name).length := List.length_pos_of_ne_nil (Text.segments_ne_nil name)
    exact hname (Text.segments_injective (hleads.eq_of_length_le hpos))

/-- The name leads to what precedes the last dot of a type name and has a capitalised segment: it is
a type around a nested type. -/
def Surrounds (name fqn : String) : Prop :=
  (∃ owner, ownerOf? fqn = some owner ∧ Leads name owner) ∧ ∃ s ∈ segments name, Capitalised s

/-- What leads to the owner of a type leads to its package or is a type around it. -/
theorem leads_ownerOf?_iff_or {name fqn : String} (hname : name ≠ "") :
    (∃ owner, ownerOf? fqn = some owner ∧ Leads name owner) ↔
      (∃ package, packageOf? fqn = some package ∧ Leads name package) ∨ Surrounds name fqn := by
  rw [Surrounds, leads_packageOf?_iff hname, leads_ownerOf?_iff]
  constructor
  · intro hleads
    by_cases hcapital : ∃ s ∈ segments name, Capitalised s
    · exact Or.inr ⟨hleads, hcapital⟩
    · exact Or.inl ⟨hleads, fun s hs hs' => hcapital ⟨s, hs, hs'⟩⟩
  · rintro (⟨hleads, -⟩ | ⟨hleads, -⟩) <;> exact hleads

namespace ClasspathIndex

theorem mem_typeNames_insertAll (index : ClasspathIndex) (names : List String) (fqn : String) :
    fqn ∈ (index.insertAll names).typeNames ↔ fqn ∈ index.typeNames ∨ fqn ∈ names := by
  induction names generalizing index with
  | nil => simp [insertAll]
  | cons name names ih =>
    have hone : fqn ∈ (index.insert name).typeNames ↔ fqn = name ∨ fqn ∈ index.typeNames :=
      SortedSet.mem_add_iff _ _ _
    have hmore := ih (index.insert name)
    rw [insertAll] at hmore
    rw [insertAll, List.foldl_cons, hmore, hone, List.mem_cons, or_assoc, or_left_comm]

/-- Without entries just the boot types are there. -/
theorem hasType_builtin (fqn : String) : builtin.hasType fqn = bootTypes.contains fqn := by
  have hmem := mem_typeNames_insertAll empty bootTypes fqn
  have hempty : fqn ∉ empty.typeNames := by
    simp [empty, typeNames, SortedSet.toList, SortedMap.keys, EmptyCollection.emptyCollection]
  rw [or_iff_right hempty] at hmem
  rw [Bool.eq_iff_iff, List.contains_iff_mem, ← hmem, hasType, SortedSet.contains_iff_exists_mem]
  constructor
  · rintro ⟨t, ht, hc⟩
    rwa [Std.LawfulEqCmp.eq_of_compare hc]
  · exact fun h => ⟨fqn, h, Std.ReflCmp.compare_self⟩

theorem lookup_builtin : builtin.lookup = ⟨bootTypes.contains, builtin.hasPackage⟩ := by
  rw [lookup, funext hasType_builtin]

theorem hasPackage_insert_iff (index : ClasspathIndex) (fqn package : String) :
    (index.insert fqn).hasPackage package = true ↔
      packageOf? fqn = some package ∨ index.hasPackage package = true := by
  rw [hasPackage, insert]
  cases hpackage : packageOf? fqn with
  | none => simp [hasPackage]
  | some found =>
    rw [SortedSet.contains_add, Bool.or_eq_true, beq_iff_eq, Std.compare_eq_iff_eq,
      Option.some.injEq, eq_comm]
    rfl

theorem hasPackage_insertAll_iff (index : ClasspathIndex) (names : List String) (package : String) :
    (index.insertAll names).hasPackage package = true ↔
      index.hasPackage package = true ∨ ∃ fqn ∈ names, packageOf? fqn = some package := by
  induction names generalizing index with
  | nil => simp [insertAll]
  | cons name names ih =>
    have hmore := ih (index.insert name)
    rw [insertAll] at hmore
    rw [insertAll, List.foldl_cons, hmore, hasPackage_insert_iff, List.exists_mem_cons_iff, or_assoc,
      or_left_comm]

end ClasspathIndex

theorem Snapshot.mem_packageNames_iff (s : Snapshot) (package : String) :
    package ∈ s.packageNames ↔ s.hasPackage package = true := by
  rw [packageNames, SortedMap.mem_keys_iff, hasPackage, SortedMap.contains_iff]
  constructor
  · rintro ⟨v, hv⟩
    exact ⟨_, hv, Std.compare_eq_iff_eq.mpr rfl⟩
  · rintro ⟨e, he, heq⟩
    obtain rfl := Std.compare_eq_iff_eq.mp heq
    exact ⟨e.2, he⟩

/-! ## Next segments -/

namespace CompletionRequest

/-- What can stand between two dots. -/
def IsSegment (segment : String) : Prop := segment ≠ "" ∧ '.' ∉ segment.toList

instance : DecidablePred IsSegment := fun _ => inferInstanceAs (Decidable (_ ∧ _))

def extend (parent segment : String) : String :=
  if parent = "" then segment else parent ++ "." ++ segment

/-- The name is a package of the project or the classpath, or leads to one. -/
def IsKnown (r : CompletionRequest) (name : String) : Prop :=
  ∃ package, r.lookup.hasPackage package = true ∧ Leads name package

theorem segments_extend (parent : String) {segment : String} (h : IsSegment segment) :
    segments (extend parent segment) = (if parent = "" then [] else segments parent) ++ [segment] := by
  rw [extend]
  split
  · exact Text.segments_of_no_dot h.2
  · rw [Text.segments_append_dot, Text.segments_of_no_dot h.2]

theorem below?_eq_some_iff {parent package rest : String} :
    below? parent package = some rest ↔
      segments package = (if parent = "" then [] else segments parent) ++ segments rest := by
  rw [below?]
  split
  · rw [List.nil_append, Option.some.injEq]
    exact ⟨fun h => h ▸ rfl, Text.segments_injective⟩
  · rw [← Text.segments_append_dot, Option.map_eq_some_iff]
    simp only [Text.stripPrefix?_eq_some_iff]
    constructor
    · rintro ⟨cs, hcs, rfl⟩
      have hpackage : package = parent ++ "." ++ String.ofList cs := by
        rw [← String.toList_inj, hcs]
        simp
      rw [hpackage]
    · intro h
      refine ⟨rest.toList, ?_, String.ofList_toList⟩
      rw [Text.segments_injective h, ← String.toList_append]

theorem packageCandidate?_eq_some_iff {parent package : String} {c : Candidate} :
    packageCandidate? parent package = some c ↔
      (IsSegment c.label ∧ c.kind = .package ∧ c.detail = some (extend parent c.label)) ∧
        Leads (extend parent c.label) package := by
  have hstep : packageCandidate? parent package = some c ↔
      ∃ rest, below? parent package = some rest ∧ ∃ segment, (segments rest).head? = some segment ∧
        segment ≠ "" ∧ c = ⟨segment, .package, some (extend parent segment)⟩ := by
    simp only [packageCandidate?, Option.bind_eq_bind, Option.bind_eq_some_iff, extend,
      Option.ite_none_left_eq_some, Option.some.injEq, @eq_comm _ c]
  rw [hstep]
  constructor
  · rintro ⟨rest, hrest, segment, hhead, hne, rfl⟩
    have hsegment : IsSegment segment :=
      ⟨hne, Text.no_dot_of_mem_segments (List.mem_of_head? hhead)⟩
    refine ⟨⟨hsegment, rfl, rfl⟩, Text.leads_iff.mpr ?_⟩
    obtain ⟨more, hmore⟩ := List.head?_eq_some_iff.mp hhead
    rw [segments_extend parent hsegment, below?_eq_some_iff.mp hrest, hmore]
    exact ⟨more, by simp⟩
  · rintro ⟨⟨hsegment, hkind, hdetail⟩, hleads⟩
    rw [Text.leads_iff, segments_extend parent hsegment] at hleads
    obtain ⟨more, hmore⟩ := hleads
    have hrest : segments (".".intercalate (c.label :: more)) = c.label :: more := by
      refine Text.segments_intercalate (List.cons_ne_nil _ _) (List.forall_mem_cons.mpr ?_)
      refine ⟨hsegment.2, fun piece hpiece => ?_⟩
      have hmem : piece ∈ segments package := hmore ▸ List.mem_append_right _ hpiece
      exact Text.no_dot_of_mem_segments hmem
    refine ⟨".".intercalate (c.label :: more), below?_eq_some_iff.mpr ?_, c.label, ?_,
      hsegment.1, ?_⟩
    · rw [hrest, ← hmore, List.append_assoc, List.singleton_append]
    · rw [hrest, List.head?_cons]
    · rw [← hkind, ← hdetail]

theorem mem_knownPackages_iff (r : CompletionRequest) (package : String) :
    package ∈ r.knownPackages ↔ package ∈ r.snapshot.packageNames ∨
      ∃ fqn ∈ r.classpath.typeNames, ownerOf? fqn = some package := by
  rw [knownPackages, SortedSet.mem_ofList_iff fun _ _ _ _ => Std.LawfulEqOrd.eq_of_compare,
    List.mem_append, List.mem_filterMap]

theorem extend_ne_empty (parent : String) {segment : String} (h : IsSegment segment) :
    extend parent segment ≠ "" := by
  rw [extend]
  split
  · exact h.1
  · intro hempty
    simpa using congrArg String.toList hempty

/-- Types are no packages, so the candidates of this kind are the next segments. -/
theorem mem_packageCandidates_iff (r : CompletionRequest) {parent : String} {types : Bool}
    {c : Candidate} (hkind : c.kind = .package) : c ∈ r.packageCandidates parent types ↔
      (IsSegment c.label ∧ c.detail = some (extend parent c.label)) ∧
        ∃ package ∈ r.knownPackages, Leads (extend parent c.label) package := by
  have htypes : c ∉ if types && parent ≠ "" then r.typesOfPackage parent else [] := by
    split
    · rw [typesOfPackage, List.mem_append, List.mem_map, List.mem_map]
      rintro (⟨t, -, rfl⟩ | ⟨fqn, -, rfl⟩) <;> cases hkind
    · exact List.not_mem_nil
  rw [packageCandidates, List.mem_append, or_iff_left htypes, List.mem_filterMap]
  simp only [packageCandidate?_eq_some_iff, hkind, true_and]
  constructor
  · rintro ⟨package, hpackage, hc, hleads⟩
    exact ⟨hc, package, hpackage, hleads⟩
  · rintro ⟨hc, package, hpackage, hleads⟩
    exact ⟨package, hpackage, hc, hleads⟩

theorem leads_knownPackages_iff (r : CompletionRequest) {names : List String}
    (hnames : r.classpath = ClasspathIndex.empty.insertAll names) {name : String} (hne : name ≠ "") :
    (∃ package ∈ r.knownPackages, Leads name package) ↔
      r.IsKnown name ∨ ∃ fqn ∈ names, Surrounds name fqn := by
  have htypes (fqn : String) : fqn ∈ r.classpath.typeNames ↔ fqn ∈ names := by
    rw [hnames, ClasspathIndex.mem_typeNames_insertAll]
    exact or_iff_right List.not_mem_nil
  have hpackages (package : String) : r.classpath.hasPackage package = true ↔
      ∃ fqn ∈ names, packageOf? fqn = some package := by
    rw [hnames, ClasspathIndex.hasPackage_insertAll_iff]
    exact or_iff_right Bool.false_ne_true
  have hswap (package? : String → Option String) :
      (∃ package, (∃ fqn ∈ names, package? fqn = some package) ∧ Leads name package) ↔
        ∃ fqn ∈ names, ∃ package, package? fqn = some package ∧ Leads name package := by
    constructor
    · rintro ⟨package, ⟨fqn, hfqn, hpackage⟩, hleads⟩
      exact ⟨fqn, hfqn, package, hpackage, hleads⟩
    · rintro ⟨fqn, hfqn, package, hpackage, hleads⟩
      exact ⟨package, ⟨fqn, hfqn, hpackage⟩, hleads⟩
  have hknown : r.IsKnown name ↔ (∃ package ∈ r.snapshot.packageNames, Leads name package) ∨
      ∃ fqn ∈ names, ∃ package, packageOf? fqn = some package ∧ Leads name package := by
    simp only [IsKnown, lookup, TypeLookup.or, Snapshot.lookup, ClasspathIndex.lookup,
      Bool.or_eq_true, hpackages, Snapshot.mem_packageNames_iff, or_and_right, exists_or, hswap]
  have howners : (∃ package ∈ r.knownPackages, Leads name package) ↔
      (∃ package ∈ r.snapshot.packageNames, Leads name package) ∨
        ∃ fqn ∈ names, ∃ owner, ownerOf? fqn = some owner ∧ Leads name owner := by
    simp only [mem_knownPackages_iff, htypes, or_and_right, exists_or, hswap]
  rw [howners, hknown, or_assoc]
  simp only [leads_ownerOf?_iff_or hne, and_or_left, exists_or]

/-- Whatever the project is and whatever type names the classpath was made of: below a name exactly
those next segments are offered as packages that lead to a package of the project or the classpath,
or are types around a nested type of the classpath. So all that is offered is known just where each
type around a nested type is a known package as well. -/
theorem packages_offered (r : CompletionRequest) {names : List String}
    (hnames : r.classpath = ClasspathIndex.empty.insertAll names) (parent : String) (types : Bool) :
    (∀ c : Candidate, c.kind = .package → (c ∈ r.packageCandidates parent types ↔
      IsSegment c.label ∧ c.detail = some (extend parent c.label) ∧
        (r.IsKnown (extend parent c.label) ∨ ∃ fqn ∈ names, Surrounds (extend parent c.label) fqn))) ∧
    ((∀ c ∈ r.packageCandidates parent types, c.kind = .package →
        ∃ name, c.detail = some name ∧ r.IsKnown name) ↔
      ∀ segment, IsSegment segment → ∀ fqn ∈ names, Surrounds (extend parent segment) fqn →
        r.IsKnown (extend parent segment)) := by
  have hoffered : ∀ c : Candidate, c.kind = .package → (c ∈ r.packageCandidates parent types ↔
      IsSegment c.label ∧ c.detail = some (extend parent c.label) ∧
        (r.IsKnown (extend parent c.label) ∨
          ∃ fqn ∈ names, Surrounds (extend parent c.label) fqn)) := by
    intro c hkind
    rw [r.mem_packageCandidates_iff hkind, and_assoc]
    refine and_congr_right fun hsegment => and_congr_right fun _ => ?_
    exact r.leads_knownPackages_iff hnames (extend_ne_empty parent hsegment)
  refine ⟨hoffered, ?_, ?_⟩
  · intro hknown segment hsegment fqn hfqn hsurrounds
    obtain ⟨name, hname, hin⟩ := hknown ⟨segment, .package, some (extend parent segment)⟩
      ((hoffered _ rfl).mpr ⟨hsegment, rfl, Or.inr ⟨fqn, hfqn, hsurrounds⟩⟩) rfl
    rwa [Option.some.inj hname]
  · intro hnested c hc hkind
    obtain ⟨hsegment, hdetail, hknown | ⟨fqn, hfqn, hsurrounds⟩⟩ := (hoffered c hkind).mp hc
    · exact ⟨_, hdetail, hknown⟩
    · exact ⟨_, hdetail, hnested _ hsegment fqn hfqn hsurrounds⟩

/-- A type in a type, asked for below the package of both. -/
def belowUtil : CompletionRequest :=
  ⟨{}, ClasspathIndex.empty.insertAll ["java.util.Map.Entry"], ⟨"/A.java"⟩, 0, "", none⟩

theorem packages_offered_belowUtil :
    (⟨"Map", .package, some "java.util.Map"⟩ : Candidate) ∈
        belowUtil.packageCandidates "java.util" true ∧
      ¬ belowUtil.IsKnown "java.util.Map" := by
  have hsurrounds : Surrounds "java.util.Map" "java.util.Map.Entry" :=
    ⟨⟨"java.util.Map", by decide, Or.inl rfl⟩, "Map", by decide, by decide⟩
  have hunknown : ¬ belowUtil.IsKnown "java.util.Map" := by
    rintro ⟨package, hpackage, hleads⟩
    have hindex : belowUtil.classpath.hasPackage package = true := hpackage
    rcases (ClasspathIndex.hasPackage_insertAll_iff _ _ _).mp hindex with hnone | ⟨fqn, hfqn, hof⟩
    · cases hnone
    · rw [List.mem_singleton.mp hfqn, show packageOf? "java.util.Map.Entry" = some "java.util" by
        decide, Option.some.injEq] at hof
      rw [← hof, Leads] at hleads
      revert hleads
      decide
  have hoffered := (belowUtil.packages_offered rfl "java.util" true).1
    ⟨"Map", .package, some "java.util.Map"⟩ rfl
  refine ⟨hoffered.mpr ⟨by decide, rfl, Or.inr ⟨_, List.mem_singleton_self _, hsurrounds⟩⟩, hunknown⟩

end CompletionRequest

end JavaAtlas
