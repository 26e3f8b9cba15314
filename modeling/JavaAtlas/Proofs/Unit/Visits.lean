import JavaAtlas.Proofs.Unit.Trace

/-!
# A visit follows the tree

What one visit adds for its node is traced to the place of the node, and the contexts it plans for
the children describe their places. By induction over the tree the whole unit is traced.
-/

namespace JavaAtlas

set_option autoImplicit false

open Java

namespace SourceUnit

theorem foldl_pushMember (u : SourceUnit) (i : Nat) (ms : List MemberDecl) :
    ms.foldl (fun u m => u.pushMember i m) u =
      u.modifyType i fun t => { t with members := t.members ++ ms } := by
  induction ms generalizing u with
  | nil =>
    have hsame : (fun t : TypeDecl => { t with members := t.members ++ [] }) = id := by
      funext t
      rw [List.append_nil, id]
    rw [List.foldl_nil, hsame, modifyType, List.modify_id]
  | cons m ms ih =>
    rw [List.foldl_cons, ih, pushMember, modifyType, modifyType, modifyType, List.modify_modify_eq]
    simp only [Function.comp_def, List.append_assoc, List.singleton_append]

end SourceUnit

namespace Java

open SourceUnit (noteSupertype)

section Node

variable {text : String} {seen : List Place} {T : Trace} {u u' : SourceUnit} {p : Place}
  {c : Context} {visit : Tree → Visit}

/-- What is added for the node at `p` is traced, and the plan describes the places of its
children. -/
def Traces (text : String) (seen : List Place) (T : Trace) (p : Place)
    (answer : SourceUnit × Plan) : Prop :=
  ∃ T', Traced text (seen ++ [p]) T' answer.1 ∧ T.Grows [p] T' ∧
    DescribesAll T' p answer.2.visit ∧ answer.2.Notes T' p

theorem notes_of (visit : Tree → Visit) (T : Trace) (p : Place) : (Plan.of visit).Notes T p :=
  fun _ _ _ => Or.inl rfl

theorem traces_of_traced (h : Traced text (seen ++ [p]) T u') (hvisit : DescribesAll T p visit) :
    Traces text seen T p (u', .of visit) :=
  ⟨T, h, Trace.Grows.refl _ T, hvisit, notes_of visit T p⟩

/-- A node that adds no type, reference or call. -/
theorem traces_of_same (h : Traced text seen T u) (htypes : u'.types = u.types)
    (hrefs : u'.typeRefs = u.typeRefs) (hcalls : u'.calls = u.calls)
    (hvisit : DescribesAll T p visit) : Traces text seen T p (u', .of visit) :=
  traces_of_traced ((h.congr htypes hrefs hcalls).seeing [p]) hvisit

theorem Traced.pushMembers (h : Traced text seen T u) {i : Nat} (howns : T.Owns (some i) p)
    {ms : List MemberDecl} (hms : membersAt text p.node = ms) :
    Traced text (seen ++ [p]) T
      (u.modifyType i fun t => { t with members := t.members ++ ms }) := by
  refine (h.seeing [p]).modifyType i fun t s ht hs hentry => {
    hentry with
    declares := ⟨hentry.declares.kind, hentry.declares.name, hentry.declares.span⟩
    members := ?_ }
  obtain ⟨places, hseen, hmembers, hin⟩ := (h.entry i t s ht hs).members
  refine ⟨places ++ [p], hseen.append (List.Sublist.refl _), ?_, fun q hq => ?_⟩
  · rw [List.flatMap_append, List.flatMap_singleton, ← hmembers, hms]
  · rcases List.mem_append.mp hq with hq | hq
    · exact hin q hq
    · obtain ⟨s', hs', hin'⟩ := howns i rfl
      rw [List.mem_singleton.mp hq, Option.some.inj (hs.symm.trans hs')]
      exact hin'

theorem Traced.addMembers (h : Traced text seen T u) (hc : T.Owns c.memberOwner p)
    (hms : membersAt text p.node = membersOf text p.node) :
    Traced text (seen ++ [p]) T (addMembers text p.node c u) := by
  rw [Java.addMembers]
  split
  · exact h.seeing [p]
  · rename_i i hi
    rw [SourceUnit.foldl_pushMember]
    exact h.pushMembers (hi ▸ hc) hms

theorem traces_ref (h : Traced text seen T u) (hc : c.Describes T p) (name : String)
    (hvisit : ∀ {T'}, T.Grows [p] T' → DescribesAll T' p visit) :
    Traces text seen T p (u.pushRef name p.node.span c, .of visit) := by
  rw [SourceUnit.pushRef]
  split
  · exact traces_of_same h rfl rfl rfl (hvisit (Trace.Grows.refl [p] T))
  · have hgrows : T.Grows [p] { T with refs := T.refs ++ [p] } :=
      ⟨List.prefix_refl _, [p], rfl, List.Subset.refl _⟩
    exact ⟨_, h.pushRef rfl hc.around, hgrows, hvisit hgrows, notes_of visit _ p⟩

/-- The entry of a declared type says what the context tells about its place. -/
theorem entry_declare (h : Traced text seen T u) (hc : c.Describes T p) {k : Phrase}
    {kind : TypeKind} (hkind : p.node.kind = .phrase k) (htype : typeKind? k = some kind) {n : Tree}
    (hn : p.node.childInRole? .name = some n) {t : TypeDecl}
    (ht : t = u.declare c (n.textIn text) kind p.node.span n.span (modifiersOf text p.node)) :
    Entry text (seen ++ [p]) { T with types := T.types ++ [⟨p, t.fqn⟩] } T.types.length t
      ⟨p, t.fqn⟩ := by
  have hgrows : T.Grows [p] { T with types := T.types ++ [⟨p, t.fqn⟩] } :=
    ⟨List.prefix_append _ _, [], (List.append_nil _).symm, List.nil_subset _⟩
  refine ⟨rfl, ⟨⟨k, hkind, ht ▸ htype⟩, ⟨n, hn, ht ▸ rfl, ht ▸ rfl⟩, ht ▸ rfl⟩, ?_, ?_, ?_, ?_⟩
  · rw [ht, SourceUnit.declare, ← hc.inCode, Trace.hidden]
    cases hi : c.enclosing with
    | none => rfl
    | some i =>
      obtain ⟨s, hs, -⟩ := hc.around i hi
      obtain ⟨o, ho, hentry⟩ := h.type? hs
      rw [Option.bind_some, Option.bind_some, hs, ho, Option.any_some, Option.any_some,
        hentry.isLocal]
  · intro j hj
    have hj : c.enclosing = some j := by rw [← hj, ht, SourceUnit.declare]
    obtain ⟨s, hs, hbelow⟩ := hc.around j hj
    obtain ⟨o, ho, hentry⟩ := h.type? hs
    refine ⟨(List.getElem?_eq_some_iff.mp hs).1, s, hgrows.type? hs, ?_, hbelow⟩
    rw [ht, SourceUnit.declare, hj, Option.bind_some, ho, ← hentry.fqn]
  · exact ⟨[], List.nil_sublist _, by rw [ht, SourceUnit.declare, List.flatMap_nil],
      List.forall_mem_nil _⟩
  · rw [ht, SourceUnit.declare]
    exact List.forall_mem_nil _

theorem traces_type (h : Traced text seen T u) (hc : c.Describes T p) {k : Phrase} {kind : TypeKind}
    (hkind : p.node.kind = .phrase k) (htype : typeKind? k = some kind) {n : Tree}
    (hn : p.node.childInRole? .name = some n) (hopen : p.node.disowns = false) :
    Traces text seen T p
      ({ u with types := u.types ++
          [u.declare c (n.textIn text) kind p.node.span n.span (modifiersOf text p.node)] },
        .of (exceptName p.node (typeParts p.node u.types.length c
          ⟨some u.types.length, some u.types.length, false⟩))) := by
  generalize ht : u.declare c (n.textIn text) kind p.node.span n.span (modifiersOf text p.node) = t
  have hgrows : T.Grows [p] { T with types := T.types ++ [⟨p, t.fqn⟩] } :=
    ⟨List.prefix_append _ _, [], (List.append_nil _).symm, List.nil_subset _⟩
  refine ⟨_, h.pushType (entry_declare h hc hkind htype hn ht.symm), hgrows, ?_, notes_of _ _ p⟩
  have hlast : (T.types ++ [⟨p, t.fqn⟩])[u.types.length]? = some ⟨p, t.fqn⟩ := by
    rw [h.length_types, List.getElem?_concat_length]
  exact (describesAll_typeParts (hc.mono hgrows) hopen hlast rfl p.node).exceptName p.node

theorem typeKind?_disowning {k : Phrase} {kind : TypeKind} (h : typeKind? k = some kind) :
    disowning.contains k = false := by
  unfold typeKind? at h
  split at h
  case h_6 => cases h
  all_goals rfl

/-- A declaration of members adds them to the type it stands in; inside it nothing belongs there. -/
theorem traces_members (h : Traced text seen T u) (hc : c.Describes T p) {k : Phrase}
    (hkind : p.node.kind = .phrase k) (hk : k ≠ .formalParameter)
    (hvisit : DescribesAll T p visit) :
    Traces text seen T p (addMembers text p.node c u, .of visit) := by
  refine traces_of_traced (h.addMembers hc.owner ?_) hvisit
  rw [membersAt, Tree.is, hkind, if_neg]
  simpa using hk

theorem planPlain_traces (h : Traced text seen T u) (hc : c.Describes T p) :
    Traces text seen T p (planPlain text p.node c u) := by
  have hopened (hopen : p.node.disowns = false) : DescribesAll T p fun _ => .plain c :=
    fun t => hc.child hopen t
  have hclosed (hcode : p.node.isCode = false) : DescribesAll T p fun _ => .plain c.unowned :=
    fun t => hc.unowned_child hcode t
  rw [planPlain]
  split
  case h_1 _ hkind | h_2 hkind =>
    refine traces_of_same h rfl rfl rfl (hopened ?_)
    simp [Tree.disowns, Tree.is, hkind]
  case h_3 k hkind =>
    have hdisowns := Tree.disowns_of_phrase hkind
    have hcode : p.node.isCode = codeBodies.contains k := Tree.any_is_of_phrase hkind codeBodies
    split
    next kind htype =>
      have hopen := hdisowns.trans (typeKind?_disowning htype)
      split
      · exact traces_of_same h rfl rfl rfl (hopened hopen)
      · rename_i n hn
        exact traces_type h hc hkind htype hn hopen
    next =>
      split
      case _ => split <;> exact traces_of_same h rfl rfl rfl (describesAll_skip T p)
      · exact traces_of_same h rfl rfl rfl (describesAll_skip T p)
      iterate 3
        exact traces_members h hc hkind (by decide)
          ((describesAll_callableParts hc hcode p.node).exceptName p.node)
      iterate 2
        exact traces_members h hc hkind (by decide) (describesAll_plainParts (hclosed hcode))
      · exact traces_members h hc hkind (by decide) ((hclosed hcode).ite (describesAll_skip T p) _)
      · exact traces_members h hc hkind (by decide)
          ((describesAll_plainParts (hclosed hcode)).exceptName p.node)
      iterate 2 exact traces_of_same h rfl rfl rfl fun t => hc.code_child hcode t
      iterate 4 exact traces_of_same h rfl rfl rfl (hclosed hcode)
      · exact traces_ref h hc _ fun _ => describesAll_skip _ p
      · have hwithin {T' : Trace} (hgrows : T.Grows [p] T') :
            DescribesAll T' p fun _ => .argumentsWithin c :=
          fun t => (hc.mono hgrows).child hdisowns t
        -- a type is noted only if it has a name
        split
        · exact traces_ref h hc _ hwithin
        · exact traces_of_same h rfl rfl rfl (hwithin (Trace.Grows.refl [p] T))
      · exact traces_of_same h rfl rfl rfl fun t => hc.child hdisowns t
      · refine traces_of_traced (h.pushCalls fun s hs => ?_) ((hopened hdisowns).exceptName p.node)
        obtain ⟨n, -, rfl⟩ := Option.map_eq_some_iff.mp (Option.mem_toList.mp hs)
        exact hc.around
      · refine traces_of_same h rfl rfl rfl (hopened (hdisowns.trans ?_))
        simp_all [disowning, codeBodies, bodies]

theorem Traced.pushTypeParam (h : Traced text seen T u) (i : Nat) (name : String) :
    Traced text seen T (u.modifyType i fun d => { d with typeParams := d.typeParams ++ [name] }) :=
  h.modifyType i fun _ _ _ _ hentry => {
    hentry with
    declares := ⟨hentry.declares.kind, hentry.declares.name, hentry.declares.span⟩ }

theorem plan_traces {v : Visit} (h : Traced text seen T u) (hv : v.Describes T p) :
    Traces text seen T p (plan text v p.node u) := by
  have hplain {c : Context} (hc : c.Describes T p) {k : Phrase} (hk : p.node.is k = true)
      (hopen : disowning.contains k = false) : DescribesAll T p fun _ => .plain c :=
    fun t => hc.child ((Tree.disowns_of_phrase (beq_iff_eq.mp hk)).trans hopen) t
  cases v with
  | skip => exact traces_of_same h rfl rfl rfl (describesAll_skip T p)
  | plain c => exact planPlain_traces h hv
  | body c => exact traces_of_same h rfl rfl rfl (describesAll_body hv)
  | typeParams scope owner c => exact traces_of_same h rfl rfl rfl fun t => hv.1.child hv.2 t
  | typeParam scope owner c =>
    simp only [plan]
    split
    next hparam =>
      refine traces_of_traced ?_ ((describesAll_skip T p).ite (hplain hv hparam rfl) _)
      split
      · exact h.seeing [p]
      · cases owner with
        | none => exact (h.seeing [p]).congr rfl rfl rfl
        | some i => exact ((h.pushTypeParam i _).seeing [p]).congr rfl rfl rfl
    next => exact traces_of_same h rfl rfl rfl (describesAll_skip T p)
  | superClause i c =>
    obtain ⟨hc, hopen, haround⟩ := hv
    refine ⟨T, h.seeing [p], Trace.Grows.refl _ T, fun t => ?_, fun child before after => ?_⟩
    · simp only [plan]
      split
      next hlist =>
        exact ⟨hc.child hopen t, Tree.disowns_of_phrase (beq_iff_eq.mp hlist), haround.child t⟩
      next => exact hc.child hopen t
    · simp only [plan]
      split
      · exact Or.inl rfl
      · exact Or.inr ⟨i, haround, rfl⟩
  | components i c =>
    exact traces_of_same h rfl rfl rfl fun t => ⟨hv.1.child hv.2.1 t, hv.2.2.child hv.2.1 t⟩
  | component i c =>
    simp only [plan]
    split
    next hparam =>
      have hms : membersAt text p.node = (componentOf? text p.node).toList := if_pos hparam
      refine traces_of_traced ?_ ((hplain hv.1 hparam rfl).ite (describesAll_skip T p) _)
      cases hcomponent : componentOf? text p.node with
      | none => exact h.seeing [p]
      | some m =>
        rw [hcomponent] at hms
        exact h.pushMembers hv.2 hms
    next => exact planPlain_traces h hv.1
  | argumentsWithin c =>
    simp only [plan]
    split
    next => exact planPlain_traces h hv
    next =>
      split
      next hwithin =>
        refine traces_of_same h rfl rfl rfl fun t => ?_
        rcases Bool.or_eq_true_iff.mp hwithin with hgeneric | hscoped
        · exact hplain hv hgeneric rfl t
        · exact hplain hv hscoped rfl t
      next => exact traces_of_same h rfl rfl rfl (describesAll_skip T p)

end Node

/-! ## The whole tree -/

/-- The supertype that is noted is the first reference of the child visited in between. -/
theorem Traced.noteSupertype {text : String} {seen : List Place} {T T' : Trace} {p : Place}
    {before after : SourceUnit} {i : Nat} {t : Tree}
    (hbefore : before.typeRefs.length = T.refs.length) (hafter : Traced text seen T' after)
    (hgrows : T.Grows (t.places p.path) T') (haround : T'.Around (some i) p) :
    Traced text seen T' (noteSupertype i before after) := by
  rw [SourceUnit.noteSupertype]
  split
  next hlt =>
    refine hafter.modifyType i fun d s _ hs hentry => {
      hentry with
      declares := ⟨hentry.declares.kind, hentry.declares.name, hentry.declares.span⟩
      supertypes := fun k hk => ?_ }
    rcases List.mem_append.mp hk with hk | hk
    · exact hentry.supertypes k hk
    · rw [List.mem_singleton.mp hk, hbefore]
      rw [hbefore, hafter.length_refs] at hlt
      obtain ⟨added, hadded, hnews⟩ := hgrows.refs
      obtain ⟨s', hs', hbelow⟩ := haround i rfl
      obtain rfl := Option.some.inj (hs.symm.trans hs')
      have hnew : T'.refs[T.refs.length] ∈ added := by
        simp only [hadded, List.getElem_append_right (Nat.le_refl _)]
        exact List.getElem_mem _
      refine ⟨_, List.getElem?_eq_getElem hlt, hbelow.trans ?_⟩
      exact (List.suffix_cons _ _).trans (t.suffix_of_mem_places (hnews hnew))
  next => exact hafter

mutual

/-- A visit adds entries for places at and below its node, in the order of the text. -/
theorem traced_visit (text : String) (v : Visit) (t : Tree) (around : List Tree) (seen : List Place)
    (T : Trace) (u : SourceUnit) (h : Traced text seen T u) (hv : v.Describes T ⟨t, around⟩) :
    ∃ T', Traced text (seen ++ t.places around) T' (visit text v t u) ∧
      T.Grows (t.places around) T' := by
  match t with
  | .node l children =>
    obtain ⟨T', htraced, hgrows, hdescribes, hnotes⟩ := plan_traces h hv
    obtain ⟨T'', htraced', hgrows'⟩ :=
      traced_visitAll text _ children _ _ T' _ htraced hdescribes hnotes
    rw [visit, Tree.places]
    rw [List.append_assoc] at htraced'
    exact ⟨T'', htraced', hgrows.trans hgrows'⟩

theorem traced_visitAll (text : String) (plan : Plan) (trees : List Tree) (p : Place)
    (seen : List Place) (T : Trace) (u : SourceUnit) (h : Traced text seen T u)
    (hdescribes : DescribesAll T p plan.visit) (hnotes : plan.Notes T p) :
    ∃ T', Traced text (seen ++ Tree.placesAll p.path trees) T' (visitAll text plan trees u) ∧
      T.Grows (Tree.placesAll p.path trees) T' := by
  match trees with
  | [] =>
    rw [Tree.placesAll, List.append_nil]
    exact ⟨T, h, Trace.Grows.refl _ T⟩
  | t :: rest =>
    rw [visitAll, Tree.placesAll, ← List.append_assoc]
    obtain ⟨T', htraced, hgrows⟩ : ∃ T', Traced text (seen ++ t.places p.path) T'
        (if t.isNamed then plan.settle t u (visit text (plan.visit t) t u) else u) ∧
        T.Grows (t.places p.path) T' := by
      split
      next =>
        obtain ⟨T', htraced, hgrows⟩ :=
          traced_visit text (plan.visit t) t p.path seen T u h (hdescribes t)
        refine ⟨T', ?_, hgrows⟩
        rcases hnotes t u (visit text (plan.visit t) t u) with hsettle | ⟨i, haround, hsettle⟩
        · rw [hsettle]
          exact htraced
        · rw [hsettle]
          exact htraced.noteSupertype h.length_refs hgrows (haround.mono hgrows)
      next => exact ⟨T, h.seeing _, Trace.Grows.refl _ T⟩
    obtain ⟨T'', htraced', hgrows'⟩ := traced_visitAll text plan rest p _ T' _ htraced
      (fun child => (hdescribes child).mono hgrows) (hnotes.mono hgrows)
    exact ⟨T'', htraced', hgrows.trans hgrows'⟩

end

/-- The unit of any tree is traced to the places of the tree. -/
theorem traced_lower (text : String) (root : Tree) (start : SourceUnit) (htypes : start.types = [])
    (hrefs : start.typeRefs = []) (hcalls : start.calls = []) :
    ∃ T, Traced text (root.places []) T (lower text root start) := by
  have hstart : Traced text [] ⟨[], []⟩ start := by
    refine ⟨congrArg List.length htypes, congrArg List.length hrefs, List.Sublist.refl _,
      List.Sublist.refl _, fun _ _ _ _ h => (nomatch h), fun _ _ _ _ h => (nomatch h),
      fun c hc => ?_⟩
    rw [hcalls] at hc
    cases hc
  have hroot : Context.Describes {} ⟨[], []⟩ ⟨root, []⟩ :=
    ⟨fun _ h => (nomatch h), rfl, fun _ h => (nomatch h)⟩
  obtain ⟨T, htraced, -⟩ := traced_visit text (.plain {}) root [] [] _ start hstart hroot
  exact ⟨T, htraced⟩

end Java

/-- Whatever tree a unit was made from, its entries stand for places of the tree. -/
theorem SourceUnit.traced_ofTree (text : String) (root : Java.Tree) (path : Path)
    (print : Fingerprint) (level : LanguageLevel) (diagnostics : List Diagnostic) :
    ∃ T, Java.Traced text (root.places []) T (ofTree text root path print level diagnostics) := by
  obtain ⟨T, h⟩ := Java.traced_lower text root
    { path := path, fingerprint := print, languageLevel := level } rfl rfl rfl
  exact ⟨T, h.congr rfl rfl rfl⟩

end JavaAtlas
