import JavaAtlas.Proofs.Unit.Nesting

/-!
# Places in a tree

A place is a node together with the nodes around it. Those decide what becomes of a declaration:
code around it hides it, and a member belongs to a type only if nothing but the own body of that
type stands between them.
-/

namespace JavaAtlas.Java

set_option autoImplicit false

/-- A node and the nodes around it, the innermost first. -/
structure Place where
  node : Tree
  around : List Tree

mutual

/-- A node and all nodes below it, in the order of the text. -/
def Tree.places (around : List Tree) : Tree → List Place
  | .node l children =>
    ⟨.node l children, around⟩ :: Tree.placesAll (.node l children :: around) children

def Tree.placesAll (around : List Tree) : List Tree → List Place
  | [] => []
  | t :: rest => t.places around ++ Tree.placesAll around rest

end

/-- Bodies of code. -/
def codeBodies : List Phrase := [.block, .constructorBody]

/-- Nothing inside such a node belongs to the type around it: code, a body as a type has one (those
of anonymous classes and enum constants too), or the declaration of a member. -/
def disowning : List Phrase :=
  codeBodies ++ bodies ++
    [.methodDeclaration, .constructorDeclaration, .compactConstructorDeclaration, .fieldDeclaration,
      .constantDeclaration, .annotationTypeElementDeclaration, .enumConstant]

namespace Tree

variable {t : Tree}

def isCode (t : Tree) : Bool := codeBodies.any t.is

def isBody (t : Tree) : Bool := bodies.any t.is

def disowns (t : Tree) : Bool := disowning.any t.is

theorem any_is_of_phrase {p : Phrase} (h : t.kind = .phrase p) (ps : List Phrase) :
    ps.any t.is = ps.contains p := by
  rw [List.contains_eq_any_beq]
  refine List.any_congr rfl fun q => ?_
  rw [is, h, Bool.eq_iff_iff, beq_iff_eq, beq_iff_eq, Kind.phrase.injEq]

theorem disowns_of_phrase {p : Phrase} (h : t.kind = .phrase p) :
    t.disowns = disowning.contains p :=
  any_is_of_phrase h disowning

theorem isCode_of_not_disowns (h : t.disowns = false) : t.isCode = false := by
  rw [disowns, disowning, List.any_append, List.any_append, Bool.or_eq_false_iff,
    Bool.or_eq_false_iff] at h
  exact h.1.1

theorem isCode_of_isBody (h : t.isBody = true) : t.isCode = false := by
  obtain ⟨p, hp, hkind⟩ := List.any_eq_true.mp h
  rw [isCode, any_is_of_phrase (beq_iff_eq.mp hkind)]
  exact (by decide : ∀ p ∈ bodies, codeBodies.contains p = false) p hp

end Tree

namespace Place

variable {p q : Place}

def path (p : Place) : List Tree := p.node :: p.around

def child (p : Place) (t : Tree) : Place := ⟨t, p.path⟩

/-- Some code is around the place. -/
def inCode (p : Place) : Bool := p.around.any Tree.isCode

/-- The node of `q` is around `p`. -/
def Below (p q : Place) : Prop := q.path <:+ p.around

/-- Between `p` and the node of `q` there is at most the own body of that node and what does not
disown its contents. -/
def DirectlyIn (p q : Place) : Prop :=
  ∃ inner own, p.around = inner ++ (own ++ q.path) ∧ (∀ t ∈ inner, t.disowns = false) ∧
    (own = [] ∨ ∃ body, own = [body] ∧ body.isBody = true)

theorem inCode_child (p : Place) (t : Tree) : (p.child t).inCode = (p.node.isCode || p.inCode) :=
  rfl

theorem child_below (p : Place) (t : Tree) : (p.child t).Below p := List.suffix_refl _

theorem Below.child (h : p.Below q) (t : Tree) : (p.child t).Below q :=
  h.trans (List.suffix_cons _ _)

/-- Code around a place is around all that is below it. -/
theorem Below.inCode (h : p.Below q) (hq : q.inCode = true) : p.inCode = true := by
  obtain ⟨before, hbefore⟩ := h
  rw [Place.inCode, ← hbefore, List.any_append, path, List.any_cons, Bool.or_eq_true,
    Bool.or_eq_true]
  exact Or.inr (Or.inr hq)

theorem DirectlyIn.below (h : p.DirectlyIn q) : p.Below q := by
  obtain ⟨inner, own, hpath, -, -⟩ := h
  exact ⟨inner ++ own, by rw [hpath, List.append_assoc]⟩

theorem child_directlyIn (p : Place) (t : Tree) : (p.child t).DirectlyIn p :=
  ⟨[], [], rfl, fun _ h => (nomatch h), Or.inl rfl⟩

theorem DirectlyIn.child (h : p.DirectlyIn q) (hopen : p.node.disowns = false) (t : Tree) :
    (p.child t).DirectlyIn q := by
  obtain ⟨inner, own, hpath, hinner, hown⟩ := h
  refine ⟨p.node :: inner, own, ?_, List.forall_mem_cons.mpr ⟨hopen, hinner⟩, hown⟩
  rw [Place.child, path, hpath, List.cons_append]

/-- What stands in the own body of a node stands directly in the node. -/
theorem child_directlyIn_of_body (hpath : p.around = q.path) (hbody : p.node.isBody = true)
    (t : Tree) : (p.child t).DirectlyIn q := by
  refine ⟨[], [p.node], ?_, fun _ h => (nomatch h), Or.inr ⟨p.node, rfl, hbody⟩⟩
  rw [Place.child, path, hpath, List.nil_append, List.singleton_append]

end Place

/-! ## The places of a tree -/

mutual

theorem Tree.suffix_of_mem_places {around : List Tree} (t : Tree) {p : Place}
    (h : p ∈ t.places around) : around <:+ p.around := by
  match t with
  | .node l children =>
    rw [Tree.places, List.mem_cons] at h
    rcases h with rfl | h
    · exact List.suffix_refl _
    · exact (List.suffix_cons _ _).trans (Tree.suffix_of_mem_placesAll children h)

theorem Tree.suffix_of_mem_placesAll {around : List Tree} (trees : List Tree) {p : Place}
    (h : p ∈ Tree.placesAll around trees) : around <:+ p.around := by
  match trees with
  | [] => simp [Tree.placesAll] at h
  | t :: rest =>
    rw [Tree.placesAll, List.mem_append] at h
    rcases h with h | h
    · exact t.suffix_of_mem_places h
    · exact Tree.suffix_of_mem_placesAll rest h

end

/-- From the inside to the outside each node lies within the next ones. -/
def Outwards (R : SpanRel) (path : List Tree) : Prop :=
  path.Pairwise fun inner outer => R outer.span inner.span

theorem Outwards.cons {R : SpanRel} [IsTrans Span R] {around : List Tree} {outer t : Tree}
    (h : Outwards R (outer :: around)) (hin : R outer.span t.span) :
    Outwards R (t :: outer :: around) := by
  refine List.pairwise_cons.mpr ⟨List.forall_mem_cons.mpr ⟨hin, fun a ha => ?_⟩, h⟩
  exact IsTrans.trans _ _ _ ((List.pairwise_cons.mp h).1 a ha) hin

mutual

theorem Tree.outwards_of_mem_places {R : SpanRel} [IsTrans Span R] {around : List Tree} (t : Tree)
    (ht : t.Nested R) (haround : Outwards R (t :: around)) {p : Place} (h : p ∈ t.places around) :
    Outwards R p.path := by
  match t with
  | .node l children =>
    rw [Tree.places, List.mem_cons] at h
    rcases h with rfl | h
    · exact haround
    · have hchildren : Tree.NestedAll R (Tree.node l children).span children := ht
      exact Tree.outwards_of_mem_placesAll children hchildren haround h

theorem Tree.outwards_of_mem_placesAll {R : SpanRel} [IsTrans Span R] {around : List Tree}
    {outer : Tree} (trees : List Tree) (htrees : Tree.NestedAll R outer.span trees)
    (haround : Outwards R (outer :: around)) {p : Place}
    (h : p ∈ Tree.placesAll (outer :: around) trees) : Outwards R p.path := by
  match trees with
  | [] => simp [Tree.placesAll] at h
  | t :: rest =>
    obtain ⟨hin, ht, hrest⟩ := htrees
    rw [Tree.placesAll, List.mem_append] at h
    rcases h with h | h
    · exact t.outwards_of_mem_places ht (haround.cons hin) h
    · exact Tree.outwards_of_mem_placesAll rest hrest haround h

end

theorem Place.Below.within {R : SpanRel} [IsTrans Span R] {root : Tree} (hroot : root.Nested R)
    {p q : Place} (hp : p ∈ root.places []) (h : p.Below q) : R q.node.span p.node.span := by
  have houtwards := root.outwards_of_mem_places hroot (List.pairwise_singleton _ _) hp
  exact (List.pairwise_cons.mp houtwards).1 q.node (h.subset List.mem_cons_self)

end JavaAtlas.Java
