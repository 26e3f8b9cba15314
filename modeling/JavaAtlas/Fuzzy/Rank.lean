import JavaAtlas.Fuzzy.Matcher

/-!
# Ranking names against a query
-/

namespace JavaAtlas.Fuzzy

set_option autoImplicit false

structure Ranked where
  name : String
  kind : MatchKind
  value : Int
deriving DecidableEq

/-- Higher value first, then the shorter name, then the names in order. -/
def Ranked.compare (a b : Ranked) : Ordering :=
  (Ord.compare b.value a.value).then
    ((Ord.compare a.name.utf8ByteSize b.name.utf8ByteSize).then (Ord.compare a.name b.name))

def rank (query : String) (candidates : List String) : List Ranked :=
  let matching := candidates.filterMap fun name =>
    (score query name).map fun m => ⟨name, m.kind, m.value⟩
  matching.mergeSort fun a b => (a.compare b).isLE

namespace Matcher

/-- What `f` makes of the scores that one matcher gives to texts, one after another. What has no
score is passed over. -/
def collect? {α β : Type} (text : α → String) (f : α → MatchScore → β) :
    Matcher → List α → Option (Matcher × List β)
  | m, [] => some (m, [])
  | m, a :: rest => do
    let (m, score) ← m.score? (Text.encode (text a))
    let (m, found) ← collect? text f m rest
    return (m, (score.map (f a)).toList ++ found)

def rank? (m : Matcher) (candidates : List String) : Option (List Ranked) := do
  let (_, matching) ← m.collect? id (fun name score => ⟨name, score.kind, score.value⟩) candidates
  return matching.mergeSort fun a b => (a.compare b).isLE

end Matcher

end JavaAtlas.Fuzzy
