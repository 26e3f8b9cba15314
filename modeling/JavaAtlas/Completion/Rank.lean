import JavaAtlas.Completion.Candidates
import JavaAtlas.Fuzzy.Level
import JavaAtlas.Fuzzy.Rank

/-!
# Ranking completions
-/

namespace JavaAtlas

set_option autoImplicit false

def maxCompletions : Nat := 200

structure CompletionItem where
  candidate : Candidate
  /-- How well the label matches. -/
  score : Int
  /-- How close the label is to what was typed, as a prefix. -/
  weight : Int

namespace CompletionItem

def of? (typed : String) (c : Candidate) : Option CompletionItem :=
  (Fuzzy.score typed c.label).map fun m => ⟨c, m.value, Fuzzy.prefixWeight typed c.label⟩

/-- No detail comes before any. -/
def compareDetail : Option String → Option String → Ordering
  | none, none => .eq
  | none, some _ => .lt
  | some _, none => .gt
  | some a, some b => Ord.compare a b

/-- Prefix closeness first, then score, then the shorter label, then label, kind and detail. -/
def before (a b : CompletionItem) : Bool :=
  ((compare b.weight a.weight).then
    ((compare b.score a.score).then
      ((compare a.candidate.label.utf8ByteSize b.candidate.label.utf8ByteSize).then
        ((compare a.candidate.label b.candidate.label).then
          ((compare a.candidate.kind.rank b.candidate.kind.rank).then
            (compareDetail a.candidate.detail b.candidate.detail)))))).isLE

end CompletionItem

def rankCandidates (candidates : List Candidate) (typed : String) : List CompletionItem :=
  ((candidates.eraseDups.filterMap (CompletionItem.of? typed)).mergeSort
    CompletionItem.before).take maxCompletions

def rankCandidates? (m : Fuzzy.Matcher) (candidates : List Candidate) (typed : String) :
    Option (List CompletionItem) := do
  let item (c : Candidate) (score : Fuzzy.MatchScore) : CompletionItem :=
    ⟨c, score.value, Fuzzy.prefixWeight typed c.label⟩
  let (_, matching) ← m.collect? Candidate.label item candidates.eraseDups
  return (matching.mergeSort CompletionItem.before).take maxCompletions

def CompletionRequest.complete (r : CompletionRequest) : List CompletionItem :=
  rankCandidates r.candidates r.typed

end JavaAtlas
