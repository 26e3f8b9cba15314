import JavaAtlas.Data.SortedSet
import JavaAtlas.Fuzzy.Score

/-!
# Trigram postings

For each run of three bytes, ASCII case aside, the ids of the texts that contain it. A text that
contains a query contains all its trigrams, so the common postings hold every such text.
-/

namespace JavaAtlas.Fuzzy

set_option autoImplicit false

/-- Three folded bytes as one number. -/
abbrev Trigram := Nat

def Trigram.ofBytes (a b c : UInt8) : Trigram :=
  (fold a).toNat * 65536 + (fold b).toNat * 256 + (fold c).toNat

/-- The trigrams of a byte string, one for each position that starts one. -/
def trigrams : List UInt8 → List Trigram
  | a :: b :: c :: rest => .ofBytes a b c :: trigrams (b :: c :: rest)
  | _ => []

structure TrigramIndex where
  postingSets : MultiMap Trigram Nat := ∅

namespace TrigramIndex

def insert (index : TrigramIndex) (id : Nat) (text : String) : TrigramIndex :=
  ⟨(trigrams (Text.encode text)).foldl (fun m t => m.link t id) index.postingSets⟩

def ofList (docs : List (Nat × String)) : TrigramIndex :=
  docs.foldl (fun index doc => index.insert doc.1 doc.2) {}

def isEmpty (index : TrigramIndex) : Bool := index.postingSets.isEmpty

def postings (index : TrigramIndex) (t : Trigram) : List Nat := index.postingSets.lookup t

/-- The ids that have every trigram of the query; `none` when the query has no trigram. -/
def candidates (index : TrigramIndex) (query : String) : Option (List Nat) :=
  match trigrams (Text.encode query) with
  | [] => none
  | t :: rest =>
    some ((index.postings t).filter fun id => rest.all fun u => (index.postings u).contains id)

end TrigramIndex

end JavaAtlas.Fuzzy
