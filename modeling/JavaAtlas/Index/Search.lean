import JavaAtlas.Fuzzy.Trigram
import JavaAtlas.Index.Query
import JavaAtlas.Naming

/-!
# Searching symbols by a fuzzy query

Candidates are the symbols that share all trigrams of the query, else those that begin with its
first byte, else all of them; the candidates are then scored and ranked.
-/

namespace JavaAtlas

set_option autoImplicit false

open Fuzzy (MatchScore TrigramIndex)

def fullScanLimit : Nat := 50000

inductive SearchStrategy
  | leading
  | trigram
  | fullScan
deriving DecidableEq

instance : Named SearchStrategy where
  all := [.leading, .trigram, .fullScan]
  name
    | .leading => "Prefix"
    | .trigram => "Trigram"
    | .fullScan => "FullScan"

structure SearchResult where
  symbol : Symbol
  score : MatchScore

structure SearchAnswer where
  results : List SearchResult
  strategy : SearchStrategy
  considered : Nat

/-- Places under each of the 256 bytes. -/
structure ByteTable where
  slots : Array (Array Nat)
  size_slots : slots.size = 256

namespace ByteTable

def empty : ByteTable := ⟨Array.replicate 256 #[], Array.size_replicate⟩

def push (table : ByteTable) (byte : UInt8) (place : Nat) : ByteTable where
  slots := table.slots.modify byte.toNat (·.push place)
  size_slots := by rw [Array.size_modify, table.size_slots]

def places (table : ByteTable) (byte : UInt8) : List Nat :=
  have hbound : byte.toNat < table.slots.size := table.size_slots ▸ byte.toNat_lt
  table.slots[byte.toNat].toList

end ByteTable

structure SearchIndex where
  /-- The generation of the snapshot it was built from. -/
  generation : Nat
  symbols : List Symbol
  trigrams : TrigramIndex
  /-- The places of the symbols that have a text beginning with a byte, ASCII case aside. -/
  initials : ByteTable

namespace SearchIndex

def textsOf (s : Symbol) : List String := if s.fqn == s.name then [s.name] else [s.name, s.fqn]

/-- The first byte of a text, ASCII case aside. -/
def firstByte? (text : String) : Option UInt8 := (Text.encode text).head?.map Fuzzy.fold

/-- The bytes that name and full name begin with, each once. -/
def initialsOf (s : Symbol) : List UInt8 :=
  let ofName := firstByte? s.name
  let ofFullName := (firstByte? s.fqn).filter fun byte => some byte != ofName
  ofName.toList ++ ofFullName.toList

def enter (table : ByteTable) (e : Symbol × Nat) : ByteTable :=
  (initialsOf e.1).foldl (fun table byte => table.push byte e.2) table

def ofSymbols (generation : Nat) (symbols : List Symbol) : SearchIndex where
  generation := generation
  symbols := symbols
  trigrams := .ofList (symbols.zipIdx.flatMap fun e => (textsOf e.1).map fun t => (e.2, t))
  initials := symbols.zipIdx.foldl enter .empty

def build (s : Snapshot) : SearchIndex := ofSymbols s.generation s.allSymbols

def size (index : SearchIndex) : Nat := index.symbols.length

/-- The symbols one of whose texts begins like the query. -/
def bucket (index : SearchIndex) (query : String) : List Symbol :=
  match firstByte? query with
  | none => []
  | some byte => (index.initials.places byte).filterMap fun i => index.symbols[i]?

def candidates (index : SearchIndex) (query : String) : SearchStrategy × List Symbol :=
  match index.trigrams.candidates query with
  | some (id :: ids) => (.trigram, (id :: ids).filterMap fun i => index.symbols[i]?)
  | _ =>
    match index.bucket query with
    | [] => (.fullScan, index.symbols.take fullScanLimit)
    | found => (.leading, found)

/-- The better of the scores of name and full name, the former on a tie. -/
def scoreOf (query : String) (s : Symbol) : Option MatchScore :=
  let better (a b : MatchScore) : MatchScore := if (b.compare a).isGT then b else a
  match (textsOf s).filterMap (Fuzzy.score query) with
  | [] => none
  | first :: rest => some (rest.foldl better first)

/-- The better score first, then the shorter name, then by name, full name and place. -/
def rankedBefore (a b : SearchResult) : Bool :=
  ((b.score.compare a.score).then
    ((compare a.symbol.name.utf8ByteSize b.symbol.name.utf8ByteSize).then
      ((compare a.symbol.name b.symbol.name).then
        ((compare a.symbol.fqn b.symbol.fqn).then
          ((compare a.symbol.path b.symbol.path).then
            (compare a.symbol.ordinal b.symbol.ordinal)))))).isLE

def search (index : SearchIndex) (query : String) (limit : Nat) : SearchAnswer :=
  if query = "" then ⟨[], .fullScan, 0⟩
  else
    let (strategy, symbols) := index.candidates query
    let scored := symbols.filterMap fun s => (scoreOf query s).map fun score => ⟨s, score⟩
    ⟨(scored.mergeSort rankedBefore).take limit, strategy, symbols.length⟩

end SearchIndex

end JavaAtlas
