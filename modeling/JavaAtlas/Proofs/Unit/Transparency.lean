import JavaAtlas.Proofs.Unit.Relocation
import Mathlib.Data.List.Induction

/-!
# A cache that makes no difference

Units are kept under the paths of their files, and used again for texts of the same fingerprint.
Main statement: whatever was parsed, dropped or set before, and whatever the parser is, a unit from
the cache is the one a fresh parse at the current language level gives, and what is kept for a path is
the unit of its last parse.
-/

namespace JavaAtlas

set_option autoImplicit false

open Std (ReflCmp TransCmp OrientedCmp)

/-- The fingerprint of a parse is that of its text. -/
inductive ParseCall
  | parse (path : Path) (text : String)
  | evict (path : Path)
  | clear
  | setLevel (level : LanguageLevel)

namespace ParseCache

def call (c : ParseCache) : ParseCall → ParseCache
  | .parse path text => (c.parseCached path text (.ofText text)).1
  | .evict path => (c.evict path).1
  | .clear => c.clear
  | .setLevel level => c.setLanguageLevel level

def run (parser : Java.Parser) (start : LanguageLevel) (calls : List ParseCall) : ParseCache :=
  calls.foldl call { parser := parser, languageLevel := start }

theorem parser_call (c : ParseCache) (request : ParseCall) : (c.call request).parser = c.parser := by
  cases request with
  | parse path text => exact (rules_parseCached c path text _).1
  | evict path => rfl
  | clear => rfl
  | setLevel level =>
    rw [call, setLanguageLevel]
    split <;> rfl

theorem parser_run (parser : Java.Parser) (start : LanguageLevel) (calls : List ParseCall) :
    (run parser start calls).parser = parser := by
  induction calls using List.reverseRecOn with
  | nil => rfl
  | append_singleton calls request ih =>
    rw [run, List.foldl_concat, parser_call]
    exact ih

end ParseCache

/-- What calls ask for: the current language level, and the text last parsed for each path, unless
its unit was to be dropped since. -/
structure ParseDemand where
  level : LanguageLevel
  text? : Path → Option String := fun _ => none

namespace ParseDemand

def call (d : ParseDemand) : ParseCall → ParseDemand
  | .parse path text =>
    { d with text? := fun p => if compare p path = .eq then some text else d.text? p }
  | .evict path => { d with text? := fun p => if compare p path = .eq then none else d.text? p }
  | .clear => { d with text? := fun _ => none }
  | .setLevel level =>
    { level := level, text? := if level = d.level then d.text? else fun _ => none }

def run (start : LanguageLevel) (calls : List ParseCall) : ParseDemand :=
  calls.foldl call { level := start }

def unit? (parser : Java.Parser) (d : ParseDemand) (p : Path) : Option SourceUnit :=
  (d.text? p).map fun text => .parse parser p text (.ofText text) d.level

end ParseDemand

/-- No two of the texts have the same fingerprint. -/
def DistinctPrints (texts : String → Prop) : Prop :=
  ∀ s t, texts s → texts t → Fingerprint.ofText s = Fingerprint.ofText t → s = t

/-- The texts that are parsed are among those in use. -/
def ParseCall.Parses (texts : String → Prop) : ParseCall → Prop
  | .parse _ text => texts text
  | .evict _ | .clear | .setLevel _ => True

/-- The cache holds just the units that are asked for. -/
structure ParseCache.Shows (texts : String → Prop) (c : ParseCache) (d : ParseDemand) : Prop where
  level : c.languageLevel = d.level
  units : ∀ p, Option.Rel SourceUnit.SameAs (c.cached? p) (d.unit? c.parser p)
  parsed : ∀ p text, d.text? p = some text → texts text

namespace ParseCache.Shows

variable {texts : String → Prop} {c : ParseCache} {d : ParseDemand}

theorem start (texts : String → Prop) (parser : Java.Parser) (level : LanguageLevel) :
    Shows texts { parser := parser, languageLevel := level } { level := level } where
  level := rfl
  units _ := .none
  parsed p text h := by cases h

/-- A unit that can be used again is that of the text last parsed, which is the text asked for. -/
theorem of_reusable? (h : c.Shows texts d) (hprints : DistinctPrints texts) {p : Path}
    {text : String} (htext : texts text) {u : SourceUnit}
    (hu : c.reusable? p (.ofText text) = some u) :
    d.text? p = some text ∧ u.SameAs (.parse c.parser p text (.ofText text) d.level) := by
  have hprint := fingerprint_of_reusable? hu
  have hcached : c.cached? p = some u := (Option.filter_eq_some_iff.mp hu).1
  have hrel := h.units p
  rw [hcached, ParseDemand.unit?] at hrel
  cases hlast : d.text? p with
  | none => simp [hlast] at hrel
  | some last =>
    rw [hlast, Option.map_some, Option.rel_some_some] at hrel
    have hfor := hrel.fingerprint
    rw [SourceUnit.fingerprint_parse, hprint] at hfor
    obtain rfl := hprints text last htext (h.parsed p last hlast) hfor
    exact ⟨rfl, hrel⟩

theorem parseCached_sameAs (h : c.Shows texts d) (hprints : DistinctPrints texts) (p : Path)
    {text : String} (htext : texts text) :
    (c.parseCached p text (.ofText text)).2.SameAs
      (.parse c.parser p text (.ofText text) d.level) := by
  rw [parseCached_eq, ParseCache.parse, h.level]
  cases hu : c.reusable? p (.ofText text) with
  | none => exact .refl _
  | some u => exact (h.of_reusable? hprints htext hu).2

theorem parse (h : c.Shows texts d) (hprints : DistinctPrints texts) (path : Path) {text : String}
    (htext : texts text) : (c.call (.parse path text)).Shows texts (d.call (.parse path text)) where
  level := (rules_parseCached c path text _).2.trans h.level
  units p := by
    rw [ParseCache.call, (rules_parseCached c path text _).1, ParseDemand.unit?, ParseDemand.call,
      parseCached]
    dsimp only
    split
    next u hu =>
      -- nothing changes: the text was the last one before
      split
      next hc =>
        obtain ⟨hlast, -⟩ := h.of_reusable? hprints htext ((reusable?_congr c hc _).trans hu)
        have hrel := h.units p
        rw [ParseDemand.unit?, hlast] at hrel
        exact hrel
      next => exact h.units p
    next =>
      rw [cached?, SortedMap.get?_insert]
      split
      next hc =>
        rw [ParseCache.parse, h.level]
        exact .some (.parse c.parser (OrientedCmp.eq_symm hc) text _ _)
      next => exact h.units p
  parsed p last hlast := by
    simp only [ParseDemand.call] at hlast
    split at hlast
    · exact Option.some.inj hlast ▸ htext
    · exact h.parsed p last hlast

theorem evict (h : c.Shows texts d) (path : Path) :
    (c.call (.evict path)).Shows texts (d.call (.evict path)) where
  level := h.level
  units p := by
    rw [ParseDemand.unit?, ParseDemand.call, ParseCache.call, ParseCache.evict, cached?]
    dsimp only
    rw [SortedMap.get?_erase]
    split
    · exact .none
    · exact h.units p
  parsed p last hlast := by
    simp only [ParseDemand.call] at hlast
    split at hlast
    · cases hlast
    · exact h.parsed p last hlast

theorem clear (h : c.Shows texts d) : (c.call .clear).Shows texts (d.call .clear) where
  level := h.level
  units _ := .none
  parsed _ _ hlast := by cases hlast

theorem setLevel (h : c.Shows texts d) (level : LanguageLevel) :
    (c.call (.setLevel level)).Shows texts (d.call (.setLevel level)) := by
  rw [ParseCache.call, setLanguageLevel, ParseDemand.call, h.level]
  by_cases hsame : level = d.level
  · subst hsame
    rw [if_pos rfl, if_pos rfl]
    exact h
  · rw [if_neg (Ne.symm hsame), if_neg hsame]
    exact start texts c.parser level

theorem call (h : c.Shows texts d) (hprints : DistinctPrints texts) {request : ParseCall}
    (hrequest : request.Parses texts) : (c.call request).Shows texts (d.call request) := by
  cases request with
  | parse path text => exact h.parse hprints path hrequest
  | evict path => exact h.evict path
  | clear => exact h.clear
  | setLevel level => exact h.setLevel level

theorem run (hprints : DistinctPrints texts) (parser : Java.Parser) (level : LanguageLevel)
    {calls : List ParseCall} (hcalls : ∀ request ∈ calls, request.Parses texts) :
    (ParseCache.run parser level calls).Shows texts (ParseDemand.run level calls) := by
  induction calls using List.reverseRecOn with
  | nil => exact start texts parser level
  | append_singleton calls request ih =>
    have hbefore := ih fun r hr => hcalls r (List.mem_append_left _ hr)
    rw [ParseCache.run, ParseDemand.run, List.foldl_concat, List.foldl_concat]
    exact hbefore.call hprints (hcalls request (List.mem_append_right _ List.mem_cons_self))

end ParseCache.Shows

namespace ParseCache

/-- Every parse answers as a fresh one at the current language level, and for each path there is at
most one unit, that of the last parse. -/
theorem parseCached_as_fresh {texts : String → Prop} (hprints : DistinctPrints texts)
    {calls : List ParseCall} (hcalls : ∀ request ∈ calls, request.Parses texts)
    (parser : Java.Parser) (level : LanguageLevel) :
    (∀ before p text after, calls = before ++ .parse p text :: after →
      ((run parser level before).parseCached p text (.ofText text)).2.SameAs
        (.parse parser p text (.ofText text) (ParseDemand.run level before).level)) ∧
    (∀ p, Option.Rel SourceUnit.SameAs ((run parser level calls).cached? p)
      ((ParseDemand.run level calls).unit? parser p)) ∧
    (run parser level calls).units.keys.Pairwise fun p q => compare p q ≠ .eq := by
  have hparser (calls : List ParseCall) : (run parser level calls).parser = parser :=
    parser_run parser level calls
  refine ⟨?_, ?_, ?_⟩
  · rintro before p text after rfl
    have hbefore : ∀ request ∈ before, request.Parses texts := fun r hr =>
      hcalls r (List.mem_append_left _ hr)
    have htext : texts text := hcalls _ (List.mem_append_right _ List.mem_cons_self)
    have hsame := (Shows.run hprints parser level hbefore).parseCached_sameAs hprints p htext
    rwa [hparser] at hsame
  · have hunits := (Shows.run hprints parser level hcalls).units
    rwa [hparser] at hunits
  · apply (run parser level calls).units.increasing_keys.imp
    intro p q hlt heq
    rw [hlt] at heq
    cases heq

/-- A file is parsed under two spellings, at another level, and with another text. -/
def parsedAnew : List ParseCall :=
  [.parse ⟨"/p/A.java"⟩ "class A {}", .parse ⟨"/p//A.java"⟩ "class A {}", .setLevel { major := 21 },
    .parse ⟨"/p/A.java"⟩ "class A {}", .parse ⟨"/p/A.java"⟩ "class B {}"]

theorem parseCached_as_fresh_parsedAnew :
    ((run Java.parser {} (parsedAnew.take 1)).parseCached ⟨"/p//A.java"⟩ "class A {}"
        (.ofText "class A {}")).2.SameAs
        (.parse Java.parser ⟨"/p//A.java"⟩ "class A {}" (.ofText "class A {}") {}) ∧
      ∃ u, (run Java.parser {} parsedAnew).cached? ⟨"/p/./A.java"⟩ = some u ∧
        u.SameAs (.parse Java.parser ⟨"/p/./A.java"⟩ "class B {}" (.ofText "class B {}")
          { major := 21 }) := by
  let texts (s : String) : Prop := s = "class A {}" ∨ s = "class B {}"
  have hprints : DistinctPrints texts := by
    have hne : Fingerprint.ofText "class A {}" ≠ Fingerprint.ofText "class B {}" := by decide +kernel
    rintro s t (rfl | rfl) (rfl | rfl) h
    · rfl
    · exact absurd h hne
    · exact absurd h.symm hne
    · rfl
  have hcalls : ∀ request ∈ parsedAnew, request.Parses texts := by
    intro request hrequest
    simp only [parsedAnew, List.mem_cons, List.not_mem_nil, or_false] at hrequest
    rcases hrequest with rfl | rfl | rfl | rfl | rfl
    · exact Or.inl rfl
    · exact Or.inl rfl
    · exact trivial
    · exact Or.inl rfl
    · exact Or.inr rfl
  obtain ⟨hanswers, hkept, -⟩ := parseCached_as_fresh hprints hcalls Java.parser {}
  refine ⟨hanswers _ _ _ _ rfl, ?_⟩
  have htext : (ParseDemand.run {} parsedAnew).text? ⟨"/p/./A.java"⟩ = some "class B {}" := by
    decide +kernel
  have hlevel : (ParseDemand.run {} parsedAnew).level = { major := 21 } := rfl
  have hlast := hkept ⟨"/p/./A.java"⟩
  rw [ParseDemand.unit?, htext, Option.map_some, hlevel] at hlast
  cases hcached : (run Java.parser {} parsedAnew).cached? ⟨"/p/./A.java"⟩ with
  | none => simp [hcached] at hlast
  | some u => exact ⟨u, rfl, Option.rel_some_some.mp (hcached ▸ hlast)⟩

end ParseCache

end JavaAtlas
