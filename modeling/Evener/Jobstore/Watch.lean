/-
  The matcher of an output watch: a pattern over a rolling window of the output.

  The engine is the parameter `Regexp`. Offsets are integers, since a seed may be longer than the
  offset it ends at. The scratch buffers and the byte counter of `Feed` are left out.
-/
import Evener.Jobstore.Records
import Evener.Lib.Lines

namespace Evener.Jobstore

open Evener.Lib List

/-! ## Provenance -/

def unionKeys (seen : List WatchKey) (keys : List WatchKey) : List WatchKey :=
  keys.foldl (fun seen key =>
    if key.watchId = "" ∨ key.watchGeneration = "" ∨ key ∈ seen then seen else seen ++ [key]) seen

/-- `provenance.Union`. -/
def unionProvenance (parts : List (Option Causal)) : Option Causal :=
  nilIfEmpty (truncateChain (parts.reduceOption.foldl (fun out part =>
    { watchKeys := unionKeys out.watchKeys part.watchKeys
      chain := out.chain ++ part.chain
      chainTruncated := out.chainTruncated || part.chainTruncated }) {}))

/-! ## Matches -/

def outputMatchWindowBytes : Nat := 4096

/-- `FindAllIndex`: the start and the end of every match in a text. -/
abbrev Regexp := Bytes → List (Nat × Nat)

/-- A half-open extent in the stream. -/
structure MatchRange where
  start : Int
  stop : Int
deriving DecidableEq

structure OutputMatch where
  text : Bytes
  start : Int
  stop : Int
  provenance : Option Causal
deriving DecidableEq

structure OutputMatcher where
  carry : Bytes := []
  carryProvenance : Option Causal := none
  scanOffset : Int := 0
  reported : List MatchRange := []
  carryHasCR : Bool := false
deriving DecidableEq

def carriageReturn : UInt8 := 13

/-- Every `\r` in front of a newline made a newline. -/
def rewriteCRLF : Bytes → Bytes
  | [] => []
  | b :: rest =>
    (if b = carriageReturn ∧ rest.head? = some newline then newline else b) :: rewriteCRLF rest

def anchorBytes (window : Bytes) : Bytes :=
  if carriageReturn ∈ window then rewriteCRLF window else window

def findMatchRanges (re : Regexp) (anchored : Bytes) (windowStart : Int) : List MatchRange :=
  if anchored = [] then []
  else (re anchored).filterMap fun loc =>
    if outputMatchWindowBytes < loc.2 - loc.1 then none
    else some ⟨windowStart + loc.1, windowStart + loc.2⟩

def scanWindow (re : Regexp) (window : Bytes) (windowStart : Int) : List MatchRange :=
  if window = [] then [] else findMatchRanges re (anchorBytes window) windowStart

/-- A window without a `\r` is not copied; the carry has been looked at before. -/
def OutputMatcher.anchoredFresh (m : OutputMatcher) (window : Bytes) (carryLen : Nat) : Bytes :=
  if carryLen ≤ window.length ∧ ¬ m.carryHasCR ∧ carriageReturn ∉ window.drop carryLen then window
  else anchorBytes window

def OutputMatcher.scanWindowFresh (m : OutputMatcher) (re : Regexp) (window : Bytes)
    (windowStart : Int) (carryLen : Nat) : List MatchRange :=
  if window = [] then [] else findMatchRanges re (m.anchoredFresh window carryLen) windowStart

def lastBytes (n : Nat) (text : Bytes) : Bytes := text.drop (text.length - n)

/-- The line a match begins on, or what the bound leaves of it. -/
def matchExcerpt (window : Bytes) (start : Nat) : Bytes :=
  let before := window.take start
  let lo := start - (before.reverse.takeWhile (· ≠ newline)).length
  let hi := start + ((window.drop start).takeWhile (· ≠ newline)).length
  let (lo, hi) :=
    if outputMatchWindowBytes < hi - lo then (start, min (start + outputMatchWindowBytes) hi)
    else (lo, hi)
  let out := (window.take hi).drop lo
  if out.getLast? = some carriageReturn then out.dropLast else out

/-! ## Occurrences -/

/-- They overlap, or they are the identical extent. -/
def sameOccurrence (a b : MatchRange) : Bool :=
  a = b || (a.start < b.stop && b.start < a.stop)

/-- The loop of `unreportedRanges`; what ends before a range is behind the later ones too. -/
def unreportedFrom : List MatchRange → List MatchRange → List MatchRange
  | [], _ => []
  | r :: found, reported =>
    let reported := reported.dropWhile (·.stop < r.start)
    if (reported.takeWhile (·.start ≤ r.stop)).any (sameOccurrence r) then
      unreportedFrom found reported
    else r :: unreportedFrom found reported

def unreportedRanges (found reported : List MatchRange) : List MatchRange :=
  if reported = [] then found else unreportedFrom found reported

def lessRange (a b : MatchRange) : Bool :=
  if a.start ≠ b.start then a.start < b.start else a.stop < b.stop

def mergeRanges (a b : List MatchRange) : List MatchRange := a.merge b lessRange

def pruneRanges (ranges : List MatchRange) (windowStart : Int) : List MatchRange :=
  ranges.filter (windowStart < ·.stop)

/-! ## Calls -/

section Calls

variable (re : Regexp) (m : OutputMatcher)

def OutputMatcher.setScanOffset (off : Int) : OutputMatcher := { scanOffset := off }

def OutputMatcher.seedCarry (scanned : Bytes) : OutputMatcher :=
  let carry := lastBytes outputMatchWindowBytes scanned
  { m with
    carry := carry
    carryHasCR := carriageReturn ∈ carry
    carryProvenance := none
    reported := scanWindow re carry (m.scanOffset - carry.length) }

/-- The bytes of a chunk that have not been scanned. -/
def OutputMatcher.unscanned (chunk : Bytes) (endOffset : Int) : Bytes :=
  let start := endOffset - chunk.length
  if start < m.scanOffset then chunk.drop (m.scanOffset - start).toNat else chunk

def OutputMatcher.feedAtWithProvenance (chunk : Bytes) (endOffset : Int) (p : Option Causal) :
    List OutputMatch × OutputMatcher :=
  if chunk = [] ∨ endOffset ≤ m.scanOffset then ([], m)
  else
    let window := m.carry ++ m.unscanned chunk endOffset
    let windowStart := endOffset - window.length
    let carryProvenance :=
      if p = none then m.carryProvenance else unionProvenance [m.carryProvenance, p]
    let fresh :=
      unreportedRanges (m.scanWindowFresh re window windowStart m.carry.length) m.reported
    let found := fresh.map fun r =>
      { text := matchExcerpt window (r.start - windowStart).toNat
        start := r.start
        stop := r.stop
        provenance := cloneProvenance carryProvenance }
    let carry := lastBytes outputMatchWindowBytes window
    (found,
      { carry := carry
        carryProvenance := if found = [] then carryProvenance else none
        scanOffset := endOffset
        reported := pruneRanges (mergeRanges m.reported fresh) (endOffset - carry.length)
        carryHasCR := carriageReturn ∈ carry })

end Calls

/-! ## Sorted extents -/

/-- Extents one behind the other; an empty one may touch its neighbours. -/
structure Tidy (ranges : List MatchRange) : Prop where
  forward : ∀ r ∈ ranges, r.start ≤ r.stop
  apart : ranges.Pairwise fun a b => a.stop ≤ b.start ∧ a ≠ b

variable {a b r : MatchRange} {ranges reported found : List MatchRange}

theorem sameOccurrence_iff :
    sameOccurrence a b = true ↔ a = b ∨ (a.start < b.stop ∧ b.start < a.stop) := by
  unfold sameOccurrence
  simp

theorem sameOccurrence_comm (a b : MatchRange) : sameOccurrence a b = sameOccurrence b a := by
  rw [Bool.eq_iff_iff, sameOccurrence_iff, sameOccurrence_iff]
  constructor
  · rintro (h | ⟨h, h'⟩)
    · exact Or.inl h.symm
    · exact Or.inr ⟨h', h⟩
  · rintro (h | ⟨h, h'⟩)
    · exact Or.inl h.symm
    · exact Or.inr ⟨h', h⟩

/-- Of two extents one behind the other only an empty one can be met twice. -/
theorem same_of_le (h : a.stop ≤ b.start) (ha : a.start ≤ a.stop) (hb : b.start ≤ b.stop)
    (hsame : sameOccurrence a b = true) : a = b ∧ a.start = a.stop := by
  rcases sameOccurrence_iff.mp hsame with rfl | ⟨_, hover⟩
  · exact ⟨rfl, by omega⟩
  · omega

theorem Tidy.tail (h : Tidy (r :: ranges)) : Tidy ranges :=
  ⟨fun q hq => h.forward q (mem_cons_of_mem _ hq), (pairwise_cons.mp h.apart).2⟩

theorem Tidy.sublist {more : List MatchRange} (h : Tidy more) (hsub : ranges.Sublist more) :
    Tidy ranges :=
  ⟨fun r hr => h.forward r (hsub.subset hr), h.apart.sublist hsub⟩

theorem Tidy.distinct (h : Tidy ranges) :
    ranges.Pairwise fun a b => sameOccurrence a b = false := by
  refine h.apart.imp_of_mem fun {a b} ha hb hab => ?_
  rw [Bool.eq_false_iff]
  exact fun hsame => hab.2 (same_of_le hab.1 (h.forward a ha) (h.forward b hb) hsame).1

/-- What ends before a range starts is not met by it. -/
theorem any_dropped (hr : r.start ≤ r.stop) {x : Int} (hx : x ≤ r.start)
    (reported : List MatchRange) :
    (reported.dropWhile (·.stop < x)).any (sameOccurrence r) = reported.any (sameOccurrence r) := by
  have hbehind : (reported.takeWhile (·.stop < x)).any (sameOccurrence r) = false := by
    rw [any_eq_false]
    intro q hq hsame
    have hstop : q.stop < x := by
      have hall := all_takeWhile (p := fun q : MatchRange => decide (q.stop < x)) (l := reported)
      simpa using all_eq_true.mp hall q hq
    rcases sameOccurrence_iff.mp hsame with rfl | ⟨hover, _⟩ <;> omega
  conv_rhs => rw [← takeWhile_append_dropWhile (p := fun q : MatchRange => decide (q.stop < x))
    (l := reported), any_append, hbehind, Bool.false_or]

/-- What starts behind a range is not met by it. -/
theorem any_taken (h : Tidy reported) (hr : r.start ≤ r.stop) :
    (reported.takeWhile (·.start ≤ r.stop)).any (sameOccurrence r) =
      reported.any (sameOccurrence r) := by
  have hahead : (reported.dropWhile (·.start ≤ r.stop)).any (sameOccurrence r) = false := by
    have htidy : Tidy (reported.dropWhile (·.start ≤ r.stop)) :=
      h.sublist (dropWhile_sublist _)
    rw [any_eq_false]
    cases hrest : reported.dropWhile (·.start ≤ r.stop) with
    | nil => exact fun q hq => nomatch hq
    | cons first rest =>
      rw [hrest] at htidy
      have hfirst : r.stop < first.start := by
        have hhead := head?_dropWhile_not (fun q : MatchRange => decide (q.start ≤ r.stop)) reported
        rw [hrest] at hhead
        simpa using hhead
      have hforward := htidy.forward first mem_cons_self
      intro q hq hsame
      have hstart : r.stop < q.start := by
        rcases mem_cons.mp hq with rfl | hq
        · exact hfirst
        · have := ((pairwise_cons.mp htidy.apart).1 q hq).1
          omega
      rcases sameOccurrence_iff.mp hsame with rfl | ⟨_, hover⟩ <;> omega
  conv_rhs => rw [← takeWhile_append_dropWhile
    (p := fun q : MatchRange => decide (q.start ≤ r.stop)) (l := reported), any_append, hahead,
    Bool.or_false]

theorem unreportedFrom_eq (hfound : Tidy found) (hreported : Tidy reported) :
    unreportedFrom found reported =
      found.filter fun r => !reported.any (sameOccurrence r) := by
  induction found generalizing reported with
  | nil => rfl
  | cons r found ih =>
    have hr := hfound.forward r mem_cons_self
    have hrest : Tidy (reported.dropWhile (·.stop < r.start)) :=
      hreported.sublist (dropWhile_sublist _)
    have hlater : unreportedFrom found (reported.dropWhile (·.stop < r.start)) =
        found.filter fun q => !reported.any (sameOccurrence q) := by
      rw [ih hfound.tail hrest]
      refine filter_congr fun q hq => ?_
      have hbehind := ((pairwise_cons.mp hfound.apart).1 q hq).1
      rw [any_dropped (hfound.forward q (mem_cons_of_mem _ hq)) (by omega)]
    unfold unreportedFrom
    dsimp only
    rw [any_taken hrest hr, any_dropped hr (Int.le_refl _), hlater]
    cases hmet : reported.any (sameOccurrence r) with
    | true => rw [if_pos rfl, filter_cons_of_neg (by simp [hmet])]
    | false => rw [if_neg Bool.false_ne_true, filter_cons_of_pos (by simp [hmet])]

theorem unreportedRanges_eq (hfound : Tidy found) (hreported : Tidy reported) :
    unreportedRanges found reported =
      found.filter fun r => !reported.any (sameOccurrence r) := by
  unfold unreportedRanges
  split
  · next hnone => rw [hnone]; simp
  · exact unreportedFrom_eq hfound hreported

/-- Extents that are not the same occurrence are in the order of `lessRange`. -/
theorem apart_of_less (ha : a.start ≤ a.stop) (hb : b.start ≤ b.stop)
    (hne : sameOccurrence a b = false) :
    (lessRange a b = true → a.stop ≤ b.start) ∧ (lessRange a b = false → b.stop ≤ a.start) := by
  rw [Bool.eq_false_iff, ne_eq, sameOccurrence_iff, not_or] at hne
  obtain ⟨hdistinct, hover⟩ := hne
  have hstops : a.start = b.start → a.stop ≠ b.stop := by
    obtain ⟨b₁, b₂⟩ := b
    rintro rfl rfl
    exact hdistinct rfl
  unfold lessRange
  split
  · next hstart =>
    rw [decide_eq_true_eq, decide_eq_false_iff_not]
    omega
  · next hstart =>
    rw [decide_eq_true_eq, decide_eq_false_iff_not]
    have := hstops (not_not.mp hstart)
    omega

theorem Tidy.cons (hr : r.start ≤ r.stop) (h : Tidy ranges)
    (hall : ∀ q ∈ ranges, r.stop ≤ q.start ∧ r ≠ q) : Tidy (r :: ranges) := by
  refine ⟨fun q hq => ?_, pairwise_cons.mpr ⟨hall, h.apart⟩⟩
  rcases mem_cons.mp hq with rfl | hq
  · exact hr
  · exact h.forward q hq

theorem ne_of_apart (h : sameOccurrence a b = false) : a ≠ b := by
  rintro rfl
  rw [sameOccurrence_iff.mpr (Or.inl rfl)] at h
  cases h

/-- Tidy lists that do not meet are merged into one. -/
theorem tidy_merge {a b : List MatchRange} (ha : Tidy a) (hb : Tidy b)
    (hapart : ∀ x ∈ a, ∀ y ∈ b, sameOccurrence x y = false) : Tidy (mergeRanges a b) := by
  unfold mergeRanges
  induction a generalizing b with
  | nil =>
    rw [nil_merge]
    exact hb
  | cons x a iha =>
    induction b with
    | nil =>
      rw [merge_right]
      exact ha
    | cons y b ihb =>
      have hx := ha.forward x mem_cons_self
      have hy := hb.forward y mem_cons_self
      have hxy := hapart x mem_cons_self y mem_cons_self
      obtain ⟨hless, hmore⟩ := apart_of_less hx hy hxy
      by_cases hlt : lessRange x y = true
      · rw [cons_merge_cons_pos _ _ _ hlt]
        refine .cons hx (iha ha.tail hb fun z hz => hapart z (mem_cons_of_mem _ hz)) ?_
        intro q hq
        rcases mem_merge.mp hq with hq | hq
        · exact (pairwise_cons.mp ha.apart).1 q hq
        · refine ⟨?_, ne_of_apart (hapart x mem_cons_self q hq)⟩
          rcases mem_cons.mp hq with rfl | hq
          · exact hless hlt
          · have := ((pairwise_cons.mp hb.apart).1 q hq).1
            have := hless hlt
            omega
      · rw [cons_merge_cons_neg _ _ _ hlt]
        have hback := hmore (by simpa using hlt)
        refine .cons hy (ihb hb.tail fun z hz q hq => hapart z hz q (mem_cons_of_mem _ hq)) ?_
        intro q hq
        rcases mem_merge.mp hq with hq | hq
        · refine ⟨?_, (ne_of_apart (hapart q hq y mem_cons_self)).symm⟩
          rcases mem_cons.mp hq with rfl | hq
          · exact hback
          · have := ((pairwise_cons.mp ha.apart).1 q hq).1
            omega
        · exact (pairwise_cons.mp hb.apart).1 q hq

/-! ## Windows -/

/-- Matches of a text in order, none of them over another. -/
structure Ascending (re : Regexp) : Prop where
  inside : ∀ text, ∀ loc ∈ re text, loc.1 ≤ loc.2 ∧ loc.2 ≤ text.length
  apart : ∀ text, (re text).Pairwise fun a b => a.2 ≤ b.1 ∧ a ≠ b

section Windows

variable {re : Regexp} {m : OutputMatcher}

theorem findMatchRanges_tidy (h : Ascending re) (anchored : Bytes) (windowStart : Int) :
    Tidy (findMatchRanges re anchored windowStart) ∧
      ∀ r ∈ findMatchRanges re anchored windowStart, windowStart ≤ r.start := by
  unfold findMatchRanges
  split
  · exact ⟨⟨fun r hr => (nomatch hr), .nil⟩, fun r hr => (nomatch hr)⟩
  have hmem : ∀ r, r ∈ (re anchored).filterMap (fun loc =>
      if outputMatchWindowBytes < loc.2 - loc.1 then none
      else some (⟨windowStart + loc.1, windowStart + loc.2⟩ : MatchRange)) →
      ∃ loc ∈ re anchored, r = ⟨windowStart + loc.1, windowStart + loc.2⟩ := by
    intro r hr
    obtain ⟨loc, hloc, hsome⟩ := mem_filterMap.mp hr
    split at hsome
    · cases hsome
    · exact ⟨loc, hloc, (Option.some.inj hsome).symm⟩
  refine ⟨⟨fun r hr => ?_, ?_⟩, fun r hr => ?_⟩
  · obtain ⟨loc, hloc, rfl⟩ := hmem r hr
    have := (h.inside anchored loc hloc).1
    dsimp only
    omega
  · refine List.Pairwise.filterMap _ (fun a b hab r hr q hq => ?_) (h.apart anchored)
    split at hr
    · cases hr
    split at hq
    · cases hq
    obtain rfl := Option.some.inj hr
    obtain rfl := Option.some.inj hq
    refine ⟨by dsimp only; omega, fun heq => hab.2 ?_⟩
    have hstart := congrArg MatchRange.start heq
    have hstop := congrArg MatchRange.stop heq
    dsimp only at hstart hstop
    exact Prod.ext (by omega) (by omega)
  · obtain ⟨loc, _, rfl⟩ := hmem r hr
    dsimp only
    omega

end Windows

/-! ## Runs -/

structure Feed where
  chunk : Bytes
  endOffset : Int
  provenance : Option Causal := none

inductive Prime where
  | setScanOffset (off : Int)
  | seedCarry (scanned : Bytes)

def OutputMatch.extent (found : OutputMatch) : MatchRange := ⟨found.start, found.stop⟩

section Runs

-- a bound, not a number to count with
attribute [local irreducible] outputMatchWindowBytes

variable (re : Regexp)

/-- A new matcher after the calls that prime it. -/
def primed (primes : List Prime) : OutputMatcher :=
  primes.foldl (fun m prime =>
    match prime with
    | .setScanOffset off => OutputMatcher.setScanOffset off
    | .seedCarry scanned => m.seedCarry re scanned) {}

def OutputMatcher.feed (m : OutputMatcher) (f : Feed) : List OutputMatch × OutputMatcher :=
  m.feedAtWithProvenance re f.chunk f.endOffset f.provenance

/-- The extents that the feeds report, in turn. -/
def delivered : OutputMatcher → List Feed → List MatchRange
  | _, [] => []
  | m, f :: feeds => (m.feed re f).1.map OutputMatch.extent ++ delivered (m.feed re f).2 feeds

/-- The feed scans a window. -/
def OutputMatcher.Scans (m : OutputMatcher) (f : Feed) : Prop :=
  f.chunk ≠ [] ∧ m.scanOffset < f.endOffset

def OutputMatcher.window (m : OutputMatcher) (f : Feed) : Bytes :=
  m.carry ++ m.unscanned f.chunk f.endOffset

def OutputMatcher.windowStart (m : OutputMatcher) (f : Feed) : Int :=
  f.endOffset - (m.window f).length

/-- Everything the engine finds in the window of a feed. -/
def OutputMatcher.foundIn (m : OutputMatcher) (f : Feed) : List MatchRange :=
  m.scanWindowFresh re (m.window f) (m.windowStart f) m.carry.length

/-- No window begins with an empty match that the engine has found at that offset before. -/
def Clear : OutputMatcher → List MatchRange → List Feed → Prop
  | _, _, [] => True
  | m, found, f :: feeds =>
    (m.Scans f → ⟨m.windowStart f, m.windowStart f⟩ ∈ m.foundIn re f →
      ⟨m.windowStart f, m.windowStart f⟩ ∉ found) ∧
    Clear (m.feed re f).2 (found ++ m.foundIn re f) feeds

/-- What has been reported or covered is still held, or ends before the window. -/
structure Inv (m : OutputMatcher) (past found : List MatchRange) : Prop where
  tidy : Tidy m.reported
  held : ∀ r ∈ past, r ∈ m.reported ∨ r.stop ≤ m.scanOffset - m.carry.length
  found : ∀ r ∈ past, r ∈ found

variable {re}

theorem scanWindow_tidy (h : Ascending re) (window : Bytes) (windowStart : Int) :
    Tidy (scanWindow re window windowStart) := by
  unfold scanWindow
  split
  · exact ⟨fun r hr => (nomatch hr), .nil⟩
  · exact (findMatchRanges_tidy h _ _).1

theorem primed_inv (h : Ascending re) (primes : List Prime) :
    Inv (primed re primes) (primed re primes).reported (primed re primes).reported := by
  have htidy : Tidy (primed re primes).reported := by
    have hkept : ∀ m : OutputMatcher, Tidy m.reported → Tidy (primes.foldl (fun m prime =>
        match prime with
        | .setScanOffset off => OutputMatcher.setScanOffset off
        | .seedCarry scanned => m.seedCarry re scanned) m).reported := by
      induction primes with
      | nil => exact fun m hm => hm
      | cons prime primes ih =>
        intro m hm
        refine ih _ ?_
        cases prime with
        | setScanOffset off => exact ⟨fun r hr => (nomatch hr), .nil⟩
        | seedCarry scanned => exact scanWindow_tidy h _ _
    exact hkept {} ⟨fun r hr => (nomatch hr), .nil⟩
  exact ⟨htidy, fun r hr => Or.inl hr, fun r hr => hr⟩

/-- A window does not begin before what the matcher carries. -/
theorem windowStart_le (m : OutputMatcher) (f : Feed) (h : m.Scans f) :
    m.scanOffset - m.carry.length ≤ m.windowStart f := by
  obtain ⟨_, hlater⟩ := h
  unfold OutputMatcher.windowStart OutputMatcher.window OutputMatcher.unscanned
  rw [length_append]
  dsimp only
  split
  · next hover =>
    rw [length_drop]
    omega
  · omega

theorem foundIn_tidy (h : Ascending re) (m : OutputMatcher) (f : Feed) :
    Tidy (m.foundIn re f) ∧ ∀ r ∈ m.foundIn re f, m.windowStart f ≤ r.start := by
  unfold OutputMatcher.foundIn OutputMatcher.scanWindowFresh
  split
  · exact ⟨⟨fun r hr => (nomatch hr), .nil⟩, fun r hr => (nomatch hr)⟩
  · exact findMatchRanges_tidy h _ _

theorem length_lastBytes_le (n : Nat) (text : Bytes) : (lastBytes n text).length ≤ text.length := by
  unfold lastBytes
  rw [length_drop]
  omega

/-- The extents that a feed reports, and the ranges it holds on to. -/
theorem feed_scans {m : OutputMatcher} {f : Feed} (h : m.Scans f) :
    (m.feed re f).1.map OutputMatch.extent = unreportedRanges (m.foundIn re f) m.reported ∧
      (m.feed re f).2.scanOffset = f.endOffset ∧
      (m.feed re f).2.carry = lastBytes outputMatchWindowBytes (m.window f) ∧
      (m.feed re f).2.reported =
        pruneRanges (mergeRanges m.reported (unreportedRanges (m.foundIn re f) m.reported))
          (f.endOffset - (lastBytes outputMatchWindowBytes (m.window f)).length) := by
  have hgo : ¬ (f.chunk = [] ∨ f.endOffset ≤ m.scanOffset) := by
    rw [not_or, Int.not_le]
    exact h
  unfold OutputMatcher.feed OutputMatcher.feedAtWithProvenance
  rw [if_neg hgo]
  refine ⟨?_, rfl, rfl, rfl⟩
  rw [map_map]
  exact map_id _

theorem feed_skips {m : OutputMatcher} {f : Feed} (h : ¬ m.Scans f) : m.feed re f = ([], m) := by
  have hskip : f.chunk = [] ∨ f.endOffset ≤ m.scanOffset := by
    by_contra hgo
    rw [not_or, Int.not_le] at hgo
    exact h hgo
  unfold OutputMatcher.feed OutputMatcher.feedAtWithProvenance
  rw [if_pos hskip]

/-- What one feed reports, and what it leaves. -/
theorem Inv.feed {m : OutputMatcher} {past found : List MatchRange} (hi : Inv m past found)
    (h : Ascending re) {f : Feed}
    (hclear : m.Scans f → ⟨m.windowStart f, m.windowStart f⟩ ∈ m.foundIn re f →
      ⟨m.windowStart f, m.windowStart f⟩ ∉ found) :
    (∀ a ∈ past, ∀ b ∈ (m.feed re f).1.map OutputMatch.extent, sameOccurrence a b = false) ∧
      ((m.feed re f).1.map OutputMatch.extent).Pairwise (fun a b => sameOccurrence a b = false) ∧
      Inv (m.feed re f).2 (past ++ (m.feed re f).1.map OutputMatch.extent)
        (found ++ m.foundIn re f) := by
  by_cases hscans : m.Scans f
  · obtain ⟨hout, hoffset, hcarry, hreported⟩ := @feed_scans re _ _ hscans
    obtain ⟨htidy, hstart⟩ := foundIn_tidy h m f
    have hwindow := windowStart_le m f hscans
    rw [hout]
    have hfresh := unreportedRanges_eq htidy hi.tidy
    generalize unreportedRanges (m.foundIn re f) m.reported = fresh at hfresh hreported
    have hmem : ∀ r ∈ fresh, r ∈ m.foundIn re f ∧ ∀ q ∈ m.reported, sameOccurrence r q = false := by
      intro r hr
      rw [hfresh, mem_filter] at hr
      refine ⟨hr.1, fun q hq => ?_⟩
      have hnone : m.reported.any (sameOccurrence r) = false := by simpa using hr.2
      simpa using any_eq_false.mp hnone q hq
    have hfreshTidy : Tidy fresh := by
      rw [hfresh]
      exact htidy.sublist filter_sublist
    refine ⟨fun a ha b hb => ?_, hfreshTidy.distinct, ?_, fun r hr => ?_, fun r hr => ?_⟩
    · obtain ⟨hfound, hnew⟩ := hmem b hb
      rw [sameOccurrence_comm]
      rcases hi.held a ha with hheld | hgone
      · exact hnew a hheld
      -- what has left the window is met again only as an empty match at its edge
      · rw [Bool.eq_false_iff]
        intro hsame
        have hbehind := hstart b hfound
        have hforward := htidy.forward b hfound
        rcases sameOccurrence_iff.mp hsame with rfl | ⟨_, hover⟩
        · have hedge : b = ⟨m.windowStart f, m.windowStart f⟩ := by
            obtain ⟨start, stop⟩ := b
            dsimp only at hgone hbehind hforward
            have hstarts : start = m.windowStart f := by omega
            have hstops : stop = m.windowStart f := by omega
            rw [hstarts, hstops]
          rw [hedge] at hfound ha
          exact hclear hscans hfound (hi.found _ ha)
        · omega
    · rw [hreported]
      refine (tidy_merge hi.tidy hfreshTidy fun x hx y hy => ?_).sublist filter_sublist
      rw [sameOccurrence_comm]
      exact (hmem y hy).2 x hx
    · rw [hreported, hoffset, hcarry]
      have hshort := length_lastBytes_le outputMatchWindowBytes (m.window f)
      have hmerged : r ∈ mergeRanges m.reported fresh ∨
          r.stop ≤ m.scanOffset - m.carry.length := by
        rcases mem_append.mp hr with hr | hr
        · rcases hi.held r hr with hheld | hgone
          · exact Or.inl (mem_merge.mpr (Or.inl hheld))
          · exact Or.inr hgone
        · exact Or.inl (mem_merge.mpr (Or.inr hr))
      unfold OutputMatcher.windowStart at hwindow
      rcases hmerged with hheld | hgone
      · by_cases hend : f.endOffset - (lastBytes outputMatchWindowBytes (m.window f)).length < r.stop
        · exact Or.inl (mem_filter.mpr ⟨hheld, by simpa using hend⟩)
        · exact Or.inr (by omega)
      · exact Or.inr (by omega)
    · rcases mem_append.mp hr with hr | hr
      · exact mem_append_left _ (hi.found r hr)
      · exact mem_append_right _ (hmem r hr).1
  · rw [feed_skips hscans]
    refine ⟨fun a _ b hb => (nomatch hb), .nil, ?_⟩
    rw [map_nil, append_nil]
    exact ⟨hi.tidy, hi.held, fun r hr => mem_append_left _ (hi.found r hr)⟩

theorem Inv.run {m : OutputMatcher} {past : List MatchRange} (hi : Inv m past found)
    (h : Ascending re) {feeds : List Feed} (hclear : Clear re m found feeds) :
    (∀ a ∈ past, ∀ b ∈ delivered re m feeds, sameOccurrence a b = false) ∧
      (delivered re m feeds).Pairwise fun a b => sameOccurrence a b = false := by
  induction feeds generalizing m past found with
  | nil => exact ⟨fun a _ b hb => (nomatch hb), .nil⟩
  | cons f feeds ih =>
    obtain ⟨hpast, hout, hnext⟩ := hi.feed h hclear.1
    obtain ⟨hlater, hrest⟩ := ih hnext hclear.2
    refine ⟨fun a ha b hb => ?_, ?_⟩
    · rcases mem_append.mp hb with hb | hb
      · exact hpast a ha b hb
      · exact hlater a (mem_append_left _ ha) b hb
    · exact pairwise_append.mpr
        ⟨hout, hrest, fun a ha b hb => hlater a (mem_append_right _ ha) b hb⟩

/-- Where no window begins with an empty match that was found before, each occurrence is reported
once, and none that a seed covers. -/
theorem occurrences_reported_once (re : Regexp) (h : Ascending re) (primes : List Prime)
    (feeds : List Feed)
    (hclear : Clear re (primed re primes) (primed re primes).reported feeds) :
    (delivered re (primed re primes) feeds).Pairwise (fun a b => sameOccurrence a b = false) ∧
      ∀ a ∈ (primed re primes).reported, ∀ b ∈ delivered re (primed re primes) feeds,
        sameOccurrence a b = false := by
  obtain ⟨hcovered, hpairs⟩ := (primed_inv h primes).run h hclear
  exact ⟨hpairs, hcovered⟩

end Runs

/-! ## A pattern that matches before every text -/

/-- `^` on texts without a newline. -/
def lineStart : Regexp := fun _ => [(0, 0)]

/-- `b` on the texts `ab` and `abab`. -/
def letterB : Regexp := fun text =>
  if text = [97, 98] then [(1, 2)] else if text = [97, 98, 97, 98] then [(1, 2), (3, 4)] else []

theorem letterB_ascending : Ascending letterB where
  inside := by
    intro text loc hloc
    unfold letterB at hloc
    split at hloc
    · next htext =>
      rw [mem_singleton.mp hloc, htext]
      decide
    · split at hloc
      · next htext =>
        rw [htext]
        rcases mem_cons.mp hloc with rfl | hloc
        · decide
        · rw [mem_singleton.mp hloc]
          decide
      · cases hloc
  apart := by
    intro text
    unfold letterB
    split
    · exact pairwise_singleton _ _
    · split
      · decide
      · exact .nil

theorem occurrences_reported_once_letter :
    (delivered letterB (primed letterB [.setScanOffset 2, .seedCarry [97, 98]])
      [⟨[97, 98], 4, none⟩]).Pairwise (fun a b => sameOccurrence a b = false) :=
  (occurrences_reported_once letterB letterB_ascending [.setScanOffset 2, .seedCarry [97, 98]]
    [⟨[97, 98], 4, none⟩] ⟨fun _ => by decide, trivial⟩).1

/-- An empty match at the edge of the window leaves the list of reported ones and is met again. -/
theorem edge_reported_twice :
    delivered lineStart (primed lineStart []) [⟨[97], 1, none⟩, ⟨[98], 2, none⟩] =
        [⟨0, 0⟩, ⟨0, 0⟩] ∧
      sameOccurrence ⟨0, 0⟩ ⟨0, 0⟩ = true := by
  have hfirst : (OutputMatcher.feed lineStart {} ⟨[97], 1, none⟩).2 =
      { carry := [97], scanOffset := 1 } := by
    unfold OutputMatcher.feed OutputMatcher.feedAtWithProvenance mergeRanges
    dsimp only
    rw [nil_merge]
    decide
  have hprimed : primed lineStart [] = {} := rfl
  refine ⟨?_, by decide⟩
  rw [hprimed]
  unfold delivered
  rw [hfirst]
  decide

end Evener.Jobstore
