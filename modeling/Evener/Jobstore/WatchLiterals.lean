/-
  Watches for a literal: the rolling window reports every occurrence once, however the output is
  cut into chunks, and the level scan finds the last one.
-/
import Evener.Jobstore.Watch

namespace Evener.Jobstore

open Evener.Lib List

/-! ## The level scan -/

section Retained

variable (re : Regexp) (data : Bytes)

/-- One window of `ScanRetained`, the one that begins with stride `k`. -/
def scanStride (k : Nat) : Option Bytes :=
  let start := k * outputMatchWindowBytes
  let window := (data.take (start + 2 * outputMatchWindowBytes)).drop start
  let anchored := anchorBytes window
  if re anchored = [] then none
  else
    (findMatchRanges re anchored start).getLast?.map fun r : MatchRange =>
      matchExcerpt window (r.start - (start : Int)).toNat

def scanRetainedFrom : Nat → Option Bytes
  | 0 => scanStride re data 0
  | k + 1 => (scanStride re data (k + 1)).or (scanRetainedFrom k)

/-- `ScanRetained`; no excerpt where nothing is matched. -/
def scanRetained : Option Bytes :=
  if data = [] then none
  else scanRetainedFrom re data ((data.length - 1) / outputMatchWindowBytes)

end Retained

/-! ## Literals -/

/-- The leftmost occurrences, none over another; `skip` bytes belong to the one before. -/
def literalFrom (literal : Bytes) : Nat → Nat → Bytes → List (Nat × Nat)
  | i, skip, [] => if skip = 0 ∧ literal = [] then [(i, i)] else []
  | i, 0, b :: rest =>
    if literal.isPrefixOf (b :: rest) then
      (i, i + literal.length) :: literalFrom literal (i + 1) (literal.length - 1) rest
    else literalFrom literal (i + 1) 0 rest
  | i, skip + 1, _ :: rest => literalFrom literal (i + 1) skip rest

/-- `FindAllIndex` of a literal. -/
def literalRegexp (literal : Bytes) : Regexp := literalFrom literal 0 0

def Occurs (literal text : Bytes) (i : Nat) : Prop := literal <+: text.drop i

/-- No beginning of the literal, short of all of it, is also its end. -/
def Borderless (literal : Bytes) : Prop :=
  ∀ k, 0 < k → k < literal.length → literal.take k ≠ literal.drop (literal.length - k)

/-- A literal that does not begin a line or end one. -/
def InLine (literal : Bytes) : Prop := carriageReturn ∉ literal ∧ newline ∉ literal

variable {i k : Nat} {r : MatchRange}

section Literal

variable {literal text : Bytes}

theorem Occurs.inside (h : Occurs literal text i) (hne : literal ≠ []) :
    i + literal.length ≤ text.length := by
  have hlength := List.IsPrefix.length_le h
  have hpos := length_pos_of_ne_nil hne
  rw [length_drop] at hlength
  omega

/-- Two occurrences of a literal without a border lie apart. -/
theorem Borderless.apart (hb : Borderless literal) {j : Nat} (hi : Occurs literal text i)
    (hj : Occurs literal text j) (hlt : i < j) : i + literal.length ≤ j := by
  by_contra hover
  obtain ⟨after, hafter⟩ := hi
  have hdrop : text.drop j = literal.drop (j - i) ++ after := by
    have hsplit : j = i + (j - i) := by omega
    rw [hsplit, ← drop_drop, ← hafter, drop_append_of_le_length (by omega)]
    congr 2
    omega
  unfold Occurs at hj
  rw [hdrop] at hj
  have htake : literal.take (literal.length - (j - i)) = literal.drop (j - i) := by
    obtain ⟨more, hmore⟩ := hj
    have hlength : (literal.drop (j - i)).length = literal.length - (j - i) := length_drop
    have hboth := congrArg (List.take (literal.length - (j - i))) hmore
    rw [take_append_of_le_length (by omega), take_append_of_le_length (by omega),
      take_of_length_le (l := literal.drop (j - i)) (by omega)] at hboth
    exact hboth
  refine hb (literal.length - (j - i)) (by omega) (by omega) ?_
  rw [htake]
  congr 1
  omega

theorem mem_literalFrom (hne : literal ≠ []) (hb : Borderless literal) {a b : Nat} :
    ∀ {rest : Bytes} {i skip : Nat}, (∀ d < skip, ¬ Occurs literal rest d) →
    ((a, b) ∈ literalFrom literal i skip rest ↔
      ∃ d, a = i + d ∧ b = a + literal.length ∧ Occurs literal rest d)
  | [], i, skip, _ => by
    have hnone : ∀ d, ¬ Occurs literal [] d := by
      intro d hd
      have hinside := hd.inside hne
      have hpos := length_pos_of_ne_nil hne
      rw [length_nil] at hinside
      omega
    simp [literalFrom, hne, hnone]
  | c :: rest, i, 0, _ => by
    have hlater : ∀ d, Occurs literal (c :: rest) (d + 1) ↔ Occurs literal rest d := fun d => Iff.rfl
    have hshift : (∃ d, a = i + d ∧ b = a + literal.length ∧ Occurs literal (c :: rest) d) ↔
        ((a = i ∧ b = a + literal.length ∧ Occurs literal (c :: rest) 0) ∨
          ∃ d, a = i + 1 + d ∧ b = a + literal.length ∧ Occurs literal rest d) := by
      constructor
      · rintro ⟨d, ha, hb', hd⟩
        cases d with
        | zero => exact .inl ⟨ha, hb', hd⟩
        | succ d => exact .inr ⟨d, by omega, hb', hd⟩
      · rintro (⟨ha, hb', hd⟩ | ⟨d, ha, hb', hd⟩)
        · exact ⟨0, ha, hb', hd⟩
        · exact ⟨d + 1, by omega, hb', hd⟩
    rw [hshift, literalFrom]
    by_cases hhere : Occurs literal (c :: rest) 0
    · have hprefix : literal.isPrefixOf (c :: rest) = true := isPrefixOf_iff_prefix.mpr hhere
      have hskipped : ∀ d < literal.length - 1, ¬ Occurs literal rest d := by
        intro d hd hocc
        have happart := hb.apart hhere ((hlater d).mpr hocc) (Nat.succ_pos d)
        omega
      rw [if_pos hprefix, mem_cons, Prod.mk.injEq, mem_literalFrom hne hb hskipped]
      constructor
      · rintro (⟨rfl, rfl⟩ | hrest)
        · exact .inl ⟨rfl, rfl, hhere⟩
        · exact .inr hrest
      · rintro (⟨rfl, rfl, -⟩ | hrest)
        · exact .inl ⟨rfl, rfl⟩
        · exact .inr hrest
    · have hprefix : ¬ literal.isPrefixOf (c :: rest) = true :=
        fun h => hhere ( isPrefixOf_iff_prefix.mp h)
      rw [if_neg hprefix, mem_literalFrom hne hb (fun d hd => absurd hd (Nat.not_lt_zero d))]
      constructor
      · exact .inr
      · rintro (⟨-, -, hocc⟩ | hrest)
        · exact absurd hocc hhere
        · exact hrest
  | c :: rest, i, skip + 1, hskip => by
    have hskipped : ∀ d < skip, ¬ Occurs literal rest d :=
      fun d hd => hskip (d + 1) (Nat.succ_lt_succ hd)
    rw [literalFrom, mem_literalFrom hne hb hskipped]
    constructor
    · rintro ⟨d, ha, hb', hd⟩
      exact ⟨d + 1, by omega, hb', hd⟩
    · rintro ⟨d, ha, hb', hd⟩
      cases d with
      | zero => exact absurd hd (hskip 0 (Nat.succ_pos skip))
      | succ d => exact ⟨d, by omega, hb', hd⟩

theorem mem_literalRegexp (hne : literal ≠ []) (hb : Borderless literal) {a b : Nat} :
    (a, b) ∈ literalRegexp literal text ↔ b = a + literal.length ∧ Occurs literal text a := by
  rw [literalRegexp, mem_literalFrom hne hb fun d hd => absurd hd (Nat.not_lt_zero d)]
  constructor
  · rintro ⟨d, ha, hb', hd⟩
    have hsame : d = a := by omega
    exact ⟨hb', hsame ▸ hd⟩
  · rintro ⟨hb', ha⟩
    exact ⟨a, by omega, hb', ha⟩

theorem literalFrom_behind (hne : literal ≠ []) : ∀ (rest : Bytes) (i skip : Nat),
    (∀ loc ∈ literalFrom literal i skip rest, i + skip ≤ loc.1 ∧ loc.1 < loc.2) ∧
      (literalFrom literal i skip rest).Pairwise fun a b => a.2 ≤ b.1 ∧ a ≠ b
  | [], i, skip => by simp [literalFrom, hne]
  | c :: rest, i, 0 => by
    have hpos := length_pos_of_ne_nil hne
    rw [literalFrom]
    split
    · obtain ⟨hmem, hpair⟩ := literalFrom_behind hne rest (i + 1) (literal.length - 1)
      refine ⟨?_, pairwise_cons.mpr ⟨?_, hpair⟩⟩
      · intro loc hloc
        rcases mem_cons.mp hloc with rfl | hloc
        · exact ⟨by omega, by dsimp only; omega⟩
        · have hbehind := hmem loc hloc
          omega
      · intro loc hloc
        have hbehind := hmem loc hloc
        refine ⟨by dsimp only; omega, ?_⟩
        rintro rfl
        omega
    · obtain ⟨hmem, hpair⟩ := literalFrom_behind hne rest (i + 1) 0
      refine ⟨fun loc hloc => ?_, hpair⟩
      have hbehind := hmem loc hloc
      omega
  | c :: rest, i, skip + 1 => by
    rw [literalFrom]
    obtain ⟨hmem, hpair⟩ := literalFrom_behind hne rest (i + 1) skip
    refine ⟨fun loc hloc => ?_, hpair⟩
    have hbehind := hmem loc hloc
    omega

theorem literal_ascending (hne : literal ≠ []) (hb : Borderless literal) :
    Ascending (literalRegexp literal) where
  inside := by
    intro text loc hloc
    obtain ⟨hstop, hocc⟩ := (mem_literalRegexp hne hb).mp hloc
    have hinside := hocc.inside hne
    omega
  apart := fun text => (literalFrom_behind hne text 0 0).2

/-- The engine does not tell a rewritten window from the window. -/
theorem isPrefixOf_rewriteCRLF : ∀ {literal : Bytes}, InLine literal → ∀ w : Bytes,
    literal.isPrefixOf (rewriteCRLF w) = literal.isPrefixOf w
  | [], _, w => by simp [List.isPrefixOf]
  | l :: literal, _, [] => rfl
  | l :: literal, h, b :: w => by
    obtain ⟨hcr, hlf⟩ := h
    rw [mem_cons, not_or] at hcr hlf
    rw [rewriteCRLF, List.isPrefixOf, List.isPrefixOf,
      isPrefixOf_rewriteCRLF ⟨hcr.2, hlf.2⟩ w]
    split
    · next hcrlf =>
      have hleft : (l == newline) = false := beq_eq_false_iff_ne.mpr (Ne.symm hlf.1)
      have hright : (l == b) = false := by
        rw [hcrlf.1]
        exact beq_eq_false_iff_ne.mpr (Ne.symm hcr.1)
      rw [hleft, hright]
    · rfl

theorem literalFrom_rewriteCRLF (h : InLine literal) : ∀ (w : Bytes) (i skip : Nat),
    literalFrom literal i skip (rewriteCRLF w) = literalFrom literal i skip w
  | [], _, _ => rfl
  | b :: w, i, 0 => by
    have hprefix := isPrefixOf_rewriteCRLF h (b :: w)
    rw [rewriteCRLF] at hprefix ⊢
    rw [literalFrom, literalFrom, hprefix, literalFrom_rewriteCRLF h w,
      literalFrom_rewriteCRLF h w]
  | b :: w, i, skip + 1 => by
    rw [rewriteCRLF, literalFrom, literalFrom, literalFrom_rewriteCRLF h w]

theorem literalRegexp_anchored (h : InLine literal) (w : Bytes) :
    literalRegexp literal (anchorBytes w) = literalRegexp literal w := by
  unfold anchorBytes
  split
  · exact literalFrom_rewriteCRLF h w 0 0
  · rfl

end Literal

/-! ## Windows of a stream -/

section Stream

-- a bound, not a number to count with
attribute [local irreducible] outputMatchWindowBytes

variable {literal : Bytes}

def extentAt (literal : Bytes) (i : Nat) : MatchRange := ⟨i, i + literal.length⟩

/-- A watch can report the literal, and finds its occurrences by itself. -/
structure Plain (literal : Bytes) : Prop where
  nonempty : literal ≠ []
  short : literal.length ≤ outputMatchWindowBytes
  inLine : InLine literal
  borderless : Borderless literal

theorem Occurs.of_append {text more : Bytes} {i : Nat} (h : Occurs literal text i) :
    Occurs literal (text ++ more) i := by
  unfold Occurs at h ⊢
  rw [drop_append]
  exact h.trans (prefix_append _ _)

theorem occurs_append_iff {text more : Bytes} (hin : i + literal.length ≤ text.length) :
    Occurs literal (text ++ more) i ↔ Occurs literal text i := by
  refine ⟨fun h => ?_, Occurs.of_append⟩
  unfold Occurs at h ⊢
  rw [drop_append_of_le_length (by omega)] at h
  exact prefix_of_prefix_length_le h (prefix_append _ _) (by
    rw [length_drop]
    omega)

/-- What the engine finds in a window that begins anywhere in the stream. -/
theorem mem_findMatchRanges (hp : Plain literal) {window : Bytes} {windowStart : Int} :
    r ∈ findMatchRanges (literalRegexp literal) window windowStart ↔
      ∃ d : Nat, Occurs literal window d ∧
        r = ⟨windowStart + d, windowStart + d + literal.length⟩ := by
  have hpos := length_pos_of_ne_nil hp.nonempty
  have hshort := hp.short
  unfold findMatchRanges
  split
  · next hempty =>
    constructor
    · exact fun h => nomatch h
    · rintro ⟨d, hd, -⟩
      have hinside := hd.inside hp.nonempty
      rw [hempty, length_nil] at hinside
      omega
  · rw [mem_filterMap]
    constructor
    · rintro ⟨⟨a, b⟩, hloc, hr⟩
      obtain ⟨rfl, hocc⟩ := (mem_literalRegexp hp.nonempty hp.borderless).mp hloc
      rw [if_neg (by omega)] at hr
      obtain rfl := Option.some.inj hr
      refine ⟨a, hocc, ?_⟩
      rw [Int.natCast_add, Int.add_assoc]
    · rintro ⟨d, hd, rfl⟩
      refine ⟨(d, d + literal.length),
        (mem_literalRegexp hp.nonempty hp.borderless).mpr ⟨rfl, hd⟩, ?_⟩
      rw [if_neg (by omega), Int.natCast_add, Int.add_assoc]

theorem findMatchRanges_anchorBytes (hp : Plain literal) (window : Bytes) (windowStart : Int) :
    findMatchRanges (literalRegexp literal) (anchorBytes window) windowStart =
      findMatchRanges (literalRegexp literal) window windowStart := by
  have hempty : anchorBytes window = [] ↔ window = [] := by
    unfold anchorBytes
    split
    · cases window <;> simp [rewriteCRLF]
    · rfl
  unfold findMatchRanges
  rw [literalRegexp_anchored hp.inLine]
  simp only [hempty]

theorem foundIn_eq (hp : Plain literal) (m : OutputMatcher) (f : Feed) :
    m.foundIn (literalRegexp literal) f =
      findMatchRanges (literalRegexp literal) (m.window f) (m.windowStart f) := by
  unfold OutputMatcher.foundIn OutputMatcher.scanWindowFresh
  split
  · next hempty => simp [findMatchRanges, hempty]
  · unfold OutputMatcher.anchoredFresh
    split
    · rfl
    · exact findMatchRanges_anchorBytes hp _ _

/-- The matcher has read `text` and holds what it found near the end of it. -/
structure Follows (literal text : Bytes) (m : OutputMatcher) : Prop where
  scanOffset : m.scanOffset = text.length
  carry : m.carry = text.drop (text.length - outputMatchWindowBytes)
  tidy : Tidy m.reported
  reported : ∀ r, r ∈ m.reported ↔ ∃ i, Occurs literal text i ∧ r = extentAt literal i ∧
    text.length - outputMatchWindowBytes < i + literal.length

theorem follows_nil (hp : Plain literal) : Follows literal [] {} where
  scanOffset := rfl
  carry := drop_nil.symm
  tidy := ⟨fun r hr => (nomatch hr), .nil⟩
  reported := by
    intro r
    constructor
    · exact fun hr => nomatch hr
    · rintro ⟨i, hi, -⟩
      have hinside := hi.inside hp.nonempty
      have hpos := length_pos_of_ne_nil hp.nonempty
      rw [length_nil] at hinside
      omega

/-- A chunk behind everything that has been read. -/
def nextFeed (text chunk : Bytes) (p : Option Causal) : Feed :=
  ⟨chunk, (text.length + chunk.length : Nat), p⟩

section Step

variable {text chunk : Bytes} {m : OutputMatcher}

theorem Follows.scans (h : Follows literal text m) (hchunk : chunk ≠ []) (p : Option Causal) :
    m.Scans (nextFeed text chunk p) := by
  have hpos := length_pos_of_ne_nil hchunk
  refine ⟨hchunk, ?_⟩
  rw [h.scanOffset]
  unfold nextFeed
  dsimp only
  omega

/-- The window of a feed is the end of the stream. -/
theorem Follows.window (h : Follows literal text m) (p : Option Causal) :
    m.window (nextFeed text chunk p) =
      (text ++ chunk).drop (text.length - outputMatchWindowBytes) := by
  have hstart : ¬ ((text.length + chunk.length : Nat) : Int) - chunk.length < text.length := by omega
  unfold OutputMatcher.window OutputMatcher.unscanned nextFeed
  rw [h.scanOffset, if_neg hstart, h.carry, drop_append_of_le_length (Nat.sub_le _ _)]

theorem Follows.windowStart (h : Follows literal text m) (p : Option Causal) :
    m.windowStart (nextFeed text chunk p) =
      (text.length - outputMatchWindowBytes : Nat) := by
  unfold OutputMatcher.windowStart
  rw [h.window, length_drop, length_append]
  unfold nextFeed
  dsimp only
  omega

theorem Follows.mem_foundIn (h : Follows literal text m) (hp : Plain literal) (p : Option Causal) :
    r ∈ m.foundIn (literalRegexp literal) (nextFeed text chunk p) ↔
      ∃ i, Occurs literal (text ++ chunk) i ∧ r = extentAt literal i ∧
        text.length - outputMatchWindowBytes ≤ i := by
  rw [foundIn_eq hp, mem_findMatchRanges hp, h.window, h.windowStart]
  constructor
  · rintro ⟨d, hd, rfl⟩
    refine ⟨text.length - outputMatchWindowBytes + d, ?_, ?_, Nat.le_add_right _ _⟩
    · unfold Occurs at hd ⊢
      rwa [drop_drop] at hd
    · rw [extentAt, Int.natCast_add]
  · rintro ⟨i, hi, rfl, hle⟩
    refine ⟨i - (text.length - outputMatchWindowBytes), ?_, ?_⟩
    · unfold Occurs at hi ⊢
      rw [drop_drop, Nat.add_sub_cancel' hle]
      exact hi
    · unfold extentAt
      congr 1 <;> omega

/-- A feed reports what ends in its chunk. -/
theorem Follows.mem_fresh (h : Follows literal text m) (hp : Plain literal) (p : Option Causal)
    {r : MatchRange} :
    r ∈ unreportedRanges (m.foundIn (literalRegexp literal) (nextFeed text chunk p)) m.reported ↔
      ∃ i, Occurs literal (text ++ chunk) i ∧ r = extentAt literal i ∧
        text.length < i + literal.length := by
  have hasc := literal_ascending hp.nonempty hp.borderless
  have hpos := length_pos_of_ne_nil hp.nonempty
  have hshort := hp.short
  rw [unreportedRanges_eq (foundIn_tidy hasc m _).1 h.tidy, mem_filter, h.mem_foundIn hp,
    Bool.not_eq_true', any_eq_false]
  constructor
  · rintro ⟨⟨i, hi, rfl, hle⟩, hnew⟩
    refine ⟨i, hi, rfl, ?_⟩
    by_contra hold
    have hread : Occurs literal text i := (occurs_append_iff (by omega)).mp hi
    have hin : extentAt literal i ∈ m.reported := (h.reported _).mpr ⟨i, hread, rfl, by omega⟩
    exact hnew _ hin (sameOccurrence_iff.mpr (.inl rfl))
  · rintro ⟨i, hi, rfl, hlate⟩
    refine ⟨⟨i, hi, rfl, by omega⟩, ?_⟩
    intro q hq hsame
    obtain ⟨j, hj, rfl, -⟩ := (h.reported q).mp hq
    have hjin := hj.inside hp.nonempty
    have hij : j < i := by omega
    have happart := hp.borderless.apart (@Occurs.of_append literal text chunk j hj) hi hij
    rcases sameOccurrence_iff.mp hsame with heq | ⟨hover, -⟩
    · have hstart := congrArg MatchRange.start heq
      unfold extentAt at hstart
      dsimp only at hstart
      omega
    · unfold extentAt at hover
      dsimp only at hover
      omega

theorem Follows.feed (h : Follows literal text m) (hp : Plain literal) (hchunk : chunk ≠ [])
    (p : Option Causal) :
    Follows literal (text ++ chunk) (m.feed (literalRegexp literal) (nextFeed text chunk p)).2 := by
  obtain ⟨-, hoffset, hcarry, hreported⟩ :=
    @feed_scans (literalRegexp literal) _ _ (h.scans hchunk p)
  have hasc := literal_ascending hp.nonempty hp.borderless
  have hnewCarry : lastBytes outputMatchWindowBytes (m.window (nextFeed text chunk p)) =
      (text ++ chunk).drop ((text ++ chunk).length - outputMatchWindowBytes) := by
    rw [h.window, lastBytes, drop_drop, length_drop, length_append]
    congr 1
    omega
  have hfresh := fun r => @Follows.mem_fresh literal text chunk m h hp p r
  have hfreshTidy : Tidy (unreportedRanges
      (m.foundIn (literalRegexp literal) (nextFeed text chunk p)) m.reported) := by
    rw [unreportedRanges_eq (foundIn_tidy hasc m _).1 h.tidy]
    exact (foundIn_tidy hasc m _).1.sublist filter_sublist
  have happart : ∀ x ∈ m.reported, ∀ y ∈ unreportedRanges
      (m.foundIn (literalRegexp literal) (nextFeed text chunk p)) m.reported,
      sameOccurrence x y = false := by
    intro x hx y hy
    rw [unreportedRanges_eq (foundIn_tidy hasc m _).1 h.tidy, mem_filter, Bool.not_eq_true',
      any_eq_false] at hy
    rw [sameOccurrence_comm]
    simpa using hy.2 x hx
  constructor
  · rw [hoffset]
    unfold nextFeed
    rw [length_append]
  · rw [hcarry, hnewCarry]
  · rw [hreported]
    exact (tidy_merge h.tidy hfreshTidy happart).sublist filter_sublist
  · intro r
    rw [hreported, hnewCarry, pruneRanges, mem_filter, mergeRanges, mem_merge, h.reported,
      hfresh, length_drop]
    have hend : (nextFeed text chunk p).endOffset = ((text ++ chunk).length : Int) := by
      rw [length_append]
      rfl
    rw [hend, decide_eq_true_eq]
    have hlength : (text ++ chunk).length = text.length + chunk.length := length_append
    constructor
    · rintro ⟨⟨i, hi, rfl, -⟩ | ⟨i, hi, rfl, -⟩, hin⟩
      · refine ⟨i, hi.of_append, rfl, ?_⟩
        unfold extentAt at hin
        dsimp only at hin
        omega
      · refine ⟨i, hi, rfl, ?_⟩
        unfold extentAt at hin
        dsimp only at hin
        omega
    · rintro ⟨i, hi, rfl, hlate⟩
      refine ⟨?_, ?_⟩
      · by_cases hread : i + literal.length ≤ text.length
        · exact .inl ⟨i, (occurs_append_iff hread).mp hi, rfl, by omega⟩
        · exact .inr ⟨i, hi, rfl, by omega⟩
      · unfold extentAt
        dsimp only
        omega

end Step

/-- `Feed`, whose byte counter tells the offset a chunk ends at, chunk after chunk. -/
def feedsFrom : Nat → List (Bytes × Option Causal) → List Feed
  | _, [] => []
  | feedOffset, (chunk, p) :: chunks =>
    ⟨chunk, (feedOffset + chunk.length : Nat), p⟩ :: feedsFrom (feedOffset + chunk.length) chunks

def streamOf (chunks : List (Bytes × Option Causal)) : Bytes := (chunks.map Prod.fst).flatten

theorem Follows.run (hp : Plain literal) : ∀ (chunks : List (Bytes × Option Causal)) {text : Bytes}
    {m : OutputMatcher}, Follows literal text m →
    (∀ r, r ∈ delivered (literalRegexp literal) m (feedsFrom text.length chunks) ↔
      ∃ i, Occurs literal (text ++ streamOf chunks) i ∧ r = extentAt literal i ∧
        text.length < i + literal.length) ∧
    (delivered (literalRegexp literal) m (feedsFrom text.length chunks)).Pairwise
      fun a b => a.stop ≤ b.start
  | [], text, m, _ => by
    refine ⟨fun r => ?_, .nil⟩
    constructor
    · exact fun hr => nomatch hr
    · rintro ⟨i, hi, -, hlate⟩
      have hinside := hi.inside hp.nonempty
      simp only [streamOf, map_nil, flatten_nil, append_nil] at hinside
      omega
  | (chunk, p) :: chunks, text, m, h => by
    have hstream : text ++ streamOf ((chunk, p) :: chunks) = (text ++ chunk) ++ streamOf chunks := by
      simp [streamOf]
    have hlength : (text ++ chunk).length = text.length + chunk.length := length_append
    rw [hstream, feedsFrom, delivered]
    by_cases hchunk : chunk = []
    · have hskip : ¬ m.Scans (nextFeed text chunk p) := fun hscans => hscans.1 hchunk
      have hfeed := @feed_skips (literalRegexp literal) _ _ hskip
      have hrest := Follows.run hp chunks h
      unfold nextFeed at hfeed
      rw [hfeed, hchunk, append_nil, length_nil, Nat.add_zero]
      exact hrest
    · have hnext := h.feed hp hchunk p
      have hout := (@feed_scans (literalRegexp literal) _ _ (h.scans hchunk p)).1
      obtain ⟨hmem, hpair⟩ := Follows.run hp chunks hnext
      have hfresh := fun r => @Follows.mem_fresh literal text chunk m h hp p r
      have hasc := literal_ascending hp.nonempty hp.borderless
      unfold nextFeed at hnext hout hmem hpair hfresh
      rw [hlength] at hmem hpair
      rw [hout]
      constructor
      · intro r
        rw [mem_append, hfresh, hmem]
        constructor
        · rintro (⟨i, hi, hr, hlate⟩ | ⟨i, hi, hr, hlate⟩)
          · exact ⟨i, hi.of_append, hr, hlate⟩
          · exact ⟨i, hi, hr, by omega⟩
        · rintro ⟨i, hi, hr, hlate⟩
          by_cases hread : i + literal.length ≤ (text ++ chunk).length
          · exact .inl ⟨i, (occurs_append_iff hread).mp hi, hr, hlate⟩
          · exact .inr ⟨i, hi, hr, by omega⟩
      · refine pairwise_append.mpr ⟨?_, hpair, ?_⟩
        · rw [unreportedRanges_eq (foundIn_tidy hasc m _).1 h.tidy]
          exact (((foundIn_tidy hasc m _).1.sublist filter_sublist).apart).imp fun hab => hab.1
        · intro a ha b hb
          obtain ⟨i, hi, rfl, -⟩ := (hfresh a).mp ha
          obtain ⟨j, hj, rfl, hlate⟩ := (hmem b).mp hb
          have hinside := hi.inside hp.nonempty
          have happart := hp.borderless.apart hi.of_append hj (by omega)
          unfold extentAt
          dsimp only
          omega

/-! ## The last occurrence -/

section Scan

variable {data : Bytes}

/-- The window of stride `k`. -/
def strideWindow (data : Bytes) (k : Nat) : Bytes :=
  (data.take (k * outputMatchWindowBytes + 2 * outputMatchWindowBytes)).drop
    (k * outputMatchWindowBytes)

theorem occurs_strideWindow (hp : Plain literal) {d : Nat} :
    Occurs literal (strideWindow data k) d ↔
      Occurs literal data (k * outputMatchWindowBytes + d) ∧
        d + literal.length ≤ 2 * outputMatchWindowBytes := by
  have hpos := length_pos_of_ne_nil hp.nonempty
  have hwindow : (strideWindow data k).drop d =
      (data.drop (k * outputMatchWindowBytes + d)).take (2 * outputMatchWindowBytes - d) := by
    rw [strideWindow, drop_drop, drop_take]
    congr 1
    omega
  unfold Occurs
  rw [hwindow, prefix_take_iff]
  constructor
  · rintro ⟨hocc, hfits⟩
    exact ⟨hocc, by omega⟩
  · rintro ⟨hocc, hfits⟩
    exact ⟨hocc, by omega⟩

theorem mem_strideRanges (hp : Plain literal) :
    r ∈ findMatchRanges (literalRegexp literal) (strideWindow data k)
        (k * outputMatchWindowBytes : Nat) ↔
      ∃ i, Occurs literal data i ∧ r = extentAt literal i ∧ k * outputMatchWindowBytes ≤ i ∧
        i + literal.length ≤ k * outputMatchWindowBytes + 2 * outputMatchWindowBytes := by
  rw [mem_findMatchRanges hp]
  constructor
  · rintro ⟨d, hd, rfl⟩
    obtain ⟨hocc, hfits⟩ := (occurs_strideWindow hp).mp hd
    refine ⟨_, hocc, ?_, Nat.le_add_right _ _, by omega⟩
    rw [extentAt, Int.natCast_add]
  · rintro ⟨i, hi, rfl, hle, hfits⟩
    refine ⟨i - k * outputMatchWindowBytes, (occurs_strideWindow hp).mpr ⟨?_, by omega⟩, ?_⟩
    · rwa [Nat.add_sub_cancel' hle]
    · unfold extentAt
      congr 1 <;> omega

theorem scanStride_eq (hp : Plain literal) (k : Nat) :
    scanStride (literalRegexp literal) data k =
      (findMatchRanges (literalRegexp literal) (strideWindow data k)
        (k * outputMatchWindowBytes : Nat)).getLast?.map fun r : MatchRange =>
          matchExcerpt (strideWindow data k)
            (r.start - (k * outputMatchWindowBytes : Nat)).toNat := by
  unfold scanStride
  dsimp only
  rw [show (data.take (k * outputMatchWindowBytes + 2 * outputMatchWindowBytes)).drop
    (k * outputMatchWindowBytes) = strideWindow data k from rfl, findMatchRanges_anchorBytes hp,
    literalRegexp_anchored hp.inLine]
  split
  · next hnone => simp [findMatchRanges, hnone]
  · rfl

/-- A window without an occurrence is passed. -/
theorem scanStride_none (hp : Plain literal)
    (h : ∀ i, Occurs literal data i → i < k * outputMatchWindowBytes) :
    scanStride (literalRegexp literal) data k = none := by
  have hnone : findMatchRanges (literalRegexp literal) (strideWindow data k)
      (k * outputMatchWindowBytes : Nat) = [] := by
    rw [eq_nil_iff_forall_not_mem]
    intro r hr
    obtain ⟨i, hi, -, hle, -⟩ := (mem_strideRanges hp).mp hr
    exact absurd (h i hi) (Nat.not_lt.mpr hle)
  rw [scanStride_eq hp, hnone]
  rfl

theorem getLast?_of_last {ranges : List MatchRange} (h : Tidy ranges) {x : MatchRange}
    (hx : x ∈ ranges) (hwide : x.start < x.stop) (hlast : ∀ y ∈ ranges, y.start ≤ x.start) :
    ranges.getLast? = some x := by
  obtain ⟨init, last, rfl⟩ : ∃ init last, ranges = init ++ [last] :=
    ⟨ranges.dropLast, ranges.getLast (ne_nil_of_mem hx),
      (dropLast_append_getLast _).symm⟩
  rw [getLast?_concat]
  rcases mem_append.mp hx with hin | hin
  · have happart := (pairwise_append.mp h.apart).2.2 x hin last (mem_singleton.mpr rfl)
    have hle := hlast last (mem_append_right _ (mem_singleton.mpr rfl))
    omega
  · rw [mem_singleton.mp hin]

def LastOccurrence (literal data : Bytes) (i : Nat) : Prop :=
  Occurs literal data i ∧ ∀ j, Occurs literal data j → j ≤ i

theorem scanStride_last (hp : Plain literal) (h : LastOccurrence literal data i)
    (hle : k * outputMatchWindowBytes ≤ i)
    (hlt : i < k * outputMatchWindowBytes + outputMatchWindowBytes) :
    scanStride (literalRegexp literal) data k =
      some (matchExcerpt (strideWindow data k) (i - k * outputMatchWindowBytes)) := by
  have hshort := hp.short
  have hpos := length_pos_of_ne_nil hp.nonempty
  have htidy := (findMatchRanges_tidy (literal_ascending hp.nonempty hp.borderless)
    (strideWindow data k) (k * outputMatchWindowBytes : Nat)).1
  have hin := (mem_strideRanges hp (k := k)).mpr ⟨i, h.1, rfl, hle, by omega⟩
  have hwide : (extentAt literal i).start < (extentAt literal i).stop := by
    unfold extentAt
    dsimp only
    omega
  have hlast := getLast?_of_last htidy hin hwide (by
    intro y hy
    obtain ⟨j, hj, rfl, -⟩ := (mem_strideRanges hp).mp hy
    have hji := h.2 j hj
    unfold extentAt
    dsimp only
    omega)
  rw [scanStride_eq hp, hlast, Option.map_some, extentAt]
  dsimp only
  congr 2
  omega

/-- The walk passes the strides behind the last occurrence. -/
theorem scanRetainedFrom_last (hp : Plain literal) (h : LastOccurrence literal data i)
    (hle : k * outputMatchWindowBytes ≤ i)
    (hlt : i < k * outputMatchWindowBytes + outputMatchWindowBytes) :
    ∀ more, scanRetainedFrom (literalRegexp literal) data (k + more) =
      some (matchExcerpt (strideWindow data k) (i - k * outputMatchWindowBytes)) 
  | 0 => by
    have hhere := scanStride_last hp h hle hlt
    cases k with
    | zero => exact hhere
    | succ k =>
      rw [Nat.add_zero, scanRetainedFrom, hhere]
      rfl
  | more + 1 => by
    have hpass : scanStride (literalRegexp literal) data (k + more + 1) = none := by
      apply scanStride_none hp
      intro j hj
      have hji := h.2 j hj
      have hstride : (k + 1) * outputMatchWindowBytes ≤ (k + more + 1) * outputMatchWindowBytes :=
        Nat.mul_le_mul_right _ (by omega)
      rw [Nat.add_mul, Nat.one_mul] at hstride
      omega
    rw [← Nat.add_assoc, scanRetainedFrom, hpass, Option.none_or]
    exact scanRetainedFrom_last hp h hle hlt more

theorem scanRetainedFrom_none (hp : Plain literal) (h : ∀ i, ¬ Occurs literal data i) :
    ∀ k, scanRetainedFrom (literalRegexp literal) data k = none
  | 0 => scanStride_none hp fun i hi => absurd hi (h i)
  | k + 1 => by
    rw [scanRetainedFrom, scanStride_none hp fun i hi => absurd hi (h i), Option.none_or]
    exact scanRetainedFrom_none hp h k

end Scan

/-! ## The whole stream -/

/-- The feeds report the occurrences, each once, and the level scan finds the last one. -/
structure SeesEvery (literal : Bytes) (chunks : List (Bytes × Option Causal)) : Prop where
  delivered : ∀ r, r ∈ delivered (literalRegexp literal) {} (feedsFrom 0 chunks) ↔
    ∃ i ≤ (streamOf chunks).length, Occurs literal (streamOf chunks) i ∧ r = extentAt literal i
  once : (Jobstore.delivered (literalRegexp literal) {} (feedsFrom 0 chunks)).Nodup
  retained : (scanRetained (literalRegexp literal) (streamOf chunks)).isSome ↔
    ∃ i ≤ (streamOf chunks).length, Occurs literal (streamOf chunks) i
  last : ∀ i, LastOccurrence literal (streamOf chunks) i → ∃ start ≤ i,
    i + literal.length ≤ start + 2 * outputMatchWindowBytes ∧
    scanRetained (literalRegexp literal) (streamOf chunks) =
      some (matchExcerpt (((streamOf chunks).take (start + 2 * outputMatchWindowBytes)).drop start)
        (i - start))

theorem exists_lastOccurrence (hp : Plain literal) {data : Bytes} (h : Occurs literal data i) :
    ∃ j, LastOccurrence literal data j := by
  have hbounded : ∀ (more j : Nat), Occurs literal data j → data.length ≤ j + more →
      ∃ last, LastOccurrence literal data last := by
    intro more
    induction more with
    | zero =>
      intro j hj hle
      have hinside := hj.inside hp.nonempty
      have hpos := length_pos_of_ne_nil hp.nonempty
      omega
    | succ more ih =>
      intro j hj hle
      by_cases hlater : ∃ k, Occurs literal data k ∧ j < k
      · obtain ⟨k, hk, hjk⟩ := hlater
        exact ih k hk (by omega)
      · exact ⟨j, hj, fun k hk => Nat.le_of_not_lt fun hjk => hlater ⟨k, hk, hjk⟩⟩
  exact hbounded data.length i h (by omega)

theorem scanRetained_last (hp : Plain literal) {data : Bytes} (h : LastOccurrence literal data i) :
    ∃ start ≤ i, i + literal.length ≤ start + 2 * outputMatchWindowBytes ∧
      scanRetained (literalRegexp literal) data =
        some (matchExcerpt ((data.take (start + 2 * outputMatchWindowBytes)).drop start)
          (i - start)) := by
  have hshort := hp.short
  have hpos := length_pos_of_ne_nil hp.nonempty
  have hwindow : 0 < outputMatchWindowBytes := by omega
  have hinside := h.1.inside hp.nonempty
  have hle : i / outputMatchWindowBytes * outputMatchWindowBytes ≤ i := Nat.div_mul_le_self _ _
  have hlt : i < i / outputMatchWindowBytes * outputMatchWindowBytes + outputMatchWindowBytes :=
    Nat.lt_div_mul_add hwindow
  have hstride : i / outputMatchWindowBytes ≤ (data.length - 1) / outputMatchWindowBytes :=
    Nat.div_le_div_right (by omega)
  obtain ⟨more, hmore⟩ := Nat.exists_eq_add_of_le hstride
  have hdata : data ≠ [] := by
    rintro rfl
    rw [length_nil] at hinside
    omega
  refine ⟨i / outputMatchWindowBytes * outputMatchWindowBytes, hle, by omega, ?_⟩
  rw [scanRetained, if_neg hdata, hmore]
  exact scanRetainedFrom_last hp h hle hlt more

theorem scanRetained_none (hp : Plain literal) {data : Bytes} (h : ∀ i, ¬ Occurs literal data i) :
    scanRetained (literalRegexp literal) data = none := by
  unfold scanRetained
  split
  · rfl
  · exact scanRetainedFrom_none hp h _

theorem literal_seen {literal : Bytes} (hne : literal ≠ [])
    (hshort : literal.length ≤ outputMatchWindowBytes) (hline : InLine literal)
    (hborder : Borderless literal) (chunks : List (Bytes × Option Causal)) :
    SeesEvery literal chunks := by
  have hp : Plain literal := ⟨hne, hshort, hline, hborder⟩
  have hpos := length_pos_of_ne_nil hne
  obtain ⟨hmem, hpair⟩ := Follows.run hp chunks (follows_nil hp)
  rw [nil_append, length_nil] at hmem
  rw [length_nil] at hpair
  refine ⟨fun r => ?_, ?_, ?_, fun i hi => scanRetained_last hp hi⟩
  · rw [hmem]
    constructor
    · rintro ⟨i, hi, hr, -⟩
      have hinside := hi.inside hne
      exact ⟨i, by omega, hi, hr⟩
    · rintro ⟨i, -, hi, hr⟩
      exact ⟨i, hi, hr, by omega⟩
  · refine hpair.imp_of_mem fun {a b} ha hb hab heq => ?_
    obtain ⟨i, -, rfl, -⟩ := (hmem a).mp ha
    subst heq
    unfold extentAt at hab
    dsimp only at hab
    omega
  · constructor
    · intro hsome
      by_contra hnone
      have hno : ∀ i, ¬ Occurs literal (streamOf chunks) i := by
        intro i hi
        have hinside := hi.inside hne
        exact hnone ⟨i, by omega, hi⟩
      rw [scanRetained_none hp hno] at hsome
      cases hsome
    · rintro ⟨i, -, hi⟩
      obtain ⟨j, hj⟩ := exists_lastOccurrence hp hi
      obtain ⟨start, -, -, hscan⟩ := scanRetained_last hp hj
      rw [hscan]
      rfl

end Stream

/-- `ok`, cut in two. -/
theorem literal_seen_ok : SeesEvery [111, 107] [([111], none), ([107], none)] := by
  refine literal_seen (by decide) (by decide) ⟨by decide, by decide⟩ ?_ _
  intro k hpos hlt
  have hone : k = 1 := by
    rw [show ([111, 107] : Bytes).length = 2 from rfl] at hlt
    omega
  rw [hone]
  decide

/-- The empty literal occurs in an empty stream, which the level scan does not look at. -/
theorem empty_literal_missed :
    ¬ ∀ literal : Bytes, literal.length ≤ outputMatchWindowBytes → InLine literal →
      Borderless literal → ∀ chunks, SeesEvery literal chunks := by
  intro h
  have hall := h [] (Nat.zero_le _) ⟨by decide, by decide⟩
    (fun k _ hlt => absurd hlt (Nat.not_lt_zero k)) []
  have hsome := hall.retained.mpr ⟨0, Nat.le_refl _, nil_prefix⟩
  cases hsome

end Evener.Jobstore
