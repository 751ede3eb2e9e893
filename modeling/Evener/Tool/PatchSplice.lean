/-
  An applied update is a splice of the file: every hunk with old lines takes the place of a block
  of the file's lines, and the rest of the file stays.
-/
import Evener.Lib.LevelSearch
import Evener.Tool.WholeFile

namespace Evener.Tool

open Evener.Lib List Option

/-! ## Blocks -/

/-- The five levels, the strictest first. -/
def matchLevels : List LineMatchMode :=
  [.matchExact, .matchTrimRight, .matchTrimBoth, .matchUnicodeNormalized, .matchFuzzyLine]

/-- The pattern matches the lines from `k` on. -/
def MatchesAt (lines pattern : List String) (mode : LineMatchMode) (k : Nat) : Prop :=
  k + pattern.length ≤ lines.length ∧
    lineSequenceMatches ((lines.drop k).take pattern.length) pattern mode = true

/-- No level matches anywhere from `start` on. -/
def NoMatch (lines pattern : List String) (start : Nat) : Prop :=
  ∀ mode ∈ matchLevels, ∀ k, start ≤ k → ¬MatchesAt lines pattern mode k

def hunkOldLines (h : List String) : List String := oldLinesFromEntries (replacementEntriesFromHunk h)

/-- Where the hunk's hint is found, if it has one that is found. -/
def hintStart (lines : List String) (pos : Nat) (h : List String) : Nat :=
  if hintFromHunk h ≠ "" then (indexOfLine lines (hintFromHunk h) pos).getD pos else pos

/-- The search starts at the hint, unless nothing matches from there on. -/
def SearchStart (lines : List String) (pos : Nat) (h : List String) (start : Nat) : Prop :=
  (start = hintStart lines pos h ∧ ¬NoMatch lines (hunkOldLines h) start) ∨
    (start = pos ∧ NoMatch lines (hunkOldLines h) (hintStart lines pos h))

/-- What the entries make of the file's lines they match. -/
inductive Replaced : List String → List ReplacementEntry → List String → Prop where
  | done : Replaced [] [] []
  | keep {line body : String} {block : List String} {entries : List ReplacementEntry}
      {out : List String} (h : Replaced block entries out) :
      Replaced (line :: block) (⟨' ', body⟩ :: entries) (line :: out)
  | delete {line body : String} {block : List String} {entries : List ReplacementEntry}
      {out : List String} (h : Replaced block entries out) :
      Replaced (line :: block) (⟨'-', body⟩ :: entries) out
  | insert {body : String} {block : List String} {entries : List ReplacementEntry}
      {out : List String} (h : Replaced block entries out) :
      Replaced block (⟨'+', body⟩ :: entries) (body :: out)

/-- What a hunk puts out behind the first `pos` lines of the file, with the start of its block, and
how many of the lines it leaves behind it. -/
inductive HunkSpliced (lines : List String) (pos : Nat) (h : List String) :
    List Nat → List String → Nat → Prop where
  | insertOnly {out : List String} (hold : hunkOldLines h = [])
      (hout : Replaced [] (replacementEntriesFromHunk h) out) : HunkSpliced lines pos h [] out pos
  | block {start k : Nat} {out : List String} (hold : hunkOldLines h ≠ [])
      (hstart : SearchStart lines pos h start) (hpos : pos ≤ k)
      (hk : BestMatch (MatchesAt lines (hunkOldLines h)) start k matchLevels)
      (hout : Replaced ((lines.drop k).take (hunkOldLines h).length)
        (replacementEntriesFromHunk h) out) :
      HunkSpliced lines pos h [k] ((lines.take k).drop pos ++ out) (k + (hunkOldLines h).length)

inductive HunksSpliced (lines : List String) :
    Nat → List (List String) → List Nat → List String → Nat → Prop where
  | done (pos : Nat) : HunksSpliced lines pos [] [] [] pos
  | hunk {pos pos' last : Nat} {h : List String} {hunks : List (List String)} {ks ks' : List Nat}
      {out out' : List String} (hfirst : HunkSpliced lines pos h ks out pos')
      (hrest : HunksSpliced lines pos' hunks ks' out' last) :
      HunksSpliced lines pos (h :: hunks) (ks ++ ks') (out ++ out') last

/-- The lines with every block replaced, and the starts of the blocks. -/
def Spliced (lines : List String) (hunks : List (List String)) (starts : List Nat)
    (lines' : List String) : Prop :=
  ∃ out pos, HunksSpliced lines 0 hunks starts out pos ∧ lines' = out ++ lines.drop pos

/-- Some hunk has old lines that match nowhere behind the hunks before it. -/
def Stuck (lines : List String) (hunks : List (List String)) : Prop :=
  ∃ before h after starts out pos, hunks = before ++ h :: after ∧
    HunksSpliced lines 0 before starts out pos ∧ hunkOldLines h ≠ [] ∧
    NoMatch lines (hunkOldLines h) pos

def signedLines (sign : Char) (h : List String) : Nat :=
  ((replacementEntriesFromHunk h).filter fun entry => entry.sign = sign).length

def insertedLines (hunks : List (List String)) : Nat := (hunks.map (signedLines '+')).sum

def deletedLines (hunks : List (List String)) : Nat := (hunks.map (signedLines '-')).sum

/-! ## Entries -/

variable {h pattern : List String} {entries : List ReplacementEntry} {start k pos : Nat}
  {hunks : List (List String)}

theorem entry_signs {entry : ReplacementEntry} (hentry : entry ∈ replacementEntriesFromHunk h) :
    entry.sign = ' ' ∨ entry.sign = '-' ∨ entry.sign = '+' := by
  unfold replacementEntriesFromHunk at hentry
  obtain ⟨l, _, hl⟩ := mem_filterMap.mp hentry
  split at hl
  · cases hl
  · split at hl
    · cases hl
    · split at hl
      · next hmem =>
        obtain rfl := some.inj hl
        simpa using hmem
      · cases hl

theorem oldLines_cons (entry : ReplacementEntry) (entries : List ReplacementEntry) :
    oldLinesFromEntries (entry :: entries) =
      if entry.sign = ' ' ∨ entry.sign = '-' then entry.body :: oldLinesFromEntries entries
      else oldLinesFromEntries entries := by
  unfold oldLinesFromEntries
  rw [filter_cons]
  simp only [Bool.or_eq_true, decide_eq_true_eq]
  split
  · rfl
  · rfl

theorem replaced_apply {entries : List ReplacementEntry}
    (hsigns : ∀ entry ∈ entries, entry.sign = ' ' ∨ entry.sign = '-' ∨ entry.sign = '+')
    {block : List String} (hlength : block.length = (oldLinesFromEntries entries).length) :
    Replaced block entries (applyReplacementEntries block entries) := by
  induction entries generalizing block with
  | nil =>
    obtain rfl := eq_nil_of_length_eq_zero hlength
    exact .done
  | cons entry entries ih =>
    obtain ⟨sign, body⟩ := entry
    have hrest := @ih fun entry h => hsigns entry (mem_cons_of_mem _ h)
    rw [oldLines_cons] at hlength
    obtain rfl | rfl | rfl : sign = ' ' ∨ sign = '-' ∨ sign = '+' := hsigns _ mem_cons_self
    · cases block with
      | nil => simp at hlength
      | cons line block => exact .keep (hrest (by simpa using hlength))
    · cases block with
      | nil => simp at hlength
      | cons line block => exact .delete (hrest (by simpa using hlength))
    · exact .insert (hrest (by simpa using hlength))

theorem Replaced.eq_apply {block out : List String} (h : Replaced block entries out) :
    out = applyReplacementEntries block entries := by
  induction h with
  | done => rfl
  | keep _ ih =>
    rw [ih]
    rfl
  | delete _ ih =>
    rw [ih]
    rfl
  | insert _ ih =>
    rw [ih]
    rfl

theorem Replaced.length {block out : List String} (h : Replaced block entries out) :
    out.length + (entries.filter fun entry => entry.sign = '-').length =
      block.length + (entries.filter fun entry => entry.sign = '+').length := by
  induction h with
  | done => rfl
  | keep _ ih =>
    simp only [length_cons, filter_cons]
    simp
    omega
  | delete _ ih =>
    simp only [length_cons, filter_cons]
    simp
    omega
  | insert _ ih =>
    simp only [length_cons, filter_cons]
    simp
    omega

/-! ## Seeking -/

theorem seekMode_finds {lines : List String} (hroom : pattern.length ≤ lines.length)
    (mode : LineMatchMode) :
    Finds (seekMode lines pattern start mode) (MatchesAt lines pattern mode) start where
  found k := by
    unfold seekMode FirstFrom MatchesAt
    rw [find?_range'_eq_some, mem_range'_1]
    constructor
    · intro ⟨hmatch, ⟨hstart, hend⟩, hfirst⟩
      refine ⟨hstart, ⟨by omega, hmatch⟩, ?_⟩
      intro i hi hik ⟨_, hi'⟩
      have hnot := hfirst i hi hik
      rw [hi'] at hnot
      cases hnot
    · intro ⟨hstart, ⟨hend, hmatch⟩, hfirst⟩
      refine ⟨hmatch, ⟨hstart, by omega⟩, ?_⟩
      intro i hi hik
      rw [Bool.not_eq_true']
      by_contra hmatch'
      exact hfirst i hi hik ⟨by omega, by simpa using hmatch'⟩
  missed := by
    unfold seekMode MatchesAt
    rw [find?_range'_eq_none]
    constructor
    · intro hnone i hi ⟨hend, hmatch⟩
      have hnot := hnone i hi (by omega)
      rw [hmatch] at hnot
      cases hnot
    · intro hnone i hi hend
      rw [Bool.not_eq_true']
      by_contra hmatch
      exact hnone i hi ⟨by omega, by simpa using hmatch⟩

theorem seekLineSequence_levels {lines : List String} (hne : pattern.length ≠ 0)
    (hroom : ¬(lines.length < pattern.length ∨ lines.length - pattern.length < start)) :
    seekLineSequence lines pattern start =
      searchLevels (seekMode lines pattern start) matchLevels := by
  unfold seekLineSequence
  rw [if_neg hne, if_neg hroom]
  simp only [searchLevels, matchLevels, orElse_eq_orElse, orElse_eq_or,
    or_none]

/-- Nothing matches where there are too few lines left. -/
theorem noMatch_short {lines : List String}
    (hshort : lines.length < pattern.length ∨ lines.length - pattern.length < start) :
    NoMatch lines pattern start := by
  intro mode _ k hk ⟨hend, _⟩
  omega

theorem seekLineSequence_eq_some {lines : List String} (hne : pattern ≠ []) (k : Nat) :
    seekLineSequence lines pattern start = some k ↔
      BestMatch (MatchesAt lines pattern) start k matchLevels := by
  have hlength : pattern.length ≠ 0 := by simpa using hne
  by_cases hshort : lines.length < pattern.length ∨ lines.length - pattern.length < start
  · constructor
    · intro h
      unfold seekLineSequence at h
      rw [if_neg hlength, if_pos hshort] at h
      cases h
    · intro h
      obtain ⟨mode, hmem, hk⟩ := h.holds
      exact absurd hk (noMatch_short hshort mode hmem k h.first_le)
  · rw [seekLineSequence_levels hlength hshort]
    exact searchLevels_eq_some (seekMode_finds (by omega)) matchLevels k

theorem seekLineSequence_eq_none {lines : List String} (hne : pattern ≠ []) :
    seekLineSequence lines pattern start = none ↔ NoMatch lines pattern start := by
  have hlength : pattern.length ≠ 0 := by simpa using hne
  by_cases hshort : lines.length < pattern.length ∨ lines.length - pattern.length < start
  · unfold seekLineSequence
    rw [if_neg hlength, if_pos hshort]
    exact ⟨fun _ => noMatch_short hshort, fun _ => rfl⟩
  · rw [seekLineSequence_levels hlength hshort]
    exact searchLevels_eq_none (seekMode_finds (by omega)) matchLevels

theorem indexFrom_le {lines : List String} {p : String → Bool}
    (h : indexFrom lines start p = some k) : start ≤ k := by
  unfold indexFrom at h
  obtain ⟨i, _, rfl⟩ := map_eq_some_iff.mp h
  exact Nat.le_add_right start i

theorem indexOfLine_le {lines : List String} {want : String}
    (h : indexOfLine lines want start = some k) : start ≤ k := by
  unfold indexOfLine at h
  simp only [orElse_eq_orElse, orElse_eq_or, or_eq_some_iff] at h
  obtain h | ⟨_, h⟩ := h
  · exact indexFrom_le h
  · split at h
    · cases h
    · simp only [or_eq_some_iff] at h
      obtain h | ⟨_, h⟩ := h
      · exact indexFrom_le h
      · exact indexFrom_le h

theorem le_hintStart (lines : List String) (pos : Nat) (h : List String) :
    pos ≤ hintStart lines pos h := by
  unfold hintStart
  split
  · cases hindex : indexOfLine lines (hintFromHunk h) pos with
    | none => exact Nat.le_refl pos
    | some k => exact indexOfLine_le hindex
  · exact Nat.le_refl pos

theorem NoMatch.mono {lines : List String} {start' : Nat} (h : NoMatch lines pattern start)
    (hle : start ≤ start') : NoMatch lines pattern start' :=
  fun mode hmem k hk => h mode hmem k (Nat.le_trans hle hk)

/-- The search of a hunk's block, with its fallback. -/
def findBlock (lines : List String) (pos : Nat) (h : List String) : Option Nat :=
  seekLineSequence lines (hunkOldLines h) (hintStart lines pos h) <|>
    if hintStart lines pos h ≠ pos then seekLineSequence lines (hunkOldLines h) pos else none

theorem findBlock_eq_some {lines : List String} (hold : hunkOldLines h ≠ []) (k : Nat) :
    findBlock lines pos h = some k ↔ ∃ start, SearchStart lines pos h start ∧
      BestMatch (MatchesAt lines (hunkOldLines h)) start k matchLevels := by
  unfold findBlock SearchStart
  cases hhint : seekLineSequence lines (hunkOldLines h) (hintStart lines pos h) with
  | some i =>
    have hmatch : ¬NoMatch lines (hunkOldLines h) (hintStart lines pos h) := by
      rw [← seekLineSequence_eq_none hold, hhint]
      intro h
      cases h
    have hbest := (seekLineSequence_eq_some hold i).mp hhint
    constructor
    · intro h
      obtain rfl := some.inj h
      exact ⟨_, .inl ⟨rfl, hmatch⟩, hbest⟩
    · intro ⟨start, hstart, hk⟩
      obtain ⟨rfl, _⟩ | ⟨_, hnone⟩ := hstart
      · exact hhint.symm.trans ((seekLineSequence_eq_some hold k).mpr hk)
      · exact absurd hnone hmatch
  | none =>
    have hnone := (seekLineSequence_eq_none hold).mp hhint
    have hfallback : (if hintStart lines pos h ≠ pos then
        seekLineSequence lines (hunkOldLines h) pos else none) =
          seekLineSequence lines (hunkOldLines h) pos := by
      split
      · rfl
      · next hsame =>
        rw [← hhint]
        congr 1
        exact not_not.mp hsame
    show (if hintStart lines pos h ≠ pos then _ else _) = some k ↔ _
    rw [hfallback, seekLineSequence_eq_some hold]
    constructor
    · intro hk
      exact ⟨pos, .inr ⟨rfl, hnone⟩, hk⟩
    · intro ⟨start, hstart, hk⟩
      obtain ⟨rfl, hmatch⟩ | ⟨rfl, _⟩ := hstart
      · exact absurd hnone hmatch
      · exact hk

theorem findBlock_eq_none {lines : List String} (hold : hunkOldLines h ≠ []) :
    findBlock lines pos h = none ↔ NoMatch lines (hunkOldLines h) pos := by
  unfold findBlock
  simp only [orElse_eq_orElse, orElse_eq_or, or_eq_none_iff]
  rw [seekLineSequence_eq_none hold]
  constructor
  · intro ⟨hhint, hpos⟩
    split at hpos
    · exact (seekLineSequence_eq_none hold).mp hpos
    · next hsame => exact not_not.mp hsame ▸ hhint
  · intro hnone
    refine ⟨hnone.mono (le_hintStart lines pos h), ?_⟩
    split
    · exact (seekLineSequence_eq_none hold).mpr hnone
    · rfl

theorem SearchStart.le {lines : List String} (hstart : SearchStart lines pos h start) :
    pos ≤ start := by
  obtain ⟨rfl, _⟩ | ⟨rfl, _⟩ := hstart
  · exact le_hintStart lines pos h
  · exact Nat.le_refl start

/-! ## Hunks -/

section Hunks

variable {path : String} {lines : List String}

theorem newLines_insertOnly (hold : oldLinesFromEntries entries = []) :
    newLinesFromEntries entries = applyReplacementEntries [] entries := by
  induction entries with
  | nil => rfl
  | cons entry entries ih =>
    rw [oldLines_cons] at hold
    split at hold
    · cases hold
    · next hsign =>
      obtain ⟨hkeep, hdelete⟩ := not_or.mp hsign
      have hrest := ih hold
      unfold newLinesFromEntries at hrest ⊢
      rw [filter_cons]
      unfold applyReplacementEntries
      rw [if_neg hkeep, if_neg hdelete]
      by_cases hinsert : entry.sign = '+'
      · rw [if_pos hinsert, if_pos (by simp [hinsert]), map_cons, hrest]
      · rw [if_neg hinsert, if_neg (by simp [hkeep, hinsert]), hrest]

theorem applyHunk_insertOnly (hold : hunkOldLines h = []) (acc : List String × Nat) :
    applyHunk path lines acc h =
      .ok (acc.1 ++ applyReplacementEntries [] (replacementEntriesFromHunk h), acc.2) := by
  unfold hunkOldLines at hold
  rw [← newLines_insertOnly hold]
  unfold applyHunk
  dsimp only
  rw [hold]

theorem applyHunk_found {acc : List String × Nat} (hold : hunkOldLines h ≠ [])
    (hk : findBlock lines acc.2 h = some k) :
    applyHunk path lines acc h =
      .ok (acc.1 ++ (lines.take k).drop acc.2 ++ applyReplacementEntries
        ((lines.drop k).take (hunkOldLines h).length) (replacementEntriesFromHunk h),
        k + (hunkOldLines h).length) := by
  unfold findBlock hintStart hunkOldLines at hk
  unfold hunkOldLines at hold ⊢
  unfold applyHunk
  dsimp only at hk ⊢
  rw [hk]
  split
  · next hnil => exact absurd hnil hold
  · rfl

theorem applyHunk_missed (path : String) {h : List String} {acc : List String × Nat}
    (hold : hunkOldLines h ≠ []) (hnone : findBlock lines acc.2 h = none) :
    ∃ err, applyHunk path lines acc h = .error err := by
  unfold findBlock hintStart hunkOldLines at hnone
  unfold hunkOldLines at hold
  unfold applyHunk
  dsimp only at hnone ⊢
  rw [hnone]
  split
  · next hnil => exact absurd hnil hold
  · exact ⟨_, rfl⟩

/-- A block that is found has all its lines. -/
theorem block_length (hk : BestMatch (MatchesAt lines (hunkOldLines h)) start k matchLevels) :
    ((lines.drop k).take (hunkOldLines h).length).length =
      (oldLinesFromEntries (replacementEntriesFromHunk h)).length := by
  obtain ⟨_, _, hend, _⟩ := hk.holds
  rw [length_take, length_drop]
  unfold hunkOldLines at hend ⊢
  omega

/-- A hunk is either spliced, or its old lines match nowhere. -/
theorem applyHunk_cases (path : String) (lines : List String) (acc : List String × Nat) (h : List String) :
    (∃ ks out pos, HunkSpliced lines acc.2 h ks out pos ∧
      applyHunk path lines acc h = .ok (acc.1 ++ out, pos)) ∨
    (hunkOldLines h ≠ [] ∧ NoMatch lines (hunkOldLines h) acc.2 ∧
      ∃ err, applyHunk path lines acc h = .error err) := by
  by_cases hold : hunkOldLines h = []
  · left
    have hlength : ([] : List String).length =
        (oldLinesFromEntries (replacementEntriesFromHunk h)).length := by
      rw [show oldLinesFromEntries (replacementEntriesFromHunk h) = [] from hold]
    exact ⟨[], _, acc.2, .insertOnly hold (replaced_apply (fun _ => entry_signs) hlength),
      applyHunk_insertOnly hold acc⟩
  · cases hfound : findBlock lines acc.2 h with
    | none =>
      exact .inr ⟨hold, (findBlock_eq_none hold).mp hfound, applyHunk_missed path hold hfound⟩
    | some k =>
      left
      obtain ⟨start, hstart, hk⟩ := (findBlock_eq_some hold k).mp hfound
      have hpos : acc.2 ≤ k := Nat.le_trans hstart.le hk.first_le
      have hout := replaced_apply (fun _ => entry_signs) (block_length hk)
      refine ⟨[k], _, _, .block hold hstart hpos hk hout, ?_⟩
      rw [applyHunk_found hold hfound, append_assoc]

/-- What a spliced hunk puts out is what the code puts out. -/
theorem HunkSpliced.applied {pos' : Nat} {h ks out} (hs : HunkSpliced lines pos h ks out pos')
    (path : String) (acc : List String) :
    applyHunk path lines (acc, pos) h = .ok (acc ++ out, pos') := by
  cases hs with
  | insertOnly hold hout => rw [applyHunk_insertOnly hold, hout.eq_apply]
  | block hold hstart _ hk hout =>
    have hfound := (findBlock_eq_some hold _).mpr ⟨_, hstart, hk⟩
    rw [applyHunk_found hold hfound, hout.eq_apply, append_assoc]

theorem HunksSpliced.applied {last : Nat} {hunks ks out}
    (hs : HunksSpliced lines pos hunks ks out last) (path : String) (acc : List String) :
    hunks.foldlM (applyHunk path lines) (acc, pos) = .ok (acc ++ out, last) := by
  induction hs generalizing acc with
  | done pos =>
    rw [append_nil]
    rfl
  | hunk hfirst _ ih =>
    rw [foldlM_cons, hfirst.applied path acc, ← append_assoc]
    exact ih (acc ++ _)

/-- The hunks are all spliced, or one of them stands behind spliced ones and matches nowhere. -/
theorem hunks_cases (path : String) (lines : List String) (hunks : List (List String)) (acc : List String) (pos : Nat) :
    (∃ ks out last, HunksSpliced lines pos hunks ks out last ∧
      hunks.foldlM (applyHunk path lines) (acc, pos) = .ok (acc ++ out, last)) ∨
    ((∃ before h after ks out last, hunks = before ++ h :: after ∧
      HunksSpliced lines pos before ks out last ∧ hunkOldLines h ≠ [] ∧
      NoMatch lines (hunkOldLines h) last) ∧
      ∃ err, hunks.foldlM (applyHunk path lines) (acc, pos) = .error err) := by
  induction hunks generalizing acc pos with
  | nil => exact .inl ⟨[], [], pos, .done pos, by rw [append_nil]; rfl⟩
  | cons h hunks ih =>
    rw [foldlM_cons]
    obtain ⟨ks, out, pos', hfirst, heq⟩ | ⟨hold, hnone, err, heq⟩ :=
      applyHunk_cases path lines (acc, pos) h
    · rw [heq]
      obtain ⟨ks', out', last, hrest, heq'⟩ |
          ⟨⟨before, h', after, ks', out', last, hhunks, hrest, hstuck⟩, herr⟩ := ih (acc ++ out) pos'
      · refine .inl ⟨_, _, _, .hunk hfirst hrest, ?_⟩
        rw [← append_assoc]
        exact heq'
      · refine .inr ⟨⟨h :: before, h', after, _, _, last, ?_, .hunk hfirst hrest, hstuck⟩, herr⟩
        rw [hhunks]
        rfl
    · rw [heq]
      exact .inr ⟨⟨[], h, hunks, [], [], pos, rfl, .done pos, hold, hnone⟩, err, rfl⟩

theorem hunks_stuck (path : String) {hunks : List (List String)} (hstuck : Stuck lines hunks) :
    ∃ err, hunks.foldlM (applyHunk path lines) ([], 0) = .error err := by
  obtain ⟨before, h, after, ks, out, pos, rfl, hbefore, hold, hnone⟩ := hstuck
  obtain ⟨err, herr⟩ := @applyHunk_missed lines path h ([] ++ out, pos) hold
    ((findBlock_eq_none hold).mpr hnone)
  refine ⟨err, ?_⟩
  rw [foldlM_append, hbefore.applied path []]
  show (h :: after).foldlM (applyHunk path lines) ([] ++ out, pos) = .error err
  rw [foldlM_cons, herr]
  rfl

/-! ## Counting lines -/

theorem HunkSpliced.count {pos' : Nat} {h ks out} (hs : HunkSpliced lines pos h ks out pos')
    (hle : pos ≤ lines.length) : pos' ≤ lines.length ∧
      out.length + signedLines '-' h + pos = pos' + signedLines '+' h := by
  cases hs with
  | insertOnly _ hout =>
    have hlength := hout.length
    unfold signedLines
    rw [length_nil] at hlength
    exact ⟨hle, by omega⟩
  | @block start k out hold hstart hpos hk hout =>
    obtain ⟨_, _, hend, _⟩ := hk.holds
    have hlength := hout.length
    rw [length_take, length_drop] at hlength
    unfold signedLines
    rw [length_append, length_drop, length_take]
    exact ⟨hend, by omega⟩

theorem HunksSpliced.count {last : Nat} {hunks ks out}
    (hs : HunksSpliced lines pos hunks ks out last) (hle : pos ≤ lines.length) :
    last ≤ lines.length ∧
      out.length + deletedLines hunks + pos = last + insertedLines hunks := by
  induction hs with
  | done pos => exact ⟨hle, by simp [deletedLines, insertedLines]⟩
  | hunk hfirst _ ih =>
    obtain ⟨hle', hcount⟩ := hfirst.count hle
    obtain ⟨hlast, hcount'⟩ := ih hle'
    refine ⟨hlast, ?_⟩
    unfold deletedLines insertedLines at hcount' ⊢
    rw [length_append, map_cons, map_cons, sum_cons, sum_cons]
    omega

theorem Spliced.count {hunks starts lines'} (h : Spliced lines hunks starts lines') :
    lines'.length + deletedLines hunks = lines.length + insertedLines hunks := by
  obtain ⟨out, pos, hs, rfl⟩ := h
  obtain ⟨hle, hcount⟩ := hs.count (Nat.zero_le _)
  rw [length_append, length_drop]
  omega

end Hunks

/-! ## Updates -/

section Update

variable {σ : Type} {fm : FileMutator σ} {path text : String} {files : σ}

/-- The text of the lines, ended as the text they come from. -/
def endedAs (text : String) (lines : List String) : String :=
  if endsWith text "\n" then joinText lines ++ "\n" else joinText lines

/-- What an update does with the text it made. -/
def writeUpdated (fm : FileMutator σ) (path moveTo newText : String) (files : σ) :
    Except PatchError (List String) × σ :=
  match fm.writeFileRaw path newText files with
  | .error err => (.error (.file err), files)
  | .ok files =>
    if trimSpace moveTo ≠ "" ∧ moveTo ≠ path then
      match fm.renamePath path moveTo files with
      | .error err => (.error (.file err), files)
      | .ok files => (.ok [path, moveTo], files)
    else (.ok [path], files)

theorem updatedText_spliced (hcr : '\r' ∉ text.toList) {out pos}
    (h : hunks.foldlM (applyHunk path (textLines text)) ([], 0) = .ok (out, pos)) :
    updatedText path hunks text = .ok (endedAs text (out ++ (textLines text).drop pos)) := by
  unfold updatedText
  rw [normalizeNewlines_eq hcr]
  dsimp only
  rw [show splitText (trimEnding text "\n") = textLines text from rfl, h]
  rfl

theorem updatedText_error (hcr : '\r' ∉ text.toList) {err}
    (h : hunks.foldlM (applyHunk path (textLines text)) ([], 0) = .error err) :
    updatedText path hunks text = .error err := by
  unfold updatedText
  rw [normalizeNewlines_eq hcr]
  dsimp only
  rw [show splitText (trimEnding text "\n") = textLines text from rfl, h]
  rfl

theorem apply_written {newText : String} (moveTo : String)
    (hread : fm.readFileRaw path files = .ok text) (h : updatedText path hunks text = .ok newText) :
    (PatchOp.updateFile path moveTo hunks).apply fm files =
      writeUpdated fm path moveTo newText files := by
  unfold PatchOp.apply
  dsimp only
  rw [hread]
  dsimp only
  rw [h]
  rfl

theorem apply_refused {err : PatchError} (moveTo : String)
    (hread : fm.readFileRaw path files = .ok text) (h : updatedText path hunks text = .error err) :
    (PatchOp.updateFile path moveTo hunks).apply fm files = (.error err, files) := by
  unfold PatchOp.apply
  dsimp only
  rw [hread]
  dsimp only
  rw [h]

/-- An update writes the file with its blocks replaced, or, when some hunk matches nowhere, leaves
the files as they are. -/
theorem apply_splices (moveTo : String) (hunks : List (List String))
    (hread : fm.readFileRaw path files = .ok text) (hcr : '\r' ∉ text.toList) :
    ((∃ starts lines', Spliced (textLines text) hunks starts lines' ∧
        lines'.length + deletedLines hunks = (textLines text).length + insertedLines hunks ∧
        (PatchOp.updateFile path moveTo hunks).apply fm files =
          writeUpdated fm path moveTo (endedAs text lines') files) ∨
      Stuck (textLines text) hunks) ∧
    (Stuck (textLines text) hunks → ∃ err,
      (PatchOp.updateFile path moveTo hunks).apply fm files = (.error err, files)) := by
  constructor
  · obtain ⟨starts, out, pos, hs, heq⟩ | ⟨hstuck, _⟩ :=
      hunks_cases path (textLines text) hunks [] 0
    · have hspliced : Spliced (textLines text) hunks starts (out ++ (textLines text).drop pos) :=
        ⟨out, pos, hs, rfl⟩
      refine .inl ⟨starts, _, hspliced, hspliced.count, ?_⟩
      exact apply_written moveTo hread (updatedText_spliced hcr heq)
    · exact .inr hstuck
  · intro hstuck
    obtain ⟨err, heq⟩ := hunks_stuck path hstuck
    exact ⟨err, apply_refused moveTo hread (updatedText_error hcr heq)⟩

theorem apply_splices_kept_line :
    ((∃ starts lines', Spliced (textLines "a\n b\n") [[" a", "-b", "+c"]] starts lines' ∧
        lines'.length + deletedLines [[" a", "-b", "+c"]] =
          (textLines "a\n b\n").length + insertedLines [[" a", "-b", "+c"]] ∧
        (PatchOp.updateFile "f" "" [[" a", "-b", "+c"]]).apply memory (fun _ => some "a\n b\n") =
          writeUpdated memory "f" "" (endedAs "a\n b\n" lines') fun _ => some "a\n b\n") ∨
      Stuck (textLines "a\n b\n") [[" a", "-b", "+c"]]) ∧
    (Stuck (textLines "a\n b\n") [[" a", "-b", "+c"]] → ∃ err,
      (PatchOp.updateFile "f" "" [[" a", "-b", "+c"]]).apply memory (fun _ => some "a\n b\n") =
        (.error err, fun _ => some "a\n b\n")) :=
  apply_splices "" _ rfl (by decide)

end Update

end Evener.Tool
