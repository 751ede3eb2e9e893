/-
  The scanners of the text of a pattern tree find what a round on the tree replaces.
-/
import Evener.GlobPattern.Splice

namespace Evener.GlobPattern

open List
open Evener.Lib (Bytes)

/-- The loop that the search for a group and the unwrapping share: `test` judges a closed group. -/
def scanFrom {α : Type} (test : Nat → Nat → Option α) (stray : Nat → α) (finish : List Nat → α) :
    Nat → List Nat → List Bytes → α
  | _, stack, [] => finish stack
  | i, stack, l :: rest =>
    if l = [openBrace] then scanFrom test stray finish (i + 1) (i :: stack) rest
    else if l = [closeBrace] then
      match stack with
      | [] => stray i
      | start :: stack =>
        match test start i with
        | some a => a
        | none => scanFrom test stray finish (i + 1) stack rest
    else scanFrom test stray finish (i + l.length) stack rest

/-- How the search for a group judges one. -/
def foundAt (pattern : Bytes) (start stop : Nat) :
    Option (Except BraceError (Option (Nat × Nat))) :=
  if hasTopLevelComma (slice pattern (start + 1) stop) then some (.ok (some (start, stop)))
  else none

def unmatchedIn : List Nat → Except BraceError (Option (Nat × Nat))
  | [] => .ok none
  | start :: _ => .error (.unmatchedOpening start)

theorem findGroupFrom_eq_scan (pattern : Bytes) (ls : List Bytes) (i : Nat) (stack : List Nat) :
    findGroupFrom pattern i stack ls =
      scanFrom (foundAt pattern) (fun i => .error (.unmatchedClosing i)) unmatchedIn i stack ls := by
  induction ls generalizing i stack with
  | nil => cases stack <;> rfl
  | cons l ls ih =>
    cases stack with
    | nil => simp only [findGroupFrom, scanFrom, ih]
    | cons start stack =>
      by_cases hcomma : hasTopLevelComma (slice pattern (start + 1) i) = true
      · simp only [findGroupFrom, scanFrom, ih, foundAt, if_pos hcomma]
      · simp only [findGroupFrom, scanFrom, ih, foundAt, if_neg hcomma]

/-- How the unwrapping judges a group. -/
def unwrappedAt (pattern : Bytes) (start stop : Nat) : Option (Option Bytes) :=
  if hasTopLevelComma (slice pattern (start + 1) stop) then none
  else some (some (pattern.take start ++ slice pattern (start + 1) stop ++ pattern.drop (stop + 1)))

theorem unwrapFrom_eq_scan (pattern : Bytes) (ls : List Bytes) (i : Nat) (stack : List Nat) :
    unwrapFrom pattern i stack ls =
      scanFrom (unwrappedAt pattern) (fun _ => none) (fun _ => none) i stack ls := by
  induction ls generalizing i stack with
  | nil => rfl
  | cons l ls ih =>
    cases stack with
    | nil => simp only [unwrapFrom, scanFrom, ih]
    | cons start stack =>
      by_cases hcomma : hasTopLevelComma (slice pattern (start + 1) i) = true
      · simp only [unwrapFrom, scanFrom, ih, unwrappedAt, if_pos hcomma]
      · simp only [unwrapFrom, scanFrom, ih, unwrappedAt, if_neg hcomma]

/-! ## Commas -/

theorem Atom.text_ne_open (a : Atom) : a.text ≠ [openBrace] := by
  cases a with
  | byte b h => exact fun heq => h.2.2.1 (singleton_inj.mp heq)
  | escaped b => simp [Atom.text]
  | charClass items => simp [Atom.text]

theorem Atom.text_ne_close (a : Atom) : a.text ≠ [closeBrace] := by
  cases a with
  | byte b h => exact fun heq => h.2.2.2 (singleton_inj.mp heq)
  | escaped b => simp [Atom.text]
  | charClass items => simp [Atom.text]

theorem hasTopLevelCommaFrom_open (depth : Nat) (rest : List Bytes) :
    hasTopLevelCommaFrom depth ([openBrace] :: rest) = hasTopLevelCommaFrom (depth + 1) rest := by
  rw [hasTopLevelCommaFrom, if_pos rfl]

theorem hasTopLevelCommaFrom_close (depth : Nat) (rest : List Bytes) :
    hasTopLevelCommaFrom depth ([closeBrace] :: rest) = hasTopLevelCommaFrom (depth - 1) rest := by
  rw [hasTopLevelCommaFrom, if_neg (by decide), if_pos rfl]

theorem hasTopLevelCommaFrom_comma (rest : List Bytes) :
    hasTopLevelCommaFrom 0 ([comma] :: rest) = true := by
  rw [hasTopLevelCommaFrom, if_neg (by decide), if_neg (by decide), if_pos ⟨rfl, rfl⟩]

theorem hasTopLevelCommaFrom_skip {depth : Nat} {l : Bytes} (hopen : l ≠ [openBrace])
    (hclose : l ≠ [closeBrace]) (hcomma : ¬ (l = [comma] ∧ depth = 0)) (rest : List Bytes) :
    hasTopLevelCommaFrom depth (l :: rest) = hasTopLevelCommaFrom depth rest := by
  rw [hasTopLevelCommaFrom, if_neg hopen, if_neg hclose, if_neg hcomma]

mutual

theorem Pattern.hasTopLevelCommaFrom_tokens : ∀ {p : Pattern}, p.Fits true → ∀ (depth : Nat)
    (rest : List Bytes),
    hasTopLevelCommaFrom depth (p.tokens ++ rest) = hasTopLevelCommaFrom depth rest
  | .nil, _, _, _ => by rw [Pattern.tokens, nil_append]
  | .atom a p, hfits, depth, rest => by
    rw [Pattern.Fits] at hfits
    rw [Pattern.tokens, cons_append, hasTopLevelCommaFrom_skip a.text_ne_open a.text_ne_close
      fun h => hfits.1 rfl h.1]
    exact Pattern.hasTopLevelCommaFrom_tokens hfits.2 depth rest
  | .group first others p, hfits, depth, rest => by
    rw [Pattern.Fits] at hfits
    obtain ⟨hfirst, hothers, hp⟩ := hfits
    rw [Pattern.tokens, cons_append, hasTopLevelCommaFrom_open, append_assoc,
      append_assoc, Pattern.hasTopLevelCommaFrom_tokens hfirst,
      Alternatives.hasTopLevelCommaFrom_tokens hothers, cons_append,
      hasTopLevelCommaFrom_close, Nat.add_sub_cancel]
    exact Pattern.hasTopLevelCommaFrom_tokens hp depth rest

theorem Alternatives.hasTopLevelCommaFrom_tokens : ∀ {ps : Alternatives}, ps.Fits → ∀ (depth : Nat)
    (rest : List Bytes),
    hasTopLevelCommaFrom (depth + 1) (ps.tokens ++ rest) = hasTopLevelCommaFrom (depth + 1) rest
  | .nil, _, _, _ => by rw [Alternatives.tokens, nil_append]
  | .cons p ps, hfits, depth, rest => by
    rw [Alternatives.Fits] at hfits
    rw [Alternatives.tokens, cons_append, hasTopLevelCommaFrom_skip (by decide) (by decide)
      fun h => Nat.succ_ne_zero depth h.2, append_assoc,
      Pattern.hasTopLevelCommaFrom_tokens hfits.1]
    exact Alternatives.hasTopLevelCommaFrom_tokens hfits.2 depth rest

end

theorem lexemes_group (first : Pattern) (others : Alternatives) :
    lexemes (first.text ++ others.text) = first.tokens ++ others.tokens := by
  rw [Pattern.text, Alternatives.text, ← flatten_append]
  apply lexemes_flatten
  intro l hl
  rcases mem_append.mp hl with hl | hl
  · exact first.whole_of_mem l hl
  · exact others.whole_of_mem l hl

/-- The content of a group has a comma at its top exactly where several alternatives stand. -/
theorem hasTopLevelComma_group {first : Pattern} (hfirst : first.Fits true)
    (others : Alternatives) :
    hasTopLevelComma (first.text ++ others.text) = decide (others.count ≠ 0) := by
  rw [hasTopLevelComma, lexemes_group, Pattern.hasTopLevelCommaFrom_tokens hfirst]
  cases others with
  | nil => rfl
  | cons p ps =>
    rw [Alternatives.tokens, hasTopLevelCommaFrom_comma, Alternatives.count]
    exact (decide_eq_true (Nat.succ_ne_zero _)).symm

/-- A pattern inside a group, all of whose groups have one alternative, has no comma at all. -/
theorem Pattern.comma_notMem : ∀ {p : Pattern}, p.Fits true → p.splices true = none →
    [comma] ∉ p.tokens
  | .nil, _, _ => by simp [Pattern.tokens]
  | .atom a p, hfits, h => by
    rw [Pattern.Fits] at hfits
    rw [Pattern.tokens, mem_cons, not_or]
    exact ⟨fun heq => hfits.1 rfl heq.symm,
      Pattern.comma_notMem hfits.2 (Pattern.splices_atom_none h)⟩
  | .group first others p, hfits, h => by
    rw [Pattern.Fits] at hfits
    obtain ⟨hfirst, -, hasked, hp⟩ := Pattern.splices_group_none h
    have hone := Pattern.comma_notMem hfits.1 hfirst
    have hrest := Pattern.comma_notMem hfits.2.2 hp
    have hopen : [comma] ≠ [openBrace] := by decide
    have hclose : [comma] ≠ [closeBrace] := by decide
    rw [Alternatives.eq_nil_of_not_asked hasked, Pattern.tokens, Alternatives.tokens]
    simp only [mem_cons, mem_append, append_nil, hopen, hclose, hone, hrest, or_self,
      not_false_eq_true]

theorem splitFrom_skip {ls : List Bytes} (h : [comma] ∉ ls) (part : Bytes) (rest : List Bytes) :
    splitFrom part (ls ++ rest) = splitFrom (part ++ ls.flatten) rest := by
  induction ls generalizing part with
  | nil => simp
  | cons l ls ih =>
    rw [mem_cons, not_or] at h
    rw [cons_append, splitFrom, if_neg fun heq => h.1 heq.symm, ih h.2, flatten_cons,
      append_assoc]

theorem splitFrom_group {first : Pattern} (hfirst : [comma] ∉ first.tokens) :
    ∀ {others : Alternatives}, (∀ q ∈ others.toList, [comma] ∉ q.tokens) →
    splitFrom [] (first.tokens ++ others.tokens) = (first :: others.toList).map Pattern.text
  | .nil, _ => by
    rw [splitFrom_skip hfirst, Alternatives.tokens, splitFrom, nil_append]
    rfl
  | .cons p ps, h => by
    rw [Alternatives.toList] at h
    rw [splitFrom_skip hfirst, Alternatives.tokens, splitFrom, if_pos rfl, nil_append,
      splitFrom_group (h p mem_cons_self) fun q hq => h q (mem_cons_of_mem _ hq)]
    rfl

/-! ## Where a scan stops -/

/-- What stands behind one byte that follows `before`. -/
theorem slice_inside (before content after : Bytes) (b : UInt8) :
    slice (before ++ b :: (content ++ after)) (before.length + 1)
      (before.length + 1 + content.length) = content := by
  have htake : (before ++ b :: (content ++ after)).take (before.length + 1 + content.length) =
      before ++ b :: content := by
    rw [take_append, Nat.add_assoc, take_of_length_le (Nat.le_add_right ..),
      Nat.add_sub_cancel_left, Nat.add_comm 1, take_succ_cons, take_left]
  rw [slice, htake, drop_append, drop_eq_nil_of_le (Nat.le_succ _),
    Nat.add_sub_cancel_left]
  rfl

/-- What stands behind the byte that follows `content`. -/
theorem drop_behind (before content after : Bytes) (b c : UInt8) :
    (before ++ b :: (content ++ c :: after)).drop (before.length + 1 + content.length + 1) =
      after := by
  rw [drop_append, drop_eq_nil_of_le (by omega),
    show before.length + 1 + content.length + 1 - before.length = content.length + 1 + 1 by omega,
    drop_succ_cons, drop_append, drop_eq_nil_of_le (Nat.le_succ _),
    Nat.add_sub_cancel_left]
  rfl

/-- The group that a round replaces, as it stands in the text. -/
structure Site (many : Bool) where
  before : Bytes
  first : Pattern
  others : Alternatives
  after : Bytes
  first_fits : first.Fits true
  others_fits : others.Fits
  first_none : first.splices many = none
  others_none : others.splices many = none
  asked : others.Asked many

namespace Site
variable {many : Bool}

def content (s : Site many) : Bytes := s.first.text ++ s.others.text

def text (s : Site many) : Bytes := s.before ++ openBrace :: (s.content ++ closeBrace :: s.after)

def start (s : Site many) : Nat := s.before.length

def stop (s : Site many) : Nat := s.before.length + 1 + s.content.length

/-- What stands there after the round. -/
def results (s : Site many) : List Bytes :=
  (s.first :: s.others.toList).map fun q => s.before ++ q.text ++ s.after

theorem slice_text (s : Site many) : slice s.text (s.start + 1) s.stop = s.content :=
  slice_inside ..

theorem take_text (s : Site many) : s.text.take s.start = s.before := take_left

theorem drop_text (s : Site many) : s.text.drop (s.stop + 1) = s.after := drop_behind ..

theorem comma_at (s : Site many) :
    hasTopLevelComma (slice s.text (s.start + 1) s.stop) = many := by
  rw [slice_text, content, hasTopLevelComma_group s.first_fits]
  exact s.asked

end Site

/-! ## A scan of a tree -/

theorem Pattern.text_atom (a : Atom) (p : Pattern) : (Pattern.atom a p).text = a.text ++ p.text := by
  rw [Pattern.text, Pattern.tokens, flatten_cons]
  rfl

theorem Pattern.text_group (first p : Pattern) (others : Alternatives) :
    (Pattern.group first others p).text =
      openBrace :: (first.text ++ others.text ++ closeBrace :: p.text) := by
  simp [Pattern.text, Alternatives.text, Pattern.tokens]

theorem Alternatives.text_cons (p : Pattern) (ps : Alternatives) :
    (Alternatives.cons p ps).text = comma :: (p.text ++ ps.text) := by
  simp [Pattern.text, Alternatives.text, Alternatives.tokens]

section Texts

variable {pattern before after : Bytes} {first p : Pattern} {others ps : Alternatives}

/-- Where the parts of a group stand. -/
theorem group_texts (h : before ++ (Pattern.group first others p).text ++ after = pattern) :
    before ++ [openBrace] ++ first.text ++ (others.text ++ closeBrace :: (p.text ++ after)) =
        pattern ∧
      before ++ [openBrace] ++ first.text ++ others.text ++ closeBrace :: (p.text ++ after) =
        pattern ∧
      before ++ [openBrace] ++ first.text ++ others.text ++ [closeBrace] ++ p.text ++ after =
        pattern := by
  subst h
  simp [Pattern.text_group]

theorem cons_texts (h : before ++ (Alternatives.cons p ps).text ++ after = pattern) :
    before ++ [comma] ++ p.text ++ (ps.text ++ after) = pattern ∧
      before ++ [comma] ++ p.text ++ ps.text ++ after = pattern := by
  subst h
  simp [Alternatives.text_cons]

theorem results_map {β γ : Type} {results : List Bytes} {qs : List β} {place : β → Bytes}
    {wrap : β → γ} {place' : γ → Bytes} (h : results = qs.map place)
    (hsame : ∀ q, place q = place' (wrap q)) : results = (qs.map wrap).map place' := by
  rw [h, map_map]
  exact map_congr_left fun q _ => hsame q

end Texts

section Scan

variable {α : Type} {test : Nat → Nat → Option α} {stray : Nat → α} {finish : List Nat → α}
  {pattern : Bytes}

theorem scanFrom_open (i : Nat) (stack : List Nat) (rest : List Bytes) :
    scanFrom test stray finish i stack ([openBrace] :: rest) =
      scanFrom test stray finish (i + 1) (i :: stack) rest := by
  cases stack <;> simp only [scanFrom, if_true]

theorem scanFrom_close {i start : Nat} {stack : List Nat} {rest : List Bytes} :
    scanFrom test stray finish i (start :: stack) ([closeBrace] :: rest) =
      match test start i with
      | some a => a
      | none => scanFrom test stray finish (i + 1) stack rest := by
  have hne : ¬ [closeBrace] = [openBrace] := by decide
  simp only [scanFrom, if_neg hne, if_true]

theorem scanFrom_skip {l : Bytes} (hopen : l ≠ [openBrace]) (hclose : l ≠ [closeBrace]) (i : Nat)
    (stack : List Nat) (rest : List Bytes) :
    scanFrom test stray finish i stack (l :: rest) =
      scanFrom test stray finish (i + l.length) stack rest := by
  cases stack <;> simp only [scanFrom, if_neg hopen, if_neg hclose]

variable {many : Bool}
  (hpass : ∀ start stop, hasTopLevelComma (slice pattern (start + 1) stop) ≠ many →
    test start stop = none)

include hpass

mutual

theorem Pattern.scan_none : ∀ {p : Pattern} {inside : Bool}, p.Fits inside →
    p.splices many = none → ∀ {before after : Bytes}, before ++ p.text ++ after = pattern →
    ∀ (stack : List Nat) (rest : List Bytes),
    scanFrom test stray finish before.length stack (p.tokens ++ rest) =
      scanFrom test stray finish (before ++ p.text).length stack rest
  | .nil, _, _, _, before, after, htext, stack, rest => by
    simp [Pattern.tokens, Pattern.text]
  | .atom a p, _, hfits, h, before, after, htext, stack, rest => by
    rw [Pattern.Fits] at hfits
    rw [Pattern.text_atom, ← append_assoc] at htext ⊢
    rw [Pattern.tokens, cons_append, scanFrom_skip a.text_ne_open a.text_ne_close,
      ← length_append]
    exact Pattern.scan_none hfits.2 (Pattern.splices_atom_none h) htext stack rest
  | .group first others p, _, hfits, h, before, after, htext, stack, rest => by
    rw [Pattern.Fits] at hfits
    obtain ⟨hfits, hothersFits, hpFits⟩ := hfits
    obtain ⟨hfirst, hothers, hasked, hp⟩ := Pattern.splices_group_none h
    obtain ⟨htextFirst, htextOthers, htextRest⟩ := group_texts htext
    rw [Pattern.tokens, cons_append, scanFrom_open, append_assoc, append_assoc,
      cons_append,
      show before.length + 1 = (before ++ [openBrace]).length by simp,
      Pattern.scan_none hfits hfirst htextFirst,
      Alternatives.scan_none hothersFits hothers htextOthers, scanFrom_close]
    have hslice : slice pattern (before.length + 1)
        (before ++ [openBrace] ++ first.text ++ others.text).length = first.text ++ others.text := by
      have hinside := slice_inside before (first.text ++ others.text)
        (closeBrace :: (p.text ++ after)) openBrace
      rw [← htextOthers]
      simpa [Nat.add_assoc, Nat.add_comm, Nat.add_left_comm] using hinside
    have hnone : test before.length (before ++ [openBrace] ++ first.text ++ others.text).length =
        none := by
      apply hpass
      rw [hslice, hasTopLevelComma_group hfits]
      exact hasked
    rw [hnone]
    dsimp only
    have hclosed : (before ++ [openBrace] ++ first.text ++ others.text).length + 1 =
        (before ++ [openBrace] ++ first.text ++ others.text ++ [closeBrace]).length := by
      simp only [length_append, length_singleton]
    rw [hclosed, Pattern.scan_none hpFits hp htextRest, Pattern.text_group]
    congr 1
    simp only [length_append, length_cons, length_nil]
    omega

theorem Alternatives.scan_none : ∀ {ps : Alternatives}, ps.Fits →
    ps.splices many = none → ∀ {before after : Bytes}, before ++ ps.text ++ after = pattern →
    ∀ (stack : List Nat) (rest : List Bytes),
    scanFrom test stray finish before.length stack (ps.tokens ++ rest) =
      scanFrom test stray finish (before ++ ps.text).length stack rest
  | .nil, _, _, before, after, htext, stack, rest => by
    simp [Alternatives.tokens, Alternatives.text]
  | .cons p ps, hfits, h, before, after, htext, stack, rest => by
    rw [Alternatives.Fits] at hfits
    obtain ⟨hp, hps⟩ := Alternatives.splices_cons_none h
    obtain ⟨htextHead, htextTail⟩ := cons_texts htext
    rw [Alternatives.tokens, cons_append, scanFrom_skip (by decide) (by decide),
      ← length_append, append_assoc, Pattern.scan_none hfits.1 hp htextHead,
      Alternatives.scan_none hfits.2 hps htextTail, Alternatives.text_cons]
    simp

end

/-- A group that is not asked for, and has none inside, is passed. -/
theorem scan_group {first : Pattern} {others : Alternatives} (hfits : first.Fits true)
    (hothersFits : others.Fits) (hfirst : first.splices many = none)
    (hothers : others.splices many = none) (hasked : ¬ others.Asked many) {before after : Bytes}
    (htext : before ++ openBrace :: (first.text ++ others.text ++ closeBrace :: after) = pattern)
    (stack : List Nat) (rest : List Bytes) :
    scanFrom test stray finish before.length stack
        ([openBrace] :: (first.tokens ++ others.tokens ++ [closeBrace] :: rest)) =
      scanFrom test stray finish
        (before ++ openBrace :: (first.text ++ others.text ++ [closeBrace])).length stack rest := by
  have halone : (Pattern.group first others .nil).Fits true := by
    rw [Pattern.Fits, Pattern.Fits]
    exact ⟨hfits, hothersFits, trivial⟩
  have hnone : (Pattern.group first others .nil).splices many = none := by
    simp only [Pattern.splices, hfirst, hothers, if_neg hasked, Option.map_none]
  have htextAlone : (Pattern.group first others .nil).text =
      openBrace :: (first.text ++ others.text ++ [closeBrace]) := Pattern.text_group ..
  have hwhole : before ++ (Pattern.group first others .nil).text ++ after = pattern := by
    rw [htextAlone, ← htext]
    simp
  have htokens : [openBrace] :: (first.tokens ++ others.tokens ++ [closeBrace] :: rest) =
      (Pattern.group first others .nil).tokens ++ rest := by
    simp [Pattern.tokens]
  rw [htokens, Pattern.scan_none hpass halone hnone hwhole, htextAlone]

mutual

theorem Pattern.scan_some : ∀ {p : Pattern} {inside : Bool} {qs : List Pattern}, p.Fits inside →
    p.splices many = some qs → ∀ {before after : Bytes}, before ++ p.text ++ after = pattern →
    ∃ s : Site many, s.text = pattern ∧ s.results = qs.map (fun q => before ++ q.text ++ after) ∧
      ∀ stack rest a, test s.start s.stop = some a →
        scanFrom test stray finish before.length stack (p.tokens ++ rest) = a
  | .nil, _, _, _, h, _, _, _ => by simp [Pattern.splices] at h
  | .atom a p, _, qs, hfits, h, before, after, htext => by
    rw [Pattern.Fits] at hfits
    obtain ⟨rs, hrs, rfl⟩ := Pattern.splices_atom h
    rw [Pattern.text_atom, ← append_assoc] at htext
    obtain ⟨s, hs, hresults, hscan⟩ := Pattern.scan_some hfits.2 hrs htext
    refine ⟨s, hs, ?_, ?_⟩
    · exact results_map hresults fun q => by simp [Pattern.text_atom]
    · intro stack rest b hb
      rw [Pattern.tokens, cons_append, scanFrom_skip a.text_ne_open a.text_ne_close,
        ← length_append]
      exact hscan stack rest b hb
  | .group first others p, _, qs, hfits, h, before, after, htext => by
    rw [Pattern.Fits] at hfits
    obtain ⟨hfits, hothersFits, hpFits⟩ := hfits
    have hopened : before.length + 1 = (before ++ [openBrace]).length := by simp
    obtain ⟨htextFirst, htextOthers, htextRest⟩ := group_texts htext
    obtain ⟨fs, hfs, rfl⟩ | ⟨hfirst, os, hos, rfl⟩ | ⟨hfirst, hothers, hasked, rfl⟩ |
      ⟨hfirst, hothers, hasked, rs, hrs, rfl⟩ := Pattern.splices_group h
    · obtain ⟨s, hs, hresults, hscan⟩ := Pattern.scan_some hfits hfs htextFirst
      refine ⟨s, hs, ?_, ?_⟩
      · exact results_map hresults fun q => by simp [Pattern.text_group]
      · intro stack rest b hb
        rw [Pattern.tokens, cons_append, scanFrom_open, append_assoc, append_assoc,
          hopened]
        exact hscan _ _ b hb
    · obtain ⟨s, hs, hresults, hscan⟩ := Alternatives.scan_some hothersFits hos htextOthers
      refine ⟨s, hs, ?_, ?_⟩
      · exact results_map hresults fun q => by simp [Pattern.text_group]
      · intro stack rest b hb
        rw [Pattern.tokens, cons_append, scanFrom_open, append_assoc, append_assoc,
          hopened, Pattern.scan_none hpass hfits hfirst htextFirst]
        exact hscan _ _ b hb
    · refine ⟨⟨before, first, others, p.text ++ after, hfits, hothersFits, hfirst, hothers, hasked⟩,
        ?_, ?_, ?_⟩
      · rw [← htextOthers]
        simp [Site.text, Site.content]
      · exact results_map rfl fun q => by simp [Pattern.text_append]
      · intro stack rest b hb
        have hstop : (before ++ [openBrace] ++ first.text ++ others.text).length =
            before.length + 1 + (first.text ++ others.text).length := by
          simp only [length_append, length_cons, length_nil]
          omega
        rw [Pattern.tokens, cons_append, scanFrom_open, append_assoc, append_assoc,
          cons_append, hopened, Pattern.scan_none hpass hfits hfirst htextFirst,
          Alternatives.scan_none hpass hothersFits hothers htextOthers, scanFrom_close, hstop]
        have hjudged : test before.length
            (before.length + 1 + (first.text ++ others.text).length) = some b := hb
        rw [hjudged]
    · obtain ⟨s, hs, hresults, hscan⟩ := Pattern.scan_some hpFits hrs htextRest
      refine ⟨s, hs, ?_, ?_⟩
      · exact results_map hresults fun q => by simp [Pattern.text_group]
      · intro stack rest b hb
        have hgroup : before ++ openBrace ::
            (first.text ++ others.text ++ closeBrace :: (p.text ++ after)) = pattern := by
          rw [← htextRest]
          simp
        have hpassed : (before ++ openBrace :: (first.text ++ others.text ++ [closeBrace])).length =
            (before ++ [openBrace] ++ first.text ++ others.text ++ [closeBrace]).length := by
          simp
        rw [Pattern.tokens, cons_append, append_assoc, cons_append,
          scan_group hpass hfits hothersFits hfirst hothers hasked hgroup, hpassed]
        exact hscan _ _ b hb

theorem Alternatives.scan_some : ∀ {ps : Alternatives} {qs : List Alternatives}, ps.Fits →
    ps.splices many = some qs → ∀ {before after : Bytes}, before ++ ps.text ++ after = pattern →
    ∃ s : Site many, s.text = pattern ∧ s.results = qs.map (fun q => before ++ q.text ++ after) ∧
      ∀ stack rest a, test s.start s.stop = some a →
        scanFrom test stray finish before.length stack (ps.tokens ++ rest) = a
  | .nil, _, _, h, _, _, _ => by simp [Alternatives.splices] at h
  | .cons p ps, qs, hfits, h, before, after, htext => by
    rw [Alternatives.Fits] at hfits
    obtain ⟨htextHead, htextTail⟩ := cons_texts htext
    obtain ⟨rs, hrs, rfl⟩ | ⟨hp, rs, hrs, rfl⟩ := Alternatives.splices_cons h
    · obtain ⟨s, hs, hresults, hscan⟩ := Pattern.scan_some hfits.1 hrs htextHead
      refine ⟨s, hs, ?_, ?_⟩
      · exact results_map hresults fun q => by simp [Alternatives.text_cons]
      · intro stack rest b hb
        rw [Alternatives.tokens, cons_append, scanFrom_skip (by decide) (by decide),
          ← length_append, append_assoc]
        exact hscan _ _ b hb
    · obtain ⟨s, hs, hresults, hscan⟩ := Alternatives.scan_some hfits.2 hrs htextTail
      refine ⟨s, hs, ?_, ?_⟩
      · exact results_map hresults fun q => by simp [Alternatives.text_cons]
      · intro stack rest b hb
        rw [Alternatives.tokens, cons_append, scanFrom_skip (by decide) (by decide),
          ← length_append, append_assoc, Pattern.scan_none hpass hfits.1 hp htextHead]
        exact hscan _ _ b hb

end

end Scan

section Whole

variable {α : Type} {test : Nat → Nat → Option α} {stray : Nat → α} {finish : List Nat → α}
  {many inside : Bool} {p : Pattern}
  (hpass : ∀ start stop, hasTopLevelComma (slice p.text (start + 1) stop) ≠ many →
    test start stop = none)

include hpass

theorem Pattern.scan_whole_none (hfits : p.Fits inside) (h : p.splices many = none) :
    scanFrom test stray finish 0 [] p.tokens = finish [] := by
  have hwhole : [] ++ p.text ++ [] = p.text := append_nil _
  rw [← append_nil p.tokens]
  exact Pattern.scan_none hpass hfits h hwhole [] []

theorem Pattern.scan_whole_some {qs : List Pattern} (hfits : p.Fits inside)
    (h : p.splices many = some qs) :
    ∃ s : Site many, s.text = p.text ∧ s.results = qs.map Pattern.text ∧
      ∀ a, test s.start s.stop = some a → scanFrom test stray finish 0 [] p.tokens = a := by
  have hwhole : [] ++ p.text ++ [] = p.text := append_nil _
  obtain ⟨s, hs, hresults, hscan⟩ := Pattern.scan_some hpass hfits h hwhole
  refine ⟨s, hs, ?_, fun a ha => ?_⟩
  · rw [hresults]
    apply map_congr_left
    intro q _
    rw [nil_append, append_nil]
  · rw [← append_nil p.tokens]
    exact hscan [] [] a ha

end Whole

end Evener.GlobPattern
